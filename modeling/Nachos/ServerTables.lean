import Nachos.ServerQueries
import Nachos.ServerNetwork

/-! The three tables of a server under any message: sequences of updates of single entries
and of creates. From this, what the tables look like in every run: allocated in full or not
at all, and with one entry a name. -/
namespace Nachos.SlotTables

variable {α κ : Type*} {t : SlotTable α} {f : α → κ} {i j : ℤ} {a b : α}

/-- Entries in use differ in `f`. -/
def DistinctBy (f : α → κ) (t : SlotTable α) : Prop :=
  ∀ i j a b, live? t i = some a → live? t j = some b → f a = f b → i = j

theorem DistinctBy.nil : DistinctBy f ([] : SlotTable α) := by
  intro i j a b hi
  simp at hi

/-- Every entry in use was there before under the same key. -/
theorem DistinctBy.of_map (h : DistinctBy f t) {t' : SlotTable α}
    (hk : ∀ i k, (live? t' i).map f = some k → (live? t i).map f = some k) : DistinctBy f t' := by
  intro i j a b hi hj he
  obtain ⟨a', ha', hae⟩ := Option.map_eq_some_iff.mp (hk i (f a) (by simp [hi]))
  obtain ⟨b', hb', hbe⟩ := Option.map_eq_some_iff.mp (hk j (f b) (by simp [hj]))
  exact h i j a' b' ha' hb' (by rw [hae, hbe, he])

theorem DistinctBy.allocate (h : DistinctBy f t) (n : ℕ) : DistinctBy f (allocate n t) := by
  intro i j a b hi hj he
  rw [live?_allocate] at hi hj
  exact h i j a b hi hj he

/-- A new key goes to a free slot. -/
theorem DistinctBy.put_firstFree (h : DistinctBy f t) {i : ℕ} (hi : firstFree t = some i)
    (hnew : ∀ j b, live? t j = some b → f b ≠ f a) : DistinctBy f (put t i a) := by
  intro j₁ j₂ b₁ b₂ h₁ h₂ he
  rw [live?_put_firstFree hi] at h₁ h₂
  split_ifs at h₁ h₂ with e₁ e₂ e₂
  · rw [e₁, e₂]
  · exact absurd (Option.some.inj h₁ ▸ he.symm) (hnew j₂ b₂ h₂)
  · exact absurd (Option.some.inj h₂ ▸ he) (hnew j₁ b₁ h₁)
  · exact h j₁ j₂ b₁ b₂ h₁ h₂ he

/-- The first free slot is the lowest. -/
theorem firstFree_eq_some_iff {i : ℕ} :
    firstFree t = some i ↔ i < t.length ∧ live? t i = none ∧
      ∀ j : ℤ, 0 ≤ j → j < i → live? t j ≠ none := by
  unfold firstFree
  rw [List.findIdx?_eq_some_iff_getElem]
  constructor
  · rintro ⟨hlt, hnone, hbefore⟩
    refine ⟨hlt, by simp [live?, hlt, Option.isNone_iff_eq_none.mp hnone], fun j h0 hj => ?_⟩
    have hb := hbefore j.toNat (by omega)
    have hjlt : j.toNat < t.length := by omega
    cases hc : t[j.toNat] with
    | none => simp [hc] at hb
    | some a => simp [live?, h0, hjlt, hc]
  · rintro ⟨hlt, hnone, hbefore⟩
    refine ⟨hlt, ?_, fun j hj => ?_⟩
    · simpa [live?, hlt, Option.join_eq_none_iff, Option.isNone_iff_eq_none] using hnone
    · have hb := hbefore j (by omega) (by omega)
      have hjlt : j < t.length := by omega
      cases hc : t[j] with
      | none => simp [live?, hjlt, hc] at hb
      | some a => simp

end Nachos.SlotTables

namespace Nachos.Network
open SlotTables BoxOne Executions

variable {S : Setting} {cfg : Config} {s t u : Server} {p : Packet} {out : List Packet}

/-- One change of the tables. -/
inductive TableMove : Server → Server → Prop
  | update {s t : Server} (h : Update s t) : TableMove s t
  | createLock (s : Server) (name : Name) : TableMove s (serverCreateLock s name).1
  | createCV (s : Server) (name : Name) : TableMove s (serverCreateCV s name).1
  | createMV {s : Server} {name : Name} {numEntries initialValue : ℤ} {r : Server × ℤ}
      (h : serverCreateMV s name numEntries initialValue = .ok r) : TableMove s r.1
  | elsewhere {s t : Server} (hl : t.locks = s.locks) (hc : t.conditions = s.conditions)
      (hm : t.mvs = s.mvs) : TableMove s t

def TableMoves : Server → Server → Prop := Relation.ReflTransGen TableMove

namespace TableMoves

theorem refl (s : Server) : TableMoves s s := Relation.ReflTransGen.refl

theorem of (h : TableMove s t) : TableMoves s t := Relation.ReflTransGen.single h

theorem trans (h : TableMoves s t) (h' : TableMoves t u) : TableMoves s u :=
  Relation.ReflTransGen.trans h h'

theorem of_updates (h : Updates s t) : TableMoves s t :=
  Relation.ReflTransGen.mono (fun _ _ => TableMove.update) _ _ h

theorem elsewhere (hl : t.locks = s.locks) (hc : t.conditions = s.conditions)
    (hm : t.mvs = s.mvs) : TableMoves s t := .of (.elsewhere hl hc hm)

/-- What every change keeps. -/
theorem keeps {P : Server → Prop} (h : TableMoves s t) (hs : P s)
    (hP : ∀ s t, TableMove s t → P s → P t) : P t := by
  induction h with
  | refl => exact hs
  | tail _ hm ih => exact hP _ _ hm ih

end TableMoves

theorem flush_tableMoves (cfg : Config) (o : Outcome) :
    TableMoves o.server (BoxZero.flush cfg o).1 := by
  unfold BoxZero.flush
  split_ifs
  · exact .elsewhere rfl rfl rfl
  · exact .refl _

/-- The creates of a lone server. -/
theorem create_tableMoves {r : Request} {k : StructureType × Name} {o : Outcome}
    (hr : creation r = some k) (h : BoxZero.request cfg s p r = .ok o) : TableMoves s o.server := by
  have hanswer : ∀ {s t : Server} {n : ℤ}, TableMoves s t →
      TableMoves s (BoxZero.answer t p n).server := fun hm =>
    hm.trans (.of_updates (.pushResponse _ _))
  cases r <;> simp only [creation, reduceCtorEq] at hr
  · obtain rfl := Except.ok.inj h
    unfold BoxZero.createLock
    split
    · exact hanswer (.refl s)
    · split_ifs
      · exact hanswer (.of (.createLock s _))
      · exact .refl s
  · obtain rfl := Except.ok.inj h
    unfold BoxZero.createCV
    split
    · exact hanswer (.refl s)
    · split_ifs
      · exact hanswer (.of (.createCV s _))
      · exact .refl s
  · simp only [BoxZero.request, BoxZero.createMV] at h
    split at h
    · obtain rfl := Except.ok.inj h
      exact hanswer (.refl s)
    · split_ifs at h
      · obtain ⟨q, hq, h⟩ := bind_eq_ok.mp h
        obtain rfl := Except.ok.inj h
        exact hanswer (.of (.createMV hq))
      · obtain rfl := Except.ok.inj h
        exact .refl s

theorem boxZero_tableMoves (h : boxZero cfg s p = .ok (t, out)) : TableMoves s t := by
  by_cases hcreate : ∃ r k, p.data = .request r ∧ creation r = some k
  · obtain ⟨r, k, hp, hr⟩ := hcreate
    cases ho : BoxZero.handle cfg s p with
    | error f => simp [boxZero, ho, Except.map] at h
    | ok o =>
      have hflush : BoxZero.flush cfg o = (t, out) := by
        simpa only [boxZero, ho, Except.map, Except.ok.injEq] using h
      simp only [BoxZero.handle, hp] at ho
      have hlast := flush_tableMoves cfg o
      rw [hflush] at hlast
      exact (create_tableMoves hr ho).trans hlast
  · have hnone : ∀ r, p.data = .request r → creation r = none := by
      intro r hp
      by_contra hne
      obtain ⟨k, hk⟩ := Option.ne_none_iff_exists'.mp hne
      exact hcreate ⟨r, k, hp, hk⟩
    exact .of_updates (boxZero_routing (fun _ => hnone) h).1

theorem createPending_tableMoves {type : StructureType} {data : Message} {r : Server × ℤ}
    (h : createPending s type data = .ok r) : TableMoves s r.1 := by
  unfold createPending at h
  split at h
  · obtain rfl := Except.ok.inj h
    exact .of (.createLock s _)
  · obtain rfl := Except.ok.inj h
    exact .of (.createCV s _)
  · exact .of (.createMV h)
  · cases h

theorem doNotHaveName_tableMoves {id : ℕ} (h : doNotHaveName cfg s p id = .ok (t, out)) :
    TableMoves s t := by
  rcases doNotHaveName_cases h with ⟨-, -, rfl, -⟩ | ⟨pc, -, hcase⟩
  · exact .refl _
  · rcases hcase with ⟨-, rfl, -⟩ | ⟨-, client, rest, r, -, hr, rfl, -⟩
    · exact .elsewhere rfl rfl rfl
    · exact (createPending_tableMoves hr).trans (.elsewhere rfl rfl rfl)

/-- Only the conclusion of a create changes the tables at mailbox 1. -/
theorem boxOne_tableMoves (h : boxOne cfg s p = .ok (t, out)) : TableMoves s t := by
  have hcreate : ∀ type name queried, TableMoves s (create cfg s p type name queried).1 := by
    intro type name queried
    unfold create
    split
    · exact .refl s
    · split <;> exact .elsewhere rfl rfl rfl
  cases hd : p.data with
  | request r =>
    simp only [boxOne, hd] at h
    obtain ⟨rfl, -⟩ := Prod.mk.inj (Except.ok.inj h)
    cases r with
    | createLock | createCV | createMV => exact hcreate _ _ _
    | _ => exact .elsewhere rfl rfl rfl
  | doYouHave type id index =>
    simp only [boxOne, hd] at h
    obtain ⟨rfl, -⟩ := Prod.mk.inj (Except.ok.inj h)
    exact .refl _
  | haveObject type id =>
    simp only [boxOne, hd] at h
    obtain rfl : (haveObject s p id).1 = t := congrArg Prod.fst (Except.ok.inj h)
    unfold haveObject
    split
    · exact .refl _
    · exact .elsewhere rfl rfl rfl
  | doNotHaveObject type id =>
    simp only [boxOne, hd] at h
    obtain ⟨rfl, -⟩ := Prod.mk.inj (Except.ok.inj h)
    unfold doNotHaveObject
    split
    · exact .refl _
    · split_ifs
      · exact .elsewhere rfl rfl rfl
      · exact .refl _
  | doYouHaveName type id name =>
    simp only [boxOne, hd] at h
    obtain rfl : (doYouHaveName cfg s p type id name).1 = t :=
      congrArg Prod.fst (Except.ok.inj h)
    unfold doYouHaveName
    split
    · exact .refl _
    · unfold determineResponseToCreateRequest
      split
      · exact .refl _
      · exact .elsewhere rfl rfl rfl
      · split_ifs
        · exact .elsewhere rfl rfl rfl
        · exact .refl _
  | haveName type id =>
    simp only [boxOne, hd] at h
    obtain rfl : (haveName s p id).1 = t := congrArg Prod.fst (Except.ok.inj h)
    unfold haveName
    split
    · exact .refl _
    · exact .elsewhere rfl rfl rfl
  | doNotHaveName type id =>
    simp only [boxOne, hd] at h
    exact doNotHaveName_tableMoves h
  | _ => simp [boxOne, hd] at h

theorem handlePacket_tableMoves (h : handlePacket S s p = .ok (t, out)) : TableMoves s t := by
  unfold handlePacket at h
  split_ifs at h
  · exact boxZero_tableMoves h
  · exact boxOne_tableMoves h

/-- The entry of that kind and index is as it was. -/
def SameEntry (s t : Server) (type : StructureType) (i : ℤ) : Prop :=
  match type with
  | .lock => t.lock? i = s.lock? i
  | .cv => t.condition? i = s.condition? i
  | .mv => t.mv? i = s.mv? i

theorem SameEntry.refl (s : Server) (type : StructureType) (i : ℤ) : SameEntry s s type i := by
  cases type <;> rfl

/-! Names. -/

/-- In each table the entries in use have different names. -/
structure Server.NamesApart (s : Server) : Prop where
  locks : DistinctBy (fun e : ServerLockEntry => e.lock.name) s.locks
  conditions : DistinctBy (fun e : ServerConditionEntry => e.condition.name) s.conditions
  mvs : DistinctBy (fun e : ServerMVEntry => e.name) s.mvs

theorem Server.NamesApart.initial : Server.initial.NamesApart := ⟨.nil, .nil, .nil⟩

theorem Server.NamesApart.nameAt (h : s.NamesApart) {type : StructureType} {i j : ℤ} {name : Name}
    (hi : s.nameAt type i = some name) (hj : s.nameAt type j = some name) : i = j := by
  cases type
  all_goals
    obtain ⟨a, ha, hae⟩ := Option.map_eq_some_iff.mp hi
    obtain ⟨b, hb, hbe⟩ := Option.map_eq_some_iff.mp hj
  · exact h.locks i j a b ha hb (hae.trans hbe.symm)
  · exact h.conditions i j a b ha hb (hae.trans hbe.symm)
  · exact h.mvs i j a b ha hb (hae.trans hbe.symm)

theorem createEntry_distinctBy {α : Type} {t : SlotTable α} {nameOf : α → Name} {name : Name}
    {fresh : α} (h : DistinctBy nameOf t) (hfresh : nameOf fresh = name) :
    DistinctBy nameOf (createEntry t (fun e => nameOf e = name) fresh).1 := by
  unfold createEntry
  cases hs : search t (fun e => nameOf e = name) with
  | some i => exact h
  | none =>
    cases hf : firstFree t with
    | none => exact h
    | some i =>
      refine h.put_firstFree hf fun j b hb => ?_
      simpa [hfresh] using search_none.mp hs j b hb

theorem tableMove_namesApart (h : TableMove s t) (hs : s.NamesApart) : t.NamesApart := by
  cases h with
  | update h =>
    have hn : ∀ type i k, t.nameAt type i = some k → s.nameAt type i = some k :=
      fun _ _ _ => h.nameAt
    exact ⟨hs.locks.of_map (hn .lock), hs.conditions.of_map (hn .cv), hs.mvs.of_map (hn .mv)⟩
  | createLock name =>
    exact ⟨createEntry_distinctBy (hs.locks.allocate _) rfl, hs.conditions, hs.mvs⟩
  | createCV name =>
    exact ⟨hs.locks, createEntry_distinctBy (hs.conditions.allocate _) rfl, hs.mvs⟩
  | @createMV name numEntries initialValue r h =>
    unfold serverCreateMV at h
    dsimp only at h
    split_ifs at h
    · obtain rfl := Except.ok.inj h
      exact ⟨hs.locks, hs.conditions, hs.mvs.allocate _⟩
    · obtain rfl := Except.ok.inj h
      exact ⟨hs.locks, hs.conditions, createEntry_distinctBy (hs.mvs.allocate _) rfl⟩
  | elsewhere hl hc hm => exact ⟨hl ▸ hs.locks, hc ▸ hs.conditions, hm ▸ hs.mvs⟩

/-! Sizes. -/

/-- Each table is not allocated yet or has its full size. -/
structure Server.Allocated (s : Server) : Prop where
  locks : s.locks.length = 0 ∨ s.locks.length = 500
  conditions : s.conditions.length = 0 ∨ s.conditions.length = 500
  mvs : s.mvs.length = 0 ∨ s.mvs.length = 500

theorem Server.Allocated.initial : Server.initial.Allocated := ⟨.inl rfl, .inl rfl, .inl rfl⟩

theorem length_allocate_eq {α : Type} {t : SlotTable α} (h : t.length = 0 ∨ t.length = 500) :
    (allocate 500 t).length = 500 := by
  unfold allocate
  split_ifs with h0
  · exact List.length_replicate
  · exact h.resolve_left h0

theorem tableMove_allocated (h : TableMove s t) (hs : s.Allocated) : t.Allocated := by
  have hfull : ∀ {α : Type} {t : SlotTable α} (sameName : α → Bool) (fresh : α),
      t.length = 0 ∨ t.length = 500 →
      (createEntry (allocate 500 t) sameName fresh).1.length = 500 := fun _ _ ht =>
    (length_createEntry _ _ _).trans (length_allocate_eq ht)
  cases h with
  | update h =>
    obtain ⟨-, -, -, hl, hc, hm⟩ := KeepsQueries.of_update h
    exact ⟨hl ▸ hs.locks, hc ▸ hs.conditions, hm ▸ hs.mvs⟩
  | createLock name => exact ⟨.inr (hfull _ _ hs.locks), hs.conditions, hs.mvs⟩
  | createCV name => exact ⟨hs.locks, .inr (hfull _ _ hs.conditions), hs.mvs⟩
  | @createMV name numEntries initialValue r h =>
    unfold serverCreateMV at h
    dsimp only at h
    split_ifs at h
    · obtain rfl := Except.ok.inj h
      exact ⟨hs.locks, hs.conditions, .inr (length_allocate_eq hs.mvs)⟩
    · obtain rfl := Except.ok.inj h
      exact ⟨hs.locks, hs.conditions, .inr (hfull _ _ hs.mvs)⟩
  | elsewhere hl hc hm => exact ⟨hl ▸ hs.locks, hc ▸ hs.conditions, hm ▸ hs.mvs⟩

/-! Runs. -/

theorem tableMoves_kept (h : TableMoves s t) (hs : s.NamesApart ∧ s.Allocated) :
    t.NamesApart ∧ t.Allocated :=
  h.keeps (P := fun s => s.NamesApart ∧ s.Allocated) hs fun _ _ hm ht =>
    ⟨tableMove_namesApart hm ht.1, tableMove_allocated hm ht.2⟩

/-- The tables of every server at any time. -/
theorem network_tables {tr : List NetworkStep} {g : System}
    (h : Execution (Handles (network S)) .initial tr g) (j : ℤ) :
    (g.server j).NamesApart ∧ (g.server j).Allocated := by
  have hall := h.invariant (P := fun g => ∀ j, (g.server j).NamesApart ∧ (g.server j).Allocated)
    (fun j => ⟨.initial, .initial⟩) fun g e g' hg hs =>
      network_forall_servers (P := fun _ s => s.NamesApart ∧ s.Allocated) hs hg
        fun s p t out hP hp => tableMoves_kept (handlePacket_tableMoves hp) hP
  exact hall j

end Nachos.Network
