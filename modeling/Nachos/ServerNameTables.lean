import Nachos.ServerCreateNumbers
import Nachos.ServerReplyContract
import Nachos.ServerTables

/-! The names in the tables of a lone server: what a create answers, after any creates and
destroys. -/
namespace Nachos.Network
open SlotTables BoxOne Executions

variable {strayTemp : Bool} {s t : Server} {p : Packet} {r : Request}
  {k : StructureType × Name} {n : ℤ} {type : StructureType} {i : ℤ}

/-- The messages that create and destroy. -/
def IsNaming : Request → Prop
  | .createLock _ | .createCV _ | .createMV .. => True
  | .destroyLock _ | .destroyCV _ | .destroyMV _ => True
  | _ => False

/-- The size of the array that a create asks for. -/
def entriesAsked : Request → ℤ
  | .createMV numEntries _ _ => numEntries
  | _ => 0

/-- The lowest slot that is free. -/
structure LowestFree (s : Server) (type : StructureType) (i : ℤ) : Prop where
  range : 0 ≤ i ∧ i < 500
  free : s.nameAt type i = none
  lowest : ∀ j, 0 ≤ j → j < i → s.nameAt type j ≠ none

def IsFull (s : Server) (type : StructureType) : Prop :=
  ∀ i, 0 ≤ i → i < 500 → s.nameAt type i ≠ none

/-- What a create answers and does. -/
structure CreatesRight (s t : Server) (r : Request) (k : StructureType × Name) (n : ℤ) : Prop where
  live : ∀ i, s.nameAt k.1 i = some k.2 → n = i ∧ t = s
  fresh : (∀ i, s.nameAt k.1 i ≠ some k.2) → entriesAsked r ≤ 500 → ∀ i, LowestFree s k.1 i →
    n = i ∧ t.nameAt k.1 i = some k.2 ∧ ∀ type j, (type, j) ≠ (k.1, i) → SameEntry s t type j
  full : (∀ i, s.nameAt k.1 i ≠ some k.2) → IsFull s k.1 → n = -1 ∧ t = s
  tooLong : (∀ i, s.nameAt k.1 i ≠ some k.2) → 500 < entriesAsked r →
    n = -1 ∧ ∀ type j, SameEntry s t type j

/-- The cases of a create at a lone server. -/
inductive CreateOutcome (s : Server) (r : Request) (k : StructureType × Name) :
    Server → ℤ → Prop
  | found {i : ℕ} (h : checkIfExists s k.1 k.2 = some i) : CreateOutcome s r k s i
  | made {i : ℕ} {t : Server} (h : checkIfExists s k.1 k.2 = none) (hi : LowestFree s k.1 i)
      (hsize : entriesAsked r ≤ 500) (hname : t.nameAt k.1 i = some k.2)
      (hsame : ∀ type j, (type, j) ≠ (k.1, (i : ℤ)) → SameEntry s t type j) :
      CreateOutcome s r k t i
  | full (h : checkIfExists s k.1 k.2 = none) (hfull : IsFull s k.1) : CreateOutcome s r k s (-1)
  | tooLong {t : Server} (h : checkIfExists s k.1 k.2 = none) (hsize : 500 < entriesAsked r)
      (hsame : ∀ type j, SameEntry s t type j) (hfull : IsFull s k.1 → t = s) :
      CreateOutcome s r k t (-1)

theorem LowestFree.unique {i j : ℤ} (hi : LowestFree s type i) (hj : LowestFree s type j) :
    i = j := by
  rcases lt_trichotomy i j with h | h | h
  · exact absurd hi.free (hj.lowest i hi.range.1 h)
  · exact h
  · exact absurd hj.free (hi.lowest j hj.range.1 h)

theorem CreateOutcome.right (h : CreateOutcome s r k t n) (hs : s.NamesApart) :
    CreatesRight s t r k n := by
  have hnew : checkIfExists s k.1 k.2 = none → ∀ i, s.nameAt k.1 i ≠ some k.2 := fun h =>
    checkIfExists_none.mp h
  cases h with
  | found h =>
    have hname := checkIfExists_some h
    exact ⟨fun j hj => ⟨hs.nameAt hname hj, rfl⟩, fun hn => absurd hname (hn _),
      fun hn => absurd hname (hn _), fun hn => absurd hname (hn _)⟩
  | made h hi hsize hname hsame =>
    refine ⟨fun j hj => absurd hj (hnew h j), fun _ _ j hj => ?_, fun _ hfull => ?_,
      fun _ hlt => absurd hsize (not_le.mpr hlt)⟩
    · obtain rfl := hi.unique hj
      exact ⟨rfl, hname, hsame⟩
    · exact absurd hi.free (hfull _ hi.range.1 hi.range.2)
  | full h hfull =>
    exact ⟨fun j hj => absurd hj (hnew h j),
      fun _ _ j hj => absurd hj.free (hfull j hj.range.1 hj.range.2), fun _ _ => ⟨rfl, rfl⟩,
      fun _ _ => ⟨rfl, .refl s⟩⟩
  | tooLong h hsize hsame hfull =>
    exact ⟨fun j hj => absurd hj (hnew h j), fun _ hle => absurd hle (not_le.mpr hsize),
      fun _ hf => ⟨rfl, hfull hf⟩, fun _ _ => ⟨rfl, hsame⟩⟩

/-! One table. -/

theorem allocate_of_full {α : Type} {t : SlotTable α} (h : live? t 0 ≠ none) :
    allocate 500 t = t := by
  unfold allocate
  rw [if_neg]
  intro h0
  obtain rfl := List.length_eq_zero_iff.mp h0
  simp at h

/-- A create of a new name on its table. -/
theorem createEntry_new {α : Type} {t : SlotTable α} {sameName : α → Bool} (fresh : α)
    (ht : t.length = 0 ∨ t.length = 500) (hnew : search t sameName = none) :
    (∃ i : ℕ, i < 500 ∧ live? t i = none ∧ (∀ j : ℤ, 0 ≤ j → j < i → live? t j ≠ none) ∧
      (createEntry (allocate 500 t) sameName fresh).2 = i ∧
      ∀ j, live? (createEntry (allocate 500 t) sameName fresh).1 j =
        if j = i then some fresh else live? t j) ∨
    (∀ j : ℤ, 0 ≤ j → j < 500 → live? t j ≠ none) ∧
      createEntry (allocate 500 t) sameName fresh = (t, -1) := by
  have hlen := length_allocate_eq ht
  have hnew' : search (allocate 500 t) sameName = none := by
    rw [search_none] at hnew ⊢
    simpa only [live?_allocate] using hnew
  cases hf : firstFree (allocate 500 t) with
  | some i =>
    have hi := firstFree_eq_some_iff.mp hf
    simp only [live?_allocate, hlen] at hi
    refine .inl ⟨i, hi.1, hi.2.1, hi.2.2, ?_, fun j => ?_⟩
    · simp [createEntry, hnew', hf]
    · simp [createEntry, hnew', hf, live?_put_firstFree hf]
  | none =>
    have hfull : ∀ j : ℤ, 0 ≤ j → j < 500 → live? t j ≠ none := by
      intro j h0 hj
      have h := firstFree_none hf h0 (by omega)
      rwa [live?_allocate] at h
    refine .inr ⟨hfull, ?_⟩
    have hsame := allocate_of_full (hfull 0 le_rfl (by omega))
    rw [hsame] at hnew' hf ⊢
    simp only [createEntry, hnew', hf]

/-- The same in a server with that table; `build` gives the server with another one. -/
theorem entry_outcome {α : Type} {tb : SlotTable α} (nameOf : α → Name) (fresh : α)
    (build : SlotTable α → Server) (hfresh : nameOf fresh = k.2)
    (htb : tb.length = 0 ∨ tb.length = 500) (hnew : search tb (fun e => nameOf e = k.2) = none)
    (hcheck : checkIfExists s k.1 k.2 = none) (hsize : entriesAsked r ≤ 500) (hself : build tb = s)
    (hname : ∀ tb' i, (build tb').nameAt k.1 i = (live? tb' i).map nameOf)
    (hsame : ∀ tb' type j, (type = k.1 → live? tb' j = live? tb j) →
      SameEntry s (build tb') type j) :
    CreateOutcome s r k
      (build (createEntry (allocate 500 tb) (fun e => nameOf e = k.2) fresh).1)
      (createEntry (allocate 500 tb) (fun e => nameOf e = k.2) fresh).2 := by
  have hbefore : ∀ i, s.nameAt k.1 i = (live? tb i).map nameOf := fun i => hself ▸ hname tb i
  rcases createEntry_new fresh htb hnew with ⟨i, hi, hfree, hlow, hn, hlive⟩ | ⟨hfull, he⟩
  · rw [hn]
    refine .made hcheck ⟨⟨by omega, by omega⟩, by simp [hbefore, hfree], fun j h0 hj => ?_⟩ hsize ?_
      fun type j hne => hsame _ type j fun htype => ?_
    · simpa [hbefore] using hlow j h0 hj
    · rw [hname, hlive i, if_pos rfl, Option.map_some, hfresh]
    · rw [hlive j, if_neg]
      rintro rfl
      exact hne (by rw [htype])
  · rw [he, hself]
    exact .full hcheck fun j h0 hj => by simpa [hbefore] using hfull j h0 hj

theorem serverCreateLock_outcome {name : Name} (hs : s.Allocated)
    (h : checkIfLockExists s name = none) :
    CreateOutcome s (.createLock name) (.lock, name) (serverCreateLock s name).1
      (serverCreateLock s name).2 := by
  refine entry_outcome (k := (.lock, name)) (fun e : ServerLockEntry => e.lock.name) _
    (fun tb => { s with locks := tb }) rfl hs.locks h h (by simp [entriesAsked]) rfl
    (fun _ _ => rfl) fun tb' type j hj => ?_
  cases type with
  | lock => exact hj rfl
  | _ => rfl

theorem serverCreateCV_outcome {name : Name} (hs : s.Allocated)
    (h : checkIfCVExists s name = none) :
    CreateOutcome s (.createCV name) (.cv, name) (serverCreateCV s name).1
      (serverCreateCV s name).2 := by
  refine entry_outcome (k := (.cv, name))
    (fun e : ServerConditionEntry => e.condition.name) _
    (fun tb => { s with conditions := tb }) rfl hs.conditions h h (by simp [entriesAsked])
    rfl (fun _ _ => rfl) fun tb' type j hj => ?_
  cases type with
  | cv => exact hj rfl
  | _ => rfl

theorem firstFree_of_isFull (hs : s.Allocated) (h : IsFull s .mv) :
    firstFree (allocate maxServerMVArrays s.mvs) = none := by
  cases hf : firstFree (allocate maxServerMVArrays s.mvs) with
  | none => rfl
  | some i =>
    obtain ⟨hi, hfree, -⟩ := firstFree_eq_some_iff.mp hf
    rw [show maxServerMVArrays = 500 from rfl, length_allocate_eq hs.mvs] at hi
    refine absurd ?_ (h i (by omega) (by omega))
    simpa [Server.nameAt, Server.mv?] using hfree

/-- An array that is too long allocates the table and nothing else. A negative size does no harm
where no slot is free. -/
theorem serverCreateMV_outcome {name : Name} {numEntries : ℤ} (initialValue : ℤ) (hs : s.Allocated)
    (h : checkIfMVExists s name = none) (h0 : numEntries < 0 → IsFull s .mv) :
    ∃ q, serverCreateMV s name numEntries initialValue = .ok q ∧
      CreateOutcome s (.createMV numEntries initialValue name) (.mv, name) q.1 q.2 := by
  by_cases hlong : numEntries > maxServerEntriesPerMVArray
  · refine ⟨({ s with mvs := allocate 500 s.mvs }, -1), ?_, ?_⟩
    · unfold serverCreateMV
      exact if_pos hlong
    · refine .tooLong h hlong (fun type j => ?_) fun hfull => ?_
      · cases type with
        | mv => exact live?_allocate _ _ _
        | _ => rfl
      · have h0 : live? s.mvs 0 ≠ none := by
          simpa [Server.nameAt, Server.mv?] using hfull 0 le_rfl (by omega)
        rw [allocate_of_full h0]
  · refine ⟨(_, _), ?_, entry_outcome (k := (.mv, name)) (r := .createMV numEntries initialValue name)
      (fun e : ServerMVEntry => e.name)
      ⟨List.replicate numEntries.toNat initialValue, numEntries, name⟩
      (fun tb => { s with mvs := tb }) rfl hs.mvs h h (not_lt.mp hlong) rfl
      (fun _ _ => rfl) fun tb' type j hj => ?_⟩
    · have hroom : ¬ (search (allocate maxServerMVArrays s.mvs) (fun e => e.name = name) = none ∧
          firstFree (allocate maxServerMVArrays s.mvs) ≠ none ∧ numEntries < 0) :=
        fun hbad => hbad.2.1 (firstFree_of_isFull hs (h0 hbad.2.2))
      unfold serverCreateMV
      dsimp only
      rw [if_neg hlong, if_neg hroom]
      rfl
    · cases type with
      | mv => exact hj rfl
      | _ => rfl

/-! The handler. -/

theorem flush_answer_quiet {cfg : Config} (h : t.necessaryResponses = []) (p : Packet) (n : ℤ) :
    BoxZero.flush cfg (BoxZero.answer t p n) =
      (t, [⟨p.fromMachine, p.fromMailbox, cfg.myMachineID, 0, .reply n⟩]) :=
  flush_pushResponse h _ []

variable (strayTemp) in
/-- A lone server answers every create at once. -/
theorem create_handled (hs : s.Allocated) (hres : s.necessaryResponses = [])
    (hp : p.data = .request r) (hr : creation r = some k)
    (h0 : entriesAsked r < 0 → (∃ i, s.nameAt k.1 i = some k.2) ∨ IsFull s k.1) :
    ∃ t n, boxZero ⟨0, 1, strayTemp⟩ s p =
        .ok (t, [⟨p.fromMachine, p.fromMailbox, 0, 0, .reply n⟩]) ∧ CreateOutcome s r k t n := by
  have hnumber : ∀ i : ℤ, encodeIndex ⟨0, 1, strayTemp⟩ i = i := by simp [encodeIndex]
  cases r <;> simp only [creation, reduceCtorEq, Option.some.injEq] at hr <;> subst hr
  · rename_i name
    simp only [boxZero, BoxZero.handle, hp, BoxZero.request, BoxZero.createLock, if_true, Except.map]
    cases hc : checkIfLockExists s name with
    | some i => exact ⟨s, i, by rw [flush_answer_quiet hres, hnumber], .found hc⟩
    | none =>
      have ht : (serverCreateLock s name).1.necessaryResponses = [] := hres
      exact ⟨_, _, congrArg Except.ok (flush_answer_quiet ht p _), serverCreateLock_outcome hs hc⟩
  · rename_i name
    simp only [boxZero, BoxZero.handle, hp, BoxZero.request, BoxZero.createCV, if_true, Except.map]
    cases hc : checkIfCVExists s name with
    | some i => exact ⟨s, i, by rw [flush_answer_quiet hres, hnumber], .found hc⟩
    | none =>
      have ht : (serverCreateCV s name).1.necessaryResponses = [] := hres
      exact ⟨_, _, congrArg Except.ok (flush_answer_quiet ht p _), serverCreateCV_outcome hs hc⟩
  · rename_i numEntries initialValue name
    simp only [boxZero, BoxZero.handle, hp, BoxZero.request, BoxZero.createMV, if_true]
    cases hc : checkIfMVExists s name with
    | some i => exact ⟨s, i, by simp only [Except.map, flush_answer_quiet hres, hnumber], .found hc⟩
    | none =>
      have hfull : numEntries < 0 → IsFull s .mv := fun hlt =>
        (h0 hlt).resolve_left fun h => h.elim (checkIfExists_none (k := (.mv, name)).mp hc)
      obtain ⟨q, hq, hout⟩ := serverCreateMV_outcome initialValue hs hc hfull
      have hq' : q.1.necessaryResponses = [] := by
        unfold serverCreateMV at hq
        dsimp only at hq
        split_ifs at hq <;> rw [← Except.ok.inj hq] <;> exact hres
      refine ⟨q.1, q.2, ?_, hout⟩
      simp only [hq, bind, Except.bind, Except.map, flush_answer_quiet hq', hnumber]

/-- What holds between two messages. -/
structure Listed (s : Server) : Prop where
  names : s.NamesApart
  allocated : s.Allocated
  responses : s.necessaryResponses = []

theorem listed_step {out : List Packet} (hs : Listed s) (hp : p.data = .request r)
    (hr : IsNaming r) (h : boxZero ⟨0, 1, strayTemp⟩ s p = .ok (t, out)) : Listed t := by
  obtain ⟨hn, ha⟩ := tableMoves_kept (boxZero_tableMoves h) ⟨hs.names, hs.allocated⟩
  refine ⟨hn, ha, boxZero_flushes hs.responses hp ?_ h⟩
  cases r with
  | cvOperation => cases hr
  | _ => trivial

/-- After any creates and destroys the names in each table differ, and the next create is
answered as it should be. -/
theorem name_tables {tr : List (Transition Server (Packet × List Packet))}
    (h : Execution (Handles (boxZero ⟨0, 1, strayTemp⟩)) .initial tr s)
    (hm : ∀ x ∈ tr, ∃ r, x.event.1.data = .request r ∧ IsNaming r) :
    (∀ type i j name, s.nameAt type i = some name → s.nameAt type j = some name → i = j) ∧
    ∀ p r k, p.data = .request r → creation r = some k →
      (entriesAsked r < 0 → (∃ i, s.nameAt k.1 i = some k.2) ∨ IsFull s k.1) →
      ∃ t n, boxZero ⟨0, 1, strayTemp⟩ s p =
        .ok (t, [⟨p.fromMachine, p.fromMailbox, 0, 0, .reply n⟩]) ∧ CreatesRight s t r k n := by
  have hs : Listed s := by
    refine (h.restrict (Q := fun e => ∃ r, e.1.data = .request r ∧ IsNaming r) hm).invariant
      ⟨.initial, .initial, rfl⟩ ?_
    rintro s e t hs ⟨hst, r, hp, hr⟩
    exact listed_step hs hp hr hst
  refine ⟨fun type i j name hi hj => hs.names.nameAt hi hj, fun p r k hp hr h0 => ?_⟩
  obtain ⟨t, n, ht, hout⟩ := create_handled strayTemp hs.allocated hs.responses hp hr h0
  exact ⟨t, n, ht, hout.right hs.names⟩

/-- After two creates and a destroy the lower slot is taken again. -/
theorem name_tables_hole :
    ∃ (tr : List (Transition Server (Packet × List Packet))) (s : Server),
      Execution (Handles (boxZero ⟨0, 1, false⟩)) .initial tr s ∧
      tr.map (fun x => x.event.1.data) = [.request (.createLock [97]), .request (.createLock [98]),
        .request (.destroyLock 0), .request (.createMV 3 7 [97])] ∧
      LowestFree s .lock 0 ∧ ∃ t n, boxZero ⟨0, 1, false⟩ s ⟨0, 0, 5, 9, .request (.createLock [99])⟩ =
        .ok (t, [⟨5, 9, 0, 0, .reply n⟩]) ∧ CreatesRight s t (.createLock [99]) (.lock, [99]) n := by
  obtain ⟨tr, s, h, hmap, htest⟩ := exists_of_trace (boxZero ⟨0, 1, false⟩) .initial
    [⟨0, 0, 1, 0, .request (.createLock [97])⟩, ⟨0, 0, 1, 0, .request (.createLock [98])⟩,
      ⟨0, 0, 1, 0, .request (.destroyLock 0)⟩, ⟨0, 0, 1, 0, .request (.createMV 3 7 [97])⟩]
    (fun r => r.2.nameAt .lock 0 = none) (by decide +kernel)
  have hm : ∀ x ∈ tr, ∃ r, x.event.1.data = .request r ∧ IsNaming r :=
    forall_inputs (Q := fun p => ∃ r, p.data = .request r ∧ IsNaming r) hmap (by simp [IsNaming])
  refine ⟨tr, s, h, ?_, ⟨by omega, of_decide_eq_true htest, fun j h0 hj => by omega⟩,
    (name_tables h hm).2 ⟨0, 0, 5, 9, .request (.createLock [99])⟩ _ _ rfl rfl
      (fun hlt => absurd hlt (lt_irrefl 0))⟩
  simpa [Function.comp_def] using congrArg (List.map Packet.data) hmap

/-- An array of 501 entries is refused although every slot is free. -/
theorem createMV_tooLong :
    LowestFree .initial .mv 0 ∧ ∃ t, boxZero ⟨0, 1, false⟩ .initial
      ⟨0, 0, 5, 9, .request (.createMV 501 0 [97])⟩ = .ok (t, [⟨5, 9, 0, 0, .reply (-1)⟩]) ∧
      ∀ i, t.nameAt .mv i = none := by
  refine ⟨⟨by omega, rfl, fun j h0 hj => by omega⟩,
    { Server.initial with mvs := allocate 500 [] }, rfl, fun i => ?_⟩
  simp [Server.nameAt, Server.mv?]

end Nachos.Network
