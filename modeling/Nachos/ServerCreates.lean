import Nachos.ServerNetwork

/-! Creates of locks and conditions on several servers: what a message of this protocol
does at the server that handles it, and which ids and names stand in messages and in
pending creates. -/
namespace Nachos.Network
open SlotTables Executions

/-- The object a create asks for. -/
def creates : Request → Option (StructureType × Name)
  | .createLock name => some (.lock, name)
  | .createCV name => some (.cv, name)
  | _ => none

theorem creates_ne_mv {r : Request} {k : StructureType × Name} (h : creates r = some k) :
    k.1 ≠ .mv := by
  cases r <;> simp only [creates, reduceCtorEq, Option.some.injEq] at h
  all_goals
    subst h
    simp

/-- CREATE_LOCK or CREATE_CV of a client, as it arrives at a server. -/
def ClientCreate (S : Setting) (p : Packet) : Prop :=
  ¬ S.IsServer p.fromMachine ∧ p.toMailbox = 0 ∧ ∃ r, p.data = .request r ∧ creates r ≠ none

def PendingCreate.key (pc : PendingCreate) : StructureType × Name := (pc.type, pc.name)

theorem PendingCreate.isAMatch_eq (pc : PendingCreate) (key : StructureType × Name) :
    pc.isAMatch key.2 key.1 = decide (pc.key = key) := by
  obtain ⟨type, name⟩ := key
  by_cases h : pc.name = name <;> by_cases h' : type = pc.type <;>
    simp [isAMatch, PendingCreate.key, h, h', @eq_comm _ pc.type type]

def Server.pending? (s : Server) (key : StructureType × Name) : Option PendingCreate :=
  s.pendingCreates.find? fun pc => pc.key = key

/-- One pending create for a name at most. -/
def Server.DistinctPending (s : Server) : Prop := (s.pendingCreates.map PendingCreate.key).Nodup

theorem Server.pending?_iff {s : Server} (hd : s.DistinctPending) {key : StructureType × Name}
    {pc : PendingCreate} : s.pending? key = some pc ↔ pc ∈ s.pendingCreates ∧ pc.key = key := by
  constructor
  · intro h
    exact ⟨List.mem_of_find?_eq_some h, by simpa using List.find?_some h⟩
  · rintro ⟨hm, rfl⟩
    cases hf : s.pending? pc.key with
    | none =>
      have := List.find?_eq_none.mp hf pc hm
      simp at this
    | some pc' =>
      have hm' := List.mem_of_find?_eq_some hf
      have hk : pc'.key = pc.key := by simpa using List.find?_some hf
      rw [List.inj_on_of_nodup_map hd hm' hm hk]

theorem Server.pending?_eq_none {s : Server} {key : StructureType × Name} :
    s.pending? key = none ↔ ∀ pc ∈ s.pendingCreates, pc.key ≠ key := by
  simp [Server.pending?, List.find?_eq_none]

theorem BoxOne.scanPending_of_none {key : StructureType × Name} {asker : ℤ} :
    ∀ l : List PendingCreate, (∀ pc ∈ l, pc.key ≠ key) →
      BoxOne.scanPending key.2 key.1 asker l = none := by
  intro l
  induction l with
  | nil => exact fun _ => rfl
  | cons pc l ih =>
    intro h
    have hpc : pc.key ≠ key := h pc (by simp)
    simp only [BoxOne.scanPending, PendingCreate.isAMatch_eq, hpc, decide_false,
      Bool.false_eq_true, if_false]
    exact ih fun x hx => h x (List.mem_cons_of_mem _ hx)

/-- With one pending create for the name, the search finds it. -/
theorem BoxOne.scanPending_eq {key : StructureType × Name} {asker : ℤ} :
    ∀ l : List PendingCreate, (l.map PendingCreate.key).Nodup →
      BoxOne.scanPending key.2 key.1 asker l =
        (l.find? fun pc => pc.key = key).map fun pc => (pc, pc.responseTracker asker) := by
  intro l
  induction l with
  | nil => exact fun _ => rfl
  | cons pc l ih =>
    intro hn
    rw [List.map_cons, List.nodup_cons] at hn
    by_cases hpc : pc.key = key
    · have hl : ∀ x ∈ l, x.key ≠ key := by
        intro x hx he
        exact hn.1 (List.mem_map.mpr ⟨x, hx, he.trans hpc.symm⟩)
      cases ht : pc.responseTracker asker <;>
        simp [BoxOne.scanPending, PendingCreate.isAMatch_eq, hpc, ht,
          BoxOne.scanPending_of_none l hl]
    · simp only [BoxOne.scanPending, PendingCreate.isAMatch_eq, hpc, decide_false,
        Bool.false_eq_true, if_false, List.find?_cons_of_neg, not_false_eq_true]
      exact ih hn.2

/-! Objects. -/

/-- The object of a completed create. -/
def createObject (s : Server) (key : StructureType × Name) : Server × ℤ :=
  match key.1 with
  | .lock => serverCreateLock s key.2
  | .cv => serverCreateCV s key.2
  | .mv => (s, -1)

theorem search_isSome_iff {α : Type} {t : SlotTable α} {p : α → Bool} :
    (search t p).isSome = true ↔ ∃ i a, live? t i = some a ∧ p a = true := by
  constructor
  · intro h
    obtain ⟨i, hi⟩ := Option.isSome_iff_exists.mp h
    obtain ⟨a, ha⟩ := search_some hi
    exact ⟨i, a, ha⟩
  · rintro ⟨i, a, ha, hp⟩
    by_contra h
    rw [Option.not_isSome_iff_eq_none] at h
    simp [search_none.mp h i a ha] at hp

/-- A create adds nothing of another name. -/
theorem search_createEntry {α : Type} {t : SlotTable α} {sameName q : α → Bool} {fresh : α}
    (hq : q fresh = false) :
    (search (createEntry t sameName fresh).1 q).isSome = (search t q).isSome := by
  rw [Bool.eq_iff_iff, search_isSome_iff, search_isSome_iff]
  have hlive := createEntry_live t sameName fresh
  constructor
  · rintro ⟨i, a, ha, hp⟩
    rcases hlive i with h | ⟨-, h⟩
    · exact ⟨i, a, h ▸ ha, hp⟩
    · rw [h] at ha
      obtain rfl := Option.some.inj ha
      simp [hq] at hp
  · rintro ⟨i, a, ha, hp⟩
    rcases hlive i with h | ⟨h, -⟩
    · exact ⟨i, a, h.trans ha, hp⟩
    · simp [h] at ha

/-- A create removes nothing. -/
theorem search_createEntry_mono {α : Type} {t : SlotTable α} {sameName q : α → Bool} {fresh : α}
    (h : (search t q).isSome = true) : (search (createEntry t sameName fresh).1 q).isSome = true := by
  obtain ⟨i, a, ha, hp⟩ := search_isSome_iff.mp h
  refine search_isSome_iff.mpr ⟨i, a, ?_, hp⟩
  rcases createEntry_live t sameName fresh i with h | ⟨h, -⟩
  · exact h.trans ha
  · simp [h] at ha

theorem search_allocate {α : Type} (n : ℕ) (t : SlotTable α) (q : α → Bool) :
    (search (allocate n t) q).isSome = (search t q).isSome := by
  rw [Bool.eq_iff_iff, search_isSome_iff, search_isSome_iff]
  simp only [live?_allocate]

open BoxOne in
theorem checkIfExists_createObject {s : Server} {key key' : StructureType × Name}
    (h : key' ≠ key) :
    (checkIfExists (createObject s key).1 key'.1 key'.2).isSome =
      (checkIfExists s key'.1 key'.2).isSome := by
  obtain ⟨type, name⟩ := key
  obtain ⟨type', name'⟩ := key'
  cases type <;> cases type' <;> try rfl
  · have hn : name ≠ name' := fun he => h (by rw [he])
    exact (search_createEntry (q := fun e : ServerLockEntry => decide (e.lock.name = name'))
      (decide_eq_false hn)).trans (search_allocate _ _ _)
  · have hn : name ≠ name' := fun he => h (by rw [he])
    exact (search_createEntry
      (q := fun e : ServerConditionEntry => decide (e.condition.name = name'))
      (decide_eq_false hn)).trans (search_allocate _ _ _)

open BoxOne in
theorem checkIfExists_createObject_mono {s : Server} {key key' : StructureType × Name}
    (h : (checkIfExists s key'.1 key'.2).isSome = true) :
    (checkIfExists (createObject s key).1 key'.1 key'.2).isSome = true := by
  obtain ⟨type, name⟩ := key
  obtain ⟨type', name'⟩ := key'
  cases type <;> cases type' <;> try exact h
  · exact search_createEntry_mono ((search_allocate _ _ _).trans h)
  · exact search_createEntry_mono ((search_allocate _ _ _).trans h)

theorem createObject_frame (s : Server) (key : StructureType × Name) :
    (createObject s key).1.pendingCreates = s.pendingCreates ∧
      (createObject s key).1.nextQueryID = s.nextQueryID := by
  obtain ⟨type, name⟩ := key
  cases type <;> exact ⟨rfl, rfl⟩

/-! Which ids and names are about. -/

variable {S : Setting} {key key' : ℤ → ℕ → StructureType × Name} {next next' : ℤ → ℕ}

/-- From one server-to-server thread to another. -/
structure BetweenServers (S : Setting) (p : Packet) : Prop where
  server : S.IsServer p.fromMachine
  ne : p.fromMachine ≠ p.toMachine
  fromMailbox : p.fromMailbox = 1
  toMailbox : p.toMailbox = 1

/-- A message of the protocol in flight. Answers carry only an id. -/
def ProperMessage (S : Setting) (key : ℤ → ℕ → StructureType × Name) (next : ℤ → ℕ)
    (p : Packet) : Prop :=
  match p.data with
  | .request r => creates r ≠ none ∧ ¬ S.IsServer p.fromMachine
  | .doYouHaveName type id name =>
    BetweenServers S p ∧ id < next p.fromMachine ∧ key p.fromMachine id = (type, name)
  | .haveName _ id | .doNotHaveName _ id => BetweenServers S p ∧ id < next p.toMachine
  | _ => False

/-- The pending creates of server `j`. -/
structure Registered (S : Setting) (key : ℤ → ℕ → StructureType × Name) (next : ℤ → ℕ)
    (j : ℤ) (s : Server) : Prop where
  responses : s.necessaryResponses = []
  distinct : s.DistinctPending
  id : ∀ pc ∈ s.pendingCreates, pc.ID < next j ∧ key j pc.ID = pc.key
  clients : ∀ pc ∈ s.pendingCreates, pc.waitingClients ≠ [] ∧ ∀ qs ∈ pc.waitingClients,
    ¬ S.IsServer qs.packet.fromMachine ∧
      ∃ r, qs.packet.data = .request r ∧ creates r = some pc.key
  queued : ∀ pc ∈ s.pendingCreates, ∀ r ∈ pc.serverResponseQueue,
    (S.IsServer r.replyMachine ∧ r.replyMachine ≠ j ∧ r.replyMailbox = 1) ∧
      r.replyMessageID < next r.replyMachine ∧ key r.replyMachine r.replyMessageID = pc.key

structure Registry (S : Setting) (key : ℤ → ℕ → StructureType × Name) (g : System) : Prop where
  server : ∀ j, Registered S key (fun i => (g.server i).nextQueryID) j (g.server j)
  served : ∀ p ∈ g.net, S.Served p
  proper : ∀ p ∈ g.net, ProperMessage S key (fun i => (g.server i).nextQueryID) p

/-- Later ids are about anything. -/
def Agrees (next : ℤ → ℕ) (key key' : ℤ → ℕ → StructureType × Name) : Prop :=
  ∀ i n, n < next i → key' i n = key i n

theorem ProperMessage.mono {p : Packet} (h : ProperMessage S key next p)
    (hn : ∀ i, next i ≤ next' i) (hk : Agrees next key key') : ProperMessage S key' next' p := by
  obtain ⟨_, _, _, _, data⟩ := p
  cases data <;> try exact h
  · obtain ⟨hb, hlt, he⟩ := h
    exact ⟨hb, hlt.trans_le (hn _), (hk _ _ hlt).trans he⟩
  · exact ⟨h.1, h.2.trans_le (hn _)⟩
  · exact ⟨h.1, h.2.trans_le (hn _)⟩

theorem Registered.mono {j : ℤ} {s : Server} (h : Registered S key next j s)
    (hn : ∀ i, next i ≤ next' i) (hk : Agrees next key key') : Registered S key' next' j s := by
  refine ⟨h.responses, h.distinct, fun pc hpc => ?_, h.clients, fun pc hpc r hr => ?_⟩
  · obtain ⟨hlt, he⟩ := h.id pc hpc
    exact ⟨hlt.trans_le (hn j), (hk _ _ hlt).trans he⟩
  · obtain ⟨hb, hlt, he⟩ := h.queued pc hpc r hr
    exact ⟨hb, hlt.trans_le (hn _), (hk _ _ hlt).trans he⟩

/-- Ids tell the pending creates of a server apart. -/
theorem Registered.eq_of_id {j : ℤ} {s : Server} (h : Registered S key next j s)
    {pc pc' : PendingCreate} (hpc : pc ∈ s.pendingCreates) (hpc' : pc' ∈ s.pendingCreates)
    (he : pc.ID = pc'.ID) : pc = pc' := by
  refine List.inj_on_of_nodup_map h.distinct hpc hpc' ?_
  rw [← (h.id pc hpc).2, ← (h.id pc' hpc').2, he]

end Nachos.Network
