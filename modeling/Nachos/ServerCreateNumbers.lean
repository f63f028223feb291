import Nachos.ServerQueries

/-! The number that a create sends back, at the five places of `network/server.cc` that answer
one: mailbox 0, mailbox 1 at once, and mailbox 1 after the last negative reply. -/
namespace Nachos.Network
open SlotTables Executions BoxOne

variable {S : Setting} {cfg : Config} {s t : Server} {p : Packet} {out : List Packet}
  {r : Request} {k : StructureType × Name} {n : ℤ}

/-- A number that goes to a client as the outcome of its create. -/
inductive SentBack (s : Server) (p : Packet) (out : List Packet) : Request → ℤ → Prop
  | atOnce {r : Request} {q : Packet} {n : ℤ} (hp : p.data = .request r)
      (hq : out.getLast? = some q) (hn : q.data = .reply n) : SentBack s p out r n
  | concluded {type : StructureType} {id : ℕ} {pc : PendingCreate} {qs : QueryStatus}
      {r : Request} {q : Packet} {n : ℤ} (hp : p.data = .doNotHaveName type id)
      (hpc : s.pendingCreates.find? (fun pc => pc.ID = id) = some pc)
      (hqs : qs ∈ pc.waitingClients) (hr : qs.packet.data = .request r) (hq : q ∈ out)
      (hto : q.toMachine = qs.packet.fromMachine ∧ q.toMailbox = qs.packet.fromMailbox)
      (hn : q.data = .reply n) : SentBack s p out r n

/-- The number decodes to this machine and to an entry in use of that kind and name. -/
def Designates (cfg : Config) (t : Server) (k : StructureType × Name) (n : ℤ) : Prop :=
  ownerOf n = cfg.myMachineID ∧ t.nameAt k.1 (decodeIndex cfg n) = some k.2

/-- `-1` for want of an object of that name, or the number of one. -/
def NumberRight (cfg : Config) (t : Server) (k : StructureType × Name) (n : ℤ) : Prop :=
  (n = -1 ∧ ∀ i, t.nameAt k.1 i ≠ some k.2) ∨ Designates cfg t k n

/-- Every create that the message answers gets a right number. -/
def NumbersRight (S : Setting) (x : Transition Server (Packet × List Packet)) : Prop :=
  ∀ r k n, SentBack x.before x.event.1 x.event.2 r n → creation r = some k →
    NumberRight (S.config x.event.1.toMachine) x.after k n

/-- There is a free slot for the new object, and the array is not too long. -/
def HasRoom (s : Server) : Request → Prop
  | .createLock _ => firstFree (allocate maxServerLocks s.locks) ≠ none
  | .createCV _ => firstFree (allocate maxServerCVs s.conditions) ≠ none
  | .createMV numEntries _ _ => numEntries ≤ maxServerEntriesPerMVArray ∧
      firstFree (allocate maxServerMVArrays s.mvs) ≠ none
  | _ => True

/-- The message is none that sends a number of machine 0 from another machine: the index
of a new lock or condition of a lone server, or the encoding of the index `-1`. -/
def EncodesOwn (S : Setting) (s : Server) (p : Packet) : Prop :=
  p.toMachine = 0 ∨
    match p.data with
    | .request r => p.toMailbox = 0 → S.totalNumServers = 1 → ∀ k, creation r = some k →
        checkIfExists s k.1 k.2 = none → (HasRoom s r ↔ k.1 = .mv)
    | .doNotHaveName _ id => p.toMailbox ≠ 0 → ∀ pc client r,
        s.pendingCreates.find? (fun pc => pc.ID = id) = some pc →
        pc.numResponses + 1 = S.totalNumServers - 1 → pc.waitingClients.head? = some client →
        client.packet.data = .request r → HasRoom s r
    | _ => True

/-! One creation. -/

theorem creation_eq_none_iff : creation r = none ↔ queriedBy r ≠ none := by
  cases r <;> simp [creation, queriedBy, routedBy]

theorem checkIfExists_some {i : ℕ} (h : checkIfExists s k.1 k.2 = some i) :
    s.nameAt k.1 i = some k.2 := by
  obtain ⟨type, name⟩ := k
  cases type <;> obtain ⟨e, he, hname⟩ := search_some h
  · simpa [Server.nameAt, Server.lock?, he] using hname
  · simpa [Server.nameAt, Server.condition?, he] using hname
  · simpa [Server.nameAt, Server.mv?, he] using hname

theorem checkIfExists_none :
    checkIfExists s k.1 k.2 = none ↔ ∀ i, s.nameAt k.1 i ≠ some k.2 := by
  obtain ⟨type, name⟩ := k
  cases type
  · refine search_none.trans (forall_congr' fun i => ?_)
    simp [Server.nameAt, Server.lock?]
  · refine search_none.trans (forall_congr' fun i => ?_)
    simp [Server.nameAt, Server.condition?]
  · refine search_none.trans (forall_congr' fun i => ?_)
    simp [Server.nameAt, Server.mv?]

/-- What a create of a new name does to the entries of its kind. -/
structure Created (s t : Server) (r : Request) (k : StructureType × Name) (i : ℤ) : Prop where
  found : HasRoom s r → (0 ≤ i ∧ i < 500) ∧ t.nameAt k.1 i = some k.2
  failed : ¬ HasRoom s r → i = -1 ∧ ∀ j, t.nameAt k.1 j ≠ some k.2
  names : ∀ type j name, t.nameAt type j = some name →
    s.nameAt type j = some name ∨ (type, name) = k
  pending : t.pendingCreates = s.pendingCreates
  next : t.nextQueryID = s.nextQueryID

/-- A create of a new name on an allocated table. -/
structure EntryCreated {α : Type} (t : SlotTable α) (nameOf : α → Name) (name : Name)
    (r : SlotTable α × ℤ) : Prop where
  found : firstFree (allocate 500 t) ≠ none →
    (0 ≤ r.2 ∧ r.2 < 500) ∧ (live? r.1 r.2).map nameOf = some name
  failed : firstFree (allocate 500 t) = none →
    r.2 = -1 ∧ ∀ j, (live? r.1 j).map nameOf ≠ some name
  names : ∀ j n, (live? r.1 j).map nameOf = some n → (live? t j).map nameOf = some n ∨ n = name

theorem createEntry_created {α : Type} {t : SlotTable α} (nameOf : α → Name) {name : Name}
    (fresh : α) (hsize : t.length ≤ 500) (hfresh : nameOf fresh = name)
    (h : search t (fun e => nameOf e = name) = none) :
    EntryCreated t nameOf name
      (createEntry (allocate 500 t) (fun e => nameOf e = name) fresh) := by
  have hnone : ∀ j, (live? t j).map nameOf ≠ some name := by
    intro j hj
    obtain ⟨e, he, hname⟩ := Option.map_eq_some_iff.mp hj
    have := search_none.mp h j e he
    simp [hname] at this
  have hsearch : search (allocate 500 t) (fun e => nameOf e = name) = none := by
    rw [search_none] at h ⊢
    simpa only [live?_allocate] using h
  unfold createEntry
  cases hf : firstFree (allocate 500 t) with
  | none =>
    simp only [hsearch]
    refine ⟨fun hne => absurd hf hne, fun _ => ⟨rfl, ?_⟩, fun j n hj => Or.inl ?_⟩
    · simpa only [live?_allocate] using hnone
    · simpa only [live?_allocate] using hj
  | some i =>
    simp only [hsearch]
    have hlt := (firstFree_some hf).1
    have hlen := length_allocate hsize
    refine ⟨fun _ => ⟨⟨by omega, by omega⟩, ?_⟩, fun hne => by simp [hf] at hne, fun j n hj => ?_⟩
    · simp [live?_put_firstFree hf, hfresh]
    · rw [live?_put_firstFree hf, live?_allocate] at hj
      split_ifs at hj
      · exact Or.inr (hfresh ▸ (Option.some.inj hj).symm)
      · exact Or.inl hj

theorem serverCreateLock_created {name : Name} (hs : s.Sized)
    (h : checkIfLockExists s name = none) :
    Created s (serverCreateLock s name).1 (.createLock name) (.lock, name)
      (serverCreateLock s name).2 := by
  have hc := createEntry_created (fun e : ServerLockEntry => e.lock.name)
    ⟨ServerLock.new name, false, 0⟩ hs.locks rfl h
  refine ⟨hc.found, fun hr => hc.failed (not_not.mp hr), fun type j n hj => ?_, rfl, rfl⟩
  cases type with
  | lock => exact (hc.names j n hj).imp id (congrArg (Prod.mk StructureType.lock))
  | _ => exact Or.inl hj

theorem serverCreateCV_created {name : Name} (hs : s.Sized)
    (h : checkIfCVExists s name = none) :
    Created s (serverCreateCV s name).1 (.createCV name) (.cv, name)
      (serverCreateCV s name).2 := by
  have hc := createEntry_created (fun e : ServerConditionEntry => e.condition.name)
    ⟨ServerCondition.new name, false⟩ hs.conditions rfl h
  refine ⟨hc.found, fun hr => hc.failed (not_not.mp hr), fun type j n hj => ?_, rfl, rfl⟩
  cases type with
  | cv => exact (hc.names j n hj).imp id (congrArg (Prod.mk StructureType.cv))
  | _ => exact Or.inl hj

theorem serverCreateMV_created {name : Name} {numEntries initialValue : ℤ} {q : Server × ℤ}
    (hs : s.Sized) (h : checkIfMVExists s name = none)
    (hq : serverCreateMV s name numEntries initialValue = .ok q) :
    Created s q.1 (.createMV numEntries initialValue name) (.mv, name) q.2 := by
  have hc := createEntry_created (fun e : ServerMVEntry => e.name)
    ⟨List.replicate numEntries.toNat initialValue, numEntries, name⟩ hs.mvs rfl h
  unfold serverCreateMV at hq
  dsimp only at hq
  split_ifs at hq with hn hneg
  · obtain rfl := Except.ok.inj hq
    have hnames : ∀ type j n, ({ s with mvs := allocate maxServerMVArrays s.mvs } :
        Server).nameAt type j = some n → s.nameAt type j = some n := by
      intro type j n hj
      cases type <;> try exact hj
      simpa [Server.nameAt, Server.mv?] using hj
    refine ⟨fun hr => absurd hr.1 (not_le.mpr hn), fun _ => ⟨rfl, fun j hj => ?_⟩,
      fun type j n hj => Or.inl (hnames type j n hj), rfl, rfl⟩
    exact (checkIfExists_none (k := (.mv, name))).mp h j (hnames .mv j name hj)
  · obtain rfl := Except.ok.inj hq
    have hroom : HasRoom s (.createMV numEntries initialValue name) ↔
        firstFree (allocate 500 s.mvs) ≠ none := and_iff_right (not_lt.mp hn)
    refine ⟨fun hr => hc.found (hroom.mp hr), fun hr => hc.failed ?_, fun type j n hj => ?_,
      rfl, rfl⟩
    · exact not_not.mp fun hne => hr (hroom.mpr hne)
    · cases type with
      | mv => exact (hc.names j n hj).imp id (congrArg (Prod.mk StructureType.mv))
      | _ => exact Or.inl hj

theorem createPending_created {q : Server × ℤ} (hs : s.Sized) (hr : creation r = some k)
    (h : checkIfExists s k.1 k.2 = none) (hq : createPending s k.1 (.request r) = .ok q) :
    Created s q.1 r k q.2 := by
  cases r <;> simp only [creation, reduceCtorEq, Option.some.injEq] at hr <;> subst hr
  · obtain rfl := Except.ok.inj hq
    exact serverCreateLock_created hs h
  · obtain rfl := Except.ok.inj hq
    exact serverCreateCV_created hs h
  · exact serverCreateMV_created hs h hq

/-! The pending creates. -/

/-- What holds of a server between two messages. -/
structure NumberInvariant (S : Setting) (s : Server) : Prop where
  sized : s.Sized
  alone : S.totalNumServers = 1 → s.pendingCreates = []
  ids : (s.pendingCreates.map PendingCreate.ID).Nodup
  next : ∀ pc ∈ s.pendingCreates, pc.ID < s.nextQueryID
  distinct : s.DistinctPending
  clients : ∀ pc ∈ s.pendingCreates, ∀ qs ∈ pc.waitingClients,
    ∃ r, qs.packet.data = .request r ∧ creation r = some pc.key
  absent : ∀ pc ∈ s.pendingCreates, checkIfExists s pc.type pc.name = none

theorem numberInvariant_initial : NumberInvariant S .initial :=
  ⟨⟨by simp [Server.initial], by simp [Server.initial], by simp [Server.initial]⟩,
    fun _ => rfl, by simp [Server.initial], by simp [Server.initial],
    by simp [Server.initial, Server.DistinctPending], by simp [Server.initial],
    by simp [Server.initial]⟩

namespace NumberInvariant

theorem waiting (h : NumberInvariant S s) : WaitingCreates s.pendingCreates := by
  intro pc hpc qs hqs
  obtain ⟨r, hr, hk⟩ := h.clients pc hpc qs hqs
  refine ⟨r, hr, ?_⟩
  by_contra hne
  simp [creation_eq_none_iff.mpr hne] at hk

/-- Fewer pending creates, and no new names of theirs. -/
theorem sublist (h : NumberInvariant S s) (hsize : t.Sized)
    (hsub : t.pendingCreates.Sublist s.pendingCreates) (hnext : s.nextQueryID ≤ t.nextQueryID)
    (hnames : ∀ pc ∈ t.pendingCreates, ∀ i, t.nameAt pc.type i = some pc.name →
      s.nameAt pc.type i = some pc.name) : NumberInvariant S t := by
  refine ⟨hsize, fun hone => ?_, h.ids.sublist (hsub.map _), fun pc hpc => ?_,
    h.distinct.sublist (hsub.map _), fun pc hpc => h.clients pc (hsub.subset hpc),
    fun pc hpc => ?_⟩
  · exact List.sublist_nil.mp (h.alone hone ▸ hsub)
  · exact (h.next pc (hsub.subset hpc)).trans_le hnext
  · have hnone := (checkIfExists_none (k := pc.key)).mp (h.absent pc (hsub.subset hpc))
    exact (checkIfExists_none (k := pc.key)).mpr fun i hi => hnone i (hnames pc hpc i hi)

/-- An update of the pending create with one id. -/
theorem modify (h : NumberInvariant S s) (id : ℕ) {f : PendingCreate → PendingCreate}
    (hkey : ∀ pc, (f pc).key = pc.key) (hid : ∀ pc, (f pc).ID = pc.ID)
    (hclients : ∀ pc ∈ s.pendingCreates, pc.ID = id → ∀ qs ∈ (f pc).waitingClients,
      qs ∈ pc.waitingClients ∨ ∃ r, qs.packet.data = .request r ∧ creation r = some pc.key) :
    NumberInvariant S (modifyPending s id f) := by
  have hmap : ∀ {β : Type} (g : PendingCreate → β), (∀ pc, g (f pc) = g pc) →
      (modifyPending s id f).pendingCreates.map g = s.pendingCreates.map g := by
    intro β g hg
    simp only [modifyPending, List.map_map]
    refine List.map_congr_left fun pc _ => ?_
    by_cases hpc : pc.ID = id <;> simp [hpc, hg]
  have hmem : ∀ pc' ∈ (modifyPending s id f).pendingCreates, ∃ pc ∈ s.pendingCreates,
      pc'.key = pc.key ∧ pc'.ID = pc.ID ∧ ∀ qs ∈ pc'.waitingClients,
        qs ∈ pc.waitingClients ∨ ∃ r, qs.packet.data = .request r ∧ creation r = some pc.key := by
    intro pc' hpc'
    obtain ⟨pc, hpc, rfl⟩ := List.mem_map.mp hpc'
    refine ⟨pc, hpc, ?_⟩
    split_ifs with he
    · exact ⟨hkey pc, hid pc, hclients pc hpc he⟩
    · exact ⟨rfl, rfl, fun qs hqs => Or.inl hqs⟩
  refine ⟨⟨h.sized.1, h.sized.2, h.sized.3⟩, fun hone => ?_, ?_, fun pc' hpc' => ?_, ?_,
    fun pc' hpc' qs hqs => ?_, fun pc' hpc' => ?_⟩
  · simp [modifyPending, h.alone hone]
  · rw [hmap _ hid]
    exact h.ids
  · obtain ⟨pc, hpc, -, he, -⟩ := hmem pc' hpc'
    exact he ▸ h.next pc hpc
  · unfold Server.DistinctPending
    rw [hmap _ hkey]
    exact h.distinct
  · obtain ⟨pc, hpc, hk, -, hqs'⟩ := hmem pc' hpc'
    rw [hk]
    rcases hqs' qs hqs with hq | hq
    · exact h.clients pc hpc qs hq
    · exact hq
  · obtain ⟨pc, hpc, hk, -, -⟩ := hmem pc' hpc'
    obtain ⟨htype, hname⟩ := Prod.mk.inj hk
    rw [htype, hname]
    exact h.absent pc hpc

theorem addWaitingClient (h : NumberInvariant S s) {pc : PendingCreate}
    (hpc : pc ∈ s.pendingCreates) (hp : p.data = .request r) (hr : creation r = some pc.key) :
    NumberInvariant S (addWaitingClient s pc.ID p) := by
  have hnext : NumberInvariant S (newQueryStatus s p none).1 :=
    h.sublist ⟨h.sized.1, h.sized.2, h.sized.3⟩ (List.Sublist.refl _) (Nat.le_succ _)
      fun _ _ _ hi => hi
  refine hnext.modify pc.ID (fun _ => rfl) (fun _ => rfl) fun pc' hpc' hid qs hqs => ?_
  obtain rfl : pc' = pc := List.inj_on_of_nodup_map h.ids hpc' hpc hid
  rcases List.mem_append.mp hqs with hqs | hqs
  · exact Or.inl hqs
  · obtain rfl := List.mem_singleton.mp hqs
    exact Or.inr ⟨r, hp, hr⟩

theorem newPendingCreate (h : NumberInvariant S s) (hN : S.totalNumServers ≠ 1)
    (hx : checkIfExists s k.1 k.2 = none) (hnew : s.pending? k = none) :
    NumberInvariant S (newPendingCreate cfg s k.2 k.1).1 := by
  have hmem : ∀ pc ∈ (BoxOne.newPendingCreate cfg s k.2 k.1).1.pendingCreates,
      pc ∈ s.pendingCreates ∨ pc = (BoxOne.newPendingCreate cfg s k.2 k.1).2 := by
    intro pc hpc
    exact (List.mem_append.mp hpc).imp id List.mem_singleton.mp
  have happend : ∀ {β : Type} (g : PendingCreate → β),
      (s.pendingCreates.map g).Nodup →
      (∀ pc ∈ s.pendingCreates, g pc ≠ g (BoxOne.newPendingCreate cfg s k.2 k.1).2) →
      ((BoxOne.newPendingCreate cfg s k.2 k.1).1.pendingCreates.map g).Nodup := by
    intro β g hn hne
    have he : (BoxOne.newPendingCreate cfg s k.2 k.1).1.pendingCreates.map g =
        s.pendingCreates.map g ++ [g (BoxOne.newPendingCreate cfg s k.2 k.1).2] := by
      simp [BoxOne.newPendingCreate]
    rw [he]
    refine List.nodup_append.mpr ⟨hn, List.nodup_singleton _, fun a ha b hb => ?_⟩
    obtain ⟨pc, hpc, rfl⟩ := List.mem_map.mp ha
    obtain rfl := List.mem_singleton.mp hb
    exact hne pc hpc
  refine ⟨⟨h.sized.1, h.sized.2, h.sized.3⟩, fun hone => absurd hone hN, ?_, fun pc hpc => ?_, ?_,
    fun pc hpc qs hqs => ?_, fun pc hpc => ?_⟩
  · exact happend _ h.ids fun pc hpc => (h.next pc hpc).ne
  · rcases hmem pc hpc with hpc | rfl
    · exact (h.next pc hpc).trans (Nat.lt_succ_self _)
    · exact Nat.lt_succ_self _
  · exact happend _ h.distinct fun pc hpc => Server.pending?_eq_none.mp hnew pc hpc
  · rcases hmem pc hpc with hpc | rfl
    · exact h.clients pc hpc qs hqs
    · cases hqs
  · rcases hmem pc hpc with hpc | rfl
    · exact h.absent pc hpc
    · exact hx

theorem create (h : NumberInvariant S s) (hN : S.totalNumServers ≠ 1)
    (hp : p.data = .request r) (hr : creation r = some k) (queried : Name) :
    NumberInvariant S (create cfg s p k.1 k.2 queried).1 := by
  unfold BoxOne.create
  cases hx : checkIfExists s k.1 k.2 with
  | some i => exact h
  | none =>
    have hfind : (s.pendingCreates.find? fun pc => pc.isAMatch k.2 k.1) = s.pending? k := by
      simp only [PendingCreate.isAMatch_eq, Server.pending?]
    dsimp only
    rw [hfind]
    cases hpc : s.pending? k with
    | some pc =>
      obtain ⟨hmem, rfl⟩ := (Server.pending?_iff h.distinct).mp hpc
      exact h.addWaitingClient hmem hp hr
    | none =>
      exact (h.newPendingCreate hN hx hpc).addWaitingClient
        (List.mem_append_right _ (List.mem_singleton_self _)) hp hr

theorem doYouHaveName (h : NumberInvariant S s) (type : StructureType) (id : ℕ) (name : Name) :
    NumberInvariant S (doYouHaveName cfg s p type id name).1 := by
  have hpost : ∀ pc, NumberInvariant S (postpone s pc p id) := by
    intro pc
    exact h.modify pc.ID (fun _ => rfl) (fun _ => rfl) fun _ _ _ _ hqs => Or.inl hqs
  unfold BoxOne.doYouHaveName determineResponseToCreateRequest
  split
  · exact h
  · split
    · exact h
    · exact hpost _
    · split_ifs
      · exact hpost _
      · exact h

theorem haveName (h : NumberInvariant S s) (id : ℕ) : NumberInvariant S (haveName s p id).1 := by
  unfold BoxOne.haveName
  split
  · exact h
  · exact h.sublist ⟨h.sized.1, h.sized.2, h.sized.3⟩ List.eraseP_sublist le_rfl
      fun _ _ _ hi => hi

/-- The creation that concludes a pending create. -/
theorem concluded (h : NumberInvariant S s) {id : ℕ} {pc : PendingCreate} {client : QueryStatus}
    {rest : List QueryStatus} {q : Server × ℤ}
    (hf : s.pendingCreates.find? (fun pc => pc.ID = id) = some pc)
    (hw : pc.waitingClients = client :: rest)
    (hq : createPending s pc.type client.packet.data = .ok q) :
    (∃ r, client.packet.data = .request r ∧ Created s q.1 r pc.key q.2) ∧
      NumberInvariant S (removePending q.1 id) := by
  have hpc := List.mem_of_find?_eq_some hf
  obtain ⟨r, hr, hk⟩ := h.clients pc hpc client (by simp [hw])
  have hcreated := createPending_created (k := pc.key) h.sized hk (h.absent pc hpc) (hr ▸ hq)
  refine ⟨⟨r, hr, hcreated⟩, ?_⟩
  have hsize := (createPending_orderly hq).1.sized h.sized
  obtain ⟨hid, l₁, l₂, hl, hfirst⟩ := List.find?_eq_some_iff_append.mp hf
  have hid : pc.ID = id := by simpa using hid
  have herase : (removePending q.1 id).pendingCreates = l₁ ++ l₂ := by
    simp only [removePending, hcreated.pending]
    rw [hl, List.eraseP_append_right _ (by simpa using hfirst)]
    simp [hid]
  -- the names of the other pending creates differ from that of the new object
  have hkeys : pc.key ∉ (l₁ ++ l₂).map PendingCreate.key := by
    have hd := h.distinct
    simp only [Server.DistinctPending, hl, List.map_append, List.map_cons] at hd
    simpa using (List.nodup_middle.mp hd).notMem
  refine h.sublist ⟨hsize.1, hsize.2, hsize.3⟩ ?_ hcreated.next.ge fun pc' hpc' i hi => ?_
  · rw [herase, hl]
    exact List.Sublist.append_left (List.sublist_cons_self _ _) _
  · rcases hcreated.names _ _ _ hi with hi | hi
    · exact hi
    · rw [herase] at hpc'
      exact absurd (hi ▸ List.mem_map_of_mem hpc') hkeys

end NumberInvariant

theorem boxOne_numberInvariant (h : NumberInvariant S s) (hN : S.totalNumServers ≠ 1)
    (hs : boxOne cfg s p = .ok (t, out)) : NumberInvariant S t := by
  have hkept : ∀ u : Server, u.pendingCreates = s.pendingCreates → s.nextQueryID ≤ u.nextQueryID →
      u.locks = s.locks → u.conditions = s.conditions → u.mvs = s.mvs → NumberInvariant S u := by
    intro u hpc hn hl hc hm
    refine h.sublist ⟨hl ▸ h.sized.1, hc ▸ h.sized.2, hm ▸ h.sized.3⟩ (hpc ▸ .refl _) hn
      fun pc _ i hi => ?_
    simpa only [Server.nameAt, Server.lock?, Server.condition?, Server.mv?, hl, hc, hm] using hi
  cases hd : p.data with
  | request r =>
    simp only [boxOne, hd] at hs
    cases r with
    | createLock name =>
      obtain ⟨rfl, -⟩ := Prod.mk.inj (Except.ok.inj hs)
      exact h.create (k := (.lock, name)) hN hd rfl name
    | createCV name =>
      obtain ⟨rfl, -⟩ := Prod.mk.inj (Except.ok.inj hs)
      exact h.create (k := (.cv, name)) hN hd rfl name
    | createMV n x name =>
      obtain ⟨rfl, -⟩ := Prod.mk.inj (Except.ok.inj hs)
      exact h.create (k := (.mv, name)) hN hd rfl (queriedMVName n x name)
    | _ =>
      obtain ⟨rfl, -⟩ := Prod.mk.inj (Except.ok.inj hs)
      exact hkept _ rfl (Nat.le_add_right _ 2) rfl rfl rfl
  | doYouHave type id index =>
    simp only [boxOne, hd] at hs
    obtain ⟨rfl, -⟩ := Prod.mk.inj (Except.ok.inj hs)
    exact h
  | haveObject type id =>
    simp only [boxOne, hd] at hs
    obtain ⟨rfl, -⟩ := Prod.mk.inj (Except.ok.inj hs)
    split
    · exact h
    · exact hkept _ rfl le_rfl rfl rfl rfl
  | doNotHaveObject type id =>
    simp only [boxOne, hd] at hs
    obtain ⟨rfl, -⟩ := Prod.mk.inj (Except.ok.inj hs)
    unfold doNotHaveObject
    split
    · exact h
    · split_ifs
      · exact hkept _ rfl le_rfl rfl rfl rfl
      · exact h
  | doYouHaveName type id name =>
    simp only [boxOne, hd] at hs
    obtain ⟨rfl, -⟩ := Prod.mk.inj (Except.ok.inj hs)
    exact h.doYouHaveName type id name
  | haveName type id =>
    simp only [boxOne, hd] at hs
    obtain ⟨rfl, -⟩ := Prod.mk.inj (Except.ok.inj hs)
    exact h.haveName id
  | doNotHaveName type id =>
    simp only [boxOne, hd] at hs
    rcases doNotHaveName_cases hs with ⟨-, -, rfl, -⟩ | ⟨pc, hf, hcase⟩
    · exact h
    · rcases hcase with ⟨-, rfl, -⟩ | ⟨-, client, rest, q, hw, hq, rfl, -⟩
      · exact h.modify id (fun _ => rfl) (fun _ => rfl) fun _ _ _ _ hqs => Or.inl hqs
      · exact (h.concluded hf hw hq).2
  | _ => simp [boxOne, hd] at hs

/-- Mailbox 0 looks the name up; a lone server creates at once, and one of several passes the
request on. -/
theorem boxZero_create (hp : p.data = .request r) (hk : creation r = some k) :
    boxZero cfg s p =
      match checkIfExists s k.1 k.2 with
      | some i => .ok (BoxZero.flush cfg (BoxZero.answer s p (encodeIndex cfg i)))
      | none =>
        if cfg.totalNumServers = 1 then
          (createPending s k.1 (.request r)).map fun c => BoxZero.flush cfg
            (BoxZero.answer c.1 p (if k.1 = .mv then encodeIndex cfg c.2 else c.2))
        else .ok (BoxZero.flush cfg (BoxZero.toBoxOne cfg s p)) := by
  simp only [boxZero, BoxZero.handle, hp]
  cases r <;> simp only [creation, reduceCtorEq, Option.some.injEq] at hk <;> subst hk
  · rename_i name
    by_cases hN : cfg.totalNumServers = 1 <;> cases hx : checkIfLockExists s name <;>
      simp [BoxZero.request, BoxZero.createLock, checkIfExists, createPending, hx, hN, Except.map]
  · rename_i name
    by_cases hN : cfg.totalNumServers = 1 <;> cases hx : checkIfCVExists s name <;>
      simp [BoxZero.request, BoxZero.createCV, checkIfExists, createPending, hx, hN, Except.map]
  · rename_i numEntries initialValue name
    by_cases hN : cfg.totalNumServers = 1 <;> cases hx : checkIfMVExists s name <;>
      cases hc : serverCreateMV s name numEntries initialValue <;>
      simp [BoxZero.request, BoxZero.createMV, checkIfExists, createPending, hx, hN, hc,
        Except.map, bind, Except.bind]

theorem flush_answered {u : Server}
    (h : BoxZero.flush cfg (BoxZero.answer u p n) = (t, out)) :
    t = { u with necessaryResponses := [] } ∧
      ∃ q, out.getLast? = some q ∧ q.data = .reply n := by
  obtain ⟨rfl, rfl⟩ := Prod.mk.inj h
  refine ⟨rfl, BoxZero.responsePacket cfg { p.response with data := n }, ?_, rfl⟩
  simp [BoxZero.answer, Server.pushResponse]

theorem handlePacket_numberInvariant (h : NumberInvariant S s)
    (hbox : p.toMailbox = 0 ∨ 1 < S.totalNumServers) (hs : handlePacket S s p = .ok (t, out)) :
    NumberInvariant S t := by
  unfold handlePacket at hs
  split_ifs at hs with hb
  · by_cases hcreate : S.totalNumServers = 1 → ∀ r, p.data = .request r → creation r = none
    · have hu := (boxZero_routing hcreate hs).1
      have hk := KeepsQueries.of_updates hu
      exact h.sublist ((Orderly.of_keeps hk).sized h.sized) (hk.pending ▸ .refl _) hk.next.ge
        fun _ _ _ hi => hu.nameAt hi
    · push Not at hcreate
      obtain ⟨hN, r, hp, hr⟩ := hcreate
      obtain ⟨k, hk⟩ := Option.ne_none_iff_exists'.mp hr
      rw [boxZero_create hp hk, Setting.config_totalNumServers, if_pos hN] at hs
      cases hx : checkIfExists s k.1 k.2 with
      | some i =>
        simp only [hx, Except.ok.injEq] at hs
        obtain ⟨rfl, -⟩ := flush_answered hs
        exact h.sublist ⟨h.sized.1, h.sized.2, h.sized.3⟩ (.refl _) le_rfl fun _ _ _ hi => hi
      | none =>
        cases hq : createPending s k.1 (.request r) with
        | error f => simp [hx, hq, Except.map] at hs
        | ok c =>
          simp only [hx, hq, Except.map, Except.ok.injEq] at hs
          obtain ⟨rfl, -⟩ := flush_answered hs
          have hcreated := createPending_created h.sized hk hx hq
          have hsize := (createPending_orderly hq).1.sized h.sized
          have hnil : c.1.pendingCreates = [] := hcreated.pending.trans (h.alone hN)
          refine h.sublist ⟨hsize.1, hsize.2, hsize.3⟩ (hcreated.pending ▸ .refl _)
            hcreated.next.ge fun pc hpc => ?_
          simp [hnil] at hpc
  · exact boxOne_numberInvariant h (by omega) hs

/-! The numbers. -/

theorem designates_encodeIndex {m : ℕ} (hm : cfg.myMachineID = m) {i : ℤ} (h0 : 0 ≤ i)
    (hi : i < 500) (hname : t.nameAt k.1 i = some k.2) : Designates cfg t k (encodeIndex cfg i) := by
  have hdecode : decodeIndex cfg (encodeIndex cfg i) = i := by simp [decodeIndex, encodeIndex]
  refine ⟨?_, by rw [hdecode, hname]⟩
  have hn : encodeIndex cfg i = 500 * m + i := by
    simp only [encodeIndex, hm, maxServerLocks]
    push_cast
    ring
  rw [hn, ownerOf, hm, decodeMachine_eq_iff (by omega)]
  omega

theorem Created.encoded_iff {m : ℕ} (hm : cfg.myMachineID = m) {i : ℤ} (h : Created s t r k i) :
    NumberRight cfg t k (encodeIndex cfg i) ↔ cfg.myMachineID = 0 ∨ HasRoom s r := by
  by_cases hr : HasRoom s r
  · obtain ⟨⟨h0, hi⟩, hname⟩ := h.found hr
    exact ⟨fun _ => Or.inr hr, fun _ => Or.inr (designates_encodeIndex hm h0 hi hname)⟩
  · obtain ⟨rfl, hnone⟩ := h.failed hr
    have hn : encodeIndex cfg (-1) = 500 * m - 1 := by
      simp only [encodeIndex, hm, maxServerLocks]
      push_cast
      ring
    simp only [hn, hm, hr, or_false, Nat.cast_eq_zero]
    constructor
    · rintro (⟨hn', -⟩ | ⟨howner, -⟩)
      · omega
      · by_contra hne
        have hpos : (0 : ℤ) ≤ 500 * m - 1 := by omega
        rw [ownerOf, hm, decodeMachine_eq_iff hpos] at howner
        omega
    · rintro rfl
      exact Or.inl ⟨by simp, hnone⟩

theorem Created.index_iff {m : ℕ} (hm : cfg.myMachineID = m) {i : ℤ} (h : Created s t r k i) :
    NumberRight cfg t k i ↔ cfg.myMachineID = 0 ∨ ¬ HasRoom s r := by
  by_cases hr : HasRoom s r
  · obtain ⟨⟨h0, hi⟩, hname⟩ := h.found hr
    simp only [hr, not_true_eq_false, or_false]
    constructor
    · rintro (⟨rfl, -⟩ | ⟨howner, -⟩)
      · omega
      · rw [ownerOf, decodeMachine_eq_iff h0] at howner
        omega
    · intro hzero
      have hd := designates_encodeIndex hm h0 hi hname
      rw [encodeIndex, hzero, zero_mul, zero_add] at hd
      exact Or.inr hd
  · obtain ⟨rfl, hnone⟩ := h.failed hr
    exact ⟨fun _ => Or.inr hr, fun _ => Or.inl ⟨rfl, hnone⟩⟩

/-- The entry that a search finds. -/
theorem numberRight_found {m : ℕ} (hm : cfg.myMachineID = m) (hs : s.Sized) {i : ℕ}
    (hx : checkIfExists s k.1 k.2 = some i) : NumberRight cfg s k (encodeIndex cfg i) := by
  have hname := checkIfExists_some hx
  have hlt : (i : ℤ) < 500 := by
    obtain ⟨type, name⟩ := k
    have hsize := hs.locks
    have hsize' := hs.conditions
    have hsize'' := hs.mvs
    cases type <;> obtain ⟨e, he, -⟩ := Option.map_eq_some_iff.mp hname <;>
      have hbound := (live?_lt_length he).2 <;> omega
  exact Or.inr (designates_encodeIndex hm (by omega) hlt hname)

/-! The answers of one message. -/

variable {x : Transition Server (Packet × List Packet)}

/-- Messages that send no number to a client for a create. -/
theorem numbersRight_of_silent (hcreate : ∀ r, x.event.1.data = .request r → creation r ≠ none →
      ∀ q n, x.event.2.getLast? = some q → q.data ≠ .reply n)
    (hconclude : ∀ type id, x.event.1.data = .doNotHaveName type id → x.event.2 = []) :
    NumbersRight S x := by
  intro r k n hsent hk
  cases hsent with
  | atOnce hp hq hn => exact absurd hn (hcreate r hp (by simp [hk]) _ n hq)
  | concluded hp _ _ _ hq => simp [hconclude _ _ hp] at hq

/-- A create that is answered at once. -/
theorem numbersRight_atOnce_iff {q : Packet} (hp : x.event.1.data = .request r)
    (hk : creation r = some k) (hq : x.event.2.getLast? = some q) (hn : q.data = .reply n) :
    NumbersRight S x ↔ NumberRight (S.config x.event.1.toMachine) x.after k n := by
  refine ⟨fun h => h r k n (.atOnce hp hq hn) hk, fun h r' k' n' hsent hk' => ?_⟩
  cases hsent with
  | atOnce hp' hq' hn' =>
    obtain rfl := Message.request.inj (hp.symm.trans hp')
    obtain rfl := Option.some.inj (hk.symm.trans hk')
    obtain rfl := Option.some.inj (hq.symm.trans hq')
    obtain rfl := Message.reply.inj (hn.symm.trans hn')
    exact h
  | concluded hp' => cases hp.symm.trans hp'

/-- The last of the negative replies. -/
theorem numbersRight_concluded_iff {type : StructureType} {id : ℕ} {pc : PendingCreate}
    {client : QueryStatus} {rest : List QueryStatus} (h : NumberInvariant S x.before)
    (hp : x.event.1.data = .doNotHaveName type id)
    (hf : x.before.pendingCreates.find? (fun pc => pc.ID = id) = some pc)
    (hw : pc.waitingClients = client :: rest)
    (hout : x.event.2 = notifyServersOfCreation cfg pc ++ messageBackClients cfg pc n) :
    NumbersRight S x ↔ NumberRight (S.config x.event.1.toMachine) x.after pc.key n := by
  have hpc := List.mem_of_find?_eq_some hf
  constructor
  · intro hlaw
    obtain ⟨r, hr, hk⟩ := h.clients pc hpc client (by simp [hw])
    refine hlaw r pc.key n (.concluded hp hf (by simp [hw]) hr
      (q := respondOnceToClient cfg client.packet n) ?_ ⟨rfl, rfl⟩ rfl) hk
    rw [hout]
    exact List.mem_append_right _ (List.mem_map_of_mem (by simp [hw]))
  · intro hright r k n' hsent hk
    cases hsent with
    | atOnce hp' => cases hp.symm.trans hp'
    | concluded hp' hpc' hqs hr hq _ hn' =>
      obtain ⟨-, rfl⟩ := Message.doNotHaveName.inj (hp.symm.trans hp')
      obtain rfl := Option.some.inj (hf.symm.trans hpc')
      obtain ⟨r', hr', hk'⟩ := h.clients pc hpc _ hqs
      obtain rfl := Message.request.inj (hr.symm.trans hr')
      obtain rfl := Option.some.inj (hk.symm.trans hk')
      rw [hout] at hq
      rcases List.mem_append.mp hq with hq | hq
      · obtain ⟨y, -, rfl⟩ := List.mem_map.mp hq
        cases hn'
      · obtain ⟨y, -, rfl⟩ := List.mem_map.mp hq
        obtain rfl := Message.reply.inj hn'
        exact hright

theorem boxZero_numbersRight_iff {m : ℕ} (h : NumberInvariant S x.before)
    (hm : x.event.1.toMachine = m) (hb : x.event.1.toMailbox = 0)
    (hs : boxZero (S.config x.event.1.toMachine) x.before x.event.1 = .ok (x.after, x.event.2)) :
    NumbersRight S x ↔ EncodesOwn S x.before x.event.1 := by
  have hm' : (S.config x.event.1.toMachine).myMachineID = m := hm
  have hquiet : (∀ r, x.event.1.data = .request r → creation r = none) →
      (NumbersRight S x ↔ EncodesOwn S x.before x.event.1) := by
    intro hnone
    refine iff_of_true (numbersRight_of_silent (fun r hr hne => absurd (hnone r hr) hne)
      fun type id hd => ?_) (Or.inr ?_)
    · simp only [boxZero, BoxZero.handle, hd, Except.map] at hs
      exact (Prod.mk.inj (Except.ok.inj hs)).2.symm
    · split
      · rename_i r hr
        intro _ _ k hk
        simp [hnone r hr] at hk
      · exact fun hne => absurd hb hne
      · trivial
  by_cases hcreate : ∀ r, x.event.1.data = .request r → creation r = none
  · exact hquiet hcreate
  · push Not at hcreate
    obtain ⟨r, hp, hr⟩ := hcreate
    obtain ⟨k, hk⟩ := Option.ne_none_iff_exists'.mp hr
    have hcond : EncodesOwn S x.before x.event.1 ↔ x.event.1.toMachine = 0 ∨
        (S.totalNumServers = 1 → checkIfExists x.before k.1 k.2 = none →
          (HasRoom x.before r ↔ k.1 = .mv)) := by
      simp [EncodesOwn, hp, hb, hk]
    rw [boxZero_create hp hk] at hs
    cases hx : checkIfExists x.before k.1 k.2 with
    | some i =>
      simp only [hx, Except.ok.injEq] at hs
      obtain ⟨ht, q, hq, hn⟩ := flush_answered hs
      rw [numbersRight_atOnce_iff hp hk hq hn, hcond, ht]
      exact iff_of_true (numberRight_found hm' h.sized hx)
        (Or.inr fun _ hnone => by simp [hx] at hnone)
    | none =>
      by_cases hN : S.totalNumServers = 1
      · cases hc : createPending x.before k.1 (.request r) with
        | error f => simp [hx, hN, hc, Except.map] at hs
        | ok c =>
          simp only [hx, Setting.config_totalNumServers, hN, if_true, hc, Except.map,
            Except.ok.injEq] at hs
          obtain ⟨ht, q, hq, hn⟩ := flush_answered hs
          have hcreated := createPending_created h.sized hk hx hc
          rw [numbersRight_atOnce_iff hp hk hq hn, hcond, ht]
          change NumberRight _ c.1 k _ ↔ _
          simp only [hN, hx, true_implies]
          by_cases hmv : k.1 = .mv
          · simpa [hmv] using hcreated.encoded_iff hm'
          · simpa [hmv] using hcreated.index_iff hm'
      · simp only [hx, Setting.config_totalNumServers, hN, if_false, Except.ok.injEq] at hs
        rw [hcond]
        refine iff_of_true (numbersRight_of_silent (fun _ _ _ q n hq hn => ?_) fun _ _ hd => ?_)
          (Or.inr fun hone => absurd hone hN)
        · rw [← (Prod.mk.inj hs).2] at hq
          obtain rfl := Option.some.inj hq
          cases hp.symm.trans hn
        · cases hp.symm.trans hd

/-- Mailbox 1 answers a create at once only with the number of an entry it finds. -/
theorem create_reply {queried : Name} {q : Packet}
    (hq : (create cfg s p k.1 k.2 queried).2.getLast? = some q) (hn : q.data = .reply n) :
    ∃ i, checkIfExists s k.1 k.2 = some i ∧ n = encodeIndex cfg i ∧
      (create cfg s p k.1 k.2 queried).1 = s := by
  unfold create at hq ⊢
  cases hx : checkIfExists s k.1 k.2 with
  | some i =>
    rw [hx] at hq
    obtain rfl := Option.some.inj hq
    exact ⟨i, rfl, (Message.reply.inj hn).symm, rfl⟩
  | none =>
    rw [hx] at hq
    dsimp only at hq
    split at hq
    · cases hq
    · obtain ⟨j, -, rfl⟩ := List.mem_map.mp (List.mem_of_getLast? hq)
      cases hn

theorem boxOne_numbersRight_iff {m : ℕ} (h : NumberInvariant S x.before)
    (hm : x.event.1.toMachine = m) (hb : x.event.1.toMailbox ≠ 0)
    (hs : boxOne (S.config x.event.1.toMachine) x.before x.event.1 = .ok (x.after, x.event.2)) :
    NumbersRight S x ↔ EncodesOwn S x.before x.event.1 := by
  have hm' : (S.config x.event.1.toMachine).myMachineID = m := hm
  cases hd : x.event.1.data with
  | request r =>
    refine iff_of_true ?_ (Or.inr (by simp [hd, hb]))
    have hright : ∀ k queried, creation r = some k →
        create (S.config x.event.1.toMachine) x.before x.event.1 k.1 k.2 queried =
          (x.after, x.event.2) → NumbersRight S x := by
      intro k queried hk he r' k' n hsent hk'
      cases hsent with
      | atOnce hp hq hn =>
        obtain rfl := Message.request.inj (hd.symm.trans hp)
        obtain rfl := Option.some.inj (hk.symm.trans hk')
        have he2 : (create (S.config x.event.1.toMachine) x.before x.event.1 k.1 k.2 queried).2 =
          x.event.2 := congrArg Prod.snd he
        obtain ⟨i, hx, rfl, ht⟩ := create_reply (he2 ▸ hq) hn
        rw [← show _ = x.after from congrArg Prod.fst he, ht]
        exact numberRight_found hm' h.sized hx
      | concluded hp => cases hd.symm.trans hp
    simp only [boxOne, hd] at hs
    have hs := Except.ok.inj hs
    cases r with
    | createLock name => exact hright (.lock, name) name rfl hs
    | createCV name => exact hright (.cv, name) name rfl hs
    | createMV numEntries initialValue name => exact hright (.mv, name) _ rfl hs
    | _ =>
      refine numbersRight_of_silent (fun r hr hne => ?_) fun _ _ hd' => by cases hd.symm.trans hd'
      obtain rfl := Message.request.inj (hd.symm.trans hr)
      exact absurd rfl hne
  | doNotHaveName type id =>
    have hcond : EncodesOwn S x.before x.event.1 ↔ x.event.1.toMachine = 0 ∨ ∀ pc client r,
        x.before.pendingCreates.find? (fun pc => pc.ID = id) = some pc →
        pc.numResponses + 1 = S.totalNumServers - 1 → pc.waitingClients.head? = some client →
        client.packet.data = .request r → HasRoom x.before r := by
      simp only [EncodesOwn, hd, hb, ne_eq, not_false_eq_true, true_implies]
    have hsilent : x.event.2 = [] → NumbersRight S x := by
      intro hout
      exact numbersRight_of_silent (fun _ hr => by cases hd.symm.trans hr) fun _ _ _ => hout
    rw [hcond]
    simp only [boxOne, hd] at hs
    rcases doNotHaveName_cases hs with ⟨hf, -, -, hout⟩ | ⟨pc, hf, hcase⟩
    · exact iff_of_true (hsilent hout) (Or.inr (by simp [hf]))
    · rcases hcase with ⟨hne, -, hout⟩ | ⟨hn, client, rest, q, hw, hq, ht, hout⟩
      · refine iff_of_true (hsilent hout) (Or.inr fun pc' _ _ hf' hn => ?_)
        obtain rfl := Option.some.inj (hf.symm.trans hf')
        exact absurd hn hne
      · obtain ⟨⟨r, hr, hcreated⟩, -⟩ := h.concluded hf hw hq
        rw [numbersRight_concluded_iff h hd hf hw hout, ht]
        change NumberRight _ q.1 pc.key _ ↔ _
        rw [hcreated.encoded_iff hm']
        refine or_congr Iff.rfl ⟨fun hroom pc' client' r' hf' _ hw' hr' => ?_, fun hroom => ?_⟩
        · obtain rfl := Option.some.inj (hf.symm.trans hf')
          obtain rfl : client = client' := by simpa [hw] using hw'
          obtain rfl := Message.request.inj (hr.symm.trans hr')
          exact hroom
        · exact hroom pc client r hf hn (by simp [hw]) hr
  | _ =>
    refine iff_of_true (numbersRight_of_silent (fun _ hr => ?_) fun _ _ hr => ?_)
      (Or.inr (by simp [hd]))
    · cases hd.symm.trans hr
    · cases hd.symm.trans hr

/-! Whole runs. -/

/-- What reaches one server; mailbox 1 is served when there are others. -/
def Reaches (S : Setting) (m : ℕ) (p : Packet) : Prop :=
  p.toMachine = m ∧ (p.toMailbox = 0 ∨ 1 < S.totalNumServers)

instance (S : Setting) (m : ℕ) (p : Packet) : Decidable (Reaches S m p) :=
  inferInstanceAs (Decidable (_ ∧ _))

/-- Every create of a run gets a right number exactly when no message sends a number of
machine 0 from another one. -/
theorem create_numbers_iff {m : ℕ} {tr : List (Transition Server (Packet × List Packet))}
    (hex : Execution (Handles (handlePacket S)) .initial tr s)
    (hin : ∀ x ∈ tr, Reaches S m x.event.1) :
    (∀ x ∈ tr, NumbersRight S x) ↔ ∀ x ∈ tr, EncodesOwn S x.before x.event.1 := by
  refine (hex.restrict (Q := fun e => Reaches S m e.1) hin).forall_iff
    (P := NumberInvariant S) numberInvariant_initial (fun x h hstep => ?_) fun x h hstep _ => ?_
  · obtain ⟨hs, hm, -⟩ := hstep
    unfold Handles handlePacket at hs
    split_ifs at hs with hb
    · exact boxZero_numbersRight_iff h hm hb hs
    · exact boxOne_numbersRight_iff h hm hb hs
  · exact handlePacket_numberInvariant h hstep.2.2 hstep.1

/-- A reply that ends a create finds only creates of this variable, and a free slot. -/
def roomForVariable (x : Transition Server (Packet × List Packet)) : Bool :=
  match x.event.1.data with
  | .doNotHaveName .. => (firstFree (allocate maxServerMVArrays x.before.mvs)).isSome &&
      x.before.pendingCreates.all fun pc => pc.waitingClients.all fun client =>
        client.packet.data = .request (.createMV 3 7 [97])
  | _ => true

theorem encodesOwn_of_roomForVariable {x : Transition Server (Packet × List Packet)}
    (h : roomForVariable x = true) : EncodesOwn ⟨2, false, false⟩ x.before x.event.1 := by
  refine Or.inr ?_
  unfold roomForVariable at h
  split
  · exact fun _ hone => absurd hone (by decide)
  · rename_i type id hd
    simp only [hd, Bool.and_eq_true, List.all_eq_true, decide_eq_true_eq] at h
    intro _ pc client r hf _ hw hr
    have hdata := h.2 pc (List.mem_of_find?_eq_some hf) client (List.mem_of_mem_head? hw)
    obtain rfl := Message.request.inj (hr.symm.trans hdata)
    exact ⟨by decide, Option.isSome_iff_ne_none.mp h.1⟩
  · trivial

/-- Three creates of a client of machine 1: resolved after the reply of machine 0, known to
mailbox 1 and known to mailbox 0. -/
theorem create_numbers_machineOne : ∃ tr s,
    Execution (Handles (handlePacket ⟨2, false, false⟩)) .initial tr s ∧
      tr.flatMap (fun x => x.event.2.filterMap fun q =>
        match q.data with | .reply n => some n | _ => none) = [500, 500, 500] ∧
      (∀ x ∈ tr, EncodesOwn ⟨2, false, false⟩ x.before x.event.1) ∧
      ∀ x ∈ tr, NumbersRight ⟨2, false, false⟩ x := by
  obtain ⟨tr, s, hex, hmap, htest⟩ := exists_of_trace (handlePacket ⟨2, false, false⟩) .initial
    [⟨1, 0, 5, 0, .request (.createMV 3 7 [97])⟩, ⟨1, 1, 5, 0, .request (.createMV 3 7 [97])⟩,
      ⟨1, 1, 0, 1, .doNotHaveName .mv 0⟩, ⟨1, 1, 6, 0, .request (.createMV 3 7 [97])⟩,
      ⟨1, 0, 6, 0, .request (.createMV 3 7 [97])⟩]
    (fun r => decide (r.1.flatMap (fun x => x.event.2.filterMap fun q =>
      match q.data with | .reply n => some n | _ => none) = [500, 500, 500]) &&
        r.1.all roomForVariable)
    (by decide +kernel)
  simp only [Bool.and_eq_true, decide_eq_true_eq, List.all_eq_true] at htest
  have hown : ∀ x ∈ tr, EncodesOwn ⟨2, false, false⟩ x.before x.event.1 := fun x hx =>
    encodesOwn_of_roomForVariable (htest.2 x hx)
  exact ⟨tr, s, hex, htest.1, hown,
    (create_numbers_iff (m := 1) hex (forall_inputs hmap (by decide))).mpr hown⟩

/-- A monitor variable with too many entries, asked for at machine 1: the failure `-1` goes
through `encodeIndex`, and the client gets 499, a number of machine 0. -/
theorem failed_create_names_machineZero : ∃ tr s,
    Execution (Handles (handlePacket ⟨2, false, false⟩)) .initial tr s ∧
      (∀ x ∈ tr, Reaches ⟨2, false, false⟩ 1 x.event.1) ∧
      ¬ ∀ x ∈ tr, NumbersRight ⟨2, false, false⟩ x := by
  obtain ⟨tr, s, hex, hmap, htest⟩ := exists_of_trace (handlePacket ⟨2, false, false⟩) .initial
    [⟨1, 0, 5, 0, .request (.createMV 501 7 [97])⟩,
      ⟨1, 1, 5, 0, .request (.createMV 501 7 [97])⟩, ⟨1, 1, 0, 1, .doNotHaveName .mv 0⟩]
    (fun r => r.1.any fun x => x.event.1 = ⟨1, 1, 0, 1, .doNotHaveName .mv 0⟩ ∧
      x.event.2 = [⟨5, 0, 1, 1, .reply 499⟩] ∧
      (x.before.pendingCreates.find? fun pc => pc.ID = 0).any fun pc =>
        pc.waitingClients.any fun qs =>
          qs.packet = ⟨1, 1, 5, 0, .request (.createMV 501 7 [97])⟩)
    (by decide +kernel)
  refine ⟨tr, s, hex, forall_inputs hmap (by decide), fun hlaw => ?_⟩
  simp only [List.any_eq_true, decide_eq_true_eq, Option.any_eq_true] at htest
  obtain ⟨x, hx, hp, hout, pc, hpc, qs, hqs, hpacket⟩ := htest
  have hright := hlaw x hx (.createMV 501 7 [97]) (.mv, [97]) 499
    (.concluded (by rw [hp]) hpc hqs (by rw [hpacket]) (by rw [hout]; exact List.mem_singleton_self _)
      (by simp [hpacket]) rfl) rfl
  rcases hright with ⟨hn, -⟩ | ⟨hn, -⟩
  · simp at hn
  · rw [hp] at hn
    revert hn
    decide

end Nachos.Network
