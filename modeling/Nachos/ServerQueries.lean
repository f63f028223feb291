import Nachos.ServerRouting

/-! One message and the queries of the server that handles it: a query starts with its
id, is answered, or ends with the stored message on its way to the server found. -/
namespace Nachos.Network
open SlotTables BoxOne

variable {S : Setting} {cfg : Config} {s t : Server} {p : Packet} {out : List Packet} {j : ℤ}

theorem queriedBy_of_routedBy {r : Request} {k : StructureType × ℤ} (h : routedBy r = some k) :
    queriedBy r = some k := by
  cases r <;> first | exact h | cases h

/-- The stored messages of the queries under way, with the ids that answers name. -/
def Server.records (s : Server) : List (Packet × ℕ) :=
  s.queryQueue.map fun qs => (qs.packet, qs.id)

/-- No table is longer than its size in the source. -/
structure Server.Sized (s : Server) : Prop where
  locks : s.locks.length ≤ 500
  conditions : s.conditions.length ≤ 500
  mvs : s.mvs.length ≤ 500

/-- Only creates wait for the outcome of a create. -/
def WaitingCreates (l : List PendingCreate) : Prop :=
  ∀ pc ∈ l, ∀ qs ∈ pc.waitingClients, ∃ r, qs.packet.data = .request r ∧ queriedBy r = none

/-- What every message keeps. -/
structure Orderly (s t : Server) : Prop where
  next : s.nextQueryID ≤ t.nextQueryID
  sized : s.Sized → t.Sized
  waiting : WaitingCreates s.pendingCreates → WaitingCreates t.pendingCreates

namespace Orderly

theorem refl (s : Server) : Orderly s s := ⟨le_rfl, id, id⟩

theorem trans {u : Server} (h : Orderly s t) (h' : Orderly t u) : Orderly s u :=
  ⟨h.next.trans h'.next, h'.sized ∘ h.sized, h'.waiting ∘ h.waiting⟩

theorem of_keeps (h : KeepsQueries s t) : Orderly s t :=
  ⟨h.next.ge, fun hs => ⟨h.locks.le.trans hs.locks, h.conditions.le.trans hs.conditions,
    h.mvs.le.trans hs.mvs⟩, fun hw => h.pending ▸ hw⟩

/-- A change of the pending creates alone. -/
theorem of_pending {l : List PendingCreate} (h : WaitingCreates s.pendingCreates → WaitingCreates l) :
    Orderly s { s with pendingCreates := l } := ⟨le_rfl, fun hs => ⟨hs.1, hs.2, hs.3⟩, h⟩

theorem of_nextQueryID : Orderly s { s with nextQueryID := s.nextQueryID + 1 } :=
  ⟨Nat.le_succ _, fun hs => ⟨hs.1, hs.2, hs.3⟩, id⟩

end Orderly

theorem KeepsQueries.records (h : KeepsQueries s t) : t.records = s.records := by
  rw [Server.records, h.queue, Server.records]

/-! Tables. -/

theorem length_allocate {α : Type} {t : SlotTable α} (h : t.length ≤ 500) :
    (allocate 500 t).length ≤ 500 := by
  unfold allocate
  split_ifs
  · exact List.length_replicate.le
  · exact h

theorem length_createEntry {α : Type} (t : SlotTable α) (sameName : α → Bool) (fresh : α) :
    (createEntry t sameName fresh).1.length = t.length := by
  unfold createEntry
  split
  · rfl
  · split
    · exact length_put _ _ _
    · rfl

theorem serverCreateLock_orderly (s : Server) (name : Name) :
    Orderly s (serverCreateLock s name).1 :=
  ⟨le_rfl, fun hs => ⟨(length_createEntry _ _ _).trans_le (length_allocate hs.1), hs.2, hs.3⟩, id⟩

theorem serverCreateCV_orderly (s : Server) (name : Name) : Orderly s (serverCreateCV s name).1 :=
  ⟨le_rfl, fun hs => ⟨hs.1, (length_createEntry _ _ _).trans_le (length_allocate hs.2), hs.3⟩, id⟩

theorem serverCreateMV_orderly {name : Name} {n x : ℤ} {r : Server × ℤ}
    (h : serverCreateMV s name n x = .ok r) :
    Orderly s r.1 ∧ r.1.queryQueue = s.queryQueue := by
  unfold serverCreateMV at h
  dsimp only at h
  split_ifs at h
  · rw [← Except.ok.inj h]
    exact ⟨⟨le_rfl, fun hs => ⟨hs.1, hs.2, length_allocate hs.3⟩, id⟩, rfl⟩
  · rw [← Except.ok.inj h]
    exact ⟨⟨le_rfl, fun hs =>
      ⟨hs.1, hs.2, (length_createEntry _ _ _).trans_le (length_allocate hs.3)⟩, id⟩, rfl⟩

theorem createPending_orderly {type : StructureType} {data : Message} {r : Server × ℤ}
    (h : createPending s type data = .ok r) :
    Orderly s r.1 ∧ r.1.queryQueue = s.queryQueue := by
  unfold createPending at h
  split at h
  · rw [← Except.ok.inj h]
    exact ⟨serverCreateLock_orderly s _, rfl⟩
  · rw [← Except.ok.inj h]
    exact ⟨serverCreateCV_orderly s _, rfl⟩
  · exact serverCreateMV_orderly h
  · cases h

/-! Creates at mailbox 1. -/

theorem modifyPending_orderly (id : ℕ) {f : PendingCreate → PendingCreate}
    (hf : ∀ pc, ∀ qs ∈ (f pc).waitingClients, qs ∈ pc.waitingClients ∨
      ∃ r, qs.packet.data = .request r ∧ queriedBy r = none) :
    Orderly s (modifyPending s id f) := by
  refine .of_pending fun hw pc hpc qs hqs => ?_
  obtain ⟨pc', hpc', rfl⟩ := List.mem_map.mp hpc
  split_ifs at hqs with he
  · rcases hf pc' qs hqs with h | h
    · exact hw pc' hpc' qs h
    · exact h
  · exact hw pc' hpc' qs hqs

theorem removePending_orderly (s : Server) (id : ℕ) : Orderly s (removePending s id) :=
  .of_pending fun hw pc hpc => hw pc (List.mem_of_mem_eraseP hpc)

theorem postpone_orderly (s : Server) (pc : PendingCreate) (p : Packet) (id : ℕ) :
    Orderly s (postpone s pc p id) := modifyPending_orderly _ fun _ _ hqs => Or.inl hqs

theorem addWaitingClient_orderly {r : Request} (id : ℕ) (hp : p.data = .request r)
    (hr : queriedBy r = none) : Orderly s (addWaitingClient s id p) := by
  refine Orderly.of_nextQueryID.trans (modifyPending_orderly _ fun pc qs hqs => ?_)
  rcases List.mem_append.mp hqs with h | h
  · exact Or.inl h
  · obtain rfl := List.mem_singleton.mp h
    exact Or.inr ⟨r, hp, hr⟩

theorem create_orderly {r : Request} (type : StructureType) (name queried : Name)
    (hp : p.data = .request r) (hr : queriedBy r = none) :
    Orderly s (create cfg s p type name queried).1 ∧
      (create cfg s p type name queried).1.queryQueue = s.queryQueue ∧
      ∀ q ∈ (create cfg s p type name queried).2, SendsNoRouted cfg q := by
  unfold create
  split
  · refine ⟨.refl s, rfl, fun q hq => ?_⟩
    obtain rfl := List.mem_singleton.mp hq
    exact ⟨rfl, fun r hr => by cases hr⟩
  · split
    · exact ⟨addWaitingClient_orderly _ hp hr, rfl, by simp⟩
    · have hnew : Orderly s (newPendingCreate cfg s name type).1 := by
        refine Orderly.of_nextQueryID.trans (.of_pending fun hw pc hpc => ?_)
        rcases List.mem_append.mp hpc with h | h
        · exact hw pc h
        · obtain rfl := List.mem_singleton.mp h
          exact fun _ h => by cases h
      refine ⟨hnew.trans (addWaitingClient_orderly _ hp hr), rfl, fun q hq => ?_⟩
      obtain ⟨i, -, rfl⟩ := List.mem_map.mp hq
      exact ⟨rfl, fun r hr => by cases hr⟩

theorem doYouHaveName_orderly (type : StructureType) (id : ℕ) (name : Name) :
    Orderly s (doYouHaveName cfg s p type id name).1 ∧
      (doYouHaveName cfg s p type id name).1.queryQueue = s.queryQueue ∧
      ∀ q ∈ (doYouHaveName cfg s p type id name).2, SendsNoRouted cfg q := by
  have hone : ∀ d, d.isQuery = false → (∀ r, d ≠ .request r) →
      ∀ q ∈ [respondOnceToServer cfg p d], SendsNoRouted cfg q := by
    intro d hd hr q hq
    obtain rfl := List.mem_singleton.mp hq
    exact ⟨hd, fun r h => absurd h (hr r)⟩
  unfold doYouHaveName
  split
  · exact ⟨.refl s, rfl, hone _ rfl (by simp)⟩
  · unfold determineResponseToCreateRequest
    split
    · exact ⟨.refl s, rfl, hone _ rfl (by simp)⟩
    · exact ⟨postpone_orderly s _ p id, rfl, by simp⟩
    · split_ifs
      · exact ⟨postpone_orderly s _ p id, rfl, by simp⟩
      · exact ⟨.refl s, rfl, hone _ rfl (by simp)⟩

theorem haveName_orderly (id : ℕ) (hw : WaitingCreates s.pendingCreates) :
    Orderly s (haveName s p id).1 ∧ (haveName s p id).1.queryQueue = s.queryQueue ∧
      ∀ q ∈ (haveName s p id).2, SendsNoRouted cfg q := by
  unfold haveName
  split
  · exact ⟨.refl s, rfl, by simp⟩
  · rename_i pc hf
    refine ⟨removePending_orderly s id, rfl, fun q hq => ?_⟩
    obtain ⟨qs, hqs, rfl⟩ := List.mem_map.mp hq
    obtain ⟨r, hr, hnone⟩ := hw pc (List.mem_of_find?_eq_some hf) qs hqs
    refine ⟨by simp [hr, Message.isQuery], fun r' hr' => Or.inl ?_⟩
    obtain rfl := Message.request.inj (hr.symm.trans hr')
    by_contra hk
    obtain ⟨k, hk⟩ := Option.ne_none_iff_exists'.mp hk
    simp [queriedBy_of_routedBy hk] at hnone

theorem doNotHaveName_orderly {id : ℕ} (h : doNotHaveName cfg s p id = .ok (t, out)) :
    Orderly s t ∧ t.queryQueue = s.queryQueue ∧ ∀ q ∈ out, SendsNoRouted cfg q := by
  rcases doNotHaveName_cases h with ⟨-, -, rfl, rfl⟩ | ⟨pc, -, hcase⟩
  · exact ⟨.refl _, rfl, by simp⟩
  · rcases hcase with ⟨-, rfl, rfl⟩ | ⟨-, client, rest, r, -, hr, rfl, rfl⟩
    · exact ⟨modifyPending_orderly _ fun _ _ hqs => Or.inl hqs, rfl, by simp⟩
    · obtain ⟨ho, hq⟩ := createPending_orderly hr
      refine ⟨ho.trans (removePending_orderly _ id), hq, fun q hq => ?_⟩
      rcases List.mem_append.mp hq with hq | hq
      · obtain ⟨x, -, rfl⟩ := List.mem_map.mp hq
        exact ⟨rfl, fun r hr => by cases hr⟩
      · obtain ⟨x, -, rfl⟩ := List.mem_map.mp hq
        exact ⟨rfl, fun r hr => by cases hr⟩

/-! The cases. -/

/-- One message at server `j`, as far as the queries are concerned. -/
inductive QueryMove (S : Setting) (j : ℤ) (s : Server) (p : Packet) : Server → List Packet → Prop
  /-- a request for an object of another server goes to mailbox 1 of this server -/
  | passed {r : Request} {k : StructureType × ℤ} {t : Server} (hb : p.toMailbox = 0)
      (hp : p.data = .request r) (hr : routedBy r = some k) (hown : ownerOf k.2 ≠ j)
      (hk : KeepsQueries s t) :
      QueryMove S j s p t [⟨j, 1, p.fromMachine, p.fromMailbox, p.data⟩]
  | asked {r : Request} {k : StructureType × ℤ} {t : Server} (hb : p.toMailbox ≠ 0)
      (hp : p.data = .request r) (hr : queriedBy r = some k) (hord : Orderly s t)
      (hrec : t.records = s.records ++ [(p, s.nextQueryID)])
      (hnext : s.nextQueryID < t.nextQueryID) :
      QueryMove S j s p t
        (toAllServers (S.config j) (.doYouHave k.1 s.nextQueryID k.2))
  | answered {type : StructureType} {id : ℕ} {index : ℤ} (hb : p.toMailbox ≠ 0)
      (hp : p.data = .doYouHave type id index) :
      QueryMove S j s p s (doYouHave (S.config j) s p type id index)
  | forwarded {type : StructureType} {id : ℕ} {pk : Packet} {l₁ l₂ : List (Packet × ℕ)}
      {t : Server} (hb : p.toMailbox ≠ 0) (hp : p.data = .haveObject type id) (hord : Orderly s t)
      (hs : s.records = l₁ ++ (pk, id) :: l₂) (ht : t.records = l₁ ++ l₂) :
      QueryMove S j s p t [{ pk with toMachine := p.fromMachine, toMailbox := 0 }]
  | other {t : Server} {out : List Packet} (hord : Orderly s t) (hrec : t.records = s.records)
      (hout : ∀ q ∈ out, SendsNoRouted (S.config j) q)
      (hreq : ∀ r k, p.data = .request r → routedBy r = some k →
        p.toMailbox = 0 ∧ ownerOf k.2 = j)
      (hask : ∀ type id index, p.data = .doYouHave type id index → p.toMailbox = 0)
      (hfound : ∀ type id, p.data = .haveObject type id → p.toMailbox ≠ 0 →
        ∀ x ∈ s.records, x.2 ≠ id) :
      QueryMove S j s p t out

theorem QueryMove.orderly (h : QueryMove S j s p t out) : Orderly s t := by
  cases h with
  | passed _ _ _ _ hk => exact .of_keeps hk
  | asked _ _ _ hord => exact hord
  | answered => exact .refl s
  | forwarded _ _ hord => exact hord
  | other hord => exact hord

theorem queryAllServers_move {r : Request} {k : StructureType × ℤ} (hb : p.toMailbox ≠ 0)
    (hp : p.data = .request r) (hr : queriedBy r = some k) :
    QueryMove S j s p (queryAllServers (S.config j) s p k.1 k.2).1
      (queryAllServers (S.config j) s p k.1 k.2).2 := by
  refine .asked hb hp hr ⟨Nat.le_add_right _ 2, fun hs => ⟨hs.1, hs.2, hs.3⟩, id⟩ ?_
    (by simp [queryAllServers, newQueryStatus])
  simp [queryAllServers, newQueryStatus, Server.records]

theorem haveObject_move {type : StructureType} {id : ℕ} (hb : p.toMailbox ≠ 0)
    (hp : p.data = .haveObject type id) :
    QueryMove S j s p (haveObject s p id).1 (haveObject s p id).2 := by
  unfold haveObject
  cases hf : s.queryQueue.find? fun qs => qs.id = id with
  | none =>
    refine .other (.refl s) rfl (by simp) (by simp [hp]) (by simp [hp]) ?_
    intro type' id' hp' _ x hx
    obtain ⟨qs, hqs, rfl⟩ := List.mem_map.mp hx
    obtain ⟨-, rfl⟩ := Message.haveObject.inj (hp.symm.trans hp')
    simpa using List.find?_eq_none.mp hf qs hqs
  | some qs =>
    obtain ⟨hid, l₁, l₂, hl, hfirst⟩ := List.find?_eq_some_iff_append.mp hf
    have hid : qs.id = id := by simpa using hid
    have herase : s.queryQueue.eraseP (fun qs => qs.id = id) = l₁ ++ l₂ := by
      rw [hl, List.eraseP_append_right _ (by simpa using hfirst)]
      simp [hid]
    have hs : s.records = l₁.map (fun qs => (qs.packet, qs.id)) ++
        (qs.packet, id) :: l₂.map fun qs => (qs.packet, qs.id) := by
      simp [Server.records, hl, hid]
    refine .forwarded hb hp ⟨le_rfl, fun hs => ⟨hs.1, hs.2, hs.3⟩, fun h => h⟩ hs ?_
    simp [Server.records, herase]

theorem doNotHaveObject_records (s : Server) (id : ℕ) :
    (doNotHaveObject s id).records = s.records ∧ Orderly s (doNotHaveObject s id) := by
  unfold doNotHaveObject
  split
  · exact ⟨rfl, .refl s⟩
  · rename_i qs rest hq
    split_ifs
    · exact ⟨by simp [Server.records, hq], ⟨le_rfl, fun hs => ⟨hs.1, hs.2, hs.3⟩, fun h => h⟩⟩
    · exact ⟨rfl, .refl s⟩

/-- The cases at mailbox 1. -/
theorem boxOne_queryMove (hb : p.toMailbox ≠ 0) (hw : WaitingCreates s.pendingCreates)
    (h : boxOne (S.config j) s p = .ok (t, out)) : QueryMove S j s p t out := by
  have hother : Orderly s t ∧ t.queryQueue = s.queryQueue ∧
      (∀ q ∈ out, SendsNoRouted (S.config j) q) → p.data.isQuery = false →
      (∀ r, p.data = .request r → routedBy r = none) → QueryMove S j s p t out := by
    rintro ⟨ho, hq, hs⟩ hd hr
    refine .other ho (by rw [Server.records, hq, Server.records]) hs ?_ ?_ ?_
    · intro r k hp hk
      simp [hr r hp] at hk
    · intro type id index hp
      simp [hp, Message.isQuery] at hd
    · intro type id hp
      simp [hp, Message.isQuery] at hd
  cases hd : p.data with
  | request r =>
    simp only [boxOne, hd] at h
    cases r with
    | createLock name =>
      obtain ⟨rfl, rfl⟩ := Prod.mk.inj (Except.ok.inj h)
      exact hother (create_orderly .lock name name hd rfl) (by simp [hd, Message.isQuery])
        (by rw [hd]; rintro _ ⟨⟩; rfl)
    | createCV name =>
      obtain ⟨rfl, rfl⟩ := Prod.mk.inj (Except.ok.inj h)
      exact hother (create_orderly .cv name name hd rfl) (by simp [hd, Message.isQuery])
        (by rw [hd]; rintro _ ⟨⟩; rfl)
    | createMV n x name =>
      obtain ⟨rfl, rfl⟩ := Prod.mk.inj (Except.ok.inj h)
      exact hother (create_orderly .mv name (queriedMVName n x name) hd rfl)
        (by simp [hd, Message.isQuery]) (by rw [hd]; rintro _ ⟨⟩; rfl)
    | _ =>
      obtain ⟨rfl, rfl⟩ := Prod.mk.inj (Except.ok.inj h)
      exact queryAllServers_move hb hd rfl
  | doYouHave type id index =>
    simp only [boxOne, hd] at h
    obtain ⟨rfl, rfl⟩ := Prod.mk.inj (Except.ok.inj h)
    exact .answered hb hd
  | haveObject type id =>
    simp only [boxOne, hd] at h
    obtain ⟨rfl, rfl⟩ := Prod.mk.inj (Except.ok.inj h)
    exact haveObject_move hb hd
  | doNotHaveObject type id =>
    simp only [boxOne, hd] at h
    obtain ⟨rfl, rfl⟩ := Prod.mk.inj (Except.ok.inj h)
    obtain ⟨hr, ho⟩ := doNotHaveObject_records s id
    exact .other ho hr (by simp) (by simp [hd]) (by simp [hd]) (by simp [hd])
  | doYouHaveName type id name =>
    simp only [boxOne, hd] at h
    obtain ⟨rfl, rfl⟩ := Prod.mk.inj (Except.ok.inj h)
    exact hother (doYouHaveName_orderly type id name) (by simp [hd, Message.isQuery])
      (by simp [hd])
  | haveName type id =>
    simp only [boxOne, hd] at h
    obtain ⟨rfl, rfl⟩ := Prod.mk.inj (Except.ok.inj h)
    exact hother (haveName_orderly id hw) (by simp [hd, Message.isQuery]) (by simp [hd])
  | doNotHaveName type id =>
    simp only [boxOne, hd] at h
    exact hother (doNotHaveName_orderly h) (by simp [hd, Message.isQuery]) (by simp [hd])
  | _ => simp [boxOne, hd] at h

theorem handlePacket_queryMove (hN : S.totalNumServers ≠ 1) (hw : WaitingCreates s.pendingCreates)
    (h : handlePacket S s p = .ok (t, out)) : QueryMove S p.toMachine s p t out := by
  unfold handlePacket at h
  split_ifs at h with hb
  · obtain ⟨hu, ⟨r, k, hp, hr, hown, rfl⟩ | ⟨hs, hown⟩⟩ :=
      boxZero_routing (fun hone => absurd hone hN) h
    · exact .passed hb hp hr hown (.of_updates hu)
    · have hk := KeepsQueries.of_updates hu
      exact .other (.of_keeps hk) hk.records hs (fun r k hp hr => ⟨hb, hown r k hp hr⟩)
        (fun _ _ _ _ => hb) (fun _ _ _ hne => absurd hb hne)
  · exact boxOne_queryMove hb hw h

end Nachos.Network
