import Nachos.ServerCreates

/-! The cases of one message of the create protocol, and what each does to the ids and
names that are about. -/
namespace Nachos.Network
open SlotTables Executions BoxOne

variable {S : Setting} {key : ℤ → ℕ → StructureType × Name} {next : ℤ → ℕ} {s t : Server}
  {p : Packet} {out : List Packet} {j : ℤ}

/-- One message at server `j`: the next state and what is sent. -/
inductive Move (S : Setting) (j : ℤ) (s : Server) (p : Packet) : Server → List Packet → Prop
  /-- a create that is answered at once, or passed on to mailbox 1 of its server -/
  | passed {r : Request} {t : Server} {out : List Packet} (hp : p.data = .request r)
      (hc : creates r ≠ none) (hl : t.locks = s.locks) (hv : t.conditions = s.conditions)
      (hm : t.mvs = s.mvs)
      (hd : t.pendingCreates = s.pendingCreates) (hn : t.nextQueryID = s.nextQueryID)
      (hw : t.necessaryResponses = [])
      (ho : ∀ q ∈ out, (∃ d, q.data = .reply d ∧ q.toMachine = p.fromMachine) ∨
        q.data = p.data ∧ q.fromMachine = p.fromMachine) :
      Move S j s p t out
  | joined {r : Request} {k : StructureType × Name} {pc : PendingCreate}
      (hp : p.data = .request r) (hc : creates r = some k)
      (hx : checkIfExists s k.1 k.2 = none) (hpc : s.pending? k = some pc) :
      Move S j s p (addWaitingClient s pc.ID p) []
  | started {r : Request} {k : StructureType × Name} (hp : p.data = .request r)
      (hc : creates r = some k) (hx : checkIfExists s k.1 k.2 = none)
      (hpc : s.pending? k = none) :
      Move S j s p
        (addWaitingClient (newPendingCreate (S.config j) s k.2 k.1).1 s.nextQueryID p)
        (toAllServers (S.config j) (.doYouHaveName k.1 s.nextQueryID k.2))
  | confirmed {k : StructureType × Name} {id : ℕ} (hp : p.data = .doYouHaveName k.1 id k.2)
      (hx : checkIfExists s k.1 k.2 ≠ none) :
      Move S j s p s [respondOnceToServer (S.config j) p (.haveName k.1 id)]
  | denied {k : StructureType × Name} {id : ℕ} (hp : p.data = .doYouHaveName k.1 id k.2)
      (hx : checkIfExists s k.1 k.2 = none)
      (hd : ∀ pc, s.pending? k = some pc →
        pc.responseTracker p.fromMachine = false ∧ ¬ j < p.fromMachine) :
      Move S j s p s [respondOnceToServer (S.config j) p (.doNotHaveName k.1 id)]
  | postponed {k : StructureType × Name} {id : ℕ} {pc : PendingCreate}
      (hp : p.data = .doYouHaveName k.1 id k.2) (hx : checkIfExists s k.1 k.2 = none)
      (hpc : s.pending? k = some pc)
      (hd : pc.responseTracker p.fromMachine = true ∨ j < p.fromMachine) :
      Move S j s p (postpone s pc p id) []
  /-- an answer to a create that is no longer pending -/
  | stale {type : StructureType} {id : ℕ}
      (hp : p.data = .haveName type id ∨ p.data = .doNotHaveName type id)
      (hpc : ∀ pc ∈ s.pendingCreates, pc.ID ≠ id) : Move S j s p s []
  | yielded {type : StructureType} {id : ℕ} {pc : PendingCreate}
      (hp : p.data = .haveName type id) (hpc : pc ∈ s.pendingCreates) (hid : pc.ID = id) :
      Move S j s p (removePending s id) (forwardWaitingClientMessagesToServer pc p.fromMachine)
  | counted {type : StructureType} {id : ℕ} {pc : PendingCreate}
      (hp : p.data = .doNotHaveName type id) (hpc : pc ∈ s.pendingCreates) (hid : pc.ID = id)
      (hn : pc.numResponses + 1 ≠ S.totalNumServers - 1) :
      Move S j s p (modifyPending s id fun pc => countResponse pc p.fromMachine) []
  | completed {type : StructureType} {id : ℕ} {pc : PendingCreate}
      (hp : p.data = .doNotHaveName type id) (hpc : pc ∈ s.pendingCreates) (hid : pc.ID = id)
      (hn : pc.numResponses + 1 = S.totalNumServers - 1) :
      Move S j s p (removePending (createObject s pc.key).1 id)
        (notifyServersOfCreation (S.config j) pc ++
          messageBackClients (S.config j) pc
            (encodeIndex (S.config j) (createObject s pc.key).2))

theorem create_move {r : Request} {k : StructureType × Name}
    (hw : s.necessaryResponses = [])
    (hp : p.data = .request r) (hc : creates r = some k) :
    Move S j s p (create (S.config j) s p k.1 k.2 k.2).1 (create (S.config j) s p k.1 k.2 k.2).2 := by
  unfold create
  cases hx : checkIfExists s k.1 k.2 with
  | some i =>
    refine .passed hp (by simp [hc]) rfl rfl rfl rfl rfl hw fun q hq => Or.inl ?_
    obtain rfl := List.mem_singleton.mp hq
    exact ⟨_, rfl, rfl⟩
  | none =>
    have hfind : (s.pendingCreates.find? fun pc => pc.isAMatch k.2 k.1) = s.pending? k := by
      simp only [PendingCreate.isAMatch_eq, Server.pending?]
    dsimp only
    rw [hfind]
    cases hpc : s.pending? k with
    | some pc => exact .joined hp hc hx hpc
    | none => exact .started hp hc hx hpc

theorem doYouHaveName_move {k : StructureType × Name} {id : ℕ} (hd : s.DistinctPending)
    (hp : p.data = .doYouHaveName k.1 id k.2) :
    Move S j s p (doYouHaveName (S.config j) s p k.1 id k.2).1
      (doYouHaveName (S.config j) s p k.1 id k.2).2 := by
  unfold doYouHaveName
  cases hx : checkIfExists s k.1 k.2 with
  | some i => exact .confirmed hp (by simp [hx])
  | none =>
    simp only [determineResponseToCreateRequest, scanPending_eq _ hd]
    cases hpc : s.pending? k with
    | none =>
      rw [show (s.pendingCreates.find? fun pc => pc.key = k) = none from hpc]
      exact .denied hp hx (by simp [hpc])
    | some pc =>
      rw [show (s.pendingCreates.find? fun pc => pc.key = k) = some pc from hpc]
      cases ht : pc.responseTracker p.fromMachine with
      | true =>
        simp only [Option.map_some, ht]
        exact .postponed hp hx hpc (Or.inl ht)
      | false =>
        by_cases hlt : j < p.fromMachine
        · simp only [Option.map_some, Setting.config_myMachineID, ht, hlt, if_true]
          exact .postponed hp hx hpc (Or.inr hlt)
        · simp only [Option.map_some, Setting.config_myMachineID, ht, hlt, if_false]
          refine .denied hp hx fun pc' hpc' => ?_
          obtain rfl := Option.some.inj (hpc.symm.trans hpc')
          exact ⟨ht, hlt⟩

theorem haveName_move {type : StructureType} {id : ℕ} (hp : p.data = .haveName type id) :
    Move S j s p (haveName s p id).1 (haveName s p id).2 := by
  unfold haveName
  cases hf : s.pendingCreates.find? fun pc => pc.ID = id with
  | none => exact .stale (Or.inl hp) (by simpa using List.find?_eq_none.mp hf)
  | some pc =>
    exact .yielded hp (List.mem_of_find?_eq_some hf) (by simpa using List.find?_some hf)

theorem createPending_eq {pc : PendingCreate} {r : Request} (hr : creates r = some pc.key) :
    createPending s pc.type (.request r) = .ok (createObject s pc.key) := by
  obtain ⟨name, type⟩ := pc
  cases r <;> simp only [creates, PendingCreate.key, Option.some.injEq, Prod.mk.injEq,
    reduceCtorEq] at hr
  all_goals
    obtain ⟨rfl, rfl⟩ := hr
    rfl

theorem doNotHaveName_move {type : StructureType} {id : ℕ}
    (hs : Registered S key next j s) (hp : p.data = .doNotHaveName type id)
    (h : doNotHaveName (S.config j) s p id = .ok (t, out)) : Move S j s p t out := by
  rcases doNotHaveName_cases h with ⟨hf, -, rfl, rfl⟩ | ⟨pc, hf, hcase⟩
  · exact .stale (Or.inr hp) (by simpa using List.find?_eq_none.mp hf)
  · have hpc := List.mem_of_find?_eq_some hf
    have hid : pc.ID = id := by simpa using List.find?_some hf
    rcases hcase with ⟨hn, rfl, rfl⟩ | ⟨hn, client, rest, r, hw, hr, rfl, rfl⟩
    · exact .counted hp hpc hid hn
    · obtain ⟨-, req, hdata, hcreates⟩ := (hs.clients pc hpc).2 client (by simp [hw])
      rw [hdata, createPending_eq hcreates] at hr
      obtain rfl := Except.ok.inj hr
      exact .completed hp hpc hid hn

/-- Mailbox 0 answers a create of an existing name and passes every other one on. -/
theorem boxZero_move {r : Request} (hN : S.totalNumServers ≠ 1) (hw : s.necessaryResponses = [])
    (hp : p.data = .request r) (hc : creates r ≠ none)
    (h : boxZero (S.config j) s p = .ok (t, out)) : Move S j s p t out := by
  have hanswer : ∀ d, Except.ok (BoxZero.flush (S.config j) (BoxZero.answer s p d)) =
      (.ok (t, out) : Except Fault (Server × List Packet)) → Move S j s p t out := by
    intro d he
    obtain ⟨rfl, rfl⟩ := Prod.mk.inj (Except.ok.inj he)
    refine .passed hp hc rfl rfl rfl rfl rfl rfl fun q hq => Or.inl ?_
    simp only [BoxZero.answer, Server.pushResponse, hw, List.nil_append, List.map_cons,
      List.map_nil, List.mem_singleton] at hq
    subst hq
    exact ⟨d, rfl, rfl⟩
  have hpass : Except.ok (BoxZero.flush (S.config j) (BoxZero.toBoxOne (S.config j) s p)) =
      (.ok (t, out) : Except Fault (Server × List Packet)) → Move S j s p t out := by
    intro he
    obtain ⟨rfl, rfl⟩ := Prod.mk.inj (Except.ok.inj he)
    refine .passed hp hc rfl rfl rfl rfl rfl hw fun q hq => Or.inr ?_
    obtain rfl := List.mem_singleton.mp hq
    exact ⟨rfl, rfl⟩
  simp only [boxZero, BoxZero.handle, hp] at h
  cases r <;> try exact (hc rfl).elim
  · rename_i name
    simp only [BoxZero.request, BoxZero.createLock, Setting.config_totalNumServers, hN,
      if_false] at h
    cases hx : checkIfLockExists s name with
    | none => exact hpass (by simpa only [hx, Except.map] using h)
    | some i => exact hanswer _ (by simpa only [hx, Except.map] using h)
  · rename_i name
    simp only [BoxZero.request, BoxZero.createCV, Setting.config_totalNumServers, hN,
      if_false] at h
    cases hx : checkIfCVExists s name with
    | none => exact hpass (by simpa only [hx, Except.map] using h)
    | some i => exact hanswer _ (by simpa only [hx, Except.map] using h)

/-- Every message of the protocol is one of the moves. -/
theorem handlePacket_move (hN : S.totalNumServers ≠ 1)
    (hs : Registered S key next j s) (hp : ProperMessage S key next p) (hj : p.toMachine = j)
    (h : handlePacket S s p = .ok (t, out)) : Move S j s p t out := by
  unfold handlePacket at h
  rw [hj] at h
  cases hdata : p.data with
  | request r =>
    have hc : creates r ≠ none := by
      simp only [ProperMessage, hdata] at hp
      exact hp.1
    split_ifs at h with hm
    · exact boxZero_move hN hs.responses hdata hc h
    · obtain ⟨k, hk⟩ := Option.ne_none_iff_exists'.mp hc
      have hmove := create_move (S := S) (j := j) hs.responses hdata hk
      cases r <;> simp only [creates, reduceCtorEq, Option.some.injEq] at hk
      all_goals
        subst hk
        simp only [boxOne, hdata] at h
        obtain ⟨rfl, rfl⟩ := Prod.mk.inj (Except.ok.inj h)
        exact hmove
  | doYouHaveName type id name =>
    simp only [ProperMessage, hdata] at hp
    rw [if_neg (by simp [hp.1.toMailbox])] at h
    simp only [boxOne, hdata] at h
    obtain ⟨rfl, rfl⟩ := Prod.mk.inj (Except.ok.inj h)
    exact doYouHaveName_move (k := (type, name)) hs.distinct hdata
  | haveName type id =>
    simp only [ProperMessage, hdata] at hp
    rw [if_neg (by simp [hp.1.toMailbox])] at h
    simp only [boxOne, hdata] at h
    obtain ⟨rfl, rfl⟩ := Prod.mk.inj (Except.ok.inj h)
    exact haveName_move hdata
  | doNotHaveName type id =>
    simp only [ProperMessage, hdata] at hp
    rw [if_neg (by simp [hp.1.toMailbox])] at h
    simp only [boxOne, hdata] at h
    exact doNotHaveName_move hs hdata h
  | _ => simp [ProperMessage, hdata] at hp

/-! The registry after a move. -/

theorem Registered.sublist (h : Registered S key next j s) (hw : t.necessaryResponses = [])
    (hsub : t.pendingCreates.Sublist s.pendingCreates) : Registered S key next j t :=
  ⟨hw, h.distinct.sublist (hsub.map _), fun pc hpc => h.id pc (hsub.subset hpc),
    fun pc hpc => h.clients pc (hsub.subset hpc), fun pc hpc => h.queued pc (hsub.subset hpc)⟩

theorem removePending_sublist (s : Server) (id : ℕ) :
    (removePending s id).pendingCreates.Sublist s.pendingCreates := List.eraseP_sublist

/-- Updates of the pending create with one id. -/
theorem Registered.modify (h : Registered S key next j s) {id : ℕ} {f : PendingCreate → PendingCreate}
    (hw : t.necessaryResponses = [])
    (ht : t.pendingCreates = s.pendingCreates.map fun pc => if pc.ID = id then f pc else pc)
    (hf : ∀ pc ∈ s.pendingCreates, pc.ID = id → (f pc).key = pc.key ∧ (f pc).ID = pc.ID ∧
      ((f pc).waitingClients ≠ [] ∧ ∀ qs ∈ (f pc).waitingClients,
        ¬ S.IsServer qs.packet.fromMachine ∧
          ∃ r, qs.packet.data = .request r ∧ creates r = some pc.key) ∧
      ∀ r ∈ (f pc).serverResponseQueue,
        (S.IsServer r.replyMachine ∧ r.replyMachine ≠ j ∧ r.replyMailbox = 1) ∧
          r.replyMessageID < next r.replyMachine ∧
          key r.replyMachine r.replyMessageID = pc.key) : Registered S key next j t := by
  have hkeys : t.pendingCreates.map PendingCreate.key = s.pendingCreates.map PendingCreate.key := by
    rw [ht, List.map_map]
    refine List.map_congr_left fun pc hpc => ?_
    by_cases hid : pc.ID = id
    · simp [hid, (hf pc hpc hid).1]
    · simp [hid]
  have hmem : ∀ {pc'}, pc' ∈ t.pendingCreates → ∃ pc ∈ s.pendingCreates,
      (pc.ID = id ∧ pc' = f pc) ∨ pc' = pc := by
    intro pc' hpc'
    rw [ht] at hpc'
    obtain ⟨pc, hpc, rfl⟩ := List.mem_map.mp hpc'
    by_cases hid : pc.ID = id
    · exact ⟨pc, hpc, Or.inl ⟨hid, by rw [if_pos hid]⟩⟩
    · exact ⟨pc, hpc, Or.inr (by rw [if_neg hid])⟩
  refine ⟨hw, ?_, fun pc' hpc' => ?_, fun pc' hpc' => ?_, fun pc' hpc' => ?_⟩
  · unfold Server.DistinctPending
    rw [hkeys]
    exact h.distinct
  · obtain ⟨pc, hpc, ⟨hid, rfl⟩ | rfl⟩ := hmem hpc'
    · obtain ⟨hk, hi, -⟩ := hf pc hpc hid
      rw [hk, hi]
      exact h.id pc hpc
    · exact h.id _ hpc
  · obtain ⟨pc, hpc, ⟨hid, rfl⟩ | rfl⟩ := hmem hpc'
    · obtain ⟨hk, -, hc, -⟩ := hf pc hpc hid
      rw [hk]
      exact hc
    · exact h.clients _ hpc
  · obtain ⟨pc, hpc, ⟨hid, rfl⟩ | rfl⟩ := hmem hpc'
    · obtain ⟨hk, -, -, hq⟩ := hf pc hpc hid
      rw [hk]
      exact hq
    · exact h.queued _ hpc

/-- What a pending create looks like right after it has asked the other servers. -/
def freshPending (j : ℤ) (s : Server) (k : StructureType × Name) (p : Packet) :
    PendingCreate :=
  ⟨k.2, k.1, fun i => i = j, [⟨p, 0, s.nextQueryID + 1, none⟩], [], 0, s.nextQueryID⟩

theorem started_pendingCreates (hs : Registered S key next j s) (hn : next j = s.nextQueryID)
    (k : StructureType × Name) :
    (addWaitingClient (newPendingCreate (S.config j) s k.2 k.1).1 s.nextQueryID p).pendingCreates =
      s.pendingCreates ++ [freshPending j s k p] := by
  have hold : ∀ pc ∈ s.pendingCreates, pc.ID ≠ s.nextQueryID := by
    intro pc hpc
    have := (hs.id pc hpc).1
    omega
  simp only [addWaitingClient, newPendingCreate, newQueryStatus, modifyPending, List.map_append,
    List.map_cons, List.map_nil, if_true]
  congr 1
  conv_rhs => rw [← List.map_id s.pendingCreates]
  refine List.map_congr_left fun pc hpc => ?_
  rw [if_neg (hold pc hpc)]
  rfl

theorem Registered.started (hs : Registered S key next j s) (hn : next j = s.nextQueryID)
    {r : Request} {k : StructureType × Name} (hp : p.data = .request r) (hc : creates r = some k)
    (hfrom : ¬ S.IsServer p.fromMachine) (hpc : s.pending? k = none)
    (hk : key j s.nextQueryID = k) :
    Registered S key (Function.update next j (s.nextQueryID + 2)) j
      (addWaitingClient (newPendingCreate (S.config j) s k.2 k.1).1 s.nextQueryID p) := by
  have hmono : Registered S key (Function.update next j (s.nextQueryID + 2)) j s := by
    refine hs.mono (fun i => ?_) (fun _ _ _ => rfl)
    by_cases hi : i = j
    · subst hi
      simp only [Function.update_self]
      omega
    · rw [Function.update_of_ne hi]
  have hpend := started_pendingCreates (p := p) hs hn k
  have hmem : ∀ {pc}, pc ∈ (addWaitingClient (newPendingCreate (S.config j) s k.2 k.1).1
      s.nextQueryID p).pendingCreates → pc ∈ s.pendingCreates ∨ pc = freshPending j s k p := by
    intro pc h
    rw [hpend] at h
    simpa using h
  refine ⟨hs.responses, ?_, fun pc h => ?_, fun pc h => ?_, fun pc h => ?_⟩
  · unfold Server.DistinctPending
    rw [hpend, List.map_append, List.nodup_append]
    refine ⟨hs.distinct, by simp, ?_⟩
    intro a ha b hb he
    obtain ⟨pc, hpc', rfl⟩ := List.mem_map.mp ha
    obtain rfl : b = k := by simpa [freshPending, PendingCreate.key] using hb
    exact Server.pending?_eq_none.mp hpc pc hpc' he
  · rcases hmem h with h | rfl
    · exact hmono.id pc h
    · exact ⟨by simp [freshPending], hk⟩
  · rcases hmem h with h | rfl
    · exact hmono.clients pc h
    · refine ⟨by simp [freshPending], fun qs hqs => ?_⟩
      obtain rfl := List.mem_singleton.mp hqs
      exact ⟨hfrom, r, hp, hc⟩
  · rcases hmem h with h | rfl
    · exact hmono.queued pc h
    · simp [freshPending]

/-- After a move every id is still about the name it was issued for. -/
theorem Move.registered (h : Move S j s p t out) (hs : Registered S key next j s)
    (hn : next j = s.nextQueryID) (hp : ProperMessage S key next p) (hto : p.toMachine = j)
    (hj : S.IsServer j) :
    ∃ key', Agrees next key key' ∧ s.nextQueryID ≤ t.nextQueryID ∧
      Registered S key' (Function.update next j t.nextQueryID) j t ∧
      ∀ q ∈ out, S.Served q → ProperMessage S key' (Function.update next j t.nextQueryID) q := by
  have hsame : Function.update next j s.nextQueryID = next := by
    rw [← hn, Function.update_eq_self]
  have hrefl : Agrees next key key := fun _ _ _ => rfl
  have hreply : ∀ q : Packet, (∃ d, q.data = .reply d ∧ q.toMachine = p.fromMachine) →
      ¬ S.IsServer p.fromMachine → ¬ S.Served q := by
    rintro q ⟨d, -, hto⟩ hfrom hserved
    exact hfrom (hto ▸ hserved.1)
  have hrequest : ∀ q : Packet, ∀ {r k}, q.data = .request r → creates r = some k →
      ¬ S.IsServer q.fromMachine → ProperMessage S key next q := by
    intro q r k hq hr hfrom
    simp only [ProperMessage, hq]
    exact ⟨by simp [hr], hfrom⟩
  cases h with
  | @passed r _ _ hpr hc hl hv hm hd hq hw ho =>
    have hfrom : ¬ S.IsServer p.fromMachine := by
      simp only [ProperMessage, hpr] at hp
      exact hp.2
    rw [hq, hsame]
    refine ⟨key, hrefl, le_rfl, hs.sublist hw (hd ▸ List.Sublist.refl _), fun q hqo hserved => ?_⟩
    rcases ho q hqo with hrep | ⟨hdata, hqf⟩
    · exact (hreply q hrep hfrom hserved).elim
    · simp only [ProperMessage, hdata, hpr, hqf]
      exact ⟨hc, hfrom⟩
  | @joined r k pc hpr hc hx hpc =>
    have hfrom : ¬ S.IsServer p.fromMachine := by
      simp only [ProperMessage, hpr] at hp
      exact hp.2
    obtain ⟨hm, hk⟩ := (Server.pending?_iff hs.distinct).mp hpc
    have hnext : ∀ i, next i ≤ Function.update next j (s.nextQueryID + 1) i := by
      intro i
      by_cases hi : i = j
      · subst hi
        simp only [Function.update_self]
        omega
      · rw [Function.update_of_ne hi]
    refine ⟨key, hrefl, Nat.le_succ _, ?_, by simp⟩
    refine (hs.mono hnext hrefl).modify hs.responses rfl fun x hxm hid => ?_
    obtain rfl := hs.eq_of_id hxm hm hid
    obtain ⟨hne, hall⟩ := hs.clients x hxm
    refine ⟨rfl, rfl, ⟨by simp, fun qs hqs => ?_⟩, (hs.mono hnext hrefl).queued x hxm⟩
    rcases List.mem_append.mp hqs with hqs | hqs
    · exact hall qs hqs
    · obtain rfl := List.mem_singleton.mp hqs
      exact ⟨hfrom, r, hpr, hk ▸ hc⟩
  | @started r k hpr hc hx hpc =>
    have hfrom : ¬ S.IsServer p.fromMachine := by
      simp only [ProperMessage, hpr] at hp
      exact hp.2
    have hk : Agrees next key fun i n => if i = j ∧ n = s.nextQueryID then k else key i n := by
      intro i n hlt
      refine if_neg ?_
      rintro ⟨rfl, rfl⟩
      omega
    refine ⟨_, hk, ?_, (hs.mono (fun _ => le_rfl) hk).started hn hpr hc hfrom hpc (by simp), ?_⟩
    · simp only [addWaitingClient, newPendingCreate, newQueryStatus, modifyPending]
      omega
    · intro q hq hserved
      obtain ⟨i, hi, rfl⟩ := List.mem_map.mp hq
      refine ⟨⟨hj, (mem_otherServers.mp hi).2.symm, rfl, rfl⟩, ?_, by simp⟩
      simp [addWaitingClient, newPendingCreate, newQueryStatus, modifyPending]
  | confirmed hpd hx =>
    rw [hsame]
    refine ⟨key, hrefl, le_rfl, hs, fun q hq hserved => ?_⟩
    simp only [ProperMessage, hpd] at hp
    obtain rfl := List.mem_singleton.mp hq
    exact ⟨⟨hj, hto ▸ hp.1.ne.symm, hp.1.toMailbox, hp.1.fromMailbox⟩, hp.2.1⟩
  | denied hpd hx hd =>
    rw [hsame]
    refine ⟨key, hrefl, le_rfl, hs, fun q hq hserved => ?_⟩
    simp only [ProperMessage, hpd] at hp
    obtain rfl := List.mem_singleton.mp hq
    exact ⟨⟨hj, hto ▸ hp.1.ne.symm, hp.1.toMailbox, hp.1.fromMailbox⟩, hp.2.1⟩
  | @postponed k id pc hpd hx hpc hd =>
    simp only [ProperMessage, hpd] at hp
    obtain ⟨hm, hk⟩ := (Server.pending?_iff hs.distinct).mp hpc
    refine ⟨key, hrefl, le_rfl, ?_, by simp⟩
    rw [show (postpone s pc p id).nextQueryID = s.nextQueryID from rfl, hsame]
    refine hs.modify hs.responses rfl fun x hxm hid => ?_
    obtain rfl := hs.eq_of_id hxm hm hid
    refine ⟨rfl, rfl, hs.clients x hxm, fun r hr => ?_⟩
    rcases List.mem_append.mp hr with hr | hr
    · exact hs.queued x hxm r hr
    · obtain rfl := List.mem_singleton.mp hr
      exact ⟨⟨hp.1.server, hto ▸ hp.1.ne, hp.1.fromMailbox⟩, hp.2.1, hp.2.2.trans hk.symm⟩
  | stale hpd hpc =>
    rw [hsame]
    exact ⟨key, hrefl, le_rfl, hs, by simp⟩
  | @yielded type id pc hpd hpc hid =>
    refine ⟨key, hrefl, le_rfl, ?_, fun q hq hserved => ?_⟩
    · rw [show (removePending s id).nextQueryID = s.nextQueryID from rfl, hsame]
      exact hs.sublist hs.responses (removePending_sublist s id)
    · obtain ⟨qs, hqs, rfl⟩ := List.mem_map.mp hq
      obtain ⟨hfrom, r, hdata, hr⟩ := (hs.clients pc hpc).2 qs hqs
      rw [show (removePending s id).nextQueryID = s.nextQueryID from rfl, hsame]
      exact hrequest _ hdata hr hfrom
  | @counted type id pc hpd hpc hid hnum =>
    refine ⟨key, hrefl, le_rfl, ?_, by simp⟩
    rw [show (modifyPending s id _).nextQueryID = s.nextQueryID from rfl, hsame]
    exact hs.modify hs.responses rfl fun x hxm _ => ⟨rfl, rfl, hs.clients x hxm, hs.queued x hxm⟩
  | @completed type id pc hpd hpc hid hnum =>
    obtain ⟨hpend, hnext⟩ := createObject_frame s pc.key
    have hresp : (createObject s pc.key).1.necessaryResponses = [] := by
      obtain ⟨k, n⟩ := pc.key
      cases k <;> exact hs.responses
    have hnext' : (removePending (createObject s pc.key).1 id).nextQueryID = s.nextQueryID := hnext
    rw [hnext', hsame]
    refine ⟨key, hrefl, le_rfl, hs.sublist hresp ?_, fun q hq hserved => ?_⟩
    · have := removePending_sublist (createObject s pc.key).1 id
      rwa [hpend] at this
    · rcases List.mem_append.mp hq with hq | hq
      · obtain ⟨r, hr, rfl⟩ := List.mem_map.mp hq
        obtain ⟨hb, hlt, -⟩ := hs.queued pc hpc r hr
        exact ⟨⟨hj, hb.2.1.symm, rfl, hb.2.2⟩, hlt⟩
      · obtain ⟨qs, hqs, rfl⟩ := List.mem_map.mp hq
        exact ((hs.clients pc hpc).2 qs hqs).1 hserved.1 |>.elim

/-- The registry is kept by every action of a run with creates only. -/
theorem registry_step {g g' : System} {a : Action} (hN : 2 ≤ S.totalNumServers)
    (hg : Registry S key g) (ha : ∀ p, a = .arrive p → ClientCreate S p)
    (h : network S g a = .ok (g', out)) : ∃ key', Registry S key' g' := by
  cases a with
  | arrive p =>
    obtain ⟨rfl, -⟩ := network_arrive_iff.mp h
    obtain ⟨hfrom, -, r, hdata, hr⟩ := ha p rfl
    refine ⟨key, hg.server, fun q hq => ?_, fun q hq => ?_⟩
    · rcases mem_post.mp hq with hq | ⟨-, hq⟩
      · exact hg.served q hq
      · exact hq
    · rcases mem_post.mp hq with hq | ⟨hq, -⟩
      · exact hg.proper q hq
      · obtain rfl := List.mem_singleton.mp hq
        simp only [ProperMessage, hdata]
        exact ⟨hr, hfrom⟩
  | handle p =>
    obtain ⟨hen, t, ht, rfl⟩ := network_handle_iff.mp h
    have hmem := hen.1
    have hs := hg.server p.toMachine
    have hmove := handlePacket_move (by omega) hs (hg.proper p hmem) rfl ht
    obtain ⟨key', hk, hle, hreg, hout⟩ :=
      hmove.registered hs rfl (hg.proper p hmem) rfl (hg.served p hmem).1
    have hnext : (fun i => ((Function.update g.server p.toMachine t) i).nextQueryID) =
        Function.update (fun i => (g.server i).nextQueryID) p.toMachine t.nextQueryID := by
      funext i
      by_cases hi : i = p.toMachine
      · subst hi
        simp
      · simp [Function.update_of_ne hi]
    have hmono : ∀ i, (g.server i).nextQueryID ≤
        Function.update (fun i => (g.server i).nextQueryID) p.toMachine t.nextQueryID i := by
      intro i
      by_cases hi : i = p.toMachine
      · subst hi
        simpa using hle
      · simp [Function.update_of_ne hi]
    refine ⟨key', fun i => ?_, fun q hq => ?_, fun q hq => ?_⟩
    · dsimp only
      rw [hnext]
      by_cases hi : i = p.toMachine
      · subst hi
        rw [Function.update_self]
        exact hreg
      · rw [Function.update_of_ne hi]
        exact (hg.server i).mono hmono hk
    · rcases mem_post.mp hq with hq | ⟨-, hq⟩
      · exact hg.served q (List.mem_of_mem_erase hq)
      · exact hq
    · dsimp only
      rw [hnext]
      rcases mem_post.mp hq with hq | ⟨hq, hserved⟩
      · exact (hg.proper q (List.mem_of_mem_erase hq)).mono hmono hk
      · exact hout q hq hserved

theorem registry_initial : Registry S key .initial := by
  refine ⟨fun j => ⟨rfl, ?_, ?_, ?_, ?_⟩, ?_, ?_⟩ <;>
    simp [System.initial, Server.initial, Server.DistinctPending]

end Nachos.Network
