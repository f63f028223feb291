import Nachos.ServerCreateNumbers

/-! Negative answers to a create that another server has already claimed. -/
namespace Nachos.Network
open BoxOne Executions

variable {S : Setting} {cfg : Config} {s t : Server} {p : Packet} {out : List Packet} {id : ℕ}

/-- No create of that id is under way, nor will one be. -/
structure Server.Gone (s : Server) (id : ℕ) : Prop where
  past : id < s.nextQueryID
  absent : ∀ pc ∈ s.pendingCreates, pc.ID ≠ id

/-- The step in which a server learns that another one has the name: the create ends. -/
structure Resolves (x : NetworkStep) (j : ℤ) (id : ℕ) : Prop where
  answer : ∃ p type, x.event.1 = .handle p ∧ p.toMachine = j ∧ p.toMailbox ≠ 0 ∧
    p.data = .haveName type id
  pending : ∃ pc ∈ (x.before.server j).pendingCreates, pc.ID = id

/-! New creates get new ids. -/

/-- Each create under way was so before or has an id not used before. -/
def FreshPending (s t : Server) : Prop :=
  ∀ pc ∈ t.pendingCreates, (∃ pc' ∈ s.pendingCreates, pc'.ID = pc.ID) ∨ s.nextQueryID ≤ pc.ID

theorem FreshPending.of_subset (h : ∀ pc ∈ t.pendingCreates, pc ∈ s.pendingCreates) :
    FreshPending s t := fun pc hpc => .inl ⟨pc, h pc hpc, rfl⟩

theorem FreshPending.of_eq (h : t.pendingCreates = s.pendingCreates) : FreshPending s t :=
  .of_subset fun _ hpc => h ▸ hpc

theorem FreshPending.modify (h : FreshPending s t) {id : ℕ} {f : PendingCreate → PendingCreate}
    (hf : ∀ pc, (f pc).ID = pc.ID) : FreshPending s (modifyPending t id f) := by
  intro pc hpc
  obtain ⟨pc', hpc', rfl⟩ := List.mem_map.mp hpc
  have hid : (if pc'.ID = id then f pc' else pc').ID = pc'.ID := by
    split_ifs
    · exact hf pc'
    · rfl
  rw [hid]
  exact h pc' hpc'

theorem FreshPending.addWaitingClient (h : FreshPending s t) (id : ℕ) (p : Packet) :
    FreshPending s (addWaitingClient t id p) :=
  FreshPending.modify (t := (newQueryStatus t p none).1) h fun _ => rfl

theorem create_freshPending (type : StructureType) (name queried : Name) :
    FreshPending s (create cfg s p type name queried).1 := by
  unfold create
  split
  · exact .of_eq rfl
  · split
    · exact FreshPending.addWaitingClient (.of_eq rfl) _ p
    · refine FreshPending.addWaitingClient (fun pc hpc => ?_) _ p
      rcases List.mem_append.mp hpc with hpc | hpc
      · exact .inl ⟨pc, hpc, rfl⟩
      · obtain rfl := List.mem_singleton.mp hpc
        exact .inr le_rfl

theorem removePending_freshPending (h : t.pendingCreates = s.pendingCreates) :
    FreshPending s (removePending t id) :=
  .of_subset fun _ hpc => h ▸ List.mem_of_mem_eraseP hpc

theorem createPending_pendingCreates {type : StructureType} {data : Message} {r : Server × ℤ}
    (h : createPending s type data = .ok r) : r.1.pendingCreates = s.pendingCreates := by
  unfold createPending at h
  split at h
  · rw [← Except.ok.inj h]
    rfl
  · rw [← Except.ok.inj h]
    rfl
  · unfold serverCreateMV at h
    dsimp only at h
    split_ifs at h <;> rw [← Except.ok.inj h]
  · cases h

theorem boxOne_freshPending (h : boxOne cfg s p = .ok (t, out)) : FreshPending s t := by
  cases hd : p.data with
  | request r =>
    simp only [boxOne, hd] at h
    obtain ⟨rfl, -⟩ := Prod.mk.inj (Except.ok.inj h)
    cases r with
    | createLock | createCV | createMV => exact create_freshPending _ _ _
    | _ => exact .of_eq rfl
  | doYouHaveName type id name =>
    simp only [boxOne, hd] at h
    obtain rfl : (doYouHaveName cfg s p type id name).1 = t :=
      congrArg Prod.fst (Except.ok.inj h)
    unfold doYouHaveName determineResponseToCreateRequest
    split
    · exact .of_eq rfl
    · split
      · exact .of_eq rfl
      · exact FreshPending.modify (.of_eq rfl) fun _ => rfl
      · split_ifs
        · exact FreshPending.modify (.of_eq rfl) fun _ => rfl
        · exact .of_eq rfl
  | haveName type id =>
    simp only [boxOne, hd] at h
    obtain rfl : (haveName s p id).1 = t := congrArg Prod.fst (Except.ok.inj h)
    unfold haveName
    split
    · exact .of_eq rfl
    · exact removePending_freshPending rfl
  | doNotHaveName type id =>
    simp only [boxOne, hd] at h
    rcases doNotHaveName_cases h with ⟨-, -, rfl, -⟩ | ⟨pc, -, ⟨-, rfl, -⟩ |
      ⟨-, client, rest, r, -, hr, rfl, -⟩⟩
    · exact .of_eq rfl
    · exact FreshPending.modify (.of_eq rfl) fun _ => rfl
    · exact removePending_freshPending (createPending_pendingCreates hr)
  | doYouHave type id index =>
    simp only [boxOne, hd] at h
    obtain ⟨rfl, -⟩ := Prod.mk.inj (Except.ok.inj h)
    exact .of_eq rfl
  | haveObject type id =>
    simp only [boxOne, hd] at h
    obtain rfl : (haveObject s p id).1 = t := congrArg Prod.fst (Except.ok.inj h)
    unfold haveObject
    split <;> exact .of_eq rfl
  | doNotHaveObject type id =>
    simp only [boxOne, hd] at h
    obtain ⟨rfl, -⟩ := Prod.mk.inj (Except.ok.inj h)
    unfold doNotHaveObject
    split
    · exact .of_eq rfl
    · split_ifs <;> exact .of_eq rfl
  | _ => simp [boxOne, hd] at h

theorem handlePacket_freshPending (hN : S.totalNumServers ≠ 1)
    (h : handlePacket S s p = .ok (t, out)) : FreshPending s t := by
  unfold handlePacket at h
  split_ifs at h
  · exact .of_eq (KeepsQueries.of_updates (boxZero_routing (fun hone => absurd hone hN) h).1).pending
  · exact boxOne_freshPending h

/-! Ended creates. -/

/-- An ended create stays so. -/
theorem Server.Gone.kept (hg : s.Gone id) (hN : 1 < S.totalNumServers) (hs : NumberInvariant S s)
    (h : handlePacket S s p = .ok (t, out)) : t.Gone id := by
  refine ⟨hg.past.trans_le (handlePacket_queryMove hN.ne' hs.waiting h).orderly.next, ?_⟩
  rintro pc hpc rfl
  rcases handlePacket_freshPending hN.ne' h pc hpc with ⟨pc', hpc', hid⟩ | hle
  · exact hg.absent pc' hpc' hid
  · exact absurd hg.past (not_lt.mpr hle)

theorem removePending_gone (hs : NumberInvariant S s) {pc : PendingCreate}
    (hpc : pc ∈ s.pendingCreates) (hid : pc.ID = id) : (removePending s id).Gone id := by
  refine ⟨hid ▸ hs.next pc hpc, fun b hb => ?_⟩
  obtain ⟨a, l₁, l₂, hfirst, ha, hl, herase⟩ :=
    List.exists_of_eraseP (p := fun pc => decide (pc.ID = id)) hpc (by simpa using hid)
  have hdistinct := hs.ids
  rw [hl, List.map_append, List.map_cons, List.nodup_append, List.nodup_cons] at hdistinct
  have hb : b ∈ l₁ ++ l₂ := herase ▸ hb
  rcases List.mem_append.mp hb with hb | hb
  · simpa using hfirst b hb
  · have ha : a.ID = id := by simpa using ha
    exact fun hbid => hdistinct.2.1.1 (List.mem_map.mpr ⟨b, hb, hbid.trans ha.symm⟩)

/-! Runs. -/

/-- What is known after a run: creates that were resolved are gone. -/
def ResolvedGone (S : Setting) (tr : List NetworkStep) (g : System) : Prop :=
  ∀ j, NumberInvariant S (g.server j) ∧
    ∀ id, (∃ x ∈ tr, Resolves x j id) → (g.server j).Gone id

/-- A create that is gone stays so in every step. -/
theorem network_gone {g g' : System} {a : Action} (hN : 1 < S.totalNumServers)
    (hs : ∀ j, NumberInvariant S (g.server j)) (h : network S g a = .ok (g', out)) {j : ℤ}
    (hg : (g.server j).Gone id) : (g'.server j).Gone id := by
  cases a with
  | arrive q =>
    obtain ⟨rfl, -⟩ := network_arrive_iff.mp h
    exact hg
  | handle q =>
    obtain ⟨-, t, ht, rfl⟩ := network_handle_iff.mp h
    by_cases hj : j = q.toMachine
    · subst hj
      simpa using hg.kept hN (hs _) ht
    · simpa [Function.update_of_ne hj] using hg

theorem Resolves.gone {x : NetworkStep} {j : ℤ} (h : Resolves x j id)
    (hs : NumberInvariant S (x.before.server j))
    (hx : Handles (network S) x.before x.event x.after) : (x.after.server j).Gone id := by
  obtain ⟨p, type, he, rfl, hb, hp⟩ := h.answer
  obtain ⟨pc, hpc, hid⟩ := h.pending
  unfold Handles at hx
  rw [he] at hx
  obtain ⟨-, t, ht, hafter⟩ := network_handle_iff.mp hx
  simp only [handlePacket, hb, if_false, boxOne, hp] at ht
  obtain rfl : (haveName (x.before.server p.toMachine) p id).1 = t :=
    congrArg Prod.fst (Except.ok.inj ht)
  have hremoved : (haveName (x.before.server p.toMachine) p id).1 =
      removePending (x.before.server p.toMachine) id := by
    unfold haveName
    split
    · rename_i hnone
      exact absurd hid (by simpa using List.find?_eq_none.mp hnone pc hpc)
    · rfl
  have hself : x.after.server p.toMachine = removePending (x.before.server p.toMachine) id := by
    rw [hafter, ← hremoved]
    exact Function.update_self ..
  rw [hself]
  exact removePending_gone hs hpc hid

theorem network_resolvedGone (hN : 1 < S.totalNumServers) {tr : List NetworkStep} {x : NetworkStep}
    (hs : ResolvedGone S tr x.before) (hx : Handles (network S) x.before x.event x.after) :
    ResolvedGone S (tr ++ [x]) x.after := by
  have hnumbers := network_forall_servers (P := fun _ s => NumberInvariant S s) hx
    (fun j => (hs j).1) fun s p t out hs ht => handlePacket_numberInvariant hs (.inr hN) ht
  refine fun j => ⟨hnumbers j, ?_⟩
  rintro id ⟨y, hy, hres⟩
  rcases List.mem_append.mp hy with hy | hy
  · exact network_gone hN (fun j => (hs j).1) hx ((hs j).2 id ⟨y, hy, hres⟩)
  · obtain rfl := List.mem_singleton.mp hy
    exact hres.gone (hs j).1 hx

theorem resolved_gone (hN : 1 < S.totalNumServers) {tr : List NetworkStep} {g : System}
    (h : Execution (Handles (network S)) .initial tr g) : ResolvedGone S tr g :=
  h.history_invariant (Q := fun _ => True)
    (fun j => ⟨numberInvariant_initial, fun id ⟨_, hx, _⟩ => by cases hx⟩)
    (fun _ _ hs hx _ => network_resolvedGone hN hs hx) fun _ _ => trivial

/-- A late negative answer changes and sends nothing exactly when the uninitialised pointer of
the handler holds NULL. -/
theorem late_negative_iff (hN : 3 ≤ S.totalNumServers) {tr : List NetworkStep} {g : System}
    (h : Execution (Handles (network S)) .initial tr g) {type : StructureType}
    (hb : p.toMailbox = 1) (hp : p.data = .doNotHaveName type id)
    (hlate : ∃ x ∈ tr, Resolves x p.toMachine id) (strayTemp : Bool) :
    handlePacket { S with strayTemp := strayTemp } (g.server p.toMachine) p =
        .ok (g.server p.toMachine, []) ↔ strayTemp = false := by
  have hgone := (resolved_gone (by omega) h p.toMachine).2 id hlate
  have hnone : (g.server p.toMachine).pendingCreates.find? (fun pc => pc.ID = id) = none :=
    List.find?_eq_none.mpr fun pc hpc => by simpa using hgone.absent pc hpc
  simp only [handlePacket, hb, one_ne_zero, if_false, boxOne, hp, doNotHaveName, hnone,
    Setting.config]
  cases strayTemp <;> simp

/-- Server 1 has a lock; server 0 is asked to create it, and hears from server 1 before it
hears from server 2. -/
def lateDenial : List Action :=
  let ask (i j : ℤ) : Packet := ⟨j, 1, i, 1, .doYouHaveName .lock 0 [97]⟩
  let deny (i j : ℤ) : Packet := ⟨j, 1, i, 1, .doNotHaveName .lock 0⟩
  let create (i box : ℤ) : Packet := ⟨i, box, 5, 9, .request (.createLock [97])⟩
  [.arrive (create 1 0), .handle (create 1 0), .handle (create 1 1), .handle (ask 1 0),
    .handle (ask 1 2), .handle (deny 0 1), .handle (deny 2 1),
    .arrive (create 0 0), .handle (create 0 0), .handle (create 0 1), .handle (ask 0 1),
    .handle (ask 0 2), .handle ⟨0, 1, 1, 1, .haveName .lock 0⟩]

/-- The negative answer of server 2 is on its way to a create that was resolved. -/
theorem lateDenial_run (strayTemp : Bool) :
    ∃ (tr : List NetworkStep) (g : System),
      Execution (Handles (network ⟨3, false, strayTemp⟩)) .initial tr g ∧
      ⟨0, 1, 2, 1, .doNotHaveName .lock 0⟩ ∈ g.net ∧ ∃ x ∈ tr, Resolves x 0 0 := by
  obtain ⟨tr, g, h, -, htest⟩ := exists_of_trace (network ⟨3, false, strayTemp⟩) .initial lateDenial
    (fun r => decide (⟨0, 1, 2, 1, .doNotHaveName .lock 0⟩ ∈ r.2.net) && r.1.any fun x =>
      decide (x.event.1 = .handle ⟨0, 1, 1, 1, .haveName .lock 0⟩) &&
        (x.before.server 0).pendingCreates.any fun pc => pc.ID = 0)
    (by cases strayTemp <;> decide +kernel)
  simp only [Bool.and_eq_true, List.any_eq_true, decide_eq_true_eq] at htest
  obtain ⟨hnet, x, hx, he, hpending⟩ := htest
  exact ⟨tr, g, h, hnet, x, hx, ⟨_, .lock, he, rfl, one_ne_zero, rfl⟩, hpending⟩

theorem late_negative_three :
    ∃ (tr : List NetworkStep) (g : System),
      Execution (Handles (network ⟨3, false, false⟩)) .initial tr g ∧
      ⟨0, 1, 2, 1, .doNotHaveName .lock 0⟩ ∈ g.net ∧
      handlePacket ⟨3, false, false⟩ (g.server 0) ⟨0, 1, 2, 1, .doNotHaveName .lock 0⟩ =
        .ok (g.server 0, []) := by
  obtain ⟨tr, g, h, hnet, hlate⟩ := lateDenial_run false
  refine ⟨tr, g, h, hnet, ?_⟩
  exact (late_negative_iff (p := ⟨0, 1, 2, 1, .doNotHaveName .lock 0⟩) le_rfl h rfl rfl hlate
    false).mpr rfl

/-- The same with another value in the memory of the pointer. -/
theorem late_negative_follows_stray :
    ∃ (tr : List NetworkStep) (g : System),
      Execution (Handles (network ⟨3, false, true⟩)) .initial tr g ∧
      ⟨0, 1, 2, 1, .doNotHaveName .lock 0⟩ ∈ g.net ∧ (∃ x ∈ tr, Resolves x 0 0) ∧
      handlePacket ⟨3, false, true⟩ (g.server 0) ⟨0, 1, 2, 1, .doNotHaveName .lock 0⟩ =
        .error .uninitialised := by
  obtain ⟨tr, g, h, hnet, hlate⟩ := lateDenial_run true
  have hgone := (resolved_gone (by decide) h 0).2 0 hlate
  refine ⟨tr, g, h, hnet, hlate, ?_⟩
  have hnone : (g.server 0).pendingCreates.find? (fun pc => pc.ID = 0) = none :=
    List.find?_eq_none.mpr fun pc hpc => by simpa using hgone.absent pc hpc
  simp [handlePacket, boxOne, doNotHaveName, hnone, Setting.config]

end Nachos.Network
