import Nachos.ServerCreates
import Nachos.ServerReplyContract
import Nachos.ServerUpdates

/-! What each message does to the queries for objects of other servers: mailbox 0 never
touches them and passes on what is not its own; mailbox 1 asks, answers and forwards. -/
namespace Nachos.Network
open SlotTables BoxOne

variable {S : Setting} {cfg : Config} {s t u : Server} {p q : Packet} {out : List Packet}
  {o : Outcome}

/-- The object that decides where a request belongs, for the requests that mailbox 0
routes by the number of their object. -/
def routedBy : Request → Option (StructureType × ℤ)
  | .acquire lockNum | .release lockNum | .destroyLock lockNum => some (.lock, lockNum)
  | .destroyCV cvNum => some (.cv, cvNum)
  | .destroyMV mvNum | .getMV mvNum _ | .setMV mvNum _ _ => some (.mv, mvNum)
  | _ => none

/-- The object that mailbox 1 asks the other servers for. -/
def queriedBy : Request → Option (StructureType × ℤ)
  | .cvOperation _ cvNum _ => some (.cv, cvNum)
  | r => routedBy r

/-- The machine that an object number belongs to. -/
def ownerOf (number : ℤ) : ℤ := number.tdiv (500 : ℕ)

def Message.isQuery : Message → Bool
  | .doYouHave .. | .haveObject .. | .doNotHaveObject .. => true
  | _ => false

/-- The queries under way, and the tables up to their size. -/
structure KeepsQueries (s t : Server) : Prop where
  queue : t.queryQueue = s.queryQueue
  next : t.nextQueryID = s.nextQueryID
  pending : t.pendingCreates = s.pendingCreates
  locks : t.locks.length = s.locks.length
  conditions : t.conditions.length = s.conditions.length
  mvs : t.mvs.length = s.mvs.length

namespace KeepsQueries

theorem refl (s : Server) : KeepsQueries s s := ⟨rfl, rfl, rfl, rfl, rfl, rfl⟩

theorem trans (h : KeepsQueries s t) (h' : KeepsQueries t u) : KeepsQueries s u :=
  ⟨h'.queue.trans h.queue, h'.next.trans h.next, h'.pending.trans h.pending,
    h'.locks.trans h.locks, h'.conditions.trans h.conditions, h'.mvs.trans h.mvs⟩

theorem of_update (h : Update s t) : KeepsQueries s t := by
  cases h with
  | lock | noLock => exact ⟨rfl, rfl, rfl, by simp [Server.setLock, Server.removeLock], rfl, rfl⟩
  | condition | noCondition =>
    exact ⟨rfl, rfl, rfl, rfl, by simp [Server.setCondition, Server.removeCondition], rfl⟩
  | mv | noMV => exact ⟨rfl, rfl, rfl, rfl, rfl, by simp [Server.setMV, Server.removeMV]⟩
  | noted => exact ⟨rfl, rfl, rfl, rfl, rfl, rfl⟩

theorem of_updates (h : Updates s t) : KeepsQueries s t := by
  induction h with
  | refl => exact .refl s
  | tail _ h ih => exact ih.trans (.of_update h)

end KeepsQueries

/-! Mailbox 0. -/

/-- A request for an object is passed on exactly when its number belongs elsewhere. -/
theorem request_routed {r : Request} {k : StructureType × ℤ} (hr : routedBy r = some k)
    (h : BoxZero.request cfg s p r = .ok o) :
    (ownerOf k.2 ≠ cfg.myMachineID ∧ o = BoxZero.toBoxOne cfg s p) ∨
      (ownerOf k.2 = cfg.myMachineID ∧ o.sent = [] ∧ Updates s o.server) := by
  cases r <;> simp only [routedBy, reduceCtorEq, Option.some.injEq] at hr
  all_goals
    subst hr
    have ho := Except.ok.inj h
    subst ho
  case destroyLock n =>
    by_cases hn : decodeMachineIDFromLockNumber n = cfg.myMachineID
    · refine Or.inr ⟨hn, ?_⟩
      simp only [BoxZero.destroyLock, hn, ne_eq, not_true_eq_false, if_false]
      exact ⟨trivial, serverDestroyLock_updates s _⟩
    · exact Or.inl ⟨hn, if_pos hn⟩
  case acquire n =>
    by_cases hn : decodeMachineIDFromLockNumber n = cfg.myMachineID
    · refine Or.inr ⟨hn, ?_⟩
      have hk := serverAcquire_updates s p.fromMachine p.fromMailbox (decodeIndex cfg n)
      simp only [BoxZero.acquire, hn, ne_eq, not_true_eq_false, if_false]
      split
      · exact ⟨rfl, hk.trans (.pushResponse _ _)⟩
      · exact ⟨rfl, hk.trans (.pushResponse _ _)⟩
      · exact ⟨rfl, hk⟩
    · exact Or.inl ⟨hn, if_pos hn⟩
  case release n =>
    by_cases hn : decodeMachineIDFromLockNumber n = cfg.myMachineID
    · refine Or.inr ⟨hn, ?_⟩
      have hk := serverRelease_updates s p.fromMachine p.fromMailbox (decodeIndex cfg n)
      simp only [BoxZero.release, hn, ne_eq, not_true_eq_false, if_false]
      split
      · exact ⟨rfl, hk.trans (.pushResponse _ _)⟩
      · exact ⟨rfl, (hk.trans (.pushResponse _ _)).trans (.pushResponse _ _)⟩
      · exact ⟨rfl, hk.trans (.pushResponse _ _)⟩
    · exact Or.inl ⟨hn, if_pos hn⟩
  case destroyCV n =>
    by_cases hn : decodeMachineIDFromCVNumber n = cfg.myMachineID
    · refine Or.inr ⟨hn, ?_⟩
      simp only [BoxZero.destroyCV, hn, ne_eq, not_true_eq_false, if_false]
      exact ⟨trivial, serverDestroyCV_updates s _⟩
    · exact Or.inl ⟨hn, if_pos hn⟩
  case destroyMV n =>
    by_cases hn : decodeMachineIDFromMVNumber n = cfg.myMachineID
    · refine Or.inr ⟨hn, ?_⟩
      simp only [BoxZero.destroyMV, hn, ne_eq, not_true_eq_false, if_false]
      exact ⟨trivial, serverDestroyMV_updates s _⟩
    · exact Or.inl ⟨hn, if_pos hn⟩
  case getMV n i =>
    by_cases hn : decodeMachineIDFromMVNumber n = cfg.myMachineID
    · refine Or.inr ⟨hn, ?_⟩
      simp only [BoxZero.getMV, hn, ne_eq, not_true_eq_false, if_false]
      exact ⟨rfl, .pushResponse s _⟩
    · exact Or.inl ⟨hn, if_pos hn⟩
  case setMV n i x =>
    by_cases hn : decodeMachineIDFromMVNumber n = cfg.myMachineID
    · refine Or.inr ⟨hn, ?_⟩
      simp only [BoxZero.setMV, hn, ne_eq, not_true_eq_false, if_false]
      exact ⟨trivial, (Updates.pushResponse s _).trans (serverSetMV_updates _ _ _ _)⟩
    · exact Or.inl ⟨hn, if_pos hn⟩

/-- What the other messages of mailbox 0 send by themselves: nothing about queries, and
a routed request only under the name of the server. -/
def SendsNoRouted (cfg : Config) (q : Packet) : Prop :=
  q.data.isQuery = false ∧
    ∀ r, q.data = .request r →
      routedBy r = none ∨ q.fromMachine = cfg.myMachineID ∧ q.toMailbox = 0

theorem localOperation_updates {operation : CVOperation} {cv lock : ℤ} {respond : Bool}
    (h : BoxZero.localOperation s p operation cv lock respond = .ok o) :
    Updates s o.server ∧ o.sent = [] := by
  cases operation with
  | signal =>
    rw [← Except.ok.inj h]
    exact ⟨((serverSignal_updates s _ _ _ _).trans (pushWoken_updates _ _)).trans (.pushResponse _ _),
      rfl⟩
  | broadcast =>
    obtain ⟨u, hu, ho⟩ := bind_eq_ok.mp h
    rw [← Except.ok.inj ho]
    exact ⟨(serverBroadcast_updates hu).trans (.pushResponse _ _), rfl⟩
  | wait =>
    obtain ⟨u, hu, ho⟩ := bind_eq_ok.mp h
    have hk := (serverWait_updates hu).trans (serverRelease_updates u p.fromMachine p.fromMailbox lock)
    dsimp only at ho
    split at ho
    · cases ho
    · rename_i cr _
      have hw := pushWoken_updates (serverRelease u p.fromMachine p.fromMailbox lock).1
        (some (cr, true))
      rw [← Except.ok.inj ho]
      exact ⟨hk.trans hw, rfl⟩
    · rw [← Except.ok.inj ho]
      exact ⟨hk, rfl⟩

theorem trackedOperation_updates {clientMID clientMBX l cv : ℤ} {operation : CVOperation}
    (h : BoxZero.trackedOperation cfg s p clientMID clientMBX l cv operation = .ok o) :
    Updates s o.server ∧ ∀ q ∈ o.sent, SendsNoRouted cfg q := by
  unfold BoxZero.trackedOperation at h
  split_ifs at h
  · cases operation with
    | signal =>
      rw [← Except.ok.inj h]
      exact ⟨((serverSignal_updates s _ _ _ _).trans (pushWoken_updates _ _)).trans
        (.pushResponse _ _), by simp⟩
    | broadcast =>
      obtain ⟨u, hu, ho⟩ := bind_eq_ok.mp h
      rw [← Except.ok.inj ho]
      exact ⟨(serverBroadcast_updates hu).trans (.pushResponse _ _), by simp⟩
    | wait =>
      obtain ⟨u, hu, ho⟩ := bind_eq_ok.mp h
      rw [← Except.ok.inj ho]
      refine ⟨serverWait_updates hu, fun q hq => ?_⟩
      obtain rfl := List.mem_singleton.mp hq
      exact ⟨rfl, fun _ _ => Or.inr ⟨rfl, rfl⟩⟩
  · rw [← Except.ok.inj h]
    refine ⟨.refl s, fun q hq => ?_⟩
    obtain rfl := List.mem_singleton.mp hq
    refine ⟨rfl, fun r hr => Or.inl ?_⟩
    obtain rfl := Message.request.inj hr
    rfl

theorem cvOperation_updates {operation : CVOperation} {cv l : ℤ}
    (hp : p.data = .request (.cvOperation operation cv l))
    (h : BoxZero.cvOperation cfg s p operation cv l = .ok o) :
    Updates s o.server ∧ ∀ q ∈ o.sent, SendsNoRouted cfg q := by
  have hpass : ∀ q ∈ (BoxZero.toBoxOne cfg s p).sent, SendsNoRouted cfg q := by
    intro q hq
    obtain rfl := List.mem_singleton.mp hq
    refine ⟨by simp [sendMessageWithData, hp, Message.isQuery], fun r hr => Or.inl ?_⟩
    obtain rfl := Message.request.inj (hp.symm.trans hr)
    rfl
  unfold BoxZero.cvOperation at h
  dsimp only at h
  generalize decide (decodeMachineIDFromLockNumber l < 0 ∨
    decodeMachineIDFromLockNumber l > (cfg.totalNumServers : ℤ)) = invalid at h
  obtain ⟨u, hu, hk⟩ : ∃ u, (if invalid = true then s.pushResponse p.response else s) = u ∧
      Updates s u := by
    cases invalid
    · exact ⟨s, rfl, .refl s⟩
    · exact ⟨_, rfl, .pushResponse s _⟩
  rw [hu] at h
  split at h
  · split at h
    · split at h
      · rw [← Except.ok.inj h]
        exact ⟨hk, by simp⟩
      · rw [← Except.ok.inj h]
        exact ⟨hk.trans (.pushResponse u _), by simp⟩
    · split at h
      · obtain ⟨hl, hs⟩ := localOperation_updates h
        exact ⟨hk.trans hl, by simp [hs]⟩
      · rw [← Except.ok.inj h]
        exact ⟨hk, hpass⟩
  · rw [← Except.ok.inj h]
    refine ⟨hk.trans (.of (.noted u u.necessaryResponses _)), fun q hq => ?_⟩
    obtain rfl := List.mem_singleton.mp hq
    exact ⟨rfl, fun r hr => by cases hr⟩

theorem cvLockTrackerResponse_updates {clientMID clientMBX l : ℤ} {held : Bool}
    (h : BoxZero.cvLockTrackerResponse cfg s p clientMID clientMBX l held = .ok o) :
    Updates s o.server ∧ ∀ q ∈ o.sent, SendsNoRouted cfg q := by
  unfold BoxZero.cvLockTrackerResponse at h
  dsimp only at h
  generalize s.cvLockTrackerList.findIdx? (fun t => t.clientMachineID = clientMID &&
    t.clientMailbox = clientMBX && t.lockNum = l) = found at h
  cases found with
  | none =>
    simp only [Option.bind_none] at h
    split_ifs at h
    rw [← Except.ok.inj h]
    exact ⟨.pushResponse s _, by simp⟩
  | some i =>
    have hk : Updates s { s with cvLockTrackerList := s.cvLockTrackerList.eraseIdx i } :=
      .of (.noted s s.necessaryResponses _)
    cases hx : s.cvLockTrackerList[i]? with
    | none =>
      simp only [Option.bind_some, hx] at h
      split_ifs at h
      rw [← Except.ok.inj h]
      exact ⟨hk.trans (.pushResponse _ _), by simp⟩
    | some t =>
      simp only [Option.bind_some, hx] at h
      split_ifs at h
      · obtain ⟨ht, hs⟩ := trackedOperation_updates h
        exact ⟨hk.trans ht, hs⟩
      · rw [← Except.ok.inj h]
        exact ⟨hk.trans (.pushResponse _ _), by simp⟩

/-- Mailbox 0, but for the creates of a lone server: a routed request is passed on when its
object is not here, and nothing else that is sent concerns the queries. -/
theorem boxZero_routing
    (hN : cfg.totalNumServers = 1 → ∀ r, p.data = .request r → creation r = none)
    (h : boxZero cfg s p = .ok (t, out)) :
    Updates s t ∧
      ((∃ r k, p.data = .request r ∧ routedBy r = some k ∧ ownerOf k.2 ≠ cfg.myMachineID ∧
          out = [⟨cfg.myMachineID, 1, p.fromMachine, p.fromMailbox, p.data⟩]) ∨
        (∀ q ∈ out, SendsNoRouted cfg q) ∧
          ∀ r k, p.data = .request r → routedBy r = some k → ownerOf k.2 = cfg.myMachineID) := by
  cases ho : BoxZero.handle cfg s p with
  | error f => simp [boxZero, ho, Except.map] at h
  | ok o =>
    have hflush : BoxZero.flush cfg o = (t, out) := by
      simpa only [boxZero, ho, Except.map, Except.ok.injEq] using h
    have hquiet : Updates s o.server → (∀ q ∈ o.sent, SendsNoRouted cfg q) →
        Updates s t ∧ ∀ q ∈ out, SendsNoRouted cfg q := by
      intro hk hs
      unfold BoxZero.flush at hflush
      split_ifs at hflush
      · obtain ⟨rfl, rfl⟩ := Prod.mk.inj hflush
        refine ⟨hk.trans (.of (.noted _ [] o.server.cvLockTrackerList)), fun q hq => ?_⟩
        rcases List.mem_append.mp hq with hq | hq
        · exact hs q hq
        · obtain ⟨x, -, rfl⟩ := List.mem_map.mp hq
          exact ⟨rfl, fun r hr => by cases hr⟩
      · obtain ⟨rfl, rfl⟩ := Prod.mk.inj hflush
        exact ⟨hk, hs⟩
    have hother : Updates s o.server → (∀ q ∈ o.sent, SendsNoRouted cfg q) →
        (∀ r, p.data = .request r → routedBy r = none) → Updates s t ∧
        ((∃ r k, p.data = .request r ∧ routedBy r = some k ∧ ownerOf k.2 ≠ cfg.myMachineID ∧
            out = [⟨cfg.myMachineID, 1, p.fromMachine, p.fromMailbox, p.data⟩]) ∨
          (∀ q ∈ out, SendsNoRouted cfg q) ∧
            ∀ r k, p.data = .request r → routedBy r = some k → ownerOf k.2 = cfg.myMachineID) := by
      intro hk hs hr
      obtain ⟨h1, h2⟩ := hquiet hk hs
      exact ⟨h1, Or.inr ⟨h2, fun r k hp hk => by simp [hr r hp] at hk⟩⟩
    have hpass : ∀ r, p.data = .request r → routedBy r = none →
        ∀ q ∈ (BoxZero.toBoxOne cfg s p).sent, SendsNoRouted cfg q := by
      intro r hp hr q hq
      obtain rfl := List.mem_singleton.mp hq
      refine ⟨by simp [sendMessageWithData, hp, Message.isQuery], fun r' hr' => Or.inl ?_⟩
      obtain rfl := Message.request.inj (hp.symm.trans hr')
      exact hr
    have hseveral : ∀ {r : Request} (k : StructureType × Name), p.data = .request r →
        creation r = some k → cfg.totalNumServers ≠ 1 := by
      intro r k hp hk hone
      simp [hN hone r hp] at hk
    cases hd : p.data with
    | request r =>
      simp only [BoxZero.handle, hd] at ho
      rw [hd] at hother
      cases hr : routedBy r with
      | some k =>
        rcases request_routed hr ho with ⟨hown, rfl⟩ | ⟨hown, hs, hk⟩
        · obtain ⟨rfl, rfl⟩ := Prod.mk.inj hflush
          exact ⟨.refl s, Or.inl ⟨r, k, rfl, hr, hown, by rw [← hd]; rfl⟩⟩
        · obtain ⟨h1, h2⟩ := hquiet hk (by simp [hs])
          refine ⟨h1, Or.inr ⟨h2, fun r' k' hp' hk' => ?_⟩⟩
          obtain rfl := Message.request.inj hp'
          obtain rfl := Option.some.inj (hr.symm.trans hk')
          exact hown
      | none =>
        have hnone : ∀ r', Message.request r = .request r' → routedBy r' = none := by
          intro r' hr'
          obtain rfl := Message.request.inj hr'
          exact hr
        cases r with
        | createLock name =>
          have ho := Except.ok.inj ho
          simp only [BoxZero.createLock, hseveral _ hd rfl, if_false] at ho
          split at ho
          · subst ho
            exact hother (.pushResponse s _) (by simp [BoxZero.answer]) hnone
          · subst ho
            exact hother (.refl s) (hpass _ hd hr) hnone
        | createCV name =>
          have ho := Except.ok.inj ho
          simp only [BoxZero.createCV, hseveral _ hd rfl, if_false] at ho
          split at ho
          · subst ho
            exact hother (.pushResponse s _) (by simp [BoxZero.answer]) hnone
          · subst ho
            exact hother (.refl s) (hpass _ hd hr) hnone
        | createMV n x name =>
          simp only [BoxZero.request, BoxZero.createMV, hseveral _ hd rfl, if_false] at ho
          split at ho
          · rw [← Except.ok.inj ho] at hother
            exact hother (.pushResponse s _) (by simp [BoxZero.answer]) hnone
          · rw [← Except.ok.inj ho] at hother
            exact hother (.refl s) (hpass _ hd hr) hnone
        | cvOperation op cv l =>
          obtain ⟨hk, hs⟩ := cvOperation_updates hd ho
          exact hother hk hs hnone
        | _ => cases hr
    | cvLockTrackerResponse clientMID clientMBX l held =>
      simp only [BoxZero.handle, hd] at ho
      obtain ⟨hk, hs⟩ := cvLockTrackerResponse_updates ho
      rw [hd] at hother
      exact hother hk hs (fun r hr => by cases hr)
    | doesClientHaveLock clientMID clientMBX l =>
      simp only [BoxZero.handle, hd] at ho
      have ho := Except.ok.inj ho
      rw [hd] at hother
      unfold BoxZero.doesClientHaveLock at ho
      split at ho
      · subst ho
        exact hother (.refl s) (by simp) (fun r hr => by cases hr)
      · subst ho
        refine hother (.refl s) (fun q hq => ?_) (fun r hr => by cases hr)
        obtain rfl := List.mem_singleton.mp hq
        exact ⟨rfl, fun r hr => by cases hr⟩
    | _ =>
      simp only [BoxZero.handle, hd] at ho
      have ho := Except.ok.inj ho
      subst ho
      rw [hd] at hother
      exact hother (.refl s) (by simp) (fun r hr => by cases hr)

end Nachos.Network
