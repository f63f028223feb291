import Nachos.ServerConditionEffects

/-! Whether a condition variable keeps locks apart. A run is watched together with the
lock number that the WAIT of each waiter named. -/
namespace Nachos.Network
open SlotTables Executions

/-- A server, and the lock numbers named by the WAITs of the waiters of one condition,
in the order of its queue. -/
structure Watched where
  server : Server
  named : List ℤ

/-- One message of mailbox 0. The second component gives the lock numbers of the waiters
that it woke. -/
def watch (cfg : Config) (v : ℤ) (g : Watched) (p : Packet) : Except Fault (Watched × List ℤ) :=
  (boxZero cfg g.server p).map fun r =>
    let before := (conditionQueue g.server v).length
    let after := (conditionQueue r.1 v).length
    if before < after then (⟨r.1, g.named ++ (namedLock p).toList⟩, [])
    else (⟨r.1, g.named.drop (before - after)⟩, g.named.take (before - after))

abbrev WatchStep := Transition Watched (Packet × List ℤ)

/-- Whoever is woken waited with the lock that the message names. -/
def WakesOwnWaiters (x : WatchStep) : Prop := ∀ l ∈ x.event.2, namedLock x.event.1 = some l

def NamesOnly (locks : Set ℤ) (p : Packet) : Prop := ∀ l, namedLock p = some l → l ∈ locks

/-- The start of a run: the condition has been created, and no query is outstanding. -/
def FreshCondition (s : Server) (v : ℤ) : Prop :=
  (∃ name, s.condition? v = some ⟨ServerCondition.new name, false⟩) ∧ s.cvLockTrackerList = []

/-- The waiters of the condition and the lock numbers that the run has seen for them. -/
structure WatchInvariant (cfg : Config) (locks : Set ℤ) (v : ℤ) (g : Watched) : Prop where
  foreign : TrackersForeign cfg g.server
  length : g.named.length = (conditionQueue g.server v).length
  bound : ∀ l ∈ g.named, l ∈ locks ∧ boundLock g.server v = storedLock cfg l

section Runs
variable {cfg : Config} {locks : Set ℤ} {v : ℤ} {g : Watched} {x : WatchStep}

theorem storedLock_nonneg {l : ℤ} (hl : 0 ≤ l) :
    0 ≤ storedLock cfg l := by
  unfold storedLock
  split_ifs with hm
  · have := (decodeMachine_eq_iff hl).mp hm
    simp only [decodeIndex, maxServerLocks]
    push_cast
    omega
  · exact hl

/-- The stored forms of two lock numbers agree only for a local lock and the number that
looks like its index. -/
theorem storedLock_injOn (hpos : ∀ l ∈ locks, 0 ≤ l)
    (hc : cfg.myMachineID = 0 ∨
      ∀ i, 0 ≤ i → i < 500 → ¬ (i ∈ locks ∧ 500 * cfg.myMachineID + i ∈ locks))
    {l l' : ℤ} (hl : l ∈ locks) (hl' : l' ∈ locks)
    (he : storedLock cfg l = storedLock cfg l') : l = l' := by
  have hcross : ∀ a b, a ∈ locks → b ∈ locks → decodeMachineIDFromLockNumber a = cfg.myMachineID →
      decodeMachineIDFromLockNumber b ≠ cfg.myMachineID → decodeIndex cfg a = b → False := by
    intro a b ha hb hma hmb hab
    have hma' := (decodeMachine_eq_iff (hpos a ha)).mp hma
    simp only [decodeIndex, maxServerLocks] at hab
    push_cast at hab
    rcases hc with hz | hc
    · have : a = b := by rw [hz] at hab; omega
      exact hmb (this ▸ hma)
    · refine hc b (hpos b hb) (by omega) ⟨hb, ?_⟩
      have : 500 * cfg.myMachineID + b = a := by omega
      exact this ▸ ha
  unfold storedLock at he
  split_ifs at he with hm hm' hm'
  · simp only [decodeIndex] at he
    omega
  · exact (hcross l l' hl hl' hm hm' he).elim
  · exact (hcross l' l hl' hl hm' hm he.symm).elim
  · exact he

/-- One message under the condition on the lock numbers. -/
theorem watch_step (hpos : ∀ l ∈ locks, 0 ≤ l)
    (hc : cfg.myMachineID = 0 ∨
      ∀ i, 0 ≤ i → i < 500 → ¬ (i ∈ locks ∧ 500 * cfg.myMachineID + i ∈ locks))
    (hinv : WatchInvariant cfg locks v x.before) (hp : NamesOnly locks x.event.1)
    (hstep : Handles (watch cfg v) x.before x.event x.after) :
    WatchInvariant cfg locks v x.after ∧ WakesOwnWaiters x := by
  obtain ⟨g, ⟨p, woken⟩, g'⟩ := x
  dsimp only at hinv hp
  cases hbox : boxZero cfg g.server p with
  | error f => simp [Handles, watch, hbox, Except.map] at hstep
  | ok r =>
    obtain ⟨t, out⟩ := r
    obtain ⟨hf, heff⟩ := boxZero_effect hinv.foreign hbox v
    simp only [Handles, watch, hbox, Except.map, Except.ok.injEq] at hstep
    have hsame : QueueSame g.server t v →
        WatchInvariant cfg locks v g' ∧ WakesOwnWaiters ⟨g, (p, woken), g'⟩ := by
      intro hs
      rw [if_neg (by rw [hs.1]; omega), hs.1, Nat.sub_self] at hstep
      obtain ⟨rfl, rfl⟩ := Prod.mk.inj hstep
      refine ⟨⟨hf, by simp [hs.1, hinv.length], fun l hl => ?_⟩, by simp [WakesOwnWaiters]⟩
      have hl' : l ∈ g.named := by simpa using hl
      have hne : conditionQueue g.server v ≠ [] := by
        intro hq
        have := hinv.length
        rw [hq, List.length_nil, List.length_eq_zero_iff] at this
        simp [this] at hl'
      exact ⟨(hinv.bound l hl').1, (hs.2 hne).trans (hinv.bound l hl').2⟩
    cases hn : namedLock p with
    | none =>
      simp only [hn] at heff
      exact hsame heff
    | some code =>
      simp only [hn] at heff
      have hcode : code ∈ locks := hp code hn
      cases heff with
      | same hq hb => exact hsame ⟨hq, hb⟩
      | queued c hq hb ha =>
        have hlen : (conditionQueue t v).length = (conditionQueue g.server v).length + 1 := by
          simp [hq]
        rw [if_pos (by omega), hn] at hstep
        obtain ⟨rfl, rfl⟩ := Prod.mk.inj hstep
        refine ⟨⟨hf, by simp [hlen, hinv.length], fun l hl => ?_⟩, by simp [WakesOwnWaiters]⟩
        rcases List.mem_append.mp hl with hl | hl
        · have hbl := hinv.bound l hl
          refine ⟨hbl.1, hb.trans ?_⟩
          rcases ha with ha | ha
          · have := @storedLock_nonneg cfg l (hpos l hbl.1)
            omega
          · exact ha.symm.trans hbl.2
        · obtain rfl : l = code := by simpa using hl
          exact ⟨hcode, hb⟩
      | woken n hq hb hb' =>
        have hlen : (conditionQueue t v).length = (conditionQueue g.server v).length - n := by
          simp [hq]
        rw [if_neg (by omega)] at hstep
        obtain ⟨rfl, rfl⟩ := Prod.mk.inj hstep
        refine ⟨⟨hf, ?_, fun l hl => ?_⟩, fun l hl => ?_⟩
        · simp only [List.length_drop, hinv.length]
          omega
        · have hl' := List.mem_of_mem_drop hl
          have hne : conditionQueue t v ≠ [] := by
            intro hnil
            have hzero : (conditionQueue t v).length = 0 := by simp [hnil]
            have := List.length_pos_of_mem hl
            simp only [List.length_drop, hinv.length] at this
            omega
          have hbl := hinv.bound l hl'
          exact ⟨hbl.1, (hb' hne).trans (hb.symm.trans hbl.2)⟩
        · have hbl := hinv.bound l (List.mem_of_mem_take hl)
          have := storedLock_injOn hpos hc hcode hbl.1 (hb.symm.trans hbl.2)
          exact this ▸ hn

theorem watchInvariant_start {s : Server} (h : FreshCondition s v) :
    WatchInvariant cfg locks v ⟨s, []⟩ := by
  obtain ⟨⟨name, hv⟩, ht⟩ := h
  exact ⟨by simp [TrackersForeign, ht], by simp [conditionQueue, hv, ServerCondition.new],
    by simp⟩

end Runs

/-! A run that confuses lock `i` of machine 0 with lock `i` of machine `m`. -/

section Confusion
variable {cfg : Config} {i : ℤ}

/-- All locks of the server exist, and one condition. -/
def crowdedServer : Server :=
  { Server.initial with
    locks := (List.range maxServerLocks).map fun j =>
      some ⟨ServerLock.new (List.replicate j 97), false, 0⟩
    conditions := (List.replicate maxServerCVs none).set 0 (some ⟨ServerCondition.new [98], false⟩) }

theorem crowdedServer_lock? (h0 : 0 ≤ i) (hi : i < 500) :
    crowdedServer.lock? i = some ⟨ServerLock.new (List.replicate i.toNat 97), false, 0⟩ := by
  refine live?_eq_some.mpr ⟨h0, ?_⟩
  simp only [crowdedServer, List.getElem?_map, List.getElem?_range
    (show i.toNat < maxServerLocks by simp only [maxServerLocks]; omega), Option.map_some]

theorem crowdedServer_condition? :
    crowdedServer.condition? 0 = some ⟨ServerCondition.new [98], false⟩ :=
  live?_eq_some.mpr ⟨le_rfl, rfl⟩

/-- WAIT with lock `i` of machine 0 on condition 0 of machine `m`. -/
def confusedWait (cfg : Config) (i : ℤ) : Packet :=
  ⟨cfg.myMachineID, 0, cfg.totalNumServers, 0, .request (.cvOperation .wait (500 * cfg.myMachineID) i)⟩

/-- The answer of machine 0. -/
def confusedAnswer (cfg : Config) (i : ℤ) : Packet :=
  ⟨cfg.myMachineID, 0, 0, 0, .cvLockTrackerResponse cfg.totalNumServers 0 i true⟩

/-- SIGNAL with lock `i` of machine `m`. -/
def confusedSignal (cfg : Config) (i : ℤ) : Packet :=
  ⟨cfg.myMachineID, 0, cfg.totalNumServers, 1,
    .request (.cvOperation .signal (500 * cfg.myMachineID) (500 * cfg.myMachineID + i))⟩

/-- After the WAIT: the query is remembered. -/
def confusedTracker (cfg : Config) (i : ℤ) : CVLockTracker :=
  ⟨cfg.totalNumServers, 0, 500 * cfg.myMachineID, i, .wait⟩

/-- After the answer: the client waits, and the condition remembers the number `i`. -/
def confusedEntry (cfg : Config) (i : ℤ) : ServerConditionEntry :=
  ⟨⟨[98], [⟨cfg.totalNumServers, 0⟩], i⟩, false⟩

theorem boxZero_confusedWait (hm : cfg.myMachineID ≠ 0) (h0 : 0 ≤ i) (hi : i < 500) :
    boxZero cfg crowdedServer (confusedWait cfg i) = .ok
      ({ crowdedServer with cvLockTrackerList := [confusedTracker cfg i] },
        [⟨0, 0, cfg.myMachineID, 0, .doesClientHaveLock cfg.totalNumServers 0 i⟩]) := by
  have hd : decodeMachineIDFromLockNumber i = 0 := (decodeMachine_eq_iff h0).mpr (by omega)
  have hop := @BoxZero.cvOperation_foreign cfg crowdedServer (confusedWait cfg i) .wait
    (500 * cfg.myMachineID) i (by omega) (by omega) (hd ▸ Ne.symm hm)
  simp only [boxZero, BoxZero.handle, BoxZero.request, confusedWait] at hop ⊢
  rw [hop]
  simp only [BoxZero.queryLockOwner, hd]
  rfl

theorem decode_confusedCV (hm : 0 ≤ cfg.myMachineID) :
    decodeMachineIDFromCVNumber (500 * cfg.myMachineID) = cfg.myMachineID ∧
      decodeIndex cfg (500 * cfg.myMachineID) = 0 := by
  refine ⟨(decodeMachine_eq_iff (by omega)).mpr (by omega), ?_⟩
  simp only [decodeIndex, maxServerLocks]
  push_cast
  omega

theorem boxZero_confusedAnswer (hm : 0 ≤ cfg.myMachineID) :
    ∃ out, boxZero cfg { crowdedServer with cvLockTrackerList := [confusedTracker cfg i] }
      (confusedAnswer cfg i) = .ok (crowdedServer.setCondition 0 (confusedEntry cfg i), out) := by
  obtain ⟨hcv, hidx⟩ := @decode_confusedCV cfg hm
  have hlive : live? crowdedServer.conditions 0 = some ⟨ServerCondition.new [98], false⟩ :=
    crowdedServer_condition?
  have hlen : crowdedServer.conditions.length = maxServerCVs := by
    simp only [crowdedServer, List.length_set, List.length_replicate]
  have hne : ¬ maxServerCVs = 0 := by simp only [maxServerCVs]; omega
  refine ⟨[⟨decodeMachineIDFromLockNumber i, 0, cfg.myMachineID, 0, .request (.release i)⟩], ?_⟩
  simp [boxZero, BoxZero.handle, confusedAnswer, BoxZero.cvLockTrackerResponse, confusedTracker,
    BoxZero.trackedOperation, hcv, hidx, serverWait, hlen, hne, Server.condition?, hlive,
    ServerCondition.new, ServerCondition.wait, ServerCondition.hasWaiting, confusedEntry,
    bind, Except.bind, Except.map, BoxZero.flush, sendMessageWithData, Server.setCondition]
  rfl

theorem boxZero_confusedSignal (hm : 0 ≤ cfg.myMachineID)
    (hn : cfg.myMachineID ≤ cfg.totalNumServers) (h0 : 0 ≤ i) (hi : i < 500) :
    ∃ r, boxZero cfg (crowdedServer.setCondition 0 (confusedEntry cfg i))
        (confusedSignal cfg i) = .ok r ∧ conditionQueue r.1 0 = [] := by
  obtain ⟨hcv, hidx⟩ := @decode_confusedCV cfg hm
  have hlock : decodeMachineIDFromLockNumber (500 * cfg.myMachineID + i) = cfg.myMachineID :=
    (decodeMachine_eq_iff (by omega)).mpr (by omega)
  have hli : decodeIndex cfg (500 * cfg.myMachineID + i) = i := by
    simp only [decodeIndex, maxServerLocks]
    push_cast
    omega
  have hcond : (crowdedServer.setCondition 0 (confusedEntry cfg i)).condition? 0 =
      some (confusedEntry cfg i) := by
    rw [Server.condition?_setCondition crowdedServer_condition?, if_pos rfl]
  have hlive := (Server.lock?_setCondition crowdedServer 0 (confusedEntry cfg i) i).trans
    (crowdedServer_lock? h0 hi)
  generalize crowdedServer.setCondition 0 (confusedEntry cfg i) = s at hcond hlive ⊢
  have hop := @BoxZero.cvOperation_own cfg s (confusedSignal cfg i) .signal
    (500 * cfg.myMachineID) (500 * cfg.myMachineID + i) hm hn hlock
  simp only [hli, hlive, hcv, hidx, if_true] at hop
  have hsig : serverSignal s cfg.totalNumServers 1 0 i =
      (s.setCondition 0 ⟨⟨[98], [], -1⟩, false⟩, some (⟨cfg.totalNumServers, 0⟩, true)) := by
    simp [serverSignal, hcond, confusedEntry, ServerCondition.signal, show ¬ i < 0 by omega]
  have hbox : boxZero cfg s (confusedSignal cfg i) =
      (BoxZero.cvOperation cfg s (confusedSignal cfg i) .signal (500 * cfg.myMachineID)
        (500 * cfg.myMachineID + i)).map (BoxZero.flush cfg) := rfl
  rw [hbox, hop]
  refine ⟨_, rfl, ?_⟩
  have hafter := Server.condition?_setCondition hcond ⟨⟨[98], [], -1⟩, false⟩ 0
  rw [if_pos rfl] at hafter
  simp only [confusedSignal, hsig]
  exact congrArg (fun c => (Option.map (fun e : ServerConditionEntry => e.condition.queue) c).getD [])
    hafter

theorem conditionQueue_of_live {s : Server} {v : ℤ} {e : ServerConditionEntry}
    (h : s.condition? v = some e) : conditionQueue s v = e.condition.queue := by
  simp [conditionQueue, h]

/-- The run in full: the SIGNAL wakes a client that waited with another lock. -/
theorem exists_confusedRun (hm : 0 < cfg.myMachineID)
    (hn : cfg.myMachineID ≤ cfg.totalNumServers) (h0 : 0 ≤ i) (hi : i < 500) :
    ∃ tr g, Execution (Handles (watch cfg 0)) ⟨crowdedServer, []⟩ tr g ∧
      tr.map (fun x => x.event.1) =
        [confusedWait cfg i, confusedAnswer cfg i, confusedSignal cfg i] ∧
      ∃ x ∈ tr, ¬ WakesOwnWaiters x := by
  have h1 := @boxZero_confusedWait cfg i (by omega) h0 hi
  obtain ⟨out, h2⟩ := @boxZero_confusedAnswer cfg i (by omega)
  obtain ⟨r, h3, hr⟩ := @boxZero_confusedSignal cfg i (by omega) hn h0 hi
  have hq0 := conditionQueue_of_live crowdedServer_condition?
  have hcond : (crowdedServer.setCondition 0 (confusedEntry cfg i)).condition? 0 =
      some (confusedEntry cfg i) := by
    rw [Server.condition?_setCondition crowdedServer_condition?, if_pos rfl]
  have hq2 := conditionQueue_of_live hcond
  generalize crowdedServer.setCondition 0 (confusedEntry cfg i) = s₂ at h2 h3 hq2
  have hs₁ : ∀ s : Server, conditionQueue { s with cvLockTrackerList := [confusedTracker cfg i] } 0 =
      conditionQueue s 0 := fun _ => rfl
  have hq1 := (hs₁ crowdedServer).trans hq0
  generalize { crowdedServer with cvLockTrackerList := [confusedTracker cfg i] } = s₁ at h1 h2 hq1
  have w1 : watch cfg 0 ⟨crowdedServer, []⟩ (confusedWait cfg i) = .ok (⟨s₁, []⟩, []) := by
    simp [watch, h1, Except.map, hq0, hq1, ServerCondition.new]
  have hname : namedLock (confusedAnswer cfg i) = some i := rfl
  have w2 : watch cfg 0 ⟨s₁, []⟩ (confusedAnswer cfg i) = .ok (⟨s₂, [i]⟩, []) := by
    simp [watch, h2, Except.map, hq1, hq2, ServerCondition.new, confusedEntry, hname]
  have w3 : watch cfg 0 ⟨s₂, [i]⟩ (confusedSignal cfg i) = .ok (⟨r.1, []⟩, [i]) := by
    simp [watch, h3, Except.map, hq2, hr, confusedEntry]
  refine ⟨_, _, ((Execution.start.extend (e := (confusedWait cfg i, [])) w1).extend
    (e := (confusedAnswer cfg i, [])) w2).extend (e := (confusedSignal cfg i, [i])) w3, rfl,
    ⟨⟨s₂, [i]⟩, (confusedSignal cfg i, [i]), ⟨r.1, []⟩⟩, by simp, fun hlaw => ?_⟩
  have hsame := hlaw i (by simp)
  simp only [namedLock, confusedSignal, Option.some.injEq] at hsame
  omega

end Confusion

/-- Over all runs at the server of a condition, nobody is woken with a lock that its WAIT
did not name, exactly when the server is machine 0 or no number `i` below 500 is used
together with the number of lock `i` of this server. -/
theorem condition_keeps_locks_apart_iff {cfg : Config} {locks : Set ℤ}
    (h0 : 0 ≤ cfg.myMachineID) (hn : cfg.myMachineID < cfg.totalNumServers)
    (hpos : ∀ l ∈ locks, 0 ≤ l) :
    (∀ v s tr g, FreshCondition s v → Execution (Handles (watch cfg v)) ⟨s, []⟩ tr g →
        (∀ x ∈ tr, NamesOnly locks x.event.1) → ∀ x ∈ tr, WakesOwnWaiters x) ↔
      (cfg.myMachineID = 0 ∨
        ∀ i, 0 ≤ i → i < 500 → ¬ (i ∈ locks ∧ 500 * cfg.myMachineID + i ∈ locks)) := by
  constructor
  · intro h
    by_contra hc
    simp only [not_or, not_forall, not_not] at hc
    obtain ⟨hm, i, hi0, hi, hil, hml⟩ := hc
    have hfresh : FreshCondition crowdedServer 0 := ⟨⟨[98], crowdedServer_condition?⟩, rfl⟩
    obtain ⟨tr, g, hrun, hmap, x, hx, hbad⟩ :=
      exists_confusedRun (show 0 < cfg.myMachineID by omega) hn.le hi0 hi
    refine hbad (h 0 _ tr g hfresh hrun (forall_inputs hmap ?_) x hx)
    intro p hp l hl
    simp only [List.mem_cons, List.not_mem_nil, or_false] at hp
    rcases hp with rfl | rfl | rfl
    · obtain rfl : i = l := by simpa [namedLock, confusedWait] using hl
      exact hil
    · obtain rfl : i = l := by simpa [namedLock, confusedAnswer] using hl
      exact hil
    · obtain rfl : 500 * cfg.myMachineID + i = l := by simpa [namedLock, confusedSignal] using hl
      exact hml
  · intro hc v s tr g hfresh hrun hp
    have hrun' := hrun.restrict (Q := fun e => NamesOnly locks e.1) hp
    intro x hx
    obtain ⟨hinv, hstep, hx'⟩ := hrun'.mem (watchInvariant_start hfresh)
      (fun s e t hs hst => (watch_step (x := ⟨s, e, t⟩) hpos hc hs hst.2 hst.1).1) hx
    exact (watch_step hpos hc hinv hx' hstep).2

/-- The server with one lock and one condition. -/
def pairServer : Server := (serverCreateCV (serverCreateLock .initial [97]).1 [98]).1

theorem pairServer_fresh : FreshCondition pairServer 0 := ⟨⟨[98], by decide +kernel⟩, rfl⟩

/-- At machine 1 clients wait with a lock of this machine, and then with one of machine 0, and are
woken with the lock they named. -/
theorem condition_keeps_locks_apart_machineOne : ∃ tr g,
    Execution (Handles (watch ⟨1, 2, false⟩ 0)) ⟨pairServer, []⟩ tr g ∧
      (∀ x ∈ tr, NamesOnly {500, 2} x.event.1) ∧ tr.flatMap (fun x => x.event.2) = [500, 2] ∧
      ∀ x ∈ tr, WakesOwnWaiters x := by
  obtain ⟨tr, g, hrun, hmap, htest⟩ := exists_of_trace (watch ⟨1, 2, false⟩ 0) ⟨pairServer, []⟩
    [⟨1, 0, 2, 0, .request (.cvOperation .wait 500 500)⟩,
      ⟨1, 0, 2, 1, .request (.cvOperation .signal 500 500)⟩,
      ⟨1, 0, 2, 0, .request (.cvOperation .wait 500 2)⟩,
      ⟨1, 0, 0, 0, .cvLockTrackerResponse 2 0 2 true⟩,
      ⟨1, 0, 2, 1, .request (.cvOperation .signal 500 2)⟩,
      ⟨1, 0, 0, 0, .cvLockTrackerResponse 2 1 2 true⟩]
    (fun r => r.1.flatMap (fun x => x.event.2) = [500, 2]) (by decide +kernel)
  have hnames : ∀ x ∈ tr, NamesOnly {500, 2} x.event.1 := by
    refine forall_inputs hmap fun p hp l hl => ?_
    simp only [List.mem_cons, List.not_mem_nil, or_false] at hp
    rcases hp with rfl | rfl | rfl | rfl | rfl | rfl <;>
      simp only [namedLock, Option.some.injEq] at hl <;> simp [← hl]
  have hapart : ∀ i : ℤ, 0 ≤ i → i < 500 →
      ¬ (i ∈ ({500, 2} : Set ℤ) ∧ 500 * 1 + i ∈ ({500, 2} : Set ℤ)) := by
    rintro i h0 hi ⟨hlocal, hforeign⟩
    simp only [Set.mem_insert_iff, Set.mem_singleton_iff] at hlocal hforeign
    omega
  refine ⟨tr, g, hrun, hnames, of_decide_eq_true htest,
    (@condition_keeps_locks_apart_iff ⟨1, 2, false⟩ {500, 2} (by decide) (by decide) ?_).mpr
      (Or.inr hapart) 0 _ tr g pairServer_fresh hrun hnames⟩
  rintro l (rfl | rfl) <;> decide

/-- At machine 1 a SIGNAL with lock 500 wakes a client that waited with lock 0. -/
theorem signal_wakes_waiter_of_other_lock : ∃ s tr g, FreshCondition s 0 ∧
    Execution (Handles (watch ⟨1, 2, false⟩ 0)) ⟨s, []⟩ tr g ∧ ¬ ∀ x ∈ tr, WakesOwnWaiters x := by
  obtain ⟨tr, g, hrun, -, htest⟩ := exists_of_trace (watch ⟨1, 2, false⟩ 0) ⟨pairServer, []⟩
    [⟨1, 0, 2, 0, .request (.cvOperation .wait 500 0)⟩,
      ⟨1, 0, 0, 0, .cvLockTrackerResponse 2 0 0 true⟩,
      ⟨1, 0, 2, 1, .request (.cvOperation .signal 500 500)⟩]
    (fun r => r.1.any fun x => x.event.2.any fun l => namedLock x.event.1 ≠ some l)
    (by decide +kernel)
  refine ⟨pairServer, tr, g, pairServer_fresh, hrun, fun hlaw => ?_⟩
  simp only [List.any_eq_true, decide_eq_true_eq] at htest
  obtain ⟨x, hx, l, hl, hne⟩ := htest
  exact hne (hlaw x hx l hl)

end Nachos.Network
