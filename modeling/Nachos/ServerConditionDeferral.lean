import Nachos.ServerConditionRuns
import Nachos.ServerNetwork

/-! Deletion of a condition variable with waiters: DESTROY_CV marks it, and it is to go with
its last waiter. -/
namespace Nachos.Network
open SlotTables BoxOne Executions

variable {S : Setting} {cfg : Config} {s t : Server} {p : Packet} {i l : ℤ}
  {e : ServerConditionEntry} {e' : Option ServerConditionEntry} {op : CVOperation}

/-- No condition is marked and without waiters. -/
def NoIdleMarked (s : Server) : Prop :=
  ∀ i e, s.condition? i = some e → e.isToBeDeleted = true → e.condition.queue ≠ []

/-- A marked condition stays marked with waiters or is removed. -/
structure DefersDeletion (s t : Server) : Prop where
  noIdle : NoIdleMarked t
  removed : ∀ i e, s.condition? i = some e → e.isToBeDeleted = true →
    ∀ e', t.condition? i = some e' → e'.isToBeDeleted = true ∧ e'.condition.queue ≠ []

/-- The remembered request that the answer of a lock's server belongs to. -/
def trackedRequest (s : Server) (clientMID clientMBX lockNum : ℤ) : Option CVLockTracker :=
  (s.cvLockTrackerList.findIdx? fun t =>
    t.clientMachineID = clientMID && t.clientMailbox = clientMBX && t.lockNum = lockNum).bind
    fun i => s.cvLockTrackerList[i]?

/-- The operation that a message of mailbox 0 makes the server carry out, with the index of
the condition and the lock. -/
def operationAt (cfg : Config) (s : Server) (p : Packet) : Option (CVOperation × ℤ × ℤ) :=
  match p.data with
  | .request (.cvOperation operation cvNum lockNum) =>
    if decodeMachineIDFromLockNumber lockNum = cfg.myMachineID ∧
        (s.lock? (decodeIndex cfg lockNum)).isSome ∧
        decodeMachineIDFromCVNumber cvNum = cfg.myMachineID then
      some (operation, decodeIndex cfg cvNum, decodeIndex cfg lockNum)
    else none
  | .cvLockTrackerResponse clientMID clientMBX lockNum true =>
    (trackedRequest s clientMID clientMBX lockNum).bind fun t =>
      if decodeMachineIDFromCVNumber t.cvNum = cfg.myMachineID then
        some (t.messageType, decodeIndex cfg t.cvNum, lockNum)
      else none
  | _ => none

/-- The operation takes the last waiter from a marked condition. -/
def Drains (l : ℤ) (e : ServerConditionEntry) (op : CVOperation) : Prop :=
  e.isToBeDeleted = true ∧ e.condition.Wakes l ∧
    (op = .signal ∧ 0 ≤ l ∧ e.condition.queue.length = 1 ∨ op = .broadcast)

/-- The message drains no marked condition of its server. -/
def DrainsNone (cfg : Config) (s : Server) (p : Packet) : Prop :=
  ∀ op i l, p.toMailbox = 0 → operationAt cfg s p = some (op, i, l) →
    ∀ e, s.condition? i = some e → ¬ Drains l e op

/-! One entry. -/

/-- What an operation makes of the entry that it finds. -/
inductive Operated (l : ℤ) (e : ServerConditionEntry) :
    CVOperation → Option ServerConditionEntry → Prop
  | refused (hl : l < 0) : Operated l e .signal (some e)
  | signalled (cr : ClientRequest) (hl : 0 ≤ l) :
      Operated l e .signal (some { e with condition := (e.condition.signal l cr).1 })
  | waited (cr : ClientRequest)
      (hk : ¬ (e.isToBeDeleted = true ∧ (e.condition.wait l cr).1.hasWaiting = false)) :
      Operated l e .wait (some { e with condition := (e.condition.wait l cr).1 })
  | removed : Operated l e .wait none
  | emptied {c : ServerCondition} (hb : e.condition.queue = [] ∨ e.condition.waitingLock = l)
      (hc : c.queue = []) : Operated l e .broadcast (some { e with condition := c })

theorem hasWaiting_eq_false {c : ServerCondition} : c.hasWaiting = false ↔ c.queue = [] := by
  simp [ServerCondition.hasWaiting]

/-- The marked entry stays marked with waiters exactly when the operation does not drain it. -/
theorem Operated.kept_iff (h : Operated l e op e') (hm : e.isToBeDeleted = true)
    (hq : e.condition.queue ≠ []) :
    (∀ a, e' = some a → a.isToBeDeleted = true ∧ a.condition.queue ≠ []) ↔ ¬ Drains l e op := by
  obtain ⟨next, rest, hcons⟩ := List.exists_cons_of_ne_nil hq
  cases h with
  | refused hl =>
    have hn : ¬ Drains l e .signal := by
      rintro ⟨-, -, ⟨-, h0, -⟩ | h⟩
      · omega
      · cases h
    simp [hn, hm, hq]
  | signalled cr hl =>
    by_cases hw : e.condition.Wakes l
    · have hsig := ServerCondition.signal_of_cons hcons hw.2 cr
      simp [Drains, hm, hw, hl, hsig, hcons]
    · have hsig := ServerCondition.signal_of_not_wakes hw cr
      simp [Drains, hm, hw, hsig, hq]
  | waited cr hk =>
    have hne : (e.condition.wait l cr).1.queue ≠ [] := fun h =>
      hk ⟨hm, hasWaiting_eq_false.mpr h⟩
    simp [Drains, hm, hne]
  | removed => simp [Drains]
  | emptied hb hc =>
    have hw : e.condition.Wakes l := ⟨hq, hb.resolve_left hq⟩
    simp [Drains, hm, hw, hc]

theorem Operated.marks (h : Operated l e op e') {a : ServerConditionEntry} (ha : e' = some a) :
    a.isToBeDeleted = e.isToBeDeleted := by
  cases h <;> cases ha <;> rfl

/-! One message. -/

/-- The conditions after a message, when it carries out this operation. -/
inductive ConditionsMove (s : Server) : Option (CVOperation × ℤ × ℤ) → Server → Prop
  | same {t : Server} {o : Option (CVOperation × ℤ × ℤ)}
      (ho : ∀ op i l, o = some (op, i, l) → s.condition? i = none)
      (ht : ∀ j, t.condition? j = s.condition? j) : ConditionsMove s o t
  | created {name : Name} {t : Server}
      (ht : ∀ j, t.condition? j = (serverCreateCV s name).1.condition? j) :
      ConditionsMove s none t
  | destroyed {i : ℤ} {t : Server} (ht : ∀ j, t.condition? j = (serverDestroyCV s i).condition? j) :
      ConditionsMove s none t
  | operated {op : CVOperation} {i l : ℤ} {e : ServerConditionEntry}
      {e' : Option ServerConditionEntry} {t : Server} (he : s.condition? i = some e)
      (hop : Operated l e op e') (ht : ∀ j, t.condition? j = if j = i then e' else s.condition? j) :
      ConditionsMove s (some (op, i, l)) t

namespace ConditionsMove

variable {o : Option (CVOperation × ℤ × ℤ)} {u : Server}

theorem refl (ht : ∀ j, t.condition? j = s.condition? j) : ConditionsMove s none t :=
  .same (by simp) ht

/-- The conditions after the move are all that matters. -/
theorem congr (h : ConditionsMove s o t) (hu : ∀ j, u.condition? j = t.condition? j) :
    ConditionsMove s o u := by
  cases h with
  | same ho ht => exact .same ho fun j => (hu j).trans (ht j)
  | created ht => exact .created fun j => (hu j).trans (ht j)
  | destroyed ht => exact .destroyed fun j => (hu j).trans (ht j)
  | operated he hop ht => exact .operated he hop fun j => (hu j).trans (ht j)

/-- The conditions before the move are all that matters to an operation. -/
theorem congr_left {i l : ℤ} (h : ConditionsMove u (some (op, i, l)) t)
    (hu : ∀ j, u.condition? j = s.condition? j) : ConditionsMove s (some (op, i, l)) t := by
  cases h with
  | same ho ht => exact .same (fun op i l h => hu i ▸ ho op i l h) fun j => (ht j).trans (hu j)
  | operated he hop ht => exact .operated (hu i ▸ he) hop fun j => by rw [ht, hu]

end ConditionsMove

/-- The case in which the entry stays. -/
theorem conditionsMove_set (he : s.condition? i = some e) {a : ServerConditionEntry}
    (hop : Operated l e op (some a)) : ConditionsMove s (some (op, i, l)) (s.setCondition i a) :=
  .operated he hop (Server.condition?_setCondition he a)

theorem serverSignal_conditionsMove (s : Server) (m b i l : ℤ) :
    ConditionsMove s (some (.signal, i, l)) (serverSignal s m b i l).1 := by
  unfold serverSignal
  cases he : s.condition? i with
  | none => exact .same (by simpa using he) fun j => rfl
  | some e =>
    dsimp only
    split_ifs with hl
    · refine .operated he (.refused hl) fun j => ?_
      split_ifs with hj
      · rw [hj, he]
      · rfl
    · exact conditionsMove_set he (.signalled _ (not_lt.mp hl))

theorem serverWait_conditionsMove {m b : ℤ} (h : serverWait s m b i l = .ok t) :
    ConditionsMove s (some (.wait, i, l)) t := by
  unfold serverWait at h
  split_ifs at h with h0 hlen
  · obtain rfl := Except.ok.inj h
    refine .same ?_ fun j => rfl
    rintro op i' l' ⟨⟩
    exact if_neg (not_le.mpr h0)
  · cases he : s.condition? i with
    | none =>
      simp only [he] at h
      obtain rfl := Except.ok.inj h
      exact .same (by simpa using he) fun j => rfl
    | some e =>
      simp only [he] at h
      split_ifs at h with hgone
      · obtain rfl := Except.ok.inj h
        exact .operated he .removed (Server.condition?_removeCondition he)
      · obtain rfl := Except.ok.inj h
        refine conditionsMove_set he (.waited _ ?_)
        simpa using hgone

theorem broadcastLoop_emptied {cr : ClientRequest} {c : ServerCondition} {n : ℕ}
    {q : ServerCondition × List ServerResponse} (hn : c.queue.length ≤ n)
    (h : broadcastLoop l cr n c = some q) :
    (c.queue = [] ∨ c.waitingLock = l) ∧ q.1.queue = [] := by
  by_cases hb : c.queue = [] ∨ c.waitingLock = l
  · rw [broadcastLoop_of_bound l cr n c hn hb] at h
    obtain rfl := Option.some.inj h
    exact ⟨hb, rfl⟩
  · rw [broadcastLoop_of_other l cr n (not_or.mp hb).1 (not_or.mp hb).2] at h
    cases h

theorem serverBroadcast_conditionsMove {m b : ℤ} (h : serverBroadcast s m b i l = .ok t) :
    ConditionsMove s (some (.broadcast, i, l)) t := by
  unfold serverBroadcast at h
  split_ifs at h with h0 hlen
  · obtain rfl := Except.ok.inj h
    refine .same ?_ fun j => rfl
    rintro op i' l' ⟨⟩
    exact if_neg (not_le.mpr h0)
  · cases he : s.condition? i with
    | none =>
      simp only [he] at h
      obtain rfl := Except.ok.inj h
      exact .same (by simpa using he) fun j => rfl
    | some e =>
      simp only [he] at h
      cases hloop : broadcastLoop l ⟨m, b⟩ e.condition.queue.length e.condition with
      | none => simp [hloop] at h
      | some q =>
        simp only [hloop] at h
        obtain rfl := Except.ok.inj h
        obtain ⟨hb, hq⟩ := broadcastLoop_emptied le_rfl hloop
        exact (conditionsMove_set he (.emptied hb hq)).congr fun j => rfl

/-! What the other operations leave alone. -/

theorem lockOperations_condition? (s : Server) (m b i j : ℤ) :
    (serverAcquire s m b i).1.condition? j = s.condition? j ∧
      (serverRelease s m b i).1.condition? j = s.condition? j ∧
      (serverDestroyLock s i).condition? j = s.condition? j := by
  refine ⟨?_, ?_, ?_⟩
  · unfold serverAcquire
    split <;> rfl
  · unfold serverRelease
    split
    · rfl
    · dsimp only
      split_ifs <;> rfl
  · unfold serverDestroyLock
    split
    · rfl
    · split_ifs <;> rfl

theorem mvOperations_condition? (s : Server) (i k v j : ℤ) :
    (serverSetMV s i k v).condition? j = s.condition? j ∧
      (serverDestroyMV s i).condition? j = s.condition? j := by
  unfold serverSetMV serverDestroyMV
  refine ⟨?_, ?_⟩ <;> split <;> try rfl
  all_goals split_ifs <;> rfl

theorem pushWoken_condition? (s : Server) (o : Option (ClientRequest × Bool)) (j : ℤ) :
    (BoxZero.pushWoken s o).condition? j = s.condition? j := by
  unfold BoxZero.pushWoken
  split <;> rfl

/-- An operation with lock and condition here. -/
theorem localOperation_conditionsMove {respond : Bool} {o : Outcome}
    (h : BoxZero.localOperation s p op i l respond = .ok o) :
    ConditionsMove s (some (op, i, l)) o.server := by
  cases op with
  | signal =>
    obtain rfl := Except.ok.inj h
    exact (serverSignal_conditionsMove s _ _ i l).congr fun j => pushWoken_condition? _ _ j
  | broadcast =>
    obtain ⟨u, hu, h⟩ := bind_eq_ok.mp h
    obtain rfl := Except.ok.inj h
    exact (serverBroadcast_conditionsMove hu).congr fun j => rfl
  | wait =>
    obtain ⟨u, hu, h⟩ := bind_eq_ok.mp h
    have hrelease : ∀ j, (serverRelease u p.fromMachine p.fromMailbox l).1.condition? j =
        u.condition? j := fun j => (lockOperations_condition? u _ _ l j).2.1
    refine (serverWait_conditionsMove hu).congr fun j => ?_
    dsimp only at h
    split at h
    · cases h
    · obtain rfl := Except.ok.inj h
      exact (pushWoken_condition? _ _ j).trans (hrelease j)
    · obtain rfl := Except.ok.inj h
      exact hrelease j

theorem cvOperation_conditionsMove {cvNum lockNum : ℤ} {o : Outcome}
    (hp : p.data = .request (.cvOperation op cvNum lockNum))
    (h : BoxZero.cvOperation cfg s p op cvNum lockNum = .ok o) :
    ConditionsMove s (operationAt cfg s p) o.server := by
  unfold BoxZero.cvOperation at h
  dsimp only at h
  simp only [operationAt, hp]
  generalize hs : (if decide (decodeMachineIDFromLockNumber lockNum < 0 ∨
    decodeMachineIDFromLockNumber lockNum > cfg.totalNumServers) = true then s.pushResponse p.response
    else s) = s' at h
  have hcond : ∀ j, s'.condition? j = s.condition? j := fun j => by
    rw [← hs]
    split_ifs <;> rfl
  have hlock : ∀ j, s'.lock? j = s.lock? j := fun j => by
    rw [← hs]
    split_ifs <;> rfl
  rw [hlock] at h
  by_cases hown : decodeMachineIDFromLockNumber lockNum = cfg.myMachineID
  · rw [if_pos hown] at h
    cases hl : s.lock? (decodeIndex cfg lockNum) with
    | none =>
      simp only [hl] at h
      rw [if_neg (by simp)]
      split_ifs at h <;> obtain rfl := Except.ok.inj h <;> exact .refl hcond
    | some e =>
      simp only [hl] at h
      by_cases hcv : decodeMachineIDFromCVNumber cvNum = cfg.myMachineID
      · rw [if_pos hcv] at h
        rw [if_pos ⟨hown, rfl, hcv⟩]
        exact (localOperation_conditionsMove h).congr_left hcond
      · rw [if_neg hcv] at h
        rw [if_neg fun hall => hcv hall.2.2]
        obtain rfl := Except.ok.inj h
        exact .refl hcond
  · rw [if_neg hown] at h
    rw [if_neg fun hall => hown hall.1]
    obtain rfl := Except.ok.inj h
    exact .refl hcond

theorem trackedOperation_conditionsMove {clientMID clientMBX lockNum cvNum : ℤ} {o : Outcome}
    (hcv : decodeMachineIDFromCVNumber cvNum = cfg.myMachineID)
    (h : BoxZero.trackedOperation cfg s p clientMID clientMBX lockNum cvNum op = .ok o) :
    ConditionsMove s (some (op, decodeIndex cfg cvNum, lockNum)) o.server := by
  unfold BoxZero.trackedOperation at h
  rw [if_pos hcv] at h
  cases op with
  | signal =>
    obtain rfl := Except.ok.inj h
    exact (serverSignal_conditionsMove s _ _ _ _).congr fun j => pushWoken_condition? _ _ j
  | wait =>
    obtain ⟨u, hu, h⟩ := bind_eq_ok.mp h
    obtain rfl := Except.ok.inj h
    exact serverWait_conditionsMove hu
  | broadcast =>
    obtain ⟨u, hu, h⟩ := bind_eq_ok.mp h
    obtain rfl := Except.ok.inj h
    exact (serverBroadcast_conditionsMove hu).congr fun j => rfl

theorem cvLockTrackerResponse_conditionsMove {clientMID clientMBX lockNum : ℤ} {held : Bool}
    {o : Outcome} (hp : p.data = .cvLockTrackerResponse clientMID clientMBX lockNum held)
    (h : BoxZero.cvLockTrackerResponse cfg s p clientMID clientMBX lockNum held = .ok o) :
    ConditionsMove s (operationAt cfg s p) o.server := by
  unfold BoxZero.cvLockTrackerResponse at h
  dsimp only at h
  unfold operationAt trackedRequest
  cases hf : s.cvLockTrackerList.findIdx? fun t => t.clientMachineID = clientMID &&
      t.clientMailbox = clientMBX && t.lockNum = lockNum with
  | none =>
    simp only [hf, Option.bind_none] at h
    split_ifs at h with hheld
    obtain rfl := Except.ok.inj h
    simp only [hp, hheld]
    exact .refl fun j => rfl
  | some i =>
    simp only [hf, Option.bind_some] at h
    cases held with
    | false =>
      obtain rfl := Except.ok.inj h
      simp only [hp]
      exact .refl fun j => rfl
    | true =>
      simp only [not_true_eq_false, if_false] at h
      cases ht : s.cvLockTrackerList[i]? with
      | none => simp [ht] at h
      | some t =>
        simp only [ht] at h
        simp only [hp, hf, ht, Option.bind_some]
        by_cases hcv : decodeMachineIDFromCVNumber t.cvNum = cfg.myMachineID
        · rw [if_pos hcv]
          exact (trackedOperation_conditionsMove hcv h).congr_left fun j => rfl
        · rw [if_neg hcv]
          unfold BoxZero.trackedOperation at h
          rw [if_neg hcv] at h
          obtain rfl := Except.ok.inj h
          exact .refl fun j => rfl

theorem request_conditionsMove {r : Request} {o : Outcome} (hp : p.data = .request r)
    (h : BoxZero.request cfg s p r = .ok o) : ConditionsMove s (operationAt cfg s p) o.server := by
  cases r with
  | cvOperation op cvNum lockNum => exact cvOperation_conditionsMove hp h
  | createCV name =>
    obtain rfl := Except.ok.inj h
    simp only [operationAt, hp]
    unfold BoxZero.createCV
    split
    · exact .refl fun j => rfl
    · split_ifs
      · exact .created fun j => rfl
      · exact .refl fun j => rfl
  | destroyCV cvNum =>
    obtain rfl := Except.ok.inj h
    simp only [operationAt, hp]
    unfold BoxZero.destroyCV
    split_ifs
    · exact .refl fun j => rfl
    · exact .destroyed fun j => rfl
  | createMV numEntries initialValue name =>
    simp only [operationAt, hp]
    simp only [BoxZero.request, BoxZero.createMV] at h
    split at h
    · obtain rfl := Except.ok.inj h
      exact .refl fun j => rfl
    · split_ifs at h
      · obtain ⟨q, hq, h⟩ := bind_eq_ok.mp h
        obtain rfl := Except.ok.inj h
        unfold serverCreateMV at hq
        dsimp only at hq
        split_ifs at hq <;> obtain rfl := Except.ok.inj hq <;> exact .refl fun j => rfl
      · obtain rfl := Except.ok.inj h
        exact .refl fun j => rfl
  | createLock name =>
    obtain rfl := Except.ok.inj h
    simp only [operationAt, hp]
    refine .refl fun j => ?_
    unfold BoxZero.createLock
    split
    · rfl
    · split_ifs <;> rfl
  | destroyLock lockNum =>
    obtain rfl := Except.ok.inj h
    simp only [operationAt, hp]
    refine .refl fun j => ?_
    unfold BoxZero.destroyLock
    split_ifs
    · rfl
    · exact (lockOperations_condition? s 0 0 _ j).2.2
  | acquire lockNum =>
    obtain rfl := Except.ok.inj h
    simp only [operationAt, hp]
    refine .refl fun j => ?_
    unfold BoxZero.acquire
    split_ifs
    · rfl
    · dsimp only
      split <;> exact (lockOperations_condition? s _ _ _ j).1
  | release lockNum =>
    obtain rfl := Except.ok.inj h
    simp only [operationAt, hp]
    refine .refl fun j => ?_
    unfold BoxZero.release
    split_ifs
    · rfl
    · dsimp only
      split <;> exact (lockOperations_condition? s _ _ _ j).2.1
  | destroyMV mvNum =>
    obtain rfl := Except.ok.inj h
    simp only [operationAt, hp]
    refine .refl fun j => ?_
    unfold BoxZero.destroyMV
    split_ifs
    · rfl
    · exact (mvOperations_condition? s _ 0 0 j).2
  | getMV mvNum entryIndex =>
    obtain rfl := Except.ok.inj h
    simp only [operationAt, hp]
    refine .refl fun j => ?_
    unfold BoxZero.getMV
    split_ifs <;> rfl
  | setMV mvNum entryIndex value =>
    obtain rfl := Except.ok.inj h
    simp only [operationAt, hp]
    refine .refl fun j => ?_
    unfold BoxZero.setMV
    split_ifs
    · rfl
    · exact (mvOperations_condition? _ _ _ _ j).1

theorem boxZero_conditionsMove {out : List Packet} (h : boxZero cfg s p = .ok (t, out)) :
    ConditionsMove s (operationAt cfg s p) t := by
  cases ho : BoxZero.handle cfg s p with
  | error f => simp [boxZero, ho, Except.map] at h
  | ok o =>
    have hflush : BoxZero.flush cfg o = (t, out) := by
      simpa only [boxZero, ho, Except.map, Except.ok.injEq] using h
    have hsame : ∀ j, t.condition? j = o.server.condition? j := by
      intro j
      unfold BoxZero.flush at hflush
      split_ifs at hflush <;> obtain ⟨rfl, -⟩ := Prod.mk.inj hflush <;> rfl
    refine ConditionsMove.congr ?_ hsame
    cases hd : p.data with
    | request r =>
      simp only [BoxZero.handle, hd] at ho
      exact request_conditionsMove hd ho
    | cvLockTrackerResponse clientMID clientMBX lockNum held =>
      simp only [BoxZero.handle, hd] at ho
      exact cvLockTrackerResponse_conditionsMove hd ho
    | doesClientHaveLock clientMID clientMBX lockNum =>
      simp only [BoxZero.handle, hd] at ho
      obtain rfl := Except.ok.inj ho
      simp only [operationAt, hd]
      refine .refl fun j => ?_
      unfold BoxZero.doesClientHaveLock
      split <;> rfl
    | _ =>
      simp only [BoxZero.handle, hd] at ho
      obtain rfl := Except.ok.inj ho
      simp only [operationAt, hd]
      exact .refl fun j => rfl

/-! Mailbox 1. -/

theorem doNotHaveName_conditionsMove {id : ℕ} {out : List Packet}
    (h : doNotHaveName cfg s p id = .ok (t, out)) : ConditionsMove s none t := by
  rcases doNotHaveName_cases h with ⟨-, -, rfl, -⟩ | ⟨pc, -, ⟨-, rfl, -⟩ |
    ⟨-, client, rest, r, -, hr, rfl, -⟩⟩
  · exact .refl fun j => rfl
  · exact .refl fun j => rfl
  · unfold createPending at hr
    split at hr
    · obtain rfl := Except.ok.inj hr
      exact .refl fun j => rfl
    · obtain rfl := Except.ok.inj hr
      exact .created fun j => rfl
    · unfold serverCreateMV at hr
      dsimp only at hr
      split_ifs at hr <;> obtain rfl := Except.ok.inj hr <;> exact .refl fun j => rfl
    · cases hr

/-- Only the conclusion of a create changes the conditions. -/
theorem boxOne_conditionsMove {out : List Packet} (h : boxOne cfg s p = .ok (t, out)) :
    ConditionsMove s none t := by
  cases hd : p.data with
  | request r =>
    simp only [boxOne, hd] at h
    obtain ⟨rfl, -⟩ := Prod.mk.inj (Except.ok.inj h)
    have hcreate : ∀ type name queried, ConditionsMove s none (create cfg s p type name queried).1 := by
      intro type name queried
      refine .refl fun j => ?_
      unfold create
      split
      · rfl
      · split <;> rfl
    cases r with
    | createLock | createCV | createMV => exact hcreate _ _ _
    | _ => exact .refl fun j => rfl
  | doNotHaveName type id =>
    simp only [boxOne, hd] at h
    exact doNotHaveName_conditionsMove h
  | doYouHaveName type id name =>
    simp only [boxOne, hd] at h
    obtain rfl : (doYouHaveName cfg s p type id name).1 = t :=
      congrArg Prod.fst (Except.ok.inj h)
    refine .refl fun j => ?_
    unfold doYouHaveName determineResponseToCreateRequest
    split
    · rfl
    · split
      · rfl
      · rfl
      · split_ifs <;> rfl
  | doYouHave type id index =>
    simp only [boxOne, hd] at h
    obtain ⟨rfl, -⟩ := Prod.mk.inj (Except.ok.inj h)
    exact .refl fun j => rfl
  | haveObject type id =>
    simp only [boxOne, hd] at h
    obtain rfl : (haveObject s p id).1 = t := congrArg Prod.fst (Except.ok.inj h)
    refine .refl fun j => ?_
    unfold haveObject
    split <;> rfl
  | doNotHaveObject type id =>
    simp only [boxOne, hd] at h
    obtain ⟨rfl, -⟩ := Prod.mk.inj (Except.ok.inj h)
    refine .refl fun j => ?_
    unfold doNotHaveObject
    split
    · rfl
    · split_ifs <;> rfl
  | haveName type id =>
    simp only [boxOne, hd] at h
    obtain rfl : (haveName s p id).1 = t := congrArg Prod.fst (Except.ok.inj h)
    refine .refl fun j => ?_
    unfold haveName
    split <;> rfl
  | _ => simp [boxOne, hd] at h

/-! Every run. -/

/-- The conditions after a message, whatever mailbox it comes to. -/
theorem handlePacket_conditionsMove {out : List Packet} (h : handlePacket S s p = .ok (t, out)) :
    ConditionsMove s
      (if p.toMailbox = 0 then operationAt (S.config p.toMachine) s p else none) t := by
  unfold handlePacket at h
  split_ifs at h with hbox
  · rw [if_pos hbox]
    exact boxZero_conditionsMove h
  · rw [if_neg hbox]
    exact boxOne_conditionsMove h

/-- Each entry afterwards was there, or is marked with waiters, or is unmarked as before. -/
theorem defersDeletion_of (hs : NoIdleMarked s)
    (h : ∀ i e', t.condition? i = some e' → s.condition? i = some e' ∨
      e'.isToBeDeleted = true ∧ e'.condition.queue ≠ [] ∨
      e'.isToBeDeleted = false ∧ ∀ e, s.condition? i = some e → e.isToBeDeleted = false) :
    DefersDeletion s t := by
  refine ⟨fun i e' he' hm => ?_, fun i e he hm e' he' => ?_⟩
  · rcases h i e' he' with hsame | ⟨-, hq⟩ | ⟨hfresh, -⟩
    · exact hs i e' hsame hm
    · exact hq
    · simp [hm] at hfresh
  · rcases h i e' he' with hsame | hkept | ⟨-, hold⟩
    · obtain rfl := Option.some.inj (he.symm.trans hsame)
      exact ⟨hm, hs i e he hm⟩
    · exact hkept
    · cases hm.symm.trans (hold e he)

theorem serverDestroyCV_defersDeletion (hs : NoIdleMarked s)
    (ht : ∀ j, t.condition? j = (serverDestroyCV s i).condition? j) : DefersDeletion s t := by
  refine defersDeletion_of hs fun j e' he' => ?_
  rw [ht] at he'
  unfold serverDestroyCV at he'
  cases hi : s.condition? i with
  | none =>
    simp only [hi] at he'
    exact .inl he'
  | some a =>
    simp only [hi] at he'
    split_ifs at he' with hw
    · rw [Server.condition?_setCondition hi] at he'
      split_ifs at he'
      · obtain rfl := Option.some.inj he'
        exact .inr (.inl ⟨rfl, by simpa [ServerCondition.hasWaiting] using hw⟩)
      · exact .inl he'
    · rw [Server.condition?_removeCondition hi] at he'
      split_ifs at he'
      exact .inl he'

theorem Operated.defersDeletion_iff (hs : NoIdleMarked s) (he : s.condition? i = some e)
    (hop : Operated l e op e') (ht : ∀ j, t.condition? j = if j = i then e' else s.condition? j) :
    DefersDeletion s t ↔ ¬ Drains l e op := by
  cases hm : e.isToBeDeleted with
  | false =>
    have hn : ¬ Drains l e op := fun hd => by cases hm.symm.trans hd.1
    refine iff_of_true (defersDeletion_of hs fun j a ha => ?_) hn
    rw [ht] at ha
    split_ifs at ha with hj
    · refine .inr (.inr ⟨(hop.marks ha).trans hm, fun b hb => ?_⟩)
      obtain rfl := Option.some.inj (he.symm.trans (hj ▸ hb))
      exact hm
    · exact .inl ha
  | true =>
    rw [← hop.kept_iff hm (hs i e he hm)]
    constructor
    · intro hd a ha
      exact hd.removed i e he hm a (by rw [ht, if_pos rfl, ha])
    · intro hkept
      refine defersDeletion_of hs fun j a ha => ?_
      rw [ht] at ha
      split_ifs at ha
      · exact .inr (.inl (hkept a ha))
      · exact .inl ha

theorem ConditionsMove.defersDeletion_iff {o : Option (CVOperation × ℤ × ℤ)}
    (h : ConditionsMove s o t) (hs : NoIdleMarked s) :
    DefersDeletion s t ↔ ∀ op i l, o = some (op, i, l) →
      ∀ e, s.condition? i = some e → ¬ Drains l e op := by
  cases h with
  | same ho ht =>
    refine iff_of_true (defersDeletion_of hs fun i e' he' => .inl (ht i ▸ he')) ?_
    intro op i l hop e he
    cases (ho op i l hop).symm.trans he
  | @created name _ ht =>
    refine iff_of_true (defersDeletion_of hs fun i e' he' => ?_) nofun
    rw [ht] at he'
    rcases serverCreateCV_condition? s name i with hi | ⟨hi, hnew⟩
    · exact .inl (hi ▸ he')
    · obtain rfl := Option.some.inj (hnew.symm.trans he')
      exact .inr (.inr ⟨rfl, by simp [hi]⟩)
  | destroyed ht => exact iff_of_true (serverDestroyCV_defersDeletion hs ht) nofun
  | operated he hop ht =>
    rw [hop.defersDeletion_iff hs he ht]
    constructor
    · rintro hn _ _ _ ⟨⟩ a ha
      obtain rfl := Option.some.inj (he.symm.trans ha)
      exact hn
    · intro hn
      exact hn _ _ _ rfl _ he

theorem handlePacket_defersDeletion_iff {out : List Packet}
    (h : handlePacket S s p = .ok (t, out)) (hs : NoIdleMarked s) :
    DefersDeletion s t ↔ DrainsNone (S.config p.toMachine) s p := by
  rw [(handlePacket_conditionsMove h).defersDeletion_iff hs]
  unfold DrainsNone
  split_ifs with hbox
  · simp [hbox]
  · simp [hbox]

theorem DefersDeletion.refl (hs : NoIdleMarked s) : DefersDeletion s s :=
  defersDeletion_of hs fun _ _ h => .inl h

theorem network_defersDeletion_iff {g g' : System} {a : Action} {out : List Packet}
    (h : network S g a = .ok (g', out)) (hs : ∀ j, NoIdleMarked (g.server j)) :
    (∀ j, DefersDeletion (g.server j) (g'.server j)) ↔ ∀ p, a = .handle p →
      DrainsNone (S.config p.toMachine) (g.server p.toMachine) p := by
  cases a with
  | arrive q =>
    obtain ⟨rfl, -⟩ := network_arrive_iff.mp h
    exact iff_of_true (fun j => .refl (hs j)) nofun
  | handle q =>
    obtain ⟨-, t, ht, rfl⟩ := network_handle_iff.mp h
    have hiff := handlePacket_defersDeletion_iff ht (hs q.toMachine)
    constructor
    · rintro hlaw _ ⟨⟩
      exact hiff.mp (by simpa using hlaw q.toMachine)
    · intro hcond j
      by_cases hj : j = q.toMachine
      · subst hj
        simpa using hiff.mpr (hcond q rfl)
      · simpa [Function.update_of_ne hj] using DefersDeletion.refl (hs j)

/-- Deletion is deferred right throughout a run of the servers exactly when no message of it
drains a marked condition. -/
theorem deletion_deferred_iff {tr : List NetworkStep} {g : System}
    (h : Execution (Handles (network S)) .initial tr g) :
    (∀ x ∈ tr, ∀ j, DefersDeletion (x.before.server j) (x.after.server j)) ↔
      ∀ x ∈ tr, ∀ p, x.event.1 = .handle p →
        DrainsNone (S.config p.toMachine) (x.before.server p.toMachine) p := by
  refine h.forall_iff (P := fun g => ∀ j, NoIdleMarked (g.server j)) ?_ ?_ ?_
  · intro j i e he
    simp [System.initial, Server.initial, Server.condition?, live?] at he
  · exact fun x hs hx => network_defersDeletion_iff hx hs
  · exact fun x hs hx hc j => ((network_defersDeletion_iff hx hs).mpr hc j).noIdle

instance : Decidable (Drains l e op) := inferInstanceAs (Decidable (_ ∧ _ ∧ _))

instance : Decidable (DrainsNone cfg s p) :=
  decidable_of_iff (p.toMailbox = 0 → ∀ o ∈ operationAt cfg s p, ∀ e ∈ s.condition? o.2.1,
    ¬ Drains o.2.2 e o.1)
    ⟨fun h op i l hbox ho e he => h hbox (op, i, l) ho e he,
      fun h hbox o ho e he => h o.1 o.2.1 o.2.2 hbox ho e he⟩

/-- The messages of clients to a lone server, each handled when it arrives. -/
def loneServer (requests : List (ℤ × Request)) : List Action :=
  requests.flatMap fun r =>
    [.arrive ⟨0, 0, 5, r.1, .request r.2⟩, .handle ⟨0, 0, 5, r.1, .request r.2⟩]

/-- A test of the packet that is handled. -/
def Action.handled (test : Packet → Bool) : Action → Bool
  | .arrive _ => true
  | .handle p => test p

/-- Two clients wait; of the destroyed condition one is woken. -/
theorem deletion_deferred_two :
    ∃ (tr : List NetworkStep) (g : System),
      Execution (Handles (network ⟨1, false, false⟩)) .initial tr g ∧
      (∃ e, (g.server 0).condition? 0 = some e ∧ e.isToBeDeleted = true) ∧
      ∀ x ∈ tr, ∀ j, DefersDeletion (x.before.server j) (x.after.server j) := by
  obtain ⟨tr, g, h, -, htest⟩ := exists_of_trace (network ⟨1, false, false⟩) .initial
    (loneServer [(1, .createLock [97]), (1, .createCV [98]), (1, .acquire 0),
      (1, .cvOperation .wait 0 0), (2, .acquire 0), (2, .cvOperation .wait 0 0), (3, .destroyCV 0),
      (3, .acquire 0), (3, .cvOperation .signal 0 0)])
    (fun r => ((r.2.server 0).condition? 0).any (·.isToBeDeleted) && r.1.all fun x =>
      x.event.1.handled fun p => DrainsNone ⟨p.toMachine, 1, false⟩ (x.before.server p.toMachine) p)
    (by decide +kernel)
  rw [Bool.and_eq_true, Option.any_eq_true, List.all_eq_true] at htest
  refine ⟨tr, g, h, htest.1, (deletion_deferred_iff h).mpr fun x hx p hp => ?_⟩
  have hcond := htest.2 x hx
  simp only [hp, Action.handled, decide_eq_true_eq] at hcond
  exact hcond

/-- The only waiter of a destroyed condition is signalled: the condition stays. -/
theorem signal_keeps_marked :
    ∃ (tr : List NetworkStep) (g : System),
      Execution (Handles (network ⟨1, false, false⟩)) .initial tr g ∧
      ∃ e, (g.server 0).condition? 0 = some e ∧ e.isToBeDeleted = true ∧
        e.condition.queue = [] := by
  obtain ⟨tr, g, h, -, htest⟩ := exists_of_trace (network ⟨1, false, false⟩) .initial
    (loneServer [(1, .createLock [97]), (1, .createCV [98]), (1, .acquire 0),
      (1, .cvOperation .wait 0 0), (2, .destroyCV 0), (2, .acquire 0),
      (2, .cvOperation .signal 0 0)])
    (fun r => ((r.2.server 0).condition? 0).any fun e =>
      e.isToBeDeleted && e.condition.queue.isEmpty) (by decide +kernel)
  obtain ⟨e, he, hbad⟩ := (Option.any_eq_true _ _).mp htest
  simp only [Bool.and_eq_true, List.isEmpty_iff] at hbad
  exact ⟨tr, g, h, e, he, hbad⟩

end Nachos.Network
