import Nachos.ServerConditionDeferral
import Nachos.ServerConditionEffects
import Nachos.ServerRouting

/-! Who may use a condition: an operation on it names a lock, which its client should own. -/
namespace Nachos.Network
open SlotTables BoxOne Executions

variable {S : Setting} {cfg : Config} {s t u : Server} {p : Packet} {i l m b : ℤ} {out : List Packet}
  {op : CVOperation} {x : CVOperation × ℤ × ℤ} {client : ClientRequest}

/-- The client that a message acts for, and the lock that it names. -/
def Packet.actsFor (p : Packet) : Option (ClientRequest × ℤ) :=
  match p.data with
  | .request (.cvOperation _ _ lockNum) => some (p.sender, lockNum)
  | .cvLockTrackerResponse clientMID clientMBX lockNum _ => some (⟨clientMID, clientMBX⟩, lockNum)
  | _ => none

/-- The entry of a lock number on the machine of the lock. -/
def System.lock? (S : Setting) (g : System) (lockNum : ℤ) : Option ServerLockEntry :=
  (g.server (ownerOf lockNum)).lock? (decodeIndex (S.config (ownerOf lockNum)) lockNum)

/-- A waiter is added to a condition or removed from it. -/
def TakesEffect (s t : Server) : Prop := ∃ v, conditionQueue t v ≠ conditionQueue s v

/-- The condition accepts the `Wait`, or has a waiter for the `Signal` or `Broadcast`. -/
def OperationActs (s : Server) : CVOperation × ℤ × ℤ → Prop
  | (.wait, i, l) => ∃ e ∈ s.condition? i, e.condition.Accepts l
  | (.signal, i, l) => 0 ≤ l ∧ ∃ e ∈ s.condition? i, e.condition.Wakes l
  | (.broadcast, i, l) => ∃ e ∈ s.condition? i, e.condition.Wakes l

/-- The machine of the lock answers DOES_CLIENT_HAVE_LOCK with yes. -/
def GrantsTracked (cfg : Config) (s : Server) (client : ClientRequest) (lockNum : ℤ) : Prop :=
  ∀ q : Packet, ∃ a ∈ (BoxZero.doesClientHaveLock cfg s q client.machineID client.mailboxNumber
    lockNum).sent, a.data = .cvLockTrackerResponse client.machineID client.mailboxNumber lockNum true

/-- An operation takes effect for the owner of its lock only. With lock and condition here it
takes effect exactly when the machine of the lock would have granted it on the tracked path. -/
structure OwnersOnly (S : Setting) (x : NetworkStep) : Prop where
  owner : ∀ p client lockNum e, x.event.1 = .handle p → p.actsFor = some (client, lockNum) →
    x.before.lock? S lockNum = some e →
    (∃ j, TakesEffect (x.before.server j) (x.after.server j)) →
    e.lock.currentClientRequest = some client
  alike : ∀ p op cvNum lockNum e, x.event.1 = .handle p → p.toMailbox = 0 →
    p.data = .request (.cvOperation op cvNum lockNum) → ownerOf lockNum = p.toMachine →
    ownerOf cvNum = p.toMachine → x.before.lock? S lockNum = some e →
    ((∃ j, TakesEffect (x.before.server j) (x.after.server j)) ↔
      GrantsTracked (S.config p.toMachine) (x.before.server p.toMachine) p.sender lockNum ∧
        OperationActs (x.before.server p.toMachine)
          (op, decodeIndex (S.config p.toMachine) cvNum, decodeIndex (S.config p.toMachine) lockNum))

/-- The operation that a message brings to its condition finds nothing to do there, or its client
owns the lock. -/
def OwnerActs (S : Setting) (g : System) (p : Packet) : Prop :=
  p.toMailbox = 0 → ∀ c ∈ p.actsFor, ∀ e ∈ g.lock? S c.2,
    ∀ o ∈ operationAt (S.config p.toMachine) (g.server p.toMachine) p,
      OperationActs (g.server p.toMachine) o → e.lock.currentClientRequest = some c.1

/-! The operations. -/

/-- The conditions after an operation on them. -/
inductive CarriesOut (s : Server) : CVOperation × ℤ × ℤ → Server → Prop
  | signal (m b i l : ℤ) : CarriesOut s (.signal, i, l) (serverSignal s m b i l).1
  | wait {m b i l : ℤ} {t : Server} (h : serverWait s m b i l = .ok t) :
      CarriesOut s (.wait, i, l) t
  | broadcast {m b i l : ℤ} {t : Server} (h : serverBroadcast s m b i l = .ok t) :
      CarriesOut s (.broadcast, i, l) t

theorem conditionQueue_setCondition {e : ServerConditionEntry} (he : s.condition? i = some e)
    (e' : ServerConditionEntry) :
    TakesEffect s (s.setCondition i e') ↔ e'.condition.queue ≠ e.condition.queue := by
  constructor
  · rintro ⟨v, hv⟩ hq
    refine hv ?_
    unfold conditionQueue
    rw [Server.condition?_setCondition he]
    split_ifs with hi
    · simp [hi, he, hq]
    · rfl
  · intro hq
    refine ⟨i, ?_⟩
    unfold conditionQueue
    rw [Server.condition?_setCondition he, if_pos rfl, he]
    simpa using hq

theorem not_takesEffect_self (s : Server) : ¬ TakesEffect s s := fun ⟨_, hv⟩ => hv rfl

theorem TakesEffect.congr_right (ht : u.conditions = t.conditions) :
    TakesEffect s u ↔ TakesEffect s t := by
  simp only [TakesEffect, conditionQueue, Server.condition?, ht]

theorem TakesEffect.congr_left (hs : u.conditions = s.conditions) :
    TakesEffect u t ↔ TakesEffect s t := by
  simp only [TakesEffect, conditionQueue, Server.condition?, hs]

theorem signal_queue_ne_iff {c : ServerCondition} (cr : ClientRequest) :
    (c.signal l cr).1.queue ≠ c.queue ↔ c.Wakes l := by
  by_cases hw : c.Wakes l
  · obtain ⟨next, rest, hq⟩ := List.exists_cons_of_ne_nil hw.1
    simp [ServerCondition.signal_of_cons hq hw.2, hw, hq]
  · simp [ServerCondition.signal_of_not_wakes hw, hw]

theorem serverSignal_takesEffect_iff :
    TakesEffect s (serverSignal s m b i l).1 ↔ OperationActs s (.signal, i, l) := by
  unfold serverSignal OperationActs
  cases he : s.condition? i with
  | none => simp [not_takesEffect_self, he]
  | some e =>
    dsimp only
    split_ifs with hl
    · exact iff_of_false (not_takesEffect_self s) fun h => absurd h.1 (not_le.mpr hl)
    · rw [conditionQueue_setCondition he, signal_queue_ne_iff]
      simp [he, not_lt.mp hl]

theorem serverWait_takesEffect_iff (h : serverWait s m b i l = .ok t) :
    TakesEffect s t ↔ OperationActs s (.wait, i, l) := by
  unfold serverWait at h
  unfold OperationActs
  split_ifs at h with h0
  · obtain rfl := Except.ok.inj h
    have hnone : s.condition? i = none := if_neg (not_le.mpr h0)
    simp [hnone, not_takesEffect_self]
  · cases he : s.condition? i with
    | none =>
      simp only [he] at h
      obtain rfl := Except.ok.inj h
      simp [not_takesEffect_self, he]
    | some e =>
      simp only [he] at h
      by_cases ha : e.condition.Accepts l
      · simp only [ServerCondition.wait_accepted ha, ServerCondition.hasWaiting] at h
        rw [if_neg (by simp)] at h
        obtain rfl := Except.ok.inj h
        rw [conditionQueue_setCondition he]
        simp [he, ha]
      · simp only [ServerCondition.wait_rejected ha] at h
        have hno : ¬ TakesEffect s t := by
          split_ifs at h with hgone
          · obtain rfl := Except.ok.inj h
            have hq : e.condition.queue = [] := hasWaiting_eq_false.mp (by simpa using hgone.2)
            rintro ⟨v, hv⟩
            refine hv ?_
            unfold conditionQueue
            rw [Server.condition?_removeCondition he]
            split_ifs with hi
            · simp [hi, he, hq]
            · rfl
          · obtain rfl := Except.ok.inj h
            rw [conditionQueue_setCondition he]
            simp
        simp [he, hno, ha]

theorem serverBroadcast_takesEffect_iff (h : serverBroadcast s m b i l = .ok t) :
    TakesEffect s t ↔ OperationActs s (.broadcast, i, l) := by
  unfold serverBroadcast at h
  unfold OperationActs
  split_ifs at h with h0
  · obtain rfl := Except.ok.inj h
    have hnone : s.condition? i = none := if_neg (not_le.mpr h0)
    simp [hnone, not_takesEffect_self]
  · cases he : s.condition? i with
    | none =>
      simp only [he] at h
      obtain rfl := Except.ok.inj h
      simp [not_takesEffect_self, he]
    | some e =>
      simp only [he] at h
      cases hloop : broadcastLoop l ⟨m, b⟩ e.condition.queue.length e.condition with
      | none => simp [hloop] at h
      | some q =>
        simp only [hloop] at h
        obtain rfl := Except.ok.inj h
        obtain ⟨hb, hq⟩ := broadcastLoop_emptied le_rfl hloop
        refine (TakesEffect.congr_right (t := s.setCondition i { e with condition := q.1 }) rfl).trans ?_
        rw [conditionQueue_setCondition he]
        simp only [hq, he, Option.mem_def, Option.some.injEq, exists_eq_left', ServerCondition.Wakes]
        constructor
        · intro hne
          exact ⟨Ne.symm hne, hb.resolve_left (Ne.symm hne)⟩
        · rintro ⟨hne, -⟩
          exact Ne.symm hne

theorem CarriesOut.takesEffect_iff (h : CarriesOut s x t) : TakesEffect s t ↔ OperationActs s x := by
  cases h with
  | signal => exact serverSignal_takesEffect_iff
  | wait h => exact serverWait_takesEffect_iff h
  | broadcast h => exact serverBroadcast_takesEffect_iff h

/-! One message. -/

theorem localOperation_carriesOut {respond : Bool} {o : Outcome}
    (h : BoxZero.localOperation s p op i l respond = .ok o) :
    ∃ t, CarriesOut s (op, i, l) t ∧ o.server.conditions = t.conditions := by
  cases op with
  | signal =>
    obtain rfl := Except.ok.inj h
    exact ⟨_, .signal _ _ i l, pushWoken_conditions _ _⟩
  | broadcast =>
    obtain ⟨u, hu, h⟩ := bind_eq_ok.mp h
    obtain rfl := Except.ok.inj h
    exact ⟨u, .broadcast hu, rfl⟩
  | wait =>
    obtain ⟨u, hu, h⟩ := bind_eq_ok.mp h
    have hrelease : (serverRelease u p.fromMachine p.fromMailbox l).1.conditions = u.conditions := by
      rw [serverRelease_eq]
      exact (applyTarget_conditions _ _).1
    refine ⟨u, .wait hu, ?_⟩
    dsimp only at h
    split at h
    · cases h
    · obtain rfl := Except.ok.inj h
      exact (pushWoken_conditions _ _).trans hrelease
    · obtain rfl := Except.ok.inj h
      exact hrelease

theorem trackedOperation_carriesOut {clientMID clientMBX lockNum cvNum : ℤ} {o : Outcome}
    (hcv : decodeMachineIDFromCVNumber cvNum = cfg.myMachineID)
    (h : BoxZero.trackedOperation cfg s p clientMID clientMBX lockNum cvNum op = .ok o) :
    ∃ t, CarriesOut s (op, decodeIndex cfg cvNum, lockNum) t ∧
      o.server.conditions = t.conditions := by
  unfold BoxZero.trackedOperation at h
  rw [if_pos hcv] at h
  cases op with
  | signal =>
    obtain rfl := Except.ok.inj h
    exact ⟨_, .signal _ _ _ _, pushWoken_conditions _ _⟩
  | broadcast | wait =>
    obtain ⟨u, hu, h⟩ := bind_eq_ok.mp h
    obtain rfl := Except.ok.inj h
    exact ⟨u, by first | exact .wait hu | exact .broadcast hu, rfl⟩

/-- A message that finds lock and condition has its operation carried out. -/
theorem handle_carriesOut {o : Outcome} (h : BoxZero.handle cfg s p = .ok o)
    (hx : operationAt cfg s p = some x) :
    ∃ u t, u.conditions = s.conditions ∧ CarriesOut u x t ∧ o.server.conditions = t.conditions := by
  unfold operationAt at hx
  split at hx
  · rename_i operation cvNum lockNum hd
    split_ifs at hx with hall
    obtain ⟨hown, hlive, hcv⟩ := hall
    obtain ⟨e, he⟩ := Option.isSome_iff_exists.mp hlive
    obtain rfl := Option.some.inj hx
    simp only [BoxZero.handle, hd, BoxZero.request, BoxZero.cvOperation, if_pos hown] at h
    generalize hu : (if decide (decodeMachineIDFromLockNumber lockNum < 0 ∨
      decodeMachineIDFromLockNumber lockNum > cfg.totalNumServers) = true
      then s.pushResponse p.response else s) = u at h
    have hsame : u.conditions = s.conditions ∧ u.locks = s.locks := by
      rw [← hu]
      split_ifs <;> exact ⟨rfl, rfl⟩
    have hlock : u.lock? (decodeIndex cfg lockNum) = some e := by
      rw [Server.lock?, hsame.2]
      exact he
    simp only [hlock, if_pos hcv] at h
    obtain ⟨t, ht, ho⟩ := localOperation_carriesOut h
    exact ⟨u, t, hsame.1, ht, ho⟩
  · rename_i clientMID clientMBX lockNum hd
    obtain ⟨c, hc, hx⟩ := Option.bind_eq_some_iff.mp hx
    split_ifs at hx with hcv
    obtain rfl := Option.some.inj hx
    simp only [BoxZero.handle, hd, BoxZero.cvLockTrackerResponse, not_true_eq_false, if_false] at h
    rw [trackedRequest] at hc
    simp only [hc] at h
    obtain ⟨t, ht, ho⟩ := trackedOperation_carriesOut hcv h
    refine ⟨_, t, ?_, ht, ho⟩
    split <;> rfl
  · cases hx

theorem ConditionsMove.not_takesEffect (h : ConditionsMove s none t) : ¬ TakesEffect s t := by
  rintro ⟨v, hv⟩
  refine hv ?_
  cases h with
  | same _ ht => simp only [conditionQueue, ht]
  | @created name _ ht =>
    have hv : conditionQueue t v = conditionQueue (serverCreateCV s name).1 v := by
      simp only [conditionQueue, ht]
    exact hv.trans (serverCreateCV_same s name).1
  | @destroyed i _ ht =>
    have hv : conditionQueue t v = conditionQueue (serverDestroyCV s i) v := by
      simp only [conditionQueue, ht]
    exact hv.trans (serverDestroyCV_same s i).1

theorem handlePacket_takesEffect_iff (h : handlePacket S s p = .ok (t, out)) :
    TakesEffect s t ↔ p.toMailbox = 0 ∧
      ∃ o ∈ operationAt (S.config p.toMachine) s p, OperationActs s o := by
  have hmove := handlePacket_conditionsMove h
  by_cases hb : p.toMailbox = 0
  · rw [if_pos hb] at hmove
    cases hx : operationAt (S.config p.toMachine) s p with
    | none =>
      rw [hx] at hmove
      simp [hmove.not_takesEffect]
    | some x =>
      unfold handlePacket at h
      rw [if_pos hb] at h
      cases ho : BoxZero.handle (S.config p.toMachine) s p with
      | error f => simp [boxZero, ho, Except.map] at h
      | ok o =>
        obtain ⟨u, v, hu, hcarries, hv⟩ := handle_carriesOut ho hx
        have hflush : BoxZero.flush (S.config p.toMachine) o = (t, out) := by
          simpa only [boxZero, ho, Except.map, Except.ok.injEq] using h
        have ht : t.conditions = v.conditions := by
          rw [← hv]
          unfold BoxZero.flush at hflush
          split_ifs at hflush <;> obtain ⟨rfl, -⟩ := Prod.mk.inj hflush <;> rfl
        have hacts : OperationActs s x ↔ OperationActs u x := by
          obtain ⟨_ | _ | _, _, _⟩ := x <;> simp only [OperationActs, Server.condition?, hu]
        rw [TakesEffect.congr_right ht, ← TakesEffect.congr_left hu, hcarries.takesEffect_iff, ← hacts]
        simp [hb]
  · rw [if_neg hb] at hmove
    simp [hb, hmove.not_takesEffect]

/-! The whole system. -/

theorem grantsTracked_iff {lockNum : ℤ} {e : ServerLockEntry}
    (he : s.lock? (decodeIndex cfg lockNum) = some e) :
    GrantsTracked cfg s client lockNum ↔ e.lock.currentClientRequest = some client := by
  rw [← ServerLock.isHeldByRequester_iff]
  constructor
  · intro hgrant
    obtain ⟨a, ha, hdata⟩ := hgrant ⟨0, 0, 0, 0, .request (.acquire 0)⟩
    simp only [BoxZero.doesClientHaveLock, he, List.mem_singleton] at ha
    rw [ha] at hdata
    simpa [sendMessageWithData] using hdata
  · intro hown q
    refine ⟨sendMessageWithData cfg.myMachineID 0 q.fromMachine q.fromMailbox
      (.cvLockTrackerResponse client.machineID client.mailboxNumber lockNum true), ?_, rfl⟩
    simp only [BoxZero.doesClientHaveLock, he, hown]
    exact List.mem_singleton_self _

theorem network_takesEffect_iff {x : NetworkStep}
    (hx : Handles (network S) x.before x.event x.after) (hp : x.event.1 = .handle p) :
    (∃ j, TakesEffect (x.before.server j) (x.after.server j)) ↔
      p.toMailbox = 0 ∧ ∃ o ∈ operationAt (S.config p.toMachine) (x.before.server p.toMachine) p,
        OperationActs (x.before.server p.toMachine) o := by
  have hstep : network S x.before (.handle p) = .ok (x.after, x.event.2) := by
    rw [← hp]
    exact hx
  obtain ⟨-, t, ht, hafter⟩ := network_handle_iff.mp hstep
  rw [← handlePacket_takesEffect_iff ht, hafter]
  constructor
  · rintro ⟨j, hj⟩
    by_cases hpj : j = p.toMachine
    · subst hpj
      simpa using hj
    · exact absurd (by simpa [Function.update_of_ne hpj] using hj) (not_takesEffect_self _)
  · intro hacts
    exact ⟨p.toMachine, by simpa using hacts⟩

theorem OwnersOnly.ownerActs {x : NetworkStep} (h : OwnersOnly S x)
    (hx : Handles (network S) x.before x.event x.after) (hp : x.event.1 = .handle p) :
    OwnerActs S x.before p := by
  intro hbox c hc e he o ho hacts
  exact h.owner p c.1 c.2 e hp hc he ((network_takesEffect_iff hx hp).mpr ⟨hbox, o, ho, hacts⟩)

theorem ownersOnly_of_ownerActs {x : NetworkStep}
    (hx : Handles (network S) x.before x.event x.after)
    (hown : ∀ p, x.event.1 = .handle p → OwnerActs S x.before p) : OwnersOnly S x where
  owner := by
    intro p client lockNum e hp hfor he heffect
    obtain ⟨hbox, o, ho, hacts⟩ := (network_takesEffect_iff hx hp).mp heffect
    exact hown p hp hbox (client, lockNum) hfor e he o ho hacts
  alike := by
    intro p op cvNum lockNum e hp hbox hd hlock hcv he
    have hfor : p.actsFor = some (p.sender, lockNum) := by simp [Packet.actsFor, hd]
    have hlive : (x.before.server p.toMachine).lock?
        (decodeIndex (S.config p.toMachine) lockNum) = some e := by
      rw [System.lock?, hlock] at he
      exact he
    have hat : operationAt (S.config p.toMachine) (x.before.server p.toMachine) p =
        some (op, decodeIndex (S.config p.toMachine) cvNum,
          decodeIndex (S.config p.toMachine) lockNum) := by
      unfold operationAt
      rw [hd]
      exact if_pos ⟨hlock, by simp [hlive], hcv⟩
    rw [network_takesEffect_iff hx hp, grantsTracked_iff hlive, hat]
    constructor
    · rintro ⟨-, o, ho, hacts⟩
      obtain rfl := Option.some.inj ho
      exact ⟨hown p hp hbox _ hfor e he _ hat hacts, hacts⟩
    · rintro ⟨-, hacts⟩
      exact ⟨hbox, _, rfl, hacts⟩

/-- An operation takes effect for the owner of its lock only, exactly in the steps in which it is
the owner who comes or nothing is there to be done. -/
theorem owners_only_iff {tr : List NetworkStep} {g : System}
    (h : Execution (Handles (network S)) .initial tr g) :
    ∀ x ∈ tr, OwnersOnly S x ↔ ∀ p, x.event.1 = .handle p → OwnerActs S x.before p := by
  intro x hx
  have hstep := (h.mem trivial (fun _ _ _ _ _ => trivial) hx).2
  constructor
  · intro hlaw p hp
    exact hlaw.ownerActs hstep hp
  · intro hown
    exact ownersOnly_of_ownerActs hstep hown

instance : Decidable (OperationActs s x) :=
  match x with
  | (.wait, i, l) => inferInstanceAs (Decidable (∃ e ∈ s.condition? i, e.condition.Accepts l))
  | (.signal, i, l) =>
    inferInstanceAs (Decidable (0 ≤ l ∧ ∃ e ∈ s.condition? i, e.condition.Wakes l))
  | (.broadcast, i, l) => inferInstanceAs (Decidable (∃ e ∈ s.condition? i, e.condition.Wakes l))

instance {g : System} : Decidable (OwnerActs S g p) := by
  unfold OwnerActs
  infer_instance

/-- The owner of the lock waits. -/
theorem owners_only_wait :
    ∃ (tr : List NetworkStep) (g : System),
      Execution (Handles (network ⟨1, false, false⟩)) .initial tr g ∧
      conditionQueue (g.server 0) 0 = [⟨5, 1⟩] ∧ ∀ x ∈ tr, OwnersOnly ⟨1, false, false⟩ x := by
  obtain ⟨tr, g, h, -, htest⟩ := exists_of_trace (network ⟨1, false, false⟩) .initial
    (loneServer [(1, .createLock [97]), (1, .createCV [98]), (1, .acquire 0),
      (1, .cvOperation .wait 0 0)])
    (fun r => decide (conditionQueue (r.2.server 0) 0 = [⟨5, 1⟩]) && r.1.all fun x =>
      x.event.1.handled fun p => OwnerActs ⟨1, false, false⟩ x.before p)
    (by decide +kernel)
  rw [Bool.and_eq_true, decide_eq_true_eq, List.all_eq_true] at htest
  refine ⟨tr, g, h, htest.1, fun x hx => (owners_only_iff h x hx).mpr fun p hp => ?_⟩
  have hcond := htest.2 x hx
  simp only [hp, Action.handled, decide_eq_true_eq] at hcond
  exact hcond

/-- The lock is free, and a client that has not acquired it is put into the queue. -/
theorem stranger_queued :
    ∃ (tr : List NetworkStep) (g : System),
      Execution (Handles (network ⟨1, false, false⟩)) .initial tr g ∧
      ∃ x ∈ tr, ∃ p client lockNum e, x.event.1 = .handle p ∧
        p.actsFor = some (client, lockNum) ∧ x.before.lock? ⟨1, false, false⟩ lockNum = some e ∧
        e.lock.currentClientRequest ≠ some client ∧
        (∃ j, TakesEffect (x.before.server j) (x.after.server j)) := by
  obtain ⟨tr, g, h, -, htest⟩ := exists_of_trace (network ⟨1, false, false⟩) .initial
    (loneServer [(1, .createLock [97]), (1, .createCV [98]), (2, .cvOperation .wait 0 0)])
    (fun r => r.1.any fun x => decide (
      x.event.1 = .handle ⟨0, 0, 5, 2, .request (.cvOperation .wait 0 0)⟩ ∧
      (∃ e ∈ x.before.lock? ⟨1, false, false⟩ 0, e.lock.currentClientRequest ≠ some ⟨5, 2⟩) ∧
      conditionQueue (x.after.server 0) 0 ≠ conditionQueue (x.before.server 0) 0))
    (by decide +kernel)
  obtain ⟨x, hx, hbad⟩ := List.any_eq_true.mp htest
  obtain ⟨hp, ⟨e, he, hother⟩, hqueue⟩ := of_decide_eq_true hbad
  exact ⟨tr, g, h, x, hx, _, _, 0, e, hp, rfl, he, hother, 0, 0, hqueue⟩

end Nachos.Network
