import Nachos.FifoQueues
import Nachos.ServerBoxZero

/-! Which lock a condition variable of the server is bound to, over any sequence of calls,
and the loop of its Broadcast. -/
namespace Nachos.Network
open Executions FifoQueues

inductive ConditionCall
  | wait (lock : ℤ) (cr : ClientRequest)
  | signal (lock : ℤ) (cr : ClientRequest)
  deriving DecidableEq, Repr

def ConditionCall.lock : ConditionCall → ℤ
  | wait lock _ => lock
  | signal lock _ => lock

/-- One call of `ServerCondition::Wait` or `Signal`, with the request it returns. -/
def conditionCall (c : ServerCondition) :
    ConditionCall → Except Fault (ServerCondition × ClientRequest × Bool)
  | .wait lock cr => .ok (c.wait lock cr)
  | .signal lock cr => .ok (c.signal lock cr)

abbrev ConditionStep := Transition ServerCondition (ConditionCall × ClientRequest × Bool)

/-- The request that a Wait has queued, with its lock. -/
def accepted (x : ConditionStep) : List (ClientRequest × ℤ) :=
  match x.event with
  | (.wait lock _, cr, false) => [(cr, lock)]
  | _ => []

/-- The request that a Signal has taken from the queue, with the lock of the Signal. -/
def returned (x : ConditionStep) : List (ClientRequest × ℤ) :=
  match x.event with
  | (.signal lock _, cr, true) => [(cr, lock)]
  | _ => []

namespace ServerCondition

/-- The queue, each request with the lock that the condition remembers. -/
def bound (c : ServerCondition) : List (ClientRequest × ℤ) := c.queue.map fun cr => (cr, c.waitingLock)

/-- A lock is remembered exactly while requests are queued. -/
def Bound (c : ServerCondition) : Prop := c.waitingLock = -1 ↔ c.queue = []

variable {c c' : ServerCondition} {call : ConditionCall} {out : ClientRequest × Bool} {name : Name}

theorem new_bound (name : Name) : (new name).Bound := by simp [new, Bound]

/-- One call moves the queue and keeps the condition bound. -/
theorem call_moves (h : c.Bound) (hl : 0 ≤ call.lock)
    (hc : conditionCall c call = .ok (c', out)) :
    c'.Bound ∧ Moves c.bound (accepted ⟨c, (call, out), c'⟩) (returned ⟨c, (call, out), c'⟩)
      c'.bound := by
  cases call with
  | wait lock cr =>
    have hlock : 0 ≤ lock := hl
    by_cases ha : c.Accepts lock
    · simp only [conditionCall, wait_accepted ha, Except.ok.injEq, Prod.mk.injEq] at hc
      obtain ⟨rfl, rfl⟩ := hc
      refine ⟨⟨fun hw => ?_, by simp⟩, ?_⟩
      · have hw : lock = -1 := hw
        omega
      · -- the requests queued before carry this lock already
        have hsame : c.bound = c.queue.map fun cr => (cr, lock) := by
          rcases ha with ha | ha
          · simp [bound, h.mp ha]
          · simp [bound, ha]
        rw [hsame]
        simp [Moves, accepted, returned, bound]
    · simp only [conditionCall, wait_rejected ha, Except.ok.injEq, Prod.mk.injEq] at hc
      obtain ⟨rfl, rfl⟩ := hc
      exact ⟨h, .refl _⟩
  | signal lock cr =>
    by_cases hw : c.Wakes lock
    · obtain ⟨hne, hlock⟩ := hw
      obtain ⟨next, rest, hq⟩ := List.exists_cons_of_ne_nil hne
      simp only [conditionCall, signal_of_cons hq hlock, Except.ok.injEq, Prod.mk.injEq] at hc
      obtain ⟨rfl, rfl⟩ := hc
      have hset : c.waitingLock ≠ -1 := fun he => hne (h.mp he)
      by_cases hr : rest = []
      · subst hr
        exact ⟨by simp [Bound], by simp [Moves, accepted, returned, bound, hq, hlock]⟩
      · exact ⟨by simp [Bound, hr, hset], by simp [Moves, accepted, returned, bound, hq, hr, hlock]⟩
    · simp only [conditionCall, signal_of_not_wakes hw, Except.ok.injEq, Prod.mk.injEq] at hc
      obtain ⟨rfl, rfl⟩ := hc
      exact ⟨h, .refl _⟩

/-- While requests are queued a call with another lock changes nothing. -/
theorem call_of_other (h : c.Bound) (hq : c.queue ≠ []) (hl : call.lock ≠ c.waitingLock)
    (hc : conditionCall c call = .ok (c', out)) : c' = c := by
  cases call with
  | wait lock cr =>
    have hn : ¬ c.Accepts lock := by
      rintro (ha | ha)
      · exact hq (h.mp ha)
      · exact hl ha.symm
    simp only [conditionCall, wait_rejected hn, Except.ok.injEq, Prod.mk.injEq] at hc
    exact hc.1.symm
  | signal lock cr =>
    have hn : ¬ c.Wakes lock := fun hw => hl hw.2.symm
    simp only [conditionCall, signal_of_not_wakes hn, Except.ok.injEq, Prod.mk.injEq] at hc
    exact hc.1.symm

end ServerCondition

/-- Over every sequence of calls with nonnegative locks. -/
theorem condition_binding {name : Name} {c : ServerCondition} {tr : List ConditionStep}
    (h : Execution (Handles conditionCall) (.new name) tr c)
    (hl : ∀ x ∈ tr, 0 ≤ x.event.1.lock) :
    (c.waitingLock = -1 ↔ c.queue = []) ∧
    tr.flatMap accepted = tr.flatMap returned ++ c.queue.map (fun cr => (cr, c.waitingLock)) ∧
    ∀ x ∈ tr, x.before.queue ≠ [] → x.event.1.lock ≠ x.before.waitingLock →
      x.after = x.before := by
  have hr := h.restrict (Q := fun e => 0 ≤ e.1.lock) hl
  have hkeep : ∀ (c : ServerCondition) (e : ConditionCall × ClientRequest × Bool)
      (c' : ServerCondition), c.Bound → Handles conditionCall c e c' ∧ 0 ≤ e.1.lock → c'.Bound :=
    fun _ _ _ hb hs => (ServerCondition.call_moves hb hs.2 hs.1).1
  have hbound := hr.invariant (ServerCondition.new_bound name) hkeep
  have hmoves := moves_run (q := ServerCondition.bound) hr (ServerCondition.new_bound name) hkeep
    fun _ _ _ hb hs => (ServerCondition.call_moves hb hs.2 hs.1).2
  refine ⟨hbound, hmoves, fun x hx hq hne => ?_⟩
  obtain ⟨hb, hs⟩ := hr.mem (ServerCondition.new_bound name) hkeep hx
  exact ServerCondition.call_of_other hb hq hne hs.1

/-- Two waits with one lock, a wait with another, and a signal. -/
theorem condition_binding_two :
    ∃ (c : ServerCondition) (tr : List ConditionStep),
      Execution (Handles conditionCall) (.new []) tr c ∧
      tr.map (fun x => x.event.1) = [.wait 3 ⟨1, 10⟩, .wait 3 ⟨2, 10⟩, .wait 4 ⟨5, 10⟩,
        .signal 3 ⟨7, 10⟩] ∧ c.queue = [⟨2, 10⟩] ∧
      (c.waitingLock = -1 ↔ c.queue = []) ∧
      tr.flatMap accepted = tr.flatMap returned ++ c.queue.map (fun cr => (cr, c.waitingLock)) ∧
      ∀ x ∈ tr, x.before.queue ≠ [] → x.event.1.lock ≠ x.before.waitingLock →
        x.after = x.before := by
  obtain ⟨tr, c, h, hmap, htest⟩ := exists_of_trace conditionCall (.new [])
    [.wait 3 ⟨1, 10⟩, .wait 3 ⟨2, 10⟩, .wait 4 ⟨5, 10⟩, .signal 3 ⟨7, 10⟩]
    (fun r => r.2.queue = [⟨2, 10⟩]) (by decide)
  have hl : ∀ x ∈ tr, 0 ≤ x.event.1.lock :=
    forall_inputs (Q := fun call => 0 ≤ call.lock) hmap (by decide)
  exact ⟨c, tr, h, hmap, by simpa using htest, condition_binding h hl⟩

/-! `ServerBroadcast` on a condition that exists. -/

/-- The answer to a woken client. -/
def wakeResponse (cr : ClientRequest) : ServerResponse := ⟨cr.machineID, cr.mailboxNumber, -1⟩

/-- The loop ends; with the lock of the condition it wakes everybody in order, with another
lock nobody. -/
structure BroadcastsRight (s : Server) (machineID mailbox conditionIndex lockIndex : ℤ)
    (e : ServerConditionEntry) : Prop where
  ends : ∃ n, broadcastLoop lockIndex ⟨machineID, mailbox⟩ n e.condition ≠ none
  bound : e.condition.waitingLock = lockIndex → ∃ c : ServerCondition, c.queue = [] ∧
    serverBroadcast s machineID mailbox conditionIndex lockIndex =
      .ok { s.setCondition conditionIndex { e with condition := c } with
        necessaryResponses := s.necessaryResponses ++ e.condition.queue.map wakeResponse }
  other : e.condition.waitingLock ≠ lockIndex →
    serverBroadcast s machineID mailbox conditionIndex lockIndex = .ok s

variable {s : Server} {machineID mailbox conditionIndex lockIndex : ℤ} {e : ServerConditionEntry}

theorem setCondition_self (h : s.condition? conditionIndex = some e) :
    s.setCondition conditionIndex e = s := by
  obtain ⟨h0, hi⟩ := SlotTables.live?_eq_some.mp h
  obtain ⟨hlt, he⟩ := List.getElem?_eq_some_iff.mp hi
  unfold Server.setCondition SlotTables.put
  rw [← he, List.set_getElem_self]

variable (machineID mailbox) in
/-- The broadcast that ends, with the condition emptied. -/
theorem serverBroadcast_of_bound (h : s.condition? conditionIndex = some e)
    (hb : e.condition.queue = [] ∨ e.condition.waitingLock = lockIndex) :
    serverBroadcast s machineID mailbox conditionIndex lockIndex =
      .ok { s.setCondition conditionIndex { e with
          condition := { e.condition with
            queue := []
            waitingLock := if e.condition.queue = [] then e.condition.waitingLock else -1 } } with
        necessaryResponses := s.necessaryResponses ++ e.condition.queue.map wakeResponse } := by
  obtain ⟨h0, hi⟩ := SlotTables.live?_eq_some.mp h
  have hlt := (List.getElem?_eq_some_iff.mp hi).1
  unfold serverBroadcast
  rw [if_neg (by omega), if_neg (by omega)]
  simp only [h, broadcastLoop_of_bound lockIndex _ _ _ le_rfl hb]
  rfl

/-- Exactly when nobody waits or the lock is that of the waiters. -/
theorem broadcast_right_iff (h : s.condition? conditionIndex = some e) :
    BroadcastsRight s machineID mailbox conditionIndex lockIndex e ↔
      e.condition.queue = [] ∨ e.condition.waitingLock = lockIndex := by
  constructor
  · intro hr
    by_contra hn
    obtain ⟨hq, hw⟩ := not_or.mp hn
    obtain ⟨n, hend⟩ := hr.ends
    exact hend (broadcastLoop_of_other lockIndex _ n hq hw)
  · intro hb
    have hrun := serverBroadcast_of_bound machineID mailbox h hb
    refine ⟨⟨e.condition.queue.length, ?_⟩, fun hw => ⟨_, rfl, hrun⟩, fun hw => ?_⟩
    · rw [broadcastLoop_of_bound lockIndex _ _ _ le_rfl hb]
      exact Option.some_ne_none _
    · have hq := hb.resolve_right hw
      have he : ({ e with condition := { e.condition with queue := [] } } :
          ServerConditionEntry) = e := by rw [← hq]
      rw [hrun]
      simp [hq, he, setCondition_self h]

/-- Two clients wait and both are woken. -/
theorem broadcast_right_two :
    ∃ (tr : List (Transition Server (Packet × List Packet))) (s : Server) (e : ServerConditionEntry),
      Execution (Handles (boxZero ⟨0, 1, false⟩)) .initial tr s ∧ s.condition? 0 = some e ∧
      e.condition.queue = [⟨1, 0⟩, ⟨2, 0⟩] ∧ BroadcastsRight s 3 0 0 0 e := by
  obtain ⟨tr, s, h, -, htest⟩ := exists_of_trace (boxZero ⟨0, 1, false⟩) .initial
    [⟨0, 0, 1, 0, .request (.createLock [97])⟩, ⟨0, 0, 1, 0, .request (.createCV [98])⟩,
      ⟨0, 0, 1, 0, .request (.acquire 0)⟩, ⟨0, 0, 1, 0, .request (.cvOperation .wait 0 0)⟩,
      ⟨0, 0, 2, 0, .request (.acquire 0)⟩, ⟨0, 0, 2, 0, .request (.cvOperation .wait 0 0)⟩]
    (fun r => r.2.condition? 0 = some ⟨⟨[98], [⟨1, 0⟩, ⟨2, 0⟩], 0⟩, false⟩) (by decide +kernel)
  have he := of_decide_eq_true htest
  exact ⟨tr, s, _, h, he, rfl, (broadcast_right_iff he).mpr (.inr rfl)⟩

/-- A client waits with one lock, and a broadcast with another lock never ends. -/
theorem broadcast_never_ends :
    ∃ (tr : List (Transition Server (Packet × List Packet))) (s : Server) (e : ServerConditionEntry),
      Execution (Handles (boxZero ⟨0, 1, false⟩)) .initial tr s ∧ s.condition? 0 = some e ∧
      (∀ n, broadcastLoop 1 ⟨2, 0⟩ n e.condition = none) ∧ ¬ BroadcastsRight s 2 0 0 1 e := by
  obtain ⟨tr, s, h, -, htest⟩ := exists_of_trace (boxZero ⟨0, 1, false⟩) .initial
    [⟨0, 0, 1, 0, .request (.createLock [97])⟩, ⟨0, 0, 1, 0, .request (.createLock [98])⟩,
      ⟨0, 0, 1, 0, .request (.createCV [99])⟩, ⟨0, 0, 1, 0, .request (.acquire 0)⟩,
      ⟨0, 0, 1, 0, .request (.cvOperation .wait 0 0)⟩, ⟨0, 0, 2, 0, .request (.acquire 1)⟩]
    (fun r => r.2.condition? 0 = some ⟨⟨[99], [⟨1, 0⟩], 0⟩, false⟩) (by decide +kernel)
  have hloop : ∀ n, broadcastLoop 1 ⟨2, 0⟩ n ⟨[99], [⟨1, 0⟩], 0⟩ = none := fun n =>
    broadcastLoop_of_other 1 _ n (by simp) (by simp)
  refine ⟨tr, s, _, h, of_decide_eq_true htest, hloop, fun hr => ?_⟩
  obtain ⟨n, hend⟩ := hr.ends
  exact hend (hloop n)

end Nachos.Network
