import Nachos.Executions
import Nachos.KernelSynch

/-! Threads that share locks and conditions, `threads/thread.cc` and
`threads/scheduler.cc`. A call runs up to its `Sleep` and is continued when its thread is
dispatched again. Any ready thread may be dispatched, so every schedule is covered. -/
namespace Nachos.Threads
open Executions

/-- The call that a thread is still inside while it is asleep or ready. -/
inductive Inside (L C : Type*)
  | acquire (lock : L)
  /-- after the `Sleep` of `Wait` comes the `Acquire` of its lock -/
  | wait (condition : C) (lock : L)
  | reacquire (condition : C) (lock : L)
  deriving DecidableEq, Repr

/-- The lock in whose `Acquire` the thread is. -/
def Inside.acquiring {L C : Type*} : Inside L C → Option L
  | .acquire lock => some lock
  | .reacquire _ lock => some lock
  | .wait _ _ => none

structure Kernel (T L C : Type*) where
  locks : L → Lock T
  conditions : C → Condition T L
  readyList : List T
  currentThread : Option T
  inside : T → Option (Inside L C)

inductive Action (T L C : Type*)
  | acquire (lock : L)
  | release (lock : L)
  | wait (condition : C) (conditionLock : Option L)
  | signal (condition : C) (conditionLock : Option L)
  | broadcast (condition : C) (conditionLock : Option L)
  /-- the CPU goes to a ready thread, by `Yield` or since no thread runs -/
  | dispatch (thread : T)
  /-- the current thread blocks on something else, or finishes -/
  | sleep
  /-- a thread that is in no call is forked, or woken by something else -/
  | wake (thread : T)
  deriving DecidableEq, Repr

inductive Refusal
  /-- no thread runs, or the thread named cannot run -/
  | notPossible
  /-- the loop of `Broadcast` never ends -/
  | endlessLoop
  deriving DecidableEq, Repr

variable {T L C : Type*} [DecidableEq T] [DecidableEq L] [DecidableEq C]

namespace Kernel

/-- New locks and conditions in memory that held these values, and no thread yet. -/
def initial (possession : L → Option T) (binding : C → Option L) : Kernel T L C :=
  ⟨fun l => .new (possession l), fun c => .new (binding c), [], none, fun _ => none⟩

def readyToRun (k : Kernel T L C) (threads : List T) : Kernel T L C :=
  { k with readyList := k.readyList ++ threads }

def fallAsleep (k : Kernel T L C) (t : T) (call : Inside L C) : Kernel T L C :=
  { k with currentThread := none, inside := Function.update k.inside t (some call) }

def setLock (k : Kernel T L C) (lock : L) (l : Lock T) : Kernel T L C :=
  { k with locks := Function.update k.locks lock l }

def setCondition (k : Kernel T L C) (condition : C) (c : Condition T L) : Kernel T L C :=
  { k with conditions := Function.update k.conditions condition c }

/-- `Acquire` by the current thread `t`, which sleeps inside this call. -/
def acquire (k : Kernel T L C) (t : T) (lock : L) (call : Inside L C) : Kernel T L C :=
  let r := (k.locks lock).acquire t
  if r.2 then (k.setLock lock r.1).fallAsleep t call else k.setLock lock r.1

def release (k : Kernel T L C) (t : T) (lock : L) : Kernel T L C × List T :=
  let r := (k.locks lock).release t
  ((k.setLock lock r.1).readyToRun r.2.toList, r.2.toList)

def wait (k : Kernel T L C) (t : T) (condition : C) (conditionLock : Option L) :
    Kernel T L C × List T :=
  let r := (k.conditions condition).wait k.locks conditionLock t
  let k := ({ k with locks := r.2.1 }.setCondition condition r.1).readyToRun r.2.2.1.toList
  (match r.2.2.2 with
    | some lock => k.fallAsleep t (.wait condition lock)
    | none => k, r.2.2.1.toList)

def signal (k : Kernel T L C) (t : T) (condition : C) (conditionLock : Option L) :
    Kernel T L C × List T :=
  let r := (k.conditions condition).signal k.locks conditionLock t
  ((k.setCondition condition r.1).readyToRun r.2.toList, r.2.toList)

def broadcast (k : Kernel T L C) (t : T) (condition : C) (conditionLock : Option L) :
    Option (Kernel T L C × List T) :=
  ((k.conditions condition).broadcast k.locks conditionLock t).map fun r =>
    ((k.setCondition condition r.1).readyToRun r.2, r.2)

/-- The thread that gets the CPU leaves its `Acquire`, or goes on inside its `Wait`. -/
def dispatch (k : Kernel T L C) (t : T) : Kernel T L C :=
  let k' : Kernel T L C :=
    { k with readyList := k.readyList.erase t ++ k.currentThread.toList
             currentThread := some t
             inside := Function.update k.inside t none }
  match k.inside t with
  | some (.wait condition lock) => k'.acquire t lock (.reacquire condition lock)
  | _ => k'

end Kernel

/-- One step, with the threads that it puts on the ready list. -/
def kernel (k : Kernel T L C) (a : Action T L C) : Except Refusal (Kernel T L C × List T) :=
  match a, k.currentThread with
  | .acquire lock, some t => .ok (k.acquire t lock (.acquire lock), [])
  | .release lock, some t => .ok (k.release t lock)
  | .wait condition conditionLock, some t => .ok (k.wait t condition conditionLock)
  | .signal condition conditionLock, some t => .ok (k.signal t condition conditionLock)
  | .broadcast condition conditionLock, some t =>
    match k.broadcast t condition conditionLock with
    | some r => .ok r
    | none => .error .endlessLoop
  | .sleep, some _ => .ok ({ k with currentThread := none }, [])
  | .dispatch t, _ =>
    if t ∈ k.readyList then .ok (k.dispatch t, k.currentThread.toList) else .error .notPossible
  | .wake t, _ =>
    if t ∉ k.readyList ∧ k.currentThread ≠ some t ∧ k.inside t = none then
      .ok (k.readyToRun [t], [t])
    else .error .notPossible
  | _, none => .error .notPossible

abbrev KernelStep (T L C : Type*) := Transition (Kernel T L C) (Action T L C × List T)

variable {k k' : Kernel T L C} {a : Action T L C} {t u : T} {l lock : L} {c : C} {out : List T}

namespace Kernel

omit [DecidableEq T] [DecidableEq L] [DecidableEq C] in
@[simp] theorem readyToRun_nil (k : Kernel T L C) : k.readyToRun [] = k := by
  simp [readyToRun]

omit [DecidableEq T] [DecidableEq C] in
@[simp] theorem setLock_self (k : Kernel T L C) (l : L) : k.setLock l (k.locks l) = k := by
  simp [setLock]

omit [DecidableEq T] [DecidableEq L] in
@[simp] theorem setCondition_self (k : Kernel T L C) (c : C) :
    k.setCondition c (k.conditions c) = k := by
  simp [setCondition]

/-- The thread joins a condition bound to the lock and sleeps. -/
def enqueue (k : Kernel T L C) (t : T) (c : C) (lock : L) : Kernel T L C :=
  (k.setCondition c ⟨(k.conditions c).queue ++ [t], some lock⟩).fallAsleep t (.wait c lock)

/-- The first waiters become ready, and these are left. -/
def wakeWaiters (k : Kernel T L C) (c : C) (lock : L) (threads rest : List T) : Kernel T L C :=
  (k.setCondition c ⟨rest, if rest = [] then none else some lock⟩).readyToRun threads

end Kernel

/-- The cases of a step. -/
inductive KernelMove (k : Kernel T L C) : Action T L C → Kernel T L C → List T → Prop
  | acquire {t : T} {lock : L} (ht : k.currentThread = some t) :
      KernelMove k (.acquire lock) (k.acquire t lock (.acquire lock)) []
  | release {t : T} {lock : L} (ht : k.currentThread = some t) :
      KernelMove k (.release lock) (k.release t lock).1 (k.release t lock).2
  | waited {t : T} {c : C} {lock : L} (ht : k.currentThread = some t)
      (hc : (k.conditions c).Accepts k.locks lock t) :
      KernelMove k (.wait c (some lock)) ((k.release t lock).1.enqueue t c lock)
        (k.release t lock).2
  /-- a rejected `Wait` with a lock may still bind the condition -/
  | bound {t : T} {c : C} {lock : L} (ht : k.currentThread = some t)
      (hc : ¬ (k.conditions c).Accepts k.locks lock t) :
      KernelMove k (.wait c (some lock))
        (k.setCondition c { k.conditions c with
          waitingLock := some ((k.conditions c).waitingLock.getD lock) }) []
  | refused {t : T} {c : C} {a : Action T L C} (ht : k.currentThread = some t)
      (ha : a = .wait c none ∨ ∃ conditionLock, (a = .signal c conditionLock ∨
        a = .broadcast c conditionLock) ∧
        ∀ lock, conditionLock = some lock → ¬ (k.conditions c).Wakes k.locks lock t) :
      KernelMove k a k []
  | signalled {t u : T} {c : C} {lock : L} {rest : List T} (ht : k.currentThread = some t)
      (hw : (k.conditions c).Wakes k.locks lock t) (hq : (k.conditions c).queue = u :: rest) :
      KernelMove k (.signal c (some lock)) (k.wakeWaiters c lock [u] rest) [u]
  | broadcast {t : T} {c : C} {lock : L} (ht : k.currentThread = some t)
      (hw : (k.conditions c).Wakes k.locks lock t) :
      KernelMove k (.broadcast c (some lock))
        (k.wakeWaiters c lock (k.conditions c).queue []) (k.conditions c).queue
  | slept {t : T} (ht : k.currentThread = some t) :
      KernelMove k .sleep { k with currentThread := none } []
  | dispatched {t : T} (ht : t ∈ k.readyList) :
      KernelMove k (.dispatch t) (k.dispatch t) k.currentThread.toList
  | woken {t : T} (hr : t ∉ k.readyList) (hc : k.currentThread ≠ some t)
      (hi : k.inside t = none) : KernelMove k (.wake t) (k.readyToRun [t]) [t]

theorem wait_move (c : C) (conditionLock : Option L) (ht : k.currentThread = some t) :
    KernelMove k (.wait c conditionLock) (k.wait t c conditionLock).1
      (k.wait t c conditionLock).2 := by
  cases conditionLock with
  | none =>
    have hk : k.wait t c none = (k, []) := by simp [Kernel.wait]
    rw [hk]
    exact .refused ht (Or.inl rfl)
  | some lock =>
    by_cases hc : (k.conditions c).Accepts k.locks lock t
    · have hk : k.wait t c (some lock) =
          ((k.release t lock).1.enqueue t c lock, (k.release t lock).2) := by
        simp only [Kernel.wait, Condition.wait_accepted hc]
        rfl
      rw [hk]
      exact .waited ht hc
    · have hk : k.wait t c (some lock) =
          (k.setCondition c { k.conditions c with
            waitingLock := some ((k.conditions c).waitingLock.getD lock) }, []) := by
        simp [Kernel.wait, Condition.wait_rejected hc]
      rw [hk]
      exact .bound ht hc

theorem signal_move (c : C) (conditionLock : Option L) (ht : k.currentThread = some t) :
    KernelMove k (.signal c conditionLock) (k.signal t c conditionLock).1
      (k.signal t c conditionLock).2 := by
  cases conditionLock with
  | none =>
    have hk : k.signal t c none = (k, []) := by simp [Kernel.signal]
    rw [hk]
    exact .refused ht (Or.inr ⟨none, Or.inl rfl, by simp⟩)
  | some lock =>
    by_cases hw : (k.conditions c).Wakes k.locks lock t
    · obtain ⟨u, rest, hq⟩ := List.exists_cons_of_ne_nil hw.1
      have hk : k.signal t c (some lock) = (k.wakeWaiters c lock [u] rest, [u]) := by
        simp only [Kernel.signal, Condition.signal_wakes hq hw.2.1 hw.2.2]
        rfl
      rw [hk]
      exact .signalled ht hw hq
    · have hk : k.signal t c (some lock) = (k, []) := by
        simp [Kernel.signal, Condition.signal_rejected hw]
      rw [hk]
      refine .refused ht (Or.inr ⟨some lock, Or.inl rfl, ?_⟩)
      rintro _ ⟨⟩
      exact hw

/-- `Broadcast` always comes to its end. -/
theorem broadcast_move (c : C) (conditionLock : Option L) (ht : k.currentThread = some t) :
    ∃ k' out, k.broadcast t c conditionLock = some (k', out) ∧
      KernelMove k (.broadcast c conditionLock) k' out := by
  cases conditionLock with
  | none =>
    refine ⟨k, [], by simp [Kernel.broadcast], ?_⟩
    exact .refused ht (Or.inr ⟨none, Or.inr rfl, by simp⟩)
  | some lock =>
    by_cases hw : (k.conditions c).Wakes k.locks lock t
    · refine ⟨k.wakeWaiters c lock (k.conditions c).queue [], _, ?_, .broadcast ht hw⟩
      simp only [Kernel.broadcast, Condition.broadcast_wakes hw, Option.map_some]
      rfl
    · refine ⟨k, [], by simp [Kernel.broadcast, Condition.broadcast_rejected hw], ?_⟩
      refine .refused ht (Or.inr ⟨some lock, Or.inr rfl, ?_⟩)
      rintro _ ⟨⟩
      exact hw

theorem kernel_move (h : kernel k a = .ok (k', out)) : KernelMove k a k' out := by
  unfold kernel at h
  split at h
  case h_1 _ lock t ht =>
    obtain ⟨rfl, rfl⟩ := Prod.mk.inj (Except.ok.inj h)
    exact .acquire ht
  case h_2 _ lock t ht =>
    obtain ⟨rfl, rfl⟩ := Prod.mk.inj (Except.ok.inj h)
    exact .release ht
  case h_3 _ c conditionLock t ht =>
    obtain ⟨rfl, rfl⟩ := Prod.mk.inj (Except.ok.inj h)
    exact wait_move c conditionLock ht
  case h_4 _ c conditionLock t ht =>
    obtain ⟨rfl, rfl⟩ := Prod.mk.inj (Except.ok.inj h)
    exact signal_move c conditionLock ht
  case h_5 _ c conditionLock t ht =>
    obtain ⟨k'', out', hb, hm⟩ := broadcast_move c conditionLock ht
    simp only [hb] at h
    obtain ⟨rfl, rfl⟩ := Prod.mk.inj (Except.ok.inj h)
    exact hm
  case h_6 _ t ht =>
    obtain ⟨rfl, rfl⟩ := Prod.mk.inj (Except.ok.inj h)
    exact .slept ht
  case h_7 _ _ t =>
    split_ifs at h with ht
    obtain ⟨rfl, rfl⟩ := Prod.mk.inj (Except.ok.inj h)
    exact .dispatched ht
  case h_8 _ _ t =>
    split_ifs at h with ht
    obtain ⟨rfl, rfl⟩ := Prod.mk.inj (Except.ok.inj h)
    exact .woken ht.1 ht.2.1 ht.2.2
  case h_9 => cases h

/-- Every thread is in one place: it runs, is on the ready list, queues for the lock of the
`Acquire` it is inside, or queues on the condition of its `Wait`. A ready thread inside an
`Acquire` has been given the lock. -/
structure Placed (k : Kernel T L C) : Prop where
  running : ∀ t, k.currentThread = some t → k.inside t = none ∧ t ∉ k.readyList
  ready : k.readyList.Nodup
  settled : ∀ l, (k.locks l).Settled
  lockQueue : ∀ l, (k.locks l).queue.Nodup
  queued : ∀ l, ∀ t ∈ (k.locks l).queue, t ∉ k.readyList ∧
    ∃ call, k.inside t = some call ∧ call.acquiring = some l
  conditionQueue : ∀ c, (k.conditions c).queue.Nodup
  waiting : ∀ c, ∀ t ∈ (k.conditions c).queue, t ∉ k.readyList ∧
    ∃ l, k.inside t = some (.wait c l) ∧ (k.conditions c).waitingLock = some l
  granted : ∀ t ∈ k.readyList, ∀ call l, k.inside t = some call → call.acquiring = some l →
    (k.locks l).threadWithPossession = some t ∧ (k.locks l).state = .busy

namespace Placed

omit [DecidableEq T] [DecidableEq L] [DecidableEq C] in
theorem initial (possession : L → Option T) (binding : C → Option L) :
    Placed (Kernel.initial possession binding) := by
  constructor <;> simp [Kernel.initial, Lock.new, Condition.new, Lock.Settled]

omit [DecidableEq T] [DecidableEq L] [DecidableEq C] in
theorem ne_of_inside (h : Placed k) (ht : k.inside t = none) (hu : u ∈ (k.locks l).queue) :
    u ≠ t := by
  rintro rfl
  obtain ⟨-, call, hcall, -⟩ := h.queued l u hu
  simp [ht] at hcall

omit [DecidableEq T] [DecidableEq L] [DecidableEq C] in
theorem ne_of_inside' (h : Placed k) (ht : k.inside t = none)
    (hu : u ∈ (k.conditions c).queue) : u ≠ t := by
  rintro rfl
  obtain ⟨-, lock, hcall, -⟩ := h.waiting c u hu
  simp [ht] at hcall

omit [DecidableEq C] in
theorem acquire (h : Placed k) (ht : k.currentThread = some t) {call : Inside L C}
    (hcall : call.acquiring = some lock) : Placed (k.acquire t lock call) := by
  obtain ⟨hin, hr⟩ := h.running t ht
  rcases Lock.acquire_cases (k.locks lock) t with ⟨-, he⟩ | ⟨ho, hs, he⟩ | ⟨ho, hs, he⟩
  · have hk : k.acquire t lock call = k := by simp [Kernel.acquire, he]
    rwa [hk]
  · simp only [Kernel.acquire, he, Bool.false_eq_true, if_false, Kernel.setLock]
    have hlock : ∀ l, (Function.update k.locks lock { k.locks lock with
        state := .busy, threadWithPossession := some t } l).queue = (k.locks l).queue := by
      intro l
      by_cases hl : l = lock
      · subst hl
        simp
      · simp [hl]
    refine ⟨h.running, h.ready, fun l => ?_, fun l => ?_, fun l u hu => ?_, h.conditionQueue,
      h.waiting, fun u hu call' l hc hl => ?_⟩
    · by_cases hl : l = lock
      · subst hl
        simp [Lock.Settled]
      · simpa [hl] using h.settled l
    · simpa only [hlock] using h.lockQueue l
    · simp only [hlock] at hu
      exact h.queued l u hu
    · have hg := h.granted u hu call' l hc hl
      by_cases hll : l = lock
      · subst hll
        simp [hs] at hg
      · simpa [hll] using hg
  · simp only [Kernel.acquire, he, if_true, Kernel.setLock, Kernel.fallAsleep]
    refine ⟨by simp, h.ready, fun l => ?_, fun l => ?_, fun l u hu => ?_, h.conditionQueue,
      fun c u hu => ?_, fun u hu call' l hc hl => ?_⟩
    · by_cases hl : l = lock
      · subst hl
        simp [Lock.Settled, hs]
      · simpa [hl] using h.settled l
    · by_cases hl : l = lock
      · subst hl
        have hnot : t ∉ (k.locks l).queue := fun hm => h.ne_of_inside hin hm rfl
        simpa using List.Nodup.append (h.lockQueue l) (List.nodup_singleton t) (by simpa using hnot)
      · simpa [hl] using h.lockQueue l
    · by_cases hut : u = t
      · subst hut
        refine ⟨hr, call, by simp, ?_⟩
        by_cases hl : l = lock
        · rw [hl, hcall]
        · have hu' : u ∈ (k.locks l).queue := by simpa [hl] using hu
          exact absurd rfl (h.ne_of_inside hin hu')
      · have hu' : u ∈ (k.locks l).queue := by
          by_cases hl : l = lock
          · subst hl
            simpa [hut] using hu
          · simpa [hl] using hu
        simpa [hut] using h.queued l u hu'
    · simpa [h.ne_of_inside' hin hu] using h.waiting c u hu
    · have hut : u ≠ t := fun hut => hr (hut ▸ hu)
      have hg := h.granted u hu call' l (by simpa [hut] using hc) hl
      by_cases hll : l = lock
      · subst hll
        simpa using hg
      · simpa [hll] using hg

omit [DecidableEq C] in
theorem release (h : Placed k) (ht : k.currentThread = some t) :
    Placed (k.release t lock).1 := by
  obtain ⟨hin, hr⟩ := h.running t ht
  rcases Lock.release_cases (k.locks lock) t with ⟨-, he⟩ | ⟨ho, u, rest, hq, he⟩ | ⟨ho, hq, he⟩
  · have hk : (k.release t lock).1 = k := by simp [Kernel.release, he]
    rwa [hk]
  · simp only [Kernel.release, he, Option.toList_some, Kernel.setLock, Kernel.readyToRun]
    have hu : u ∈ (k.locks lock).queue := by simp [hq]
    obtain ⟨hur, call, hcall, hacq⟩ := h.queued lock u hu
    have hnd := h.lockQueue lock
    rw [hq, List.nodup_cons] at hnd
    have hmem : ∀ l, ∀ v ∈ (Function.update k.locks lock { k.locks lock with
        queue := rest, threadWithPossession := some u } l).queue,
        v ∈ (k.locks l).queue ∧ v ≠ u := by
      intro l v hv
      by_cases hl : l = lock
      · subst hl
        have hv : v ∈ rest := by simpa using hv
        exact ⟨by simp [hq, hv], fun hvu => hnd.1 (hvu ▸ hv)⟩
      · have hv : v ∈ (k.locks l).queue := by simpa [hl] using hv
        refine ⟨hv, fun hvu => hl ?_⟩
        obtain ⟨-, call', hcall', hacq'⟩ := h.queued l v hv
        rw [hvu, hcall, Option.some.injEq] at hcall'
        rw [← hcall', hacq, Option.some.injEq] at hacq'
        exact hacq'.symm
    refine ⟨fun v hv => ?_, ?_, fun l => ?_, fun l => ?_, fun l v hv => ?_, h.conditionQueue,
      fun c v hv => ?_, fun v hv call' l hc hl => ?_⟩
    · obtain ⟨hv1, hv2⟩ := h.running v hv
      refine ⟨hv1, ?_⟩
      simp only [List.mem_append, List.mem_singleton, not_or]
      exact ⟨hv2, (h.ne_of_inside hv1 hu).symm⟩
    · exact h.ready.append (List.nodup_singleton u) (by simpa using hur)
    · by_cases hl : l = lock
      · subst hl
        have hs := h.settled l
        intro hfree
        have := hs (by simpa using hfree)
        simp [hq] at this
      · simpa [hl] using h.settled l
    · by_cases hl : l = lock
      · subst hl
        simpa using hnd.2
      · simpa [hl] using h.lockQueue l
    · obtain ⟨hv', hvu⟩ := hmem l v hv
      obtain ⟨hvr, hx⟩ := h.queued l v hv'
      exact ⟨by simp [hvr, hvu], hx⟩
    · obtain ⟨hvr, lock', hx, hw⟩ := h.waiting c v hv
      refine ⟨?_, lock', hx, hw⟩
      simp only [List.mem_append, List.mem_singleton, not_or]
      refine ⟨hvr, fun hvu => ?_⟩
      rw [hvu, hcall, Option.some.injEq] at hx
      simp [hx, Inside.acquiring] at hacq
    · rcases List.mem_append.mp hv with hready | hready
      · have hg := h.granted v hready call' l hc hl
        by_cases hll : l = lock
        · subst hll
          obtain rfl := Option.some.inj (ho.symm.trans hg.1)
          exact absurd hready hr
        · simpa [hll] using hg
      · obtain rfl := List.mem_singleton.mp hready
        obtain rfl := Option.some.inj (hcall.symm.trans hc)
        obtain rfl := Option.some.inj (hacq.symm.trans hl)
        have hbusy : (k.locks lock).state = .busy := by
          cases hs : (k.locks lock).state with
          | busy => rfl
          | free =>
            have := h.settled lock hs
            simp [hq] at this
        simp [hbusy]
  · simp only [Kernel.release, he, Option.toList_none, Kernel.setLock, Kernel.readyToRun,
      List.append_nil]
    have hlock : ∀ l, (Function.update k.locks lock { k.locks lock with
        state := .free, threadWithPossession := none } l).queue = (k.locks l).queue := by
      intro l
      by_cases hl : l = lock
      · subst hl
        simp
      · simp [hl]
    refine ⟨h.running, h.ready, fun l => ?_, fun l => ?_, fun l v hv => ?_, h.conditionQueue,
      h.waiting, fun v hv call' l hc hl => ?_⟩
    · by_cases hl : l = lock
      · subst hl
        simp [Lock.Settled, hq]
      · simpa [hl] using h.settled l
    · simpa only [hlock] using h.lockQueue l
    · simp only [hlock] at hv
      exact h.queued l v hv
    · have hg := h.granted v hv call' l hc hl
      by_cases hll : l = lock
      · subst hll
        obtain rfl := Option.some.inj (ho.symm.trans hg.1)
        exact absurd hv hr
      · simpa [hll] using hg

omit [DecidableEq T] [DecidableEq L] in
/-- A change of one condition that keeps everybody's place. -/
theorem setCondition (h : Placed k) {q : Condition T L} (hq : q.queue.Nodup)
    (hw : ∀ t ∈ q.queue, t ∉ k.readyList ∧ ∃ l, k.inside t = some (.wait c l) ∧
      q.waitingLock = some l) : Placed (k.setCondition c q) := by
  refine ⟨h.running, h.ready, h.settled, h.lockQueue, h.queued, fun c' => ?_, fun c' u hu => ?_,
    h.granted⟩
  · by_cases hc : c' = c
    · subst hc
      simpa [Kernel.setCondition] using hq
    · simpa [Kernel.setCondition, hc] using h.conditionQueue c'
  · by_cases hc : c' = c
    · subst hc
      simp only [Kernel.setCondition, Function.update_self] at hu ⊢
      exact hw u hu
    · simp only [Kernel.setCondition, Function.update_of_ne hc] at hu ⊢
      exact h.waiting c' u hu

omit [DecidableEq L] in
/-- `Wait` puts its thread to sleep on the condition. -/
theorem enqueue (h : Placed k) (ht : k.currentThread = some t)
    (hc : (k.conditions c).waitingLock = none ∨ (k.conditions c).waitingLock = some lock) :
    Placed (k.enqueue t c lock) := by
  obtain ⟨hin, hr⟩ := h.running t ht
  have hnot : ∀ c', t ∉ (k.conditions c').queue := fun c' hm => h.ne_of_inside' hin hm rfl
  refine ⟨by simp [Kernel.enqueue, Kernel.fallAsleep], h.ready, h.settled, h.lockQueue,
    fun l u hu => ?_, fun c' => ?_, fun c' u hu => ?_, fun u hu call l hcall hl => ?_⟩
  · simpa [Kernel.enqueue, Kernel.fallAsleep, Kernel.setCondition, h.ne_of_inside hin hu]
      using h.queued l u hu
  · by_cases he : c' = c
    · subst he
      simpa [Kernel.enqueue, Kernel.fallAsleep, Kernel.setCondition] using
        (h.conditionQueue c').append (List.nodup_singleton t) (by simpa using hnot c')
    · simpa [Kernel.enqueue, Kernel.fallAsleep, Kernel.setCondition, he] using h.conditionQueue c'
  · by_cases hut : u = t
    · subst hut
      have he : c' = c := by
        by_contra he
        refine hnot c' ?_
        simpa [Kernel.enqueue, Kernel.fallAsleep, Kernel.setCondition, he] using hu
      subst he
      exact ⟨hr, lock, by simp [Kernel.enqueue, Kernel.fallAsleep, Kernel.setCondition]⟩
    · by_cases he : c' = c
      · subst he
        have hu' : u ∈ (k.conditions c').queue := by
          simpa [Kernel.enqueue, Kernel.fallAsleep, Kernel.setCondition, hut] using hu
        obtain ⟨hur, l, hl, hw⟩ := h.waiting c' u hu'
        refine ⟨hur, lock, ?_, by simp [Kernel.enqueue, Kernel.fallAsleep, Kernel.setCondition]⟩
        rw [hw] at hc
        simp only [reduceCtorEq, Option.some.injEq, false_or] at hc
        simpa [Kernel.enqueue, Kernel.fallAsleep, Kernel.setCondition, hut, ← hc] using hl
      · have hu' : u ∈ (k.conditions c').queue := by
          simpa [Kernel.enqueue, Kernel.fallAsleep, Kernel.setCondition, he] using hu
        simpa [Kernel.enqueue, Kernel.fallAsleep, Kernel.setCondition, he, hut] using
          h.waiting c' u hu'
  · have hut : u ≠ t := by
      rintro rfl
      exact hr hu
    refine h.granted u hu call l ?_ hl
    simpa [Kernel.enqueue, Kernel.fallAsleep, Kernel.setCondition, hut] using hcall

omit [DecidableEq T] [DecidableEq L] in
theorem wakeWaiters (h : Placed k) {threads rest : List T}
    (hq : (k.conditions c).queue = threads ++ rest)
    (hw : (k.conditions c).waitingLock = some lock) :
    Placed (k.wakeWaiters c lock threads rest) := by
  have hnd := h.conditionQueue c
  rw [hq, List.nodup_append] at hnd
  obtain ⟨hthreads, hrest, hdisj⟩ := hnd
  have hmem : ∀ u ∈ threads ++ rest, u ∉ k.readyList ∧ k.inside u = some (.wait c lock) := by
    intro u hu
    obtain ⟨hur, l, hl, hwl⟩ := h.waiting c u (hq ▸ hu)
    obtain rfl := Option.some.inj (hw.symm.trans hwl)
    exact ⟨hur, hl⟩
  have hset : Placed (k.setCondition c ⟨rest, if rest = [] then none else some lock⟩) := by
    refine h.setCondition hrest fun u hu => ?_
    obtain ⟨hur, hl⟩ := hmem u (by simp only [List.mem_append]; exact Or.inr hu)
    exact ⟨hur, lock, hl, by simp [List.ne_nil_of_mem hu]⟩
  refine ⟨fun u hu => ?_, ?_, hset.settled, hset.lockQueue, fun l u hu => ?_,
    hset.conditionQueue, fun c' u hu => ?_, fun u hu call l hcall hl => ?_⟩
  · obtain ⟨hin, hr⟩ := hset.running u hu
    refine ⟨hin, fun hm => ?_⟩
    rcases List.mem_append.mp hm with hm | hm
    · exact hr hm
    · have := (hmem u (by simp [hm])).2
      simp [show k.inside u = none from hin] at this
  · refine h.ready.append hthreads fun u hu hu' => ?_
    exact (hmem u (by simp [hu'])).1 hu
  · obtain ⟨hur, call, hcall, hacq⟩ := hset.queued l u hu
    refine ⟨fun hm => ?_, call, hcall, hacq⟩
    rcases List.mem_append.mp hm with hm | hm
    · exact hur hm
    · obtain rfl := Option.some.inj ((hmem u (by simp [hm])).2.symm.trans hcall)
      simp [Inside.acquiring] at hacq
  · obtain ⟨hur, l, hl, hwl⟩ := hset.waiting c' u hu
    refine ⟨fun hm => ?_, l, hl, hwl⟩
    rcases List.mem_append.mp hm with hm | hm
    · exact hur hm
    · have he := Option.some.inj ((hmem u (by simp [hm])).2.symm.trans hl)
      obtain ⟨rfl, -⟩ := Inside.wait.inj he
      have hu' : u ∈ rest := by
        simpa [Kernel.wakeWaiters, Kernel.readyToRun, Kernel.setCondition] using hu
      exact hdisj u hm u hu' rfl
  · rcases List.mem_append.mp hu with hu | hu
    · exact hset.granted u hu call l hcall hl
    · obtain rfl := Option.some.inj ((hmem u (by simp [hu])).2.symm.trans hcall)
      simp [Inside.acquiring] at hl

omit [DecidableEq C] in
theorem dispatch (h : Placed k) (ht : t ∈ k.readyList) : Placed (k.dispatch t) := by
  have hcur : k.currentThread ≠ some t := fun hc => (h.running t hc).2 ht
  have hbase : Placed { k with
      readyList := k.readyList.erase t ++ k.currentThread.toList
      currentThread := some t
      inside := Function.update k.inside t none } := by
    have hne : ∀ u, u ∈ k.readyList.erase t ++ k.currentThread.toList →
        u ≠ t ∧ (u ∈ k.readyList ∨ k.inside u = none) := by
      intro u hu
      rcases List.mem_append.mp hu with hu | hu
      · obtain ⟨hut, hu⟩ := h.ready.mem_erase_iff.mp hu
        exact ⟨hut, Or.inl hu⟩
      · have hu : k.currentThread = some u := by simpa using hu
        exact ⟨fun hut => hcur (hut ▸ hu), Or.inr (h.running u hu).1⟩
    refine ⟨?_, ?_, h.settled, h.lockQueue, fun l u hu => ?_, h.conditionQueue, fun c u hu => ?_,
      fun u hu call l hcall hl => ?_⟩
    · rintro u ⟨⟩
      exact ⟨by simp, fun hm => (hne t hm).1 rfl⟩
    · refine (h.ready.erase t).append ?_ fun u hu hu' => ?_
      · cases k.currentThread <;> simp
      · have hu' : k.currentThread = some u := by simpa using hu'
        exact (h.running u hu').2 (List.mem_of_mem_erase hu)
    · obtain ⟨hur, call, hcall, hacq⟩ := h.queued l u hu
      have hut : u ≠ t := fun hut => hur (hut ▸ ht)
      refine ⟨fun hm => ?_, call, by simpa [hut] using hcall, hacq⟩
      rcases (hne u hm).2 with hm | hm
      · exact hur hm
      · simp [hm] at hcall
    · obtain ⟨hur, l, hl, hw⟩ := h.waiting c u hu
      have hut : u ≠ t := fun hut => hur (hut ▸ ht)
      refine ⟨fun hm => ?_, l, by simpa [hut] using hl, hw⟩
      rcases (hne u hm).2 with hm | hm
      · exact hur hm
      · simp [hm] at hl
    · obtain ⟨hut, hu'⟩ := hne u hu
      have hcall : k.inside u = some call := by simpa [hut] using hcall
      rcases hu' with hu' | hu'
      · exact h.granted u hu' call l hcall hl
      · simp [hu'] at hcall
  unfold Kernel.dispatch
  dsimp only
  split
  · exact hbase.acquire rfl rfl
  · exact hbase

omit [DecidableEq T] [DecidableEq L] [DecidableEq C] in
theorem slept (h : Placed k) : Placed { k with currentThread := none } :=
  ⟨by simp, h.ready, h.settled, h.lockQueue, h.queued, h.conditionQueue, h.waiting, h.granted⟩

omit [DecidableEq T] [DecidableEq L] [DecidableEq C] in
theorem woken (h : Placed k) (hr : t ∉ k.readyList) (hc : k.currentThread ≠ some t)
    (hi : k.inside t = none) : Placed (k.readyToRun [t]) := by
  refine ⟨fun u hu => ?_, ?_, h.settled, h.lockQueue, fun l u hu => ?_, h.conditionQueue,
    fun c u hu => ?_, fun u hu call l hcall hl => ?_⟩
  · obtain ⟨hin, hur⟩ := h.running u hu
    have hut : u ≠ t := fun hut => hc (hut ▸ hu)
    exact ⟨hin, by simp [Kernel.readyToRun, hur, hut]⟩
  · exact h.ready.append (List.nodup_singleton t) (by simpa using hr)
  · obtain ⟨hur, hcall⟩ := h.queued l u hu
    exact ⟨by simp [Kernel.readyToRun, hur, h.ne_of_inside hi hu], hcall⟩
  · obtain ⟨hur, hl⟩ := h.waiting c u hu
    exact ⟨by simp [Kernel.readyToRun, hur, h.ne_of_inside' hi hu], hl⟩
  · rcases List.mem_append.mp hu with hu | hu
    · exact h.granted u hu call l hcall hl
    · obtain rfl := List.mem_singleton.mp hu
      have hcall : k.inside u = some call := hcall
      simp [hi] at hcall

/-- Every step keeps everybody in one place. -/
theorem step (h : Placed k) (hm : KernelMove k a k' out) : Placed k' := by
  cases hm with
  | acquire ht => exact h.acquire ht rfl
  | release ht => exact h.release ht
  | waited ht hc =>
    refine (h.release ht).enqueue ?_ hc.1
    exact ht
  | @bound t c lock ht hc =>
    refine h.setCondition (h.conditionQueue c) fun u hu => ?_
    obtain ⟨hur, l, hl, hw⟩ := h.waiting c u hu
    exact ⟨hur, l, hl, by simp [hw]⟩
  | refused => exact h
  | signalled ht hw hq => exact h.wakeWaiters (by simpa using hq) hw.2.1
  | broadcast ht hw => exact h.wakeWaiters (by simp) hw.2.1
  | slept => exact h.slept
  | dispatched ht => exact h.dispatch ht
  | woken hr hc hi => exact h.woken hr hc hi

end Placed

end Nachos.Threads
