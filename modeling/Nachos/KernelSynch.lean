import Nachos.FifoMutex

/-! The locks and condition variables of the kernel, `threads/synch.cc`. Interrupts are
off inside each call, so a call is one step up to its `Sleep`. A thread that goes on the
ready list is part of the result. -/
namespace Nachos.Threads

inductive LockStatus
  | busy
  | free
  deriving DecidableEq, Repr

structure Lock (T : Type*) where
  state : LockStatus
  queue : List T
  threadWithPossession : Option T
  deriving DecidableEq, Repr

namespace Lock
variable {T : Type*} [DecidableEq T]

/-- The constructor does not set the owner, so it is what the memory held before. -/
def new (memory : Option T) : Lock T := ⟨.free, [], memory⟩

def isHeldByCurrentThread (l : Lock T) (currentThread : T) : Bool :=
  l.threadWithPossession = some currentThread

def isBusy (l : Lock T) : Bool := l.state = .busy

/-- The flag tells whether the thread sleeps in the queue. -/
def acquire (l : Lock T) (currentThread : T) : Lock T × Bool :=
  if l.isHeldByCurrentThread currentThread then (l, false)
  else if l.state = .free then
    ({ l with state := .busy, threadWithPossession := some currentThread }, false)
  else ({ l with queue := l.queue ++ [currentThread] }, true)

/-- With the thread that is made ready, if any. -/
def release (l : Lock T) (currentThread : T) : Lock T × Option T :=
  if ¬ l.isHeldByCurrentThread currentThread then (l, none)
  else
    match l.queue with
    | thread :: rest => ({ l with queue := rest, threadWithPossession := some thread }, some thread)
    | [] => ({ l with state := .free, threadWithPossession := none }, none)

/-- Nobody queues for a lock that is free. -/
def Settled (l : Lock T) : Prop := l.state = .free → l.queue = []

/-- BUSY means owned. -/
structure Valid (l : Lock T) : Prop where
  busy_iff : l.state = .busy ↔ l.threadWithPossession.isSome
  settled : l.Settled

@[simp] theorem isHeldByCurrentThread_iff (l : Lock T) (t : T) :
    l.isHeldByCurrentThread t = true ↔ l.threadWithPossession = some t := by
  simp [isHeldByCurrentThread]

theorem acquire_held {l : Lock T} {t : T} (h : l.threadWithPossession = some t) :
    l.acquire t = (l, false) := by
  simp [acquire, h]

theorem acquire_free {l : Lock T} {t : T} (h : l.threadWithPossession ≠ some t)
    (hs : l.state = .free) :
    l.acquire t = ({ l with state := .busy, threadWithPossession := some t }, false) := by
  simp [acquire, h, hs]

theorem acquire_queued {l : Lock T} {t : T} (h : l.threadWithPossession ≠ some t)
    (hs : l.state = .busy) : l.acquire t = ({ l with queue := l.queue ++ [t] }, true) := by
  simp [acquire, h, hs]

theorem release_rejected {l : Lock T} {t : T} (h : l.threadWithPossession ≠ some t) :
    l.release t = (l, none) := by
  simp [release, h]

theorem release_handed {l : Lock T} {t u : T} {rest : List T}
    (h : l.threadWithPossession = some t) (hq : l.queue = u :: rest) :
    l.release t = ({ l with queue := rest, threadWithPossession := some u }, some u) := by
  simp [release, h, hq]

theorem release_freed {l : Lock T} {t : T} (h : l.threadWithPossession = some t)
    (hq : l.queue = []) :
    l.release t = ({ l with state := .free, threadWithPossession := none }, none) := by
  simp [release, h, hq]

/-- The three ways through `Acquire`. -/
theorem acquire_cases (l : Lock T) (t : T) :
    (l.threadWithPossession = some t ∧ l.acquire t = (l, false)) ∨
    (l.threadWithPossession ≠ some t ∧ l.state = .free ∧
      l.acquire t = ({ l with state := .busy, threadWithPossession := some t }, false)) ∨
    (l.threadWithPossession ≠ some t ∧ l.state = .busy ∧
      l.acquire t = ({ l with queue := l.queue ++ [t] }, true)) := by
  by_cases h : l.threadWithPossession = some t
  · exact Or.inl ⟨h, acquire_held h⟩
  · by_cases hs : l.state = .free
    · exact Or.inr (Or.inl ⟨h, hs, acquire_free h hs⟩)
    · have hb : l.state = .busy := by cases hl : l.state <;> simp_all
      exact Or.inr (Or.inr ⟨h, hb, acquire_queued h hb⟩)

/-- The three ways through `Release`. -/
theorem release_cases (l : Lock T) (t : T) :
    (l.threadWithPossession ≠ some t ∧ l.release t = (l, none)) ∨
    (l.threadWithPossession = some t ∧ ∃ u rest, l.queue = u :: rest ∧
      l.release t = ({ l with queue := rest, threadWithPossession := some u }, some u)) ∨
    (l.threadWithPossession = some t ∧ l.queue = [] ∧
      l.release t = ({ l with state := .free, threadWithPossession := none }, none)) := by
  by_cases h : l.threadWithPossession = some t
  · by_cases hq : l.queue = []
    · exact Or.inr (Or.inr ⟨h, hq, release_freed h hq⟩)
    · obtain ⟨u, rest, hu⟩ := List.exists_cons_of_ne_nil hq
      exact Or.inr (Or.inl ⟨h, u, rest, hu, release_handed h hu⟩)
  · exact Or.inl ⟨h, release_rejected h⟩

omit [DecidableEq T] in
theorem new_settled (memory : Option T) : (new memory).Settled := fun _ => rfl

omit [DecidableEq T] in
theorem new_valid : (new none : Lock T).Valid := ⟨by simp [new], new_settled none⟩

theorem acquire_settled {l : Lock T} (h : l.Settled) (t : T) : (l.acquire t).1.Settled := by
  rcases acquire_cases l t with ⟨-, he⟩ | ⟨-, -, he⟩ | ⟨-, hs, he⟩
  · rwa [he]
  · simp [he, Settled]
  · simp [he, Settled, hs]

theorem release_settled {l : Lock T} (h : l.Settled) (t : T) : (l.release t).1.Settled := by
  rcases release_cases l t with ⟨-, he⟩ | ⟨-, u, rest, hq, he⟩ | ⟨-, hq, he⟩
  · rwa [he]
  · intro hs
    rw [he] at hs
    have := h hs
    simp [hq] at this
  · simp [he, Settled, hq]

theorem acquire_valid {l : Lock T} (h : l.Valid) (t : T) : (l.acquire t).1.Valid := by
  refine ⟨?_, acquire_settled h.settled t⟩
  rcases acquire_cases l t with ⟨-, he⟩ | ⟨-, -, he⟩ | ⟨-, -, he⟩
  · rw [he]
    exact h.busy_iff
  · simp [he]
  · rw [he]
    exact h.busy_iff

theorem release_valid {l : Lock T} (h : l.Valid) (t : T) : (l.release t).1.Valid := by
  refine ⟨?_, release_settled h.settled t⟩
  rcases release_cases l t with ⟨-, he⟩ | ⟨ho, u, rest, -, he⟩ | ⟨-, -, he⟩
  · rw [he]
    exact h.busy_iff
  · simp [he, h.busy_iff, ho]
  · simp [he]

omit [DecidableEq T] in
theorem Valid.free_iff {l : Lock T} (h : l.Valid) :
    l.state = .free ↔ l.threadWithPossession = none := by
  have hb := h.busy_iff
  cases hs : l.state <;> cases ho : l.threadWithPossession <;> simp_all

/-- The abstract mutex that a valid lock implements. -/
def toMutex (l : Lock T) (h : l.Valid) : FifoMutex.Mutex T :=
  ⟨l.threadWithPossession, l.queue, fun ho => h.settled (h.free_iff.mpr ho)⟩

theorem acquire_refines {l : Lock T} (h : l.Valid) (t : T) :
    (l.acquire t).1.toMutex (acquire_valid h t) = FifoMutex.acquire (l.toMutex h) t := by
  rcases acquire_cases l t with ⟨ho, he⟩ | ⟨-, hs, he⟩ | ⟨ho, hs, he⟩
  · simp [toMutex, FifoMutex.acquire, he, ho]
  · have hnone := h.free_iff.mp hs
    simp [toMutex, FifoMutex.acquire, he, hnone, h.settled hs]
  · obtain ⟨u, hu⟩ := Option.isSome_iff_exists.mp (h.busy_iff.mp hs)
    have hne : u ≠ t := fun hut => ho (hut ▸ hu)
    simp [toMutex, FifoMutex.acquire, he, hu, hne]

theorem release_refines {l : Lock T} (h : l.Valid) (t : T) :
    (l.release t).1.toMutex (release_valid h t) = FifoMutex.release (l.toMutex h) t := by
  rcases release_cases l t with ⟨ho, he⟩ | ⟨ho, u, rest, hq, he⟩ | ⟨ho, hq, he⟩
  · simp [toMutex, FifoMutex.release, he, ho]
  · simp [toMutex, FifoMutex.release, he, ho, hq]
  · simp [toMutex, FifoMutex.release, he, ho, hq]

end Lock

structure Condition (T L : Type*) where
  queue : List T
  waitingLock : Option L
  deriving DecidableEq, Repr

namespace Condition
variable {T L : Type*} [DecidableEq T] [DecidableEq L]

/-- The constructor does not set `waitingLock`. -/
def new (memory : Option L) : Condition T L := ⟨[], memory⟩

def hasWaiting (c : Condition T L) : Bool := !c.queue.isEmpty

/-- With the locks, the thread that the `Release` made ready, and the lock to acquire
again after the `Sleep`; none if the call returns at once. -/
def wait (c : Condition T L) (locks : L → Lock T) (conditionLock : Option L) (currentThread : T) :
    Condition T L × (L → Lock T) × Option T × Option L :=
  match conditionLock with
  | none => (c, locks, none, none)
  | some lock =>
    let c := if c.waitingLock = none then { c with waitingLock := some lock } else c
    if some lock ≠ c.waitingLock then (c, locks, none, none)
    else if ¬ (locks lock).isHeldByCurrentThread currentThread then (c, locks, none, none)
    else
      let r := (locks lock).release currentThread
      ({ c with queue := c.queue ++ [currentThread] }, Function.update locks lock r.1, r.2,
        some lock)

def signal (c : Condition T L) (locks : L → Lock T) (conditionLock : Option L)
    (currentThread : T) : Condition T L × Option T :=
  match conditionLock with
  | none => (c, none)
  | some lock =>
    match c.queue with
    | [] => (c, none)
    | thread :: rest =>
      if c.waitingLock ≠ some lock then (c, none)
      else if ¬ (locks lock).isHeldByCurrentThread currentThread then (c, none)
      else (⟨rest, if rest = [] then none else c.waitingLock⟩, some thread)

/-- `while(!queue->IsEmpty())` with a bound on the iterations; none when they run out. -/
def broadcastLoop (locks : L → Lock T) (conditionLock : Option L) (currentThread : T) :
    ℕ → Condition T L → Option (Condition T L × List T)
  | 0, c => if c.queue = [] then some (c, []) else none
  | n + 1, c =>
    if c.queue = [] then some (c, [])
    else
      let r := c.signal locks conditionLock currentThread
      (broadcastLoop locks conditionLock currentThread n r.1).map fun q =>
        (q.1, r.2.toList ++ q.2)

def broadcast (c : Condition T L) (locks : L → Lock T) (conditionLock : Option L)
    (currentThread : T) : Option (Condition T L × List T) :=
  match conditionLock with
  | none => some (c, [])
  | some lock =>
    if c.queue = [] then some (c, [])
    else if c.waitingLock ≠ some lock then some (c, [])
    else if ¬ (locks lock).isHeldByCurrentThread currentThread then some (c, [])
    else broadcastLoop locks conditionLock currentThread c.queue.length c

/-- A `Wait` that goes to sleep: the caller holds the lock, and the condition is unbound or
bound to it. -/
def Accepts (c : Condition T L) (locks : L → Lock T) (lock : L) (t : T) : Prop :=
  (c.waitingLock = none ∨ c.waitingLock = some lock) ∧ (locks lock).threadWithPossession = some t

instance (c : Condition T L) (locks : L → Lock T) (lock : L) (t : T) :
    Decidable (c.Accepts locks lock t) := inferInstanceAs (Decidable (_ ∧ _))

/-- A `Signal` or `Broadcast` that is carried out: somebody waits, with this lock, and the
caller holds it. -/
def Wakes (c : Condition T L) (locks : L → Lock T) (lock : L) (t : T) : Prop :=
  c.queue ≠ [] ∧ c.waitingLock = some lock ∧ (locks lock).threadWithPossession = some t

instance (c : Condition T L) (locks : L → Lock T) (lock : L) (t : T) :
    Decidable (c.Wakes locks lock t) := inferInstanceAs (Decidable (_ ∧ _))

variable {c : Condition T L} {locks : L → Lock T} {lock : L} {t u : T} {rest : List T}

theorem wait_accepted (h : c.Accepts locks lock t) :
    c.wait locks (some lock) t =
      (⟨c.queue ++ [t], some lock⟩, Function.update locks lock ((locks lock).release t).1,
        ((locks lock).release t).2, some lock) := by
  obtain ⟨hw, ho⟩ := h
  rcases hw with hw | hw <;> simp [wait, hw, ho]

/-- A rejected call binds a condition that was unbound all the same. -/
theorem wait_rejected (h : ¬ c.Accepts locks lock t) :
    c.wait locks (some lock) t =
      ({ c with waitingLock := some (c.waitingLock.getD lock) }, locks, none, none) := by
  obtain ⟨q, w⟩ := c
  cases w with
  | none =>
    have ho : (locks lock).threadWithPossession ≠ some t := fun ho => h ⟨Or.inl rfl, ho⟩
    simp [wait, ho]
  | some l =>
    by_cases hl : l = lock
    · subst hl
      have ho : (locks l).threadWithPossession ≠ some t := fun ho => h ⟨Or.inr rfl, ho⟩
      simp [wait, ho]
    · simp [wait, Ne.symm hl]

@[simp] theorem wait_null : c.wait locks none t = (c, locks, none, none) := rfl

@[simp] theorem signal_null : c.signal locks none t = (c, none) := rfl

@[simp] theorem broadcast_null : c.broadcast locks none t = some (c, []) := rfl

theorem signal_wakes (hq : c.queue = u :: rest) (hw : c.waitingLock = some lock)
    (ho : (locks lock).threadWithPossession = some t) :
    c.signal locks (some lock) t =
      (⟨rest, if rest = [] then none else some lock⟩, some u) := by
  simp [signal, hq, hw, ho]

theorem signal_rejected (h : ¬ c.Wakes locks lock t) :
    c.signal locks (some lock) t = (c, none) := by
  cases hq : c.queue with
  | nil => simp [signal, hq]
  | cons u rest =>
    by_cases hw : c.waitingLock = some lock
    · have ho : (locks lock).threadWithPossession ≠ some t := fun ho => h ⟨by simp [hq], hw, ho⟩
      simp [signal, hq, hw, ho]
    · simp [signal, hq, hw]

theorem broadcast_rejected (h : ¬ c.Wakes locks lock t) :
    c.broadcast locks (some lock) t = some (c, []) := by
  by_cases hq : c.queue = []
  · simp [broadcast, hq]
  · by_cases hw : c.waitingLock = some lock
    · have ho : (locks lock).threadWithPossession ≠ some t := fun ho => h ⟨hq, hw, ho⟩
      simp [broadcast, hq, hw, ho]
    · simp [broadcast, hq, hw]

/-- The loop of `Broadcast` ends and takes every waiter once, in order. -/
theorem broadcastLoop_wakes (ho : (locks lock).threadWithPossession = some t) :
    ∀ (q : List T) (n : ℕ), q.length ≤ n →
      broadcastLoop locks (some lock) t n ⟨q, if q = [] then none else some lock⟩ =
        some (⟨[], none⟩, q) := by
  intro q
  induction q with
  | nil =>
    intro n _
    cases n <;> simp [broadcastLoop]
  | cons u rest ih =>
    intro n hn
    obtain ⟨n, rfl⟩ : ∃ m, n = m + 1 := ⟨n - 1, by simp at hn; omega⟩
    have hs := signal_wakes (c := ⟨u :: rest, some lock⟩) rfl rfl ho
    simp only [broadcastLoop, reduceCtorEq, if_false, hs]
    rw [ih n (by simpa using hn)]
    simp

theorem broadcast_wakes (h : c.Wakes locks lock t) :
    c.broadcast locks (some lock) t = some (⟨[], none⟩, c.queue) := by
  obtain ⟨hq, hw, ho⟩ := h
  obtain ⟨q, w⟩ := c
  obtain rfl : w = some lock := hw
  have hloop := broadcastLoop_wakes ho q q.length le_rfl
  rw [if_neg hq] at hloop
  simpa [broadcast, hq, ho] using hloop

end Condition

end Nachos.Threads
