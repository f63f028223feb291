import Nachos.FifoMutex

/-! The locks and condition variables of the network server, `threads/synch.cc`.
A call returns the request it answers with its `respond` flag; nothing reads the
flag of a request that is stored in a queue or as owner. -/
namespace Nachos.Network

/-- The characters of a C string before its terminating zero. -/
abbrev Name := List UInt8

structure ClientRequest where
  machineID : ℤ
  mailboxNumber : ℤ
  deriving DecidableEq, Repr

inductive LockStatus
  | busy
  | free
  deriving DecidableEq, Repr

structure ServerLock where
  name : Name
  state : LockStatus
  queue : List ClientRequest
  currentClientRequest : Option ClientRequest
  deriving DecidableEq, Repr

namespace ServerLock

def new (name : Name) : ServerLock := ⟨name, .free, [], none⟩

def isHeldByRequester (l : ServerLock) (cr : ClientRequest) : Bool :=
  match l.currentClientRequest with
  | none => false
  | some c => cr.machineID = c.machineID && cr.mailboxNumber = c.mailboxNumber

def isBusy (l : ServerLock) : Bool := l.state = .busy

def acquire (l : ServerLock) (cr : ClientRequest) : ServerLock × ClientRequest × Bool :=
  if l.isHeldByRequester cr then (l, cr, true)
  else if l.state = .free then
    ({ l with state := .busy, currentClientRequest := some cr }, cr, true)
  else ({ l with queue := l.queue ++ [cr] }, cr, false)

def release (l : ServerLock) (cr : ClientRequest) : ServerLock × ClientRequest × Bool :=
  if ¬ l.isHeldByRequester cr then (l, cr, false)
  else
    match l.queue with
    | next :: rest => ({ l with queue := rest, currentClientRequest := some next }, next, true)
    | [] => ({ l with state := .free, currentClientRequest := none }, cr, false)

/-- BUSY means owned, and clients queue only for a lock that is owned. -/
structure Valid (l : ServerLock) : Prop where
  busy_iff : l.state = .busy ↔ l.currentClientRequest.isSome
  idle : l.currentClientRequest = none → l.queue = []

@[simp] theorem isHeldByRequester_iff (l : ServerLock) (cr : ClientRequest) :
    l.isHeldByRequester cr = true ↔ l.currentClientRequest = some cr := by
  cases h : l.currentClientRequest with
  | none => simp [isHeldByRequester, h]
  | some c =>
    obtain ⟨m, b⟩ := c
    obtain ⟨m', b'⟩ := cr
    simp [isHeldByRequester, h, @eq_comm _ m', @eq_comm _ b']

theorem new_valid (name : Name) : (new name).Valid := ⟨by simp [new], by simp [new]⟩

theorem Valid.isBusy_iff {l : ServerLock} (h : l.Valid) :
    l.isBusy = true ↔ l.currentClientRequest ≠ none := by
  simp [isBusy, h.busy_iff, Option.isSome_iff_ne_none]

theorem Valid.free_iff {l : ServerLock} (h : l.Valid) :
    l.state = .free ↔ l.currentClientRequest = none := by
  have hb := h.busy_iff
  cases hs : l.state <;> cases ho : l.currentClientRequest <;> simp_all

/-- The abstract lock that a valid server lock implements. -/
def toMutex (l : ServerLock) (h : l.Valid) : FifoMutex.Mutex ClientRequest :=
  ⟨l.currentClientRequest, l.queue, h.idle⟩

theorem acquire_owned {l : ServerLock} {cr : ClientRequest}
    (h : l.currentClientRequest = some cr) : l.acquire cr = (l, cr, true) := by
  simp [acquire, h]

theorem acquire_free {l : ServerLock} (h : l.Valid) {cr : ClientRequest}
    (ho : l.currentClientRequest = none) :
    l.acquire cr = ({ l with state := .busy, currentClientRequest := some cr }, cr, true) := by
  simp [acquire, ho, h.free_iff.mpr ho]

theorem acquire_queued {l : ServerLock} (h : l.Valid) {cr c : ClientRequest}
    (ho : l.currentClientRequest = some c) (hc : c ≠ cr) :
    l.acquire cr = ({ l with queue := l.queue ++ [cr] }, cr, false) := by
  have hs : l.state = .busy := h.busy_iff.mpr (by simp [ho])
  simp [acquire, ho, hs, hc]

theorem release_rejected {l : ServerLock} {cr : ClientRequest}
    (h : l.currentClientRequest ≠ some cr) : l.release cr = (l, cr, false) := by
  simp [release, h]

theorem release_handed {l : ServerLock} {cr next : ClientRequest} {rest : List ClientRequest}
    (h : l.currentClientRequest = some cr) (hq : l.queue = next :: rest) :
    l.release cr = ({ l with queue := rest, currentClientRequest := some next }, next, true) := by
  simp [release, h, hq]

theorem release_freed {l : ServerLock} {cr : ClientRequest}
    (h : l.currentClientRequest = some cr) (hq : l.queue = []) :
    l.release cr = ({ l with state := .free, currentClientRequest := none }, cr, false) := by
  simp [release, h, hq]

theorem acquire_valid {l : ServerLock} (h : l.Valid) (cr : ClientRequest) :
    (l.acquire cr).1.Valid := by
  cases ho : l.currentClientRequest with
  | none =>
    rw [acquire_free h ho]
    exact ⟨by simp, by simp⟩
  | some c =>
    by_cases hc : c = cr
    · rw [acquire_owned (hc ▸ ho)]
      exact h
    · rw [acquire_queued h ho hc]
      exact ⟨h.busy_iff, by simp [ho]⟩

theorem release_valid {l : ServerLock} (h : l.Valid) (cr : ClientRequest) :
    (l.release cr).1.Valid := by
  by_cases ho : l.currentClientRequest = some cr
  · cases hq : l.queue with
    | nil =>
      rw [release_freed ho hq]
      exact ⟨by simp, by simp [hq]⟩
    | cons next rest =>
      rw [release_handed ho hq]
      exact ⟨by simp [h.busy_iff, ho], by simp⟩
  · rw [release_rejected ho]
    exact h

/-- The code's `Acquire` is the abstract one, and it answers at once exactly when the
client then owns the lock. -/
theorem acquire_refines {l : ServerLock} (h : l.Valid) (cr : ClientRequest) :
    (l.acquire cr).1.toMutex (acquire_valid h cr) = FifoMutex.acquire (l.toMutex h) cr ∧
    (l.acquire cr).2 = (cr, decide ((l.acquire cr).1.currentClientRequest = some cr)) := by
  cases ho : l.currentClientRequest with
  | none =>
    simp [acquire_free h ho, FifoMutex.acquire, toMutex, ho, h.idle ho]
  | some c =>
    by_cases hc : c = cr
    · simp [acquire_owned (hc ▸ ho), FifoMutex.acquire, toMutex, ho, hc]
    · simp [acquire_queued h ho hc, FifoMutex.acquire, toMutex, ho, hc]

/-- The code's `Release` is the abstract one, and it answers the client it grants. -/
theorem release_refines {l : ServerLock} (h : l.Valid) (cr : ClientRequest) :
    (l.release cr).1.toMutex (release_valid h cr) = FifoMutex.release (l.toMutex h) cr ∧
    (if (l.release cr).2.2 then [(l.release cr).2.1] else []) =
      FifoMutex.grant (l.toMutex h) (.release cr) := by
  by_cases ho : l.currentClientRequest = some cr
  · cases hq : l.queue with
    | nil => simp [release_freed ho hq, FifoMutex.release, FifoMutex.grant, toMutex, ho, hq]
    | cons next rest =>
      simp [release_handed ho hq, FifoMutex.release, FifoMutex.grant, toMutex, ho, hq]
  · simp [release_rejected ho, FifoMutex.release, FifoMutex.grant, toMutex, ho]

end ServerLock

structure ServerCondition where
  name : Name
  queue : List ClientRequest
  waitingLock : ℤ
  deriving DecidableEq, Repr

namespace ServerCondition

def new (name : Name) : ServerCondition := ⟨name, [], -1⟩

def hasWaiting (c : ServerCondition) : Bool := !c.queue.isEmpty

def wait (c : ServerCondition) (serverConditionLock : ℤ) (cr : ClientRequest) :
    ServerCondition × ClientRequest × Bool :=
  let c := if c.waitingLock = -1 then { c with waitingLock := serverConditionLock } else c
  if serverConditionLock ≠ c.waitingLock then (c, cr, true)
  else ({ c with queue := c.queue ++ [cr] }, cr, false)

def signal (c : ServerCondition) (serverConditionLock : ℤ) (cr : ClientRequest) :
    ServerCondition × ClientRequest × Bool :=
  match c.queue with
  | [] => (c, cr, false)
  | next :: rest =>
    if c.waitingLock ≠ serverConditionLock then (c, cr, false)
    else
      ({ c with queue := rest, waitingLock := if rest = [] then -1 else c.waitingLock },
        next, true)

/-- A `Wait` naming this lock is queued: the condition is unbound or bound to it. -/
def Accepts (c : ServerCondition) (lock : ℤ) : Prop := c.waitingLock = -1 ∨ c.waitingLock = lock

instance (c : ServerCondition) (lock : ℤ) : Decidable (c.Accepts lock) :=
  inferInstanceAs (Decidable (_ ∨ _))

theorem wait_accepted {c : ServerCondition} {lock : ℤ} (h : c.Accepts lock)
    (cr : ClientRequest) :
    c.wait lock cr = ({ c with waitingLock := lock, queue := c.queue ++ [cr] }, cr, false) := by
  rcases h with h | h
  · simp [wait, h]
  · obtain ⟨n, q, w⟩ := c
    obtain rfl : w = lock := h
    simp [wait]

theorem wait_rejected {c : ServerCondition} {lock : ℤ} (h : ¬ c.Accepts lock)
    (cr : ClientRequest) : c.wait lock cr = (c, cr, true) := by
  simp only [Accepts, not_or] at h
  simp [wait, h.1, Ne.symm h.2]

/-- A `Signal` naming this lock wakes somebody. -/
def Wakes (c : ServerCondition) (lock : ℤ) : Prop := c.queue ≠ [] ∧ c.waitingLock = lock

instance (c : ServerCondition) (lock : ℤ) : Decidable (c.Wakes lock) :=
  inferInstanceAs (Decidable (_ ∧ _))

theorem signal_of_not_wakes {c : ServerCondition} {lock : ℤ} (h : ¬ c.Wakes lock)
    (cr : ClientRequest) : c.signal lock cr = (c, cr, false) := by
  unfold signal
  split
  · rfl
  · rename_i next rest hq
    rw [if_pos]
    intro he
    exact h ⟨by simp [hq], he⟩

theorem signal_of_cons {c : ServerCondition} {lock : ℤ} {next : ClientRequest}
    {rest : List ClientRequest} (hq : c.queue = next :: rest) (hl : c.waitingLock = lock)
    (cr : ClientRequest) :
    c.signal lock cr =
      ({ c with queue := rest, waitingLock := if rest = [] then -1 else c.waitingLock },
        next, true) := by
  simp [signal, hq, hl]

end ServerCondition

end Nachos.Network
