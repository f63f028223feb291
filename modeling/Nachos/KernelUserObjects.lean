import Nachos.KernelObjectStores

/-! The lock and condition syscalls of `userprog/exception.cc` by threads of several
processes, with both tables and with the cleanup in Exit. The memory of a deleted object
reads as it was. The two loops of Exit are one step, as is its `Finish`. -/
namespace Nachos.Threads
open Executions

structure ObjectKernel (T L C S : Type*) where
  kernel : Kernel T L C
  locks : ObjectStore T L S
  acquireCount : ℤ → ℤ
  conditions : ObjectStore T C S
  /-- the `conditionIndex` of the `Wait_Syscall` that the thread is asleep in -/
  waitingAt : T → Option ℤ
  /-- the threads that were forked and have not exited -/
  alive : List T

inductive ObjectCall (T L C : Type*)
  | createLock
  /-- the rest of CreateLock: the new lock, and what its owner field held before -/
  | newLock (lock : L) (memory : Option T)
  | createCondition
  /-- the rest of CreateCondition: the new condition, and what its lock field held before -/
  | newCondition (condition : C) (memory : Option L)
  | acquire (lockIndex : ℤ)
  | release (lockIndex : ℤ)
  | wait (conditionIndex lockIndex : ℤ)
  | signal (conditionIndex lockIndex : ℤ)
  | broadcast (conditionIndex lockIndex : ℤ)
  | destroyLock (lockIndex : ℤ)
  | destroyCondition (conditionIndex : ℤ)
  | fork (thread : T)
  | exit
  | dispatch (thread : T)
  | sleep
  | wake (thread : T)
  deriving DecidableEq, Repr

inductive ObjectStop
  /-- no thread runs, or the thread or object named cannot be -/
  | notPossible
  /-- `interrupt->Halt()`: a table is full, or the last thread of all exits -/
  | halted
  /-- a pointer that was never set -/
  | unsetObject
  deriving DecidableEq, Repr

variable {T L C S : Type*} [DecidableEq T] [DecidableEq L] [DecidableEq C] [DecidableEq S]

namespace ObjectKernel

abbrev Result (T L C S : Type*) := Except ObjectStop (ObjectKernel T L C S)

def initial (lockMemory conditionMemory : ℤ → Option S × Bool) (count : ℤ → ℤ) :
    ObjectKernel T L C S :=
  ⟨.initial (fun _ => none) fun _ => none, .initial lockMemory, count, .initial conditionMemory,
    fun _ => none, []⟩

/-- A step of the scheduler or of a lock or condition. -/
def step (u : ObjectKernel T L C S) (a : Action T L C) : Result T L C S :=
  match Threads.kernel u.kernel a with
  | .ok r => .ok { u with kernel := r.1 }
  | .error _ => .error .notPossible

/-- The validations of a lock index, and the pointer that is used after them. -/
def onLock (u : ObjectKernel T L C S) (space : S) (lockIndex : ℤ) (op : L → Result T L C S) :
    Result T L C S :=
  if u.locks.table.validates space lockIndex then
    match u.locks.object lockIndex with
    | none => .error .unsetObject
    | some lock => op lock
  else .ok u

/-- The validations of a condition index, and the pointer that is used after them. -/
def onCondition (u : ObjectKernel T L C S) (space : S) (conditionIndex : ℤ)
    (op : C → Result T L C S) : Result T L C S :=
  if u.conditions.table.validates space conditionIndex then
    match u.conditions.object conditionIndex with
    | none => .error .unsetObject
    | some c => op c
  else .ok u

/-- The validations of a condition index and then of a lock index. -/
def onBoth (u : ObjectKernel T L C S) (space : S) (conditionIndex lockIndex : ℤ)
    (op : C → L → Result T L C S) : Result T L C S :=
  if u.conditions.table.validates space conditionIndex then
    u.onLock space lockIndex fun lock =>
      match u.conditions.object conditionIndex with
      | none => .error .unsetObject
      | some c => op c lock
  else .ok u

def createLock (u : ObjectKernel T L C S) (t : T) : Result T L C S :=
  match u.locks.find t with
  | none => .error .halted
  | some st => .ok { u with locks := st }

def newLock (u : ObjectKernel T L C S) (t : T) (space : S) (lock : L) (memory : Option T) :
    Result T L C S :=
  match u.locks.creating t with
  | none => .error .notPossible
  | some i =>
    if (u.locks.creator lock).isSome then .error .notPossible
    else
      .ok { u with kernel := u.kernel.setLock lock (.new memory)
                   locks := u.locks.write t i lock space
                   acquireCount := Function.update u.acquireCount i 0 }

def createCondition (u : ObjectKernel T L C S) (t : T) : Result T L C S :=
  match u.conditions.find t with
  | none => .error .halted
  | some st => .ok { u with conditions := st }

def newCondition (u : ObjectKernel T L C S) (t : T) (space : S) (c : C) (memory : Option L) :
    Result T L C S :=
  match u.conditions.creating t with
  | none => .error .notPossible
  | some i =>
    if (u.conditions.creator c).isSome then .error .notPossible
    else
      .ok { u with kernel := u.kernel.setCondition c (.new memory)
                   conditions := u.conditions.write t i c space }

def setCount (u : ObjectKernel T L C S) (i count : ℤ) : ObjectKernel T L C S :=
  { u with acquireCount := Function.update u.acquireCount i count }

def acquire (u : ObjectKernel T L C S) (i : ℤ) (lock : L) : Result T L C S :=
  (u.setCount i (u.acquireCount i + 1)).step (.acquire lock)

def release (u : ObjectKernel T L C S) (t : T) (i : ℤ) (lock : L) : ObjectKernel T L C S :=
  let u' := { u.setCount i (u.acquireCount i - 1) with kernel := (u.kernel.release t lock).1 }
  if u'.locks.isToBeDeleted i ∧ u'.acquireCount i = 0 ∧ ¬ (u'.kernel.locks lock).isBusy then
    { u' with locks := u'.locks.delete i lock }
  else u'

def destroyLock (u : ObjectKernel T L C S) (i : ℤ) (lock : L) : ObjectKernel T L C S :=
  if ¬ ((u.kernel.locks lock).isBusy ∧ u.acquireCount i = 0) then
    { u with locks := u.locks.delete i lock }
  else { u with locks := u.locks.defer i }

def destroyCondition (u : ObjectKernel T L C S) (i : ℤ) (c : C) : ObjectKernel T L C S :=
  if ¬ (u.kernel.conditions c).hasWaiting then { u with conditions := u.conditions.delete i c }
  else { u with conditions := u.conditions.defer i }

/-- The end of `Wait_Syscall`, after `Condition::Wait` has returned. -/
def endWait (u : ObjectKernel T L C S) (i : ℤ) : Result T L C S :=
  if u.conditions.isToBeDeleted i then
    match u.conditions.object i with
    | none => .error .unsetObject
    | some c =>
      if ¬ (u.kernel.conditions c).hasWaiting then
        .ok { u with conditions := u.conditions.delete i c }
      else .ok u
  else .ok u

/-- `Condition::Wait` goes to sleep or comes back at once. -/
def wait (u : ObjectKernel T L C S) (t : T) (i : ℤ) (c : C) (lock : L) : Result T L C S :=
  match Threads.kernel u.kernel (.wait c (some lock)) with
  | .error _ => .error .notPossible
  | .ok r =>
    if (r.1.inside t).isNone then { u with kernel := r.1 }.endWait i
    else .ok { u with kernel := r.1
                      waitingAt := Function.update u.waitingAt t (some i) }

/-- A thread that is back from its `Condition::Wait` ends its `Wait_Syscall` at once, since
interrupts are off. -/
def dispatch (u : ObjectKernel T L C S) (t : T) : Result T L C S :=
  match Threads.kernel u.kernel (.dispatch t), u.waitingAt t with
  | .error _, _ => .error .notPossible
  | .ok r, none => .ok { u with kernel := r.1 }
  | .ok r, some i =>
    if (r.1.inside t).isNone then
      { u with kernel := r.1, waitingAt := Function.update u.waitingAt t none }.endWait i
    else .ok { u with kernel := r.1 }

/-- Exit of thread `t`: the last thread of all halts the machine, the last thread of a process
deletes its locks and conditions. -/
def exit (space : T → S) (u : ObjectKernel T L C S) (t : T) : Result T L C S :=
  let rest := u.alive.erase t
  let u' := { u with kernel := { u.kernel with currentThread := none }, alive := rest }
  if rest = [] then .error .halted
  else if rest.any fun v => space v = space t then .ok u'
  else
    match u.locks.exit (space t), u.conditions.exit (space t) with
    | some locks, some conditions => .ok { u' with locks := locks, conditions := conditions }
    | _, _ => .error .unsetObject

/-- Fork and Exec start a thread that was not there before. -/
def fork (u : ObjectKernel T L C S) (t : T) : Result T L C S :=
  if t ∈ u.alive then .error .notPossible
  else { u with alive := t :: u.alive }.step (.wake t)

end ObjectKernel

/-- One step. `space` is the address space of each thread. -/
def objectCall (space : T → S) (u : ObjectKernel T L C S) (call : ObjectCall T L C) :
    ObjectKernel.Result T L C S :=
  match call, u.kernel.currentThread with
  | .dispatch t, _ => u.dispatch t
  | .sleep, _ => u.step .sleep
  | .wake t, _ => if t ∈ u.alive then u.step (.wake t) else .error .notPossible
  | .fork t, _ => u.fork t
  | _, none => .error .notPossible
  | .newLock lock memory, some t => u.newLock t (space t) lock memory
  | .newCondition c memory, some t => u.newCondition t (space t) c memory
  | call, some t =>
    if u.locks.creating t ≠ none ∨ u.conditions.creating t ≠ none then .error .notPossible
    else match call with
      | .createLock => u.createLock t
      | .createCondition => u.createCondition t
      | .acquire j => u.onLock (space t) j fun lock => u.acquire j lock
      | .release j => u.onLock (space t) j fun lock => .ok (u.release t j lock)
      | .wait i j => u.onBoth (space t) i j fun c lock => u.wait t i c lock
      | .signal i j => u.onBoth (space t) i j fun c lock => u.step (.signal c (some lock))
      | .broadcast i j => u.onBoth (space t) i j fun c lock => u.step (.broadcast c (some lock))
      | .destroyLock j => u.onLock (space t) j fun lock => .ok (u.destroyLock j lock)
      | .destroyCondition i => u.onCondition (space t) i fun c => .ok (u.destroyCondition i c)
      | .exit => u.exit space t
      | _ => .error .notPossible

abbrev ObjectStep (T L C S : Type*) := Transition (ObjectKernel T L C S) (ObjectCall T L C)

variable {space : T → S} {u u' : ObjectKernel T L C S} {call : ObjectCall T L C} {t : T} {i j : ℤ}
  {lock : L} {c : C} {a : Action T L C}

/-- The running thread names a lock of its own address space. -/
structure LockNamed (space : T → S) (u : ObjectKernel T L C S) (t : T) (i : ℤ) (lock : L) :
    Prop where
  running : u.kernel.currentThread = some t
  valid : u.locks.table.validates (space t) i = true
  object : u.locks.object i = some lock

/-- The running thread names a condition of its own address space. -/
structure ConditionNamed (space : T → S) (u : ObjectKernel T L C S) (t : T) (i : ℤ) (c : C) :
    Prop where
  running : u.kernel.currentThread = some t
  valid : u.conditions.table.validates (space t) i = true
  object : u.conditions.object i = some c

/-- The cases of the end of `Wait_Syscall`. -/
inductive EndsWait (u : ObjectKernel T L C S) (i : ℤ) : ObjectKernel T L C S → Prop
  | kept : EndsWait u i u
  | freed {c : C} (hm : u.conditions.isToBeDeleted i = true) (ho : u.conditions.object i = some c)
      (hq : (u.kernel.conditions c).queue = []) :
      EndsWait u i { u with conditions := u.conditions.delete i c }

/-- The cases of a step. -/
inductive ObjectMove (space : T → S) (u : ObjectKernel T L C S) :
    ObjectCall T L C → ObjectKernel T L C S → Prop
  | ignored {call : ObjectCall T L C} (hn : call ≠ .exit) : ObjectMove space u call u
  | foundLock {t : T} {st : ObjectStore T L S} (ht : u.kernel.currentThread = some t)
      (hc : u.locks.creating t = none) (hf : u.locks.find t = some st) :
      ObjectMove space u .createLock { u with locks := st }
  | wroteLock {t : T} {i : ℤ} {lock : L} {memory : Option T}
      (ht : u.kernel.currentThread = some t) (hc : u.locks.creating t = some i)
      (hnew : u.locks.creator lock = none) :
      ObjectMove space u (.newLock lock memory)
        { u with kernel := u.kernel.setLock lock (.new memory)
                 locks := u.locks.write t i lock (space t)
                 acquireCount := Function.update u.acquireCount i 0 }
  | foundCondition {t : T} {st : ObjectStore T C S} (ht : u.kernel.currentThread = some t)
      (hc : u.conditions.creating t = none) (hf : u.conditions.find t = some st) :
      ObjectMove space u .createCondition { u with conditions := st }
  | wroteCondition {t : T} {i : ℤ} {c : C} {memory : Option L}
      (ht : u.kernel.currentThread = some t) (hc : u.conditions.creating t = some i)
      (hnew : u.conditions.creator c = none) :
      ObjectMove space u (.newCondition c memory)
        { u with kernel := u.kernel.setCondition c (.new memory)
                 conditions := u.conditions.write t i c (space t) }
  | acquired {t : T} {j : ℤ} {lock : L} {k' : Kernel T L C} {out : List T}
      (hn : LockNamed space u t j lock) (hm : KernelMove u.kernel (.acquire lock) k' out) :
      ObjectMove space u (.acquire j)
        { u.setCount j (u.acquireCount j + 1) with kernel := k' }
  | released {t : T} {j : ℤ} {lock : L} {locks : ObjectStore T L S}
      (hn : LockNamed space u t j lock)
      (hl : locks = u.locks ∨ locks = u.locks.delete j lock) :
      ObjectMove space u (.release j)
        { u.setCount j (u.acquireCount j - 1) with
          kernel := (u.kernel.release t lock).1
          locks := locks }
  | woken {t : T} {i j : ℤ} {c : C} {lock : L} {call : ObjectCall T L C} {a : Action T L C}
      {k' : Kernel T L C} {out : List T} (hi : ConditionNamed space u t i c)
      (hj : LockNamed space u t j lock)
      (ha : (call = .signal i j ∧ a = .signal c (some lock)) ∨
        (call = .broadcast i j ∧ a = .broadcast c (some lock)))
      (hm : KernelMove u.kernel a k' out) : ObjectMove space u call { u with kernel := k' }
  | asleep {t : T} {i j : ℤ} {c : C} {lock : L} (hi : ConditionNamed space u t i c)
      (hj : LockNamed space u t j lock)
      (ha : (u.kernel.conditions c).Accepts u.kernel.locks lock t) :
      ObjectMove space u (.wait i j)
        { u with kernel := (u.kernel.release t lock).1.enqueue t c lock
                 waitingAt := Function.update u.waitingAt t (some i) }
  | rejected {t : T} {i j : ℤ} {c : C} {lock : L} {u' : ObjectKernel T L C S}
      (hi : ConditionNamed space u t i c) (hj : LockNamed space u t j lock)
      (ha : ¬ (u.kernel.conditions c).Accepts u.kernel.locks lock t)
      (he : EndsWait { u with kernel := u.kernel.setCondition c { u.kernel.conditions c with
        waitingLock := some ((u.kernel.conditions c).waitingLock.getD lock) } } i u') :
      ObjectMove space u (.wait i j) u'
  | lockDestroyed {t : T} {j : ℤ} {lock : L} {locks : ObjectStore T L S}
      (hn : LockNamed space u t j lock)
      (hl : locks = u.locks.defer j ∨ locks = u.locks.delete j lock) :
      ObjectMove space u (.destroyLock j) { u with locks := locks }
  | conditionDestroyed {t : T} {i : ℤ} {c : C} {conditions : ObjectStore T C S}
      (hn : ConditionNamed space u t i c)
      (hl : conditions = u.conditions.defer i ∨ conditions = u.conditions.delete i c) :
      ObjectMove space u (.destroyCondition i) { u with conditions := conditions }
  | slept {t : T} (ht : u.kernel.currentThread = some t) :
      ObjectMove space u .sleep { u with kernel := { u.kernel with currentThread := none } }
  | readied {t : T} {call : ObjectCall T L C} {alive : List T} {k' : Kernel T L C} {out : List T}
      (hcall : call = .wake t ∧ alive = u.alive ∨ call = .fork t ∧ alive = t :: u.alive)
      (ht : t ∈ alive) (hm : KernelMove u.kernel (.wake t) k' out) :
      ObjectMove space u call { u with kernel := k', alive := alive }
  | dispatched {t : T} (ht : t ∈ u.kernel.readyList)
      (hw : u.waitingAt t = none ∨ (u.kernel.dispatch t).inside t ≠ none) :
      ObjectMove space u (.dispatch t) { u with kernel := u.kernel.dispatch t }
  | returned {t : T} {i : ℤ} {u' : ObjectKernel T L C S} (ht : t ∈ u.kernel.readyList)
      (hw : u.waitingAt t = some i) (hb : (u.kernel.dispatch t).inside t = none)
      (he : EndsWait { u with kernel := u.kernel.dispatch t
                              waitingAt := Function.update u.waitingAt t none } i u') :
      ObjectMove space u (.dispatch t) u'
  | left {t v : T} (ht : u.kernel.currentThread = some t) (hl : u.locks.creating t = none)
      (hc : u.conditions.creating t = none) (hv : v ∈ u.alive.erase t)
      (hs : space v = space t) :
      ObjectMove space u .exit
        { u with kernel := { u.kernel with currentThread := none }
                 alive := u.alive.erase t }
  | exited {t : T} {locks : ObjectStore T L S} {conditions : ObjectStore T C S}
      (ht : u.kernel.currentThread = some t) (hl : u.locks.creating t = none)
      (hc : u.conditions.creating t = none) (hlast : ∀ v ∈ u.alive.erase t, space v ≠ space t)
      (hlocks : u.locks.exit (space t) = some locks)
      (hconditions : u.conditions.exit (space t) = some conditions) :
      ObjectMove space u .exit
        { u with kernel := { u.kernel with currentThread := none }
                 alive := u.alive.erase t
                 locks := locks
                 conditions := conditions }

omit [DecidableEq S] in
theorem objectStep_ok (h : u.step a = .ok u') :
    ∃ k' out, KernelMove u.kernel a k' out ∧ u' = { u with kernel := k' } := by
  unfold ObjectKernel.step at h
  cases hk : Threads.kernel u.kernel a with
  | error _ => simp [hk] at h
  | ok r =>
    simp only [hk, Except.ok.injEq] at h
    exact ⟨r.1, r.2, kernel_move hk, h.symm⟩

omit [DecidableEq T] [DecidableEq L] [DecidableEq C] [DecidableEq S] in
theorem endsWait_of_ok (h : u.endWait i = .ok u') : EndsWait u i u' := by
  unfold ObjectKernel.endWait at h
  split_ifs at h with hm
  · cases ho : u.conditions.object i with
    | none => simp [ho] at h
    | some c =>
      simp only [ho, Condition.hasWaiting, Bool.not_eq_false, List.isEmpty_iff,
        Bool.not_eq_eq_eq_not, Bool.not_true] at h
      split_ifs at h with hq
      · obtain rfl := Except.ok.inj h
        exact .freed hm ho hq
      · obtain rfl := Except.ok.inj h
        exact .kept
  · obtain rfl := Except.ok.inj h
    exact .kept

omit [DecidableEq T] [DecidableEq L] [DecidableEq C] in
theorem onLock_ok {op : L → ObjectKernel.Result T L C S} (ht : u.kernel.currentThread = some t)
    (h : u.onLock (space t) j op = .ok u') :
    u' = u ∨ ∃ lock, LockNamed space u t j lock ∧ op lock = .ok u' := by
  unfold ObjectKernel.onLock at h
  split_ifs at h with hv
  · cases ho : u.locks.object j with
    | none => simp [ho] at h
    | some lock => exact .inr ⟨lock, ⟨ht, hv, ho⟩, by simpa [ho] using h⟩
  · exact .inl (Except.ok.inj h).symm

omit [DecidableEq T] [DecidableEq L] [DecidableEq C] in
theorem onConditionObject_ok {op : C → ObjectKernel.Result T L C S}
    (ht : u.kernel.currentThread = some t) (h : u.onCondition (space t) i op = .ok u') :
    u' = u ∨ ∃ c, ConditionNamed space u t i c ∧ op c = .ok u' := by
  unfold ObjectKernel.onCondition at h
  split_ifs at h with hv
  · cases ho : u.conditions.object i with
    | none => simp [ho] at h
    | some c => exact .inr ⟨c, ⟨ht, hv, ho⟩, by simpa [ho] using h⟩
  · exact .inl (Except.ok.inj h).symm

omit [DecidableEq T] [DecidableEq L] [DecidableEq C] in
theorem onBothObjects_ok {op : C → L → ObjectKernel.Result T L C S}
    (ht : u.kernel.currentThread = some t) (h : u.onBoth (space t) i j op = .ok u') :
    u' = u ∨ ∃ c lock, ConditionNamed space u t i c ∧ LockNamed space u t j lock ∧
      op c lock = .ok u' := by
  unfold ObjectKernel.onBoth at h
  split_ifs at h with hv
  · rcases onLock_ok ht h with rfl | ⟨lock, hn, h⟩
    · exact .inl rfl
    · cases ho : u.conditions.object i with
      | none => simp [ho] at h
      | some c => exact .inr ⟨c, lock, ⟨ht, hv, ho⟩, hn, by simpa [ho] using h⟩
  · exact .inl (Except.ok.inj h).symm

theorem waitObject_move (hp : Placed u.kernel) (hi : ConditionNamed space u t i c)
    (hj : LockNamed space u t j lock) (h : u.wait t i c lock = .ok u') :
    ObjectMove space u (.wait i j) u' := by
  unfold ObjectKernel.wait at h
  cases hk : Threads.kernel u.kernel (.wait c (some lock)) with
  | error _ => simp [hk] at h
  | ok r =>
    obtain ⟨k', out⟩ := r
    simp only [hk] at h
    have hsame : ∀ {t'}, u.kernel.currentThread = some t' → t = t' := fun h' =>
      Option.some.inj (hi.running.symm.trans h')
    cases kernel_move hk with
    | waited ht ha =>
      obtain rfl := hsame ht
      have hin : (((u.kernel.release t lock).1.enqueue t c lock).inside t).isNone = false := by
        simp [Kernel.enqueue, Kernel.fallAsleep]
      simp only [hin, Bool.false_eq_true, if_false, Except.ok.injEq] at h
      obtain rfl := h
      exact .asleep hi hj ha
    | bound ht ha =>
      obtain rfl := hsame ht
      have hin : (u.kernel.inside t).isNone = true := by simp [(hp.running t ht).1]
      rw [if_pos (show ((u.kernel.setCondition c _).inside t).isNone = true from hin)] at h
      exact .rejected hi hj ha (endsWait_of_ok h)
    | refused ht ha => simp at ha

theorem dispatchObject_move (h : u.dispatch t = .ok u') :
    ObjectMove space u (.dispatch t) u' := by
  unfold ObjectKernel.dispatch at h
  cases hk : Threads.kernel u.kernel (.dispatch t) with
  | error _ => simp [hk] at h
  | ok r =>
    obtain ⟨k', out⟩ := r
    cases kernel_move hk with
    | dispatched ht =>
      cases hw : u.waitingAt t with
      | none =>
        simp only [hk, hw, Except.ok.injEq] at h
        obtain rfl := h
        exact .dispatched ht (.inl hw)
      | some i =>
        simp only [hk, hw, Option.isNone_iff_eq_none] at h
        split_ifs at h with hb
        · exact .returned ht hw hb (endsWait_of_ok h)
        · obtain rfl := Except.ok.inj h
          exact .dispatched ht (.inr hb)
    | refused ht ha => simp at ha

theorem exit_move (ht : u.kernel.currentThread = some t) (hl : u.locks.creating t = none)
    (hc : u.conditions.creating t = none) (h : u.exit space t = .ok u') :
    ObjectMove space u .exit u' := by
  unfold ObjectKernel.exit at h
  dsimp only at h
  split_ifs at h with hrest hany
  · simp only [List.any_eq_true, decide_eq_true_eq] at hany
    obtain ⟨v, hv, hs⟩ := hany
    obtain rfl := Except.ok.inj h
    exact .left ht hl hc hv hs
  · simp only [List.any_eq_true, decide_eq_true_eq, not_exists, not_and] at hany
    cases hlocks : u.locks.exit (space t) with
    | none => simp [hlocks] at h
    | some locks =>
      cases hconditions : u.conditions.exit (space t) with
      | none => simp [hlocks, hconditions] at h
      | some conditions =>
        simp only [hlocks, hconditions, Except.ok.injEq] at h
        obtain rfl := h
        exact .exited ht hl hc hany hlocks hconditions

theorem schedule_call_move (h : objectCall space u call = .ok u')
    (hcall : (∃ t, call = .dispatch t) ∨ call = .sleep ∨ (∃ t, call = .wake t) ∨
      ∃ t, call = .fork t) : ObjectMove space u call u' := by
  rcases hcall with ⟨t, rfl⟩ | rfl | ⟨t, rfl⟩ | ⟨t, rfl⟩
  · exact dispatchObject_move h
  · obtain ⟨k', out, hm, rfl⟩ := objectStep_ok h
    cases hm with
    | slept ht => exact .slept ht
    | refused _ ha => simp at ha
  · have h' : (if t ∈ u.alive then u.step (.wake t) else .error .notPossible) = .ok u' := h
    split_ifs at h' with ht
    obtain ⟨k', out, hm, rfl⟩ := objectStep_ok h'
    exact .readied (.inl ⟨rfl, rfl⟩) ht hm
  · have h' : u.fork t = .ok u' := h
    unfold ObjectKernel.fork at h'
    split_ifs at h'
    obtain ⟨k', out, hm, rfl⟩ := objectStep_ok h'
    exact .readied (.inr ⟨rfl, rfl⟩) List.mem_cons_self hm

theorem objectCall_move (hp : Placed u.kernel) (h : objectCall space u call = .ok u') :
    ObjectMove space u call u' := by
  cases ht : u.kernel.currentThread with
  | none =>
    cases call with
    | dispatch t | sleep | wake t | fork t => exact schedule_call_move h (by simp)
    | _ => simp [objectCall, ht] at h
  | some t =>
    cases call with
    | dispatch t | sleep | wake t | fork t => exact schedule_call_move h (by simp)
    | newLock lock memory =>
      simp only [objectCall, ht, ObjectKernel.newLock] at h
      cases hc : u.locks.creating t with
      | none => simp [hc] at h
      | some i =>
        simp only [hc] at h
        split_ifs at h with hnew
        obtain rfl := Except.ok.inj h
        exact .wroteLock ht hc (by simpa using hnew)
    | newCondition c memory =>
      simp only [objectCall, ht, ObjectKernel.newCondition] at h
      cases hc : u.conditions.creating t with
      | none => simp [hc] at h
      | some i =>
        simp only [hc] at h
        split_ifs at h with hnew
        obtain rfl := Except.ok.inj h
        exact .wroteCondition ht hc (by simpa using hnew)
    | createLock =>
      simp only [objectCall, ht] at h
      split_ifs at h with hc
      unfold ObjectKernel.createLock at h
      cases hf : u.locks.find t with
      | none => simp [hf] at h
      | some st =>
        simp only [hf, Except.ok.injEq] at h
        obtain rfl := h
        exact .foundLock ht (by simpa using (not_or.mp hc).1) hf
    | createCondition =>
      simp only [objectCall, ht] at h
      split_ifs at h with hc
      unfold ObjectKernel.createCondition at h
      cases hf : u.conditions.find t with
      | none => simp [hf] at h
      | some st =>
        simp only [hf, Except.ok.injEq] at h
        obtain rfl := h
        exact .foundCondition ht (by simpa using (not_or.mp hc).2) hf
    | acquire j =>
      simp only [objectCall, ht] at h
      split_ifs at h
      rcases onLock_ok ht h with rfl | ⟨lock, hn, h⟩
      · exact .ignored (by simp)
      · obtain ⟨k', out, hm, rfl⟩ := objectStep_ok h
        exact .acquired hn hm
    | release j =>
      simp only [objectCall, ht] at h
      split_ifs at h
      rcases onLock_ok ht h with rfl | ⟨lock, hn, h⟩
      · exact .ignored (by simp)
      · obtain rfl := Except.ok.inj h
        unfold ObjectKernel.release
        dsimp only
        split_ifs
        · exact .released hn (.inr rfl)
        · exact .released hn (.inl rfl)
    | wait i j =>
      simp only [objectCall, ht] at h
      split_ifs at h
      rcases onBothObjects_ok ht h with rfl | ⟨c, lock, hi, hj, h⟩
      · exact .ignored (by simp)
      · exact waitObject_move hp hi hj h
    | signal i j =>
      simp only [objectCall, ht] at h
      split_ifs at h
      rcases onBothObjects_ok ht h with rfl | ⟨c, lock, hi, hj, h⟩
      · exact .ignored (by simp)
      · obtain ⟨k', out, hm, rfl⟩ := objectStep_ok h
        exact .woken hi hj (.inl ⟨rfl, rfl⟩) hm
    | broadcast i j =>
      simp only [objectCall, ht] at h
      split_ifs at h
      rcases onBothObjects_ok ht h with rfl | ⟨c, lock, hi, hj, h⟩
      · exact .ignored (by simp)
      · obtain ⟨k', out, hm, rfl⟩ := objectStep_ok h
        exact .woken hi hj (.inr ⟨rfl, rfl⟩) hm
    | destroyLock j =>
      simp only [objectCall, ht] at h
      split_ifs at h
      rcases onLock_ok ht h with rfl | ⟨lock, hn, h⟩
      · exact .ignored (by simp)
      · obtain rfl := Except.ok.inj h
        unfold ObjectKernel.destroyLock
        split_ifs
        · exact .lockDestroyed hn (.inl rfl)
        · exact .lockDestroyed hn (.inr rfl)
    | destroyCondition i =>
      simp only [objectCall, ht] at h
      split_ifs at h
      rcases onConditionObject_ok ht h with rfl | ⟨c, hn, h⟩
      · exact .ignored (by simp)
      · obtain rfl := Except.ok.inj h
        unfold ObjectKernel.destroyCondition
        split_ifs
        · exact .conditionDestroyed hn (.inl rfl)
        · exact .conditionDestroyed hn (.inr rfl)
    | exit =>
      simp only [objectCall, ht] at h
      split_ifs at h with hc
      obtain ⟨hl, hc⟩ := not_or.mp hc
      exact exit_move ht (by simpa using hl) (by simpa using hc) h

end Nachos.Threads
