import Nachos.KernelObjectTables

/-! The condition table of `userprog/exception.cc`: conditions that are created and destroyed
while threads wait on them. A condition stands for one creation, so that its address may be
used again; the memory of a freed one reads as it was. The locks are created before and
stay. -/
namespace Nachos.Threads
open Executions SlotTables

structure ConditionKernel (T L C S : Type*) where
  kernel : Kernel T L C
  lockTable : SlotTable (LockEntry L S)
  conditionTable : ObjectTable C S
  /-- the slot that a CreateCondition of this thread has found -/
  creating : T → Option ℤ
  /-- the `conditionIndex` of the `Wait_Syscall` that the thread is asleep in -/
  waitingAt : T → Option ℤ
  /-- the conditions that `new` has returned so far -/
  created : List C

inductive ConditionCall (T L C : Type*)
  | createCondition
  /-- the rest of CreateCondition: the new condition, and what its lock field held before -/
  | newCondition (condition : C) (memory : Option L)
  | wait (conditionIndex lockIndex : ℤ)
  | signal (conditionIndex lockIndex : ℤ)
  | broadcast (conditionIndex lockIndex : ℤ)
  | destroyCondition (conditionIndex : ℤ)
  | acquire (lockIndex : ℤ)
  | release (lockIndex : ℤ)
  | dispatch (thread : T)
  | sleep
  | wake (thread : T)
  deriving DecidableEq, Repr

/-- What a step does with the objects. -/
inductive Effect (C : Type*)
  | used (condition : C)
  | freed (condition : C)
  /-- a DestroyCondition that only sets `isToBeDeleted` -/
  | deferred (condition : C)
  deriving DecidableEq, Repr

inductive ConditionStop
  /-- no thread runs, or the thread named cannot run -/
  | notPossible
  /-- `interrupt->Halt()` when the table is full -/
  | halted
  /-- a pointer that was never set -/
  | unsetCondition
  deriving DecidableEq, Repr

variable {T L C S : Type*} [DecidableEq T] [DecidableEq L] [DecidableEq C] [DecidableEq S]

namespace ConditionKernel

abbrev Result (T L C S : Type*) := Except ConditionStop (ConditionKernel T L C S × List (Effect C))

def initial (lockTable : SlotTable (LockEntry L S)) (memory : ℤ → Option S × Bool) :
    ConditionKernel T L C S :=
  ⟨.initial (fun _ => none) fun _ => none, lockTable, .initial memory, fun _ => none,
    fun _ => none, []⟩

def object (u : ConditionKernel T L C S) (i : ℤ) : Option C := (u.conditionTable.entries i).object

def isToBeDeleted (u : ConditionKernel T L C S) (i : ℤ) : Bool :=
  (u.conditionTable.entries i).isToBeDeleted

/-- The lock at an index that passes the three validations. -/
def ownLock (u : ConditionKernel T L C S) (space : S) (lockIndex : ℤ) : Option L :=
  (live? u.lockTable lockIndex).bind fun e => if e.lockSpace = space then some e.lock else none

/-- A step of the scheduler or of a lock or condition. -/
def step (u : ConditionKernel T L C S) (a : Action T L C) (effects : List (Effect C)) :
    Result T L C S :=
  match Threads.kernel u.kernel a with
  | .ok r => .ok ({ u with kernel := r.1 }, effects)
  | .error _ => .error .notPossible

def createCondition (u : ConditionKernel T L C S) (t : T) : Result T L C S :=
  let table := u.conditionTable.allocate
  match table.free? with
  | none => .error .halted
  | some i =>
    .ok ({ u with conditionTable := table.take i
                  creating := Function.update u.creating t (some (i : ℤ)) }, [])

def newCondition (u : ConditionKernel T L C S) (t : T) (space : S) (c : C) (memory : Option L) :
    Result T L C S :=
  match u.creating t with
  | none => .error .notPossible
  | some i =>
    if c ∈ u.created then .error .notPossible
    else
      .ok ({ u with kernel := u.kernel.setCondition c (.new memory)
                    conditionTable := u.conditionTable.write i c space
                    creating := Function.update u.creating t none
                    created := c :: u.created }, [])

/-- The validations of a condition index, and the pointer that is used after them. -/
def onCondition (u : ConditionKernel T L C S) (space : S) (conditionIndex : ℤ)
    (op : C → Result T L C S) : Result T L C S :=
  if u.conditionTable.validates space conditionIndex then
    match u.object conditionIndex with
    | none => .error .unsetCondition
    | some c => op c
  else .ok (u, [])

/-- The validations of a condition index and of a lock index. -/
def onBoth (u : ConditionKernel T L C S) (space : S) (conditionIndex lockIndex : ℤ)
    (op : C → L → Result T L C S) : Result T L C S :=
  if u.conditionTable.validates space conditionIndex then
    match u.ownLock space lockIndex with
    | none => .ok (u, [])
    | some lock =>
      match u.object conditionIndex with
      | none => .error .unsetCondition
      | some c => op c lock
  else .ok (u, [])

/-- The end of `Wait_Syscall`, after `Condition::Wait` has returned. -/
def endWait (u : ConditionKernel T L C S) (conditionIndex : ℤ) : Result T L C S :=
  if u.isToBeDeleted conditionIndex then
    match u.object conditionIndex with
    | none => .error .unsetCondition
    | some c =>
      if ¬ (u.kernel.conditions c).hasWaiting then
        .ok ({ u with conditionTable := u.conditionTable.clear conditionIndex },
          [.used c, .freed c])
      else .ok (u, [.used c])
  else .ok (u, [])

/-- `Condition::Wait` goes to sleep or comes back at once. -/
def wait (u : ConditionKernel T L C S) (t : T) (conditionIndex : ℤ) (c : C) (lock : L) :
    Result T L C S :=
  match Threads.kernel u.kernel (.wait c (some lock)) with
  | .error _ => .error .notPossible
  | .ok r =>
    if (r.1.inside t).isNone then
      match { u with kernel := r.1 }.endWait conditionIndex with
      | .ok q => .ok (q.1, .used c :: q.2)
      | .error stop => .error stop
    else
      .ok ({ u with kernel := r.1
                    waitingAt := Function.update u.waitingAt t (some conditionIndex) }, [.used c])

def destroyCondition (u : ConditionKernel T L C S) (conditionIndex : ℤ) (c : C) :
    ConditionKernel T L C S × List (Effect C) :=
  if ¬ (u.kernel.conditions c).hasWaiting then
    ({ u with conditionTable := u.conditionTable.clear conditionIndex }, [.used c, .freed c])
  else
    ({ u with conditionTable := u.conditionTable.setToBeDeleted conditionIndex },
      [.used c, .deferred c])

/-- A thread that is back from its `Condition::Wait` ends its `Wait_Syscall` at once, since
interrupts are off. -/
def dispatch (u : ConditionKernel T L C S) (t : T) : Result T L C S :=
  match Threads.kernel u.kernel (.dispatch t), u.waitingAt t with
  | .error _, _ => .error .notPossible
  | .ok r, none => .ok ({ u with kernel := r.1 }, [])
  | .ok r, some i =>
    if (r.1.inside t).isNone then
      { u with kernel := r.1, waitingAt := Function.update u.waitingAt t none }.endWait i
    else .ok ({ u with kernel := r.1 }, [])

end ConditionKernel

/-- One step, with its effects. `space` is the address space of each thread. -/
def conditionCall (space : T → S) (u : ConditionKernel T L C S) (call : ConditionCall T L C) :
    ConditionKernel.Result T L C S :=
  match call, u.kernel.currentThread with
  | .dispatch t, _ => u.dispatch t
  | .sleep, _ => u.step .sleep []
  | .wake t, _ => u.step (.wake t) []
  | _, none => .error .notPossible
  | .newCondition c memory, some t => u.newCondition t (space t) c memory
  | call, some t =>
    if u.creating t ≠ none then .error .notPossible
    else match call with
      | .createCondition => u.createCondition t
      | .wait i j => u.onBoth (space t) i j fun c lock => u.wait t i c lock
      | .signal i j =>
        u.onBoth (space t) i j fun c lock => u.step (.signal c (some lock)) [.used c]
      | .broadcast i j =>
        u.onBoth (space t) i j fun c lock => u.step (.broadcast c (some lock)) [.used c]
      | .destroyCondition i => u.onCondition (space t) i fun c => .ok (u.destroyCondition i c)
      | .acquire j =>
        match u.ownLock (space t) j with
        | none => .ok (u, [])
        | some lock => u.step (.acquire lock) []
      | .release j =>
        match u.ownLock (space t) j with
        | none => .ok (u, [])
        | some lock => u.step (.release lock) []
      | _ => .error .notPossible

abbrev ConditionStep (T L C S : Type*) :=
  Transition (ConditionKernel T L C S) (ConditionCall T L C × List (Effect C))

variable {space : T → S} {u u' : ConditionKernel T L C S} {call : ConditionCall T L C}
  {es es' : List (Effect C)} {t : T} {i j : ℤ} {c : C} {lock : L} {a : Action T L C}

/-- The running thread names a condition of its own address space. -/
structure ConditionKernel.Names (space : T → S) (u : ConditionKernel T L C S) (t : T) (i : ℤ)
    (c : C) : Prop where
  running : u.kernel.currentThread = some t
  valid : u.conditionTable.validates (space t) i = true
  object : u.object i = some c

/-- The cases of the end of `Wait_Syscall`. -/
inductive EndMove (u : ConditionKernel T L C S) (i : ℤ) :
    ConditionKernel T L C S → List (Effect C) → Prop
  | unmarked (hm : u.isToBeDeleted i = false) : EndMove u i u []
  | kept {c : C} (hm : u.isToBeDeleted i = true) (ho : u.object i = some c)
      (hq : (u.kernel.conditions c).queue ≠ []) : EndMove u i u [.used c]
  | freed {c : C} (hm : u.isToBeDeleted i = true) (ho : u.object i = some c)
      (hq : (u.kernel.conditions c).queue = []) :
      EndMove u i { u with conditionTable := u.conditionTable.clear i } [.used c, .freed c]

/-- The steps that neither begin nor end a `Wait`. -/
def Action.IsQuiet : Action T L C → Prop
  | .acquire _ | .release _ | .signal _ _ | .broadcast _ _ | .sleep | .wake _ => True
  | _ => False

/-- The cases of a step. -/
inductive ConditionMove (space : T → S) (u : ConditionKernel T L C S) :
    ConditionCall T L C → ConditionKernel T L C S → List (Effect C) → Prop
  | found {t : T} {n : ℕ} (hc : u.creating t = none)
      (hf : u.conditionTable.allocate.free? = some n) :
      ConditionMove space u .createCondition
        { u with conditionTable := u.conditionTable.allocate.take n
                 creating := Function.update u.creating t (some (n : ℤ)) } []
  | written {t : T} {i : ℤ} {c : C} {memory : Option L} (hc : u.creating t = some i)
      (hnew : c ∉ u.created) :
      ConditionMove space u (.newCondition c memory)
        { u with kernel := u.kernel.setCondition c (.new memory)
                 conditionTable := u.conditionTable.write i c (space t)
                 creating := Function.update u.creating t none
                 created := c :: u.created } []
  | ignored {call : ConditionCall T L C} : ConditionMove space u call u []
  | quiet {call : ConditionCall T L C} {a : Action T L C} {k' : Kernel T L C} {out : List T}
      (ha : a.IsQuiet) (hm : KernelMove u.kernel a k' out) :
      ConditionMove space u call { u with kernel := k' } []
  | woken {t : T} {i j : ℤ} {c : C} {call : ConditionCall T L C} {a : Action T L C}
      {k' : Kernel T L C} {out : List T} (hn : u.Names space t i c)
      (hcall : call = .signal i j ∨ call = .broadcast i j) (ha : a.IsQuiet)
      (hm : KernelMove u.kernel a k' out) :
      ConditionMove space u call { u with kernel := k' } [.used c]
  | asleep {t : T} {i j : ℤ} {c : C} {lock : L} (hn : u.Names space t i c)
      (ha : (u.kernel.conditions c).Accepts u.kernel.locks lock t) :
      ConditionMove space u (.wait i j)
        { u with kernel := (u.kernel.release t lock).1.enqueue t c lock
                 waitingAt := Function.update u.waitingAt t (some i) } [.used c]
  | rejected {t : T} {i j : ℤ} {c : C} {lock : L} {u' : ConditionKernel T L C S}
      {es : List (Effect C)} (hn : u.Names space t i c)
      (hl : u.ownLock (space t) j = some lock)
      (ha : ¬ (u.kernel.conditions c).Accepts u.kernel.locks lock t)
      (he : EndMove { u with kernel := u.kernel.setCondition c { u.kernel.conditions c with
        waitingLock := some ((u.kernel.conditions c).waitingLock.getD lock) } } i u' es) :
      ConditionMove space u (.wait i j) u' (.used c :: es)
  | destroyed {t : T} {i : ℤ} {c : C} (hn : u.Names space t i c)
      (hq : (u.kernel.conditions c).queue = []) :
      ConditionMove space u (.destroyCondition i)
        { u with conditionTable := u.conditionTable.clear i } [.used c, .freed c]
  | deferred {t : T} {i : ℤ} {c : C} (hn : u.Names space t i c)
      (hq : (u.kernel.conditions c).queue ≠ []) :
      ConditionMove space u (.destroyCondition i)
        { u with conditionTable := u.conditionTable.setToBeDeleted i } [.used c, .deferred c]
  | dispatched {t : T} (ht : t ∈ u.kernel.readyList)
      (hw : u.waitingAt t = none ∨ (u.kernel.dispatch t).inside t ≠ none) :
      ConditionMove space u (.dispatch t) { u with kernel := u.kernel.dispatch t } []
  | returned {t : T} {i : ℤ} {u' : ConditionKernel T L C S} {es : List (Effect C)}
      (ht : t ∈ u.kernel.readyList) (hw : u.waitingAt t = some i)
      (hb : (u.kernel.dispatch t).inside t = none)
      (he : EndMove { u with kernel := u.kernel.dispatch t
                             waitingAt := Function.update u.waitingAt t none } i u' es) :
      ConditionMove space u (.dispatch t) u' es

omit [DecidableEq T] [DecidableEq L] [DecidableEq C] in
theorem hasWaiting_iff (q : Condition T L) : q.hasWaiting = true ↔ q.queue ≠ [] := by
  simp [Condition.hasWaiting]

omit [DecidableEq T] [DecidableEq L] [DecidableEq C] [DecidableEq S] in
theorem endWait_move (h : u.endWait i = .ok (u', es)) : EndMove u i u' es := by
  unfold ConditionKernel.endWait at h
  cases hm : u.isToBeDeleted i with
  | false =>
    simp only [hm, Bool.false_eq_true, if_false, Except.ok.injEq, Prod.mk.injEq] at h
    obtain ⟨rfl, rfl⟩ := h
    exact .unmarked hm
  | true =>
    simp only [hm, if_true] at h
    cases ho : u.object i with
    | none => simp [ho] at h
    | some c =>
      simp only [ho, hasWaiting_iff, ne_eq, not_not] at h
      split_ifs at h with hq
      · obtain ⟨rfl, rfl⟩ := Prod.mk.inj (Except.ok.inj h)
        exact .freed hm ho hq
      · obtain ⟨rfl, rfl⟩ := Prod.mk.inj (Except.ok.inj h)
        exact .kept hm ho hq

omit [DecidableEq S] in
theorem conditionStep_ok (h : u.step a es = .ok (u', es')) :
    es' = es ∧ ∃ k' out, KernelMove u.kernel a k' out ∧ u' = { u with kernel := k' } := by
  unfold ConditionKernel.step at h
  cases hk : Threads.kernel u.kernel a with
  | error _ => simp [hk] at h
  | ok r =>
    simp only [hk, Except.ok.injEq, Prod.mk.injEq] at h
    exact ⟨h.2.symm, r.1, r.2, kernel_move hk, h.1.symm⟩

theorem quiet_move (ha : a.IsQuiet) (h : u.step a [] = .ok (u', es)) :
    ConditionMove space u call u' es := by
  obtain ⟨rfl, k', out, hm, rfl⟩ := conditionStep_ok h
  exact .quiet ha hm

omit [DecidableEq T] [DecidableEq L] [DecidableEq C] in
/-- A call on a condition is ignored or reaches the operation with the object. -/
theorem onCondition_ok {op : C → ConditionKernel.Result T L C S}
    (ht : u.kernel.currentThread = some t) (h : u.onCondition (space t) i op = .ok (u', es)) :
    (u' = u ∧ es = []) ∨ ∃ c, u.Names space t i c ∧ op c = .ok (u', es) := by
  unfold ConditionKernel.onCondition at h
  split_ifs at h with hv
  · cases ho : u.object i with
    | none => simp [ho] at h
    | some c => exact .inr ⟨c, ⟨ht, hv, ho⟩, by simpa [ho] using h⟩
  · exact .inl ⟨(Prod.mk.inj (Except.ok.inj h)).1.symm, (Prod.mk.inj (Except.ok.inj h)).2.symm⟩

omit [DecidableEq T] [DecidableEq L] [DecidableEq C] in
theorem onBoth_ok {op : C → L → ConditionKernel.Result T L C S}
    (ht : u.kernel.currentThread = some t) (h : u.onBoth (space t) i j op = .ok (u', es)) :
    (u' = u ∧ es = []) ∨ ∃ c lock, u.Names space t i c ∧ u.ownLock (space t) j = some lock ∧
      op c lock = .ok (u', es) := by
  unfold ConditionKernel.onBoth at h
  split_ifs at h with hv
  · cases hl : u.ownLock (space t) j with
    | none =>
      simp only [hl, Except.ok.injEq, Prod.mk.injEq] at h
      exact .inl ⟨h.1.symm, h.2.symm⟩
    | some lock =>
      cases ho : u.object i with
      | none => simp [hl, ho] at h
      | some c => exact .inr ⟨c, lock, ⟨ht, hv, ho⟩, rfl, by simpa [hl, ho] using h⟩
  · exact .inl ⟨(Prod.mk.inj (Except.ok.inj h)).1.symm, (Prod.mk.inj (Except.ok.inj h)).2.symm⟩

theorem wait_call_move (hp : Placed u.kernel) (hn : u.Names space t i c)
    (hl : u.ownLock (space t) j = some lock) (h : u.wait t i c lock = .ok (u', es)) :
    ConditionMove space u (.wait i j) u' es := by
  unfold ConditionKernel.wait at h
  cases hk : Threads.kernel u.kernel (.wait c (some lock)) with
  | error _ => simp [hk] at h
  | ok r =>
    obtain ⟨k', out⟩ := r
    simp only [hk] at h
    have hsame : ∀ {t'}, u.kernel.currentThread = some t' → t = t' := fun h' =>
      Option.some.inj (hn.running.symm.trans h')
    cases kernel_move hk with
    | waited ht ha =>
      obtain rfl := hsame ht
      have hin : (((u.kernel.release t lock).1.enqueue t c lock).inside t).isNone = false := by
        simp [Kernel.enqueue, Kernel.fallAsleep]
      simp only [hin, Bool.false_eq_true, if_false, Except.ok.injEq, Prod.mk.injEq] at h
      obtain ⟨rfl, rfl⟩ := h
      exact .asleep hn ha
    | bound ht ha =>
      obtain rfl := hsame ht
      have hin : (u.kernel.inside t).isNone = true := by simp [(hp.running t ht).1]
      rw [if_pos (show ((u.kernel.setCondition c _).inside t).isNone = true from hin)] at h
      split at h
      · next q he =>
        obtain ⟨rfl, rfl⟩ := Prod.mk.inj (Except.ok.inj h)
        exact .rejected hn hl ha (endWait_move he)
      · cases h
    | refused ht ha => simp at ha

theorem dispatch_call_move (h : u.dispatch t = .ok (u', es)) :
    ConditionMove space u (.dispatch t) u' es := by
  unfold ConditionKernel.dispatch at h
  cases hk : Threads.kernel u.kernel (.dispatch t) with
  | error _ => simp [hk] at h
  | ok r =>
    obtain ⟨k', out⟩ := r
    cases kernel_move hk with
    | dispatched ht =>
      cases hw : u.waitingAt t with
      | none =>
        simp only [hk, hw, Except.ok.injEq, Prod.mk.injEq] at h
        obtain ⟨rfl, rfl⟩ := h
        exact .dispatched ht (.inl hw)
      | some i =>
        simp only [hk, hw, Option.isNone_iff_eq_none] at h
        split_ifs at h with hb
        · exact .returned ht hw hb (endWait_move h)
        · obtain ⟨rfl, rfl⟩ := Prod.mk.inj (Except.ok.inj h)
          exact .dispatched ht (.inr hb)
    | refused ht ha => simp at ha

theorem conditionCall_move (hp : Placed u.kernel) (h : conditionCall space u call = .ok (u', es)) :
    ConditionMove space u call u' es := by
  cases ht : u.kernel.currentThread with
  | none =>
    cases call with
    | dispatch t => exact dispatch_call_move h
    | wake t => exact quiet_move (a := .wake t) trivial h
    | sleep => exact quiet_move (a := .sleep) trivial h
    | _ => simp [conditionCall, ht] at h
  | some t =>
    cases call with
    | dispatch t' => exact dispatch_call_move h
    | wake t' => exact quiet_move (a := .wake t') trivial h
    | sleep => exact quiet_move (a := .sleep) trivial h
    | newCondition c memory =>
      simp only [conditionCall, ht, ConditionKernel.newCondition] at h
      cases hc : u.creating t with
      | none => simp [hc] at h
      | some i =>
        simp only [hc] at h
        split_ifs at h with hnew
        obtain ⟨rfl, rfl⟩ := Prod.mk.inj (Except.ok.inj h)
        exact .written hc hnew
    | createCondition =>
      simp only [conditionCall, ht, ne_eq, ite_not] at h
      split_ifs at h with hc
      unfold ConditionKernel.createCondition at h
      cases hf : u.conditionTable.allocate.free? with
      | none => simp [hf] at h
      | some n =>
        simp only [hf, Except.ok.injEq, Prod.mk.injEq] at h
        obtain ⟨rfl, rfl⟩ := h
        exact .found hc hf
    | wait i j =>
      simp only [conditionCall, ht] at h
      split_ifs at h
      rcases onBoth_ok ht h with ⟨rfl, rfl⟩ | ⟨c, lock, hn, hl, h⟩
      · exact .ignored
      · exact wait_call_move hp hn hl h
    | signal i j =>
      simp only [conditionCall, ht] at h
      split_ifs at h
      rcases onBoth_ok ht h with ⟨rfl, rfl⟩ | ⟨c, lock, hn, hl, h⟩
      · exact .ignored
      · obtain ⟨rfl, k', out, hm, rfl⟩ := conditionStep_ok h
        exact .woken hn (.inl rfl) (a := .signal c (some lock)) trivial hm
    | broadcast i j =>
      simp only [conditionCall, ht] at h
      split_ifs at h
      rcases onBoth_ok ht h with ⟨rfl, rfl⟩ | ⟨c, lock, hn, hl, h⟩
      · exact .ignored
      · obtain ⟨rfl, k', out, hm, rfl⟩ := conditionStep_ok h
        exact .woken hn (.inr rfl) (a := .broadcast c (some lock)) trivial hm
    | destroyCondition i =>
      simp only [conditionCall, ht] at h
      split_ifs at h
      rcases onCondition_ok ht h with ⟨rfl, rfl⟩ | ⟨c, hn, h⟩
      · exact .ignored
      · simp only [ConditionKernel.destroyCondition, hasWaiting_iff, ne_eq, not_not] at h
        split_ifs at h with hq
        · obtain ⟨rfl, rfl⟩ := Prod.mk.inj (Except.ok.inj h)
          exact .destroyed hn hq
        · obtain ⟨rfl, rfl⟩ := Prod.mk.inj (Except.ok.inj h)
          exact .deferred hn hq
    | acquire j | release j =>
      simp only [conditionCall, ht] at h
      split_ifs at h
      cases hl : u.ownLock (space t) j with
      | none =>
        simp only [hl, Except.ok.injEq, Prod.mk.injEq] at h
        obtain ⟨rfl, rfl⟩ := h
        exact .ignored
      | some lock =>
        simp only [hl] at h
        exact quiet_move (by trivial) h

end Nachos.Threads
