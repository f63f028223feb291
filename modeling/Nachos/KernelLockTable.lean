import Nachos.SlotTables
import Nachos.KernelThreads

/-! The lock table of `userprog/exception.cc`: the syscalls of user programs on locks that
are created and destroyed while threads use them. A lock is an address; `new` may return any
that no entry holds. The conditions are created before and stay. -/
namespace Nachos.Threads
open Executions SlotTables

/-- `MAX_LOCKS_CONDITIONS`. -/
def maxLocksConditions : ℕ := 500

structure LockEntry (L S : Type*) where
  lock : L
  lockSpace : S
  isToBeDeleted : Bool
  acquireCount : ℤ
  deriving DecidableEq, Repr

/-- The entry of a slot is missing from `lockMap->Find` until its CreateLock has written it. -/
structure UserKernel (T L C S : Type*) where
  kernel : Kernel T L C
  lockTable : SlotTable (Option (LockEntry L S))
  /-- the slot that a CreateLock of this thread has found -/
  creating : T → Option ℕ

inductive Syscall (T L C : Type*)
  | createLock
  /-- the rest of CreateLock: the new lock, and what its owner field held before -/
  | newLock (lock : L) (memory : Option T)
  | acquire (lockIndex : ℤ)
  | release (lockIndex : ℤ)
  | wait (condition : C) (lockIndex : ℤ)
  | signal (condition : C) (lockIndex : ℤ)
  | broadcast (condition : C) (lockIndex : ℤ)
  | destroyLock (lockIndex : ℤ)
  | dispatch (thread : T)
  | sleep
  | wake (thread : T)
  deriving DecidableEq, Repr

inductive Stop
  /-- no thread runs, or the thread named cannot run -/
  | notPossible
  /-- `interrupt->Halt()` when the table is full -/
  | halted
  /-- a call uses an entry whose `lock` is not set yet or deleted -/
  | unsetLock
  deriving DecidableEq, Repr

variable {T L C S : Type*} [DecidableEq T] [DecidableEq L] [DecidableEq C] [DecidableEq S]

namespace UserKernel

def initial (binding : C → Option L) : UserKernel T L C S :=
  ⟨.initial (fun _ => none) binding, [], fun _ => none⟩

def setEntry (u : UserKernel T L C S) (i : ℤ) (e : LockEntry L S) : UserKernel T L C S :=
  { u with lockTable := put u.lockTable i (some e) }

/-- `delete` and `lockMap->Clear`. -/
def deleteLock (u : UserKernel T L C S) (i : ℤ) : UserKernel T L C S :=
  { u with lockTable := clear u.lockTable i }

/-- A step of the scheduler or of a lock or condition. -/
def step (u : UserKernel T L C S) (a : Action T L C) :
    Except Stop (UserKernel T L C S × Option L) :=
  match Threads.kernel u.kernel a with
  | .ok r => .ok ({ u with kernel := r.1 }, none)
  | .error _ => .error .notPossible

/-- The three validations of a lock index, in front of the operation. -/
def onLock (u : UserKernel T L C S) (space : S) (lockIndex : ℤ)
    (op : LockEntry L S → Except Stop (UserKernel T L C S × Option L)) :
    Except Stop (UserKernel T L C S × Option L) :=
  match live? u.lockTable lockIndex with
  | none => .ok (u, none)
  | some none => .error .unsetLock
  | some (some e) => if e.lockSpace = space then op e else .ok (u, none)

def createLock (u : UserKernel T L C S) (t : T) : Except Stop (UserKernel T L C S × Option L) :=
  let table := allocate maxLocksConditions u.lockTable
  match firstFree table with
  | none => .error .halted
  | some i =>
    .ok ({ u with lockTable := put table i none
                  creating := Function.update u.creating t (some i) }, none)

def newLock (u : UserKernel T L C S) (t : T) (space : S) (lock : L) (memory : Option T) :
    Except Stop (UserKernel T L C S × Option L) :=
  match u.creating t with
  | none => .error .notPossible
  | some i =>
    if (search u.lockTable fun e => e.any fun e => e.lock = lock).isSome then .error .notPossible
    else
      .ok (({ u with kernel := u.kernel.setLock lock (.new memory)
                     creating := Function.update u.creating t none }).setEntry i
        ⟨lock, space, false, 0⟩, none)

def acquireLock (u : UserKernel T L C S) (i : ℤ) (e : LockEntry L S) :
    Except Stop (UserKernel T L C S × Option L) :=
  (u.setEntry i { e with acquireCount := e.acquireCount + 1 }).step (.acquire e.lock)

/-- The lock of a marked entry is deleted when the count is 0 and it is free. -/
def releaseLock (u : UserKernel T L C S) (t : T) (i : ℤ) (e : LockEntry L S) :
    UserKernel T L C S × Option L :=
  let e' := { e with acquireCount := e.acquireCount - 1 }
  let u' := { u with kernel := (u.kernel.release t e.lock).1 }
  if e'.isToBeDeleted ∧ e'.acquireCount = 0 ∧ ¬ (u'.kernel.locks e.lock).isBusy then
    (u'.deleteLock i, some e.lock)
  else (u'.setEntry i e', none)

def destroyLock (u : UserKernel T L C S) (i : ℤ) (e : LockEntry L S) :
    UserKernel T L C S × Option L :=
  if ¬ ((u.kernel.locks e.lock).isBusy ∧ e.acquireCount = 0) then (u.deleteLock i, some e.lock)
  else (u.setEntry i { e with isToBeDeleted := true }, none)

end UserKernel

/-- One step, with the lock that it deletes. `space` is the address space of each thread. -/
def syscall (space : T → S) (u : UserKernel T L C S) (call : Syscall T L C) :
    Except Stop (UserKernel T L C S × Option L) :=
  match call, u.kernel.currentThread with
  | .dispatch t, _ => u.step (.dispatch t)
  | .sleep, _ => u.step .sleep
  | .wake t, _ => u.step (.wake t)
  | _, none => .error .notPossible
  | .newLock lock memory, some t => u.newLock t (space t) lock memory
  | call, some t =>
    if u.creating t ≠ none then .error .notPossible
    else match call with
      | .createLock => u.createLock t
      | .acquire i => u.onLock (space t) i fun e => u.acquireLock i e
      | .release i => u.onLock (space t) i fun e => .ok (u.releaseLock t i e)
      | .wait c i => u.onLock (space t) i fun e => u.step (.wait c (some e.lock))
      | .signal c i => u.onLock (space t) i fun e => u.step (.signal c (some e.lock))
      | .broadcast c i => u.onLock (space t) i fun e => u.step (.broadcast c (some e.lock))
      | .destroyLock i => u.onLock (space t) i fun e => .ok (u.destroyLock i e)
      | _ => .error .notPossible

abbrev SyscallStep (T L C S : Type*) := Transition (UserKernel T L C S) (Syscall T L C × Option L)

variable {space : T → S} {u u' : UserKernel T L C S} {call : Syscall T L C} {deleted : Option L}
  {t : T} {i : ℤ} {e : LockEntry L S} {l : L} {k k' : Kernel T L C} {a : Action T L C}
  {out : List T}

/-- The running thread names a lock of its own address space. -/
structure UserKernel.Targets (space : T → S) (u : UserKernel T L C S) (t : T) (i : ℤ)
    (e : LockEntry L S) : Prop where
  running : u.kernel.currentThread = some t
  entry : live? u.lockTable i = some (some e)
  ownSpace : e.lockSpace = space t

/-- The steps of the scheduler. -/
def Action.IsSchedule : Action T L C → Prop
  | .dispatch _ | .sleep | .wake _ => True
  | _ => False

/-- The calls on a condition, with the lock of an entry. -/
inductive OnCondition (i : ℤ) (lock : L) : Syscall T L C → Action T L C → Prop
  | wait (c : C) : OnCondition i lock (.wait c i) (.wait c (some lock))
  | signal (c : C) : OnCondition i lock (.signal c i) (.signal c (some lock))
  | broadcast (c : C) : OnCondition i lock (.broadcast c i) (.broadcast c (some lock))

/-- The cases of a step. -/
inductive SyscallMove (space : T → S) (u : UserKernel T L C S) :
    Syscall T L C → UserKernel T L C S → Option L → Prop
  | found {t : T} {i : ℕ} (hf : firstFree (allocate maxLocksConditions u.lockTable) = some i) :
      SyscallMove space u .createLock
        { u with lockTable := put (allocate maxLocksConditions u.lockTable) i none
                 creating := Function.update u.creating t (some i) } none
  | created {t : T} {i : ℕ} {lock : L} {memory : Option T} (hc : u.creating t = some i)
      (hfresh : ∀ j e, live? u.lockTable j = some (some e) → e.lock ≠ lock) :
      SyscallMove space u (.newLock lock memory)
        (({ u with kernel := u.kernel.setLock lock (.new memory)
                   creating := Function.update u.creating t none }).setEntry i
          ⟨lock, space t, false, 0⟩) none
  | ignored {call : Syscall T L C} (hn : ∀ t i e, u.Targets space t i e →
      call ≠ .release i ∧ call ≠ .destroyLock i) : SyscallMove space u call u none
  | acquired {t : T} {i : ℤ} {e : LockEntry L S} {k' : Kernel T L C} {out : List T}
      (ht : u.Targets space t i e) (hm : KernelMove u.kernel (.acquire e.lock) k' out) :
      SyscallMove space u (.acquire i)
        ({ u with kernel := k' }.setEntry i { e with acquireCount := e.acquireCount + 1 }) none
  | released {t : T} {i : ℤ} {e : LockEntry L S} (ht : u.Targets space t i e) :
      SyscallMove space u (.release i) (u.releaseLock t i e).1 (u.releaseLock t i e).2
  | conditioned {t : T} {i : ℤ} {e : LockEntry L S} {call : Syscall T L C} {a : Action T L C}
      {k' : Kernel T L C} {out : List T} (ht : u.Targets space t i e)
      (ha : OnCondition i e.lock call a) (hm : KernelMove u.kernel a k' out) :
      SyscallMove space u call { u with kernel := k' } none
  | destroyed {t : T} {i : ℤ} {e : LockEntry L S} (ht : u.Targets space t i e) :
      SyscallMove space u (.destroyLock i) (u.destroyLock i e).1 (u.destroyLock i e).2
  | scheduled {call : Syscall T L C} {a : Action T L C} {k' : Kernel T L C} {out : List T}
      (ha : a.IsSchedule) (hn : ∀ i, call ≠ .release i ∧ call ≠ .destroyLock i)
      (hm : KernelMove u.kernel a k' out) : SyscallMove space u call { u with kernel := k' } none

omit [DecidableEq S] in
theorem step_eq_ok {r : UserKernel T L C S × Option L} (h : u.step a = .ok r) :
    ∃ k' out, KernelMove u.kernel a k' out ∧ r = ({ u with kernel := k' }, none) := by
  unfold UserKernel.step at h
  cases hk : Threads.kernel u.kernel a with
  | error _ => simp [hk] at h
  | ok p =>
    simp only [hk, Except.ok.injEq] at h
    exact ⟨p.1, p.2, kernel_move hk, h.symm⟩

omit [DecidableEq T] [DecidableEq L] [DecidableEq C] in
/-- A call on a lock is ignored or reaches the operation with the entry. -/
theorem onLock_eq_ok {op : LockEntry L S → Except Stop (UserKernel T L C S × Option L)}
    {r : UserKernel T L C S × Option L} (ht : u.kernel.currentThread = some t)
    (h : u.onLock (space t) i op = .ok r) :
    (r = (u, none) ∧ ∀ t e, ¬ u.Targets space t i e) ∨
      ∃ e, u.Targets space t i e ∧ op e = .ok r := by
  have hsame : ∀ {t'}, u.kernel.currentThread = some t' → t' = t := fun h' =>
    Option.some.inj (h'.symm.trans ht)
  unfold UserKernel.onLock at h
  cases hl : live? u.lockTable i with
  | none =>
    simp only [hl, Except.ok.injEq] at h
    refine .inl ⟨h.symm, fun t' e ht' => ?_⟩
    simp [ht'.entry] at hl
  | some slot =>
    cases slot with
    | none => simp [hl] at h
    | some e =>
      simp only [hl] at h
      split_ifs at h with hs
      · exact .inr ⟨e, ⟨ht, hl, hs⟩, h⟩
      · refine .inl ⟨(Except.ok.inj h).symm, fun t' e' ht' => hs ?_⟩
        obtain rfl := hsame ht'.running
        obtain rfl : e' = e := by simpa [hl] using ht'.entry.symm
        exact ht'.ownSpace

/-- The calls of the running thread, when it is not inside a CreateLock. -/
theorem call_move {op : LockEntry L S → Except Stop (UserKernel T L C S × Option L)}
    {r : UserKernel T L C S × Option L} (ht : u.kernel.currentThread = some t)
    (hcall : ∀ j, call = .release j ∨ call = .destroyLock j → j = i)
    (hop : ∀ e, u.Targets space t i e → op e = .ok r → SyscallMove space u call r.1 r.2)
    (h : u.onLock (space t) i op = .ok r) : SyscallMove space u call r.1 r.2 := by
  rcases onLock_eq_ok ht h with ⟨rfl, hnone⟩ | ⟨e, he, hr⟩
  · refine .ignored fun t' j e' ht' => ⟨?_, ?_⟩
    · rintro rfl
      exact hnone t' e' (hcall j (.inl rfl) ▸ ht')
    · rintro rfl
      exact hnone t' e' (hcall j (.inr rfl) ▸ ht')
  · exact hop e he hr

omit [DecidableEq S] in
theorem schedule_move (ha : a.IsSchedule) (hn : ∀ i, call ≠ .release i ∧ call ≠ .destroyLock i)
    (h : u.step a = .ok (u', deleted)) : SyscallMove space u call u' deleted := by
  obtain ⟨k', out, hm, hr⟩ := step_eq_ok h
  obtain ⟨rfl, rfl⟩ := Prod.mk.inj hr
  exact .scheduled ha hn hm

theorem syscall_move (h : syscall space u call = .ok (u', deleted)) :
    SyscallMove space u call u' deleted := by
  cases ht : u.kernel.currentThread with
  | none =>
    cases call with
    | dispatch t => exact schedule_move (a := .dispatch t) trivial (by simp) h
    | wake t => exact schedule_move (a := .wake t) trivial (by simp) h
    | sleep => exact schedule_move (a := .sleep) trivial (by simp) h
    | _ => simp [syscall, ht] at h
  | some t =>
    cases call with
    | dispatch t' => exact schedule_move (a := .dispatch t') trivial (by simp) h
    | wake t' => exact schedule_move (a := .wake t') trivial (by simp) h
    | sleep => exact schedule_move (a := .sleep) trivial (by simp) h
    | newLock lock memory =>
      simp only [syscall, ht, UserKernel.newLock] at h
      cases hc : u.creating t with
      | none => simp [hc] at h
      | some i =>
        simp only [hc] at h
        split_ifs at h with hs
        obtain ⟨rfl, rfl⟩ := Prod.mk.inj (Except.ok.inj h)
        refine .created hc fun j e he hl => ?_
        have hf := search_none.mp (Option.not_isSome_iff_eq_none.mp hs) j _ he
        simp [hl] at hf
    | createLock =>
      simp only [syscall, ht] at h
      split_ifs at h
      unfold UserKernel.createLock at h
      cases hf : firstFree (allocate maxLocksConditions u.lockTable) with
      | none => simp [hf] at h
      | some i =>
        simp only [hf, Except.ok.injEq, Prod.mk.injEq] at h
        obtain ⟨rfl, rfl⟩ := h
        exact .found hf
    | acquire i =>
      simp only [syscall, ht] at h
      split_ifs at h
      refine call_move (r := (u', deleted)) ht (by simp) (fun e he hr => ?_) h
      obtain ⟨k', out, hm, hr⟩ := step_eq_ok hr
      obtain ⟨rfl, rfl⟩ := Prod.mk.inj hr
      exact .acquired he hm
    | release i =>
      simp only [syscall, ht] at h
      split_ifs at h
      refine call_move (r := (u', deleted)) ht (by simp) (fun e he hr => ?_) h
      rw [← Except.ok.inj hr]
      exact .released he
    | destroyLock i =>
      simp only [syscall, ht] at h
      split_ifs at h
      refine call_move (r := (u', deleted)) ht (by simp) (fun e he hr => ?_) h
      rw [← Except.ok.inj hr]
      exact .destroyed he
    | wait c i | signal c i | broadcast c i =>
      simp only [syscall, ht] at h
      split_ifs at h
      refine call_move (r := (u', deleted)) ht (by simp) (fun e he hr => ?_) h
      obtain ⟨k', out, hm, hr⟩ := step_eq_ok hr
      obtain ⟨rfl, rfl⟩ := Prod.mk.inj hr
      exact .conditioned he (by constructor) hm

end Nachos.Threads
