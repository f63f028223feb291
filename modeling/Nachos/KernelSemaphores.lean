import Nachos.KernelSynch
import Nachos.Executions

/-! The semaphores of the kernel, `threads/synch.cc`. Interrupts are off inside `P` and `V`, but a
thread that sleeps in `P` looks at the value again only when it runs the next time. -/
namespace Nachos.Threads
open Executions

structure Semaphore (T : Type*) where
  value : ℤ
  queue : List T
  deriving DecidableEq, Repr

namespace Semaphore
variable {T : Type*}

def new (initialValue : ℤ) : Semaphore T := ⟨initialValue, []⟩

/-- A turn of the loop in `P`. The flag tells whether the thread has left the loop; if not, it
sleeps in the queue. -/
def p (s : Semaphore T) (currentThread : T) : Semaphore T × Bool :=
  if s.value = 0 then ({ s with queue := s.queue ++ [currentThread] }, false)
  else ({ s with value := s.value - 1 }, true)

/-- With the thread that is made ready, if any. -/
def v (s : Semaphore T) : Semaphore T × Option T :=
  match s.queue with
  | thread :: rest => (⟨s.value + 1, rest⟩, some thread)
  | [] => (⟨s.value + 1, []⟩, none)

theorem p_sleeps {s : Semaphore T} (h : s.value = 0) (t : T) :
    s.p t = ({ s with queue := s.queue ++ [t] }, false) := if_pos h

theorem p_passes {s : Semaphore T} (h : s.value ≠ 0) (t : T) :
    s.p t = ({ s with value := s.value - 1 }, true) := if_neg h

theorem v_wakes {s : Semaphore T} {t : T} {rest : List T} (h : s.queue = t :: rest) :
    s.v = (⟨s.value + 1, rest⟩, some t) := by
  simp [v, h]

theorem v_counts {s : Semaphore T} (h : s.queue = []) : s.v = (⟨s.value + 1, []⟩, none) := by
  simp [v, h]

end Semaphore

/-! A semaphore among threads. -/

/-- The threads of `ready` have been woken in `P` and have not run since. -/
structure SemaphoreState (T : Type*) where
  semaphore : Semaphore T
  ready : List T

inductive SemaphoreCall (T : Type*)
  /-- the thread begins with `P`, or goes on in it -/
  | p (t : T)
  /-- a thread or an interrupt handler calls `V` -/
  | v

namespace SemaphoreState
variable {T : Type*} [DecidableEq T]

/-- A thread that sleeps cannot run. The answer tells whether a `P` has come to its end. -/
def step (s : SemaphoreState T) : SemaphoreCall T → Option (SemaphoreState T × Bool)
  | .p t =>
    if t ∈ s.semaphore.queue then none
    else
      let (semaphore, passed) := s.semaphore.p t
      some (⟨semaphore, s.ready.erase t⟩, passed)
  | .v =>
    let (semaphore, woken) := s.semaphore.v
    some (⟨semaphore, s.ready ++ woken.toList⟩, false)

end SemaphoreState

variable {T : Type*} [DecidableEq T]

def SemaphoreStep (s : SemaphoreState T) (e : SemaphoreCall T × Bool) (s' : SemaphoreState T) :
    Prop := s.step e.1 = some (s', e.2)

def vs (tr : List (Transition (SemaphoreState T) (SemaphoreCall T × Bool))) : ℕ :=
  tr.countP fun x => match x.event.1 with
    | .p _ => false
    | .v => true

def passes (tr : List (Transition (SemaphoreState T) (SemaphoreCall T × Bool))) : ℕ :=
  tr.countP fun x => x.event.2

/-- What is left of the initial value and of the calls of `V` is the value. While a thread sleeps,
the value does not exceed the number of those that were woken and will look for it. -/
structure Accounted (initialValue : ℤ)
    (tr : List (Transition (SemaphoreState T) (SemaphoreCall T × Bool))) (s : SemaphoreState T) :
    Prop where
  value : s.semaphore.value + passes tr = initialValue + vs tr
  nonneg : 0 ≤ s.semaphore.value
  awake : s.semaphore.queue ≠ [] → s.semaphore.value ≤ s.ready.length
  once : (s.semaphore.queue ++ s.ready).Nodup

section
variable {initialValue : ℤ} {s : SemaphoreState T}
  {tr : List (Transition (SemaphoreState T) (SemaphoreCall T × Bool))}

theorem Accounted.sleeps (h : Accounted initialValue tr s) {t : T}
    (ht : t ∉ s.semaphore.queue) (hzero : s.semaphore.value = 0) {s' : SemaphoreState T}
    (hs' : s' = ⟨{ s.semaphore with queue := s.semaphore.queue ++ [t] }, s.ready.erase t⟩) :
    Accounted initialValue (tr ++ [⟨s, (.p t, false), s'⟩]) s' := by
  obtain ⟨hvalue, hnonneg, -, honce⟩ := h
  obtain ⟨hq, hr, hdisj⟩ := List.nodup_append.mp honce
  have hnot : t ∉ s.semaphore.queue ++ s.ready.erase t := by
    rw [List.mem_append, hr.mem_erase_iff]
    rintro (hmem | ⟨hne, -⟩)
    · exact ht hmem
    · exact hne rfl
  have hleft := List.nodup_cons.mpr ⟨hnot, honce.sublist (List.erase_sublist.append_left _)⟩
  subst hs'
  refine ⟨by simpa [vs, passes, List.countP_append] using hvalue, hnonneg,
    fun _ => by simp [hzero], ?_⟩
  rw [List.append_assoc]
  exact List.perm_middle.nodup_iff.mpr hleft

theorem Accounted.passes (h : Accounted initialValue tr s) {t : T} (hpos : s.semaphore.value ≠ 0)
    {s' : SemaphoreState T}
    (hs' : s' = ⟨{ s.semaphore with value := s.semaphore.value - 1 }, s.ready.erase t⟩) :
    Accounted initialValue (tr ++ [⟨s, (.p t, true), s'⟩]) s' := by
  obtain ⟨hvalue, hnonneg, hawake, honce⟩ := h
  subst hs'
  refine ⟨?_, by simp only; omega, fun hq => ?_, honce.sublist (List.erase_sublist.append_left _)⟩
  · simp only [vs, Threads.passes, List.countP_append, List.countP_singleton] at hvalue ⊢
    simp
    omega
  · have hle := hawake hq
    have herase : s.ready.length ≤ (s.ready.erase t).length + 1 := by
      have := List.le_length_erase (a := t) (l := s.ready)
      omega
    simp only
    omega

omit [DecidableEq T] in
theorem Accounted.v (h : Accounted initialValue tr s) {s' : SemaphoreState T}
    (hs' : s' = ⟨s.semaphore.v.1, s.ready ++ s.semaphore.v.2.toList⟩) :
    Accounted initialValue (tr ++ [⟨s, (.v, false), s'⟩]) s' := by
  obtain ⟨hvalue, hnonneg, hawake, honce⟩ := h
  have hcount : s.semaphore.value + 1 + Threads.passes (tr ++ [⟨s, (.v, false), s'⟩]) =
      initialValue + vs (tr ++ [⟨s, (.v, false), s'⟩]) := by
    simp only [vs, Threads.passes, List.countP_append, List.countP_singleton] at hvalue ⊢
    simp
    omega
  subst hs'
  cases hqueue : s.semaphore.queue with
  | nil =>
    rw [Semaphore.v_counts hqueue] at hcount ⊢
    exact ⟨hcount, by simp only; omega, fun hq => absurd rfl hq, by simpa [hqueue] using honce⟩
  | cons t rest =>
    rw [Semaphore.v_wakes hqueue] at hcount ⊢
    have hle := hawake (by simp [hqueue])
    refine ⟨hcount, by simp only; omega, fun _ => ?_, ?_⟩
    · simp only [Option.toList_some, List.length_append, List.length_singleton]
      omega
    · rw [hqueue] at honce
      have hperm : (rest ++ (s.ready ++ [t])).Perm (t :: rest ++ s.ready) := by
        rw [← List.append_assoc]
        exact List.perm_append_singleton _ _
      exact hperm.nodup_iff.mpr honce

end

theorem semaphore_accounted {initialValue : ℤ} (h0 : 0 ≤ initialValue)
    {tr : List (Transition (SemaphoreState T) (SemaphoreCall T × Bool))} {s : SemaphoreState T}
    (h : Execution SemaphoreStep ⟨.new initialValue, []⟩ tr s) : Accounted initialValue tr s := by
  refine h.history_invariant (Q := fun _ => True) ⟨by simp [vs, passes, Semaphore.new], h0,
    fun hq => absurd rfl hq, List.nodup_nil⟩ ?_ fun _ _ => trivial
  rintro tr ⟨s, ⟨e, passed⟩, s'⟩ hs hstep -
  simp only [SemaphoreStep] at hstep
  dsimp only at hs ⊢
  cases e with
  | p t =>
    simp only [SemaphoreState.step] at hstep
    split at hstep
    · cases hstep
    · next hasleep =>
      by_cases hzero : s.semaphore.value = 0
      · rw [Semaphore.p_sleeps hzero] at hstep
        cases hstep
        exact hs.sleeps hasleep hzero rfl
      · rw [Semaphore.p_passes hzero] at hstep
        cases hstep
        exact hs.passes hzero rfl
  | v =>
    simp only [SemaphoreState.step] at hstep
    cases hstep
    exact hs.v rfl

/-- The first thread sleeps, and when it has been woken the second one takes the value. -/
theorem semaphore_accounted_overtaken : ∃ tr s,
    Execution SemaphoreStep (⟨.new 0, []⟩ : SemaphoreState ℕ) tr s ∧
    tr.map (fun x => x.event) = [(.p 1, false), (.v, false), (.p 2, true), (.p 1, false)] ∧
    s.semaphore.queue = [1] ∧ Accounted 0 tr s := by
  have h₁ : SemaphoreStep (⟨⟨0, []⟩, []⟩ : SemaphoreState ℕ) (.p 1, false) ⟨⟨0, [1]⟩, []⟩ := rfl
  have h₂ : SemaphoreStep (⟨⟨0, [1]⟩, []⟩ : SemaphoreState ℕ) (.v, false) ⟨⟨1, []⟩, [1]⟩ := rfl
  have h₃ : SemaphoreStep (⟨⟨1, []⟩, [1]⟩ : SemaphoreState ℕ) (.p 2, true) ⟨⟨0, []⟩, [1]⟩ := rfl
  have h₄ : SemaphoreStep (⟨⟨0, []⟩, [1]⟩ : SemaphoreState ℕ) (.p 1, false) ⟨⟨0, [1]⟩, []⟩ := rfl
  have h : Execution SemaphoreStep (⟨.new 0, []⟩ : SemaphoreState ℕ) _ _ :=
    (((Execution.start.extend h₁).extend h₂).extend h₃).extend h₄
  exact ⟨_, _, h, rfl, rfl, semaphore_accounted le_rfl h⟩

end Nachos.Threads
