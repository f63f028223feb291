import Nachos.KernelThreads

/-! The binding of a kernel condition to the lock of its waiters. The constructor leaves
`waitingLock` as the memory was, and `Wait` sets it before it checks the caller. -/
namespace Nachos.Threads
open Executions

variable {T L C : Type*} [DecidableEq T] [DecidableEq L] [DecidableEq C]
  {k k' : Kernel T L C} {a : Action T L C} {t u : T} {l lock : L} {c : C} {out : List T}

namespace Kernel

omit [DecidableEq C] in
@[simp] theorem acquire_conditions (k : Kernel T L C) (t : T) (lock : L) (call : Inside L C) :
    (k.acquire t lock call).conditions = k.conditions := by
  unfold Kernel.acquire
  dsimp only
  split_ifs <;> rfl

omit [DecidableEq C] in
@[simp] theorem release_conditions (k : Kernel T L C) (t : T) (lock : L) :
    (k.release t lock).1.conditions = k.conditions := rfl

omit [DecidableEq C] in
@[simp] theorem dispatch_conditions (k : Kernel T L C) (t : T) :
    (k.dispatch t).conditions = k.conditions := by
  unfold Kernel.dispatch
  dsimp only
  split
  · rw [acquire_conditions]
  · rfl

end Kernel

/-- The condition remembers a lock exactly while somebody waits, and it is the lock that
every waiter came with. -/
structure Bound (k : Kernel T L C) (c : C) : Prop where
  idle : (k.conditions c).waitingLock = none ↔ (k.conditions c).queue = []
  lock : ∀ t ∈ (k.conditions c).queue, ∃ l, (k.conditions c).waitingLock = some l ∧
    k.inside t = some (.wait c l)

/-- A call on the condition that comes back without having done anything. -/
def Rejected (c : C) (x : KernelStep T L C) : Prop :=
  ∃ conditionLock, (x.event.1 = .wait c conditionLock ∧ x.after.currentThread ≠ none) ∨
    (x.event.1 = .signal c conditionLock ∧ x.event.2 = []) ∨
    (x.event.1 = .broadcast c conditionLock ∧ x.event.2 = [])

/-- What a step has to keep of condition `c`. -/
structure BindingLaw (c : C) (x : KernelStep T L C) : Prop where
  bound : Bound x.after c
  rejected : Rejected c x → x.after.conditions c = x.before.conditions c
  accepted : ∀ t l, x.event.1 = .wait c (some l) → x.before.currentThread = some t →
    (x.before.locks l).threadWithPossession = some t → (x.before.conditions c).queue = [] →
    t ∈ (x.after.conditions c).queue

/-- A `Wait` on a condition without waiters names a lock that the caller possesses. -/
def WaitsWithItsLock (c : C) (x : KernelStep T L C) : Prop :=
  ∀ t l, x.event.1 = .wait c (some l) → x.before.currentThread = some t →
    (x.before.conditions c).queue = [] → (x.before.locks l).threadWithPossession = some t

omit [DecidableEq T] [DecidableEq L] [DecidableEq C] in
theorem bound_of_placed (h : Placed k)
    (hi : (k.conditions c).waitingLock = none ↔ (k.conditions c).queue = []) : Bound k c := by
  refine ⟨hi, fun t ht => ?_⟩
  obtain ⟨-, l, hl, hw⟩ := h.waiting c t ht
  exact ⟨l, hw, hl⟩

omit [DecidableEq T] [DecidableEq L] [DecidableEq C] in
/-- A step that keeps the condition and is no accepted call on it. -/
theorem bindingLaw_of_same {x : KernelStep T L C} (hp : Placed x.after)
    (hb : Bound x.before c) (hc : x.after.conditions c = x.before.conditions c)
    (ha : ∀ t l, x.event.1 = .wait c (some l) → x.before.currentThread = some t →
      (x.before.conditions c).Accepts x.before.locks l t → False) : BindingLaw c x := by
  refine ⟨bound_of_placed hp (by rw [hc]; exact hb.idle), fun _ => hc, fun t l he ht ho hq => ?_⟩
  exact (ha t l he ht ⟨Or.inl (hb.idle.mpr hq), ho⟩).elim

/-- One step keeps the binding exactly when it does not bind the condition in vain. -/
theorem bindingLaw_iff {x : KernelStep T L C} (hp : Placed x.before) (hb : Bound x.before c)
    (hs : Handles kernel x.before x.event x.after) : BindingLaw c x ↔ WaitsWithItsLock c x := by
  have hm : KernelMove x.before x.event.1 x.after x.event.2 := kernel_move hs
  have hp' : Placed x.after := hp.step hm
  obtain ⟨k, ⟨a, out⟩, k'⟩ := x
  dsimp only at hm hp hb hp'
  constructor
  · intro hlaw t l he ht hq
    dsimp only at he ht hq
    subst he
    by_contra ho
    have hacc : ¬ (k.conditions c).Accepts k.locks l t := fun h => ho h.2
    have hafter : k' = k.setCondition c { k.conditions c with
        waitingLock := some ((k.conditions c).waitingLock.getD l) } := by
      cases hm with
      | waited ht' hc =>
        obtain rfl := Option.some.inj (ht.symm.trans ht')
        exact absurd hc hacc
      | bound => rfl
      | refused _ ha => simp at ha
    have hidle := hlaw.bound.idle
    dsimp only at hidle
    rw [hafter] at hidle
    simp [Kernel.setCondition, hq] at hidle
  · intro hcond
    cases hm with
    | acquire ht => exact bindingLaw_of_same hp' hb (by simp) (by simp)
    | release ht => exact bindingLaw_of_same hp' hb (by simp) (by simp)
    | slept ht => exact bindingLaw_of_same hp' hb rfl (by simp)
    | dispatched ht => exact bindingLaw_of_same hp' hb (by simp) (by simp)
    | woken => exact bindingLaw_of_same hp' hb rfl (by simp)
    | refused ht ha =>
      refine bindingLaw_of_same hp' hb rfl fun t l he ht' hacc => ?_
      dsimp only at he
      subst he
      simp at ha
    | @waited t c' l ht hacc =>
      by_cases he : c' = c
      · subst he
        have hafter : (((k.release t l).1.enqueue t c' l).conditions c') =
            ⟨(k.conditions c').queue ++ [t], some l⟩ := by
          simp [Kernel.enqueue, Kernel.fallAsleep, Kernel.setCondition]
        refine ⟨bound_of_placed hp' (by simp [hafter]), ?_, ?_⟩
        · rintro ⟨conditionLock, ⟨-, h⟩ | ⟨h, -⟩ | ⟨h, -⟩⟩
          · exact absurd rfl h
          · cases h
          · cases h
        · intro u l' _ hu _ _
          obtain rfl := Option.some.inj (ht.symm.trans hu)
          dsimp only
          rw [hafter]
          simp
      · refine bindingLaw_of_same hp' hb ?_ ?_
        · simp [Kernel.enqueue, Kernel.fallAsleep, Kernel.setCondition, Ne.symm he]
        · rintro u l' ⟨⟩
          exact absurd rfl he
    | @bound t c' l ht hacc =>
      by_cases he : c' = c
      · subst he
        have hne : (k.conditions c').queue ≠ [] := fun hq =>
          hacc ⟨Or.inl (hb.idle.mpr hq), hcond t l rfl ht hq⟩
        obtain ⟨l₀, hl₀⟩ := Option.ne_none_iff_exists'.mp (fun h => hne (hb.idle.mp h))
        refine bindingLaw_of_same hp' hb ?_ ?_
        · simp only [Kernel.setCondition, Function.update_self, hl₀, Option.getD_some]
          rw [← hl₀]
        · rintro u l' ⟨⟩ hu h
          obtain rfl := Option.some.inj (ht.symm.trans hu)
          exact hacc h
      · refine bindingLaw_of_same hp' hb ?_ ?_
        · simp [Kernel.setCondition, Ne.symm he]
        · rintro u l' ⟨⟩
          exact absurd rfl he
    | @signalled t u c' l rest ht hw hq =>
      by_cases he : c' = c
      · subst he
        have hafter : (k.wakeWaiters c' l [u] rest).conditions c' =
            ⟨rest, if rest = [] then none else some l⟩ := by
          simp [Kernel.wakeWaiters, Kernel.readyToRun, Kernel.setCondition]
        refine ⟨bound_of_placed hp' (by simp [hafter]), ?_, by simp⟩
        rintro ⟨conditionLock, ⟨h, -⟩ | ⟨-, h⟩ | ⟨h, -⟩⟩
        · cases h
        · cases h
        · cases h
      · refine bindingLaw_of_same hp' hb ?_ (by simp)
        simp [Kernel.wakeWaiters, Kernel.readyToRun, Kernel.setCondition, Ne.symm he]
    | @broadcast t c' l ht hw =>
      by_cases he : c' = c
      · subst he
        have hafter : (k.wakeWaiters c' l (k.conditions c').queue []).conditions c' =
            ⟨[], none⟩ := by
          simp [Kernel.wakeWaiters, Kernel.readyToRun, Kernel.setCondition]
        refine ⟨bound_of_placed hp' (by simp [hafter]), ?_, by simp⟩
        rintro ⟨conditionLock, ⟨h, -⟩ | ⟨h, -⟩ | ⟨-, h⟩⟩
        · cases h
        · cases h
        · exact absurd h hw.1
      · refine bindingLaw_of_same hp' hb ?_ (by simp)
        simp [Kernel.wakeWaiters, Kernel.readyToRun, Kernel.setCondition, Ne.symm he]

section Runs
variable {possession : L → Option T} {binding : C → Option L} {tr : List (KernelStep T L C)}

omit [DecidableEq T] [DecidableEq L] [DecidableEq C] in
theorem bound_initial_iff :
    Bound (Kernel.initial possession binding) c ↔ binding c = none :=
  ⟨fun h => h.idle.mpr rfl, fun h => ⟨by simp [Kernel.initial, Condition.new, h], by
    simp [Kernel.initial, Condition.new]⟩⟩

/-- The binding is right from construction on and throughout a run exactly when the memory
held NULL, and nobody waits with a lock of others where nobody is waiting. -/
theorem binding_right_iff
    (h : Execution (Handles kernel) (Kernel.initial possession binding) tr k) :
    (Bound (Kernel.initial possession binding) c ∧ ∀ x ∈ tr, BindingLaw c x) ↔
      binding c = none ∧ ∀ x ∈ tr, WaitsWithItsLock c x := by
  rw [bound_initial_iff]
  refine and_congr_right fun hb => ?_
  refine h.forall_iff (P := fun k => Placed k ∧ Bound k c)
    ⟨Placed.initial _ _, bound_initial_iff.mpr hb⟩ ?_ ?_
  · exact fun x hx hs => bindingLaw_iff hx.1 hx.2 hs
  · intro x hx hs hc
    exact ⟨hx.1.step (kernel_move hs), ((bindingLaw_iff hx.1 hx.2 hs).mpr hc).bound⟩

/-- Whoever calls `Wait` possesses the lock. -/
def waitsWithOwnLock (x : KernelStep ℕ ℕ ℕ) : Bool :=
  match x.event.1 with
  | .wait _ (some l) => (x.before.locks l).threadWithPossession = x.before.currentThread
  | _ => true

/-- A run with a `Wait`, a `Wait` with another lock, and a `Signal`. -/
theorem binding_right_iff_signalled : ∃ (tr : List (KernelStep ℕ ℕ ℕ)) (k : Kernel ℕ ℕ ℕ),
    Execution (Handles kernel) (Kernel.initial (fun _ => none) fun _ => none) tr k ∧
      tr.map (fun x => x.event.1) = [.wake 1, .wake 2, .dispatch 1, .acquire 0, .wait 5 (some 0),
        .dispatch 2, .acquire 3, .wait 5 (some 3), .acquire 0, .signal 5 (some 0)] ∧
      (∀ x ∈ tr, WaitsWithItsLock 5 x) ∧
      Bound (Kernel.initial (fun _ => none) fun _ => none : Kernel ℕ ℕ ℕ) 5 ∧
      ∀ x ∈ tr, BindingLaw 5 x := by
  obtain ⟨tr, k, h, hmap, htest⟩ := exists_of_trace kernel
    (Kernel.initial (fun _ : ℕ => (none : Option ℕ)) fun _ : ℕ => none)
    [.wake 1, .wake 2, .dispatch 1, .acquire 0, .wait 5 (some 0), .dispatch 2, .acquire 3,
      .wait 5 (some 3), .acquire 0, .signal 5 (some 0)]
    (fun r => r.1.all waitsWithOwnLock) (by decide +kernel)
  have hown : ∀ x ∈ tr, WaitsWithItsLock 5 x := by
    intro x hx t l hwait hcur _
    have hcheck := List.all_eq_true.mp htest x hx
    simpa [waitsWithOwnLock, hwait, hcur] using hcheck
  exact ⟨tr, k, h, hmap, hown, (binding_right_iff h).mpr ⟨rfl, hown⟩⟩

/-- A thread without the lock calls `Wait`; from then on nobody with another lock can wait. -/
theorem binding_lost : ∃ (tr : List (KernelStep ℕ ℕ ℕ)) (k : Kernel ℕ ℕ ℕ),
    Execution (Handles kernel) (Kernel.initial (fun _ => none) fun _ => none) tr k ∧
      tr.map (fun x => x.event.1) =
        [.wake 1, .dispatch 1, .wait 5 (some 0), .acquire 3, .wait 5 (some 3)] ∧
      ∃ x ∈ tr, x.event.1 = .wait 5 (some 3) ∧
        (x.before.locks 3).threadWithPossession = some 1 ∧
        (x.before.conditions 5).queue = [] ∧ (x.after.conditions 5).queue = [] ∧
        ¬ BindingLaw 5 x := by
  obtain ⟨tr, k, h, hmap, htest⟩ := exists_of_trace kernel
    (Kernel.initial (fun _ : ℕ => (none : Option ℕ)) fun _ : ℕ => none)
    [.wake 1, .dispatch 1, .wait 5 (some 0), .acquire 3, .wait 5 (some 3)]
    (fun r => r.1.any fun x => x.event.1 = .wait 5 (some 3) &&
      x.before.currentThread = some 1 &&
      (x.before.locks 3).threadWithPossession = some 1 &&
      (x.before.conditions 5).queue = [] && (x.after.conditions 5).queue = [])
    (by decide +kernel)
  refine ⟨tr, k, h, hmap, ?_⟩
  obtain ⟨x, hx, ht⟩ := List.any_eq_true.mp htest
  simp only [Bool.and_eq_true, decide_eq_true_eq] at ht
  obtain ⟨⟨⟨⟨he, hc⟩, ho⟩, hq⟩, hq'⟩ := ht
  refine ⟨x, hx, he, ho, hq, hq', fun hlaw => ?_⟩
  have := hlaw.accepted 1 3 he hc ho hq
  simp [hq'] at this

end Runs

end Nachos.Threads
