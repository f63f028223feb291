import Nachos.KernelConditions
import Nachos.KernelLockRuns

/-! Mesa semantics of a kernel condition over whole schedules: who is woken, and what a
thread that comes back from `Wait` can rely on. Nothing is assumed of the memory that the
constructors leave alone. -/
namespace Nachos.Threads
open Executions

variable {T L C : Type*} [DecidableEq T] [DecidableEq L] [DecidableEq C]
  {k k' : Kernel T L C} {a : Action T L C} {t u : T} {l lock : L} {c : C} {out : List T}

/-- The thread whose `Wait` on the condition is accepted: it goes to sleep. -/
def joined (c : C) (x : KernelStep T L C) : List T :=
  match x.event.1 with
  | .wait c' _ =>
    if c' = c ∧ x.after.currentThread = none then x.before.currentThread.toList else []
  | _ => []

/-- The threads that a `Signal` or `Broadcast` on the condition makes ready. -/
def selected (c : C) (x : KernelStep T L C) : List T :=
  match x.event.1 with
  | .signal c' _ => if c' = c then x.event.2 else []
  | .broadcast c' _ => if c' = c then x.event.2 else []
  | _ => []

def Inside.waitsOn (c : C) : Inside L C → Prop
  | .wait c' _ => c' = c
  | .reacquire c' _ => c' = c
  | .acquire _ => False

/-- The thread comes back from an accepted `Wait` with this lock. -/
def Returns (c : C) (l : L) (x : KernelStep T L C) (t : T) : Prop :=
  x.event.1 = .dispatch t ∧ x.after.currentThread = some t ∧
    (x.before.inside t = some (.wait c l) ∨ x.before.inside t = some (.reacquire c l))

/-- In this run the thread waited on the condition, and was selected since. -/
def Selected (c : C) (tr : List (KernelStep T L C)) (t : T) : Prop :=
  ∃ pre w mid z post, tr = pre ++ w :: (mid ++ z :: post) ∧ t ∈ joined c w ∧ t ∈ selected c z ∧
    ∀ y ∈ mid ++ z :: post, t ∉ joined c y

/-- In this run the thread waited on the condition, and has not been selected since. -/
def Waits (c : C) (tr : List (KernelStep T L C)) (t : T) : Prop :=
  ∃ pre w post, tr = pre ++ w :: post ∧ t ∈ joined c w ∧ ∀ y ∈ post, t ∉ joined c y ∧ t ∉ selected c y

/-- A `Signal` of the lock holder, a `Broadcast` of the lock holder, and a call that nobody
waits for. -/
structure WakeLaw (c : C) (x : KernelStep T L C) : Prop where
  signal : ∀ t u l rest, x.event.1 = .signal c (some l) → x.before.currentThread = some t →
    (x.before.locks l).threadWithPossession = some t →
    (x.before.conditions c).queue = u :: rest → x.before.inside u = some (.wait c l) →
    x.event.2 = [u] ∧ (x.after.conditions c).queue = rest ∧
      x.after.readyList = x.before.readyList ++ [u]
  broadcast : ∀ t l, x.event.1 = .broadcast c (some l) → x.before.currentThread = some t →
    (x.before.locks l).threadWithPossession = some t →
    (∀ u ∈ (x.before.conditions c).queue, x.before.inside u = some (.wait c l)) →
    x.event.2 = (x.before.conditions c).queue ∧ x.event.2.Nodup ∧
      (x.after.conditions c).queue = [] ∧
      x.after.readyList = x.before.readyList ++ (x.before.conditions c).queue
  idle : ∀ conditionLock,
    x.event.1 = .signal c conditionLock ∨ x.event.1 = .broadcast c conditionLock →
    (x.before.conditions c).queue = [] → x.after = x.before ∧ x.event.2 = []

/-- The contract of condition `c` after a run. The queue is in the order of waiting. -/
structure MesaContract (c : C) (tr : List (KernelStep T L C)) (k : Kernel T L C) : Prop where
  wake : ∀ x ∈ tr, WakeLaw c x
  order : tr.flatMap (selected c) ++ (k.conditions c).queue = tr.flatMap (joined c)
  terminates : ∀ t conditionLock, k.currentThread = some t →
    ∃ r, kernel k (.broadcast c conditionLock) = .ok r
  awaited : ∀ pre x post, tr = pre ++ x :: post → ∀ t l, Returns c l x t → Selected c pre t
  possession : ∀ x ∈ tr, ∀ t l, Returns c l x t →
    (x.after.locks l).threadWithPossession = some t

theorem wakeLaw_step {x : KernelStep T L C} (hp : Placed x.before)
    (hs : Handles kernel x.before x.event x.after) : WakeLaw c x := by
  have hm : KernelMove x.before x.event.1 x.after x.event.2 := kernel_move hs
  obtain ⟨k, ⟨a, out⟩, k'⟩ := x
  dsimp only at hm hp
  have hbound : ∀ u l, u ∈ (k.conditions c).queue → k.inside u = some (.wait c l) →
      (k.conditions c).waitingLock = some l := by
    intro u l hu hl
    obtain ⟨-, l', hl', hw⟩ := hp.waiting c u hu
    obtain ⟨-, rfl⟩ := Inside.wait.inj (Option.some.inj (hl.symm.trans hl'))
    exact hw
  refine ⟨?_, ?_, ?_⟩
  · rintro t u l rest rfl ht ho hq hu
    dsimp only at ht ho hq hu ⊢
    have hw : (k.conditions c).Wakes k.locks l t :=
      ⟨by simp [hq], hbound u l (by simp [hq]) hu, ho⟩
    cases hm with
    | refused ht' ha =>
      obtain rfl := Option.some.inj (ht.symm.trans ht')
      rcases ha with ha | ⟨conditionLock, ha | ha, hno⟩
      · cases ha
      · cases ha
        exact absurd hw (hno l rfl)
      · cases ha
    | signalled ht' hw' hq' =>
      obtain ⟨rfl, rfl⟩ := List.cons.inj (hq.symm.trans hq')
      refine ⟨rfl, ?_, rfl⟩
      simp [Kernel.wakeWaiters, Kernel.readyToRun, Kernel.setCondition]
  · rintro t l rfl ht ho hall
    dsimp only at ht ho hall ⊢
    by_cases hq : (k.conditions c).queue = []
    · cases hm with
      | refused => simp [hq]
      | broadcast ht' hw => exact absurd hq hw.1
    · obtain ⟨u, rest, hu⟩ := List.exists_cons_of_ne_nil hq
      have hmem : u ∈ (k.conditions c).queue := by simp [hu]
      have hw : (k.conditions c).Wakes k.locks l t := ⟨hq, hbound u l hmem (hall u hmem), ho⟩
      cases hm with
      | refused ht' ha =>
        obtain rfl := Option.some.inj (ht.symm.trans ht')
        rcases ha with ha | ⟨conditionLock, ha | ha, hno⟩
        · cases ha
        · cases ha
        · cases ha
          exact absurd hw (hno l rfl)
      | broadcast ht' hw' =>
        refine ⟨rfl, hp.conditionQueue c, ?_, rfl⟩
        simp [Kernel.wakeWaiters, Kernel.readyToRun, Kernel.setCondition]
  · rintro conditionLock ha hq
    dsimp only at ha hq ⊢
    rcases ha with rfl | rfl
    · cases hm with
      | refused => exact ⟨rfl, rfl⟩
      | signalled _ hw => exact absurd hq hw.1
    · cases hm with
      | refused => exact ⟨rfl, rfl⟩
      | broadcast _ hw => exact absurd hq hw.1

/-- What a step does to the queue of the condition. -/
theorem queue_step {x : KernelStep T L C} (hs : Handles kernel x.before x.event x.after) :
    selected c x ++ (x.after.conditions c).queue = (x.before.conditions c).queue ++ joined c x := by
  have hm : KernelMove x.before x.event.1 x.after x.event.2 := kernel_move hs
  obtain ⟨k, ⟨a, out⟩, k'⟩ := x
  dsimp only at hm
  cases hm with
  | acquire ht => simp [selected, joined]
  | release ht => simp [selected, joined]
  | @waited t c' l ht hacc =>
    by_cases he : c' = c
    · subst he
      simp [selected, joined, Kernel.enqueue, Kernel.fallAsleep, Kernel.setCondition, ht]
    · simp [selected, joined, Kernel.enqueue, Kernel.fallAsleep, Kernel.setCondition, he,
        Ne.symm he]
  | @bound t c' l ht hacc =>
    by_cases he : c' = c
    · subst he
      simp [selected, joined, Kernel.setCondition, ht]
    · simp [selected, joined, Kernel.setCondition, he, Ne.symm he]
  | @refused t c' a ht ha =>
    rcases ha with rfl | ⟨conditionLock, rfl | rfl, -⟩ <;> simp [selected, joined, ht]
  | @signalled t u c' l rest ht hw hq =>
    by_cases he : c' = c
    · subst he
      simp [selected, joined, Kernel.wakeWaiters, Kernel.readyToRun, Kernel.setCondition, hq]
    · simp [selected, joined, Kernel.wakeWaiters, Kernel.readyToRun, Kernel.setCondition, he,
        Ne.symm he]
  | @broadcast t c' l ht hw =>
    by_cases he : c' = c
    · subst he
      simp [selected, joined, Kernel.wakeWaiters, Kernel.readyToRun, Kernel.setCondition]
    · simp [selected, joined, Kernel.wakeWaiters, Kernel.readyToRun, Kernel.setCondition, he,
        Ne.symm he]
  | slept => simp [selected, joined]
  | dispatched => simp [selected, joined]
  | woken => simp [selected, joined, Kernel.readyToRun]

omit [DecidableEq C] in
theorem Kernel.acquire_inside {call call' : Inside L C}
    (h : (k.acquire t lock call).inside u = some call') :
    u = t ∧ call' = call ∨ k.inside u = some call' := by
  unfold Kernel.acquire at h
  dsimp only at h
  split_ifs at h
  · by_cases hu : u = t
    · subst hu
      exact Or.inl ⟨rfl, by simpa [Kernel.fallAsleep, eq_comm] using h⟩
    · exact Or.inr (by simpa [Kernel.fallAsleep, Kernel.setLock, hu] using h)
  · exact Or.inr h

/-- A thread inside a `Wait` was inside it before, or its `Wait` has just been accepted. -/
theorem inside_step {x : KernelStep T L C} {call : Inside L C}
    (hs : Handles kernel x.before x.event x.after) (hi : x.after.inside t = some call)
    (hc : call.waitsOn c) :
    t ∈ joined c x ∨ ∃ call, x.before.inside t = some call ∧ call.waitsOn c := by
  have hm : KernelMove x.before x.event.1 x.after x.event.2 := kernel_move hs
  obtain ⟨k, ⟨a, out⟩, k'⟩ := x
  dsimp only at hm hi ⊢
  cases hm with
  | acquire ht =>
    rcases Kernel.acquire_inside hi with ⟨-, rfl⟩ | hi
    · cases hc
    · exact Or.inr ⟨call, hi, hc⟩
  | release => exact Or.inr ⟨call, hi, hc⟩
  | @waited u c' l hu hacc =>
    by_cases htu : t = u
    · subst htu
      obtain rfl : call = .wait c' l := by
        simpa [Kernel.enqueue, Kernel.fallAsleep, eq_comm] using hi
      obtain rfl : c' = c := hc
      exact Or.inl (by simp [joined, Kernel.enqueue, Kernel.fallAsleep, hu])
    · refine Or.inr ⟨call, ?_, hc⟩
      have hi : (k.release u l).1.inside t = some call := by
        simpa [Kernel.enqueue, Kernel.fallAsleep, Kernel.setCondition, htu] using hi
      exact hi
  | bound => exact Or.inr ⟨call, hi, hc⟩
  | refused => exact Or.inr ⟨call, hi, hc⟩
  | signalled => exact Or.inr ⟨call, hi, hc⟩
  | broadcast => exact Or.inr ⟨call, hi, hc⟩
  | slept => exact Or.inr ⟨call, hi, hc⟩
  | woken => exact Or.inr ⟨call, hi, hc⟩
  | @dispatched u hu =>
    unfold Kernel.dispatch at hi
    dsimp only at hi
    have hother : ∀ call', Function.update k.inside u none t = some call' →
        k.inside t = some call' := by
      intro call' h
      by_cases htu : t = u
      · subst htu
        simp at h
      · simpa [htu] using h
    split at hi
    · rename_i c' l hwait
      rcases Kernel.acquire_inside hi with ⟨rfl, rfl⟩ | hi
      · exact Or.inr ⟨_, hwait, hc⟩
      · exact Or.inr ⟨call, hother call hi, hc⟩
    · exact Or.inr ⟨call, hother call hi, hc⟩

omit [DecidableEq T] [DecidableEq L] in
theorem joined_of_selected {x : KernelStep T L C} (ht : t ∈ selected c x) : joined c x = [] := by
  unfold selected at ht
  unfold joined
  split at ht
  · simp [*]
  · simp [*]
  · cases ht

section Runs
variable {possession : L → Option T} {binding : C → Option L} {tr : List (KernelStep T L C)}

omit [DecidableEq T] [DecidableEq L] in
theorem Selected.extend {x : KernelStep T L C} (h : Selected c tr t) (hx : t ∉ joined c x) :
    Selected c (tr ++ [x]) t := by
  obtain ⟨pre, w, mid, z, post, rfl, hw, hz, hpost⟩ := h
  refine ⟨pre, w, mid, z, post ++ [x], by simp, hw, hz, fun y hy => ?_⟩
  have hy : y ∈ mid ++ z :: post ∨ y = x := by simpa [or_assoc] using hy
  rcases hy with hy | rfl
  · exact hpost y hy
  · exact hx

/-- Whoever is inside an accepted `Wait` is queued, or was selected since. -/
theorem wait_history
    (h : Execution (Handles kernel) (Kernel.initial possession binding) tr k) :
    ∀ t call, k.inside t = some call → call.waitsOn c →
      (t ∈ (k.conditions c).queue ∧ Waits c tr t) ∨
        (t ∉ (k.conditions c).queue ∧ Selected c tr t) := by
  induction h with
  | start =>
    intro t call ht
    cases ht
  | @extend tr s s' e hex hst ih =>
    intro t call ht hc
    have hp : Placed s := hex.invariant (Placed.initial _ _) fun _ _ _ => placed_step
    have hp' : Placed s' := placed_step hp hst
    have hq := queue_step (c := c) (x := ⟨s, e, s'⟩) hst
    dsimp only at hq
    have hmem : t ∈ selected c ⟨s, e, s'⟩ ∨ t ∈ (s'.conditions c).queue ↔
        t ∈ (s.conditions c).queue ∨ t ∈ joined c ⟨s, e, s'⟩ := by
      rw [← List.mem_append, hq, List.mem_append]
    by_cases hj : t ∈ joined c ⟨s, e, s'⟩
    · have hns : t ∉ selected c ⟨s, e, s'⟩ := fun hs => by simp [joined_of_selected hs] at hj
      refine Or.inl ⟨(hmem.mpr (Or.inr hj)).resolve_left hns, tr, _, [], rfl, hj, by simp⟩
    · obtain ⟨call₀, ht₀, hc₀⟩ :=
        (inside_step (x := ⟨s, e, s'⟩) hst ht hc).resolve_left hj
      rcases ih t call₀ ht₀ hc₀ with ⟨hin, pre, w, post, rfl, hw, hpost⟩ | ⟨hout, hsel⟩
      · by_cases hs : t ∈ selected c ⟨s, e, s'⟩
        · refine Or.inr ⟨fun hm => ?_, pre, w, post, _, [], by simp, hw, hs, fun y hy => ?_⟩
          · have hnd := hp.conditionQueue c
            rw [joined_of_selected hs, List.append_nil] at hq
            rw [← hq, List.nodup_append] at hnd
            exact hnd.2.2 t hs t hm rfl
          · have hy : y ∈ post ∨ y = ⟨s, e, s'⟩ := by simpa using hy
            rcases hy with hy | rfl
            · exact (hpost y hy).1
            · exact hj
        · refine Or.inl ⟨(hmem.mpr (Or.inl hin)).resolve_left hs, pre, w,
            post ++ [⟨s, e, s'⟩], by simp, hw, fun y hy => ?_⟩
          rcases List.mem_append.mp hy with hy | hy
          · exact hpost y hy
          · obtain rfl := List.mem_singleton.mp hy
            exact ⟨hj, hs⟩
      · exact Or.inr ⟨fun hm => (hmem.mp (Or.inr hm)).elim hout hj, hsel.extend hj⟩

/-- Nobody is selected or waits out of turn. -/
theorem wait_order (h : Execution (Handles kernel) (Kernel.initial possession binding) tr k) :
    tr.flatMap (selected c) ++ (k.conditions c).queue = tr.flatMap (joined c) := by
  induction h with
  | start => rfl
  | @extend tr s s' e _ hst ih =>
    have hq := queue_step (c := c) (x := ⟨s, e, s'⟩) hst
    dsimp only at hq
    rw [List.flatMap_append, List.flatMap_append, List.flatMap_singleton, List.flatMap_singleton,
      List.append_assoc, hq, ← List.append_assoc, ih]

/-- Over every schedule the condition has Mesa semantics. -/
theorem mesa_contract (h : Execution (Handles kernel) (Kernel.initial possession binding) tr k) :
    MesaContract c tr k := by
  have hplaced : ∀ x ∈ tr, Placed x.before ∧ Handles kernel x.before x.event x.after :=
    fun x hx => h.mem (Placed.initial _ _) (fun _ _ _ => placed_step) hx
  refine ⟨fun x hx => wakeLaw_step (hplaced x hx).1 (hplaced x hx).2, wait_order h, ?_, ?_, ?_⟩
  · intro t conditionLock ht
    obtain ⟨k', out, hb, -⟩ := broadcast_move c conditionLock ht
    exact ⟨(k', out), by simp [kernel, ht, hb]⟩
  · rintro pre x post rfl t l ⟨he, hcur, hi⟩
    obtain ⟨hpre, hst⟩ := h.split rfl
    have hp : Placed x.before := hpre.invariant (Placed.initial _ _) fun _ _ _ => placed_step
    have hready : t ∈ x.before.readyList := by
      by_contra hno
      have hst : kernel x.before x.event.1 = .ok (x.after, x.event.2) := hst
      simp [he, kernel, hno] at hst
    have hwait : ∃ call, x.before.inside t = some call ∧ call.waitsOn c := by
      rcases hi with hi | hi
      · exact ⟨_, hi, rfl⟩
      · exact ⟨_, hi, rfl⟩
    obtain ⟨call, hcall, hc⟩ := hwait
    rcases wait_history hpre t call hcall hc with ⟨hin, -⟩ | ⟨-, hsel⟩
    · exact absurd hready (hp.waiting c t hin).1
    · exact hsel
  · rintro x hx t l ⟨he, hcur, hi⟩
    refine Leaves.possession (l := l) ⟨Or.inr ⟨he, ?_⟩, hcur⟩ (hplaced x hx).1 (hplaced x hx).2
    rcases hi with hi | hi
    · exact ⟨_, hi, Or.inr ⟨c, rfl⟩⟩
    · exact ⟨_, hi, Or.inl rfl⟩

/-- Two threads wait; a `Signal` and a `Broadcast` let them go on in turn. -/
theorem mesa_contract_woken : ∃ (tr : List (KernelStep ℕ ℕ ℕ)) (k : Kernel ℕ ℕ ℕ),
    Execution (Handles kernel) (Kernel.initial (fun _ => none) fun _ => none) tr k ∧
      tr.map (fun x => x.event.1) = [.wake 1, .wake 2, .wake 3, .dispatch 1, .acquire 0,
        .wait 5 (some 0), .dispatch 2, .acquire 0, .wait 5 (some 0), .dispatch 3, .acquire 0,
        .signal 5 (some 0), .broadcast 5 (some 0), .dispatch 1, .dispatch 3, .release 0,
        .dispatch 1] ∧
      MesaContract 5 tr k := by
  obtain ⟨tr, k, h, hmap, -⟩ := exists_of_trace kernel
    (Kernel.initial (fun _ : ℕ => (none : Option ℕ)) fun _ : ℕ => none)
    [.wake 1, .wake 2, .wake 3, .dispatch 1, .acquire 0, .wait 5 (some 0), .dispatch 2,
      .acquire 0, .wait 5 (some 0), .dispatch 3, .acquire 0, .signal 5 (some 0),
      .broadcast 5 (some 0), .dispatch 1, .dispatch 3, .release 0, .dispatch 1]
    (fun r => r.1.length = 17) (by decide +kernel)
  exact ⟨tr, k, h, hmap, mesa_contract h⟩

end Runs

end Nachos.Threads
