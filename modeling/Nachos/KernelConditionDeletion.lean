import Nachos.KernelConditionTable
import Nachos.KernelLockDeletion
import Nachos.KernelMesa

/-! When the condition table frees conditions. A thread is inside a `Wait` on a condition from
the accepted call until it has the lock back, and then ends its `Wait_Syscall`. -/
namespace Nachos.Threads
open Executions SlotTables

variable {T L C S : Type*} [DecidableEq T] [DecidableEq L] [DecidableEq C] [DecidableEq S]

def Kernel.InWait (k : Kernel T L C) (c : C) (t : T) : Prop :=
  ∃ call, k.inside t = some call ∧ call.waitsOn c

/-- What a run has done with the conditions, in order. -/
def effects (tr : List (ConditionStep T L C S)) : List (Effect C) := tr.flatMap fun x => x.event.2

/-- No condition is freed or used after it was freed. One that was destroyed while threads
waited on it is freed when nobody is inside a `Wait` on it any more, and not before. -/
structure DestroysOnce (tr : List (ConditionStep T L C S)) : Prop where
  once : (effects tr).Pairwise fun e e' => ∀ c, e = .freed c → e' ≠ .freed c
  unused : (effects tr).Pairwise fun e e' => ∀ c, e = .freed c → e' ≠ .used c
  notBefore : ∀ pre x post c, tr = pre ++ x :: post → .freed c ∈ x.event.2 →
    .deferred c ∈ effects pre → ∀ t, ¬ x.after.kernel.InWait c t
  afterLast : ∀ pre x post c, tr = pre ++ x :: post → .deferred c ∈ effects (pre ++ [x]) →
    (∀ t, ¬ x.after.kernel.InWait c t) → .freed c ∈ effects (pre ++ [x])

/-- The thread leaves its `Wait` when it is dispatched. -/
def Kernel.GetsLock (k : Kernel T L C) (t : T) : Prop :=
  match k.inside t with
  | some (.wait _ lock) =>
    (k.locks lock).threadWithPossession = some t ∨ (k.locks lock).state = .free
  | some (.reacquire _ _) => True
  | _ => False

instance (k : Kernel T L C) (t : T) : Decidable (k.GetsLock t) := by
  unfold Kernel.GetsLock
  split <;> infer_instance

namespace ConditionKernel

/-- No CreateCondition has found the slot and not written it. -/
def Complete (u : ConditionKernel T L C S) (i : ℤ) : Prop := ∀ t, u.creating t ≠ some i

/-- The condition of the slot is to be deleted, and nobody queues on it. -/
def Drained (u : ConditionKernel T L C S) (i : ℤ) : Prop :=
  u.isToBeDeleted i = true ∧ ∀ c ∈ u.object i, (u.kernel.conditions c).queue = []

/-- No other thread is inside a `Wait_Syscall` on the slot. -/
def Alone (u : ConditionKernel T L C S) (t : T) (i : ℤ) : Prop :=
  ∀ v, u.waitingAt v = some i → v = t

/-- A call names no slot between the `Find` and the write of a CreateCondition. DestroyCondition
is not called again when the waiters of a condition to be deleted have all been woken. A
thread that ends its `Wait_Syscall`, woken or rejected, when nobody queues on a condition to
be deleted is the last inside a `Wait_Syscall` on the slot. -/
def DestructionAllowed (space : T → S) (u : ConditionKernel T L C S) : ConditionCall T L C → Prop
  | .wait i j => ∀ t ∈ u.kernel.currentThread, u.conditionTable.validates (space t) i →
    u.Complete i ∧ ∀ lock ∈ u.ownLock (space t) j, ∀ c ∈ u.object i,
      ¬ (u.kernel.conditions c).Accepts u.kernel.locks lock t → u.Drained i → u.Alone t i
  | .signal i _ | .broadcast i _ => ∀ t ∈ u.kernel.currentThread,
    u.conditionTable.validates (space t) i → u.Complete i
  | .destroyCondition i => ∀ t ∈ u.kernel.currentThread,
    u.conditionTable.validates (space t) i → u.Complete i ∧ ¬ u.Drained i
  | .dispatch t => ∀ i ∈ u.waitingAt t, u.kernel.GetsLock t → u.Drained i → u.Alone t i
  | _ => True

instance [Fintype T] (space : T → S) (u : ConditionKernel T L C S) (call : ConditionCall T L C) :
    Decidable (u.DestructionAllowed space call) := by
  unfold DestructionAllowed Complete Drained Alone
  split <;> infer_instance

/-- The slot has been written and holds the condition. -/
def Holds (u : ConditionKernel T L C S) (i : ℤ) (c : C) : Prop :=
  u.conditionTable.map i = true ∧ u.Complete i ∧ u.object i = some c

/-- A condition to be deleted has a thread inside a `Wait` on it. -/
def Kept (u : ConditionKernel T L C S) (i : ℤ) : Prop :=
  ∀ c, u.Holds i c → u.isToBeDeleted i = true → ∃ t, u.kernel.InWait c t

end ConditionKernel

/-- The table against what has been done so far. -/
structure Consistent (u : ConditionKernel T L C S) (log : List (Effect C)) : Prop where
  placed : Placed u.kernel
  inside : ∀ t, (∃ i, u.waitingAt t = some i) ↔ ∃ c, u.kernel.InWait c t
  creating : ∀ t i, u.creating t = some i → u.conditionTable.map i = true
  apart : ∀ t v i, u.creating t = some i → u.creating v = some i → t = v
  written : ∀ i, u.conditionTable.map i = true → u.Complete i → ∃ c, u.object i = some c
  allocated : ∀ i c, u.Holds i c → c ∈ u.created ∧ .freed c ∉ log
  distinct : ∀ i j c, u.Holds i c → u.Holds j c → i = j
  home : ∀ t i c, u.kernel.InWait c t → u.Holds i c → u.waitingAt t = some i
  queued : ∀ c, ∀ t ∈ (u.kernel.conditions c).queue, ∃ i, u.Holds i c
  marked : ∀ t i, u.waitingAt t = some i → u.isToBeDeleted i = true →
    u.conditionTable.map i = true ∧ u.Complete i
  known : ∀ c t, u.kernel.InWait c t → c ∈ u.created
  old : ∀ c, .freed c ∈ log → c ∈ u.created
  intact : log.Pairwise fun e e' => ∀ c, e = .freed c → e' ≠ .freed c ∧ e' ≠ .used c
  deferred : ∀ c, .deferred c ∈ log →
    .freed c ∈ log ∨ ∃ i, u.Holds i c ∧ u.isToBeDeleted i = true

variable {space : T → S} {u u' : ConditionKernel T L C S} {call : ConditionCall T L C}
  {log es : List (Effect C)} {t v : T} {i j : ℤ} {c d : C} {lock : L} {a : Action T L C}
  {k k' : Kernel T L C} {out : List T}

/-! What the kernel does to the threads inside a `Wait`. -/

omit [DecidableEq T] [DecidableEq L] [DecidableEq C] in
theorem inWait_of_queued (hp : Placed k) (ht : t ∈ (k.conditions c).queue) : k.InWait c t := by
  obtain ⟨-, l, hl, -⟩ := hp.waiting c t ht
  exact ⟨_, hl, rfl⟩

omit [DecidableEq T] [DecidableEq L] [DecidableEq C] in
theorem not_inWait_of_running (hp : Placed k) (ht : k.currentThread = some t) :
    ¬ k.InWait c t := by
  rintro ⟨call, hcall, -⟩
  simp [(hp.running t ht).1] at hcall

omit [DecidableEq L] [DecidableEq C] in
theorem inWait_update {call : Option (Inside L C)} (hk : k'.inside = Function.update k.inside t call)
    (hv : v ≠ t) : k'.InWait c v ↔ k.InWait c v := by
  simp only [Kernel.InWait, hk, Function.update_of_ne hv]

/-- The same threads wait, and fewer queue. -/
structure KeepsWaits (k k' : Kernel T L C) : Prop where
  inWait : ∀ c t, k'.InWait c t ↔ k.InWait c t
  queue : ∀ c, ∀ t ∈ (k'.conditions c).queue, t ∈ (k.conditions c).queue

omit [DecidableEq C] in
theorem acquire_keepsWaits (hp : Placed k) (ht : k.currentThread = some t) (lock : L) :
    KeepsWaits k (k.acquire t lock (.acquire lock)) := by
  refine ⟨fun c v => ?_, fun c v hv => ?_⟩
  · rcases acquire_place k t lock (.acquire lock) with he | he
    · simp only [Kernel.InWait, he]
    · by_cases hvt : v = t
      · subst hvt
        refine iff_of_false ?_ (not_inWait_of_running hp ht)
        rintro ⟨call, hcall, hw⟩
        obtain rfl : Inside.acquire lock = call := by simpa [he] using hcall
        exact hw
      · exact inWait_update he hvt
  · unfold Kernel.acquire at hv
    dsimp only at hv
    split_ifs at hv <;> exact hv

theorem quiet_keepsWaits (hp : Placed k) (ha : a.IsQuiet) (hm : KernelMove k a k' out) :
    KeepsWaits k k' := by
  cases hm with
  | @acquire t lock ht => exact acquire_keepsWaits hp ht lock
  | waited | bound | dispatched => exact ha.elim
  | @signalled t u c lock rest ht hw hq =>
    refine ⟨fun _ _ => Iff.rfl, fun d v hv => ?_⟩
    by_cases hd : d = c
    · subst hd
      have hv : v ∈ rest := by
        simpa [Kernel.wakeWaiters, Kernel.readyToRun, Kernel.setCondition] using hv
      simp [hq, hv]
    · simpa [Kernel.wakeWaiters, Kernel.readyToRun, Kernel.setCondition, hd] using hv
  | @broadcast t c lock ht hw =>
    refine ⟨fun _ _ => Iff.rfl, fun d v hv => ?_⟩
    by_cases hd : d = c
    · subst hd
      simp [Kernel.wakeWaiters, Kernel.readyToRun, Kernel.setCondition] at hv
    · simpa [Kernel.wakeWaiters, Kernel.readyToRun, Kernel.setCondition, hd] using hv
  | release | refused | slept | woken => exact ⟨fun _ _ => Iff.rfl, fun _ _ hv => hv⟩

omit [DecidableEq C] in
/-- A dispatched thread is inside no call any more, or goes on to the `Acquire` of its `Wait`. -/
theorem dispatch_place (k : Kernel T L C) (t : T) :
    (k.dispatch t).inside = Function.update k.inside t none ∨
      ∃ c lock, k.inside t = some (.wait c lock) ∧
        (k.dispatch t).inside = Function.update k.inside t (some (.reacquire c lock)) := by
  unfold Kernel.dispatch
  dsimp only
  split
  · next c lock hin =>
    rcases acquire_place ({ k with
      readyList := k.readyList.erase t ++ k.currentThread.toList
      currentThread := some t
      inside := Function.update k.inside t none } : Kernel T L C) t lock (.reacquire c lock)
      with he | he
    · exact .inl he
    · exact .inr ⟨c, lock, hin, he.trans (Function.update_idem _ _ _)⟩
  · exact .inl rfl

omit [DecidableEq C] in
theorem dispatch_keepsWaits (h : (∀ c, ¬ k.InWait c t) ∨ (k.dispatch t).inside t ≠ none) :
    KeepsWaits k (k.dispatch t) := by
  refine ⟨fun c v => ?_, fun c v hv => by simpa using hv⟩
  rcases dispatch_place k t with he | ⟨d, lock, hin, he⟩
  · by_cases hv : v = t
    · subst hv
      have hnot := h.resolve_right (by simp [he])
      refine iff_of_false ?_ (hnot c)
      rintro ⟨call, hcall, -⟩
      simp [he] at hcall
    · exact inWait_update he hv
  · by_cases hv : v = t
    · subst hv
      simp [Kernel.InWait, he, hin, Inside.waitsOn]
    · exact inWait_update he hv

/-! What each slot holds after an operation on the table. -/

omit [DecidableEq T] [DecidableEq L] [DecidableEq C] [DecidableEq S] in
theorem holds_clear (u : ConditionKernel T L C S) (i : ℤ) :
    ConditionKernel.Holds { u with conditionTable := u.conditionTable.clear i } j d ↔
      j ≠ i ∧ u.Holds j d := by
  by_cases hj : j = i
  · simp [ConditionKernel.Holds, ObjectTable.clear, hj]
  · simp [ConditionKernel.Holds, ObjectTable.clear, hj, ConditionKernel.Complete,
      ConditionKernel.object]

omit [DecidableEq T] [DecidableEq L] [DecidableEq C] [DecidableEq S] in
theorem holds_setToBeDeleted (u : ConditionKernel T L C S) (i : ℤ) :
    ConditionKernel.Holds { u with conditionTable := u.conditionTable.setToBeDeleted i } j d ↔
      u.Holds j d := by
  by_cases hj : j = i <;>
    simp [ConditionKernel.Holds, ConditionKernel.Complete, ConditionKernel.object,
      ObjectTable.setToBeDeleted, hj]

omit [DecidableEq T] [DecidableEq L] [DecidableEq C] [DecidableEq S] in
theorem isToBeDeleted_setToBeDeleted (u : ConditionKernel T L C S) (i : ℤ) :
    ConditionKernel.isToBeDeleted
      { u with conditionTable := u.conditionTable.setToBeDeleted i } j = true ↔
        j = i ∨ u.isToBeDeleted j = true := by
  by_cases hj : j = i <;> simp [ConditionKernel.isToBeDeleted, ObjectTable.setToBeDeleted, hj]

omit [DecidableEq L] [DecidableEq C] [DecidableEq S] in
theorem complete_take (hc : u.creating t = none) {n : ℤ} (hn : ∀ v, u.creating v ≠ some n) (j : ℤ) :
    (∀ v, Function.update u.creating t (some n) v ≠ some j) ↔ j ≠ n ∧ u.Complete j := by
  constructor
  · intro hall
    refine ⟨?_, fun v hv => ?_⟩
    · rintro rfl
      exact hall t (by simp)
    · have hvt : v ≠ t := by
        rintro rfl
        simp [hc] at hv
      exact hall v (by rwa [Function.update_of_ne hvt])
  · rintro ⟨hj, hcom⟩ v hv
    by_cases hvt : v = t
    · subst hvt
      exact hj (by simpa [eq_comm] using hv)
    · exact hcom v (by rwa [Function.update_of_ne hvt] at hv)

omit [DecidableEq L] [DecidableEq C] [DecidableEq S] in
theorem holds_take (hc : u.creating t = none) {n : ℤ} (hn : ∀ v, u.creating v ≠ some n)
    (hmap : u.conditionTable.map n = false) :
    ConditionKernel.Holds { u with conditionTable := u.conditionTable.allocate.take n
                                   creating := Function.update u.creating t (some n) } j d ↔
      u.Holds j d := by
  simp only [ConditionKernel.Holds, ConditionKernel.Complete, ConditionKernel.object,
    ObjectTable.take, ObjectTable.allocate_map, ObjectTable.allocate_entries]
  rw [complete_take hc hn]
  by_cases hj : j = n
  · subst hj
    simp [hmap]
  · simp [hj, ConditionKernel.Complete]

omit [DecidableEq L] [DecidableEq C] [DecidableEq S] in
theorem complete_write (hc : u.creating t = some i) (ha : ∀ v, u.creating v = some i → v = t)
    (j : ℤ) :
    (∀ v, Function.update u.creating t none v ≠ some j) ↔ j = i ∨ u.Complete j := by
  constructor
  · intro hall
    by_contra hj
    simp only [not_or, ConditionKernel.Complete, not_forall, not_not] at hj
    obtain ⟨hj, v, hv⟩ := hj
    have hvt : v ≠ t := by
      rintro rfl
      exact hj (Option.some.inj (hv.symm.trans hc))
    exact hall v (by rwa [Function.update_of_ne hvt])
  · intro hj v hv
    have hvt : v ≠ t := by
      rintro rfl
      simp at hv
    rw [Function.update_of_ne hvt] at hv
    rcases hj with rfl | hcom
    · exact hvt (ha v hv)
    · exact hcom v hv

omit [DecidableEq L] [DecidableEq C] [DecidableEq S] in
theorem holds_write (hc : u.creating t = some i) (hmap : u.conditionTable.map i = true)
    (ha : ∀ v, u.creating v = some i → v = t) (c : C) (space : S) (k' : Kernel T L C)
    (created : List C) :
    ConditionKernel.Holds { u with kernel := k'
                                   conditionTable := u.conditionTable.write i c space
                                   creating := Function.update u.creating t none
                                   created := created } j d ↔
      (j = i ∧ d = c) ∨ u.Holds j d := by
  simp only [ConditionKernel.Holds, ConditionKernel.Complete, ConditionKernel.object,
    ObjectTable.write]
  rw [complete_write hc ha]
  by_cases hj : j = i
  · subst hj
    constructor
    · rintro ⟨-, -, ho⟩
      exact .inl ⟨rfl, by simpa [eq_comm] using ho⟩
    · rintro (⟨-, rfl⟩ | ⟨-, hcom, -⟩)
      · exact ⟨hmap, .inl rfl, by simp⟩
      · exact absurd hc (hcom t)
  · simp [hj, ConditionKernel.Complete]

/-! What each operation on the table keeps. -/

namespace Consistent

omit [DecidableEq T] [DecidableEq L] [DecidableEq C] [DecidableEq S] in
theorem initial (lockTable : SlotTable (LockEntry L S)) (memory : ℤ → Option S × Bool) :
    Consistent (ConditionKernel.initial lockTable memory : ConditionKernel T L C S) [] := by
  refine ⟨.initial _ _, ?_, ?_, ?_, ?_, ?_, ?_, ?_, ?_, ?_, ?_, ?_, ?_, ?_⟩ <;>
    simp [ConditionKernel.initial, ConditionKernel.Holds, ObjectTable.initial, Kernel.InWait,
      Kernel.initial, Condition.new]

omit [DecidableEq T] [DecidableEq L] [DecidableEq C] [DecidableEq S] in
theorem kernel (h : Consistent u log) (hp : Placed k') (hk : KeepsWaits u.kernel k') :
    Consistent { u with kernel := k' } log := by
  refine ⟨hp, fun t => ?_, h.creating, h.apart, h.written, h.allocated, h.distinct,
    fun t i c ht hi => h.home t i c ((hk.inWait c t).mp ht) hi,
    fun c t ht => h.queued c t (hk.queue c t ht), h.marked,
    fun c t ht => h.known c t ((hk.inWait c t).mp ht), h.old, h.intact, h.deferred⟩
  simp only [hk.inWait]
  exact h.inside t

omit [DecidableEq T] [DecidableEq L] [DecidableEq C] [DecidableEq S] in
theorem use (h : Consistent u log) (hi : u.Holds i c) : Consistent u (log ++ [.used c]) := by
  have hfree := (h.allocated i c hi).2
  refine ⟨h.placed, h.inside, h.creating, h.apart, h.written, fun j d hj => ?_, h.distinct, h.home,
    h.queued, h.marked, h.known, fun d hd => h.old d (by simpa using hd), ?_, fun d hd => ?_⟩
  · simpa using h.allocated j d hj
  · rw [List.pairwise_append]
    refine ⟨h.intact, List.pairwise_singleton _ _, fun e he e' he' d hd => ?_⟩
    obtain rfl := List.mem_singleton.mp he'
    subst hd
    refine ⟨by simp, ?_⟩
    rintro ⟨⟩
    exact hfree he
  · simpa using h.deferred d (by simpa using hd)

omit [DecidableEq T] [DecidableEq L] [DecidableEq C] [DecidableEq S] in
/-- The object is freed and the bit cleared: nobody queues on it, and nobody will end a
`Wait_Syscall` on the slot with its mark set. -/
theorem free (h : Consistent u log) (hi : u.Holds i c) (hq : (u.kernel.conditions c).queue = [])
    (ha : u.isToBeDeleted i = true → ∀ v, u.waitingAt v ≠ some i) :
    Consistent { u with conditionTable := u.conditionTable.clear i } (log ++ [.freed c]) := by
  have hholds {j d} := holds_clear u i (j := j) (d := d)
  have hfree := (h.allocated i c hi).2
  refine ⟨h.placed, h.inside, fun t j hj => ?_, h.apart, fun j hj hc => ?_, fun j d hj => ?_,
    fun j₁ j₂ d h₁ h₂ => h.distinct j₁ j₂ d (hholds.mp h₁).2 (hholds.mp h₂).2,
    fun t j d ht hj => h.home t j d ht (hholds.mp hj).2, fun d t ht => ?_, fun t j ht hm => ?_,
    h.known, fun d hd => ?_, ?_, fun d hd => ?_⟩
  · have hne : j ≠ i := by
      rintro rfl
      exact hi.2.1 t hj
    simpa [ObjectTable.clear, hne] using h.creating t j hj
  · by_cases hj' : j = i
    · simp [ObjectTable.clear, hj'] at hj
    · exact h.written j (by simpa [ObjectTable.clear, hj'] using hj) hc
  · obtain ⟨hne, hj⟩ := hholds.mp hj
    have hdc : d ≠ c := by
      rintro rfl
      exact hne (h.distinct j i d hj hi)
    refine ⟨(h.allocated j d hj).1, ?_⟩
    simpa [hdc] using (h.allocated j d hj).2
  · obtain ⟨j, hj⟩ := h.queued d t ht
    refine ⟨j, hholds.mpr ⟨?_, hj⟩⟩
    rintro rfl
    obtain rfl := Option.some.inj (hj.2.2.symm.trans hi.2.2)
    simp [hq] at ht
  · have hne : j ≠ i := by
      rintro rfl
      exact ha hm t ht
    have hmap := h.marked t j ht hm
    exact ⟨by simpa [ObjectTable.clear, hne] using hmap.1, hmap.2⟩
  · simp only [List.mem_append, List.mem_singleton, Effect.freed.injEq] at hd
    rcases hd with hd | rfl
    · exact h.old d hd
    · exact (h.allocated i d hi).1
  · rw [List.pairwise_append]
    refine ⟨h.intact, List.pairwise_singleton _ _, fun e he e' he' d hd => ?_⟩
    obtain rfl := List.mem_singleton.mp he'
    subst hd
    refine ⟨?_, by simp⟩
    rintro ⟨⟩
    exact hfree he
  · simp only [List.mem_append, List.mem_singleton, Effect.freed.injEq, reduceCtorEq, or_false]
      at hd ⊢
    rcases h.deferred d hd with hd | ⟨j, hj, hm⟩
    · exact .inl (.inl hd)
    · by_cases hne : j = i
      · subst hne
        exact .inl (.inr (Option.some.inj (hj.2.2.symm.trans hi.2.2)))
      · exact .inr ⟨j, hholds.mpr ⟨hne, hj⟩, hm⟩

omit [DecidableEq L] [DecidableEq C] [DecidableEq S] in
/-- `Find` takes a slot that is not in use. -/
theorem take (h : Consistent u log) (hc : u.creating t = none)
    {n : ℕ} (hf : u.conditionTable.allocate.free? = some n) :
    Consistent { u with conditionTable := u.conditionTable.allocate.take n
                        creating := Function.update u.creating t (some (n : ℤ)) } log := by
  have hn : u.conditionTable.map n = false := by
    simpa using (ObjectTable.free?_some hf).2
  have hnew : ∀ v, u.creating v ≠ some (n : ℤ) := by
    intro v hv
    simp [h.creating v n hv] at hn
  have hcreating : ∀ v j, Function.update u.creating t (some (n : ℤ)) v = some j →
      (v = t ∧ j = n) ∨ (v ≠ t ∧ j ≠ n ∧ u.creating v = some j) := by
    intro v j hv
    by_cases hvt : v = t
    · subst hvt
      exact .inl ⟨rfl, by simpa [eq_comm] using hv⟩
    · rw [Function.update_of_ne hvt] at hv
      refine .inr ⟨hvt, ?_, hv⟩
      rintro rfl
      exact hnew v hv
  have hcomplete := complete_take hc hnew
  have hholds {j d} := holds_take hc hnew hn (j := j) (d := d)
  refine ⟨h.placed, h.inside, fun v j hv => ?_, fun v w j hv hw => ?_, fun j hj hcom => ?_,
    fun j d hj => h.allocated j d (hholds.mp hj),
    fun j₁ j₂ d h₁ h₂ => h.distinct j₁ j₂ d (hholds.mp h₁) (hholds.mp h₂),
    fun v j d hv hj => h.home v j d hv (hholds.mp hj), fun d v hv => ?_, fun v j hv hm => ?_,
    h.known, h.old, h.intact, fun d hd => ?_⟩
  · rcases hcreating v j hv with ⟨-, rfl⟩ | ⟨-, hj, hv⟩
    · simp [ObjectTable.take]
    · simpa [ObjectTable.take, hj] using h.creating v j hv
  · rcases hcreating v j hv with ⟨rfl, rfl⟩ | ⟨-, hj, hv⟩
    · rcases hcreating w _ hw with ⟨rfl, -⟩ | ⟨-, hj, -⟩
      · rfl
      · exact absurd rfl hj
    · rcases hcreating w j hw with ⟨-, hj'⟩ | ⟨-, -, hw⟩
      · exact absurd hj' hj
      · exact h.apart v w j hv hw
  · obtain ⟨hne, hcom⟩ := (hcomplete j).mp hcom
    obtain ⟨d, hd⟩ := h.written j (by simpa [ObjectTable.take, hne] using hj) hcom
    exact ⟨d, by simpa [ConditionKernel.object, ObjectTable.take] using hd⟩
  · obtain ⟨j, hj⟩ := h.queued d v hv
    exact ⟨j, hholds.mpr hj⟩
  · have hm' : u.isToBeDeleted j = true := by
      simpa [ConditionKernel.isToBeDeleted, ObjectTable.take] using hm
    obtain ⟨hmap, hcom⟩ := h.marked v j hv hm'
    have hne : j ≠ n := by
      rintro rfl
      simp [hmap] at hn
    exact ⟨by simpa [ObjectTable.take, hne] using hmap, (hcomplete j).mpr ⟨hne, hcom⟩⟩
  · refine (h.deferred d hd).imp_right fun ⟨j, hj, hm⟩ => ⟨j, hholds.mpr hj, ?_⟩
    simpa [ConditionKernel.isToBeDeleted, ObjectTable.take] using hm

omit [DecidableEq L] [DecidableEq S] in
/-- A new condition comes into the slot. -/
theorem write (h : Consistent u log) (hc : u.creating t = some i) (hnew : c ∉ u.created)
    (space : S) (memory : Option L) :
    Consistent { u with kernel := u.kernel.setCondition c (.new memory)
                        conditionTable := u.conditionTable.write i c space
                        creating := Function.update u.creating t none
                        created := c :: u.created } log := by
  have hnot : ¬ u.Complete i := fun hcom => hcom t hc
  have hcreating : ∀ v j, Function.update u.creating t none v = some j →
      v ≠ t ∧ j ≠ i ∧ u.creating v = some j := by
    intro v j hv
    have hvt : v ≠ t := by
      rintro rfl
      simp at hv
    rw [Function.update_of_ne hvt] at hv
    refine ⟨hvt, ?_, hv⟩
    rintro rfl
    exact hvt (h.apart v t j hv hc)
  have hcomplete := complete_write hc fun v hv => h.apart v t i hv hc
  have hholds {j d} := holds_write hc (h.creating t i hc) (fun v hv => h.apart v t i hv hc) c space
    (u.kernel.setCondition c (.new memory)) (c :: u.created) (j := j) (d := d)
  have hold : ∀ {j d}, u.Holds j d → d ≠ c := by
    rintro j d hj rfl
    exact hnew (h.allocated j d hj).1
  refine ⟨?_, h.inside, fun v j hv => ?_, fun v w j hv hw => ?_, fun j hj hcom => ?_,
    fun j d hj => ?_, fun j₁ j₂ d h₁ h₂ => ?_, fun v j d hv hj => ?_, fun d v hv => ?_,
    fun v j hv hm => ?_, fun d v hv => List.mem_cons_of_mem _ (h.known d v hv),
    fun d hd => List.mem_cons_of_mem _ (h.old d hd), h.intact, fun d hd => ?_⟩
  · exact h.placed.setCondition (by simp [Condition.new]) (by simp [Condition.new])
  · exact h.creating v j (hcreating v j hv).2.2
  · exact h.apart v w j (hcreating v j hv).2.2 (hcreating w j hw).2.2
  · by_cases hji : j = i
    · exact ⟨c, by simp [ConditionKernel.object, ObjectTable.write, hji]⟩
    · obtain ⟨d, hd⟩ := h.written j hj (((hcomplete j).mp hcom).resolve_left hji)
      exact ⟨d, by simpa [ConditionKernel.object, ObjectTable.write, hji] using hd⟩
  · rcases hholds.mp hj with ⟨-, rfl⟩ | hj
    · exact ⟨List.mem_cons_self, fun hd => hnew (h.old d hd)⟩
    · exact ⟨List.mem_cons_of_mem _ (h.allocated j d hj).1, (h.allocated j d hj).2⟩
  · rcases hholds.mp h₁ with ⟨rfl, hd⟩ | hj₁
    · rcases hholds.mp h₂ with ⟨rfl, -⟩ | hj₂
      · rfl
      · exact absurd hd (hold hj₂)
    · rcases hholds.mp h₂ with ⟨-, hd⟩ | hj₂
      · exact absurd hd (hold hj₁)
      · exact h.distinct j₁ j₂ d hj₁ hj₂
  · rcases hholds.mp hj with ⟨-, rfl⟩ | hj
    · exact absurd (h.known d v hv) hnew
    · exact h.home v j d hv hj
  · by_cases hd : d = c
    · subst hd
      simp [Kernel.setCondition, Condition.new] at hv
    · obtain ⟨j, hj⟩ := h.queued d v (by simpa [Kernel.setCondition, hd] using hv)
      exact ⟨j, hholds.mpr (.inr hj)⟩
  · have hji : j ≠ i := by
      rintro rfl
      simp [ConditionKernel.isToBeDeleted, ObjectTable.write] at hm
    obtain ⟨hmap, hcom⟩ := h.marked v j hv (by
      simpa [ConditionKernel.isToBeDeleted, ObjectTable.write, hji] using hm)
    exact ⟨hmap, (hcomplete j).mpr (.inr hcom)⟩
  · rcases h.deferred d hd with hgone | ⟨j, hj, hm⟩
    · exact .inl hgone
    · have hji : j ≠ i := by
        rintro rfl
        exact hnot hj.2.1
      refine .inr ⟨j, hholds.mpr (.inr hj), ?_⟩
      simpa [ConditionKernel.isToBeDeleted, ObjectTable.write, hji] using hm

omit [DecidableEq T] [DecidableEq L] [DecidableEq C] [DecidableEq S] in
/-- The deletion of a condition is put off. -/
theorem defer (h : Consistent u log) (hi : u.Holds i c) :
    Consistent { u with conditionTable := u.conditionTable.setToBeDeleted i }
      (log ++ [.deferred c]) := by
  have hholds {j d} := holds_setToBeDeleted u i (j := j) (d := d)
  have hmarked {j} := isToBeDeleted_setToBeDeleted u i (j := j)
  refine ⟨h.placed, h.inside, h.creating, h.apart, fun j hj hcom => ?_, fun j d hj => ?_,
    fun j₁ j₂ d h₁ h₂ => h.distinct j₁ j₂ d (hholds.mp h₁) (hholds.mp h₂),
    fun t j d ht hj => h.home t j d ht (hholds.mp hj), fun d t ht => ?_, fun t j ht hm => ?_,
    h.known, fun d hd => h.old d (by simpa using hd), ?_, fun d hd => ?_⟩
  · obtain ⟨d, hd⟩ := h.written j hj hcom
    exact ⟨d, (hholds.mpr ⟨hj, hcom, hd⟩).2.2⟩
  · simpa using h.allocated j d (hholds.mp hj)
  · obtain ⟨j, hj⟩ := h.queued d t ht
    exact ⟨j, hholds.mpr hj⟩
  · rcases hmarked.mp hm with rfl | hm
    · exact ⟨hi.1, hi.2.1⟩
    · exact h.marked t j ht hm
  · rw [List.pairwise_append]
    refine ⟨h.intact, List.pairwise_singleton _ _, fun e _ e' he' d _ => ?_⟩
    obtain rfl := List.mem_singleton.mp he'
    simp
  · simp only [List.mem_append, List.mem_singleton, Effect.deferred.injEq, reduceCtorEq,
      or_false] at hd ⊢
    rcases hd with hd | rfl
    · refine (h.deferred d hd).imp_right fun ⟨j, hj, hm⟩ => ⟨j, hholds.mpr hj, ?_⟩
      exact hmarked.mpr (.inr hm)
    · exact .inr ⟨i, hholds.mpr hi, hmarked.mpr (.inl rfl)⟩

omit [DecidableEq S] in
/-- An accepted `Wait`. -/
theorem sleep (h : Consistent u log) (hi : u.Holds i c) (ht : u.kernel.currentThread = some t)
    (ha : (u.kernel.conditions c).Accepts u.kernel.locks lock t) :
    Consistent { u with kernel := (u.kernel.release t lock).1.enqueue t c lock
                        waitingAt := Function.update u.waitingAt t (some i) } log := by
  have hplaced : Placed ((u.kernel.release t lock).1.enqueue t c lock) := by
    refine (h.placed.release ht).enqueue ?_ ha.1
    exact ht
  have hother : ∀ {d v}, v ≠ t →
      (((u.kernel.release t lock).1.enqueue t c lock).InWait d v ↔ u.kernel.InWait d v) :=
    fun hv => inWait_update (k := u.kernel) rfl hv
  have hself : ∀ {d}, ((u.kernel.release t lock).1.enqueue t c lock).InWait d t ↔ d = c := by
    intro d
    simp [Kernel.InWait, Kernel.enqueue, Kernel.fallAsleep, Inside.waitsOn, eq_comm]
  refine ⟨hplaced, fun v => ?_, h.creating, h.apart, h.written, h.allocated, h.distinct,
    fun v j d hv hj => ?_, fun d v hv => ?_, fun v j hv hm => ?_, fun d v hv => ?_, h.old, h.intact,
    h.deferred⟩
  · by_cases hvt : v = t
    · subst hvt
      simp only [Function.update_self, hself]
      exact ⟨fun _ => ⟨c, rfl⟩, fun _ => ⟨i, rfl⟩⟩
    · simp only [Function.update_of_ne hvt, hother hvt]
      exact h.inside v
  · by_cases hvt : v = t
    · subst hvt
      obtain rfl := hself.mp hv
      simp only [Function.update_self, Option.some.injEq]
      exact h.distinct i j d hi hj
    · simp only [Function.update_of_ne hvt]
      exact h.home v j d ((hother hvt).mp hv) hj
  · by_cases hd : d = c
    · subst hd
      exact ⟨i, hi⟩
    · refine h.queued d v ?_
      simpa [Kernel.enqueue, Kernel.fallAsleep, Kernel.setCondition, Kernel.release, Kernel.setLock,
        Kernel.readyToRun, hd] using hv
  · by_cases hvt : v = t
    · subst hvt
      obtain rfl : i = j := by simpa using hv
      exact ⟨hi.1, hi.2.1⟩
    · exact h.marked v j (by simpa [hvt] using hv) hm
  · by_cases hvt : v = t
    · subst hvt
      obtain rfl := hself.mp hv
      exact (h.allocated i d hi).1
    · exact h.known d v ((hother hvt).mp hv)

omit [DecidableEq C] [DecidableEq S] in
/-- A thread comes back from its `Wait`. -/
theorem comeBack (h : Consistent u log) (ht : t ∈ u.kernel.readyList)
    (hb : (u.kernel.dispatch t).inside t = none) :
    Consistent { u with kernel := u.kernel.dispatch t
                        waitingAt := Function.update u.waitingAt t none } log := by
  have hplace : (u.kernel.dispatch t).inside = Function.update u.kernel.inside t none := by
    refine (dispatch_place u.kernel t).resolve_right ?_
    rintro ⟨d, lock, -, he⟩
    simp [he] at hb
  have hother : ∀ {d v}, v ≠ t → ((u.kernel.dispatch t).InWait d v ↔ u.kernel.InWait d v) :=
    fun hv => inWait_update hplace hv
  have hself : ∀ {d}, ¬ (u.kernel.dispatch t).InWait d t := by
    rintro d ⟨call, hcall, -⟩
    simp [hb] at hcall
  have hne : ∀ {d v}, (u.kernel.dispatch t).InWait d v → v ≠ t := by
    rintro d v hv rfl
    exact hself hv
  refine ⟨h.placed.dispatch ht, fun v => ?_, h.creating, h.apart, h.written, h.allocated,
    h.distinct, fun v j d hv hj => ?_, fun d v hv => h.queued d v (by simpa using hv),
    fun v j hv hm => ?_, fun d v hv => h.known d v ((hother (hne hv)).mp hv), h.old, h.intact,
    h.deferred⟩
  · by_cases hvt : v = t
    · subst hvt
      simp [hself]
    · simp only [Function.update_of_ne hvt, hother hvt]
      exact h.inside v
  · simp only [Function.update_of_ne (hne hv)]
    exact h.home v j d ((hother (hne hv)).mp hv) hj
  · have hvt : v ≠ t := by
      rintro rfl
      simp at hv
    exact h.marked v j (by simpa [hvt] using hv) hm

end Consistent

/-! Steps. -/

omit [DecidableEq C] in
theorem getsLock_of_back (hw : k.InWait c t) (hb : (k.dispatch t).inside t = none) :
    k.GetsLock t := by
  obtain ⟨call, hcall, hw⟩ := hw
  cases call with
  | acquire => exact hw.elim
  | reacquire => simp [Kernel.GetsLock, hcall]
  | wait d lock =>
    simp only [Kernel.GetsLock, hcall]
    rcases Lock.acquire_cases (k.locks lock) t with ⟨ho, -⟩ | ⟨-, hs, -⟩ | ⟨-, -, he⟩
    · exact .inl ho
    · exact .inr hs
    · simp [Kernel.dispatch, hcall, Kernel.acquire, he, Kernel.fallAsleep] at hb

omit [DecidableEq T] [DecidableEq L] [DecidableEq C] [DecidableEq S] in
theorem ConditionKernel.Kept.of (h : u.Kept j)
    (hs : ∀ d, u'.Holds j d → u'.isToBeDeleted j = true →
      u.Holds j d ∧ u.isToBeDeleted j = true)
    (hw : ∀ d t, u.kernel.InWait d t → u'.kernel.InWait d t) : u'.Kept j := by
  intro d hd hm
  obtain ⟨hd, hm⟩ := hs d hd hm
  obtain ⟨t, ht⟩ := h d hd hm
  exact ⟨t, hw d t ht⟩

omit [DecidableEq T] [DecidableEq L] [DecidableEq C] [DecidableEq S] in
/-- The end of a `Wait_Syscall` on slot `i`. -/
theorem end_step (h : Consistent u log) (hk : ∀ j, j ≠ i → u.Kept j)
    (hm : u.isToBeDeleted i = true → u.conditionTable.map i = true ∧ u.Complete i)
    (ha : u.Drained i → ∀ v, u.waitingAt v ≠ some i) (he : EndMove u i u' es) :
    Consistent u' (log ++ es) ∧ (∀ j, u'.Kept j) ∧
      ∀ d, .freed d ∈ es → ∀ t, ¬ u'.kernel.InWait d t := by
  cases he with
  | unmarked hm' =>
    refine ⟨by simpa using h, fun j => ?_, by simp⟩
    by_cases hj : j = i
    · subst hj
      intro d _ hd
      simp [hm'] at hd
    · exact hk j hj
  | @kept c hm' ho hq =>
    have hi : u.Holds i c := ⟨(hm hm').1, (hm hm').2, ho⟩
    refine ⟨h.use hi, fun j => ?_, by simp⟩
    by_cases hj : j = i
    · subst hj
      intro d hd _
      obtain rfl := Option.some.inj (hd.2.2.symm.trans ho)
      obtain ⟨t, ht⟩ := List.exists_mem_of_ne_nil _ hq
      exact ⟨t, inWait_of_queued h.placed ht⟩
    · exact hk j hj
  | @freed c hm' ho hq =>
    have hi : u.Holds i c := ⟨(hm hm').1, (hm hm').2, ho⟩
    have halone := ha ⟨hm', by simpa [ho] using hq⟩
    refine ⟨by simpa using (h.use hi).free hi hq fun _ => halone, fun j => ?_, fun d hd t ht => ?_⟩
    · by_cases hj : j = i
      · intro d hd
        exact absurd hj ((holds_clear u i).mp hd).1
      · exact (hk j hj).of (fun d hd hm => ⟨((holds_clear u i).mp hd).2, hm⟩) fun _ _ ht => ht
    · obtain rfl : d = c := by simpa using hd
      exact halone t (h.home t i d ht hi)

theorem condition_step (h : Consistent u log) (hk : ∀ j, u.Kept j)
    (hm : ConditionMove space u call u' es) (hc : u.DestructionAllowed space call) :
    Consistent u' (log ++ es) ∧ (∀ j, u'.Kept j) ∧
      ∀ d, .freed d ∈ es → .deferred d ∈ log → ∀ t, ¬ u'.kernel.InWait d t := by
  have hholds : ∀ {t i c}, u.Names space t i c → u.Complete i → u.Holds i c := fun hn hcom =>
    ⟨(ObjectTable.validates_iff.mp hn.valid).2.2.1, hcom, hn.object⟩
  have hkernel : ∀ {k'}, KeepsWaits u.kernel k' → ∀ j, ConditionKernel.Kept { u with kernel := k' } j :=
    fun hw j => (hk j).of (fun d hd hm => ⟨hd, hm⟩) fun d t ht => (hw.inWait d t).mpr ht
  cases hm with
  | @found t n hc' hf =>
    have hmap : u.conditionTable.map n = false := by
      simpa using (ObjectTable.free?_some hf).2
    have hnew : ∀ v, u.creating v ≠ some (n : ℤ) := by
      intro v hv
      simp [h.creating v n hv] at hmap
    refine ⟨by simpa using h.take hc' hf, fun j => ?_, by simp⟩
    refine (hk j).of (fun d hd hm => ⟨(holds_take hc' hnew hmap).mp hd, ?_⟩) fun _ _ ht => ht
    simpa [ConditionKernel.isToBeDeleted, ObjectTable.take] using hm
  | @written t i c memory hc' hnew =>
    refine ⟨by simpa using h.write hc' hnew (space t) memory, fun j => ?_, by simp⟩
    refine (hk j).of (fun d hd hm => ?_) fun _ _ ht => ht
    have hj : j ≠ i := by
      rintro rfl
      simp [ConditionKernel.isToBeDeleted, ObjectTable.write] at hm
    have hd := (holds_write hc' (h.creating t i hc') (fun v hv => h.apart v t i hv hc') c (space t)
      (u.kernel.setCondition c (.new memory)) (c :: u.created)).mp hd
    refine ⟨hd.resolve_left fun hd => hj hd.1, ?_⟩
    simpa [ConditionKernel.isToBeDeleted, ObjectTable.write, hj] using hm
  | ignored => exact ⟨by simpa using h, hk, by simp⟩
  | quiet ha hkm =>
    have hw := quiet_keepsWaits h.placed ha hkm
    exact ⟨by simpa using h.kernel (h.placed.step hkm) hw, hkernel hw, by simp⟩
  | @woken t i j c call a k' out hn hcall ha hkm =>
    have hcom : u.Complete i := by
      rcases hcall with rfl | rfl <;> exact hc t hn.running hn.valid
    have hw := quiet_keepsWaits h.placed ha hkm
    have hi := hholds hn hcom
    exact ⟨(h.use hi).kernel (h.placed.step hkm) hw, hkernel hw, by simp⟩
  | @asleep t i j c lock hn ha =>
    have hi := hholds hn (hc t hn.running hn.valid).1
    refine ⟨(h.use hi).sleep hi hn.running ha, fun j => ?_, by simp⟩
    refine (hk j).of (fun d hd hm => ⟨hd, hm⟩) fun d v hv => ?_
    have hvt : v ≠ t := by
      rintro rfl
      exact not_inWait_of_running h.placed hn.running hv
    exact (inWait_update (k := u.kernel) rfl hvt).mpr hv
  | @rejected t i j c lock u' es hn hl ha he =>
    have hcom := hc t hn.running hn.valid
    have hi := hholds hn hcom.1
    have hbound := KernelMove.bound (c := c) hn.running ha
    have hw : KeepsWaits u.kernel (u.kernel.setCondition c { u.kernel.conditions c with
        waitingLock := some ((u.kernel.conditions c).waitingLock.getD lock) }) := by
      refine ⟨fun _ _ => Iff.rfl, fun d v hv => ?_⟩
      by_cases hd : d = c
      · subst hd
        simpa [Kernel.setCondition] using hv
      · simpa [Kernel.setCondition, hd] using hv
    have hstep := (h.use hi).kernel (h.placed.step hbound) hw
    have hend := end_step hstep (fun j _ => hkernel hw j) (fun _ => ⟨hi.1, hi.2.1⟩)
      (fun hd v hv => ?_) he
    · refine ⟨by simpa using hend.1, hend.2.1, fun d hd _ => hend.2.2 d (by simpa using hd)⟩
    · -- the thread itself runs, so it is inside no call
      have hdrained : u.Drained i := by
        refine ⟨hd.1, fun d hd' => ?_⟩
        have hq := hd.2 d hd'
        obtain rfl := Option.some.inj (hn.object.symm.trans hd')
        simpa [Kernel.setCondition] using hq
      have hne : ∀ d ∈ u.object i, ¬ (u.kernel.conditions d).Accepts u.kernel.locks lock t := by
        intro d hd'
        obtain rfl := Option.some.inj (hn.object.symm.trans hd')
        exact ha
      obtain rfl := hcom.2 lock hl c hn.object (hne c hn.object) hdrained v hv
      obtain ⟨d, hw⟩ := (h.inside v).mp ⟨i, hv⟩
      exact not_inWait_of_running h.placed hn.running hw
  | @destroyed t i c hn hq =>
    have hcom := hc t hn.running hn.valid
    have hi := hholds hn hcom.1
    have hmark : u.isToBeDeleted i = false := by
      by_contra hm
      exact hcom.2 ⟨by simpa using hm, by simpa [hn.object] using hq⟩
    refine ⟨by simpa using (h.use hi).free hi hq (by simp [hmark]), fun j => ?_, fun d hd hdef => ?_⟩
    · exact (hk j).of (fun d hd hm => ⟨((holds_clear u i).mp hd).2, hm⟩) fun _ _ ht => ht
    · obtain rfl : d = c := by simpa using hd
      rcases h.deferred d hdef with hfree | ⟨j, hj, hm⟩
      · exact absurd hfree (h.allocated i d hi).2
      · obtain rfl := h.distinct i j d hi hj
        simp [hmark] at hm
  | @deferred t i c hn hq =>
    have hi := hholds hn (hc t hn.running hn.valid).1
    refine ⟨by simpa using (h.use hi).defer hi, fun j => ?_, by simp⟩
    by_cases hj : j = i
    · subst hj
      intro d hd _
      obtain rfl := Option.some.inj (((holds_setToBeDeleted u j).mp hd).2.2.symm.trans hn.object)
      obtain ⟨v, hv⟩ := List.exists_mem_of_ne_nil _ hq
      exact ⟨v, inWait_of_queued h.placed hv⟩
    · refine (hk j).of (fun d hd hm => ⟨(holds_setToBeDeleted u i).mp hd, ?_⟩) fun _ _ ht => ht
      exact ((isToBeDeleted_setToBeDeleted u i).mp hm).resolve_left hj
  | @dispatched t ht hw =>
    have hkeeps : KeepsWaits u.kernel (u.kernel.dispatch t) := by
      refine dispatch_keepsWaits (hw.imp_left fun hnone d hd => ?_)
      obtain ⟨i, hi⟩ := (h.inside t).mpr ⟨d, hd⟩
      simp [hnone] at hi
    exact ⟨by simpa using h.kernel (h.placed.dispatch ht) hkeeps, hkernel hkeeps, by simp⟩
  | @returned t i u' es ht hw hb he =>
    obtain ⟨d₀, hin⟩ := (h.inside t).mp ⟨i, hw⟩
    have hback := h.comeBack ht hb
    have hend := end_step hback (fun j hj d hd hm => ?_) (fun hm => h.marked t i hw hm)
      (fun hd v hv => ?_) he
    · exact ⟨hend.1, hend.2.1, fun d hd _ => hend.2.2 d hd⟩
    · obtain ⟨v, hv⟩ := hk j d hd hm
      have hvt : v ≠ t := by
        rintro rfl
        exact hj (Option.some.inj ((h.home v j d hv hd).symm.trans hw))
      refine ⟨v, ?_⟩
      rcases dispatch_place u.kernel t with he | ⟨_, _, -, he⟩
      · exact (inWait_update he hvt).mpr hv
      · exact (inWait_update he hvt).mpr hv
    · have hvt : v ≠ t := by
        rintro rfl
        simp at hv
      refine hvt (hc i hw (getsLock_of_back hin hb) ⟨hd.1, fun d hd' => ?_⟩ v ?_)
      · simpa using hd.2 d hd'
      · simpa [hvt] using hv

/-! Runs. -/

variable {tr : List (ConditionStep T L C S)} {lockTable : SlotTable (LockEntry L S)}
  {memory : ℤ → Option S × Bool}

theorem consistent_run
    (h : Execution (Handles (conditionCall space)) (ConditionKernel.initial lockTable memory) tr u)
    (hc : ∀ x ∈ tr, x.before.DestructionAllowed space x.event.1) :
    Consistent u (effects tr) ∧ ∀ i, u.Kept i := by
  refine h.history_invariant (P := fun tr u => Consistent u (effects tr) ∧ ∀ i, u.Kept i)
    (Q := fun x => x.before.DestructionAllowed space x.event.1)
    ⟨.initial lockTable memory, ?_⟩ ?_ hc
  · rintro i c ⟨hmap, -⟩
    simp [ConditionKernel.initial, ObjectTable.initial] at hmap
  · rintro tr x ⟨hcon, hkept⟩ hs hx
    have hnext := condition_step hcon hkept (conditionCall_move hcon.placed hs) hx
    simp only [effects, List.flatMap_append, List.flatMap_singleton]
    exact ⟨hnext.1, hnext.2.1⟩

/-- Over every interleaving whose steps meet the condition. -/
theorem destroysOnce_of_allowed
    (h : Execution (Handles (conditionCall space)) (ConditionKernel.initial lockTable memory) tr u)
    (hc : ∀ x ∈ tr, x.before.DestructionAllowed space x.event.1) : DestroysOnce tr := by
  have hintact := (consistent_run h hc).1.intact
  -- the run up to a transition, and the run with it
  have hsplit : ∀ {pre post : List (ConditionStep T L C S)} {x : ConditionStep T L C S},
      tr = pre ++ x :: post →
      (Consistent x.before (effects pre) ∧ ∀ i, x.before.Kept i) ∧
        ConditionMove space x.before x.event.1 x.after x.event.2 ∧
        x.before.DestructionAllowed space x.event.1 := by
    rintro pre post x rfl
    obtain ⟨hpre, hs⟩ := h.split rfl
    have hrun := consistent_run hpre fun y hy => hc y (by simp [hy])
    exact ⟨hrun, conditionCall_move hrun.1.placed hs, hc x (by simp)⟩
  refine ⟨hintact.imp fun h c he => (h c he).1, hintact.imp fun h c he => (h c he).2, ?_, ?_⟩
  · intro pre x post c he hfree hdef
    obtain ⟨⟨hcon, hkept⟩, hm, hx⟩ := hsplit he
    exact (condition_step hcon hkept hm hx).2.2 c hfree hdef
  · intro pre x post c he hdef hnone
    obtain ⟨⟨hcon, hkept⟩, hm, hx⟩ := hsplit he
    obtain ⟨hcon', hkept', -⟩ := condition_step hcon hkept hm hx
    have heq : effects (pre ++ [x]) = effects pre ++ x.event.2 := by simp [effects]
    rw [heq] at hdef ⊢
    refine (hcon'.deferred c hdef).resolve_right ?_
    rintro ⟨i, hi, hmark⟩
    obtain ⟨t, ht⟩ := hkept' i c hi hmark
    exact hnone t ht

/-- One lock of the process. -/
def oneLock : SlotTable (LockEntry ℕ Unit) := [some ⟨0, (), false, 0⟩]

/-- A condition is destroyed while a thread waits on it, as the test suite does, and freed
when the thread is woken. -/
theorem destroysOnce_of_allowed_single :
    ∃ (tr : List (ConditionStep (Fin 3) ℕ ℕ Unit)) (u : ConditionKernel (Fin 3) ℕ ℕ Unit),
      Execution (Handles (conditionCall fun _ => ())) (.initial oneLock fun _ => (none, false))
        tr u ∧ effects tr = [.used 5, .used 5, .deferred 5, .used 5, .used 5, .freed 5] ∧
        DestroysOnce tr := by
  obtain ⟨tr, u, h, -, htest⟩ := exists_of_trace
    (conditionCall (T := Fin 3) (L := ℕ) (C := ℕ) fun _ => ())
    (.initial oneLock fun _ => (none, false))
    [.wake 1, .wake 2, .dispatch 1, .createCondition, .newCondition 5 none, .acquire 0, .wait 0 0,
      .dispatch 2, .acquire 0, .destroyCondition 0, .signal 0 0, .release 0, .dispatch 1]
    (fun r => decide (effects r.1 = [.used 5, .used 5, .deferred 5, .used 5, .used 5, .freed 5]) &&
      r.1.all fun x => x.before.DestructionAllowed (fun _ => ()) x.event.1)
    (by decide +kernel)
  simp only [Bool.and_eq_true, decide_eq_true_eq, List.all_eq_true] at htest
  exact ⟨tr, u, h, htest.1, destroysOnce_of_allowed h htest.2⟩

/-- Two waiters are woken by one Broadcast after the condition was destroyed. -/
theorem broadcast_frees_twice :
    ∃ (tr : List (ConditionStep (Fin 4) ℕ ℕ Unit)) (u : ConditionKernel (Fin 4) ℕ ℕ Unit),
      Execution (Handles (conditionCall fun _ => ())) (.initial oneLock fun _ => (none, false))
        tr u ∧ ¬ DestroysOnce tr := by
  obtain ⟨tr, u, h, -, htest⟩ := exists_of_trace
    (conditionCall (T := Fin 4) (L := ℕ) (C := ℕ) fun _ => ())
    (.initial oneLock fun _ => (none, false))
    [.wake 1, .wake 2, .wake 3, .dispatch 1, .createCondition, .newCondition 5 none, .acquire 0,
      .wait 0 0, .dispatch 2, .acquire 0, .wait 0 0, .dispatch 3, .acquire 0, .destroyCondition 0,
      .broadcast 0 0, .release 0, .dispatch 1, .release 0, .dispatch 2]
    (fun r => decide ((effects r.1).drop 5 = [.used 5, .freed 5, .used 5, .freed 5]))
    (by decide +kernel)
  simp only [decide_eq_true_eq] at htest
  refine ⟨tr, u, h, fun hlaw => ?_⟩
  have hdrop := hlaw.once.sublist (List.drop_sublist 5 _)
  rw [htest] at hdrop
  simp at hdrop

end Nachos.Threads
