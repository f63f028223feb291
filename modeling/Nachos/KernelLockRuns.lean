import Nachos.KernelThreads

/-! A kernel lock over whole schedules. The calls carried out on it make it follow the
abstract mutex; what the threads themselves see agrees with its owner. -/
namespace Nachos.Threads
open Executions

variable {T L C : Type*} [DecidableEq T] [DecidableEq L] [DecidableEq C]
  {k k' : Kernel T L C} {a : Action T L C} {t u : T} {l lock : L} {c : C} {out : List T}

/-- The `Acquire` or `Release` that an action carries out on lock `l`. An accepted `Wait`
releases its lock, and its thread acquires it again once it is dispatched. -/
def lockOp (k : Kernel T L C) (a : Action T L C) (l : L) : Option (FifoMutex.Op T) :=
  match a with
  | .acquire lock => if lock = l then k.currentThread.map .acquire else none
  | .release lock => if lock = l then k.currentThread.map .release else none
  | .wait c (some lock) =>
    k.currentThread.bind fun t =>
      if lock = l ∧ (k.conditions c).Accepts k.locks lock t then some (.release t) else none
  | .dispatch t =>
    match k.inside t with
    | some (.wait _ lock) => if lock = l then some (.acquire t) else none
    | _ => none
  | _ => none

def Lock.apply (l : Lock T) : FifoMutex.Op T → Lock T
  | .acquire t => (l.acquire t).1
  | .release t => (l.release t).1

namespace Kernel

omit [DecidableEq C] in
theorem acquire_locks (k : Kernel T L C) (t : T) (lock : L) (call : Inside L C) (l : L) :
    (k.acquire t lock call).locks l =
      if lock = l then ((k.locks l).acquire t).1 else k.locks l := by
  have h : (k.acquire t lock call).locks =
      Function.update k.locks lock ((k.locks lock).acquire t).1 := by
    unfold Kernel.acquire
    dsimp only
    split_ifs <;> rfl
  by_cases hl : lock = l
  · subst hl
    simp [h]
  · simp [h, hl, Ne.symm hl]

omit [DecidableEq C] in
theorem release_locks (k : Kernel T L C) (t : T) (lock l : L) :
    (k.release t lock).1.locks l = if lock = l then ((k.locks l).release t).1 else k.locks l := by
  by_cases hl : lock = l
  · subst hl
    simp [Kernel.release, Kernel.readyToRun, Kernel.setLock]
  · simp [Kernel.release, Kernel.readyToRun, Kernel.setLock, hl, Ne.symm hl]

end Kernel

/-- What a step does to a lock. -/
theorem KernelMove.locks (h : KernelMove k a k' out) (l : L) :
    k'.locks l = (lockOp k a l).elim (k.locks l) (k.locks l).apply := by
  cases h with
  | @acquire t lock ht =>
    rw [Kernel.acquire_locks]
    by_cases hl : lock = l <;> simp [lockOp, ht, hl, Lock.apply]
  | @release t lock ht =>
    rw [Kernel.release_locks]
    by_cases hl : lock = l <;> simp [lockOp, ht, hl, Lock.apply]
  | @waited t c lock ht hc =>
    have he : ((k.release t lock).1.enqueue t c lock).locks l = (k.release t lock).1.locks l := rfl
    rw [he, Kernel.release_locks]
    by_cases hl : lock = l
    · subst hl
      simp [lockOp, ht, hc, Lock.apply]
    · simp [lockOp, ht, hl]
  | @bound t c lock ht hc =>
    have hnone : lockOp k (.wait c (some lock)) l = none := by simp [lockOp, ht, hc]
    rw [hnone]
    rfl
  | refused ht ha =>
    have hnone : lockOp k a l = none := by
      rcases ha with rfl | ⟨conditionLock, rfl | rfl, -⟩ <;> rfl
    rw [hnone]
    rfl
  | signalled => rfl
  | broadcast => rfl
  | slept => rfl
  | @dispatched t ht =>
    cases hi : k.inside t with
    | none => simp [Kernel.dispatch, lockOp, hi]
    | some call =>
      cases call with
      | acquire lock => simp [Kernel.dispatch, lockOp, hi]
      | reacquire c lock => simp [Kernel.dispatch, lockOp, hi]
      | wait c lock =>
        simp only [Kernel.dispatch, hi, Kernel.acquire_locks, lockOp]
        by_cases hl : lock = l <;> simp [hl, Lock.apply]
  | woken => rfl

/-! The history of a lock. -/

/-- The request of an `Acquire` by a thread that does not possess the lock. -/
def requestsAdded (l : L) (x : KernelStep T L C) : List T :=
  match lockOp x.before x.event.1 l with
  | some (.acquire t) => if (x.before.locks l).threadWithPossession = some t then [] else [t]
  | _ => []

/-- The thread that gets the lock: the caller of `Acquire`, or the one to which a `Release`
hands it. -/
def requestsGranted (l : L) (x : KernelStep T L C) : List T :=
  match lockOp x.before x.event.1 l with
  | some (.acquire t) =>
    if (x.before.locks l).threadWithPossession ≠ some t ∧
        (x.after.locks l).threadWithPossession = some t then [t] else []
  | some (.release t) =>
    if (x.before.locks l).threadWithPossession = some t then
      (x.after.locks l).threadWithPossession.toList
    else []
  | none => []

/-- A thread comes back from `Acquire`, or from a `Wait` with this lock. -/
def Leaves (l : L) (x : KernelStep T L C) (t : T) : Prop :=
  (x.event.1 = .acquire l ∧ x.before.currentThread = some t ∨
    x.event.1 = .dispatch t ∧ ∃ call, x.before.inside t = some call ∧
      (call.acquiring = some l ∨ ∃ c, call = .wait c l)) ∧
    x.after.currentThread = some t

/-- As the thread itself sees it, it possesses the lock: it came back from `Acquire` and
did not call `Release`, or `Wait`, since. -/
def Holds (l : L) (tr : List (KernelStep T L C)) (t : T) : Prop :=
  ∃ pre x post, tr = pre ++ x :: post ∧ Leaves l x t ∧
    ∀ y ∈ post, lockOp y.before y.event.1 l ≠ some (.release t)

/-- The contract of lock `l` after a run. -/
structure LockContract (l : L) (tr : List (KernelStep T L C)) (k : Kernel T L C) : Prop where
  possession : ∀ t, Holds l tr t → (k.locks l).threadWithPossession = some t
  exclusive : ∀ t u, Holds l tr t → Holds l tr u → t = u
  busy_iff : (k.locks l).isBusy = true ↔ ∃ t, (k.locks l).threadWithPossession = some t
  order : tr.flatMap (requestsGranted l) ++ (k.locks l).queue = tr.flatMap (requestsAdded l)
  left : ∀ x ∈ tr, ∀ t, Leaves l x t → (x.after.locks l).threadWithPossession = some t
  rejected : ∀ x ∈ tr, ∀ t, x.before.currentThread = some t → x.event.1 = .release l →
    (x.before.locks l).threadWithPossession ≠ some t → x.after = x.before

section Steps

theorem placed_step {e : Action T L C × List T} (h : Placed k) (hs : Handles kernel k e k') :
    Placed k' := h.step (kernel_move hs)

theorem Lock.apply_refines {b : Lock T} (h : b.Valid) (op : FifoMutex.Op T) :
    ∃ h' : (b.apply op).Valid, (b.apply op).toMutex h' = FifoMutex.step (b.toMutex h) op := by
  cases op with
  | acquire t => exact ⟨Lock.acquire_valid h t, Lock.acquire_refines h t⟩
  | release t => exact ⟨Lock.release_valid h t, Lock.release_refines h t⟩

/-- A thread that comes back from `Acquire` has the lock. -/
theorem Leaves.possession {x : KernelStep T L C} (h : Leaves l x t) (hp : Placed x.before)
    (hs : Handles kernel x.before x.event x.after) :
    (x.after.locks l).threadWithPossession = some t := by
  have hm : KernelMove x.before x.event.1 x.after x.event.2 := kernel_move hs
  obtain ⟨k, ⟨a, out⟩, k'⟩ := x
  obtain ⟨hcase, hcur⟩ := h
  have hacquire : ∀ (k : Kernel T L C) (call : Inside L C),
      (k.acquire t l call).currentThread = some t →
      ((k.acquire t l call).locks l).threadWithPossession = some t := by
    intro k call hc
    rw [Kernel.acquire_locks, if_pos rfl]
    rcases Lock.acquire_cases (k.locks l) t with ⟨ho, he⟩ | ⟨-, -, he⟩ | ⟨-, -, he⟩
    · rw [he]
      exact ho
    · rw [he]
    · simp [Kernel.acquire, he, Kernel.fallAsleep] at hc
  dsimp only at hcase hcur hm hp ⊢
  rcases hcase with ⟨rfl, ht⟩ | ⟨rfl, call, hcall, hl⟩
  · cases hm with
    | acquire ht' =>
      obtain rfl := Option.some.inj (ht.symm.trans ht')
      exact hacquire _ _ hcur
    | refused ht' ha => simp at ha
  · cases hm with
    | refused ht' ha => simp at ha
    | dispatched ht =>
      rcases hl with hl | ⟨c, rfl⟩
      · have hg := (hp.granted t ht call l hcall hl).1
        cases call with
        | wait c lock => cases hl
        | acquire lock => simpa [Kernel.dispatch, hcall] using hg
        | reacquire c lock => simpa [Kernel.dispatch, hcall] using hg
      · simp only [Kernel.dispatch, hcall] at hcur ⊢
        exact hacquire _ _ hcur

/-- Nobody else can take the lock from a thread. -/
theorem KernelMove.keeps_possession (hm : KernelMove k a k' out) (hv : (k.locks l).Valid)
    (ho : (k.locks l).threadWithPossession = some t) (hr : lockOp k a l ≠ some (.release t)) :
    (k'.locks l).threadWithPossession = some t := by
  rw [hm.locks l]
  cases hop : lockOp k a l with
  | none => exact ho
  | some op =>
    cases op with
    | acquire u =>
      rcases Lock.acquire_cases (k.locks l) u with ⟨-, he⟩ | ⟨-, hs, -⟩ | ⟨-, -, he⟩
      · simpa [Lock.apply, he] using ho
      · rw [hv.free_iff, ho] at hs
        cases hs
      · simpa [Lock.apply, he] using ho
    | release u =>
      have hu : (k.locks l).threadWithPossession ≠ some u := by
        intro h
        obtain rfl := Option.some.inj (ho.symm.trans h)
        exact hr hop
      simpa [Lock.apply, Lock.release_rejected hu] using ho

end Steps

section Runs
variable {possession : L → Option T} {binding : C → Option L} {tr : List (KernelStep T L C)}

/-- The calls carried out on the lock, oldest first. -/
def lockOps (l : L) (tr : List (KernelStep T L C)) : List (FifoMutex.Op T) :=
  tr.filterMap fun x => lockOp x.before x.event.1 l

omit [DecidableEq C] in
theorem requestsAdded_eq {x : KernelStep T L C} {m : FifoMutex.Mutex T}
    (ho : (x.before.locks l).threadWithPossession = m.owner) :
    requestsAdded l x =
      ((lockOp x.before x.event.1 l).map (FifoMutex.arrival m)).getD [] := by
  unfold requestsAdded
  cases lockOp x.before x.event.1 l with
  | none => rfl
  | some op => cases op <;> simp [FifoMutex.arrival, ho]

omit [DecidableEq C] in
theorem requestsGranted_eq {x : KernelStep T L C} {m m' : FifoMutex.Mutex T}
    (ho : (x.before.locks l).threadWithPossession = m.owner)
    (ho' : (x.after.locks l).threadWithPossession = m'.owner)
    (hm : m' = (lockOp x.before x.event.1 l).elim m (FifoMutex.step m)) :
    requestsGranted l x =
      ((lockOp x.before x.event.1 l).map (FifoMutex.grant m)).getD [] := by
  unfold requestsGranted
  cases hop : lockOp x.before x.event.1 l with
  | none => rfl
  | some op =>
    rw [hop] at hm
    cases op with
    | acquire t =>
      have hm : m' = FifoMutex.acquire m t := hm
      simp only [ho, ho', hm, Option.map_some, Option.getD_some]
      by_cases hnone : m.owner = none
      · have hg : FifoMutex.grant m (.acquire t) = [t] := if_pos hnone
        rw [if_pos ((FifoMutex.grant_acquire_iff m t).mp hg), hg]
      · have hg : FifoMutex.grant m (.acquire t) = [] := if_neg hnone
        have hne : FifoMutex.grant m (.acquire t) ≠ [t] := by simp [hg]
        rw [if_neg fun h => hne ((FifoMutex.grant_acquire_iff m t).mpr h), hg]
    | release t =>
      have hm : m' = FifoMutex.release m t := hm
      simp only [ho, ho', hm, Option.map_some, Option.getD_some]
      by_cases hown : m.owner = some t
      · rw [if_pos hown, FifoMutex.release_owner hown]
        simp only [FifoMutex.grant, if_pos hown]
        cases m.waiting <;> rfl
      · simp [FifoMutex.grant, hown]

/-- The lock is the abstract mutex after the same calls, with the same history. -/
theorem lock_refines (hl : possession l = none)
    (h : Execution (Handles kernel) (Kernel.initial possession binding) tr k) :
    (∃ hv : (k.locks l).Valid,
      (k.locks l).toMutex hv = FifoMutex.run FifoMutex.free (lockOps l tr)) ∧
    tr.flatMap (requestsAdded l) = FifoMutex.arrivals FifoMutex.free (lockOps l tr) ∧
    tr.flatMap (requestsGranted l) = FifoMutex.grants FifoMutex.free (lockOps l tr) := by
  induction h with
  | start =>
    refine ⟨⟨?_, ?_⟩, rfl, rfl⟩
    · simpa [Kernel.initial, hl] using (Lock.new_valid : (Lock.new none : Lock T).Valid)
    · ext1
      · exact hl
      · rfl
  | @extend tr s t e _ hst ih =>
    obtain ⟨⟨hv, hm⟩, hadd, hgrant⟩ := ih
    have hlocks := (kernel_move hst).locks l
    have hops : lockOps l (tr ++ [⟨s, e, t⟩]) = lockOps l tr ++ (lockOp s e.1 l).toList := by
      cases hop : lockOp s e.1 l <;> simp [lockOps, hop]
    have hnext : ∃ hv' : (t.locks l).Valid, (t.locks l).toMutex hv' =
        (lockOp s e.1 l).elim ((s.locks l).toMutex hv) (FifoMutex.step ((s.locks l).toMutex hv)) := by
      rw [hlocks]
      cases lockOp s e.1 l with
      | none => exact ⟨hv, rfl⟩
      | some op => exact Lock.apply_refines hv op
    obtain ⟨hv', hm'⟩ := hnext
    have hrun : FifoMutex.run (FifoMutex.run FifoMutex.free (lockOps l tr))
        (lockOp s e.1 l).toList = (t.locks l).toMutex hv' := by
      rw [hm', ← hm]
      cases lockOp s e.1 l <;> rfl
    have ho : (s.locks l).threadWithPossession =
        (FifoMutex.run FifoMutex.free (lockOps l tr)).owner := congrArg FifoMutex.Mutex.owner hm
    refine ⟨⟨hv', ?_⟩, ?_, ?_⟩
    · rw [hops, FifoMutex.run_append, hrun]
    · rw [hops, FifoMutex.arrivals_append, List.flatMap_append, hadd, List.flatMap_singleton,
        requestsAdded_eq (x := ⟨s, e, t⟩) ho]
      cases lockOp s e.1 l <;> simp [FifoMutex.arrivals]
    · rw [hops, FifoMutex.grants_append, List.flatMap_append, hgrant, List.flatMap_singleton,
        requestsGranted_eq (x := ⟨s, e, t⟩) ho
          (congrArg FifoMutex.Mutex.owner (rfl : (t.locks l).toMutex hv' = _)) (by rw [hm', hm])]
      cases lockOp s e.1 l <;> simp [FifoMutex.grants]

theorem holds_possession (hl : possession l = none)
    (h : Execution (Handles kernel) (Kernel.initial possession binding) tr k)
    (ht : Holds l tr t) : (k.locks l).threadWithPossession = some t := by
  induction h with
  | start =>
    obtain ⟨pre, x, post, he, -⟩ := ht
    simp at he
  | @extend tr s s' e hex hst ih =>
    obtain ⟨pre, x, post, he, hx, hpost⟩ := ht
    rcases List.eq_nil_or_concat post with rfl | ⟨post, y, rfl⟩
    · obtain ⟨rfl, rfl⟩ := List.append_inj' he rfl
        |>.imp_right fun hh => (List.singleton_inj.mp hh).symm
      exact hx.possession (hex.invariant (Placed.initial _ _) fun _ _ _ => placed_step) hst
    · have he' : tr ++ [⟨s, e, s'⟩] = (pre ++ x :: post) ++ [y] := by simpa using he
      obtain ⟨rfl, hy⟩ := List.append_inj' he' rfl
      obtain rfl := List.singleton_inj.mp hy
      obtain ⟨⟨hv, -⟩, -⟩ := lock_refines hl hex
      refine (kernel_move hst).keeps_possession hv (ih ⟨pre, x, post, rfl, hx, ?_⟩) ?_
      · exact fun z hz => hpost z (by simp [hz])
      · exact hpost ⟨s, e, s'⟩ (by simp)

/-- Over every schedule, a lock whose owner field was empty keeps its contract. -/
theorem lock_contract (hl : possession l = none)
    (h : Execution (Handles kernel) (Kernel.initial possession binding) tr k) :
    LockContract l tr k := by
  have hposs := fun t => holds_possession (t := t) hl h
  have hplaced : ∀ x ∈ tr, Placed x.before ∧ Handles kernel x.before x.event x.after :=
    fun x hx => h.mem (Placed.initial _ _) (fun _ _ _ => placed_step) hx
  obtain ⟨⟨hv, hm⟩, hadd, hgrant⟩ := lock_refines hl h
  refine ⟨hposs, fun t u ht hu => ?_, ?_, ?_, fun x hx t ht => ?_, fun x hx t ht ha ho => ?_⟩
  · exact Option.some.inj ((hposs t ht).symm.trans (hposs u hu))
  · rw [Lock.isBusy, decide_eq_true_eq, hv.busy_iff, Option.isSome_iff_exists]
  · have hq : (k.locks l).queue = (FifoMutex.run FifoMutex.free (lockOps l tr)).waiting :=
      congrArg FifoMutex.Mutex.waiting hm
    rw [hadd, hgrant, hq, FifoMutex.grants_append_waiting]
    rfl
  · exact ht.possession (hplaced x hx).1 (hplaced x hx).2
  · have hs := (hplaced x hx).2
    obtain ⟨k₀, ⟨a, out⟩, k₁⟩ := x
    dsimp only at ht ha ho hs ⊢
    subst ha
    have hrel : k₀.release t l = (k₀, []) := by
      simp [Kernel.release, Lock.release_rejected ho]
    simp only [Handles, kernel, ht, hrel] at hs
    exact (Prod.mk.inj (Except.ok.inj hs)).1.symm

/-- Three threads: one is handed the lock while asleep, one queues behind it. -/
theorem lock_contract_handOff : ∃ (tr : List (KernelStep ℕ ℕ ℕ)) (k : Kernel ℕ ℕ ℕ),
    Execution (Handles kernel) (Kernel.initial (fun _ => none) fun _ => none) tr k ∧
      tr.map (fun x => x.event.1) = [.wake 1, .wake 2, .wake 3, .dispatch 1, .acquire 0,
        .dispatch 2, .acquire 0, .dispatch 3, .release 0, .acquire 0, .dispatch 1, .release 0,
        .dispatch 2] ∧
      LockContract 0 tr k := by
  obtain ⟨tr, k, h, hmap, -⟩ := exists_of_trace kernel
    (Kernel.initial (fun _ : ℕ => (none : Option ℕ)) fun _ : ℕ => none)
    [.wake 1, .wake 2, .wake 3, .dispatch 1, .acquire 0, .dispatch 2, .acquire 0, .dispatch 3,
      .release 0, .acquire 0, .dispatch 1, .release 0, .dispatch 2]
    (fun r => r.1.length = 13) (by decide +kernel)
  exact ⟨tr, k, h, hmap, lock_contract rfl h⟩

end Runs

end Nachos.Threads
