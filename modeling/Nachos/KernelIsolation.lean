import Nachos.KernelConditionDeletion
import Nachos.KernelUserObjects

/-! A thread of one process does not change the locks and conditions of another. -/
namespace Nachos.Threads
open Executions

variable {T L C S : Type*} [DecidableEq T] [DecidableEq L] [DecidableEq C] [DecidableEq S]

def Inside.lock : Inside L C → L
  | .acquire lock => lock
  | .wait _ lock => lock
  | .reacquire _ lock => lock

/-- The thread whose step it is. -/
def mover (u : ObjectKernel T L C S) : ObjectCall T L C → Option T
  | .dispatch t => some t
  | _ => u.kernel.currentThread

/-- A step leaves the slots of other address spaces as they are, with their counts and the
locks and conditions in them. -/
structure Isolates (space : T → S) (x : ObjectStep T L C S) : Prop where
  lockSlot : ∀ t, mover x.before x.event = some t → ∀ i s, s ≠ space t →
    x.before.locks.Owned space i s → x.before.locks.SameSlot x.after.locks i ∧
      x.after.acquireCount i = x.before.acquireCount i
  lock : ∀ t, mover x.before x.event = some t → ∀ i s l, s ≠ space t →
    x.before.locks.Owned space i s → x.before.locks.Complete i →
    x.before.locks.object i = some l → x.after.kernel.locks l = x.before.kernel.locks l
  conditionSlot : ∀ t, mover x.before x.event = some t → ∀ i s, s ≠ space t →
    x.before.conditions.Owned space i s → x.before.conditions.SameSlot x.after.conditions i
  condition : ∀ t, mover x.before x.event = some t → ∀ i s c, s ≠ space t →
    x.before.conditions.Owned space i s → x.before.conditions.Complete i →
    x.before.conditions.object i = some c →
      x.after.kernel.conditions c = x.before.kernel.conditions c

/-- No thread that is to be the last of its process remains. -/
def ObjectKernel.LastOfProcess (space : T → S) (u : ObjectKernel T L C S) (t : T) : Prop :=
  ∀ v ∈ u.alive.erase t, space v ≠ space t

/-- Acquire, Release, DestroyLock and DestroyCondition name no slot between the `Find` and the
write of a Create; nor does a thread end its `Wait_Syscall` on such a slot with the old mark
set, nor does the last thread of a process exit whose address space such a slot still has. -/
def IsolationAllowed (space : T → S) (u : ObjectKernel T L C S) : ObjectCall T L C → Prop
  | .acquire j | .release j | .destroyLock j => ∀ t ∈ u.kernel.currentThread,
    u.locks.table.validates (space t) j → u.locks.Complete j
  | .destroyCondition i => ∀ t ∈ u.kernel.currentThread,
    u.conditions.table.validates (space t) i → u.conditions.Complete i
  | .wait i j => ∀ t ∈ u.kernel.currentThread, u.conditions.table.validates (space t) i →
    u.locks.table.validates (space t) j → ∀ c ∈ u.conditions.object i, ∀ lock ∈ u.locks.object j,
      ¬ (u.kernel.conditions c).Accepts u.kernel.locks lock t →
        u.conditions.isToBeDeleted i = true → u.conditions.Complete i
  | .dispatch t => ∀ i ∈ u.waitingAt t, u.kernel.GetsLock t →
    u.conditions.isToBeDeleted i = true → u.conditions.Complete i
  | .exit => ∀ t ∈ u.kernel.currentThread, u.LastOfProcess space t →
    (∀ n ∈ u.locks.table.exitSlots (space t) u.locks.table.arraySize, u.locks.Complete n) ∧
    ∀ n ∈ u.conditions.table.exitSlots (space t) u.conditions.table.arraySize,
      u.conditions.Complete n
  | _ => True

instance [Fintype T] (space : T → S) (u : ObjectKernel T L C S) (call : ObjectCall T L C) :
    Decidable (IsolationAllowed space u call) := by
  unfold IsolationAllowed ObjectStore.Complete ObjectKernel.LastOfProcess
  split <;> infer_instance

/-- The locks and conditions that a thread is inside are of its own address space. -/
structure Separate (space : T → S) (u : ObjectKernel T L C S) : Prop where
  placed : Placed u.kernel
  locks : u.locks.Sane
  conditions : u.conditions.Sane
  inside : ∀ t call, u.kernel.inside t = some call → u.locks.creator call.lock = some (space t)
  waiting : ∀ t i, u.waitingAt t = some i → ∃ c, u.kernel.InWait c t

variable {space : T → S} {u u' : ObjectKernel T L C S} {call : ObjectCall T L C} {t v : T}
  {i j : ℤ} {l lock : L} {c : C} {k k' : Kernel T L C} {a : Action T L C} {out : List T} {s : S}

/-! What a step of the kernel reaches. -/

/-- The locks that an action may change. -/
def Action.ReachesLock (k : Kernel T L C) (l : L) : Action T L C → Prop
  | .acquire lock | .release lock => lock = l
  | .wait _ conditionLock => conditionLock = some l
  | .dispatch t => ∃ c, k.inside t = some (.wait c l)
  | _ => False

theorem locks_unreached (hm : KernelMove k a k' out) (ha : ¬ a.ReachesLock k l) :
    k'.locks l = k.locks l := by
  have hnone : lockOp k a l = none := by
    unfold lockOp
    split
    · next lock => exact if_neg fun h => ha h
    · next lock => exact if_neg fun h => ha h
    · next c lock =>
      have hne : lock ≠ l := fun h => ha (by rw [h]; rfl)
      simp [hne]
    · next t =>
      split
      · next c lock hin => exact if_neg fun h => ha ⟨c, by rw [hin, h]⟩
      · rfl
    · rfl
  rw [hm.locks, hnone]
  rfl

/-- The conditions that an action may change. -/
def Action.ReachesCondition (c : C) : Action T L C → Prop
  | .wait c' _ | .signal c' _ | .broadcast c' _ => c' = c
  | _ => False

theorem conditions_unreached (hm : KernelMove k a k' out) (ha : ¬ a.ReachesCondition c) :
    k'.conditions c = k.conditions c := by
  cases hm with
  | @acquire t lock ht =>
    unfold Kernel.acquire
    dsimp only
    split_ifs <;> rfl
  | dispatched ht => rw [Kernel.dispatch_conditions]
  | @waited t c' lock ht hc =>
    have hne : c ≠ c' := fun h => ha h.symm
    simp [Kernel.enqueue, Kernel.fallAsleep, Kernel.setCondition, Kernel.release, Kernel.setLock,
      Kernel.readyToRun, hne]
  | @bound t c' lock ht hc =>
    have hne : c ≠ c' := fun h => ha h.symm
    simp [Kernel.setCondition, hne]
  | @signalled t v c' lock rest ht hw hq =>
    have hne : c ≠ c' := fun h => ha h.symm
    simp [Kernel.wakeWaiters, Kernel.readyToRun, Kernel.setCondition, hne]
  | @broadcast t c' lock ht hw =>
    have hne : c ≠ c' := fun h => ha h.symm
    simp [Kernel.wakeWaiters, Kernel.readyToRun, Kernel.setCondition, hne]
  | release | refused | slept | woken => rfl

/-- A thread inside a call was inside one with this lock before, or has just begun it. -/
theorem inside_lock {call : Inside L C} (hm : KernelMove k a k' out)
    (hi : k'.inside v = some call) :
    (∃ call', k.inside v = some call' ∧ call'.lock = call.lock) ∨
      (k.currentThread = some v ∧
        (a = .acquire call.lock ∨ ∃ c, a = .wait c (some call.lock))) := by
  cases hm with
  | @acquire t lock ht =>
    rcases Kernel.acquire_inside hi with ⟨rfl, rfl⟩ | hi
    · exact .inr ⟨ht, .inl rfl⟩
    · exact .inl ⟨call, hi, rfl⟩
  | @waited t c lock ht hc =>
    by_cases hv : v = t
    · subst hv
      obtain rfl : Inside.wait c lock = call := by
        simpa [Kernel.enqueue, Kernel.fallAsleep] using hi
      exact .inr ⟨ht, .inr ⟨c, rfl⟩⟩
    · refine .inl ⟨call, ?_, rfl⟩
      simpa [Kernel.enqueue, Kernel.fallAsleep, Kernel.setCondition, Kernel.release,
        Kernel.setLock, Kernel.readyToRun, hv] using hi
  | @dispatched t ht =>
    rcases dispatch_place k t with he | ⟨c, lock, hin, he⟩
    · rw [he] at hi
      by_cases hv : v = t
      · simp [hv] at hi
      · exact .inl ⟨call, by rwa [Function.update_of_ne hv] at hi, rfl⟩
    · rw [he] at hi
      by_cases hv : v = t
      · subst hv
        obtain rfl : Inside.reacquire c lock = call := by simpa using hi
        exact .inl ⟨_, hin, rfl⟩
      · exact .inl ⟨call, by rwa [Function.update_of_ne hv] at hi, rfl⟩
  | release | bound | refused | signalled | broadcast | slept | woken =>
    exact .inl ⟨call, hi, rfl⟩

omit [DecidableEq T] [DecidableEq C] in
/-- A new lock in memory that no thread is queued on. -/
theorem Placed.newLock (h : Placed k) (hl : ∀ t call, k.inside t = some call → call.lock ≠ l)
    (memory : Option T) : Placed (k.setLock l (.new memory)) := by
  have hacq : ∀ {t : T} {call : Inside L C}, k.inside t = some call → call.acquiring ≠ some l := by
    intro t call hcall hacq
    refine hl t call hcall ?_
    cases call <;> simp_all [Inside.acquiring, Inside.lock]
  refine ⟨h.running, h.ready, fun l' => ?_, fun l' => ?_, fun l' t ht => ?_, h.conditionQueue,
    h.waiting, fun t ht call l' hcall hl' => ?_⟩
  · by_cases he : l' = l
    · subst he
      simp [Kernel.setLock, Lock.new, Lock.Settled]
    · simpa [Kernel.setLock, he] using h.settled l'
  · by_cases he : l' = l
    · subst he
      simp [Kernel.setLock, Lock.new]
    · simpa [Kernel.setLock, he] using h.lockQueue l'
  · by_cases he : l' = l
    · subst he
      simp [Kernel.setLock, Lock.new] at ht
    · exact h.queued l' t (by simpa [Kernel.setLock, he] using ht)
  · have he : l' ≠ l := by
      rintro rfl
      exact hacq hcall hl'
    simpa [Kernel.setLock, he] using h.granted t ht call l' hcall hl'

/-! Steps. -/

omit [DecidableEq T] [DecidableEq L] [DecidableEq C] in
theorem LockNamed.creator (hn : LockNamed space u t j lock) (h : u.locks.Sane) :
    u.locks.creator lock = some (space t) :=
  h.made j lock (space t) hn.object (ObjectTable.validates_iff.mp hn.valid).2.2.2

omit [DecidableEq T] [DecidableEq L] [DecidableEq C] in
theorem ConditionNamed.creator (hn : ConditionNamed space u t i c) (h : u.conditions.Sane) :
    u.conditions.creator c = some (space t) :=
  h.made i c (space t) hn.object (ObjectTable.validates_iff.mp hn.valid).2.2.2

namespace Separate

omit [DecidableEq S] in
/-- A step of the kernel that begins calls with locks of the right address space only. -/
theorem kernelMove (h : Separate space u) (hm : KernelMove u.kernel a k' out)
    (hbegin : ∀ v l, u.kernel.currentThread = some v →
      a = .acquire l ∨ (∃ c, a = .wait c (some l)) → u.locks.creator l = some (space v))
    {w : T → Option ℤ} (hw : ∀ t i, w t = some i → ∃ c, k'.InWait c t) (count : ℤ → ℤ)
    (alive : List T) : Separate space ⟨k', u.locks, count, u.conditions, w, alive⟩ := by
  refine ⟨h.placed.step hm, h.locks, h.conditions, fun v call hcall => ?_, hw⟩
  rcases inside_lock hm hcall with ⟨call', hcall', hl⟩ | ⟨hv, hl⟩
  · rw [← hl]
    exact h.inside v call' hcall'
  · exact hbegin v call.lock hv hl

omit [DecidableEq T] [DecidableEq L] [DecidableEq C] [DecidableEq S] in
theorem waiting_of_keeps (h : Separate space u) (hk : KeepsWaits u.kernel k') :
    ∀ t i, u.waitingAt t = some i → ∃ c, k'.InWait c t := by
  intro t i ht
  obtain ⟨c, hc⟩ := h.waiting t i ht
  exact ⟨c, (hk.inWait c t).mpr hc⟩

omit [DecidableEq T] [DecidableEq L] [DecidableEq C] [DecidableEq S] in
/-- The tables change and stay sane. -/
theorem tables (h : Separate space u) {locks : ObjectStore T L S} {conditions : ObjectStore T C S}
    (hl : locks.Sane) (hcreator : locks.creator = u.locks.creator) (hc : conditions.Sane)
    (alive : List T) :
    Separate space ⟨u.kernel, locks, u.acquireCount, conditions, u.waitingAt, alive⟩ :=
  ⟨h.placed, hl, hc, fun t call ht => by rw [hcreator]; exact h.inside t call ht, h.waiting⟩

omit [DecidableEq T] [DecidableEq L] [DecidableEq C] [DecidableEq S] in
/-- The end of a `Wait_Syscall`. -/
theorem endsWait (h : Separate space u) (he : EndsWait u i u')
    (hcom : u.conditions.isToBeDeleted i = true → u.conditions.Complete i) :
    Separate space u' := by
  cases he with
  | kept => exact h
  | freed hm ho hq => exact h.tables h.locks rfl (h.conditions.delete (hcom hm) _) u.alive

/-- A rejected `Wait`, before the end of its `Wait_Syscall`. -/
theorem bound (h : Separate space u) (hi : ConditionNamed space u t i c)
    (hj : LockNamed space u t j lock)
    (ha : ¬ (u.kernel.conditions c).Accepts u.kernel.locks lock t) :
    Separate space { u with kernel := u.kernel.setCondition c { u.kernel.conditions c with
      waitingLock := some ((u.kernel.conditions c).waitingLock.getD lock) } } := by
  refine h.kernelMove (.bound hi.running ha) (fun v l hv hl => ?_) h.waiting _ _
  obtain rfl : lock = l := by simpa using hl
  obtain rfl := Option.some.inj (hi.running.symm.trans hv)
  exact hj.creator h.locks

omit [DecidableEq S] in
/-- A thread that is back from its `Wait`, before the end of its `Wait_Syscall`. -/
theorem comeBack (h : Separate space u) (ht : t ∈ u.kernel.readyList) :
    Separate space { u with
      kernel := u.kernel.dispatch t
      waitingAt := Function.update u.waitingAt t none } := by
  refine h.kernelMove (.dispatched ht) (by simp) (fun v i hv => ?_) _ _
  have hvt : v ≠ t := by
    rintro rfl
    simp at hv
  obtain ⟨c, hin⟩ := h.waiting v i (by simpa [hvt] using hv)
  refine ⟨c, ?_⟩
  rcases dispatch_place u.kernel t with he | ⟨_, _, -, he⟩ <;>
    exact (inWait_update he hvt).mpr hin

end Separate

theorem separate_step (h : Separate space u) (hm : ObjectMove space u call u')
    (hc : IsolationAllowed space u call) : Separate space u' := by
  cases hm with
  | ignored => exact h
  | foundLock ht hcr hf =>
    refine h.tables (h.locks.find hf) ?_ h.conditions u.alive
    obtain ⟨n, -, -, rfl⟩ := ObjectStore.find_eq hf
    rfl
  | @wroteLock t i lock memory ht hcr hnew =>
    have hne : ∀ v call, u.kernel.inside v = some call → call.lock ≠ lock := by
      rintro v call hcall rfl
      have hmade := h.inside v call hcall
      simp [hnew] at hmade
    refine ⟨h.placed.newLock hne memory, h.locks.write hcr hnew (space t), h.conditions,
      fun v call hcall => ?_, h.waiting⟩
    simpa [ObjectStore.write, hne v call hcall] using h.inside v call hcall
  | foundCondition ht hcr hf => exact h.tables h.locks rfl (h.conditions.find hf) u.alive
  | @wroteCondition t i c memory ht hcr hnew =>
    refine ⟨?_, h.locks, h.conditions.write hcr hnew (space t), h.inside, h.waiting⟩
    exact h.placed.setCondition (by simp [Condition.new]) (by simp [Condition.new])
  | @acquired t j lock k' out hn hk =>
    refine h.kernelMove hk (fun v l hv hl => ?_)
      (h.waiting_of_keeps (quiet_keepsWaits h.placed (a := .acquire lock) trivial hk)) _ _
    obtain rfl : lock = l := by simpa using hl
    obtain rfl := Option.some.inj (hn.running.symm.trans hv)
    exact hn.creator h.locks
  | @released t j lock locks hn hl =>
    have hk : KernelMove _ (.release lock) _ _ := .release hn.running
    have hbase := h.kernelMove hk (by simp)
      (h.waiting_of_keeps (quiet_keepsWaits h.placed (a := .release lock) trivial hk))
      (Function.update u.acquireCount j (u.acquireCount j - 1)) u.alive
    rcases hl with rfl | rfl
    · exact hbase
    · refine hbase.tables (h.locks.delete ?_ lock) rfl h.conditions u.alive
      exact hc t hn.running hn.valid
  | @woken t i j c lock call a k' out hi hj ha hk =>
    have hquiet : a.IsQuiet := by
      rcases ha with ⟨-, rfl⟩ | ⟨-, rfl⟩ <;> trivial
    refine h.kernelMove hk (fun v l _ hl => ?_)
      (h.waiting_of_keeps (quiet_keepsWaits h.placed hquiet hk)) _ _
    rcases ha with ⟨-, rfl⟩ | ⟨-, rfl⟩ <;> simp at hl
  | @asleep t i j c lock hi hj ha =>
    refine h.kernelMove (.waited hi.running ha) (fun v l hv hl => ?_) (fun v i' hv => ?_) _ _
    · obtain rfl : lock = l := by simpa using hl
      obtain rfl := Option.some.inj (hi.running.symm.trans hv)
      exact hj.creator h.locks
    · by_cases hvt : v = t
      · subst hvt
        exact ⟨c, .wait c lock, by simp [Kernel.enqueue, Kernel.fallAsleep], rfl⟩
      · obtain ⟨d, hd⟩ := h.waiting v i' (by simpa [hvt] using hv)
        exact ⟨d, (inWait_update (k := u.kernel) rfl hvt).mpr hd⟩
  | @rejected t i j c lock u' hi hj ha he =>
    refine (h.bound hi hj ha).endsWait he fun hm => ?_
    exact hc t hi.running hi.valid hj.valid c hi.object lock hj.object ha hm
  | @lockDestroyed t j lock locks hn hl =>
    rcases hl with rfl | rfl
    · exact h.tables (h.locks.defer j) rfl h.conditions u.alive
    · exact h.tables (h.locks.delete (hc t hn.running hn.valid) lock) rfl h.conditions u.alive
  | @conditionDestroyed t i c conditions hn hl =>
    rcases hl with rfl | rfl
    · exact h.tables h.locks rfl (h.conditions.defer i) u.alive
    · exact h.tables h.locks rfl (h.conditions.delete (hc t hn.running hn.valid) c) u.alive
  | slept ht => exact h.kernelMove (.slept ht) (by simp) h.waiting _ _
  | @readied t call alive k' out hcall hal hk =>
    refine h.kernelMove hk (by simp)
      (h.waiting_of_keeps (quiet_keepsWaits h.placed (a := .wake t) trivial hk)) _ _
  | @dispatched t ht hw =>
    refine h.kernelMove (.dispatched ht) (by simp) (fun v i hv => ?_) _ _
    obtain ⟨c, hin⟩ := h.waiting v i hv
    by_cases hvt : v = t
    · subst hvt
      have hkeeps := dispatch_keepsWaits (.inr (hw.resolve_left (by simp [hv])))
      exact ⟨c, (hkeeps.inWait c v).mpr hin⟩
    · refine ⟨c, ?_⟩
      rcases dispatch_place u.kernel t with he | ⟨_, _, -, he⟩ <;>
        exact (inWait_update he hvt).mpr hin
  | @returned t i u' ht hw hb he =>
    obtain ⟨c, hin⟩ := h.waiting t i hw
    exact (h.comeBack ht).endsWait he fun hm => hc i hw (getsLock_of_back hin hb) hm
  | left ht _ _ _ _ => exact h.kernelMove (.slept ht) (by simp) h.waiting _ _
  | @exited t locks conditions ht hcl hcc hlast hlocks hconditions =>
    obtain ⟨hl, hcond⟩ := hc t ht hlast
    have hbase := h.kernelMove (.slept ht) (by simp) h.waiting u.acquireCount u.alive
    refine hbase.tables (h.locks.exit hlocks hl) ?_ (h.conditions.exit hconditions hcond) _
    obtain ⟨-, rfl⟩ := ObjectStore.exit_eq hlocks
    rfl

/-! What stays as it is. -/

section Kept
variable {p : S}

omit [DecidableEq S] in
theorem lock_kept (hm : KernelMove u.kernel a k' out)
    (hreach : ∀ l, a.ReachesLock u.kernel l → u.locks.creator l = some (space t))
    (hl : u.locks.creator l = some p) (hp : p ≠ space t) : k'.locks l = u.kernel.locks l :=
  locks_unreached hm fun ha => hp (Option.some.inj (hl.symm.trans (hreach l ha)))

omit [DecidableEq S] in
theorem condition_kept (hm : KernelMove u.kernel a k' out)
    (hreach : ∀ c, a.ReachesCondition c → u.conditions.creator c = some (space t))
    (hc : u.conditions.creator c = some p) (hp : p ≠ space t) :
    k'.conditions c = u.kernel.conditions c :=
  conditions_unreached hm fun ha => hp (Option.some.inj (hc.symm.trans (hreach c ha)))

omit [DecidableEq T] [DecidableEq L] [DecidableEq C] [DecidableEq S] in
theorem endsWait_kernel (he : EndsWait u i u') : u'.kernel = u.kernel := by
  cases he <;> rfl

/-- The kernel locks of other address spaces. -/
theorem lock_step (h : Separate space u) (hm : ObjectMove space u call u')
    (ht : mover u call = some t) (hl : u.locks.creator l = some p) (hp : p ≠ space t) :
    u'.kernel.locks l = u.kernel.locks l := by
  have hsame : ∀ {v}, u.kernel.currentThread = some v → mover u call = u.kernel.currentThread →
      v = t := fun hv he => Option.some.inj (hv.symm.trans (he.symm.trans ht))
  cases hm with
  | @wroteLock v i lock memory hv hcr hnew =>
    have hne : l ≠ lock := by
      rintro rfl
      simp [hnew] at hl
    simp [Kernel.setLock, hne]
  | @acquired v j lock k' out hn hk =>
    obtain rfl := hsame hn.running rfl
    exact lock_kept hk (by rintro _ rfl; exact hn.creator h.locks) hl hp
  | @released v j lock locks hn _ =>
    obtain rfl := hsame hn.running rfl
    exact lock_kept (.release hn.running) (by rintro _ rfl; exact hn.creator h.locks) hl hp
  | @woken v i j c lock call a k' out hi hj ha hk =>
    refine locks_unreached hk ?_
    rcases ha with ⟨-, rfl⟩ | ⟨-, rfl⟩ <;> exact id
  | @asleep v i j c lock hi hj ha =>
    obtain rfl := hsame hi.running rfl
    refine lock_kept (.waited hi.running ha) ?_ hl hp
    rintro l' hl'
    obtain rfl := Option.some.inj hl'
    exact hj.creator h.locks
  | @rejected v i j c lock u' hi hj ha he =>
    rw [endsWait_kernel he]
    rfl
  | @readied v call alive k' out _ _ hk => exact locks_unreached hk id
  | @dispatched v hv hw =>
    obtain rfl := Option.some.inj ht
    refine lock_kept (.dispatched hv) ?_ hl hp
    rintro l' ⟨c, hin⟩
    exact h.inside v _ hin
  | @returned v i u' hv hw hb he =>
    obtain rfl := Option.some.inj ht
    rw [endsWait_kernel he]
    refine lock_kept (.dispatched hv) ?_ hl hp
    rintro l' ⟨c, hin⟩
    exact h.inside v _ hin
  | ignored | foundLock | foundCondition | wroteCondition | lockDestroyed | conditionDestroyed
  | slept | left | exited => rfl

/-- The conditions of other address spaces. -/
theorem conditions_step (h : Separate space u) (hm : ObjectMove space u call u')
    (ht : mover u call = some t) (hc : u.conditions.creator c = some p) (hp : p ≠ space t) :
    u'.kernel.conditions c = u.kernel.conditions c := by
  have hsame : ∀ {v}, u.kernel.currentThread = some v → mover u call = u.kernel.currentThread →
      v = t := fun hv he => Option.some.inj (hv.symm.trans (he.symm.trans ht))
  cases hm with
  | @wroteCondition v i d memory hv hcr hnew =>
    have hne : c ≠ d := by
      rintro rfl
      simp [hnew] at hc
    simp [Kernel.setCondition, hne]
  | acquired hn hk => exact conditions_unreached hk id
  | released hn _ => exact conditions_unreached (.release hn.running) id
  | @woken v i j d lock call a k' out hi hj ha hk =>
    obtain rfl := hsame hi.running (by rcases ha with ⟨rfl, -⟩ | ⟨rfl, -⟩ <;> rfl)
    refine condition_kept hk ?_ hc hp
    intro c' hc'
    rcases ha with ⟨-, rfl⟩ | ⟨-, rfl⟩ <;> exact hc' ▸ hi.creator h.conditions
  | @asleep v i j d lock hi hj ha =>
    obtain rfl := hsame hi.running rfl
    exact condition_kept (.waited hi.running ha) (by rintro _ rfl; exact hi.creator h.conditions)
      hc hp
  | @rejected v i j d lock u' hi hj ha he =>
    obtain rfl := hsame hi.running rfl
    rw [endsWait_kernel he]
    exact condition_kept (.bound hi.running ha) (by rintro _ rfl; exact hi.creator h.conditions)
      hc hp
  | readied _ _ hk => exact conditions_unreached hk id
  | dispatched hv _ => exact conditions_unreached (.dispatched hv) id
  | returned hv hw hb he =>
    rw [endsWait_kernel he]
    exact conditions_unreached (.dispatched hv) id
  | ignored | foundLock | foundCondition | wroteLock | lockDestroyed | conditionDestroyed | slept
  | left | exited => rfl

/-- The lock slots of other address spaces. -/
theorem lockSlot_step (h : Separate space u) (hm : ObjectMove space u call u')
    (hc : IsolationAllowed space u call) (ht : mover u call = some t)
    (ho : u.locks.Owned space i p) (hp : p ≠ space t) :
    u.locks.SameSlot u'.locks i ∧ u'.acquireCount i = u.acquireCount i := by
  have hsame : ∀ {v}, u.kernel.currentThread = some v → mover u call = u.kernel.currentThread →
      v = t := fun hv he => Option.some.inj (hv.symm.trans (he.symm.trans ht))
  cases hm with
  | foundLock hv hcr hf => exact ⟨ObjectStore.sameSlot_find ho hf, rfl⟩
  | @wroteLock v j lock memory hv hcr hnew =>
    obtain rfl := hsame hv rfl
    have hslot := ObjectStore.sameSlot_write h.locks ho hp hcr lock
    have hi : i ≠ j := by
      rintro rfl
      rcases ho.2 with ⟨w, hw, rfl⟩ | ⟨hcom, -⟩
      · exact hp (by rw [h.locks.apart w v i hw hcr])
      · exact hcom v hcr
    exact ⟨hslot, by simp [hi]⟩
  | @acquired v j lock k' out hn hk =>
    obtain rfl := hsame hn.running rfl
    have hi := ObjectStore.ne_of_validates ho hp hn.valid (hc v hn.running hn.valid)
    exact ⟨⟨rfl, rfl⟩, by simp [ObjectKernel.setCount, hi]⟩
  | @released v j lock locks hn hl =>
    obtain rfl := hsame hn.running rfl
    have hi := ObjectStore.ne_of_validates ho hp hn.valid (hc v hn.running hn.valid)
    refine ⟨?_, by simp [ObjectKernel.setCount, hi]⟩
    rcases hl with rfl | rfl
    · exact ⟨rfl, rfl⟩
    · exact ObjectStore.sameSlot_delete hi lock
  | @lockDestroyed v j lock locks hn hl =>
    obtain rfl := hsame hn.running rfl
    have hi := ObjectStore.ne_of_validates ho hp hn.valid (hc v hn.running hn.valid)
    refine ⟨?_, rfl⟩
    rcases hl with rfl | rfl
    · exact ObjectStore.sameSlot_defer hi
    · exact ObjectStore.sameSlot_delete hi lock
  | rejected _ _ _ he | returned _ _ _ he =>
    cases he <;> exact ⟨⟨rfl, rfl⟩, rfl⟩
  | @exited v locks conditions hv hcl hcc hlast hlocks hconditions =>
    obtain rfl := hsame hv rfl
    exact ⟨ObjectStore.sameSlot_exit ho hp hlocks (hc v hv hlast).1, rfl⟩
  | ignored | foundCondition | wroteCondition | woken | asleep | conditionDestroyed | slept
  | readied | dispatched | left => exact ⟨⟨rfl, rfl⟩, rfl⟩

/-- The condition slots of other address spaces. -/
theorem conditionSlot_step (h : Separate space u) (hm : ObjectMove space u call u')
    (hc : IsolationAllowed space u call) (ht : mover u call = some t)
    (ho : u.conditions.Owned space i p) (hp : p ≠ space t) :
    u.conditions.SameSlot u'.conditions i := by
  have hsame : ∀ {v}, u.kernel.currentThread = some v → mover u call = u.kernel.currentThread →
      v = t := fun hv he => Option.some.inj (hv.symm.trans (he.symm.trans ht))
  cases hm with
  | foundCondition hv hcr hf => exact ObjectStore.sameSlot_find ho hf
  | @wroteCondition v j c memory hv hcr hnew =>
    obtain rfl := hsame hv rfl
    exact ObjectStore.sameSlot_write h.conditions ho hp hcr c
  | @conditionDestroyed v j c conditions hn hl =>
    obtain rfl := hsame hn.running rfl
    have hi := ObjectStore.ne_of_validates ho hp hn.valid (hc v hn.running hn.valid)
    rcases hl with rfl | rfl
    · exact ObjectStore.sameSlot_defer hi
    · exact ObjectStore.sameSlot_delete hi c
  | @rejected v i' j c lock u' hi hj ha he =>
    cases he with
    | kept => exact ⟨rfl, rfl⟩
    | freed hm ho' hq =>
      have hcom := hc v hi.running hi.valid hj.valid c hi.object lock hj.object ha hm
      exact ObjectStore.sameSlot_delete (ObjectStore.ne_of_marked ho hm hcom) _
  | @returned v i' u' hv hw hb he =>
    cases he with
    | kept => exact ⟨rfl, rfl⟩
    | freed hm ho' hq =>
      obtain ⟨c, hin⟩ := h.waiting v i' hw
      have hcom := hc i' hw (getsLock_of_back hin hb) hm
      exact ObjectStore.sameSlot_delete (ObjectStore.ne_of_marked ho hm hcom) _
  | @exited v locks conditions hv hcl hcc hlast hlocks hconditions =>
    obtain rfl := hsame hv rfl
    exact ObjectStore.sameSlot_exit ho hp hconditions (hc v hv hlast).2
  | ignored | foundLock | wroteLock | acquired | released | woken | asleep | lockDestroyed | slept
  | readied | dispatched | left => exact ⟨rfl, rfl⟩

end Kept

/-! Runs. -/

omit [DecidableEq T] [DecidableEq L] [DecidableEq C] [DecidableEq S] in
theorem Separate.initial (lockMemory conditionMemory : ℤ → Option S × Bool) (count : ℤ → ℤ) :
    Separate space (ObjectKernel.initial lockMemory conditionMemory count :
      ObjectKernel T L C S) := by
  refine ⟨.initial _ _, .initial _, .initial _, ?_, ?_⟩
  · intro t call hcall
    cases hcall
  · intro t i ht
    cases ht

theorem isolates_step {x : ObjectStep T L C S} (h : Separate space x.before)
    (hm : ObjectMove space x.before x.event x.after)
    (hc : IsolationAllowed space x.before x.event) : Isolates space x := by
  refine ⟨fun t ht i s hs ho => lockSlot_step h hm hc ht ho hs,
    fun t ht i s l hs ho hcom hl => ?_, fun t ht i s hs ho => conditionSlot_step h hm hc ht ho hs,
    fun t ht i s c hs ho hcom hobj => ?_⟩
  · exact lock_step h hm ht (h.locks.made i l s hl (ObjectStore.space_of_owned ho hcom)) hs
  · exact conditions_step h hm ht (h.conditions.made i c s hobj (ObjectStore.space_of_owned ho hcom)) hs

variable {lockMemory conditionMemory : ℤ → Option S × Bool} {count : ℤ → ℤ}
  {tr : List (ObjectStep T L C S)}

/-- Over every interleaving whose steps meet the condition. -/
theorem isolates_of_allowed
    (h : Execution (fun u call u' => objectCall space u call = .ok u')
      (ObjectKernel.initial lockMemory conditionMemory count) tr u)
    (hc : ∀ x ∈ tr, IsolationAllowed space x.before x.event) : ∀ x ∈ tr, Isolates space x := by
  have hnext : ∀ x : ObjectStep T L C S, Separate space x.before →
      objectCall space x.before x.event = .ok x.after → IsolationAllowed space x.before x.event →
      Separate space x.after :=
    fun x hx hs hcx => separate_step hx (objectCall_move hx.placed hs) hcx
  intro x hx
  obtain ⟨pre, post, rfl⟩ := List.append_of_mem hx
  obtain ⟨hpre, hs⟩ := h.split rfl
  have hsep := hpre.invariant_of_cond (Separate.initial lockMemory conditionMemory count) hnext
    fun y hy => hc y (by simp [hy])
  exact isolates_step hsep (objectCall_move hsep.placed hs) (hc x hx)

/-- Thread 1 belongs to one process, threads 0 and 2 to another. -/
def twoSpaces (t : Fin 3) : Bool := t = 1

/-- A thread names the lock and the condition of another process, in vain. -/
theorem isolates_of_allowed_foreign :
    ∃ (tr : List (ObjectStep (Fin 3) ℕ ℕ Bool)) (u : ObjectKernel (Fin 3) ℕ ℕ Bool),
      Execution (fun u call u' => objectCall twoSpaces u call = .ok u')
        (.initial (fun _ => (none, false)) (fun _ => (none, false)) fun _ => 0) tr u ∧
      u.locks.Owned twoSpaces 0 true ∧ tr.length = 12 ∧ ∀ x ∈ tr, Isolates twoSpaces x := by
  obtain ⟨tr, u, h, hmap, hall, htest⟩ := exists_of_run
    (objectCall (L := ℕ) (C := ℕ) twoSpaces)
    (.initial (fun _ => (none, false)) (fun _ => (none, false)) fun _ => 0)
    [.fork 1, .fork 2, .dispatch 1, .createLock, .newLock 5 none, .createCondition,
      .newCondition 7 none, .acquire 0, .dispatch 2, .release 0, .wait 0 0, .destroyLock 0]
    (fun u call => IsolationAllowed twoSpaces u call)
    (fun u => u.locks.table.map 0 && decide (u.locks.space 0 = some true) &&
      !u.locks.isToBeDeleted 0 && decide (∀ t, u.locks.creating t ≠ some 0))
    (by decide +kernel)
  simp only [Bool.and_eq_true, decide_eq_true_eq, Bool.not_eq_true'] at htest
  obtain ⟨⟨⟨hused, hspace⟩, hmark⟩, hcom⟩ := htest
  refine ⟨tr, u, h, ⟨hused, .inr ⟨hcom, hspace, hmark⟩⟩, ?_, ?_⟩
  · simpa using congrArg List.length hmap
  · exact isolates_of_allowed h fun x hx => by simpa using hall x hx

/-- A process destroys the lock that it destroyed before, in the slot that a CreateLock of
another process has found. -/
theorem destroyLock_takes_slot :
    ∃ (tr : List (ObjectStep (Fin 3) ℕ ℕ Bool)) (u : ObjectKernel (Fin 3) ℕ ℕ Bool),
      Execution (fun u call u' => objectCall twoSpaces u call = .ok u')
        (.initial (fun _ => (none, false)) (fun _ => (none, false)) fun _ => 0) tr u ∧
      ¬ ∀ x ∈ tr, Isolates twoSpaces x := by
  obtain ⟨tr, u, h, hmap, hall, htest⟩ := exists_of_run
    (objectCall (L := ℕ) (C := ℕ) twoSpaces)
    (.initial (fun _ => (none, false)) (fun _ => (none, false)) fun _ => 0)
    [.fork 1, .fork 2, .dispatch 1, .createLock, .newLock 5 none, .destroyLock 0, .dispatch 2,
      .createLock, .dispatch 1]
    (fun _ _ => true)
    (fun u => decide (u.kernel.currentThread = some 1) && u.locks.table.map 0 &&
      decide (u.locks.creating 2 = some 0) &&
      (objectCall twoSpaces u (.destroyLock 0)).toOption.any fun u' => !u'.locks.table.map 0)
    (by decide +kernel)
  simp only [Bool.and_eq_true, decide_eq_true_eq, Option.any_eq_true, Bool.not_eq_true'] at htest
  obtain ⟨⟨⟨hcur, hused⟩, hcr⟩, u', hu', hclear⟩ := htest
  have hstep : objectCall twoSpaces u (.destroyLock 0) = .ok u' := by
    cases hr : objectCall twoSpaces u (.destroyLock 0) with
    | error _ => simp [hr, Except.toOption] at hu'
    | ok r => simpa [hr, Except.toOption] using hu'
  refine ⟨_, u', h.extend hstep, fun hlaw => ?_⟩
  have hlast := hlaw ⟨u, .destroyLock 0, u'⟩ (by simp)
  have hslot := (hlast.lockSlot 1 hcur 0 false (by decide) ⟨hused, .inl ⟨2, hcr, rfl⟩⟩).1.1
  simp [hclear, hused] at hslot

end Nachos.Threads
