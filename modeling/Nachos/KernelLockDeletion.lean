import Nachos.KernelLockTable
import Nachos.KernelLockRuns

/-! When the lock table deletes locks. A lock is depended on while it is held, queued on, or
to be acquired again by a thread inside `Wait`. -/
namespace Nachos.Threads
open Executions SlotTables

variable {T L C S : Type*} [DecidableEq T] [DecidableEq L] [DecidableEq C] [DecidableEq S]

/-- The lock with which a thread inside `Wait` will return. -/
def Inside.returnsWith : Inside L C → Option L
  | .acquire _ => none
  | .wait _ lock => some lock
  | .reacquire _ lock => some lock

/-- Some thread inside `Wait` will return with the lock. -/
def Kernel.Awaited (k : Kernel T L C) (l : L) : Prop :=
  ∃ t call, k.inside t = some call ∧ call.returnsWith = some l

def Kernel.Depended (k : Kernel T L C) (l : L) : Prop :=
  (k.locks l).isBusy ∨ (k.locks l).queue ≠ [] ∨ k.Awaited l

/-- A step deletes locks only that nobody depends on; DestroyLock defers the deletion of a
lock that is depended on and deletes any other at once; Release deletes a marked lock
exactly if nobody depends on it any more. -/
structure DeletesSafely (space : T → S) (x : SyscallStep T L C S) : Prop where
  unused : ∀ l, x.event.2 = some l → ¬ x.after.kernel.Depended l
  deferred : ∀ t i e, x.before.Targets space t i e → x.event.1 = .destroyLock i →
    x.before.kernel.Depended e.lock →
      x.event.2 = none ∧ live? x.after.lockTable i = some (some { e with isToBeDeleted := true })
  atOnce : ∀ t i e, x.before.Targets space t i e → x.event.1 = .destroyLock i →
    ¬ x.before.kernel.Depended e.lock →
      x.event.2 = some e.lock ∧ live? x.after.lockTable i = none
  released : ∀ t i e, x.before.Targets space t i e → x.event.1 = .release i →
    (x.event.2 = some e.lock ↔ e.isToBeDeleted = true ∧ ¬ x.after.kernel.Depended e.lock)

/-- A Release by this thread leaves the lock free. -/
def Lock.FreedBy (l : Lock T) (t : T) : Prop :=
  l.state = .free ∨ (l.threadWithPossession = some t ∧ l.queue = [])

/-- DestroyLock finds a lock that is depended on busy and with `acquireCount` 0; a Release
that leaves a marked lock free finds `acquireCount` 1 exactly if no `Wait` will return
with it. -/
structure DeletionAllowed (space : T → S) (x : SyscallStep T L C S) : Prop where
  destroy : ∀ t i e, x.before.Targets space t i e → x.event.1 = .destroyLock i →
    x.before.kernel.Depended e.lock →
      (x.before.kernel.locks e.lock).isBusy ∧ e.acquireCount = 0
  release : ∀ t i e, x.before.Targets space t i e → x.event.1 = .release i →
    e.isToBeDeleted = true → (x.before.kernel.locks e.lock).FreedBy t →
      (e.acquireCount = 1 ↔ ¬ x.before.kernel.Awaited e.lock)

variable {space : T → S} {u u' : UserKernel T L C S} {call : Syscall T L C} {deleted : Option L}
  {t : T} {i : ℤ} {e e' : LockEntry L S} {l lock : L} {k k' : Kernel T L C} {a : Action T L C}
  {out : List T}

theorem Lock.release_busy_iff {x : Lock T} (h : x.Settled) (t : T) :
    (x.release t).1.isBusy = true ↔ ¬ x.FreedBy t := by
  rcases Lock.release_cases x t with ⟨ho, he⟩ | ⟨ho, v, rest, hq, he⟩ | ⟨ho, hq, he⟩
  · cases hs : x.state <;> simp [he, Lock.isBusy, Lock.FreedBy, ho, hs]
  · have hb : x.state = .busy := by
      cases hs : x.state with
      | busy => rfl
      | free => simp [h hs] at hq
    simp [he, Lock.isBusy, Lock.FreedBy, hq, hb]
  · simp [he, Lock.isBusy, Lock.FreedBy, ho, hq]

omit [DecidableEq T] [DecidableEq L] [DecidableEq C] [DecidableEq S] in
theorem UserKernel.Targets.unique {t' : T} (h : u.Targets space t i e)
    (h' : u.Targets space t' i e') : t' = t ∧ e' = e := by
  refine ⟨Option.some.inj (h'.running.symm.trans h.running), ?_⟩
  simpa [h.entry] using h'.entry.symm

omit [DecidableEq T] [DecidableEq L] [DecidableEq C] in
theorem Kernel.depended_iff (h : (k.locks l).Settled) :
    k.Depended l ↔ (k.locks l).isBusy = true ∨ k.Awaited l := by
  have hqueue : (k.locks l).queue ≠ [] → (k.locks l).isBusy = true := fun hq => by
    cases hs : (k.locks l).state with
    | busy => simp [Lock.isBusy, hs]
    | free => exact absurd (h hs) hq
  simp only [Kernel.Depended]
  tauto

omit [DecidableEq C] in
/-- After a Release the lock is depended on if it is still busy or awaited. -/
theorem release_depended_iff (h : (k.locks l).Settled) (t : T) :
    (k.release t l).1.Depended l ↔ ¬ (k.locks l).FreedBy t ∨ k.Awaited l := by
  have hlock : (k.release t l).1.locks l = ((k.locks l).release t).1 := by
    rw [Kernel.release_locks, if_pos rfl]
  rw [Kernel.depended_iff (hlock ▸ Lock.release_settled h t), hlock, Lock.release_busy_iff h]
  rfl

omit [DecidableEq T] [DecidableEq L] [DecidableEq C] [DecidableEq S] in
/-- The steps that delete nothing are safe and need no condition. -/
theorem deletesSafely_of_other (hr : ∀ t i e, u.Targets space t i e →
    call ≠ .release i ∧ call ≠ .destroyLock i) :
    DeletesSafely space ⟨u, (call, none), u'⟩ ↔ DeletionAllowed space ⟨u, (call, none), u'⟩ := by
  constructor
  · intro _
    exact ⟨fun t i e ht hc => absurd hc (hr t i e ht).2,
      fun t i e ht hc => absurd hc (hr t i e ht).1⟩
  · intro _
    exact ⟨by simp, fun t i e ht hc => absurd hc (hr t i e ht).2,
      fun t i e ht hc => absurd hc (hr t i e ht).2, fun t i e ht hc => absurd hc (hr t i e ht).1⟩

omit [DecidableEq T] [DecidableEq L] [DecidableEq C] [DecidableEq S] in
theorem destroyLock_safe_iff (ht : u.Targets space t i e) :
    DeletesSafely space ⟨u, (.destroyLock i, (u.destroyLock i e).2), (u.destroyLock i e).1⟩ ↔
      DeletionAllowed space ⟨u, (.destroyLock i, (u.destroyLock i e).2), (u.destroyLock i e).1⟩ := by
  by_cases hb : (u.kernel.locks e.lock).isBusy ∧ e.acquireCount = 0
  · have hd : u.destroyLock i e = (u.setEntry i { e with isToBeDeleted := true }, none) := by
      simp [UserKernel.destroyLock, hb]
    have hdep : u.kernel.Depended e.lock := .inl hb.1
    rw [hd]
    constructor
    · intro _
      refine ⟨fun t' j e' ht' hc _ => ?_, by simp⟩
      obtain rfl := Syscall.destroyLock.inj hc
      obtain ⟨-, rfl⟩ := ht.unique ht'
      exact hb
    · intro _
      refine ⟨by simp, fun t' j e' ht' hc _ => ?_, fun t' j e' ht' hc hnd => ?_, by simp⟩
      · obtain rfl := Syscall.destroyLock.inj hc
        obtain ⟨-, rfl⟩ := ht.unique ht'
        exact ⟨rfl, by simp [UserKernel.setEntry, live?_put ht.entry]⟩
      · obtain rfl := Syscall.destroyLock.inj hc
        obtain ⟨-, rfl⟩ := ht.unique ht'
        exact absurd hdep hnd
  · have hd : u.destroyLock i e = (u.deleteLock i, some e.lock) := by
      simp [UserKernel.destroyLock, hb]
    rw [hd]
    constructor
    · intro h
      refine ⟨fun t' j e' ht' hc hdep => ?_, by simp⟩
      obtain rfl := Syscall.destroyLock.inj hc
      obtain ⟨-, rfl⟩ := ht.unique ht'
      exact absurd hdep (h.unused _ rfl)
    · intro h
      have hnd : ¬ u.kernel.Depended e.lock := fun hdep => hb (h.destroy t i e ht rfl hdep)
      refine ⟨?_, fun t' j e' ht' hc hdep => ?_, fun t' j e' ht' hc _ => ?_, by simp⟩
      · rintro _ ⟨⟩
        exact hnd
      · obtain rfl := Syscall.destroyLock.inj hc
        obtain ⟨-, rfl⟩ := ht.unique ht'
        exact absurd hdep hnd
      · obtain rfl := Syscall.destroyLock.inj hc
        obtain ⟨-, rfl⟩ := ht.unique ht'
        exact ⟨rfl, by simp [UserKernel.deleteLock, live?_clear ht.entry]⟩

omit [DecidableEq C] [DecidableEq S] in
theorem releaseLock_deletes_iff (hs : ∀ l, (u.kernel.locks l).Settled) (t : T) (i : ℤ)
    (e : LockEntry L S) : (u.releaseLock t i e).2 = some e.lock ↔
      e.isToBeDeleted = true ∧ e.acquireCount = 1 ∧ (u.kernel.locks e.lock).FreedBy t := by
  have hbusy : ((u.kernel.release t e.lock).1.locks e.lock).isBusy = true ↔
      ¬ (u.kernel.locks e.lock).FreedBy t := by
    rw [Kernel.release_locks, if_pos rfl]
    exact Lock.release_busy_iff (hs e.lock) t
  have hcount : e.acquireCount - 1 = 0 ↔ e.acquireCount = 1 := by omega
  have hcond : (e.isToBeDeleted = true ∧ e.acquireCount - 1 = 0 ∧
      ¬ ((u.kernel.release t e.lock).1.locks e.lock).isBusy = true) ↔
      e.isToBeDeleted = true ∧ e.acquireCount = 1 ∧ (u.kernel.locks e.lock).FreedBy t := by
    rw [hbusy, hcount, not_not]
  unfold UserKernel.releaseLock
  dsimp only
  split_ifs with h
  · exact iff_of_true rfl (hcond.mp h)
  · exact iff_of_false (by simp) fun h' => h (hcond.mpr h')

omit [DecidableEq C] [DecidableEq S] in
theorem releaseLock_safe_iff (hs : ∀ l, (u.kernel.locks l).Settled) (ht : u.Targets space t i e) :
    DeletesSafely space ⟨u, (.release i, (u.releaseLock t i e).2), (u.releaseLock t i e).1⟩ ↔
      DeletionAllowed space ⟨u, (.release i, (u.releaseLock t i e).2), (u.releaseLock t i e).1⟩ := by
  have hk : (u.releaseLock t i e).1.kernel = (u.kernel.release t e.lock).1 := by
    unfold UserKernel.releaseLock
    dsimp only
    split_ifs <;> rfl
  have hdep := release_depended_iff (hs e.lock) t
  have hdel := releaseLock_deletes_iff hs t i e
  have hnone : (u.releaseLock t i e).2 = none ∨ (u.releaseLock t i e).2 = some e.lock := by
    unfold UserKernel.releaseLock
    dsimp only
    split_ifs
    · exact .inr rfl
    · exact .inl rfl
  constructor
  · intro h
    refine ⟨by simp, fun t' j e' ht' hc hmark hfree => ?_⟩
    obtain rfl := Syscall.release.inj hc
    obtain ⟨rfl, rfl⟩ := ht.unique ht'
    have hlaw := h.released t' i e' ht rfl
    dsimp only at hlaw
    rw [hdel, hk, hdep] at hlaw
    tauto
  · intro h
    have hcond := h.release t i e ht rfl
    have hlaw : (u.releaseLock t i e).2 = some e.lock ↔
        e.isToBeDeleted = true ∧ ¬ (u.releaseLock t i e).1.kernel.Depended e.lock := by
      rw [hdel, hk, hdep]
      tauto
    refine ⟨fun l hl => ?_, by simp, by simp, fun t' j e' ht' hc => ?_⟩
    · rcases hnone with hn | hn
      · simp [hn] at hl
      · obtain rfl : e.lock = l := by simpa [hn] using hl
        exact (hlaw.mp hn).2
    · obtain rfl := Syscall.release.inj hc
      obtain ⟨-, rfl⟩ := ht.unique ht'
      exact hlaw

omit [DecidableEq S] in
theorem deletesSafely_iff (hm : SyscallMove space u call u' deleted)
    (hs : ∀ l, (u.kernel.locks l).Settled) :
    DeletesSafely space ⟨u, (call, deleted), u'⟩ ↔ DeletionAllowed space ⟨u, (call, deleted), u'⟩ := by
  cases hm with
  | released ht => exact releaseLock_safe_iff hs ht
  | destroyed ht => exact destroyLock_safe_iff ht
  | ignored hn => exact deletesSafely_of_other hn
  | found | created | acquired => exact deletesSafely_of_other (by simp)
  | conditioned _ ha _ => exact deletesSafely_of_other (by cases ha <;> simp)
  | scheduled _ hn _ => exact deletesSafely_of_other fun _ i _ _ => hn i

/-! What the steps of the kernel do to the dependence on a lock. -/

theorem Lock.acquire_busy {x : Lock T} (t : T) (h : x.isBusy = true ∨ x.threadWithPossession ≠ some t) :
    (x.acquire t).1.isBusy = true := by
  rcases Lock.acquire_cases x t with ⟨ho, he⟩ | ⟨-, -, he⟩ | ⟨-, hs, he⟩
  · rw [he]
    exact h.resolve_right (not_not.mpr ho)
  · simp [he, Lock.isBusy]
  · simp [he, Lock.isBusy, hs]

omit [DecidableEq C] in
theorem acquire_place (k : Kernel T L C) (t : T) (lock : L) (call : Inside L C) :
    (k.acquire t lock call).inside = k.inside ∨
      (k.acquire t lock call).inside = Function.update k.inside t (some call) := by
  unfold Kernel.acquire
  dsimp only
  split_ifs
  · exact .inr rfl
  · exact .inl rfl

omit [DecidableEq L] [DecidableEq C] in
/-- The lock stays awaited when a thread that does not wait with it changes its place. -/
theorem Kernel.Awaited.of_update (h : k.Awaited l)
    (ht : ∀ call, k.inside t = some call → call.returnsWith ≠ some l)
    (hk : k'.inside = k.inside ∨ ∃ call, k'.inside = Function.update k.inside t call) :
    k'.Awaited l := by
  obtain ⟨v, call, hv, hl⟩ := h
  refine ⟨v, call, ?_, hl⟩
  rcases hk with hk | ⟨call', hk⟩
  · rw [hk, hv]
  · have hvt : v ≠ t := by
      rintro rfl
      exact ht call hv hl
    rw [hk, Function.update_of_ne hvt, hv]

omit [DecidableEq C] in
theorem release_kept (h : (k.locks l).isBusy = true) (hl : l ≠ lock) (t : T) :
    ((k.release t lock).1.locks l).isBusy = true := by
  rwa [Kernel.release_locks, if_neg (Ne.symm hl)]

/-- No thread that waits possesses the lock it will return with. -/
def Kernel.Parted (k : Kernel T L C) : Prop :=
  ∀ t c l, k.inside t = some (.wait c l) → (k.locks l).threadWithPossession ≠ some t

omit [DecidableEq C] in
/-- A dispatch takes a thread out of `Wait` only with the lock. -/
theorem dispatch_depended (hp : Placed k) (hpart : k.Parted) (ht : t ∈ k.readyList)
    (hd : k.Depended l) : (k.dispatch t).Depended l := by
  have hset := (hp.dispatch ht).settled l
  rw [Kernel.depended_iff (hp.settled l)] at hd
  rw [Kernel.depended_iff hset]
  have hother (ho : ∀ call, k.inside t = some call → call.returnsWith ≠ some l) (call) :
      k.Awaited l → ({ k with inside := Function.update k.inside t call } : Kernel T L C).Awaited l :=
    fun hw => hw.of_update ho (.inr ⟨call, rfl⟩)
  cases hin : k.inside t with
  | none =>
    simp only [Kernel.dispatch, hin]
    exact hd.imp_right (hother (by simp [hin]) none)
  | some call =>
    cases call with
    | acquire lock =>
      simp only [Kernel.dispatch, hin]
      exact hd.imp_right (hother (by simp [hin, Inside.returnsWith]) none)
    | reacquire c lock =>
      simp only [Kernel.dispatch, hin]
      by_cases hl : lock = l
      · subst hl
        have hbusy := (hp.granted t ht _ lock hin rfl).2
        exact .inl (by simpa [Lock.isBusy] using hbusy)
      · exact hd.imp_right (hother (by simp [hin, Inside.returnsWith, hl]) none)
    | wait c lock =>
      simp only [Kernel.dispatch, hin, Kernel.acquire_locks]
      by_cases hl : l = lock
      · subst hl
        rw [if_pos rfl]
        exact .inl (Lock.acquire_busy t (.inr (hpart t c l hin)))
      · rw [if_neg (Ne.symm hl)]
        refine hd.imp_right fun hw => ?_
        refine hw.of_update (t := t) (by simp [hin, Inside.returnsWith, Ne.symm hl]) ?_
        rcases acquire_place ({ k with
          readyList := k.readyList.erase t ++ k.currentThread.toList
          currentThread := some t
          inside := Function.update k.inside t none } : Kernel T L C) t lock (.reacquire c lock)
          with he | he
        · exact .inr ⟨none, he⟩
        · exact .inr ⟨_, he.trans (Function.update_idem _ _ _)⟩

/-- Only a Release ends the dependence on a lock. -/
theorem depended_kept (hp : Placed k) (hpart : k.Parted) (hm : KernelMove k a k' out)
    (ha : a ≠ .release l) (hd : k.Depended l) : k'.Depended l := by
  have hset := (hp.step hm).settled l
  have hd' := (Kernel.depended_iff (hp.settled l)).mp hd
  have hrunning : ∀ {t}, k.currentThread = some t →
      ∀ call, k.inside t = some call → call.returnsWith ≠ some l := by
    intro t ht call hcall
    simp [(hp.running t ht).1] at hcall
  cases hm with
  | @acquire t lock ht =>
    rw [Kernel.depended_iff hset, Kernel.acquire_locks]
    refine hd'.imp (fun hb => ?_) fun hw => hw.of_update (hrunning ht) ?_
    · split_ifs with hl
      · exact Lock.acquire_busy t (.inl hb)
      · exact hb
    · exact (acquire_place k t lock _).imp_right fun he => ⟨_, he⟩
  | @release t lock ht =>
    rw [Kernel.depended_iff hset]
    have hl : l ≠ lock := fun hl => ha (by rw [hl])
    exact hd'.imp (fun hb => release_kept hb hl t) fun hw => hw
  | @waited t c lock ht hc =>
    by_cases hl : l = lock
    · subst hl
      exact .inr (.inr ⟨t, .wait c l, Function.update_self _ _ _, rfl⟩)
    · rw [Kernel.depended_iff hset]
      refine hd'.imp (fun hb => release_kept hb hl t) fun hw => ?_
      exact hw.of_update (hrunning ht) (.inr ⟨_, rfl⟩)
  | dispatched ht => exact dispatch_depended hp hpart ht hd
  | bound | refused | signalled | broadcast | slept | woken => exact hd

omit [DecidableEq L] [DecidableEq C] in
theorem Kernel.Awaited.back {call : Option (Inside L C)} (h : k'.Awaited l)
    (hk : k'.inside = k.inside ∨ k'.inside = Function.update k.inside t call)
    (hcall : ∀ c, call = some c → c.returnsWith = some l → k.Awaited l) : k.Awaited l := by
  obtain ⟨v, c, hv, hl⟩ := h
  rcases hk with hk | hk
  · exact ⟨v, c, hk ▸ hv, hl⟩
  · by_cases hvt : v = t
    · subst hvt
      rw [hk, Function.update_self] at hv
      exact hcall c hv hl
    · rw [hk, Function.update_of_ne hvt] at hv
      exact ⟨v, c, hv, hl⟩

theorem Lock.busy_of_release {x : Lock T} (t : T) (h : (x.release t).1.isBusy = true) :
    x.isBusy = true := by
  rcases Lock.release_cases x t with ⟨-, he⟩ | ⟨-, v, rest, -, he⟩ | ⟨-, -, he⟩
  · rwa [he] at h
  · rwa [he] at h
  · simp [he, Lock.isBusy] at h

omit [DecidableEq C] in
theorem release_busy (t : T) (lock : L) (h : ((k.release t lock).1.locks l).isBusy = true) :
    (k.locks l).isBusy = true := by
  rw [Kernel.release_locks] at h
  split_ifs at h
  · exact Lock.busy_of_release t h
  · exact h

/-- A lock becomes depended on by an Acquire or a Wait that names it. -/
theorem depended_before (hp : Placed k) (hm : KernelMove k a k' out) (hd : k'.Depended l) :
    k.Depended l ∨ a = .acquire l ∨ ∃ c, a = .wait c (some l) := by
  have hd' := (Kernel.depended_iff ((hp.step hm).settled l)).mp hd
  rw [Kernel.depended_iff (hp.settled l)]
  cases hm with
  | @acquire t lock ht =>
    by_cases hl : l = lock
    · exact .inr (.inl (by rw [hl]))
    · rw [Kernel.acquire_locks, if_neg (Ne.symm hl)] at hd'
      refine .inl (hd'.imp_right fun hw => ?_)
      exact hw.back (acquire_place k t lock _) (by rintro _ ⟨⟩ h; cases h)
  | @release t lock ht => exact .inl (hd'.imp (release_busy t lock) fun hw => hw)
  | @waited t c lock ht hc =>
    by_cases hl : l = lock
    · exact .inr (.inr ⟨c, by rw [hl]⟩)
    · refine .inl (hd'.imp (release_busy t lock) fun hw => ?_)
      refine hw.back (.inr rfl) ?_
      rintro _ ⟨⟩ h
      exact absurd (Option.some.inj h).symm hl
  | @dispatched t ht =>
    cases hin : k.inside t with
    | none =>
      simp only [Kernel.dispatch, hin] at hd'
      exact .inl (hd'.imp_right fun hw => hw.back (.inr rfl) (by simp))
    | some call =>
      cases call with
      | acquire _ | reacquire _ _ =>
        simp only [Kernel.dispatch, hin] at hd'
        exact .inl (hd'.imp_right fun hw => hw.back (.inr rfl) (by simp))
      | wait c lock =>
        by_cases hl : l = lock
        · exact .inl (.inr ⟨t, _, hin, by rw [hl]; rfl⟩)
        · simp only [Kernel.dispatch, hin, Kernel.acquire_locks, if_neg (Ne.symm hl)] at hd'
          refine .inl (hd'.imp_right fun hw => ?_)
          have hbase := hw.back (acquire_place _ t lock _)
            (by rintro _ ⟨⟩ h; exact absurd (Option.some.inj h).symm hl)
          exact hbase.back (.inr rfl) (by simp)
  | bound | refused | signalled | broadcast | slept | woken => exact .inl hd'

theorem Lock.acquire_possession (x : Lock T) (t : T) :
    (x.acquire t).1.threadWithPossession = x.threadWithPossession ∨
      (x.acquire t).1.threadWithPossession = some t := by
  rcases Lock.acquire_cases x t with ⟨-, he⟩ | ⟨-, -, he⟩ | ⟨-, -, he⟩ <;> simp [he]

/-- After a Release its thread does not possess the lock, unless it stood in the queue. -/
theorem Lock.release_possession {x : Lock T} {t v : T}
    (h : (x.release t).1.threadWithPossession = some v) :
    (x.threadWithPossession = some v ∧ v ≠ t) ∨ v ∈ x.queue := by
  rcases Lock.release_cases x t with ⟨ho, he⟩ | ⟨-, w, rest, hq, he⟩ | ⟨-, -, he⟩
  · rw [he] at h
    refine .inl ⟨h, ?_⟩
    rintro rfl
    exact ho h
  · rw [he] at h
    obtain rfl := Option.some.inj h
    exact .inr (by simp [hq])
  · simp [he] at h

omit [DecidableEq C] in
/-- An Acquire by another thread. -/
theorem Kernel.Parted.acquire (hpart : k.Parted) {call : Inside L C}
    (hcall : ∀ c l, call ≠ .wait c l) (hin : ∀ c l, k.inside t ≠ some (.wait c l)) :
    (k.acquire t lock call).Parted := by
  intro v c l hv
  have hvt : v ≠ t ∧ k.inside v = some (.wait c l) := by
    rcases acquire_place k t lock call with he | he
    · rw [he] at hv
      refine ⟨?_, hv⟩
      rintro rfl
      exact hin c l hv
    · rw [he] at hv
      by_cases hvt : v = t
      · rw [hvt, Function.update_self] at hv
        exact absurd (Option.some.inj hv) (hcall c l)
      · exact ⟨hvt, by rwa [Function.update_of_ne hvt] at hv⟩
  have hold := hpart v c l hvt.2
  rw [Kernel.acquire_locks]
  split_ifs with hl
  · rcases (k.locks l).acquire_possession t with he | he
    · rwa [he]
    · rw [he]
      exact fun h => hvt.1 (Option.some.inj h).symm
  · exact hold

omit [DecidableEq C] in
/-- A Release gives the lock to a thread in its queue only. -/
theorem release_parted (hp : Placed k) {v : T} {c : C}
    (hin : k.inside v = some (.wait c l) ∧ (k.locks l).threadWithPossession ≠ some v ∨
      v = t ∧ k.inside t = none ∧ l = lock) :
    ((k.release t lock).1.locks l).threadWithPossession ≠ some v := by
  intro h
  have hqueue : ∀ v ∈ (k.locks l).queue, ∀ c', k.inside v ≠ some (.wait c' l) ∧
      k.inside v ≠ none := by
    intro v hv c'
    obtain ⟨-, call, hcall, hacq⟩ := hp.queued l v hv
    refine ⟨fun hw => ?_, by simp [hcall]⟩
    rw [hcall, Option.some.injEq] at hw
    simp [hw, Inside.acquiring] at hacq
  rw [Kernel.release_locks] at h
  split_ifs at h with hl
  · rcases Lock.release_possession h with ⟨ho, hvt⟩ | hv
    · rcases hin with ⟨-, hno⟩ | ⟨he, -, -⟩
      · exact hno ho
      · exact hvt he
    · rcases hin with ⟨hw, -⟩ | ⟨rfl, hnone, -⟩
      · exact (hqueue v hv c).1 hw
      · exact (hqueue v hv c).2 hnone
  · rcases hin with ⟨-, hno⟩ | ⟨-, -, he⟩
    · exact hno h
    · exact hl he.symm

theorem parted_kept (hp : Placed k) (hpart : k.Parted) (hm : KernelMove k a k' out) :
    k'.Parted := by
  cases hm with
  | @acquire t lock ht =>
    exact hpart.acquire (by simp) (by simp [(hp.running t ht).1])
  | @release t lock ht =>
    intro v c l hv
    exact release_parted hp (.inl ⟨hv, hpart v c l hv⟩)
  | @waited t c lock ht hc =>
    intro v c' l hv
    by_cases hvt : v = t
    · subst hvt
      have hl : l = lock := by
        have he : some (Inside.wait c lock) = some (.wait c' l) := by
          simpa [Kernel.enqueue, Kernel.fallAsleep] using hv
        exact (Inside.wait.inj (Option.some.inj he)).2.symm
      exact release_parted hp (c := c) (.inr ⟨rfl, (hp.running v ht).1, hl⟩)
    · have hv' : k.inside v = some (.wait c' l) := by
        simpa [Kernel.enqueue, Kernel.fallAsleep, Kernel.setCondition, Kernel.release,
          Kernel.setLock, Kernel.readyToRun, hvt] using hv
      exact release_parted hp (.inl ⟨hv', hpart v c' l hv'⟩)
  | @dispatched t ht =>
    have hbase : ({ k with
        readyList := k.readyList.erase t ++ k.currentThread.toList
        currentThread := some t
        inside := Function.update k.inside t none } : Kernel T L C).Parted := by
      intro v c l hv
      by_cases hvt : v = t
      · simp [hvt] at hv
      · exact hpart v c l (by simpa [hvt] using hv)
    unfold Kernel.dispatch
    dsimp only
    split
    · exact hbase.acquire (by simp) (by simp)
    · exact hbase
  | bound | refused | signalled | broadcast | slept | woken => exact hpart

/-! Runs. -/

/-- Locks that are depended on are in the table, once, and marked entries are depended on. -/
structure Protected (u : UserKernel T L C S) : Prop where
  placed : Placed u.kernel
  parted : u.kernel.Parted
  found : ∀ t i, u.creating t = some i → live? u.lockTable (i : ℕ) = some none
  apart : ∀ t t' i, u.creating t = some i → u.creating t' = some i → t = t'
  kept : ∀ l, u.kernel.Depended l → ∃ i e, live? u.lockTable i = some (some e) ∧ e.lock = l
  distinct : ∀ i j e e', live? u.lockTable i = some (some e) →
    live? u.lockTable j = some (some e') → e.lock = e'.lock → i = j
  marked : ∀ i e, live? u.lockTable i = some (some e) → e.isToBeDeleted = true →
    u.kernel.Depended e.lock

omit [DecidableEq T] [DecidableEq L] [DecidableEq C] [DecidableEq S] in
theorem Protected.initial (binding : C → Option L) :
    Protected (UserKernel.initial binding : UserKernel T L C S) := by
  refine ⟨.initial _ _, ?_, ?_, ?_, ?_, ?_, ?_⟩
  · rintro t c l h
    cases h
  · rintro t i h
    cases h
  · rintro t t' i h
    cases h
  · rintro l (h | h | ⟨t, call, h, -⟩)
    · simp [UserKernel.initial, Kernel.initial, Lock.new, Lock.isBusy] at h
    · simp [UserKernel.initial, Kernel.initial, Lock.new] at h
    · cases h
  · intro i j e e' h
    simp [UserKernel.initial] at h
  · intro i e h
    simp [UserKernel.initial] at h

omit [DecidableEq S] in
/-- A step of the kernel with the entries as they are. -/
theorem Protected.kernelMove (h : Protected u) (hm : KernelMove u.kernel a k' out)
    (hr : ∀ l, a ≠ .release l)
    (hn : ∀ l, a = .acquire l ∨ (∃ c, a = .wait c (some l)) →
      ∃ i e, live? u.lockTable i = some (some e) ∧ e.lock = l) :
    Protected { u with kernel := k' } := by
  refine ⟨h.placed.step hm, parted_kept h.placed h.parted hm, h.found, h.apart, fun l hd => ?_,
    h.distinct, fun i e he hmark => ?_⟩
  · rcases depended_before h.placed hm hd with hd | hd
    · exact h.kept l hd
    · exact hn l hd
  · exact depended_kept h.placed h.parted hm (hr e.lock) (h.marked i e he hmark)

omit [DecidableEq T] [DecidableEq L] [DecidableEq C] [DecidableEq S] in
/-- One entry is cleared, or replaced by one for the same lock. -/
theorem Protected.update (h : Protected u) {table : SlotTable (Option (LockEntry L S))}
    {c : Option (Option (LockEntry L S))} (he : live? u.lockTable i = some (some e))
    (htable : ∀ j, live? table j = if j = i then c else live? u.lockTable j)
    (hc : ∀ s, c = some s → ∃ e', s = some e' ∧ e'.lock = e.lock ∧
      (e'.isToBeDeleted = true → k'.Depended e.lock))
    (hp : Placed k') (hpart : k'.Parted)
    (hkept : ∀ l, k'.Depended l → u.kernel.Depended l ∨ l = e.lock)
    (hcleared : c = none → ¬ k'.Depended e.lock)
    (hmarked : ∀ l, l ≠ e.lock → u.kernel.Depended l → k'.Depended l) :
    Protected { u with kernel := k', lockTable := table } := by
  -- an entry of the new table is one of the old table, or the new one
  have hentry : ∀ j e₁, live? table j = some (some e₁) →
      (j ≠ i ∧ live? u.lockTable j = some (some e₁)) ∨ (j = i ∧ e₁.lock = e.lock ∧
        (e₁.isToBeDeleted = true → k'.Depended e.lock)) := by
    intro j e₁ h₁
    rw [htable] at h₁
    split_ifs at h₁ with hj
    · obtain ⟨e', he', hrest⟩ := hc _ h₁
      obtain rfl := Option.some.inj he'
      exact .inr ⟨hj, hrest⟩
    · exact .inl ⟨hj, h₁⟩
  refine ⟨hp, hpart, fun t j hj => ?_, h.apart, fun l hd => ?_, fun j₁ j₂ e₁ e₂ h₁ h₂ hl => ?_,
    fun j e₁ h₁ hmark => ?_⟩
  · have hnone := h.found t j hj
    have hne : (j : ℤ) ≠ i := by
      rintro rfl
      simp [he] at hnone
    exact (htable j).trans ((if_neg hne).trans hnone)
  · by_cases hl : l = e.lock
    · cases c with
      | none => exact absurd (hl ▸ hd) (hcleared rfl)
      | some s =>
        obtain ⟨e', rfl, hl', -⟩ := hc _ rfl
        exact ⟨i, e', by simp [htable], hl'.trans hl.symm⟩
    · obtain ⟨j, e₁, h₁, hl₁⟩ := h.kept l ((hkept l hd).resolve_right hl)
      have hj : j ≠ i := by
        rintro rfl
        obtain rfl : e = e₁ := by simpa [he] using h₁
        exact hl hl₁.symm
      exact ⟨j, e₁, by simp [htable, hj, h₁], hl₁⟩
  · rcases hentry _ _ h₁ with ⟨hj₁, h₁⟩ | ⟨rfl, hl₁, -⟩
    · rcases hentry _ _ h₂ with ⟨hj₂, h₂⟩ | ⟨rfl, hl₂, -⟩
      · exact h.distinct _ _ _ _ h₁ h₂ hl
      · exact h.distinct _ _ _ _ h₁ he (hl.trans hl₂)
    · rcases hentry _ _ h₂ with ⟨hj₂, h₂⟩ | ⟨rfl, hl₂, -⟩
      · exact h.distinct _ _ _ _ he h₂ (hl₁.symm.trans hl)
      · rfl
  · rcases hentry _ _ h₁ with ⟨hj, h₁⟩ | ⟨rfl, hl, hdep⟩
    · refine hmarked e₁.lock (fun hl => hj (h.distinct _ _ _ _ h₁ he hl)) ?_
      exact h.marked j e₁ h₁ hmark
    · exact hl ▸ hdep hmark

omit [DecidableEq T] [DecidableEq L] [DecidableEq C] [DecidableEq S] in
theorem Protected.setEntry (h : Protected u) (he : live? u.lockTable i = some (some e))
    (hl : e'.lock = e.lock) (hmark : e'.isToBeDeleted = true → u.kernel.Depended e.lock) :
    Protected (u.setEntry i e') :=
  h.update he (live?_put he (some e')) (by rintro _ ⟨⟩; exact ⟨e', rfl, hl, hmark⟩) h.placed
    h.parted (fun _ hd => .inl hd) (by simp) fun _ _ hd => hd

omit [DecidableEq T] [DecidableEq L] [DecidableEq C] [DecidableEq S] in
theorem Protected.deleteLock (h : Protected u) (he : live? u.lockTable i = some (some e))
    (hd : ¬ u.kernel.Depended e.lock) : Protected (u.deleteLock i) :=
  h.update he (live?_clear he) (by simp) h.placed h.parted (fun _ hd => .inl hd) (fun _ => hd)
    fun _ _ hd => hd

omit [DecidableEq S] in
/-- Release, when it deletes exactly the marked locks that nobody depends on any more. -/
theorem Protected.releaseLock (h : Protected u) (ht : u.Targets space t i e)
    (hlaw : (u.releaseLock t i e).2 = some e.lock ↔
      e.isToBeDeleted = true ∧ ¬ (u.releaseLock t i e).1.kernel.Depended e.lock) :
    Protected (u.releaseLock t i e).1 := by
  have hm : KernelMove u.kernel (.release e.lock) (u.kernel.release t e.lock).1
    (u.kernel.release t e.lock).2 := .release ht.running
  have hp := h.placed.step hm
  have hpart := parted_kept h.placed h.parted hm
  have hkept : ∀ l, (u.kernel.release t e.lock).1.Depended l → u.kernel.Depended l ∨ l = e.lock :=
    fun l hd => .inl ((depended_before h.placed hm hd).resolve_right (by simp))
  have hmarked : ∀ l, l ≠ e.lock → u.kernel.Depended l →
      (u.kernel.release t e.lock).1.Depended l := fun l hl hd =>
    depended_kept h.placed h.parted hm (by simpa using Ne.symm hl) hd
  unfold UserKernel.releaseLock at hlaw ⊢
  dsimp only at hlaw ⊢
  split_ifs at hlaw ⊢ with hdel
  · exact h.update ht.entry (live?_clear ht.entry) (by simp) hp hpart hkept
      (fun _ => (hlaw.mp rfl).2) hmarked
  · refine h.update ht.entry (live?_put ht.entry _) ?_ hp hpart hkept (by simp) hmarked
    rintro _ ⟨⟩
    refine ⟨_, rfl, rfl, fun hmark => ?_⟩
    by_contra hd
    exact absurd (hlaw.mpr ⟨hmark, hd⟩) (by simp)

omit [DecidableEq L] [DecidableEq C] [DecidableEq S] in
/-- CreateLock finds a slot that no other CreateLock has found. -/
theorem Protected.createLock (h : Protected u) {i : ℕ}
    (hf : firstFree (allocate maxLocksConditions u.lockTable) = some i) :
    Protected { u with lockTable := put (allocate maxLocksConditions u.lockTable) i none
                       creating := Function.update u.creating t (some i) } := by
  have hlive := fun j => live?_put_firstFree hf (none : Option (LockEntry L S)) j
  simp only [live?_allocate] at hlive
  have hnone : live? u.lockTable i = none := by simpa using (firstFree_some hf).2
  have hentry : ∀ j e, live? (put (allocate maxLocksConditions u.lockTable) i none) j =
      some (some e) ↔ live? u.lockTable j = some (some e) := by
    intro j e
    rw [hlive]
    split_ifs with hj
    · simp [hj, hnone]
    · rfl
  have hne : ∀ t j, u.creating t = some j → j ≠ i := by
    rintro t j hj rfl
    simp [h.found t j hj] at hnone
  refine ⟨h.placed, h.parted, fun t' j hj => ?_, fun t₁ t₂ j h₁ h₂ => ?_, fun l hd => ?_,
    fun j₁ j₂ e₁ e₂ h₁ h₂ => ?_, fun j e he => ?_⟩
  · refine (hlive j).trans ?_
    by_cases ht : t' = t
    · obtain rfl : i = j := by simpa [ht] using hj
      simp
    · rw [if_neg (by exact_mod_cast hne t' j (by simpa [ht] using hj))]
      exact h.found t' j (by simpa [ht] using hj)
  · by_cases ht₁ : t₁ = t <;> by_cases ht₂ : t₂ = t
    · rw [ht₁, ht₂]
    · obtain rfl : i = j := by simpa [ht₁] using h₁
      exact absurd rfl (hne t₂ i (by simpa [ht₂] using h₂))
    · obtain rfl : i = j := by simpa [ht₂] using h₂
      exact absurd rfl (hne t₁ i (by simpa [ht₁] using h₁))
    · exact h.apart t₁ t₂ j (by simpa [ht₁] using h₁) (by simpa [ht₂] using h₂)
  · obtain ⟨j, e, he, hl⟩ := h.kept l hd
    exact ⟨j, e, (hentry j e).mpr he, hl⟩
  · exact h.distinct j₁ j₂ e₁ e₂ ((hentry _ _).mp h₁) ((hentry _ _).mp h₂)
  · exact h.marked j e ((hentry j e).mp he)

omit [DecidableEq C] [DecidableEq S] in
/-- A new lock stands where nobody depends on anything. -/
theorem Protected.newLock (h : Protected u) {i : ℕ} {memory : Option T} {s : S}
    (hc : u.creating t = some i)
    (hfresh : ∀ j e, live? u.lockTable j = some (some e) → e.lock ≠ lock) :
    Protected (({ u with kernel := u.kernel.setLock lock (.new memory)
                         creating := Function.update u.creating t none }).setEntry i
      ⟨lock, s, false, 0⟩) := by
  have hfound := h.found t i hc
  have hlive := fun j => live?_put hfound (some ⟨lock, s, false, 0⟩) j
  have hidle : ¬ u.kernel.Depended lock := fun hd => by
    obtain ⟨j, e, he, hl⟩ := h.kept lock hd
    exact hfresh j e he hl
  have hsame : ∀ l, l ≠ lock → (u.kernel.setLock lock (.new memory)).locks l = u.kernel.locks l :=
    fun l hl => Function.update_of_ne hl _ _
  have hnew : (u.kernel.setLock lock (.new memory)).locks lock = .new memory :=
    Function.update_self _ _ _
  have hdep : ∀ l, l ≠ lock →
      ((u.kernel.setLock lock (.new memory)).Depended l ↔ u.kernel.Depended l) := by
    intro l hl
    simp only [Kernel.Depended, hsame l hl]
    rfl
  have hentry : ∀ j e, live? (put u.lockTable i (some ⟨lock, s, false, 0⟩)) j = some (some e) →
      (j = i ∧ e = ⟨lock, s, false, 0⟩) ∨ live? u.lockTable j = some (some e) := by
    intro j e he
    rw [hlive] at he
    split_ifs at he with hj
    · exact .inl ⟨hj, by simpa using he.symm⟩
    · exact .inr he
  refine ⟨⟨h.placed.running, h.placed.ready, fun l => ?_, fun l => ?_, fun l v hv => ?_,
    h.placed.conditionQueue, h.placed.waiting, fun v hv call l hcall hacq => ?_⟩,
    fun v c l hv => ?_, fun t' j hj => ?_, fun t₁ t₂ j h₁ h₂ => ?_, fun l hd => ?_,
    fun j₁ j₂ e₁ e₂ h₁ h₂ hl => ?_, fun j e he hmark => ?_⟩
  · by_cases hl : l = lock
    · subst hl
      change ((u.kernel.setLock l (.new memory)).locks l).Settled
      rw [hnew]
      exact Lock.new_settled memory
    · exact hsame l hl ▸ h.placed.settled l
  · by_cases hl : l = lock
    · subst hl
      change ((u.kernel.setLock l (.new memory)).locks l).queue.Nodup
      rw [hnew]
      exact List.nodup_nil
    · exact hsame l hl ▸ h.placed.lockQueue l
  · by_cases hl : l = lock
    · subst hl
      exact absurd (hnew ▸ hv) List.not_mem_nil
    · exact h.placed.queued l v (hsame l hl ▸ hv)
  · have hgranted := h.placed.granted v hv call l hcall hacq
    by_cases hl : l = lock
    · subst hl
      exact absurd (.inl (by simp [Lock.isBusy, hgranted.2])) hidle
    · exact hsame l hl ▸ hgranted
  · by_cases hl : l = lock
    · subst hl
      exact absurd (.inr (.inr ⟨v, _, hv, rfl⟩)) hidle
    · exact hsame l hl ▸ h.parted v c l hv
  · change Function.update u.creating t none t' = some j at hj
    have ht : t' ≠ t := by
      rintro rfl
      simp at hj
    have hj' : u.creating t' = some j := by simpa [ht] using hj
    have hji : (j : ℤ) ≠ i := by
      intro hji
      obtain rfl : j = i := by exact_mod_cast hji
      exact ht (h.apart t' t j hj' hc)
    exact (hlive j).trans ((if_neg hji).trans (h.found t' j hj'))
  · have hold : ∀ {v}, Function.update u.creating t none v = some j → u.creating v = some j := by
      intro v hv
      by_cases hvt : v = t
      · simp [hvt] at hv
      · simpa [hvt] using hv
    exact h.apart t₁ t₂ j (hold h₁) (hold h₂)
  · by_cases hl : l = lock
    · exact ⟨i, ⟨lock, s, false, 0⟩, by simp [UserKernel.setEntry, hlive], hl.symm⟩
    · obtain ⟨j, e, he, hl'⟩ := h.kept l ((hdep l hl).mp hd)
      have hj : j ≠ i := by
        rintro rfl
        simp [hfound] at he
      exact ⟨j, e, by simp [UserKernel.setEntry, hlive, hj, he], hl'⟩
  · rcases hentry _ _ h₁ with ⟨rfl, rfl⟩ | h₁
    · rcases hentry _ _ h₂ with ⟨rfl, rfl⟩ | h₂
      · rfl
      · exact absurd hl.symm (hfresh j₂ e₂ h₂)
    · rcases hentry _ _ h₂ with ⟨rfl, rfl⟩ | h₂
      · exact absurd hl (hfresh j₁ e₁ h₁)
      · exact h.distinct j₁ j₂ e₁ e₂ h₁ h₂ hl
  · rcases hentry _ _ he with ⟨rfl, rfl⟩ | he
    · simp at hmark
    · exact (hdep _ (hfresh j e he)).mpr (h.marked j e he hmark)

omit [DecidableEq S] in
theorem protected_step (h : Protected u) (hm : SyscallMove space u call u' deleted)
    (hc : DeletionAllowed space ⟨u, (call, deleted), u'⟩) : Protected u' := by
  have hlaw := (deletesSafely_iff hm h.placed.settled).mpr hc
  cases hm with
  | found hf => exact h.createLock hf
  | created hc' hfresh => exact h.newLock hc' hfresh
  | ignored _ => exact h
  | @acquired t i e k' out ht hk =>
    have hkernel := h.kernelMove hk (by simp) fun l hl => ⟨i, e, ht.entry, by simpa using hl⟩
    exact hkernel.setEntry ht.entry rfl (hkernel.marked i e ht.entry)
  | released ht => exact h.releaseLock ht (hlaw.released _ _ _ ht rfl)
  | @conditioned t i e call a k' out ht ha hk =>
    refine h.kernelMove hk (fun l => ?_) fun l hl => ⟨i, e, ht.entry, ?_⟩
    · cases ha <;> simp
    · cases ha <;> simp at hl
      exact hl
  | @destroyed t i e ht =>
    by_cases hb : (u.kernel.locks e.lock).isBusy ∧ e.acquireCount = 0
    · have hd : u.destroyLock i e = (u.setEntry i { e with isToBeDeleted := true }, none) := by
        simp [UserKernel.destroyLock, hb]
      rw [hd]
      exact h.setEntry ht.entry rfl fun _ => .inl hb.1
    · have hd : u.destroyLock i e = (u.deleteLock i, some e.lock) := by
        simp [UserKernel.destroyLock, hb]
      rw [hd]
      exact h.deleteLock ht.entry fun hdep => hb (hc.destroy t i e ht rfl hdep)
  | scheduled ha hn hk =>
    refine h.kernelMove hk (fun l => ?_) fun l hl => ?_
    · rintro rfl
      exact ha
    · rcases hl with rfl | ⟨c, rfl⟩ <;> exact ha.elim

/-- Over every interleaving the deletions are safe exactly if every DestroyLock and Release
meets its condition; then whatever is depended on is in the table, and no marked lock is
left there without anybody depending on it. -/
theorem deletions_safe_iff {binding : C → Option L} {tr : List (SyscallStep T L C S)}
    (h : Execution (Handles (syscall space)) (UserKernel.initial binding) tr u) :
    ((∀ x ∈ tr, DeletesSafely space x) ↔ ∀ x ∈ tr, DeletionAllowed space x) ∧
      ((∀ x ∈ tr, DeletionAllowed space x) →
        (∀ l, u.kernel.Depended l → ∃ i e, live? u.lockTable i = some (some e) ∧ e.lock = l) ∧
        ∀ i e, live? u.lockTable i = some (some e) → e.isToBeDeleted = true →
          u.kernel.Depended e.lock) := by
  have hnext : ∀ x : SyscallStep T L C S, Protected x.before →
      Handles (syscall space) x.before x.event x.after → DeletionAllowed space x →
      Protected x.after := fun x hx hs hc => protected_step hx (syscall_move hs) hc
  constructor
  · exact h.forall_iff (Protected.initial binding)
      (fun x hx hs => deletesSafely_iff (syscall_move hs) hx.placed.settled) hnext
  · intro hc
    have hfinal := h.invariant_of_cond (Protected.initial binding) hnext hc
    exact ⟨hfinal.kept, hfinal.marked⟩

/-- DestroyLock finds a lock that is busy and has count 0, and Release one that is not marked. -/
def defersDeletion (x : SyscallStep ℕ ℕ ℕ Unit) : Bool :=
  match x.event.1 with
  | .destroyLock i => (live? x.before.lockTable i).join.all fun e =>
      (x.before.kernel.locks e.lock).isBusy && e.acquireCount = 0
  | .release i => (live? x.before.lockTable i).join.all fun e => !e.isToBeDeleted
  | _ => true

theorem deletionAllowed_of_defersDeletion {x : SyscallStep ℕ ℕ ℕ Unit}
    (h : defersDeletion x = true) : DeletionAllowed (fun _ => ()) x := by
  refine ⟨fun t i e ht hx _ => ?_, fun t i e ht hx hmarked _ => ?_⟩
  · simpa [defersDeletion, hx, ht.entry] using h
  · simp [defersDeletion, hx, ht.entry, hmarked] at h

/-- A thread destroys a lock while another is inside `Wait` with it and a third holds it. The
count is 0 after two Releases that were rejected, so the deletion is deferred. -/
theorem deletions_safe_iff_deferred :
    ∃ (tr : List (SyscallStep ℕ ℕ ℕ Unit)) (u : UserKernel ℕ ℕ ℕ Unit),
      Execution (Handles (syscall fun _ => ())) (UserKernel.initial fun _ => none) tr u ∧
        tr.length = 15 ∧ ((live? u.lockTable 0).join.any fun e => e.isToBeDeleted) ∧
        (∀ x ∈ tr, DeletionAllowed (fun _ => ()) x) ∧
        ∀ x ∈ tr, DeletesSafely (fun _ => ()) x := by
  obtain ⟨tr, u, h, -, htest⟩ := exists_of_trace
    (syscall (T := ℕ) (L := ℕ) (C := ℕ) fun _ => ()) (UserKernel.initial fun _ => none)
    [.wake 1, .wake 2, .wake 3, .dispatch 1, .createLock, .newLock 7 none, .acquire 0, .wait 4 0,
      .dispatch 2, .acquire 0, .dispatch 3, .release 0, .release 0, .dispatch 2, .destroyLock 0]
    (fun r => r.1.length = 15 && ((live? r.2.lockTable 0).join.any fun e => e.isToBeDeleted) &&
      r.1.all defersDeletion)
    (by decide +kernel)
  simp only [Bool.and_eq_true, decide_eq_true_eq, List.all_eq_true] at htest
  obtain ⟨⟨hlength, hmarked⟩, hdefers⟩ := htest
  have hallowed : ∀ x ∈ tr, DeletionAllowed (fun _ => ()) x := fun x hx =>
    deletionAllowed_of_defersDeletion (hdefers x hx)
  exact ⟨tr, u, h, hlength, hmarked, hallowed, (deletions_safe_iff h).1.mpr hallowed⟩

/-- A thread destroys the lock that it holds, as the test suite does. -/
theorem destroyLock_deletes_held_lock :
    ∃ (tr : List (SyscallStep ℕ ℕ ℕ Unit)) (u : UserKernel ℕ ℕ ℕ Unit),
      Execution (Handles (syscall fun _ => ())) (UserKernel.initial fun _ => none) tr u ∧
        ¬ ∀ x ∈ tr, DeletesSafely (fun _ => ()) x := by
  obtain ⟨tr, u, h, -, htest⟩ := exists_of_trace
    (syscall (T := ℕ) (L := ℕ) (C := ℕ) fun _ => ()) (UserKernel.initial fun _ => none)
    [.wake 1, .dispatch 1, .createLock, .newLock 7 none, .acquire 0, .destroyLock 0]
    (fun r => r.1.any fun x => x.event.2 = some 7 && (x.after.kernel.locks 7).isBusy)
    (by decide +kernel)
  simp only [List.any_eq_true, Bool.and_eq_true, decide_eq_true_eq] at htest
  obtain ⟨x, hx, hdel, hbusy⟩ := htest
  exact ⟨tr, u, h, fun hlaw => (hlaw x hx).unused 7 hdel (.inl hbusy)⟩

end Nachos.Threads
