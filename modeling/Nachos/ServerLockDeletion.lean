import Nachos.ServerLockRuns

/-! When DESTROY_LOCK and RELEASE remove a lock from the table. The source guards the
removal by `!(isBusy() && acquireCount == 0)`, which lets a lock that is in use go. -/
namespace Nachos.Network
open Executions

/-- Somebody owns the lock or waits for it. -/
def ServerLock.InUse (l : ServerLock) : Prop := l.currentClientRequest ≠ none ∨ l.queue ≠ []

instance (l : ServerLock) : Decidable l.InUse := inferInstanceAs (Decidable (_ ∨ _))

/-- What may become of entry `e` when the operation is carried out. -/
def DeletionLaw (e : ServerLockEntry) (result : Option ServerLockEntry) : EntryOp → Prop
  | .destroy =>
    if e.lock.InUse then result = some { e with isToBeDeleted := true } else result = none
  | .release c =>
    if e.isToBeDeleted ∧ ¬ (e.lock.release c).1.InUse then result = none
    else result.map ServerLockEntry.isToBeDeleted = some e.isToBeDeleted
  | _ => result.map ServerLockEntry.isToBeDeleted = some e.isToBeDeleted

/-- Every live lock obeys the law in this step; one that is not named stays as it is. -/
def DeletesLawfully (cfg : Config) (x : LockStep) : Prop :=
  ∀ i e, x.before.lock? i = some e →
    match x.event.1.target cfg with
    | some (j, op) =>
      if j = i then DeletionLaw e (x.after.lock? i) op else x.after.lock? i = some e
    | none => x.after.lock? i = some e

/-- A DESTROY_LOCK finds a busy lock with `acquireCount` 0, and a RELEASE that leaves a
marked lock to nobody finds `acquireCount` 1. -/
def CountsForDeletion (e : ServerLockEntry) : EntryOp → Prop
  | .destroy => e.lock.isBusy → e.acquireCount = 0
  | .release c =>
    e.isToBeDeleted → e.lock.queue = [] →
      (e.lock.currentClientRequest = some c ∨ e.lock.currentClientRequest = none) →
      e.acquireCount = 1
  | _ => True

instance (e : ServerLockEntry) (op : EntryOp) : Decidable (CountsForDeletion e op) :=
  match op with
  | .destroy => inferInstanceAs (Decidable (_ → _))
  | .release _ => inferInstanceAs (Decidable (_ → _ → _ → _))
  | .acquire _ | .watch => inferInstanceAs (Decidable True)

def DeletionCondition (cfg : Config) (x : LockStep) : Prop :=
  ∀ q ∈ x.event.1.target cfg, ∀ e ∈ x.before.lock? q.1, CountsForDeletion e q.2

instance (cfg : Config) (x : LockStep) : Decidable (DeletionCondition cfg x) :=
  inferInstanceAs (Decidable (∀ _ ∈ _, _))

theorem ServerLock.Valid.inUse_iff {l : ServerLock} (h : l.Valid) : l.InUse ↔ l.isBusy := by
  rw [h.isBusy_iff]
  constructor
  · rintro (ho | hq)
    · exact ho
    · exact fun ho => hq (h.idle ho)
  · exact Or.inl

theorem release_inUse_iff {l : ServerLock} (h : l.Valid) (c : ClientRequest) :
    (l.release c).1.InUse ↔
      ¬ (l.queue = [] ∧ (l.currentClientRequest = some c ∨ l.currentClientRequest = none)) := by
  by_cases ho : l.currentClientRequest = some c
  · cases hq : l.queue with
    | nil => simp [ServerLock.release_freed ho hq, ServerLock.InUse, ho, hq]
    | cons next rest => simp [ServerLock.release_handed ho hq, ServerLock.InUse]
  · rw [ServerLock.release_rejected ho]
    have := h.idle
    simp only [ServerLock.InUse, ho, false_or]
    tauto

/-- One operation obeys the law exactly when the counter has the right value. -/
theorem deletionLaw_iff {e : ServerLockEntry} (h : e.lock.Valid) (op : EntryOp)
    (hop : op ≠ .watch) : DeletionLaw e (op.apply e) op ↔ CountsForDeletion e op := by
  cases op with
  | watch => exact absurd rfl hop
  | acquire c => simp [DeletionLaw, CountsForDeletion, EntryOp.apply]
  | destroy =>
    simp only [DeletionLaw, CountsForDeletion, EntryOp.apply, h.inUse_iff]
    by_cases hb : e.lock.isBusy <;> by_cases hc : e.acquireCount = 0 <;> simp [hb, hc]
  | release c =>
    have hu := release_inUse_iff h c
    have hb := (ServerLock.release_valid h c).inUse_iff
    simp only [DeletionLaw, CountsForDeletion, EntryOp.apply]
    by_cases hd : e.isToBeDeleted = true
    · by_cases hf : (e.lock.release c).1.InUse
      · have hn := hu.mp hf
        simp only [hb.mp hf, hf, hd]
        simp
        tauto
      · have hn := not_not.mp (mt hu.mpr hf)
        have hnb : ¬ (e.lock.release c).1.isBusy = true := fun hh => hf (hb.mpr hh)
        by_cases hc : e.acquireCount = 1
        · simp [hd, hf, hnb, hc]
        · have hc' : ¬ e.acquireCount - 1 = 0 := by omega
          simp [hd, hf, hc', hc, hn]
    · simp [hd]

/-- What a lock keeps as long as deletions are lawful. -/
structure DeletionInvariant (s : Server) : Prop where
  noResponses : s.necessaryResponses = []
  valid : ∀ i e, s.lock? i = some e → e.lock.Valid
  marked : ∀ i e, s.lock? i = some e → e.isToBeDeleted = true → e.lock.InUse

/-- A marked lock that is still there after a lawful operation is in use. -/
theorem EntryOp.apply_marked {e e' : ServerLockEntry} {op : EntryOp} (h : e.lock.Valid)
    (hop : op ≠ .watch) (hc : CountsForDeletion e op) (ha : op.apply e = some e')
    (hm' : e'.isToBeDeleted = true) :
    e'.lock.InUse := by
  cases op with
  | watch => exact absurd rfl hop
  | acquire c =>
    obtain rfl := Option.some.inj ha
    rw [(ServerLock.acquire_valid h c).inUse_iff, (ServerLock.acquire_valid h c).isBusy_iff]
    cases ho : e.lock.currentClientRequest with
    | none => simp [ServerLock.acquire_free h ho]
    | some b =>
      by_cases hb : b = c
      · simp [ServerLock.acquire_owned (hb ▸ ho), ho]
      · simp [ServerLock.acquire_queued h ho hb, ho]
  | release c =>
    simp only [EntryOp.apply] at ha
    split_ifs at ha with hcase
    obtain rfl := Option.some.inj ha
    by_contra hu
    have hu' := not_not.mp (mt (release_inUse_iff h c).mpr hu)
    have hone : e.acquireCount = 1 := hc hm' hu'.1 hu'.2
    refine hcase ⟨hm', by omega, fun hb => hu ?_⟩
    exact (ServerLock.release_valid h c).inUse_iff.mpr hb
  | destroy =>
    simp only [EntryOp.apply] at ha
    split_ifs at ha with hcase
    obtain rfl := Option.some.inj ha
    exact h.inUse_iff.mpr hcase.1

section Runs
variable {cfg : Config} {x : LockStep}

/-- The events of the runs: everything but the releases of `LockWatcher`. -/
def IsServerMessage (ev : LockEvent) : Prop := ev.Permitted ∧ ∀ i, ev ≠ .watcher i

theorem target_ne_watch {ev : LockEvent} {i : ℤ} {op : EntryOp} (h : IsServerMessage ev)
    (ht : ev.target cfg = some (i, op)) : op ≠ .watch := by
  cases ev with
  | watcher j => exact absurd rfl (h.2 j)
  | boxOne p => simp [LockEvent.target] at ht
  | boxZero p =>
    simp only [LockEvent.target, lockTarget] at ht
    rintro rfl
    split at ht <;> simp at ht

theorem deletesLawfully_iff (hstep : Handles (lockHandler cfg) x.before x.event x.after)
    (hp : IsServerMessage x.event.1) (hinv : DeletionInvariant x.before) :
    DeletesLawfully cfg x ↔ DeletionCondition cfg x := by
  obtain ⟨-, hlocks⟩ := lockHandler_step hstep hinv.noResponses hp.1
  unfold DeletesLawfully DeletionCondition
  cases ht : x.event.1.target cfg with
  | none =>
    simp only [ht] at hlocks ⊢
    refine iff_of_true (fun i e he => ?_) (by simp)
    rcases hlocks i with hj | ⟨hn, -⟩
    · rw [hj, he]
    · simp [he] at hn
  | some q =>
    obtain ⟨j, op⟩ := q
    simp only [ht] at hlocks ⊢
    have hop := target_ne_watch hp ht
    constructor
    · rintro h q hq e he
      obtain rfl := Option.mem_some.mp hq
      have hl := h j e he
      rw [if_pos rfl, hlocks, if_pos rfl, he] at hl
      exact (deletionLaw_iff (hinv.valid _ _ he) _ hop).mp hl
    · intro h i e he
      by_cases hj : j = i
      · subst hj
        rw [if_pos rfl, hlocks, if_pos rfl, he]
        exact (deletionLaw_iff (hinv.valid _ _ he) _ hop).mpr (h (j, op) rfl e he)
      · rw [if_neg hj, hlocks, if_neg (Ne.symm hj), he]

theorem deletionInvariant_step (hstep : Handles (lockHandler cfg) x.before x.event x.after)
    (hp : IsServerMessage x.event.1) (hinv : DeletionInvariant x.before)
    (hc : DeletionCondition cfg x) : DeletionInvariant x.after := by
  obtain ⟨hr, -⟩ := lockHandler_step hstep hinv.noResponses hp.1
  have hcase := @live_after _ _ _ _ _ hstep hinv.noResponses hp.1
  refine ⟨hr, fun i e' he' => ?_, fun i e' he' hm => ?_⟩
  · rcases hcase he' with hold | ⟨name, rfl⟩ | ⟨op, e, -, he, ha⟩
    · exact hinv.valid i e' hold
    · exact ServerLock.new_valid name
    · exact EntryOp.apply_valid (hinv.valid i e he) ha
  · rcases hcase he' with hold | ⟨name, rfl⟩ | ⟨op, e, ht, he, ha⟩
    · exact hinv.marked i e' hold hm
    · cases hm
    · exact EntryOp.apply_marked (hinv.valid i e he) (target_ne_watch hp ht)
         (hc (i, op) ht e he) ha hm

theorem deletionInvariant_initial : DeletionInvariant .initial :=
  ⟨rfl, by simp [Server.initial, Server.lock?], by simp [Server.initial, Server.lock?]⟩

/-- In every run the deletions are lawful exactly when the counters of the locks had
the right values, and then no marked lock outlives its last user. -/
theorem deletions_lawful_iff {tr : List LockStep} {s : Server}
    (hrun : Execution (Handles (lockHandler cfg)) .initial tr s)
    (hp : ∀ x ∈ tr, IsServerMessage x.event.1) :
    ((∀ x ∈ tr, DeletesLawfully cfg x) ↔ ∀ x ∈ tr, DeletionCondition cfg x) ∧
      ((∀ x ∈ tr, DeletionCondition cfg x) →
        ∀ i e, s.lock? i = some e → e.isToBeDeleted = true → e.lock.InUse) := by
  have hrun' := hrun.restrict (Q := fun e => IsServerMessage e.1) hp
  constructor
  · exact hrun'.forall_iff deletionInvariant_initial
      (fun x hx hs => deletesLawfully_iff hs.1 hs.2 hx)
      (fun x hx hs hc => deletionInvariant_step hs.1 hs.2 hx hc)
  · intro hc
    exact (hrun'.invariant_of_cond deletionInvariant_initial
      (fun x hx hs hcx => deletionInvariant_step hs.1 hs.2 hx hcx) hc).marked

/-- A lock marked by DESTROY_LOCK, after a rejected RELEASE, and removed by its owner's
RELEASE, after a reentrant ACQUIRE. -/
theorem deletions_lawful_marked : ∃ tr s,
    Execution (Handles (lockHandler ⟨0, 1, false⟩)) .initial tr s ∧
      (∀ x ∈ tr, DeletesLawfully ⟨0, 1, false⟩ x) ∧
      ∃ x ∈ tr, ((x.before.lock? 0).any fun e => e.isToBeDeleted) ∧ (x.after.lock? 0).isNone := by
  obtain ⟨tr, s, hrun, hmap, htest⟩ := exists_of_trace (lockHandler ⟨0, 1, false⟩) .initial
    [.boxZero ⟨0, 0, 1, 0, .request (.createLock [97])⟩,
      .boxZero ⟨0, 0, 1, 0, .request (.acquire 0)⟩,
      .boxZero ⟨0, 0, 2, 0, .request (.release 0)⟩,
      .boxZero ⟨0, 0, 2, 0, .request (.destroyLock 0)⟩,
      .boxZero ⟨0, 0, 1, 0, .request (.acquire 0)⟩,
      .boxZero ⟨0, 0, 1, 0, .request (.release 0)⟩]
    (fun r => r.1.all (fun x => DeletionCondition ⟨0, 1, false⟩ x) &&
      r.1.any fun x => (x.before.lock? 0).any (fun e => e.isToBeDeleted) &&
        (x.after.lock? 0).isNone) (by decide +kernel)
  have hp := forall_inputs (Q := IsServerMessage) hmap
    (by simp [IsServerMessage, LockEvent.Permitted, IsLockRequest])
  simp only [Bool.and_eq_true, List.all_eq_true, List.any_eq_true, decide_eq_true_eq] at htest
  exact ⟨tr, s, hrun, (deletions_lawful_iff hrun hp).1.mpr htest.1, htest.2⟩

/-- A DESTROY_LOCK by a stranger removes the lock of an owner that holds it. -/
theorem destroyLock_removes_owned_lock : ∃ tr s,
    Execution (Handles (lockHandler ⟨0, 1, false⟩)) .initial tr s ∧
      (∀ x ∈ tr, IsServerMessage x.event.1) ∧ ¬ ∀ x ∈ tr, DeletesLawfully ⟨0, 1, false⟩ x := by
  obtain ⟨tr, s, hrun, hmap, htest⟩ := exists_of_trace (lockHandler ⟨0, 1, false⟩) .initial
    [.boxZero ⟨0, 0, 1, 0, .request (.createLock [97])⟩,
      .boxZero ⟨0, 0, 1, 0, .request (.acquire 0)⟩,
      .boxZero ⟨0, 0, 2, 0, .request (.destroyLock 0)⟩]
    (fun r => r.1.any fun x => x.event.1.target ⟨0, 1, false⟩ = some (0, .destroy) &&
      (x.before.lock? 0).any (fun e => e.lock.InUse) && (x.after.lock? 0).isNone)
    (by decide +kernel)
  refine ⟨tr, s, hrun, forall_inputs (Q := IsServerMessage) hmap
    (by simp [IsServerMessage, LockEvent.Permitted, IsLockRequest]), fun hlaw => ?_⟩
  simp only [Bool.and_eq_true, List.any_eq_true, decide_eq_true_eq, Option.isNone_iff_eq_none]
    at htest
  obtain ⟨x, hx, ⟨htarget, hin⟩, hnone⟩ := htest
  obtain ⟨e, he, hin⟩ := (Option.any_eq_true _ _).mp hin
  have hl := hlaw x hx 0 e he
  simp [htarget, hnone, DeletionLaw, of_decide_eq_true hin] at hl

end Runs

end Nachos.Network
