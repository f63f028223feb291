import Nachos.ServerLockRuns

/-! The `acquireCount` of a lock against the requests that depend on it. The source
changes the counter before the lock decides about the request, and `LockWatcher` does
not change it at all. -/
namespace Nachos.Network
open Executions

/-- The owner, if any, and the clients in the queue. -/
def ServerLock.dependents (l : ServerLock) : ℤ :=
  (if l.currentClientRequest = none then 0 else 1) + l.queue.length

def ServerLockEntry.Counted (e : ServerLockEntry) : Prop := e.acquireCount = e.lock.dependents

/-- Every live lock is counted after this step, and a rejected RELEASE did nothing. -/
def KeepsCounts (cfg : Config) (x : LockStep) : Prop :=
  (∀ i e, x.after.lock? i = some e → e.Counted) ∧
  ∀ i c e, x.event.1.target cfg = some (i, .release c) → x.before.lock? i = some e →
    e.lock.currentClientRequest ≠ some c → x.after.lock? i = some e

/-- ACQUIRE by a client that is not the owner, RELEASE by the owner, and no release by
`LockWatcher`. -/
def RespectsOwner (e : ServerLockEntry) : EntryOp → Prop
  | .acquire c => e.lock.currentClientRequest ≠ some c
  | .release c => e.lock.currentClientRequest = some c
  | .destroy => True
  | .watch => e.lock.currentClientRequest = none

instance (e : ServerLockEntry) (op : EntryOp) : Decidable (RespectsOwner e op) := by
  cases op <;> unfold RespectsOwner <;> infer_instance

def CountCondition (cfg : Config) (x : LockStep) : Prop :=
  ∀ q ∈ x.event.1.target cfg, ∀ e ∈ x.before.lock? q.1, RespectsOwner e q.2

instance (cfg : Config) (x : LockStep) : Decidable (CountCondition cfg x) :=
  inferInstanceAs (Decidable (∀ _ ∈ _, _))

section Operations
variable {e e' : ServerLockEntry} {l : ServerLock}

theorem acquire_dependents (h : l.Valid) {c : ClientRequest}
    (hc : l.currentClientRequest ≠ some c) : (l.acquire c).1.dependents = l.dependents + 1 := by
  cases ho : l.currentClientRequest with
  | none => simp [ServerLock.acquire_free h ho, ServerLock.dependents, ho, h.idle ho]
  | some b =>
    have hb : b ≠ c := fun hb => hc (hb ▸ ho)
    simp [ServerLock.acquire_queued h ho hb, ServerLock.dependents, ho]
    omega

theorem release_dependents {c : ClientRequest} (hc : l.currentClientRequest = some c) :
    (l.release c).1.dependents = l.dependents - 1 := by
  cases hq : l.queue with
  | nil => simp [ServerLock.release_freed hc hq, ServerLock.dependents, hc, hq]
  | cons next rest =>
    simp [ServerLock.release_handed hc hq, ServerLock.dependents, hc, hq]
    omega

/-- An operation that respects the owner keeps the count of the lock. -/
theorem apply_counted {op : EntryOp} (h : e.lock.Valid) (hk : e.Counted)
    (hc : RespectsOwner e op) (ha : op.apply e = some e') : e'.Counted := by
  cases op with
  | acquire c =>
    obtain rfl := Option.some.inj ha
    simp only [ServerLockEntry.Counted] at hk ⊢
    rw [acquire_dependents h hc, hk]
  | release c =>
    simp only [EntryOp.apply] at ha
    split_ifs at ha
    obtain rfl := Option.some.inj ha
    simp only [ServerLockEntry.Counted] at hk ⊢
    rw [release_dependents hc, hk]
  | destroy =>
    simp only [EntryOp.apply] at ha
    split_ifs at ha
    obtain rfl := Option.some.inj ha
    exact hk
  | watch =>
    have ho : e.lock.currentClientRequest = none := hc
    simp only [EntryOp.apply, ho, Option.some.injEq] at ha
    exact ha ▸ hk

/-- Any other operation breaks it, or changes the entry on a rejected release. -/
theorem respectsOwner_of_counted {op : EntryOp} (hk : e.Counted)
    (hcount : ∀ e', op.apply e = some e' → e'.Counted)
    (hrejected : ∀ c, op = .release c → e.lock.currentClientRequest ≠ some c →
      op.apply e = some e) : RespectsOwner e op := by
  cases op with
  | acquire c =>
    intro ho
    have hk' := hcount _ rfl
    simp only [ServerLockEntry.Counted, ServerLock.acquire_owned ho] at hk hk'
    omega
  | release c =>
    by_contra hne
    have hsame := hrejected c rfl hne
    simp only [EntryOp.apply] at hsame
    split_ifs at hsame
    have hcnt := congrArg ServerLockEntry.acquireCount (Option.some.inj hsame)
    dsimp only at hcnt
    omega
  | destroy => trivial
  | watch =>
    by_contra hne
    obtain ⟨owner, ho⟩ := Option.ne_none_iff_exists'.mp hne
    have hk' := hcount { e with lock := (e.lock.release owner).1 } (by simp [EntryOp.apply, ho])
    simp only [ServerLockEntry.Counted, release_dependents ho] at hk hk'
    omega

end Operations

structure CountInvariant (s : Server) : Prop where
  noResponses : s.necessaryResponses = []
  valid : ∀ i e, s.lock? i = some e → e.lock.Valid
  counted : ∀ i e, s.lock? i = some e → e.Counted

theorem countInvariant_initial : CountInvariant .initial :=
  ⟨rfl, by simp [Server.initial, Server.lock?], by simp [Server.initial, Server.lock?]⟩

theorem new_counted (name : Name) :
    (⟨ServerLock.new name, false, 0⟩ : ServerLockEntry).Counted := rfl

section Runs
variable {cfg : Config} {x : LockStep}

theorem countInvariant_step (hstep : Handles (lockHandler cfg) x.before x.event x.after)
    (hp : x.event.1.Permitted) (hinv : CountInvariant x.before) (hc : CountCondition cfg x) :
    CountInvariant x.after := by
  obtain ⟨hr, -⟩ := lockHandler_step hstep hinv.noResponses hp
  have hcase := @live_after _ _ _ _ _ hstep hinv.noResponses hp
  refine ⟨hr, fun i e' he' => ?_, fun i e' he' => ?_⟩
  · rcases hcase he' with hold | ⟨name, rfl⟩ | ⟨op, e, -, he, ha⟩
    · exact hinv.valid i e' hold
    · exact ServerLock.new_valid name
    · exact EntryOp.apply_valid (hinv.valid i e he) ha
  · rcases hcase he' with hold | ⟨name, rfl⟩ | ⟨op, e, ht, he, ha⟩
    · exact hinv.counted i e' hold
    · exact new_counted name
    · exact apply_counted (hinv.valid i e he) (hinv.counted i e he) (hc (i, op) ht e he) ha

theorem keepsCounts_iff (hstep : Handles (lockHandler cfg) x.before x.event x.after)
    (hp : x.event.1.Permitted) (hinv : CountInvariant x.before) :
    KeepsCounts cfg x ↔ CountCondition cfg x := by
  obtain ⟨-, hlocks⟩ := lockHandler_step hstep hinv.noResponses hp
  constructor
  · rintro ⟨hcount, hrej⟩ ⟨i, op⟩ ht e he
    have htarget : x.event.1.target cfg = some (i, op) := ht
    simp only [htarget] at hlocks
    have hafter : x.after.lock? i = op.apply e := by
      rw [hlocks, if_pos rfl, show x.before.lock? i = some e from he]
      rfl
    refine respectsOwner_of_counted (hinv.counted i e he) (fun e' ha => ?_) (fun c hop hne => ?_)
    · exact hcount i e' (hafter.trans ha)
    · rw [← hafter]
      exact hrej i c e (hop ▸ htarget) he hne
  · intro hc
    refine ⟨(countInvariant_step hstep hp hinv hc).counted, fun i c e ht he hne => ?_⟩
    exact absurd (hc (i, .release c) ht e he) hne

/-- In every run the counters are right at every point, and rejected releases change
nothing, exactly when no step disregards the owner of the lock it names. -/
theorem acquireCounts_right_iff {tr : List LockStep} {s : Server}
    (hrun : Execution (Handles (lockHandler cfg)) .initial tr s)
    (hp : ∀ x ∈ tr, x.event.1.Permitted) :
    (∀ x ∈ tr, KeepsCounts cfg x) ↔ ∀ x ∈ tr, CountCondition cfg x := by
  have hrun' := hrun.restrict (Q := fun e => e.1.Permitted) hp
  exact hrun'.forall_iff countInvariant_initial
    (fun x hx hs => keepsCounts_iff hs.1 hs.2 hx)
    (fun x hx hs hc => countInvariant_step hs.1 hs.2 hx hc)

/-- Two clients share a lock, and the second gets it from the first. -/
theorem acquireCounts_right_shared : ∃ tr s,
    Execution (Handles (lockHandler ⟨0, 1, false⟩)) .initial tr s ∧ tr.length = 5 ∧
      ∀ x ∈ tr, KeepsCounts ⟨0, 1, false⟩ x := by
  obtain ⟨tr, s, hrun, hmap, htest⟩ := exists_of_trace (lockHandler ⟨0, 1, false⟩) .initial
    [.boxZero ⟨0, 0, 1, 0, .request (.createLock [97])⟩,
      .boxZero ⟨0, 0, 1, 0, .request (.acquire 0)⟩,
      .boxZero ⟨0, 0, 2, 0, .request (.acquire 0)⟩,
      .boxZero ⟨0, 0, 1, 0, .request (.release 0)⟩,
      .watcher 1]
    (fun r => r.1.length = 5 && r.1.all fun x => CountCondition ⟨0, 1, false⟩ x)
    (by decide +kernel)
  have hp := forall_inputs (Q := LockEvent.Permitted) hmap
    (by simp [LockEvent.Permitted, IsLockRequest])
  simp only [Bool.and_eq_true, List.all_eq_true, decide_eq_true_eq] at htest
  exact ⟨tr, s, hrun, htest.1, (acquireCounts_right_iff hrun hp).mpr htest.2⟩

/-- A rejected RELEASE by a stranger takes the owner out of the count. -/
theorem release_by_stranger_miscounts : ∃ tr s,
    Execution (Handles (lockHandler ⟨0, 1, false⟩)) .initial tr s ∧
      (∀ x ∈ tr, x.event.1.Permitted) ∧
      ∃ e, s.lock? 0 = some e ∧ e.lock.currentClientRequest = some ⟨1, 0⟩ ∧ ¬ e.Counted := by
  obtain ⟨tr, s, hrun, hmap, htest⟩ := exists_of_trace (lockHandler ⟨0, 1, false⟩) .initial
    [.boxZero ⟨0, 0, 1, 0, .request (.createLock [97])⟩,
      .boxZero ⟨0, 0, 1, 0, .request (.acquire 0)⟩,
      .boxZero ⟨0, 0, 2, 0, .request (.release 0)⟩]
    (fun r => (r.2.lock? 0).any fun e =>
      e.lock.currentClientRequest = some ⟨1, 0⟩ && e.acquireCount ≠ e.lock.dependents)
    (by decide +kernel)
  obtain ⟨e, he, htest⟩ := (Option.any_eq_true _ _).mp htest
  simp only [Bool.and_eq_true, decide_eq_true_eq] at htest
  exact ⟨tr, s, hrun, forall_inputs (Q := LockEvent.Permitted) hmap
    (by simp [LockEvent.Permitted, IsLockRequest]), e, he, htest⟩

end Runs

end Nachos.Network
