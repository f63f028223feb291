import Nachos.KernelProcesses

/-! What the steps do to the counters of the process table, and the numbers that the counters stand
for. -/
namespace Nachos.Processes
open Executions Paging

variable {T : Type*} [DecidableEq T] {s u : State T} {a : Action T} {t c : T} {p : ℕ}
  {e : Executable}

/-- A thread exits, with the counters as the two branches of Exit leave them. -/
structure Exits (s u : State T) (t : T) : Prop where
  running : (s.thread t).status = .user
  thread : u.thread = Function.update s.thread t { s.thread t with status := .exited }
  next : u.nextProcessID = s.nextProcessID ∧
    ∀ q, (u.processTable q).nextThreadID = (s.processTable q).nextThreadID
  counters : (s.processTable (s.thread t).process).numThreadsAlive = 1 ∧ s.numLivingProcesses > 1 ∧
      u.numLivingProcesses = s.numLivingProcesses - 1 ∧ u.processTable = s.processTable ∨
    (s.processTable (s.thread t).process).numThreadsAlive > 1 ∧
      u.numLivingProcesses = s.numLivingProcesses ∧
      (u.processTable (s.thread t).process).numThreadsAlive =
        (s.processTable (s.thread t).process).numThreadsAlive - 1 ∧
      ∀ q, q ≠ (s.thread t).process → u.processTable q = s.processTable q

/-- A new thread starts, and records where its stack ends. -/
structure Starts (s u : State T) (t : T) (stackEnd : ℕ) : Prop where
  status : (s.thread t).status = .execed ∧
      stackEnd = numExecutablePages (s.space (s.thread t).process) + (0 + 1) * 8 ∨
    (s.thread t).status = .forked ∧
      stackEnd = numExecutablePages (s.space (s.thread t).process) + ((s.thread t).threadID + 1) * 8
  thread : u.thread = Function.update s.thread t
    { s.thread t with status := .user, stackReg := stackEnd * pageSize - 16 }
  space : u.space = s.space
  processes : u.nextProcessID = s.nextProcessID ∧ u.numLivingProcesses = s.numLivingProcesses
  counters : (s.thread t).threadID < maxThreads → ∀ q,
    (u.processTable q).numThreadsAlive = (s.processTable q).numThreadsAlive ∧
      (u.processTable q).nextThreadID = (s.processTable q).nextThreadID

theorem Starts.keeps {stackEnd : ℕ} (h : Starts s u t stackEnd) (x : T) :
    (u.thread x).process = (s.thread x).process ∧ (u.thread x).threadID = (s.thread x).threadID ∧
      ((u.thread x).status = .notCreated ↔ (s.thread x).status = .notCreated) ∧
      ((u.thread x).status = .exited ↔ (s.thread x).status = .exited) := by
  rw [h.thread]
  by_cases hx : x = t
  · subst hx
    rcases h.status with ⟨hs, -⟩ | ⟨hs, -⟩ <;> simp [hs]
  · simp [hx]

theorem Starts.goesOn {stackEnd : ℕ} (h : Starts s u t stackEnd)
    (hid : (s.thread t).threadID < maxThreads) : GoesOn s u :=
  ⟨h.keeps, h.counters hid, h.processes⟩

inductive Change (s u : State T) : Prop
  | process (c : T) (hnew : Born s u c s.nextProcessID) (hroom : s.nextProcessID ≠ maxProcesses)
      (hnext : u.nextProcessID = s.nextProcessID + 1)
      (hliving : u.numLivingProcesses = s.numLivingProcesses + 1)
  | fork (t c : T) (hparent : (s.thread t).status = .forking)
      (hnew : Born s u c (s.thread t).process)
      (hsame : u.nextProcessID = s.nextProcessID ∧ u.numLivingProcesses = s.numLivingProcesses)
  | start (t : T) (stackEnd : ℕ) (h : Starts s u t stackEnd)
  | goesOn (h : GoesOn s u)
  | exit (t : T) (h : Exits s u t)

theorem newProcess_spec (hc : (s.thread c).status = .notCreated) (h : newProcess s c e = .ok u) :
    s.nextProcessID ≠ maxProcesses ∧ Born s u c s.nextProcessID ∧
      u.nextProcessID = s.nextProcessID + 1 ∧ u.numLivingProcesses = s.numLivingProcesses + 1 ∧
      ∀ t, t ≠ c → u.thread t = s.thread t := by
  unfold newProcess at h
  split_ifs at h with hroom
  obtain rfl := Except.ok.inj h
  refine ⟨hroom, ⟨hc, ?_, fun t ht => ?_, ?_, ?_, fun q hq => ?_⟩, rfl, rfl, fun t ht => ?_⟩
  · simp [State.addThread, State.setThread, State.setProcess]
  · simp [State.addThread, State.setThread, State.setProcess, ht]
  · simp [State.addThread, State.setThread, State.setProcess]
  · simp [State.addThread, State.setThread, State.setProcess]
  · simp [State.addThread, State.setThread, State.setProcess, hq]
  · simp [State.addThread, State.setThread, State.setProcess, ht]

theorem forkAllocate_spec (h : forkAllocate s t c = .ok u) :
    (s.thread t).status = .forking ∧ c ≠ t ∧ Born s u c (s.thread t).process ∧
      u.nextProcessID = s.nextProcessID ∧ u.numLivingProcesses = s.numLivingProcesses ∧
      ∀ x, x ≠ c → u.thread x = (s.setStatus t .user).thread x := by
  unfold forkAllocate at h
  split_ifs at h with hc
  obtain ⟨ht, hc⟩ := hc
  obtain rfl := Except.ok.inj h
  have hct : c ≠ t := by
    rintro rfl
    rw [ht] at hc
    cases hc
  have hc' : ((s.setStatus t .user).thread c).status = .notCreated := by
    rw [setStatus_thread, if_neg hct, hc]
  have hborn := born_addThread (p := (s.thread t).process) hc' (Or.inr rfl : _ ∨ Status.forked = _)
  refine ⟨ht, hct, ⟨hc, hborn.child, fun x hx => ?_, hborn.alive, hborn.next, hborn.entries⟩, rfl, rfl,
    fun x hx => ?_⟩
  · obtain ⟨hprocess, hid, hnew, hexit⟩ := hborn.others x hx
    rw [hprocess, hid, hnew, hexit, setStatus_thread]
    split_ifs with hxt
    · subst hxt
      simp [ht]
    · exact ⟨rfl, rfl, Iff.rfl, Iff.rfl⟩
  · simp [State.addThread, State.setThread, State.setProcess, hx]

theorem startAt_spec {n : ℕ} (h : startAt s t n = .ok u) :
    ∃ v, s.setThreadStack (s.thread t).process (s.thread t).threadID n = .ok v ∧
      u = v.setThread t { s.thread t with status := .user, stackReg := n * pageSize - 16 } := by
  unfold startAt at h
  dsimp only at h
  cases hv : s.setThreadStack (s.thread t).process (s.thread t).threadID n with
  | error e =>
    rw [hv] at h
    cases h
  | ok v =>
    rw [hv] at h
    exact ⟨v, rfl, (Except.ok.inj h).symm⟩

theorem start_spec (h : start s t = .ok u) : ∃ stackEnd, Starts s u t stackEnd := by
  have hstarts : ∀ n, startAt s t n = .ok u →
      ((s.thread t).status = .execed ∧
          n = numExecutablePages (s.space (s.thread t).process) + (0 + 1) * 8 ∨
        (s.thread t).status = .forked ∧ n =
          numExecutablePages (s.space (s.thread t).process) + ((s.thread t).threadID + 1) * 8) →
      Starts s u t n := by
    intro n hn hstatus
    obtain ⟨v, hv, rfl⟩ := startAt_spec hn
    obtain ⟨table, rfl⟩ := frame_setThreadStack hv
    exact ⟨hstatus, rfl, rfl, ⟨rfl, rfl⟩, fun hid q => counters_setThreadStack hid hv q⟩
  unfold start at h
  dsimp only at h
  split at h
  · rename_i hs
    exact ⟨_, hstarts _ h (Or.inl ⟨hs, rfl⟩)⟩
  · rename_i hs
    exact ⟨_, hstarts _ h (Or.inr ⟨hs, rfl⟩)⟩
  · cases h

theorem forkCheck_spec (h : forkCheck s t = .ok u) :
    (s.thread t).status = .user ∧ (s.processTable (s.thread t).process).nextThreadID ≠ maxThreads ∧
      u = s.setStatus t .forking := by
  unfold forkCheck at h
  split_ifs at h with hu hfull
  exact ⟨hu, hfull, (Except.ok.inj h).symm⟩

theorem exitSyscall_spec (h : exitSyscall s t = .ok u) : Exits s u t := by
  unfold exitSyscall at h
  dsimp only at h
  split_ifs at h with hu hlast hprocess hthread
  · obtain rfl := Except.ok.inj h
    exact ⟨hu, rfl, ⟨rfl, fun _ => rfl⟩, Or.inl ⟨hprocess.2, hprocess.1, rfl, rfl⟩⟩
  · obtain rfl := Except.ok.inj h
    refine ⟨hu, rfl, ⟨rfl, fun q => ?_⟩, Or.inr ⟨hthread, rfl, ?_, fun q hq => ?_⟩⟩
    · by_cases hq : q = (s.thread t).process
      · subst hq
        simp [State.setStatus, State.setThread, State.setProcess]
      · simp [State.setStatus, State.setThread, State.setProcess, hq]
    · simp [State.setStatus, State.setThread, State.setProcess]
    · simp [State.setStatus, State.setThread, State.setProcess, hq]

/-- Everything a step can do to the counters. -/
theorem step_change (h : step s a = .ok u) : Change s u := by
  cases a with
  | startProcess t e =>
    simp only [step, startProcess] at h
    split_ifs at h with hc
    obtain ⟨hroom, hborn, hnext, hliving, -⟩ := newProcess_spec hc h
    exact .process t hborn hroom hnext hliving
  | exec t c e =>
    simp only [step, execSyscall] at h
    split_ifs at h with hc
    obtain ⟨hroom, hborn, hnext, hliving, -⟩ := newProcess_spec hc.2 h
    exact .process c hborn hroom hnext hliving
  | start t =>
    obtain ⟨n, hn⟩ := start_spec h
    exact .start t n hn
  | forkCheck t =>
    obtain ⟨hu, -, rfl⟩ := forkCheck_spec h
    refine .goesOn ⟨fun x => ?_, fun _ => ⟨rfl, rfl⟩, rfl, rfl⟩
    rw [setStatus_thread]
    split_ifs with hx
    · subst hx
      simp [hu]
    · exact ⟨rfl, rfl, Iff.rfl, Iff.rfl⟩
  | forkAllocate t c =>
    obtain ⟨hparent, -, hborn, hsame⟩ := forkAllocate_spec h
    exact .fork t c hparent hborn ⟨hsame.1, hsame.2.1⟩
  | exit t => exact .exit t (exitSyscall_spec h)

/-! The threads and the processes that live. -/

def livingThreads (s : State T) (p : ℕ) : Set T := {t | Lives s t p}

def livingProcesses (s : State T) : Set ℕ := {p | ∃ t, Lives s t p}

structure Accounts (s : State T) : Prop where
  living : (s.numLivingProcesses : ℕ∞) = (livingProcesses s).encard
  alive : ∀ p, (livingThreads s p).Nonempty →
    ((s.processTable p).numThreadsAlive : ℕ∞) = (livingThreads s p).encard
  fresh : ∀ p, s.nextProcessID ≤ p →
    (s.processTable p).numThreadsAlive = 0 ∧ (s.processTable p).nextThreadID = 0
  known : ∀ t, (s.thread t).status ≠ .notCreated → (s.thread t).process < s.nextProcessID

omit [DecidableEq T] in
theorem accounts_initial : Accounts (initial : State T) := by
  have hnone : ∀ t p, ¬ Lives (initial : State T) t p := fun t p h => h.2.1 rfl
  have hempty : livingProcesses (initial : State T) = ∅ :=
    Set.eq_empty_of_forall_notMem fun p ⟨t, ht⟩ => hnone t p ht
  refine ⟨?_, fun p ⟨t, ht⟩ => absurd ht (hnone t p), fun _ _ => ⟨rfl, rfl⟩, fun t ht => absurd rfl ht⟩
  rw [hempty, Set.encard_empty]
  rfl

omit [DecidableEq T] in
theorem lives_born (h : Born s u c p) (t : T) (q : ℕ) :
    Lives u t q ↔ t = c ∧ q = p ∨ Lives s t q := by
  by_cases ht : t = c
  · subst ht
    obtain ⟨hprocess, -, hnew, hexit, -⟩ := h.child
    have hold : ¬ Lives s t q := fun hl => hl.2.1 h.new
    exact ⟨fun hl => Or.inl ⟨rfl, hl.1.symm.trans hprocess⟩, fun hl =>
      hl.elim (fun hq => ⟨hprocess.trans hq.2.symm, hnew, hexit⟩) fun hl => absurd hl hold⟩
  · obtain ⟨hprocess, -, hnew, hexit⟩ := h.others t ht
    unfold Lives
    rw [hprocess, Ne, Ne, hnew, hexit]
    simp [ht]

omit [DecidableEq T] in
theorem lives_goesOn (h : GoesOn s u) (t : T) (q : ℕ) : Lives u t q ↔ Lives s t q := by
  obtain ⟨hprocess, -, hnew, hexit⟩ := h.thread t
  unfold Lives
  rw [hprocess, Ne, Ne, hnew, hexit]

theorem lives_exit (h : Exits s u t) (x : T) (q : ℕ) : Lives u x q ↔ Lives s x q ∧ x ≠ t := by
  unfold Lives
  rw [h.thread]
  by_cases hx : x = t
  · subst hx
    simp
  · simp [hx]

omit [DecidableEq T] in
theorem Accounts.born (ha : Accounts s) (h : Born s u c p)
    (hprocess : (livingThreads s p).Nonempty ∧ s.nextProcessID = u.nextProcessID ∧
        u.numLivingProcesses = s.numLivingProcesses ∨
      p = s.nextProcessID ∧ u.nextProcessID = s.nextProcessID + 1 ∧
        u.numLivingProcesses = s.numLivingProcesses + 1) : Accounts u := by
  have hother : ∀ q, q ≠ p → livingThreads u q = livingThreads s q := by
    intro q hq
    ext t
    simp [livingThreads, lives_born h, hq]
  have hself : livingThreads u p = insert c (livingThreads s p) := by
    ext t
    simp [livingThreads, lives_born h]
  have hnot : c ∉ livingThreads s p := fun hl => hl.2.1 h.new
  have hlt : p < u.nextProcessID := by
    rcases hprocess with ⟨⟨t, ht⟩, hnext, -⟩ | ⟨rfl, hnext, -⟩
    · rw [← hnext, ← ht.1]
      exact ha.known t ht.2.1
    · omega
  have hle : s.nextProcessID ≤ u.nextProcessID := by
    rcases hprocess with ⟨-, hnext, -⟩ | ⟨-, hnext, -⟩ <;> omega
  refine ⟨?_, fun q hq => ?_, fun q hq => ?_, fun t ht => ?_⟩
  · rcases hprocess with ⟨hne, -, hliving⟩ | ⟨hp, -, hliving⟩
    · have hsame : livingProcesses u = livingProcesses s := by
        ext q
        by_cases hq : q = p
        · subst hq
          exact iff_of_true ⟨c, (lives_born h c q).mpr (Or.inl ⟨rfl, rfl⟩)⟩ hne
        · simp [livingProcesses, lives_born h, hq]
      rw [hliving, hsame]
      exact ha.living
    · have hadd : livingProcesses u = insert p (livingProcesses s) := by
        ext q
        by_cases hq : q = p
        · subst hq
          exact iff_of_true ⟨c, (lives_born h c q).mpr (Or.inl ⟨rfl, rfl⟩)⟩ (Set.mem_insert _ _)
        · simp [livingProcesses, lives_born h, hq]
      have hnew : p ∉ livingProcesses s := by
        rintro ⟨t, ht⟩
        have := ha.known t ht.2.1
        rw [ht.1] at this
        omega
      rw [hliving, hadd, Set.encard_insert_of_notMem hnew, ← ha.living]
      norm_cast
  · by_cases hqp : q = p
    · subst hqp
      rw [hself, Set.encard_insert_of_notMem hnot, h.alive]
      rcases hprocess with ⟨hne, -, -⟩ | ⟨hp, -, -⟩
      · rw [← ha.alive q hne]
        norm_cast
      · have hempty : livingThreads s q = ∅ := by
          refine Set.eq_empty_of_forall_notMem fun t ht => ?_
          have := ha.known t ht.2.1
          rw [ht.1] at this
          omega
        rw [(ha.fresh q hp.ge).1, hempty, Set.encard_empty]
        norm_cast
    · rw [hother q hqp] at hq ⊢
      rw [h.entries q hqp]
      exact ha.alive q hq
  · rw [h.entries q (by omega)]
    exact ha.fresh q (by omega)
  · by_cases htc : t = c
    · rw [htc, h.child.1]
      exact hlt
    · obtain ⟨hpr, -, hnew, -⟩ := h.others t htc
      rw [hpr]
      exact (ha.known t fun hn => ht (hnew.mpr hn)).trans_le hle

theorem enat_cancel {m n : ℕ∞} (h : m + 1 = n + 1) : m = n :=
  WithTop.add_right_cancel ENat.one_ne_top h

theorem Accounts.exit (ha : Accounts s) (h : Exits s u t) : Accounts u := by
  have hlives : Lives s t (s.thread t).process := ⟨rfl, by simp [h.running], by simp [h.running]⟩
  have hthreads : ∀ q, livingThreads u q = livingThreads s q \ {t} := by
    intro q
    ext x
    exact lives_exit h x q
  have hother : ∀ q, q ≠ (s.thread t).process → livingThreads u q = livingThreads s q := by
    intro q hq
    rw [hthreads, Set.sdiff_singleton_eq_self]
    exact fun hl => hq hl.1.symm
  have hmem : t ∈ livingThreads s (s.thread t).process := hlives
  have hcount := ha.alive _ ⟨t, hmem⟩
  have hdiff : (livingThreads u (s.thread t).process).encard + 1 =
      ((s.processTable (s.thread t).process).numThreadsAlive : ℕ∞) := by
    rw [hthreads, hcount]
    exact Set.encard_sdiff_singleton_add_one hmem
  have hstatus : ∀ x, (u.thread x).process = (s.thread x).process ∧
      ((u.thread x).status ≠ .notCreated → (s.thread x).status ≠ .notCreated) := by
    intro x
    rw [h.thread]
    by_cases hx : x = t
    · subst hx
      simp [h.running]
    · simp [hx]
  have hknown : ∀ x, (u.thread x).status ≠ .notCreated → (u.thread x).process < u.nextProcessID := by
    intro x hx
    rw [(hstatus x).1, h.next.1]
    exact ha.known x ((hstatus x).2 hx)
  rcases h.counters with ⟨hone, hmany, hliving, htable⟩ | ⟨hmany, hliving, hself, hentries⟩
  · have hempty : livingThreads u (s.thread t).process = ∅ := by
      rw [hone] at hdiff
      rw [← Set.encard_eq_zero]
      exact enat_cancel (hdiff.trans (zero_add 1).symm)
    have hprocesses : livingProcesses u = livingProcesses s \ {(s.thread t).process} := by
      ext q
      by_cases hq : q = (s.thread t).process
      · subst hq
        refine iff_of_false ?_ (by simp)
        rintro ⟨x, hx⟩
        exact Set.eq_empty_iff_forall_notMem.mp hempty x hx
      · have hiff : (∃ x, Lives u x q) ↔ ∃ x, Lives s x q := by
          refine exists_congr fun x => ?_
          exact Set.ext_iff.mp (hother q hq) x
        simpa [livingProcesses, hq] using hiff
    have hlive : (s.thread t).process ∈ livingProcesses s := ⟨t, hlives⟩
    refine ⟨?_, fun q hq => ?_, fun q hq => ?_, hknown⟩
    · have hsum := Set.encard_sdiff_singleton_add_one hlive
      rw [← ha.living, ← hprocesses] at hsum
      have hnat : ((u.numLivingProcesses : ℕ∞)) + 1 = s.numLivingProcesses := by
        rw [hliving]
        norm_cast
        omega
      exact enat_cancel (hnat.trans hsum.symm)
    · have hqp : q ≠ (s.thread t).process := by
        rintro rfl
        simp [hempty] at hq
      rw [hother q hqp] at hq ⊢
      rw [htable]
      exact ha.alive q hq
    · rw [htable]
      exact ha.fresh q (h.next.1 ▸ hq)
  · have hone : (livingThreads u (s.thread t).process).encard =
        ((s.processTable (s.thread t).process).numThreadsAlive - 1 : ℕ) := by
      refine enat_cancel (hdiff.trans ?_)
      exact_mod_cast (Nat.sub_add_cancel hmany.le).symm
    have hprocesses : livingProcesses u = livingProcesses s := by
      ext q
      by_cases hq : q = (s.thread t).process
      · subst hq
        refine iff_of_true ?_ ⟨t, hlives⟩
        have hne : (livingThreads u (s.thread t).process).encard ≠ 0 := by
          rw [hone]
          norm_cast
          omega
        exact Set.encard_ne_zero.mp hne
      · exact exists_congr fun x => Set.ext_iff.mp (hother q hq) x
    refine ⟨?_, fun q hq => ?_, fun q hq => ?_, hknown⟩
    · rw [hliving, hprocesses]
      exact ha.living
    · by_cases hqp : q = (s.thread t).process
      · rw [hqp, hself, hone]
      · rw [hother q hqp] at hq ⊢
        rw [hentries q hqp]
        exact ha.alive q hq
    · rw [h.next.1] at hq
      have hlt := ha.known t hlives.2.1
      rw [hentries q (by omega)]
      exact ha.fresh q hq

omit [DecidableEq T] in
theorem Accounts.goesOn (ha : Accounts s) (h : GoesOn s u) : Accounts u := by
  have hthreads : ∀ q, livingThreads u q = livingThreads s q := by
    intro q
    ext t
    exact lives_goesOn h t q
  have hprocesses : livingProcesses u = livingProcesses s := by
    ext q
    exact exists_congr fun t => lives_goesOn h t q
  refine ⟨?_, fun q hq => ?_, fun q hq => ?_, fun t ht => ?_⟩
  · rw [h.processes.2, hprocesses]
    exact ha.living
  · rw [hthreads] at hq ⊢
    rw [(h.counters q).1]
    exact ha.alive q hq
  · rw [(h.counters q).1, (h.counters q).2]
    exact ha.fresh q (h.processes.1 ▸ hq)
  · obtain ⟨hprocess, -, hnew, -⟩ := h.thread t
    rw [hprocess, h.processes.1]
    exact ha.known t fun hn => ht (hnew.mpr hn)

theorem Starts.created {stackEnd : ℕ} (h : Starts s u t stackEnd) :
    (s.thread t).status ≠ .notCreated := by
  rcases h.status with ⟨hs, -⟩ | ⟨hs, -⟩ <;> simp [hs]

/-- Ids past the end of `threadStacks` are left out: such a thread writes into the counters. -/
theorem Accounts.next (ha : Accounts s) (h : step s a = .ok u)
    (hin : ∀ t, (s.thread t).status ≠ .notCreated → (s.thread t).threadID < maxThreads) :
    Accounts u := by
  cases step_change h with
  | process c hnew hroom hnext hliving => exact ha.born hnew (Or.inr ⟨rfl, hnext, hliving⟩)
  | fork t c hparent hnew hsame =>
    exact ha.born hnew (Or.inl ⟨⟨t, rfl, by simp [hparent], by simp [hparent]⟩, hsame.1.symm, hsame.2⟩)
  | start t stackEnd h => exact ha.goesOn (h.goesOn (hin t h.created))
  | goesOn h => exact ha.goesOn h
  | exit t h => exact ha.exit h

/-- The last branch of Exit is never taken. -/
theorem Accounts.exit_known (ha : Accounts s) (t : T) :
    step s (.exit t) ≠ .error .unknownExitStatus := by
  simp only [step, exitSyscall]
  split_ifs with hu hlast hprocess hthread
  any_goals simp
  have hlives : Lives s t (s.thread t).process := ⟨rfl, by simp [hu], by simp [hu]⟩
  have halive := ha.alive _ ⟨t, hlives⟩
  have hpos : (livingThreads s (s.thread t).process).encard ≠ 0 := Set.encard_ne_zero_of_mem hlives
  have hlive : (livingProcesses s).encard ≠ 0 :=
    Set.encard_ne_zero_of_mem (a := (s.thread t).process) ⟨t, hlives⟩
  rw [← halive] at hpos
  rw [← ha.living] at hlive
  norm_cast at hpos hlive
  omega

/-- Exit halts the machine for the last thread of all. -/
theorem Accounts.exit_halts (ha : Accounts s) (hu : (s.thread t).status = .user) :
    step s (.exit t) = .error .halted ↔ ∀ x p, Lives s x p → x = t := by
  have hlives : Lives s t (s.thread t).process := ⟨rfl, by simp [hu], by simp [hu]⟩
  have halive := ha.alive _ ⟨t, hlives⟩
  have hhalt : step s (.exit t) = .error .halted ↔ s.numLivingProcesses = 1 ∧
      (s.processTable (s.thread t).process).numThreadsAlive = 1 := by
    simp only [step, exitSyscall, if_pos hu]
    split_ifs with hlast <;> simp [hlast]
  rw [hhalt]
  constructor
  · rintro ⟨hliving, hone⟩ x p hx
    have hprocess : (livingProcesses s).encard = 1 := by
      rw [← ha.living, hliving]
      rfl
    have hthread : (livingThreads s (s.thread t).process).encard = 1 := by
      rw [← halive, hone]
      rfl
    obtain ⟨q, hq⟩ := Set.encard_eq_one.mp hprocess
    obtain ⟨y, hy⟩ := Set.encard_eq_one.mp hthread
    have hpq : p = q := hq.subset (⟨x, hx⟩ : p ∈ livingProcesses s)
    have htq : (s.thread t).process = q :=
      hq.subset (⟨t, hlives⟩ : (s.thread t).process ∈ livingProcesses s)
    have hxy : x = y := hy.subset (show Lives s x (s.thread t).process by rwa [htq, ← hpq])
    have hty : t = y := hy.subset (show Lives s t (s.thread t).process from hlives)
    rw [hxy, hty]
  · intro hall
    have hprocess : livingProcesses s = {(s.thread t).process} := by
      ext p
      refine ⟨fun ⟨x, hx⟩ => ?_, fun hp => ⟨t, ?_⟩⟩
      · rw [Set.mem_singleton_iff, ← hx.1, hall x p hx]
      · rw [Set.mem_singleton_iff] at hp
        rwa [hp]
    have hthread : livingThreads s (s.thread t).process = {t} := by
      ext x
      exact ⟨fun hx => hall x _ hx, fun hx => (Set.mem_singleton_iff.mp hx) ▸ hlives⟩
    have hliving := ha.living
    rw [hprocess, Set.encard_singleton] at hliving
    rw [hthread, Set.encard_singleton] at halive
    exact ⟨by exact_mod_cast hliving, by exact_mod_cast halive⟩

/-- The counters are the numbers of living processes and threads, and Exit halts for the last thread
of the last process only. -/
structure AccountsRight (s : State T) : Prop where
  living : (s.numLivingProcesses : ℕ∞) = (livingProcesses s).encard
  alive : ∀ p ∈ livingProcesses s,
    ((s.processTable p).numThreadsAlive : ℕ∞) = (livingThreads s p).encard
  halts : ∀ t, (s.thread t).status = .user →
    (step s (.exit t) = .error .halted ↔ ∀ x p, Lives s x p → x = t)
  known : ∀ t, step s (.exit t) ≠ .error .unknownExitStatus

theorem Accounts.right (ha : Accounts s) : AccountsRight s :=
  ⟨ha.living, fun p ⟨t, ht⟩ => ha.alive p ⟨t, ht⟩, fun _ hu => ha.exit_halts hu, ha.exit_known⟩

end Nachos.Processes
