import Nachos.KernelProcessAccounting

/-! Thread ids, stacks and counters over whole runs. Fork checks the number of threads in one critical
section and takes an id in the next, so ids can pass the end of `threadStacks`. -/
namespace Nachos.Processes
open Executions Paging

variable {T : Type*} [DecidableEq T] {s u : State T} {a : Action T} {t c : T} {p : ℕ}

def stackPages (e : Executable) (threadID : ℕ) : Set ℕ :=
  Set.Ico (numExecutablePages e + threadID * 8) (numExecutablePages e + (threadID + 1) * 8)

/-- The Forks of a process that have passed the check and have no id yet. -/
def forkingThreads (s : State T) (p : ℕ) : Set T :=
  {t | (s.thread t).process = p ∧ (s.thread t).status = .forking}

/-- If the step is the check of a Fork, the Forks under way leave room for one more. -/
def RoomForFork (s : State T) (a : Action T) : Prop :=
  ∀ t, a = .forkCheck t → (forkingThreads s (s.thread t).process).encard +
    (s.processTable (s.thread t).process).nextThreadID < maxThreads

def Started (s : State T) (t : T) : Prop :=
  (s.thread t).status = .user ∨ (s.thread t).status = .forking ∨ (s.thread t).status = .exited

/-- The stack of a thread, as the page table, the process table and the register have it. -/
structure StackRight (s : State T) (t : T) : Prop where
  index : (s.thread t).threadID < maxThreads
  table : stackPages (s.space (s.thread t).process) (s.thread t).threadID ⊆
    Set.Iio (s.space (s.thread t).process).numPages
  executable : Disjoint (stackPages (s.space (s.thread t).process) (s.thread t).threadID)
    (Set.Iio (numExecutablePages (s.space (s.thread t).process)))
  register : Started s t → (s.thread t).stackReg / pageSize ∈
    stackPages (s.space (s.thread t).process) (s.thread t).threadID

structure StacksRight (s : State T) : Prop where
  stack : ∀ t, (s.thread t).status ≠ .notCreated → StackRight s t
  distinct : ∀ t x, (s.thread t).status ≠ .notCreated → (s.thread x).status ≠ .notCreated → t ≠ x →
    (s.thread t).process = (s.thread x).process →
      (s.thread t).threadID ≠ (s.thread x).threadID ∧
      Disjoint (stackPages (s.space (s.thread t).process) (s.thread t).threadID)
        (stackPages (s.space (s.thread x).process) (s.thread x).threadID)

theorem stackPages_table {e : Executable} {id : ℕ} (h : id < maxThreads) :
    stackPages e id ⊆ Set.Iio e.numPages := by
  intro v hv
  have hlt := hv.2
  have hstack : divRoundUp userStackSize pageSize = 8 := by decide
  rw [Set.mem_Iio, Executable.numPages, hstack]
  simp only [numExecutablePages, maxThreads] at hlt h ⊢
  omega

theorem stackPages_executable (e : Executable) (id : ℕ) :
    Disjoint (stackPages e id) (Set.Iio (numExecutablePages e)) := by
  rw [Set.disjoint_left]
  intro v hv hlt
  have hle := hv.1
  rw [Set.mem_Iio] at hlt
  omega

theorem stackPages_disjoint (e : Executable) {i j : ℕ} (h : i ≠ j) :
    Disjoint (stackPages e i) (stackPages e j) := by
  rw [Set.disjoint_left]
  rintro v ⟨hi, hi'⟩ ⟨hj, hj'⟩
  omega

theorem stackReg_page (e : Executable) (id : ℕ) :
    ((numExecutablePages e + (id + 1) * 8) * pageSize - 16) / pageSize ∈ stackPages e id := by
  simp only [stackPages, Set.mem_Ico, pageSize]
  omega

/-! The ids over whole runs. -/

structure Numbered (s : State T) : Prop where
  accounts : Accounts s
  below : ∀ t, (s.thread t).status ≠ .notCreated →
    (s.thread t).threadID < (s.processTable (s.thread t).process).nextThreadID
  distinct : ∀ t x, (s.thread t).status ≠ .notCreated → (s.thread x).status ≠ .notCreated →
    (s.thread t).process = (s.thread x).process → (s.thread t).threadID = (s.thread x).threadID →
    t = x
  first : ∀ t, (s.thread t).status = .execed → (s.thread t).threadID = 0
  register : ∀ t, Started s t → (s.thread t).stackReg =
    (numExecutablePages (s.space (s.thread t).process) + ((s.thread t).threadID + 1) * 8) *
      pageSize - 16

/-- The limit on threads holds, counting the Forks under way. -/
def WithinLimit (s : State T) : Prop :=
  ∀ p, (forkingThreads s p).encard + (s.processTable p).nextThreadID ≤ maxThreads

omit [DecidableEq T] in
theorem numbered_initial : Numbered (initial : State T) :=
  ⟨accounts_initial, fun _ h => absurd rfl h, fun _ _ h => absurd rfl h,
    fun _ h => by simp [initial] at h, fun _ h => by simp [Started, initial] at h⟩

omit [DecidableEq T] in
theorem withinLimit_initial : WithinLimit (initial : State T) := by
  intro p
  have hempty : forkingThreads (initial : State T) p = ∅ :=
    Set.eq_empty_of_forall_notMem fun t ht => by simp [forkingThreads, initial] at ht
  rw [hempty, Set.encard_empty]
  simp [initial]

omit [DecidableEq T] in
theorem Numbered.below_born (h : Numbered s) (hb : Born s u c p) :
    (∀ t, (u.thread t).status ≠ .notCreated →
      (u.thread t).threadID < (u.processTable (u.thread t).process).nextThreadID) ∧
    ∀ t x, (u.thread t).status ≠ .notCreated → (u.thread x).status ≠ .notCreated →
      (u.thread t).process = (u.thread x).process → (u.thread t).threadID = (u.thread x).threadID →
      t = x := by
  have hold : ∀ t, t ≠ c → (u.thread t).status ≠ .notCreated →
      (u.thread t).process = (s.thread t).process ∧ (u.thread t).threadID = (s.thread t).threadID ∧
      (s.thread t).status ≠ .notCreated ∧
      (u.thread t).threadID < (s.processTable (u.thread t).process).nextThreadID := by
    intro t ht hn
    obtain ⟨hprocess, hid, hnew, -⟩ := hb.others t ht
    have hs : (s.thread t).status ≠ .notCreated := fun h' => hn (hnew.mpr h')
    refine ⟨hprocess, hid, hs, ?_⟩
    rw [hprocess, hid]
    exact h.below t hs
  have hnot : ∀ t, t ≠ c → (u.thread t).status ≠ .notCreated →
      (u.thread t).process = (u.thread c).process →
      (u.thread t).threadID ≠ (u.thread c).threadID := by
    intro t ht hn hp
    obtain ⟨-, -, -, hlt⟩ := hold t ht hn
    rw [hb.child.2.1, ← hb.child.1, ← hp]
    exact hlt.ne
  refine ⟨fun t ht => ?_, fun t x ht hx hp hid => ?_⟩
  · by_cases htc : t = c
    · rw [htc, hb.child.1, hb.child.2.1, hb.next]
      exact Nat.lt_succ_self _
    · obtain ⟨-, -, -, hlt⟩ := hold t htc ht
      by_cases hq : (u.thread t).process = p
      · rw [hq] at hlt ⊢
        rw [hb.next]
        omega
      · rwa [hb.entries _ hq]
  · by_cases htc : t = c <;> by_cases hxc : x = c
    · rw [htc, hxc]
    · rw [htc] at hp hid
      exact absurd hid.symm (hnot x hxc hx hp.symm)
    · rw [hxc] at hp hid
      exact absurd hid (hnot t htc ht hp)
    · obtain ⟨hpt, hidt, hst, -⟩ := hold t htc ht
      obtain ⟨hpx, hidx, hsx, -⟩ := hold x hxc hx
      exact h.distinct t x hst hsx (hpt ▸ hpx ▸ hp) (hidt ▸ hidx ▸ hid)

omit [DecidableEq T] in
/-- Threads that go on keep their ids. -/
theorem Numbered.kept (h : Numbered s) (ha : Accounts u)
    (hthread : ∀ t, (u.thread t).process = (s.thread t).process ∧
      (u.thread t).threadID = (s.thread t).threadID ∧
      ((u.thread t).status ≠ .notCreated → (s.thread t).status ≠ .notCreated))
    (hnext : ∀ q, (u.processTable q).nextThreadID = (s.processTable q).nextThreadID)
    (hfirst : ∀ t, (u.thread t).status = .execed → (s.thread t).status = .execed)
    (hregister : ∀ t, Started u t → (u.thread t).stackReg =
      (numExecutablePages (u.space (u.thread t).process) + ((u.thread t).threadID + 1) * 8) *
        pageSize - 16) : Numbered u := by
  refine ⟨ha, fun t ht => ?_, fun t x ht hx hp hid => ?_, fun t ht => ?_, hregister⟩
  · obtain ⟨hprocess, hid, hnew⟩ := hthread t
    rw [hid, hprocess, hnext]
    exact h.below t (hnew ht)
  · obtain ⟨hpt, hit, hnt⟩ := hthread t
    obtain ⟨hpx, hix, hnx⟩ := hthread x
    exact h.distinct t x (hnt ht) (hnx hx) (hpt ▸ hpx ▸ hp) (hit ▸ hix ▸ hid)
  · rw [(hthread t).2.1]
    exact h.first t (hfirst t ht)

theorem Numbered.newProcess {e : Executable} (h : Numbered s)
    (hc : (s.thread c).status = .notCreated) (hs : newProcess s c e = .ok u) (ha : Accounts u) :
    Numbered u := by
  obtain ⟨-, hborn, -, -, hothers⟩ := newProcess_spec hc hs
  obtain ⟨hbelow, hdistinct⟩ := h.below_born hborn
  have hzero : (s.processTable s.nextProcessID).nextThreadID = 0 := (h.accounts.fresh _ le_rfl).2
  have hspace : ∀ q, q ≠ s.nextProcessID → u.space q = s.space q := by
    unfold Processes.newProcess at hs
    split_ifs at hs
    obtain rfl := Except.ok.inj hs
    intro q hq
    simp [State.addThread, State.setThread, State.setProcess, hq]
  have hchild : (u.thread c).status = .execed := by
    unfold Processes.newProcess at hs
    split_ifs at hs
    obtain rfl := Except.ok.inj hs
    simp [State.addThread, State.setThread, State.setProcess]
  refine ⟨ha, hbelow, hdistinct, fun t ht => ?_, fun t ht => ?_⟩
  · by_cases htc : t = c
    · rw [htc, hborn.child.2.1, hzero]
    · rw [hothers t htc] at ht ⊢
      exact h.first t ht
  · have htc : t ≠ c := by
      rintro rfl
      simp [Started, hchild] at ht
    have ht' : Started s t := by
      unfold Started at ht ⊢
      rwa [hothers t htc] at ht
    have hlt : (s.thread t).process < s.nextProcessID := by
      refine h.accounts.known t fun hn => ?_
      simp [Started, hn] at ht'
    rw [hothers t htc, hspace _ hlt.ne]
    exact h.register t ht'

omit [DecidableEq T] in
theorem Numbered.index (h : Numbered s) (hw : WithinLimit s) (t : T)
    (ht : (s.thread t).status ≠ .notCreated) : (s.thread t).threadID < maxThreads := by
  have hle : ((s.processTable (s.thread t).process).nextThreadID : ℕ∞) ≤ maxThreads :=
    le_add_self.trans (hw _)
  have hlt := h.below t ht
  norm_cast at hle
  omega

theorem Numbered.step (h : Numbered s) (hw : WithinLimit s) (hs : step s a = .ok u) :
    Numbered u := by
  have ha := h.accounts.next hs (h.index hw)
  cases a with
  | startProcess t e =>
    simp only [Processes.step, startProcess] at hs
    split_ifs at hs with hc
    exact h.newProcess hc hs ha
  | exec t c e =>
    simp only [Processes.step, execSyscall] at hs
    split_ifs at hs with hc
    exact h.newProcess hc.2 hs ha
  | start t =>
    obtain ⟨stackEnd, hstart⟩ := start_spec hs
    have hid : stackEnd =
        numExecutablePages (s.space (s.thread t).process) + ((s.thread t).threadID + 1) * 8 := by
      rcases hstart.status with ⟨hexec, rfl⟩ | ⟨-, rfl⟩
      · rw [h.first t hexec]
      · rfl
    have hother : ∀ x, x ≠ t → u.thread x = s.thread x := by
      intro x hx
      rw [hstart.thread, Function.update_of_ne hx]
    have hself : u.thread t =
        { s.thread t with status := .user, stackReg := stackEnd * pageSize - 16 } := by
      rw [hstart.thread, Function.update_self]
    refine h.kept ha (fun x => ?_)
      (fun q => (hstart.counters (h.index hw t hstart.created) q).2) (fun x hx => ?_) fun x hx => ?_
    · obtain ⟨hprocess, hidx, hnew, -⟩ := hstart.keeps x
      exact ⟨hprocess, hidx, fun hn hn' => hn (hnew.mpr hn')⟩
    · by_cases hxt : x = t
      · rw [hxt, hself] at hx
        cases hx
      · rwa [hother x hxt] at hx
    · rw [hstart.space]
      by_cases hxt : x = t
      · rw [hxt, hself, hid]
      · unfold Started at hx
        rw [hother x hxt] at hx ⊢
        exact h.register x hx
  | forkCheck t =>
    obtain ⟨hu, -, rfl⟩ := forkCheck_spec hs
    have hthread := fun x => setStatus_thread s t x .forking
    refine h.kept ha (fun x => ?_) (fun _ => rfl) (fun x hx => ?_) fun x hx => ?_
    · rw [hthread]
      split_ifs with hxt
      · exact ⟨by rw [hxt], by rw [hxt], fun _ => by rw [hxt, hu]; decide⟩
      · exact ⟨rfl, rfl, id⟩
    · rw [hthread] at hx
      split_ifs at hx
      exact hx
    · unfold Started at hx
      rw [hthread] at hx ⊢
      split_ifs at hx ⊢ with hxt
      · exact h.register t (Or.inl hu)
      · exact h.register x hx
  | forkAllocate t c =>
    obtain ⟨hfork, hct, hborn, -, -, hothers⟩ := forkAllocate_spec hs
    obtain ⟨hbelow, hdistinct⟩ := h.below_born hborn
    have hchild : (u.thread c).status = .forked := by
      simp only [Processes.step, forkAllocate] at hs
      split_ifs at hs
      obtain rfl := Except.ok.inj hs
      simp [State.addThread, State.setThread, State.setProcess]
    have hspace : u.space = s.space := by
      simp only [Processes.step, forkAllocate] at hs
      split_ifs at hs
      obtain rfl := Except.ok.inj hs
      rfl
    refine ⟨ha, hbelow, hdistinct, fun x hx => ?_, fun x hx => ?_⟩
    · have hxc : x ≠ c := by
        rintro rfl
        rw [hchild] at hx
        cases hx
      rw [hothers x hxc, setStatus_thread] at hx ⊢
      split_ifs at hx ⊢
      exact h.first x hx
    · have hxc : x ≠ c := by
        rintro rfl
        simp [Started, hchild] at hx
      unfold Started at hx
      rw [hspace, hothers x hxc, setStatus_thread] at *
      split_ifs at hx ⊢ with hxt
      · exact h.register t (Or.inr (Or.inl hfork))
      · exact h.register x hx
  | exit t =>
    have hexit := exitSyscall_spec hs
    have hspace : u.space = s.space := by
      simp only [Processes.step, exitSyscall] at hs
      split_ifs at hs <;> obtain rfl := Except.ok.inj hs <;> rfl
    refine h.kept ha (fun x => ?_) hexit.next.2 (fun x hx => ?_) fun x hx => ?_
    · rw [hexit.thread]
      by_cases hxt : x = t
      · subst hxt
        simp [hexit.running]
      · simp [hxt]
    · rw [hexit.thread] at hx
      by_cases hxt : x = t
      · subst hxt
        simp at hx
      · simpa [hxt] using hx
    · unfold Started at hx
      rw [hspace, hexit.thread] at *
      by_cases hxt : x = t
      · subst hxt
        simpa using h.register x (Or.inl hexit.running)
      · simp only [Function.update_of_ne hxt] at hx ⊢
        exact h.register x hx

/-! The limit. -/

omit [DecidableEq T] in
theorem WithinLimit.of_same (h : WithinLimit s)
    (hforking : ∀ q, forkingThreads u q = forkingThreads s q)
    (hnext : ∀ q, (u.processTable q).nextThreadID = (s.processTable q).nextThreadID) :
    WithinLimit u := by
  intro q
  rw [hforking, hnext]
  exact h q

theorem WithinLimit.newProcess {e : Executable} (h : WithinLimit s) (ha : Accounts s)
    (hc : (s.thread c).status = .notCreated) (hs : newProcess s c e = .ok u) : WithinLimit u := by
  obtain ⟨-, hborn, -, -, hothers⟩ := newProcess_spec hc hs
  have hforking : ∀ q, forkingThreads u q = forkingThreads s q := by
    intro q
    ext t
    by_cases htc : t = c
    · subst htc
      simp [forkingThreads, hborn.child.2.2.2.2, hc]
    · simp [forkingThreads, hothers t htc]
  intro q
  rw [hforking]
  by_cases hq : q = s.nextProcessID
  · subst hq
    have hempty : forkingThreads s s.nextProcessID = ∅ := by
      refine Set.eq_empty_of_forall_notMem fun t ht => ?_
      have hlt := ha.known t (by rw [ht.2]; decide)
      rw [ht.1] at hlt
      exact lt_irrefl _ hlt
    rw [hempty, Set.encard_empty, hborn.next, (ha.fresh _ le_rfl).2]
    decide
  · rw [hborn.entries q hq]
    exact h q

theorem WithinLimit.step (h : WithinLimit s) (hn : Numbered s) (hs : step s a = .ok u)
    (hroom : RoomForFork s a) : WithinLimit u := by
  have ha := hn.accounts
  cases a with
  | startProcess t e =>
    simp only [Processes.step, startProcess] at hs
    split_ifs at hs with hc
    exact h.newProcess ha hc hs
  | exec t c e =>
    simp only [Processes.step, execSyscall] at hs
    split_ifs at hs with hc
    exact h.newProcess ha hc.2 hs
  | start t =>
    obtain ⟨stackEnd, hstart⟩ := start_spec hs
    have hnot : (s.thread t).status ≠ .forking := by
      rcases hstart.status with ⟨hs, -⟩ | ⟨hs, -⟩ <;> simp [hs]
    refine h.of_same (fun q => ?_) fun q => (hstart.counters (hn.index h t hstart.created) q).2
    ext x
    by_cases hxt : x = t
    · subst hxt
      simp [forkingThreads, hstart.thread, hnot]
    · simp [forkingThreads, hstart.thread, hxt]
  | forkCheck t =>
    obtain ⟨hu, -, rfl⟩ := forkCheck_spec hs
    have hthread := fun x => setStatus_thread s t x .forking
    intro q
    by_cases hq : q = (s.thread t).process
    · subst hq
      have hinsert : forkingThreads (s.setStatus t .forking) (s.thread t).process =
          insert t (forkingThreads s (s.thread t).process) := by
        ext x
        by_cases hxt : x = t <;> simp [forkingThreads, hthread, hxt]
      have hnot : t ∉ forkingThreads s (s.thread t).process := by
        rintro ⟨-, ht⟩
        rw [hu] at ht
        cases ht
      rw [hinsert, Set.encard_insert_of_notMem hnot, add_right_comm]
      exact Order.add_one_le_of_lt (hroom t rfl)
    · have hsame : forkingThreads (s.setStatus t .forking) q = forkingThreads s q := by
        ext x
        by_cases hxt : x = t
        · simp [forkingThreads, hthread, hxt, Ne.symm hq]
        · simp [forkingThreads, hthread, hxt]
      rw [hsame]
      exact h q
  | forkAllocate t c =>
    obtain ⟨hfork, hct, hborn, -, -, hothers⟩ := forkAllocate_spec hs
    have hmem : t ∈ forkingThreads s (s.thread t).process := ⟨rfl, hfork⟩
    have hthread : ∀ q x, x ∈ forkingThreads u q ↔ x ∈ forkingThreads s q ∧ x ≠ t := by
      intro q x
      by_cases hxc : x = c
      · subst hxc
        simp [forkingThreads, hborn.child.2.2.2.2, hborn.new]
      · simp only [forkingThreads, Set.mem_ofPred_eq, hothers x hxc, setStatus_thread]
        split_ifs with hxt <;> simp [hxt]
    intro q
    by_cases hq : q = (s.thread t).process
    · subst hq
      have hdiff : forkingThreads u (s.thread t).process =
          forkingThreads s (s.thread t).process \ {t} := Set.ext (hthread _)
      have hsum := Set.encard_sdiff_singleton_add_one hmem
      have hold := h (s.thread t).process
      rw [← hsum, ← hdiff] at hold
      rw [hborn.next]
      push_cast
      rwa [add_comm _ (1 : ℕ∞), ← add_assoc]
    · have hsame : forkingThreads u q = forkingThreads s q := by
        ext x
        rw [hthread]
        refine ⟨And.left, fun hx => ⟨hx, ?_⟩⟩
        rintro rfl
        exact hq hx.1.symm
      rw [hsame, hborn.entries q hq]
      exact h q
  | exit t =>
    have hexit := exitSyscall_spec hs
    refine h.of_same (fun q => ?_) hexit.next.2
    ext x
    by_cases hxt : x = t
    · subst hxt
      simp [forkingThreads, hexit.thread, hexit.running]
    · simp [forkingThreads, hexit.thread, hxt]

omit [DecidableEq T] in
theorem stacksRight (h : Numbered s) (hw : WithinLimit s) : StacksRight s := by
  refine ⟨fun t ht => ⟨h.index hw t ht, stackPages_table (h.index hw t ht),
    stackPages_executable _ _, fun hstarted => ?_⟩, fun t x ht hx hne hp => ?_⟩
  · rw [h.register t hstarted]
    exact stackReg_page _ _
  · have hid : (s.thread t).threadID ≠ (s.thread x).threadID := fun hid =>
      hne (h.distinct t x ht hx hp hid)
    refine ⟨hid, ?_⟩
    rw [hp]
    exact stackPages_disjoint _ hid

theorem numbered_run {tr : List (Transition (State T) (Action T))}
    (h : Execution Steps initial tr s) (hroom : ∀ x ∈ tr, RoomForFork x.before x.event) :
    Numbered s ∧ WithinLimit s :=
  h.invariant_of_cond (P := fun s => Numbered s ∧ WithinLimit s)
    ⟨numbered_initial, withinLimit_initial⟩
    (fun _ hP hs hc => ⟨hP.1.step hP.2 hs, hP.2.step hP.1 hs hc⟩) hroom

omit [DecidableEq T] in
/-- No Fork is under way, and the limit is not reached. -/
theorem roomForFork_of_none (hnone : ∀ t, (s.thread t).status ≠ .forking)
    (hlt : ∀ t, (s.processTable (s.thread t).process).nextThreadID < maxThreads) :
    RoomForFork s a := by
  intro t _
  have hempty : forkingThreads s (s.thread t).process = ∅ :=
    Set.eq_empty_of_forall_notMem fun x hx => hnone x hx.2
  rw [hempty, Set.encard_empty, zero_add]
  exact_mod_cast hlt t

/-- No Fork is under way, and no process has reached the limit. -/
def noFork {n : ℕ} (s : State (Fin n)) : Action (Fin n) → Bool
  | .forkCheck _ => decide ((∀ t, (s.thread t).status ≠ .forking) ∧
      ∀ t, (s.processTable (s.thread t).process).nextThreadID < maxThreads)
  | _ => true

theorem roomForFork_of_noFork {n : ℕ} {s : State (Fin n)} {a : Action (Fin n)}
    (h : noFork s a = true) : RoomForFork s a := by
  cases a with
  | forkCheck t =>
    obtain ⟨hnone, hlt⟩ := of_decide_eq_true h
    exact roomForFork_of_none hnone hlt
  | _ => exact fun _ h => by cases h

/-- In every run in which each check of a Fork finds room for the Forks under way as well, the
counters of the process table are right. -/
theorem process_accounting {tr : List (Transition (State T) (Action T))}
    (h : Execution Steps initial tr s) (hroom : ∀ x ∈ tr, RoomForFork x.before x.event) :
    AccountsRight s :=
  (numbered_run h hroom).1.accounts.right

/-- Two processes; a thread of the first has exited. -/
theorem process_accounting_twoProcesses :
    ∃ (tr : List (Transition (State (Fin 3)) (Action (Fin 3)))) (s : State (Fin 3)),
      Execution Steps initial tr s ∧ (∀ x ∈ tr, RoomForFork x.before x.event) ∧
      tr.map (fun x => x.event) = [.startProcess 0 emptyProgram, .start 0, .forkCheck 0,
        .forkAllocate 0 1, .start 1, .exec 1 2 emptyProgram, .exit 0] ∧
      s.numLivingProcesses = 2 ∧ (s.thread 1).status = .user ∧ AccountsRight s := by
  obtain ⟨tr, s, h, hmap, hcheck, htest⟩ := exists_of_run step (initial (T := Fin 3))
    [.startProcess 0 emptyProgram, .start 0, .forkCheck 0, .forkAllocate 0 1, .start 1,
      .exec 1 2 emptyProgram, .exit 0] noFork
    (fun s => decide (s.numLivingProcesses = 2 ∧ (s.thread 1).status = .user)) (by decide)
  have hroom : ∀ x ∈ tr, RoomForFork x.before x.event := fun x hx =>
    roomForFork_of_noFork (hcheck x hx)
  obtain ⟨htwo, huser⟩ := of_decide_eq_true htest
  exact ⟨tr, s, h, hroom, hmap, htwo, huser, process_accounting h hroom⟩

/-- Ninety-eight Forks of the first process, and then three threads that all pass the check. Thread
100 writes over `nextThreadID`, and thread 101 over `numThreadsAlive` of the second process. -/
def racingStarts : List (Action (Fin 103)) :=
  [.startProcess 0 emptyProgram, .start 0, .exec 0 102 emptyProgram, .start 102] ++
    (List.range 98).flatMap (fun i => [.forkCheck 0, .forkAllocate 0 (Fin.ofNat 103 (i + 1))]) ++
    [.start 1, .start 2, .forkCheck 0, .forkCheck 1, .forkCheck 2, .forkAllocate 0 99,
      .forkAllocate 1 100, .forkAllocate 2 101, .start 100, .start 101]

theorem racing_starts_break_accounts :
    ∃ (tr : List (Transition (State (Fin 103)) (Action (Fin 103)))) (s : State (Fin 103)),
      Execution Steps initial tr s ∧ tr.map (fun x => x.event) = racingStarts ∧
      (s.processTable 0).nextThreadID = 808 ∧ (s.processTable 1).numThreadsAlive = 816 ∧
      livingThreads s 1 = {102} ∧ ¬ AccountsRight s := by
  obtain ⟨tr, s, h, hmap, -, htest⟩ := exists_of_run step (initial (T := Fin 103)) racingStarts
    (fun _ _ => true)
    (fun s => decide ((s.processTable 0).nextThreadID = 808 ∧
      (s.processTable 1).numThreadsAlive = 816 ∧ Lives s 102 1 ∧
      ∀ t, (s.thread t).process = 1 → t = 102))
    (by decide +kernel)
  obtain ⟨hnext, halive, hlives, honly⟩ := of_decide_eq_true htest
  have hthreads : livingThreads s 1 = {102} := by
    ext t
    refine ⟨fun ht => honly t ht.1, ?_⟩
    rintro rfl
    exact hlives
  refine ⟨tr, s, h, hmap, hnext, halive, hthreads, fun hr => ?_⟩
  have hcount := hr.alive 1 ⟨102, hlives⟩
  rw [halive, hthreads, Set.encard_singleton] at hcount
  norm_cast at hcount

/-- In every run in which each check of a Fork finds room for the Forks under way as well, the
threads of a process have different ids below the limit, and stacks of their own. -/
theorem thread_stacks {tr : List (Transition (State T) (Action T))}
    (h : Execution Steps initial tr s) (hroom : ∀ x ∈ tr, RoomForFork x.before x.event) :
    StacksRight s := by
  obtain ⟨hn, hw⟩ := numbered_run h hroom
  exact stacksRight hn hw

/-- A process with two threads. -/
theorem thread_stacks_twoThreads :
    ∃ (tr : List (Transition (State (Fin 2)) (Action (Fin 2)))) (s : State (Fin 2)),
      Execution Steps initial tr s ∧ (∀ x ∈ tr, RoomForFork x.before x.event) ∧
      tr.map (fun x => x.event) = [.startProcess 0 emptyProgram, .start 0, .forkCheck 0,
        .forkAllocate 0 1, .start 1] ∧
      ((s.thread 0).threadID = 0 ∧ (s.thread 1).threadID = 1) ∧ StacksRight s := by
  obtain ⟨tr, s, h, hmap, hcheck, htest⟩ := exists_of_run step (initial (T := Fin 2))
    [.startProcess 0 emptyProgram, .start 0, .forkCheck 0, .forkAllocate 0 1, .start 1] noFork
    (fun s => decide ((s.thread 0).threadID = 0 ∧ (s.thread 1).threadID = 1)) (by decide)
  have hroom : ∀ x ∈ tr, RoomForFork x.before x.event := fun x hx =>
    roomForFork_of_noFork (hcheck x hx)
  exact ⟨tr, s, h, hroom, hmap, of_decide_eq_true htest, thread_stacks h hroom⟩

/-- Ninety-eight Forks, and then two threads that both pass the check before the last id is taken. -/
def racingForks : List (Action ℕ) :=
  [.startProcess 0 emptyProgram, .start 0] ++
    (List.range 98).flatMap (fun i => [.forkCheck 0, .forkAllocate 0 (i + 1)]) ++
    [.start 1, .forkCheck 0, .forkCheck 1, .forkAllocate 0 99, .forkAllocate 1 100]

theorem racing_forks_past_the_limit : ∃ (tr : List (Transition (State ℕ) (Action ℕ))) (s : State ℕ),
    Execution Steps initial tr s ∧ tr.map (fun x => x.event) = racingForks ∧
    (s.thread 100).threadID = maxThreads ∧ ¬ StacksRight s := by
  obtain ⟨tr, s, h, hmap, -, htest⟩ := exists_of_run step (initial (T := ℕ)) racingForks
    (fun _ _ => true)
    (fun s => decide ((s.thread 100).status = .forked ∧ (s.thread 100).threadID = maxThreads))
    (by decide +kernel)
  obtain ⟨hforked, hid⟩ := of_decide_eq_true htest
  refine ⟨tr, s, h, hmap, hid, fun hr => ?_⟩
  have hlt := (hr.stack 100 (by rw [hforked]; decide)).index
  omega

end Nachos.Processes
