import Nachos.KernelSwapSlots
import Nachos.KernelThreadStacks

/-! The frames that Exit frees in a thread that is not the last of its process. The loop starts at
the page after the stack and goes by the frame numbers in the page table. -/
namespace Nachos.Multiprogramming
open Executions Paging

variable {T : Type*} [DecidableEq T] {s u : State T} {e : Executable} {id f : ℕ}

/-- The current thread calls Exit, with the stack that `Create_Kernel_Thread_Fork` recorded, and the
page table is as long as the constructor of `AddrSpace` made it. -/
structure Exiting (s : State T) (e : Executable) (id : ℕ) : Prop where
  user : (s.processes.thread s.paging.currentThread).status = .user
  others : 1 < (s.processes.processTable (process s)).numThreadsAlive
  lock : s.paging.iptLock = none
  table : (s.paging.pageTable (process s)).length = e.numPages
  stack : stackEnd s = Processes.numExecutablePages e + (id + 1) * 8

/-- The frame holds a page of the thread's stack. -/
def HoldsStack (s : State T) (e : Executable) (id f : ℕ) : Prop :=
  (s.paging.ipt f).valid = true ∧ (s.paging.ipt f).space = some (process s) ∧
    (s.paging.ipt f).virtualPage ∈ Processes.stackPages e id

/-- What is promised about the frames: those that hold the stack and are not in use are freed, and
nothing else changes. -/
structure ExitRight (s : State T) (e : Executable) (id : ℕ) : Prop where
  inBounds : ∀ i < 8, stackEnd s - i < e.numPages
  freed : ∃ u, exitSyscall s = .ok u ∧ Freed s.paging u.paging fun f =>
    HoldsStack s e id f ∧ (s.paging.ipt f).use = false

/-- The pages whose entries the loop reads. -/
def pagesRead (e : Executable) (id : ℕ) : Set ℕ :=
  Set.Ioc (Processes.numExecutablePages e + id * 8) (Processes.numExecutablePages e + (id + 1) * 8)

/-- The frames that the entries name are those of the stack, as far as they hold pages of the
process that are not in use. -/
structure NamesStack (s : State T) (e : Executable) (id : ℕ) : Prop where
  inBounds : id + 1 < maxThreads
  own : ∀ v ∈ pagesRead e id, ∀ f, Names s.paging (process s) v f →
    Releasable s.paging (process s) f → (s.paging.ipt f).virtualPage ∈ Processes.stackPages e id
  all : ∀ f, Releasable s.paging (process s) f →
    (s.paging.ipt f).virtualPage ∈ Processes.stackPages e id →
    ∃ v ∈ pagesRead e id, Names s.paging (process s) v f

omit [DecidableEq T] in
theorem Exiting.inBounds_iff (h : Exiting s e id) :
    (∀ i < 8, stackEnd s - i < e.numPages) ↔ id + 1 < maxThreads := by
  have hstack : divRoundUp userStackSize pageSize = 8 := by decide
  have hpages : e.numPages = Processes.numExecutablePages e + 100 * 8 := by
    rw [Executable.numPages, hstack]
    rfl
  rw [hpages, h.stack]
  unfold maxThreads
  refine ⟨fun hall => ?_, fun hid i _ => by omega⟩
  have := hall 0 (by omega)
  omega

omit [DecidableEq T] in
theorem Exiting.pagesRead_iff (h : Exiting s e id) {v : ℕ} :
    v ∈ pagesRead e id ↔ ∃ i < 8, v = stackEnd s - i := by
  rw [h.stack, pagesRead, Set.mem_Ioc]
  constructor
  · rintro ⟨hlo, hhi⟩
    exact ⟨Processes.numExecutablePages e + (id + 1) * 8 - v, by omega, by omega⟩
  · rintro ⟨i, hi, rfl⟩
    omega

theorem Exiting.exit_ok (h : Exiting s e id) (hin : id + 1 < maxThreads) :
    ∃ u, exitSyscall s = .ok u ∧ Freed s.paging u.paging fun f =>
      Releasable s.paging (process s) f ∧
        ∃ v ∈ pagesRead e id, Names s.paging (process s) v f := by
  have hlisted : ∀ i < 8, ∃ x, (s.paging.pageTable (process s))[stackEnd s - i]? = some x := by
    intro i hi
    have hlt := h.inBounds_iff.mpr hin i hi
    rw [← h.table] at hlt
    exact ⟨_, List.getElem?_eq_getElem hlt⟩
  have hlast : s.processes.threadStack (process s)
      (s.processes.thread s.paging.currentThread).threadID = some (stackEnd s) := by
    have hstack := h.stack
    unfold stackEnd at hstack ⊢
    cases hload : s.processes.threadStack (process s)
        (s.processes.thread s.paging.currentThread).threadID with
    | none =>
      rw [hload, Option.getD_none] at hstack
      omega
    | some last => rfl
  have hseven : 7 ≤ stackEnd s := by
    rw [h.stack]
    omega
  obtain ⟨p, hp⟩ := freeStack_ok hseven hlisted
  have hprocesses : ∃ w, Processes.exitSyscall s.processes s.paging.currentThread = .ok w := by
    have hone : (s.processes.processTable (process s)).numThreadsAlive ≠ 1 := h.others.ne'
    have hmore := h.others
    unfold process at hone hmore
    simp [Processes.exitSyscall, h.user, hone, hmore]
  obtain ⟨w, hw⟩ := hprocesses
  refine ⟨{ s with processes := w, paging := p }, ?_, ?_⟩
  · have hone : (s.processes.processTable (s.processes.thread
        s.paging.currentThread).process).numThreadsAlive ≠ 1 := h.others.ne'
    have hfree : freeStack s.paging (s.processes.thread s.paging.currentThread).process
        (stackEnd s) = .ok p := hp
    rw [process] at hlast
    unfold exitSyscall
    simp only [hw, if_neg hone, hlast, h.lock, ne_eq, not_true_eq_false, if_false, hfree]
  · refine (freeStack_spec hp).2.congr fun f => and_congr Iff.rfl ?_
    constructor
    · rintro ⟨i, hi, hn⟩
      exact ⟨_, h.pagesRead_iff.mpr ⟨i, hi, rfl⟩, hn⟩
    · rintro ⟨v, hv, hn⟩
      obtain ⟨i, hi, rfl⟩ := h.pagesRead_iff.mp hv
      exact ⟨i, hi, hn⟩

omit [DecidableEq T] in
/-- Only valid frames are freed, so the freed frames are determined by the result. -/
theorem Freed.unique {s u : Paging.State T ℕ} {F G : ℕ → Prop} (h : Freed s u F)
    (h' : Freed s u G) (hF : ∀ f, F f → (s.ipt f).valid = true)
    (hG : ∀ f, G f → (s.ipt f).valid = true) : ∀ f, F f ↔ G f := by
  have hone : ∀ {F G : ℕ → Prop}, Freed s u F → Freed s u G → (∀ f, F f → (s.ipt f).valid = true) →
      ∀ f, F f → G f := by
    intro F G h h' hF f hf
    by_contra hg
    have hentry := (h.freed f hf).1.symm.trans (h'.kept f hg).1
    have hvalid := congrArg (fun e => e.valid) hentry
    simp [hF f hf] at hvalid
  exact fun f => ⟨hone h h' hF f, hone h' h hG f⟩

/-- Exit of a thread that is not the last frees the frames of its stack, and these only, exactly
if the entries it reads name these frames. -/
theorem exit_frees_stack (h : Exiting s e id) : ExitRight s e id ↔ NamesStack s e id := by
  have hiff : ∀ f, HoldsStack s e id f ∧ (s.paging.ipt f).use = false ↔
      Releasable s.paging (process s) f ∧
        (s.paging.ipt f).virtualPage ∈ Processes.stackPages e id := by
    intro f
    unfold HoldsStack Releasable
    tauto
  constructor
  · rintro ⟨hbounds, u, hu, hfreed⟩
    have hin := h.inBounds_iff.mp hbounds
    obtain ⟨w, hw, hfreed'⟩ := h.exit_ok hin
    obtain rfl : u = w := Except.ok.inj (hu.symm.trans hw)
    have hsame := hfreed'.unique (hfreed.congr hiff) (fun f hf => hf.1.1) fun f hf => hf.1.1
    refine ⟨hin, fun v hv f hn hr => ((hsame f).mp ⟨hr, v, hv, hn⟩).2, fun f hr hf => ?_⟩
    exact ((hsame f).mpr ⟨hr, hf⟩).2
  · rintro ⟨hin, hown, hall⟩
    obtain ⟨u, hu, hfreed⟩ := h.exit_ok hin
    refine ⟨h.inBounds_iff.mpr hin, u, hu, hfreed.congr fun f => (Iff.trans ?_ (hiff f).symm)⟩
    refine and_congr_right fun hr => ⟨?_, hall f hr⟩
    rintro ⟨v, hv, hn⟩
    exact hown v hv f hn hr

/-- The second thread of a process is about to exit; its page 10 is in frame 0. -/
def secondThread : State Bool where
  processes := { (Processes.initial : Processes.State Bool) with
    processTable := fun _ => ⟨2, some 0, fun _ => 17, 2⟩
    thread := fun t => ⟨.user, 0, if t then 1 else 0, 0⟩ }
  paging := { Paging.initial oneProgram true with
    ipt := fun f => ⟨⟨10, 0, decide (f = 0), false, false, true⟩, some 0⟩
    mainMemoryBitmap := fun f => decide (f = 0) }
  clearing := fun _ => false

theorem exiting_secondThread : Exiting secondThread smallProgram 1 :=
  ⟨rfl, by decide, rfl, by simp [secondThread, Paging.initial, Executable.pageTable, oneProgram], rfl⟩

theorem exitRight_secondThread : ExitRight secondThread smallProgram 1 := by
  have hframe : ∀ f, Releasable secondThread.paging (process secondThread) f → f = 0 :=
    fun f hr => by simpa [secondThread] using hr.1
  have hpage : (secondThread.paging.ipt 0).virtualPage ∈ Processes.stackPages smallProgram 1 := by
    constructor <;> decide
  have hnames : Names secondThread.paging (process secondThread) 10 0 := by
    have hlt : 10 < smallProgram.numPages := by decide
    simp [Names, secondThread, Paging.initial, Executable.pageTable, oneProgram, hlt]
  refine (exit_frees_stack exiting_secondThread).mpr ⟨by decide, fun v _ f _ hr => ?_,
    fun f hr _ => ⟨10, by constructor <;> decide, ?_⟩⟩
  · rw [hframe f hr]
    exact hpage
  · rw [hframe f hr]
    exact hnames

/-- The pages of its stack were never used, so their entries name frame 0: the code page is there. -/
theorem code_page_freed : ∃ tr s, Execution (Handles (step oneProgram)) (initial oneProgram false)
      tr s ∧ Exiting s smallProgram 1 ∧ (s.paging.ipt 0).virtualPage = 0 ∧
    ¬ ExitRight s smallProgram 1 := by
  obtain ⟨tr, s, hex, -, htest⟩ := exists_of_trace (step oneProgram) (initial oneProgram false)
    (List.flatten [[.call .startProcess, .call .start, .paging (.write 0 [5])],
      List.replicate 6 (.paging (.handle 0)),
      [.call .forkCheck, .call (.forkAllocate true), .paging (.contextSwitch true), .call .start]])
    (fun r => decide ((r.2.processes.thread r.2.paging.currentThread).status = .user ∧
        1 < (r.2.processes.processTable (process r.2)).numThreadsAlive ∧
        r.2.paging.iptLock = none ∧ (r.2.paging.pageTable (process r.2)).length = 801 ∧
        stackEnd r.2 = 17 ∧ (r.2.paging.ipt 0).virtualPage = 0 ∧
        (r.2.paging.ipt 0).valid = true) &&
      (exitSyscall r.2).toOption.all fun u => !(u.paging.ipt 0).valid)
    (by decide +kernel)
  simp only [Bool.and_eq_true, decide_eq_true_eq] at htest
  obtain ⟨⟨huser, hothers, hlock, htable, hstack, hpage, hvalid⟩, hafter⟩ := htest
  have hexiting : Exiting s smallProgram 1 := ⟨huser, hothers, hlock, htable, hstack⟩
  refine ⟨tr, s, hex, hexiting, hpage, fun ⟨_, u, hu, hfreed⟩ => ?_⟩
  rw [hu] at hafter
  have hnot : ¬ (HoldsStack s smallProgram 1 0 ∧ (s.paging.ipt 0).use = false) := by
    rintro ⟨⟨-, -, hmem⟩, -⟩
    rw [hpage] at hmem
    exact absurd hmem.1 (by decide)
  have hkept := (hfreed.kept 0 hnot).1
  simp [Except.toOption, hkept, hvalid] at hafter

end Nachos.Multiprogramming
