import Nachos.KernelPaging

/-! The process table: `StartProcess` of `userprog/progtest.cc` and the Exec, Fork and Exit syscalls
of `userprog/exception.cc`. The table and its counters are read and written with `processIDLock`
held, so each critical section is one step; Fork has two. -/
namespace Nachos.Processes
open Executions Paging

def maxProcesses : ℕ := 100

/-- `processID` is `none` for -1. -/
structure ProcessEntry where
  numThreadsAlive : ℕ
  processID : Option ℕ
  /-- the page after the stack, by thread id -/
  threadStacks : Fin maxThreads → ℕ
  nextThreadID : ℕ

/-- The ints of an entry, in their order in memory. -/
inductive Field
  | numThreadsAlive
  | processID
  | threadStack (i : Fin maxThreads)
  | nextThreadID
  deriving DecidableEq, Repr

def entrySize : ℕ := maxThreads + 3

def fieldAt (offset : ℕ) : Field :=
  if offset = 0 then .numThreadsAlive
  else if offset = 1 then .processID
  else if h : offset - 2 < maxThreads then .threadStack ⟨offset - 2, h⟩
  else .nextThreadID

/-- Where `processTable[p].threadStacks[i]` is in the array of entries. An index past the end of
`threadStacks` is at `nextThreadID`, and then in the entries after. -/
def locate (p i : ℕ) : ℕ × Field := (p + (i + 2) / entrySize, fieldAt ((i + 2) % entrySize))

namespace ProcessEntry

def load (entry : ProcessEntry) : Field → Option ℕ
  | .numThreadsAlive => entry.numThreadsAlive
  | .processID => entry.processID
  | .threadStack i => entry.threadStacks i
  | .nextThreadID => entry.nextThreadID

def store (entry : ProcessEntry) (n : ℕ) : Field → ProcessEntry
  | .numThreadsAlive => { entry with numThreadsAlive := n }
  | .processID => { entry with processID := n }
  | .threadStack i => { entry with threadStacks := Function.update entry.threadStacks i n }
  | .nextThreadID => { entry with nextThreadID := n }

end ProcessEntry

/-- The pages below the stacks: `numExecutablePages` as the constructor of `AddrSpace` leaves it. -/
def numExecutablePages (e : Executable) : ℕ :=
  divRoundUp (e.codeSize + e.initDataSize + e.uninitDataSize) pageSize

inductive Status
  | notCreated
  /-- before its first step, after StartProcess or Exec -/
  | execed
  /-- before its first step, after Fork -/
  | forked
  | user
  /-- in Fork, between the check and the allocation -/
  | forking
  | exited
  deriving DecidableEq, Repr

structure ThreadEntry where
  status : Status
  process : ℕ
  threadID : ℕ
  stackReg : ℕ
  deriving DecidableEq, Repr

structure State (T : Type*) where
  processTable : ℕ → ProcessEntry
  /-- the program of an address space -/
  space : ℕ → Executable
  nextProcessID : ℕ
  numLivingProcesses : ℕ
  thread : T → ThreadEntry

inductive Action (T : Type*)
  | startProcess (t : T) (e : Executable)
  | exec (t child : T) (e : Executable)
  /-- the first step of a new thread -/
  | start (t : T)
  | forkCheck (t : T)
  | forkAllocate (t child : T)
  | exit (t : T)

inductive Stop
  | halted
  | unknownExitStatus
  /-- other variables than the table are read or written -/
  | outside
  /-- the thread is not at this point -/
  | notEnabled
  deriving DecidableEq, Repr

variable {T : Type*} [DecidableEq T] {s u : State T} {t c : T} {p : ℕ} {e : Executable}

def emptyProgram : Executable := ⟨0, 0, 0, 0, []⟩

def initial : State T where
  processTable := fun _ => ⟨0, none, fun _ => 0, 0⟩
  space := fun _ => emptyProgram
  nextProcessID := 0
  numLivingProcesses := 0
  thread := fun _ => ⟨.notCreated, 0, 0, 0⟩

namespace State

def setThread (s : State T) (t : T) (e : ThreadEntry) : State T :=
  { s with thread := Function.update s.thread t e }

def setStatus (s : State T) (t : T) (status : Status) : State T :=
  s.setThread t { s.thread t with status := status }

def setProcess (s : State T) (p : ℕ) (e : ProcessEntry) : State T :=
  { s with processTable := Function.update s.processTable p e }

/-- `processTable[p].threadStacks[i]`; `none` also for -1, where it is the `processID` of an entry that
is not in use. -/
def threadStack (s : State T) (p i : ℕ) : Option ℕ :=
  let (q, field) := locate p i
  if q < maxProcesses then (s.processTable q).load field else none

def setThreadStack (s : State T) (p i n : ℕ) : Except Stop (State T) :=
  let (q, field) := locate p i
  if q < maxProcesses then .ok (s.setProcess q ((s.processTable q).store n field))
  else .error .outside

/-- A thread of the process comes to life, with the next id. -/
def addThread (s : State T) (c : T) (p : ℕ) (status : Status) : State T :=
  let entry := s.processTable p
  (s.setProcess p { entry with
    numThreadsAlive := entry.numThreadsAlive + 1, nextThreadID := entry.nextThreadID + 1 }).setThread
    c ⟨status, p, entry.nextThreadID, 0⟩

end State

/-- A new address space with its first thread. -/
def newProcess (s : State T) (c : T) (e : Executable) : Except Stop (State T) :=
  if s.nextProcessID = maxProcesses then .error .halted
  else
    let p := s.nextProcessID
    let s := { s with
      space := Function.update s.space p e
      nextProcessID := p + 1
      numLivingProcesses := s.numLivingProcesses + 1 }
    let s := s.setProcess p { s.processTable p with processID := some p }
    .ok (s.addThread c p .execed)

def startProcess (s : State T) (t : T) (e : Executable) : Except Stop (State T) :=
  if (s.thread t).status = .notCreated then newProcess s t e else .error .notEnabled

def execSyscall (s : State T) (t child : T) (e : Executable) : Except Stop (State T) :=
  if (s.thread t).status = .user ∧ (s.thread child).status = .notCreated then newProcess s child e
  else .error .notEnabled

/-- The stack of a thread ends at this page: `InitRegisters` and `Create_Kernel_Thread_Fork`. -/
def startAt (s : State T) (t : T) (stackEnd : ℕ) : Except Stop (State T) :=
  let thread := s.thread t
  (s.setThreadStack thread.process thread.threadID stackEnd).map fun s =>
    s.setThread t { thread with status := .user, stackReg := stackEnd * pageSize - 16 }

def start (s : State T) (t : T) : Except Stop (State T) :=
  let numPages := numExecutablePages (s.space (s.thread t).process)
  match (s.thread t).status with
  | .execed => startAt s t (numPages + (0 + 1) * 8)
  | .forked => startAt s t (numPages + ((s.thread t).threadID + 1) * 8)
  | _ => .error .notEnabled

def forkCheck (s : State T) (t : T) : Except Stop (State T) :=
  if (s.thread t).status = .user then
    if (s.processTable (s.thread t).process).nextThreadID = maxThreads then .error .halted
    else .ok (s.setStatus t .forking)
  else .error .notEnabled

def forkAllocate (s : State T) (t child : T) : Except Stop (State T) :=
  if (s.thread t).status = .forking ∧ (s.thread child).status = .notCreated then
    .ok ((s.setStatus t .user).addThread child (s.thread t).process .forked)
  else .error .notEnabled

def exitSyscall (s : State T) (t : T) : Except Stop (State T) :=
  if (s.thread t).status = .user then
    let p := (s.thread t).process
    let entry := s.processTable p
    if s.numLivingProcesses = 1 ∧ entry.numThreadsAlive = 1 then .error .halted
    else if s.numLivingProcesses > 1 ∧ entry.numThreadsAlive = 1 then
      .ok ({ s with numLivingProcesses := s.numLivingProcesses - 1 }.setStatus t .exited)
    else if entry.numThreadsAlive > 1 then
      .ok ((s.setProcess p { entry with numThreadsAlive := entry.numThreadsAlive - 1 }).setStatus t
        .exited)
    else .error .unknownExitStatus
  else .error .notEnabled

def step (s : State T) : Action T → Except Stop (State T)
  | .startProcess t e => startProcess s t e
  | .exec t child e => execSyscall s t child e
  | .start t => start s t
  | .forkCheck t => forkCheck s t
  | .forkAllocate t child => forkAllocate s t child
  | .exit t => exitSyscall s t

def Steps (s : State T) (a : Action T) (u : State T) : Prop := step s a = .ok u

/-- The thread was created in this process and has not exited. -/
def Lives (s : State T) (t : T) (p : ℕ) : Prop :=
  (s.thread t).process = p ∧ (s.thread t).status ≠ .notCreated ∧ (s.thread t).status ≠ .exited

omit [DecidableEq T] in
instance : Decidable (Lives s t p) := inferInstanceAs (Decidable (_ ∧ _ ∧ _))

/-! What a step does to threads and table entries. -/

/-- A thread is born into a process that has these counters afterwards. -/
structure Born (s u : State T) (c : T) (p : ℕ) : Prop where
  new : (s.thread c).status = .notCreated
  child : (u.thread c).process = p ∧ (u.thread c).threadID = (s.processTable p).nextThreadID ∧
    (u.thread c).status ≠ .notCreated ∧ (u.thread c).status ≠ .exited ∧
    (u.thread c).status ≠ .forking
  others : ∀ t, t ≠ c → (u.thread t).process = (s.thread t).process ∧
    (u.thread t).threadID = (s.thread t).threadID ∧
    ((u.thread t).status = .notCreated ↔ (s.thread t).status = .notCreated) ∧
    ((u.thread t).status = .exited ↔ (s.thread t).status = .exited)
  alive : (u.processTable p).numThreadsAlive = (s.processTable p).numThreadsAlive + 1
  next : (u.processTable p).nextThreadID = (s.processTable p).nextThreadID + 1
  entries : ∀ q, q ≠ p → u.processTable q = s.processTable q

/-- Threads go on; nobody is born and nobody exits. -/
structure GoesOn (s u : State T) : Prop where
  thread : ∀ t, (u.thread t).process = (s.thread t).process ∧
    (u.thread t).threadID = (s.thread t).threadID ∧
    ((u.thread t).status = .notCreated ↔ (s.thread t).status = .notCreated) ∧
    ((u.thread t).status = .exited ↔ (s.thread t).status = .exited)
  counters : ∀ q, (u.processTable q).numThreadsAlive = (s.processTable q).numThreadsAlive ∧
    (u.processTable q).nextThreadID = (s.processTable q).nextThreadID
  processes : u.nextProcessID = s.nextProcessID ∧ u.numLivingProcesses = s.numLivingProcesses

theorem locate_lt {i : ℕ} (h : i < maxThreads) : locate p i = (p, .threadStack ⟨i, h⟩) := by
  have hlt : i + 2 < entrySize := by
    rw [entrySize]
    omega
  simp [locate, fieldAt, Nat.div_eq_of_lt hlt, Nat.mod_eq_of_lt hlt, h]

omit [DecidableEq T] in
/-- A write inside `threadStacks` changes no counter. -/
theorem counters_setThreadStack {i n : ℕ} (hi : i < maxThreads) (h : s.setThreadStack p i n = .ok u)
    (q : ℕ) : (u.processTable q).numThreadsAlive = (s.processTable q).numThreadsAlive ∧
      (u.processTable q).nextThreadID = (s.processTable q).nextThreadID := by
  unfold State.setThreadStack at h
  rw [locate_lt hi] at h
  dsimp only at h
  split_ifs at h
  obtain rfl := Except.ok.inj h
  by_cases hq : q = p
  · subst hq
    simp [State.setProcess, ProcessEntry.store]
  · simp [State.setProcess, hq]

omit [DecidableEq T] in
/-- A write at any index changes the table only. -/
theorem frame_setThreadStack {i n : ℕ} (h : s.setThreadStack p i n = .ok u) :
    ∃ table, u = { s with processTable := table } := by
  unfold State.setThreadStack at h
  dsimp only at h
  split_ifs at h
  obtain rfl := Except.ok.inj h
  exact ⟨_, rfl⟩

theorem setStatus_thread (s : State T) (t x : T) (status : Status) :
    (s.setStatus t status).thread x =
      if x = t then { s.thread t with status := status } else s.thread x := by
  by_cases hx : x = t
  · subst hx
    simp [State.setStatus, State.setThread]
  · simp [State.setStatus, State.setThread, hx]

theorem born_addThread {status : Status} (hc : (s.thread c).status = .notCreated)
    (hs : status = .execed ∨ status = .forked) : Born s (s.addThread c p status) c p := by
  refine ⟨hc, ?_, fun t ht => ?_, ?_, ?_, fun q hq => ?_⟩
  · rcases hs with rfl | rfl <;> simp [State.addThread, State.setThread, State.setProcess]
  · simp [State.addThread, State.setThread, State.setProcess, ht]
  · simp [State.addThread, State.setThread, State.setProcess]
  · simp [State.addThread, State.setThread, State.setProcess]
  · simp [State.addThread, State.setThread, State.setProcess, hq]

end Nachos.Processes
