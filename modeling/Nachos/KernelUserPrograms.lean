import Nachos.KernelUserCopy
import Nachos.MipsRestarts

/-! User programs in paged memory: `Machine::OneInstruction` on top of `ReadMem` and `WriteMem`,
with the page fault handler, interrupts and context switches in between. What the programs see is a
processor of their own and a memory in which no page ever moves. -/
namespace Nachos.UserPrograms
open Executions Mips Paging WriteBack

/-! `ReadMem` and `WriteMem` on a host that is little endian. A `char` has a sign. -/

def loaded (bytes : List UInt8) : Word :=
  match bytes with
  | [b] => b.toBitVec.signExtend 32
  | _ => .ofNat 32 (bytes.foldr (fun b n => b.toNat + 256 * n) 0)

def stored (size : ℕ) (value : Word) : List UInt8 :=
  (List.range size).map fun i => .ofNat (value.toNat / 256 ^ i)

/-- An address that is negative as an `int` has no place in the model of the page tables: the run
ends there, as at the exceptions that halt the machine. -/
def exceptionOf : Stop → ExceptionType
  | .addressError => .addressError
  | .readOnly => .readOnly
  | _ => .busError

variable {Thread Space : Type} [DecidableEq Thread] [DecidableEq Space]

omit [DecidableEq Space] in
/-- An access that does not get through does not depend on what it is for. -/
theorem access_error {s : State Thread Space} {address size : ℕ} {writing : Bool} {e : Stop}
    {perform perform' : State Thread Space → ℕ → State Thread Space × Option (List UInt8)}
    (h : access s address size writing perform = .error e) :
    access s address size writing perform' = .error e := by
  simp only [access] at h ⊢
  split_ifs at h ⊢ with huser
  · cases ht : translate s address size writing with
    | error e' => simpa only [ht] using h
    | ok o =>
      rw [ht] at h
      cases o <;> cases h
  · exact h

omit [DecidableEq Space] in
theorem access_fault {s s' : State Thread Space} {address size : ℕ} {writing : Bool}
    {perform perform' : State Thread Space → ℕ → State Thread Space × Option (List UInt8)}
    (hperform : ∀ u p, (perform u p).2.isSome)
    (h : access s address size writing perform = .ok (s', none)) :
    access s address size writing perform' = .ok (s', none) := by
  simp only [access] at h ⊢
  split_ifs at h ⊢ with huser
  cases ht : translate s address size writing with
  | error e => simp [ht] at h
  | ok o =>
    rw [ht] at h
    cases o with
    | none => exact h
    | some x =>
      have hsome := hperform x.1 x.2
      rw [show perform x.1 x.2 = (s', none) from Except.ok.inj h] at hsome
      cases hsome

@[simp]
theorem length_stored (size : ℕ) (value : Word) : (stored size value).length = size := by
  simp [stored]

def tlbBus : Bus (State Thread Space) where
  readMem s address size :=
    match Paging.readMem s address.toNat size with
    | .error e => .error (exceptionOf e)
    | .ok (_, none) => .error .pageFault
    | .ok (s, some bytes) => .ok (loaded bytes, s)
  writeMem s address size value :=
    match Paging.writeMem s address.toNat (stored size value) with
    | .error e => .error (exceptionOf e)
    | .ok (_, none) => .error .pageFault
    | .ok (s, some _) => .ok s
  translated {s address size v w e} h := by
    simp only [Paging.writeMem, length_stored] at h ⊢
    split at h
    · rw [access_error ‹_›]
      exact h
    · rw [access_fault (fun _ _ => rfl) ‹_›]
      exact h
    · cases h

/-- The registers of the machine, and those of the threads that do not run. -/
structure System (Thread Space : Type) where
  paging : State Thread Space
  registers : Registers
  userRegisters : Thread → Registers

inductive Action (Thread : Type)
  /-- the current thread executes an instruction; a system call would return `rv` -/
  | instruction (rv : Word)
  /-- it goes on in `HandlePageFault` -/
  | handle (random : ℕ)
  /-- `CheckIfDue` lets the delayed load arrive before it invokes an interrupt handler -/
  | interrupt
  | contextSwitch (next : Thread)

/-- The end of `ExceptionHandler` after a system call. -/
def returned (rv : Word) (r : Registers) : Registers :=
  let r := set r 2 rv
  let r := set r prevPCReg (r pcReg)
  let r := set r pcReg (r nextPCReg)
  set r nextPCReg (r pcReg + 4)

/-- `ExceptionHandler`. The system calls are those that touch neither the memory nor the page
tables; `HandlePageFault` begins with the next action. -/
def exceptionHandler (rv : Word) :
    ExceptionType → Machine (State Thread Space) → Option (Machine (State Thread Space))
  | .syscall, s => some { s with registers := returned rv s.registers }
  | .pageFault, s => some { s with
      memory := s.memory.setPhase (.faulted ((s.registers badVAddrReg).toNat / pageSize)) }
  | _, _ => none

/-- Why a step does not go through. -/
inductive Halt
  | fault (f : Fault)
  | stop (s : Stop)
  deriving DecidableEq, Repr

namespace System

/-- One step. A context switch is `SaveUserState`, `SaveState`, `RestoreUserState` and
`RestoreState`. -/
def step (cfg : Config Thread Space) (s : System Thread Space) :
    Action Thread → Except Halt (System Thread Space)
  | .instruction rv =>
    match oneInstruction tlbBus (exceptionHandler rv) ⟨s.registers, s.paging⟩ with
    | .ok ⟨registers, paging⟩ => .ok { s with registers, paging }
    | .error f => .error (.fault f)
  | .handle random =>
    match handlePageFault cfg s.paging random with
    | .ok paging => .ok { s with paging }
    | .error e => .error (.stop e)
  | .interrupt =>
    match delayedLoad s.registers 0 0 with
    | .ok registers => .ok { s with registers }
    | .error f => .error (.fault f)
  | .contextSwitch next =>
    let userRegisters := Function.update s.userRegisters s.paging.currentThread s.registers
    .ok ⟨contextSwitch s.paging next, userRegisters next, userRegisters⟩

def initial (cfg : Config Thread Space) (boot : Thread → Cpu) (first : Thread) :
    System Thread Space where
  paging := Paging.initial cfg first
  registers := (boot first).toRegisters
  userRegisters t := (boot t).toRegisters

/-- The registers of a thread, wherever they are. -/
def registersOf (s : System Thread Space) (t : Thread) : Registers :=
  if t = s.paging.currentThread then s.registers else s.userRegisters t

end System

/-! What the programs see. -/

structure Programs (Thread Space : Type) where
  cpu : Thread → Cpu
  memory : Space → ℕ → Option UInt8

/-- The memory of an address space, where the bytes that neither the executable nor a program
has put there are open. -/
def flatBus (a : Space) : Bus (Space → ℕ → Option UInt8) where
  readMem memory address size :=
    if address.toNat % size ≠ 0 then .error .addressError
    else if ∀ i < size, (memory a (address.toNat + i)).isSome then
      .ok (loaded ((List.range size).map fun i => (memory a (address.toNat + i)).getD 0), memory)
    else .error .pageFault
  writeMem memory address size value :=
    if address.toNat % size ≠ 0 then .error .addressError
    else .ok fun b va =>
      (if a = b ∧ address.toNat ≤ va then (stored size value)[va - address.toNat]? else none).or
        (memory b va)
  translated {memory address size v w e} h := by
    split_ifs at h ⊢
    exact h

def returnedCpu (rv : Word) (c : Cpu) : Cpu :=
  { c.write 2 rv with prevPC := c.pc, pc := c.nextPC, nextPC := c.nextPC + 4 }

inductive Course (Thread Space : Type)
  | reaches (u : Programs Thread Space)
  | halts
  /-- an instruction reads a byte that is open, or does not wait for a load -/
  | undetermined
  /-- the simulator has another result for an instruction than the architecture -/
  | slips

/-- What follows is not said. -/
def Course.Ends (c : Course Thread Space) : Prop := c = .undetermined ∨ c = .slips

namespace Programs

def initial (cfg : Config Thread Space) (boot : Thread → Cpu) : Programs Thread Space where
  cpu := boot
  memory a := content (cfg.executable a)

open Classical in
/-- An instruction of thread `t`, as the architecture has it. -/
noncomputable def step (cfg : Config Thread Space) (u : Programs Thread Space) (t : Thread)
    (rv : Word) : Course Thread Space :=
  let flat := flatBus (cfg.spaceOf t)
  if Waits flat (u.cpu t) u.memory then
    if Slipping flat (u.cpu t) u.memory then .slips
    else match Architecture.oneInstruction flat (u.cpu t) u.memory with
      | .next c memory => .reaches ⟨Function.update u.cpu t c, memory⟩
      | .trap .syscall c memory => .reaches ⟨Function.update u.cpu t (returnedCpu rv c), memory⟩
      | .trap .pageFault _ _ => .undetermined
      | .trap _ _ _ => .halts
  else .undetermined

noncomputable def run (cfg : Config Thread Space) (u : Programs Thread Space) :
    List (Thread × Word) → Course Thread Space
  | [] => .reaches u
  | (t, rv) :: rest =>
    match u.step cfg t rv with
    | .reaches u => u.run cfg rest
    | c => c

end Programs

/-- The instruction that a step completes. -/
def instructionOf (x : Transition (System Thread Space) (Action Thread)) : Option (Thread × Word) :=
  match x.event with
  | .instruction rv =>
    if x.after.paging.phase x.before.paging.currentThread = .user then
      some (x.before.paging.currentThread, rv)
    else none
  | _ => none

/-- The step of the paging machine, in a step of a handler. -/
def pagingStep (x : Transition (System Thread Space) (Action Thread)) : PagingStep Thread Space :=
  ⟨x.before.paging, (match x.event with
    | .handle random => .handle random
    | _ => .contextSwitch x.before.paging.currentThread, none), x.after.paging⟩

/-! One access. -/

variable {cfg : Config Thread Space} {s s' : State Thread Space} {t : Thread} {rv : Word}
  {memory : Space → ℕ → Option UInt8}

/-- The state of the paging machine while thread `t` runs user code. -/
structure View (cfg : Config Thread Space) (t : Thread) (s : State Thread Space)
    (memory : Space → ℕ → Option UInt8) : Prop where
  inv : Inv cfg s
  coherent : Coherent (cacheOf cfg s) (known memory)
  thread : s.currentThread = t
  user : s.phase t = .user

omit [DecidableEq Space] in
theorem access_spec {address size : ℕ} {writing : Bool} {out : List UInt8}
    {perform : State Thread Space → ℕ → State Thread Space × Option (List UInt8)}
    (hperform : ∀ u p, (perform u p).1.currentThread = u.currentThread ∧
      (perform u p).1.phase = u.phase)
    (hs : access s address size writing perform = .ok (s', some out)) :
    address % size = 0 ∧ s'.currentThread = s.currentThread ∧ s'.phase = s.phase := by
  obtain ⟨-, hsize, ⟨-, -, hnone⟩ | ⟨u, p, i, ht, hout⟩⟩ := access_cases hs
  · cases hnone
  · have hsame := sameSlots_translated ht
    obtain ⟨hthread, hphase⟩ := hperform u p
    rw [hout] at hthread hphase
    refine ⟨?_, hthread.trans hsame.thread, hphase.trans hsame.phase⟩
    rcases hsize with rfl | rfl | rfl
    · exact Nat.mod_one _
    · exact ht.aligned.2 rfl
    · exact ht.aligned.1 rfl

omit [DecidableEq Space] in
theorem bytes_of_known {address size : ℕ} {bytes : List UInt8} (hv : View cfg t s memory)
    (hs : Paging.readMem s address size = .ok (s', some bytes))
    (hknown : ∀ i < size, (memory (cfg.spaceOf t) (address + i)).isSome) :
    bytes = (List.range size).map fun i => (memory (cfg.spaceOf t) (address + i)).getD 0 := by
  obtain ⟨-, -, hread⟩ := hv.inv.read hs
  obtain ⟨f, hline, hpage, rfl⟩ := hread bytes rfl
  refine List.map_congr_left fun i hi => ?_
  rw [List.mem_range] at hi
  obtain ⟨b, hb⟩ := Option.isSome_iff_exists.mp (hknown i hi)
  rw [hv.thread] at hline
  rw [hb, Option.getD_some]
  exact hv.coherent.cached (o := ⟨address % pageSize + i, by omega⟩) hline
    (by simpa only [known, address_split] using hb)

omit [DecidableEq Space] in
theorem tlbBus_read {a w : Word} {k : ℕ} (h : tlbBus.readMem s a k = .ok (w, s')) :
    ∃ bytes, Paging.readMem s a.toNat k = .ok (s', some bytes) ∧ w = loaded bytes := by
  simp only [tlbBus] at h
  split at h
  · cases h
  · cases h
  · cases h
    exact ⟨_, ‹_›, rfl⟩

omit [DecidableEq Space] in
theorem tlbBus_write {a w : Word} {k : ℕ} (h : tlbBus.writeMem s a k w = .ok s') :
    ∃ bytes, Paging.writeMem s a.toNat (stored k w) = .ok (s', some bytes) := by
  simp only [tlbBus] at h
  split at h
  · cases h
  · cases h
  · cases h
    exact ⟨_, ‹_›⟩

omit [DecidableEq Space] in
theorem tlbBus_fault {a : Word} (h : Faults tlbBus s a) :
    (∃ k u, Paging.readMem s a.toNat k = .ok (u, none)) ∨
      ∃ bytes u, Paging.writeMem s a.toNat bytes = .ok (u, none) := by
  rcases h with ⟨size, hread⟩ | ⟨size, value, hwrite⟩
  · simp only [tlbBus] at hread
    split at hread
    · rename_i e _
      cases e <;> cases hread
    · exact .inl ⟨_, _, ‹_›⟩
    · cases hread
  · simp only [tlbBus] at hwrite
    split at hwrite
    · rename_i e _
      cases e <;> cases hwrite
    · exact .inr ⟨_, _, ‹_›⟩
    · cases hwrite

omit [DecidableEq Space] in
theorem write_keeps {a w : Word} {k : ℕ} (h : tlbBus.writeMem s a k w = .ok s') :
    a.toNat % k = 0 ∧ s'.currentThread = s.currentThread ∧ s'.phase = s.phase := by
  obtain ⟨bytes, hs⟩ := tlbBus_write h
  have hspec := access_spec (fun _ _ => ⟨rfl, rfl⟩) hs
  rwa [show (stored k w).length = k by simp [stored]] at hspec

omit [DecidableEq Space] in
theorem stored_inj {v w : Word} (h : stored 4 v = stored 4 w) : v = w := by
  have hbyte : ∀ i < 4, v.toNat / 256 ^ i % 256 = w.toNat / 256 ^ i % 256 := by
    intro i hi
    have hi' := congrArg (fun bytes => (bytes.getD i 0).toNat) h
    simpa [stored, hi] using hi'
  have h0 := hbyte 0 (by decide)
  have h1 := hbyte 1 (by decide)
  have h2 := hbyte 2 (by decide)
  have h3 := hbyte 3 (by decide)
  have hv := v.isLt
  have hw := w.isLt
  exact BitVec.eq_of_toNat_eq (by omega)

theorem writeMem_keeps (a : Space) {memory memory' : Space → ℕ → Option UInt8} {address v w : Word}
    (hv : (flatBus a).writeMem memory address 4 v = .ok memory')
    (hw : (flatBus a).writeMem memory address 4 w = .ok memory') : v = w := by
  simp only [flatBus] at hv hw
  split_ifs at hv hw
  refine stored_inj (List.ext_getElem? fun i => ?_)
  have hi := congrFun (congrFun (Except.ok.inj (hv.trans hw.symm)) a) (address.toNat + i)
  by_cases hlt : i < 4
  · have hv4 : i < (stored 4 v).length := by simpa using hlt
    have hw4 : i < (stored 4 w).length := by simpa using hlt
    simp only [true_and, Nat.le_add_right, if_true, Nat.add_sub_cancel_left] at hi
    rw [List.getElem?_eq_getElem hv4, List.getElem?_eq_getElem hw4] at hi ⊢
    simpa using hi
  · rw [List.getElem?_eq_none (by simpa using hlt), List.getElem?_eq_none (by simpa using hlt)]

/-- An access on the paged memory gives what it gives on the flat one. -/
theorem simulates_tlbBus (cfg : Config Thread Space) (t : Thread) :
    Simulates tlbBus (flatBus (cfg.spaceOf t)) (View cfg t) := by
  refine ⟨?_, ?_, writeMem_keeps _, ?_, ?_⟩
  · intro s s' memory a k w hv hread
    obtain ⟨bytes, hs, rfl⟩ := tlbBus_read hread
    obtain ⟨hal, hthread, hphase⟩ := access_spec (fun _ _ => ⟨rfl, rfl⟩) hs
    obtain ⟨hinv, hsame, -⟩ := hv.inv.read hs
    refine ⟨⟨hinv, hv.coherent.same hsame, hthread.trans hv.thread, hphase ▸ hv.user⟩, ?_⟩
    simp only [flatBus, if_neg (not_not.mpr hal)]
    by_cases hknown : ∀ i < k, (memory (cfg.spaceOf t) (a.toNat + i)).isSome
    · rw [if_pos hknown, bytes_of_known hv hs hknown]
      exact .inr rfl
    · rw [if_neg hknown]
      exact .inl rfl
  · intro s s' memory a k w hv hwrite
    obtain ⟨hal, hthread, hphase⟩ := write_keeps hwrite
    obtain ⟨bytes, hs⟩ := tlbBus_write hwrite
    have hstep : Paging.step cfg s (.write a.toNat (stored k w)) = .ok (s', some bytes) := hs
    have hco := coherent_step hv.inv hstep (by rintro _ _ _ _ ⟨⟩) hv.coherent
    simp only [flatBus, if_neg (not_not.mpr hal)]
    refine .inr ⟨_, rfl, hv.inv.step hstep, ?_, hthread.trans hv.thread, hphase ▸ hv.user⟩
    simpa only [wrote, hv.thread] using hco
  · intro s a k hread
    simp only [tlbBus] at hread
    split at hread
    · rename_i e _
      cases e <;> cases hread
    · cases hread
    · cases hread
  · intro s a k w hwrite
    simp only [tlbBus] at hwrite
    split at hwrite
    · rename_i e _
      cases e <;> cases hwrite
    · cases hwrite
    · cases hwrite

omit [DecidableEq Space] in
/-- A page fault is about a page that no slot shows, and the handler begins with it. -/
theorem View.fault {a : Word} (hv : View cfg t s memory) (hf : Faults tlbBus s a) :
    Inv cfg (s.setPhase (.faulted (a.toNat / pageSize))) ∧
      Coherent (cacheOf cfg (s.setPhase (.faulted (a.toNat / pageSize)))) (known memory) := by
  have hslots : ∀ i, (s.tlb i).valid = true → (s.tlb i).virtualPage ≠ a.toNat / pageSize := by
    rcases tlbBus_fault hf with ⟨k, u, hs⟩ | ⟨bytes, u, hs⟩
    · obtain ⟨-, -, ⟨hnone, -, -⟩ | ⟨w, p, i, -, hout⟩⟩ := access_cases hs
      · exact translate_none hnone
      · cases hout
    · obtain ⟨-, -, ⟨hnone, -, -⟩ | ⟨w, p, i, -, hout⟩⟩ := access_cases hs
      · exact translate_none hnone
      · cases hout
  obtain ⟨hinv, hsame⟩ := hv.inv.fault (hv.thread ▸ hv.user) hslots
  exact ⟨hinv, hv.coherent.same hsame⟩

/-! The registers. -/

theorem returned_toRegisters (rv : Word) (c : Cpu) :
    returned rv c.toRegisters = (returnedCpu rv c).toRegisters := by
  simp only [returned]
  rw [set_toRegisters c (by decide) (by decide), set_prevPC, set_pc, set_nextPC]
  rfl

theorem alike_returned {c c' : Cpu} (h : Alike c c') (a : Word) (rv : Word) :
    Alike (returnedCpu rv (c.interrupted a)) (returnedCpu rv (c'.interrupted a)) := by
  have hwritten := (h.interrupted a).write (show 2 < 32 by decide)
    (fun h2 => absurd h2 (by simp [Cpu.interrupted])) rv
  exact ⟨hwritten.arrived, hwritten.pending, hwritten.hi, hwritten.lo, h.nextPC,
    congrArg (· + 4) h.nextPC, h.pc⟩

/-- The registers of a thread are those that its program sees. -/
def Runs (u : Programs Thread Space) (t : Thread) (r : Registers) : Prop :=
  ∃ c, r = c.toRegisters ∧ Alike c (u.cpu t)

/-- The machine shows the programs what they see. -/
structure Matches (cfg : Config Thread Space) (s : System Thread Space)
    (u : Programs Thread Space) : Prop where
  inv : Inv cfg s.paging
  coherent : Coherent (cacheOf cfg s.paging) (known u.memory)
  registers : ∀ t, Runs u t (s.registersOf t)

omit [DecidableEq Space] in
/-- A step of the programs that the current thread of the machine has made. -/
theorem Matches.update {s : System Thread Space} {u : Programs Thread Space} {c c' : Cpu}
    {p : State Thread Space} (h : Matches cfg s u) (hinv : Inv cfg p)
    (hco : Coherent (cacheOf cfg p) (known memory)) (hthread : p.currentThread = s.paging.currentThread)
    (ha : Alike c c') :
    Matches cfg { s with registers := c.toRegisters, paging := p }
      ⟨Function.update u.cpu s.paging.currentThread c', memory⟩ := by
  refine ⟨hinv, hco, fun t => ?_⟩
  by_cases ht : t = s.paging.currentThread
  · refine ⟨c, by rw [System.registersOf, if_pos (ht.trans hthread.symm)], ?_⟩
    rw [ht]
    simpa only [Function.update_self] using ha
  · obtain ⟨d, hd, hd'⟩ := h.registers t
    rw [System.registersOf, if_neg ht] at hd
    refine ⟨d, by rw [System.registersOf, if_neg (by rwa [hthread]), hd], ?_⟩
    simpa [Function.update_of_ne ht] using hd'

/-! Steps. -/

omit [DecidableEq Space] in
/-- Only a thread that is not in the kernel executes instructions. -/
theorem phase_user {c : Cpu} {m : Machine (State Thread Space)}
    (hok : oneInstruction tlbBus (exceptionHandler rv) ⟨c.toRegisters, s⟩ = .ok m) :
    s.phase s.currentThread = .user := by
  by_contra huser
  have haccess : Paging.readMem s (c.toRegisters pcReg).toNat 4 = .error .notEnabled := by
    rw [Paging.readMem, access, if_neg fun h => huser h.1]
  have hfetch : tlbBus.readMem s (c.toRegisters pcReg) 4 = .error .busError := by
    simp only [tlbBus, haccess, exceptionOf]
  simp only [oneInstruction, hfetch, raiseException_eq] at hok
  cases hok

/-- What an instruction leaves: a page fault for the handler, or user code. -/
theorem View.ends {c : Cpu} {m : Machine (State Thread Space)} (hv : View cfg t s memory)
    (hok : oneInstruction tlbBus (exceptionHandler rv) ⟨c.toRegisters, s⟩ = .ok m) :
    m.memory.phase t = .user ∨ ∃ a p, View cfg t p memory ∧ Faults tlbBus p a ∧
      m = ⟨(c.interrupted a).toRegisters, p.setPhase (.faulted (a.toNat / pageSize))⟩ := by
  rcases oneInstruction_ends (P := fun p => p.phase t = .user) (Q := fun p => View cfg t p memory)
      (fun hp hread => by
        have hv' := ((simulates_tlbBus cfg t).read hp.2 hread).1
        exact ⟨hv'.user, hv'⟩)
      (fun hp hwrite => by rwa [(write_keeps hwrite).2.2]) ⟨hv.user, hv⟩ hok with
    h | ⟨which, a, p, hf, hp, hk⟩
  · exact .inl h
  · cases which with
    | pageFault =>
      cases hk
      exact .inr ⟨a, p, hp, hf rfl, rfl⟩
    | syscall =>
      cases hk
      exact .inl hp.user
    | _ => cases hk

theorem Matches.instruction {s s' : System Thread Space} {u : Programs Thread Space}
    (h : Matches cfg s u) (hs : s.step cfg (.instruction rv) = .ok s') :
    s'.paging.phase s.paging.currentThread = .user ∧
        ((u.step cfg s.paging.currentThread rv).Ends ∨
          ∃ u', u.step cfg s.paging.currentThread rv = .reaches u' ∧ Matches cfg s' u') ∨
      s'.paging.phase s.paging.currentThread ≠ .user ∧ Matches cfg s' u := by
  obtain ⟨c, hc, ha⟩ := h.registers s.paging.currentThread
  rw [System.registersOf, if_pos rfl] at hc
  simp only [System.step, hc] at hs
  cases hok : oneInstruction tlbBus (exceptionHandler rv) ⟨c.toRegisters, s.paging⟩ with
  | error f =>
    rw [hok] at hs
    cases hs
  | ok m =>
    rw [hok] at hs
    obtain ⟨r, p⟩ := m
    cases hs
    have hv : View cfg s.paging.currentThread s.paging u.memory :=
      ⟨h.inv, h.coherent, rfl, phase_user hok⟩
    rcases hv.ends hok with huser | ⟨a, p', hv', hf, hm⟩
    · refine .inl ⟨huser, ?_⟩
      by_cases hwaits : Waits (flatBus (cfg.spaceOf s.paging.currentThread))
          (u.cpu s.paging.currentThread) u.memory
      · by_cases hslips : Slipping (flatBus (cfg.spaceOf s.paging.currentThread))
            (u.cpu s.paging.currentThread) u.memory
        · simp only [Programs.step, if_pos hwaits, if_pos hslips]
          exact .inl (.inr rfl)
        simp only [Programs.step, if_pos hwaits, if_neg hslips]
        rcases oneInstruction_follows (simulates_tlbBus cfg _) ha hv hwaits hslips hok with
          ⟨d, n, hflat⟩ | ⟨x, hx, hdone⟩
        · rw [hflat]
          exact .inl (.inl rfl)
        · generalize Architecture.oneInstruction (flatBus (cfg.spaceOf s.paging.currentThread))
            (u.cpu s.paging.currentThread) u.memory = y at hx ⊢
          cases hx with
          | fault _ hv' _ =>
            cases hdone
            exact absurd huser (by simp [State.setPhase, hv'.thread])
          | @halts which _ _ _ hp hsys =>
            cases which <;> first | exact absurd rfl hp | exact absurd rfl hsys | cases hdone
          | unknown => exact .inl (.inl rfl)
          | next hd hv' =>
            cases hdone
            exact .inr ⟨_, rfl, h.update hv'.inv hv'.coherent hv'.thread hd⟩
          | syscall hd hv' =>
            cases hdone
            have hmatch := h.update hv'.inv hv'.coherent hv'.thread (alike_returned hd 0 rv)
            rw [← returned_toRegisters] at hmatch
            exact .inr ⟨_, rfl, hmatch⟩
      · simp only [Programs.step, if_neg hwaits]
        exact .inl (.inl rfl)
    · right
      cases hm
      refine ⟨by simp [State.setPhase, hv'.thread], ?_⟩
      obtain ⟨hinv, hco⟩ := hv'.fault hf
      simpa only [Function.update_eq_self] using h.update hinv hco hv'.thread (ha.faulted a)

theorem handle_thread {random : ℕ} (hi : Inv cfg s) (hs : handlePageFault cfg s random = .ok s') :
    s'.currentThread = s.currentThread := by
  cases handled hs with
  | lockTable v hp hs =>
    obtain rfl := acquireTableLock_ok hs
    rfl
  | lockIPT v p hp hs =>
    obtain ⟨-, rfl⟩ := acquireIPTLock_ok hs
    rfl
  | found v f hp hf hu => exact hu ▸ rfl
  | missed v hp hf hu => exact hu ▸ rfl
  | takeFree v f hp hf hu => exact hu ▸ rfl
  | evict v f list hp hfull hv hu =>
    obtain ⟨tlb, ipt, he⟩ := evictFromTLB_frame (setUse { s with evictionList := list } f true) f
    rw [hu, he]
    rfl
  | evicted v f hp hs =>
    obtain ⟨w, hw, rfl⟩ := finishEviction_ok hs
    obtain ⟨a, ha, -⟩ := hi.line_of_valid (hi.frame.victim _ v f hp)
      (hi.loads_pinned (t := s.currentThread) (by simp [hp, Phase.pinned?])
        (by simp [hp, Phase.loads?]))
    obtain ⟨_, _, _, rfl⟩ := (writtenBack cfg hi.swap ha hw).frame
    rfl
  | shown v f hp hu =>
    obtain ⟨_, _, _, he⟩ := (filled_fillTLB cfg s f).frame
    rw [hu, he]
    rfl
  | loaded v f w hp hload hu =>
    obtain ⟨e, hl⟩ := handleIPTMiss_spec hload
    obtain ⟨_, _, _, _, hw⟩ := hl.frame
    obtain ⟨_, _, _, he⟩ := (filled_fillTLB cfg w f).frame
    rw [hu, he, hw]
    rfl

omit [DecidableEq Thread] [DecidableEq Space] in
theorem switch_thread (s : State Thread Space) (next : Thread) :
    (contextSwitch s next).currentThread = next := by
  obtain ⟨_, _, he⟩ := (saved_saveState { saveState s with currentThread := next }).frame
  rw [contextSwitch, he]

theorem Matches.handle {s s' : System Thread Space} {u : Programs Thread Space} {random : ℕ}
    (h : Matches cfg s u) (hs : s.step cfg (.handle random) = .ok s')
    (hsafe : EvictsSafely cfg ⟨s.paging, (.handle random, none), s'.paging⟩) :
    Matches cfg s' u := by
  simp only [System.step] at hs
  cases hh : handlePageFault cfg s.paging random with
  | error e =>
    rw [hh] at hs
    cases hs
  | ok p =>
    rw [hh] at hs
    cases hs
    obtain ⟨hinv, heffect⟩ := h.inv.handle hh
    refine ⟨hinv, heffect.coherent hsafe h.coherent, fun t => ?_⟩
    have hr := h.registers t
    rwa [System.registersOf, ← handle_thread h.inv hh] at hr

theorem Matches.interrupt {s s' : System Thread Space} {u : Programs Thread Space}
    (h : Matches cfg s u) (hs : s.step cfg .interrupt = .ok s') : Matches cfg s' u := by
  obtain ⟨c, hc, ha⟩ := h.registers s.paging.currentThread
  rw [System.registersOf, if_pos rfl] at hc
  have hload := (shows_toRegisters c).delayedLoad (0, 0)
  rw [← hc] at hload
  simp only [System.step, show delayedLoad s.registers 0 0 = _ from hload] at hs
  cases hs
  have hmatch := h.update h.inv h.coherent rfl (ha.faulted c.badVAddr)
  rw [Function.update_eq_self] at hmatch
  exact hmatch

theorem Matches.contextSwitch {s s' : System Thread Space} {u : Programs Thread Space}
    {next : Thread} (h : Matches cfg s u) (hs : s.step cfg (.contextSwitch next) = .ok s') :
    Matches cfg s' u := by
  obtain ⟨hinv, hsame⟩ := h.inv.context_switch next
  cases hs
  refine ⟨hinv, h.coherent.same hsame, fun t => ?_⟩
  have hsaved : System.registersOf
      (⟨Paging.contextSwitch s.paging next,
        Function.update s.userRegisters s.paging.currentThread s.registers next,
        Function.update s.userRegisters s.paging.currentThread s.registers⟩ :
        System Thread Space) t = s.registersOf t := by
    simp only [System.registersOf, switch_thread, Function.update_apply]
    by_cases ht : t = next
    · rw [if_pos ht, ht]
    · rw [if_neg ht]
  exact hsaved.symm ▸ h.registers t

/-! Runs. -/

theorem matches_initial (cfg : Config Thread Space) (boot : Thread → Cpu) (first : Thread) :
    Matches cfg (System.initial cfg boot first) (Programs.initial cfg boot) := by
  have hmemory : (Programs.initial cfg boot).memory = expected cfg [] := by
    funext a va
    simp [Programs.initial, expected, lastWritten]
  refine ⟨inv_initial first, hmemory ▸ coherent_initial first, fun t => ⟨boot t, ?_, Alike.refl _⟩⟩
  by_cases ht : t = first
  · subst ht
    exact if_pos rfl
  · exact if_neg ht

theorem run_concat (cfg : Config Thread Space) (u : Programs Thread Space)
    (done : List (Thread × Word)) (t : Thread) (rv : Word) :
    u.run cfg (done ++ [(t, rv)]) =
      match u.run cfg done with
      | .reaches v => v.step cfg t rv
      | c => c := by
  induction done generalizing u with
  | nil =>
    simp only [List.nil_append, Programs.run]
    cases u.step cfg t rv <;> rfl
  | cons x rest ih =>
    simp only [List.cons_append, Programs.run]
    cases u.step cfg x.1 x.2 with
    | reaches v => exact ih v
    | halts | undetermined | slips => rfl

omit [DecidableEq Thread] [DecidableEq Space] in
theorem filterMap_completed {s s' : System Thread Space}
    (h : s'.paging.phase s.paging.currentThread = .user) :
    [⟨s, .instruction rv, s'⟩].filterMap instructionOf = [(s.paging.currentThread, rv)] := by
  simp [instructionOf, h]

omit [DecidableEq Thread] [DecidableEq Space] in
theorem filterMap_faulted {s s' : System Thread Space}
    (h : s'.paging.phase s.paging.currentThread ≠ .user) :
    [⟨s, .instruction rv, s'⟩].filterMap instructionOf = [] := by
  simp [instructionOf, h]

theorem ends_concat {u : Programs Thread Space} {done : List (Thread × Word)} (x : Thread × Word)
    (h : (u.run cfg done).Ends) : (u.run cfg (done ++ [x])).Ends := by
  rw [run_concat]
  rcases h with h | h
  · rw [h]
    exact .inl rfl
  · rw [h]
    exact .inr rfl

/-- However the threads, their page faults and the interrupts are interleaved, every thread has the
registers that its program leaves, and the memory has the bytes, as if each instruction were
executed at once on a processor and a memory of its own: as long as no eviction loses a dirty bit,
and up to the first instruction whose result is open or where the simulator slips. -/
theorem programs_run_in_paged_memory {boot : Thread → Cpu} {first : Thread}
    {tr : List (Transition (System Thread Space) (Action Thread))} {s : System Thread Space}
    (h : Execution (fun s a s' => s.step cfg a = .ok s') (System.initial cfg boot first) tr s)
    (hsafe : ∀ x ∈ tr, EvictsSafely cfg (pagingStep x)) :
    (Programs.initial cfg boot).run cfg (tr.filterMap instructionOf) = .undetermined ∨
    (Programs.initial cfg boot).run cfg (tr.filterMap instructionOf) = .slips ∨
      ∃ u, (Programs.initial cfg boot).run cfg (tr.filterMap instructionOf) = .reaches u ∧
        (∀ t, Runs u t (s.registersOf t)) ∧ Coherent (cacheOf cfg s.paging) (known u.memory) := by
  have hrun : ((Programs.initial cfg boot).run cfg (tr.filterMap instructionOf)).Ends ∨
      ∃ u, (Programs.initial cfg boot).run cfg (tr.filterMap instructionOf) = .reaches u ∧
        Matches cfg s u := by
    refine h.history_invariant (P := fun tr s =>
      ((Programs.initial cfg boot).run cfg (tr.filterMap instructionOf)).Ends ∨
        ∃ u, (Programs.initial cfg boot).run cfg (tr.filterMap instructionOf) = .reaches u ∧
          Matches cfg s u)
      (.inr ⟨_, rfl, matches_initial cfg boot first⟩) (fun tr x hP hs hcond => ?_) hsafe
    obtain ⟨s, a, s'⟩ := x
    rw [List.filterMap_append]
    cases a with
    | instruction rv =>
      rcases hP with hP | ⟨u, hP, hmatch⟩
      · by_cases huser : s'.paging.phase s.paging.currentThread = .user
        · rw [filterMap_completed huser]
          exact .inl (ends_concat _ hP)
        · rw [filterMap_faulted huser, List.append_nil]
          exact .inl hP
      · rcases hmatch.instruction hs with ⟨huser, hstep⟩ | ⟨hfault, hmatch'⟩
        · rw [filterMap_completed huser, run_concat, hP]
          exact hstep
        · rw [filterMap_faulted hfault, List.append_nil]
          exact .inr ⟨u, hP, hmatch'⟩
    | handle random =>
      rw [show [⟨s, .handle random, s'⟩].filterMap instructionOf = [] from rfl, List.append_nil]
      rcases hP with hP | ⟨u, hP, hmatch⟩
      · exact .inl hP
      · exact .inr ⟨u, hP, hmatch.handle hs hcond⟩
    | interrupt =>
      rw [show [⟨s, .interrupt, s'⟩].filterMap instructionOf = [] from rfl, List.append_nil]
      rcases hP with hP | ⟨u, hP, hmatch⟩
      · exact .inl hP
      · exact .inr ⟨u, hP, hmatch.interrupt hs⟩
    | contextSwitch next =>
      rw [show [⟨s, .contextSwitch next, s'⟩].filterMap instructionOf = [] from rfl, List.append_nil]
      rcases hP with hP | ⟨u, hP, hmatch⟩
      · exact .inl hP
      · exact .inr ⟨u, hP, hmatch.contextSwitch hs⟩
  rcases hrun with (hrun | hrun) | ⟨u, hrun, hmatch⟩
  · exact .inl hrun
  · exact .inr (.inl hrun)
  · exact .inr (.inr ⟨u, hrun, hmatch.registers, hmatch.coherent⟩)

/-- `lw r1, 0(r0)`, an instruction that does nothing, and `sw r1, 128(r0)`. -/
def wordCopier : Executable :=
  ⟨128, 0, 128, 0, [0, 0, 1, 0x8c, 0, 0, 0, 0, 128, 0, 1, 0xac] ++ List.replicate 116 0⟩

def wordCopiers : Config Bool Unit := ⟨fun _ => (), fun _ => wordCopier, .fifo⟩

/-- An instruction that waits, and on which the simulator does not slip. -/
theorem step_reaches {u : Programs Thread Space} {t : Thread} {c : Cpu} (rv raw : Word)
    (hread : (flatBus (cfg.spaceOf t)).readMem u.memory (u.cpu t).pc 4 = .ok (raw, u.memory))
    (hfree : HazardFree (u.cpu t) (decode raw))
    (hslips : ¬ Slips (flatBus (cfg.spaceOf t)) (u.cpu t) u.memory (decode raw))
    (hexecute : Architecture.execute (flatBus (cfg.spaceOf t)) (u.cpu t) u.memory (decode raw) =
      .next c memory) :
    u.step cfg t rv = .reaches ⟨Function.update u.cpu t c, memory⟩ := by
  have hwaits : Waits (flatBus (cfg.spaceOf t)) (u.cpu t) u.memory := by
    rintro i m' ⟨raw', hread', rfl⟩
    cases hread.symm.trans hread'
    exact hfree
  have hnot : ¬ Slipping (flatBus (cfg.spaceOf t)) (u.cpu t) u.memory := by
    rintro ⟨i, m', ⟨raw', hread', rfl⟩, hslip⟩
    cases hread.symm.trans hread'
    exact hslips hslip
  simp only [Programs.step, if_pos hwaits, if_neg hnot, Architecture.oneInstruction, hread, hexecute]

/-- The instructions of the run below that come to their end are those with number 0. -/
def completed : Action Bool → Option (Bool × Word)
  | .instruction 0 => some (false, 0)
  | _ => none

/-- The programs before the first of them has written. -/
def wordCopierAt (c : Cpu) : Programs Bool Unit where
  cpu := Function.update (fun _ => Cpu.boot) false c
  memory _ := content wordCopier

/-- The processor after an instruction, the memory as the executable has it. -/
def cpuAfter (c : Cpu) (raw : Word) : Cpu :=
  match Architecture.execute (flatBus ()) c (fun _ => content wordCopier) (decode raw) with
  | .next c _ => c
  | .trap _ c _ => c

/-- The processor after the load, and after the instruction that does nothing. -/
def loadedCpu : Cpu := cpuAfter Cpu.boot 0x8c010000
def idledCpu : Cpu := cpuAfter loadedCpu 0

/-- The first word of the program comes to address 128. -/
theorem wordCopier_reaches : ∃ u,
    (Programs.initial wordCopiers fun _ => Cpu.boot).run wordCopiers
      (List.replicate 3 (false, 0)) = .reaches u ∧
    (u.cpu false).reg 1 = 0x8c010000 ∧ u.memory () 131 = some 0x8c := by
  have hload : (Programs.initial wordCopiers fun _ => Cpu.boot).step wordCopiers false 0 =
      .reaches (wordCopierAt loadedCpu) :=
    step_reaches 0 0x8c010000 (by rfl) ⟨by decide, by decide⟩ id (by rfl)
  have hidle : (wordCopierAt loadedCpu).step wordCopiers false 0 =
      .reaches ⟨Function.update (wordCopierAt loadedCpu).cpu false idledCpu, _⟩ :=
    step_reaches 0 0 (by rfl) ⟨by decide, by decide⟩ id (by rfl)
  have hsame : Programs.mk (Function.update (wordCopierAt loadedCpu).cpu false idledCpu)
      (wordCopierAt loadedCpu).memory = wordCopierAt idledCpu :=
    congrArg (Programs.mk · _) (Function.update_idem _ _ _)
  obtain ⟨u, hstore, hreg, hmemory⟩ : ∃ u, (wordCopierAt idledCpu).step wordCopiers false 0 =
      .reaches u ∧ (u.cpu false).reg 1 = 0x8c010000 ∧ u.memory () 131 = some 0x8c :=
    ⟨_, step_reaches 0 0xac010080 (by rfl) ⟨by decide, by decide⟩ id (by rfl), rfl, rfl⟩
  refine ⟨u, ?_, hreg, hmemory⟩
  simp only [List.replicate, Programs.run, hload, hidle, hsame, hstore]

/-- The program is brought in, and later the page that it writes to. The two instructions that
meet a page fault have number 1. -/
theorem programs_run_in_paged_memory_copier : ∃ tr s u,
    Execution (fun s a s' => s.step wordCopiers a = .ok s')
      (System.initial wordCopiers (fun _ => Cpu.boot) false) tr s ∧
    tr.map (fun x => x.event) = .instruction 1 :: List.replicate 6 (.handle 0) ++
      [.instruction 0, .instruction 0, .instruction 1] ++ List.replicate 6 (.handle 0) ++
      [.instruction 0] ∧
    (Programs.initial wordCopiers fun _ => Cpu.boot).run wordCopiers (tr.filterMap instructionOf) =
      .reaches u ∧
    (u.cpu false).reg 1 = 0x8c010000 ∧ u.memory () 131 = some 0x8c ∧
    (∀ t, Runs u t (s.registersOf t)) ∧ Coherent (cacheOf wordCopiers s.paging) (known u.memory) := by
  obtain ⟨tr, s, hex, hmap, hcheck, -⟩ := exists_of_run (System.step wordCopiers)
    (System.initial wordCopiers (fun _ => Cpu.boot) false)
    (.instruction 1 :: List.replicate 6 (.handle 0) ++
      [.instruction 0, .instruction 0, .instruction 1] ++ List.replicate 6 (.handle 0) ++
      [.instruction 0])
    (fun s a => (bitMapFind s.paging.mainMemoryBitmap numPhysPages).isSome &&
      (s.step wordCopiers a).toOption.any fun s' => instructionOf ⟨s, a, s'⟩ = completed a)
    (fun _ => true) (by decide +kernel)
  have hcompleted : tr.filterMap instructionOf = List.replicate 3 (false, 0) := by
    have hlist : tr.filterMap instructionOf = (tr.map fun x => x.event).filterMap completed := by
      rw [List.filterMap_map]
      refine List.filterMap_congr fun x hx => ?_
      have hx' := hcheck x hx
      have hstep := (hex.mem (P := fun _ => True) trivial (fun _ _ _ _ _ => trivial) hx).2
      rw [hstep] at hx'
      exact of_decide_eq_true (Bool.and_eq_true_iff.mp hx').2
    rw [hlist, hmap]
    rfl
  obtain ⟨u, hu, hreg, hmem⟩ := wordCopier_reaches
  have hruns := programs_run_in_paged_memory hex fun x hx random v f list _ _ hfull => by
    have hroom := (Bool.and_eq_true_iff.mp (hcheck x hx)).1
    rw [show (pagingStep x).before = x.before.paging from rfl] at hfull
    rw [hfull] at hroom
    cases hroom
  rw [hcompleted, hu] at hruns
  obtain hruns | hruns | ⟨u', hu', hregisters, hco⟩ := hruns
  · cases hruns
  · cases hruns
  · cases hu'
    exact ⟨tr, s, u, hex, hmap, hcompleted ▸ hu, hreg, hmem, hregisters, hco⟩

end Nachos.UserPrograms
