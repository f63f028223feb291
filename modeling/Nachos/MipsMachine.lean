import Nachos.MipsMultiplication

/-! `Machine::OneInstruction` of `machine/mipssim.cc`. The memory, behind `ReadMem` and `WriteMem`,
and the kernel are parameters. Sums and negations of `int`s wrap around. -/
namespace Nachos.Mips

inductive ExceptionType
  | noException
  | syscall
  | pageFault
  | readOnly
  | busError
  | addressError
  | overflow
  | illegalInstr
  deriving DecidableEq, Repr

/-- What stops the simulator: a failed `ASSERT` of its own, a register number that is none, the
quotient that is no `int`, and a kernel that does not come back. -/
inductive Fault
  | assertion
  | outside
  | arithmetic
  | halt
  deriving DecidableEq, Repr

def r31 : ℕ := 31
def hiReg : ℕ := 32
def loReg : ℕ := 33
def pcReg : ℕ := 34
def nextPCReg : ℕ := 35
def prevPCReg : ℕ := 36
def loadReg : ℕ := 37
def loadValueReg : ℕ := 38
def badVAddrReg : ℕ := 39
def numTotalRegs : ℕ := 40

abbrev Registers := ℕ → Word

/-- An access gives an exception, or a value and the memory with what the access marks in it. The
address is translated before anything is written. -/
structure Bus (μ : Type) where
  readMem : μ → Word → ℕ → Except ExceptionType (Word × μ)
  writeMem : μ → Word → ℕ → Word → Except ExceptionType μ
  translated : ∀ {m address size v w e}, writeMem m address size v = .error e →
    writeMem m address size w = .error e

structure Machine (μ : Type) where
  registers : Registers
  memory : μ

/-- What the `switch` leads to: the registers and the memory with the next delayed load and the
next `pcAfter`, or an exception before any register is written. -/
inductive Outcome (μ : Type)
  | next (registers : Registers) (memory : μ) (nextLoadReg : ℕ) (nextLoadValue pcAfter : Word)
  | raise (which : ExceptionType) (badVAddr : Word) (memory : μ)
  | stop (fault : Fault)

def signBit : Word := 0x80000000

def indexToAddr (x : Word) : Word := x <<< 2

/-- `registers[k] = w` -/
def set (r : Registers) (k : ℕ) (w : Word) : Registers := Function.update r k w

section
variable {μ : Type} (bus : Bus μ) (r : Registers) (m : μ) (i : Instruction)

/-- Other registers, and on to the next instruction. -/
def goOn (r r' : Registers) (m : μ) : Outcome μ := .next r' m 0 0 (r nextPCReg + 4)

/-- A branch that is taken or not, with the registers that it leaves. -/
def branch (taken : Bool) (r r' : Registers) (m : μ) (i : Instruction) : Outcome μ :=
  .next r' m 0 0 (if taken then r nextPCReg + indexToAddr i.extra else r nextPCReg + 4)

/-- The delayed load of a value that is made of what `ReadMem` reads. -/
def load (address : Word) (size : ℕ) (f : Word → Word) : Outcome μ :=
  match bus.readMem m address size with
  | .error e => .raise e address m
  | .ok (value, m) => .next r m i.rt (f value) (r nextPCReg + 4)

def write (address : Word) (size : ℕ) (value : Word) : Outcome μ :=
  match bus.writeMem m address size value with
  | .error e => .raise e address m
  | .ok m => .next r m 0 0 (r nextPCReg + 4)

/-- `LWL` and `LWR`: what the target would hold is joined with the word, in a way that depends
on the place in the word. -/
def loadPart (join : Word → Word → Word) : Outcome μ :=
  let tmp := r i.rs + i.extra
  if tmp &&& 3 = 0 then
    let old := if (r loadReg).toInt = i.rt then r loadValueReg else r i.rt
    load bus r m i tmp 4 (join old)
  else .stop .assertion

/-- `SWL` and `SWR`, which read the word first. -/
def writePart (join : Word → Word → Word) : Outcome μ :=
  let tmp := r i.rs + i.extra
  if tmp &&& 3 = 0 then
    match bus.readMem m (tmp &&& ~~~3) 4 with
    | .error e => .raise e (tmp &&& ~~~3) m
    | .ok (value, m) => write bus r m (tmp &&& ~~~3) 4 (join (r i.rt) value)
  else .stop .assertion

/-- The `switch` of `OneInstruction` -/
def execute : Outcome μ :=
  let a := r i.rs
  let b := r i.rt
  match i.opCode with
  | .add =>
    let sum := a + b
    if (a ^^^ b) &&& signBit = 0 ∧ (a ^^^ sum) &&& signBit ≠ 0 then .raise .overflow 0 m
    else goOn r (set r i.rd sum) m
  | .addi =>
    let sum := a + i.extra
    if (a ^^^ i.extra) &&& signBit = 0 ∧ (i.extra ^^^ sum) &&& signBit ≠ 0 then .raise .overflow 0 m
    else goOn r (set r i.rt sum) m
  | .addiu => goOn r (set r i.rt (a + i.extra)) m
  | .addu => goOn r (set r i.rd (a + b)) m
  | .and => goOn r (set r i.rd (a &&& b)) m
  | .andi => goOn r (set r i.rt (a &&& (i.extra &&& 0xffff))) m
  | .beq => branch (a = b) r r m i
  | .bgezal =>
    let r' := set r r31 (r nextPCReg + 4)
    branch (r' i.rs &&& signBit = 0) r r' m i
  | .bgez => branch (a &&& signBit = 0) r r m i
  | .bgtz => branch (a.toInt > 0) r r m i
  | .blez => branch (a.toInt ≤ 0) r r m i
  | .bltzal =>
    let r' := set r r31 (r nextPCReg + 4)
    branch (r' i.rs &&& signBit ≠ 0) r r' m i
  | .bltz => branch (a &&& signBit ≠ 0) r r m i
  | .bne => branch (a ≠ b) r r m i
  | .div =>
    if b = 0 then goOn r (set (set r loReg 0) hiReg 0) m
    else if a = signBit ∧ b = -1 then .stop .arithmetic
    else goOn r (set (set r loReg (a.sdiv b)) hiReg (a.srem b)) m
  | .divu =>
    if b = 0 then goOn r (set (set r loReg 0) hiReg 0) m
    else goOn r (set (set r loReg (a / b)) hiReg (a % b)) m
  | .jal =>
    .next (set r r31 (r nextPCReg + 4)) m 0 0
      ((r nextPCReg + 4) &&& 0xf0000000 ||| indexToAddr i.extra)
  | .j => .next r m 0 0 ((r nextPCReg + 4) &&& 0xf0000000 ||| indexToAddr i.extra)
  | .jalr =>
    let r' := set r i.rd (r nextPCReg + 4)
    .next r' m 0 0 (r' i.rs)
  | .jr => .next r m 0 0 a
  | .lb => load bus r m i (a + i.extra) 1 fun value =>
    if value &&& 0x80 ≠ 0 then value ||| 0xffffff00 else value &&& 0xff
  | .lbu => load bus r m i (a + i.extra) 1 fun value => value &&& 0xff
  | .lh =>
    if (a + i.extra) &&& 1 ≠ 0 then .raise .addressError (a + i.extra) m
    else load bus r m i (a + i.extra) 2 fun value =>
      if value &&& 0x8000 ≠ 0 then value ||| 0xffff0000 else value &&& 0xffff
  | .lhu =>
    if (a + i.extra) &&& 1 ≠ 0 then .raise .addressError (a + i.extra) m
    else load bus r m i (a + i.extra) 2 fun value => value &&& 0xffff
  | .lui => goOn r (set r i.rt (i.extra <<< 16)) m
  | .lw =>
    if (a + i.extra) &&& 3 ≠ 0 then .raise .addressError (a + i.extra) m
    else load bus r m i (a + i.extra) 4 id
  | .lwl => loadPart bus r m i fun _ value => value
  | .lwr => loadPart bus r m i fun old value =>
    old &&& 0xffffff00 ||| (value.sshiftRight 24 &&& 0xff)
  | .mfhi => goOn r (set r i.rd (r hiReg)) m
  | .mflo => goOn r (set r i.rd (r loReg)) m
  | .mthi => goOn r (set r hiReg a) m
  | .mtlo => goOn r (set r loReg a) m
  | .mult => goOn r (set (set r hiReg (mult a b true).1) loReg (mult a b true).2) m
  | .multu => goOn r (set (set r hiReg (mult a b false).1) loReg (mult a b false).2) m
  | .nor => goOn r (set r i.rd (~~~(a ||| b))) m
  | .or => goOn r (set r i.rd (a ||| a)) m
  | .ori => goOn r (set r i.rt (a ||| (i.extra &&& 0xffff))) m
  | .sb => write bus r m (a + i.extra) 1 b
  | .sh => write bus r m (a + i.extra) 2 b
  | .sll => goOn r (set r i.rd (b <<< i.extra.toNat)) m
  | .sllv => goOn r (set r i.rd (b <<< (a &&& 0x1f).toNat)) m
  | .slt => goOn r (set r i.rd (if a.toInt < b.toInt then 1 else 0)) m
  | .slti => goOn r (set r i.rt (if a.toInt < i.extra.toInt then 1 else 0)) m
  | .sltiu => goOn r (set r i.rt (if a < i.extra then 1 else 0)) m
  | .sltu => goOn r (set r i.rd (if a < b then 1 else 0)) m
  | .sra => goOn r (set r i.rd (b.sshiftRight i.extra.toNat)) m
  | .srav => goOn r (set r i.rd (b.sshiftRight (a &&& 0x1f).toNat)) m
  -- `tmp` is an `int`
  | .srl => goOn r (set r i.rd (b.sshiftRight i.extra.toNat)) m
  | .srlv => goOn r (set r i.rd (b.sshiftRight (a &&& 0x1f).toNat)) m
  | .sub =>
    let diff := a - b
    if (a ^^^ b) &&& signBit ≠ 0 ∧ (a ^^^ diff) &&& signBit ≠ 0 then .raise .overflow 0 m
    else goOn r (set r i.rd diff) m
  | .subu => goOn r (set r i.rd (a - b)) m
  | .sw => write bus r m (a + i.extra) 4 b
  | .swl => writePart bus r m i fun b _ => b
  | .swr => writePart bus r m i fun b value => value &&& 0xffffff ||| b <<< 24
  | .syscall => .raise .syscall 0 m
  | .xor => goOn r (set r i.rd (a ^^^ b)) m
  | .xori => goOn r (set r i.rt (a ^^^ (i.extra &&& 0xffff))) m
  | .res | .unimp => .raise .illegalInstr 0 m
  | .rfe | .special | .bcond => .stop .assertion

end

/-- `DelayedLoad` -/
def delayedLoad (r : Registers) (nextReg : ℕ) (nextValue : Word) : Except Fault Registers :=
  if (r loadReg).toNat < numTotalRegs then
    .ok (set (set (set (set r (r loadReg).toNat (r loadValueReg)) loadReg (.ofNat 32 nextReg))
      loadValueReg nextValue) 0 0)
  else .error .outside

/-- The kernel comes back to the program, or ends the run. -/
def inKernel {μ : Type} (exceptionHandler : ExceptionType → Machine μ → Option (Machine μ))
    (which : ExceptionType) (s : Machine μ) : Except Fault (Machine μ) :=
  match exceptionHandler which s with
  | some s => .ok s
  | none => .error .halt

section
variable {μ : Type} (bus : Bus μ)
  (exceptionHandler : ExceptionType → Machine μ → Option (Machine μ))

/-- `RaiseException` -/
def raiseException (s : Machine μ) (which : ExceptionType) (badVAddr : Word) :
    Except Fault (Machine μ) := do
  let registers ← delayedLoad (set s.registers badVAddrReg badVAddr) 0 0
  inKernel exceptionHandler which { s with registers }

/-- The end of `OneInstruction`: the delayed load, and the program counters. -/
def advance (r : Registers) (m : μ) (nextLoadReg : ℕ) (nextLoadValue pcAfter : Word) :
    Except Fault (Machine μ) :=
  (delayedLoad r nextLoadReg nextLoadValue).map fun r =>
    ⟨set (set (set r prevPCReg (r pcReg)) pcReg (r nextPCReg)) nextPCReg pcAfter, m⟩

/-- What follows from the `switch`. -/
def finish (s : Machine μ) : Outcome μ → Except Fault (Machine μ)
  | .next r m nextLoadReg nextLoadValue pcAfter => advance r m nextLoadReg nextLoadValue pcAfter
  | .raise which badVAddr m => raiseException exceptionHandler { s with memory := m } which badVAddr
  | .stop fault => .error fault

def oneInstruction (s : Machine μ) : Except Fault (Machine μ) :=
  match bus.readMem s.memory (s.registers pcReg) 4 with
  | .error e => raiseException exceptionHandler s e (s.registers pcReg)
  | .ok (raw, m) => finish exceptionHandler s (execute bus s.registers m (decode raw))

end

end Nachos.Mips
