import Nachos.MipsMachine

/-! What the instructions of the processor mean: the registers as the programmer sees them, and
each operation as arithmetic on the numbers that the words stand for. The delayed load is part of
the meaning: the value of a load arrives after the next instruction. -/
namespace Nachos.Mips

/-- Register 0 is always 0. -/
@[ext]
structure Cpu where
  gpr : Fin 32 → Word
  hi : Word
  lo : Word
  pc : Word
  nextPC : Word
  prevPC : Word
  /-- the register that the last load goes to, and the value -/
  pending : Fin 32 × Word
  badVAddr : Word
  zero : gpr 0 = 0

inductive Result (μ : Type)
  | next (c : Cpu) (memory : μ)
  | trap (which : ExceptionType) (c : Cpu) (memory : μ)

namespace Cpu

def reg (c : Cpu) (k : ℕ) : Word := c.gpr (Fin.ofNat 32 k)

/-- Where the first program is started. -/
def boot : Cpu where
  gpr _ := 0
  hi := 0
  lo := 0
  pc := 0
  nextPC := 4
  prevPC := 0
  pending := (Fin.ofNat 32 0, 0)
  badVAddr := 0
  zero := rfl

def write (c : Cpu) (k : ℕ) (w : Word) : Cpu :=
  { c with
    gpr := fun j => if j = Fin.ofNat 32 k ∧ j ≠ 0 then w else c.gpr j
    zero := by rw [if_neg fun h => h.2 rfl, c.zero] }

def arrive (c : Cpu) : Cpu := c.write c.pending.1 c.pending.2

/-- The end of an instruction. -/
def retire (c : Cpu) (load : Fin 32 × Word) (target : Word) : Cpu :=
  { c.arrive with pending := load, prevPC := c.pc, pc := c.nextPC, nextPC := target }

/-- The state that the kernel finds. -/
def interrupted (c : Cpu) (badVAddr : Word) : Cpu :=
  { c.arrive with pending := (0, 0), badVAddr := badVAddr }

/-- The contents of the array `registers` -/
def toRegisters (c : Cpu) : Registers := fun k =>
  if k < 32 then c.reg k
  else if k = hiReg then c.hi
  else if k = loReg then c.lo
  else if k = pcReg then c.pc
  else if k = nextPCReg then c.nextPC
  else if k = prevPCReg then c.prevPC
  else if k = loadReg then .ofNat 32 c.pending.1
  else if k = loadValueReg then c.pending.2
  else if k = badVAddrReg then c.badVAddr
  else 0

end Cpu

namespace Architecture

section
variable {μ : Type} (bus : Bus μ) (c : Cpu) (m : μ) (i : Instruction)

/-- The address after the delay slot. -/
def following (c : Cpu) : Word := c.nextPC + 4

def goOn (c : Cpu) (m : μ) : Result μ := .next (c.retire (0, 0) (following c)) m

def trap (which : ExceptionType) (badVAddr : Word) (c : Cpu) (m : μ) : Result μ :=
  .trap which (c.interrupted badVAddr) m

/-- A signed result, which must be an `int`. -/
def signed (k : ℕ) (x : ℤ) : Result μ :=
  if -2 ^ 31 ≤ x ∧ x < 2 ^ 31 then goOn (c.write k (.ofInt 32 x)) m else trap .overflow 0 c m

/-- A result modulo 2^32. -/
def modular (k : ℕ) (x : ℤ) : Result μ := goOn (c.write k (.ofInt 32 x)) m

def double (hi lo : Word) : Result μ := goOn { c with hi := hi, lo := lo } m

def branch (taken : Bool) (c : Cpu) (m : μ) (i : Instruction) : Result μ :=
  .next (c.retire (0, 0)
    (if taken then .ofInt 32 (c.nextPC.toInt + 4 * i.extra.toInt) else following c)) m

/-- The 26 bits of the target are the middle of the address, and the highest bits are those of the
delay slot. -/
def region (c : Cpu) (i : Instruction) : Word :=
  c.nextPC.extractLsb' 28 4 ++ i.extra.extractLsb' 0 26 ++ 0#2

def load (address : Word) (size : ℕ) (f : Word → Word) : Result μ :=
  match bus.readMem m address size with
  | .error e => trap e address c m
  | .ok (value, m) => .next (c.retire (Fin.ofNat 32 i.rt, f value) (following c)) m

def store (address : Word) (size : ℕ) (value : Word) : Result μ :=
  match bus.writeMem m address size value with
  | .error e => trap e address c m
  | .ok m => goOn c m

/-- A load or store that needs an aligned address. -/
def aligned (address : Word) (size : ℕ) (access : Result μ) : Result μ :=
  if address.toNat % size = 0 then access else trap .addressError address c m

/-- The aligned word that a byte lies in -/
def wordOf (address : Word) : Word := .ofNat 32 (address.toNat / 4 * 4)

/-- The bytes of `w` moved up by `n`, above the lowest ones of another word. -/
def movedUp (n : ℕ) (w other : Word) : Word :=
  .ofNat 32 (w.toNat * 256 ^ n + other.toNat % 256 ^ n)

/-- The bytes of `w` moved down by `n`, below the highest ones of another word. -/
def movedDown (n : ℕ) (w other : Word) : Word :=
  .ofNat 32 (other.toNat / 256 ^ (4 - n) * 256 ^ (4 - n) + w.toNat / 256 ^ n)

/-- What the target of an unaligned load holds: the load before need not have arrived. -/
def held : Word := if c.pending.1.val = i.rt then c.pending.2 else c.reg i.rt

/-- A part of a word is joined with what the target holds. -/
def loadPart (address : Word) (join : Word → Word → Word) : Result μ :=
  match bus.readMem m (wordOf address) 4 with
  | .error e => trap e address c m
  | .ok (value, m) =>
    .next (c.retire (Fin.ofNat 32 i.rt, join value (held c i)) (following c)) m

/-- A part of the register goes into the word, which keeps its other bytes. -/
def storePart (address : Word) (join : Word → Word → Word) : Result μ :=
  match bus.readMem m (wordOf address) 4 with
  | .error e => trap e address c m
  | .ok (value, m) =>
    match bus.writeMem m (wordOf address) 4 (join (c.reg i.rt) value) with
    | .error e => trap e address c m
    | .ok m => goOn c m

/-- One instruction, the low half of whose word is `i.extra`. -/
def execute : Result μ :=
  let a := c.reg i.rs
  let b := c.reg i.rt
  let address := a + i.extra
  let half := (i.extra.setWidth 16).setWidth 32
  match i.opCode with
  | .add => signed c m i.rd (a.toInt + b.toInt)
  | .addi => signed c m i.rt (a.toInt + i.extra.toInt)
  | .sub => signed c m i.rd (a.toInt - b.toInt)
  | .addu => modular c m i.rd (a.toInt + b.toInt)
  | .addiu => modular c m i.rt (a.toInt + i.extra.toInt)
  | .subu => modular c m i.rd (a.toInt - b.toInt)
  | .and => goOn (c.write i.rd (a &&& b)) m
  | .or => goOn (c.write i.rd (a ||| b)) m
  | .xor => goOn (c.write i.rd (a ^^^ b)) m
  | .nor => goOn (c.write i.rd (~~~(a ||| b))) m
  | .andi => goOn (c.write i.rt (a &&& half)) m
  | .ori => goOn (c.write i.rt (a ||| half)) m
  | .xori => goOn (c.write i.rt (a ^^^ half)) m
  | .lui => modular c m i.rt (i.extra.toInt * 2 ^ 16)
  | .sll => modular c m i.rd (b.toNat * 2 ^ i.extra.toNat)
  | .sllv => modular c m i.rd (b.toNat * 2 ^ (a.toNat % 32))
  | .srl => modular c m i.rd (b.toNat / 2 ^ i.extra.toNat)
  | .srlv => modular c m i.rd (b.toNat / 2 ^ (a.toNat % 32))
  | .sra => modular c m i.rd (b.toInt / 2 ^ i.extra.toNat)
  | .srav => modular c m i.rd (b.toInt / 2 ^ (a.toNat % 32))
  | .slt => modular c m i.rd (if a.toInt < b.toInt then 1 else 0)
  | .slti => modular c m i.rt (if a.toInt < i.extra.toInt then 1 else 0)
  | .sltu => modular c m i.rd (if a.toNat < b.toNat then 1 else 0)
  | .sltiu => modular c m i.rt (if a.toNat < i.extra.toNat then 1 else 0)
  -- nothing is said about a division by 0
  | .div => if b.toInt = 0 then double c m 0 0
    else double c m (.ofInt 32 (a.toInt.tmod b.toInt)) (.ofInt 32 (a.toInt.tdiv b.toInt))
  | .divu => if b.toNat = 0 then double c m 0 0
    else double c m (.ofNat 32 (a.toNat % b.toNat)) (.ofNat 32 (a.toNat / b.toNat))
  | .mult => double c m ((BitVec.ofInt 64 (a.toInt * b.toInt)).extractLsb' 32 32)
    ((BitVec.ofInt 64 (a.toInt * b.toInt)).extractLsb' 0 32)
  | .multu => double c m ((BitVec.ofNat 64 (a.toNat * b.toNat)).extractLsb' 32 32)
    ((BitVec.ofNat 64 (a.toNat * b.toNat)).extractLsb' 0 32)
  | .mfhi => goOn (c.write i.rd c.hi) m
  | .mflo => goOn (c.write i.rd c.lo) m
  | .mthi => goOn { c with hi := a } m
  | .mtlo => goOn { c with lo := a } m
  | .beq => branch (a = b) c m i
  | .bne => branch (a ≠ b) c m i
  | .bltz => branch (a.toInt < 0) c m i
  | .bgez => branch (0 ≤ a.toInt) c m i
  | .blez => branch (a.toInt ≤ 0) c m i
  | .bgtz => branch (0 < a.toInt) c m i
  | .bltzal => branch (a.toInt < 0) (c.write r31 (following c)) m i
  | .bgezal => branch (0 ≤ a.toInt) (c.write r31 (following c)) m i
  | .j => .next (c.retire (0, 0) (region c i)) m
  | .jal => .next ((c.write r31 (following c)).retire (0, 0) (region c i)) m
  | .jr => .next (c.retire (0, 0) a) m
  | .jalr => .next ((c.write i.rd (following c)).retire (0, 0) a) m
  | .lb => load bus c m i address 1 fun value => (value.setWidth 8).signExtend 32
  | .lbu => load bus c m i address 1 fun value => (value.setWidth 8).setWidth 32
  | .lh => aligned c m address 2 (load bus c m i address 2 fun value =>
      (value.setWidth 16).signExtend 32)
  | .lhu => aligned c m address 2 (load bus c m i address 2 fun value =>
      (value.setWidth 16).setWidth 32)
  | .lw => aligned c m address 4 (load bus c m i address 4 id)
  -- the bytes from the start of the word up to the address, and those from the address on
  | .lwl => loadPart bus c m i address (movedUp (3 - address.toNat % 4))
  | .lwr => loadPart bus c m i address (movedDown (address.toNat % 4))
  | .sb => store bus c m address 1 b
  | .sh => store bus c m address 2 b
  | .sw => store bus c m address 4 b
  | .swl => storePart bus c m i address (movedDown (3 - address.toNat % 4))
  | .swr => storePart bus c m i address (movedUp (address.toNat % 4))
  | .syscall => trap .syscall 0 c m
  -- no word is decoded as one of the last three
  | .res | .unimp | .rfe | .special | .bcond => trap .illegalInstr 0 c m

def oneInstruction : Result μ :=
  match bus.readMem m c.pc 4 with
  | .error e => trap e c.pc c m
  | .ok (raw, m) => execute bus c m (decode raw)

end

end Architecture

/-- A trap goes on in the kernel. -/
def Result.handled {μ : Type} (exceptionHandler : ExceptionType → Machine μ → Option (Machine μ)) :
    Result μ → Except Fault (Machine μ)
  | .next c m => .ok ⟨c.toRegisters, m⟩
  | .trap which c m => inKernel exceptionHandler which ⟨c.toRegisters, m⟩

section
variable {μ : Type} (bus : Bus μ) (c : Cpu) (m : μ) (i : Instruction)

/-- The address of a load or store -/
def Cpu.address : Word := c.reg i.rs + i.extra

/-- The word at the address can be read, and the two results of the load are not the same. -/
def LoadsApart (join other : Word → Word → Word) : Prop :=
  ∃ value m', bus.readMem m (c.address i) 4 = .ok (value, m') ∧
    join value (Architecture.held c i) ≠ other value (Architecture.held c i)

/-- The word at the address can be read, and the two stores lead to different memories. -/
def StoresApart (join other : Word → Word → Word) : Prop :=
  ∃ value m', bus.readMem m (c.address i) 4 = .ok (value, m') ∧
    bus.writeMem m' (c.address i) 4 (join (c.reg i.rt) value) ≠
      bus.writeMem m' (c.address i) 4 (other (c.reg i.rt) value)

open Architecture in
/-- Where the simulator differs: `OR` takes its first operand twice, the logical shift is
arithmetic, the quotient 2^31 stops the simulator, a jump or branch that links the register it tests
sees the link, and a jump takes its highest bits from the address after the delay slot. Of the
unaligned accesses the simulator knows those at the start of a word, and takes the first byte for
the highest one. -/
def Slips : Prop :=
  match i.opCode with
  | .or => c.reg i.rs ||| c.reg i.rt ≠ c.reg i.rs ∧ i.rd ≠ 0 ∧ c.pending.1 ≠ Fin.ofNat 32 i.rd
  | .srl => (c.reg i.rt).toInt < 0 ∧ i.extra ≠ 0 ∧ i.rd ≠ 0 ∧ c.pending.1 ≠ Fin.ofNat 32 i.rd
  | .srlv => (c.reg i.rt).toInt < 0 ∧ (c.reg i.rs).toNat % 32 ≠ 0 ∧ i.rd ≠ 0 ∧
      c.pending.1 ≠ Fin.ofNat 32 i.rd
  | .div => (c.reg i.rs).toInt = -2 ^ 31 ∧ (c.reg i.rt).toInt = -1
  | .jalr => i.rd = i.rs ∧ c.reg i.rs ≠ following c
  | .bltzal | .bgezal => i.rs = r31 ∧ i.extra <<< 2 ≠ 4 ∧
      ¬ ((c.reg r31).toInt < 0 ↔ (following c).toInt < 0)
  | .j | .jal => c.nextPC.extractLsb' 28 4 ≠ (following c).extractLsb' 28 4
  | .lwl => (c.address i).toNat % 4 ≠ 0 ∨ LoadsApart bus c m i (movedUp 3) (movedUp 0)
  | .lwr => (c.address i).toNat % 4 ≠ 0 ∨ LoadsApart bus c m i (movedDown 0) (movedDown 3)
  | .swl => (c.address i).toNat % 4 ≠ 0 ∨ StoresApart bus c m i (movedDown 3) (movedDown 0)
  | .swr => (c.address i).toNat % 4 ≠ 0 ∨ StoresApart bus c m i (movedUp 0) (movedUp 3)
  | _ => False

end

end Nachos.Mips
