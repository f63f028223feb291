import Mathlib

/-! `machine/mipssim.h` and `Instruction::Decode`: the instructions of the simulated processor. -/
namespace Nachos.Mips

abbrev Word := BitVec 32

/-- `OP_ADD` and so on, with the two values for further decoding -/
inductive OpCode
  | add | addi | addiu | addu | and | andi | beq | bgez | bgezal | bgtz | blez | bltz | bltzal | bne
  | div | divu | j | jal | jalr | jr | lb | lbu | lh | lhu | lui | lw | lwl | lwr | mfhi | mflo
  | mthi | mtlo | mult | multu | nor | or | ori | rfe | sb | sh | sll | sllv | slt | slti | sltiu
  | sltu | sra | srav | srl | srlv | sub | subu | sw | swl | swr | xor | xori | syscall | unimp | res
  | special | bcond
  deriving DecidableEq, Repr

inductive Format
  | ifmt | jfmt | rfmt
  deriving DecidableEq, Repr

/-- By bits 31:26 of the instruction -/
def opTable : List (OpCode × Format) :=
  [(.special, .rfmt), (.bcond, .ifmt), (.j, .jfmt), (.jal, .jfmt),
    (.beq, .ifmt), (.bne, .ifmt), (.blez, .ifmt), (.bgtz, .ifmt),
    (.addi, .ifmt), (.addiu, .ifmt), (.slti, .ifmt), (.sltiu, .ifmt),
    (.andi, .ifmt), (.ori, .ifmt), (.xori, .ifmt), (.lui, .ifmt),
    (.unimp, .ifmt), (.unimp, .ifmt), (.unimp, .ifmt), (.unimp, .ifmt),
    (.res, .ifmt), (.res, .ifmt), (.res, .ifmt), (.res, .ifmt),
    (.res, .ifmt), (.res, .ifmt), (.res, .ifmt), (.res, .ifmt),
    (.res, .ifmt), (.res, .ifmt), (.res, .ifmt), (.res, .ifmt),
    (.lb, .ifmt), (.lh, .ifmt), (.lwl, .ifmt), (.lw, .ifmt),
    (.lbu, .ifmt), (.lhu, .ifmt), (.lwr, .ifmt), (.res, .ifmt),
    (.sb, .ifmt), (.sh, .ifmt), (.swl, .ifmt), (.sw, .ifmt),
    (.res, .ifmt), (.res, .ifmt), (.swr, .ifmt), (.res, .ifmt),
    (.unimp, .ifmt), (.unimp, .ifmt), (.unimp, .ifmt), (.unimp, .ifmt),
    (.res, .ifmt), (.res, .ifmt), (.res, .ifmt), (.res, .ifmt),
    (.unimp, .ifmt), (.unimp, .ifmt), (.unimp, .ifmt), (.unimp, .ifmt),
    (.res, .ifmt), (.res, .ifmt), (.res, .ifmt), (.res, .ifmt)]

/-- By the `funct` field of a `SPECIAL` instruction -/
def specialTable : List OpCode :=
  [.sll, .res, .srl, .sra, .sllv, .res, .srlv, .srav,
    .jr, .jalr, .res, .res, .syscall, .unimp, .res, .res,
    .mfhi, .mthi, .mflo, .mtlo, .res, .res, .res, .res,
    .mult, .multu, .div, .divu, .res, .res, .res, .res,
    .add, .addu, .sub, .subu, .and, .or, .xor, .nor,
    .res, .res, .slt, .sltu, .res, .res, .res, .res,
    .res, .res, .res, .res, .res, .res, .res, .res,
    .res, .res, .res, .res, .res, .res, .res, .res]

structure Instruction where
  opCode : OpCode
  rs : ℕ
  rt : ℕ
  rd : ℕ
  extra : Word
  deriving DecidableEq, Repr

/-- The immediate of an `IFMT` instruction is sign-extended. -/
def decodeExtra (value : Word) : Format → Word
  | .ifmt =>
    let extra := value &&& 0xffff
    if extra &&& 0x8000 ≠ 0 then extra ||| 0xffff0000 else extra
  | .rfmt => (value >>> 6) &&& 0x1f
  | .jfmt => value &&& 0x3ffffff

def decodeOpCode (value : Word) : OpCode → OpCode
  | .special => specialTable.getD (value &&& 0x3f).toNat .res
  | .bcond =>
    let i := value &&& 0x1f0000
    if i = 0 then .bltz
    else if i = 0x10000 then .bgez
    else if i = 0x100000 then .bltzal
    else if i = 0x110000 then .bgezal
    else .unimp
  | opCode => opCode

/-- `Instruction::Decode` -/
def decode (value : Word) : Instruction where
  opCode := decodeOpCode value (opTable.getD ((value >>> 26) &&& 0x3f).toNat (.res, .ifmt)).1
  rs := ((value >>> 21) &&& 0x1f).toNat
  rt := ((value >>> 16) &&& 0x1f).toNat
  rd := ((value >>> 11) &&& 0x1f).toNat
  extra := decodeExtra value (opTable.getD ((value >>> 26) &&& 0x3f).toNat (.res, .ifmt)).2

/-! What an assembler writes: the fields of the three formats. -/

def register (funct : BitVec 6) (rs rt rd shamt : BitVec 5) : Word :=
  0#6 ++ rs ++ rt ++ rd ++ shamt ++ funct

def immediate (op : BitVec 6) (rs rt : BitVec 5) (imm : BitVec 16) : Word := op ++ rs ++ rt ++ imm

def jump (op : BitVec 6) (target : BitVec 26) : Word := op ++ target

/-- The operations of the architecture with a code of their own in the first or the last field,
or, for some branches, in the place of `rt`. -/
inductive Place
  | op (code : BitVec 6)
  | target (code : BitVec 6)
  | funct (code : BitVec 6)
  | condition (code : BitVec 5)
  deriving DecidableEq, Repr

def place : OpCode → Option Place
  | .j => some (.target 2) | .jal => some (.target 3) | .beq => some (.op 4) | .bne => some (.op 5)
  | .blez => some (.op 6) | .bgtz => some (.op 7) | .addi => some (.op 8) | .addiu => some (.op 9)
  | .slti => some (.op 10) | .sltiu => some (.op 11) | .andi => some (.op 12)
  | .ori => some (.op 13) | .xori => some (.op 14) | .lui => some (.op 15) | .lb => some (.op 32)
  | .lh => some (.op 33) | .lwl => some (.op 34) | .lw => some (.op 35) | .lbu => some (.op 36)
  | .lhu => some (.op 37) | .lwr => some (.op 38) | .sb => some (.op 40) | .sh => some (.op 41)
  | .swl => some (.op 42) | .sw => some (.op 43) | .swr => some (.op 46)
  | .bltz => some (.condition 0) | .bgez => some (.condition 1) | .bltzal => some (.condition 16)
  | .bgezal => some (.condition 17)
  | .sll => some (.funct 0) | .srl => some (.funct 2) | .sra => some (.funct 3)
  | .sllv => some (.funct 4) | .srlv => some (.funct 6) | .srav => some (.funct 7)
  | .jr => some (.funct 8) | .jalr => some (.funct 9) | .syscall => some (.funct 12)
  | .mfhi => some (.funct 16) | .mthi => some (.funct 17) | .mflo => some (.funct 18)
  | .mtlo => some (.funct 19) | .mult => some (.funct 24) | .multu => some (.funct 25)
  | .div => some (.funct 26) | .divu => some (.funct 27) | .add => some (.funct 32)
  | .addu => some (.funct 33) | .sub => some (.funct 34) | .subu => some (.funct 35)
  | .and => some (.funct 36) | .or => some (.funct 37) | .xor => some (.funct 38)
  | .nor => some (.funct 39) | .slt => some (.funct 42) | .sltu => some (.funct 43)
  | .rfe | .unimp | .res | .special | .bcond => none

/-- The word that an assembler writes for an operation and its operands. -/
def assemble (op : OpCode) (rs rt rd shamt : BitVec 5) (imm : BitVec 16) (target : BitVec 26) :
    Option Word :=
  (place op).map fun
    | .op code => immediate code rs rt imm
    | .target code => jump code target
    | .funct code => register code rs rt rd shamt
    | .condition code => immediate 1 rs code imm

variable {v : Word} {op : OpCode} {rs rt rd shamt : BitVec 5} {imm : BitVec 16} {target : BitVec 26}

/-! Fields as numbers. -/

theorem toNat_append {m n : ℕ} (x : BitVec m) (y : BitVec n) :
    (x ++ y).toNat = x.toNat * 2 ^ n + y.toNat := by
  rw [BitVec.toNat_append, Nat.shiftLeft_eq, Nat.mul_comm, Nat.two_pow_add_eq_or_of_lt y.isLt]

theorem toNat_field (v : Word) (k n : ℕ) (hn : 2 ^ n - 1 < 2 ^ 32) :
    ((v >>> k) &&& BitVec.ofNat 32 (2 ^ n - 1)).toNat = v.toNat / 2 ^ k % 2 ^ n := by
  rw [BitVec.toNat_and, BitVec.toNat_ofNat, Nat.mod_eq_of_lt hn, Nat.and_two_pow_sub_one_eq_mod,
    BitVec.toNat_ushiftRight, Nat.shiftRight_eq_div_pow]

theorem rs_decode (v : Word) : (decode v).rs = v.toNat / 2 ^ 21 % 2 ^ 5 :=
  toNat_field v 21 5 (by decide)

theorem rt_decode (v : Word) : (decode v).rt = v.toNat / 2 ^ 16 % 2 ^ 5 :=
  toNat_field v 16 5 (by decide)

theorem rd_decode (v : Word) : (decode v).rd = v.toNat / 2 ^ 11 % 2 ^ 5 :=
  toNat_field v 11 5 (by decide)

theorem opField (v : Word) : ((v >>> 26) &&& 0x3f).toNat = v.toNat / 2 ^ 26 % 2 ^ 6 :=
  toNat_field v 26 6 (by decide)

theorem functField (v : Word) : (v &&& 0x3f).toNat = v.toNat % 2 ^ 6 := by
  have h := toNat_field v 0 6 (by decide)
  simpa using h

theorem toNat_register (funct : BitVec 6) (rs rt rd shamt : BitVec 5) :
    (register funct rs rt rd shamt).toNat =
      (((rs.toNat * 2 ^ 5 + rt.toNat) * 2 ^ 5 + rd.toNat) * 2 ^ 5 + shamt.toNat) * 2 ^ 6 +
        funct.toNat := by
  simp only [register, toNat_append, BitVec.toNat_ofNat]
  omega

theorem toNat_immediate (op : BitVec 6) (rs rt : BitVec 5) (imm : BitVec 16) :
    (immediate op rs rt imm).toNat =
      ((op.toNat * 2 ^ 5 + rs.toNat) * 2 ^ 5 + rt.toNat) * 2 ^ 16 + imm.toNat := by
  simp only [immediate, toNat_append]

theorem toNat_jump (op : BitVec 6) (target : BitVec 26) :
    (jump op target).toNat = op.toNat * 2 ^ 26 + target.toNat := toNat_append _ _

/-! The immediate. -/

theorem getLsbD_lowHalf {i : ℕ} (hi : i < 32) : (0xffff : Word).getLsbD i = decide (i < 16) := by
  rw [show (0xffff : Word) = BitVec.ofNat 32 (2 ^ 16 - 1) from rfl, BitVec.getLsbD_ofNat,
    Nat.testBit_two_pow_sub_one]
  simp [hi]

theorem decodeExtra_ifmt (v : Word) : decodeExtra v .ifmt = (v.setWidth 16).signExtend 32 := by
  have hbit : v &&& 0xffff &&& 0x8000 = if v.getLsbD 15 then 0x8000 else 0 := by
    rw [BitVec.and_assoc, show (0xffff : Word) &&& 0x8000 = BitVec.twoPow 32 15 by decide,
      BitVec.and_twoPow]
    rfl
  have hmsb : (v.setWidth 16).msb = v.getLsbD 15 := by simp [BitVec.msb_eq_getLsbD_last]
  refine BitVec.eq_of_getLsbD_eq fun i hi => ?_
  rw [BitVec.getLsbD_signExtend, hmsb, decodeExtra, hbit]
  cases v.getLsbD 15 with
  | false =>
    rw [if_neg (by decide : ¬ false = true), if_neg (by decide), BitVec.getLsbD_and,
      getLsbD_lowHalf hi, BitVec.getLsbD_setWidth]
    by_cases h16 : i < 16 <;> simp [hi, h16]
  | true =>
    rw [if_pos rfl, if_pos (by decide), show (0xffff0000 : Word) = ~~~0xffff by decide,
      BitVec.getLsbD_or, BitVec.getLsbD_and, BitVec.getLsbD_not, getLsbD_lowHalf hi,
      BitVec.getLsbD_setWidth]
    by_cases h16 : i < 16 <;> simp [hi, h16]

theorem decodeExtra_rfmt (v : Word) : decodeExtra v .rfmt = .ofNat 32 (v.toNat / 2 ^ 6 % 2 ^ 5) := by
  rw [← toNat_field v 6 5 (by decide), BitVec.ofNat_toNat, BitVec.setWidth_eq]
  rfl

theorem decodeExtra_jfmt (v : Word) : decodeExtra v .jfmt = .ofNat 32 (v.toNat % 2 ^ 26) := by
  have h := toNat_field v 0 26 (by decide)
  rw [Nat.pow_zero, Nat.div_one, BitVec.ushiftRight_zero] at h
  rw [← h, BitVec.ofNat_toNat, BitVec.setWidth_eq]
  rfl

/-- The field that tells the branches of `BCOND` apart. -/
theorem condition_field (v : Word) :
    v &&& 0x1f0000 = BitVec.ofNat 32 (v.toNat / 2 ^ 16 % 2 ^ 5 * 2 ^ 16) := by
  have hshift : (v &&& 0x1f0000 : Word) = ((v >>> 16) &&& 0x1f) <<< 16 := by
    rw [show (0x1f0000 : Word) = (0x1f : Word) <<< 16 by decide]
    refine BitVec.eq_of_getLsbD_eq fun i hi => ?_
    rw [BitVec.getLsbD_and, BitVec.getLsbD_shiftLeft, BitVec.getLsbD_shiftLeft, BitVec.getLsbD_and,
      BitVec.getLsbD_ushiftRight]
    by_cases h16 : i < 16
    · simp [h16]
    · simp [h16, hi, Nat.add_sub_cancel' (Nat.le_of_not_lt h16)]
  have hfield := toNat_field v 16 5 (by decide)
  refine BitVec.eq_of_toNat_eq ?_
  rw [hshift, BitVec.toNat_shiftLeft, BitVec.toNat_ofNat, ← hfield, Nat.shiftLeft_eq]
  rfl

theorem decodeOpCode_bcond (v : Word) :
    decodeOpCode v .bcond =
      decodeOpCode (.ofNat 32 (v.toNat / 2 ^ 16 % 2 ^ 5 * 2 ^ 16)) .bcond := by
  have hlt : v.toNat / 2 ^ 16 % 2 ^ 5 < 2 ^ 5 := Nat.mod_lt _ (by decide)
  have hv := condition_field v
  have hsame := condition_field (.ofNat 32 (v.toNat / 2 ^ 16 % 2 ^ 5 * 2 ^ 16))
  generalize v.toNat / 2 ^ 16 % 2 ^ 5 = c at *
  have hc : (BitVec.ofNat 32 (c * 2 ^ 16)).toNat / 2 ^ 16 % 2 ^ 5 = c := by
    rw [BitVec.toNat_ofNat, Nat.mod_eq_of_lt (show c * 2 ^ 16 < 2 ^ 32 by omega),
      Nat.mul_div_cancel c (show 0 < 2 ^ 16 by decide), Nat.mod_eq_of_lt hlt]
  rw [hc] at hsame
  simp only [decodeOpCode, hv, hsame]

/-! Round trips. -/

/-- The operands are where the format of the operation has them. -/
def Operands (i : Instruction) (rs rt rd shamt : BitVec 5) (imm : BitVec 16) (target : BitVec 26) :
    Place → Prop
  | .op _ => i.rs = rs.toNat ∧ i.rt = rt.toNat ∧ i.extra = imm.signExtend 32
  | .target _ => i.extra = target.setWidth 32
  | .funct _ =>
    i.rs = rs.toNat ∧ i.rt = rt.toNat ∧ i.rd = rd.toNat ∧ i.extra = shamt.setWidth 32
  | .condition _ => i.rs = rs.toNat ∧ i.extra = imm.signExtend 32

theorem opCode_of_place {p : Place} (hp : place op = some p) :
    match p with
    | .op c => opTable[c.toNat]? = some (op, .ifmt)
    | .target c => opTable[c.toNat]? = some (op, .jfmt)
    | .funct c => specialTable[c.toNat]? = some op
    | .condition c => decodeOpCode (BitVec.ofNat 32 (c.toNat * 2 ^ 16)) .bcond = op := by
  cases op <;> cases hp <;> decide

theorem decodeOpCode_of_place {p : Place} (hp : place op = some p) (v : Word) :
    decodeOpCode v op = op := by
  cases op <;> first | rfl | cases hp

theorem decode_immediate {c : BitVec 6} {op : OpCode} (hc : opTable[c.toNat]? = some (op, .ifmt))
    (rs rt : BitVec 5) (imm : BitVec 16) :
    (decode (immediate c rs rt imm)).opCode = decodeOpCode (immediate c rs rt imm) op ∧
      (decode (immediate c rs rt imm)).rs = rs.toNat ∧
      (decode (immediate c rs rt imm)).rt = rt.toNat ∧
      (decode (immediate c rs rt imm)).extra = imm.signExtend 32 := by
  have hv := toNat_immediate c rs rt imm
  have hfield : ((immediate c rs rt imm >>> 26) &&& 0x3f).toNat = c.toNat := by
    rw [opField, hv]
    omega
  have himm : (immediate c rs rt imm).setWidth 16 = imm := by
    refine BitVec.eq_of_toNat_eq ?_
    rw [BitVec.toNat_setWidth, hv]
    omega
  refine ⟨?_, ?_, ?_, ?_⟩
  · simp only [decode, hfield, List.getD_eq_getElem?_getD, hc, Option.getD_some]
  · rw [rs_decode, hv]
    omega
  · rw [rt_decode, hv]
    omega
  · simp only [decode, hfield, List.getD_eq_getElem?_getD, hc, Option.getD_some]
    rw [decodeExtra_ifmt, himm]

theorem decode_register {c : BitVec 6} {op : OpCode} (hc : specialTable[c.toNat]? = some op)
    (rs rt rd shamt : BitVec 5) :
    decode (register c rs rt rd shamt) = ⟨op, rs.toNat, rt.toNat, rd.toNat, shamt.setWidth 32⟩ := by
  have hv := toNat_register c rs rt rd shamt
  have hfield : ((register c rs rt rd shamt >>> 26) &&& 0x3f).toNat = 0 := by
    rw [opField, hv]
    omega
  have hfunct : (register c rs rt rd shamt &&& 0x3f).toNat = c.toNat := by
    rw [functField, hv]
    omega
  have hop : (decode (register c rs rt rd shamt)).opCode = op := by
    simp only [decode, hfield]
    change specialTable.getD (register c rs rt rd shamt &&& 0x3f).toNat .res = op
    rw [hfunct, List.getD_eq_getElem?_getD, hc, Option.getD_some]
  have hextra : (decode (register c rs rt rd shamt)).extra = shamt.setWidth 32 := by
    simp only [decode, hfield]
    change decodeExtra (register c rs rt rd shamt) .rfmt = shamt.setWidth 32
    refine BitVec.eq_of_toNat_eq ?_
    rw [decodeExtra_rfmt, hv, BitVec.toNat_ofNat, BitVec.toNat_setWidth]
    omega
  have hrs := rs_decode (register c rs rt rd shamt)
  have hrt := rt_decode (register c rs rt rd shamt)
  have hrd := rd_decode (register c rs rt rd shamt)
  rw [hv] at hrs hrt hrd
  generalize decode (register c rs rt rd shamt) = i at *
  cases i
  simp only [Instruction.mk.injEq] at *
  exact ⟨hop, by omega, by omega, by omega, hextra⟩

theorem decode_jump {c : BitVec 6} (hc : opTable[c.toNat]? = some (op, .jfmt)) {p : Place}
    (hp : place op = some p) (target : BitVec 26) :
    (decode (jump c target)).opCode = op ∧ (decode (jump c target)).extra = target.setWidth 32 := by
  have hv := toNat_jump c target
  have hfield : ((jump c target >>> 26) &&& 0x3f).toNat = c.toNat := by
    rw [opField, hv]
    omega
  simp only [decode, hfield, List.getD_eq_getElem?_getD, hc, Option.getD_some]
  refine ⟨decodeOpCode_of_place hp _, BitVec.eq_of_toNat_eq ?_⟩
  rw [decodeExtra_jfmt, hv, BitVec.toNat_ofNat, BitVec.toNat_setWidth]
  omega

theorem decode_assemble {p : Place} (hp : place op = some p)
    (hv : assemble op rs rt rd shamt imm target = some v) :
    (decode v).opCode = op ∧ Operands (decode v) rs rt rd shamt imm target p := by
  have hcode := opCode_of_place hp
  rw [assemble, hp, Option.map_some, Option.some.injEq] at hv
  subst hv
  cases p with
  | op c =>
    obtain ⟨hop, hrs, hrt, hextra⟩ := decode_immediate hcode rs rt imm
    exact ⟨hop.trans (decodeOpCode_of_place hp _), hrs, hrt, hextra⟩
  | target c => exact decode_jump hcode hp target
  | funct c =>
    rw [decode_register hcode rs rt rd shamt]
    exact ⟨rfl, rfl, rfl, rfl, rfl⟩
  | condition c =>
    obtain ⟨hop, hrs, -, hextra⟩ := decode_immediate
      (show opTable[(1 : BitVec 6).toNat]? = some (.bcond, .ifmt) from rfl) rs c imm
    refine ⟨?_, hrs, hextra⟩
    rw [hop, ← hcode]
    have hfield : (immediate 1 rs c imm).toNat / 2 ^ 16 % 2 ^ 5 = c.toNat := by
      rw [toNat_immediate]
      omega
    rw [decodeOpCode_bcond, hfield]

/-! Every word. -/

theorem opTable_place : ∀ k : Fin 64,
    ((opTable.getD k (.res, .ifmt)).1 = .special ∧ k = 0) ∨
    ((opTable.getD k (.res, .ifmt)).1 = .bcond ∧ k = 1) ∨
    (opTable.getD k (.res, .ifmt)).1 ∉ [OpCode.special, .bcond, .rfe] ∧
      (place (opTable.getD k (.res, .ifmt)).1 = some (.op (.ofNat 6 k)) ∨
        place (opTable.getD k (.res, .ifmt)).1 = some (.target (.ofNat 6 k)) ∨
        place (opTable.getD k (.res, .ifmt)).1 = none) := by
  decide

theorem specialTable_place : ∀ k : Fin 64,
    specialTable.getD k .res ∉ [OpCode.special, .bcond, .rfe] ∧
    (place (specialTable.getD k .res) = some (.funct (.ofNat 6 k)) ∨
      place (specialTable.getD k .res) = none) := by
  decide

theorem condition_place : ∀ k : Fin 32,
    decodeOpCode (.ofNat 32 (k * 2 ^ 16)) .bcond ∉ [OpCode.special, .bcond, .rfe] ∧
    (place (decodeOpCode (.ofNat 32 (k * 2 ^ 16)) .bcond) = some (.condition (.ofNat 5 k)) ∨
      place (decodeOpCode (.ofNat 32 (k * 2 ^ 16)) .bcond) = none) := by
  decide

theorem decodeOpCode_other (h : op ∉ [OpCode.special, .bcond, .rfe]) (v : Word) :
    decodeOpCode v op = op := by
  cases op <;> first | rfl | simp at h

theorem toNat_div_lt (v : Word) : v.toNat / 2 ^ 26 % 2 ^ 6 < 64 := Nat.mod_lt _ (by decide)

/-- The three ways to an operation. -/
theorem decode_cases (v : Word) :
    (v.toNat / 2 ^ 26 % 2 ^ 6 = 0 ∧ (decode v).opCode = specialTable.getD (v.toNat % 2 ^ 6) .res) ∨
    (v.toNat / 2 ^ 26 % 2 ^ 6 = 1 ∧
      (decode v).opCode = decodeOpCode (.ofNat 32 (v.toNat / 2 ^ 16 % 2 ^ 5 * 2 ^ 16)) .bcond) ∨
    ((decode v).opCode ∉ [OpCode.special, .bcond, .rfe] ∧
      (place (decode v).opCode = some (.op (.ofNat 6 (v.toNat / 2 ^ 26 % 2 ^ 6))) ∨
        place (decode v).opCode = some (.target (.ofNat 6 (v.toNat / 2 ^ 26 % 2 ^ 6))) ∨
        place (decode v).opCode = none)) := by
  have hk := opTable_place ⟨_, toNat_div_lt v⟩
  have hdecode : (decode v).opCode =
      decodeOpCode v (opTable.getD (v.toNat / 2 ^ 26 % 2 ^ 6) (.res, .ifmt)).1 := by
    simp only [decode, opField]
  rcases hk with ⟨hop, hzero⟩ | ⟨hop, hone⟩ | ⟨hother, hplace⟩
  · refine .inl ⟨congrArg Fin.val hzero, ?_⟩
    rw [hdecode, hop, decodeOpCode, functField]
  · refine .inr (.inl ⟨congrArg Fin.val hone, ?_⟩)
    rw [hdecode, hop, decodeOpCode_bcond]
  · refine .inr (.inr ?_)
    rw [hdecode, decodeOpCode_other hother]
    exact ⟨hother, hplace⟩

/-- `Decode` yields an operation that the simulator has a case for. -/
theorem decode_legal (v : Word) : (decode v).opCode ∉ [OpCode.special, .bcond, .rfe] := by
  rcases decode_cases v with ⟨-, hop⟩ | ⟨-, hop⟩ | ⟨hop, -⟩
  · rw [hop]
    exact (specialTable_place ⟨_, Nat.mod_lt _ (by decide)⟩).1
  · rw [hop]
    exact (condition_place ⟨_, Nat.mod_lt _ (by decide)⟩).1
  · exact hop

/-- The fields of a word, as an assembler would write them again. -/
theorem assemble_fields {p : Place} (hp : place (decode v).opCode = some p) :
    assemble (decode v).opCode (v.extractLsb' 21 5) (v.extractLsb' 16 5) (v.extractLsb' 11 5)
      (v.extractLsb' 6 5) (v.extractLsb' 0 16) (v.extractLsb' 0 26) = some v := by
  have hlt := v.isLt
  rw [assemble, hp, Option.map_some]
  refine congrArg some (BitVec.eq_of_toNat_eq ?_)
  rcases decode_cases v with ⟨hzero, hop⟩ | ⟨hone, hop⟩ | ⟨-, hop | hop | hop⟩
  · have hplace := (specialTable_place ⟨v.toNat % 2 ^ 6, Nat.mod_lt _ (by decide)⟩).2
    rw [← hop, hp] at hplace
    obtain rfl : p = .funct (.ofNat 6 (v.toNat % 2 ^ 6)) := by simpa using hplace
    simp only [toNat_register, BitVec.extractLsb'_toNat, BitVec.toNat_ofNat, Nat.shiftRight_eq_div_pow]
    omega
  · have hplace := (condition_place ⟨v.toNat / 2 ^ 16 % 2 ^ 5, Nat.mod_lt _ (by decide)⟩).2
    rw [← hop, hp] at hplace
    obtain rfl : p = .condition (.ofNat 5 (v.toNat / 2 ^ 16 % 2 ^ 5)) := by simpa using hplace
    have hcode : (1 : BitVec 6).toNat = 1 := rfl
    simp only [toNat_immediate, hcode, BitVec.extractLsb'_toNat, BitVec.toNat_ofNat,
      Nat.shiftRight_eq_div_pow]
    omega
  · obtain rfl : p = _ := Option.some.inj (hp.symm.trans hop)
    simp only [toNat_immediate, BitVec.extractLsb'_toNat, BitVec.toNat_ofNat, Nat.shiftRight_eq_div_pow]
    omega
  · obtain rfl : p = _ := Option.some.inj (hp.symm.trans hop)
    simp only [toNat_jump, BitVec.extractLsb'_toNat, BitVec.toNat_ofNat, Nat.shiftRight_eq_div_pow]
    omega
  · rw [hp] at hop
    cases hop

/-- `Decode` reads back what an assembler writes, a word that it reads as an operation is what an
assembler writes for its fields, and it never leaves the simulator without a case. -/
theorem decode_inverts_assembler :
    (∀ op p rs rt rd shamt imm target v, place op = some p →
      assemble op rs rt rd shamt imm target = some v →
        (decode v).opCode = op ∧ Operands (decode v) rs rt rd shamt imm target p) ∧
    (∀ v, (place (decode v).opCode).isSome →
      ∃ rs rt rd shamt imm target, assemble (decode v).opCode rs rt rd shamt imm target = some v) ∧
    ∀ v, (decode v).opCode ∉ [OpCode.special, .bcond, .rfe] := by
  refine ⟨fun op p rs rt rd shamt imm target v hp hv => decode_assemble hp hv, fun v hv => ?_,
    decode_legal⟩
  obtain ⟨p, hp⟩ := Option.isSome_iff_exists.mp hv
  exact ⟨_, _, _, _, _, _, assemble_fields hp⟩

/-- `ADD r3, r1, r2` -/
theorem decode_inverts_assembler_add :
    (decode 0x221820).opCode = .add ∧ Operands (decode 0x221820) 1 2 3 0 0 0 (.funct 32) :=
  decode_inverts_assembler.1 .add (.funct 32) 1 2 3 0 0 0 0x221820 rfl (by decide)

end Nachos.Mips
