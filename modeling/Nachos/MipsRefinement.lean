import Nachos.MipsArchitecture

/-! The simulator against the architecture: where `OneInstruction` does what the instruction means,
and where it does not. -/
namespace Nachos.Mips

variable {μ : Type} {bus : Bus μ} {r r' : Registers} {c c' : Cpu} {m : μ} {i : Instruction}
  {a b w : Word} {k n : ℕ} {exceptionHandler : ExceptionType → Machine μ → Option (Machine μ)}

/-! The registers. -/

theorem Cpu.reg_zero (c : Cpu) : c.reg 0 = 0 := c.zero

theorem Cpu.toRegisters_reg (c : Cpu) (hk : k < 32) : c.toRegisters k = c.reg k := if_pos hk

theorem Cpu.reg_write (c : Cpu) (w : Word) (hk : k < 32) (hn : n < 32) :
    (c.write k w).reg n = if n = k ∧ n ≠ 0 then w else c.reg n := by
  have hiff : (Fin.ofNat 32 n = Fin.ofNat 32 k ∧ Fin.ofNat 32 n ≠ 0) ↔ n = k ∧ n ≠ 0 := by
    simp only [Fin.ext_iff, ne_eq, Fin.ofNat, Nat.mod_eq_of_lt hk, Nat.mod_eq_of_lt hn]
    rfl
  simp only [reg, write, hiff]

/-- The array shows the registers, except that register 0 need not hold 0 yet. -/
def Shows (r : Registers) (c : Cpu) : Prop := ∀ k ≠ 0, r k = c.toRegisters k

theorem shows_toRegisters (c : Cpu) : Shows c.toRegisters c := fun _ _ => rfl

theorem Shows.write (h : Shows r c) (hk : k < 32) (w : Word) : Shows (set r k w) (c.write k w) := by
  intro n hn
  by_cases hlt : n < 32
  · rw [Cpu.toRegisters_reg _ hlt, Cpu.reg_write c w hk hlt, set, Function.update_apply]
    by_cases hnk : n = k
    · rw [if_pos hnk, if_pos ⟨hnk, hn⟩]
    · rw [if_neg hnk, if_neg fun h => hnk h.1, h n hn, Cpu.toRegisters_reg c hlt]
  · rw [set, Function.update_of_ne (by omega), h n hn]
    simp only [Cpu.toRegisters, if_neg hlt]
    rfl

theorem Shows.hi (h : Shows r c) (w : Word) : Shows (set r hiReg w) { c with hi := w } := by
  intro n hn
  rw [set, Function.update_apply]
  by_cases hhi : n = hiReg
  · rw [if_pos hhi, hhi]
    rfl
  · rw [if_neg hhi, h n hn]
    simp only [Cpu.toRegisters, if_neg hhi]
    rfl

theorem Shows.lo (h : Shows r c) (w : Word) : Shows (set r loReg w) { c with lo := w } := by
  intro n hn
  rw [set, Function.update_apply]
  by_cases hlo : n = loReg
  · rw [if_pos hlo, hlo]
    rfl
  · rw [if_neg hlo, h n hn]
    simp only [Cpu.toRegisters, if_neg hlo]
    rfl

theorem Shows.badVAddr (h : Shows r c) (w : Word) :
    Shows (set r badVAddrReg w) { c with badVAddr := w } := by
  intro n hn
  rw [set, Function.update_apply]
  by_cases hbad : n = badVAddrReg
  · rw [if_pos hbad, hbad]
    rfl
  · rw [if_neg hbad, h n hn]
    simp only [Cpu.toRegisters, if_neg hbad]
    rfl

theorem set_toRegisters (c : Cpu) (hk : k < 32) (hk0 : k ≠ 0) (w : Word) :
    set c.toRegisters k w = (c.write k w).toRegisters := by
  funext n
  by_cases hn : n = 0
  · rw [set, Function.update_of_ne (hn ▸ hk0.symm), hn, c.toRegisters_reg (by decide),
      Cpu.toRegisters_reg _ (by decide), Cpu.reg_zero, Cpu.reg_zero]
  · exact (shows_toRegisters c).write hk w n hn

theorem set_prevPC (c : Cpu) (w : Word) :
    set c.toRegisters prevPCReg w = { c with prevPC := w }.toRegisters := by
  funext n
  rw [set, Function.update_apply]
  split_ifs with hn
  · rw [hn]
    rfl
  · simp only [Cpu.toRegisters, if_neg hn]
    rfl

theorem set_pc (c : Cpu) (w : Word) :
    set c.toRegisters pcReg w = { c with pc := w }.toRegisters := by
  funext n
  rw [set, Function.update_apply]
  split_ifs with hn
  · rw [hn]
    rfl
  · simp only [Cpu.toRegisters, if_neg hn]
    rfl

theorem set_nextPC (c : Cpu) (w : Word) :
    set c.toRegisters nextPCReg w = { c with nextPC := w }.toRegisters := by
  funext n
  rw [set, Function.update_apply]
  split_ifs with hn
  · rw [hn]
    rfl
  · simp only [Cpu.toRegisters, if_neg hn]
    rfl

/-- `DelayedLoad` lets the pending value arrive. -/
theorem Shows.delayedLoad (h : Shows r c) (load : Fin 32 × Word) :
    delayedLoad r load.1 load.2 = .ok { c.arrive with pending := load }.toRegisters := by
  have hreg : (r Nachos.Mips.loadReg).toNat = c.pending.1 := by
    rw [h _ (by decide), show c.toRegisters Nachos.Mips.loadReg = .ofNat 32 c.pending.1 from rfl,
      BitVec.toNat_ofNat]
    have hlt := c.pending.1.isLt
    omega
  have hvalue : r loadValueReg = c.pending.2 := h _ (by decide)
  have harrive : Shows (set r c.pending.1 c.pending.2) c.arrive := h.write c.pending.1.isLt _
  rw [Nachos.Mips.delayedLoad, hreg, hvalue, if_pos (c.pending.1.isLt.trans (by decide))]
  refine congrArg Except.ok (funext fun n => ?_)
  simp only [set, Function.update_apply] at harrive ⊢
  by_cases hzero : n = 0
  · rw [if_pos hzero, hzero]
    exact (Cpu.reg_zero { c.arrive with pending := load }).symm
  · rw [if_neg hzero]
    by_cases hval : n = loadValueReg
    · rw [if_pos hval, hval]
      rfl
    · rw [if_neg hval]
      by_cases hload : n = loadReg
      · rw [if_pos hload, hload]
        rfl
      · rw [if_neg hload]
        have hn := harrive n hzero
        simp only [Function.update_apply] at hn
        rw [hn]
        simp only [Cpu.toRegisters, if_neg hload, if_neg hval]
        rfl

theorem Shows.advance (h : Shows r c) (m : μ) (load : Fin 32 × Word) (target : Word) :
    advance r m load.1 load.2 target = .ok ⟨(c.retire load target).toRegisters, m⟩ := by
  rw [Nachos.Mips.advance, h.delayedLoad load]
  refine congrArg (fun r => Except.ok (Machine.mk r m)) (funext fun n => ?_)
  simp only [set, Function.update_apply]
  by_cases hnext : n = nextPCReg
  · rw [if_pos hnext, hnext]
    rfl
  · rw [if_neg hnext]
    by_cases hpc : n = pcReg
    · rw [if_pos hpc, hpc]
      rfl
    · rw [if_neg hpc]
      by_cases hprev : n = prevPCReg
      · rw [if_pos hprev, hprev]
        rfl
      · rw [if_neg hprev]
        simp only [Cpu.toRegisters, if_neg hnext, if_neg hpc, if_neg hprev]
        rfl

theorem inKernel_eq_ok {which : ExceptionType} {s s' : Machine μ} :
    inKernel exceptionHandler which s = .ok s' ↔ exceptionHandler which s = some s' := by
  rw [inKernel]
  cases exceptionHandler which s <;> simp

theorem raiseException_eq (c : Cpu) (m : μ) (which : ExceptionType) (badVAddr : Word) :
    raiseException exceptionHandler ⟨c.toRegisters, m⟩ which badVAddr =
      inKernel exceptionHandler which ⟨(c.interrupted badVAddr).toRegisters, m⟩ := by
  have hload := ((shows_toRegisters c).badVAddr badVAddr).delayedLoad (0, 0)
  simp only [raiseException, bind, Except.bind]
  rw [show (0 : ℕ) = ((0 : Fin 32) : ℕ) from rfl, hload]
  rfl

/-! The arithmetic. -/

theorem and_signBit (w : Word) : w &&& signBit = 0 ↔ 0 ≤ w.toInt := by
  have h := (and_top_ne_zero_iff w).not
  rw [ne_eq, not_not] at h
  rw [show signBit = 0x80000000 from rfl, h, BitVec.toInt_eq_toNat_cond]
  split_ifs <;> omega

theorem xor_signBit (a b : Word) : (a ^^^ b) &&& signBit = 0 ↔ (a.toInt < 0 ↔ b.toInt < 0) := by
  have hsign : decide ((a ^^^ b).toInt < 0) = (decide (a.toInt < 0) ^^ decide (b.toInt < 0)) := by
    rw [← BitVec.msb_eq_toInt, ← BitVec.msb_eq_toInt, ← BitVec.msb_eq_toInt, BitVec.msb_xor]
  rw [and_signBit, ← not_lt, ← decide_eq_true_iff (p := (a ^^^ b).toInt < 0), hsign]
  by_cases ha : a.toInt < 0 <;> by_cases hb : b.toInt < 0 <;> simp [ha, hb]

theorem add_overflow (a b : Word) :
    (a ^^^ b) &&& signBit = 0 ∧ (a ^^^ (a + b)) &&& signBit ≠ 0 ↔
      ¬ (-2 ^ 31 ≤ a.toInt + b.toInt ∧ a.toInt + b.toInt < 2 ^ 31) := by
  rw [ne_eq, xor_signBit, xor_signBit, BitVec.toInt_add]
  have ha := a.le_toInt
  have ha' := a.toInt_lt
  have hb := b.le_toInt
  have hb' := b.toInt_lt
  rw [Int.bmod_def]
  split_ifs <;> omega

theorem sub_overflow (a b : Word) :
    (a ^^^ b) &&& signBit ≠ 0 ∧ (a ^^^ (a - b)) &&& signBit ≠ 0 ↔
      ¬ (-2 ^ 31 ≤ a.toInt - b.toInt ∧ a.toInt - b.toInt < 2 ^ 31) := by
  rw [ne_eq, ne_eq, xor_signBit, xor_signBit, BitVec.toInt_sub]
  have ha := a.le_toInt
  have ha' := a.toInt_lt
  have hb := b.le_toInt
  have hb' := b.toInt_lt
  rw [Int.bmod_def]
  split_ifs <;> omega

theorem add_eq (a b : Word) : a + b = .ofInt 32 (a.toInt + b.toInt) := by
  rw [BitVec.ofInt_add, BitVec.ofInt_toInt, BitVec.ofInt_toInt]

theorem sub_eq (a b : Word) : a - b = .ofInt 32 (a.toInt - b.toInt) :=
  BitVec.eq_of_toInt_eq (by rw [BitVec.toInt_sub, BitVec.toInt_ofInt])

theorem shiftLeft_eq (w : Word) (k : ℕ) : w <<< k = .ofInt 32 (w.toNat * 2 ^ k) := by
  rw [show (w.toNat : ℤ) * 2 ^ k = ((w.toNat * 2 ^ k : ℕ) : ℤ) by push_cast; rfl,
    BitVec.ofInt_natCast]
  refine BitVec.eq_of_toNat_eq ?_
  rw [BitVec.toNat_shiftLeft, Nat.shiftLeft_eq, BitVec.toNat_ofNat]

theorem ushiftRight_eq (w : Word) (k : ℕ) : w >>> k = .ofInt 32 (w.toNat / 2 ^ k) := by
  rw [show (w.toNat : ℤ) / 2 ^ k = ((w.toNat / 2 ^ k : ℕ) : ℤ) by push_cast; rfl,
    BitVec.ofInt_natCast]
  refine BitVec.eq_of_toNat_eq ?_
  have hlt := (Nat.div_le_self w.toNat (2 ^ k)).trans_lt w.isLt
  rw [BitVec.toNat_ushiftRight, Nat.shiftRight_eq_div_pow, BitVec.toNat_ofNat, Nat.mod_eq_of_lt hlt]

theorem sshiftRight_eq (w : Word) (k : ℕ) : w.sshiftRight k = .ofInt 32 (w.toInt / 2 ^ k) := by
  rw [← BitVec.ofInt_toInt (x := w.sshiftRight k), BitVec.toInt_sshiftRight,
    Int.shiftRight_eq_div_pow]
  norm_cast

theorem shiftLeft_toInt (w : Word) (k : ℕ) : w <<< k = .ofInt 32 (w.toInt * 2 ^ k) := by
  rw [shiftLeft_eq, BitVec.ofInt_mul, BitVec.ofInt_mul, BitVec.ofInt_natCast, BitVec.ofNat_toNat,
    BitVec.setWidth_eq, BitVec.ofInt_toInt]

theorem and_31 (w : Word) : (w &&& 0x1f).toNat = w.toNat % 32 := by
  simpa using toNat_field w 0 5 (by decide)

theorem divu_eq (a b : Word) : a / b = .ofNat 32 (a.toNat / b.toNat) := by
  refine BitVec.eq_of_toNat_eq ?_
  have hlt := (Nat.div_le_self a.toNat b.toNat).trans_lt a.isLt
  rw [BitVec.toNat_udiv, BitVec.toNat_ofNat, Nat.mod_eq_of_lt hlt]

theorem remu_eq (a b : Word) : a % b = .ofNat 32 (a.toNat % b.toNat) := by
  refine BitVec.eq_of_toNat_eq ?_
  have hlt := (Nat.mod_le a.toNat b.toNat).trans_lt a.isLt
  rw [BitVec.toNat_umod, BitVec.toNat_ofNat, Nat.mod_eq_of_lt hlt]

theorem sdiv_eq (a b : Word) : a.sdiv b = .ofInt 32 (a.toInt.tdiv b.toInt) :=
  BitVec.eq_of_toInt_eq (by rw [BitVec.toInt_sdiv, BitVec.toInt_ofInt])

theorem srem_eq (a b : Word) : a.srem b = .ofInt 32 (a.toInt.tmod b.toInt) := by
  rw [← BitVec.toInt_srem, BitVec.ofInt_toInt]

theorem branch_eq (a b : Word) : a + indexToAddr b = .ofInt 32 (a.toInt + 4 * b.toInt) := by
  rw [indexToAddr, shiftLeft_toInt, BitVec.ofInt_add, BitVec.ofInt_toInt, Int.mul_comm]
  rfl

theorem mult_signed_eq (a b : Word) : mult a b true =
    ((BitVec.ofInt 64 (a.toInt * b.toInt)).extractLsb' 32 32,
      (BitVec.ofInt 64 (a.toInt * b.toInt)).extractLsb' 0 32) := by
  rw [← (mult_exact a b).1, BitVec.ofInt_toInt, double, BitVec.extractLsb'_append_eq_left,
    BitVec.extractLsb'_append_eq_right]

theorem mult_unsigned_eq (a b : Word) : mult a b false =
    ((BitVec.ofNat 64 (a.toNat * b.toNat)).extractLsb' 32 32,
      (BitVec.ofNat 64 (a.toNat * b.toNat)).extractLsb' 0 32) := by
  rw [← (mult_exact a b).2, BitVec.ofNat_toNat, BitVec.setWidth_eq, double,
    BitVec.extractLsb'_append_eq_left, BitVec.extractLsb'_append_eq_right]

/-! Parts of words. -/

theorem getLsbD_mask {n j : ℕ} (hj : j < 32) :
    (BitVec.ofNat 32 (2 ^ n - 1)).getLsbD j = decide (j < n) := by
  rw [BitVec.getLsbD_ofNat, Nat.testBit_two_pow_sub_one]
  simp [hj]

theorem and_mask (w : Word) (n : ℕ) :
    w &&& BitVec.ofNat 32 (2 ^ n - 1) = (w.setWidth n).setWidth 32 := by
  refine BitVec.eq_of_getLsbD_eq fun j hj => ?_
  rw [BitVec.getLsbD_and, getLsbD_mask hj, BitVec.getLsbD_setWidth, BitVec.getLsbD_setWidth]
  simp [hj, Bool.and_comm]

/-- A part whose sign bit is asked for before it is extended. -/
theorem sign_extended (w : Word) (hn : n < 31) :
    (if w &&& BitVec.twoPow 32 n ≠ 0 then w ||| ~~~BitVec.ofNat 32 (2 ^ (n + 1) - 1)
      else w &&& BitVec.ofNat 32 (2 ^ (n + 1) - 1)) = (w.setWidth (n + 1)).signExtend 32 := by
  have hmsb : (w.setWidth (n + 1)).msb = w.getLsbD n := by simp [BitVec.msb_eq_getLsbD_last]
  refine BitVec.eq_of_getLsbD_eq fun j hj => ?_
  rw [BitVec.getLsbD_signExtend, hmsb, BitVec.and_twoPow, BitVec.getLsbD_setWidth]
  cases w.getLsbD n with
  | false =>
    rw [if_neg (by decide : ¬ false = true), if_neg (by simp), BitVec.getLsbD_and, getLsbD_mask hj]
    by_cases hlow : j < n + 1 <;> simp [hj, hlow]
  | true =>
    have hpow : BitVec.twoPow 32 n ≠ 0 := by
      intro h
      have hbit := congrArg (fun v : Word => v.getLsbD n) h
      simp at hbit
      omega
    rw [if_pos rfl, if_pos hpow, BitVec.getLsbD_or, BitVec.getLsbD_not, getLsbD_mask hj]
    by_cases hlow : j < n + 1 <;> simp [hj, hlow]

theorem and_3_eq_zero (w : Word) : w &&& 3 = 0 ↔ w.toNat % 4 = 0 := by
  rw [← BitVec.toNat_inj]
  exact Iff.of_eq (congrArg (· = 0) (by simpa using toNat_field w 0 2 (by decide)))

theorem and_1_eq_zero (w : Word) : w &&& 1 = 0 ↔ w.toNat % 2 = 0 := by
  rw [← BitVec.toNat_inj]
  exact Iff.of_eq (congrArg (· = 0) (by simp))

theorem and_not_3 {w : Word} (h : w.toNat % 4 = 0) : w &&& ~~~3 = w := by
  have hlow := (and_3_eq_zero w).mpr h
  refine BitVec.eq_of_getLsbD_eq fun j hj => ?_
  have hbit := congrArg (fun v : Word => v.getLsbD j) hlow
  rw [BitVec.getLsbD_and, BitVec.getLsbD_not]
  simp only [BitVec.getLsbD_and] at hbit
  cases hw : w.getLsbD j with
  | false => rfl
  | true =>
    rw [hw, Bool.true_and] at hbit
    rw [hbit]
    simpa using hj

theorem lwr_eq (old w : Word) : old &&& 0xffffff00 ||| (w.sshiftRight 24 &&& 0xff) =
    Architecture.movedDown 3 w old := by
  have hjoin : old &&& 0xffffff00 ||| (w.sshiftRight 24 &&& 0xff) =
      old.extractLsb' 8 24 ++ w.extractLsb' 24 8 := by
    refine BitVec.eq_of_getLsbD_eq fun j hj => ?_
    rw [show (0xffffff00 : Word) = ~~~BitVec.ofNat 32 (2 ^ 8 - 1) by decide,
      show (0xff : Word) = BitVec.ofNat 32 (2 ^ 8 - 1) by decide, BitVec.getLsbD_or,
      BitVec.getLsbD_and, BitVec.getLsbD_and, BitVec.getLsbD_not, getLsbD_mask hj,
      BitVec.getLsbD_append, BitVec.getLsbD_sshiftRight]
    by_cases hlow : j < 8
    · simp [hlow, hj, show 24 + j < 32 by omega]
    · simp [hlow, hj, show 8 + (j - 8) = j by omega, show j - 8 < 24 by omega]
  have hold := old.isLt
  have hw := w.isLt
  rw [hjoin, Architecture.movedDown, ← BitVec.toNat_inj, toNat_append, BitVec.toNat_ofNat]
  simp only [BitVec.extractLsb'_toNat, Nat.shiftRight_eq_div_pow]
  omega

theorem swr_eq (b w : Word) :
    (w &&& (0xffffff : Word)) ||| b <<< 24 = Architecture.movedUp 3 b w := by
  have hjoin : (w &&& (0xffffff : Word)) ||| b <<< 24 = b.setWidth 8 ++ w.setWidth 24 := by
    refine BitVec.eq_of_getLsbD_eq fun j hj => ?_
    rw [show (0xffffff : Word) = BitVec.ofNat 32 (2 ^ 24 - 1) by decide, BitVec.getLsbD_or,
      BitVec.getLsbD_and, getLsbD_mask hj, BitVec.getLsbD_append, BitVec.getLsbD_shiftLeft]
    by_cases hlow : j < 24
    · simp [hlow, hj]
    · simp [hlow, hj, show j - 24 < 8 by omega]
  rw [hjoin, Architecture.movedUp, ← BitVec.toNat_inj, toNat_append, BitVec.toNat_ofNat]
  simp only [BitVec.toNat_setWidth]
  omega

theorem movedUp_zero (w other : Word) : Architecture.movedUp 0 w other = w := by
  rw [Architecture.movedUp, ← BitVec.toNat_inj, BitVec.toNat_ofNat]
  have hw := w.isLt
  omega

theorem movedDown_zero (w other : Word) : Architecture.movedDown 0 w other = w := by
  rw [Architecture.movedDown, ← BitVec.toNat_inj, BitVec.toNat_ofNat]
  have hw := w.isLt
  have hother := other.isLt
  omega

theorem wordOf_eq (hal : a.toNat % 4 = 0) : Architecture.wordOf a = a := by
  rw [Architecture.wordOf, Nat.div_mul_cancel (Nat.dvd_of_mod_eq_zero hal), BitVec.ofNat_toNat,
    BitVec.setWidth_eq]

theorem jump_eq (w e : Word) (h : e.toNat < 2 ^ 26) : (w &&& 0xf0000000) ||| indexToAddr e =
    w.extractLsb' 28 4 ++ e.extractLsb' 0 26 ++ 0#2 := by
  have hhigh : ∀ n, 26 ≤ n → e.getLsbD n = false := fun n hn =>
    Nat.testBit_lt_two_pow (h.trans_le (Nat.pow_le_pow_right (by decide) hn))
  refine BitVec.eq_of_getLsbD_eq fun j hj => ?_
  rw [show (0xf0000000 : Word) = ~~~BitVec.ofNat 32 (2 ^ 28 - 1) by decide, BitVec.getLsbD_or,
    BitVec.getLsbD_and, BitVec.getLsbD_not, getLsbD_mask hj, indexToAddr, BitVec.getLsbD_shiftLeft,
    BitVec.getLsbD_append, BitVec.getLsbD_append]
  by_cases hlow : j < 2
  · simp [hlow, hj, show j < 28 by omega]
  · by_cases hmid : j < 28
    · simp [hlow, hj, hmid, show j - 2 < 26 by omega]
    · simp [hlow, hj, hmid, show ¬ j - 2 < 26 by omega, show 28 + (j - 2 - 26) = j by omega,
        show j - 2 - 26 < 4 by omega, hhigh (j - 2) (by omega)]

/-! What follows from the `switch`. -/

variable {m₀ : μ}

theorem finish_raise (which : ExceptionType) (badVAddr : Word) :
    finish exceptionHandler ⟨c.toRegisters, m₀⟩ (.raise which badVAddr m) =
      (Architecture.trap which badVAddr c m).handled exceptionHandler :=
  raiseException_eq c m which badVAddr

theorem finish_goOn (h : Shows r c') (hnext : c'.nextPC = c.nextPC) :
    finish exceptionHandler ⟨c.toRegisters, m₀⟩ (goOn c.toRegisters r m) =
      (Architecture.goOn c' m).handled exceptionHandler := by
  refine (h.advance m (0, 0) (c.nextPC + 4)).trans ?_
  rw [Architecture.goOn, Architecture.following, hnext]
  rfl

theorem finish_write (hk : k < 32) (hw : a = b) :
    finish exceptionHandler ⟨c.toRegisters, m₀⟩
        (goOn c.toRegisters (set c.toRegisters k a) m) =
      (Architecture.goOn (c.write k b) m).handled exceptionHandler := by
  subst hw
  exact finish_goOn ((shows_toRegisters c).write hk a) rfl

theorem finish_signed {P : Prop} [Decidable P] {x : ℤ} (hk : k < 32)
    (hP : P ↔ ¬ (-2 ^ 31 ≤ x ∧ x < 2 ^ 31)) (hw : w = .ofInt 32 x) :
    finish exceptionHandler ⟨c.toRegisters, m₀⟩
        (if P then .raise .overflow 0 m else goOn c.toRegisters (set c.toRegisters k w) m) =
      (Architecture.signed c m k x).handled exceptionHandler := by
  by_cases hfits : -2 ^ 31 ≤ x ∧ x < 2 ^ 31
  · rw [if_neg fun h => hP.mp h hfits, Architecture.signed, if_pos hfits]
    exact finish_write hk hw
  · rw [if_pos (hP.mpr hfits), Architecture.signed, if_neg hfits]
    exact finish_raise _ _

theorem finish_branch {p q : Bool} (h : Shows r c') (hnext : c'.nextPC = c.nextPC) (hpq : p = q) :
    finish exceptionHandler ⟨c.toRegisters, m₀⟩ (branch p c.toRegisters r m i) =
      (Architecture.branch q c' m i).handled exceptionHandler := by
  subst hpq
  refine (h.advance m (0, 0) _).trans ?_
  rw [Architecture.branch, Architecture.following, hnext]
  cases p with
  | false => rfl
  | true =>
    rw [if_pos rfl, if_pos rfl, ← branch_eq]
    rfl

theorem finish_jump (h : Shows r c') (hw : a = b) :
    finish exceptionHandler ⟨c.toRegisters, m₀⟩ (.next r m 0 0 a) =
      (Result.next (c'.retire (0, 0) b) m).handled exceptionHandler := by
  subst hw
  exact h.advance m (0, 0) a

theorem finish_load (hrt : i.rt < 32) (size : ℕ) {f g : Word → Word} (hfg : ∀ w, f w = g w) :
    finish exceptionHandler ⟨c.toRegisters, m₀⟩ (load bus c.toRegisters m i a size f) =
      (Architecture.load bus c m i a size g).handled exceptionHandler := by
  rw [load, Architecture.load, funext hfg]
  cases bus.readMem m a size with
  | error e => exact finish_raise e a
  | ok x =>
    have hadvance := (shows_toRegisters c).advance x.2 (Fin.ofNat 32 i.rt, g x.1) (c.nextPC + 4)
    rw [show ((Fin.ofNat 32 i.rt : Fin 32) : ℕ) = i.rt from Nat.mod_eq_of_lt hrt] at hadvance
    exact hadvance

theorem finish_store (size : ℕ) :
    finish exceptionHandler ⟨c.toRegisters, m₀⟩ (write bus c.toRegisters m a size w) =
      (Architecture.store bus c m a size w).handled exceptionHandler := by
  rw [write, Architecture.store]
  cases bus.writeMem m a size w with
  | error e => exact finish_raise e a
  | ok m => exact finish_goOn (shows_toRegisters c) rfl

theorem finish_aligned {o : Outcome μ} {x : Result μ} {P : Prop} [Decidable P] (size : ℕ)
    (hP : P ↔ a.toNat % size ≠ 0)
    (h : finish exceptionHandler ⟨c.toRegisters, m₀⟩ o = x.handled exceptionHandler) :
    finish exceptionHandler ⟨c.toRegisters, m₀⟩ (if P then .raise .addressError a m else o) =
      (Architecture.aligned c m a size x).handled exceptionHandler := by
  by_cases hal : a.toNat % size = 0
  · rw [if_neg fun hp => hP.mp hp hal, Architecture.aligned, if_pos hal, h]
  · rw [if_pos (hP.mpr hal), Architecture.aligned, if_neg hal]
    exact finish_raise _ _

/-! Where the results can differ. -/

theorem pending_ne_iff (hk : k < 32) : c.pending.1 ≠ Fin.ofNat 32 k ↔ k ≠ c.pending.1 := by
  rw [ne_eq, Fin.ext_iff, Fin.val_ofNat, Nat.mod_eq_of_lt hk, eq_comm]

theorem reg_arrive_write (c : Cpu) (w : Word) (hk : k < 32) (hn : n < 32) :
    (c.write k w).arrive.reg n = if n = c.pending.1 ∧ n ≠ 0 then c.pending.2 else
      if n = k ∧ n ≠ 0 then w else c.reg n := by
  rw [Cpu.arrive, Cpu.reg_write _ _ (Fin.isLt _) hn, Cpu.reg_write _ _ hk hn]
  rfl

theorem Cpu.gpr_ext (h : ∀ n < 32, c.reg n = c'.reg n) : c.gpr = c'.gpr := by
  funext n
  have hn := h n n.isLt
  rwa [reg, reg, Fin.ofNat_val_eq_self] at hn

/-- A result that the pending load overwrites does not count. -/
theorem arrive_write (hk : k < 32) (h : ¬ (a ≠ b ∧ k ≠ 0 ∧ c.pending.1 ≠ Fin.ofNat 32 k)) :
    (c.write k a).arrive = (c.write k b).arrive := by
  rw [pending_ne_iff hk] at h
  refine Cpu.ext (Cpu.gpr_ext fun n hn => ?_) rfl rfl rfl rfl rfl rfl rfl
  rw [reg_arrive_write c a hk hn, reg_arrive_write c b hk hn]
  by_cases hab : a = b
  · rw [hab]
  · split_ifs with harrive hwritten
    · rfl
    · exact absurd ⟨hab, hwritten.1 ▸ hwritten.2,
        fun he => harrive ⟨hwritten.1.trans he, hwritten.2⟩⟩ h
    · rfl

theorem handled_goOn_write (hk : k < 32) :
    (Architecture.goOn (c.write k a) m).handled exceptionHandler =
        (Architecture.goOn (c.write k b) m).handled exceptionHandler ↔
      ¬ (a ≠ b ∧ k ≠ 0 ∧ c.pending.1 ≠ Fin.ofNat 32 k) := by
  refine ⟨fun h hdiff => ?_, fun h => ?_⟩
  · rw [pending_ne_iff hk] at hdiff
    have hregs := congrFun (congrArg Machine.registers (Except.ok.inj h)) k
    change (if k < 32 then (c.write k a).arrive.reg k else _) =
      if k < 32 then (c.write k b).arrive.reg k else _ at hregs
    rw [if_pos hk, if_pos hk, reg_arrive_write c a hk hk, reg_arrive_write c b hk hk,
      if_neg fun h => hdiff.2.2 h.1, if_pos ⟨rfl, hdiff.2.1⟩, if_neg fun h => hdiff.2.2 h.1,
      if_pos ⟨rfl, hdiff.2.1⟩] at hregs
    exact hdiff.1 hregs
  · simp only [Architecture.goOn, Cpu.retire, arrive_write hk h]
    rfl

theorem handled_next {x y : Word} {load : Fin 32 × Word} :
    (Result.next (c.retire load x) m).handled exceptionHandler =
        (Result.next (c.retire load y) m).handled exceptionHandler ↔ x = y := by
  refine ⟨fun h => ?_, fun h => by rw [h]⟩
  exact congrFun (congrArg Machine.registers (Except.ok.inj h)) nextPCReg

theorem handled_loads {x y target : Word} {k : Fin 32} :
    (Result.next (c.retire (k, x) target) m).handled exceptionHandler =
        (Result.next (c.retire (k, y) target) m).handled exceptionHandler ↔ x = y := by
  refine ⟨fun h => ?_, fun h => by rw [h]⟩
  exact congrFun (congrArg Machine.registers (Except.ok.inj h)) loadValueReg

theorem handled_store {v w : Word} {size : ℕ} :
    (Architecture.store bus c m a size v).handled exceptionHandler =
        (Architecture.store bus c m a size w).handled exceptionHandler ↔
      bus.writeMem m a size v = bus.writeMem m a size w := by
  refine ⟨fun h => ?_, fun h => by rw [Architecture.store, Architecture.store, h]⟩
  cases hv : bus.writeMem m a size v with
  | error e => exact (bus.translated hv).symm
  | ok mv =>
    cases hw : bus.writeMem m a size w with
    | error e =>
      have he := bus.translated hw (w := v)
      rw [hv] at he
      cases he
    | ok mw =>
      simp only [Architecture.store, hv, hw] at h
      exact congrArg Except.ok (congrArg Machine.memory (Except.ok.inj h))

/-- Of the architecture's instructions none stops the simulator. -/
theorem handled_ne_assertion (x : Result μ) :
    x.handled exceptionHandler ≠ .error .assertion := by
  cases x with
  | next c m => exact fun h => by cases h
  | trap which c m =>
    simp only [Result.handled, inKernel]
    cases exceptionHandler which ⟨c.toRegisters, m⟩ <;> exact fun h => by cases h

theorem handled_branch {p q : Bool} :
    (Architecture.branch p c m i).handled exceptionHandler =
        (Architecture.branch q c m i).handled exceptionHandler ↔ p = q ∨ i.extra <<< 2 = 4 := by
  have hadd : ∀ x y : Word, c.nextPC + x = c.nextPC + y ↔ x = y := fun x y =>
    ⟨fun h => by rwa [BitVec.add_right_inj] at h, fun h => by rw [h]⟩
  rw [Architecture.branch, Architecture.branch, handled_next, ← branch_eq, indexToAddr,
    Architecture.following]
  cases p <;> cases q <;> simp [hadd, eq_comm]

theorem sshiftRight_eq_ushiftRight (w : Word) (k : ℕ) :
    w.sshiftRight k = w >>> k ↔ ¬ (w.toInt < 0 ∧ k ≠ 0) := by
  have hmsb : w.msb = decide (w.toInt < 0) := BitVec.msb_eq_toInt
  refine ⟨fun h hneg => ?_, fun h => ?_⟩
  · have hsign := congrArg BitVec.msb h
    rw [BitVec.msb_sshiftRight, BitVec.msb_ushiftRight, hmsb] at hsign
    simp [hneg.1, hneg.2] at hsign
  · by_cases hk : k = 0
    · rw [hk, BitVec.sshiftRight_zero, BitVec.ushiftRight_zero]
    · refine BitVec.sshiftRight_eq_of_msb_false ?_
      rw [hmsb, decide_eq_false_iff_not]
      exact fun hneg => h ⟨hneg, hk⟩

/-! The fields of a decoded instruction. -/

structure Instruction.Proper (i : Instruction) : Prop where
  rs : i.rs < 32
  rt : i.rt < 32
  rd : i.rd < 32
  target : i.opCode = .j ∨ i.opCode = .jal → i.extra.toNat < 2 ^ 26
  legal : i.opCode ∉ [OpCode.special, .bcond, .rfe]

theorem specialTable_target : ∀ k : Fin 64,
    specialTable.getD k .res ≠ .j ∧ specialTable.getD k .res ≠ .jal := by
  decide

theorem decodeOpCode_target {v : Word} {op : OpCode} (h : op ≠ .j ∧ op ≠ .jal) :
    decodeOpCode v op ≠ .j ∧ decodeOpCode v op ≠ .jal := by
  cases op with
  | special =>
    rw [decodeOpCode, functField]
    exact specialTable_target ⟨_, Nat.mod_lt _ (by decide)⟩
  | bcond =>
    simp only [decodeOpCode]
    split_ifs <;> exact ⟨by decide, by decide⟩
  | j => exact absurd rfl h.1
  | jal => exact absurd rfl h.2
  | _ => exact ⟨by simp [decodeOpCode], by simp [decodeOpCode]⟩

theorem opTable_target : ∀ k : Fin 64,
    ((opTable.getD k (.res, .ifmt)).1 ≠ .j ∧ (opTable.getD k (.res, .ifmt)).1 ≠ .jal) ∨
      (opTable.getD k (.res, .ifmt)).2 = .jfmt := by
  decide

theorem proper_decode (v : Word) : (decode v).Proper := by
  refine ⟨?_, ?_, ?_, fun hop => ?_, decode_legal v⟩
  · rw [rs_decode]
    exact Nat.mod_lt _ (by decide)
  · rw [rt_decode]
    exact Nat.mod_lt _ (by decide)
  · rw [rd_decode]
    exact Nat.mod_lt _ (by decide)
  · simp only [decode, opField] at hop ⊢
    rcases opTable_target ⟨_, toNat_div_lt v⟩ with hne | hfmt
    · have hne' := decodeOpCode_target (v := v) hne
      exact absurd hop (not_or.mpr hne')
    · simp only at hfmt
      rw [hfmt, decodeExtra_jfmt, BitVec.toNat_ofNat]
      omega

/-! The `switch`. -/

theorem flag_eq {P Q : Prop} [Decidable P] [Decidable Q] (h : P ↔ Q) :
    (if P then 1 else 0 : Word) = .ofInt 32 (if Q then 1 else 0) := by
  by_cases hp : P
  · rw [if_pos hp, if_pos (h.mp hp)]
    rfl
  · rw [if_neg hp, if_neg (h.not.mp hp)]
    rfl

theorem finish_or (hk : k < 32) :
    finish exceptionHandler ⟨c.toRegisters, m₀⟩
        (goOn c.toRegisters (set c.toRegisters k a) m) =
        (Architecture.goOn (c.write k b) m).handled exceptionHandler ↔
      ¬ (b ≠ a ∧ k ≠ 0 ∧ c.pending.1 ≠ Fin.ofNat 32 k) := by
  rw [finish_write hk rfl, handled_goOn_write hk, ne_comm]

theorem finish_shift (hk : k < 32) (w : Word) (n : ℕ) :
    finish exceptionHandler ⟨c.toRegisters, m₀⟩
        (goOn c.toRegisters (set c.toRegisters k (w.sshiftRight n)) m) =
        (Architecture.modular c m k (w.toNat / 2 ^ n)).handled exceptionHandler ↔
      ¬ (w.toInt < 0 ∧ n ≠ 0 ∧ k ≠ 0 ∧ c.pending.1 ≠ Fin.ofNat 32 k) := by
  rw [Architecture.modular, ← ushiftRight_eq, finish_write hk rfl, handled_goOn_write hk, ne_eq,
    sshiftRight_eq_ushiftRight, not_not, and_assoc]

theorem finish_link (hi : i.Proper) {p q : Word → Bool} (hpq : ∀ w, p w = q w)
    (hsign : ∀ v w : Word, q v = q w ↔ (v.toInt < 0 ↔ w.toInt < 0)) :
    finish exceptionHandler ⟨c.toRegisters, m₀⟩
        (branch (p (set c.toRegisters r31 (c.nextPC + 4) i.rs)) c.toRegisters
          (set c.toRegisters r31 (c.nextPC + 4)) m i) =
        (Architecture.branch (q (c.reg i.rs)) (c.write r31 (Architecture.following c)) m i).handled
          exceptionHandler ↔
      ¬ (i.rs = r31 ∧ i.extra <<< 2 ≠ 4 ∧
        ¬ ((c.reg r31).toInt < 0 ↔ (Architecture.following c).toInt < 0)) := by
  have hlink := (shows_toRegisters c).write (show r31 < 32 by decide) (c.nextPC + 4)
  rw [finish_branch (c := c) hlink rfl (hpq _)]
  refine handled_branch.trans ?_
  rw [set, Function.update_apply, Architecture.following, hsign, c.toRegisters_reg hi.rs]
  by_cases hrs : i.rs = r31
  · rw [if_pos hrs, hrs, iff_comm (a := (c.nextPC + 4).toInt < 0)]
    tauto
  · rw [if_neg hrs]
    simp [hrs]

theorem finish_jalr (hi : i.Proper) :
    finish exceptionHandler ⟨c.toRegisters, m₀⟩
        (.next (set c.toRegisters i.rd (c.nextPC + 4)) m 0 0
          (set c.toRegisters i.rd (c.nextPC + 4) i.rs)) =
        (Result.next ((c.write i.rd (Architecture.following c)).retire (0, 0) (c.reg i.rs))
          m).handled exceptionHandler ↔
      ¬ (i.rd = i.rs ∧ c.reg i.rs ≠ Architecture.following c) := by
  rw [finish_jump ((shows_toRegisters c).write hi.rd (c.nextPC + 4)) rfl]
  refine handled_next.trans ?_
  rw [set, Function.update_apply, c.toRegisters_reg hi.rs]
  split_ifs with hsame
  · simp [hsame, Architecture.following, eq_comm]
  · exact iff_of_true rfl fun h => hsame h.1.symm

theorem finish_div (a b : Word) :
    finish exceptionHandler ⟨c.toRegisters, m₀⟩
        (if b = 0 then goOn c.toRegisters (set (set c.toRegisters loReg 0) hiReg 0) m
        else if a = signBit ∧ b = -1 then .stop .arithmetic
        else goOn c.toRegisters (set (set c.toRegisters loReg (a.sdiv b)) hiReg (a.srem b)) m) =
        (if b.toInt = 0 then Architecture.double c m 0 0
        else Architecture.double c m (.ofInt 32 (a.toInt.tmod b.toInt))
          (.ofInt 32 (a.toInt.tdiv b.toInt))).handled exceptionHandler ↔
      ¬ (a.toInt = -2 ^ 31 ∧ b.toInt = -1) := by
  have hself := shows_toRegisters c
  have hzero : b = 0 ↔ b.toInt = 0 := BitVec.toInt_inj.symm
  have hmin : a = signBit ↔ a.toInt = -2 ^ 31 := BitVec.toInt_inj.symm
  have hone : b = -1 ↔ b.toInt = -1 := BitVec.toInt_inj.symm
  by_cases hb : b = 0
  · rw [if_pos hb, if_pos (hzero.mp hb)]
    refine iff_of_true (finish_goOn ((hself.lo 0).hi 0) rfl) fun h => ?_
    rw [hzero.mp hb] at h
    exact absurd h.2 (by decide)
  · rw [if_neg hb, if_neg (hzero.not.mp hb), ← hmin, ← hone]
    by_cases hover : a = signBit ∧ b = -1
    · rw [if_pos hover]
      exact iff_of_false (by simp [finish, Architecture.double, Architecture.goOn, Result.handled])
        fun h => h hover
    · rw [if_neg hover, sdiv_eq, srem_eq]
      exact iff_of_true (finish_goOn ((hself.lo _).hi _) rfl) hover

theorem held_eq (hrt : i.rt < 32) :
    (if (c.toRegisters loadReg).toInt = i.rt then c.toRegisters loadValueReg
      else c.toRegisters i.rt) = Architecture.held c i := by
  have hlt := c.pending.1.isLt
  have hreg : (c.toRegisters loadReg).toInt = (c.pending.1 : ℕ) := by
    change (BitVec.ofNat 32 c.pending.1).toInt = _
    rw [BitVec.toInt_eq_toNat_cond, BitVec.toNat_ofNat]
    split_ifs <;> omega
  simp only [hreg, Nat.cast_inj, Architecture.held, c.toRegisters_reg hrt]
  rfl

theorem finish_loadPart (hi : i.Proper) {f join join' other : Word → Word → Word}
    (hf : ∀ old w, f old w = other w old)
    (hjoin : (c.address i).toNat % 4 = 0 → join' = join) :
    finish exceptionHandler ⟨c.toRegisters, m₀⟩ (loadPart bus c.toRegisters m i f) =
        (Architecture.loadPart bus c m i (c.address i) join').handled exceptionHandler ↔
      ¬ ((c.address i).toNat % 4 ≠ 0 ∨ LoadsApart bus c m i join other) := by
  simp only [loadPart, c.toRegisters_reg hi.rs, held_eq hi.rt]
  rw [show c.reg i.rs + i.extra = c.address i from rfl]
  by_cases hal : (c.address i).toNat % 4 = 0
  · rw [if_pos ((and_3_eq_zero _).mpr hal), finish_load hi.rt 4 (hf _), hjoin hal]
    simp only [Architecture.load, Architecture.loadPart, wordOf_eq hal, LoadsApart]
    cases bus.readMem m (c.address i) 4 with
    | error e => exact iff_of_true rfl (by simp [hal])
    | ok x =>
      obtain ⟨value, m'⟩ := x
      refine handled_loads.trans ?_
      simp [hal, eq_comm]
  · rw [if_neg ((and_3_eq_zero _).not.mpr hal)]
    exact iff_of_false (handled_ne_assertion _).symm fun h => h (.inl hal)

theorem finish_storePart (hi : i.Proper) {f join join' other : Word → Word → Word}
    (hf : ∀ b w, f b w = other b w) (hjoin : (c.address i).toNat % 4 = 0 → join' = join) :
    finish exceptionHandler ⟨c.toRegisters, m₀⟩ (writePart bus c.toRegisters m i f) =
        (Architecture.storePart bus c m i (c.address i) join').handled exceptionHandler ↔
      ¬ ((c.address i).toNat % 4 ≠ 0 ∨ StoresApart bus c m i join other) := by
  simp only [writePart, c.toRegisters_reg hi.rs, c.toRegisters_reg hi.rt, hf]
  rw [show c.reg i.rs + i.extra = c.address i from rfl]
  by_cases hal : (c.address i).toNat % 4 = 0
  · rw [if_pos ((and_3_eq_zero _).mpr hal), hjoin hal]
    simp only [Architecture.storePart, wordOf_eq hal, and_not_3 hal, StoresApart]
    cases bus.readMem m (c.address i) 4 with
    | error e => exact iff_of_true (finish_raise e _) (by simp [hal])
    | ok x =>
      obtain ⟨value, m'⟩ := x
      refine (finish_store 4).congr_left.trans (handled_store.trans ?_)
      simp [hal, eq_comm]
  · rw [if_neg ((and_3_eq_zero _).not.mpr hal)]
    exact iff_of_false (handled_ne_assertion _).symm fun h => h (.inl hal)

theorem finish_region (hi : i.Proper) (hop : i.opCode = .j ∨ i.opCode = .jal) (h : Shows r c') :
    finish exceptionHandler ⟨c.toRegisters, m₀⟩
        (.next r m 0 0 ((c.nextPC + 4) &&& 0xf0000000 ||| indexToAddr i.extra)) =
        (Result.next (c'.retire (0, 0) (Architecture.region c i)) m).handled exceptionHandler ↔
      ¬ c.nextPC.extractLsb' 28 4 ≠ (Architecture.following c).extractLsb' 28 4 := by
  rw [finish_jump h (jump_eq _ _ (hi.target hop)), handled_next, Architecture.region, not_not,
    BitVec.append_left_inj, BitVec.append_left_inj, eq_comm]
  rfl

theorem execute_eq_iff (hi : i.Proper) :
    finish exceptionHandler ⟨c.toRegisters, m₀⟩ (execute bus c.toRegisters m i) =
        (Architecture.execute bus c m i).handled exceptionHandler ↔ ¬ Slips bus c m i := by
  have hrs := c.toRegisters_reg hi.rs
  have hrt := c.toRegisters_reg hi.rt
  have hself := shows_toRegisters c
  have hlink : Shows (set c.toRegisters r31 (c.nextPC + 4)) (c.write r31 (c.nextPC + 4)) :=
    hself.write (by decide) _
  have half : i.extra &&& 0xffff = (i.extra.setWidth 16).setWidth 32 := and_mask i.extra 16
  simp only [execute, Architecture.execute, Slips, hrs, hrt]
  cases hop : i.opCode <;> simp only
  case add => exact iff_of_true (finish_signed hi.rd (add_overflow _ _) (add_eq _ _)) not_false
  case sub => exact iff_of_true (finish_signed hi.rd (sub_overflow _ _) (sub_eq _ _)) not_false
  case addi =>
    have hover := add_overflow i.extra (c.reg i.rs)
    rw [BitVec.xor_comm, BitVec.add_comm, Int.add_comm] at hover
    exact iff_of_true (finish_signed hi.rt hover (add_eq _ _)) not_false
  case addu => exact iff_of_true (finish_write hi.rd (add_eq _ _)) not_false
  case addiu => exact iff_of_true (finish_write hi.rt (add_eq _ _)) not_false
  case subu => exact iff_of_true (finish_write hi.rd (sub_eq _ _)) not_false
  case and => exact iff_of_true (finish_write hi.rd rfl) not_false
  case xor => exact iff_of_true (finish_write hi.rd rfl) not_false
  case nor => exact iff_of_true (finish_write hi.rd rfl) not_false
  case andi => exact iff_of_true (finish_write hi.rt (by rw [half])) not_false
  case ori => exact iff_of_true (finish_write hi.rt (by rw [half])) not_false
  case xori => exact iff_of_true (finish_write hi.rt (by rw [half])) not_false
  case lui => exact iff_of_true (finish_write hi.rt (shiftLeft_toInt _ 16)) not_false
  case sll => exact iff_of_true (finish_write hi.rd (shiftLeft_eq _ _)) not_false
  case sllv => exact iff_of_true (finish_write hi.rd (by rw [shiftLeft_eq, and_31])) not_false
  case sra => exact iff_of_true (finish_write hi.rd (sshiftRight_eq _ _)) not_false
  case srav => exact iff_of_true (finish_write hi.rd (by rw [sshiftRight_eq, and_31])) not_false
  case slt => exact iff_of_true (finish_write hi.rd (flag_eq Iff.rfl)) not_false
  case slti => exact iff_of_true (finish_write hi.rt (flag_eq Iff.rfl)) not_false
  case sltu => exact iff_of_true (finish_write hi.rd (flag_eq BitVec.lt_def)) not_false
  case sltiu => exact iff_of_true (finish_write hi.rt (flag_eq BitVec.lt_def)) not_false
  case mfhi => exact iff_of_true (finish_write hi.rd rfl) not_false
  case mflo => exact iff_of_true (finish_write hi.rd rfl) not_false
  case mthi => exact iff_of_true (finish_goOn (hself.hi _) rfl) not_false
  case mtlo => exact iff_of_true (finish_goOn (hself.lo _) rfl) not_false
  case or =>
    rw [BitVec.or_self]
    exact finish_or hi.rd
  case srl =>
    have hzero : i.extra ≠ 0 ↔ i.extra.toNat ≠ 0 := BitVec.toNat_inj.symm.not
    rw [hzero]
    exact finish_shift hi.rd _ _
  case srlv =>
    rw [and_31]
    exact finish_shift hi.rd _ _
  case div => exact finish_div _ _
  case divu =>
    refine iff_of_true ?_ not_false
    have hzero : c.reg i.rt = 0 ↔ (c.reg i.rt).toNat = 0 := BitVec.toNat_inj.symm
    by_cases hrt0 : c.reg i.rt = 0
    · rw [if_pos hrt0, if_pos (hzero.mp hrt0)]
      exact finish_goOn ((hself.lo 0).hi 0) rfl
    · rw [if_neg hrt0, if_neg (hzero.not.mp hrt0), divu_eq, remu_eq]
      exact finish_goOn ((hself.lo _).hi _) rfl
  case mult =>
    refine iff_of_true ?_ not_false
    rw [mult_signed_eq]
    exact finish_goOn ((hself.hi _).lo _) rfl
  case multu =>
    refine iff_of_true ?_ not_false
    rw [mult_unsigned_eq]
    exact finish_goOn ((hself.hi _).lo _) rfl
  case beq => exact iff_of_true (finish_branch hself rfl rfl) not_false
  case bne => exact iff_of_true (finish_branch hself rfl rfl) not_false
  case blez => exact iff_of_true (finish_branch hself rfl rfl) not_false
  case bgtz => exact iff_of_true (finish_branch hself rfl rfl) not_false
  case bgez =>
    exact iff_of_true (finish_branch hself rfl (decide_eq_decide.mpr (and_signBit _))) not_false
  case bltz =>
    have hneg := (and_signBit (c.reg i.rs)).not.trans not_le
    exact iff_of_true (finish_branch hself rfl (decide_eq_decide.mpr hneg)) not_false
  case bgezal =>
    refine finish_link hi (p := fun w => w &&& signBit = 0) (q := fun w => 0 ≤ w.toInt)
      (fun w => decide_eq_decide.mpr (and_signBit w)) fun v w => ?_
    rw [decide_eq_decide, ← not_lt, ← not_lt, not_iff_not]
  case bltzal =>
    refine finish_link hi (p := fun w => w &&& signBit ≠ 0) (q := fun w => w.toInt < 0)
      (fun w => decide_eq_decide.mpr ((and_signBit w).not.trans not_le)) fun v w => ?_
    rw [decide_eq_decide]
  case j => exact finish_region hi (.inl hop) hself
  case jal => exact finish_region hi (.inr hop) hlink
  case jr => exact iff_of_true (finish_jump hself rfl) not_false
  case jalr => exact finish_jalr hi
  case lb => exact iff_of_true (finish_load hi.rt 1 (sign_extended · (by decide : 7 < 31))) not_false
  case lbu => exact iff_of_true (finish_load hi.rt 1 (and_mask · 8)) not_false
  case lh =>
    refine iff_of_true (finish_aligned 2 (and_1_eq_zero _).not ?_) not_false
    exact finish_load hi.rt 2 (sign_extended · (by decide : 15 < 31))
  case lhu =>
    refine iff_of_true (finish_aligned 2 (and_1_eq_zero _).not ?_) not_false
    exact finish_load hi.rt 2 (and_mask · 16)
  case lw =>
    refine iff_of_true (finish_aligned 4 (and_3_eq_zero _).not ?_) not_false
    exact finish_load hi.rt 4 fun w => rfl
  case lwl =>
    exact finish_loadPart hi (fun _ w => (movedUp_zero w _).symm)
      fun hal => congrArg (fun n => Architecture.movedUp (3 - n)) hal
  case lwr => exact finish_loadPart hi lwr_eq (congrArg Architecture.movedDown)
  case sb => exact iff_of_true (finish_store 1) not_false
  case sh => exact iff_of_true (finish_store 2) not_false
  case sw => exact iff_of_true (finish_store 4) not_false
  case swl =>
    exact finish_storePart hi (fun b _ => (movedDown_zero b _).symm)
      fun hal => congrArg (fun n => Architecture.movedDown (3 - n)) hal
  case swr => exact finish_storePart hi swr_eq (congrArg Architecture.movedUp)
  case syscall => exact iff_of_true (finish_raise _ _) not_false
  case res => exact iff_of_true (finish_raise _ _) not_false
  case unimp => exact iff_of_true (finish_raise _ _) not_false
  case rfe | special | bcond => exact absurd hi.legal (by simp [hop])

/-- The instruction that is fetched, if the fetch succeeds. -/
def Fetched (bus : Bus μ) (c : Cpu) (m : μ) (i : Instruction) (m' : μ) : Prop :=
  ∃ raw, bus.readMem m c.pc 4 = .ok (raw, m') ∧ i = decode raw

/-- `OneInstruction` does what the architecture says, whatever the memory and the kernel do,
unless the instruction is one of those where the simulator slips, and then it does not. -/
theorem oneInstruction_eq_iff (bus : Bus μ)
    (exceptionHandler : ExceptionType → Machine μ → Option (Machine μ)) (c : Cpu) (m : μ) :
    oneInstruction bus exceptionHandler ⟨c.toRegisters, m⟩ =
        (Architecture.oneInstruction bus c m).handled exceptionHandler ↔
      ∀ i m', Fetched bus c m i m' → ¬ Slips bus c m' i := by
  simp only [oneInstruction, Architecture.oneInstruction, Fetched]
  rw [show c.toRegisters pcReg = c.pc from rfl]
  cases hfetch : bus.readMem m c.pc 4 with
  | error e => exact iff_of_true (raiseException_eq c m e c.pc) (by simp)
  | ok x =>
    refine (execute_eq_iff (proper_decode x.1)).trans ⟨?_, fun h => h _ _ ⟨_, rfl, rfl⟩⟩
    rintro hslips i m' ⟨raw, hraw, rfl⟩
    cases hraw
    exact hslips

/-- A memory of two words: the instruction at address 0, and the word that is anywhere else. -/
def twoWords : Bus (Word × Word) where
  readMem m address _ := .ok (if address = 0 then m.1 else m.2, m)
  writeMem m _ _ value := .ok (m.1, value)
  translated h := by cases h

/-- `LWR r1, 4(r0)` should load a whole word, and keeps three bytes of the register; `LW` loads
it. -/
theorem oneInstruction_eq_iff_lwr :
    oneInstruction twoWords (fun _ s => some s)
        ⟨(Cpu.boot.write 1 0xaabbccdd).toRegisters, (0x98010004, 0x04030201)⟩ ≠
      (Architecture.oneInstruction twoWords (Cpu.boot.write 1 0xaabbccdd)
        (0x98010004, 0x04030201)).handled (fun _ s => some s) ∧
    oneInstruction twoWords (fun _ s => some s)
        ⟨(Cpu.boot.write 1 0xaabbccdd).toRegisters, (0x8c010004, 0x04030201)⟩ =
      (Architecture.oneInstruction twoWords (Cpu.boot.write 1 0xaabbccdd)
        (0x8c010004, 0x04030201)).handled (fun _ s => some s) := by
  constructor
  · rw [ne_eq, oneInstruction_eq_iff]
    exact fun h => h _ _ ⟨0x98010004, rfl, rfl⟩ (.inr ⟨0x04030201, _, rfl, by decide⟩)
  · rw [oneInstruction_eq_iff]
    rintro i m' ⟨raw, hraw, rfl⟩
    cases hraw
    exact id

end Nachos.Mips
