import Nachos.MipsInstructions

/-! `Mult` of `machine/mipssim.cc`: a product of double length, by shifts and additions of words. -/
namespace Nachos.Mips

/-- The loop over the bits of `a`, for as many rounds as are left; the result is `hi`, `lo`. The
shift of `a`, which is an `int`, copies its sign. -/
def multLoop (a bHi bLo hi lo : Word) : ℕ → Word × Word
  | 0 => (hi, lo)
  | n + 1 =>
    let bHi' := if bLo &&& 0x80000000 ≠ 0 then bHi <<< 1 ||| 1 else bHi <<< 1
    if a &&& 1 ≠ 0 then
      let lo := lo + bLo
      let hi := (if lo < bLo then hi + 1 else hi) + bHi
      if a &&& 0xfffffffe = 0 then (hi, lo)
      else multLoop (a.sshiftRight 1) bHi' (bLo <<< 1) hi lo n
    else multLoop (a.sshiftRight 1) bHi' (bLo <<< 1) hi lo n

/-- The two's complement of a double word. -/
def negate (hi lo : Word) : Word × Word :=
  let lo := ~~~lo + 1
  (if lo = 0 then ~~~hi + 1 else ~~~hi, lo)

/-- What `Mult` stores at `hiPtr` and `loPtr`; the absolute value of the least `int` is itself. -/
def mult (a b : Word) (signedArith : Bool) : Word × Word :=
  if a = 0 ∨ b = 0 then (0, 0)
  else
    let negative := signedArith && (a.slt 0 != b.slt 0)
    let a := if signedArith && a.slt 0 then -a else a
    let b := if signedArith && b.slt 0 then -b else b
    let (hi, lo) := multLoop a 0 b 0 0 32
    if negative then negate hi lo else (hi, lo)

variable {a b bHi bLo hi lo : Word} {n : ℕ}

/-- The double word of two words. -/
def double (x : Word × Word) : BitVec 64 := x.1 ++ x.2

theorem toNat_double (x : Word × Word) : (double x).toNat = x.1.toNat * 2 ^ 32 + x.2.toNat :=
  toNat_append x.1 x.2

theorem and_one_ne_zero_iff (a : Word) : a &&& 1 ≠ 0 ↔ a.toNat % 2 = 1 := by
  have h : (a &&& 1).toNat = a.toNat % 2 := by
    rw [BitVec.toNat_and]
    exact Nat.and_one_is_mod a.toNat
  rw [ne_eq, ← BitVec.toNat_inj, h]
  simp

/-- A carry goes to the high word. -/
theorem double_add (hi lo bHi bLo : Word) :
    double ((if lo + bLo < bLo then hi + 1 else hi) + bHi, lo + bLo) =
      double (hi, lo) + double (bHi, bLo) := by
  refine BitVec.eq_of_toNat_eq ?_
  rw [BitVec.toNat_add, toNat_double, toNat_double, toNat_double]
  split_ifs with h <;> simp only [BitVec.lt_def, BitVec.toNat_add] at h ⊢ <;> simp <;> omega

theorem and_top_ne_zero_iff (w : Word) : w &&& 0x80000000 ≠ 0 ↔ 2 ^ 31 ≤ w.toNat := by
  have htop : (0x80000000 : Word) = BitVec.twoPow 32 31 := by decide
  rw [htop, BitVec.and_twoPow, ← BitVec.msb_eq_getLsbD_last, BitVec.msb_eq_decide]
  by_cases h : 2 ^ 31 ≤ w.toNat <;> simp [BitVec.twoPow]

theorem shift_or_one (w : Word) : w <<< 1 ||| (1 : Word) = w <<< 1 + 1 := by
  refine (BitVec.add_eq_or_of_and_eq_zero _ _ (BitVec.eq_of_getLsbD_eq fun i _ => ?_)).symm
  by_cases hi : i = 0 <;> simp [hi]

theorem toNat_shift_one (w : Word) : (w <<< 1).toNat = w.toNat * 2 % 2 ^ 32 := by
  rw [BitVec.toNat_shiftLeft, Nat.shiftLeft_eq, Nat.pow_one]

/-- The top bit of the low word goes to the high one. -/
theorem double_shift (bHi bLo : Word) :
    double (if bLo &&& 0x80000000 ≠ 0 then bHi <<< 1 ||| 1 else bHi <<< 1, bLo <<< 1) =
      double (bHi, bLo) * 2 := by
  have htwo : (2 : BitVec 64).toNat = 2 := rfl
  refine BitVec.eq_of_toNat_eq ?_
  rw [BitVec.toNat_mul, toNat_double, toNat_double, htwo, toNat_shift_one]
  have hlo := bLo.isLt
  dsimp only
  split_ifs with h
  · rw [and_top_ne_zero_iff] at h
    simp only [shift_or_one, BitVec.toNat_add, toNat_shift_one, show (1 : Word).toNat = 1 from rfl]
    omega
  · rw [and_top_ne_zero_iff] at h
    rw [toNat_shift_one]
    omega

theorem double_negate (hi lo : Word) : double (negate hi lo) = -double (hi, lo) := by
  have hhi := hi.isLt
  have hlo := lo.isLt
  refine BitVec.eq_of_toNat_eq ?_
  rw [BitVec.toNat_neg, toNat_double, toNat_double, negate]
  dsimp only
  split_ifs with h
  · rw [← BitVec.toNat_inj, BitVec.toNat_add, BitVec.toNat_not, show (1 : Word).toNat = 1 from rfl,
      show (0 : Word).toNat = 0 from rfl] at h
    simp only [BitVec.toNat_add, BitVec.toNat_not, show (1 : Word).toNat = 1 from rfl]
    omega
  · rw [← BitVec.toNat_inj, BitVec.toNat_add, BitVec.toNat_not, show (1 : Word).toNat = 1 from rfl,
      show (0 : Word).toNat = 0 from rfl] at h
    simp only [BitVec.toNat_add, BitVec.toNat_not, show (1 : Word).toNat = 1 from rfl]
    omega

/-- The bits of `a` that the rounds left look at, after a shift. -/
theorem toNat_sshiftRight_mod (a : Word) (hn : n ≤ 31) :
    (a.sshiftRight 1).toNat % 2 ^ n = a.toNat / 2 % 2 ^ n := by
  refine Nat.eq_of_testBit_eq fun i => ?_
  rw [Nat.testBit_mod_two_pow, Nat.testBit_mod_two_pow, Nat.testBit_div_two]
  by_cases hi : i < n
  · rw [BitVec.testBit_toNat, BitVec.testBit_toNat, BitVec.getLsbD_sshiftRight]
    simp [show ¬ 32 ≤ i by omega, show i + 1 < 32 by omega, Nat.add_comm]
  · simp [hi]

theorem half_eq_zero (h : a &&& 0xfffffffe = 0) : a.toNat / 2 = 0 := by
  refine Nat.eq_of_testBit_eq fun i => ?_
  have hbit := congrArg (fun w : Word => w.getLsbD (i + 1)) h
  rw [show (0xfffffffe : Word) = ~~~1 by decide] at hbit
  rw [Nat.testBit_div_two, Nat.zero_testBit, BitVec.testBit_toNat]
  by_cases hi : i + 1 < 32
  · simp only [BitVec.getLsbD_and, BitVec.getLsbD_not] at hbit
    rw [show (1 : Word) = 1#32 from rfl, BitVec.getLsbD_one] at hbit
    simpa [hi] using hbit
  · exact BitVec.getLsbD_of_ge a (i + 1) (by omega)

/-- The rounds add the multiple of `b` by the bits of `a` that are left. -/
theorem double_multLoop (hn : n ≤ 32) :
    double (multLoop a bHi bLo hi lo n) =
      double (hi, lo) + double (bHi, bLo) * BitVec.ofNat 64 (a.toNat % 2 ^ n) := by
  induction n generalizing a bHi bLo hi lo with
  | zero => simp [multLoop, Nat.mod_one]
  | succ n ih =>
    have hsplit : a.toNat % 2 ^ (n + 1) = a.toNat % 2 + 2 * (a.toNat / 2 % 2 ^ n) := by
      rw [Nat.pow_succ', Nat.mod_mul]
    have hrest := toNat_sshiftRight_mod a (show n ≤ 31 by omega)
    have htwo : BitVec.ofNat 64 (2 * (a.toNat / 2 % 2 ^ n)) = 2 * BitVec.ofNat 64 (a.toNat / 2 % 2 ^ n) :=
      BitVec.ofNat_mul ..
    rw [multLoop]
    dsimp only
    by_cases hodd : a &&& 1 ≠ 0
    · have hone := (and_one_ne_zero_iff a).mp hodd
      rw [if_pos hodd]
      by_cases hlast : a &&& 0xfffffffe = 0
      · -- only the lowest bit of `a` is left
        rw [if_pos hlast, double_add, hsplit, hone, half_eq_zero hlast]
        simp
      · rw [if_neg hlast, ih (by omega), double_shift, hrest, double_add, hsplit, hone, BitVec.ofNat_add,
          htwo, BitVec.add_assoc, BitVec.mul_assoc, BitVec.mul_add, BitVec.mul_one]
    · have heven : a.toNat % 2 = 0 := by
        rw [and_one_ne_zero_iff] at hodd
        omega
      rw [if_neg hodd, ih (by omega), double_shift, hrest, hsplit, heven, Nat.zero_add, htwo,
        BitVec.mul_assoc]

theorem double_mult_rounds (a b : Word) :
    (double (multLoop a 0 b 0 0 32)).toNat = a.toNat * b.toNat := by
  have ha := a.isLt
  have hb := b.isLt
  have hprod : a.toNat * b.toNat < 2 ^ 64 := by
    calc a.toNat * b.toNat < 2 ^ 32 * 2 ^ 32 := Nat.mul_lt_mul'' ha hb
      _ = 2 ^ 64 := by norm_num
  have hzero : double (0, 0) = 0#64 := rfl
  have hfactor : (double (0, b)).toNat = b.toNat := by
    rw [toNat_double]
    simp
  rw [double_multLoop le_rfl, hzero, BitVec.zero_add, BitVec.toNat_mul, hfactor, Nat.mod_eq_of_lt ha,
    BitVec.toNat_ofNat, Nat.mod_eq_of_lt (show a.toNat < 2 ^ 64 by omega), Nat.mul_comm,
    Nat.mod_eq_of_lt hprod]

theorem slt_zero_iff (a : Word) : a.slt 0 = true ↔ a.toInt < 0 := by
  rw [BitVec.slt_iff_toInt_lt]
  rfl

/-- The absolute value of an `int`, as an unsigned one. -/
theorem toNat_abs (a : Word) : ((if a.slt 0 then -a else a).toNat : ℤ) = |a.toInt| := by
  have ha := a.isLt
  have hint := BitVec.toInt_eq_toNat_cond a
  by_cases h : a.slt 0 = true
  · rw [if_pos h, abs_of_neg ((slt_zero_iff a).mp h), BitVec.toNat_neg]
    rw [slt_zero_iff] at h
    split_ifs at hint <;> omega
  · rw [if_neg h, abs_of_nonneg (not_lt.mp ((slt_zero_iff a).not.mp h))]
    rw [slt_zero_iff] at h
    split_ifs at hint <;> omega

/-- The product of the absolute values has its sign. -/
theorem sign_product (x y : ℤ) :
    x * y = if (decide (x < 0) != decide (y < 0)) = true then -(|x| * |y|) else |x| * |y| := by
  rcases lt_or_ge x 0 with hx | hx <;> rcases lt_or_ge y 0 with hy | hy
  · simp [hx, hy, abs_of_neg]
  · simp [hx, not_lt.mpr hy, abs_of_neg, abs_of_nonneg hy]
  · simp [not_lt.mpr hx, hy, abs_of_neg, abs_of_nonneg hx]
  · simp [not_lt.mpr hx, not_lt.mpr hy, abs_of_nonneg hx, abs_of_nonneg hy]

theorem abs_toInt_le (a : Word) : |a.toInt| ≤ 2 ^ 31 := by
  have hlo := BitVec.le_toInt a
  have hhi := BitVec.toInt_lt (x := a)
  rw [abs_le]
  omega

theorem mult_zero (h : a = 0 ∨ b = 0) (signedArith : Bool) : mult a b signedArith = (0, 0) := if_pos h

/-- The two words are the product of the two `int`s, signed or unsigned, in double length. -/
theorem mult_exact (a b : Word) :
    (double (mult a b true)).toInt = a.toInt * b.toInt ∧
      (double (mult a b false)).toNat = a.toNat * b.toNat := by
  by_cases hzero : a = 0 ∨ b = 0
  · rw [mult_zero hzero, mult_zero hzero]
    rcases hzero with rfl | rfl <;> simp [double]
  · refine ⟨?_, ?_⟩
    · have hprod := double_mult_rounds (if a.slt 0 then -a else a) (if b.slt 0 then -b else b)
      rw [← Nat.cast_inj (R := ℤ), Nat.cast_mul, toNat_abs, toNat_abs] at hprod
      have hbound : |a.toInt| * |b.toInt| ≤ 2 ^ 31 * 2 ^ 31 :=
        mul_le_mul (abs_toInt_le a) (abs_toInt_le b) (abs_nonneg _) (by norm_num)
      have hsign : (a.slt 0 != b.slt 0) = (decide (a.toInt < 0) != decide (b.toInt < 0)) := by
        rw [show a.slt 0 = decide (a.toInt < 0) from rfl, show b.slt 0 = decide (b.toInt < 0) from rfl]
      rw [sign_product, mult, if_neg hzero]
      simp only [Bool.true_and, hsign]
      generalize multLoop (if a.slt 0 = true then -a else a) 0 (if b.slt 0 = true then -b else b) 0 0 32 =
        r at hprod ⊢
      have hnonneg : 0 ≤ |a.toInt| * |b.toInt| := mul_nonneg (abs_nonneg _) (abs_nonneg _)
      generalize |a.toInt| * |b.toInt| = m at hprod hbound hnonneg ⊢
      split_ifs
      · rw [double_negate, show double (r.1, r.2) = double r from rfl, BitVec.toInt_eq_toNat_cond,
          BitVec.toNat_neg]
        split_ifs <;> omega
      · rw [BitVec.toInt_eq_toNat_cond]
        change (if 2 * (double r).toNat < 2 ^ 64 then _ else _) = m
        split_ifs <;> omega
    · rw [mult, if_neg hzero]
      simp only [Bool.false_and, Bool.false_eq_true, if_false]
      exact double_mult_rounds a b

end Nachos.Mips
