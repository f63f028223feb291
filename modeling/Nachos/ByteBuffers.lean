import Mathlib

/-! Byte buffers of C: a buffer is a function of the offset, so what lies beyond the
bytes that matter is arbitrary. A char is signed where it is read as an int. -/
namespace Nachos.ByteBuffers

abbrev Buffer := ℕ → UInt8

/-- The buffer from an offset on: `buf + off`. -/
def Buffer.advance (b : Buffer) (off : ℕ) : Buffer := fun i => b (off + i)

/-- The first `n` bytes. -/
def Buffer.bytes (b : Buffer) (n : ℕ) : List UInt8 := (List.range n).map b

def Buffer.store (b : Buffer) (i : ℕ) (c : UInt8) : Buffer := Function.update b i c

/-- `strncpy(dest + off, src, n)`: a copy up to the first zero, padded with zeros. -/
def strncpy (dest : Buffer) (off : ℕ) (src : Buffer) (n : ℕ) : Buffer := fun i =>
  if off ≤ i ∧ i < off + n then
    if ∀ k < i - off, src k ≠ 0 then src (i - off) else 0
  else dest i

/-- The characters before the terminating zero. -/
def zeroTerminated (l : List UInt8) : List UInt8 := l.takeWhile (· ≠ 0)

/-- A char where an int is expected. -/
def ofChar (c : UInt8) : BitVec 32 := c.toBitVec.signExtend 32

/-- An int where a char is expected. -/
def toChar (x : BitVec 32) : UInt8 := UInt8.ofBitVec (x.setWidth 8)

@[simp] theorem Buffer.advance_apply (b : Buffer) (off i : ℕ) : b.advance off i = b (off + i) := rfl

@[simp] theorem Buffer.advance_zero (b : Buffer) : b.advance 0 = b := by
  funext i
  simp

theorem Buffer.store_self (b : Buffer) (i : ℕ) (c : UInt8) : b.store i c i = c := by
  simp [Buffer.store]

theorem Buffer.store_of_ne {b : Buffer} {i j : ℕ} (h : j ≠ i) (c : UInt8) : b.store i c j = b j := by
  simp [Buffer.store, h]

@[simp] theorem Buffer.length_bytes (b : Buffer) (n : ℕ) : (b.bytes n).length = n := by
  simp [Buffer.bytes]

theorem Buffer.bytes_congr {b b' : Buffer} {n : ℕ} (h : ∀ i < n, b i = b' i) :
    b.bytes n = b'.bytes n := by
  simpa [Buffer.bytes] using h

theorem strncpy_inside (dest src : Buffer) (off : ℕ) {n i : ℕ} (hi : i < n) :
    strncpy dest off src n (off + i) = if ∀ k < i, src k ≠ 0 then src i else 0 := by
  simp [strncpy, hi]

theorem strncpy_outside {dest src : Buffer} {off n i : ℕ} (h : i < off ∨ off + n ≤ i) :
    strncpy dest off src n i = dest i := by
  simp only [strncpy]
  rw [if_neg]
  omega

/-- The copy reads as the same C string. -/
theorem zeroTerminated_strncpy (dest src : Buffer) (off n : ℕ) :
    zeroTerminated (((strncpy dest off src n).advance off).bytes n) = zeroTerminated (src.bytes n) := by
  have hcopy : ((strncpy dest off src n).advance off).bytes n =
      (List.range n).map fun i => if ∀ k < i, src k ≠ 0 then src i else 0 := by
    simp only [Buffer.bytes, List.map_inj_left, List.mem_range, Buffer.advance_apply]
    exact fun i hi => strncpy_inside dest src off hi
  rw [hcopy]
  unfold zeroTerminated Buffer.bytes
  clear hcopy
  induction n with
  | zero => rfl
  | succ n ih =>
    simp only [List.range_succ, List.map_append, List.map_singleton, List.takeWhile_append, ih,
      List.length_map]
    by_cases hlen : (((List.range n).map src).takeWhile fun c => decide (c ≠ 0)).length =
        (List.range n).length
    · -- no zero so far, so the copy agrees with its source
      have hall : ∀ k < n, src k ≠ 0 := by
        intro k hk
        have hself := List.takeWhile_eq_self_iff.mp
          ((List.takeWhile_prefix (p := fun c : UInt8 => decide (c ≠ 0))
            (l := (List.range n).map src)).eq_of_length (by simpa using hlen))
        simpa using hself (src k) (List.mem_map.mpr ⟨k, by simpa using hk, rfl⟩)
      have hmap : ((List.range n).map fun i => if ∀ k < i, src k ≠ 0 then src i else 0) =
          (List.range n).map src := by
        simp only [List.map_inj_left, List.mem_range]
        exact fun i hi => if_pos fun k hk => hall k (hk.trans hi)
      rw [if_pos hlen, if_pos hlen, hmap, if_pos hall]
    · rw [if_neg hlen, if_neg hlen]

theorem Buffer.bytes_take (b : Buffer) {m n : ℕ} (h : m ≤ n) : (b.bytes n).take m = b.bytes m := by
  simp [Buffer.bytes, ← List.map_take, List.take_range, h]

theorem Buffer.bytes_add (b : Buffer) (m n : ℕ) :
    b.bytes (m + n) = b.bytes m ++ (b.advance m).bytes n := by
  simp [Buffer.bytes, List.range_add, Function.comp_def]

/-- The bytes read as a given string exactly if they begin with it and a zero. -/
theorem zeroTerminated_bytes_iff {b : Buffer} {n : ℕ} {c : List UInt8} (hc : 0 ∉ c)
    (hlen : c.length < n) : zeroTerminated (b.bytes n) = c ↔ b.bytes (c.length + 1) = c ++ [0] := by
  have htake : (b.bytes n).take (c.length + 1) = b.bytes (c.length + 1) := b.bytes_take hlen
  have hsplit := List.takeWhile_append_dropWhile (p := fun c : UInt8 => decide (c ≠ 0))
    (l := b.bytes n)
  constructor
  · intro h
    change (b.bytes n).takeWhile (fun c => decide (c ≠ 0)) = c at h
    rw [h] at hsplit
    cases hd : (b.bytes n).dropWhile fun c => decide (c ≠ 0) with
    | nil =>
      rw [hd, List.append_nil] at hsplit
      rw [hsplit, Buffer.length_bytes] at hlen
      omega
    | cons z rest =>
      have hz : z = 0 := by
        have hhead := List.head?_dropWhile_not (fun c : UInt8 => decide (c ≠ 0)) (b.bytes n)
        rw [hd] at hhead
        simpa using hhead
      rw [← htake, ← hsplit, hd, hz]
      simp [List.take_append]
  · intro h
    have hcons : b.bytes n = c ++ 0 :: (b.bytes n).drop (c.length + 1) := by
      conv_lhs => rw [← List.take_append_drop (c.length + 1) (b.bytes n), htake, h]
      simp
    have hall : ∀ x ∈ c, x ≠ 0 := fun x hx h0 => hc (h0 ▸ hx)
    unfold zeroTerminated
    rw [hcons, List.takeWhile_append_of_pos (by simpa using hall)]
    simp

/-! An int as four chars. -/

/-- The byte of an int at a shift, by an arithmetic shift and a mask. -/
theorem toChar_toNat (x : BitVec 32) {s : ℕ} (hs : s ≤ 24) :
    (toChar (x.sshiftRight s &&& 0x000000ff#32)).toNat = x.toNat / 2 ^ s % 256 := by
  have hb : (x.sshiftRight s &&& 0x000000ff#32).setWidth 8 = x.extractLsb' s 8 := by
    apply BitVec.eq_of_getLsbD_eq
    intro i hi
    have h1 : (0x000000ff#32).getLsbD i = true := by interval_cases i <;> rfl
    have h2 : s + i < 32 := by omega
    have h3 : ¬ 32 ≤ i := by omega
    simp only [BitVec.getLsbD_setWidth, BitVec.getLsbD_and, BitVec.getLsbD_sshiftRight,
      BitVec.getLsbD_extractLsb', h1, h2, h3, hi, decide_true, decide_false, Bool.true_and,
      Bool.and_true, if_true, Bool.not_false]
  unfold toChar
  rw [hb]
  simp [BitVec.extractLsb'_toNat, Nat.shiftRight_eq_div_pow]

/-! The sign of a char does not reach past the mask. -/

theorem mask_top (c : UInt8) : ((ofChar c <<< 24) &&& 0xff000000#32).toNat = c.toNat * 2 ^ 24 := by
  have h : ∀ b : BitVec 8,
      ((b.signExtend 32 <<< 24) &&& 0xff000000#32).toNat = b.toNat * 2 ^ 24 := by decide +kernel
  exact h c.toBitVec

theorem mask_second (c : UInt8) :
    ((ofChar c <<< 16) &&& 0x00ff0000#32).toNat = c.toNat * 2 ^ 16 := by
  have h : ∀ b : BitVec 8,
      ((b.signExtend 32 <<< 16) &&& 0x00ff0000#32).toNat = b.toNat * 2 ^ 16 := by decide +kernel
  exact h c.toBitVec

theorem mask_third (c : UInt8) : ((ofChar c <<< 8) &&& 0x0000ff00#32).toNat = c.toNat * 2 ^ 8 := by
  have h : ∀ b : BitVec 8,
      ((b.signExtend 32 <<< 8) &&& 0x0000ff00#32).toNat = b.toNat * 2 ^ 8 := by decide +kernel
  exact h c.toBitVec

theorem mask_last (c : UInt8) : ((ofChar c <<< 0) &&& 0x000000ff#32).toNat = c.toNat := by
  have h : ∀ b : BitVec 8,
      ((b.signExtend 32 <<< 0) &&& 0x000000ff#32).toNat = b.toNat := by decide +kernel
  exact h c.toBitVec

/-- The four masked bytes add up to the int they come from. -/
theorem sum_masked (x : BitVec 32) {c₀ c₁ c₂ c₃ : UInt8} (h₀ : c₀.toNat = x.toNat / 2 ^ 24 % 256)
    (h₁ : c₁.toNat = x.toNat / 2 ^ 16 % 256) (h₂ : c₂.toNat = x.toNat / 2 ^ 8 % 256)
    (h₃ : c₃.toNat = x.toNat % 256) :
    ((ofChar c₀ <<< 24) &&& 0xff000000#32) + ((ofChar c₁ <<< 16) &&& 0x00ff0000#32) +
      ((ofChar c₂ <<< 8) &&& 0x0000ff00#32) + ((ofChar c₃ <<< 0) &&& 0x000000ff#32) = x := by
  apply BitVec.eq_of_toNat_eq
  have hx : x.toNat < 2 ^ 32 := x.isLt
  simp only [BitVec.toNat_add, mask_top, mask_second, mask_third, mask_last, h₀, h₁, h₂, h₃]
  omega

end Nachos.ByteBuffers
