import Mathlib

/-! `userprog/bitmap.cc`: an array of bits in words of 32. A word outside the array that is
read or written ends the operation with a fault, as a failed `ASSERT` does. -/
namespace Nachos.BitMaps

abbrev Word := BitVec 32

def bitsInWord : ℕ := 32

def divRoundUp (n s : ℕ) : ℕ := n / s + if n % s > 0 then 1 else 0

inductive Fault
  | assertion
  | outside
  deriving DecidableEq, Repr

def load (map : List Word) (i : ℕ) : Except Fault Word :=
  match map[i]? with
  | some w => .ok w
  | none => .error .outside

def store (map : List Word) (i : ℕ) (w : Word) : Except Fault (List Word) :=
  if i < map.length then .ok (map.set i w) else .error .outside

/-- What `new` finds in memory. -/
def newArray (memory : ℕ → Word) (numWords : ℕ) : List Word := (List.range numWords).map memory

structure BitMap where
  numBits : ℕ
  numWords : ℕ
  map : List Word
  deriving DecidableEq, Repr

namespace BitMap

/-- `1 << (which % BitsInWord)` -/
def mask (which : ℤ) : Word := 1#32 <<< (which.toNat % bitsInWord)

/-- The word of a bit is replaced by another one. -/
def modify (b : BitMap) (which : ℤ) (f : Word → Word) : Except Fault BitMap :=
  if which ≥ 0 ∧ which < b.numBits then do
    let w ← load b.map (which.toNat / bitsInWord)
    let map ← store b.map (which.toNat / bitsInWord) (f w)
    return { b with map }
  else .error .assertion

def mark (b : BitMap) (which : ℤ) : Except Fault BitMap :=
  b.modify which fun w => w ||| mask which

def clear (b : BitMap) (which : ℤ) : Except Fault BitMap :=
  b.modify which fun w => w &&& ~~~mask which

def test (b : BitMap) (which : ℤ) : Except Fault Bool :=
  if which ≥ 0 ∧ which < b.numBits then do
    let w ← load b.map (which.toNat / bitsInWord)
    return w &&& mask which ≠ 0
  else .error .assertion

/-- `for(int i = start; i < start + count; i++) Clear(i);` -/
def clearFrom (b : BitMap) (start count : ℕ) : Except Fault BitMap :=
  (List.range' start count).foldlM (fun b (i : ℕ) => b.clear i) b

/-- `BitMap::BitMap` -/
def new (memory : ℕ → Word) (nitems : ℕ) : Except Fault BitMap :=
  clearFrom ⟨nitems, divRoundUp nitems bitsInWord, newArray memory (divRoundUp nitems bitsInWord)⟩
    0 nitems

/-- The first `count` elements of one array are assigned to those of another. -/
def copy (map newMap : List Word) (count : ℕ) : Except Fault (List Word) :=
  (List.range count).foldlM (fun newMap i => do store newMap i (← load map i)) newMap

def resize (memory : ℕ → Word) (b : BitMap) : Except Fault BitMap := do
  let newMap ← copy b.map (newArray memory (b.numWords * 2)) b.numBits
  let b ← b.clearFrom b.numBits b.numBits
  return ⟨b.numBits * 2, divRoundUp (b.numBits * 2) bitsInWord, newMap⟩

/-- The loop of `Find` over the bits that are left. -/
def findFrom (b : BitMap) : List ℕ → Except Fault (BitMap × ℤ)
  | [] => .ok (b, -1)
  | i :: rest => do
    if ← b.test i then findFrom b rest
    else
      let b ← b.mark i
      return (b, i)

def find (b : BitMap) : Except Fault (BitMap × ℤ) := b.findFrom (List.range b.numBits)

def numClear (b : BitMap) : Except Fault ℕ :=
  (List.range b.numBits).foldlM
    (fun count (i : ℕ) => do if ← b.test i then return count else return count + 1) 0

end BitMap

/-! What a bitmap is for. -/

/-- The bits of an array of words. -/
def bitOf (map : List Word) (i : ℕ) : Bool :=
  (map.getD (i / bitsInWord) 0).getLsbD (i % bitsInWord)

structure Sized (b : BitMap) : Prop where
  words : b.numWords = divRoundUp b.numBits bitsInWord
  length : b.map.length = b.numWords

def BitMap.bits (b : BitMap) : ℕ → Bool := bitOf b.map

/-- `Resize` doubles the number of bits, keeps the old ones and clears the new ones. -/
def ResizesRight (memory : ℕ → Word) (b : BitMap) : Prop :=
  ∃ t, b.resize memory = .ok t ∧ Sized t ∧ t.numBits = 2 * b.numBits ∧
    (∀ i < b.numBits, t.bits i = b.bits i) ∧
    ∀ i, b.numBits ≤ i → i < 2 * b.numBits → t.bits i = false

variable {b t : BitMap} {memory : ℕ → Word} {i j : ℕ} {map : List Word}

/-! One word. -/

theorem getLsbD_mask {which : ℤ} (hj : j < 32) :
    (BitMap.mask which).getLsbD j = decide (j = which.toNat % bitsInWord) := by
  have hk : which.toNat % bitsInWord < 32 := Nat.mod_lt _ (by decide)
  generalize hm : which.toNat % bitsInWord = k at hk
  rw [BitMap.mask, hm]
  simp only [BitVec.getLsbD_shiftLeft, hj, decide_true, Bool.true_and, BitVec.getLsbD_one]
  by_cases he : j = k
  · simp [he]
  · by_cases hlt : j < k
    · simp [hlt, he]
    · have hpos : j - k ≠ 0 := by omega
      simp [hlt, he, hpos]

theorem and_mask_ne_zero_iff {which : ℤ} (w : Word) :
    w &&& BitMap.mask which ≠ 0 ↔ w.getLsbD (which.toNat % bitsInWord) = true := by
  have hk : which.toNat % bitsInWord < 32 := Nat.mod_lt _ (by decide)
  constructor
  · intro h
    by_contra hclear
    apply h
    apply BitVec.eq_of_getLsbD_eq
    intro j hj
    rw [BitVec.getLsbD_and, getLsbD_mask hj]
    by_cases he : j = which.toNat % bitsInWord
    · rw [← he] at hclear
      simp [hclear]
    · simp [he]
  · intro h h0
    have hbit : (w &&& BitMap.mask which).getLsbD (which.toNat % bitsInWord) = true := by
      rw [BitVec.getLsbD_and, getLsbD_mask hk]
      simp [h]
    rw [h0] at hbit
    simp at hbit

/-! Words of an array. -/

theorem lt_divRoundUp {n : ℕ} (h : i < n) : i / bitsInWord < divRoundUp n bitsInWord := by
  unfold divRoundUp bitsInWord
  split_ifs <;> omega

theorem divRoundUp_lt {n : ℕ} (h : 2 ≤ n) : divRoundUp n bitsInWord < n := by
  unfold divRoundUp bitsInWord
  split_ifs <;> omega

theorem load_of_lt (h : i < map.length) : load map i = .ok (map.getD i 0) := by
  simp [load, h]

theorem load_of_le (h : map.length ≤ i) : load map i = .error .outside := by
  simp [load, h]

theorem store_of_lt (h : i < map.length) (w : Word) : store map i w = .ok (map.set i w) :=
  if_pos h

theorem bitOf_set (h : j / bitsInWord = i → i < map.length) (w : Word) :
    bitOf (map.set i w) j =
      if j / bitsInWord = i then w.getLsbD (j % bitsInWord) else bitOf map j := by
  unfold bitOf
  by_cases he : j / bitsInWord = i
  · simp [he, h he, List.getD_eq_getElem?_getD]
  · simp [he, List.getD_eq_getElem?_getD, List.getElem?_set_ne (Ne.symm he)]

/-! One bit. -/

theorem modify_eq (hb : Sized b) (hi : i < b.numBits) (f : Word → Word) :
    b.modify i f = .ok ⟨b.numBits, b.numWords,
      b.map.set (i / bitsInWord) (f (b.map.getD (i / bitsInWord) 0))⟩ := by
  have hin : i / bitsInWord < b.map.length := by
    rw [hb.length, hb.words]
    exact lt_divRoundUp hi
  have hrange : (i : ℤ) ≥ 0 ∧ (i : ℤ) < b.numBits := ⟨by omega, by exact_mod_cast hi⟩
  simp only [BitMap.modify, if_pos hrange, Int.toNat_natCast, load_of_lt hin]
  exact congrArg (Except.map _) (store_of_lt hin _)

/-- Another word at one bit, which differs from the old one in this bit only. -/
theorem modify_bits (hb : Sized b) (hi : i < b.numBits) {f : Word → Word} {v : Bool}
    (hf : ∀ w k, k < 32 → (f w).getLsbD k = if k = i % bitsInWord then v else w.getLsbD k) :
    ∃ t, b.modify i f = .ok t ∧ Sized t ∧ t.numBits = b.numBits ∧
      ∀ j, t.bits j = if j = i then v else b.bits j := by
  have hin : i / bitsInWord < b.map.length := by
    rw [hb.length, hb.words]
    exact lt_divRoundUp hi
  refine ⟨_, modify_eq hb hi f, ⟨hb.words, by simpa using hb.length⟩, rfl, fun j => ?_⟩
  have hk : j % bitsInWord < 32 := Nat.mod_lt _ (by decide)
  rw [BitMap.bits, bitOf_set fun _ => hin, hf _ _ hk]
  by_cases hword : j / bitsInWord = i / bitsInWord
  · rw [if_pos hword]
    by_cases he : j = i
    · simp [he]
    · have hne : j % bitsInWord ≠ i % bitsInWord := by
        unfold bitsInWord at hword ⊢
        omega
      rw [if_neg hne, if_neg he, BitMap.bits, bitOf, hword]
  · have he : j ≠ i := fun he => hword (by rw [he])
    rw [if_neg hword, if_neg he]
    rfl

theorem mark_bits (hb : Sized b) (hi : i < b.numBits) :
    ∃ t, b.mark i = .ok t ∧ Sized t ∧ t.numBits = b.numBits ∧
      ∀ j, t.bits j = if j = i then true else b.bits j := by
  refine modify_bits hb hi fun w k hk => ?_
  rw [BitVec.getLsbD_or, getLsbD_mask hk, Int.toNat_natCast]
  split_ifs with he <;> simp [he]

theorem clear_bits (hb : Sized b) (hi : i < b.numBits) :
    ∃ t, b.clear i = .ok t ∧ Sized t ∧ t.numBits = b.numBits ∧
      ∀ j, t.bits j = if j = i then false else b.bits j := by
  refine modify_bits hb hi fun w k hk => ?_
  rw [BitVec.getLsbD_and, BitVec.getLsbD_not, getLsbD_mask hk, Int.toNat_natCast]
  split_ifs with he <;> simp [he, hk]

theorem test_bits (hb : Sized b) (hi : i < b.numBits) : b.test i = .ok (b.bits i) := by
  have hin : i / bitsInWord < b.map.length := by
    rw [hb.length, hb.words]
    exact lt_divRoundUp hi
  have hrange : (i : ℤ) ≥ 0 ∧ (i : ℤ) < b.numBits := ⟨by omega, by exact_mod_cast hi⟩
  simp only [BitMap.test, if_pos hrange, Int.toNat_natCast, load_of_lt hin]
  refine congrArg Except.ok ?_
  rw [Bool.eq_iff_iff, decide_eq_true_eq, and_mask_ne_zero_iff]
  rfl

theorem clear_outside (h : b.numBits ≤ i) : b.clear i = .error .assertion := by
  refine if_neg fun hrange => ?_
  have : (i : ℤ) < b.numBits := hrange.2
  omega

/-! The loops. -/

theorem clearFrom_bits (hb : Sized b) (start count : ℕ) (h : start + count ≤ b.numBits) :
    ∃ t, b.clearFrom start count = .ok t ∧ Sized t ∧ t.numBits = b.numBits ∧
      ∀ j, t.bits j = if start ≤ j ∧ j < start + count then false else b.bits j := by
  induction count generalizing b start with
  | zero =>
    refine ⟨b, rfl, hb, rfl, fun j => ?_⟩
    rw [if_neg (by omega)]
  | succ count ih =>
    obtain ⟨t, ht, hst, hnt, hbits⟩ := clear_bits hb (show start < b.numBits by omega)
    obtain ⟨u, hu, hsu, hnu, hubits⟩ := ih hst (start + 1) (by omega)
    refine ⟨u, ?_, hsu, hnu.trans hnt, fun j => ?_⟩
    · rw [BitMap.clearFrom, List.range'_succ, List.foldlM_cons, ht]
      exact hu
    · rw [hubits, hbits]
      by_cases hj : j = start
      · simp [hj]
      · have hiff : start + 1 ≤ j ∧ j < start + 1 + count ↔
            start ≤ j ∧ j < start + (count + 1) := by omega
        simp only [hiff, if_neg hj]

/-- `Clear` asserts that the bit is one of the bitmap. -/
theorem clearFrom_outside {start count : ℕ} (h : b.numBits ≤ start) (hc : 0 < count) :
    b.clearFrom start count = .error .assertion := by
  obtain ⟨count, rfl⟩ := Nat.exists_eq_add_of_lt hc
  rw [Nat.zero_add, BitMap.clearFrom, List.range'_succ, List.foldlM_cons, clear_outside h]
  rfl

theorem copy_succ (newMap : List Word) (count : ℕ) :
    BitMap.copy map newMap (count + 1) = BitMap.copy map newMap count >>= fun newMap =>
      load map count >>= store newMap count := by
  rw [BitMap.copy, List.range_succ, List.foldlM_append, BitMap.copy]
  simp

theorem copy_inside (map newMap : List Word) (count : ℕ) (h : count ≤ map.length)
    (h' : count ≤ newMap.length) :
    ∃ r, BitMap.copy map newMap count = .ok r ∧ r.length = newMap.length := by
  induction count with
  | zero => exact ⟨newMap, rfl, rfl⟩
  | succ count ih =>
    obtain ⟨r, hr, hlen⟩ := ih (by omega) (by omega)
    refine ⟨r.set count (map.getD count 0), ?_, by rw [List.length_set, hlen]⟩
    rw [copy_succ, hr]
    change load map count >>= store r count = _
    rw [load_of_lt (by omega)]
    exact store_of_lt (by omega) _

/-- The first word after the end of the old array stops the copy. -/
theorem copy_outside {newMap : List Word} {count : ℕ} (h : map.length < count)
    (h' : map.length ≤ newMap.length) : BitMap.copy map newMap count = .error .outside := by
  obtain ⟨k, rfl⟩ := Nat.exists_eq_add_of_lt h
  induction k with
  | zero =>
    obtain ⟨r, hr, -⟩ := copy_inside map newMap map.length le_rfl h'
    rw [Nat.add_zero, copy_succ, hr]
    change load map map.length >>= store r map.length = _
    rw [load_of_le le_rfl]
    rfl
  | succ k ih =>
    rw [copy_succ, show map.length + (k + 1) = map.length + k + 1 from rfl, ih (by omega)]
    rfl

theorem findFrom_eq (hb : Sized b) (is : List ℕ) (his : ∀ i ∈ is, i < b.numBits) :
    match is.find? (fun i => !b.bits i) with
    | none => b.findFrom is = .ok (b, -1)
    | some i => ∃ t, b.mark i = .ok t ∧ b.findFrom is = .ok (t, i) := by
  induction is with
  | nil => rfl
  | cons i is ih =>
    have htest := test_bits hb (his i (List.mem_cons_self))
    have hrest := ih fun j hj => his j (List.mem_cons_of_mem _ hj)
    cases hi : b.bits i with
    | true =>
      rw [hi] at htest
      have hstep : b.findFrom (i :: is) = b.findFrom is := by
        rw [BitMap.findFrom, htest]
        rfl
      rw [List.find?_cons_of_neg (by simp [hi])]
      simpa only [hstep] using hrest
    | false =>
      rw [hi] at htest
      rw [List.find?_cons_of_pos (by simp [hi])]
      obtain ⟨t, ht, -⟩ := mark_bits hb (his i (List.mem_cons_self))
      refine ⟨t, ht, ?_⟩
      rw [BitMap.findFrom, htest]
      change (b.mark i >>= fun b => pure (b, (i : ℤ))) = _
      rw [ht]
      rfl

theorem numClear_eq (hb : Sized b) {is : List ℕ} (his : ∀ i ∈ is, i < b.numBits) (count : ℕ) :
    is.foldlM (fun count i => do if ← b.test i then return count else return count + 1) count =
      (.ok (count + is.countP fun i => !b.bits i) : Except Fault ℕ) := by
  induction is generalizing count with
  | nil => rfl
  | cons i is ih =>
    have htest := test_bits hb (his i (List.mem_cons_self))
    have hrest := ih fun j hj => his j (List.mem_cons_of_mem _ hj)
    rw [List.foldlM_cons, htest]
    cases hi : b.bits i with
    | true =>
      rw [List.countP_cons_of_neg (by simp [hi])]
      exact hrest count
    | false =>
      rw [List.countP_cons_of_pos (by simp [hi]), ← Nat.add_assoc, Nat.add_right_comm]
      exact hrest (count + 1)

/-! Whole bitmaps. -/

theorem new_bits (memory : ℕ → Word) (n : ℕ) :
    ∃ t, BitMap.new memory n = .ok t ∧ Sized t ∧ t.numBits = n ∧ ∀ i < n, t.bits i = false := by
  have hsized : Sized ⟨n, divRoundUp n bitsInWord, newArray memory (divRoundUp n bitsInWord)⟩ :=
    ⟨rfl, by simp [newArray]⟩
  obtain ⟨t, ht, hst, hn, hbits⟩ := clearFrom_bits hsized 0 n (by simp)
  refine ⟨t, ht, hst, hn, fun i hi => ?_⟩
  rw [hbits, if_pos (by omega)]

theorem numClear_bits (hb : Sized b) :
    b.numClear = .ok ((List.range b.numBits).countP fun i => !b.bits i) := by
  rw [BitMap.numClear, numClear_eq hb fun i hi => List.mem_range.mp hi, Nat.zero_add]

/-- A bitmap of one bit fails in `Clear`, a larger one before that in the copy, which counts
words by bits. -/
theorem resize_fault (hb : Sized b) (memory : ℕ → Word) (h : 0 < b.numBits) :
    b.resize memory = .error (if b.numBits = 1 then .assertion else .outside) := by
  have hlen : b.map.length = divRoundUp b.numBits bitsInWord := hb.length.trans hb.words
  have hnew : (newArray memory (b.numWords * 2)).length = b.numWords * 2 := by simp [newArray]
  by_cases h1 : b.numBits = 1
  · have hwords : b.numWords = 1 := by rw [hb.words, h1]; rfl
    obtain ⟨r, hr, -⟩ := copy_inside b.map (newArray memory (b.numWords * 2)) b.numBits
      (by rw [hb.length]; omega) (by rw [hnew]; omega)
    rw [BitMap.resize, hr, if_pos h1]
    change (b.clearFrom b.numBits b.numBits >>= fun _ => _) = _
    rw [clearFrom_outside le_rfl h]
    rfl
  · have hlt : b.map.length < b.numBits := hlen ▸ divRoundUp_lt (by omega)
    have hle : b.map.length ≤ b.numWords * 2 := by rw [hb.length]; omega
    rw [BitMap.resize, copy_outside hlt (hle.trans_eq hnew.symm), if_neg h1]
    rfl

theorem resize_empty (hb : Sized b) (memory : ℕ → Word) (h : b.numBits = 0) :
    b.resize memory = .ok ⟨0, 0, []⟩ := by
  have hwords : b.numWords = 0 := by rw [hb.words, h]; rfl
  simp [BitMap.resize, BitMap.copy, BitMap.clearFrom, h, hwords, newArray, divRoundUp]
  rfl

theorem resize_right_iff (hb : Sized b) (memory : ℕ → Word) :
    ResizesRight memory b ↔ b.numBits = 0 := by
  constructor
  · rintro ⟨t, ht, -⟩
    by_contra h
    rw [resize_fault hb memory (Nat.pos_of_ne_zero h)] at ht
    cases ht
  · intro h
    exact ⟨_, resize_empty hb memory h, ⟨rfl, rfl⟩, by simp [h], by simp [h], by simp [h]⟩

theorem resize_right_iff_empty : ResizesRight (fun _ => 0) ⟨0, 0, []⟩ :=
  (resize_right_iff ⟨rfl, rfl⟩ _).mpr rfl

/-- A bitmap with one bit, and one with a word of them. -/
theorem resize_not_right :
    ¬ ResizesRight (fun _ => 0) ⟨1, 1, [0]⟩ ∧ ¬ ResizesRight (fun _ => 0) ⟨32, 1, [5]⟩ := by
  have hone : (BitMap.mk 1 1 [0]).resize (fun _ => 0) = .error .assertion := by decide
  have hword : (BitMap.mk 32 1 [5]).resize (fun _ => 0) = .error .outside := by decide
  constructor
  · rintro ⟨t, ht, -⟩
    rw [hone] at ht
    cases ht
  · rintro ⟨t, ht, -⟩
    rw [hword] at ht
    cases ht

end Nachos.BitMaps
