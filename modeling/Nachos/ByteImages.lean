import Mathlib.Data.List.Basic
import Mathlib.Data.List.TakeDrop
import Mathlib.Tactic.Ring

/-! Lists that are cut out of and put into longer ones, lists made of pieces of one length, and
values that are stored as bytes. -/
namespace Nachos.ByteImages

section
variable {α β : Type*} {l x : List α} {i k m n : ℕ}

/-- `n` elements from `k` on. -/
def slice (l : List α) (k n : ℕ) : List α := (l.drop k).take n

/-- The elements from `k` on are those of `x`. -/
def patch (l : List α) (k : ℕ) (x : List α) : List α := l.take k ++ x ++ l.drop (k + x.length)

theorem length_slice (h : k + n ≤ l.length) : (slice l k n).length = n := by
  simp only [slice, List.length_take, List.length_drop]
  omega

theorem getElem?_slice (l : List α) (k n i : ℕ) :
    (slice l k n)[i]? = if i < n then l[k + i]? else none := by
  rw [slice, List.getElem?_take, List.getElem?_drop]

theorem length_patch (h : k + x.length ≤ l.length) : (patch l k x).length = l.length := by
  simp only [patch, List.length_append, List.length_take, List.length_drop]
  omega

theorem getElem?_patch (h : k + x.length ≤ l.length) (i : ℕ) :
    (patch l k x)[i]? = if k ≤ i ∧ i < k + x.length then x[i - k]? else l[i]? := by
  have hk : (l.take k).length = k := by
    rw [List.length_take]
    omega
  rw [patch, List.append_assoc]
  by_cases hi : i < k
  · rw [List.getElem?_append_left (by omega), List.getElem?_take, if_pos hi, if_neg (by omega)]
  · rw [List.getElem?_append_right (by omega), hk]
    by_cases hx : i < k + x.length
    · rw [List.getElem?_append_left (by omega), if_pos ⟨by omega, hx⟩]
    · rw [List.getElem?_append_right (by omega), List.getElem?_drop, if_neg (by omega)]
      congr 1
      omega

/-- Two stretches side by side. -/
theorem slice_append (l : List α) (k m n : ℕ) :
    slice l k (m + n) = slice l k m ++ slice l (k + m) n := by
  rw [slice, List.take_add, List.drop_drop]
  rfl

theorem patch_append {y : List α} (h : k + x.length + y.length ≤ l.length) :
    patch (patch l k x) (k + x.length) y = patch l k (x ++ y) := by
  have hx : k + x.length ≤ l.length := by omega
  have hy : k + x.length + y.length ≤ (patch l k x).length := by rwa [length_patch hx]
  have hxy : k + (x ++ y).length ≤ l.length := by
    rw [List.length_append]
    omega
  refine List.ext_getElem? fun i => ?_
  rw [getElem?_patch hy, getElem?_patch hx, getElem?_patch hxy, List.length_append]
  by_cases hi : i < k
  · rw [if_neg (by omega), if_neg (by omega), if_neg (by omega)]
  · by_cases hix : i < k + x.length
    · rw [if_neg (by omega), if_pos ⟨by omega, hix⟩, if_pos ⟨by omega, by omega⟩,
        List.getElem?_append_left (by omega)]
    · by_cases hiy : i < k + x.length + y.length
      · rw [if_pos ⟨by omega, hiy⟩, if_pos ⟨by omega, by omega⟩,
          List.getElem?_append_right (by omega)]
        congr 1
        omega
      · rw [if_neg (by omega), if_neg (by omega), if_neg (by omega)]

/-! Pieces of one length. -/

variable {f : β → List α} {bs : List β}

theorem length_flatMap_pieces (h : ∀ b ∈ bs, (f b).length = n) :
    (bs.flatMap f).length = bs.length * n := by
  induction bs with
  | nil => simp
  | cons b bs ih =>
    rw [List.flatMap_cons, List.length_append, h b List.mem_cons_self,
      ih fun c hc => h c (List.mem_cons_of_mem b hc), List.length_cons]
    ring

theorem getElem?_flatMap_pieces (hn : 0 < n) (h : ∀ b ∈ bs, (f b).length = n) (i : ℕ) :
    (bs.flatMap f)[i]? = (bs[i / n]?).bind fun b => (f b)[i % n]? := by
  induction bs generalizing i with
  | nil => simp
  | cons b bs ih =>
    have hb := h b List.mem_cons_self
    have ih := ih fun c hc => h c (List.mem_cons_of_mem b hc)
    rw [List.flatMap_cons]
    by_cases hi : i < n
    · rw [List.getElem?_append_left (by omega), Nat.div_eq_of_lt hi, Nat.mod_eq_of_lt hi]
      rfl
    · obtain ⟨j, rfl⟩ : ∃ j, i = j + n := ⟨i - n, by omega⟩
      rw [List.getElem?_append_right (by omega), hb, Nat.add_sub_cancel, ih,
        Nat.add_div_right _ hn, Nat.add_mod_right]
      rfl

/-- A piece is cut out. -/
theorem slice_piece (hn : 0 < n) (h : ∀ b ∈ bs, (f b).length = n) {b : β} (hb : bs[i]? = some b) :
    slice (bs.flatMap f) (i * n) n = f b := by
  have hlen := h b (List.mem_of_getElem? hb)
  refine List.ext_getElem? fun j => ?_
  rw [getElem?_slice]
  by_cases hj : j < n
  · have hdiv : (i * n + j) / n = i := by
      rw [Nat.mul_comm, Nat.mul_add_div hn, Nat.div_eq_of_lt hj, Nat.add_zero]
    have hmod : (i * n + j) % n = j := by
      rw [Nat.mul_comm, Nat.mul_add_mod, Nat.mod_eq_of_lt hj]
    rw [if_pos hj, getElem?_flatMap_pieces hn h, hdiv, hmod, hb]
    rfl
  · rw [if_neg hj, List.getElem?_eq_none (by omega)]

end

/-- Values that are stored in a fixed number of bytes. -/
class Image (α : Type*) where
  size : ℕ
  encode : α → List UInt8
  decode : List UInt8 → α
  size_pos : 0 < size
  length_encode : ∀ a, (encode a).length = size
  decode_encode : ∀ a, decode (encode a) = a

section
variable {α : Type*} [Image α]

def encodeAll (as : List α) : List UInt8 := as.flatMap Image.encode

/-- An array of `n` values. -/
def decodeAll (α : Type*) [Image α] (n : ℕ) (bytes : List UInt8) : List α :=
  (List.range n).map fun i => Image.decode (slice bytes (i * Image.size α) (Image.size α))

@[simp] theorem length_encodeAll (as : List α) :
    (encodeAll as).length = as.length * Image.size α :=
  length_flatMap_pieces fun a _ => Image.length_encode a

@[simp] theorem length_decodeAll (n : ℕ) (bytes : List UInt8) : (decodeAll α n bytes).length = n := by
  simp [decodeAll]

theorem decodeAll_encodeAll (as : List α) : decodeAll α as.length (encodeAll as) = as := by
  refine List.ext_getElem (by simp) fun i _ hi => ?_
  simp only [decodeAll, List.getElem_map, List.getElem_range]
  rw [encodeAll, slice_piece Image.size_pos (fun a _ => Image.length_encode a) (List.getElem?_eq_getElem hi),
    Image.decode_encode]

end

/-! Words of 32 bits, the low byte first. -/

def encodeWord (w : BitVec 32) : List UInt8 :=
  [.ofBitVec (w.extractLsb' 0 8), .ofBitVec (w.extractLsb' 8 8), .ofBitVec (w.extractLsb' 16 8),
    .ofBitVec (w.extractLsb' 24 8)]

def decodeWord (bytes : List UInt8) : BitVec 32 :=
  (bytes.getD 3 0).toBitVec ++ (bytes.getD 2 0).toBitVec ++ (bytes.getD 1 0).toBitVec ++
    (bytes.getD 0 0).toBitVec

theorem decodeWord_encodeWord (w : BitVec 32) : decodeWord (encodeWord w) = w := by
  simp only [decodeWord, encodeWord, List.getD_cons_zero, List.getD_cons_succ, UInt8.toBitVec_ofBitVec]
  refine BitVec.eq_of_getLsbD_eq fun i hi => ?_
  simp only [BitVec.getLsbD_append, BitVec.getLsbD_extractLsb']
  split_ifs with h0 h1 h2
  · simp [h0]
  · rw [decide_eq_true (by omega), Bool.true_and]
    congr 1
    omega
  · rw [decide_eq_true (by omega), Bool.true_and]
    congr 1
    omega
  · rw [decide_eq_true (by omega), Bool.true_and]
    congr 1
    omega

instance : Image (BitVec 32) where
  size := 4
  encode := encodeWord
  decode := decodeWord
  size_pos := by decide
  length_encode _ := rfl
  decode_encode := decodeWord_encodeWord

end Nachos.ByteImages
