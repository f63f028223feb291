import Nachos.FileSectors

/-! `FileHeader::Allocate` and `FileHeader::Deallocate`: the data sectors of a file are found in
the bitmap of the sectors that are in use. There is no check of the length of `dataSectors`. -/
namespace Nachos.FileSystem
open BitMaps ByteImages

namespace FileHeader

/-- `divRoundUp(fileSize, SectorSize)` -/
def sectorsFor (fileSize : Word) : ℤ :=
  fileSize.toInt.tdiv sectorSize + if fileSize.toInt.tmod sectorSize > 0 then 1 else 0

/-- The loop of `Allocate` for `count` more sectors, from `dataSectors[i]` on. -/
def allocateFrom (sectors : Vector Word numDirect) (freeMap : BitMap) (i : ℕ) :
    ℕ → Except Fault (Vector Word numDirect × BitMap)
  | 0 => .ok (sectors, freeMap)
  | count + 1 => do
    let (freeMap, n) ← freeMap.find
    if h : i < numDirect then allocateFrom (sectors.set i (.ofInt 32 n)) freeMap (i + 1) count
    else .error .outside

/-- `Allocate` of a new header, whose `dataSectors` are those of the memory. -/
def allocate (memory : ℕ → Word) (freeMap : BitMap) (fileSize : Word) :
    Except Fault (Bool × FileHeader × BitMap) := do
  let hdr : FileHeader :=
    ⟨fileSize, .ofInt 32 (sectorsFor fileSize), .ofFn fun i => memory i⟩
  if (← freeMap.numClear) < sectorsFor fileSize then return (false, hdr, freeMap)
  let (dataSectors, freeMap) ←
    allocateFrom hdr.dataSectors freeMap 0 (sectorsFor fileSize).toNat
  return (true, { hdr with dataSectors }, freeMap)

def deallocateFrom (sectors : Vector Word numDirect) (freeMap : BitMap) (i : ℕ) :
    ℕ → Except Fault BitMap
  | 0 => .ok freeMap
  | count + 1 => do
    match sectors.toList[i]? with
    | none => .error .outside
    | some n =>
      if ← freeMap.test n.toInt then
        deallocateFrom sectors (← freeMap.clear n.toInt) (i + 1) count
      else .error .assertion

def deallocate (hdr : FileHeader) (freeMap : BitMap) : Except Fault BitMap :=
  deallocateFrom hdr.dataSectors freeMap 0 hdr.numSectors.toInt.toNat

end FileHeader

/-- The clear bits, in order. -/
def free (b : BitMap) : List ℕ := (List.range b.numBits).filter fun i => !b.bits i

variable {b : BitMap} {i k n count : ℕ} {rest xs : List ℕ} {sectors : Vector Word numDirect}
  {h : FileHeader} {fileSize : Word} {memory : ℕ → Word}

theorem mem_free : n ∈ free b ↔ n < b.numBits ∧ b.bits n = false := by simp [free]

theorem nodup_free (b : BitMap) : (free b).Nodup := List.nodup_range.filter _

theorem numClear_eq_length_free (hb : Sized b) : b.numClear = .ok (free b).length := by
  rw [numClear_bits hb, free, List.countP_eq_length_filter]

theorem find_eq_none (hb : Sized b) (hfree : free b = []) : b.find = .ok (b, -1) := by
  have hfind := findFrom_eq hb (List.range b.numBits) fun i hi => List.mem_range.mp hi
  rwa [List.find?_eq_none.mpr fun i hi => (List.filter_eq_nil_iff.mp hfree) i hi] at hfind

/-- `Find` takes the first of the clear bits. -/
theorem find_eq_some (hb : Sized b) (hfree : free b = n :: rest) :
    ∃ t, b.find = .ok (t, n) ∧ Sized t ∧ t.numBits = b.numBits ∧ free t = rest ∧
      ∀ j, t.bits j = if j = n then true else b.bits j := by
  have hfind := findFrom_eq hb (List.range b.numBits) fun i hi => List.mem_range.mp hi
  have hhead : (List.range b.numBits).find? (fun i => !b.bits i) = some n := by
    rw [← List.head?_filter]
    exact congrArg List.head? hfree
  obtain ⟨hn, -⟩ := mem_free.mp (hfree ▸ List.mem_cons_self)
  rw [hhead] at hfind
  obtain ⟨t, ht, hf⟩ := hfind
  obtain ⟨t', ht', hst, hnt, hbits⟩ := mark_bits hb hn
  obtain rfl : t = t' := Except.ok.inj (ht.symm.trans ht')
  refine ⟨t, hf, hst, hnt, ?_, hbits⟩
  have hnodup : (n :: rest).Nodup := hfree ▸ nodup_free b
  have herase : free t = (free b).filter fun j => j ≠ n := by
    rw [free, free, List.filter_filter, hnt]
    refine List.filter_congr fun j _ => ?_
    rw [hbits]
    by_cases hj : j = n <;> simp [hj]
  rw [herase, hfree, List.filter_cons_of_neg (by simp), List.filter_eq_self]
  intro j hj
  simpa using fun he : j = n => (List.nodup_cons.mp hnodup).1 (he ▸ hj)

namespace FileHeader

/-- The first `count` of the clear bits are set, and their numbers stand in the header. -/
theorem allocateFrom_eq (sectors : Vector Word numDirect) (i count : ℕ) (hb : Sized b)
    (hcount : count ≤ (free b).length)
    (hi : i + count ≤ numDirect) :
    ∃ v t, allocateFrom sectors b i count = .ok (v, t) ∧ Sized t ∧ t.numBits = b.numBits ∧
      free t = (free b).drop count ∧
      v.toList.take (i + count) =
        sectors.toList.take i ++ ((free b).take count).map (BitVec.ofNat 32) ∧
      ∀ j, t.bits j = (b.bits j || decide (j ∈ (free b).take count)) := by
  induction count generalizing b i sectors with
  | zero => exact ⟨sectors, b, rfl, hb, rfl, rfl, by simp, by simp⟩
  | succ count ih =>
    obtain ⟨n, rest, hfree⟩ : ∃ n rest, free b = n :: rest :=
      List.exists_cons_of_length_pos (by omega)
    obtain ⟨t, hfind, hst, hnt, hrest, hbits⟩ := find_eq_some hb hfree
    have hlt : i < numDirect := by omega
    rw [hfree, List.length_cons] at hcount
    obtain ⟨v, u, hloop, hsu, hnu, hdrop, htake, hubits⟩ :=
      ih (b := t) (sectors.set i (.ofInt 32 n)) (i + 1) hst (by rw [hrest]; omega) (by omega)
    refine ⟨v, u, ?_, hsu, hnu.trans hnt, ?_, ?_, fun j => ?_⟩
    · rw [allocateFrom, hfind]
      simp only [bind, Except.bind, dif_pos hlt]
      exact hloop
    · rw [hdrop, hrest, hfree, List.drop_succ_cons]
    · have hset : (sectors.set i (.ofInt 32 n)).toList.take (i + 1) =
          sectors.toList.take i ++ [BitVec.ofNat 32 n] := by
        rw [Vector.toList_set, List.take_add_one, List.take_set_of_le le_rfl]
        simp [hlt]
      rw [show i + (count + 1) = i + 1 + count by omega, htake, hset, hrest, hfree]
      simp
    · rw [hubits, hbits, hrest, hfree, List.take_succ_cons]
      by_cases hj : j = n <;> simp [hj]

/-- More sectors than the header has room for. -/
theorem allocateFrom_outside (sectors : Vector Word numDirect) (i count : ℕ) (hb : Sized b)
    (hcount : count ≤ (free b).length)
    (hi : i ≤ numDirect) (hout : numDirect < i + count) :
    allocateFrom sectors b i count = .error .outside := by
  induction count generalizing b i sectors with
  | zero => omega
  | succ count ih =>
    obtain ⟨n, rest, hfree⟩ : ∃ n rest, free b = n :: rest :=
      List.exists_cons_of_length_pos (by omega)
    obtain ⟨t, hfind, hst, -, hrest, -⟩ := find_eq_some hb hfree
    rw [hfree, List.length_cons] at hcount
    rw [allocateFrom, hfind]
    simp only [bind, Except.bind]
    by_cases hlt : i < numDirect
    · rw [dif_pos hlt]
      exact ih _ _ hst (by rw [hrest]; omega) (by omega) (by omega)
    · rw [dif_neg hlt]

theorem toInt_of_toNat_lt {w : Word} (hw : w.toNat < FileSystem.numSectors) :
    w.toInt = (w.toNat : ℤ) :=
  BitVec.toInt_eq_toNat_of_lt (by
    unfold FileSystem.numSectors at hw
    omega)

theorem drop_eq_cons {n : ℕ} {xs : List ℕ} {ws : List Word}
    (hxs : ((ws.drop i).take (count + 1)).map BitVec.toNat = n :: xs) :
    ∃ w, ws[i]? = some w ∧ w.toNat = n ∧ ((ws.drop (i + 1)).take count).map BitVec.toNat = xs := by
  cases hw : ws.drop i with
  | nil => simp [hw] at hxs
  | cons w ws' =>
    rw [hw, List.take_succ_cons, List.map_cons, List.cons.injEq] at hxs
    refine ⟨w, ?_, hxs.1, ?_⟩
    · rw [← List.head?_drop, hw]
      rfl
    · rw [← List.tail_drop, hw]
      exact hxs.2

/-- The bits of the sectors are cleared. -/
theorem deallocateFrom_eq (hb : Sized b) (hsmall : b.numBits ≤ FileSystem.numSectors)
    (hxs : ((sectors.toList.drop i).take count).map BitVec.toNat = xs) (hlen : xs.length = count)
    (hnodup : xs.Nodup) (hset : ∀ n ∈ xs, n < b.numBits ∧ b.bits n = true) :
    ∃ t, deallocateFrom sectors b i count = .ok t ∧ Sized t ∧ t.numBits = b.numBits ∧
      ∀ j, t.bits j = (b.bits j && !decide (j ∈ xs)) := by
  induction xs generalizing b i count with
  | nil =>
    subst hlen
    exact ⟨b, rfl, hb, rfl, by simp⟩
  | cons n xs ih =>
    subst hlen
    obtain ⟨w, hw, rfl, hrest⟩ := drop_eq_cons hxs
    obtain ⟨hn, hbit⟩ := hset w.toNat List.mem_cons_self
    obtain ⟨hfresh, hnodup⟩ := List.nodup_cons.mp hnodup
    obtain ⟨t, ht, hst, hnt, htbits⟩ := clear_bits hb hn
    obtain ⟨u, hu, hsu, hnu, hubits⟩ := ih hst (by omega) hrest rfl hnodup fun m hm => by
      obtain ⟨hm', hbit'⟩ := hset m (List.mem_cons_of_mem _ hm)
      have hne : m ≠ w.toNat := fun he => hfresh (by rwa [← he])
      exact ⟨by omega, by rw [htbits, if_neg hne, hbit']⟩
    refine ⟨u, ?_, hsu, hnu.trans hnt, fun j => ?_⟩
    · rw [List.length_cons, deallocateFrom, hw]
      simp only [toInt_of_toNat_lt (hn.trans_le hsmall), test_bits hb hn, hbit, bind, Except.bind,
        if_true, ht]
      exact hu
    · rw [hubits, htbits]
      by_cases hj : j = w.toNat <;> simp [hj]

/-! Whole headers. -/

theorem sectorsFor_of_nonneg (h : 0 ≤ fileSize.toInt) :
    sectorsFor fileSize = (fileSize.toInt + (sectorSize - 1)) / sectorSize := by
  unfold sectorsFor sectorSize
  rw [Int.tdiv_eq_ediv_of_nonneg h, Int.tmod_eq_emod_of_nonneg h]
  split_ifs <;> omega

theorem sectorsFor_of_neg (h : fileSize.toInt < 0) :
    sectorsFor fileSize = -(-fileSize.toInt / sectorSize) := by
  have hquot : fileSize.toInt.tdiv sectorSize = -(-fileSize.toInt / sectorSize) := by
    rw [← Int.tdiv_eq_ediv_of_nonneg (by omega), Int.neg_tdiv, Int.neg_neg]
  have hrem : ¬ fileSize.toInt.tmod sectorSize > 0 := by
    have := Int.tmod_nonneg (sectorSize : ℤ) (a := -fileSize.toInt) (by omega)
    rw [Int.neg_tmod] at this
    omega
  rw [sectorsFor, if_neg hrem, hquot, Int.add_zero]

theorem toInt_sectorsFor (fileSize : Word) :
    (BitVec.ofInt 32 (sectorsFor fileSize)).toInt = sectorsFor fileSize := by
  have hlo := BitVec.le_toInt fileSize
  have hhi := BitVec.toInt_lt (x := fileSize)
  rw [BitVec.toInt_ofInt]
  refine Int.bmod_eq_of_le ?_ ?_ <;>
  · rcases lt_or_ge fileSize.toInt 0 with hneg | hpos
    · rw [sectorsFor_of_neg hneg]
      unfold sectorSize
      omega
    · rw [sectorsFor_of_nonneg hpos]
      unfold sectorSize
      omega

/-- As many sectors as the bytes need. -/
theorem toNat_sectorsFor (fileSize : Word) :
    (sectorsFor fileSize).toNat = (fileSize.toInt.toNat + (sectorSize - 1)) / sectorSize := by
  rcases lt_or_ge fileSize.toInt 0 with hneg | hpos
  · rw [sectorsFor_of_neg hneg]
    unfold sectorSize
    omega
  · rw [sectorsFor_of_nonneg hpos]
    unfold sectorSize
    omega

theorem map_toNat_ofNat (hxs : ∀ n ∈ xs, n < FileSystem.numSectors) :
    (xs.map (BitVec.ofNat 32)).map BitVec.toNat = xs := by
  rw [List.map_map]
  refine (List.map_congr_left fun n hn => ?_).trans (List.map_id xs)
  have hlt := hxs n hn
  unfold FileSystem.numSectors at hlt
  simp only [Function.comp_apply, BitVec.toNat_ofNat, id_eq]
  omega

variable (memory) in
/-- There are not enough clear bits. -/
theorem allocate_full (hb : Sized b) (hfull : ((free b).length : ℤ) < sectorsFor fileSize) :
    ∃ hdr, allocate memory b fileSize = .ok (false, hdr, b) := by
  refine ⟨⟨fileSize, .ofInt 32 (sectorsFor fileSize), .ofFn fun i => memory i⟩, ?_⟩
  simp only [allocate, numClear_eq_length_free hb, bind, Except.bind, if_pos hfull]
  rfl

variable (memory) in
theorem allocate_outside (hb : Sized b) (hroom : sectorsFor fileSize ≤ (free b).length)
    (hout : numDirect < (sectorsFor fileSize).toNat) :
    allocate memory b fileSize = .error .outside := by
  have hloop := allocateFrom_outside (.ofFn fun i => memory i) 0
    (sectorsFor fileSize).toNat hb (by omega) (by omega) (by omega)
  simp only [allocate, numClear_eq_length_free hb, bind, Except.bind, if_neg hroom.not_gt, hloop]

variable (memory fileSize) in
/-- The header lists the first clear bits, which are set. -/
theorem allocate_eq (hb : Sized b) (hsmall : b.numBits ≤ FileSystem.numSectors)
    (hroom : sectorsFor fileSize ≤ (free b).length)
    (hin : (sectorsFor fileSize).toNat ≤ numDirect) :
    ∃ hdr t, allocate memory b fileSize = .ok (true, hdr, t) ∧ Sized t ∧ t.numBits = b.numBits ∧
      hdr.numBytes = fileSize ∧ hdr.numSectors.toInt = sectorsFor fileSize ∧
      hdr.sectors = (free b).take (sectorsFor fileSize).toNat ∧
      free t = (free b).drop (sectorsFor fileSize).toNat ∧
      ∀ j, t.bits j = (b.bits j || decide (j ∈ (free b).take (sectorsFor fileSize).toNat)) := by
  obtain ⟨v, t, hloop, hst, hnt, hfree, htake, hbits⟩ :=
    allocateFrom_eq (.ofFn fun i => memory i) 0 (sectorsFor fileSize).toNat hb (by omega) (by omega)
  refine ⟨⟨fileSize, .ofInt 32 (sectorsFor fileSize), v⟩, t, ?_, hst, hnt, rfl,
    toInt_sectorsFor fileSize, ?_, hfree, hbits⟩
  · simp only [allocate, numClear_eq_length_free hb, bind, Except.bind, if_neg hroom.not_gt, hloop]
    rfl
  · rw [Nat.zero_add, List.take_zero, List.nil_append] at htake
    rw [sectors, toInt_sectorsFor, htake]
    refine map_toNat_ofNat fun n hn => ?_
    exact (mem_free.mp (List.mem_of_mem_take hn)).1.trans_le hsmall

theorem deallocate_eq (hb : Sized b) (hsmall : b.numBits ≤ FileSystem.numSectors)
    (hin : h.numSectors.toInt.toNat ≤ numDirect) (hnodup : h.sectors.Nodup)
    (hset : ∀ n ∈ h.sectors, n < b.numBits ∧ b.bits n = true) :
    ∃ t, h.deallocate b = .ok t ∧ Sized t ∧ t.numBits = b.numBits ∧
      ∀ j, t.bits j = (b.bits j && !decide (j ∈ h.sectors)) := by
  refine deallocateFrom_eq hb hsmall rfl ?_ hnodup hset
  simpa [sectors] using hin

end FileHeader

end Nachos.FileSystem
