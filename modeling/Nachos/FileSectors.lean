import Nachos.BitMaps
import Nachos.ByteImages

/-! `filesys/filehdr.cc` and `filesys/openfile.cc`: files of a fixed length, in sectors of the
disk that their headers list. A sector that the disk does not have fails an `ASSERT`. -/
namespace Nachos.FileSystem
open BitMaps ByteImages

def sectorSize : ℕ := 128

/-- `NumSectors`, of the disk -/
def numSectors : ℕ := 32 * 32

def numDirect : ℕ := (sectorSize - 2 * 4) / 4

def intMax : ℤ := 2 ^ 31 - 1

structure Sector where
  bytes : List UInt8
  length : bytes.length = sectorSize
  deriving DecidableEq

/-- The sector that is written from a buffer. -/
def Sector.ofBytes (buf : List UInt8) : Sector :=
  ⟨(buf ++ List.replicate sectorSize 0).take sectorSize, by simp⟩

abbrev Disk := ℕ → Sector

def readSector (d : Disk) (sector : ℤ) : Except Fault Sector :=
  if 0 ≤ sector ∧ sector < numSectors then .ok (d sector.toNat) else .error .assertion

def writeSector (d : Disk) (sector : ℤ) (s : Sector) : Except Fault Disk :=
  if 0 ≤ sector ∧ sector < numSectors then .ok (Function.update d sector.toNat s)
  else .error .assertion

structure FileHeader where
  numBytes : Word
  numSectors : Word
  dataSectors : Vector Word numDirect
  deriving DecidableEq

namespace FileHeader

def words (h : FileHeader) : List Word := h.numBytes :: h.numSectors :: h.dataSectors.toList

/-- `(char *)this` -/
instance : Image FileHeader where
  size := sectorSize
  encode h := encodeAll h.words
  decode bytes :=
    let ws := decodeAll Word (numDirect + 2) bytes
    ⟨ws.getD 0 0, ws.getD 1 0, Vector.ofFn fun i => ws.getD (i + 2) 0⟩
  size_pos := by decide
  length_encode h := by simp [words]; rfl
  decode_encode h := by
    have hlen : h.words.length = numDirect + 2 := by simp [words]
    rw [← hlen, decodeAll_encodeAll]
    simp [words]

def fetchFrom (d : Disk) (sector : ℤ) : Except Fault FileHeader :=
  (readSector d sector).map fun s => Image.decode s.bytes

def writeBack (h : FileHeader) (d : Disk) (sector : ℤ) : Except Fault Disk :=
  writeSector d sector (.ofBytes (Image.encode h))

/-- `dataSectors[offset / SectorSize]` -/
def byteToSector (h : FileHeader) (offset : ℕ) : Except Fault ℤ :=
  match h.dataSectors.toList[offset / sectorSize]? with
  | some sector => .ok sector.toInt
  | none => .error .outside

def fileLength (h : FileHeader) : ℤ := h.numBytes.toInt

end FileHeader

/-! Reading and writing at a position. -/

/-- `count` sectors of the file, from `first` on. -/
def readSectors (d : Disk) (h : FileHeader) (first : ℕ) : ℕ → Except Fault (List UInt8)
  | 0 => .ok []
  | k + 1 => do
    let buf ← readSectors d h first k
    let sector ← h.byteToSector ((first + k) * sectorSize)
    let s ← readSector d sector
    return buf ++ s.bytes

def writeSectors (d : Disk) (h : FileHeader) (first : ℕ) (buf : List UInt8) : ℕ → Except Fault Disk
  | 0 => .ok d
  | k + 1 => do
    let d ← writeSectors d h first buf k
    let sector ← h.byteToSector ((first + k) * sectorSize)
    writeSector d sector (.ofBytes (slice buf (k * sectorSize) sectorSize))

/-- `numBytes`, cut off at the end of the file -/
def clamp (h : FileHeader) (numBytes position : ℤ) : ℤ :=
  if position + numBytes > h.fileLength then h.fileLength - position else numBytes

/-- What `ReadAt` copies to `into`; it returns their number. A negative position leads outside of
the buffer, and so does a sum that is no `int`. -/
def readAt (d : Disk) (h : FileHeader) (numBytes position : ℤ) : Except Fault (List UInt8) :=
  if numBytes ≤ 0 ∨ position ≥ h.fileLength then .ok []
  else if position < 0 ∨ position + numBytes > intMax then .error .outside
  else do
    let n := (clamp h numBytes position).toNat
    let firstSector := position.toNat / sectorSize
    let lastSector := (position.toNat + n - 1) / sectorSize
    let buf ← readSectors d h firstSector (1 + lastSector - firstSector)
    return slice buf (position.toNat - firstSector * sectorSize) n

/-- `ReadAt(&buf[k], SectorSize, sector * SectorSize)` -/
def loadSector (d : Disk) (h : FileHeader) (buf : List UInt8) (k sector : ℕ) :
    Except Fault (List UInt8) :=
  (readAt d h sectorSize (sector * sectorSize : ℕ)).map (patch buf k)

/-- The sectors that a `WriteAt` of `src` at `position` puts together: the parts of the first and
the last sector that stay come from the disk, and nothing but `memory` where there is no file. -/
def compose (memory : ℕ → UInt8) (d : Disk) (h : FileHeader) (src : List UInt8) (position : ℕ) :
    Except Fault (List UInt8) := do
  let firstSector := position / sectorSize
  let lastSector := (position + src.length - 1) / sectorSize
  let buf := (List.range ((1 + lastSector - firstSector) * sectorSize)).map memory
  let firstAligned := decide (position = firstSector * sectorSize)
  let lastAligned := decide (position + src.length = (lastSector + 1) * sectorSize)
  let buf ← (if !firstAligned then loadSector d h buf 0 firstSector else .ok buf)
  let buf ← (if !lastAligned && (firstSector ≠ lastSector || firstAligned) then
      loadSector d h buf ((lastSector - firstSector) * sectorSize) lastSector
    else .ok buf)
  return patch buf (position - firstSector * sectorSize) src

/-- `WriteAt(src, numBytes, position)` with all of `src` -/
def writeAt (memory : ℕ → UInt8) (d : Disk) (h : FileHeader) (src : List UInt8) (position : ℤ) :
    Except Fault (Disk × ℤ) :=
  if (src.length : ℤ) ≤ 0 ∨ position ≥ h.fileLength then .ok (d, 0)
  else if position < 0 ∨ position + src.length > intMax then .error .outside
  else do
    let numBytes := clamp h src.length position
    let firstSector := position.toNat / sectorSize
    let lastSector := (position.toNat + numBytes.toNat - 1) / sectorSize
    let buf ← compose memory d h (src.take numBytes.toNat) position.toNat
    let d ← writeSectors d h firstSector buf (1 + lastSector - firstSector)
    return (d, numBytes)

structure OpenFile where
  hdr : FileHeader
  seekPosition : ℤ
  deriving DecidableEq

namespace OpenFile

def opened (d : Disk) (sector : ℤ) : Except Fault OpenFile :=
  (FileHeader.fetchFrom d sector).map fun hdr => ⟨hdr, 0⟩

def seek (f : OpenFile) (position : ℤ) : OpenFile := { f with seekPosition := position }

def read (d : Disk) (f : OpenFile) (numBytes : ℤ) : Except Fault (List UInt8 × OpenFile) :=
  (readAt d f.hdr numBytes f.seekPosition).map fun bytes =>
    (bytes, f.seek (f.seekPosition + bytes.length))

def write (memory : ℕ → UInt8) (d : Disk) (f : OpenFile) (src : List UInt8) :
    Except Fault (Disk × ℤ × OpenFile) :=
  (writeAt memory d f.hdr src f.seekPosition).map fun r =>
    (r.1, r.2, f.seek (f.seekPosition + r.2))

end OpenFile

/-! What a file is for. -/

/-- The bytes of some sectors, one after the other. -/
def space (d : Disk) (sectors : List ℕ) : List UInt8 := sectors.flatMap fun n => (d n).bytes

/-- The data sectors of the file. -/
def FileHeader.sectors (h : FileHeader) : List ℕ :=
  (h.dataSectors.toList.take h.numSectors.toInt.toNat).map BitVec.toNat

def contents (d : Disk) (h : FileHeader) : List UInt8 :=
  (space d h.sectors).take h.fileLength.toNat

/-- The header of a file whose sectors are on the disk, none twice. -/
structure FileHeader.Sane (h : FileHeader) : Prop where
  enough : h.fileLength ≤ h.sectors.length * sectorSize
  inDisk : ∀ n ∈ h.sectors, n < FileSystem.numSectors
  nodup : h.sectors.Nodup

/-- New bytes from a position on, as many as the file has room for. -/
def overwrite (c : List UInt8) (position : ℕ) (src : List UInt8) : List UInt8 :=
  patch c position (src.take (c.length - position))

variable {d d' : Disk} {h : FileHeader} {sectors : List ℕ} {s : Sector} {i j k n first count : ℕ}
  {buf src : List UInt8} {position numBytes : ℤ} {memory : ℕ → UInt8}

/-! Sectors. -/

theorem readSector_eq (hn : n < numSectors) (d : Disk) : readSector d n = .ok (d n) :=
  if_pos ⟨by omega, by exact_mod_cast hn⟩

theorem writeSector_eq (hn : n < numSectors) (d : Disk) (s : Sector) :
    writeSector d n s = .ok (Function.update d n s) := if_pos ⟨by omega, by exact_mod_cast hn⟩

theorem Sector.ofBytes_bytes (hbuf : buf.length = sectorSize) : (Sector.ofBytes buf).bytes = buf := by
  simp only [Sector.ofBytes]
  rw [← hbuf, List.take_left]

theorem length_space (d : Disk) (sectors : List ℕ) :
    (space d sectors).length = sectors.length * sectorSize :=
  length_flatMap_pieces fun n _ => (d n).length

theorem getElem?_space (d : Disk) (sectors : List ℕ) (i : ℕ) :
    (space d sectors)[i]? =
      (sectors[i / sectorSize]?).bind fun n => (d n).bytes[i % sectorSize]? :=
  getElem?_flatMap_pieces (by decide) (fun n _ => (d n).length) i

theorem space_congr (hd : ∀ n ∈ sectors, d' n = d n) : space d' sectors = space d sectors := by
  refine List.flatMap_congr fun n hn => ?_
  rw [hd n hn]

/-- One sector of the file is written. -/
theorem space_update (hnodup : sectors.Nodup) (hj : sectors[j]? = some n) (s : Sector) :
    space (Function.update d n s) sectors = patch (space d sectors) (j * sectorSize) s.bytes := by
  have hlt : j < sectors.length := (List.getElem?_eq_some_iff.mp hj).1
  have hroom : j * sectorSize + s.bytes.length ≤ (space d sectors).length := by
    rw [length_space, s.length, ← Nat.succ_mul]
    exact Nat.mul_le_mul_right _ hlt
  refine List.ext_getElem? fun i => ?_
  rw [getElem?_patch hroom, getElem?_space, getElem?_space, s.length]
  by_cases hi : i / sectorSize = j
  · have hin : j * sectorSize ≤ i ∧ i < j * sectorSize + sectorSize := by
      subst hi
      exact ⟨Nat.div_mul_le_self _ _, Nat.lt_div_mul_add (by decide)⟩
    have hmod : i % sectorSize = i - j * sectorSize := by
      rw [← hi, Nat.mod_eq_sub_div_mul]
    rw [if_pos hin, hi, hj, hmod]
    simp
  · have hout : ¬ (j * sectorSize ≤ i ∧ i < j * sectorSize + sectorSize) := by
      rintro ⟨hlo, hhi⟩
      refine hi (Nat.div_eq_of_lt_le hlo ?_)
      rw [Nat.succ_mul]
      exact hhi
    rw [if_neg hout]
    cases hn : sectors[i / sectorSize]? with
    | none => rfl
    | some n' =>
      have hne : n' ≠ n := by
        rintro rfl
        have hlt' : i / sectorSize < sectors.length := (List.getElem?_eq_some_iff.mp hn).1
        exact hi ((List.getElem?_inj hlt' hnodup).mp (hn.trans hj.symm))
      simp [hne]

theorem byteToSector_eq (hk : h.sectors[k]? = some n) (hn : n < numSectors) :
    h.byteToSector (k * sectorSize) = .ok n := by
  simp only [FileHeader.sectors, List.getElem?_map, Option.map_eq_some_iff] at hk
  obtain ⟨w, hw, rfl⟩ := hk
  have hword : h.dataSectors.toList[k]? = some w := by
    rw [List.getElem?_take] at hw
    split_ifs at hw
    exact hw
  have hint : w.toInt = w.toNat := BitVec.toInt_eq_toNat_of_lt (by
    unfold numSectors at hn
    omega)
  rw [FileHeader.byteToSector, Nat.mul_div_cancel _ (by decide), hword]
  exact congrArg Except.ok hint

/-! Reading. -/

theorem FileHeader.Sane.exists_sector (hs : h.Sane) (hk : k < h.sectors.length) :
    ∃ n, h.sectors[k]? = some n ∧ n < FileSystem.numSectors :=
  ⟨_, List.getElem?_eq_getElem hk, hs.inDisk _ (List.getElem_mem hk)⟩

theorem readSectors_eq (hs : h.Sane) (hc : first + count ≤ h.sectors.length) :
    readSectors d h first count =
      .ok (slice (space d h.sectors) (first * sectorSize) (count * sectorSize)) := by
  induction count with
  | zero => simp [readSectors, slice]
  | succ k ih =>
    obtain ⟨n, hn, hlt⟩ := hs.exists_sector (k := first + k) (by omega)
    have hpiece : slice (space d h.sectors) ((first + k) * sectorSize) sectorSize = (d n).bytes :=
      slice_piece (by decide) (fun n _ => (d n).length) hn
    have hjoin := slice_append (space d h.sectors) (first * sectorSize) (k * sectorSize) sectorSize
    rw [← Nat.add_mul, hpiece, ← Nat.succ_mul] at hjoin
    rw [readSectors, ih (by omega), hjoin]
    simp only [bind, Except.bind, byteToSector_eq hn hlt, readSector_eq hlt, pure, Except.pure]

theorem FileHeader.Sane.length_contents (hs : h.Sane) (d : Disk) :
    (contents d h).length = h.fileLength.toNat := by
  have henough := hs.enough
  rw [contents, List.length_take, length_space]
  omega

/-- The sectors that a stretch of the file lies in. -/
theorem FileHeader.Sane.lastSector_lt (hs : h.Sane) {p n : ℕ} (hn : 0 < n)
    (hL : ((p + n : ℕ) : ℤ) ≤ h.fileLength) :
    p / sectorSize + (1 + (p + n - 1) / sectorSize - p / sectorSize) ≤ h.sectors.length := by
  have henough := hs.enough
  have hmono : p / sectorSize ≤ (p + n - 1) / sectorSize := Nat.div_le_div_right (by omega)
  have hlast : (p + n - 1) / sectorSize < h.sectors.length :=
    Nat.div_lt_of_lt_mul (by
      rw [Nat.mul_comm]
      omega)
  omega

theorem clamp_eq {p m : ℕ} (hp : (p : ℤ) < h.fileLength) :
    (clamp h m p).toNat = min m (h.fileLength.toNat - p) ∧
      ((p + (clamp h m p).toNat : ℕ) : ℤ) ≤ h.fileLength := by
  unfold clamp
  split_ifs <;> omega

/-- `ReadAt` copies what the file holds from the position on. -/
theorem readAt_eq (hs : h.Sane) (d : Disk) {p m : ℕ} (hint : ((p + m : ℕ) : ℤ) ≤ intMax) :
    readAt d h m p = .ok (slice (contents d h) p m) := by
  have hlen := hs.length_contents d
  by_cases hnone : (m : ℤ) ≤ 0 ∨ (p : ℤ) ≥ h.fileLength
  · have hnil : slice (contents d h) p m = [] := by
      refine List.eq_nil_of_length_eq_zero ?_
      simp only [slice, List.length_take, List.length_drop]
      omega
    rw [readAt, if_pos hnone, hnil]
  · obtain ⟨hm, hp⟩ := not_or.mp hnone
    obtain ⟨hn, hL⟩ := clamp_eq (m := m) (lt_of_not_ge hp)
    rw [readAt, if_neg hnone, if_neg (by omega)]
    generalize (clamp h m p).toNat = n at hn hL ⊢
    have hpos : 0 < n := by omega
    have hsect := hs.lastSector_lt hpos hL
    simp only [Int.toNat_natCast, bind, Except.bind, readSectors_eq hs hsect, pure, Except.pure]
    refine congrArg Except.ok (List.ext_getElem? fun i => ?_)
    have hlo : p / sectorSize * sectorSize ≤ p := Nat.div_mul_le_self _ _
    have hhi : p + n - 1 < ((p + n - 1) / sectorSize + 1) * sectorSize := by
      rw [Nat.succ_mul]
      exact Nat.lt_div_mul_add (by decide)
    have hmono : p / sectorSize ≤ (p + n - 1) / sectorSize := Nat.div_le_div_right (by omega)
    generalize (p + n - 1) / sectorSize = last at *
    generalize p / sectorSize = first at *
    have hsplit : (1 + last - first) * sectorSize + first * sectorSize = (last + 1) * sectorSize := by
      rw [← Nat.add_mul]
      congr 1
      omega
    rw [getElem?_slice, getElem?_slice, getElem?_slice, contents, List.getElem?_take]
    by_cases hi : i < n
    · rw [if_pos hi, if_pos (by omega), if_pos (by omega), if_pos (by omega)]
      congr 1
      omega
    · rw [if_neg hi]
      split_ifs <;> first | rfl | omega

/-! Writing. -/

/-- The sectors of the file from `first` on get the bytes of `buf`, and no other sector does. -/
theorem writeSectors_eq (hs : h.Sane) (hc : first + count ≤ h.sectors.length)
    (hbuf : count * sectorSize ≤ buf.length) :
    ∃ d', writeSectors d h first buf count = .ok d' ∧
      space d' h.sectors =
        patch (space d h.sectors) (first * sectorSize) (buf.take (count * sectorSize)) ∧
      ∀ n ∉ h.sectors, d' n = d n := by
  induction count with
  | zero => exact ⟨d, rfl, by simp [patch], fun n _ => rfl⟩
  | succ k ih =>
    have hsucc : (k + 1) * sectorSize = k * sectorSize + sectorSize := Nat.succ_mul _ _
    obtain ⟨d', hd', hspace, hframe⟩ := ih (by omega) (by omega)
    obtain ⟨n, hn, hlt⟩ := hs.exists_sector (k := first + k) (by omega)
    have hpart : (slice buf (k * sectorSize) sectorSize).length = sectorSize :=
      length_slice (by omega)
    have htake : (buf.take (k * sectorSize)).length = k * sectorSize := by
      rw [List.length_take]
      omega
    have hroom : first * sectorSize + (k + 1) * sectorSize ≤ (space d h.sectors).length := by
      rw [length_space, ← Nat.add_mul]
      exact Nat.mul_le_mul_right _ hc
    refine ⟨Function.update d' n (.ofBytes (slice buf (k * sectorSize) sectorSize)), ?_, ?_,
      fun m hm => ?_⟩
    · rw [writeSectors, hd']
      simp only [bind, Except.bind, byteToSector_eq hn hlt, writeSector_eq hlt]
    · have hjoin : buf.take ((k + 1) * sectorSize) =
          buf.take (k * sectorSize) ++ slice buf (k * sectorSize) sectorSize := by
        rw [hsucc, List.take_add]
        rfl
      have happend := patch_append (l := space d h.sectors) (k := first * sectorSize)
        (x := buf.take (k * sectorSize)) (y := slice buf (k * sectorSize) sectorSize) (by omega)
      rw [htake, ← Nat.add_mul] at happend
      rw [space_update hs.nodup hn, Sector.ofBytes_bytes hpart, hspace, hjoin, happend]
    · have hne : m ≠ n := fun hmn => hm (hmn ▸ List.mem_of_getElem? hn)
      rw [Function.update_of_ne hne]
      exact hframe m hm

theorem FileHeader.length_sectors_le (h : FileHeader) : h.sectors.length ≤ numDirect := by
  simp [FileHeader.sectors]

theorem FileHeader.Sane.fileLength_le (hs : h.Sane) : h.fileLength ≤ numDirect * sectorSize := by
  have hmax := Nat.mul_le_mul_right sectorSize h.length_sectors_le
  exact hs.enough.trans (by exact_mod_cast hmax)

variable (buf) in
theorem loadSector_eq (hs : h.Sane) (d : Disk) (hk : k + sectorSize ≤ buf.length)
    (hn : n * sectorSize < h.fileLength.toNat) :
    ∃ b, loadSector d h buf k n = .ok b ∧ b.length = buf.length ∧
      (∀ j < sectorSize, n * sectorSize + j < h.fileLength.toNat →
        b[k + j]? = (contents d h)[n * sectorSize + j]?) ∧
      ∀ j, j < k ∨ k + sectorSize ≤ j → b[j]? = buf[j]? := by
  have hmax := hs.fileLength_le
  have hlen := hs.length_contents d
  have hread := readAt_eq hs d (p := n * sectorSize) (m := sectorSize) (by
    unfold intMax
    unfold numDirect sectorSize at *
    omega)
  generalize hx : slice (contents d h) (n * sectorSize) sectorSize = x at hread
  have hxlen : x.length = min sectorSize (h.fileLength.toNat - n * sectorSize) := by
    rw [← hx, slice, List.length_take, List.length_drop, hlen]
  refine ⟨patch buf k x, by rw [loadSector, hread]; rfl, length_patch (by omega), ?_, ?_⟩
  · intro j hj hjL
    rw [getElem?_patch (by omega), if_pos (by omega), Nat.add_sub_cancel_left, ← hx,
      getElem?_slice, if_pos hj]
  · intro j hj
    rw [getElem?_patch (by omega), if_neg (by omega)]

variable (src) in
/-- The bytes that `WriteAt` puts together are those that the file shall hold, as far as it goes. -/
theorem compose_eq (hs : h.Sane) (memory : ℕ → UInt8) (d : Disk) {p : ℕ} (hsrc : 0 < src.length)
    (hL : ((p + src.length : ℕ) : ℤ) ≤ h.fileLength) :
    ∃ buf, compose memory d h src p = .ok buf ∧
      buf.length = (1 + (p + src.length - 1) / sectorSize - p / sectorSize) * sectorSize ∧
      ∀ j < buf.length, p / sectorSize * sectorSize + j < h.fileLength.toNat →
        buf[j]? = (patch (contents d h) p src)[p / sectorSize * sectorSize + j]? := by
  have hlen := hs.length_contents d
  have hlo : p / sectorSize * sectorSize ≤ p := Nat.div_mul_le_self _ _
  have hlo' : p < p / sectorSize * sectorSize + sectorSize := Nat.lt_div_mul_add (by decide)
  have hend : (p + src.length - 1) / sectorSize * sectorSize ≤ p + src.length - 1 :=
    Nat.div_mul_le_self _ _
  have hend' : p + src.length - 1 < (p + src.length - 1) / sectorSize * sectorSize + sectorSize :=
    Nat.lt_div_mul_add (by decide)
  have hmono : p / sectorSize ≤ (p + src.length - 1) / sectorSize := Nat.div_le_div_right (by omega)
  unfold compose
  generalize hf : p / sectorSize = first at *
  generalize hl : (p + src.length - 1) / sectorSize = last at *
  have hcount : (1 + last - first) * sectorSize = (last - first) * sectorSize + sectorSize := by
    rw [← Nat.succ_mul]
    congr 1
    omega
  have hsucc : (last + 1) * sectorSize = last * sectorSize + sectorSize := Nat.succ_mul _ _
  have hdiff : (last - first) * sectorSize + first * sectorSize = last * sectorSize := by
    rw [← Nat.add_mul, Nat.sub_add_cancel hmono]
  have hzero : first = last → (last - first) * sectorSize = 0 := by
    rintro rfl
    simp
  have hpos : first ≠ last → sectorSize ≤ (last - first) * sectorSize := fun hne =>
    Nat.le_mul_of_pos_left _ (by omega)
  -- the first sector is read unless all of it is written
  obtain ⟨b₁, hb₁, hlen₁, hkeep₁⟩ : ∃ b₁,
      (if !decide (p = first * sectorSize) then
        loadSector d h ((List.range ((1 + last - first) * sectorSize)).map memory) 0 first
        else .ok ((List.range ((1 + last - first) * sectorSize)).map memory)) = .ok b₁ ∧
      b₁.length = (1 + last - first) * sectorSize ∧
      (p ≠ first * sectorSize → ∀ j < sectorSize, first * sectorSize + j < h.fileLength.toNat →
        b₁[j]? = (contents d h)[first * sectorSize + j]?) := by
    by_cases hp : p = first * sectorSize
    · exact ⟨_, if_neg (by simp [hp]), by simp, fun hne => absurd hp hne⟩
    · obtain ⟨b, hb, hblen, hin, -⟩ := loadSector_eq
        ((List.range ((1 + last - first) * sectorSize)).map memory) hs d (k := 0) (n := first)
        (by simp only [List.length_map, List.length_range]; omega) (by omega)
      refine ⟨b, by rw [if_pos (by simp [hp]), hb], by simpa using hblen, fun _ j hj hjL => ?_⟩
      simpa using hin j hj hjL
  -- so is the last one, unless it has just been
  obtain ⟨b₂, hb₂, hlen₂, hbefore, hafter⟩ : ∃ b₂,
      (if !decide (p + src.length = (last + 1) * sectorSize) &&
          (first ≠ last || decide (p = first * sectorSize)) then
        loadSector d h b₁ ((last - first) * sectorSize) last
        else .ok b₁) = .ok b₂ ∧
      b₂.length = (1 + last - first) * sectorSize ∧
      (∀ j < p - first * sectorSize,
        b₂[j]? = (contents d h)[first * sectorSize + j]?) ∧
      ∀ j < b₂.length, p + src.length ≤ first * sectorSize + j →
        first * sectorSize + j < h.fileLength.toNat →
        b₂[j]? = (contents d h)[first * sectorSize + j]? := by
    by_cases hload : p + src.length ≠ (last + 1) * sectorSize ∧
        (first ≠ last ∨ p = first * sectorSize)
    · obtain ⟨b, hb, hblen, hin, hout⟩ := loadSector_eq b₁ hs d (k := (last - first) * sectorSize)
        (n := last) (by omega) (by omega)
      refine ⟨b, by rw [if_pos (by simpa using hload), hb], hblen.trans hlen₁, ?_, ?_⟩
      · intro j hj
        rw [hout j (.inl (by omega))]
        exact hkeep₁ (by omega) j (by omega) (by omega)
      · intro j hj hjp hjL
        have hk := hin (j - (last - first) * sectorSize) (by omega) (by omega)
        rw [Nat.add_sub_cancel' (by omega)] at hk
        rw [hk]
        congr 1
        omega
    · refine ⟨b₁, if_neg (by simpa using hload), hlen₁, ?_, ?_⟩
      · intro j hj
        exact hkeep₁ (by omega) j (by omega) (by omega)
      · intro j hj hjp hjL
        exact hkeep₁ (by omega) j (by omega) hjL
  have hroom : p - first * sectorSize + src.length ≤ b₂.length := by omega
  refine ⟨patch b₂ (p - first * sectorSize) src, ?_, by rw [length_patch hroom, hlen₂], ?_⟩
  · simp only [bind, Except.bind, hb₁, hb₂]
    rfl
  · intro j hj hjL
    rw [length_patch hroom] at hj
    rw [getElem?_patch hroom, getElem?_patch (by omega)]
    by_cases hin : p - first * sectorSize ≤ j ∧ j < p - first * sectorSize + src.length
    · rw [if_pos hin, if_pos (by omega)]
      congr 1
      omega
    · rw [if_neg hin, if_neg (by omega)]
      by_cases hjp : j < p - first * sectorSize
      · exact hbefore j hjp
      · exact hafter j hj (by omega) hjL

variable (src) in
/-- `WriteAt` puts the bytes of `src` into the file, up to its end, and touches no sector of
another file. -/
theorem writeAt_eq (hs : h.Sane) (memory : ℕ → UInt8) (d : Disk) {p : ℕ}
    (hint : ((p + src.length : ℕ) : ℤ) ≤ intMax) :
    ∃ d', writeAt memory d h src p = .ok (d', (min src.length (h.fileLength.toNat - p) : ℕ)) ∧
      contents d' h = overwrite (contents d h) p src ∧ ∀ n ∉ h.sectors, d' n = d n := by
  have hlen := hs.length_contents d
  by_cases hnone : (src.length : ℤ) ≤ 0 ∨ (p : ℤ) ≥ h.fileLength
  · have hcut : min src.length (h.fileLength.toNat - p) = 0 := by omega
    have hnil : src.take (h.fileLength.toNat - p) = [] := by
      refine List.eq_nil_of_length_eq_zero ?_
      rw [List.length_take]
      omega
    refine ⟨d, by rw [writeAt, if_pos hnone, hcut]; rfl, ?_, fun _ _ => rfl⟩
    simp [overwrite, hlen, hnil, patch]
  · obtain ⟨hm, hp⟩ := not_or.mp hnone
    obtain ⟨hn, hL⟩ := clamp_eq (m := src.length) (lt_of_not_ge hp)
    have htake : src.take (min src.length (h.fileLength.toNat - p)) =
        src.take (h.fileLength.toNat - p) := by
      rw [List.take_eq_take_iff]
      omega
    have hcount : clamp h src.length p = (min src.length (h.fileLength.toNat - p) : ℕ) := by
      rw [← hn, Int.toNat_of_nonneg]
      unfold clamp
      split_ifs <;> omega
    rw [hn] at hL
    have hsrc : (src.take (h.fileLength.toNat - p)).length =
        min src.length (h.fileLength.toNat - p) := by
      rw [List.length_take, Nat.min_comm]
    obtain ⟨buf, hbuf, hbuflen, hbytes⟩ :=
      compose_eq (src.take (h.fileLength.toNat - p)) hs memory d (p := p) (by omega)
        (by rwa [hsrc])
    rw [hsrc] at hbuflen
    have hsect := hs.lastSector_lt (p := p) (by omega) hL
    obtain ⟨d', hd', hspace, hframe⟩ := writeSectors_eq (d := d) hs hsect hbuflen.ge
    refine ⟨d', ?_, ?_, hframe⟩
    · rw [writeAt, if_neg hnone, if_neg (by omega), hcount]
      simp only [Int.toNat_natCast, htake, bind, Except.bind, hbuf, hd']
      rfl
    · rw [← hbuflen, List.take_length] at hspace
      rw [contents, hspace, overwrite, hlen]
      refine List.ext_getElem? fun i => ?_
      have hlo : p / sectorSize * sectorSize ≤ p := Nat.div_mul_le_self _ _
      have hhi : p + min src.length (h.fileLength.toNat - p) - 1 <
          (p + min src.length (h.fileLength.toNat - p) - 1) / sectorSize * sectorSize + sectorSize :=
        Nat.lt_div_mul_add (by decide)
      have hmono : p / sectorSize ≤
          (p + min src.length (h.fileLength.toNat - p) - 1) / sectorSize :=
        Nat.div_le_div_right (by omega)
      have hroom := Nat.mul_le_mul_right sectorSize hsect
      rw [Nat.add_mul, ← hbuflen, ← length_space d] at hroom
      have hsum : p / sectorSize * sectorSize + buf.length =
          (p + min src.length (h.fileLength.toNat - p) - 1) / sectorSize * sectorSize + sectorSize := by
        rw [hbuflen, ← Nat.add_mul, ← Nat.succ_mul]
        congr 1
        omega
      rw [List.getElem?_take, getElem?_patch hroom]
      by_cases hi : i < h.fileLength.toNat
      · rw [if_pos hi]
        by_cases hin : p / sectorSize * sectorSize ≤ i ∧ i < p / sectorSize * sectorSize + buf.length
        · have hb := hbytes (i - p / sectorSize * sectorSize) (by omega) (by omega)
          rw [Nat.add_sub_cancel' hin.1] at hb
          rw [if_pos hin, hb]
        · rw [if_neg hin, getElem?_patch (by omega), if_neg (by omega), contents,
            List.getElem?_take, if_pos hi]
      · rw [if_neg hi, List.getElem?_eq_none]
        rw [length_patch (by omega)]
        omega

end Nachos.FileSystem
