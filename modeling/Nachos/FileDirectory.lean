import Nachos.FileSectors

/-! `filesys/directory.cc`, and arrays that are kept in a file. -/
namespace Nachos.FileSystem
open BitMaps ByteImages

def fileNameMaxLen : ℕ := 9

/-- `!strncmp(a, b, n)`, of strings whose end is a null byte. -/
def sameChars : ℕ → List UInt8 → List UInt8 → Bool
  | 0, _, _ => true
  | n + 1, a, b =>
    a.headD 0 = b.headD 0 && (a.headD 0 = 0 || sameChars n a.tail b.tail)

/-- `strncpy(dst, src, FileNameMaxLen)` -/
def strncpy (dst : Vector UInt8 (fileNameMaxLen + 1)) (src : List UInt8) :
    Vector UInt8 (fileNameMaxLen + 1) :=
  .ofFn fun i => if i < fileNameMaxLen then (src.takeWhile (· ≠ 0)).getD i 0 else dst[i]

structure DirectoryEntry where
  inUse : Bool
  sector : Word
  name : Vector UInt8 (fileNameMaxLen + 1)
  deriving DecidableEq

namespace DirectoryEntry

/-- The padding behind `inUse` and behind `name`, which nothing reads, is taken to be 0. -/
def encode (e : DirectoryEntry) : List UInt8 :=
  [if e.inUse then 1 else 0, 0, 0, 0] ++ encodeWord e.sector ++ e.name.toList ++ [0, 0]

def decode (bytes : List UInt8) : DirectoryEntry :=
  ⟨bytes.getD 0 0 ≠ 0, decodeWord (slice bytes 4 4), .ofFn fun i => bytes.getD (8 + i) 0⟩

theorem length_encode (e : DirectoryEntry) : e.encode.length = 20 := by
  have hlen : e.name.toList.length = fileNameMaxLen + 1 := Vector.length_toList
  simp only [encode, encodeWord, List.length_append, List.length_cons, List.length_nil, hlen]
  rfl

theorem decode_encode (e : DirectoryEntry) : decode e.encode = e := by
  obtain ⟨inUse, sector, name⟩ := e
  have hword : slice (encode ⟨inUse, sector, name⟩) 4 4 = encodeWord sector := rfl
  have hflag : (encode ⟨inUse, sector, name⟩).getD 0 0 = if inUse then 1 else 0 := rfl
  have hlen : name.toList.length = fileNameMaxLen + 1 := Vector.length_toList
  have hname (i : ℕ) (hi : i < fileNameMaxLen + 1) :
      (encode ⟨inUse, sector, name⟩).getD (8 + i) 0 = name[i] := by
    have hsplit : encode ⟨inUse, sector, name⟩ =
        ([if inUse then 1 else 0, 0, 0, 0] ++ encodeWord sector) ++ (name.toList ++ [0, 0]) := by
      simp [encode]
    have hhead : ([if inUse then 1 else 0, 0, 0, 0] ++ encodeWord sector).length = 8 := rfl
    rw [hsplit, List.getD_eq_getElem?_getD, List.getElem?_append_right (by omega), hhead,
      Nat.add_sub_cancel_left, List.getElem?_append_left (by omega),
      List.getElem?_eq_getElem (hlen.symm ▸ hi), Option.getD_some, Vector.getElem_toList]
  simp only [decode, hword, hflag, decodeWord_encodeWord, DirectoryEntry.mk.injEq, true_and]
  refine ⟨?_, ?_⟩
  · cases inUse <;> decide
  · refine Vector.ext fun i hi => ?_
    rw [Vector.getElem_ofFn]
    exact hname i hi

instance image : Image DirectoryEntry where
  size := 20
  encode := encode
  decode := decode
  size_pos := by decide
  length_encode := length_encode
  decode_encode := decode_encode

/-- The assignments to the entry of a new name. -/
def assign (name : List UInt8) (newSector : ℤ) (e : DirectoryEntry) : DirectoryEntry :=
  ⟨true, .ofInt 32 newSector, strncpy e.name name⟩

end DirectoryEntry

/-- The `table`, with `tableSize` entries. -/
abbrev Directory := List DirectoryEntry

namespace Directory

/-- `Directory(size)` -/
def new (memory : ℕ → DirectoryEntry) (size : ℕ) : Directory :=
  (List.range size).map fun i => { memory i with inUse := false }

def findIndex (table : Directory) (name : List UInt8) : Option ℕ :=
  table.findIdx? fun e => e.inUse && sameChars fileNameMaxLen e.name.toList name

def find (table : Directory) (name : List UInt8) : ℤ :=
  match table.findIndex name with
  | some i => (table[i]?.map fun e => e.sector.toInt).getD (-1)
  | none => -1

def add (table : Directory) (name : List UInt8) (newSector : ℤ) : Bool × Directory :=
  if (table.findIndex name).isSome then (false, table)
  else match table.findIdx? fun e => !e.inUse with
  | some i => (true, table.modify i (.assign name newSector))
  | none => (false, table)

def remove (table : Directory) (name : List UInt8) : Bool × Directory :=
  match table.findIndex name with
  | some i => (true, table.modify i fun e => { e with inUse := false })
  | none => (false, table)

end Directory

/-! Arrays in a file. -/

section
variable {α : Type*} [Image α]

/-- `file->ReadAt((char *)as, n * sizeof(α), 0)`, into an array of `n` elements. -/
def fetchArray (d : Disk) (file : OpenFile) (as : List α) : Except Fault (List α) :=
  (readAt d file.hdr (as.length * Image.size α : ℕ) 0).map fun bytes =>
    decodeAll α as.length (patch (encodeAll as) 0 bytes)

/-- `file->WriteAt((char *)as, n * sizeof(α), 0)` -/
def writeArray (memory : ℕ → UInt8) (d : Disk) (file : OpenFile) (as : List α) :
    Except Fault Disk :=
  (writeAt memory d file.hdr (encodeAll as) 0).map Prod.fst

end

/-! What a directory is for. -/

/-- The part of a name that counts. -/
def key (name : List UInt8) : List UInt8 := (name.takeWhile (· ≠ 0)).take fileNameMaxLen

def DirectoryEntry.key (e : DirectoryEntry) : List UInt8 := FileSystem.key e.name.toList

/-- The files of a directory by their names. -/
def Directory.files (table : Directory) : List DirectoryEntry := table.filter fun e => e.inUse

variable {name : List UInt8} {table : Directory} {e : DirectoryEntry} {sector : ℤ}

theorem sameChars_iff (n : ℕ) (a b : List UInt8) :
    sameChars n a b = true ↔
      (a.takeWhile (· ≠ 0)).take n = (b.takeWhile (· ≠ 0)).take n := by
  induction n generalizing a b with
  | zero => simp [sameChars]
  | succ n ih =>
    cases a with
    | nil => cases b with
      | nil => simp [sameChars]
      | cons y b =>
        by_cases hy : y = 0
        · simp [sameChars, hy]
        · simp [sameChars, hy, Ne.symm hy]
    | cons x a => cases b with
      | nil => by_cases hx : x = 0 <;> simp [sameChars, hx]
      | cons y b =>
        by_cases hxy : x = y
        · subst hxy
          by_cases hx : x = 0
          · simp [sameChars, hx]
          · simp [sameChars, hx, ih]
        · by_cases hx : x = 0
          · subst hx
            have hy : y ≠ 0 := Ne.symm hxy
            simp [sameChars, hxy, hy]
          · by_cases hy : y = 0 <;> simp [sameChars, hxy, hx, hy]

theorem sameChars_key : sameChars fileNameMaxLen e.name.toList name = true ↔ e.key = key name :=
  sameChars_iff _ _ _

theorem key_eq (name : List UInt8) : key name = (name.take fileNameMaxLen).takeWhile (· ≠ 0) := by
  rw [key]
  generalize fileNameMaxLen = n
  induction name generalizing n with
  | nil => simp
  | cons x name ih =>
    cases n with
    | zero => simp
    | succ n =>
      by_cases hx : x = 0
      · simp [hx]
      · rw [List.takeWhile_cons_of_pos (by simpa using hx), List.take_succ_cons,
          List.take_succ_cons, List.takeWhile_cons_of_pos (by simpa using hx), ih]

theorem takeWhile_padded {cs : List UInt8} (hcs : ∀ c ∈ cs, c ≠ 0) (n : ℕ) :
    ((List.range n).map fun i => cs.getD i 0).takeWhile (· ≠ 0) = cs.take n := by
  induction cs generalizing n with
  | nil => cases n with
    | zero => rfl
    | succ n => simp [List.range_succ_eq_map]
  | cons c cs ih => cases n with
    | zero => rfl
    | succ n =>
      have hc := hcs c List.mem_cons_self
      have ih := ih (fun c' hc' => hcs c' (List.mem_cons_of_mem c hc')) n
      rw [List.range_succ_eq_map, List.map_cons, List.map_map, List.getD_cons_zero,
        List.takeWhile_cons_of_pos (by simpa using hc), List.take_succ_cons, ← ih]
      rfl

/-- The copied name has the same key. -/
theorem key_strncpy (dst : Vector UInt8 (fileNameMaxLen + 1)) (src : List UInt8) :
    key (strncpy dst src).toList = key src := by
  have htake : (strncpy dst src).toList.take fileNameMaxLen =
      (List.range fileNameMaxLen).map fun i => (src.takeWhile (· ≠ 0)).getD i 0 := by
    refine List.ext_getElem (by simp) fun i hi _ => ?_
    have hlt : i < fileNameMaxLen := by
      rw [List.length_take] at hi
      omega
    simp [strncpy, hlt]
  have hne : ∀ c ∈ src.takeWhile (· ≠ 0), c ≠ 0 := fun c hc => by
    simpa using List.mem_takeWhile_imp hc
  rw [key_eq, htake, takeWhile_padded hne, key]

/-! The table. -/

theorem Directory.mem_files : e ∈ table.files ↔ e ∈ table ∧ e.inUse = true := List.mem_filter

theorem Directory.length_files_le (table : Directory) : table.files.length ≤ table.length :=
  List.length_filter_le _ _

theorem Directory.files_append (t u : Directory) :
    files (t ++ u) = files t ++ files u := List.filter_append t u

theorem Directory.files_use {t u : Directory} (e e' : DirectoryEntry) (he : e.inUse = false)
    (he' : e'.inUse = true) : (files (t ++ e' :: u)).Perm (e' :: files (t ++ e :: u)) := by
  have hcons : files (e' :: u) = e' :: files u := List.filter_cons_of_pos he'
  have hskip : files (e :: u) = files u := List.filter_cons_of_neg (by simp [he])
  rw [files_append, files_append, hcons, hskip]
  exact List.perm_middle

theorem Directory.modify_eq {i : ℕ} (hi : i < table.length) (f : DirectoryEntry → DirectoryEntry) :
    ∃ t u, table = t ++ table[i] :: u ∧ table.modify i f = t ++ f table[i] :: u :=
  ⟨table.take i, table.drop (i + 1), by simp, List.modify_eq_take_cons_drop hi⟩

theorem Directory.findIndex_eq_none (hname : ∀ e ∈ table.files, e.key ≠ key name) :
    table.findIndex name = none := by
  refine List.findIdx?_eq_none_iff.mpr fun e he => ?_
  cases huse : e.inUse with
  | false => rfl
  | true =>
    rw [Bool.true_and, ← Bool.not_eq_true, sameChars_key]
    exact hname e (mem_files.mpr ⟨he, huse⟩)

/-- The entry of a name that is in the directory. -/
theorem Directory.findIndex_eq_some (he : e ∈ table.files) (hkey : e.key = key name)
    (hkeys : (table.files.map DirectoryEntry.key).Nodup) :
    ∃ i, ∃ hi : i < table.length, table.findIndex name = some i ∧ table[i] = e := by
  obtain ⟨hmem, huse⟩ := mem_files.mp he
  have hsome := List.findIdx?_eq_some_of_exists
    (show ∃ e ∈ table, (e.inUse && sameChars fileNameMaxLen e.name.toList name) = true from
      ⟨e, hmem, by rw [huse, Bool.true_and, sameChars_key, hkey]⟩)
  obtain ⟨hi, hp, -⟩ := List.findIdx?_eq_some_iff_getElem.mp hsome
  rw [Bool.and_eq_true, sameChars_key] at hp
  refine ⟨_, hi, hsome, ?_⟩
  exact List.inj_on_of_nodup_map hkeys (mem_files.mpr ⟨List.getElem_mem hi, hp.1⟩) he
    (hp.2.trans hkey.symm)

theorem Directory.find_eq_none (hname : ∀ e ∈ table.files, e.key ≠ key name) :
    table.find name = -1 := by
  rw [find, findIndex_eq_none hname]

theorem Directory.find_eq_some (he : e ∈ table.files) (hkey : e.key = key name)
    (hkeys : (table.files.map DirectoryEntry.key).Nodup) :
    table.find name = e.sector.toInt := by
  obtain ⟨i, hi, hfind, hget⟩ := findIndex_eq_some he hkey hkeys
  rw [find, hfind]
  simp [hi, hget]

theorem Directory.add_full (hname : ∀ e ∈ table.files, e.key ≠ key name)
    (hfull : table.files.length = table.length) : table.add name sector = (false, table) := by
  have hall := List.length_filter_eq_length_iff.mp hfull
  have hnone : table.findIdx? (fun e => !e.inUse) = none :=
    List.findIdx?_eq_none_iff.mpr fun e he => by rw [hall e he]; rfl
  simp [add, findIndex_eq_none hname, hnone]

variable (sector) in
/-- A new name takes an entry that was free. -/
theorem Directory.add_new (hname : ∀ e ∈ table.files, e.key ≠ key name)
    (hfree : table.files.length < table.length) :
    ∃ t e, table.add name sector = (true, t) ∧ e.key = key name ∧ e.sector = .ofInt 32 sector ∧
      t.length = table.length ∧ t.files.Perm (e :: table.files) := by
  obtain ⟨e₀, hmem, huse⟩ : ∃ e ∈ table, ¬ e.inUse = true := by
    by_contra hall
    push Not at hall
    exact hfree.ne (List.length_filter_eq_length_iff.mpr hall)
  have hsome := List.findIdx?_eq_some_of_exists
    (show ∃ e ∈ table, (!e.inUse) = true from ⟨e₀, hmem, by simpa using huse⟩)
  obtain ⟨hi, hp, -⟩ := List.findIdx?_eq_some_iff_getElem.mp hsome
  generalize table.findIdx (fun e => !e.inUse) = i at hi hsome
  obtain ⟨t, u, ht, hmod⟩ := modify_eq hi (.assign name sector)
  refine ⟨table.modify i (.assign name sector), table[i].assign name sector, ?_,
    key_strncpy _ _, rfl, List.length_modify .., ?_⟩
  · rw [add, findIndex_eq_none hname, hsome]
    rfl
  · have hperm := files_use (t := t) (u := u) table[i] (table[i].assign name sector)
      (by simpa using hp) rfl
    rwa [← ht, ← hmod] at hperm

theorem Directory.remove_eq (he : e ∈ table.files) (hkey : e.key = key name)
    (hkeys : (table.files.map DirectoryEntry.key).Nodup) :
    ∃ t, table.remove name = (true, t) ∧ t.length = table.length ∧
      table.files.Perm (e :: t.files) := by
  obtain ⟨i, hi, hfind, rfl⟩ := findIndex_eq_some he hkey hkeys
  obtain ⟨t, u, ht, hmod⟩ := modify_eq hi fun e => { e with inUse := false }
  refine ⟨table.modify i fun e => { e with inUse := false }, ?_, List.length_modify .., ?_⟩
  · rw [remove, hfind]
  · have hperm := files_use (t := t) (u := u) { table[i] with inUse := false } table[i]
      rfl (mem_files.mp he).2
    rwa [← ht, ← hmod] at hperm

/-! Arrays. -/

section
variable {α : Type*} [Image α] {as as' : List α} {d : Disk} {file : OpenFile}

theorem FileHeader.Sane.fits {h : FileHeader} (hs : h.Sane) :
    ((0 + h.fileLength.toNat : ℕ) : ℤ) ≤ intMax := by
  have hmax := hs.fileLength_le
  unfold intMax
  unfold numDirect sectorSize at hmax
  omega

variable (as) in
/-- The array that is read is the one in the file. -/
theorem fetchArray_eq (hs : file.hdr.Sane) (hd : contents d file.hdr = encodeAll as')
    (hlen : as.length = as'.length) : fetchArray d file as = .ok as' := by
  have hbytes := hs.length_contents d
  rw [hd, length_encodeAll] at hbytes
  have hread := readAt_eq hs d (p := 0) (m := as.length * Image.size α)
    (by rw [hlen, hbytes]; exact hs.fits)
  have hall : slice (encodeAll as') 0 (as.length * Image.size α) = encodeAll as' := by
    rw [slice, List.drop_zero, hlen, ← length_encodeAll, List.take_length]
  have hpatch : patch (encodeAll as) 0 (encodeAll as') = encodeAll as' := by
    rw [patch, List.drop_eq_nil_of_le (by simp [hlen])]
    simp
  rw [hd, hall, Nat.cast_zero] at hread
  rw [fetchArray, hread]
  simp only [Except.map, hpatch, hlen, decodeAll_encodeAll]

variable (as) in
/-- The file holds the array that is written. -/
theorem writeArray_eq (hs : file.hdr.Sane) (memory : ℕ → UInt8) (d : Disk)
    (hlen : file.hdr.fileLength.toNat = as.length * Image.size α) :
    ∃ d', writeArray memory d file as = .ok d' ∧ contents d' file.hdr = encodeAll as ∧
      ∀ n ∉ file.hdr.sectors, d' n = d n := by
  have hbytes := hs.length_contents d
  rw [hlen] at hbytes
  obtain ⟨d', hd', hcont, hframe⟩ := writeAt_eq (encodeAll as) hs memory d (p := 0)
    (by rw [length_encodeAll, ← hlen]; exact hs.fits)
  refine ⟨d', ?_, ?_, hframe⟩
  · rw [writeArray]
    exact congrArg (Except.map Prod.fst) hd'
  · rw [hcont, overwrite, hbytes, Nat.sub_zero, List.take_of_length_le (by simp), patch,
      List.drop_eq_nil_of_le (by simp [hbytes])]
    simp

end

end Nachos.FileSystem
