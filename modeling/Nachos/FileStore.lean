import Nachos.FileInvariant
import Nachos.Simulations

/-! A program that uses the file system, and what it sees: a map from names to contents, with a
limited number of entries and of sectors. -/
namespace Nachos.FileSystem
open BitMaps ByteImages Simulations

/-- What a program asks for; an open file is named by the position of its handle. -/
inductive Request
  | create (name : List UInt8) (initialSize : Word)
  | openFile (name : List UInt8)
  | remove (name : List UInt8)
  | seek (handle : ℕ) (position : ℤ)
  | read (handle : ℕ) (numBytes : ℤ)
  | write (handle : ℕ) (src : List UInt8)
  | mount

inductive Answer
  | done
  | success (b : Bool)
  | bytes (into : List UInt8)
  | count (n : ℤ)
  deriving DecidableEq

/-- A handle is kept with the key of the name that was opened. The mark tells that the file has not
been removed since; the code has no such mark. -/
structure Handle (φ : Type) where
  key : List UInt8
  file : φ
  live : Bool

/-- The file of the key is removed. -/
def Handle.withdraw {φ : Type} (k : List UInt8) (h : Handle φ) : Handle φ :=
  { h with live := h.live && h.key ≠ k }

structure Client where
  mounted : Mounted
  handles : List (Handle OpenFile)

namespace Client

/-- One request. A file can be used through its handles after it has been removed, too. -/
def step (c : Client) : Memory × Request → Except Fault (Client × Answer)
  | (memory, .create name initialSize) =>
    (c.mounted.create memory name initialSize).map fun r => ({ c with mounted := r.2 }, .success r.1)
  | (memory, .openFile name) =>
    (c.mounted.openFile memory name).map fun f =>
      ({ c with handles := c.handles ++ f.toList.map fun f => ⟨key name, f, true⟩ }, .success f.isSome)
  | (memory, .remove name) =>
    (c.mounted.remove memory name).map fun r =>
      (⟨r.2, if r.1 then c.handles.map (Handle.withdraw (key name)) else c.handles⟩, .success r.1)
  | (_, .seek handle position) =>
    .ok ({ c with handles := c.handles.modify handle fun h => { h with file := h.file.seek position } },
      .done)
  | (_, .read handle numBytes) =>
    match c.handles[handle]? with
    | none => .ok (c, .done)
    | some h => (h.file.read c.mounted.disk numBytes).map fun r =>
      ({ c with handles := c.handles.set handle { h with file := r.2 } }, .bytes r.1)
  | (memory, .write handle src) =>
    match c.handles[handle]? with
    | none => .ok (c, .done)
    | some h => (h.file.write memory.bytes c.mounted.disk src).map fun r =>
      (⟨{ c.mounted with disk := r.1 }, c.handles.set handle { h with file := r.2.2 }⟩, .count r.2.1)
  | (_, .mount) => (Mounted.mount c.mounted.disk).map fun s => ({ c with mounted := s }, .done)

/-- Nothing is read or written through a handle of a removed file, whose sectors may belong to another
one by now, and no position is before the start of a file. -/
def Allows (c : Client) : Memory × Request → Prop
  | (_, .seek _ position) => 0 ≤ position
  | (_, .read handle _) | (_, .write handle _) => ∀ h, c.handles[handle]? = some h → h.live = true
  | _ => True

end Client

/-- Files by the keys of their names, the entries and the sectors that are left. -/
structure Store where
  files : List UInt8 → Option (List UInt8)
  slots : ℕ
  room : ℕ

namespace Store

def empty : Store := ⟨fun _ => none, numDirEntries, numSectors - systemSectors.length⟩

/-- There is an entry and there are sectors for a new file, the header's included. -/
def Fits (a : Store) (name : List UInt8) (size : ℕ) : Prop :=
  a.files (key name) = none ∧ 0 < a.slots ∧ 1 + sectorCount size ≤ a.room

instance decidableFits (a : Store) (name : List UInt8) (size : ℕ) : Decidable (a.Fits name size) :=
  inferInstanceAs (Decidable (_ ∧ _ ∧ _))

/-- The file of a new name holds what its sectors held before. -/
def created (a : Store) (name old : List UInt8) : Store :=
  ⟨Function.update a.files (key name) (some old), a.slots - 1, a.room - (1 + sectorCount old.length)⟩

def removed (a : Store) (name c : List UInt8) : Store :=
  ⟨Function.update a.files (key name) none, a.slots + 1, a.room + (1 + sectorCount c.length)⟩

@[simp] theorem files_created (a : Store) (name old : List UInt8) :
    (a.created name old).files = Function.update a.files (key name) (some old) := rfl

@[simp] theorem files_removed (a : Store) (name c : List UInt8) :
    (a.removed name c).files = Function.update a.files (key name) none := rfl

def written (a : Store) (k c : List UInt8) : Store :=
  { a with files := Function.update a.files k (some c) }

@[simp] theorem files_written (a : Store) (k c : List UInt8) :
    (a.written k c).files = Function.update a.files k (some c) := rfl

/-- An `int` has to hold the sum. -/
def readAt (c : List UInt8) (position : ℕ) (n : ℤ) : Except Fault (List UInt8) :=
  if position < c.length ∧ position + n > intMax then .error .outside
  else .ok (slice c position n.toNat)

def writeAt (c : List UInt8) (position : ℕ) (src : List UInt8) : Except Fault (List UInt8 × ℕ) :=
  if position < c.length ∧ (position + src.length : ℕ) > intMax then .error .outside
  else .ok (overwrite c position src, min src.length (c.length - position))

end Store

/-- A program with a store, and the positions of its handles. -/
structure User where
  store : Store
  handles : List (Handle ℕ)

/-- The same requests. A new file that needs more sectors than a header can list is a fault. -/
def User.step (u : User) : List UInt8 × Request → Except Fault (User × Answer)
  | (old, .create name initialSize) =>
    if u.store.Fits name initialSize.toInt.toNat then
      if numDirect < sectorCount initialSize.toInt.toNat then .error .outside
      else .ok ({ u with store := u.store.created name old }, .success true)
    else .ok (u, .success false)
  | (_, .openFile name) =>
    match u.store.files (key name) with
    | none => .ok (u, .success false)
    | some _ => .ok ({ u with handles := u.handles ++ [⟨key name, 0, true⟩] }, .success true)
  | (_, .remove name) =>
    match u.store.files (key name) with
    | none => .ok (u, .success false)
    | some c =>
      .ok (⟨u.store.removed name c, u.handles.map (Handle.withdraw (key name))⟩, .success true)
  | (_, .seek handle position) =>
    .ok ({ u with handles := u.handles.modify handle fun h => { h with file := position.toNat } }, .done)
  | (_, .read handle numBytes) =>
    match u.handles[handle]? with
    | none => .ok (u, .done)
    | some h => (Store.readAt ((u.store.files h.key).getD []) h.file numBytes).map fun bytes =>
      ({ u with handles := u.handles.set handle { h with file := h.file + bytes.length } }, .bytes bytes)
  | (_, .write handle src) =>
    match u.handles[handle]? with
    | none => .ok (u, .done)
    | some h => (Store.writeAt ((u.store.files h.key).getD []) h.file src).map fun r =>
      (⟨u.store.written h.key r.1, u.handles.set handle { h with file := h.file + r.2 }⟩, .count r.2)
  | (_, .mount) => .ok (u, .done)

/-- The same request of the store, with as many bytes as a new file has. -/
def Sees (x : Memory × Request) (y : List UInt8 × Request) : Prop :=
  y.2 = x.2 ∧ ∀ name initialSize, x.2 = .create name initialSize →
    y.1.length = initialSize.toInt.toNat

/-- The handle of a file, which is there if it has not been removed, at its position. -/
structure HandleOf (d : Disk) (table : Directory) (h : Handle OpenFile) (k : Handle ℕ) : Prop where
  key : h.key = k.key
  live : h.live = k.live
  position : h.file.seekPosition = k.file
  hdr : h.live = true → ∃ e ∈ table.files, e.key = h.key ∧ h.file.hdr = header d e

/-- The disk is in order and holds the files of the store. -/
structure Holds (c : Client) (u : User) (freeMap : BitMap) (table : Directory) : Prop where
  valid : Valid c.mounted freeMap table
  files : ∀ e ∈ table.files, u.store.files e.key = some (contents c.mounted.disk (header c.mounted.disk e))
  keys : ∀ k c, u.store.files k = some c → ∃ e ∈ table.files, e.key = k
  slots : table.files.length + u.store.slots = numDirEntries
  room : u.store.room = (free freeMap).length
  handles : List.Forall₂ (HandleOf c.mounted.disk table) c.handles u.handles

def Refines (c : Client) (u : User) : Prop := ∃ freeMap table, Holds c u freeMap table

variable {d d' : Disk} {h : FileHeader} {p m : ℕ} {src c : List UInt8} {memory : Memory}
  {cl : Client} {u : User} {freeMap : BitMap} {table : Directory} {e : DirectoryEntry}
  {name k : List UInt8} {size : Word}

/-! Reading and writing at any position. -/

theorem readAt_store (hs : h.Sane) (d : Disk) (p : ℕ) (m : ℤ) :
    FileSystem.readAt d h m p = Store.readAt (contents d h) p m := by
  have hlen := hs.length_contents d
  have hmax := hs.fileLength_le
  rcases lt_or_ge m 0 with hm | hm
  · rw [FileSystem.readAt, if_pos (.inl hm.le), Store.readAt, if_neg, slice, Int.toNat_of_nonpos hm.le,
      List.take_zero]
    unfold intMax
    unfold numDirect sectorSize at hmax
    omega
  lift m to ℕ using hm
  by_cases hfit : (p + m : ℕ) ≤ intMax
  · rw [readAt_eq hs d hfit, Store.readAt, if_neg (by omega), Int.toNat_natCast]
  · unfold FileSystem.readAt Store.readAt
    unfold intMax at hfit ⊢
    unfold numDirect sectorSize at hmax
    by_cases hpast : (p : ℤ) ≥ h.fileLength
    · rw [if_pos (.inr hpast), if_neg (by omega), slice, List.drop_eq_nil_of_le (by omega), List.take_nil]
    · rw [if_neg (by omega), if_pos (by omega), if_pos (by omega)]

theorem overwrite_past (hp : c.length ≤ p) (src : List UInt8) : overwrite c p src = c := by
  rw [overwrite, Nat.sub_eq_zero_of_le hp, List.take_zero, patch]
  simp

theorem length_overwrite (c : List UInt8) (p : ℕ) (src : List UInt8) :
    (overwrite c p src).length = c.length := by
  rcases le_or_gt c.length p with hp | hp
  · rw [overwrite_past hp]
  · refine length_patch ?_
    rw [List.length_take]
    omega

theorem writeAt_store (hs : h.Sane) (bytes : ℕ → UInt8) (d : Disk) (p : ℕ) (src : List UInt8) :
    (∃ f, Store.writeAt (contents d h) p src = .error f ∧
      FileSystem.writeAt bytes d h src p = .error f) ∨
    ∃ d' n, Store.writeAt (contents d h) p src = .ok (contents d' h, n) ∧
      FileSystem.writeAt bytes d h src p = .ok (d', n) ∧
      (contents d' h).length = (contents d h).length ∧ ∀ n ∉ h.sectors, d' n = d n := by
  have hlen := hs.length_contents d
  by_cases hfit : (p + src.length : ℕ) ≤ intMax
  · obtain ⟨d', hd', hcont, hframe⟩ := writeAt_eq _ hs bytes d hfit
    refine .inr ⟨d', _, ?_, hd', by rw [hcont, length_overwrite], hframe⟩
    rw [Store.writeAt, if_neg (by omega), hcont, hlen]
  · have hmax := hs.fileLength_le
    unfold FileSystem.writeAt Store.writeAt
    unfold intMax at hfit ⊢
    unfold numDirect sectorSize at hmax
    by_cases hpast : (p : ℤ) ≥ h.fileLength
    · refine .inr ⟨d, 0, ?_, by rw [if_pos (.inr hpast)]; rfl, rfl, fun _ _ => rfl⟩
      rw [if_neg (by omega), overwrite_past (by omega)]
      congr 2
      omega
    · exact .inl ⟨.outside, if_pos (by omega), by rw [if_neg (by omega), if_pos (by omega)]⟩

/-! The store of a disk that is in order. -/

namespace Holds

variable (hh : Holds cl u freeMap table)
include hh

theorem files_eq_none : u.store.files (key name) = none ↔ ∀ e ∈ table.files, e.key ≠ key name := by
  constructor
  · intro hnone e he hkey
    rw [← hkey, hh.files e he] at hnone
    cases hnone
  · intro hname
    by_contra hsome
    obtain ⟨c, hc⟩ := Option.ne_none_iff_exists'.mp hsome
    obtain ⟨e, he, hkey⟩ := hh.keys _ c hc
    exact hname e he hkey

theorem files_eq_some (hc : u.store.files k = some c) :
    ∃ e ∈ table.files, e.key = k ∧ contents cl.mounted.disk (header cl.mounted.disk e) = c := by
  obtain ⟨e, he, rfl⟩ := hh.keys k c hc
  exact ⟨e, he, rfl, Option.some.inj ((hh.files e he).symm.trans hc)⟩

theorem fits_iff : u.store.Fits name size.toInt.toNat ↔
    (∀ e ∈ table.files, e.key ≠ key name) ∧ table.files.length < numDirEntries ∧
      1 + sectorCount size.toInt.toNat ≤ (free freeMap).length := by
  have hslots := hh.slots
  rw [Store.Fits, hh.files_eq_none, hh.room]
  refine and_congr_right fun _ => and_congr_left fun _ => ?_
  omega

end Holds

/-- The sectors of a file of the directory. -/
theorem Valid.length_fileSectors {s : Mounted} (hv : Valid s freeMap table) (he : e ∈ table.files) :
    (fileSectors s.disk e).length = 1 + sectorCount (contents s.disk (header s.disk e)).length := by
  rw [fileSectors, List.length_cons, (hv.whole e he).2, (hv.sane he).length_contents]
  omega

/-- The free sectors when a file is added to the directory, or taken out of it. -/
theorem length_free_perm {s s' : Mounted} {freeMap' : BitMap} {table' : Directory}
    (hv : Valid s freeMap table) (hv' : Valid s' freeMap' table')
    (hp : table'.files.Perm (e :: table.files))
    (hsame : ∀ e ∈ table.files, s'.disk e.sector.toNat = s.disk e.sector.toNat) :
    (free freeMap).length =
      (free freeMap').length + (1 + sectorCount (contents s'.disk (header s'.disk e)).length) := by
  have hused := (usedSectors_perm (d := s'.disk) hp).length_eq
  have hold : usedSectors s'.disk table.files = usedSectors s.disk table.files :=
    usedSectors_congr hsame
  rw [List.length_append, hold, hv'.length_fileSectors (hp.mem_iff.mpr List.mem_cons_self)] at hused
  have hfree := hv.length_free
  have hfree' := hv'.length_free
  omega

/-- The files stay, with their headers. -/
theorem HandleOf.stays {table' : Directory} {x : Handle OpenFile} {y : Handle ℕ}
    (hxy : HandleOf d table x y)
    (hstay : ∀ e ∈ table.files, e ∈ table'.files ∧ header d' e = header d e) :
    HandleOf d' table' x y := by
  refine ⟨hxy.key, hxy.live, hxy.position, fun hlive => ?_⟩
  obtain ⟨e, he, hkey, hhdr⟩ := hxy.hdr hlive
  obtain ⟨he', hheader⟩ := hstay e he
  exact ⟨e, he', hkey, hhdr.trans hheader.symm⟩

/-! The requests. -/

namespace Holds

variable (hh : Holds cl u freeMap table)
include hh

/-- A file that does not fit is not created. -/
theorem create_refused (hfit : ¬ u.store.Fits name size.toInt.toNat) (memory : Memory) :
    cl.mounted.create memory name size = .ok (false, cl.mounted) := by
  by_cases hname : ∀ e ∈ table.files, e.key ≠ key name
  · refine hh.valid.create_full hname memory ?_
    have hslots := hh.slots
    rw [hh.fits_iff] at hfit
    by_contra hroom
    exact hfit ⟨hname, by omega, by omega⟩
  · push Not at hname
    obtain ⟨e, he, hkey⟩ := hname
    exact hh.valid.create_old he hkey memory size

theorem create (memory : Memory) (name : List UInt8) (size : Word) :
    ∃ old, old.length = size.toInt.toNat ∧
      AgreeStep Refines (cl.step (memory, .create name size)) (u.step (old, .create name size)) := by
  have hv := hh.valid
  by_cases hfit : u.store.Fits name size.toInt.toNat
  · obtain ⟨hname, hslot, hroom⟩ := hh.fits_iff.mp hfit
    by_cases hin : sectorCount size.toInt.toNat ≤ numDirect
    · obtain ⟨s', freeMap', table', e, hcreate, hv', hp, hkey, hlen, hsame⟩ :=
        hv.create_eq hname memory hslot hroom hin
      have hold : (contents s'.disk (header s'.disk e)).length = size.toInt.toNat := by
        rw [(hv'.sane (hp.mem_iff.mpr List.mem_cons_self)).length_contents, hlen]
      have hheader (e' : DirectoryEntry) (he' : e' ∈ table.files) :
          header s'.disk e' = header cl.mounted.disk e' :=
        header_congr (hsame e' he' _ List.mem_cons_self)
      refine ⟨contents s'.disk (header s'.disk e), hold, ?_⟩
      have hstep : cl.step (memory, .create name size) = .ok ({ cl with mounted := s' }, .success true) := by
        rw [Client.step, hcreate]
        rfl
      have hstep' : u.step (contents s'.disk (header s'.disk e), .create name size) =
          .ok ({ u with store := u.store.created name (contents s'.disk (header s'.disk e)) },
            .success true) := by
        rw [User.step, if_pos hfit, if_neg hin.not_gt]
      rw [hstep, hstep']
      refine .ok ⟨freeMap', table', hv', ?_, ?_, ?_, ?_, ?_⟩
      · intro e' he'
        simp only [Store.files_created]
        rcases List.mem_cons.mp (hp.mem_iff.mp he') with rfl | he'
        · rw [← hkey, Function.update_self]
        · rw [Function.update_of_ne (hname e' he'), hh.files e' he', hheader e' he',
            contents_congr fun n hn => hsame e' he' n (List.mem_cons_of_mem _ hn)]
      · intro k c hc
        simp only [Store.files_created] at hc
        by_cases hk : k = key name
        · exact ⟨e, hp.mem_iff.mpr List.mem_cons_self, hkey.trans hk.symm⟩
        · obtain ⟨e', he', hkey'⟩ := hh.keys k c (by rwa [Function.update_of_ne hk] at hc)
          exact ⟨e', hp.mem_iff.mpr (List.mem_cons_of_mem e he'), hkey'⟩
      · have hslots := hh.slots
        have hcount := hp.length_eq
        rw [List.length_cons] at hcount
        simp only [Store.created]
        omega
      · have hcount := length_free_perm hv hv' hp fun e' he' => hsame e' he' _ List.mem_cons_self
        have hroom' := hh.room
        simp only [Store.created]
        omega
      · exact hh.handles.imp fun h k hhk => hhk.stays fun e' he' =>
          ⟨hp.mem_iff.mpr (List.mem_cons_of_mem e he'), hheader e' he'⟩
    · refine ⟨List.replicate size.toInt.toNat 0, List.length_replicate, ?_⟩
      rw [Client.step, hv.create_outside hname memory hslot hroom (by omega), User.step, if_pos hfit,
        if_pos (by omega)]
      exact .error Fault.outside
  · refine ⟨List.replicate size.toInt.toNat 0, List.length_replicate, ?_⟩
    rw [Client.step, hh.create_refused hfit memory, User.step, if_neg hfit]
    exact .ok ⟨freeMap, table, hh⟩

theorem openFile (memory : Memory) (old name : List UInt8) :
    AgreeStep Refines (cl.step (memory, .openFile name)) (u.step (old, .openFile name)) := by
  cases hc : u.store.files (key name) with
  | none =>
    rw [Client.step, hh.valid.openFile_none (hh.files_eq_none.mp hc) memory, User.step, hc]
    refine .ok ⟨freeMap, table, ?_⟩
    simpa using hh
  | some c =>
    obtain ⟨e, he, hkey, -⟩ := hh.files_eq_some hc
    rw [Client.step, hh.valid.openFile_eq he hkey memory, User.step, hc]
    refine .ok ⟨freeMap, table, hh.valid, hh.files, hh.keys, hh.slots, hh.room, ?_⟩
    exact List.rel_append hh.handles (.cons ⟨rfl, rfl, rfl, fun _ => ⟨e, he, hkey, rfl⟩⟩ .nil)

theorem remove (memory : Memory) (old name : List UInt8) :
    AgreeStep Refines (cl.step (memory, .remove name)) (u.step (old, .remove name)) := by
  have hv := hh.valid
  cases hc : u.store.files (key name) with
  | none =>
    rw [Client.step, hv.remove_none (hh.files_eq_none.mp hc) memory, User.step, hc]
    refine .ok ⟨freeMap, table, ?_⟩
    simpa using hh
  | some c =>
    obtain ⟨e, he, hkey, hcont⟩ := hh.files_eq_some hc
    obtain ⟨s', freeMap', table', hremove, hv', hp, hsame⟩ := hv.remove_eq he hkey memory
    have hmem (e' : DirectoryEntry) (he' : e' ∈ table'.files) : e' ∈ table.files :=
      hp.mem_iff.mpr (List.mem_cons_of_mem e he')
    have hheader (e' : DirectoryEntry) (he' : e' ∈ table'.files) :
        header s'.disk e' = header cl.mounted.disk e' :=
      header_congr (hsame e' he' _ List.mem_cons_self)
    have hkeys := List.nodup_cons.mp ((hp.map DirectoryEntry.key).nodup_iff.mp hv.keys)
    have hother (e' : DirectoryEntry) (he' : e' ∈ table'.files) : e'.key ≠ key name := fun heq =>
      hkeys.1 (List.mem_map.mpr ⟨e', he', heq.trans hkey.symm⟩)
    rw [Client.step, hremove, User.step, hc]
    refine .ok ⟨freeMap', table', hv', ?_, ?_, ?_, ?_, ?_⟩
    · intro e' he'
      simp only [Store.files_removed]
      rw [Function.update_of_ne (hother e' he'), hh.files e' (hmem e' he'), hheader e' he',
        contents_congr fun n hn => hsame e' he' n (List.mem_cons_of_mem _ hn)]
    · intro k c' hc'
      simp only [Store.files_removed] at hc'
      have hk : k ≠ key name := by
        rintro rfl
        rw [Function.update_self] at hc'
        cases hc'
      rw [Function.update_of_ne hk] at hc'
      obtain ⟨e', he', rfl⟩ := hh.keys k c' hc'
      rcases List.mem_cons.mp (hp.mem_iff.mp he') with rfl | he'
      · exact absurd hkey hk
      · exact ⟨e', he', rfl⟩
    · have hslots := hh.slots
      have hcount := hp.length_eq
      rw [List.length_cons] at hcount
      simp only [Store.removed]
      omega
    · have hcount := length_free_perm hv' hv hp fun e' he' => (hsame e' he' _ List.mem_cons_self).symm
      have hroom := hh.room
      rw [hcont] at hcount
      simp only [Store.removed]
      omega
    · simp only [if_true, List.forall₂_map_left_iff, List.forall₂_map_right_iff]
      refine hh.handles.imp fun h k hhk => ⟨hhk.key, ?_, hhk.position, fun hlive => ?_⟩
      · simp only [Handle.withdraw, hhk.live, hhk.key]
      · simp only [Handle.withdraw, Bool.and_eq_true, decide_eq_true_eq] at hlive
        obtain ⟨e', he', hkey', hhdr⟩ := hhk.hdr hlive.1
        rcases List.mem_cons.mp (hp.mem_iff.mp he') with rfl | he'
        · exact absurd (hkey'.symm.trans hkey) hlive.2
        · exact ⟨e', he', hkey', by rw [← hheader e' he'] at hhdr; exact hhdr⟩

theorem seek (x : Memory) (old : List UInt8) (handle : ℕ) {position : ℤ} (hpos : 0 ≤ position) :
    AgreeStep Refines (cl.step (x, .seek handle position)) (u.step (old, .seek handle position)) := by
  refine .ok ⟨freeMap, table, hh.valid, hh.files, hh.keys, hh.slots, hh.room, ?_⟩
  refine forall₂_modify hh.handles (fun h k hhk => ?_) handle
  exact ⟨hhk.key, hhk.live, (Int.toNat_of_nonneg hpos).symm, hhk.hdr⟩

/-- What an open file holds. -/
theorem getD_files {h : Handle OpenFile} {k : Handle ℕ} (hhk : HandleOf cl.mounted.disk table h k)
    (hlive : h.live = true) :
    (u.store.files k.key).getD [] = contents cl.mounted.disk h.file.hdr := by
  obtain ⟨e, he, hkey, hhdr⟩ := hhk.hdr hlive
  rw [← hhk.key, ← hkey, hh.files e he, hhdr]
  rfl

theorem read (x : Memory) (old : List UInt8) (handle : ℕ) (numBytes : ℤ)
    (hlive : ∀ h, cl.handles[handle]? = some h → h.live = true) :
    AgreeStep Refines (cl.step (x, .read handle numBytes)) (u.step (old, .read handle numBytes)) := by
  have hrel := forall₂_getElem? hh.handles handle
  rw [Client.step, User.step]
  cases hc : cl.handles[handle]? with
  | none =>
    rw [hc] at hrel
    cases hu : u.handles[handle]? with
    | none => exact .ok ⟨freeMap, table, hh⟩
    | some k =>
      rw [hu] at hrel
      cases hrel
  | some h =>
    rw [hc] at hrel
    cases hu : u.handles[handle]? with
    | none =>
      rw [hu] at hrel
      cases hrel
    | some k =>
      rw [hu] at hrel
      cases hrel with
      | some hhk =>
        obtain ⟨e, he, -, hhdr⟩ := hhk.hdr (hlive h hc)
        have hsane : h.file.hdr.Sane := hhdr ▸ hh.valid.sane he
        simp only [OpenFile.read, hhk.position, readAt_store hsane, hh.getD_files hhk (hlive h hc)]
        cases hr : Store.readAt (contents cl.mounted.disk h.file.hdr) k.file numBytes with
        | error f => exact .error f
        | ok bytes =>
          refine .ok ⟨freeMap, table, hh.valid, hh.files, hh.keys, hh.slots, hh.room, ?_⟩
          refine forall₂_set hh.handles ?_ handle
          exact ⟨hhk.key, hhk.live, (Nat.cast_add _ _).symm, hhk.hdr⟩

/-- The data of a file is changed. -/
theorem write_file (he : e ∈ table.files)
    (hframe : ∀ n ∉ (header cl.mounted.disk e).sectors, d' n = cl.mounted.disk n) :
    Holds ⟨{ cl.mounted with disk := d' }, cl.handles⟩
      ⟨u.store.written e.key (contents d' (header cl.mounted.disk e)), u.handles⟩ freeMap table := by
  obtain ⟨hv', hheader, hother⟩ := hh.valid.write_data he hframe
  refine ⟨hv', ?_, ?_, hh.slots, hh.room, ?_⟩
  · intro e' he'
    by_cases hne : e' = e
    · subst hne
      simp only [Store.files_written, Function.update_self, hheader e' he]
    · have hkey : e'.key ≠ e.key := fun heq => hne (List.inj_on_of_nodup_map hh.valid.keys he' he heq)
      simp only [Store.files_written, Function.update_of_ne hkey, hh.files e' he', hheader e' he']
      rw [contents_congr fun n hn => hother e' he' hne n (List.mem_cons_of_mem _ hn)]
  · intro k c hc
    by_cases hk : k = e.key
    · exact ⟨e, he, hk.symm⟩
    · exact hh.keys k c (by simpa only [Store.files_written, Function.update_of_ne hk] using hc)
  · exact hh.handles.imp fun h k hhk => hhk.stays fun e' he' => ⟨he', hheader e' he'⟩

theorem write (memory : Memory) (old : List UInt8) (handle : ℕ) (src : List UInt8)
    (hlive : ∀ h, cl.handles[handle]? = some h → h.live = true) :
    AgreeStep Refines (cl.step (memory, .write handle src)) (u.step (old, .write handle src)) := by
  have hrel := forall₂_getElem? hh.handles handle
  rw [Client.step, User.step]
  cases hc : cl.handles[handle]? with
  | none =>
    rw [hc] at hrel
    cases hu : u.handles[handle]? with
    | none => exact .ok ⟨freeMap, table, hh⟩
    | some k =>
      rw [hu] at hrel
      cases hrel
  | some h =>
    rw [hc] at hrel
    cases hu : u.handles[handle]? with
    | none =>
      rw [hu] at hrel
      cases hrel
    | some k =>
      rw [hu] at hrel
      cases hrel with
      | some hhk =>
        obtain ⟨e, he, hkey, hhdr⟩ := hhk.hdr (hlive h hc)
        have hsane : h.file.hdr.Sane := hhdr ▸ hh.valid.sane he
        have hk : e.key = k.key := hkey.trans hhk.key
        simp only [OpenFile.write, hhk.position, hh.getD_files hhk (hlive h hc)]
        rcases writeAt_store hsane memory.bytes cl.mounted.disk k.file src with
          ⟨f, hstore, hdisk⟩ | ⟨d', n, hstore, hdisk, hlen, hframe⟩
        · rw [hstore, hdisk]
          exact .error f
        · rw [hstore, hdisk]
          have hnew := hh.write_file he (hhdr ▸ hframe)
          have hhdr' : header d' e = h.file.hdr := by
            rw [hhdr]
            exact (hh.valid.write_data he (hhdr ▸ hframe)).2.1 e he
          rw [hk, ← hhdr] at hnew
          refine .ok ⟨freeMap, table, hnew.valid, hnew.files, hnew.keys, hnew.slots, hnew.room, ?_⟩
          refine forall₂_set hnew.handles ?_ handle
          exact ⟨hhk.key, hhk.live, (Nat.cast_add _ _).symm, fun _ => ⟨e, he, hkey, hhdr'.symm⟩⟩

theorem mount (x : Memory) (old : List UInt8) :
    AgreeStep Refines (cl.step (x, .mount)) (u.step (old, .mount)) := by
  rw [Client.step, hh.valid.mount_eq]
  exact .ok ⟨freeMap, table, hh⟩

end Holds

theorem Refines.step (h : Refines cl u) (x : Memory × Request) (hallows : cl.Allows x) :
    ∃ y, Sees x y ∧ AgreeStep Refines (cl.step x) (u.step y) := by
  obtain ⟨freeMap, table, hh⟩ := h
  obtain ⟨memory, request⟩ := x
  cases request with
  | create name size =>
    obtain ⟨old, hold, hagree⟩ := hh.create memory name size
    refine ⟨(old, .create name size), ⟨rfl, fun name' size' he => ?_⟩, hagree⟩
    cases he
    exact hold
  | openFile name => exact ⟨([], .openFile name), ⟨rfl, by simp⟩, hh.openFile memory [] name⟩
  | remove name => exact ⟨([], .remove name), ⟨rfl, by simp⟩, hh.remove memory [] name⟩
  | seek handle position => exact ⟨([], .seek handle position), ⟨rfl, by simp⟩,
      hh.seek memory [] handle hallows⟩
  | read handle numBytes => exact ⟨([], .read handle numBytes), ⟨rfl, by simp⟩,
      hh.read memory [] handle numBytes hallows⟩
  | write handle src => exact ⟨([], .write handle src), ⟨rfl, by simp⟩,
      hh.write memory [] handle src hallows⟩
  | mount => exact ⟨([], .mount), ⟨rfl, by simp⟩, hh.mount memory []⟩

theorem exists_sees (x : Memory × Request) : ∃ y, Sees x y := by
  obtain ⟨memory, request⟩ := x
  cases request with
  | create name size =>
    refine ⟨(List.replicate size.toInt.toNat 0, .create name size), rfl, fun name' size' he => ?_⟩
    cases he
    exact List.length_replicate
  | _ => exact ⟨([], _), rfl, by simp⟩

/-- A new disk holds the empty store. -/
theorem refines_format (memory : Memory) (disk : Disk) :
    ∃ s, Mounted.format memory disk = .ok s ∧ Refines ⟨s, []⟩ ⟨Store.empty, []⟩ := by
  obtain ⟨s, freeMap, table, hs, hv, hfiles⟩ := format_eq memory disk
  refine ⟨s, hs, freeMap, table, hv, by simp [hfiles], by simp [Store.empty], by simp [hfiles, Store.empty],
    ?_, .nil⟩
  have hfree := hv.length_free
  rw [hfiles, usedSectors, List.flatMap_nil, List.append_nil] at hfree
  simp only [Store.empty]
  omega

theorem run_refines {s : Mounted} {v : User} (href : Refines ⟨s, []⟩ v)
    {xs : List (Memory × Request)} (hallows : Along Client.step Client.Allows ⟨s, []⟩ xs) :
    ∃ ys, List.Forall₂ Sees xs ys ∧ (run Client.step ⟨s, []⟩ xs).1 = (run User.step v ys).1 ∧
      Agree Refines (run Client.step ⟨s, []⟩ xs).2 (run User.step v ys).2 :=
  run_agrees_along (R := Refines) exists_sees (fun _ _ x h ha => h.step x ha) href hallows

/-- What a run has reached. -/
theorem refines_of_run {memory : Memory} {disk : Disk} {s : Mounted}
    (hformat : Mounted.format memory disk = .ok s) {xs : List (Memory × Request)}
    (hallows : Along Client.step Client.Allows ⟨s, []⟩ xs)
    (hrun : (run Client.step ⟨s, []⟩ xs).2 = .ok cl) : ∃ u, Refines cl u := by
  obtain ⟨s', hs', href⟩ := refines_format memory disk
  obtain rfl : s = s' := Except.ok.inj (hformat.symm.trans hs')
  obtain ⟨ys, -, -, hend⟩ := run_refines href hallows
  rw [hrun] at hend
  generalize (run User.step ⟨Store.empty, []⟩ ys).2 = r at hend
  cases hend with
  | ok hr => exact ⟨_, hr⟩

/-- From a new disk on, whatever a program asks for that is allowed, it gets the answers of a store
of files by name, and a fault only where the store has one. -/
theorem runs_refine (memory : Memory) (disk : Disk) :
    ∃ s, Mounted.format memory disk = .ok s ∧ ∀ xs, Along Client.step Client.Allows ⟨s, []⟩ xs →
      ∃ ys, List.Forall₂ Sees xs ys ∧
        (run Client.step ⟨s, []⟩ xs).1 = (run User.step ⟨Store.empty, []⟩ ys).1 ∧
        Agree Refines (run Client.step ⟨s, []⟩ xs).2 (run User.step ⟨Store.empty, []⟩ ys).2 := by
  obtain ⟨s, hs, href⟩ := refines_format memory disk
  exact ⟨s, hs, fun xs hallows => run_refines href hallows⟩

/-- Memory and a disk full of zeros. -/
def zeroMemory : Memory := ⟨fun _ => 0, fun _ => 0, fun _ => ⟨false, 0, .replicate _ 0⟩⟩

def blank : Disk := fun _ => .ofBytes []

/-- A program that removes nothing has live handles only. -/
theorem live_step {cl cl' : Client} {x : Memory × Request} {o : Answer}
    (hlive : ∀ h ∈ cl.handles, h.live = true) (hx : ∀ name, x.2 ≠ .remove name)
    (hs : cl.step x = .ok (cl', o)) : ∀ h ∈ cl'.handles, h.live = true := by
  obtain ⟨memory, request⟩ := x
  cases request with
  | create name size =>
    obtain ⟨r, -, he⟩ := exists_of_map_eq_ok hs
    cases he
    exact hlive
  | openFile name =>
    obtain ⟨f, -, he⟩ := exists_of_map_eq_ok hs
    cases he
    intro h hh
    rcases List.mem_append.mp hh with hh | hh
    · exact hlive h hh
    · obtain ⟨f', -, rfl⟩ := List.mem_map.mp hh
      rfl
  | remove name => exact absurd rfl (hx name)
  | seek handle position =>
    cases hs
    intro h hh
    obtain ⟨i, hi⟩ := List.mem_iff_getElem?.mp hh
    simp only [List.getElem?_modify, Option.map_eq_map, Option.map_eq_some_iff] at hi
    obtain ⟨h', hh', rfl⟩ := hi
    have hlive' := hlive h' (List.mem_of_getElem? hh')
    split_ifs <;> exact hlive'
  | read handle numBytes | write handle src =>
    simp only [Client.step] at hs
    cases hc : cl.handles[handle]? with
    | none =>
      rw [hc] at hs
      cases hs
      exact hlive
    | some h =>
      rw [hc] at hs
      obtain ⟨r, -, he⟩ := exists_of_map_eq_ok hs
      cases he
      intro h' hh'
      rcases List.mem_or_eq_of_mem_set hh' with hh' | rfl
      · exact hlive h' hh'
      · exact hlive h (List.mem_of_getElem? hc)
  | mount =>
    rw [Client.step] at hs
    obtain ⟨r, -, he⟩ := exists_of_map_eq_ok hs
    cases he
    exact hlive

/-- What a program does with one file. -/
def editing : List (Memory × Request) :=
  [(zeroMemory, .create [97] 300), (zeroMemory, .openFile [97]), (zeroMemory, .write 0 [72, 105]),
    (zeroMemory, .seek 0 0), (zeroMemory, .read 0 2), (zeroMemory, .remove [97]),
    (zeroMemory, .openFile [97])]

/-- Its handle is not used any more when the file has been removed. -/
theorem runs_refine_editing : ∃ s, Mounted.format zeroMemory blank = .ok s ∧
    Along Client.step Client.Allows ⟨s, []⟩ editing ∧
    (run Client.step ⟨s, []⟩ editing).1 = [.success true, .success true, .count 2, .done,
      .bytes [72, 105], .success true, .success false] := by
  obtain ⟨s, hs, hruns⟩ := runs_refine zeroMemory blank
  have hallows : Along Client.step Client.Allows ⟨s, []⟩ editing := by
    refine ⟨trivial, fun c₁ _ h₁ => ⟨trivial, fun c₂ _ h₂ => ?_⟩⟩
    have hlive₂ := live_step (live_step (by simp) (by simp) h₁) (by simp) h₂
    refine ⟨fun h hh => hlive₂ h (List.mem_of_getElem? hh), fun c₃ _ h₃ =>
      ⟨le_refl 0, fun c₄ _ h₄ => ?_⟩⟩
    have hlive₄ := live_step (live_step hlive₂ (by simp) h₃) (by simp) h₄
    exact ⟨fun h hh => hlive₄ h (List.mem_of_getElem? hh), fun _ _ _ => ⟨trivial, fun _ _ _ =>
      ⟨trivial, fun _ _ _ => trivial⟩⟩⟩
  obtain ⟨ys, hys, hanswers, -⟩ := hruns editing hallows
  refine ⟨s, hs, hallows, hanswers.trans ?_⟩
  simp only [editing, List.forall₂_cons_left_iff, List.forall₂_nil_left_iff] at hys
  obtain ⟨⟨old, _⟩, _, ⟨rfl, hold⟩, ⟨⟨_, _⟩, _, ⟨rfl, -⟩, ⟨⟨_, _⟩, _, ⟨rfl, -⟩, ⟨⟨_, _⟩, _, ⟨rfl, -⟩,
    ⟨⟨_, _⟩, _, ⟨rfl, -⟩, ⟨⟨_, _⟩, _, ⟨rfl, -⟩, ⟨⟨_, _⟩, _, ⟨rfl, -⟩, rfl, rfl⟩, rfl⟩, rfl⟩, rfl⟩,
    rfl⟩, rfl⟩, rfl⟩ := hys
  have hlen : old.length = 300 := hold [97] 300 rfl
  have hfit : Store.empty.Fits [97] 300 := by decide
  have hcount : ¬ numDirect < sectorCount 300 := by decide
  have hwrite : Store.writeAt old 0 [72, 105] = .ok (overwrite old 0 [72, 105], 2) := by
    rw [Store.writeAt, if_neg (by simp [intMax]), hlen]
    rfl
  have hread : Store.readAt (overwrite old 0 [72, 105]) 0 2 = .ok [72, 105] := by
    rw [Store.readAt, if_neg (by simp [intMax]), overwrite, hlen]
    rfl
  simp [run, User.step, hfit, hcount, hwrite, hread, Except.map, Store.files_removed]

/-- Whatever a program has done that is allowed, the bitmap on the disk marks the sectors in use,
which are those of the bitmap, of the directory and of the files that it lists, and no sector is used
twice. -/
theorem sectors_accounted {memory : Memory} {disk : Disk} {s : Mounted}
    (hformat : Mounted.format memory disk = .ok s) {xs : List (Memory × Request)}
    (hallows : Along Client.step Client.Allows ⟨s, []⟩ xs) {cl : Client}
    (hrun : (run Client.step ⟨s, []⟩ xs).2 = .ok cl) (memory' : Memory) :
    ∃ freeMap table, fetchMap memory' cl.mounted = .ok freeMap ∧
      fetchDirectory memory' cl.mounted = .ok table ∧ table.length = numDirEntries ∧
      (table.files.map DirectoryEntry.key).Nodup ∧
      (usedSectors cl.mounted.disk table.files).Nodup ∧
      ∀ n, n ∈ usedSectors cl.mounted.disk table.files ↔ n < numSectors ∧ freeMap.bits n = true := by
  obtain ⟨u, freeMap, table, hh⟩ := refines_of_run hformat hallows hrun
  have hv := hh.valid
  exact ⟨freeMap, table, hv.fetchMap_eq memory', hv.fetchDirectory_eq memory',
    hv.entries, hv.keys, hv.nodup, hv.bits⟩

/-- A file is created on a new disk. -/
theorem refines_created : ∃ s cl old, Mounted.format zeroMemory blank = .ok s ∧
    (run Client.step ⟨s, []⟩ [(zeroMemory, .create [97] 300)]).2 = .ok cl ∧ old.length = 300 ∧
    Refines cl ⟨Store.empty.created [97] old, []⟩ := by
  obtain ⟨s, hs, href⟩ := refines_format zeroMemory blank
  obtain ⟨⟨old, request⟩, hy, hagree⟩ := Refines.step href (zeroMemory, .create [97] 300) trivial
  obtain rfl : request = .create [97] 300 := hy.1
  have hfit : Store.empty.Fits [97] (300 : Word).toInt.toNat := by decide
  rw [User.step, if_pos hfit, if_neg (by decide)] at hagree
  cases hstep : Client.step ⟨s, []⟩ (zeroMemory, .create [97] 300) with
  | error f =>
    rw [hstep] at hagree
    cases hagree
  | ok r =>
    rw [hstep] at hagree
    cases hagree with
    | ok hr => exact ⟨s, r.1, old, hs, by simp only [run, hstep], hy.2 [97] 300 rfl, hr.1⟩

theorem sectors_accounted_created : ∃ s cl freeMap table, Mounted.format zeroMemory blank = .ok s ∧
    (run Client.step ⟨s, []⟩ [(zeroMemory, .create [97] 300)]).2 = .ok cl ∧
    fetchMap zeroMemory cl.mounted = .ok freeMap ∧ fetchDirectory zeroMemory cl.mounted = .ok table ∧
    (usedSectors cl.mounted.disk table.files).Nodup := by
  obtain ⟨s, cl, old, hs, hrun, -, -⟩ := refines_created
  have hallows : Along Client.step Client.Allows ⟨s, []⟩ [(zeroMemory, .create [97] 300)] :=
    ⟨trivial, fun _ _ _ => trivial⟩
  obtain ⟨freeMap, table, hmap, htable, -, -, hnodup, -⟩ :=
    sectors_accounted hs hallows hrun zeroMemory
  exact ⟨s, cl, freeMap, table, hs, hrun, hmap, htable, hnodup⟩

end Nachos.FileSystem
