import Nachos.FileStore

/-! `Copy` and `Print` of `filesys/fstest.cc`, which move a file in small pieces. -/
namespace Nachos.FileSystem
open BitMaps ByteImages Simulations

def transferSize : ℕ := 10

/-- The loop of `Copy`, with what `fread` has still to deliver. -/
def copyFrom (bytes : ℕ → UInt8) (d : Disk) (openFile : OpenFile) (rest : List UInt8) :
    Except Fault Disk :=
  if rest = [] then .ok d
  else do
    let (d, _, openFile) ← openFile.write bytes d (rest.take transferSize)
    copyFrom bytes d openFile (rest.drop transferSize)
termination_by rest.length
decreasing_by
  rw [List.length_drop]
  exact Nat.sub_lt (List.length_pos_iff.mpr ‹_›) (by decide)

/-- `Copy(from, to)`, of a UNIX file with these bytes -/
def copy (memory : Memory) (s : Mounted) (fp toName : List UInt8) :
    Except Fault (Bool × Mounted) := do
  let (created, s) ← s.create memory toName (.ofNat 32 fp.length)
  if !created then return (false, s)
  match ← s.openFile memory toName with
  | none => .error .assertion
  | some openFile =>
    let disk ← copyFrom memory.bytes s.disk openFile fp
    return (true, { s with disk })

/-- The loop of `Print`, for as many rounds as there is fuel; it ends when nothing is read. -/
def printFrom (d : Disk) (openFile : OpenFile) : ℕ → Option (Except Fault (List UInt8))
  | 0 => none
  | fuel + 1 =>
    match openFile.read d transferSize with
    | .error f => some (.error f)
    | .ok ([], _) => some (.ok [])
    | .ok (buffer, openFile) => (printFrom d openFile fuel).map (Except.map (buffer ++ ·))

/-- `Print(name)`, with what is printed of the file; there may be none. -/
def print (memory : Memory) (s : Mounted) (name : List UInt8) (fuel : ℕ) :
    Option (Except Fault (Option (List UInt8))) :=
  match s.openFile memory name with
  | .error f => some (.error f)
  | .ok none => some (.ok none)
  | .ok (some openFile) => (printFrom s.disk openFile fuel).map (Except.map some)

variable {d d' : Disk} {openFile : OpenFile} {p : ℕ} {rest c data name : List UInt8} {s : Mounted}
  {freeMap : BitMap} {table : Directory}

theorem overwrite_fits {src : List UInt8} (h : p + src.length ≤ c.length) :
    overwrite c p src = patch c p src := by
  rw [overwrite, List.take_of_length_le (by omega)]

/-- The pieces are put one behind the other. -/
theorem copyFrom_eq (openFile : OpenFile) (rest : List UInt8) (bytes : ℕ → UInt8)
    (hs : openFile.hdr.Sane) (d : Disk)
    (hp : openFile.seekPosition = p)
    (hfits : p + rest.length ≤ openFile.hdr.fileLength.toNat) :
    ∃ d', copyFrom bytes d openFile rest = .ok d' ∧
      contents d' openFile.hdr = patch (contents d openFile.hdr) p rest ∧
      ∀ n ∉ openFile.hdr.sectors, d' n = d n := by
  induction hn : rest.length using Nat.strong_induction_on generalizing d openFile p rest with
  | h n ih =>
    have hlen := hs.length_contents d
    by_cases hrest : rest = []
    · subst hrest
      refine ⟨d, by rw [copyFrom, if_pos rfl], ?_, fun _ _ => rfl⟩
      simp [patch]
    · have hpos : 0 < rest.length := List.length_pos_iff.mpr hrest
      have hmax := hs.fits
      have htake : (rest.take transferSize).length = min transferSize rest.length := List.length_take
      have hten : 0 < transferSize := by decide
      obtain ⟨d₁, hd₁, hcont, hframe⟩ := writeAt_eq (rest.take transferSize) hs bytes d
        (p := p) (by rw [htake]; omega)
      rw [overwrite_fits (by rw [htake]; omega)] at hcont
      have hcount : min (rest.take transferSize).length (openFile.hdr.fileLength.toNat - p) =
          (rest.take transferSize).length := by
        rw [htake]
        omega
      obtain ⟨d', hd', hcont', hframe'⟩ := ih (rest.drop transferSize).length
        (by rw [List.length_drop]; omega)
        (openFile.seek (p + (rest.take transferSize).length : ℕ)) (rest.drop transferSize)
        (p := p + (rest.take transferSize).length) hs d₁ rfl
        (by simp only [OpenFile.seek, List.length_drop, htake]; omega) rfl
      refine ⟨d', ?_, ?_, fun n hn => by rw [hframe' n hn, hframe n hn]⟩
      · rw [copyFrom, if_neg hrest, OpenFile.write, hp, hd₁, hcount]
        exact hd'
      · have hsplit := patch_append (l := contents d openFile.hdr) (k := p)
          (x := rest.take transferSize) (y := rest.drop transferSize)
          (by rw [List.length_drop, htake]; omega)
        rw [List.take_append_drop] at hsplit
        rw [← hsplit, ← hcont]
        exact hcont'

/-- Enough rounds print what the file holds from the position on. -/
theorem printFrom_eq (openFile : OpenFile) (fuel : ℕ) (hs : openFile.hdr.Sane) (d : Disk)
    (hp : openFile.seekPosition = p) (hfuel : openFile.hdr.fileLength.toNat - p < fuel) :
    printFrom d openFile fuel = some (.ok ((contents d openFile.hdr).drop p)) := by
  induction fuel generalizing openFile p with
  | zero => omega
  | succ fuel ih =>
    have hlen := hs.length_contents d
    have hread : openFile.read d transferSize =
        .ok (slice (contents d openFile.hdr) p transferSize,
          openFile.seek (p + (slice (contents d openFile.hdr) p transferSize).length : ℕ)) := by
      have hmax := hs.fits
      have hint : ¬ (p < (contents d openFile.hdr).length ∧ (p : ℤ) + transferSize > intMax) := by
        have := hs.fileLength_le
        unfold intMax transferSize
        unfold numDirect sectorSize at this
        omega
      rw [OpenFile.read, hp, readAt_store hs, Store.readAt, if_neg hint]
      simp only [Except.map, Nat.cast_add, Int.toNat_natCast]
    have hcut : (slice (contents d openFile.hdr) p transferSize).length =
        min transferSize ((contents d openFile.hdr).length - p) := by
      rw [slice, List.length_take, List.length_drop]
    have hrest : slice (contents d openFile.hdr) p transferSize ++
        (contents d openFile.hdr).drop (p + (slice (contents d openFile.hdr) p transferSize).length) =
        (contents d openFile.hdr).drop p := by
      rw [← List.drop_drop]
      exact List.prefix_iff_eq_append.mp (List.take_prefix _ _)
    rw [printFrom, hread]
    cases hbuf : slice (contents d openFile.hdr) p transferSize with
    | nil =>
      rw [hbuf, List.length_nil] at hcut
      have hten : 0 < transferSize := by decide
      rw [List.drop_eq_nil_of_le (by omega)]
    | cons b buffer =>
      rw [hbuf] at hcut hrest
      rw [List.length_cons] at hcut
      have hnext := ih (openFile.seek (p + (b :: buffer).length : ℕ)) hs rfl
        (by simp only [OpenFile.seek, List.length_cons]; omega)
      simp only [hnext]
      exact congrArg (fun l => some (Except.ok l)) hrest

/-- A UNIX file that fits is copied as it is: `Print` of the copy prints its bytes, the other
files stay, and the disk is in order. A file that does not fit changes nothing. -/
theorem copy_spec {cl : Client} {u : User} (hu : Refines cl u) (memory : Memory)
    (fp toName : List UInt8) (hshort : fp.length ≤ numDirect * sectorSize) :
    if u.store.Fits toName fp.length then
      ∃ s', copy memory cl.mounted fp toName = .ok (true, s') ∧
        Refines { cl with mounted := s' } { u with store := u.store.created toName fp } ∧
        ∀ memory fuel, fp.length < fuel → print memory s' toName fuel = some (.ok (some fp))
    else copy memory cl.mounted fp toName = .ok (false, cl.mounted) := by
  obtain ⟨freeMap, table, hh⟩ := hu
  have hsize : (BitVec.ofNat 32 fp.length).toInt.toNat = fp.length := by
    unfold numDirect sectorSize at hshort
    rw [BitVec.toInt_eq_toNat_of_lt] <;> simp <;> omega
  have hcount : ¬ numDirect < sectorCount fp.length := by
    unfold sectorCount
    unfold numDirect sectorSize at *
    omega
  obtain ⟨old, hold, hagree⟩ := hh.create memory toName (.ofNat 32 fp.length)
  rw [hsize] at hold
  rw [Client.step, User.step, hsize] at hagree
  split_ifs with hfit
  · rw [if_pos hfit, if_neg hcount] at hagree
    cases hcreate : cl.mounted.create memory toName (.ofNat 32 fp.length) with
    | error f =>
      rw [hcreate] at hagree
      cases hagree
    | ok r =>
      rw [hcreate] at hagree
      cases hagree with
      | ok hr =>
        obtain ⟨⟨freeMap', table', hh'⟩, hanswer⟩ := hr
        have hdone : r.1 = true := by simpa using hanswer
        obtain ⟨e, he, hkey, hcont⟩ := hh'.files_eq_some (k := key toName) (c := old)
          (by simp only [Store.files_created, Function.update_self])
        have hsane := hh'.valid.sane he
        have hlen := hsane.length_contents r.2.disk
        rw [hcont, hold] at hlen
        obtain ⟨d', hd', hcont', hframe⟩ := copyFrom_eq ⟨header r.2.disk e, 0⟩
          fp (p := 0) memory.bytes hsane r.2.disk rfl (by rw [Nat.zero_add]; exact hlen.le)
        have hfile : contents d' (header r.2.disk e) = fp := by
          rw [hcont', hcont, patch, List.take_zero, List.drop_eq_nil_of_le (by omega)]
          simp
        have hnew := hh'.write_file he hframe
        have hstore : ((u.store.created toName old).written e.key fp) =
            u.store.created toName fp := by
          rw [hkey, Store.written, Store.created, Store.created, Function.update_idem, hold]
        rw [hfile, hstore] at hnew
        refine ⟨{ r.2 with disk := d' }, ?_, ⟨freeMap', table', hnew⟩, fun memory' fuel hfuel => ?_⟩
        · rw [copy, hcreate]
          simp only [bind, Except.bind, hdone, hh'.valid.openFile_eq he hkey, hd']
          rfl
        · have hsame : header d' e = header r.2.disk e :=
            (hh'.valid.write_data he hframe).2.1 e he
          rw [print, hnew.valid.openFile_eq he hkey]
          have hprint := printFrom_eq ⟨header d' e, 0⟩ fuel (p := 0) (hnew.valid.sane he)
            d' rfl (by rw [hsame, Nat.sub_zero]; exact hlen ▸ hfuel)
          rw [hsame, hfile, List.drop_zero] at hprint
          simp only [hsame, hprint]
          rfl
  · have hrefused : cl.mounted.create memory toName (.ofNat 32 fp.length) = .ok (false, cl.mounted) :=
      hh.create_refused (by rwa [hsize]) memory
    rw [copy, hrefused]
    rfl

/-- Whatever a program has done that is allowed, the disk holds a store, and `Copy` and `Print` move
a UNIX file that the store has room for. -/
theorem copied_file_prints {memory : Memory} {disk : Disk}
    (hformat : Mounted.format memory disk = .ok s) {xs : List (Memory × Request)}
    (hallows : Along Client.step Client.Allows ⟨s, []⟩ xs) {cl : Client}
    (hrun : (run Client.step ⟨s, []⟩ xs).2 = .ok cl) :
    (∃ u, Refines cl u) ∧
    ∀ u memory fp toName, Refines cl u → fp.length ≤ numDirect * sectorSize →
      if u.store.Fits toName fp.length then
        ∃ s', copy memory cl.mounted fp toName = .ok (true, s') ∧
          Refines { cl with mounted := s' } { u with store := u.store.created toName fp } ∧
          ∀ memory fuel, fp.length < fuel → print memory s' toName fuel = some (.ok (some fp))
      else copy memory cl.mounted fp toName = .ok (false, cl.mounted) :=
  ⟨refines_of_run hformat hallows hrun, fun _ memory fp toName hu hshort =>
    copy_spec hu memory fp toName hshort⟩

theorem copied_file_prints_short : ∃ s cl s', Mounted.format zeroMemory blank = .ok s ∧
    (run Client.step ⟨s, []⟩ [(zeroMemory, .create [97] 300)]).2 = .ok cl ∧
    copy zeroMemory cl.mounted [72, 105] [98] = .ok (true, s') ∧
    print zeroMemory s' [98] 3 = some (.ok (some [72, 105])) := by
  obtain ⟨s, cl, old, hs, hrun, hlen, href⟩ := refines_created
  have hallows : Along Client.step Client.Allows ⟨s, []⟩ [(zeroMemory, .create [97] 300)] :=
    ⟨trivial, fun _ _ _ => trivial⟩
  have hfit : (Store.empty.created [97] old).Fits [98] 2 := by
    refine ⟨?_, ?_, ?_⟩
    · rw [Store.files_created, Function.update_of_ne (by decide)]
      rfl
    · change 0 < numDirEntries - 1
      decide
    · change 1 + sectorCount 2 ≤ Store.empty.room - (1 + sectorCount old.length)
      rw [hlen]
      decide
  have hcopy := (copied_file_prints hs hallows hrun).2 _ zeroMemory [72, 105] [98] href (by decide)
  obtain ⟨s', hs', -, hprint⟩ := (if_pos hfit).mp hcopy
  exact ⟨s, cl, s', hs, hrun, hs', hprint zeroMemory 3 (by decide)⟩

end Nachos.FileSystem
