import Nachos.FileSystems

/-! What the operations on files by name do to a disk that is in order. -/
namespace Nachos.FileSystem
open BitMaps ByteImages

variable {d d' : Disk} {h : FileHeader} {e e' : DirectoryEntry} {files files' : List DirectoryEntry}
  {s : Mounted} {freeMap : BitMap} {table : Directory} {memory : Memory} {name : List UInt8}
  {file : OpenFile} {sector length n : ℕ} {sectors : List ℕ} {size : Word}

/-! Sectors that stay. -/

theorem contents_congr (hd : ∀ n ∈ h.sectors, d' n = d n) : contents d' h = contents d h := by
  rw [contents, contents, space_congr hd]

theorem header_congr (hd : d' e.sector.toNat = d e.sector.toNat) : header d' e = header d e := by
  rw [header, header, hd]

theorem fileSectors_congr (hd : d' e.sector.toNat = d e.sector.toNat) :
    fileSectors d' e = fileSectors d e := by
  rw [fileSectors, fileSectors, header_congr hd]

theorem usedSectors_congr (hd : ∀ e ∈ files, d' e.sector.toNat = d e.sector.toNat) :
    usedSectors d' files = usedSectors d files := by
  rw [usedSectors, usedSectors, List.flatMap_congr fun e he => fileSectors_congr (hd e he)]

theorem usedSectors_perm (hp : files.Perm (e :: files')) :
    (usedSectors d files).Perm (fileSectors d e ++ usedSectors d files') := by
  have hflat := hp.flatMap_right (fileSectors d)
  rw [List.flatMap_cons] at hflat
  refine (hflat.append_left systemSectors).trans ?_
  rw [← List.append_assoc, usedSectors, ← List.append_assoc]
  exact List.perm_append_comm.append_right _

theorem mem_usedSectors :
    n ∈ usedSectors d files ↔ n ∈ systemSectors ∨ ∃ e ∈ files, n ∈ fileSectors d e := by
  simp [usedSectors]

theorem mem_usedSectors_of_file (he : e ∈ files) (hn : n ∈ fileSectors d e) :
    n ∈ usedSectors d files := mem_usedSectors.mpr (.inr ⟨e, he, hn⟩)

/-! The two files of the system. -/

theorem SystemFile.sane (hf : SystemFile d file sector length sectors)
    (hlen : length ≤ sectors.length * sectorSize) (hin : ∀ n ∈ sectors, n < numSectors)
    (hnodup : sectors.Nodup) : file.hdr.Sane := by
  refine ⟨?_, ?_, ?_⟩
  · rw [hf.length, hf.sectors]
    exact_mod_cast hlen
  · rwa [hf.sectors]
  · rwa [hf.sectors]

theorem SystemFile.congr (hf : SystemFile d file sector length sectors)
    (hd : d' sector = d sector) : SystemFile d' file sector length sectors :=
  ⟨by rw [hd, hf.header], hf.seekPosition, hf.length, hf.sectors⟩

theorem SystemFile.opened (hf : SystemFile d file sector length sectors)
    (hlt : sector < numSectors) : OpenFile.opened d sector = .ok file := by
  rw [OpenFile.opened, FileHeader.fetchFrom, readSector_eq hlt]
  simp only [Except.map, hf.header, ← hf.seekPosition]

/-- A step that succeeds hands its result on. -/
theorem ok_bind {α β : Type} (a : α) (rest : α → Except Fault β) :
    (Except.ok a >>= rest) = rest a := rfl

namespace Valid

variable (hv : Valid s freeMap table)
include hv

theorem saneMap : s.freeMapFile.hdr.Sane := hv.freeMapFile.sane (by decide) (by decide) (by decide)

theorem saneDirectory : s.directoryFile.hdr.Sane :=
  hv.directoryFile.sane (by decide) (by decide) (by decide)

theorem fetchMap_eq (memory : Memory) : fetchMap memory s = .ok freeMap := by
  obtain ⟨t, ht, hst, hnt, -⟩ := new_bits memory.words numSectors
  have hwords : t.numWords = freeMap.numWords := by
    rw [hst.words, hv.sized.words, hnt, hv.numBits]
  have hlen : t.map.length = freeMap.map.length := by
    rw [hst.length, hv.sized.length, hwords]
  have hfetch := fetchArray_eq t.map hv.saneMap hv.mapOnDisk hlen
  simp only [fetchMap, ht, ok_bind, hfetch]
  exact congrArg Except.ok (by rw [hwords, hnt, ← hv.numBits])

theorem fetchDirectory_eq (memory : Memory) : fetchDirectory memory s = .ok table :=
  fetchArray_eq _ hv.saneDirectory hv.tableOnDisk (by simp [Directory.new, hv.entries])

/-- Mounting the disk again changes nothing. -/
theorem mount_eq : Mounted.mount s.disk = .ok s := by
  rw [Mounted.mount, hv.freeMapFile.opened (by decide), hv.directoryFile.opened (by decide)]
  rfl

theorem lt_numSectors (hn : n ∈ usedSectors s.disk table.files) : n < numSectors :=
  ((hv.bits n).mp hn).1

theorem sector_lt (he : e ∈ table.files) : e.sector.toNat < numSectors :=
  hv.lt_numSectors (mem_usedSectors_of_file he List.mem_cons_self)

theorem toInt_sector (he : e ∈ table.files) : e.sector.toInt = e.sector.toNat :=
  FileHeader.toInt_of_toNat_lt (hv.sector_lt he)

theorem nodup_fileSectors (he : e ∈ table.files) : (fileSectors s.disk e).Nodup := by
  obtain ⟨t, u, ht⟩ := List.append_of_mem he
  have hperm := usedSectors_perm (d := s.disk) (ht ▸ List.perm_middle : table.files.Perm (e :: (t ++ u)))
  exact (List.nodup_append.mp (hperm.nodup_iff.mp hv.nodup)).1

theorem sane (he : e ∈ table.files) : (header s.disk e).Sane := by
  refine ⟨?_, ?_, (List.nodup_cons.mp (hv.nodup_fileSectors he)).2⟩
  · have hwhole := (hv.whole e he).2
    unfold sectorCount at hwhole
    rw [hwhole]
    unfold sectorSize
    push_cast
    omega
  · intro n hn
    exact hv.lt_numSectors (mem_usedSectors_of_file he (List.mem_cons_of_mem _ hn))

theorem opened_eq (he : e ∈ table.files) :
    OpenFile.opened s.disk e.sector.toInt = .ok ⟨header s.disk e, 0⟩ := by
  rw [hv.toInt_sector he, OpenFile.opened, FileHeader.fetchFrom, readSector_eq (hv.sector_lt he)]
  rfl

/-- The files share no sector with each other. -/
theorem disjoint (he : e ∈ table.files) (he' : e' ∈ table.files) (hne : e ≠ e')
    (hn : n ∈ fileSectors s.disk e) : n ∉ fileSectors s.disk e' := by
  intro hn'
  obtain ⟨t, u, ht⟩ := List.append_of_mem he
  have hp : table.files.Perm (e :: (t ++ u)) := ht ▸ List.perm_middle
  have hdisj := (List.nodup_append.mp ((usedSectors_perm (d := s.disk) hp).nodup_iff.mp hv.nodup)).2.2
  have he' : e' ∈ t ++ u := by
    rcases List.mem_cons.mp (hp.mem_iff.mp he') with rfl | he'
    · exact absurd rfl hne
    · exact he'
  exact hdisj n hn n (mem_usedSectors.mpr (.inr ⟨e', he', hn'⟩)) rfl

theorem not_system (he : e ∈ table.files) (hn : n ∈ fileSectors s.disk e) : n ∉ systemSectors := by
  intro hsys
  obtain ⟨t, u, ht⟩ := List.append_of_mem he
  have hp : table.files.Perm (e :: (t ++ u)) := ht ▸ List.perm_middle
  have hdisj := (List.nodup_append.mp ((usedSectors_perm (d := s.disk) hp).nodup_iff.mp hv.nodup)).2.2
  exact hdisj n hn n (mem_usedSectors.mpr (.inl hsys)) rfl

/-- The clear bits are the sectors that have no use. -/
theorem mem_free_iff : n ∈ free freeMap ↔ n < numSectors ∧ n ∉ usedSectors s.disk table.files := by
  rw [mem_free, hv.numBits, hv.bits]
  by_cases hn : freeMap.bits n = true <;> simp [hn]

theorem length_free : (free freeMap).length + (usedSectors s.disk table.files).length = numSectors := by
  have hperm : (free freeMap ++ usedSectors s.disk table.files).Perm (List.range numSectors) := by
    refine (List.perm_ext_iff_of_nodup ?_ List.nodup_range).mpr fun n => ?_
    · refine List.nodup_append.mpr ⟨nodup_free freeMap, hv.nodup, ?_⟩
      rintro a ha b hb rfl
      exact (hv.mem_free_iff.mp ha).2 hb
    · rw [List.mem_append, hv.mem_free_iff, List.mem_range]
      constructor
      · rintro (⟨hn, -⟩ | hn)
        · exact hn
        · exact hv.lt_numSectors hn
      · intro hn
        by_cases hu : n ∈ usedSectors s.disk table.files
        · exact .inr hu
        · exact .inl ⟨hn, hu⟩
  rw [← List.length_append, hperm.length_eq, List.length_range]

/-! Create. -/

theorem create_old (he : e ∈ table.files) (hkey : e.key = key name) (memory : Memory) (size : Word) :
    s.create memory name size = .ok (false, s) := by
  have hfind : table.find name ≠ -1 := by
    rw [Directory.find_eq_some he hkey hv.keys, hv.toInt_sector he]
    omega
  simp only [Mounted.create, hv.fetchDirectory_eq, ok_bind, if_pos hfind]
  rfl

/-- There is no sector for the header, no entry, or not enough sectors for the data. -/
theorem create_full (hname : ∀ e ∈ table.files, e.key ≠ key name) (memory : Memory)
    (hfull : table.files.length = numDirEntries ∨
      (free freeMap).length < 1 + sectorCount size.toInt.toNat) :
    s.create memory name size = .ok (false, s) := by
  have hfind : ¬ table.find name ≠ -1 := by simp [Directory.find_eq_none hname]
  simp only [Mounted.create, hv.fetchDirectory_eq, hv.fetchMap_eq, ok_bind, if_neg hfind]
  cases hfree : free freeMap with
  | nil =>
    simp only [find_eq_none hv.sized hfree]
    rfl
  | cons n rest =>
    obtain ⟨t, ht, hst, -, hrest, -⟩ := find_eq_some hv.sized hfree
    have hn : ¬ (n : ℤ) = -1 := by omega
    simp only [ht, ok_bind, if_neg hn]
    by_cases hslot : table.files.length = numDirEntries
    · rw [Directory.add_full hname (hslot.trans hv.entries.symm)]
      rfl
    · have hlt : table.files.length < table.length :=
        lt_of_le_of_ne table.length_files_le (hv.entries ▸ hslot)
      obtain ⟨u, e, hadd, -⟩ := Directory.add_new n hname hlt
      have hroom : ((free t).length : ℤ) < FileHeader.sectorsFor size := by
        have hneed := hfull.resolve_left hslot
        rw [hfree, List.length_cons, sectorCount, ← FileHeader.toNat_sectorsFor] at hneed
        rw [hrest]
        omega
      obtain ⟨hdr, halloc⟩ := FileHeader.allocate_full memory.words hst hroom
      simp only [hadd, halloc, ok_bind]
      rfl

/-- The header has no room for the numbers of the sectors. -/
theorem create_outside (hname : ∀ e ∈ table.files, e.key ≠ key name) (memory : Memory)
    (hslot : table.files.length < numDirEntries)
    (hroom : 1 + sectorCount size.toInt.toNat ≤ (free freeMap).length)
    (hout : numDirect < sectorCount size.toInt.toNat) :
    s.create memory name size = .error .outside := by
  have hfind : ¬ table.find name ≠ -1 := by simp [Directory.find_eq_none hname]
  rw [sectorCount, ← FileHeader.toNat_sectorsFor] at hroom hout
  simp only [Mounted.create, hv.fetchDirectory_eq, hv.fetchMap_eq, ok_bind, if_neg hfind]
  cases hfree : free freeMap with
  | nil => simp [hfree] at hroom
  | cons n rest =>
    obtain ⟨t, ht, hst, -, hrest, -⟩ := find_eq_some hv.sized hfree
    have hn : ¬ (n : ℤ) = -1 := by omega
    obtain ⟨u, e, hadd, -⟩ := Directory.add_new n hname (hv.entries ▸ hslot)
    rw [hfree, List.length_cons] at hroom
    have halloc := FileHeader.allocate_outside memory.words hst (by rw [hrest]; omega) hout
    simp only [ht, ok_bind, if_neg hn, hadd, halloc]
    rfl

/-- The sectors of the files stay when those of the bitmap and of the directory are written. -/
theorem fileSectors_stay (hstay : ∀ n ∈ usedSectors s.disk table.files, n ∉ [2, 3, 4] → d' n = s.disk n)
    (he : e ∈ table.files) (hn : n ∈ fileSectors s.disk e) : d' n = s.disk n := by
  refine hstay n (mem_usedSectors_of_file he hn) fun hsys => hv.not_system he hn ?_
  exact List.mem_cons_of_mem 0 (List.mem_cons_of_mem 1 hsys)

/-- A file more. -/
theorem extend {t : BitMap} {u : Directory} {xs : List ℕ}
    (hstay : ∀ n ∈ usedSectors s.disk table.files, n ∉ [2, 3, 4] → d' n = s.disk n)
    (hsized : Sized t) (hbits : t.numBits = numSectors)
    (hmap : contents d' s.freeMapFile.hdr = encodeAll t.map)
    (hlen : u.length = table.length) (htable : contents d' s.directoryFile.hdr = encodeAll u)
    (hperm : u.files.Perm (e :: table.files)) (hkey : ∀ e' ∈ table.files, e'.key ≠ e.key)
    (hxs : fileSectors d' e = xs) (hnodup : xs.Nodup) (hfree : ∀ n ∈ xs, n ∈ free freeMap)
    (hset : ∀ n, t.bits n = (freeMap.bits n || decide (n ∈ xs)))
    (hwhole : (header d' e).numSectors.toInt.toNat ≤ numDirect ∧
      (header d' e).sectors.length = sectorCount (header d' e).fileLength.toNat) :
    Valid { s with disk := d' } t u := by
  have hfile := fun e he n hn => hv.fileSectors_stay (e := e) (n := n) hstay he hn
  have hold : usedSectors d' table.files = usedSectors s.disk table.files :=
    usedSectors_congr fun e he => hfile e he _ List.mem_cons_self
  have hused : (usedSectors d' u.files).Perm (xs ++ usedSectors s.disk table.files) := by
    have hp := usedSectors_perm (d := d') hperm
    rwa [hxs, hold] at hp
  have hfirst : ∀ n ∈ [0, 1], n ∈ systemSectors ∧ n ∉ [2, 3, 4] := by decide
  have hkept (n : ℕ) (hn : n ∈ [0, 1]) : d' n = s.disk n :=
    hstay n (mem_usedSectors.mpr (.inl (hfirst n hn).1)) (hfirst n hn).2
  refine ⟨hv.freeMapFile.congr (hkept _ (by decide)), hv.directoryFile.congr (hkept _ (by decide)),
    hsized, hbits, hmap, hlen.trans hv.entries, htable, ?_, ?_, ?_, ?_⟩
  · refine (hperm.map DirectoryEntry.key).nodup_iff.mpr (List.nodup_cons.mpr ⟨?_, hv.keys⟩)
    intro hmem
    obtain ⟨e', he', heq⟩ := List.mem_map.mp hmem
    exact hkey e' he' heq
  · refine hused.nodup_iff.mpr (List.nodup_append.mpr ⟨hnodup, hv.nodup, ?_⟩)
    rintro a ha b hb rfl
    exact (hv.mem_free_iff.mp (hfree a ha)).2 hb
  · intro n
    rw [hused.mem_iff, List.mem_append, hv.bits, hset, Bool.or_eq_true, decide_eq_true_eq]
    constructor
    · rintro (hn | ⟨hlt, hn⟩)
      · exact ⟨(hv.mem_free_iff.mp (hfree n hn)).1, .inr hn⟩
      · exact ⟨hlt, .inl hn⟩
    · rintro ⟨hlt, hn | hn⟩
      · exact .inr ⟨hlt, hn⟩
      · exact .inl hn
  · intro e' he'
    rcases List.mem_cons.mp (hperm.mem_iff.mp he') with rfl | he'
    · exact hwhole
    · rw [header_congr (hfile e' he' _ List.mem_cons_self)]
      exact hv.whole e' he'

theorem create_eq (hname : ∀ e ∈ table.files, e.key ≠ key name) (memory : Memory)
    (hslot : table.files.length < numDirEntries)
    (hroom : 1 + sectorCount size.toInt.toNat ≤ (free freeMap).length)
    (hin : sectorCount size.toInt.toNat ≤ numDirect) :
    ∃ s' freeMap' table' e, s.create memory name size = .ok (true, s') ∧
      Valid s' freeMap' table' ∧ table'.files.Perm (e :: table.files) ∧ e.key = key name ∧
      (header s'.disk e).fileLength = size.toInt ∧
      ∀ e' ∈ table.files, ∀ n ∈ fileSectors s.disk e', s'.disk n = s.disk n := by
  have hfind : ¬ table.find name ≠ -1 := by simp [Directory.find_eq_none hname]
  have hcount : (FileHeader.sectorsFor size).toNat = sectorCount size.toInt.toNat :=
    FileHeader.toNat_sectorsFor size
  obtain ⟨n, rest, hfree⟩ : ∃ n rest, free freeMap = n :: rest :=
    List.exists_cons_of_length_pos (by omega)
  obtain ⟨hnlt, hnfree⟩ := hv.mem_free_iff.mp (hfree ▸ List.mem_cons_self : n ∈ free freeMap)
  obtain ⟨t, ht, hst, hnt, hrest, htbits⟩ := find_eq_some hv.sized hfree
  obtain ⟨u, e, hadd, hkey, hsector, hulen, huperm⟩ :=
    Directory.add_new n hname (hv.entries ▸ hslot)
  rw [hfree, List.length_cons] at hroom
  obtain ⟨hdr, t', halloc, hst', hnt', hbytes, hsects, hdata, -, htbits'⟩ :=
    FileHeader.allocate_eq _ memory.words hst (hnt.trans hv.numBits).le
      (by rw [hrest]; omega) (hcount ▸ hin)
  rw [hcount, hrest] at hdata
  have hnsector : e.sector.toNat = n := by
    rw [hsector]
    unfold numSectors at hnlt
    simp
    omega
  -- the header, the directory and the bitmap are written, in this order
  obtain ⟨d₂, hd₂, htable, hframe₂⟩ := writeArray_eq u hv.saneDirectory memory.bytes
    (Function.update s.disk n (.ofBytes (Image.encode hdr)))
    (by rw [hv.directoryFile.length, hulen, hv.entries]; rfl)
  obtain ⟨d₃, hd₃, hmap, hframe₃⟩ := writeArray_eq t'.map hv.saneMap memory.bytes d₂
    (by rw [hv.freeMapFile.length, hst'.length, hst'.words, hnt', hnt, hv.numBits]; rfl)
  rw [hv.directoryFile.sectors] at hframe₂
  rw [hv.freeMapFile.sectors] at hframe₃
  have hframe (m : ℕ) (hm : m ∉ [2, 3, 4]) :
      d₃ m = Function.update s.disk n (.ofBytes (Image.encode hdr)) m := by
    simp only [List.mem_cons, List.not_mem_nil, or_false, not_or] at hm
    rw [hframe₃ m (by simpa using hm.1), hframe₂ m (by simpa using hm.2)]
  have hsys (m : ℕ) (hm : m ∈ [2, 3, 4]) : m ∈ usedSectors s.disk table.files :=
    mem_usedSectors.mpr (.inl (List.mem_cons_of_mem 0 (List.mem_cons_of_mem 1 hm)))
  have hstay (m : ℕ) (hm : m ∈ usedSectors s.disk table.files) (hm' : m ∉ [2, 3, 4]) :
      d₃ m = s.disk m := by
    have hne : m ≠ n := fun he => hnfree (he ▸ hm)
    rw [hframe m hm', Function.update_of_ne hne]
  have hheader : header d₃ e = hdr := by
    rw [header, hnsector, hframe n fun hm => hnfree (hsys n hm), Function.update_self,
      Sector.ofBytes_bytes (Image.length_encode hdr), Image.decode_encode]
  have hxs : fileSectors d₃ e = n :: rest.take (sectorCount size.toInt.toNat) := by
    rw [fileSectors, hheader, hnsector, hdata]
  have hsub : List.Sublist (n :: rest.take (sectorCount size.toInt.toNat)) (free freeMap) := by
    rw [hfree]
    exact (List.take_sublist _ _).cons_cons n
  have htable₃ : contents d₃ s.directoryFile.hdr = encodeAll u := by
    rw [← htable]
    refine contents_congr fun m hm => hframe₃ m fun h2 => ?_
    rw [hv.directoryFile.sectors] at hm
    rw [List.mem_singleton.mp h2] at hm
    exact absurd hm (by decide)
  have hvalid := hv.extend hstay hst' (hnt'.trans (hnt.trans hv.numBits)) hmap hulen htable₃ huperm
    (fun e' he' => hkey ▸ hname e' he') hxs (hsub.nodup (nodup_free freeMap))
    (fun m hm => hsub.subset hm) (fun m => by
      rw [htbits', htbits, hrest, hcount]
      by_cases hm : m = n <;> simp [hm])
    (by rw [hheader, hdata, hsects, FileHeader.fileLength, hbytes, hcount, List.length_take]; omega)
  refine ⟨_, t', u, e, ?_, hvalid, huperm, hkey, ?_, fun e' he' m hm =>
    hv.fileSectors_stay hstay he' hm⟩
  · have hn : ¬ (n : ℤ) = -1 := by omega
    simp only [Mounted.create, hv.fetchDirectory_eq, hv.fetchMap_eq, ok_bind,
      if_neg hfind, ht, if_neg hn, hadd, halloc, FileHeader.writeBack, writeSector_eq hnlt, hd₂, hd₃]
    rfl
  · rw [hheader, FileHeader.fileLength, hbytes]

/-! Remove. -/

/-- A file less. -/
theorem shrink {t : BitMap} {u : Directory}
    (hstay : ∀ n, n ∉ [2, 3, 4] → d' n = s.disk n) (hsized : Sized t)
    (hbits : t.numBits = numSectors) (hmap : contents d' s.freeMapFile.hdr = encodeAll t.map)
    (hlen : u.length = table.length) (htable : contents d' s.directoryFile.hdr = encodeAll u)
    (hperm : table.files.Perm (e :: u.files))
    (hset : ∀ n, t.bits n = (freeMap.bits n && !decide (n ∈ fileSectors s.disk e))) :
    Valid { s with disk := d' } t u := by
  have hsub (e' : DirectoryEntry) (he' : e' ∈ u.files) : e' ∈ table.files :=
    hperm.mem_iff.mpr (List.mem_cons_of_mem e he')
  have hfile := fun e' he' n hn =>
    hv.fileSectors_stay (e := e') (n := n) (fun n _ => hstay n) (hsub e' he') hn
  have hused : usedSectors d' u.files = usedSectors s.disk u.files :=
    usedSectors_congr fun e' he' => hfile e' he' _ List.mem_cons_self
  have hold := usedSectors_perm (d := s.disk) hperm
  obtain ⟨-, hnodup, hdisj⟩ := List.nodup_append.mp (hold.nodup_iff.mp hv.nodup)
  refine ⟨hv.freeMapFile.congr (hstay _ (by decide)), hv.directoryFile.congr (hstay _ (by decide)),
    hsized, hbits, hmap, hlen.trans hv.entries, htable, ?_, ?_, ?_, ?_⟩
  · exact (List.nodup_cons.mp ((hperm.map DirectoryEntry.key).nodup_iff.mp hv.keys)).2
  · rwa [hused]
  · intro n
    have hn := hv.bits n
    rw [hold.mem_iff, List.mem_append] at hn
    rw [hused, hset, Bool.and_eq_true, Bool.not_eq_true', decide_eq_false_iff_not, ← and_assoc, ← hn]
    constructor
    · exact fun hmem => ⟨.inr hmem, fun hmem' => hdisj n hmem' n hmem rfl⟩
    · rintro ⟨hmem | hmem, hne⟩
      · exact absurd hmem hne
      · exact hmem
  · intro e' he'
    rw [header_congr (hfile e' he' _ List.mem_cons_self)]
    exact hv.whole e' (hsub e' he')

theorem remove_none (hname : ∀ e ∈ table.files, e.key ≠ key name) (memory : Memory) :
    s.remove memory name = .ok (false, s) := by
  simp only [Mounted.remove, hv.fetchDirectory_eq, ok_bind, Directory.find_eq_none hname,
    if_true]
  rfl

theorem remove_eq (he : e ∈ table.files) (hkey : e.key = key name) (memory : Memory) :
    ∃ s' freeMap' table', s.remove memory name = .ok (true, s') ∧ Valid s' freeMap' table' ∧
      table.files.Perm (e :: table'.files) ∧
      ∀ e' ∈ table'.files, ∀ n ∈ fileSectors s.disk e', s'.disk n = s.disk n := by
  have hfind : table.find name = e.sector.toNat := by
    rw [Directory.find_eq_some he hkey hv.keys, hv.toInt_sector he]
  have hlt := hv.sector_lt he
  have hset (n : ℕ) (hn : n ∈ fileSectors s.disk e) : n < freeMap.numBits ∧ freeMap.bits n = true := by
    rw [hv.numBits]
    exact (hv.bits n).mp (mem_usedSectors_of_file he hn)
  obtain ⟨hfresh, hnodup⟩ := List.nodup_cons.mp (hv.nodup_fileSectors he)
  obtain ⟨t, ht, hst, hnt, htbits⟩ := FileHeader.deallocate_eq hv.sized hv.numBits.le
    (hv.whole e he).1 hnodup fun n hn => hset n (List.mem_cons_of_mem _ hn)
  obtain ⟨t', ht', hst', hnt', htbits'⟩ := clear_bits hst (i := e.sector.toNat)
    (by rw [hnt, hv.numBits]; exact hlt)
  obtain ⟨u, hremove, hulen, huperm⟩ := Directory.remove_eq he hkey hv.keys
  obtain ⟨d₂, hd₂, hmap, hframe₂⟩ := writeArray_eq t'.map hv.saneMap memory.bytes s.disk
    (by rw [hv.freeMapFile.length, hst'.length, hst'.words, hnt', hnt, hv.numBits]; rfl)
  obtain ⟨d₃, hd₃, htable, hframe₃⟩ := writeArray_eq u hv.saneDirectory memory.bytes d₂
    (by rw [hv.directoryFile.length, hulen, hv.entries]; rfl)
  rw [hv.freeMapFile.sectors] at hframe₂
  rw [hv.directoryFile.sectors] at hframe₃
  have hstay (m : ℕ) (hm : m ∉ [2, 3, 4]) : d₃ m = s.disk m := by
    simp only [List.mem_cons, List.not_mem_nil, or_false, not_or] at hm
    rw [hframe₃ m (by simpa using hm.2), hframe₂ m (by simpa using hm.1)]
  have hmap₃ : contents d₃ s.freeMapFile.hdr = encodeAll t'.map := by
    rw [← hmap]
    refine contents_congr fun m hm => hframe₃ m fun h34 => ?_
    rw [hv.freeMapFile.sectors] at hm
    rw [List.mem_singleton.mp hm] at h34
    exact absurd h34 (by decide)
  have hvalid := hv.shrink hstay hst' (hnt'.trans (hnt.trans hv.numBits)) hmap₃ hulen htable huperm
    fun m => by
      rw [htbits', htbits, fileSectors]
      by_cases hm : m = e.sector.toNat <;> simp [hm]
  refine ⟨_, t', u, ?_, hvalid, huperm, fun e' he' m hm => ?_⟩
  · have hsector : ¬ (e.sector.toNat : ℤ) = -1 := by omega
    simp only [Mounted.remove, hv.fetchDirectory_eq, hv.fetchMap_eq, ok_bind, hfind,
      if_neg hsector, FileHeader.fetchFrom, readSector_eq hlt, Except.map]
    rw [← header, ht]
    simp only [ht', ok_bind, hremove, hd₂, hd₃]
    rfl
  · exact hv.fileSectors_stay (fun m _ => hstay m) (huperm.mem_iff.mpr (List.mem_cons_of_mem e he')) hm

/-! Open, and writing to an open file. -/

theorem openFile_none (hname : ∀ e ∈ table.files, e.key ≠ key name) (memory : Memory) :
    s.openFile memory name = .ok none := by
  simp only [Mounted.openFile, hv.fetchDirectory_eq, ok_bind, Directory.find_eq_none hname]
  rfl

theorem openFile_eq (he : e ∈ table.files) (hkey : e.key = key name) (memory : Memory) :
    s.openFile memory name = .ok (some ⟨header s.disk e, 0⟩) := by
  have hfind := Directory.find_eq_some he hkey hv.keys
  have hpos : e.sector.toInt ≥ 0 := by
    rw [hv.toInt_sector he]
    omega
  simp only [Mounted.openFile, hv.fetchDirectory_eq, ok_bind, hfind, if_pos hpos,
    hv.opened_eq he]
  rfl

/-- The data of a file is changed. -/
theorem write_data (he : e ∈ table.files) (hframe : ∀ n ∉ (header s.disk e).sectors, d' n = s.disk n) :
    Valid { s with disk := d' } freeMap table ∧
      (∀ e' ∈ table.files, header d' e' = header s.disk e') ∧
      ∀ e' ∈ table.files, e' ≠ e → ∀ n ∈ fileSectors s.disk e', d' n = s.disk n := by
  have hdata (n : ℕ) (hn : n ∈ (header s.disk e).sectors) : n ∈ fileSectors s.disk e :=
    List.mem_cons_of_mem _ hn
  have hsys (n : ℕ) (hn : n ∈ systemSectors) : d' n = s.disk n :=
    hframe n fun hmem => hv.not_system he (hdata n hmem) hn
  have hother (e' : DirectoryEntry) (he' : e' ∈ table.files) (hne : e' ≠ e) (n : ℕ)
      (hn : n ∈ fileSectors s.disk e') : d' n = s.disk n :=
    hframe n fun hmem => hv.disjoint he he' hne.symm (hdata n hmem) hn
  have hsector (e' : DirectoryEntry) (he' : e' ∈ table.files) :
      d' e'.sector.toNat = s.disk e'.sector.toNat := by
    by_cases hne : e' = e
    · subst hne
      exact hframe _ (List.nodup_cons.mp (hv.nodup_fileSectors he)).1
    · exact hother e' he' hne _ List.mem_cons_self
  have hused : usedSectors d' table.files = usedSectors s.disk table.files :=
    usedSectors_congr hsector
  refine ⟨⟨hv.freeMapFile.congr (hsys _ (by decide)), hv.directoryFile.congr (hsys _ (by decide)),
    hv.sized, hv.numBits, ?_, hv.entries, ?_, hv.keys, ?_, ?_, ?_⟩,
    fun e' he' => header_congr (hsector e' he'), hother⟩
  · rw [← hv.mapOnDisk]
    refine contents_congr fun n hn => hsys n ?_
    rw [hv.freeMapFile.sectors] at hn
    rw [List.mem_singleton.mp hn]
    decide
  · rw [← hv.tableOnDisk]
    refine contents_congr fun n hn => hsys n ?_
    rw [hv.directoryFile.sectors] at hn
    exact List.mem_cons_of_mem 0 (List.mem_cons_of_mem 1 (List.mem_cons_of_mem 2 hn))
  · rw [hused]
    exact hv.nodup
  · rw [hused]
    exact hv.bits
  · intro e' he'
    rw [header_congr (hsector e' he')]
    exact hv.whole e' he'

end Valid

/-! Formatting. -/

/-- The sectors that are free when two are marked. -/
theorem free_marked {t : BitMap} (hn : t.numBits = numSectors)
    (hbits : ∀ j < numSectors, t.bits j = decide (j ∈ [0, 1])) :
    free t = 2 :: 3 :: 4 :: List.range' 5 (numSectors - 5) := by
  have hrange : List.range numSectors = 0 :: 1 :: 2 :: 3 :: 4 :: List.range' 5 (numSectors - 5) := by
    rw [List.range_eq_range']
    rfl
  have hfree : free t = (List.range numSectors).filter fun j => decide (2 ≤ j) := by
    rw [free, hn]
    refine List.filter_congr fun j hj => ?_
    rw [hbits j (List.mem_range.mp hj), Bool.eq_iff_iff]
    simp
    omega
  rw [hfree, hrange, List.filter_cons_of_neg (by simp), List.filter_cons_of_neg (by simp),
    List.filter_eq_self]
  intro j hj
  simp only [List.mem_cons, List.mem_range'_1] at hj
  simp
  omega

theorem files_new (memory : ℕ → DirectoryEntry) (size : ℕ) : (Directory.new memory size).files = [] := by
  simp [Directory.files, Directory.new]

/-- A new disk is in order, with no file on it. -/
theorem format_eq (memory : Memory) (disk : Disk) :
    ∃ s freeMap table, Mounted.format memory disk = .ok s ∧ Valid s freeMap table ∧
      table.files = [] := by
  obtain ⟨t₀, ht₀, hst₀, hnt₀, hbits₀⟩ := new_bits memory.words numSectors
  obtain ⟨t₁, ht₁, hst₁, hnt₁, hbits₁⟩ := mark_bits hst₀ (i := freeMapSector) (by rw [hnt₀]; decide)
  obtain ⟨t₂, ht₂, hst₂, hnt₂, hbits₂⟩ :=
    mark_bits hst₁ (i := directorySector) (by rw [hnt₁, hnt₀]; decide)
  have hn₂ : t₂.numBits = numSectors := hnt₂.trans (hnt₁.trans hnt₀)
  have hfree₂ := free_marked hn₂ fun j hj => by
    rw [hbits₂, hbits₁, hbits₀ j hj]
    by_cases h0 : j = freeMapSector <;> by_cases h1 : j = directorySector <;>
      simp_all [freeMapSector, directorySector]
  have hsize : FileHeader.sectorsFor freeMapFileSize = 1 := by decide
  have hsize' : FileHeader.sectorsFor directoryFileSize = 2 := by decide
  obtain ⟨mapHdr, t₃, halloc₃, hst₃, hnt₃, hbytes₃, -, hsect₃, hfree₃, hbits₃⟩ :=
    FileHeader.allocate_eq freeMapFileSize memory.words hst₂ hn₂.le
      (by rw [hfree₂, hsize]; simp; omega) (by decide)
  rw [hfree₂, hsize] at hsect₃ hfree₃ hbits₃
  change free t₃ = 3 :: 4 :: List.range' 5 (numSectors - 5) at hfree₃
  change ∀ j, t₃.bits j = (t₂.bits j || decide (j ∈ [2])) at hbits₃
  obtain ⟨dirHdr, t₄, halloc₄, hst₄, hnt₄, hbytes₄, -, hsect₄, -, hbits₄⟩ :=
    FileHeader.allocate_eq directoryFileSize memory.words hst₃
      (hnt₃.trans hn₂).le (by rw [hfree₃, hsize']; simp; omega) (by decide)
  rw [hfree₃, hsize'] at hsect₄ hbits₄
  change ∀ j, t₄.bits j = (t₃.bits j || decide (j ∈ [3, 4])) at hbits₄
  have hn₄ : t₄.numBits = numSectors := hnt₄.trans (hnt₃.trans hn₂)
  generalize hd₂ : Function.update (Function.update disk freeMapSector (.ofBytes (Image.encode mapHdr)))
    directorySector (.ofBytes (Image.encode dirHdr)) = d₂
  have hmapFile : SystemFile d₂ ⟨mapHdr, 0⟩ freeMapSector 128 [2] := by
    refine ⟨?_, rfl, by rw [FileHeader.fileLength, hbytes₃]; rfl, hsect₃⟩
    rw [← hd₂, Function.update_of_ne (by decide), Function.update_self,
      Sector.ofBytes_bytes (Image.length_encode mapHdr), Image.decode_encode]
  have hdirFile : SystemFile d₂ ⟨dirHdr, 0⟩ directorySector 200 [3, 4] := by
    refine ⟨?_, rfl, by rw [FileHeader.fileLength, hbytes₄]; rfl, hsect₄⟩
    rw [← hd₂, Function.update_self, Sector.ofBytes_bytes (Image.length_encode dirHdr),
      Image.decode_encode]
  obtain ⟨d₃, hd₃, hmap, hframe₃⟩ := writeArray_eq t₄.map
    (hmapFile.sane (by decide) (by decide) (by decide)) memory.bytes d₂
    (by rw [hmapFile.length, hst₄.length, hst₄.words, hn₄]; rfl)
  obtain ⟨d₄, hd₄, htable, hframe₄⟩ := writeArray_eq
    (Directory.new memory.entries numDirEntries)
    (hdirFile.sane (by decide) (by decide) (by decide)) memory.bytes d₃
    (by rw [hdirFile.length]; simp [Directory.new]; rfl)
  rw [hmapFile.sectors] at hframe₃
  rw [hdirFile.sectors] at hframe₄
  have hkept (n : ℕ) (hn : n ∉ [2, 3, 4]) : d₄ n = d₂ n := by
    simp only [List.mem_cons, List.not_mem_nil, or_false, not_or] at hn
    rw [hframe₄ n (by simpa using hn.2), hframe₃ n (by simpa using hn.1)]
  have hmap₄ : contents d₄ mapHdr = encodeAll t₄.map := by
    rw [← hmap]
    refine contents_congr fun n hn => hframe₄ n fun h34 => ?_
    rw [hmapFile.sectors] at hn
    rw [List.mem_singleton.mp hn] at h34
    exact absurd h34 (by decide)
  have hfiles := files_new memory.entries numDirEntries
  have hbits (n : ℕ) (hn : n < numSectors) : t₄.bits n = decide (n ∈ systemSectors) := by
    rw [hbits₄, hbits₃, hbits₂, hbits₁, hbits₀ n hn, Bool.eq_iff_iff]
    by_cases h0 : n = 0 <;> by_cases h1 : n = 1 <;> by_cases h2 : n = 2 <;>
      simp [systemSectors, freeMapSector, directorySector, h0, h1, h2]
  refine ⟨⟨d₄, ⟨mapHdr, 0⟩, ⟨dirHdr, 0⟩⟩, t₄, Directory.new memory.entries numDirEntries, ?_,
    ⟨hmapFile.congr (hkept _ (by decide)), hdirFile.congr (hkept _ (by decide)), hst₄, hn₄, hmap₄,
      by simp [Directory.new], htable, by simp [hfiles], by simp [hfiles, usedSectors, systemSectors],
      ?_, by simp [hfiles]⟩, hfiles⟩
  · simp only [Mounted.format, ht₀, ht₁, ht₂, halloc₃, halloc₄, assertTrue, if_true, ok_bind,
      FileHeader.writeBack, writeSector_eq (show freeMapSector < numSectors by decide),
      writeSector_eq (show directorySector < numSectors by decide), hd₂, Mounted.mount,
      hmapFile.opened (show freeMapSector < numSectors by decide),
      hdirFile.opened (show directorySector < numSectors by decide), pure, Except.pure, hd₃, hd₄]
  · intro n
    have hin : n ∈ systemSectors → n < numSectors := by
      revert n
      decide
    rw [hfiles, usedSectors, List.flatMap_nil, List.append_nil]
    constructor
    · intro hn
      exact ⟨hin hn, by rw [hbits n (hin hn), decide_eq_true hn]⟩
    · rintro ⟨hlt, hn⟩
      rw [hbits n hlt] at hn
      exact of_decide_eq_true hn

end Nachos.FileSystem
