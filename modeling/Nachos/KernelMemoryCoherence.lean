import Nachos.KernelPageFaults

/-! Memory coherence over runs. A process with more pages than frames, run by two threads, shows a
page that leaves its frame with its bytes, and one that is dropped: the slot that is next in the TLB
is empty after a context switch, so the dirty bit stays behind in the slot of the victim. -/
namespace Nachos.Paging
open Executions WriteBack Relation

section
variable {Thread Space : Type*} [DecidableEq Thread] [DecidableEq Space]
  {cfg : Config Thread Space} {s : State Thread Space}

/-- A page leaves its frame only in the second half of `Evict`. -/
theorem pageKept_of_coherent {pre : List (PagingStep Thread Space)} {x : PagingStep Thread Space}
    (h : Inv cfg x.before) (hc : Coherent (cacheOf cfg x.before) (known (expected cfg pre)))
    (hs : Handles (step cfg) x.before x.event x.after) : PageKept cfg pre x := by
  obtain ⟨s, ⟨a, out⟩, u⟩ := x
  rintro random v f a rfl hp ha o b hb
  obtain ⟨hh, -⟩ := step_handle hs
  dsimp only at *
  rw [handlePageFault, hp] at hh
  obtain ⟨k, -, hevicts⟩ := h.finish_eviction hp hh
  obtain ⟨-, -, hspace, hpage⟩ := line_eq_some.mp hevicts.held
  obtain rfl : k = (a, (s.ipt f).virtualPage) :=
    Prod.ext (Option.some.inj (hspace.symm.trans ha)) hpage.symm
  exact hc.evicted hevicts hb

/-- In every run in which `Evict` loses no dirty bit, reads return what was written last or the
executable's content, and no page is dropped. -/
theorem memory_coherence {first : Thread} {tr : List (PagingStep Thread Space)}
    (h : Execution (Handles (step cfg)) (initial cfg first) tr s)
    (hc : ∀ x ∈ tr, EvictsSafely cfg x) :
    ∀ pre x post, tr = pre ++ x :: post → ReadsRight cfg pre x ∧ PageKept cfg pre x := by
  rintro pre x post rfl
  obtain ⟨hpre, hs⟩ := h.split rfl
  obtain ⟨hi, hco⟩ := coherent_run hpre fun y hy => hc y (List.mem_append_left _ hy)
  refine ⟨?_, pageKept_of_coherent hi hco hs⟩
  obtain ⟨s, ⟨a, out⟩, u⟩ := x
  cases a with
  | read address size => exact readsRight_of_coherent hi hco hs
  | _ => rintro address size bytes ⟨⟩

end

/-! One process, and what its pages do. -/

/-- One page of code and 4097 pages of uninitialised data. -/
def bigProgram : Executable := ⟨128, 0, 4097 * 128, 0, List.replicate 128 0⟩

def bigProcess : Config Bool ℕ := ⟨fun _ => 0, fun _ => bigProgram, .rand⟩

/-- The frames that are taken, the page in each of them, where each page is to be found, and how
many pages are in the swap file. -/
structure Picture where
  frames : ℕ
  page : ℕ → ℕ
  place : ℕ → DiskLocation
  swapped : ℕ

namespace Picture

/-- The first frames are taken, each by the page with its number. -/
def filled (k : ℕ) : Picture := ⟨k, id, fun v => if v = 0 then .inExecutable else .uninit, 0⟩

/-- The page comes into the first free frame. -/
def fetch (p : Picture) (v : ℕ) : Picture :=
  { p with frames := p.frames + 1, page := Function.update p.page p.frames v }

theorem fetch_filled (k : ℕ) : (filled k).fetch k = filled (k + 1) := by
  unfold fetch filled
  congr 1
  exact Function.update_eq_self k id

/-- The page takes the frame of another one, which goes to the swap file. -/
def replace (p : Picture) (f v : ℕ) : Picture :=
  { p with
    page := Function.update p.page f v
    place := Function.update p.place (p.page f) .inSwap
    swapped := p.swapped + 1 }

/-- The page is in no frame, and has not been in the swap file. -/
structure Fresh (p : Picture) (v : ℕ) : Prop where
  lt : v < 4898
  absent : ∀ j < p.frames, p.page j ≠ v
  place : p.place v = if v = 0 then .inExecutable else .uninit

end Picture

/-- What the picture says of the files and of all frames but `x`. Pages without content count as
modified from the start. -/
structure Holds (p : Picture) (x : Option ℕ) (s : State Bool ℕ) : Prop where
  valid : ∀ j, x ≠ some j → (s.ipt j).valid = decide (j < p.frames)
  entry : ∀ j < p.frames, x ≠ some j → (s.ipt j).virtualPage = p.page j ∧
    (s.ipt j).physicalPage = j ∧ (s.ipt j).space = some 0 ∧ (s.ipt j).readOnly = false ∧
    (s.ipt j).dirty = decide (p.page j ≠ 0)
  bitmap : ∀ j, s.mainMemoryBitmap j = decide (j < p.frames)
  swapMap : ∀ n, s.swapMap n = decide (n < p.swapped)
  table : ∀ v < 4898, ∃ e, (s.pageTable 0)[v]? = some e ∧ e.location = p.place v ∧
    (v = 0 → e.offset = 0)

/-- Every slot of the TLB shows a frame of the picture other than `x`. -/
def Shown (p : Picture) (x : Option ℕ) (s : State Bool ℕ) : Prop :=
  ∀ i, (s.tlb i).valid = true → ∃ j < p.frames, x ≠ some j ∧ (s.tlb i).virtualPage = p.page j ∧
    (s.tlb i).physicalPage = j ∧ (s.tlb i).readOnly = false ∧
    (s.tlb i).dirty = decide (p.page j ≠ 0)

structure Pictured (p : Picture) (s : State Bool ℕ) : Prop where
  idle : Idle s
  holds : Holds p none s
  shown : Shown p none s
  frames : p.frames ≤ numPhysPages

/-- A slot of the TLB shows the frame. -/
def SlotOf (s : State Bool ℕ) (f : ℕ) : Prop :=
  ∃ i, (s.tlb i).valid = true ∧ (s.tlb i).physicalPage = f

variable {p : Picture} {s u : State Bool ℕ} {v f : ℕ} {x : Option ℕ}

theorem pictured_initial (first : Bool) : Pictured (.filled 0) (initial bigProcess first) := by
  refine ⟨⟨fun _ => rfl, rfl, fun _ => rfl, fun _ => rfl⟩,
    ⟨fun _ _ => rfl, by simp [Picture.filled], fun _ => rfl, fun _ => rfl, fun v hv => ?_⟩,
    fun i hi => by simp [initial, blankEntry] at hi, by simp [Picture.filled]⟩
  have hpages : bigProgram.numPages = 4898 := by decide
  have hexec : bigProgram.numExecutablePages = 1 := by decide
  refine ⟨_, by simp [initial, bigProcess, Executable.pageTable, hpages, hv]; rfl, ?_, ?_⟩
  · simp [hexec, Picture.filled]
  · exact fun h0 => by simp [bigProgram, h0]

theorem Holds.slotsAgree (h : Holds p x s) (hs : Shown p x s) : SlotsAgree s := by
  intro i hi
  obtain ⟨j, hj, hx, -, hphys, -, hdirty⟩ := hs i hi
  rw [hdirty, hphys, (h.entry j hj hx).2.2.2.2]

theorem Shown.weaken (h : Shown p x s) : Shown p none s := by
  intro i hi
  obtain ⟨j, hj, -, hrest⟩ := h i hi
  exact ⟨j, hj, by simp, hrest⟩

/-- The page table, the memory and the frame of the page that comes in. -/
theorem Holds.load (h : Holds p (some f) s) (hf : f < p.frames) (hv : p.page f < 4898)
    (hplace : p.place (p.page f) = if p.page f = 0 then .inExecutable else .uninit)
    (hl : handleIPTMiss bigProcess s (p.page f) f = .ok u) : Holds p none u := by
  obtain ⟨e, hload⟩ := handleIPTMiss_spec hl
  obtain ⟨e₀, he₀, hloc, -⟩ := h.table (p.page f) hv
  obtain rfl : e = e₀ := Option.some.inj (hload.listed.symm.trans he₀)
  have hothers : ∀ j, j ≠ f → u.ipt j = s.ipt j := hload.others
  have hipt := hload.ipt
  have htable : ∀ v < 4898, ∃ e, (u.pageTable 0)[v]? = some e ∧ e.location = p.place v ∧
      (v = 0 → e.offset = 0) := by
    intro w hw
    obtain ⟨ew, hew, hlw, how⟩ := h.table w hw
    obtain ⟨e', hl', ho', hk⟩ := hload.entry
    have hkw := hk (0, w)
    split_ifs at hkw with hwv
    · obtain rfl : w = p.page f := (Prod.mk.inj hwv).2
      obtain rfl : e = ew := Option.some.inj (he₀.symm.trans hew)
      exact ⟨e', hkw, hl'.trans hlw, fun h0 => ho'.trans (how h0)⟩
    · exact ⟨ew, hkw.trans hew, hlw, how⟩
  obtain ⟨memory, table, ipt, list, he⟩ := hload.frame
  refine ⟨fun j _ => ?_, fun j hj _ => ?_, ?_, ?_, htable⟩
  · by_cases hjf : j = f
    · rw [hjf, hipt]
      simp [hf]
    · rw [hothers j hjf]
      exact h.valid j fun hx => hjf (Option.some.inj hx).symm
  · by_cases hjf : j = f
    · rw [hjf, hipt]
      refine ⟨rfl, rfl, rfl, rfl, ?_⟩
      rw [hloc, hplace]
      by_cases h0 : p.page f = 0 <;> simp [h0]
    · rw [hothers j hjf]
      exact h.entry j hj fun hx => hjf (Option.some.inj hx).symm
  · rw [he]
    exact h.bitmap
  · rw [he]
    exact h.swapMap

/-- The end of the handler changes nothing in the picture. -/
theorem Holds.fill (h : Holds p none s) (hs : Shown p none s) (hf : f < p.frames)
    (hframes : p.frames ≤ numPhysPages) (hserving : Serving bigProcess f s) :
    Pictured p (fillTLB bigProcess s f) ∧ SlotOf (fillTLB bigProcess s f) f := by
  have hfill := filled_fillTLB bigProcess s f
  have hcopy : s.copyDirty s.currentTLB = s := (h.slotsAgree hs).copyDirty _
  have hipt : ∀ g, (fillTLB bigProcess s f).ipt g =
      { s.ipt g with use := if g = f then false else (s.ipt g).use } := by
    intro g
    rw [hfill.ipt, hcopy]
    split_ifs <;> rfl
  obtain ⟨b, hshown⟩ := hfill.shown
  rw [hcopy] at hshown
  obtain ⟨hpage, hphys, -, hro, hdirty⟩ := h.entry f hf (by simp)
  have hslot : Shown p none (fillTLB bigProcess s f) := by
    intro i hi
    by_cases hic : i = s.currentTLB
    · rw [hic, hshown]
      exact ⟨f, hf, by simp, hpage, hphys, hro, hdirty⟩
    · obtain ⟨c, hkept⟩ := hfill.kept i hic
      rw [hkept] at hi ⊢
      exact hs i hi
  refine ⟨⟨hserving.fill, ⟨fun j hj => ?_, fun j hj hx => ?_, ?_, ?_, ?_⟩, hslot, hframes⟩,
    s.currentTLB, by rw [hshown], by rw [hshown]; exact hphys⟩
  · rw [hipt]
    exact h.valid j hj
  · rw [hipt]
    exact h.entry j hj hx
  all_goals
    obtain ⟨tlb, slot, ipt, he⟩ := hfill.frame
    rw [he]
  · exact h.bitmap
  · exact h.swapMap
  · exact h.table

theorem Shown.load (h : Shown p x s) (hl : handleIPTMiss bigProcess s v f = .ok u) :
    Shown p none u := by
  obtain ⟨e, hload⟩ := handleIPTMiss_spec hl
  obtain ⟨memory, table, ipt, list, he⟩ := hload.frame
  rw [he]
  exact h.weaken

/-- A frame that is the current thread's gets its page. -/
theorem Holds.bring (h : Holds p (some f) s) (hs : Shown p (some f) s) (hf : f < p.frames)
    (hframes : p.frames ≤ numPhysPages) (hlt : p.page f < 4898)
    (hplace : p.place (p.page f) = if p.page f = 0 then .inExecutable else .uninit)
    (hphase : ∀ t, s.phase t = .user) (hlock : ∀ a, s.pageTableLock a = none)
    (huse : ∀ g, g ≠ f → (s.ipt g).use = false) :
    ∃ u, QuietStep bigProcess (inHandler bigProcess s (.loading (p.page f) f) false) u ∧
      Pictured p u ∧ SlotOf u f := by
  have hholds : Holds p (some f) (inHandler bigProcess s (.loading (p.page f) f) false) :=
    ⟨h.valid, h.entry, h.bitmap, h.swapMap, h.table⟩
  have hshown : Shown p (some f) (inHandler bigProcess s (.loading (p.page f) f) false) := hs
  obtain ⟨e, he, -⟩ := h.table (p.page f) hlt
  obtain ⟨m, hm⟩ := handleIPTMiss_ok bigProcess
    (s := inHandler bigProcess s (.loading (p.page f) f) false) he f
  exact ⟨_, quietStep_load hm, (hholds.load hf hlt hplace hm).fill (hshown.load hm) hf hframes
    ((serving_inHandler hphase hlock huse).load hm)⟩

/-- An access to a page that is in no frame. -/
theorem Pictured.choosing (h : Pictured p s) (hv : p.Fresh v) :
    Quietly bigProcess s (inHandler bigProcess s (.choosing v) true) := by
  have hmiss : findTLB s v = none := by
    rw [findTLB, List.find?_eq_none]
    intro i _ hi
    simp only [Bool.and_eq_true, decide_eq_true_eq] at hi
    obtain ⟨j, hj, -, hpage, -⟩ := h.shown i hi.1
    exact hv.absent j hj (hpage.symm.trans hi.2)
  have hnone : findResident bigProcess s v = none := by
    rw [findResident, List.find?_eq_none]
    intro j _ hj
    simp only [Bool.and_eq_true, decide_eq_true_eq] at hj
    have hlt : j < p.frames := by simpa [hj.1.1.1] using h.holds.valid j (by simp)
    exact hv.absent j hlt ((h.holds.entry j hlt (by simp)).1.symm.trans hj.1.1.2.symm)
  have hlt : v * pageSize < 2 ^ 31 := by
    have := hv.lt
    unfold pageSize
    omega
  exact (h.idle.searching hmiss hlt (a := .read (v * pageSize) 1) (.inl rfl)).trans
    (quietly_choosing hnone)

/-- While there is a free frame, the page is brought in. -/
theorem Pictured.fetch (h : Pictured p s) (hv : p.Fresh v) (hk : p.frames < numPhysPages) :
    ∃ u, Quietly bigProcess s u ∧ Pictured (p.fetch v) u ∧ SlotOf u p.frames := by
  have hfree : bitMapFind s.mainMemoryBitmap numPhysPages = some p.frames := by
    rw [bitMapFind, List.find?_range_eq_some]
    exact ⟨by simp [h.holds.bitmap], List.mem_range.mpr hk, fun j hj => by simp [h.holds.bitmap, hj]⟩
  set w := setUse { s with
    mainMemoryBitmap := Function.update s.mainMemoryBitmap p.frames true } p.frames true with hw
  have hipt : ∀ j, j ≠ p.frames → w.ipt j = s.ipt j := fun j hj => by
    simp [hw, setUse, State.setIPT, hj]
  have hpage : (p.fetch v).page p.frames = v := Function.update_self _ _ _
  have hothers : ∀ j, some p.frames ≠ some j → j ≠ p.frames ∧
      (j < (p.fetch v).frames ↔ j < p.frames) ∧ (p.fetch v).page j = p.page j := by
    intro j hj
    have hne : j ≠ p.frames := fun he => hj (congrArg some he.symm)
    refine ⟨hne, ?_, Function.update_of_ne hne _ _⟩
    simp only [Picture.fetch]
    omega
  have hholds : Holds (p.fetch v) (some p.frames) w := by
    refine ⟨fun j hj => ?_, fun j hj hx => ?_, fun j => ?_, h.holds.swapMap, h.holds.table⟩
    · obtain ⟨hne, hlt, -⟩ := hothers j hj
      rw [hipt j hne, h.holds.valid j (by simp)]
      exact decide_eq_decide.mpr hlt.symm
    · obtain ⟨hne, hlt, hsame⟩ := hothers j hx
      rw [hipt j hne, hsame]
      exact h.holds.entry j (hlt.mp hj) (by simp)
    · change Function.update s.mainMemoryBitmap p.frames true j = decide (j < p.frames + 1)
      by_cases hj : j = p.frames
      · simp [hj]
      · rw [Function.update_of_ne hj, h.holds.bitmap]
        exact decide_eq_decide.mpr (by omega)
  have hshown : Shown (p.fetch v) (some p.frames) w := by
    intro i hi
    obtain ⟨j, hj, -, hrest⟩ := h.shown i hi
    have hx : some p.frames ≠ some j := fun he => hj.ne (Option.some.inj he).symm
    obtain ⟨-, hlt, hsame⟩ := hothers j hx
    exact ⟨j, hlt.mpr hj, hx, hsame.symm ▸ hrest⟩
  obtain ⟨u, hload, hpictured⟩ := hholds.bring hshown (Nat.lt_succ_self _) hk (hpage.symm ▸ hv.lt)
    (hpage.symm ▸ hv.place) h.idle.phase h.idle.pageTableLock
    fun g hg => (congrArg (fun e => e.use) (hipt g hg)).trans (h.idle.use g)
  rw [hpage] at hload
  exact ⟨u, ((h.choosing hv).tail (quietStep_takeFree hfree)).tail hload, hpictured⟩

/-- The victim's page has been written to the next place in the swap file. -/
def afterWriteBack (s : State Bool ℕ) (f n : ℕ) (e : PageTableEntry) : State Bool ℕ :=
  setUse (updatePage { s with
    swapMap := Function.update s.swapMap n true
    swapFile := copyTo s.swapFile (n * pageSize) pageSize fun i => s.mainMemory (f * pageSize + i) }
    0 (s.ipt f).virtualPage { e with location := .inSwap, offset := n * pageSize }) f true

theorem afterWriteBack_ipt {n : ℕ} {e : PageTableEntry} {j : ℕ} (hj : j ≠ f) :
    (afterWriteBack s f n e).ipt j = s.ipt j := by
  simp [afterWriteBack, setUse, State.setIPT, updatePage, hj]

/-- Frames other than the victim's keep their pages. -/
theorem Picture.replace_page {j : ℕ} (hj : some f ≠ some j) :
    j ≠ f ∧ (p.replace f v).page j = p.page j := by
  have hne : j ≠ f := fun he => hj (congrArg some he.symm)
  exact ⟨hne, Function.update_of_ne hne _ _⟩

theorem afterWriteBack_table {e : PageTableEntry} (hvirtual : (s.ipt f).virtualPage = p.page f)
    (he : (s.pageTable 0)[p.page f]? = some e) (hne : p.page f ≠ 0)
    (htable : ∀ k < 4898, ∃ e, (s.pageTable 0)[k]? = some e ∧ e.location = p.place k ∧
      (k = 0 → e.offset = 0)) :
    ∀ k < 4898, ∃ e', ((afterWriteBack s f p.swapped e).pageTable 0)[k]? = some e' ∧
      e'.location = (p.replace f v).place k ∧ (k = 0 → e'.offset = 0) := by
  intro k hk
  obtain ⟨e', he', hloc, hoff⟩ := htable k hk
  have hentry := getElem?_updatePage (s := { s with
    swapMap := Function.update s.swapMap p.swapped true
    swapFile := copyTo s.swapFile (p.swapped * pageSize) pageSize
      fun i => s.mainMemory (f * pageSize + i) }) (a := 0) (v := p.page f)
    (e := { e with location := .inSwap, offset := p.swapped * pageSize }) he (0, k)
  by_cases hkp : k = p.page f
  · subst hkp
    rw [if_pos rfl] at hentry
    refine ⟨_, by rw [afterWriteBack, hvirtual]; exact hentry, ?_, fun h0 => absurd h0 hne⟩
    simp [Picture.replace]
  · rw [if_neg fun hh => hkp (Prod.mk.inj hh).2] at hentry
    refine ⟨e', by rw [afterWriteBack, hvirtual]; exact hentry.trans he', ?_, hoff⟩
    simp [Picture.replace, hkp, hloc]

theorem Holds.written {e : PageTableEntry} (h : Holds p none s) (hf : f < p.frames)
    (he : (s.pageTable 0)[p.page f]? = some e) (hne : p.page f ≠ 0) :
    Holds (p.replace f v) (some f) (afterWriteBack s f p.swapped e) := by
  refine ⟨fun j hj => ?_, fun j hj hx => ?_, h.bitmap, fun n => ?_,
    afterWriteBack_table (h.entry f hf (by simp)).1 he hne h.table⟩
  · rw [afterWriteBack_ipt (Picture.replace_page (p := p) (v := v) hj).1]
    exact h.valid j (by simp)
  · obtain ⟨hjf, hsame⟩ := Picture.replace_page (p := p) (v := v) hx
    rw [afterWriteBack_ipt hjf, hsame]
    exact h.entry j hj (by simp)
  · change Function.update s.swapMap p.swapped true n = decide (n < p.swapped + 1)
    by_cases hn : n = p.swapped
    · simp [hn]
    · rw [Function.update_of_ne hn, h.swapMap]
      exact decide_eq_decide.mpr (by omega)

/-- The first half of `Evict`: the victim is out of the TLB, and kept in use. -/
def takenOut (s : State Bool ℕ) (f : ℕ) (tlb : Fin tlbSize → TranslationEntry) : State Bool ℕ :=
  setUse { s with tlb := tlb } f true

theorem takenOut_ipt (s : State Bool ℕ) (f : ℕ) (tlb : Fin tlbSize → TranslationEntry) (j : ℕ) :
    (takenOut s f tlb).ipt j = if j = f then { s.ipt f with use := true } else s.ipt j := by
  by_cases hj : j = f
  · subst hj
    simp [takenOut, setUse, State.setIPT]
  · simp [takenOut, setUse, State.setIPT, hj]

theorem Holds.taken (h : Holds p none s) (tlb : Fin tlbSize → TranslationEntry) :
    Holds p none (takenOut s f tlb) := by
  refine ⟨fun j hj => ?_, fun j hj hx => ?_, h.bitmap, h.swapMap, h.table⟩
  · rw [takenOut_ipt]
    split_ifs with hjf
    · exact hjf ▸ h.valid f (by simp)
    · exact h.valid j hj
  · rw [takenOut_ipt]
    split_ifs with hjf
    · subst hjf
      exact h.entry j hj hx
    · exact h.entry j hj hx

/-- With no frame free, the page takes the frame of a page without content. -/
theorem Pictured.replace (h : Pictured p s) (hfull : p.frames = numPhysPages)
    (hf : f < numPhysPages) (hne : p.page f ≠ 0) (hlt : p.page f < 4898)
    (hplace : p.place (p.page f) ≠ .inSwap) (hroom : p.swapped < numSwapPages) (hv : p.Fresh v) :
    ∃ u, Quietly bigProcess s u ∧ Pictured (p.replace f v) u := by
  have hff : f < p.frames := hfull ▸ hf
  have hnone : bitMapFind s.mainMemoryBitmap numPhysPages = none := by
    rw [bitMapFind, List.find?_eq_none]
    intro j hj
    simp [h.holds.bitmap, hfull, List.mem_range.mp hj]
  have hvictim : chooseVictim bigProcess s f = some (f, s.evictionList) := by
    simp [chooseVictim, bigProcess, Nat.mod_eq_of_lt hf, h.idle.use]
  obtain ⟨tlb, hevict, hkept⟩ :=
    (h.holds.slotsAgree h.shown).quietStep_evict (v := v) hnone hvictim
  have htaken : Holds p none (takenOut s f tlb) := h.holds.taken tlb
  obtain ⟨hvirtual, -, hspace, -, hdirty⟩ := htaken.entry f hff (by simp)
  obtain ⟨e, he, hloc, -⟩ := htaken.table (p.page f) hlt
  have hslot : bitMapFind (takenOut s f tlb).swapMap numSwapPages = some p.swapped := by
    rw [bitMapFind, List.find?_range_eq_some]
    exact ⟨by simp [htaken.swapMap], List.mem_range.mpr hroom, fun j hj => by
      simp [htaken.swapMap, hj]⟩
  have hwrite := quietStep_writeBack bigProcess (v := v) (by simp [hdirty, hne]) hspace
    (hvirtual.symm ▸ he) (hloc ▸ hplace) hslot
  have hholds : Holds (p.replace f v) (some f) (afterWriteBack (takenOut s f tlb) f p.swapped e) :=
    htaken.written hff he hne
  have hshown : Shown (p.replace f v) (some f) (afterWriteBack (takenOut s f tlb) f p.swapped e) := by
    intro i hi
    obtain ⟨hsame, hphys⟩ := hkept i hi
    obtain ⟨j, hj, -, hrest⟩ := h.shown i (hsame ▸ hi)
    have hx : some f ≠ some j := by
      rintro ⟨⟩
      exact hphys hrest.2.1
    have hslot' : (afterWriteBack (takenOut s f tlb) f p.swapped e).tlb i = s.tlb i := hsame
    exact ⟨j, hj, hx, by rwa [hslot', (Picture.replace_page hx).2]⟩
  have hpage : (p.replace f v).page f = v := Function.update_self _ _ _
  have hplace' : (p.replace f v).place v = if v = 0 then .inExecutable else .uninit := by
    have hvf : v ≠ p.page f := fun he => hv.absent f hff he.symm
    simp only [Picture.replace, Function.update_of_ne hvf]
    exact hv.place
  have huse : ∀ g, g ≠ f → ((afterWriteBack (takenOut s f tlb) f p.swapped e).ipt g).use = false := by
    intro g hg
    rw [afterWriteBack_ipt hg, takenOut_ipt, if_neg hg]
    exact h.idle.use g
  obtain ⟨u, hload, hpictured, -⟩ := hholds.bring hshown hff h.frames (hpage.symm ▸ hv.lt)
    (hpage.symm ▸ hplace') h.idle.phase h.idle.pageTableLock huse
  rw [hpage] at hload
  exact ⟨u, (((h.choosing hv).tail hevict).tail hwrite).tail hload, hpictured⟩

theorem fresh_filled {k : ℕ} (hk : k ≤ v) (hv : v < 4898) : (Picture.filled k).Fresh v :=
  ⟨hv, fun _ hj => (Nat.lt_of_lt_of_le hj hk).ne, rfl⟩

/-- The pages with the numbers of the frames that are still free come in. -/
theorem Pictured.fills {k : ℕ} (h : Pictured (.filled k) s) : ∀ n, k ≤ n → n ≤ numPhysPages →
    ∃ u, Quietly bigProcess s u ∧ Pictured (.filled n) u := by
  intro n hk
  induction n, hk using Nat.le_induction with
  | base => exact fun _ => ⟨s, .refl, h⟩
  | succ n hn ih =>
    intro hle
    obtain ⟨u, hquiet, hpictured⟩ := ih (by omega)
    have hlt : n < 4898 := by
      unfold numPhysPages at hle
      omega
    obtain ⟨w, hquiet', hpictured', -⟩ := hpictured.fetch (fresh_filled le_rfl hlt) hle
    rw [Picture.fetch_filled] at hpictured'
    exact ⟨w, hquiet.trans hquiet', hpictured'⟩

/-- A write to a page without content that the TLB shows. -/
theorem Pictured.write (h : Pictured p s) (hslot : SlotOf s f) (hne : p.page f ≠ 0)
    (hlt : p.page f < 4898) (c : UInt8) :
    ∃ u, step bigProcess s (.write (p.page f * pageSize) [c]) = .ok (u, some []) ∧ Pictured p u := by
  obtain ⟨i₀, hvalid₀, hphys₀⟩ := hslot
  have hpage₀ : (s.tlb i₀).virtualPage = p.page f := by
    obtain ⟨j, -, -, hpage, hphys, -⟩ := h.shown i₀ hvalid₀
    rw [hpage, ← hphys, hphys₀]
  obtain ⟨i, hfind⟩ : ∃ i, findTLB s (p.page f) = some i := by
    rw [← Option.isSome_iff_exists, findTLB, List.find?_isSome]
    exact ⟨i₀, List.mem_finRange i₀, by simp [hvalid₀, hpage₀]⟩
  have hi := List.find?_some hfind
  simp only [Bool.and_eq_true, decide_eq_true_eq] at hi
  obtain ⟨j, hj, -, hpage, hphys, hro, hdirty⟩ := h.shown i hi.1
  have hdiv : p.page f * pageSize / pageSize = p.page f := Nat.mul_div_cancel _ (by decide)
  have hmod : p.page f * pageSize % pageSize = 0 := Nat.mul_mod_left _ _
  have hmax : p.page f * pageSize < 2 ^ 31 := by
    unfold pageSize
    omega
  have hbus : ¬ (s.tlb i).physicalPage ≥ numPhysPages := by
    have := h.frames
    omega
  have hmarked : (s.tlb i).dirty = true := by
    rw [hdirty, ← hpage, hi.2]
    simpa using hne
  refine ⟨{ s.setTLB i { s.tlb i with use := true, dirty := (s.tlb i).dirty || true } with
    mainMemory := copyTo s.mainMemory ((s.tlb i).physicalPage * pageSize + 0) 1
      fun k => [c].getD k 0 },
    ?_, ⟨⟨h.idle.phase, h.idle.iptLock, h.idle.pageTableLock, h.idle.use⟩,
      ⟨h.holds.valid, h.holds.entry, h.holds.bitmap, h.holds.swapMap, h.holds.table⟩, ?_, h.frames⟩⟩
  · simp only [step, writeMem, access, translate, h.idle.phase, hdiv, hmod, hfind, hro, hmax]
    simp [hbus]
    rfl
  · intro k hk
    by_cases hki : k = i
    · subst hki
      refine ⟨j, hj, by simp, ?_⟩
      simpa [State.setTLB, hmarked] using
        ⟨hpage, hphys, hro, of_decide_eq_true (hdirty.symm.trans hmarked)⟩
    · have hsame : (s.setTLB i { s.tlb i with use := true, dirty := (s.tlb i).dirty || true }).tlb k =
          s.tlb k := by simp [State.setTLB, hki]
      simp only [hsame] at hk ⊢
      exact h.shown k hk

/-! A modified page that is kept. -/

/-- A run that writes to page 1 and fills the frames. -/
theorem exists_written : ∃ tr s,
    Execution (Handles (step bigProcess)) (initial bigProcess false) tr s ∧
    (∀ x ∈ tr, EvictsSafely bigProcess x) ∧ lastWritten bigProcess tr 0 128 = some 5 ∧
    Pictured (.filled numPhysPages) s := by
  obtain ⟨s₁, hquiet₁, h₁⟩ := (pictured_initial false).fills 1 (by decide) (by decide)
  obtain ⟨s₂, hquiet₂, h₂, hslot⟩ := h₁.fetch (fresh_filled le_rfl (by decide)) (by decide)
  rw [Picture.fetch_filled] at h₂
  obtain ⟨s₃, hstep, h₃⟩ := h₂.write (f := 1) hslot (by decide) (by decide) 5
  obtain ⟨s₄, hquiet₄, h₄⟩ := h₃.fills numPhysPages (by decide) le_rfl
  obtain ⟨tr₂, hex₂, hrest₂⟩ := Quietly.extends (hquiet₁.trans hquiet₂)
    (.start : Execution (Handles (step bigProcess)) (initial bigProcess false) [] _)
  have hwrite : Handles (step bigProcess) s₂ (.write 128 [5], some []) s₃ := hstep
  obtain ⟨tr₄, hex₄, hrest₄⟩ := Quietly.extends hquiet₄ (hex₂.extend hwrite)
  refine ⟨_, s₄, hex₄, fun x hx => ?_, ?_, h₄⟩
  · rcases List.mem_append.mp hx with hx | hx
    · rcases List.mem_append.mp hx with hx | hx
      · exact (hrest₂ x (by simpa using hx)).1
      · obtain rfl := List.mem_singleton.mp hx
        rintro random v f list ⟨⟩
    · exact (hrest₄ x hx).1
  · rw [lastWritten_append fun x hx => (hrest₄ x hx).2 0 128]
    simp [lastWritten, wrote, bigProcess]

/-- A page is written to, and later leaves its frame. -/
theorem coherence_after_eviction : ∃ tr s,
    Execution (Handles (step bigProcess)) (initial bigProcess false) tr s ∧
    (∀ x ∈ tr, EvictsSafely bigProcess x) ∧ lastWritten bigProcess tr 0 128 = some 5 ∧
    (∃ e, (s.pageTable 0)[1]? = some e ∧ e.location = .inSwap) ∧
    ∀ pre x post, tr = pre ++ x :: post →
      ReadsRight bigProcess pre x ∧ PageKept bigProcess pre x := by
  obtain ⟨tr, s, hex, hsafe, hwritten, hfull⟩ := exists_written
  obtain ⟨u, hquiet, hu⟩ := hfull.replace (f := 1) (v := numPhysPages) rfl (by decide) (by decide)
    (by decide) (by decide) (by decide) (fresh_filled le_rfl (by decide))
  obtain ⟨rest, hex', hrest⟩ := hquiet.extends hex
  have hsafe' : ∀ x ∈ tr ++ rest, EvictsSafely bigProcess x := fun x hx =>
    (List.mem_append.mp hx).elim (hsafe x) fun hx => (hrest x hx).1
  obtain ⟨e, he, hloc, -⟩ := hu.holds.table 1 (by decide)
  exact ⟨tr ++ rest, u, hex', hsafe',
    (lastWritten_append (fun x hx => (hrest x hx).2 0 128) tr).trans hwritten, ⟨e, he, hloc⟩,
    memory_coherence hex' hsafe'⟩

/-! A modified page that is dropped. -/

/-- Only the slot before the next one to be filled is in use; it shows the code page. -/
structure ShowsCode (s : State Bool ℕ) (i : Fin tlbSize) : Prop where
  next : (s.tlb s.currentTLB).valid = false
  valid : (s.tlb i).valid = true
  page : (s.tlb i).virtualPage = 0
  frame : (s.tlb i).physicalPage = 0
  others : ∀ j, j ≠ i → (s.tlb j).valid = false

theorem fillTLB_next (s : State Bool ℕ) (f : ℕ) :
    (fillTLB bigProcess s f).currentTLB = s.currentTLB + 1 := by
  unfold fillTLB
  dsimp only
  rw [copyDirty_frame]
  rfl

/-- The slot of the code page, when all were empty. -/
theorem Holds.showsCode (h : Holds (.filled numPhysPages) none s) (hoff : ∀ i, (s.tlb i).valid = false) :
    ShowsCode (fillTLB bigProcess s 0) s.currentTLB := by
  have hfill := filled_fillTLB bigProcess s 0
  obtain ⟨b, hshown⟩ := hfill.shown
  have hagree : SlotsAgree s := fun i hi => by simp [hoff i] at hi
  rw [hagree.copyDirty] at hshown
  obtain ⟨hpage, hphys, -⟩ := h.entry 0 (by decide) (by simp)
  have hothers : ∀ j, j ≠ s.currentTLB → ((fillTLB bigProcess s 0).tlb j).valid = false := by
    intro j hj
    obtain ⟨c, hkept⟩ := hfill.kept j hj
    rw [hkept]
    exact hoff j
  refine ⟨hothers _ ?_, by rw [hshown], by rw [hshown]; exact hpage, by rw [hshown]; exact hphys,
    hothers⟩
  rw [fillTLB_next]
  generalize s.currentTLB = k
  revert k
  decide

/-- After a context switch the other thread comes to the code page. -/
theorem Pictured.shows_code (h : Pictured (.filled numPhysPages) s)
    (hoff : ∀ i, (s.tlb i).valid = false) :
    ∃ u i, Quietly bigProcess s u ∧ Pictured (.filled numPhysPages) u ∧ ShowsCode u i := by
  have hmiss : findTLB s 0 = none := by
    rw [findTLB, List.find?_eq_none]
    simp [hoff]
  obtain ⟨hpage, -, hspace, -⟩ := h.holds.entry 0 (by decide) (by simp)
  have hpage' : (s.ipt 0).virtualPage = 0 := hpage
  have hsome : findResident bigProcess s 0 = some 0 := by
    rw [findResident, List.find?_range_eq_some]
    refine ⟨?_, List.mem_range.mpr (by decide), by simp⟩
    have hvalid : (s.ipt 0).valid = true := (h.holds.valid 0 (by simp)).trans (by decide)
    simp [hvalid, hpage', hspace, h.idle.use 0, bigProcess]
  have htaken : Holds (.filled numPhysPages) none (takenOut s 0 s.tlb) := h.holds.taken s.tlb
  have hholds : Holds (.filled numPhysPages) none
      (inHandler bigProcess (setUse s 0 true) (.found 0 0) false) :=
    ⟨htaken.valid, htaken.entry, htaken.bitmap, htaken.swapMap, htaken.table⟩
  have huse : ∀ g, g ≠ 0 → ((setUse s 0 true).ipt g).use = false := by
    intro g hg
    rw [show (setUse s 0 true).ipt g = s.ipt g by simp [setUse, State.setIPT, hg]]
    exact h.idle.use g
  obtain ⟨hpictured, -⟩ := hholds.fill (f := 0) h.shown (by decide) le_rfl
    (serving_inHandler h.idle.phase h.idle.pageTableLock huse)
  exact ⟨_, _, (h.idle.searching hmiss (by decide) (a := .read (0 * pageSize) 1) (.inl rfl)).trans
    (quietly_resident hsome), hpictured, hholds.showsCode hoff⟩

/-- A write to the code page. -/
theorem ShowsCode.write {i : Fin tlbSize} (hi : ShowsCode s i)
    (h : Pictured (.filled numPhysPages) s) :
    ∃ u, step bigProcess s (.write 0 [1]) = .ok (u, some []) ∧ ShowsCode u i ∧ Idle u ∧
      Holds (.filled numPhysPages) none u := by
  have hfind : findTLB s 0 = some i := by
    obtain ⟨j, hj⟩ : ∃ j, findTLB s 0 = some j := by
      rw [← Option.isSome_iff_exists, findTLB, List.find?_isSome]
      exact ⟨i, List.mem_finRange _, by simp [hi.valid, hi.page]⟩
    have hvalid := List.find?_some hj
    simp only [Bool.and_eq_true] at hvalid
    rw [hj]
    by_contra hne
    simp [hi.others j fun he => hne (by rw [he])] at hvalid
  obtain ⟨j, -, -, -, -, hreadOnly, -⟩ := h.shown i hi.valid
  have hnext : s.currentTLB ≠ i := by
    rintro he
    exact Bool.false_ne_true ((he ▸ hi.next).symm.trans hi.valid)
  refine ⟨{ s.setTLB i { s.tlb i with use := true, dirty := (s.tlb i).dirty || true } with
      mainMemory := copyTo s.mainMemory 0 1 fun k => [1].getD k 0 }, ?_, ⟨?_, ?_, ?_, ?_, ?_⟩,
    ⟨h.idle.phase, h.idle.iptLock, h.idle.pageTableLock, h.idle.use⟩,
    ⟨h.holds.valid, h.holds.entry, h.holds.bitmap, h.holds.swapMap, h.holds.table⟩⟩
  · simp [step, writeMem, access, translate, h.idle.phase, hfind, hreadOnly, hi.frame, numPhysPages]
    rfl
  · simpa [State.setTLB, hnext] using hi.next
  · simp [State.setTLB, hi.valid]
  · simp [State.setTLB, hi.page]
  · simp [State.setTLB, hi.frame]
  · intro k hk
    simpa [State.setTLB, hk] using hi.others k hk

/-- The loop of `Evict` does not see the dirty bit. -/
theorem ShowsCode.evicted {i : Fin tlbSize} (hi : ShowsCode s i) (hidle : Idle s)
    (h : Holds (.filled numPhysPages) none s) :
    ∃ w u, Quietly bigProcess s w ∧ step bigProcess w (.handle 0) = .ok (u, none) ∧
      u.phase u.currentThread = .evicting numPhysPages 0 ∧ (u.ipt 0).dirty = false ∧
      (u.ipt 0).virtualPage = 0 ∧ (u.ipt 0).space = some 0 ∧ u.pageTable = s.pageTable := by
  have hmiss : findTLB s numPhysPages = none := by
    rw [findTLB, List.find?_eq_none]
    intro j _ hj
    simp only [Bool.and_eq_true, decide_eq_true_eq] at hj
    by_cases hji : j = i
    · rw [hji, hi.page] at hj
      exact absurd hj.2 (by decide)
    · simp [hi.others j hji] at hj
  have hnone : findResident bigProcess s numPhysPages = none := by
    rw [findResident, List.find?_eq_none]
    intro j hj
    have hlt := List.mem_range.mp hj
    have hpage : (s.ipt j).virtualPage = j := (h.entry j hlt (by simp)).1
    simp [hpage, hlt.ne']
  have hmap : bitMapFind s.mainMemoryBitmap numPhysPages = none := by
    rw [bitMapFind, List.find?_eq_none]
    intro j hj
    have hbit : s.mainMemoryBitmap j = decide (j < numPhysPages) := h.bitmap j
    simp [hbit, List.mem_range.mp hj]
  have hvictim : chooseVictim bigProcess s 0 = some (0, s.evictionList) := by
    simp [chooseVictim, bigProcess, hidle.use 0]
  obtain ⟨hpage, -, hspace, -, hdirty⟩ := h.entry 0 (by decide) (by simp)
  set w := inHandler bigProcess s (.choosing numPhysPages) true with hw
  set t := setUse { w with evictionList := s.evictionList } 0 true with ht
  have honce := evictFromTLB_one (s := t) (f := 0) (i := i) ⟨hi.frame, hi.valid⟩
    (fun j _ hj => by
      by_contra hji
      exact Bool.false_ne_true ((hi.others j hji).symm.trans hj))
  have hslot : evictSlot 0 t i = t.invalidate i := by
    have hnext : (t.tlb t.currentTLB).valid = false := hi.next
    rw [evictSlot, if_pos ⟨hi.frame, hi.valid⟩, hnext]
    rfl
  have hipt : t.ipt 0 = { s.ipt 0 with use := true } := by
    simp [ht, hw, setUse, State.setIPT, inHandler]
  have hstep := handle_evict (v := numPhysPages) hmap hvictim
  rw [← hw, ← ht, honce, hslot] at hstep
  refine ⟨w, (t.invalidate i).setPhase (.evicting numPhysPages 0),
    (hidle.searching hmiss (by decide) (a := .read (numPhysPages * pageSize) 1) (.inl rfl)).trans
      (quietly_choosing hnone), by simp only [step, hstep, Except.map], ?_, ?_, ?_, ?_, rfl⟩
  · simp [State.setPhase]
  · exact (congrArg (fun e => e.dirty) hipt).trans hdirty
  · exact (congrArg (fun e => e.virtualPage) hipt).trans hpage
  · exact (congrArg (fun e => e.space) hipt).trans hspace

/-- The written byte is nowhere: the code page leaves its frame, and the executable still has the
old byte. -/
theorem modified_page_dropped : ∃ tr s,
    Execution (Handles (step bigProcess)) (initial bigProcess false) tr s ∧
    ¬ ∀ pre x post, tr = pre ++ x :: post →
      ReadsRight bigProcess pre x ∧ PageKept bigProcess pre x := by
  obtain ⟨tr₁, s₁, hex₁, -, -, h₁⟩ := exists_written
  obtain ⟨tlb, hswitch, hoff⟩ := (h₁.holds.slotsAgree h₁.shown).contextSwitch true
  set s₂ : State Bool ℕ := { s₁ with currentThread := true, tlb := tlb } with hs₂
  have hex₂ := hex₁.extend (e := (.contextSwitch true, none)) (t := s₂)
    (by simp [Handles, step, hswitch])
  have h₂ : Pictured (.filled numPhysPages) s₂ :=
    ⟨⟨h₁.idle.phase, h₁.idle.iptLock, h₁.idle.pageTableLock, h₁.idle.use⟩,
    ⟨h₁.holds.valid, h₁.holds.entry, h₁.holds.bitmap, h₁.holds.swapMap, h₁.holds.table⟩,
    fun i hi => by simp [hs₂, hoff i] at hi, h₁.frames⟩
  obtain ⟨s₃, i, hquiet₃, h₃, hcode⟩ := h₂.shows_code hoff
  obtain ⟨s₄, hwrite, hcode', hidle₄, h₄⟩ := hcode.write h₃
  obtain ⟨rest₃, hex₃, -⟩ := hquiet₃.extends hex₂
  have hhandles : Handles (step bigProcess) s₃ (.write 0 [1], some []) s₄ := hwrite
  have hex₄ := hex₃.extend hhandles
  obtain ⟨s₅, u, hquiet₅, hevict, hp, hclean, hpage, hspace, htable⟩ := hcode'.evicted hidle₄ h₄
  obtain ⟨rest₅, hex₅, hrest₅⟩ := hquiet₅.extends hex₄
  have hhandles' : Handles (step bigProcess) s₅ (.handle 0, none) u := hevict
  have hex := hex₅.extend hhandles'
  set tr := _ ++ [(⟨s₅, (.handle 0, none), u⟩ : PagingStep Bool ℕ)] with htr
  have hwritten : lastWritten bigProcess tr 0 0 = some 1 := by
    rw [htr, lastWritten_append fun x hx => by rw [List.mem_singleton.mp hx]; rfl,
      lastWritten_append fun x hx => (hrest₅ x hx).2 0 0]
    simp [lastWritten, List.foldl_append, wrote, bigProcess]
  set t := releaseIPTLock (setUse u 0 true) (.loading numPhysPages 0) with ht
  have hstep : Handles (step bigProcess) u (.handle 0, none) t := by
    have hfinish : finishEviction u numPhysPages 0 = .ok t := by
      unfold finishEviction
      rw [hclean]
      rfl
    have hhandle : handlePageFault bigProcess u 0 = .ok t := by
      unfold handlePageFault
      simp only [hp, hfinish]
    simp [Handles, step, hhandle, Except.map]
  refine ⟨_, t, hex.extend hstep, fun hall => ?_⟩
  obtain ⟨-, hkept⟩ := hall tr _ [] rfl
  have hexpected : expected bigProcess tr 0 ((u.ipt 0).virtualPage * pageSize + 0) = some 1 := by
    rw [hpage]
    simp [expected, hwritten]
  have hstored := hkept 0 numPhysPages 0 0 rfl hp hspace ⟨0, by decide⟩ 1 hexpected
  obtain ⟨e, he, hloc, hoff'⟩ := h₄.table 0 (by decide)
  have hentry : (t.pageTable 0)[0]? = some e := htable ▸ he
  dsimp only at hstored
  rw [hpage, storedPage, hentry, Option.bind_some, show e.location = .inExecutable from hloc,
    hoff' rfl] at hstored
  simp [bigProcess, bigProgram] at hstored

end Nachos.Paging
