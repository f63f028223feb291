import Nachos.KernelPagingPages

/-! The page that comes into a frame, and the slot of the TLB that shows it. -/
namespace Nachos.Paging
open Executions WriteBack

variable {Thread Space : Type*} [DecidableEq Thread] [DecidableEq Space]
  {cfg : Config Thread Space} {s u : State Thread Space} {v f : ℕ}

/-- The page of the frame and its entries, the frame still kept. -/
structure Loaded (cfg : Config Thread Space) (s u : State Thread Space) (v f : ℕ)
    (e : PageTableEntry) : Prop where
  frame : ∃ memory table ipt list, u =
    { s with mainMemory := memory, pageTable := table, ipt := ipt, evictionList := list }
  listed : (s.pageTable (cfg.spaceOf s.currentThread))[v]? = some e
  memory : u.mainMemory = readPage cfg s (cfg.spaceOf s.currentThread) e f
  entry : ∃ e', e'.location = e.location ∧ e'.offset = e.offset ∧ ∀ k : Space × ℕ,
    (u.pageTable k.1)[k.2]? = if k = (cfg.spaceOf s.currentThread, v) then some e'
      else (s.pageTable k.1)[k.2]?
  ipt : u.ipt f = { s.ipt f with
    space := some (cfg.spaceOf s.currentThread), virtualPage := v, physicalPage := f, valid := true,
    dirty := decide (e.location = .uninit), readOnly := false }
  others : ∀ g, g ≠ f → u.ipt g = s.ipt g
  list : ∀ g ∈ u.evictionList, g = f ∨ g ∈ s.evictionList
  fifo : cfg.evictionPolicy = .fifo → u.evictionList = s.evictionList ++ [f]

omit [DecidableEq Thread] in
theorem handleIPTMiss_spec (hs : handleIPTMiss cfg s v f = .ok u) : ∃ e, Loaded cfg s u v f e := by
  unfold handleIPTMiss at hs
  dsimp only at hs
  split at hs
  · cases hs
  · rename_i e he
    obtain rfl := Except.ok.inj hs
    refine ⟨e, ⟨⟨_, _, _, _, rfl⟩, he, rfl, ?_, ?_, fun g hg => ?_, fun g hg => ?_,
      fun hp => if_pos hp⟩⟩
    · exact ⟨{ e with
        virtualPage := v, physicalPage := f, valid := true, dirty := decide (e.location = .uninit),
        readOnly := false }, rfl, rfl,
        fun k => getElem?_updatePage (s := { s with
          ipt := _, mainMemory := _, evictionList := _ }) he k⟩
    · simp [updatePage, State.setIPT]
    · simp [updatePage, State.setIPT, hg]
    · have hg' : g ∈ (if cfg.evictionPolicy = EvictionPolicy.fifo then s.evictionList ++ [f]
          else s.evictionList) := hg
      split_ifs at hg' with hpolicy
      · rcases List.mem_append.mp hg' with hg' | hg'
        · exact Or.inr hg'
        · exact Or.inl (List.mem_singleton.mp hg')
      · exact Or.inr hg'

namespace Loaded
variable {e : PageTableEntry}

omit [DecidableEq Thread] in
theorem swapPlace (h : Loaded cfg s u v f e) : swapPlace? u = swapPlace? s := by
  obtain ⟨e', hl, ho, hk⟩ := h.entry
  funext k
  rw [swapPlace?, swapPlace?, hk]
  split_ifs with hkv
  · rw [hkv, h.listed]
    simp [hl, ho]
  · rfl

omit [DecidableEq Thread] in
theorem swapInv (hs : SwapInv s) (h : Loaded cfg s u v f e) : SwapInv u := by
  obtain ⟨memory, table, ipt, list, he⟩ := h.frame
  have hmap : u.swapMap = s.swapMap := by rw [he]
  refine ⟨fun k o hk => ?_, fun k k' o hk hk' => ?_⟩
  · rw [h.swapPlace] at hk
    rw [hmap]
    exact hs.place k o hk
  · rw [h.swapPlace] at hk hk'
    exact hs.apart k k' o hk hk'

omit [DecidableEq Thread] in
theorem stored (h : Loaded cfg s u v f e) : storedPage cfg u = storedPage cfg s := by
  obtain ⟨memory, table, ipt, list, he⟩ := h.frame
  have hfile : u.swapFile = s.swapFile := by rw [he]
  obtain ⟨e', hl, ho, hk⟩ := h.entry
  funext k o
  rw [storedPage, storedPage, hk, hfile]
  split_ifs with hkv
  · rw [hkv, h.listed]
    simp [hl, ho]
  · rfl

omit [DecidableEq Thread] in
theorem memory_self (h : Loaded cfg s u v f e) {o : Fin pageSize} {b : UInt8}
    (hb : storedPage cfg s (cfg.spaceOf s.currentThread, v) o = some b) :
    u.mainMemory (f * pageSize + o) = b := by
  rw [storedPage, h.listed, Option.bind_some] at hb
  rw [h.memory, readPage]
  cases hl : e.location with
  | inExecutable =>
    simp only [hl] at hb ⊢
    rw [copyTo_in o.isLt, hb]
    rfl
  | inSwap =>
    simp only [hl] at hb ⊢
    rw [copyTo_in o.isLt]
    exact Option.some.inj hb
  | inMemory => simp [hl] at hb
  | uninit => simp [hl] at hb

omit [DecidableEq Thread] in
/-- What neither file has is left as it was. -/
theorem memory_rest (h : Loaded cfg s u v f e) {o : Fin pageSize}
    (hnone : storedPage cfg s (cfg.spaceOf s.currentThread, v) o = none) :
    u.mainMemory (f * pageSize + o) = s.mainMemory (f * pageSize + o) := by
  rw [storedPage, h.listed, Option.bind_some] at hnone
  rw [h.memory, readPage]
  cases hl : e.location with
  | inExecutable =>
    simp only [hl] at hnone ⊢
    rw [copyTo_in o.isLt, hnone]
    rfl
  | inSwap => simp [hl] at hnone
  | _ => rfl

omit [DecidableEq Thread] in
theorem memory_other (h : Loaded cfg s u v f e) {g : ℕ} (hg : g ≠ f) (o : Fin pageSize) :
    u.mainMemory (g * pageSize + o) = s.mainMemory (g * pageSize + o) := by
  rw [h.memory, readPage]
  cases e.location with
  | inExecutable => exact copyTo_out (page_apart hg o)
  | inSwap => exact copyTo_out (page_apart hg o)
  | _ => rfl

end Loaded

/-- The page is in its frame, as the invariants see it; the handler has found it. -/
structure BroughtIn (cfg : Config Thread Space) (s w : State Thread Space) (v f : ℕ) : Prop where
  called : s.phase s.currentThread = .loading v f
  thread : w.currentThread = s.currentThread
  tlb : w.tlb = s.tlb
  bitmap : w.mainMemoryBitmap = s.mainMemoryBitmap
  phase : ∀ t, w.phase t = if t = s.currentThread then .found v f else s.phase t
  entry : ∃ dirty, w.ipt f = { s.ipt f with
    space := some (cfg.spaceOf s.currentThread), virtualPage := v, physicalPage := f, valid := true,
    dirty := dirty, readOnly := false }
  others : ∀ g, g ≠ f → w.ipt g = s.ipt g
  table : ∃ e', ∀ k : Space × ℕ, (w.pageTable k.1)[k.2]? =
    if k = (cfg.spaceOf s.currentThread, v) then some e' else (s.pageTable k.1)[k.2]?
  listed : ∀ g ∈ w.evictionList, g = f ∨ g ∈ s.evictionList

theorem Loaded.broughtIn {e : PageTableEntry} (hp : s.phase s.currentThread = .loading v f)
    (hload : Loaded cfg s u v f e) : BroughtIn cfg s (u.setPhase (.found v f)) v f := by
  obtain ⟨memory, table, ipt, list, he⟩ := hload.frame
  obtain ⟨e', -, -, hk⟩ := hload.entry
  refine ⟨hp, ?_, ?_, ?_, fun t => ?_, ⟨_, hload.ipt⟩, hload.others, ⟨e', hk⟩, hload.list⟩
  · rw [he]
    rfl
  · rw [he]
    rfl
  · rw [he]
    rfl
  · rw [he]
    exact setPhase_phase _ _ t

namespace BroughtIn
variable {w : State Thread Space}

/-- Who is elsewhere in the handler was there before. -/
theorem before (hb : BroughtIn cfg s w v f) {t : Thread} {q : Phase} (hq : w.phase t = q)
    (hne : q ≠ .found v f) : t ≠ s.currentThread ∧ s.phase t = q := by
  rw [hb.phase] at hq
  split_ifs at hq with ht
  · exact absurd hq.symm hne
  · exact ⟨ht, hq⟩

theorem pins (hb : BroughtIn cfg s w v f) : (s.phase s.currentThread).pinned? = some f := by
  simp [hb.called, Phase.pinned?]

theorem pinned (hb : BroughtIn cfg s w v f) (t : Thread) :
    (w.phase t).pinned? = (s.phase t).pinned? := by
  rw [hb.phase]
  split_ifs with ht
  · rw [ht, hb.called]
    rfl
  · rfl

theorem loads_self (hb : BroughtIn cfg s w v f) (h : Inv cfg s) (t : Thread) :
    (w.phase t).loads? ≠ some f := by
  intro ht
  have hpt := hb.pinned t ▸ Phase.pinned?_of_loads? ht
  obtain rfl := h.frame.pinnedOnce t _ f hpt hb.pins
  rw [hb.phase, if_pos rfl] at ht
  cases ht

theorem loads_other (hb : BroughtIn cfg s w v f) {g : ℕ} (hg : g ≠ f) :
    (∀ t, (w.phase t).loads? ≠ some g) ↔ ∀ t, (s.phase t).loads? ≠ some g := by
  refine forall_congr' fun t => not_congr ?_
  rw [hb.phase]
  split_ifs with ht
  · rw [ht, hb.called]
    simp [Phase.loads?, hg.symm]
  · exact Iff.rfl

theorem line_other (hb : BroughtIn cfg s w v f) {g : ℕ} (hg : g ≠ f) :
    (cacheOf cfg w).line g = (cacheOf cfg s).line g :=
  line_congr (by rw [hb.others g hg]) (by rw [hb.others g hg]) (by rw [hb.others g hg])
    (hb.loads_other hg)

theorem line_self (hb : BroughtIn cfg s w v f) (h : Inv cfg s) :
    (cacheOf cfg w).line f = some (cfg.spaceOf s.currentThread, v) := by
  obtain ⟨_, hentry⟩ := hb.entry
  rw [line_eq_some, hentry]
  exact ⟨rfl, hb.loads_self h, rfl, rfl⟩

/-- The frame was no line while the page was on its way. -/
theorem line_before (hb : BroughtIn cfg s w v f) : (cacheOf cfg s).line f = none := by
  by_contra hne
  obtain ⟨k, hk⟩ := Option.ne_none_iff_exists'.mp hne
  exact (line_eq_some.mp hk).2.1 s.currentThread (by simp [hb.called, Phase.loads?])

theorem noSlot (hb : BroughtIn cfg s w v f) (h : Inv cfg s) {i : Fin tlbSize}
    (hi : (s.tlb i).valid = true) : (s.tlb i).physicalPage ≠ f := by
  rintro rfl
  have hl := (h.tlb.slot i hi).line
  rw [hb.line_before] at hl
  cases hl

theorem frameInv (hb : BroughtIn cfg s w v f) (h : Inv cfg s) : FrameInv w := by
  obtain ⟨_, hentry⟩ := hb.entry
  refine ⟨fun t g ht => ?_, fun t t' g ht ht' =>
    h.frame.pinnedOnce t t' g (hb.pinned t ▸ ht) (hb.pinned t' ▸ ht'), fun g hg => ?_,
    fun g hg => ?_, fun g hlt hbit => ?_, fun g hg => ?_, fun t x g ht => ?_⟩
  · obtain ⟨hlt, hu, hbit⟩ := h.frame.pinned t g (hb.pinned t ▸ ht)
    refine ⟨hlt, ?_, hb.bitmap ▸ hbit⟩
    by_cases hgf : g = f
    · subst hgf
      rw [hentry]
      exact hu
    · rwa [hb.others g hgf]
  · have hu : (s.ipt g).use = true := by
      by_cases hgf : g = f
      · subst hgf
        rwa [hentry] at hg
      · rwa [hb.others g hgf] at hg
    simpa only [hb.pinned] using h.frame.used g hu
  · obtain ⟨e', hk⟩ := hb.table
    rw [hb.bitmap]
    by_cases hgf : g = f
    · subst hgf
      obtain ⟨hlt, -, hbit⟩ := h.frame.pinned _ g hb.pins
      rw [hentry]
      exact ⟨hbit, hlt, rfl, _, e', rfl, (hk (cfg.spaceOf s.currentThread, v)).trans (if_pos rfl)⟩
    · rw [hb.others g hgf] at hg ⊢
      obtain ⟨hbit, hlt, hphys, a, e₀, hspace, he₀⟩ := h.frame.valid g hg
      refine ⟨hbit, hlt, hphys, a, ?_⟩
      by_cases hka : (a, (s.ipt g).virtualPage) = (cfg.spaceOf s.currentThread, v)
      · exact ⟨e', hspace, (hk (a, (s.ipt g).virtualPage)).trans (if_pos hka)⟩
      · exact ⟨e₀, hspace, ((hk (a, (s.ipt g).virtualPage)).trans (if_neg hka)).trans he₀⟩
  · by_cases hgf : g = f
    · exact Or.inl (by rw [hgf, hentry])
    · rw [hb.others g hgf]
      refine (h.frame.allocated g hlt (hb.bitmap ▸ hbit)).imp id fun hl => ?_
      by_contra hnone
      push Not at hnone
      obtain ⟨t, ht⟩ := hl
      exact (hb.loads_other hgf).mp hnone t ht
  · rcases hb.listed g hg with rfl | hg
    · exact (h.frame.pinned _ g hb.pins).1
    · exact h.frame.listed g hg
  · by_cases hgf : g = f
    · rw [hgf, hentry]
    · rw [hb.others g hgf]
      exact h.frame.victim t x g (hb.before ht (by simp)).2

theorem lineInv (hb : BroughtIn cfg s w v f) (h : Inv cfg s) : LineInv cfg w := by
  refine ⟨fun t x g ht => ?_, fun t x ht g hk => ?_⟩
  · by_cases hq : Phase.found x g = .found v f
    · obtain ⟨rfl, rfl⟩ := Phase.found.inj hq
      have hpt := hb.pinned t ▸ (show (w.phase t).pinned? = some g by simp [ht, Phase.pinned?])
      obtain rfl := h.frame.pinnedOnce t _ g hpt hb.pins
      exact hb.line_self h
    · obtain ⟨hne, hfound⟩ := hb.before ht hq
      have hg : g ≠ f := by
        rintro rfl
        exact hne (h.frame.pinnedOnce t _ g (by simp [hfound, Phase.pinned?]) hb.pins)
      rw [hb.line_other hg]
      exact h.line.found t x g hfound
  · rw [hb.phase] at ht
    split_ifs at ht with hc
    · cases ht
    · by_cases hgf : g = f
      · rw [hgf, hb.line_self h] at hk
        obtain ⟨ha, -⟩ := Prod.mk.inj (Option.some.inj hk)
        refine hc (h.table_unique ?_ (by simp [hb.called, Phase.holdsTable]) ha.symm)
        cases hq : s.phase t <;> simp_all [Phase.seeks?, Phase.holdsTable]
      · exact h.line.seeks t x ht g (hb.line_other hgf ▸ hk)

theorem tlbInv (hb : BroughtIn cfg s w v f) (h : Inv cfg s) : TLBInv cfg w := by
  refine ⟨fun i hi => ?_, hb.tlb ▸ h.tlb.once, fun x hx => ?_⟩
  · rw [hb.tlb] at hi
    have hs := h.tlb.slot i hi
    refine ⟨?_, fun hd => ?_, fun t x ht => ?_⟩
    · rw [hb.tlb, hb.thread, hb.line_other (hb.noSlot h hi)]
      exact hs.line
    · rw [hb.tlb] at hd ⊢
      rw [hb.others _ (hb.noSlot h hi)] at hd
      exact hs.dirty hd
    · rw [hb.tlb] at ht
      exact hs.kept t x (hb.before ht (by simp)).2
  · rw [hb.tlb]
    refine h.tlb.fault x ?_
    rw [hb.thread, hb.phase, if_pos rfl] at hx
    rw [hb.called]
    exact hx

end BroughtIn

/-- The page is a line from now on; the handler has found it. -/
theorem Inv.load_page (h : Inv cfg s) (hp : s.phase s.currentThread = .loading v f)
    (hs : handleIPTMiss cfg s v f = .ok u) :
    Inv cfg (u.setPhase (.found v f)) ∧
      Loads (cacheOf cfg s) (cacheOf cfg (u.setPhase (.found v f))) f
        (cfg.spaceOf s.currentThread, v) := by
  obtain ⟨e, hload⟩ := handleIPTMiss_spec hs
  obtain ⟨memory, table, ipt, list, he⟩ := hload.frame
  have hb := hload.broughtIn hp
  have habsent : ∀ g, (cacheOf cfg s).line g ≠ some (cfg.spaceOf s.currentThread, v) :=
    h.line.seeks s.currentThread v (by simp [hp, Phase.seeks?])
  have hlock : LockInv cfg (u.setPhase (.found v f)) := by
    have hl := LockInv.set cfg (s := s) (p := .found v f) (l := s.iptLock)
      (m := s.pageTableLock) (fun _ => h.lock.table _ (by simp [hp, Phase.holdsTable]))
      (by simp [Phase.holdsIPT]) (fun t _ ht => h.lock.table t ht) fun t _ ht => h.lock.ipt t ht
    rw [he]
    exact ⟨hl.table, hl.ipt⟩
  have hswap := hload.swapInv h.swap
  refine ⟨⟨hlock, hb.frameInv h, hb.lineInv h, hb.tlbInv h, ⟨hswap.place, hswap.apart⟩⟩,
    hb.line_before, habsent, hb.line_self h, fun o b hb => hload.memory_self hb,
    fun g hg => ⟨hb.line_other hg, fun _ => ⟨?_, ?_⟩⟩, hload.stored⟩
  · funext o
    exact hload.memory_other hg o
  · rw [Bool.eq_iff_iff, dirty_eq_true, dirty_eq_true, hb.tlb, hb.others g hg]

/-! The end of the handler. -/

structure Filled (cfg : Config Thread Space) (s u : State Thread Space) (f : ℕ) : Prop where
  frame : ∃ tlb slot ipt, u = { s with
    tlb := tlb, currentTLB := slot, ipt := ipt
    pageTableLock := Function.update s.pageTableLock (cfg.spaceOf s.currentThread) none }.setPhase
      .user
  shown : ∃ b, u.tlb s.currentTLB =
    { ((s.copyDirty s.currentTLB).ipt f).toTranslationEntry with valid := true, use := b }
  kept : ∀ j, j ≠ s.currentTLB → ∃ b, u.tlb j = { s.tlb j with use := b }
  ipt : ∀ g, u.ipt g = if g = f then { (s.copyDirty s.currentTLB).ipt g with use := false }
    else (s.copyDirty s.currentTLB).ipt g

variable (cfg) in
theorem filled_fillTLB (s : State Thread Space) (f : ℕ) : Filled cfg s (fillTLB cfg s f) f := by
  have hcopy := copyDirty_frame { s with
    pageTableLock := Function.update s.pageTableLock (cfg.spaceOf s.currentThread) none } s.currentTLB
  unfold fillTLB
  dsimp only
  rw [hcopy]
  have hipt : ∀ m, ((({ s with pageTableLock := m } : State Thread Space).copyDirty s.currentTLB).ipt)
      = (s.copyDirty s.currentTLB).ipt := by
    intro m
    funext g
    rw [copyDirty_ipt, copyDirty_ipt]
  rw [hipt]
  have hc : s.currentTLB + 1 ≠ s.currentTLB := by
    generalize s.currentTLB = c
    revert c
    decide
  refine ⟨⟨_, _, _, rfl⟩, ⟨((s.copyDirty s.currentTLB).ipt f).use, ?_⟩, fun j hj => ?_, fun g => ?_⟩
  · exact (Function.update_of_ne hc.symm _ _).trans (Function.update_self _ _ _)
  · by_cases hn : j = s.currentTLB + 1
    · subst hn
      exact ⟨false, by simp only [State.setTLB, setUse, State.setIPT, State.setPhase,
        Function.update_self, Function.update_of_ne hc]⟩
    · exact ⟨(s.tlb j).use, by simp [State.setTLB, setUse, State.setIPT, State.setPhase, hj, hn]⟩
  · by_cases hg : g = f
    · subst hg
      simp [State.setTLB, setUse, State.setIPT, State.setPhase]
    · simp [State.setTLB, setUse, State.setIPT, State.setPhase, hg]

variable (cfg) in
theorem fillTLB_files (s : State Thread Space) (f : ℕ) :
    (fillTLB cfg s f).pageTable = s.pageTable ∧ (fillTLB cfg s f).swapMap = s.swapMap ∧
      (fillTLB cfg s f).mainMemory = s.mainMemory ∧ (fillTLB cfg s f).swapFile = s.swapFile := by
  obtain ⟨_, _, _, he⟩ := (filled_fillTLB cfg s f).frame
  rw [he]
  exact ⟨rfl, rfl, rfl, rfl⟩

/-- The phase on entry does not matter. -/
theorem fillTLB_setPhase (s : State Thread Space) (p : Phase) (f : ℕ) :
    fillTLB cfg (s.setPhase p) f = fillTLB cfg s f := by
  unfold fillTLB State.copyDirty State.setPhase
  simp only [State.setIPT, State.setTLB, setUse]
  split_ifs <;> simp [Function.update_idem]

/-- The end of the handler, as the invariants see it. -/
structure SlotFilled (cfg : Config Thread Space) (s u : State Thread Space) (v f : ℕ) : Prop where
  called : s.phase s.currentThread = .found v f
  found : (cacheOf cfg s).line f = some (cfg.spaceOf s.currentThread, v)
  rest : ∃ tlb slot ipt, u = { s with
    tlb := tlb, currentTLB := slot, ipt := ipt
    pageTableLock := Function.update s.pageTableLock (cfg.spaceOf s.currentThread) none }.setPhase
      .user
  fields : ∀ g, (u.ipt g).valid = (s.ipt g).valid ∧ (u.ipt g).space = (s.ipt g).space ∧
    (u.ipt g).virtualPage = (s.ipt g).virtualPage ∧
    (u.ipt g).physicalPage = (s.ipt g).physicalPage
  use : ∀ g, (u.ipt g).use = if g = f then false else (s.ipt g).use
  dirty : ∀ g, (u.ipt g).dirty =
    if (s.tlb s.currentTLB).valid = true ∧ (s.tlb s.currentTLB).physicalPage = g then
      (s.tlb s.currentTLB).dirty else (s.ipt g).dirty
  /-- no slot showed the page that the handler was called for -/
  noSlot : ∀ i, (s.tlb i).valid = true → (s.tlb i).physicalPage ≠ f
  shown : (u.tlb s.currentTLB).virtualPage = v ∧ (u.tlb s.currentTLB).physicalPage = f ∧
    (u.tlb s.currentTLB).dirty = (s.ipt f).dirty
  kept : ∀ j, j ≠ s.currentTLB → (u.tlb j).valid = (s.tlb j).valid ∧
    (u.tlb j).virtualPage = (s.tlb j).virtualPage ∧
    (u.tlb j).physicalPage = (s.tlb j).physicalPage ∧ (u.tlb j).dirty = (s.tlb j).dirty

theorem Inv.slotFilled (h : Inv cfg s) (hp : s.phase s.currentThread = .found v f)
    (hfill : Filled cfg s u f) : SlotFilled cfg s u v f := by
  have hfound : (cacheOf cfg s).line f = some (cfg.spaceOf s.currentThread, v) :=
    h.line.found _ v f hp
  obtain ⟨hfvalid, -, -, hfpage⟩ := line_eq_some.mp hfound
  obtain ⟨-, -, hfphys, -⟩ := h.frame.valid f hfvalid
  have hslot : ∀ i, (s.tlb i).valid = true → (s.tlb i).physicalPage ≠ f := by
    intro i hi hif
    have hl := (h.tlb.slot i hi).line
    rw [hif, hfound] at hl
    exact h.tlb.fault v (by simp [hp, Phase.page?]) i hi (Prod.mk.inj (Option.some.inj hl)).2.symm
  have hcopyf : (s.copyDirty s.currentTLB).ipt f = s.ipt f := by
    rw [copyDirty_ipt, if_neg fun hh => hslot _ hh.1 hh.2]
  refine ⟨hp, hfound, hfill.frame, fun g => ?_, fun g => ?_, fun g => ?_, hslot, ?_,
    fun j hj => ?_⟩
  · rw [hfill.ipt, copyDirty_ipt]
    split_ifs <;> exact ⟨rfl, rfl, rfl, rfl⟩
  · rw [hfill.ipt, copyDirty_ipt]
    split_ifs <;> rfl
  · rw [hfill.ipt, copyDirty_ipt]
    split_ifs <;> rfl
  · obtain ⟨b, hb⟩ := hfill.shown
    rw [hb, hcopyf]
    exact ⟨hfpage, hfphys, rfl⟩
  · obtain ⟨b, hb⟩ := hfill.kept j hj
    rw [hb]
    exact ⟨rfl, rfl, rfl, rfl⟩

namespace SlotFilled

theorem phase (hf : SlotFilled cfg s u v f) (t : Thread) :
    u.phase t = if t = s.currentThread then .user else s.phase t := by
  obtain ⟨_, _, _, he⟩ := hf.rest
  rw [he]
  exact setPhase_phase _ _ t

theorem thread (hf : SlotFilled cfg s u v f) : u.currentThread = s.currentThread := by
  obtain ⟨_, _, _, he⟩ := hf.rest
  rw [he]
  rfl

/-- Who is in the handler now was there before. -/
theorem before (hf : SlotFilled cfg s u v f) {t : Thread} {q : Phase} (hq : u.phase t = q)
    (hne : q ≠ .user) : t ≠ s.currentThread ∧ s.phase t = q := by
  rw [hf.phase] at hq
  split_ifs at hq with ht
  · exact absurd hq.symm hne
  · exact ⟨ht, hq⟩

theorem pins (hf : SlotFilled cfg s u v f) : (s.phase s.currentThread).pinned? = some f := by
  simp [hf.called, Phase.pinned?]

theorem pinned (hf : SlotFilled cfg s u v f) (h : Inv cfg s) {t : Thread} {g : ℕ}
    (ht : (u.phase t).pinned? = some g) : (s.phase t).pinned? = some g ∧ g ≠ f := by
  rw [hf.phase] at ht
  split_ifs at ht with hc
  · cases ht
  · refine ⟨ht, ?_⟩
    rintro rfl
    exact hc (h.frame.pinnedOnce t _ g ht hf.pins)

theorem loads (hf : SlotFilled cfg s u v f) (t : Thread) :
    (u.phase t).loads? = (s.phase t).loads? := by
  rw [hf.phase]
  split_ifs with ht
  · rw [ht, hf.called]
    rfl
  · rfl

theorem line (hf : SlotFilled cfg s u v f) : (cacheOf cfg u).line = (cacheOf cfg s).line := by
  funext g
  obtain ⟨hv, hs, hpage, -⟩ := hf.fields g
  exact line_congr hv hs hpage (by simp only [hf.loads])

theorem lockInv (hf : SlotFilled cfg s u v f) (h : Inv cfg s) : LockInv cfg u := by
  have hl := LockInv.set cfg (s := s) (p := .user) (l := s.iptLock)
    (m := Function.update s.pageTableLock (cfg.spaceOf s.currentThread) none)
    (by simp [Phase.holdsTable]) (by simp [Phase.holdsIPT]) (fun t hne ht => ?_)
    fun t _ ht => h.lock.ipt t ht
  · obtain ⟨_, _, _, he⟩ := hf.rest
    rw [he]
    exact ⟨hl.table, hl.ipt⟩
  · rw [Function.update_of_ne, h.lock.table t ht]
    exact fun ha => hne (h.table_unique ht (by simp [hf.called, Phase.holdsTable]) ha)

theorem frameInv (hf : SlotFilled cfg s u v f) (h : Inv cfg s) : FrameInv u := by
  obtain ⟨tlb, slot, ipt, he⟩ := hf.rest
  have hbitmap : u.mainMemoryBitmap = s.mainMemoryBitmap := by rw [he]; rfl
  have htable : u.pageTable = s.pageTable := by rw [he]; rfl
  refine ⟨fun t g ht => ?_, fun t t' g ht ht' =>
    h.frame.pinnedOnce t t' g (hf.pinned h ht).1 (hf.pinned h ht').1, fun g hg => ?_, fun g hg => ?_,
    fun g hlt hb => ?_, ?_, fun t x g ht => ?_⟩
  · obtain ⟨ht, hgf⟩ := hf.pinned h ht
    rw [hf.use, if_neg hgf, hbitmap]
    exact h.frame.pinned t g ht
  · rw [hf.use] at hg
    split_ifs at hg with hgf
    obtain ⟨t, ht⟩ := h.frame.used g hg
    refine ⟨t, ?_⟩
    rw [hf.phase, if_neg, ht]
    rintro rfl
    exact hgf (Option.some.inj (ht.symm.trans hf.pins))
  · obtain ⟨hv, hs, hpage, hphys⟩ := hf.fields g
    rw [hv] at hg
    rw [hs, hpage, hphys, hbitmap, htable]
    exact h.frame.valid g hg
  · rw [(hf.fields g).1]
    simp only [hf.loads]
    exact h.frame.allocated g hlt (hbitmap ▸ hb)
  · rw [he]
    exact h.frame.listed
  · rw [(hf.fields g).1]
    exact h.frame.victim t x g (hf.before ht (by simp)).2

/-- The slot that is filled. -/
theorem slot_new (hf : SlotFilled cfg s u v f) (h : Inv cfg s) :
    ValidSlot cfg u s.currentTLB := by
  obtain ⟨hpage, hphys, hd⟩ := hf.shown
  have hdirtyf : (u.ipt f).dirty = (s.ipt f).dirty := by
    rw [hf.dirty, if_neg fun hh => hf.noSlot _ hh.1 hh.2]
  refine ⟨?_, fun hd' => ?_, fun t x ht => ?_⟩
  · rw [hphys, hpage, hf.line, hf.thread]
    exact hf.found
  · rw [hphys, hdirtyf] at hd'
    rwa [hd]
  · rw [hphys] at ht
    obtain ⟨hne, ht⟩ := hf.before ht (by simp)
    exact hne (h.frame.pinnedOnce t _ f (by simp [ht, Phase.pinned?]) hf.pins)

theorem tlbInv (hf : SlotFilled cfg s u v f) (h : Inv cfg s) : TLBInv cfg u := by
  refine ⟨fun i hi => ?_, fun i j hi hj hij => ?_, fun x hx => ?_⟩
  · by_cases hic : i = s.currentTLB
    · exact hic ▸ hf.slot_new h
    · obtain ⟨hv, hpage, hphys, hd⟩ := hf.kept i hic
      rw [hv] at hi
      have hs := h.tlb.slot i hi
      refine ⟨?_, fun hd' => ?_, fun t x ht => ?_⟩
      · rw [hphys, hpage, hf.line, hf.thread]
        exact hs.line
      · rw [hphys, hf.dirty, if_neg] at hd'
        · rw [hd]
          exact hs.dirty hd'
        · exact fun hh => hic (h.tlb.once i _ hi hh.1 hh.2.symm)
      · rw [hphys] at ht
        exact hs.kept t x (hf.before ht (by simp)).2
  · by_cases hic : i = s.currentTLB <;> by_cases hjc : j = s.currentTLB
    · rw [hic, hjc]
    · obtain ⟨hv, -, hphys, -⟩ := hf.kept j hjc
      rw [hic, hf.shown.2.1, hphys] at hij
      exact absurd hij.symm (hf.noSlot j (hv ▸ hj))
    · obtain ⟨hv, -, hphys, -⟩ := hf.kept i hic
      rw [hjc, hf.shown.2.1, hphys] at hij
      exact absurd hij (hf.noSlot i (hv ▸ hi))
    · obtain ⟨hvi, -, hpi, -⟩ := hf.kept i hic
      obtain ⟨hvj, -, hpj, -⟩ := hf.kept j hjc
      exact h.tlb.once i j (hvi ▸ hi) (hvj ▸ hj) (hpi ▸ hpj ▸ hij)
  · rw [hf.thread, hf.phase, if_pos rfl] at hx
    cases hx

/-- The dirty bit of the slot that is given up goes to the inverted page table. -/
theorem dirty_eq (hf : SlotFilled cfg s u v f) (h : Inv cfg s) (g : ℕ) :
    (cacheOf cfg u).dirty g = (cacheOf cfg s).dirty g := by
  have htlb := hf.tlbInv h
  by_cases hex : ∃ i, (s.tlb i).valid = true ∧ (s.tlb i).physicalPage = g
  · obtain ⟨i, hi, rfl⟩ := hex
    rw [h.dirty_slot hi]
    by_cases hic : i = s.currentTLB
    · rw [Inv.dirty_other, hf.dirty, if_pos ⟨hic ▸ hi, by rw [hic]⟩, hic]
      intro j hj hij
      by_cases hjc : j = s.currentTLB
      · rw [hjc, hf.shown.2.1] at hij
        exact hf.noSlot i hi hij.symm
      · obtain ⟨hv, -, hphys, -⟩ := hf.kept j hjc
        exact hjc ((h.tlb.once j i (hv ▸ hj) hi (hphys ▸ hij)).trans hic)
    · obtain ⟨hv, -, hphys, hd⟩ := hf.kept i hic
      have hslotu : (cacheOf cfg u).dirty (u.tlb i).physicalPage = (u.tlb i).dirty := by
        rw [Bool.eq_iff_iff, dirty_eq_true]
        constructor
        · rintro (hd' | ⟨j, hj, hpj, hdj⟩)
          · exact (htlb.slot i (hv ▸ hi)).dirty hd'
          · rwa [← htlb.once j i hj (hv ▸ hi) hpj]
        · exact fun hd' => Or.inr ⟨i, hv ▸ hi, rfl, hd'⟩
      rw [← hphys, hslotu, hd]
  · push Not at hex
    rw [Inv.dirty_other hex, Bool.eq_iff_iff, dirty_eq_true, hf.dirty,
      if_neg fun hh => hex _ hh.1 hh.2]
    refine ⟨fun hd => hd.elim id ?_, Or.inl⟩
    rintro ⟨i, hi, hpi, hdi⟩
    by_cases hic : i = s.currentTLB
    · rw [hic] at hpi hdi
      rw [← hpi, hf.shown.2.1, ← hf.shown.2.2, hdi]
    · obtain ⟨hv, -, hphys, -⟩ := hf.kept i hic
      exact absurd (hphys ▸ hpi) (hex i (hv ▸ hi))

end SlotFilled

theorem Inv.fill_slot (h : Inv cfg s) (hp : s.phase s.currentThread = .found v f)
    (hu : u = fillTLB cfg s f) : Inv cfg u ∧ Same (cacheOf cfg s) (cacheOf cfg u) := by
  have hf : SlotFilled cfg s u v f := h.slotFilled hp (hu ▸ filled_fillTLB cfg s f)
  obtain ⟨tlb, slot, ipt, he⟩ := hf.rest
  refine ⟨⟨hf.lockInv h, hf.frameInv h, ⟨fun t x g ht => ?_, fun t x ht g => ?_⟩, hf.tlbInv h, ?_⟩,
    hf.line, fun g _ => ⟨?_, hf.dirty_eq h g⟩, ?_⟩
  · rw [hf.line]
    exact h.line.found t x g (hf.before ht (by simp)).2
  · rw [hf.phase] at ht
    split_ifs at ht with hc
    · cases ht
    · rw [hf.line]
      exact h.line.seeks t x ht g
  · rw [he]
    exact ⟨h.swap.place, h.swap.apart⟩
  · rw [he]
    rfl
  · funext k o
    rw [he]
    rfl

/-! The steps of a handler. -/

inductive Handled (cfg : Config Thread Space) (random : ℕ) (s u : State Thread Space) : Prop
  | lockTable (v : ℕ) (hp : s.phase s.currentThread = .faulted v)
      (hs : acquireTableLock cfg s (.tableLocked v) = .ok u)
  | lockIPT (v : ℕ) (p : Phase) (hp : s.phase s.currentThread = .tableLocked v ∧ p = .searching v ∨
      s.phase s.currentThread = .missing v ∧ p = .choosing v) (hs : acquireIPTLock s p = .ok u)
  | found (v f : ℕ) (hp : s.phase s.currentThread = .searching v)
      (hf : findResident cfg s v = some f) (hu : u = releaseIPTLock (setUse s f true) (.found v f))
  | missed (v : ℕ) (hp : s.phase s.currentThread = .searching v)
      (hf : findResident cfg s v = none) (hu : u = releaseIPTLock s (.missing v))
  | takeFree (v f : ℕ) (hp : s.phase s.currentThread = .choosing v)
      (hf : bitMapFind s.mainMemoryBitmap numPhysPages = some f)
      (hu : u = releaseIPTLock (setUse
        { s with mainMemoryBitmap := Function.update s.mainMemoryBitmap f true } f true)
        (.loading v f))
  | evict (v f : ℕ) (list : List ℕ) (hp : s.phase s.currentThread = .choosing v)
      (hfull : bitMapFind s.mainMemoryBitmap numPhysPages = none)
      (hv : chooseVictim cfg s random = some (f, list))
      (hu : u = (evictFromTLB (setUse { s with evictionList := list } f true) f).setPhase
        (.evicting v f))
  | evicted (v f : ℕ) (hp : s.phase s.currentThread = .evicting v f)
      (hs : finishEviction s v f = .ok u)
  | shown (v f : ℕ) (hp : s.phase s.currentThread = .found v f) (hu : u = fillTLB cfg s f)
  | loaded (v f : ℕ) (w : State Thread Space) (hp : s.phase s.currentThread = .loading v f)
      (hs : handleIPTMiss cfg s v f = .ok w) (hu : u = fillTLB cfg w f)

theorem handled {random : ℕ} (hs : handlePageFault cfg s random = .ok u) :
    Handled cfg random s u := by
  unfold handlePageFault at hs
  split at hs
  · cases hs
  · exact .lockTable _ ‹_› hs
  · exact .lockIPT _ _ (Or.inl ⟨‹_›, rfl⟩) hs
  · rename_i v hp
    obtain rfl := Except.ok.inj hs
    unfold search
    split
    · exact .found v _ hp ‹_› rfl
    · exact .missed v hp ‹_› rfl
  · exact .shown _ _ ‹_› (Except.ok.inj hs).symm
  · exact .lockIPT _ _ (Or.inr ⟨‹_›, rfl⟩) hs
  · rename_i v hp
    unfold chooseFrame at hs
    split at hs
    · rename_i f hf
      exact .takeFree v f hp hf (Except.ok.inj hs).symm
    · rename_i hfull
      split at hs
      · cases hs
      · rename_i f list hv
        exact .evict v f list hp hfull hv (Except.ok.inj hs).symm
  · exact .evicted _ _ ‹_› hs
  · rename_i v f hp
    cases hload : handleIPTMiss cfg s v f with
    | error e =>
      rw [hload] at hs
      cases hs
    | ok w =>
      rw [hload] at hs
      exact .loaded v f w hp hload (Except.ok.inj hs).symm

omit [DecidableEq Space] in
theorem acquireIPTLock_ok {p : Phase} (hs : acquireIPTLock s p = .ok u) :
    s.iptLock = none ∧ u = { s with iptLock := some s.currentThread }.setPhase p := by
  unfold acquireIPTLock at hs
  split_ifs at hs with hfree
  exact ⟨hfree, (Except.ok.inj hs).symm⟩

theorem acquireTableLock_ok {p : Phase} (hs : acquireTableLock cfg s p = .ok u) :
    u = { s with
      pageTableLock := Function.update s.pageTableLock (cfg.spaceOf s.currentThread)
        (some s.currentThread) }.setPhase p := by
  unfold acquireTableLock at hs
  dsimp only at hs
  split_ifs at hs
  exact (Except.ok.inj hs).symm

end Nachos.Paging
