import Nachos.KernelPagingFrames

/-! What holds between two steps of the paging machine, in any interleaving of the handlers. -/
namespace Nachos.Paging
open Executions WriteBack

variable {Thread Space : Type*} {cfg : Config Thread Space} {s u : State Thread Space}

structure LockInv (cfg : Config Thread Space) (s : State Thread Space) : Prop where
  table : ∀ t, (s.phase t).holdsTable = true → s.pageTableLock (cfg.spaceOf t) = some t
  ipt : ∀ t, (s.phase t).holdsIPT = true → s.iptLock = some t

/-- A frame is in use while exactly one thread keeps it. -/
structure FrameInv (s : State Thread Space) : Prop where
  pinned : ∀ t f, (s.phase t).pinned? = some f →
    f < numPhysPages ∧ (s.ipt f).use = true ∧ s.mainMemoryBitmap f = true
  pinnedOnce : ∀ t t' f, (s.phase t).pinned? = some f → (s.phase t').pinned? = some f → t = t'
  used : ∀ f, (s.ipt f).use = true → ∃ t, (s.phase t).pinned? = some f
  valid : ∀ f, (s.ipt f).valid = true → s.mainMemoryBitmap f = true ∧ f < numPhysPages ∧
    (s.ipt f).physicalPage = f ∧
    ∃ a e, (s.ipt f).space = some a ∧ (s.pageTable a)[(s.ipt f).virtualPage]? = some e
  allocated : ∀ f, f < numPhysPages → s.mainMemoryBitmap f = true →
    (s.ipt f).valid = true ∨ ∃ t, (s.phase t).loads? = some f
  listed : ∀ f ∈ s.evictionList, f < numPhysPages
  victim : ∀ t v f, s.phase t = .evicting v f → (s.ipt f).valid = true

/-- What the search of a handler found still holds: its page is in its frame, or in none. -/
structure LineInv (cfg : Config Thread Space) (s : State Thread Space) : Prop where
  found : ∀ t v f, s.phase t = .found v f → (cacheOf cfg s).line f = some (cfg.spaceOf t, v)
  seeks : ∀ t v, (s.phase t).seeks? = some v →
    ∀ f, (cacheOf cfg s).line f ≠ some (cfg.spaceOf t, v)

/-- A valid slot of the TLB shows a page of the current thread and has its dirty bit. -/
structure ValidSlot (cfg : Config Thread Space) (s : State Thread Space) (i : Fin tlbSize) :
    Prop where
  line : (cacheOf cfg s).line (s.tlb i).physicalPage =
    some (cfg.spaceOf s.currentThread, (s.tlb i).virtualPage)
  dirty : (s.ipt (s.tlb i).physicalPage).dirty = true → (s.tlb i).dirty = true
  kept : ∀ t v, s.phase t ≠ .evicting v (s.tlb i).physicalPage

structure TLBInv (cfg : Config Thread Space) (s : State Thread Space) : Prop where
  slot : ∀ i, (s.tlb i).valid = true → ValidSlot cfg s i
  once : ∀ i j, (s.tlb i).valid = true → (s.tlb j).valid = true →
    (s.tlb i).physicalPage = (s.tlb j).physicalPage → i = j
  fault : ∀ v, (s.phase s.currentThread).page? = some v → ∀ i, (s.tlb i).valid = true →
    (s.tlb i).virtualPage ≠ v

/-- Where a page is in the swap file. -/
def swapPlace? (s : State Thread Space) (k : Space × ℕ) : Option ℕ :=
  (s.pageTable k.1)[k.2]?.bind fun e => if e.location = .inSwap then some e.offset else none

structure SwapInv (s : State Thread Space) : Prop where
  place : ∀ k o, swapPlace? s k = some o → ∃ n, o = n * pageSize ∧ s.swapMap n = true
  apart : ∀ k k' o, swapPlace? s k = some o → swapPlace? s k' = some o → k = k'

structure Inv (cfg : Config Thread Space) (s : State Thread Space) : Prop where
  lock : LockInv cfg s
  frame : FrameInv s
  line : LineInv cfg s
  tlb : TLBInv cfg s
  swap : SwapInv s

theorem inv_initial (first : Thread) : Inv cfg (initial cfg first) := by
  have hline : ∀ f, (cacheOf cfg (initial cfg first)).line f = none := by
    intro f
    simp [cacheOf, initial, blankEntry]
  have hplace : ∀ k, swapPlace? (initial cfg first) k = none := by
    intro k
    rw [swapPlace?, Option.bind_eq_none_iff]
    intro e he
    simp only [initial, Executable.pageTable, List.getElem?_map, Option.map_eq_some_iff] at he
    obtain ⟨i, -, rfl⟩ := he
    dsimp only
    split_ifs <;> simp_all
  refine ⟨⟨by simp [initial, Phase.holdsTable], by simp [initial, Phase.holdsIPT]⟩, ?_, ?_, ?_, ?_⟩
  · exact ⟨by simp [initial, Phase.pinned?], by simp [initial, Phase.pinned?],
      by simp [initial, blankEntry], by simp [initial, blankEntry], by simp [initial],
      by simp [initial], by simp [initial]⟩
  · exact ⟨by simp [initial], by simp [initial, Phase.seeks?]⟩
  · exact ⟨by simp [initial, blankEntry], by simp [initial, blankEntry],
      by simp [initial, Phase.page?]⟩
  · exact ⟨by simp [hplace], by simp [hplace]⟩

namespace Inv

/-- Two handlers of one address space do not get past its lock together. -/
theorem table_unique (h : Inv cfg s) {t t' : Thread} (ht : (s.phase t).holdsTable = true)
    (ht' : (s.phase t').holdsTable = true) (ha : cfg.spaceOf t = cfg.spaceOf t') : t = t' := by
  have h1 := h.lock.table t ht
  have h2 := h.lock.table t' ht'
  rw [ha, h2] at h1
  exact (Option.some.inj h1).symm

theorem ipt_unique (h : Inv cfg s) {t t' : Thread} (ht : (s.phase t).holdsIPT = true)
    (ht' : (s.phase t').holdsIPT = true) : t = t' :=
  Option.some.inj ((h.lock.ipt t ht).symm.trans (h.lock.ipt t' ht'))

/-- A frame that nobody keeps and that holds a page is a line. -/
theorem line_of_valid (h : Inv cfg s) {f : ℕ} (hv : (s.ipt f).valid = true)
    (hl : ∀ t, (s.phase t).loads? ≠ some f) : ∃ a, (s.ipt f).space = some a ∧
      (cacheOf cfg s).line f = some (a, (s.ipt f).virtualPage) := by
  obtain ⟨-, -, -, a, -, ha, -⟩ := h.frame.valid f hv
  exact ⟨a, ha, line_eq_some.mpr ⟨hv, hl, ha, rfl⟩⟩

theorem loads_pinned (h : Inv cfg s) {t : Thread} {f : ℕ} (ht : (s.phase t).pinned? = some f)
    (hn : (s.phase t).loads? = none) : ∀ t', (s.phase t').loads? ≠ some f := by
  intro t' hl
  obtain rfl := h.frame.pinnedOnce t t' f ht (Phase.pinned?_of_loads? hl)
  simp [hn] at hl

theorem line_unpinned (h : Inv cfg s) {f : ℕ} (hu : (s.ipt f).use = false) :
    ∀ t, (s.phase t).pinned? ≠ some f := by
  intro t ht
  simp [(h.frame.pinned t f ht).2.1] at hu

/-- The dirty bit of a page in the TLB is the one there. -/
theorem dirty_slot (h : Inv cfg s) {i : Fin tlbSize} (hi : (s.tlb i).valid = true) :
    (cacheOf cfg s).dirty (s.tlb i).physicalPage = (s.tlb i).dirty := by
  rw [Bool.eq_iff_iff, dirty_eq_true]
  constructor
  · rintro (hd | ⟨j, hj, hp, hd⟩)
    · exact (h.tlb.slot i hi).dirty hd
    · rwa [← h.tlb.once j i hj hi hp]
  · exact fun hd => Or.inr ⟨i, hi, rfl, hd⟩

theorem dirty_other {f : ℕ} (hf : ∀ i, (s.tlb i).valid = true → (s.tlb i).physicalPage ≠ f) :
    (cacheOf cfg s).dirty f = (s.ipt f).dirty := by
  rw [Bool.eq_iff_iff, dirty_eq_true]
  refine ⟨fun hd => hd.resolve_right ?_, Or.inl⟩
  rintro ⟨i, hi, hp, -⟩
  exact hf i hi hp

end Inv

/-! The steps of a handler between its locks. -/

variable [DecidableEq Thread]

theorem setPhase_phase (s : State Thread Space) (p : Phase) (t : Thread) :
    (s.setPhase p).phase t = if t = s.currentThread then p else s.phase t := by
  by_cases ht : t = s.currentThread
  · subst ht
    simp [State.setPhase]
  · simp [State.setPhase, ht]

/-- The current thread goes on, with no frame in its hands before or after. -/
theorem Inv.of_phase (h : Inv cfg s) {p : Phase} {l : Option Thread} {m : Space → Option Thread}
    (hold : (s.phase s.currentThread).pinned? = none) (hnew : p.pinned? = none)
    (hlock : LockInv cfg ({ s with iptLock := l, pageTableLock := m }.setPhase p))
    (hseeks : ∀ v, p.seeks? = some v →
      ∀ f, (cacheOf cfg s).line f ≠ some (cfg.spaceOf s.currentThread, v))
    (hfault : ∀ v, p.page? = some v → ∀ i, (s.tlb i).valid = true → (s.tlb i).virtualPage ≠ v) :
    Inv cfg ({ s with iptLock := l, pageTableLock := m }.setPhase p) ∧
      Same (cacheOf cfg s) (cacheOf cfg ({ s with iptLock := l, pageTableLock := m }.setPhase p)) := by
  set u := { s with iptLock := l, pageTableLock := m }.setPhase p with hu
  have hphase : ∀ t, u.phase t = if t = s.currentThread then p else s.phase t :=
    setPhase_phase { s with iptLock := l, pageTableLock := m } p
  have hpin : ∀ t, (u.phase t).pinned? = (s.phase t).pinned? := by
    intro t
    rw [hphase]
    split_ifs with ht
    · rw [ht, hold, hnew]
    · rfl
  have hloads : ∀ t, (u.phase t).loads? = (s.phase t).loads? := by
    intro t
    rw [hphase]
    split_ifs with ht
    · rw [ht]
      cases hp : p <;> cases hq : s.phase s.currentThread <;>
        simp_all [Phase.pinned?, Phase.loads?]
    · rfl
  have hline : (cacheOf cfg u).line = (cacheOf cfg s).line := by
    funext f
    exact line_congr rfl rfl rfl (by simp only [hloads])
  have hsame : Same (cacheOf cfg s) (cacheOf cfg u) := ⟨hline, fun _ _ => ⟨rfl, rfl⟩, rfl⟩
  have hkeeps : ∀ t f q, (u.phase t) = q → q.pinned? = some f → s.phase t = q := by
    intro t f q hq hf
    rw [hphase] at hq
    split_ifs at hq with ht
    · simp [← hq, hnew] at hf
    · exact hq
  refine ⟨⟨hlock, ?_, ?_, ?_, ⟨h.swap.place, h.swap.apart⟩⟩, hsame⟩
  · refine ⟨fun t f ht => h.frame.pinned t f (hpin t ▸ ht), fun t t' f ht ht' =>
      h.frame.pinnedOnce t t' f (hpin t ▸ ht) (hpin t' ▸ ht'), fun f hf => ?_, h.frame.valid,
      fun f hf hb => ?_, h.frame.listed, fun t v f ht => ?_⟩
    · simpa only [hpin] using h.frame.used f hf
    · simp only [hloads]
      exact h.frame.allocated f hf hb
    · exact h.frame.victim t v f (hkeeps t f _ ht rfl)
  · refine ⟨fun t v f ht => ?_, fun t v ht f => ?_⟩
    · rw [hline]
      exact h.line.found t v f (hkeeps t f _ ht rfl)
    · rw [hline]
      rw [hphase] at ht
      split_ifs at ht with hc
      · exact hc ▸ hseeks v ht f
      · exact h.line.seeks t v ht f
  · refine ⟨fun i hi => ?_, h.tlb.once, fun v hv i hi => ?_⟩
    · have hs := h.tlb.slot i hi
      exact ⟨hline ▸ hs.line, hs.dirty, fun t v ht => hs.kept t v (hkeeps t _ _ ht rfl)⟩
    · refine hfault v ?_ i hi
      have hcur : u.currentThread = s.currentThread := rfl
      rwa [hcur, hphase, if_pos rfl] at hv

/-! The locks. -/

variable (cfg) in
theorem LockInv.set {p : Phase} {l : Option Thread} {m : Space → Option Thread}
    (htable : p.holdsTable = true → m (cfg.spaceOf s.currentThread) = some s.currentThread)
    (hipt : p.holdsIPT = true → l = some s.currentThread)
    (hm : ∀ t, t ≠ s.currentThread → (s.phase t).holdsTable = true → m (cfg.spaceOf t) = some t)
    (hl : ∀ t, t ≠ s.currentThread → (s.phase t).holdsIPT = true → l = some t) :
    LockInv cfg ({ s with iptLock := l, pageTableLock := m }.setPhase p) := by
  refine ⟨fun t ht => ?_, fun t ht => ?_⟩
  all_goals
    rw [setPhase_phase] at ht
    split_ifs at ht with hc
  · exact hc ▸ htable ht
  · exact hm t hc ht
  · exact hc ▸ hipt ht
  · exact hl t hc ht

theorem Inv.acquireTableLock [DecidableEq Space] (h : Inv cfg s) {v : ℕ}
    (hp : s.phase s.currentThread = .faulted v)
    (hs : acquireTableLock cfg s (.tableLocked v) = .ok u) :
    Inv cfg u ∧ Same (cacheOf cfg s) (cacheOf cfg u) := by
  unfold Paging.acquireTableLock at hs
  dsimp only at hs
  split_ifs at hs with hfree
  obtain rfl := Except.ok.inj hs
  refine h.of_phase (l := s.iptLock) (by simp [hp, Phase.pinned?]) rfl
    (LockInv.set cfg (fun _ => by simp) (by simp [Phase.holdsIPT]) (fun t _ ht => ?_)
      fun t _ ht => h.lock.ipt t ht) (by simp [Phase.seeks?]) ?_
  · have hold := h.lock.table t ht
    rw [Function.update_of_ne, hold]
    intro he
    rw [he] at hold
    cases hfree.symm.trans hold
  · rintro w ⟨⟩
    exact h.tlb.fault v (by simp [hp, Phase.page?])

theorem Inv.acquireIPTLock (h : Inv cfg s) {p : Phase}
    (hs : Paging.acquireIPTLock s p = .ok u) (hold : (s.phase s.currentThread).pinned? = none)
    (hnew : p.pinned? = none) (htable : (s.phase s.currentThread).holdsTable = true)
    (hseeks : p.seeks? = (s.phase s.currentThread).seeks?)
    (hpage : p.page? = (s.phase s.currentThread).page?) :
    Inv cfg u ∧ Same (cacheOf cfg s) (cacheOf cfg u) := by
  unfold Paging.acquireIPTLock at hs
  split_ifs at hs with hfree
  obtain rfl := Except.ok.inj hs
  refine h.of_phase (m := s.pageTableLock) hold hnew (LockInv.set cfg (fun _ => h.lock.table _ htable)
    (fun _ => rfl) (fun t _ ht => h.lock.table t ht) fun t _ ht => ?_) (fun v hv => ?_) fun v hv => ?_
  · cases hfree.symm.trans (h.lock.ipt t ht)
  · exact h.line.seeks _ v (hseeks ▸ hv)
  · exact h.tlb.fault v (hpage ▸ hv)

/-- The thread that holds `iptLock` lets it go. -/
theorem Inv.lock_release (h : Inv cfg s) {p : Phase}
    (hipt : (s.phase s.currentThread).holdsIPT = true)
    (hnew : p.holdsIPT = false) :
    LockInv cfg ({ s with iptLock := none, pageTableLock := s.pageTableLock }.setPhase p) := by
  have htable : (s.phase s.currentThread).holdsTable = true := by
    cases hq : s.phase s.currentThread <;> simp_all [Phase.holdsIPT, Phase.holdsTable]
  refine LockInv.set cfg (fun _ => h.lock.table _ htable) (fun hh => by simp [hnew] at hh)
    (fun t _ ht => h.lock.table t ht) fun t hne ht => absurd (h.ipt_unique ht hipt) hne

omit [DecidableEq Thread] in
/-- The search has looked at every frame. -/
theorem Inv.not_resident [DecidableEq Space] (h : Inv cfg s) {v : ℕ}
    (hp : s.phase s.currentThread = .searching v) (hs : findResident cfg s v = none) (f : ℕ) :
    (cacheOf cfg s).line f ≠ some (cfg.spaceOf s.currentThread, v) := by
  intro hline
  obtain ⟨hv, hl, hspace, hpage⟩ := line_eq_some.mp hline
  obtain ⟨-, hlt, -, -⟩ := h.frame.valid f hv
  have hfind := List.find?_eq_none.mp hs f (List.mem_range.mpr hlt)
  simp only [hv, hpage, hspace, decide_true, Bool.and_self, Bool.true_and, Bool.not_eq_true',
    Bool.not_eq_false] at hfind
  obtain ⟨t, ht⟩ := h.frame.used f hfind
  have hcur : (s.phase s.currentThread).pinned? = none := by simp [hp, Phase.pinned?]
  cases hq : s.phase t with
  | found w g =>
    obtain rfl : g = f := by simpa [hq, Phase.pinned?] using ht
    have hw := h.line.found t w g hq
    rw [hline] at hw
    obtain ⟨ha, -⟩ := Prod.mk.inj (Option.some.inj hw)
    have := h.table_unique (t := s.currentThread) (by simp [hp, Phase.holdsTable])
      (by simp [hq, Phase.holdsTable]) ha
    rw [this, hq] at hp
    cases hp
  | evicting w g =>
    have := h.ipt_unique (t := s.currentThread) (by simp [hp, Phase.holdsIPT])
      (show (s.phase t).holdsIPT = true by simp [hq, Phase.holdsIPT])
    rw [this, hq] at hp
    cases hp
  | loading w g => exact hl t (by simpa [hq, Phase.pinned?, Phase.loads?] using ht)
  | _ => simp [hq, Phase.pinned?] at ht

theorem Inv.search_missing [DecidableEq Space] (h : Inv cfg s) {v : ℕ}
    (hp : s.phase s.currentThread = .searching v) (hs : findResident cfg s v = none) :
    Inv cfg (releaseIPTLock s (.missing v)) ∧
      Same (cacheOf cfg s) (cacheOf cfg (releaseIPTLock s (.missing v))) := by
  refine h.of_phase (by simp [hp, Phase.pinned?]) rfl
    (h.lock_release (by simp [hp, Phase.holdsIPT]) rfl) (fun w hw => ?_) fun w hw => ?_
  · obtain rfl : v = w := by simpa [Phase.seeks?] using hw
    exact h.not_resident hp hs
  · obtain rfl : v = w := by simpa [Phase.page?] using hw
    exact h.tlb.fault v (by simp [hp, Phase.page?])

/-! The current thread takes a frame. -/

/-- The frame is marked in use, and nobody else has it. -/
structure Pins (s u : State Thread Space) (p : Phase) (f : ℕ) : Prop where
  phase : ∀ t, u.phase t = if t = s.currentThread then p else s.phase t
  pinned : p.pinned? = some f
  before : (s.phase s.currentThread).pinned? = none
  free : ∀ t, (s.phase t).pinned? ≠ some f
  inRange : f < numPhysPages
  ipt : ∃ d, u.ipt f = { s.ipt f with use := true, dirty := d }
  others : ∀ g, g ≠ f → u.ipt g = s.ipt g
  bitmap : ∀ g, u.mainMemoryBitmap g = true ↔ g = f ∨ s.mainMemoryBitmap g = true
  pageTable : u.pageTable = s.pageTable
  list : ∀ g ∈ u.evictionList, g < numPhysPages
  content : (s.ipt f).valid = true ∧ p.loads? = none ∨
    (s.ipt f).valid = false ∧ p.loads? = some f

namespace Pins
variable {p : Phase} {f : ℕ}

theorem fields (hp : Pins s u p f) (g : ℕ) : (u.ipt g).valid = (s.ipt g).valid ∧
    (u.ipt g).space = (s.ipt g).space ∧ (u.ipt g).virtualPage = (s.ipt g).virtualPage ∧
    (u.ipt g).physicalPage = (s.ipt g).physicalPage := by
  by_cases hg : g = f
  · obtain ⟨d, hd⟩ := hp.ipt
    rw [hg, hd]
    exact ⟨rfl, rfl, rfl, rfl⟩
  · rw [hp.others g hg]
    exact ⟨rfl, rfl, rfl, rfl⟩

/-- Who loads which frame, but for this one. -/
theorem loads (hp : Pins s u p f) {g : ℕ} (hg : g ≠ f) :
    (∀ t, (u.phase t).loads? ≠ some g) ↔ ∀ t, (s.phase t).loads? ≠ some g := by
  refine forall_congr' fun t => not_congr ?_
  rw [hp.phase]
  split_ifs with ht
  · rw [ht]
    refine iff_of_false (fun hl => hg ?_) fun hl => ?_
    · exact Option.some.inj ((Phase.pinned?_of_loads? hl).symm.trans hp.pinned)
    · exact absurd (Phase.pinned?_of_loads? hl) (by simp [hp.before])
  · exact Iff.rfl

theorem line (hp : Pins s u p f) : (cacheOf cfg u).line = (cacheOf cfg s).line := by
  funext g
  obtain ⟨hv, hs, hpage, -⟩ := hp.fields g
  by_cases hg : g = f
  · subst hg
    rcases hp.content with ⟨-, hl⟩ | ⟨hinvalid, -⟩
    · refine line_congr hv hs hpage (iff_of_true (fun t ht => ?_) fun t ht => ?_)
      · rw [hp.phase] at ht
        split_ifs at ht
        · simp [hl] at ht
        · exact hp.free t (Phase.pinned?_of_loads? ht)
      · exact hp.free t (Phase.pinned?_of_loads? ht)
    · ext k
      rw [line_eq_some, line_eq_some, hv, hinvalid]
      simp
  · exact line_congr hv hs hpage (hp.loads hg)

theorem pinned_iff (hp : Pins s u p f) {t : Thread} {g : ℕ} :
    (u.phase t).pinned? = some g ↔ t = s.currentThread ∧ g = f ∨ (s.phase t).pinned? = some g := by
  rw [hp.phase]
  split_ifs with ht
  · rw [hp.pinned, ht, hp.before]
    simp [eq_comm]
  · simp [ht]

theorem frame (h : FrameInv s) (hp : Pins s u p f) : FrameInv u := by
  have hphase : ∀ {t q}, u.phase t = q → t = s.currentThread ∧ q = p ∨ s.phase t = q := by
    intro t q hq
    rw [hp.phase] at hq
    split_ifs at hq with ht
    · exact Or.inl ⟨ht, hq.symm⟩
    · exact Or.inr hq
  refine ⟨fun t g ht => ?_, fun t t' g ht ht' => ?_, fun g hg => ?_, fun g hg => ?_,
    fun g hlt hb => ?_, hp.list, fun t v g ht => ?_⟩
  · rcases hp.pinned_iff.mp ht with ⟨-, rfl⟩ | ht
    · obtain ⟨d, hd⟩ := hp.ipt
      exact ⟨hp.inRange, by rw [hd], (hp.bitmap g).mpr (Or.inl rfl)⟩
    · obtain ⟨hlt, hu, hb⟩ := h.pinned t g ht
      have hg : g ≠ f := by
        rintro rfl
        exact hp.free t ht
      exact ⟨hlt, by rw [hp.others g hg, hu], (hp.bitmap g).mpr (Or.inr hb)⟩
  · rcases hp.pinned_iff.mp ht with ⟨rfl, rfl⟩ | ht <;>
      rcases hp.pinned_iff.mp ht' with ⟨rfl, hg⟩ | ht'
    · rfl
    · exact absurd ht' (hp.free t')
    · exact absurd (hg ▸ ht) (hp.free t)
    · exact h.pinnedOnce t t' g ht ht'
  · by_cases hgf : g = f
    · exact ⟨s.currentThread, hp.pinned_iff.mpr (Or.inl ⟨rfl, hgf⟩)⟩
    · rw [hp.others g hgf] at hg
      obtain ⟨t, ht⟩ := h.used g hg
      exact ⟨t, hp.pinned_iff.mpr (Or.inr ht)⟩
  · obtain ⟨hv, hs, hpage, hphys⟩ := hp.fields g
    rw [hv] at hg
    rw [hs, hpage, hphys, hp.pageTable]
    obtain ⟨hb, hrest⟩ := h.valid g hg
    exact ⟨(hp.bitmap g).mpr (Or.inr hb), hrest⟩
  · rw [(hp.fields g).1]
    by_cases hgf : g = f
    · subst hgf
      rcases hp.content with ⟨hv, -⟩ | ⟨-, hl⟩
      · exact Or.inl hv
      · refine Or.inr ⟨s.currentThread, ?_⟩
        rw [hp.phase, if_pos rfl, hl]
    · have hb' := ((hp.bitmap g).mp hb).resolve_left hgf
      refine (h.allocated g hlt hb').imp id fun hl => ?_
      by_contra hnone
      push Not at hnone
      obtain ⟨t, ht⟩ := hl
      exact (hp.loads hgf).mp hnone t ht
  · rw [(hp.fields g).1]
    rcases hphase ht with ⟨-, rfl⟩ | ht
    · rcases hp.content with ⟨hv, -⟩ | ⟨-, hl⟩
      · obtain rfl : g = f := Option.some.inj hp.pinned
        exact hv
      · cases hl
    · exact h.victim t v g ht

theorem phase_eq (hp : Pins s u p f) {t : Thread} {q : Phase} (hq : u.phase t = q) :
    t = s.currentThread ∧ q = p ∨ s.phase t = q := by
  rw [hp.phase] at hq
  split_ifs at hq with ht
  · exact Or.inl ⟨ht, hq.symm⟩
  · exact Or.inr hq

theorem lineInv (h : LineInv cfg s) (hp : Pins s u p f)
    (hfound : ∀ v, p = .found v f →
      (cacheOf cfg s).line f = some (cfg.spaceOf s.currentThread, v))
    (hseeks : ∀ v, p.seeks? = some v →
      ∀ g, (cacheOf cfg s).line g ≠ some (cfg.spaceOf s.currentThread, v)) : LineInv cfg u := by
  refine ⟨fun t v g ht => ?_, fun t v ht g => ?_⟩
  · rw [hp.line]
    rcases hp.phase_eq ht with ⟨rfl, rfl⟩ | ht
    · obtain rfl : g = f := Option.some.inj hp.pinned
      exact hfound v rfl
    · exact h.found t v g ht
  · rw [hp.line]
    rcases hp.phase_eq (t := t) rfl with ⟨rfl, he⟩ | he
    · exact hseeks v (he ▸ ht) g
    · exact h.seeks t v (he ▸ ht) g

/-- The TLB and the dirty bits are as before. -/
theorem tlbInv (h : TLBInv cfg s) (hp : Pins s u p f) (hcur : u.currentThread = s.currentThread)
    (htlb : u.tlb = s.tlb) (hdirty : (u.ipt f).dirty = (s.ipt f).dirty)
    (hpage : p.page? = (s.phase s.currentThread).page?) (hnot : ∀ v, p ≠ .evicting v f) :
    TLBInv cfg u := by
  refine ⟨fun i hi => ?_, htlb ▸ h.once, fun v hv => ?_⟩
  · rw [htlb] at hi
    have hs := h.slot i hi
    refine ⟨?_, fun hd => ?_, fun t v ht => ?_⟩
    · rw [htlb, hp.line, hcur]
      exact hs.line
    · rw [htlb] at hd ⊢
      refine hs.dirty ?_
      by_cases hg : (s.tlb i).physicalPage = f
      · rwa [hg, ← hdirty, ← hg]
      · rwa [← hp.others _ hg]
    · rw [htlb] at ht
      rcases hp.phase_eq ht with ⟨-, he⟩ | ht
      · have hpinned := hp.pinned
        rw [← he] at hpinned hnot
        exact hnot v (by rw [Option.some.inj hpinned])
      · exact hs.kept t v ht
  · rw [hcur, hp.phase, if_pos rfl, hpage] at hv
    rw [htlb]
    exact h.fault v hv

theorem same (hp : Pins s u p f) (htlb : u.tlb = s.tlb)
    (hdirty : (u.ipt f).dirty = (s.ipt f).dirty) (hmemory : u.mainMemory = s.mainMemory)
    (hswap : u.swapFile = s.swapFile) : Same (cacheOf cfg s) (cacheOf cfg u) := by
  refine ⟨hp.line, fun g _ => ⟨?_, ?_⟩, ?_⟩
  · simp only [cacheOf, hmemory]
  · have hd : (u.ipt g).dirty = (s.ipt g).dirty := by
      by_cases hg : g = f
      · rw [hg, hdirty]
      · rw [hp.others g hg]
    simp only [cacheOf, htlb, hd]
  · funext k o
    simp only [cacheOf, storedPage, hp.pageTable, hswap]

end Pins

theorem Inv.search_found [DecidableEq Space] (h : Inv cfg s) {v f : ℕ}
    (hp : s.phase s.currentThread = .searching v) (hs : findResident cfg s v = some f) :
    Inv cfg (releaseIPTLock (setUse s f true) (.found v f)) ∧
      Same (cacheOf cfg s) (cacheOf cfg (releaseIPTLock (setUse s f true) (.found v f))) := by
  have hfind := List.find?_some hs
  have hlt := List.mem_range.mp (List.mem_of_find?_eq_some hs)
  simp only [Bool.and_eq_true, decide_eq_true_eq, Bool.not_eq_true'] at hfind
  obtain ⟨⟨⟨hvalid, hpage⟩, hspace⟩, huse⟩ := hfind
  have hfree := h.line_unpinned huse
  have hpins : Pins s (releaseIPTLock (setUse s f true) (.found v f)) (.found v f) f :=
    ⟨setPhase_phase _ _, rfl, by simp [hp, Phase.pinned?], hfree, hlt,
      ⟨(s.ipt f).dirty, by simp [releaseIPTLock, setUse, State.setIPT, State.setPhase]⟩,
      fun g hg => by simp [releaseIPTLock, setUse, State.setIPT, State.setPhase, hg],
      fun g => ⟨Or.inr, fun hh => hh.elim (fun he => he ▸ (h.frame.valid f hvalid).1) id⟩,
      rfl, h.frame.listed, Or.inl ⟨hvalid, rfl⟩⟩
  have hdirty : ((releaseIPTLock (setUse s f true) (.found v f)).ipt f).dirty =
      (s.ipt f).dirty := by
    simp [releaseIPTLock, setUse, State.setIPT, State.setPhase]
  have hlock := h.lock_release (p := .found v f) (by simp [hp, Phase.holdsIPT]) rfl
  refine ⟨⟨⟨hlock.table, hlock.ipt⟩, hpins.frame h.frame, hpins.lineInv h.line ?_ ?_,
    hpins.tlbInv h.tlb rfl rfl hdirty (by simp [hp, Phase.page?]) (by simp),
    ⟨h.swap.place, h.swap.apart⟩⟩, hpins.same rfl hdirty rfl rfl⟩
  · rintro w ⟨⟩
    exact line_eq_some.mpr ⟨hvalid, fun t ht => hfree t (Phase.pinned?_of_loads? ht), hspace,
      hpage.symm⟩
  · simp [Phase.seeks?]

theorem Inv.take_free (h : Inv cfg s) {v f : ℕ}
    (hp : s.phase s.currentThread = .choosing v)
    (hs : bitMapFind s.mainMemoryBitmap numPhysPages = some f)
    (hu : u = releaseIPTLock (setUse
      { s with mainMemoryBitmap := Function.update s.mainMemoryBitmap f true } f true)
      (.loading v f)) :
    Inv cfg u ∧ Same (cacheOf cfg s) (cacheOf cfg u) := by
  have hfree : s.mainMemoryBitmap f = false := by simpa using List.find?_some hs
  have hlt := List.mem_range.mp (List.mem_of_find?_eq_some hs)
  have hinvalid : (s.ipt f).valid = false := by
    by_contra hv
    simp [(h.frame.valid f (by simpa using hv)).1] at hfree
  have hpins : Pins s u (.loading v f) f := by
    subst hu
    refine ⟨setPhase_phase _ _, rfl, by simp [hp, Phase.pinned?], fun t ht => ?_, hlt,
      ⟨(s.ipt f).dirty, by simp [releaseIPTLock, setUse, State.setIPT, State.setPhase]⟩,
      fun g hg => by simp [releaseIPTLock, setUse, State.setIPT, State.setPhase, hg],
      fun g => ?_, rfl, h.frame.listed, Or.inr ⟨hinvalid, rfl⟩⟩
    · simp [(h.frame.pinned t f ht).2.2] at hfree
    · by_cases hg : g = f <;>
        simp [releaseIPTLock, setUse, State.setIPT, State.setPhase, hg]
  have hdirty : (u.ipt f).dirty = (s.ipt f).dirty := by
    simp [hu, releaseIPTLock, setUse, State.setIPT, State.setPhase]
  have hlock := h.lock_release (p := .loading v f) (by simp [hp, Phase.holdsIPT]) rfl
  subst hu
  refine ⟨⟨⟨hlock.table, hlock.ipt⟩, hpins.frame h.frame, hpins.lineInv h.line (by simp) ?_,
    hpins.tlbInv h.tlb rfl rfl hdirty (by simp [hp, Phase.page?]) (by simp),
    ⟨h.swap.place, h.swap.apart⟩⟩, hpins.same rfl hdirty rfl rfl⟩
  rintro w ⟨⟩
  exact h.line.seeks s.currentThread v (by simp [hp, Phase.seeks?])

/-! The victim of `Evict` leaves the TLB. -/

/-- If `Evict` takes this frame, the dirty bit that only the TLB has is not lost: the next slot to
be filled is valid. -/
def KeepsDirtyBit (s : State Thread Space) (f : ℕ) : Prop :=
  (s.tlb s.currentTLB).valid = true ∨ (s.ipt f).dirty = true ∨
    ∀ i, (s.tlb i).valid = true → (s.tlb i).physicalPage = f → (s.tlb i).dirty = false

structure Cleared (s u : State Thread Space) (f : ℕ) : Prop where
  frame : ∃ tlb ipt, u = { s with tlb := tlb, ipt := ipt }
  valid : ∀ j, (u.tlb j).valid = true → u.tlb j = s.tlb j ∧ (s.tlb j).physicalPage ≠ f
  others : ∀ j, (s.tlb j).physicalPage ≠ f → u.tlb j = s.tlb j
  ipt : ∀ g, g ≠ f → u.ipt g = s.ipt g
  entry : ∃ d, u.ipt f = { s.ipt f with dirty := d } ∧
    ((∀ i, (s.tlb i).valid = true → (s.tlb i).physicalPage = f →
        (s.ipt f).dirty = true → (s.tlb i).dirty = true) → KeepsDirtyBit s f →
      (d = true ↔ (s.ipt f).dirty = true ∨
        ∃ i, (s.tlb i).valid = true ∧ (s.tlb i).physicalPage = f ∧ (s.tlb i).dirty = true))

omit [DecidableEq Thread] in
theorem cleared_evictFromTLB (honce : ∀ i j, (s.tlb i).valid = true → (s.tlb j).valid = true →
    (s.tlb i).physicalPage = (s.tlb j).physicalPage → i = j) (f : ℕ) :
    Cleared s (evictFromTLB s f) f := by
  by_cases hex : ∃ i, (s.tlb i).physicalPage = f ∧ (s.tlb i).valid = true
  · obtain ⟨i, hi⟩ := hex
    have hone : ∀ j, (s.tlb j).physicalPage = f → (s.tlb j).valid = true → j = i :=
      fun j hp hv => honce j i hv hi.2 (hp.trans hi.1.symm)
    have hex' : (∃ j, (s.tlb j).valid = true ∧ (s.tlb j).physicalPage = f ∧
        (s.tlb j).dirty = true) ↔ (s.tlb i).dirty = true := by
      constructor
      · rintro ⟨j, hv, hp, hd⟩
        rwa [← hone j hp hv]
      · exact fun hd => ⟨i, hi.2, hi.1, hd⟩
    have htlb : ∀ j, (evictSlot f s i).tlb j =
        if j = i then { s.tlb i with valid := false } else s.tlb j := by
      intro j
      rw [evictSlot, if_pos hi]
      by_cases hcur : (s.tlb s.currentTLB).valid = true <;> by_cases hj : j = i <;>
        simp [State.invalidate, State.setTLB, State.setIPT, hcur, hj]
    rw [evictFromTLB_one hi hone]
    refine ⟨evictFromTLB_one hi hone ▸ evictFromTLB_frame s f, fun j hj => ?_, fun j hj => ?_,
      fun g hg => ?_, ?_⟩
    · rw [htlb] at hj ⊢
      split_ifs at hj ⊢ with hji
      · exact ⟨rfl, fun hp => hji (hone j hp hj)⟩
    · rw [htlb, if_neg]
      rintro rfl
      exact hj hi.1
    · rw [evictSlot, if_pos hi]
      split_ifs
      · simp [State.invalidate, State.setTLB, State.setIPT, hg]
      · rfl
    · rw [evictSlot, if_pos hi]
      by_cases hcur : (s.tlb s.currentTLB).valid = true
      · refine ⟨(s.tlb i).dirty, by simp [State.invalidate, State.setTLB, State.setIPT, hcur],
          fun hle _ => ?_⟩
        rw [hex']
        exact ⟨Or.inr, fun hd => hd.elim (hle i hi.2 hi.1) id⟩
      · refine ⟨(s.ipt f).dirty, by simp [State.invalidate, State.setTLB, hcur],
          fun _ hk => ?_⟩
        rw [hex']
        refine ⟨Or.inl, fun hd => hd.elim id fun hd => ?_⟩
        rcases hk with hk | hk | hk
        · exact absurd hk hcur
        · exact hk
        · simp [hk i hi.2 hi.1] at hd
  · push Not at hex
    rw [evictFromTLB_none fun i hi => hex i hi.1 hi.2]
    refine ⟨⟨s.tlb, s.ipt, rfl⟩, fun j hj => ⟨rfl, fun hp => hex j hp hj⟩, fun _ _ => rfl,
      fun _ _ => rfl, (s.ipt f).dirty, rfl, fun _ _ => ⟨Or.inl, fun hd => hd.elim id ?_⟩⟩
    rintro ⟨i, hv, hp, -⟩
    exact absurd hv (hex i hp)

omit [DecidableEq Thread] in
/-- Either policy picks a frame that is not in use. -/
theorem chooseVictim_spec {random f : ℕ} {list : List ℕ}
    (h : chooseVictim cfg s random = some (f, list)) (hlist : ∀ g ∈ s.evictionList, g < numPhysPages) :
    f < numPhysPages ∧ (s.ipt f).use = false ∧ ∀ g ∈ list, g < numPhysPages := by
  unfold chooseVictim at h
  split at h
  · dsimp only at h
    split_ifs at h with hu
    obtain ⟨rfl, rfl⟩ := Prod.mk.inj (Option.some.inj h)
    exact ⟨Nat.mod_lt _ (by decide), by simpa using hu, hlist⟩
  · split at h
    · cases h
    · rename_i g rest hdrop
      obtain ⟨rfl, rfl⟩ := Prod.mk.inj (Option.some.inj h)
      have hsub : ∀ x ∈ g :: rest, x ∈ s.evictionList := by
        rw [← hdrop]
        exact fun x hx => (List.dropWhile_sublist _).subset hx
      refine ⟨hlist g (hsub g (by simp)), ?_, fun x hx => ?_⟩
      · have := List.head?_dropWhile_not (fun f => (s.ipt f).use) s.evictionList
        simpa [hdrop] using this
      · rcases List.mem_append.mp hx with hx | hx
        · exact hlist x (hsub x (by simp [hx]))
        · exact hlist x ((List.takeWhile_sublist _).subset hx)

theorem Inv.begin_eviction (h : Inv cfg s) {v f random : ℕ} {list : List ℕ}
    (hp : s.phase s.currentThread = .choosing v)
    (hfull : bitMapFind s.mainMemoryBitmap numPhysPages = none)
    (hs : chooseVictim cfg s random = some (f, list))
    (hu : u = (evictFromTLB (setUse { s with evictionList := list } f true) f).setPhase
      (.evicting v f)) :
    Inv cfg u ∧ KeepsCells (cacheOf cfg s) (cacheOf cfg u) ∧
      (KeepsDirtyBit s f → Same (cacheOf cfg s) (cacheOf cfg u)) := by
  obtain ⟨hlt, huse, hlist⟩ := chooseVictim_spec hs h.frame.listed
  have hfree := h.line_unpinned huse
  have hbit : s.mainMemoryBitmap f = true := by
    simpa using List.find?_eq_none.mp hfull f (List.mem_range.mpr hlt)
  have hvalid : (s.ipt f).valid = true := (h.frame.allocated f hlt hbit).resolve_right fun hl =>
    hl.elim fun t ht => hfree t (Phase.pinned?_of_loads? ht)
  set w := setUse { s with evictionList := list } f true with hw
  have hc : Cleared w (evictFromTLB w f) f := cleared_evictFromTLB (s := w) h.tlb.once f
  obtain ⟨tlb, ipt, he⟩ := hc.frame
  obtain ⟨d, hd, hkeeps⟩ := hc.entry
  have hwf : w.ipt f = { s.ipt f with use := true } := by simp [hw, setUse, State.setIPT]
  have hwother : ∀ g, g ≠ f → w.ipt g = s.ipt g := by
    intro g hg
    simp [hw, setUse, State.setIPT, hg]
  have hu' : u = ({ w with tlb := tlb, ipt := ipt } : State Thread Space).setPhase
      (.evicting v f) := by rw [hu, he]
  have hutlb : u.tlb = (evictFromTLB w f).tlb := by rw [hu]; rfl
  have huipt : u.ipt = (evictFromTLB w f).ipt := by rw [hu]; rfl
  have hcur : u.currentThread = s.currentThread := by rw [hu']; rfl
  have hpins : Pins s u (.evicting v f) f := by
    refine ⟨?_, rfl, by simp [hp, Phase.pinned?], hfree, hlt, ⟨d, by rw [huipt, hd, hwf]⟩,
      fun g hg => by rw [huipt, hc.ipt g hg, hwother g hg], fun g => ?_, ?_, ?_,
      Or.inl ⟨hvalid, rfl⟩⟩
    · rw [hu']
      exact setPhase_phase _ _
    · rw [hu']
      exact ⟨Or.inr, fun hh => hh.elim (fun hg => hg ▸ hbit) id⟩
    · rw [hu']
      rfl
    · rw [hu']
      exact hlist
  have hslot : ∀ i, (u.tlb i).valid = true →
      u.tlb i = s.tlb i ∧ (s.tlb i).physicalPage ≠ f := by
    intro i hi
    rw [hutlb] at hi ⊢
    exact hc.valid i hi
  have hlock : LockInv cfg u := by
    have hl := LockInv.set cfg (s := s) (p := .evicting v f) (l := s.iptLock)
      (m := s.pageTableLock)
      (fun _ => h.lock.table _ (by simp [hp, Phase.holdsTable]))
      (fun _ => h.lock.ipt _ (by simp [hp, Phase.holdsIPT]))
      (fun t _ ht => h.lock.table t ht) fun t _ ht => h.lock.ipt t ht
    rw [hu']
    exact ⟨hl.table, hl.ipt⟩
  refine ⟨⟨hlock, hpins.frame h.frame, hpins.lineInv h.line (by simp) ?_, ?_, ?_⟩,
    ⟨fun hg => ⟨hpins.line ▸ hg, by rw [hu']; rfl⟩, by rw [hu']; rfl⟩, fun hk => ?_⟩
  · rintro x ⟨⟩
    exact h.line.seeks s.currentThread v (by simp [hp, Phase.seeks?])
  · refine ⟨fun i hi => ?_, fun i j hi hj => ?_, fun x hx i hi => ?_⟩
    · obtain ⟨hi', hne⟩ := hslot i hi
      rw [hi'] at hi
      have hs := h.tlb.slot i hi
      refine ⟨?_, fun hd' => ?_, fun t x ht => ?_⟩
      · rw [hi', hpins.line, hcur]
        exact hs.line
      · rw [hi', hpins.others _ hne] at hd'
        rw [hi']
        exact hs.dirty hd'
      · rw [hi'] at ht
        rcases hpins.phase_eq ht with ⟨-, he'⟩ | ht
        · exact hne (Phase.evicting.inj he').2
        · exact hs.kept t x ht
    · rw [(hslot i hi).1, (hslot j hj).1]
      exact h.tlb.once i j ((hslot i hi).1 ▸ hi) ((hslot j hj).1 ▸ hj)
    · rw [hcur, hpins.phase, if_pos rfl] at hx
      rw [(hslot i hi).1]
      exact h.tlb.fault x (by simpa [hp, Phase.page?] using hx) i ((hslot i hi).1 ▸ hi)
  · rw [hu']
    exact ⟨h.swap.place, h.swap.apart⟩
  · refine ⟨hpins.line, fun g hg => ⟨?_, ?_⟩, ?_⟩
    · rw [hu']
      rfl
    · rw [Bool.eq_iff_iff, dirty_eq_true, dirty_eq_true]
      by_cases hgf : g = f
      · subst hgf
        have hle : ∀ i, (w.tlb i).valid = true → (w.tlb i).physicalPage = g →
            (w.ipt g).dirty = true → (w.tlb i).dirty = true := by
          intro i hi hpg hdg
          rw [hwf] at hdg
          exact (h.tlb.slot i hi).dirty (hpg ▸ hdg)
        have hk' : KeepsDirtyBit w g := by
          unfold KeepsDirtyBit
          rw [hwf]
          exact hk
        have hiff := hkeeps hle hk'
        rw [hwf] at hiff
        rw [huipt, hd]
        constructor
        · rintro (hd' | ⟨i, hi, hpg, -⟩)
          · exact hiff.mp hd'
          · exact absurd ((hslot i hi).1 ▸ hpg) (hslot i hi).2
        · exact fun hd' => Or.inl (hiff.mpr hd')
      · rw [hpins.others g hgf]
        refine or_congr Iff.rfl ⟨?_, ?_⟩
        · rintro ⟨i, hi, hpg, hdi⟩
          have hi' := (hslot i hi).1
          exact ⟨i, hi' ▸ hi, hi' ▸ hpg, hi' ▸ hdi⟩
        · rintro ⟨i, hi, hpg, hdi⟩
          have hi' : u.tlb i = s.tlb i := by
            rw [hutlb]
            exact hc.others i (by rw [show w.tlb i = s.tlb i from rfl, hpg]; exact hgf)
          exact ⟨i, by rw [hi']; exact hi, by rw [hi']; exact hpg, by rw [hi']; exact hdi⟩
    · rw [hu']
      rfl

end Nachos.Paging
