import Nachos.KernelPagingAccess

/-! Memory coherence over runs: what a program reads is what it wrote last, or the executable's
content. -/
namespace Nachos.Paging
open Executions WriteBack

variable {Thread Space : Type*} [DecidableEq Thread] [DecidableEq Space]
  {cfg : Config Thread Space} {s u : State Thread Space}

/-- The byte of the code or the initialised data at a virtual address. -/
def content (e : Executable) (va : ℕ) : Option UInt8 :=
  if va < e.codeSize + e.initDataSize then e.file[e.inFileAddr + va]? else none

/-- The byte that a step wrote at an address. -/
def wrote (cfg : Config Thread Space) (x : PagingStep Thread Space) (a : Space) (va : ℕ) :
    Option UInt8 :=
  match x.event with
  | (.write address bytes, some _) =>
    if cfg.spaceOf x.before.currentThread = a ∧ address ≤ va then bytes[va - address]? else none
  | _ => none

def lastWritten (cfg : Config Thread Space) (tr : List (PagingStep Thread Space)) (a : Space)
    (va : ℕ) : Option UInt8 :=
  tr.foldl (fun b x => (wrote cfg x a va).or b) none

/-- What a read must return, where a byte is known. -/
def expected (cfg : Config Thread Space) (tr : List (PagingStep Thread Space)) (a : Space)
    (va : ℕ) : Option UInt8 :=
  (lastWritten cfg tr a va).or (content (cfg.executable a) va)

def known (e : Space → ℕ → Option UInt8) (k : Space × ℕ) (o : Fin pageSize) : Option UInt8 :=
  e k.1 (k.2 * pageSize + o)

/-- Every byte that a read returns is the expected one. -/
def ReadsRight (cfg : Config Thread Space) (pre : List (PagingStep Thread Space))
    (x : PagingStep Thread Space) : Prop :=
  ∀ address size bytes, x.event = (.read address size, some bytes) → ∀ i < size, ∀ b,
    expected cfg pre (cfg.spaceOf x.before.currentThread) (address + i) = some b →
    bytes[i]? = some b

/-- A page that leaves its frame has its bytes in the executable or in the swap file. -/
def PageKept (cfg : Config Thread Space) (pre : List (PagingStep Thread Space))
    (x : PagingStep Thread Space) : Prop :=
  ∀ random v f a, x.event.1 = .handle random →
    x.before.phase x.before.currentThread = .evicting v f → (x.before.ipt f).space = some a →
    ∀ (o : Fin pageSize) b,
      expected cfg pre a ((x.before.ipt f).virtualPage * pageSize + o) = some b →
      storedPage cfg x.after (a, (x.before.ipt f).virtualPage) o = some b

/-- If the step is one where `Evict` takes a victim, the dirty bit is not lost. -/
def EvictsSafely (cfg : Config Thread Space) (x : PagingStep Thread Space) : Prop :=
  ∀ random v f list, x.event.1 = .handle random →
    x.before.phase x.before.currentThread = .choosing v →
    bitMapFind x.before.mainMemoryBitmap numPhysPages = none →
    chooseVictim cfg x.before random = some (f, list) → KeepsDirtyBit x.before f

omit [DecidableEq Thread] in
theorem expected_append (tr : List (PagingStep Thread Space)) (x : PagingStep Thread Space)
    (a : Space) (va : ℕ) :
    expected cfg (tr ++ [x]) a va = (wrote cfg x a va).or (expected cfg tr a va) := by
  simp [expected, lastWritten, List.foldl_append, Option.or_assoc]

omit [DecidableEq Thread] in
/-- At the start the executable holds its content. -/
theorem coherent_initial (first : Thread) :
    Coherent (cacheOf cfg (initial cfg first)) (known (expected cfg [])) := by
  refine Coherent.of_empty (fun f => by simp [cacheOf, initial, blankEntry]) ?_
  rintro ⟨a, v⟩ o b hb
  simp only [known, expected, lastWritten, List.foldl_nil, Option.none_or, content] at hb
  split_ifs at hb with hlt
  have hexec : v < (cfg.executable a).numExecutablePages :=
    (lt_divRoundUp_iff (by decide)).mpr (by omega)
  have hpages := hexec.trans_le (cfg.executable a).numExecutablePages_le
  have hentry : ((initial cfg first).pageTable a)[v]? = some
      { virtualPage := v, physicalPage := 0, valid := false, readOnly := false, use := false,
        dirty := false, location := .inExecutable
        offset := (cfg.executable a).inFileAddr + v * pageSize } := by
    simp [initial, Executable.pageTable, hpages, hexec]
  simp only [cacheOf, storedPage, hentry, Option.bind_some]
  rw [Nat.add_assoc]
  exact hb

/-- What a step of a handler does to the lines. -/
inductive HandlerEffect (cfg : Config Thread Space) (random : ℕ) (s u : State Thread Space) : Prop
  | same (h : Same (cacheOf cfg s) (cacheOf cfg u))
  /-- a victim is taken, and its dirty bit may be lost -/
  | victim (hkeeps : KeepsCells (cacheOf cfg s) (cacheOf cfg u))
      (hsame : EvictsSafely cfg ⟨s, (.handle random, none), u⟩ →
        Same (cacheOf cfg s) (cacheOf cfg u))
  | evicts (f : ℕ) (k : Space × ℕ) (h : Evicts (cacheOf cfg s) (cacheOf cfg u) f k)
  | loads (v f : ℕ) (c : Cache ℕ (Space × ℕ) (Fin pageSize) UInt8)
      (hp : s.phase s.currentThread = .loading v f)
      (h : Loads (cacheOf cfg s) c f (cfg.spaceOf s.currentThread, v))
      (hrest : ∀ o, storedPage cfg s (cfg.spaceOf s.currentThread, v) o = none →
        c.data f o = s.mainMemory (f * pageSize + o)) (hsame : Same c (cacheOf cfg u))

theorem Inv.handle {random : ℕ} (h : Inv cfg s) (hs : handlePageFault cfg s random = .ok u) :
    Inv cfg u ∧ HandlerEffect cfg random s u := by
  cases handled hs with
  | lockTable v hp hs =>
    obtain ⟨hi, hsame⟩ := h.acquireTableLock hp hs
    exact ⟨hi, .same hsame⟩
  | lockIPT v p hp hs =>
    obtain ⟨hi, hsame⟩ : Inv cfg u ∧ Same (cacheOf cfg s) (cacheOf cfg u) := by
      rcases hp with ⟨hp, rfl⟩ | ⟨hp, rfl⟩ <;>
        exact h.acquireIPTLock hs (by simp [hp, Phase.pinned?]) rfl (by simp [hp, Phase.holdsTable])
          (by simp [hp, Phase.seeks?]) (by simp [hp, Phase.page?])
    exact ⟨hi, .same hsame⟩
  | found v f hp hf hu =>
    obtain ⟨hi, hsame⟩ := h.search_found hp hf
    exact hu ▸ ⟨hi, .same hsame⟩
  | missed v hp hf hu =>
    obtain ⟨hi, hsame⟩ := h.search_missing hp hf
    exact hu ▸ ⟨hi, .same hsame⟩
  | takeFree v f hp hf hu =>
    obtain ⟨hi, hsame⟩ := h.take_free hp hf hu
    exact ⟨hi, .same hsame⟩
  | evict v f list hp hfull hv hu =>
    obtain ⟨hi, hkeeps, hsame⟩ := h.begin_eviction hp hfull hv hu
    exact ⟨hi, .victim hkeeps fun hcond => hsame (hcond random v f list rfl hp hfull hv)⟩
  | evicted v f hp hs =>
    obtain ⟨k, hi, hevicts⟩ := h.finish_eviction hp hs
    exact ⟨hi, .evicts f k hevicts⟩
  | shown v f hp hu =>
    obtain ⟨hi, hsame⟩ := h.fill_slot hp hu
    exact ⟨hi, .same hsame⟩
  | loaded v f w hp hload hu =>
    obtain ⟨hi, hloads⟩ := h.load_page hp hload
    obtain ⟨hi', hsame⟩ := hi.fill_slot (v := v) (f := f) (u := u)
      (by simp [State.setPhase]) (by rw [fillTLB_setPhase]; exact hu)
    obtain ⟨e, hl⟩ := handleIPTMiss_spec hload
    exact ⟨hi', .loads v f _ hp hloads (fun o ho => hl.memory_rest ho) hsame⟩

omit [DecidableEq Thread] [DecidableEq Space] in
/-- The handler keeps the pages, if no dirty bit is lost. -/
theorem HandlerEffect.coherent {random : ℕ} {e : Space × ℕ → Fin pageSize → Option UInt8}
    (h : HandlerEffect cfg random s u) (hcond : EvictsSafely cfg ⟨s, (.handle random, none), u⟩)
    (hc : Coherent (cacheOf cfg s) e) : Coherent (cacheOf cfg u) e := by
  cases h with
  | same h => exact hc.same h
  | victim _ hsame => exact hc.same (hsame hcond)
  | evicts f k h => exact hc.evicts h
  | loads v f c _ h _ hsame => exact (hc.loads h).same hsame

/-! Reads and writes. -/

omit [DecidableEq Thread] [DecidableEq Space] in
theorem Inv.change_memory (h : Inv cfg s) (memory : ℕ → UInt8) :
    Inv cfg { s with mainMemory := memory } :=
  ⟨⟨h.lock.table, h.lock.ipt⟩, ⟨h.frame.pinned, h.frame.pinnedOnce, h.frame.used, h.frame.valid,
    h.frame.allocated, h.frame.listed, h.frame.victim⟩, ⟨h.line.found, h.line.seeks⟩,
    ⟨fun i hi => ⟨(h.tlb.slot i hi).line, (h.tlb.slot i hi).dirty, (h.tlb.slot i hi).kept⟩,
      h.tlb.once, h.tlb.fault⟩, ⟨h.swap.place, h.swap.apart⟩⟩

theorem address_split (address i : ℕ) :
    address / pageSize * pageSize + (address % pageSize + i) = address + i := by
  rw [← Nat.add_assoc, Nat.div_add_mod']

omit [DecidableEq Thread] [DecidableEq Space] in
/-- The slot of a translation shows the page of the address. -/
theorem Inv.translated_line (h : Inv cfg s) {address size physAddr : ℕ} {writing : Bool}
    {i : Fin tlbSize} (ht : Translated s u address size writing i physAddr) :
    (cacheOf cfg s).line (s.tlb i).physicalPage =
      some (cfg.spaceOf s.currentThread, address / pageSize) :=
  ht.page ▸ (h.tlb.slot i ht.valid).line

omit [DecidableEq Thread] [DecidableEq Space] in
theorem same_translated {address size physAddr : ℕ} {i : Fin tlbSize}
    (ht : Translated s u address size false i physAddr) : Same (cacheOf cfg s) (cacheOf cfg u) := by
  rw [ht.tlb]
  refine ⟨rfl, fun g _ => ⟨rfl, ?_⟩, rfl⟩
  rw [Bool.eq_iff_iff, dirty_eq_true, dirty_eq_true]
  refine or_congr Iff.rfl (exists_congr fun j => ?_)
  by_cases hj : j = i
  · subst hj
    simp [State.setTLB]
  · simp [State.setTLB, hj]

omit [DecidableEq Space] in
theorem Inv.read {address size : ℕ} {out : Option (List UInt8)} (h : Inv cfg s)
    (hs : readMem s address size = .ok (u, out)) :
    Inv cfg u ∧ Same (cacheOf cfg s) (cacheOf cfg u) ∧
      ∀ bytes, out = some bytes → ∃ f,
        (cacheOf cfg s).line f = some (cfg.spaceOf s.currentThread, address / pageSize) ∧
        address % pageSize + size ≤ pageSize ∧
        bytes = (List.range size).map fun i =>
          s.mainMemory (f * pageSize + (address % pageSize + i)) := by
  obtain ⟨hp, hsize, ⟨hfault, rfl, rfl⟩ | ⟨t, physAddr, i, ht, hperform⟩⟩ := access_cases hs
  · obtain ⟨hi, hsame⟩ := h.fault (v := address / pageSize) hp (translate_none hfault)
    exact ⟨hi, hsame, by simp⟩
  · obtain ⟨rfl, rfl⟩ := Prod.mk.inj hperform
    refine ⟨h.touch ht, same_translated ht, ?_⟩
    rintro bytes ⟨⟩
    refine ⟨_, h.translated_line ht, ht.in_page hsize, ?_⟩
    have hmemory : t.mainMemory = s.mainMemory := by rw [ht.tlb]; rfl
    simp only [hmemory, ht.physAddr, Nat.add_assoc]

theorem readsRight_of_coherent {pre : List (PagingStep Thread Space)} {address size : ℕ}
    {out : Option (List UInt8)} (h : Inv cfg s)
    (hc : Coherent (cacheOf cfg s) (known (expected cfg pre)))
    (hs : readMem s address size = .ok (u, out)) :
    ReadsRight cfg pre ⟨s, (.read address size, out), u⟩ := by
  intro address' size' bytes he i hi b hb
  obtain ⟨haction, rfl⟩ := Prod.mk.inj he
  obtain ⟨rfl, rfl⟩ := Action.read.inj haction
  obtain ⟨-, -, hbytes⟩ := h.read hs
  obtain ⟨f, hline, hpage, rfl⟩ := hbytes bytes rfl
  have hdata : s.mainMemory (f * pageSize + (address % pageSize + i)) = b :=
    hc.cached (o := ⟨address % pageSize + i, by omega⟩) hline
      (by simpa only [known, address_split] using hb)
  simpa [List.getElem?_map, List.getElem?_range hi] using hdata

/-- A write reaches the frame of its page, and marks it. -/
theorem Inv.write {address : ℕ} {bytes : List UInt8} {out : Option (List UInt8)} (h : Inv cfg s)
    (hs : writeMem s address bytes = .ok (u, out)) :
    Inv cfg u ∧ (out = none ∧ Same (cacheOf cfg s) (cacheOf cfg u) ∨
      ∃ f k, ∀ e : Space → ℕ → Option UInt8, Writes (cacheOf cfg s) (cacheOf cfg u) (known e)
        (known fun a va => (wrote cfg ⟨s, (.write address bytes, out), u⟩ a va).or (e a va)) f k) := by
  obtain ⟨hp, hsize, ⟨hfault, rfl, rfl⟩ | ⟨t, physAddr, i, ht, hperform⟩⟩ := access_cases hs
  · obtain ⟨hi, hsame⟩ := h.fault (v := address / pageSize) hp (translate_none hfault)
    exact ⟨hi, Or.inl ⟨rfl, hsame⟩⟩
  · obtain ⟨rfl, rfl⟩ := Prod.mk.inj hperform
    refine ⟨(h.touch ht).change_memory _, Or.inr ⟨(s.tlb i).physicalPage,
      (cfg.spaceOf s.currentThread, address / pageSize), fun e => ?_⟩⟩
    have hheld := h.translated_line ht
    have hpage := ht.in_page hsize
    have hphys := ht.physAddr
    have htlb := ht.tlb
    subst htlb hphys
    have hsplit := Nat.div_add_mod' address pageSize
    refine ⟨hheld, hheld, ?_, fun o => ?_, fun g hg => ⟨rfl, fun hne => ⟨?_, ?_⟩⟩, fun j hj => ?_, rfl⟩
    · rw [dirty_eq_true]
      exact Or.inr ⟨i, by simp [State.setTLB, ht.valid]⟩
    · simp only [known, wrote, cacheOf, State.setTLB, true_and, copyTo]
      by_cases hle : address % pageSize ≤ o ∧ o < address % pageSize + bytes.length
      · rw [if_pos (by omega), if_pos (by omega)]
        refine Or.inl ?_
        have hidx : address / pageSize * pageSize + o - address = o - address % pageSize := by omega
        have hidx' : (s.tlb i).physicalPage * pageSize + o -
            ((s.tlb i).physicalPage * pageSize + address % pageSize) = o - address % pageSize := by
          omega
        rw [hidx, hidx', List.getElem?_eq_getElem (by omega), List.getD_eq_getElem _ _ (by omega)]
        rfl
      · rw [if_neg (c := (s.tlb i).physicalPage * pageSize + address % pageSize ≤ _ ∧ _) (by omega)]
        refine Or.inr ⟨?_, rfl⟩
        split_ifs with hva
        · rw [List.getElem?_eq_none (by omega)]
          rfl
        · rfl
    · funext o
      simp only [cacheOf]
      refine copyTo_out ?_
      have ho := o.isLt
      simp only [pageSize] at ho hpage ⊢
      omega
    · rw [Bool.eq_iff_iff, dirty_eq_true, dirty_eq_true]
      refine or_congr Iff.rfl (exists_congr fun j => ?_)
      by_cases hj : j = i
      · subst hj
        simp [State.setTLB, hg.symm]
      · simp [State.setTLB, hj]
    · funext o
      simp only [known, wrote]
      split_ifs with hva
      · rw [List.getElem?_eq_none, Option.none_or]
        by_contra hlt
        refine hj (Prod.ext hva.1.symm ?_)
        have ho := o.isLt
        simp only [pageSize] at hva ho hpage hsplit hlt ⊢
        omega
      · rfl

/-! Runs. -/

theorem step_handle {random : ℕ} {out : Option (List UInt8)}
    (hs : step cfg s (.handle random) = .ok (u, out)) :
    handlePageFault cfg s random = .ok u ∧ out = none := by
  simp only [step] at hs
  cases hh : handlePageFault cfg s random with
  | error e =>
    rw [hh] at hs
    cases hs
  | ok w =>
    rw [hh] at hs
    obtain ⟨rfl, rfl⟩ := Prod.mk.inj (Except.ok.inj hs)
    exact ⟨rfl, rfl⟩

theorem Inv.step {a : Action Thread} {out : Option (List UInt8)} (h : Inv cfg s)
    (hs : step cfg s a = .ok (u, out)) : Inv cfg u := by
  cases a with
  | read address size => exact (h.read hs).1
  | write address bytes => exact (h.write hs).1
  | handle random => exact (h.handle (step_handle hs).1).1
  | contextSwitch next =>
    obtain ⟨rfl, -⟩ := Prod.mk.inj (Except.ok.inj hs)
    exact (h.context_switch next).1

theorem coherent_step {a : Action Thread} {out : Option (List UInt8)}
    {e : Space → ℕ → Option UInt8} (h : Inv cfg s) (hs : step cfg s a = .ok (u, out))
    (hcond : EvictsSafely cfg ⟨s, (a, out), u⟩) (hc : Coherent (cacheOf cfg s) (known e)) :
    Coherent (cacheOf cfg u)
      (known fun b va => (wrote cfg ⟨s, (a, out), u⟩ b va).or (e b va)) := by
  cases a with
  | read address size => simpa [wrote] using hc.same (h.read hs).2.1
  | write address bytes =>
    rcases (h.write hs).2 with ⟨rfl, hsame⟩ | ⟨f, k, hwrites⟩
    · simpa [wrote] using hc.same hsame
    · exact hc.writes (hwrites e)
  | handle random =>
    obtain ⟨hh, rfl⟩ := step_handle hs
    simpa [wrote] using (h.handle hh).2.coherent hcond hc
  | contextSwitch next =>
    obtain ⟨rfl, rfl⟩ := Prod.mk.inj (Except.ok.inj hs)
    simpa [wrote] using hc.same (h.context_switch next).2

theorem inv_run {first : Thread} {tr : List (PagingStep Thread Space)}
    (h : Execution (Handles (step cfg)) (initial cfg first) tr s) : Inv cfg s :=
  h.invariant (inv_initial first) fun _ _ _ hi hs => hi.step hs

theorem coherent_run {first : Thread} {tr : List (PagingStep Thread Space)}
    (h : Execution (Handles (step cfg)) (initial cfg first) tr s)
    (hc : ∀ x ∈ tr, EvictsSafely cfg x) :
    Inv cfg s ∧ Coherent (cacheOf cfg s) (known (expected cfg tr)) := by
  refine h.history_invariant
    (P := fun tr s => Inv cfg s ∧ Coherent (cacheOf cfg s) (known (expected cfg tr)))
    ⟨inv_initial first, coherent_initial first⟩ (fun tr x hP hs hcond => ⟨hP.1.step hs, ?_⟩) hc
  have he : expected cfg (tr ++ [x]) = fun a va => (wrote cfg x a va).or (expected cfg tr a va) := by
    funext a va
    exact expected_append tr x a va
  rw [he]
  exact coherent_step hP.1 hs hcond hP.2

end Nachos.Paging
