import Nachos.KernelPagingCoherence

/-! A page fault that is served while no other thread runs, from the access to the slot of the TLB. -/
namespace Nachos.Paging
open Executions WriteBack Relation

section Slots
variable {Thread Space : Type*} {s : State Thread Space} {f : ℕ}

/-- The TLB has no dirty bit that the inverted page table does not have. -/
def SlotsAgree (s : State Thread Space) : Prop :=
  ∀ i, (s.tlb i).valid = true → (s.tlb i).dirty = (s.ipt (s.tlb i).physicalPage).dirty

theorem SlotsAgree.invalidate (h : SlotsAgree s) (i : Fin tlbSize) : SlotsAgree (s.invalidate i) := by
  intro j hj
  by_cases hji : j = i
  · subst hji
    simp [State.invalidate, State.setTLB] at hj
  · simp only [State.invalidate, State.setTLB, Function.update_of_ne hji] at hj ⊢
    exact h j hj

theorem SlotsAgree.copyDirty (h : SlotsAgree s) (i : Fin tlbSize) : s.copyDirty i = s := by
  unfold State.copyDirty
  split_ifs with hv
  · have he : { s.ipt (s.tlb i).physicalPage with dirty := (s.tlb i).dirty } =
        s.ipt (s.tlb i).physicalPage := by rw [h i hv]
    rw [he, State.setIPT, Function.update_eq_self]
  · rfl

/-- A context switch only empties the TLB. -/
theorem SlotsAgree.saveState (h : SlotsAgree s) :
    ∃ tlb, saveState s = { s with tlb := tlb } ∧ ∀ i, (tlb i).valid = false := by
  have hloop : ∀ (l : List (Fin tlbSize)) (s : State Thread Space), SlotsAgree s →
      ∃ tlb, l.foldl (fun s i => (s.copyDirty i).invalidate i) s = { s with tlb := tlb } := by
    intro l
    induction l with
    | nil => exact fun s _ => ⟨s.tlb, rfl⟩
    | cons i l ih =>
      intro s h
      obtain ⟨tlb, he⟩ := ih (s.invalidate i) (h.invalidate i)
      exact ⟨tlb, by rw [List.foldl_cons, h.copyDirty, he]; rfl⟩
  obtain ⟨tlb, he⟩ := hloop (List.finRange tlbSize) s h
  refine ⟨tlb, he, fun i => ?_⟩
  have hslot := (saved_saveState s).no_slot i
  rwa [Paging.saveState, he] at hslot

theorem SlotsAgree.contextSwitch (h : SlotsAgree s) (next : Thread) :
    ∃ tlb, contextSwitch s next = { s with currentThread := next, tlb := tlb } ∧
      ∀ i, (tlb i).valid = false := by
  obtain ⟨tlb, he, hoff⟩ := h.saveState
  obtain ⟨tlb', he', hoff'⟩ : ∃ tlb', Paging.saveState { s with currentThread := next, tlb := tlb } =
      { s with currentThread := next, tlb := tlb' } ∧ ∀ i, (tlb' i).valid = false :=
    saveState (fun i hi => by simp [hoff i] at hi)
  exact ⟨tlb', by rw [Paging.contextSwitch, he, he'], hoff'⟩

/-- `Evict` takes the frame out of the TLB, and finds no dirty bit there. -/
theorem SlotsAgree.evictFromTLB (h : SlotsAgree s) (f : ℕ) :
    ∃ tlb, evictFromTLB s f = { s with tlb := tlb } ∧
      ∀ i, (tlb i).valid = true → tlb i = s.tlb i ∧ (s.tlb i).physicalPage ≠ f := by
  have hloop : ∀ (l : List (Fin tlbSize)) (s : State Thread Space), SlotsAgree s →
      ∃ tlb, l.foldl (evictSlot f) s = { s with tlb := tlb } ∧
        ∀ i, (tlb i).valid = true → tlb i = s.tlb i ∧ (i ∈ l → (s.tlb i).physicalPage ≠ f) := by
    intro l
    induction l with
    | nil => exact fun s _ => ⟨s.tlb, rfl, fun i _ => ⟨rfl, by simp⟩⟩
    | cons i l ih =>
      intro s h
      rw [List.foldl_cons]
      by_cases hi : (s.tlb i).physicalPage = f ∧ (s.tlb i).valid = true
      · have hslot : evictSlot f s i = s.invalidate i := by
          have he : { s.ipt f with dirty := (s.tlb i).dirty } = s.ipt f := by
            rw [h i hi.2, hi.1]
          rw [evictSlot, if_pos hi, he]
          simp only [State.setIPT, Function.update_eq_self, ite_self]
        rw [hslot]
        obtain ⟨tlb, he, hkept⟩ := ih (s.invalidate i) (h.invalidate i)
        refine ⟨tlb, he, fun j hj => ?_⟩
        obtain ⟨hsame, hne⟩ := hkept j hj
        by_cases hji : j = i
        · subst hji
          simp [hsame, State.invalidate, State.setTLB] at hj
        · have hslot' : (s.invalidate i).tlb j = s.tlb j := by
            simp [State.invalidate, State.setTLB, hji]
          rw [hslot'] at hsame hne
          exact ⟨hsame, fun hm => hne ((List.mem_cons.mp hm).resolve_left hji)⟩
      · rw [evictSlot, if_neg hi]
        obtain ⟨tlb, he, hkept⟩ := ih s h
        refine ⟨tlb, he, fun j hj => ?_⟩
        obtain ⟨hsame, hne⟩ := hkept j hj
        refine ⟨hsame, fun hm => ?_⟩
        rcases List.mem_cons.mp hm with rfl | hm
        · exact fun hp => hi ⟨hp, hsame ▸ hj⟩
        · exact hne hm
  obtain ⟨tlb, he, hkept⟩ := hloop (List.finRange tlbSize) s h
  exact ⟨tlb, he, fun i hi => ⟨(hkept i hi).1, (hkept i hi).2 (List.mem_finRange i)⟩⟩

theorem setUse_dirty (s : State Thread Space) (f : ℕ) (use : Bool) (g : ℕ) :
    ((setUse s f use).ipt g).dirty = (s.ipt g).dirty := by
  by_cases hg : g = f
  · subst hg
    simp [setUse, State.setIPT]
  · simp [setUse, State.setIPT, hg]

theorem SlotsAgree.keepsDirtyBit (h : SlotsAgree s) (f : ℕ) : KeepsDirtyBit s f := by
  cases hd : (s.ipt f).dirty with
  | true => exact .inr (.inl hd)
  | false =>
    refine .inr (.inr fun i hi hp => ?_)
    rw [h i hi, hp, hd]

end Slots

variable {Thread Space : Type*} [DecidableEq Thread] [DecidableEq Space]
  {cfg : Config Thread Space} {s u : State Thread Space} {v f : ℕ}

/-! Steps that no program sees. -/

/-- A step of the current thread that writes no byte, and in which `Evict` loses no dirty bit. -/
def QuietStep (cfg : Config Thread Space) (s u : State Thread Space) : Prop :=
  u.currentThread = s.currentThread ∧ ∃ a out, (∀ next, a ≠ .contextSwitch next) ∧
    step cfg s a = .ok (u, out) ∧ EvictsSafely cfg ⟨s, (a, out), u⟩ ∧
    ∀ b va, wrote cfg ⟨s, (a, out), u⟩ b va = none

abbrev Quietly (cfg : Config Thread Space) : State Thread Space → State Thread Space → Prop :=
  ReflTransGen (QuietStep cfg)

theorem Quietly.extends (h : Quietly cfg s u) {init : State Thread Space}
    {tr : List (PagingStep Thread Space)} (hex : Execution (Handles (step cfg)) init tr s) :
    ∃ rest, Execution (Handles (step cfg)) init (tr ++ rest) u ∧
      ∀ x ∈ rest, EvictsSafely cfg x ∧ ∀ b va, wrote cfg x b va = none := by
  induction h with
  | refl => exact ⟨[], by simpa using hex, by simp⟩
  | @tail w u _ hstep ih =>
    obtain ⟨rest, hex', hquiet⟩ := ih
    obtain ⟨-, a, out, -, hs, hsafe, hnone⟩ := hstep
    refine ⟨rest ++ [⟨w, (a, out), u⟩], by simpa using hex'.extend (e := (a, out)) hs, ?_⟩
    intro x hx
    rcases List.mem_append.mp hx with hx | hx
    · exact hquiet x hx
    · obtain rfl := List.mem_singleton.mp hx
      exact ⟨hsafe, hnone⟩

omit [DecidableEq Thread] in
theorem lastWritten_append {rest : List (PagingStep Thread Space)} {a : Space} {va : ℕ}
    (h : ∀ x ∈ rest, wrote cfg x a va = none) (tr : List (PagingStep Thread Space)) :
    lastWritten cfg (tr ++ rest) a va = lastWritten cfg tr a va := by
  unfold lastWritten
  rw [List.foldl_append]
  generalize tr.foldl _ none = b
  induction rest generalizing b with
  | nil => rfl
  | cons x rest ih =>
    rw [List.foldl_cons, h x (by simp), Option.none_or]
    exact ih (fun y hy => h y (by simp [hy])) b

theorem quietStep_handle (random : ℕ) (hs : handlePageFault cfg s random = .ok u)
    (hthread : u.currentThread = s.currentThread)
    (hsafe : ∀ v, s.phase s.currentThread = .choosing v →
      ∀ f list, bitMapFind s.mainMemoryBitmap numPhysPages = none →
        chooseVictim cfg s random = some (f, list) → KeepsDirtyBit s f) : QuietStep cfg s u := by
  refine ⟨hthread, .handle random, none, by simp, by simp [step, hs, Except.map], ?_,
    fun _ _ => rfl⟩
  rintro random' v f list he hp hfull hvictim
  obtain rfl := Action.handle.inj he
  exact hsafe v hp f list hfull hvictim

/-- Only where the handler looks for a frame can a dirty bit be lost. -/
theorem quietStep_of_phase {p : Phase} (random : ℕ) (hp : s.phase s.currentThread = p)
    (hne : ∀ v, p ≠ .choosing v) (hs : handlePageFault cfg s random = .ok u)
    (hthread : u.currentThread = s.currentThread) : QuietStep cfg s u :=
  quietStep_handle random hs hthread fun v hc => absurd (hp.symm.trans hc) (hne v)

/-! The way through the handler. -/

/-- Nobody is in the handler. -/
structure Idle (s : State Thread Space) : Prop where
  phase : ∀ t, s.phase t = .user
  iptLock : s.iptLock = none
  pageTableLock : ∀ a, s.pageTableLock a = none
  use : ∀ g, (s.ipt g).use = false

/-- Only the current thread is in the handler; it keeps one frame and the lock of its page table. -/
structure Serving (cfg : Config Thread Space) (f : ℕ) (s : State Thread Space) : Prop where
  phase : ∀ t, t ≠ s.currentThread → s.phase t = .user
  iptLock : s.iptLock = none
  pageTableLock : ∀ a, a ≠ cfg.spaceOf s.currentThread → s.pageTableLock a = none
  use : ∀ g, g ≠ f → (s.ipt g).use = false

/-- The current thread is in the handler, with the lock of its page table. -/
def inHandler (cfg : Config Thread Space) (s : State Thread Space) (p : Phase) (locked : Bool) :
    State Thread Space :=
  { s with
    phase := Function.update s.phase s.currentThread p
    iptLock := if locked then some s.currentThread else none
    pageTableLock :=
      Function.update s.pageTableLock (cfg.spaceOf s.currentThread) (some s.currentThread) }

@[simp] theorem inHandler_phase (s : State Thread Space) (p : Phase) (locked : Bool) :
    (inHandler cfg s p locked).phase (inHandler cfg s p locked).currentThread = p := by
  simp [inHandler]

/-- An access to a page that the TLB does not show. -/
theorem Idle.searching (h : Idle s) (hmiss : findTLB s v = none) (hv : v * pageSize < 2 ^ 31)
    {a : Action Thread} (ha : a = .read (v * pageSize) 1 ∨ ∃ c, a = .write (v * pageSize) [c]) :
    Quietly cfg s (inHandler cfg s (.searching v) true) := by
  have hdiv : v * pageSize / pageSize = v := Nat.mul_div_cancel _ (by decide)
  have hfault : QuietStep cfg s (s.setPhase (.faulted v)) := by
    refine ⟨rfl, a, none, ?_, ?_, ?_, fun b va => ?_⟩ <;> rcases ha with rfl | ⟨c, rfl⟩
    · simp
    · simp
    · simpa [step, readMem, access, translate, h.phase, hdiv, hmiss] using hv
    · simpa [step, writeMem, access, translate, h.phase, hdiv, hmiss] using hv
    · rintro random w f list ⟨⟩
    · rintro random w f list ⟨⟩
    · rfl
    · rfl
  have htable : QuietStep cfg (s.setPhase (.faulted v)) (inHandler cfg s (.tableLocked v) false) := by
    refine quietStep_of_phase (p := .faulted v) 0 (by simp [State.setPhase]) (by simp) ?_ rfl
    simp [handlePageFault, acquireTableLock, State.setPhase, inHandler, h.iptLock, h.pageTableLock,
      Function.update_idem]
  have hipt : QuietStep cfg (inHandler cfg s (.tableLocked v) false)
      (inHandler cfg s (.searching v) true) := by
    refine quietStep_of_phase (p := .tableLocked v) 0 (by simp) (by simp) ?_ rfl
    simp [handlePageFault, acquireIPTLock, State.setPhase, inHandler, Function.update_idem]
  exact ((ReflTransGen.single hfault).tail htable).tail hipt

/-- The page is in no frame. -/
theorem quietly_choosing (hnone : findResident cfg s v = none) :
    Quietly cfg (inHandler cfg s (.searching v) true) (inHandler cfg s (.choosing v) true) := by
  have hnone' : findResident cfg (inHandler cfg s (.searching v) true) v = none := hnone
  have hmissing : QuietStep cfg (inHandler cfg s (.searching v) true)
      (inHandler cfg s (.missing v) false) := by
    refine quietStep_of_phase (p := .searching v) 0 (by simp) (by simp) ?_ rfl
    unfold handlePageFault
    simp only [inHandler_phase]
    unfold search
    simp only [hnone']
    simp [releaseIPTLock, State.setPhase, inHandler, Function.update_idem]
  have hchoosing : QuietStep cfg (inHandler cfg s (.missing v) false)
      (inHandler cfg s (.choosing v) true) := by
    refine quietStep_of_phase (p := .missing v) 0 (by simp) (by simp) ?_ rfl
    simp [handlePageFault, acquireIPTLock, State.setPhase, inHandler, Function.update_idem]
  exact (ReflTransGen.single hmissing).tail hchoosing

theorem fillTLB_thread (s : State Thread Space) (f : ℕ) :
    (fillTLB cfg s f).currentThread = s.currentThread := by
  obtain ⟨_, _, _, he⟩ := (filled_fillTLB cfg s f).frame
  rw [he]
  rfl

/-- The page is in a frame that nobody keeps. -/
theorem quietly_resident (hsome : findResident cfg s v = some f) :
    Quietly cfg (inHandler cfg s (.searching v) true)
      (fillTLB cfg (inHandler cfg (setUse s f true) (.found v f) false) f) := by
  have hsome' : findResident cfg (inHandler cfg s (.searching v) true) v = some f := hsome
  have hfound : QuietStep cfg (inHandler cfg s (.searching v) true)
      (inHandler cfg (setUse s f true) (.found v f) false) := by
    refine quietStep_of_phase (p := .searching v) 0 (by simp) (by simp) ?_ rfl
    unfold handlePageFault
    simp only [inHandler_phase]
    unfold search
    simp only [hsome']
    simp [releaseIPTLock, State.setPhase, inHandler, Function.update_idem, setUse, State.setIPT]
  refine (ReflTransGen.single hfound).tail
    (quietStep_of_phase (p := .found v f) 0 (by simp) (by simp) ?_ (fillTLB_thread _ f))
  unfold handlePageFault
  simp only [inHandler_phase]

/-- A free frame is marked, and `iptLock` released. -/
theorem quietStep_takeFree (hfree : bitMapFind s.mainMemoryBitmap numPhysPages = some f) :
    QuietStep cfg (inHandler cfg s (.choosing v) true) (inHandler cfg (setUse { s with
      mainMemoryBitmap := Function.update s.mainMemoryBitmap f true } f true) (.loading v f)
      false) := by
  have hmap : (inHandler cfg s (.choosing v) true).mainMemoryBitmap = s.mainMemoryBitmap := rfl
  refine quietStep_handle 0 ?_ rfl fun _ _ _ _ hfull => by simp [hmap, hfree] at hfull
  unfold handlePageFault
  simp only [inHandler_phase]
  unfold chooseFrame
  simp only [hmap, hfree]
  simp [releaseIPTLock, State.setPhase, inHandler, Function.update_idem, setUse, State.setIPT]

/-- The first half of `Evict`. -/
theorem handle_evict {random : ℕ} {list : List ℕ}
    (hfull : bitMapFind s.mainMemoryBitmap numPhysPages = none)
    (hvictim : chooseVictim cfg s random = some (f, list)) :
    handlePageFault cfg (inHandler cfg s (.choosing v) true) random =
      .ok ((evictFromTLB (setUse { inHandler cfg s (.choosing v) true with evictionList := list } f
        true) f).setPhase (.evicting v f)) := by
  have hmap : (inHandler cfg s (.choosing v) true).mainMemoryBitmap = s.mainMemoryBitmap := rfl
  have hvictim' : chooseVictim cfg (inHandler cfg s (.choosing v) true) random = some (f, list) :=
    hvictim
  unfold handlePageFault
  simp only [inHandler_phase]
  unfold chooseFrame
  simp only [hmap, hfull, hvictim']

theorem SlotsAgree.quietStep_evict {random : ℕ} {list : List ℕ} (h : SlotsAgree s)
    (hfull : bitMapFind s.mainMemoryBitmap numPhysPages = none)
    (hvictim : chooseVictim cfg s random = some (f, list)) :
    ∃ tlb, QuietStep cfg (inHandler cfg s (.choosing v) true)
        (inHandler cfg (setUse { s with evictionList := list, tlb := tlb } f true) (.evicting v f)
          true) ∧
      ∀ i, (tlb i).valid = true → tlb i = s.tlb i ∧ (s.tlb i).physicalPage ≠ f := by
  have hagree : SlotsAgree (setUse { inHandler cfg s (.choosing v) true with evictionList := list } f
      true) := fun i hi => (h i hi).trans (setUse_dirty _ f true _).symm
  obtain ⟨tlb, he, hkept⟩ := hagree.evictFromTLB f
  refine ⟨tlb, quietStep_handle random ?_ rfl fun w _ g list' _ hvictim' => ?_, hkept⟩
  · rw [handle_evict hfull hvictim, he]
    simp [State.setPhase, inHandler, Function.update_idem, setUse, State.setIPT]
  · exact h.keepsDirtyBit g

variable (cfg) in
/-- The second half of `Evict`: the page of the frame goes to a new place in the swap file. -/
theorem quietStep_writeBack {a : Space} {e : PageTableEntry} {n : ℕ} (hd : (s.ipt f).dirty = true)
    (ha : (s.ipt f).space = some a) (he : (s.pageTable a)[(s.ipt f).virtualPage]? = some e)
    (hl : e.location ≠ .inSwap) (hn : bitMapFind s.swapMap numSwapPages = some n) :
    QuietStep cfg (inHandler cfg s (.evicting v f) true) (inHandler cfg (setUse (updatePage { s with
      swapMap := Function.update s.swapMap n true
      swapFile := copyTo s.swapFile (n * pageSize) pageSize fun i => s.mainMemory (f * pageSize + i) }
      a (s.ipt f).virtualPage { e with location := .inSwap, offset := n * pageSize }) f true)
      (.loading v f) false) := by
  refine quietStep_of_phase (p := .evicting v f) 0 (by simp) (by simp) ?_ rfl
  have hd' : ((inHandler cfg s (.evicting v f) true).ipt f).dirty = true := hd
  have ha' : ((inHandler cfg s (.evicting v f) true).ipt f).space = some a := ha
  have he' : ((inHandler cfg s (.evicting v f) true).pageTable a)[
      ((inHandler cfg s (.evicting v f) true).ipt f).virtualPage]? = some e := he
  have hn' : bitMapFind (inHandler cfg s (.evicting v f) true).swapMap numSwapPages = some n := hn
  unfold handlePageFault
  simp only [inHandler_phase]
  unfold finishEviction
  rw [if_pos hd', writeToSwap]
  simp only [ha', he', if_neg hl, hn']
  simp [bind, Except.bind, releaseIPTLock, State.setPhase, inHandler, Function.update_idem, setUse,
    State.setIPT, updatePage]

/-- The page comes into the frame, and a slot of the TLB shows it. -/
theorem quietStep_load (hload : handleIPTMiss cfg (inHandler cfg s (.loading v f) false) v f = .ok u) :
    QuietStep cfg (inHandler cfg s (.loading v f) false) (fillTLB cfg u f) := by
  obtain ⟨_, hl⟩ := handleIPTMiss_spec hload
  obtain ⟨_, _, _, _, he⟩ := hl.frame
  refine quietStep_of_phase (p := .loading v f) 0 (by simp) (by simp) ?_
    ((fillTLB_thread u f).trans (by rw [he]))
  unfold handlePageFault
  simp only [inHandler_phase, hload, Except.map]

variable (cfg) in
omit [DecidableEq Thread] in
theorem handleIPTMiss_ok {e : PageTableEntry}
    (he : (s.pageTable (cfg.spaceOf s.currentThread))[v]? = some e) (f : ℕ) :
    ∃ u, handleIPTMiss cfg s v f = .ok u := by
  unfold handleIPTMiss
  simp only [he]
  exact ⟨_, rfl⟩

/-! The thread that leaves the handler. -/

theorem serving_inHandler {p : Phase} (hphase : ∀ t, s.phase t = .user)
    (hlock : ∀ a, s.pageTableLock a = none) (huse : ∀ g, g ≠ f → (s.ipt g).use = false) :
    Serving cfg f (inHandler cfg s p false) := by
  refine ⟨fun t ht => ?_, rfl, fun a ha => ?_, huse⟩
  · exact (Function.update_of_ne ht _ _).trans (hphase t)
  · exact (Function.update_of_ne ha _ _).trans (hlock a)

omit [DecidableEq Thread] in
theorem Serving.load (h : Serving cfg f s) (hl : handleIPTMiss cfg s v f = .ok u) :
    Serving cfg f u := by
  obtain ⟨e, hload⟩ := handleIPTMiss_spec hl
  obtain ⟨memory, table, ipt, list, he⟩ := hload.frame
  have huse : ∀ g, g ≠ f → (u.ipt g).use = false := fun g hg => hload.others g hg ▸ h.use g hg
  rw [he] at huse ⊢
  exact ⟨h.phase, h.iptLock, h.pageTableLock, huse⟩

theorem Serving.fill (h : Serving cfg f s) : Idle (fillTLB cfg s f) := by
  have hfill := filled_fillTLB cfg s f
  have huse : ∀ g, ((fillTLB cfg s f).ipt g).use = false := by
    intro g
    rw [hfill.ipt]
    split_ifs with hg
    · rfl
    · rw [copyDirty_ipt]
      split_ifs <;> exact h.use g hg
  obtain ⟨tlb, slot, ipt, he⟩ := hfill.frame
  rw [he] at huse ⊢
  refine ⟨fun t => ?_, h.iptLock, fun a => ?_, huse⟩
  · simp only [State.setPhase, Function.update_apply]
    split_ifs with ht
    · rfl
    · exact h.phase t ht
  · simp only [State.setPhase, Function.update_apply]
    split_ifs with ha
    · rfl
    · exact h.pageTableLock a ha

end Nachos.Paging
