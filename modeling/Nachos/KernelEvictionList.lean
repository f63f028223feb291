import Nachos.KernelSwapSlots

/-! The eviction list under FIFO. Exit frees frames and leaves them in the list. -/
namespace Nachos.Paging
open Executions WriteBack

/-- The frame that is in no list: its page leaves or comes in. -/
def Phase.takes? : Phase → Option ℕ
  | .evicting _ f | .loading _ f => some f
  | _ => none

theorem Phase.pinned?_of_takes? {p : Phase} {f : ℕ} (h : p.takes? = some f) :
    p.pinned? = some f := by
  cases p <;> simp_all [takes?, pinned?]

/-- The loop of `Evict` under FIFO, with at most so many rounds. -/
def evictLoop (use : ℕ → Bool) : ℕ → List ℕ → Option (ℕ × List ℕ)
  | 0, _ | _ + 1, [] => none
  | n + 1, f :: list => if use f then evictLoop use n (list ++ [f]) else some (f, list)

theorem evictLoop_eq {use : ℕ → Bool} {f : ℕ} (hf : use f = false) (a : List ℕ) :
    ∀ b : List ℕ, (∀ g ∈ a, use g = true) →
      evictLoop use (a.length + 1) (a ++ f :: b) = some (f, b ++ a) := by
  induction a with
  | nil => exact fun b _ => by simp [evictLoop, hf]
  | cons g a ih =>
    intro b ha
    have hg := ha g (by simp)
    have hrest := ih (b ++ [g]) fun x hx => ha x (by simp [hx])
    simpa [evictLoop, hg] using hrest

variable {Thread Space : Type*} [DecidableEq Thread] [DecidableEq Space]
  {cfg : Config Thread Space} {s u : State Thread Space}

/-- What is promised about the list. -/
structure ListRight (cfg : Config Thread Space) (s : State Thread Space) : Prop where
  idle : (∀ t, s.phase t = .user) → s.evictionList.Nodup ∧
    ∀ f, (f ∈ s.evictionList ↔ (s.ipt f).valid = true) ∧
      (f ∈ s.evictionList → s.mainMemoryBitmap f = true)
  evicts : (∃ f ∈ s.evictionList, (s.ipt f).use = false) → ∀ random, ∃ f list rounds,
    evictLoop (fun f => (s.ipt f).use) rounds s.evictionList = some (f, list) ∧
    chooseVictim cfg s random = some (f, list) ∧ (s.ipt f).valid = true ∧ (s.ipt f).use = false

structure ListInv (s : State Thread Space) : Prop where
  nodup : s.evictionList.Nodup
  listed : ∀ f, f ∈ s.evictionList ↔ f < numPhysPages ∧ s.mainMemoryBitmap f = true ∧
    ∀ t, (s.phase t).takes? ≠ some f

omit [DecidableEq Thread] [DecidableEq Space] in
theorem ListInv.resident (h : ListInv s) (hi : FrameInv s) {f : ℕ} (hf : f ∈ s.evictionList) :
    (s.ipt f).valid = true := by
  obtain ⟨hlt, hbit, htakes⟩ := (h.listed f).mp hf
  refine (hi.allocated f hlt hbit).resolve_right ?_
  rintro ⟨t, ht⟩
  refine htakes t ?_
  cases hp : s.phase t <;> simp_all [Phase.loads?, Phase.takes?]

omit [DecidableEq Thread] [DecidableEq Space] in
/-- The list is split before its first frame that is not in use. -/
theorem split_at_unused (h : ∃ f ∈ s.evictionList, (s.ipt f).use = false) :
    ∃ a f b, s.evictionList = a ++ f :: b ∧ (∀ g ∈ a, (s.ipt g).use = true) ∧
      (s.ipt f).use = false ∧ s.evictionList.takeWhile (fun f => (s.ipt f).use) = a ∧
      s.evictionList.dropWhile (fun f => (s.ipt f).use) = f :: b := by
  have happend := List.takeWhile_append_dropWhile (p := fun f => (s.ipt f).use) (l := s.evictionList)
  cases hdrop : s.evictionList.dropWhile fun f => (s.ipt f).use with
  | nil =>
    obtain ⟨f, hf, hu⟩ := h
    have hall := List.dropWhile_eq_nil_iff.mp hdrop f hf
    simp [hu] at hall
  | cons f b =>
    rw [hdrop] at happend
    refine ⟨_, f, b, happend.symm, ?_, ?_, rfl, rfl⟩
    · exact fun g hg => List.mem_takeWhile_imp (p := fun f => (s.ipt f).use) hg
    · have hhead := List.head?_dropWhile_not (fun f => (s.ipt f).use) s.evictionList
      simpa [hdrop] using hhead

omit [DecidableEq Thread] [DecidableEq Space] in
theorem ListInv.listRight (h : ListInv s) (hi : FrameInv s) (hfifo : cfg.evictionPolicy = .fifo) :
    ListRight cfg s := by
  refine ⟨fun hidle => ⟨h.nodup, fun f => ⟨⟨h.resident hi, fun hv => ?_⟩, fun hf => ?_⟩⟩,
    fun hex random => ?_⟩
  · obtain ⟨hbit, hlt, -⟩ := hi.valid f hv
    exact (h.listed f).mpr ⟨hlt, hbit, fun t => by simp [hidle t, Phase.takes?]⟩
  · exact ((h.listed f).mp hf).2.1
  · obtain ⟨a, f, b, hl, ha, hu, htake, hdrop⟩ := split_at_unused hex
    refine ⟨f, b ++ a, a.length + 1, ?_, ?_, h.resident hi (hl ▸ by simp), hu⟩
    · rw [hl]
      exact evictLoop_eq hu a b ha
    · simp only [chooseVictim, hfifo, hdrop, htake]

/-! The list over steps. -/

omit [DecidableEq Thread] [DecidableEq Space] in
theorem listInv_initial (first : Thread) : ListInv (initial cfg first) :=
  ⟨List.nodup_nil, by simp [initial]⟩

omit [DecidableEq Space] in
/-- List and bitmap are unchanged, and so is the frame that the current thread takes. -/
theorem ListInv.of_phase (h : ListInv s) (hlist : u.evictionList = s.evictionList)
    (hbit : u.mainMemoryBitmap = s.mainMemoryBitmap) {p : Phase}
    (hphase : ∀ t, u.phase t = if t = s.currentThread then p else s.phase t)
    (hp : p.takes? = (s.phase s.currentThread).takes?) : ListInv u := by
  refine ⟨hlist ▸ h.nodup, fun f => ?_⟩
  rw [hlist, h.listed, hbit]
  refine and_congr Iff.rfl (and_congr Iff.rfl (forall_congr' fun t => ?_))
  rw [hphase]
  split_ifs with ht
  · rw [ht, hp]
  · exact Iff.rfl

omit [DecidableEq Space] in
/-- One frame goes into the list or out of it. -/
theorem ListInv.change (h : ListInv s) {f : ℕ} {p : Phase} (hnodup : u.evictionList.Nodup)
    (hphase : ∀ t, u.phase t = if t = s.currentThread then p else s.phase t)
    (hf : f ∈ u.evictionList ↔
      f < numPhysPages ∧ u.mainMemoryBitmap f = true ∧ ∀ t, (u.phase t).takes? ≠ some f)
    (hothers : ∀ g, g ≠ f → (g ∈ u.evictionList ↔ g ∈ s.evictionList) ∧
      u.mainMemoryBitmap g = s.mainMemoryBitmap g ∧
      p.takes? ≠ some g ∧ (s.phase s.currentThread).takes? ≠ some g) : ListInv u := by
  refine ⟨hnodup, fun g => ?_⟩
  by_cases hg : g = f
  · exact hg ▸ hf
  · obtain ⟨hlist, hbit, hp, hp'⟩ := hothers g hg
    rw [hlist, hbit, h.listed]
    refine and_congr Iff.rfl (and_congr Iff.rfl (forall_congr' fun t => ?_))
    rw [hphase]
    split_ifs with ht
    · rw [ht]
      exact ⟨fun _ => hp, fun _ => hp'⟩
    · exact Iff.rfl

theorem ListInv.handle {random : ℕ} (h : ListInv s) (hi : Inv cfg s)
    (hfifo : cfg.evictionPolicy = .fifo) (hs : handlePageFault cfg s random = .ok u) :
    ListInv u := by
  cases handled hs with
  | lockTable v hp hs =>
    obtain rfl := acquireTableLock_ok hs
    exact h.of_phase rfl rfl (setPhase_phase _ _) (by simp [hp, Phase.takes?])
  | lockIPT v p hp hs =>
    obtain ⟨-, rfl⟩ := acquireIPTLock_ok hs
    refine h.of_phase rfl rfl (setPhase_phase _ _) ?_
    rcases hp with ⟨hp, rfl⟩ | ⟨hp, rfl⟩ <;> simp [hp, Phase.takes?]
  | found v f hp hf hu =>
    rw [hu]
    exact h.of_phase rfl rfl (setPhase_phase _ _) (by simp [hp, Phase.takes?])
  | missed v hp hf hu =>
    rw [hu]
    exact h.of_phase rfl rfl (setPhase_phase _ _) (by simp [hp, Phase.takes?])
  | takeFree v f hp hf hu =>
    have hfree : s.mainMemoryBitmap f = false := by simpa using List.find?_some hf
    have hnot : f ∉ s.evictionList := fun hmem => by simp [((h.listed f).mp hmem).2.1] at hfree
    subst hu
    refine h.change (f := f) h.nodup (setPhase_phase _ _) ?_ fun g hg =>
      ⟨Iff.rfl, Function.update_of_ne hg _ _, ?_, ?_⟩
    · refine ⟨fun hmem => absurd hmem hnot, fun hh => absurd ?_ (hh.2.2 s.currentThread)⟩
      simp [releaseIPTLock, setUse, State.setIPT, setPhase_phase, Phase.takes?]
    · simpa [Phase.takes?] using Ne.symm hg
    · simp [hp, Phase.takes?]
  | evict v f list hp hfull hv hu =>
    obtain ⟨tlb, ipt, he⟩ := evictFromTLB_frame (setUse { s with evictionList := list } f true) f
    rw [he] at hu
    subst hu
    have hperm : s.evictionList.Perm (f :: list) := by
      simp only [chooseVictim, hfifo] at hv
      split at hv
      · cases hv
      · rename_i g rest hdrop
        obtain ⟨rfl, rfl⟩ := Prod.mk.inj (Option.some.inj hv)
        have happend := List.takeWhile_append_dropWhile (p := fun f => (s.ipt f).use)
          (l := s.evictionList)
        rw [hdrop] at happend
        rw [← List.cons_append]
        exact List.Perm.trans (.of_eq happend.symm) List.perm_append_comm
    have hnodup := List.nodup_cons.mp (hperm.nodup_iff.mp h.nodup)
    refine h.change (f := f) hnodup.2 (setPhase_phase _ _) ?_ fun g hg => ⟨?_, rfl, ?_, ?_⟩
    · refine ⟨fun hmem => absurd hmem hnodup.1, fun hh => absurd ?_ (hh.2.2 s.currentThread)⟩
      simp [setUse, State.setIPT, setPhase_phase, Phase.takes?]
    · rw [hperm.mem_iff, List.mem_cons]
      exact ⟨Or.inr, fun hh => hh.resolve_left hg⟩
    · simpa [Phase.takes?] using Ne.symm hg
    · simp [hp, Phase.takes?]
  | evicted v f hp hs =>
    obtain ⟨w, hw, rfl⟩ := finishEviction_ok hs
    have hframe : ∃ table map file, w = { s with
        pageTable := table, swapMap := map, swapFile := file } := by
      split_ifs at hw
      · obtain ⟨a, n, -, hswapped⟩ := writeToSwap_spec hi.swap hw
        exact hswapped.frame
      · exact ⟨s.pageTable, s.swapMap, s.swapFile, (Except.ok.inj hw).symm⟩
    obtain ⟨_, _, _, rfl⟩ := hframe
    exact h.of_phase rfl rfl (setPhase_phase _ _) (by simp [hp, Phase.takes?])
  | shown v f hp hu =>
    obtain ⟨_, _, _, he⟩ := (filled_fillTLB cfg s f).frame
    rw [hu, he]
    exact h.of_phase rfl rfl (setPhase_phase _ _) (by simp [hp, Phase.takes?])
  | loaded v f w hp hload hu =>
    obtain ⟨e, hl⟩ := handleIPTMiss_spec hload
    have hlist := hl.fifo hfifo
    obtain ⟨_, _, _, list, rfl⟩ := hl.frame
    obtain ⟨_, _, _, he⟩ := (filled_fillTLB cfg { s with
      mainMemory := _, pageTable := _, ipt := _, evictionList := list } f).frame
    rw [hu, he]
    have htakes : (s.phase s.currentThread).takes? = some f := by simp [hp, Phase.takes?]
    have hpin := Phase.pinned?_of_takes? htakes
    have hnot : f ∉ s.evictionList := fun hmem => ((h.listed f).mp hmem).2.2 _ htakes
    obtain rfl : list = s.evictionList ++ [f] := hlist
    refine h.change (f := f) ?_ (setPhase_phase _ _) ?_ fun g hg => ⟨?_, rfl, ?_, ?_⟩
    · exact List.nodup_append.mpr ⟨h.nodup, List.nodup_singleton f, by
        simpa using fun a ha => ne_of_mem_of_not_mem ha hnot⟩
    · obtain ⟨hlt, -, hbit⟩ := hi.frame.pinned _ f hpin
      refine ⟨fun _ => ⟨hlt, hbit, fun t ht => ?_⟩, fun _ => List.mem_append_right _ (by simp)⟩
      rw [setPhase_phase] at ht
      split_ifs at ht with hc
      · cases ht
      · exact hc (hi.frame.pinnedOnce t _ f (Phase.pinned?_of_takes? ht) hpin)
    · simp [State.setPhase, hg]
    · simp [Phase.takes?]
    · simpa [htakes] using Ne.symm hg

theorem ListInv.step {a : Action Thread} {out : Option (List UInt8)} (h : ListInv s)
    (hi : Inv cfg s) (hfifo : cfg.evictionPolicy = .fifo) (hs : step cfg s a = .ok (u, out)) :
    ListInv u := by
  have hfault : ∀ v, s.phase s.currentThread = .user → ListInv (s.setPhase (.faulted v)) :=
    fun v hp => h.of_phase rfl rfl (setPhase_phase _ _) (by simp [hp, Phase.takes?])
  cases a with
  | read address size =>
    obtain ⟨hp, -, ⟨-, rfl, -⟩ | ⟨t, p, i, ht, hperform⟩⟩ := access_cases hs
    · exact hfault _ hp
    · obtain ⟨rfl, -⟩ := Prod.mk.inj hperform
      rw [ht.tlb]
      exact ⟨h.nodup, h.listed⟩
  | write address bytes =>
    obtain ⟨hp, -, ⟨-, rfl, -⟩ | ⟨t, p, i, ht, hperform⟩⟩ := access_cases hs
    · exact hfault _ hp
    · obtain ⟨rfl, -⟩ := Prod.mk.inj hperform
      rw [ht.tlb]
      exact ⟨h.nodup, h.listed⟩
  | handle random => exact h.handle hi hfifo (step_handle hs).1
  | contextSwitch next =>
    obtain ⟨rfl, -⟩ := Prod.mk.inj (Except.ok.inj hs)
    obtain ⟨_, _, he⟩ := (saved_saveState { saveState s with currentThread := next }).frame
    obtain ⟨_, _, he'⟩ := (saved_saveState s).frame
    rw [contextSwitch, he, he']
    exact ⟨h.nodup, h.listed⟩

end Nachos.Paging

namespace Nachos.Multiprogramming
open Executions Paging

variable {T : Type*} [DecidableEq T] {cfg : Paging.Config T ℕ} {s u : State T} {a : Action T}
  {out : Option (List UInt8)}

/-- The frames in use by somebody's page that a step of Exit frees. -/
def exitFrees (s : State T) : Action T → Set ℕ
  | .exit => if (s.processes.processTable (process s)).numThreadsAlive = 1 then ∅
    else {f | Releasable s.paging (process s) f ∧
      ∃ i < 8, Names s.paging (process s) (stackEnd s - i) f}
  | .clearFrames => {f | f < numPhysPages ∧ (s.paging.ipt f).space = some (process s) ∧
      s.paging.mainMemoryBitmap f = true}
  | _ => ∅

theorem Change.listInv (hc : Change cfg s u a out) (hfifo : cfg.evictionPolicy = .fifo)
    (hnone : exitFrees s a = ∅) (hi : Inv cfg s.paging) (h : ListInv s.paging) :
    Inv cfg u.paging ∧ ListInv u.paging := by
  have hsame : u.paging = s.paging → Inv cfg u.paging ∧ ListInv u.paging := fun he => he ▸ ⟨hi, h⟩
  cases hc with
  | paging b p out hon hs hu =>
    rw [hu]
    exact ⟨hi.step hs, h.step hi hfifo hs⟩
  | processes a hp => exact hsame hp
  | exit huser halive hothers hlock hexit hclearing hfree =>
    simp only [exitFrees, if_neg hothers] at hnone
    refine hsame ((freeStack_spec hfree).2.eq_self fun f hf => ?_)
    exact absurd hf (Set.eq_empty_iff_forall_notMem.mp hnone f)
  | clear hon hlock hu =>
    have hfreed := freed_freeProcess s.paging (process s)
    have he := hfreed.eq_self fun f hf => by
      have hbit : s.paging.mainMemoryBitmap f = false := by
        by_contra hb
        have hmem : f ∈ exitFrees s .clearFrames := ⟨hf.1, hf.2, by simpa using hb⟩
        simp [hnone] at hmem
      refine ⟨?_, ?_, hbit⟩
      · by_contra hv
        simp [(hi.frame.valid f (by simpa using hv)).1] at hbit
      · by_contra hu
        obtain ⟨t, ht⟩ := hi.frame.used f (by simpa using hu)
        simp [(hi.frame.pinned t f ht).2.2] at hbit
    refine hsame ?_
    rw [hu, he]

/-- In every state of every run in which Exit frees no frame. -/
theorem eviction_list {first : T} {tr : List (SystemStep T)}
    (h : Execution (Handles (step cfg)) (initial cfg first) tr s)
    (hfifo : cfg.evictionPolicy = .fifo) (hnone : ∀ x ∈ tr, exitFrees x.before x.event.1 = ∅) :
    ListRight cfg s.paging := by
  obtain ⟨hi, hl⟩ := h.invariant_of_cond (P := fun s => Inv cfg s.paging ∧ ListInv s.paging)
    (Q := fun x => exitFrees x.before x.event.1 = ∅) ⟨inv_initial first, listInv_initial first⟩
    (fun x hP hs hc => (step_change hs).listInv hfifo hc hP.1 hP.2) hnone
  exact hl.listRight hi.frame hfifo

/-- Exit has nothing to free if no entry that it reads has a valid frame. -/
def nothingToFree (x : SystemStep Bool) : Bool :=
  match x.event.1 with
  | .exit => (List.range 8).all fun i =>
      ((x.before.paging.pageTable (process x.before))[stackEnd x.before - i]?).all fun e =>
        !(x.before.paging.ipt e.physicalPage).valid
  | .clearFrames => false
  | _ => true

theorem exitFrees_of_nothingToFree {x : SystemStep Bool} (h : nothingToFree x = true) :
    exitFrees x.before x.event.1 = ∅ := by
  unfold nothingToFree at h
  split at h
  · rename_i he
    rw [he, exitFrees]
    split_ifs
    · rfl
    · refine Set.eq_empty_of_forall_notMem ?_
      rintro f ⟨hrel, i, hi, e, hentry, rfl⟩
      have hall := List.all_eq_true.mp h i (List.mem_range.mpr hi)
      simp [hentry, hrel.1] at hall
  · cases h
  · rename_i hexit hclear
    unfold exitFrees
    split
    · rename_i he
      exact absurd he hexit
    · rename_i he
      exact absurd he hclear
    · rfl

/-- A thread that has no page yet exits, and the other one faults. -/
theorem eviction_list_after_exit : ∃ tr s, Execution (Handles (step oneProgram))
      (initial oneProgram false) tr s ∧ s.paging.evictionList = [0] ∧
    (∃ x ∈ tr, x.event.1 = .exit) ∧ ListRight oneProgram s.paging := by
  obtain ⟨tr, s, hex, hmap, htest⟩ := exists_of_trace (step oneProgram) (initial oneProgram false)
    (List.flatten [[.call .startProcess, .call .start, .call .forkCheck, .call (.forkAllocate true),
        .paging (.contextSwitch true), .call .start, .exit, .paging (.contextSwitch false),
        .paging (.write 128 [5])], List.replicate 6 (.paging (.handle 0))])
    (fun r => r.1.all nothingToFree && decide (r.2.paging.evictionList = [0]))
    (by decide +kernel)
  simp only [Bool.and_eq_true, List.all_eq_true, decide_eq_true_eq] at htest
  have hexit : Action.exit ∈ tr.map fun x => x.event.1 := by simp [hmap]
  obtain ⟨x, hx, he⟩ := List.mem_map.mp hexit
  exact ⟨tr, s, hex, htest.2, ⟨x, hx, he⟩, eviction_list hex rfl fun x hx =>
    exitFrees_of_nothingToFree (htest.1 x hx)⟩

/-- A frame of a process that is gone stays in the list. -/
theorem free_frame_listed : ∃ tr s, Execution (Handles (step twoPrograms))
      (initial twoPrograms false) tr s ∧ tr.map (fun x => x.event.1) = firstExit ∧
    s.paging.evictionList = [0] ∧ s.paging.mainMemoryBitmap 0 = false ∧
    ¬ ListRight twoPrograms s.paging := by
  obtain ⟨tr, s, hex, hmap, hidle, hlist, hvalid, hfree⟩ := exists_firstExit
  refine ⟨tr, s, hex, hmap, hlist, hfree, fun h => ?_⟩
  have hmem : (s.paging.ipt 0).valid = true := ((h.idle hidle).2 0).1.mp (by simp [hlist])
  simp [hvalid] at hmem

end Nachos.Multiprogramming
