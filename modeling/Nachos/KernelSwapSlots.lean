import Nachos.KernelMemoryCoherence
import Nachos.KernelMultiprogramming

/-! Places in the swap file: what page faults, evictions and exits do to them. -/
namespace Nachos.Paging
open Executions WriteBack

variable {Thread Space : Type*} [DecidableEq Thread] [DecidableEq Space]
  {cfg : Config Thread Space} {s u : State Thread Space}

/-- The entry of the page says IN_SWAP, with this offset. -/
def InSwap (s : State Thread Space) (k : Space × ℕ) (offset : ℕ) : Prop :=
  ∃ e, (s.pageTable k.1)[k.2]? = some e ∧ e.location = .inSwap ∧ e.offset = offset

/-- Every page in the swap file has a page of its own there. -/
structure SlotsRight (s : State Thread Space) : Prop where
  place : ∀ k o, InSwap s k o → ∃ n < numSwapPages, o = n * pageSize
  apart : ∀ k k' o o', InSwap s k o → InSwap s k' o' → k ≠ k' → o ≠ o'

structure SlotInv (s : State Thread Space) : Prop where
  swap : SwapInv s
  bound : ∀ n, s.swapMap n = true → n < numSwapPages

omit [DecidableEq Thread] [DecidableEq Space] in
theorem SlotInv.slotsRight (h : SlotInv s) : SlotsRight s := by
  have hplace : ∀ {k : Space × ℕ} {o : ℕ}, InSwap s k o → swapPlace? s k = some o := by
    rintro k o ⟨e, he, hl, rfl⟩
    simp [swapPlace?, he, hl]
  refine ⟨fun k o hk => ?_, fun k k' o o' hk hk' hne hoff => ?_⟩
  · obtain ⟨n, hn, hmap⟩ := h.swap.place k o (hplace hk)
    exact ⟨n, h.bound n hmap, hn⟩
  · exact hne (h.swap.apart k k' o (hplace hk) (hoff ▸ hplace hk'))

omit [DecidableEq Thread] [DecidableEq Space] in
theorem SlotInv.of_same (h : SlotInv s) (htable : u.pageTable = s.pageTable)
    (hmap : u.swapMap = s.swapMap) : SlotInv u := by
  have hplace : swapPlace? u = swapPlace? s := by
    unfold swapPlace?
    rw [htable]
  refine ⟨⟨?_, ?_⟩, ?_⟩
  · rw [hplace, hmap]
    exact h.swap.place
  · rw [hplace]
    exact h.swap.apart
  · rw [hmap]
    exact h.bound

omit [DecidableEq Thread] [DecidableEq Space] in
theorem slotInv_initial (first : Thread) : SlotInv (initial cfg first) := by
  exact ⟨(inv_initial first).swap, fun _ hn => by simp [initial] at hn⟩

omit [DecidableEq Thread] in
theorem SlotInv.written {f : ℕ} (h : SlotInv s) (hs : writeToSwap s f = .ok u) : SlotInv u := by
  obtain ⟨a, n, -, hw⟩ := writeToSwap_spec h.swap hs
  refine ⟨hw.swapInv h.swap, fun m hm => ?_⟩
  rcases (hw.map m).mp hm with rfl | hm
  · exact hw.bound.elim (h.bound m) id
  · exact h.bound m hm

theorem SlotInv.handle {random : ℕ} (h : SlotInv s) (hs : handlePageFault cfg s random = .ok u) :
    SlotInv u := by
  cases handled hs with
  | lockTable v hp hs => exact acquireTableLock_ok hs ▸ h.of_same rfl rfl
  | lockIPT v p hp hs => exact (acquireIPTLock_ok hs).2 ▸ h.of_same rfl rfl
  | found v f hp hf hu => exact hu ▸ h.of_same rfl rfl
  | missed v hp hf hu => exact hu ▸ h.of_same rfl rfl
  | takeFree v f hp hf hu => exact hu ▸ h.of_same rfl rfl
  | evict v f list hp hfull hv hu =>
    obtain ⟨tlb, ipt, he⟩ := evictFromTLB_frame (setUse { s with evictionList := list } f true) f
    rw [hu, he]
    exact h.of_same rfl rfl
  | evicted v f hp hs =>
    obtain ⟨w, hw, rfl⟩ := finishEviction_ok hs
    have hinv : SlotInv w := by
      split_ifs at hw
      · exact h.written hw
      · exact Except.ok.inj hw ▸ h
    exact hinv.of_same rfl rfl
  | shown v f hp hu =>
    obtain ⟨htable, hmap, -⟩ := fillTLB_files cfg s f
    exact hu ▸ h.of_same htable hmap
  | loaded v f w hp hload hu =>
    obtain ⟨htable, hmap, -⟩ := fillTLB_files cfg w f
    obtain ⟨e, hl⟩ := handleIPTMiss_spec hload
    obtain ⟨_, _, _, _, he⟩ := hl.frame
    have hinv : SlotInv w := ⟨hl.swapInv h.swap, fun n hn => h.bound n (by rwa [he] at hn)⟩
    exact hu ▸ hinv.of_same htable hmap

theorem SlotInv.step {a : Action Thread} {out : Option (List UInt8)} (h : SlotInv s)
    (hs : step cfg s a = .ok (u, out)) : SlotInv u := by
  cases a with
  | read address size =>
    obtain ⟨-, -, ⟨-, rfl, -⟩ | ⟨t, p, i, ht, hperform⟩⟩ := access_cases hs
    · exact h.of_same rfl rfl
    · obtain ⟨rfl, -⟩ := Prod.mk.inj hperform
      rw [ht.tlb]
      exact h.of_same rfl rfl
  | write address bytes =>
    obtain ⟨-, -, ⟨-, rfl, -⟩ | ⟨t, p, i, ht, hperform⟩⟩ := access_cases hs
    · exact h.of_same rfl rfl
    · obtain ⟨rfl, -⟩ := Prod.mk.inj hperform
      rw [ht.tlb]
      exact h.of_same rfl rfl
  | handle random => exact h.handle (step_handle hs).1
  | contextSwitch next =>
    obtain ⟨rfl, -⟩ := Prod.mk.inj (Except.ok.inj hs)
    obtain ⟨_, _, he⟩ := (saved_saveState { saveState s with currentThread := next }).frame
    obtain ⟨_, _, he'⟩ := (saved_saveState s).frame
    rw [contextSwitch, he, he']
    exact h.of_same rfl rfl

end Nachos.Paging

namespace Nachos.Multiprogramming
open Executions Paging

variable {T : Type*} [DecidableEq T] {cfg : Paging.Config T ℕ} {s u : State T}

/-- Exit does not touch the swap file. -/
theorem Change.slotInv {a : Action T} {out : Option (List UInt8)} (h : SlotInv s.paging)
    (hc : Change cfg s u a out) : SlotInv u.paging := by
  cases hc with
  | paging b p out hon hs hu =>
    rw [hu]
    exact h.step hs
  | processes a hp => exact hp ▸ h
  | exit huser halive hothers hlock hexit hclearing hfree =>
    obtain ⟨_, _, he⟩ := (freeStack_spec hfree).2.frame
    rw [he]
    exact h.of_same rfl rfl
  | clear hon hlock hu =>
    obtain ⟨_, _, he⟩ := (freed_freeProcess s.paging (process s)).frame
    rw [hu, he]
    exact h.of_same rfl rfl

/-- In every state of every run the pages in the swap file are in different places. -/
theorem swap_slots {first : T} {tr : List (SystemStep T)}
    (h : Execution (Handles (step cfg)) (initial cfg first) tr s) : SlotsRight s.paging :=
  (h.invariant (P := fun s => SlotInv s.paging) (slotInv_initial first)
    fun _ _ _ hP hs => (step_change hs).slotInv hP).slotsRight

/-! A run in which the frames are full. -/

/-- What the pager does for the current thread, as steps of the system. -/
theorem extends_quietly {init : State T} {tr : List (SystemStep T)} {q : Paging.State T ℕ}
    (hex : Execution (Handles (step cfg)) init tr s) (hon : inUserMemory s = true)
    (hquiet : Quietly cfg s.paging q) : q.currentThread = s.paging.currentThread ∧
      ∃ tr', Execution (Handles (step cfg)) init tr' { s with paging := q } := by
  induction hquiet with
  | refl => exact ⟨rfl, tr, hex⟩
  | @tail p u _ hstep ih =>
    obtain ⟨hthread, tr', hex'⟩ := ih
    obtain ⟨hsame, a, out, hswitch, hs, -⟩ := hstep
    refine ⟨hsame.trans hthread, _, hex'.extend (e := (.paging a, out)) ?_⟩
    have hon' : pagingEnabled { s with paging := p } a = true := by
      cases a with
      | contextSwitch next => exact absurd rfl (hswitch next)
      | _ => simpa [pagingEnabled, inUserMemory, hthread] using hon
    simp [Handles, step, hon', hs]

/-- The calls that start the first process leave the pager alone. -/
theorem exists_started : ∃ tr s,
    Execution (Handles (step bigProcess)) (initial bigProcess false) tr s ∧
    inUserMemory s = true ∧ s.paging = Paging.initial bigProcess false := by
  obtain ⟨tr, s, hex, hmap, htest⟩ := exists_of_trace (step bigProcess) (initial bigProcess false)
    [.call .startProcess, .call .start] (fun r => inUserMemory r.2) (by decide +kernel)
  have hcalls := forall_inputs (Q := fun a => ∃ c, a = .call c) hmap (by simp)
  refine ⟨tr, s, hex, htest, hex.invariant_of_cond
    (P := fun s => s.paging = Paging.initial bigProcess false) rfl ?_ hcalls⟩
  rintro ⟨s, ⟨a, out⟩, u⟩ hp hs ⟨c, rfl⟩
  obtain ⟨hs, -⟩ := ok_of_map hs
  cases call_spec hs with
  | processes _ hsame => exact hsame.trans hp

/-- Two pages have left their frames. -/
theorem swap_slots_full : ∃ tr s,
    Execution (Handles (step bigProcess)) (initial bigProcess false) tr s ∧
    (∃ o, InSwap s.paging (0, 1) o) ∧ (∃ o, InSwap s.paging (0, 2) o) ∧ SlotsRight s.paging := by
  obtain ⟨tr, s, hex, hon, hinitial⟩ := exists_started
  obtain ⟨p, hquiet, hp⟩ := (pictured_initial false).fills numPhysPages (by decide) le_rfl
  obtain ⟨q, hquiet', hq⟩ := hp.replace (f := 1) (v := numPhysPages) rfl (by decide) (by decide)
    (by decide) (by decide) (by decide) (fresh_filled le_rfl (by decide))
  have hfresh : ((Picture.filled numPhysPages).replace 1 numPhysPages).Fresh (numPhysPages + 1) := by
    refine ⟨by decide, fun j hj => ?_, by decide⟩
    simp only [Picture.replace, Picture.filled, Function.update_apply, id] at hj ⊢
    split_ifs <;> omega
  obtain ⟨u, hquiet'', hu⟩ := hq.replace (f := 2) (v := numPhysPages + 1) rfl (by decide) (by decide)
    (by decide) (by decide) (by decide) hfresh
  rw [← hinitial] at hquiet
  obtain ⟨-, tr', hex'⟩ := extends_quietly hex hon ((hquiet.trans hquiet').trans hquiet'')
  have hswapped : ∀ v < 4898, (((Picture.filled numPhysPages).replace 1 numPhysPages).replace 2
      (numPhysPages + 1)).place v = .inSwap → ∃ o, InSwap u (0, v) o := by
    intro v hv hplace
    obtain ⟨e, he, hloc, -⟩ := hu.holds.table v hv
    exact ⟨e.offset, e, he, hloc.trans hplace, rfl⟩
  exact ⟨tr', _, hex', hswapped 1 (by decide) (by decide), hswapped 2 (by decide) (by decide),
    swap_slots hex'⟩

/-! Programs with a page of code. -/

def smallProgram : Executable := ⟨128, 0, 0, 0, List.replicate 128 0⟩

/-- One process with two threads. -/
def oneProgram : Paging.Config Bool ℕ := ⟨fun _ => 0, fun _ => smallProgram, .fifo⟩

def twoPrograms : Paging.Config Bool ℕ := ⟨fun t => if t then 1 else 0, fun _ => smallProgram, .fifo⟩

/-- The first process writes to its stack and exits. -/
def firstExit : List (Action Bool) :=
  [.call .startProcess, .call .start, .call (.exec true), .paging (.write 128 [5])] ++
    List.replicate 6 (.paging (.handle 0)) ++ [.paging (.write 128 [5]), .exit, .clearFrames]

theorem exists_firstExit : ∃ tr s, Execution (Handles (step twoPrograms))
      (initial twoPrograms false) tr s ∧ tr.map (fun x => x.event.1) = firstExit ∧
    (∀ t, s.paging.phase t = .user) ∧ s.paging.evictionList = [0] ∧
    (s.paging.ipt 0).valid = false ∧ s.paging.mainMemoryBitmap 0 = false := by
  obtain ⟨tr, s, hex, hmap, htest⟩ := exists_of_trace (step twoPrograms) (initial twoPrograms false)
    firstExit.dropLast
    (fun r => decide (r.2.paging.currentThread = false) && r.2.clearing false &&
      decide (r.2.paging.iptLock = none) && decide (r.2.paging.evictionList = [0]) &&
      decide (r.2.paging.phase false = .user ∧ r.2.paging.phase true = .user) &&
      decide ((r.2.processes.thread false).process = 0 ∧ (r.2.paging.ipt 0).space = some 0))
    (by decide +kernel)
  simp only [Bool.and_eq_true, decide_eq_true_eq] at htest
  obtain ⟨⟨⟨⟨⟨hcur, hclear⟩, hlock⟩, hlist⟩, hphase, hphase'⟩, hprocess, hspace⟩ := htest
  obtain ⟨u, hstep, -, hfreed⟩ := clearFrames_ok twoPrograms (hcur ▸ hclear) hlock
  have hprocess' : process s = 0 := by rw [process, hcur, hprocess]
  obtain ⟨hentry, hbit⟩ := hfreed.freed 0 ⟨by decide, hprocess' ▸ hspace⟩
  obtain ⟨_, _, he⟩ := hfreed.frame
  refine ⟨_, u, hex.extend hstep, by rw [List.map_append, hmap]; rfl, fun t => ?_, ?_, ?_, hbit⟩
  · rw [he]
    cases t
    · exact hphase
    · exact hphase'
  · rw [he]
    exact hlist
  · rw [hentry]

end Nachos.Multiprogramming
