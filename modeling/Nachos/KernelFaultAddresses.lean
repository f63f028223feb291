import Nachos.KernelUserCopy

/-! Page faults at any 32-bit address. The page is taken from a signed register and never compared
with the size of the page table. -/
namespace Nachos.Paging
open Executions WriteBack

variable {Thread Space : Type*} [DecidableEq Thread] [DecidableEq Space]
  {cfg : Config Thread Space} {s u : State Thread Space}

/-- `machine->ReadRegister(BadVAddrReg)/128`, as an index. -/
def badPage (va : BitVec 32) : ℕ := (va.sdiv 128#32).toNat

/-- The page table entries that a thread reads or writes in its next step of the handler. -/
def touches (cfg : Config Thread Space) (s : State Thread Space) (t : Thread) : List (Space × ℕ) :=
  match s.phase t with
  | .evicting _ f =>
    if (s.ipt f).dirty then (s.ipt f).space.toList.map fun a => (a, (s.ipt f).virtualPage) else []
  | .loading v _ => [(cfg.spaceOf t, v)]
  | _ => []

/-- `ReadMem` of the byte at an address, its exception handled. -/
def loadByte (cfg : Config Thread Space) (random : ℕ) (s : State Thread Space) (va : BitVec 32) :
    Except Stop (State Thread Space × Option (List UInt8)) :=
  match translate s va.toNat 1 false with
  | .error e => .error e
  | .ok none => serve cfg random (.ok (s.setPhase (.faulted (badPage va)), none))
  | .ok (some (s, physAddr)) => .ok (s, some [s.mainMemory physAddr])

/-- `copyin` from an address of the user program. -/
def copyinAt (cfg : Config Thread Space) (random : ℕ → ℕ) (fuel : ℕ) (s : State Thread Space)
    (va : BitVec 32) (len : ℕ) : Except Stop (Option (State Thread Space × ℤ × List UInt8)) :=
  copyinFrom (fun random s a => loadByte cfg random s (BitVec.ofNat 32 a)) random fuel s va.toNat []
    len

/-- What is promised about a fault at an address: the entries touched are in the page tables,
whatever other threads do meanwhile, and an address outside the address space is an error. -/
structure FaultServed (cfg : Config Thread Space) (s : State Thread Space) (va : BitVec 32) :
    Prop where
  inBounds : ∀ tr u, Execution (Handles (step cfg)) (s.setPhase (.faulted (badPage va))) tr u →
    (u.phase s.currentThread).page? = some (badPage va) →
    ∀ k ∈ touches cfg u s.currentThread, k.2 < (cfg.executable k.1).numPages
  refused : (cfg.executable (cfg.spaceOf s.currentThread)).numPages ≤ va.toNat / pageSize →
    ∀ random, loadByte cfg random s va = .error .addressError
  copyin : (cfg.executable (cfg.spaceOf s.currentThread)).numPages ≤ va.toNat / pageSize →
    ∀ random len, 0 < len → ∃ fuel u buf, copyinAt cfg random fuel s va len = .ok (some (u, -1, buf))

/-! Page tables keep their size. -/

def Listed (s : State Thread Space) (k : Space × ℕ) : Bool := ((s.pageTable k.1)[k.2]?).isSome

theorem listed_handle {random : ℕ} (hi : Inv cfg s) (hs : handlePageFault cfg s random = .ok u)
    (k : Space × ℕ) : Listed u k = Listed s k := by
  cases handled hs with
  | lockTable v hp hs =>
    obtain rfl := acquireTableLock_ok hs
    rfl
  | lockIPT v p hp hs =>
    obtain ⟨-, rfl⟩ := acquireIPTLock_ok hs
    rfl
  | found v f hp hf hu => rw [hu]; rfl
  | missed v hp hf hu => rw [hu]; rfl
  | takeFree v f hp hf hu => rw [hu]; rfl
  | evict v f list hp hfull hv hu =>
    obtain ⟨_, _, he⟩ := evictFromTLB_frame (setUse { s with evictionList := list } f true) f
    rw [hu, he]
    rfl
  | evicted v f hp hs =>
    obtain ⟨w, hw, rfl⟩ := finishEviction_ok hs
    have hlisted : Listed w k = Listed s k := by
      split_ifs at hw
      · obtain ⟨a, n, -, hswapped⟩ := writeToSwap_spec hi.swap hw
        obtain ⟨e, he, hk⟩ := hswapped.entry
        rw [Listed, Listed, hk]
        split_ifs with hka
        · rw [hka, he]
          rfl
        · rfl
      · obtain rfl := Except.ok.inj hw
        rfl
    exact hlisted
  | shown v f hp hu =>
    rw [hu, Listed, (fillTLB_files _ s f).1]
    rfl
  | loaded v f w hp hload hu =>
    obtain ⟨e, hl⟩ := handleIPTMiss_spec hload
    obtain ⟨e', -, -, hk⟩ := hl.entry
    rw [hu, Listed, Listed, (fillTLB_files _ w f).1, hk]
    split_ifs with hkv
    · rw [hkv, hl.listed]
      rfl
    · rfl

theorem listed_step {a : Action Thread} {out : Option (List UInt8)} (hi : Inv cfg s)
    (hs : step cfg s a = .ok (u, out)) (k : Space × ℕ) : Listed u k = Listed s k := by
  cases a with
  | read address size =>
    obtain ⟨-, -, ⟨-, rfl, -⟩ | ⟨t, p, i, ht, hperform⟩⟩ := access_cases hs
    · rfl
    · obtain ⟨rfl, -⟩ := Prod.mk.inj hperform
      rw [ht.tlb]
      rfl
  | write address bytes =>
    obtain ⟨-, -, ⟨-, rfl, -⟩ | ⟨t, p, i, ht, hperform⟩⟩ := access_cases hs
    · rfl
    · obtain ⟨rfl, -⟩ := Prod.mk.inj hperform
      rw [ht.tlb]
      rfl
  | handle random => exact listed_handle hi (step_handle hs).1 k
  | contextSwitch next =>
    obtain ⟨rfl, -⟩ := Prod.mk.inj (Except.ok.inj hs)
    obtain ⟨_, _, he⟩ := (saved_saveState { saveState s with currentThread := next }).frame
    obtain ⟨_, _, he'⟩ := (saved_saveState s).frame
    rw [contextSwitch, he]
    rw [Listed, he']
    rfl

/-- The page tables have the size that the constructor gave them. -/
def TablesSized (cfg : Config Thread Space) (s : State Thread Space) : Prop :=
  ∀ k, Listed s k = decide (k.2 < (cfg.executable k.1).numPages)

omit [DecidableEq Thread] [DecidableEq Space] in
theorem tablesSized_initial (first : Thread) : TablesSized cfg (initial cfg first) := by
  intro k
  by_cases hk : k.2 < (cfg.executable k.1).numPages <;>
    simp [Listed, initial, Executable.pageTable, hk]

theorem tablesSized_run {tr : List (PagingStep Thread Space)} (hi : Inv cfg s)
    (ht : TablesSized cfg s) (h : Execution (Handles (step cfg)) s tr u) :
    Inv cfg u ∧ TablesSized cfg u :=
  h.invariant (P := fun s => Inv cfg s ∧ TablesSized cfg s) ⟨hi, ht⟩ fun _ _ _ hP hs =>
    ⟨hP.1.step hs, fun k => (listed_step hP.1 hs k).trans (hP.2 k)⟩

omit [DecidableEq Thread] [DecidableEq Space] in
/-- Entries of frames are always in bounds; the entry of a fault is if its page is. -/
theorem touches_inBounds (hi : Inv cfg u) (ht : TablesSized cfg u) {t : Thread} {v : ℕ}
    (hv : v < (cfg.executable (cfg.spaceOf t)).numPages) (hp : (u.phase t).page? = some v) :
    ∀ k ∈ touches cfg u t, k.2 < (cfg.executable k.1).numPages := by
  intro k hk
  unfold touches at hk
  split at hk
  · rename_i w f hq
    split_ifs at hk
    · obtain ⟨-, -, -, a, e, ha, he⟩ := hi.frame.valid f (hi.frame.victim t w f hq)
      rw [ha] at hk
      obtain rfl : k = (a, (u.ipt f).virtualPage) := by simpa using hk
      have hlisted := ht (a, (u.ipt f).virtualPage)
      rw [Listed, he] at hlisted
      simpa using hlisted
    · cases hk
  · rename_i w f hq
    obtain rfl : k = (cfg.spaceOf t, w) := by simpa using hk
    rw [hq] at hp
    obtain rfl := Option.some.inj hp
    exact hv
  · cases hk

/-! The handler has no error for an address. -/

theorem handlePageFault_addressError (random : ℕ) :
    handlePageFault cfg s random ≠ .error .addressError := by
  unfold handlePageFault
  split
  · simp
  · unfold acquireTableLock
    dsimp only
    split_ifs <;> simp
  · unfold acquireIPTLock
    split_ifs <;> simp
  · simp
  · simp
  · unfold acquireIPTLock
    split_ifs <;> simp
  · unfold chooseFrame
    split
    · simp
    · split <;> simp
  · unfold finishEviction
    split_ifs
    · unfold writeToSwap
      split
      · exact fun h => by cases h
      · split
        · exact fun h => by cases h
        · dsimp only
          split
          · exact fun h => by cases h
          · exact fun h => by cases h
    · exact fun h => by cases h
  · unfold handleIPTMiss
    dsimp only
    split <;> exact fun h => by cases h

theorem runHandler_addressError (random n : ℕ) :
    ∀ s : State Thread Space, runHandler cfg random n s ≠ .error .addressError := by
  induction n with
  | zero => exact fun s h => by cases h
  | succ n ih =>
    intro s
    rw [runHandler]
    split_ifs
    · exact fun h => by cases h
    · split
      · rename_i e he
        rintro ⟨⟩
        exact handlePageFault_addressError random he
      · exact ih _

/-- A fault is never refused. -/
theorem loadByte_miss (random : ℕ) {va : BitVec 32}
    (hmiss : findTLB s (va.toNat / pageSize) = none) :
    loadByte cfg random s va ≠ .error .addressError := by
  have ht : translate s va.toNat 1 false = .ok none := by simp [translate, hmiss]
  rw [loadByte, ht]
  simp only [serve]
  split
  · rename_i e he
    rintro ⟨⟩
    exact runHandler_addressError random _ _ he
  · exact fun h => by cases h

/-! The page of an address below 2^31 is the one the handler takes. -/

theorem badPage_eq {va : BitVec 32} (h : va.toNat < 2 ^ 31) : badPage va = va.toNat / pageSize := by
  have hmsb : va.msb = false := BitVec.msb_eq_false_iff_two_mul_lt.mpr (by omega)
  have hmsb' : (128#32).msb = false := by decide
  rw [badPage, BitVec.sdiv_eq, hmsb, hmsb']
  simp [pageSize]

/-- At every fault of every run the promise is kept exactly for the addresses of the address space. -/
theorem faultServed_iff {first : Thread} {tr : List (PagingStep Thread Space)} {va : BitVec 32}
    (h : Execution (Handles (step cfg)) (initial cfg first) tr s)
    (huser : s.phase s.currentThread = .user)
    (hmiss : findTLB s (va.toNat / pageSize) = none)
    (hsize : (cfg.executable (cfg.spaceOf s.currentThread)).numPages * pageSize ≤ 2 ^ 31) :
    FaultServed cfg s va ↔
      va.toNat / pageSize < (cfg.executable (cfg.spaceOf s.currentThread)).numPages := by
  obtain ⟨hi, ht⟩ := tablesSized_run (inv_initial first) (tablesSized_initial first) h
  constructor
  · intro hserved
    by_contra hout
    exact loadByte_miss 0 hmiss (hserved.refused (by omega) 0)
  · intro hin
    have hlt : va.toNat < 2 ^ 31 := by
      have := Nat.div_add_mod' va.toNat pageSize
      have := Nat.mod_lt va.toNat (show 0 < pageSize by decide)
      unfold pageSize at *
      omega
    have hpage := badPage_eq hlt
    refine ⟨fun tr' u hex hp => ?_, fun hout => absurd hin (by omega), fun hout => absurd hin (by omega)⟩
    have hslots : ∀ i, (s.tlb i).valid = true → (s.tlb i).virtualPage ≠ badPage va := by
      intro i hv
      have hnone := List.find?_eq_none.mp hmiss i (List.mem_finRange i)
      rw [hpage]
      simpa [hv] using hnone
    obtain ⟨hi', ht'⟩ := tablesSized_run (hi.fault huser hslots).1 (show TablesSized cfg _ from ht) hex
    exact touches_inBounds hi' ht' (hpage ▸ hin) hp

theorem faultServed_secondPage : FaultServed bigProcess (initial bigProcess false) 128#32 :=
  (faultServed_iff .start rfl (by decide) (by decide)).mpr (by decide)

/-- The first address after the address space: its page gets a frame, and the handler is about to
use an entry after the end of the page table. -/
theorem stray_address_gets_frame : ∃ tr u,
    Execution (Handles (step bigProcess))
      ((initial bigProcess false).setPhase (.faulted (badPage 626944#32))) tr u ∧
    u.phase false = .loading bigProgram.numPages 0 ∧ u.mainMemoryBitmap 0 = true ∧
    ¬ FaultServed bigProcess (initial bigProcess false) 626944#32 := by
  obtain ⟨tr, u, hex, -, htest⟩ := exists_of_trace (step bigProcess)
    ((initial bigProcess false).setPhase (.faulted (badPage 626944#32)))
    (List.replicate 5 (.handle 0))
    (fun r => decide (r.2.phase false = .loading 4898 0) && r.2.mainMemoryBitmap 0)
    (by decide +kernel)
  simp only [Bool.and_eq_true, decide_eq_true_eq] at htest
  obtain ⟨hp, hframe⟩ := htest
  have hpages : bigProgram.numPages = 4898 := by decide
  refine ⟨tr, u, hex, hpages ▸ hp, hframe, fun hserved => ?_⟩
  have hpage : (u.phase false).page? = some (badPage 626944#32) := by
    rw [hp]
    decide
  have htouched : (0, 4898) ∈ touches bigProcess u false := by simp [touches, hp, bigProcess]
  have hlt : 4898 < bigProgram.numPages := hserved.inBounds tr u hex hpage _ htouched
  omega

end Nachos.Paging
