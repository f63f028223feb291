import Nachos.Executions

/-! Demand paging: `Machine::Translate`, the page fault handler of `userprog/exception.cc` and the
context switch of `userprog/addrspace.cc`. The handler can lose the processor where it takes or
releases a lock and inside `Evict`, where interrupts come back on; every stretch between two such
places is one step. A word is the list of its bytes in main memory. -/
namespace Nachos.Paging
open Executions

def pageSize : ℕ := 128
def tlbSize : ℕ := 4
def numPhysPages : ℕ := 4096
def numSwapPages : ℕ := 8192
def maxThreads : ℕ := 100
def userStackSize : ℕ := 1024

instance : NeZero tlbSize := ⟨by decide⟩

def divRoundUp (n s : ℕ) : ℕ := n / s + if n % s = 0 then 0 else 1

theorem lt_divRoundUp_iff {n s v : ℕ} (hs : 0 < s) : v < divRoundUp n s ↔ v * s < n := by
  have hn := Nat.div_add_mod n s
  have hm := Nat.mod_lt n hs
  unfold divRoundUp
  split_ifs with h
  · rw [Nat.add_zero, Nat.lt_div_iff_mul_lt' (Nat.dvd_of_mod_eq_zero h), Nat.mul_comm]
  · rw [Nat.lt_succ_iff, Nat.le_div_iff_mul_le hs]
    refine ⟨fun hle => hle.lt_of_ne ?_, le_of_lt⟩
    rintro rfl
    simp at h

theorem divRoundUp_mono {m n s : ℕ} (hs : 0 < s) (h : m ≤ n) : divRoundUp m s ≤ divRoundUp n s := by
  refine le_of_forall_lt fun v hv => ?_
  rw [lt_divRoundUp_iff hs] at hv ⊢
  exact hv.trans_le h

structure TranslationEntry where
  virtualPage : ℕ
  physicalPage : ℕ
  valid : Bool
  readOnly : Bool
  use : Bool
  dirty : Bool

structure IPTEntry (Space : Type*) extends TranslationEntry where
  space : Option Space

inductive DiskLocation
  | inExecutable
  | inMemory
  | inSwap
  | uninit
  deriving DecidableEq, Repr

structure PageTableEntry extends TranslationEntry where
  location : DiskLocation
  offset : ℕ

/-- The sizes and the position in a NOFF header, and the file. Code and initialised data are
contiguous in the file, as they are in the address space. -/
structure Executable where
  codeSize : ℕ
  initDataSize : ℕ
  uninitDataSize : ℕ
  inFileAddr : ℕ
  file : List UInt8

namespace Executable

def numPages (e : Executable) : ℕ :=
  divRoundUp (e.codeSize + e.initDataSize + e.uninitDataSize) pageSize +
    maxThreads * divRoundUp userStackSize pageSize

def numExecutablePages (e : Executable) : ℕ := divRoundUp (e.codeSize + e.initDataSize) pageSize

/-- The page table that the constructor of `AddrSpace` leaves. -/
def pageTable (e : Executable) : List PageTableEntry :=
  (List.range e.numPages).map fun i =>
    { virtualPage := i, physicalPage := 0, valid := false, readOnly := false, use := false,
      dirty := false
      location := if i < e.numExecutablePages then .inExecutable else .uninit
      offset := e.inFileAddr + i * pageSize }

theorem numExecutablePages_le (e : Executable) : e.numExecutablePages ≤ e.numPages :=
  (divRoundUp_mono (by decide) (Nat.le_add_right _ _)).trans (Nat.le_add_right _ _)

end Executable

inductive EvictionPolicy
  | fifo
  | rand
  deriving DecidableEq, Repr

/-- The threads with their address spaces, the programs and the policy. -/
structure Config (Thread Space : Type*) where
  spaceOf : Thread → Space
  executable : Space → Executable
  evictionPolicy : EvictionPolicy

/-- Where a thread is in `HandlePageFault`, with the page and the frame it has so far. -/
inductive Phase
  | user
  | faulted (vpn : ℕ)
  | tableLocked (vpn : ℕ)
  /-- about to search the inverted page table -/
  | searching (vpn : ℕ)
  | found (vpn ppn : ℕ)
  | missing (vpn : ℕ)
  /-- about to look for a free frame or a victim -/
  | choosing (vpn : ℕ)
  /-- in `Evict`, after the loop over the TLB -/
  | evicting (vpn ppn : ℕ)
  /-- about to call `HandleIPTMiss` -/
  | loading (vpn ppn : ℕ)
  deriving DecidableEq, Repr

structure State (Thread Space : Type*) where
  currentThread : Thread
  phase : Thread → Phase
  mainMemory : ℕ → UInt8
  tlb : Fin tlbSize → TranslationEntry
  currentTLB : Fin tlbSize
  ipt : ℕ → IPTEntry Space
  pageTable : Space → List PageTableEntry
  mainMemoryBitmap : ℕ → Bool
  swapMap : ℕ → Bool
  swapFile : ℕ → UInt8
  evictionList : List ℕ
  iptLock : Option Thread
  pageTableLock : Space → Option Thread

/-- What stops a step: an exception that halts the machine, a lock that is taken, and what
the handler is not prepared for. -/
inductive Stop
  | addressError
  | readOnly
  | busError
  | blocked
  /-- a page outside the page table -/
  | noSuchPage
  | noVictim
  | swapFull
  | notEnabled
  deriving DecidableEq, Repr

inductive Action (Thread : Type*)
  | read (address size : ℕ)
  | write (address : ℕ) (bytes : List UInt8)
  /-- the current thread goes on in `HandlePageFault`; `random` is the last value of `rand()` -/
  | handle (random : ℕ)
  | contextSwitch (next : Thread)

/-- `len` bytes from `start` on are replaced. -/
def copyTo (memory : ℕ → UInt8) (start len : ℕ) (source : ℕ → UInt8) : ℕ → UInt8 :=
  fun k => if start ≤ k ∧ k < start + len then source (k - start) else memory k

variable {Thread Space : Type*} [DecidableEq Thread] [DecidableEq Space]
  {cfg : Config Thread Space} {s t : State Thread Space}

def blankEntry : TranslationEntry := ⟨0, 0, false, false, false, false⟩

/-- The valid bits of the inverted page table are those of fresh memory. -/
def initial (cfg : Config Thread Space) (first : Thread) : State Thread Space where
  currentThread := first
  phase := fun _ => .user
  mainMemory := fun _ => 0
  tlb := fun _ => blankEntry
  currentTLB := 0
  ipt := fun _ => { blankEntry with space := none }
  pageTable := fun a => (cfg.executable a).pageTable
  mainMemoryBitmap := fun _ => false
  swapMap := fun _ => false
  swapFile := fun _ => 0
  evictionList := []
  iptLock := none
  pageTableLock := fun _ => none

namespace State

def setPhase (s : State Thread Space) (p : Phase) : State Thread Space :=
  { s with phase := Function.update s.phase s.currentThread p }

def setIPT (s : State Thread Space) (f : ℕ) (e : IPTEntry Space) : State Thread Space :=
  { s with ipt := Function.update s.ipt f e }

def setTLB (s : State Thread Space) (i : Fin tlbSize) (e : TranslationEntry) :
    State Thread Space :=
  { s with tlb := Function.update s.tlb i e }

/-- `IPT[tlb[i].physicalPage].dirty = tlb[i].dirty` if the slot is valid. -/
def copyDirty (s : State Thread Space) (i : Fin tlbSize) : State Thread Space :=
  if (s.tlb i).valid then
    s.setIPT (s.tlb i).physicalPage
      { s.ipt (s.tlb i).physicalPage with dirty := (s.tlb i).dirty }
  else s

def invalidate (s : State Thread Space) (i : Fin tlbSize) : State Thread Space :=
  s.setTLB i { s.tlb i with valid := false }

end State

/-- `SaveState`, and `RestoreState`, which does the same. -/
def saveState (s : State Thread Space) : State Thread Space :=
  (List.finRange tlbSize).foldl (fun s i => (s.copyDirty i).invalidate i) s

def contextSwitch (s : State Thread Space) (next : Thread) : State Thread Space :=
  saveState { saveState s with currentThread := next }

/-! User accesses. -/

def findTLB (s : State Thread Space) (vpn : ℕ) : Option (Fin tlbSize) :=
  (List.finRange tlbSize).find? fun i => (s.tlb i).valid && (s.tlb i).virtualPage = vpn

/-- The state after a translation, with the physical address; `none` is a page fault. -/
def translate (s : State Thread Space) (address size : ℕ) (writing : Bool) :
    Except Stop (Option (State Thread Space × ℕ)) :=
  if size = 4 ∧ address % 4 ≠ 0 ∨ size = 2 ∧ address % 2 ≠ 0 then .error .addressError
  else
    match findTLB s (address / pageSize) with
    | none => .ok none
    | some i =>
      let entry := s.tlb i
      if entry.readOnly && writing then .error .readOnly
      else if entry.physicalPage ≥ numPhysPages then .error .busError
      else .ok (some (s.setTLB i { entry with use := true, dirty := entry.dirty || writing },
        entry.physicalPage * pageSize + address % pageSize))

/-- An access of 1, 2 or 4 bytes at an address that is not negative as an `int`: the exception, or
what is done at the physical address. -/
def access (s : State Thread Space) (address size : ℕ) (writing : Bool)
    (perform : State Thread Space → ℕ → State Thread Space × Option (List UInt8)) :
    Except Stop (State Thread Space × Option (List UInt8)) :=
  if s.phase s.currentThread = .user ∧ (size = 1 ∨ size = 2 ∨ size = 4) ∧ address < 2 ^ 31 then
    match translate s address size writing with
    | .error e => .error e
    | .ok none => .ok (s.setPhase (.faulted (address / pageSize)), none)
    | .ok (some (s, physAddr)) => .ok (perform s physAddr)
  else .error .notEnabled

def readMem (s : State Thread Space) (address size : ℕ) :
    Except Stop (State Thread Space × Option (List UInt8)) :=
  access s address size false fun s physAddr =>
    (s, some ((List.range size).map fun i => s.mainMemory (physAddr + i)))

def writeMem (s : State Thread Space) (address : ℕ) (bytes : List UInt8) :
    Except Stop (State Thread Space × Option (List UInt8)) :=
  access s address bytes.length true fun s physAddr =>
    ({ s with mainMemory := copyTo s.mainMemory physAddr bytes.length fun i => bytes.getD i 0 },
      some [])

/-! The page fault handler. -/

def acquireTableLock (cfg : Config Thread Space) (s : State Thread Space) (next : Phase) :
    Except Stop (State Thread Space) :=
  let space := cfg.spaceOf s.currentThread
  if s.pageTableLock space = none then
    .ok ({ s with
      pageTableLock := Function.update s.pageTableLock space (some s.currentThread) }.setPhase next)
  else .error .blocked

def acquireIPTLock (s : State Thread Space) (next : Phase) : Except Stop (State Thread Space) :=
  if s.iptLock = none then .ok ({ s with iptLock := some s.currentThread }.setPhase next)
  else .error .blocked

def releaseIPTLock (s : State Thread Space) (next : Phase) : State Thread Space :=
  { s with iptLock := none }.setPhase next

def setUse (s : State Thread Space) (f : ℕ) (use : Bool) : State Thread Space :=
  s.setIPT f { s.ipt f with use := use }

def findResident (cfg : Config Thread Space) (s : State Thread Space) (vpn : ℕ) : Option ℕ :=
  (List.range numPhysPages).find? fun i =>
    (s.ipt i).valid && vpn = (s.ipt i).virtualPage &&
      (s.ipt i).space = some (cfg.spaceOf s.currentThread) && !(s.ipt i).use

/-- The search of the inverted page table; a frame found is marked in use. -/
def search (cfg : Config Thread Space) (s : State Thread Space) (vpn : ℕ) : State Thread Space :=
  match findResident cfg s vpn with
  | some f => releaseIPTLock (setUse s f true) (.found vpn f)
  | none => releaseIPTLock s (.missing vpn)

def bitMapFind (map : ℕ → Bool) (size : ℕ) : Option ℕ := (List.range size).find? fun i => !map i

/-- The victim of either policy, with the eviction list that is left. Under RAND the loop goes
on until `rand()` hits a frame that is not in use. -/
def chooseVictim (cfg : Config Thread Space) (s : State Thread Space) (random : ℕ) :
    Option (ℕ × List ℕ) :=
  match cfg.evictionPolicy with
  | .rand =>
    let f := random % numPhysPages
    if (s.ipt f).use then none else some (f, s.evictionList)
  | .fifo =>
    match s.evictionList.dropWhile fun f => (s.ipt f).use with
    | [] => none
    | f :: rest => some (f, rest ++ s.evictionList.takeWhile fun f => (s.ipt f).use)

/-- One round of the loop over the TLB in `Evict`. It asks slot `currentTLB`, not slot `i`, for
the valid bit. -/
def evictSlot (f : ℕ) (s : State Thread Space) (i : Fin tlbSize) : State Thread Space :=
  if (s.tlb i).physicalPage = f ∧ (s.tlb i).valid = true then
    let s' := if (s.tlb s.currentTLB).valid then
      s.setIPT f { s.ipt f with dirty := (s.tlb i).dirty } else s
    s'.invalidate i
  else s

def evictFromTLB (s : State Thread Space) (f : ℕ) : State Thread Space :=
  (List.finRange tlbSize).foldl (evictSlot f) s

/-- A free frame, or the first half of `Evict`. -/
def chooseFrame (cfg : Config Thread Space) (s : State Thread Space) (vpn random : ℕ) :
    Except Stop (State Thread Space) :=
  match bitMapFind s.mainMemoryBitmap numPhysPages with
  | some f =>
    .ok (releaseIPTLock (setUse
      { s with mainMemoryBitmap := Function.update s.mainMemoryBitmap f true } f true)
      (.loading vpn f))
  | none =>
    match chooseVictim cfg s random with
    | none => .error .noVictim
    | some (f, list) =>
      .ok ((evictFromTLB (setUse { s with evictionList := list } f true) f).setPhase
        (.evicting vpn f))

def updatePage (s : State Thread Space) (space : Space) (vpn : ℕ)
    (e : PageTableEntry) : State Thread Space :=
  { s with pageTable := Function.update s.pageTable space ((s.pageTable space).set vpn e) }

/-- The page goes to its place in the swap file, or to a new one. -/
def writeToSwap (s : State Thread Space) (f : ℕ) : Except Stop (State Thread Space) :=
  match (s.ipt f).space with
  | none => .error .noSuchPage
  | some space =>
    match (s.pageTable space)[(s.ipt f).virtualPage]? with
    | none => .error .noSuchPage
    | some e =>
      let place := if e.location = .inSwap then some (e.offset / pageSize)
        else bitMapFind s.swapMap numSwapPages
      match place with
      | none => .error .swapFull
      | some n =>
        .ok (updatePage { s with
          swapMap := if e.location = .inSwap then s.swapMap else Function.update s.swapMap n true
          swapFile := copyTo s.swapFile (n * pageSize) pageSize
            fun i => s.mainMemory (f * pageSize + i) } space (s.ipt f).virtualPage
          { e with location := .inSwap, offset := n * pageSize })

/-- The second half of `Evict`, and the release of `iptLock`. -/
def finishEviction (s : State Thread Space) (vpn f : ℕ) : Except Stop (State Thread Space) := do
  let s ← if (s.ipt f).dirty then writeToSwap s f else .ok s
  .ok (releaseIPTLock (setUse s f true) (.loading vpn f))

/-- The page from the executable or the swap file. A short read leaves the rest of the frame. -/
def readPage (cfg : Config Thread Space) (s : State Thread Space) (space : Space)
    (e : PageTableEntry) (f : ℕ) : ℕ → UInt8 :=
  match e.location with
  | .inExecutable => copyTo s.mainMemory (f * pageSize) pageSize fun i =>
      ((cfg.executable space).file[e.offset + i]?).getD (s.mainMemory (f * pageSize + i))
  | .inSwap => copyTo s.mainMemory (f * pageSize) pageSize fun i => s.swapFile (e.offset + i)
  | .inMemory | .uninit => s.mainMemory

def handleIPTMiss (cfg : Config Thread Space) (s : State Thread Space) (vpn f : ℕ) :
    Except Stop (State Thread Space) :=
  let space := cfg.spaceOf s.currentThread
  match (s.pageTable space)[vpn]? with
  | none => .error .noSuchPage
  | some e =>
    let dirty : Bool := e.location = .uninit
    let s' := { s with
      mainMemory := readPage cfg s space e f
      evictionList :=
        if cfg.evictionPolicy = EvictionPolicy.fifo then s.evictionList ++ [f]
        else s.evictionList }
    .ok (updatePage (s'.setIPT f { s.ipt f with
        space := some space, virtualPage := vpn, physicalPage := f, valid := true, dirty := dirty,
        readOnly := false }) space vpn
      { e with virtualPage := vpn, physicalPage := f, valid := true, dirty := dirty,
               readOnly := false })

/-- The end of `HandlePageFault`: the next slot of the TLB takes the frame. -/
def fillTLB (cfg : Config Thread Space) (s : State Thread Space) (f : ℕ) : State Thread Space :=
  let s := { s with
    pageTableLock := Function.update s.pageTableLock (cfg.spaceOf s.currentThread) none }
  let s := s.copyDirty s.currentTLB
  let s := s.setTLB s.currentTLB { (s.ipt f).toTranslationEntry with valid := true }
  let s := setUse { s with currentTLB := s.currentTLB + 1 } f false
  (s.setTLB s.currentTLB { s.tlb s.currentTLB with use := false }).setPhase .user

def handlePageFault (cfg : Config Thread Space) (s : State Thread Space) (random : ℕ) :
    Except Stop (State Thread Space) :=
  match s.phase s.currentThread with
  | .user => .error .notEnabled
  | .faulted vpn => acquireTableLock cfg s (.tableLocked vpn)
  | .tableLocked vpn => acquireIPTLock s (.searching vpn)
  | .searching vpn => .ok (search cfg s vpn)
  | .found _ f => .ok (fillTLB cfg s f)
  | .missing vpn => acquireIPTLock s (.choosing vpn)
  | .choosing vpn => chooseFrame cfg s vpn random
  | .evicting vpn f => finishEviction s vpn f
  | .loading vpn f => (handleIPTMiss cfg s vpn f).map fun s => fillTLB cfg s f

/-- One step of the machine, with the bytes that an access returns. -/
def step (cfg : Config Thread Space) (s : State Thread Space) :
    Action Thread → Except Stop (State Thread Space × Option (List UInt8))
  | .read address size => readMem s address size
  | .write address bytes => writeMem s address bytes
  | .handle random => (handlePageFault cfg s random).map fun s => (s, none)
  | .contextSwitch next => .ok (contextSwitch s next, none)

abbrev PagingStep (Thread Space : Type*) :=
  Transition (State Thread Space) (Action Thread × Option (List UInt8))

end Nachos.Paging
