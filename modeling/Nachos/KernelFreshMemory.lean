import Nachos.KernelExitInvariant
import Nachos.KernelSwapSlots

/-! Memory that a process has not written: uninitialised data and stacks. `HandleIPTMiss` leaves a
frame as it is where neither the executable nor the swap file has the page. -/
namespace Nachos.Multiprogramming
open Executions Paging WriteBack

variable {T : Type*} {cfg : Paging.Config T ℕ} {s u : State T} {a : Action T}
  {out : Option (List UInt8)}

/-- An address of uninitialised data or of a stack. -/
def IsUninit (e : Executable) (va : ℕ) : Prop :=
  e.codeSize + e.initDataSize ≤ va ∧ va < e.numPages * pageSize

def pagingSteps (tr : List (SystemStep T)) : List (PagingStep T ℕ) :=
  tr.filterMap fun x =>
    match x.event with
    | (.paging a, out) => some ⟨x.before.paging, (a, out), x.after.paging⟩
    | _ => none

/-- No thread of the process has written to the address. -/
def Unwritten (cfg : Paging.Config T ℕ) (tr : List (SystemStep T)) (p va : ℕ) : Prop :=
  lastWritten cfg (pagingSteps tr) p va = none

/-- Bytes of uninitialised data and stacks that the process has not written are read as 0. -/
def ReadsZero (cfg : Paging.Config T ℕ) (pre : List (SystemStep T)) (x : SystemStep T) : Prop :=
  ∀ address size bytes, x.event = (.paging (.read address size), some bytes) → ∀ i < size,
    IsUninit (cfg.executable (cfg.spaceOf x.before.paging.currentThread)) (address + i) →
    Unwritten cfg pre (cfg.spaceOf x.before.paging.currentThread) (address + i) →
    bytes[i]? = some 0

/-- On the last page of the executable the file ends after the initialised data, or goes on with
zeros. -/
def TailBlank (e : Executable) : Prop :=
  ∀ va b, e.codeSize + e.initDataSize ≤ va → va < e.numExecutablePages * pageSize →
    e.file[e.inFileAddr + va]? = some b → b = 0

/-- If the step loads a page, the frame has zeros for the uninitialised bytes that neither file has. -/
def LoadsBlank (cfg : Paging.Config T ℕ) (s : State T) (a : Action T) : Prop :=
  ∀ random v f, a = .paging (.handle random) →
    s.paging.phase s.paging.currentThread = .loading v f → ∀ o : Fin pageSize,
    IsUninit (cfg.executable (cfg.spaceOf s.paging.currentThread)) (v * pageSize + o) →
    storedPage cfg s.paging (cfg.spaceOf s.paging.currentThread, v) o = none →
    s.paging.mainMemory (f * pageSize + o) = 0

open Classical in
/-- The bytes that must be 0. -/
noncomputable def zeros (cfg : Paging.Config T ℕ) (tr : List (SystemStep T)) (p va : ℕ) :
    Option UInt8 :=
  if IsUninit (cfg.executable p) va ∧ Unwritten cfg tr p va then some 0 else none

theorem zeros_eq_some {tr : List (SystemStep T)} {p va : ℕ} {b : UInt8} :
    zeros cfg tr p va = some b ↔
      IsUninit (cfg.executable p) va ∧ Unwritten cfg tr p va ∧ b = 0 := by
  unfold zeros
  split_ifs with h
  · simp [h, eq_comm]
  · simp only [false_iff]
    exact fun hh => h ⟨hh.1, hh.2.1⟩

theorem unwritten_append {tr : List (SystemStep T)} {b : Paging.Action T} {p va : ℕ}
    {before after : State T} : Unwritten cfg (tr ++ [⟨before, (.paging b, out), after⟩]) p va ↔
      wrote cfg ⟨before.paging, (b, out), after.paging⟩ p va = none ∧ Unwritten cfg tr p va := by
  simp [Unwritten, pagingSteps, lastWritten, List.foldl_append]

theorem Unwritten.before {tr : List (SystemStep T)} {x : SystemStep T} {p va : ℕ}
    (h : Unwritten cfg (tr ++ [x]) p va) : Unwritten cfg tr p va := by
  obtain ⟨s, ⟨a, out⟩, u⟩ := x
  cases a with
  | paging b => exact (unwritten_append.mp h).2
  | _ => simpa [Unwritten, pagingSteps] using h

/-! The invariant. -/

def KeepsZeros (cfg : Paging.Config T ℕ) (tr : List (SystemStep T)) (s : State T) : Prop :=
  Agrees (cacheOf cfg s.paging) (known (zeros cfg tr))

theorem keepsZeros_initial (first : T) (htail : ∀ p, TailBlank (cfg.executable p)) :
    KeepsZeros cfg [] (initial cfg first) := by
  have hline : ∀ f, (cacheOf cfg (Paging.initial cfg first)).line f = none := by
    intro f
    simp [cacheOf, Paging.initial, blankEntry]
  refine ⟨fun {f k o b} hf => absurd hf (by simp [initial, hline]), fun {k o b b'} hb hb' => ?_⟩
  obtain ⟨⟨hlo, -⟩, -, rfl⟩ := zeros_eq_some.mp hb
  simp only [cacheOf, storedPage, initial, Paging.initial, Executable.pageTable,
    List.getElem?_map, Option.bind_map, Option.bind_eq_some_iff] at hb'
  obtain ⟨v, hv, hstored⟩ := hb'
  obtain rfl : k.2 = v := by
    obtain ⟨hlt, he⟩ := List.getElem?_eq_some_iff.mp hv
    simpa using he
  dsimp only [Function.comp_apply] at hstored
  split_ifs at hstored with hexec
  refine htail k.1 (k.2 * pageSize + o) b' hlo ?_ (by rw [← Nat.add_assoc]; exact hstored)
  calc k.2 * pageSize + o < (k.2 + 1) * pageSize := by
        rw [Nat.succ_mul]
        exact Nat.add_lt_add_left o.isLt _
    _ ≤ (cfg.executable k.1).numExecutablePages * pageSize := Nat.mul_le_mul_right _ hexec

theorem KeepsZeros.keeps {tr : List (SystemStep T)} {x : SystemStep T} (h : KeepsZeros cfg tr s)
    (hk : KeepsCells (cacheOf cfg s.paging) (cacheOf cfg u.paging)) :
    KeepsZeros cfg (tr ++ [x]) u := by
  refine (Agrees.keeps h hk).mono fun k o b hb => ?_
  obtain ⟨huninit, hunwritten, rfl⟩ := zeros_eq_some.mp hb
  exact zeros_eq_some.mpr ⟨huninit, hunwritten.before, rfl⟩

variable [DecidableEq T]

theorem KeepsZeros.handle {tr : List (SystemStep T)} {x : SystemStep T} {random : ℕ}
    {p : Paging.State T ℕ} (h : KeepsZeros cfg tr s) (hi : Paging.Inv cfg s.paging)
    (hs : handlePageFault cfg s.paging random = .ok p)
    (hblank : LoadsBlank cfg s (.paging (.handle random))) :
    KeepsZeros cfg (tr ++ [x]) { s with paging := p } := by
  refine KeepsZeros.keeps (s := { s with paging := p }) ?_ ⟨fun hf => ⟨hf, rfl⟩, rfl⟩
  cases (hi.handle hs).2 with
  | same hsame => exact Agrees.keeps h hsame.keepsCells
  | victim hkeeps => exact Agrees.keeps h hkeeps
  | evicts f k hevicts => exact Agrees.evicts h hevicts
  | loads v f c hp hloads hrest hsame =>
    refine (Agrees.loads h hloads fun o b hb hnone => ?_).keeps hsame.keepsCells
    obtain ⟨huninit, -, rfl⟩ := zeros_eq_some.mp hb
    rw [hrest o hnone]
    exact hblank random v f rfl hp o huninit hnone

theorem KeepsZeros.paging_step {tr : List (SystemStep T)} {b : Paging.Action T}
    {p : Paging.State T ℕ} (h : KeepsZeros cfg tr s) (hi : SystemInv cfg s)
    (hon : pagingEnabled s b = true) (hs : Paging.step cfg s.paging b = .ok (p, out))
    (hblank : LoadsBlank cfg s (.paging b)) :
    KeepsZeros cfg (tr ++ [⟨s, (.paging b, out), { s with paging := p }⟩])
      { s with paging := p } := by
  cases b with
  | read address size =>
    have hinv := hi.alive (inUserMemory_alive hon)
    exact h.keeps (hinv.read hs).2.1.keepsCells
  | write address bytes =>
    have hinv := hi.alive (inUserMemory_alive hon)
    rcases (hinv.write hs).2 with ⟨-, hsame⟩ | ⟨f, k, hwrites⟩
    · exact h.keeps hsame.keepsCells
    · refine Agrees.writes h (hwrites fun _ _ => none) fun j o b hb => ?_
      obtain ⟨huninit, hunwritten, rfl⟩ := zeros_eq_some.mp hb
      obtain ⟨hno, hold⟩ := unwritten_append.mp hunwritten
      refine ⟨zeros_eq_some.mpr ⟨huninit, hold, rfl⟩, ?_⟩
      rw [known, hno]
      rfl
  | handle random =>
    obtain ⟨hh, rfl⟩ := step_handle hs
    exact h.handle (hi.alive (inUserMemory_alive hon)) hh hblank
  | contextSwitch next =>
    obtain ⟨rfl, -⟩ := Prod.mk.inj (Except.ok.inj hs)
    exact h.keeps (keepsCells_contextSwitch s.paging next)

theorem KeepsZeros.next {tr : List (SystemStep T)} (h : KeepsZeros cfg tr s) (hi : SystemInv cfg s)
    (hc : Change cfg s u a out) (hblank : LoadsBlank cfg s a) :
    KeepsZeros cfg (tr ++ [⟨s, (a, out), u⟩]) u := by
  cases hc with
  | paging b p out hon hs hu =>
    subst hu
    exact h.paging_step hi hon hs hblank
  | processes a hp => exact h.keeps (hp ▸ ⟨fun hf => ⟨hf, rfl⟩, rfl⟩)
  | exit huser halive hothers hlock hexit hclearing hfree =>
    exact h.keeps (freeStack_spec hfree).2.keepsCells
  | clear hon hlock hu =>
    have hfreed := freed_freeProcess s.paging (process s)
    generalize freeProcess s.paging (process s) = p at hfreed hu
    subst hu
    exact h.keeps hfreed.keepsCells

/-! Reads. -/

theorem readsZero {pre : List (SystemStep T)} (h : KeepsZeros cfg pre s) (hi : SystemInv cfg s)
    (hs : step cfg s a = .ok (u, out)) : ReadsZero cfg pre ⟨s, (a, out), u⟩ := by
  intro address size bytes he i hlt huninit hunwritten
  obtain ⟨rfl, rfl⟩ := Prod.mk.inj he
  cases step_change hs with
  | paging _ p _ hon hp hu =>
    obtain ⟨-, -, hbytes⟩ := (hi.alive (inUserMemory_alive hon)).read hp
    obtain ⟨f, hline, hpage, rfl⟩ := hbytes bytes rfl
    have hzero : s.paging.mainMemory (f * pageSize + (address % pageSize + i)) = 0 :=
      Agrees.cached h (o := ⟨address % pageSize + i, by omega⟩) hline
        (zeros_eq_some.mpr (by simpa only [address_split] using ⟨huninit, hunwritten, trivial⟩))
    simpa [List.getElem?_map, List.getElem?_range hlt] using hzero

/-- In every run in which pages go to blank frames and Exit leaves frames in use alone. -/
theorem fresh_memory {first : T} {tr : List (SystemStep T)}
    (h : Execution (Handles (step cfg)) (initial cfg first) tr s)
    (htail : ∀ p, TailBlank (cfg.executable p))
    (hc : ∀ x ∈ tr, ClearsUnused x.before x.event.1 ∧ LoadsBlank cfg x.before x.event.1) :
    ∀ pre x post, tr = pre ++ x :: post → ReadsZero cfg pre x := by
  rintro pre x post rfl
  obtain ⟨hpre, hs⟩ := h.split rfl
  obtain ⟨hi, hz⟩ := hpre.history_invariant
    (P := fun tr s => SystemInv cfg s ∧ KeepsZeros cfg tr s)
    (Q := fun x => ClearsUnused x.before x.event.1 ∧ LoadsBlank cfg x.before x.event.1)
    ⟨systemInv_initial first, keepsZeros_initial first htail⟩
    (fun tr x hP hs hcond => ⟨hP.1.next (step_change hs) hcond.1,
      hP.2.next hP.1 (step_change hs) hcond.2⟩)
    fun y hy => hc y (List.mem_append_left _ hy)
  exact readsZero hz hi hs

/-- No Exit ends, and pages go to frames full of zeros. -/
def blankFrame (x : SystemStep Bool) : Bool :=
  match x.event.1, x.before.paging.phase x.before.paging.currentThread with
  | .clearFrames, _ => false
  | .paging (.handle _), .loading _ f =>
    (List.range pageSize).all fun o => x.before.paging.mainMemory (f * pageSize + o) = 0
  | _, _ => true

theorem conditions_of_blankFrame {cfg : Paging.Config Bool ℕ} {x : SystemStep Bool}
    (h : blankFrame x = true) :
    ClearsUnused x.before x.event.1 ∧ LoadsBlank cfg x.before x.event.1 := by
  refine ⟨fun he => ?_, fun random v f he hp o _ _ => ?_⟩
  · rw [blankFrame, he] at h
    cases h
  · rw [blankFrame, he, hp] at h
    simpa using List.all_eq_true.mp h o (List.mem_range.mpr o.isLt)

theorem tailBlank_smallProgram : TailBlank smallProgram := by
  intro va b hlo hhi
  have hpages : smallProgram.numExecutablePages * pageSize = 128 := by decide
  have hsize : smallProgram.codeSize + smallProgram.initDataSize = 128 := rfl
  omega

/-- Two processes read bytes of their stacks that they have not written. -/
theorem fresh_memory_twoPrograms : ∃ tr s, Execution (Handles (step twoPrograms))
      (initial twoPrograms false) tr s ∧
    (tr.getLast?.map fun x => x.event.2) = some (some [0]) ∧
    ∀ pre x post, tr = pre ++ x :: post → ReadsZero twoPrograms pre x := by
  obtain ⟨tr, s, hex, -, htest⟩ := exists_of_trace (step twoPrograms) (initial twoPrograms false)
    (List.flatten [[.call .startProcess, .call .start, .call (.exec true), .paging (.write 128 [5])],
      List.replicate 6 (.paging (.handle 0)), [.paging (.write 128 [5]), .paging (.read 129 1),
        .paging (.contextSwitch true), .call .start, .paging (.read 128 1)],
      List.replicate 6 (.paging (.handle 0)), [.paging (.read 128 1)]])
    (fun r => r.1.all blankFrame && decide ((r.1.getLast?.map fun x => x.event.2) = some (some [0])))
    (by decide +kernel)
  simp only [Bool.and_eq_true, List.all_eq_true, decide_eq_true_eq] at htest
  exact ⟨tr, s, hex, htest.2, fresh_memory hex (fun _ => tailBlank_smallProgram) fun x hx =>
    conditions_of_blankFrame (htest.1 x hx)⟩

/-- The state after the Exit of the current thread's process. -/
def afterExit (s : State Bool) : State Bool :=
  { s with
    paging := { s.paging with
      ipt := fun f => if f < numPhysPages ∧ (s.paging.ipt f).space = some (process s) then
        { s.paging.ipt f with valid := false, use := false } else s.paging.ipt f
      mainMemoryBitmap := fun f =>
        if f < numPhysPages ∧ (s.paging.ipt f).space = some (process s) then false
        else s.paging.mainMemoryBitmap f }
    clearing := Function.update s.clearing s.paging.currentThread false }

theorem clearFrames_afterExit {cfg : Paging.Config Bool ℕ} {s : State Bool}
    (hon : s.clearing s.paging.currentThread = true) (hlock : s.paging.iptLock = none) :
    Handles (step cfg) s (.clearFrames, none) (afterExit s) := by
  have hclear : clearFrames s = .ok (afterExit s) := by
    unfold clearFrames
    dsimp only
    rw [if_pos hon, if_pos hlock, freeProcess_eq]
    rfl
  simp only [Handles, step, hclear]
  rfl

/-- The second process comes to read its stack. -/
def secondStart : List (Action Bool) :=
  [.paging (.contextSwitch true), .call .start, .paging (.read 128 1)] ++
    List.replicate 6 (.paging (.handle 0))

/-- The second process reads what the first one wrote before it exited. -/
theorem other_process_read : ∃ pre x s, Execution (Handles (step twoPrograms))
      (initial twoPrograms false) (pre ++ [x]) s ∧ x.event = (.paging (.read 128 1), some [5]) ∧
    ¬ ReadsZero twoPrograms pre x := by
  have hrun : ((trace (step twoPrograms) (initial twoPrograms false) firstExit.dropLast).any fun r =>
      decide (r.2.clearing r.2.paging.currentThread = true ∧ r.2.paging.iptLock = none) &&
      (traceFrom (step twoPrograms) (r.1 ++ [⟨r.2, (.clearFrames, none), afterExit r.2⟩])
        (afterExit r.2) secondStart).any fun q =>
          decide (q.2.paging.currentThread = true ∧
            lastWritten twoPrograms (pagingSteps q.1) 1 128 = none) &&
          ((step twoPrograms q.2 (.paging (.read 128 1))).toOption.any fun p =>
            decide (p.2 = some [5]))) = true := by
    decide +kernel
  obtain ⟨⟨tr, s⟩, ht, hafter⟩ := (Option.any_eq_true _ _).mp hrun
  simp only [Bool.and_eq_true, decide_eq_true_eq] at hafter
  obtain ⟨⟨hon, hlock⟩, hsecond⟩ := hafter
  obtain ⟨⟨pre, t⟩, hpre, hread⟩ := (Option.any_eq_true _ _).mp hsecond
  simp only [Bool.and_eq_true, decide_eq_true_eq] at hread
  obtain ⟨⟨hcur, hunwritten⟩, hread⟩ := hread
  obtain ⟨⟨u, out⟩, hu, hout⟩ := (Option.any_eq_true _ _).mp hread
  obtain rfl : out = some [5] := of_decide_eq_true hout
  have hstep : Handles (step twoPrograms) t (.paging (.read 128 1), some [5]) u := by
    cases hs : step twoPrograms t (.paging (.read 128 1)) with
    | error e => simp [hs, Except.toOption] at hu
    | ok p =>
      rw [hs] at hu
      obtain rfl := Option.some.inj hu
      exact hs
  obtain ⟨hex, -⟩ := execution_of_traceFrom _ .start ht
  obtain ⟨hex', -⟩ := execution_of_traceFrom _ (hex.extend (clearFrames_afterExit hon hlock)) hpre
  refine ⟨pre, _, u, hex'.extend hstep, rfl, fun hzero => ?_⟩
  have hspace : twoPrograms.spaceOf t.paging.currentThread = 1 := by rw [hcur]; rfl
  have huninit : IsUninit smallProgram 128 := by constructor <;> decide
  have hfive := hzero 128 1 [5] rfl 0 (by decide) huninit (by rw [hspace]; exact hunwritten)
  simp at hfive

end Nachos.Multiprogramming
