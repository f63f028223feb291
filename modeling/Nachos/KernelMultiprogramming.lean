import Nachos.KernelProcessAccounting
import Nachos.KernelPagingCoherence

/-! The process table and demand paging together. The current thread makes system calls, takes page
faults and exits; Exit frees page frames with `iptLock` held. The configuration says in advance in
which process a thread will be and which program the process runs. -/
namespace Nachos.Multiprogramming
open Executions

structure State (T : Type*) where
  processes : Processes.State T
  paging : Paging.State T ℕ
  /-- last threads of their processes that have still to free the frames -/
  clearing : T → Bool

/-- The system calls that make processes and threads, in their critical sections. -/
inductive Call (T : Type*)
  | startProcess
  | exec (child : T)
  | start
  | forkCheck
  | forkAllocate (child : T)

/-- What the current thread does. -/
inductive Action (T : Type*)
  | paging (a : Paging.Action T)
  | call (c : Call T)
  | exit
  /-- the end of Exit in the last thread of a process -/
  | clearFrames

inductive Stop
  | paging (e : Paging.Stop)
  | processes (e : Processes.Stop)
  | notEnabled
  deriving DecidableEq, Repr

variable {T : Type*} [DecidableEq T]

def initial (cfg : Paging.Config T ℕ) (first : T) : State T where
  processes := Processes.initial
  paging := Paging.initial cfg first
  clearing := fun _ => false

/-! The frames that Exit frees. -/

def freeFrame (s : Paging.State T ℕ) (f : ℕ) : Paging.State T ℕ :=
  { s.setIPT f { s.ipt f with valid := false, use := false } with
    mainMemoryBitmap := Function.update s.mainMemoryBitmap f false }

/-- The last thread of process `a` frees the frames that have its address space. -/
def freeProcess (s : Paging.State T ℕ) (a : ℕ) : Paging.State T ℕ :=
  (List.range Paging.numPhysPages).foldl
    (fun s f => if (s.ipt f).space = some a then freeFrame s f else s) s

/-- One round of the loop over the stack: the frame number `f` is from the page table. -/
def freeStackPage (a : ℕ) (s : Paging.State T ℕ) (f : ℕ) : Paging.State T ℕ :=
  if (s.ipt f).valid && !(s.ipt f).use && (s.ipt f).space = some a then freeFrame s f else s

/-- The entry `pageTable[lastStackPage - i]`; there is none below 0. -/
def stackEntry (s : Paging.State T ℕ) (a lastStackPage i : ℕ) : Option Paging.PageTableEntry :=
  if lastStackPage < i then none else (s.pageTable a)[lastStackPage - i]?

/-- Another thread of process `a` frees stack pages, from `lastStackPage` down. -/
def freeStack (s : Paging.State T ℕ) (a lastStackPage : ℕ) :
    Except Paging.Stop (Paging.State T ℕ) :=
  (List.range (Paging.userStackSize / Paging.pageSize)).foldlM
    (fun s i =>
      match stackEntry s a lastStackPage i with
      | none => .error .noSuchPage
      | some e => .ok (freeStackPage a s e.physicalPage)) s

/-- Exit up to the end of its critical section. In the last thread of a process the frames are
still to be freed. -/
def exitSyscall (s : State T) : Except Stop (State T) :=
  let t := s.paging.currentThread
  let thread := s.processes.thread t
  let entry := s.processes.processTable thread.process
  match Processes.exitSyscall s.processes t with
  | .error e => .error (.processes e)
  | .ok processes =>
    if entry.numThreadsAlive = 1 then
      .ok { s with processes := processes, clearing := Function.update s.clearing t true }
    else
      match s.processes.threadStack thread.process thread.threadID with
      | none => .error (.processes .outside)
      | some lastStackPage =>
        if s.paging.iptLock ≠ none then .error (.paging .blocked)
        else
          match freeStack s.paging thread.process lastStackPage with
          | .error e => .error (.paging e)
          | .ok paging => .ok { s with processes := processes, paging := paging }

def clearFrames (s : State T) : Except Stop (State T) :=
  let t := s.paging.currentThread
  if s.clearing t then
    if s.paging.iptLock = none then
      .ok { s with
        paging := freeProcess s.paging (s.processes.thread t).process
        clearing := Function.update s.clearing t false }
    else .error (.paging .blocked)
  else .error .notEnabled

/-! The steps. -/

/-- The step of the process table, and the process that a new thread gets. -/
def Call.processAction (cfg : Paging.Config T ℕ) (s : State T) :
    Call T → Processes.Action T × Option (T × ℕ)
  | .startProcess =>
    (.startProcess s.paging.currentThread (cfg.executable s.processes.nextProcessID),
      some (s.paging.currentThread, s.processes.nextProcessID))
  | .exec child =>
    (.exec s.paging.currentThread child (cfg.executable s.processes.nextProcessID),
      some (child, s.processes.nextProcessID))
  | .start => (.start s.paging.currentThread, none)
  | .forkCheck => (.forkCheck s.paging.currentThread, none)
  | .forkAllocate child =>
    (.forkAllocate s.paging.currentThread child,
      some (child, (s.processes.thread s.paging.currentThread).process))

def call (cfg : Paging.Config T ℕ) (s : State T) (c : Call T) : Except Stop (State T) :=
  let (a, child) := c.processAction cfg s
  if s.paging.phase s.paging.currentThread = .user ∧ child.all fun x => cfg.spaceOf x.1 = x.2 then
    match Processes.step s.processes a with
    | .error e => .error (.processes e)
    | .ok processes => .ok { s with processes := processes }
  else .error .notEnabled

/-- A thread that can be given the processor. -/
def canRun (s : State T) (t : T) : Bool :=
  ((s.processes.thread t).status ≠ .notCreated && (s.processes.thread t).status ≠ .exited) ||
    s.clearing t

/-- User instructions and page faults: in user code or while Fork copies the name. -/
def inUserMemory (s : State T) : Bool :=
  (s.processes.thread s.paging.currentThread).status = .user ||
    (s.processes.thread s.paging.currentThread).status = .forking

def pagingEnabled (s : State T) : Paging.Action T → Bool
  | .contextSwitch next => canRun s next
  | _ => inUserMemory s

def step (cfg : Paging.Config T ℕ) (s : State T) :
    Action T → Except Stop (State T × Option (List UInt8))
  | .paging a =>
    if pagingEnabled s a then
      match Paging.step cfg s.paging a with
      | .error e => .error (.paging e)
      | .ok (paging, out) => .ok ({ s with paging := paging }, out)
    else .error .notEnabled
  | .call c => (call cfg s c).map fun s => (s, none)
  | .exit =>
    if s.paging.phase s.paging.currentThread = .user then (exitSyscall s).map fun s => (s, none)
    else .error .notEnabled
  | .clearFrames => (clearFrames s).map fun s => (s, none)

abbrev SystemStep (T : Type*) := Transition (State T) (Action T × Option (List UInt8))

/-! What Exit does to the frames. -/

/-- A state whose frames in `F` have been freed. -/
structure Freed (s u : Paging.State T ℕ) (F : ℕ → Prop) : Prop where
  frame : ∃ ipt map, u = { s with ipt := ipt, mainMemoryBitmap := map }
  freed : ∀ f, F f → u.ipt f = { s.ipt f with valid := false, use := false } ∧
    u.mainMemoryBitmap f = false
  kept : ∀ f, ¬ F f → u.ipt f = s.ipt f ∧ u.mainMemoryBitmap f = s.mainMemoryBitmap f

theorem blank_entry {e : Paging.IPTEntry ℕ} (hv : e.valid = false) (hu : e.use = false) :
    { e with valid := false, use := false } = e := by
  obtain ⟨⟨_, _, _, _, _, _⟩, _⟩ := e
  simp_all

namespace Freed
variable {s u w : Paging.State T ℕ} {F G : ℕ → Prop}

omit [DecidableEq T] in
theorem refl (hF : ∀ f, ¬ F f) : Freed s s F :=
  ⟨⟨s.ipt, s.mainMemoryBitmap, rfl⟩, fun f hf => absurd hf (hF f), fun _ _ => ⟨rfl, rfl⟩⟩

omit [DecidableEq T] in
theorem one (s : Paging.State T ℕ) (f : ℕ) : Freed s (freeFrame s f) fun g => g = f := by
  refine ⟨⟨_, _, rfl⟩, ?_, fun g hg => ?_⟩
  · rintro g rfl
    simp [freeFrame, Paging.State.setIPT]
  · simp [freeFrame, Paging.State.setIPT, hg]

omit [DecidableEq T] in
theorem trans (h : Freed s u F) (h' : Freed u w G) : Freed s w fun f => F f ∨ G f := by
  obtain ⟨ipt, map, he⟩ := h.frame
  obtain ⟨ipt', map', he'⟩ := h'.frame
  refine ⟨⟨ipt', map', he'.trans (by rw [he])⟩, fun f hf => ?_, fun f hf => ?_⟩
  · by_cases hG : G f
    · obtain ⟨hipt, hmap⟩ := h'.freed f hG
      refine ⟨hipt.trans ?_, hmap⟩
      by_cases hF : F f
      · rw [(h.freed f hF).1]
      · rw [(h.kept f hF).1]
    · obtain ⟨hipt, hmap⟩ := h'.kept f hG
      obtain ⟨hipt', hmap'⟩ := h.freed f (hf.resolve_right hG)
      exact ⟨hipt.trans hipt', hmap.trans hmap'⟩
  · obtain ⟨hF, hG⟩ := not_or.mp hf
    exact ⟨(h'.kept f hG).1.trans (h.kept f hF).1, (h'.kept f hG).2.trans (h.kept f hF).2⟩

omit [DecidableEq T] in
theorem congr (h : Freed s u F) (hFG : ∀ f, F f ↔ G f) : Freed s u G := by
  obtain rfl : F = G := funext fun f => propext (hFG f)
  exact h

omit [DecidableEq T] in
theorem space (h : Freed s u F) (f : ℕ) : (u.ipt f).space = (s.ipt f).space := by
  by_cases hf : F f
  · rw [(h.freed f hf).1]
  · rw [(h.kept f hf).1]

omit [DecidableEq T] in
/-- Nothing changes if the frames were free already. -/
theorem eq_self (h : Freed s u F) (hF : ∀ f, F f → (s.ipt f).valid = false ∧
    (s.ipt f).use = false ∧ s.mainMemoryBitmap f = false) : u = s := by
  have hsame : ∀ f, u.ipt f = s.ipt f ∧ u.mainMemoryBitmap f = s.mainMemoryBitmap f := by
    intro f
    by_cases hf : F f
    · obtain ⟨hv, hu, hbit⟩ := hF f hf
      obtain ⟨hipt, hmap⟩ := h.freed f hf
      exact ⟨hipt.trans (blank_entry hv hu), hmap.trans hbit.symm⟩
    · exact h.kept f hf
  obtain ⟨ipt, map, rfl⟩ := h.frame
  obtain rfl : ipt = s.ipt := funext fun f => (hsame f).1
  obtain rfl : map = s.mainMemoryBitmap := funext fun f => (hsame f).2
  rfl

end Freed

variable {s u : Paging.State T ℕ} {a last : ℕ}

omit [DecidableEq T] in
theorem freed_freeProcess (s : Paging.State T ℕ) (a : ℕ) : Freed s (freeProcess s a)
    fun f => f < Paging.numPhysPages ∧ (s.ipt f).space = some a := by
  have hloop : ∀ (l : List ℕ) (s : Paging.State T ℕ), Freed s
      (l.foldl (fun s f => if (s.ipt f).space = some a then freeFrame s f else s) s)
      fun f => f ∈ l ∧ (s.ipt f).space = some a := by
    intro l
    induction l with
    | nil => exact fun s => Freed.refl (by simp)
    | cons f l ih =>
      intro s
      rw [List.foldl_cons]
      by_cases hf : (s.ipt f).space = some a
      · rw [if_pos hf]
        have h1 := Freed.one s f
        refine (h1.trans (ih _)).congr fun g => ?_
        rw [h1.space]
        aesop
      · rw [if_neg hf]
        refine (ih s).congr fun g => ?_
        aesop
  exact (hloop _ s).congr fun f => by simp

omit [DecidableEq T] in
/-- Every round of the loop looks at its own frame only. -/
theorem freeProcess_eq (s : Paging.State T ℕ) (a : ℕ) : freeProcess s a = { s with
    ipt := fun f => if f < Paging.numPhysPages ∧ (s.ipt f).space = some a then
      { s.ipt f with valid := false, use := false } else s.ipt f
    mainMemoryBitmap := fun f => if f < Paging.numPhysPages ∧ (s.ipt f).space = some a then false
      else s.mainMemoryBitmap f } := by
  have hfreed := freed_freeProcess s a
  obtain ⟨ipt, map, he⟩ := hfreed.frame
  rw [he] at hfreed ⊢
  simp only [Paging.State.mk.injEq, true_and, and_true]
  refine ⟨funext fun f => ?_, funext fun f => ?_⟩
  · split_ifs with hf
    · exact (hfreed.freed f hf).1
    · exact (hfreed.kept f hf).1
  · split_ifs with hf
    · exact (hfreed.freed f hf).2
    · exact (hfreed.kept f hf).2

omit [DecidableEq T] in
theorem stackEntry_eq_some {s : Paging.State T ℕ} {a last i : ℕ} {e : Paging.PageTableEntry} :
    stackEntry s a last i = some e ↔ i ≤ last ∧ (s.pageTable a)[last - i]? = some e := by
  unfold stackEntry
  split_ifs with hlt
  · simp [hlt]
  · exact ⟨fun h => ⟨not_lt.mp hlt, h⟩, And.right⟩

/-- The frame can be taken from the process: nobody keeps it in use. -/
def Releasable (s : Paging.State T ℕ) (a f : ℕ) : Prop :=
  (s.ipt f).valid = true ∧ (s.ipt f).use = false ∧ (s.ipt f).space = some a

/-- The entry of the page in the page table has this frame number. -/
def Names (s : Paging.State T ℕ) (a v f : ℕ) : Prop :=
  ∃ e, (s.pageTable a)[v]? = some e ∧ e.physicalPage = f

omit [DecidableEq T] in
theorem freed_freeStackPage (s : Paging.State T ℕ) (a f : ℕ) :
    Freed s (freeStackPage a s f) fun g => g = f ∧ Releasable s a g := by
  unfold freeStackPage
  by_cases hf : Releasable s a f
  · have hc : ((s.ipt f).valid && !(s.ipt f).use && decide ((s.ipt f).space = some a)) = true := by
      obtain ⟨hv, hu, ha⟩ := hf
      simp [hv, hu, ha]
    rw [if_pos hc]
    refine (Freed.one s f).congr fun g => ⟨?_, And.left⟩
    rintro rfl
    exact ⟨rfl, hf⟩
  · rw [if_neg fun hc => hf (by simpa [Releasable, and_assoc] using hc)]
    refine Freed.refl ?_
    rintro g ⟨rfl, hg⟩
    exact hf hg

omit [DecidableEq T] in
theorem freeStack_spec (hs : freeStack s a last = .ok u) :
    (∀ i < 8, ∃ e, (s.pageTable a)[last - i]? = some e) ∧
      Freed s u fun f => Releasable s a f ∧ ∃ i < 8, Names s a (last - i) f := by
  have hloop : ∀ (l : List ℕ) (s : Paging.State T ℕ),
      l.foldlM (fun s i =>
        match stackEntry s a last i with
        | none => .error .noSuchPage
        | some e => .ok (freeStackPage a s e.physicalPage)) s = Except.ok (ε := Paging.Stop) u →
      (∀ i ∈ l, ∃ e, (s.pageTable a)[last - i]? = some e) ∧
        Freed s u fun f => Releasable s a f ∧ ∃ i ∈ l, Names s a (last - i) f := by
    intro l
    induction l with
    | nil =>
      intro s hs
      obtain rfl : s = u := Except.ok.inj hs
      exact ⟨by simp, Freed.refl (by simp)⟩
    | cons i l ih =>
      intro s hs
      rw [List.foldlM_cons] at hs
      cases hentry : stackEntry s a last i with
      | none =>
        rw [hentry] at hs
        cases hs
      | some e =>
        rw [hentry] at hs
        obtain ⟨-, he⟩ := stackEntry_eq_some.mp hentry
        have h1 := freed_freeStackPage s a e.physicalPage
        obtain ⟨hlisted, h2⟩ := ih _ hs
        have htable : (freeStackPage a s e.physicalPage).pageTable = s.pageTable := by
          obtain ⟨ipt, map, hframe⟩ := h1.frame
          rw [hframe]
        simp only [Names, htable] at hlisted h2
        refine ⟨fun j hj => ?_, (h1.trans h2).congr fun f => ?_⟩
        · rcases List.mem_cons.mp hj with rfl | hj
          · exact ⟨e, he⟩
          · exact hlisted j hj
        · have hback : Releasable (freeStackPage a s e.physicalPage) a f → Releasable s a f := by
            rintro ⟨hv, hu, ha⟩
            by_cases hf : f = e.physicalPage ∧ Releasable s a f
            · exact hf.2
            · rw [(h1.kept f hf).1] at hv hu ha
              exact ⟨hv, hu, ha⟩
          constructor
          · rintro (⟨rfl, hrel⟩ | ⟨hrel, j, hj, hnames⟩)
            · exact ⟨hrel, i, by simp, e, he, rfl⟩
            · exact ⟨hback hrel, j, by simp [hj], hnames⟩
          · rintro ⟨hrel, j, hj, hnames⟩
            by_cases hf : f = e.physicalPage
            · exact Or.inl ⟨hf, hrel⟩
            · right
              rcases List.mem_cons.mp hj with rfl | hj
              · obtain ⟨e', he', rfl⟩ := hnames
                obtain rfl : e = e' := Option.some.inj (he.symm.trans he')
                exact absurd rfl hf
              · refine ⟨?_, j, hj, hnames⟩
                obtain ⟨hv, hu, ha⟩ := hrel
                have hkept := (h1.kept f fun h => hf h.1).1
                exact ⟨hkept ▸ hv, hkept ▸ hu, hkept ▸ ha⟩
  obtain ⟨hlisted, hfreed⟩ := hloop _ s hs
  have height : Paging.userStackSize / Paging.pageSize = 8 := by decide
  simp only [height, List.mem_range] at hlisted hfreed
  exact ⟨hlisted, hfreed⟩

omit [DecidableEq T] in
theorem freeStack_ok (hlast : 7 ≤ last) (h : ∀ i < 8, ∃ e, (s.pageTable a)[last - i]? = some e) :
    ∃ u, freeStack s a last = .ok u := by
  have hloop : ∀ (l : List ℕ) (s : Paging.State T ℕ),
      (∀ i ∈ l, i ≤ last ∧ ∃ e, (s.pageTable a)[last - i]? = some e) → ∃ u, l.foldlM (fun s i =>
        match stackEntry s a last i with
        | none => .error .noSuchPage
        | some e => .ok (freeStackPage a s e.physicalPage)) s = Except.ok (ε := Paging.Stop) u := by
    intro l
    induction l with
    | nil => exact fun s _ => ⟨s, rfl⟩
    | cons i l ih =>
      intro s hs
      obtain ⟨hi, e, he⟩ := hs i (by simp)
      rw [List.foldlM_cons, stackEntry_eq_some.mpr ⟨hi, he⟩]
      refine ih _ fun j hj => ?_
      obtain ⟨ipt, map, hframe⟩ := (freed_freeStackPage s a e.physicalPage).frame
      rw [hframe]
      exact hs j (by simp [hj])
  have height : Paging.userStackSize / Paging.pageSize = 8 := by decide
  refine hloop _ s fun i hi => ?_
  rw [height, List.mem_range] at hi
  exact ⟨by omega, h i hi⟩

/-! The kinds of steps. -/

def process (s : State T) : ℕ := (s.processes.thread s.paging.currentThread).process

/-- The page after the stack of the current thread, as the process table has it. -/
def stackEnd (s : State T) : ℕ :=
  (s.processes.threadStack (process s)
    (s.processes.thread s.paging.currentThread).threadID).getD 0

inductive Change (cfg : Paging.Config T ℕ) (s u : State T) :
    Action T → Option (List UInt8) → Prop
  | paging (a : Paging.Action T) (p : Paging.State T ℕ) (out : Option (List UInt8))
      (hon : pagingEnabled s a = true) (hs : Paging.step cfg s.paging a = .ok (p, out))
      (hu : u = { s with paging := p }) : Change cfg s u (.paging a) out
  | processes (a : Action T) (hp : u.paging = s.paging)
      (huser : s.paging.phase s.paging.currentThread = .user)
      (halive : (s.processes.thread s.paging.currentThread).status ≠ .exited)
      (hnext : Processes.Change s.processes u.processes)
      (hclearing : ∀ t, u.clearing t = true → s.clearing t = true ∨
        (u.processes.thread t).status = .exited) : Change cfg s u a none
  /-- a thread exits that is not the last of its process -/
  | exit (huser : s.paging.phase s.paging.currentThread = .user)
      (halive : (s.processes.thread s.paging.currentThread).status = .user)
      (hothers : (s.processes.processTable (process s)).numThreadsAlive ≠ 1)
      (hlock : s.paging.iptLock = none)
      (hexit : Processes.Exits s.processes u.processes s.paging.currentThread)
      (hclearing : u.clearing = s.clearing)
      (hfree : freeStack s.paging (process s) (stackEnd s) = .ok u.paging) :
      Change cfg s u .exit none
  | clear (hon : s.clearing s.paging.currentThread = true) (hlock : s.paging.iptLock = none)
      (hu : u = { s with
        paging := freeProcess s.paging (process s)
        clearing := Function.update s.clearing s.paging.currentThread false }) :
      Change cfg s u .clearFrames none

variable {cfg : Paging.Config T ℕ} {s u : State T} {a : Action T} {out : Option (List UInt8)}

omit [DecidableEq T] in
theorem ok_of_map {r : Except Stop (State T)}
    (h : (r.map fun s => (s, (none : Option (List UInt8)))) = .ok (u, out)) :
    r = .ok u ∧ out = none := by
  cases r with
  | error e => cases h
  | ok w =>
    obtain ⟨rfl, rfl⟩ := Prod.mk.inj (Except.ok.inj h)
    exact ⟨rfl, rfl⟩

variable (cfg) in
theorem clearFrames_ok (hon : s.clearing s.paging.currentThread = true)
    (hlock : s.paging.iptLock = none) : ∃ u, Handles (step cfg) s (.clearFrames, none) u ∧
      u.processes = s.processes ∧ Freed s.paging u.paging
        fun f => f < Paging.numPhysPages ∧ (s.paging.ipt f).space = some (process s) := by
  have hfreed := freed_freeProcess s.paging (process s)
  generalize hp : freeProcess s.paging (process s) = p at hfreed
  refine ⟨{ s with
    paging := p, clearing := Function.update s.clearing s.paging.currentThread false }, ?_, rfl,
    hfreed⟩
  simp [Handles, step, clearFrames, hon, hlock, ← hp, process, Except.map]

theorem call_spec {c : Call T} (hs : call cfg s c = .ok u) : Change cfg s u (.call c) none := by
  unfold call at hs
  dsimp only at hs
  split_ifs at hs with hc
  split at hs
  · cases hs
  · rename_i processes hp
    obtain rfl := Except.ok.inj hs
    refine .processes _ rfl hc.1 (fun hx => ?_) (Processes.step_change hp) fun t => Or.inl
    cases c <;> simp [Call.processAction, Processes.step, Processes.startProcess,
      Processes.execSyscall, Processes.start, Processes.forkCheck, Processes.forkAllocate, hx] at hp

theorem exitSyscall_change (huser : s.paging.phase s.paging.currentThread = .user)
    (hs : exitSyscall s = .ok u) : Change cfg s u .exit none := by
  unfold exitSyscall at hs
  dsimp only at hs
  split at hs
  · cases hs
  · rename_i processes hp
    have hexit := Processes.exitSyscall_spec hp
    have hgone : (processes.thread s.paging.currentThread).status = .exited := by
      rw [hexit.thread, Function.update_self]
    split_ifs at hs with hone hlock
    · obtain rfl := Except.ok.inj hs
      refine .processes _ rfl huser (by simp [hexit.running]) (.exit _ hexit) fun t ht => ?_
      by_cases htc : t = s.paging.currentThread
      · exact Or.inr (htc ▸ hgone)
      · exact Or.inl (by simpa [htc] using ht)
    · split at hs <;> cases hs
    · split at hs
      · cases hs
      · rename_i last hlast
        split at hs
        · cases hs
        · rename_i paging hfree
          obtain rfl := Except.ok.inj hs
          refine .exit huser hexit.running hone (not_not.mp hlock) hexit rfl ?_
          rwa [stackEnd, process, hlast]

theorem step_change (hs : step cfg s a = .ok (u, out)) : Change cfg s u a out := by
  cases a with
  | paging b =>
    simp only [step] at hs
    split_ifs at hs with hon
    split at hs
    · cases hs
    · rename_i p out' hp
      obtain ⟨rfl, rfl⟩ := Prod.mk.inj (Except.ok.inj hs)
      exact .paging b p out' hon hp rfl
  | call c =>
    obtain ⟨hw, rfl⟩ := ok_of_map hs
    exact call_spec hw
  | exit =>
    simp only [step] at hs
    split_ifs at hs with huser
    obtain ⟨hw, rfl⟩ := ok_of_map hs
    exact exitSyscall_change huser hw
  | clearFrames =>
    obtain ⟨hw, rfl⟩ := ok_of_map hs
    unfold clearFrames at hw
    dsimp only at hw
    split_ifs at hw with hon hlock
    exact .clear hon hlock (Except.ok.inj hw).symm

end Nachos.Multiprogramming
