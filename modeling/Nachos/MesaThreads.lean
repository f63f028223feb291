import Nachos.Executions
import Nachos.FifoMutex

/-! Threads that run programs over shared variables, locks with hand-off, and conditions that
are each used with one lock. A signalled thread still has to acquire the lock of its condition
again. Any thread that is not blocked may go on, so every schedule is covered. -/
namespace Nachos.Mesa
open Executions FifoMutex

/-- What a thread does next, and where it then stands. -/
inductive Instruction (L C S P : Type*)
  | acquire (lock : L) (next : P)
  | release (lock : L) (next : P)
  | wait (condition : C) (next : P)
  | signal (condition : C) (next : P)
  | broadcast (condition : C) (next : P)
  /-- the shared variables are read or written -/
  | access (shared : S) (next : P)

def Instruction.next {L C S P : Type*} : Instruction L C S P → P
  | .acquire _ q | .release _ q | .wait _ q | .signal _ q | .broadcast _ q | .access _ q => q

/-- Between two instructions, or inside the call from which a thread returns to `p`. -/
inductive Control (L C P : Type*)
  | runs (p : P)
  | acquiring (lock : L) (p : P)
  | waiting (condition : C) (p : P)
  deriving DecidableEq, Repr

/-- By thread and place, with the shared variables and a choice of the thread. -/
abbrev Program (T L C S P I : Type*) := S → T → P → I → Option (Instruction L C S P)

structure State (T L C S P : Type*) where
  lock : L → Mutex T
  waiters : C → List T
  shared : S
  control : T → Control L C P

variable {T L C S P I : Type*}

namespace State

/-- All locks free, and every thread at its start. -/
def initial (shared : S) (start : T → P) : State T L C S P :=
  ⟨fun _ => free, fun _ => [], shared, fun t => .runs (start t)⟩

variable [DecidableEq T] [DecidableEq L] [DecidableEq C]

def goto (g : State T L C S P) (t : T) (c : Control L C P) : State T L C S P :=
  { g with control := Function.update g.control t c }

def setLock (g : State T L C S P) (l : L) (m : Mutex T) : State T L C S P :=
  { g with lock := Function.update g.lock l m }

def setWaiters (g : State T L C S P) (c : C) (queue : List T) : State T L C S P :=
  { g with waiters := Function.update g.waiters c queue }

/-- `Acquire`, which returns once the thread is the owner. -/
def acquire (g : State T L C S P) (t : T) (l : L) (p : P) : State T L C S P :=
  (g.setLock l (FifoMutex.acquire (g.lock l) t)).goto t (.acquiring l p)

def release (g : State T L C S P) (t : T) (l : L) : State T L C S P :=
  g.setLock l (FifoMutex.release (g.lock l) t)

/-- The thread lets go of the lock and joins the queue. -/
def wait (g : State T L C S P) (t : T) (c : C) (l : L) (p : P) : State T L C S P :=
  ((g.release t l).setWaiters c (g.waiters c ++ [t])).goto t (.waiting c p)

end State

section
variable (g : State T L C S P) (t u : T) (l : L) (c : C) (m : Mutex T) (k : Control L C P)
  (queue : List T) (p : P)

section
variable [DecidableEq T]

@[simp] theorem goto_control :
    (g.goto t k).control u = if u = t then k else g.control u := Function.update_apply _ _ _ _

@[simp] theorem goto_lock : (g.goto t k).lock = g.lock := rfl

@[simp] theorem goto_waiters : (g.goto t k).waiters = g.waiters := rfl

@[simp] theorem goto_shared : (g.goto t k).shared = g.shared := rfl

end

section
variable [DecidableEq C]

@[simp] theorem setWaiters_control : (g.setWaiters c queue).control = g.control := rfl

@[simp] theorem setWaiters_lock : (g.setWaiters c queue).lock = g.lock := rfl

@[simp] theorem setWaiters_shared : (g.setWaiters c queue).shared = g.shared := rfl

@[simp] theorem setWaiters_waiters (d : C) :
    (g.setWaiters c queue).waiters d = if d = c then queue else g.waiters d :=
  Function.update_apply _ _ _ _

end

variable [DecidableEq T] [DecidableEq L]

@[simp] theorem release_control : (g.release t l).control = g.control := rfl

@[simp] theorem release_waiters : (g.release t l).waiters = g.waiters := rfl

@[simp] theorem release_shared : (g.release t l).shared = g.shared := rfl

@[simp] theorem release_lock (d : L) :
    (g.release t l).lock d = if d = l then FifoMutex.release (g.lock l) t else g.lock d :=
  Function.update_apply _ _ _ _

@[simp] theorem acquire_control :
    (g.acquire t l p).control u = if u = t then .acquiring l p else g.control u :=
  Function.update_apply _ _ _ _

@[simp] theorem acquire_waiters : (g.acquire t l p).waiters = g.waiters := rfl

@[simp] theorem acquire_shared : (g.acquire t l p).shared = g.shared := rfl

@[simp] theorem acquire_lock (d : L) :
    (g.acquire t l p).lock d = if d = l then FifoMutex.acquire (g.lock l) t else g.lock d :=
  Function.update_apply _ _ _ _

variable [DecidableEq C]

@[simp] theorem wait_control :
    (g.wait t c l p).control u = if u = t then .waiting c p else g.control u :=
  Function.update_apply _ _ _ _

@[simp] theorem wait_shared : (g.wait t c l p).shared = g.shared := rfl

@[simp] theorem wait_waiters (d : C) :
    (g.wait t c l p).waiters d = if d = c then g.waiters c ++ [t] else g.waiters d :=
  Function.update_apply _ _ _ _

@[simp] theorem wait_lock (d : L) :
    (g.wait t c l p).lock d = if d = l then FifoMutex.release (g.lock l) t else g.lock d :=
  Function.update_apply _ _ _ _

end

variable [DecidableEq T] [DecidableEq L] [DecidableEq C]
  (lockOf : C → L) (program : Program T L C S P I)

/-- One step of thread `t`. A call on a condition without its lock returns at once. -/
def step (g : State T L C S P) (t : T) (i : I) : Option (State T L C S P) :=
  match g.control t with
  | .acquiring l p => if (g.lock l).owner = some t then some (g.goto t (.runs p)) else none
  | .waiting c p => if t ∈ g.waiters c then none else some (g.acquire t (lockOf c) p)
  | .runs p =>
    (program g.shared t p i).map fun
      | .acquire l next => g.acquire t l next
      | .release l next => (g.release t l).goto t (.runs next)
      | .wait c next =>
        if (g.lock (lockOf c)).owner = some t then g.wait t c (lockOf c) next
        else g.goto t (.runs next)
      | .signal c next =>
        if (g.lock (lockOf c)).owner = some t then
          (g.setWaiters c (g.waiters c).tail).goto t (.runs next)
        else g.goto t (.runs next)
      | .broadcast c next =>
        if (g.lock (lockOf c)).owner = some t then
          (g.setWaiters c []).goto t (.runs next)
        else g.goto t (.runs next)
      | .access s next => ({ g with shared := s } : State T L C S P).goto t (.runs next)

/-- The steps of all threads. -/
def Steps (g : State T L C S P) (e : T × I) (g' : State T L C S P) : Prop :=
  step lockOf program g e.1 e.2 = some g'

/-- The state that a schedule leads to. -/
def run (g : State T L C S P) : List (T × I) → Option (State T L C S P)
  | [] => some g
  | e :: schedule => (step lockOf program g e.1 e.2).bind fun g' => run g' schedule

/-- At most `n` steps, each by the first thread of the list that can go on and passes the check. -/
def runFirst (check : State T L C S P → T × I → Bool) (threads : List (T × I)) :
    ℕ → State T L C S P → State T L C S P
  | 0, g => g
  | n + 1, g =>
    match threads.findSome? fun e => if check g e then step lockOf program g e.1 e.2 else none with
    | some g' => runFirst check threads n g'
    | none => g

/-- The instruction fits the locks that the thread holds at each place of its program: it takes
no lock twice, and gives back and passes to conditions only what it holds. -/
def Instruction.Respects (holds : P → L → Prop) (p : P) : Instruction L C S P → Prop
  | .acquire l q => ¬ holds p l ∧ ∀ m, holds q m ↔ m = l ∨ holds p m
  | .release l q => holds p l ∧ ∀ m, holds q m ↔ m ≠ l ∧ holds p m
  | .wait c q | .signal c q | .broadcast c q => holds p (lockOf c) ∧ ∀ m, holds q m ↔ holds p m
  | .access _ q => ∀ m, holds q m ↔ holds p m

def Discipline (holds : P → L → Prop) : Prop :=
  ∀ s t p i a, program s t p i = some a → a.Respects lockOf holds p

/-- The locks of a thread that is asleep in a call are those that it keeps meanwhile. -/
def Control.Has (holds : P → L → Prop) : Control L C P → L → Prop
  | .runs p, l => holds p l
  | .acquiring m p, l => l ≠ m ∧ holds p l
  | .waiting c p, l => l ≠ lockOf c ∧ holds p l

/-- A thread that cannot go on before another one acts. -/
def Blocked (g : State T L C S P) (t : T) : Prop :=
  match g.control t with
  | .acquiring l _ => (g.lock l).owner ≠ some t
  | .waiting c _ => t ∈ g.waiters c
  | .runs _ => False

instance (g : State T L C S P) (t : T) : Decidable (Blocked g t) := by
  unfold Blocked
  split <;> infer_instance

/-- The thread is inside `Acquire` of the lock. -/
def Control.Acquires : Control L C P → L → Prop
  | .acquiring m _, l => l = m
  | _, _ => False

variable {lockOf program} {g g' : State T L C S P} {t u : T} {i : I} {l m : L} {c : C} {p q : P}
  {holds : P → L → Prop}

/-! The cases of a step. -/

inductive Move (lockOf : C → L) (program : Program T L C S P I) (g : State T L C S P) (t : T)
    (i : I) : State T L C S P → Prop
  | granted {l : L} {p : P} (hc : g.control t = .acquiring l p)
      (ho : (g.lock l).owner = some t) : Move lockOf program g t i (g.goto t (.runs p))
  | woken {c : C} {p : P} (hc : g.control t = .waiting c p) (hw : t ∉ g.waiters c) :
      Move lockOf program g t i (g.acquire t (lockOf c) p)
  | acquire {p q : P} {l : L} (hc : g.control t = .runs p)
      (hi : program g.shared t p i = some (.acquire l q)) :
      Move lockOf program g t i (g.acquire t l q)
  | release {p q : P} {l : L} (hc : g.control t = .runs p)
      (hi : program g.shared t p i = some (.release l q)) :
      Move lockOf program g t i ((g.release t l).goto t (.runs q))
  | wait {p q : P} {c : C} (hc : g.control t = .runs p)
      (hi : program g.shared t p i = some (.wait c q))
      (ho : (g.lock (lockOf c)).owner = some t) :
      Move lockOf program g t i (g.wait t c (lockOf c) q)
  | signal {p q : P} {c : C} (hc : g.control t = .runs p)
      (hi : program g.shared t p i = some (.signal c q))
      (ho : (g.lock (lockOf c)).owner = some t) :
      Move lockOf program g t i ((g.setWaiters c (g.waiters c).tail).goto t (.runs q))
  | broadcast {p q : P} {c : C} (hc : g.control t = .runs p)
      (hi : program g.shared t p i = some (.broadcast c q))
      (ho : (g.lock (lockOf c)).owner = some t) :
      Move lockOf program g t i ((g.setWaiters c []).goto t (.runs q))
  | refused {p q : P} {c : C} {a : Instruction L C S P} (hc : g.control t = .runs p)
      (hi : program g.shared t p i = some a)
      (ha : a = .wait c q ∨ a = .signal c q ∨ a = .broadcast c q)
      (ho : (g.lock (lockOf c)).owner ≠ some t) : Move lockOf program g t i (g.goto t (.runs q))
  | access {p q : P} {s : S} (hc : g.control t = .runs p)
      (hi : program g.shared t p i = some (.access s q)) :
      Move lockOf program g t i (({ g with shared := s } : State T L C S P).goto t (.runs q))

theorem step_move (h : step lockOf program g t i = some g') : Move lockOf program g t i g' := by
  unfold step at h
  split at h
  · rename_i l p hc
    split_ifs at h with ho
    obtain rfl := Option.some.inj h
    exact .granted hc ho
  · rename_i c p hc
    split_ifs at h with hw
    obtain rfl := Option.some.inj h
    exact .woken hc hw
  · rename_i p hc
    obtain ⟨a, hi, rfl⟩ := Option.map_eq_some_iff.mp h
    cases a with
    | acquire l q => exact .acquire hc hi
    | release l q => exact .release hc hi
    | wait c q =>
      dsimp only
      split_ifs with ho
      · exact .wait hc hi ho
      · exact .refused hc hi (.inl rfl) ho
    | signal c q =>
      dsimp only
      split_ifs with ho
      · exact .signal hc hi ho
      · exact .refused hc hi (.inr (.inl rfl)) ho
    | broadcast c q =>
      dsimp only
      split_ifs with ho
      · exact .broadcast hc hi ho
      · exact .refused hc hi (.inr (.inr rfl)) ho
    | access s q => exact .access hc hi

/-- The other threads stay where they are. -/
theorem Move.control_of_ne (h : Move lockOf program g t i g') (hu : u ≠ t) :
    g'.control u = g.control u := by
  cases h <;> simp [hu]

/-! One lock, with the threads that hold it and those that are inside `Acquire`. -/

structure Held (m : Mutex T) (has asks : T → Prop) : Prop where
  owner : ∀ t, m.owner = some t → has t ∨ asks t
  has : ∀ t, has t → m.owner = some t
  queued : ∀ t ∈ m.waiting, asks t ∧ m.owner ≠ some t
  asking : ∀ t, asks t → m.owner = some t ∨ t ∈ m.waiting
  nodup : m.waiting.Nodup

namespace Held
variable {m : Mutex T} {has asks has' asks' : T → Prop}

omit [DecidableEq T] in
theorem congr (h : Held m has asks) (hhas : ∀ u, has' u ↔ has u) (hasks : ∀ u, asks' u ↔ asks u) :
    Held m has' asks' := by
  obtain rfl : has' = has := funext fun u => propext (hhas u)
  obtain rfl : asks' = asks := funext fun u => propext (hasks u)
  exact h

omit [DecidableEq T] in
theorem free : Held (FifoMutex.free : Mutex T) (fun _ => False) (fun _ => False) :=
  ⟨by simp [FifoMutex.free], by simp, by simp [FifoMutex.free], by simp, by simp [FifoMutex.free]⟩

/-- A newcomer takes a free lock, and otherwise stands in the queue. -/
theorem acquire (h : Held m has asks) (hh : ¬ has t) (ha : ¬ asks t) :
    Held (FifoMutex.acquire m t) has (fun u => u = t ∨ asks u) := by
  cases ho : m.owner with
  | none =>
    have howner : (FifoMutex.acquire m t).owner = some t := by simp [FifoMutex.acquire, ho]
    have hqueue : (FifoMutex.acquire m t).waiting = [] := by simp [FifoMutex.acquire, ho]
    have hhas : ∀ u, ¬ has u := fun u hu => by simpa [ho] using h.has u hu
    have hasks : ∀ u, ¬ asks u := fun u hu => by simpa [ho, m.idle ho] using h.asking u hu
    refine ⟨?_, ?_, by simp [hqueue], ?_, by simp [hqueue]⟩
    · intro u hu
      exact .inr (.inl (Option.some.inj (howner.symm.trans hu)).symm)
    · intro u hu
      exact absurd hu (hhas u)
    · rintro u (rfl | hu)
      · exact .inl howner
      · exact absurd hu (hasks u)
  | some v =>
    have hv : v ≠ t := by
      rintro rfl
      exact (h.owner v ho).elim hh ha
    have howner : (FifoMutex.acquire m t).owner = m.owner := by simp [FifoMutex.acquire, ho, hv]
    have hqueue : (FifoMutex.acquire m t).waiting = m.waiting ++ [t] := by
      simp [FifoMutex.acquire, ho, hv]
    have hnot : t ∉ m.waiting := fun ht => ha (h.queued t ht).1
    refine ⟨?_, ?_, ?_, ?_, ?_⟩
    · intro u hu
      exact (h.owner u (howner ▸ hu)).imp id .inr
    · intro u hu
      rw [howner]
      exact h.has u hu
    · intro u hu
      rw [hqueue, List.mem_append, List.mem_singleton] at hu
      rw [howner]
      rcases hu with hu | rfl
      · exact ⟨.inr (h.queued u hu).1, (h.queued u hu).2⟩
      · exact ⟨.inl rfl, by simp [ho, hv]⟩
    · rintro u (rfl | hu)
      · exact .inr (by simp [hqueue])
      · rw [howner, hqueue, List.mem_append]
        exact (h.asking u hu).imp id .inl
    · rw [hqueue]
      exact List.nodup_append.mpr ⟨h.nodup, List.nodup_singleton t, by
        rintro a ha b hb rfl
        exact hnot (List.mem_singleton.mp hb ▸ ha)⟩

omit [DecidableEq T] in
/-- The owner returns from its `Acquire`. -/
theorem grant (h : Held m has asks) (ho : m.owner = some t) :
    Held m (fun u => u = t ∨ has u) (fun u => u ≠ t ∧ asks u) := by
  refine ⟨?_, ?_, ?_, ?_, h.nodup⟩
  · intro u hu
    exact .inl (.inl (Option.some.inj (hu.symm.trans ho)))
  · rintro u (rfl | hu)
    · exact ho
    · exact h.has u hu
  · intro u hu
    refine ⟨⟨?_, (h.queued u hu).1⟩, (h.queued u hu).2⟩
    rintro rfl
    exact (h.queued u hu).2 ho
  · intro u hu
    exact h.asking u hu.2

/-- The owner hands the lock to the first of the queue. -/
theorem release (h : Held m has asks) (hh : has t) (ha : ¬ asks t) :
    Held (FifoMutex.release m t) (fun u => u ≠ t ∧ has u) asks := by
  have ho := h.has t hh
  have honly : ∀ u, has u → u = t := fun u hu => Option.some.inj ((h.has u hu).symm.trans ho)
  cases hw : m.waiting with
  | nil =>
    have howner : (FifoMutex.release m t).owner = none := by simp [FifoMutex.release, ho, hw]
    have hqueue : (FifoMutex.release m t).waiting = [] := by simp [FifoMutex.release, ho, hw]
    refine ⟨by simp [howner], ?_, by simp [hqueue], ?_, by simp [hqueue]⟩
    · intro u hu
      exact absurd (honly u hu.2) hu.1
    · intro u hu
      rcases h.asking u hu with hown | hmem
      · obtain rfl := Option.some.inj (hown.symm.trans ho)
        exact absurd hu ha
      · simp [hw] at hmem
  | cons v rest =>
    have howner : (FifoMutex.release m t).owner = some v := by simp [FifoMutex.release, ho, hw]
    have hqueue : (FifoMutex.release m t).waiting = rest := by simp [FifoMutex.release, ho, hw]
    have hnodup : (v :: rest).Nodup := hw ▸ h.nodup
    have hasks : ∀ u ∈ v :: rest, asks u := fun u hu => (h.queued u (hw ▸ hu)).1
    refine ⟨?_, ?_, ?_, ?_, hqueue ▸ hnodup.of_cons⟩
    · intro u hu
      obtain rfl := Option.some.inj (howner.symm.trans hu)
      exact .inr (hasks v List.mem_cons_self)
    · intro u hu
      exact absurd (honly u hu.2) hu.1
    · intro u hu
      rw [hqueue] at hu
      refine ⟨hasks u (List.mem_cons_of_mem v hu), fun hown => ?_⟩
      obtain rfl := Option.some.inj (howner.symm.trans hown)
      exact (List.nodup_cons.mp hnodup).1 hu
    · intro u hu
      rw [howner, hqueue]
      rcases h.asking u hu with hown | hmem
      · obtain rfl := Option.some.inj (hown.symm.trans ho)
        exact absurd hu ha
      · rcases List.mem_cons.mp (hw ▸ hmem) with rfl | hmem
        · exact .inl rfl
        · exact .inr hmem

end Held

/-! All locks and conditions. -/

structure LocksRight (lockOf : C → L) (holds : P → L → Prop) (g : State T L C S P) : Prop where
  held : ∀ l, Held (g.lock l) (fun t => (g.control t).Has lockOf holds l)
    (fun t => (g.control t).Acquires l)
  waiters : ∀ c, ∀ t ∈ g.waiters c, ∃ p, g.control t = .waiting c p
  nodup : ∀ c, (g.waiters c).Nodup
  acquiring : ∀ t l p, g.control t = .acquiring l p → holds p l
  returning : ∀ t c p, g.control t = .waiting c p → holds p (lockOf c)

omit [DecidableEq T] [DecidableEq L] [DecidableEq C] in
/-- Two threads never hold one lock. -/
theorem LocksRight.exclusive (h : LocksRight lockOf holds g)
    (ht : (g.control t).Has lockOf holds l) (hu : (g.control u).Has lockOf holds l) : t = u :=
  Option.some.inj (((h.held l).has t ht).symm.trans ((h.held l).has u hu))

omit [DecidableEq T] [DecidableEq L] [DecidableEq C] in
theorem LocksRight.initial (s : S) {start : T → P} (hstart : ∀ t l, ¬ holds (start t) l) :
    LocksRight lockOf holds (State.initial s start : State T L C S P) where
  held l := by
    refine Held.free.congr (fun t => ?_) fun t => ?_
    · exact iff_of_false (hstart t l) id
    · exact Iff.rfl
  waiters c t ht := by simp [State.initial] at ht
  nodup c := List.nodup_nil
  acquiring t l p h := by simp [State.initial] at h
  returning t c p h := by simp [State.initial] at h

omit [DecidableEq L] [DecidableEq C] in
/-- Thread `t` is now at `k`: its part of `Held`, and that of the others. -/
theorem Held.goto {k : Control L C P} {m : Mutex T} {has asks : T → Prop} (h : Held m has asks)
    (hhas : k.Has lockOf holds l ↔ has t) (hasks : k.Acquires l ↔ asks t)
    (hothers : ∀ u, u ≠ t → (((g.control u).Has lockOf holds l ↔ has u) ∧
      ((g.control u).Acquires l ↔ asks u))) :
    Held m (fun u => ((g.goto t k).control u).Has lockOf holds l)
      (fun u => ((g.goto t k).control u).Acquires l) := by
  refine h.congr (fun u => ?_) fun u => ?_
  · by_cases hu : u = t
    · subst hu
      simpa using hhas
    · simpa [hu] using (hothers u hu).1
  · by_cases hu : u = t
    · subst hu
      simpa using hasks
    · simpa [hu] using (hothers u hu).2

omit [DecidableEq L] [DecidableEq C] in
/-- The lock is not concerned: thread `t` holds it or asks for it as before. -/
theorem LocksRight.unconcerned (h : LocksRight lockOf holds g) {k : Control L C P}
    (hhas : k.Has lockOf holds l ↔ (g.control t).Has lockOf holds l)
    (hasks : k.Acquires l ↔ (g.control t).Acquires l) :
    Held (g.lock l) (fun u => ((g.goto t k).control u).Has lockOf holds l)
      (fun u => ((g.goto t k).control u).Acquires l) :=
  (h.held l).goto hhas hasks fun _ _ => ⟨Iff.rfl, Iff.rfl⟩

omit [DecidableEq T] [DecidableEq L] [DecidableEq C] in
/-- Nobody but the waiters stands in a queue. -/
theorem LocksRight.not_waiting (h : LocksRight lockOf holds g)
    (ht : ∀ p, g.control t ≠ .waiting c p) : t ∉ g.waiters c := by
  intro hmem
  obtain ⟨p, hp⟩ := h.waiters c t hmem
  exact ht p hp

omit [DecidableEq L] [DecidableEq C] in
/-- The waiters are the old ones or fewer, and the mover is none of them. -/
theorem LocksRight.fewer (h : LocksRight lockOf holds g) {k : Control L C P} {queue : List T}
    (hsub : ∀ u ∈ queue, u ∈ g.waiters c) (ht : t ∉ queue) :
    ∀ u ∈ queue, ∃ p, (g.goto t k).control u = .waiting c p := by
  intro u hu
  have hne : u ≠ t := by
    rintro rfl
    exact ht hu
  rw [goto_control, if_neg hne]
  exact h.waiters c u (hsub u hu)

omit [DecidableEq C] in
theorem LocksRight.acquire (h : LocksRight lockOf holds g) (hwaits : ∀ c, t ∉ g.waiters c)
    (hhas : ∀ m, (g.control t).Has lockOf holds m ↔ m ≠ l ∧ holds q m)
    (hasks : ∀ m, ¬ (g.control t).Acquires m) (hq : holds q l) :
    LocksRight lockOf holds (g.acquire t l q) where
  held m := by
    by_cases hm : m = l
    · subst hm
      have hacq := (h.held m).acquire (t := t) (by simp [hhas]) (hasks m)
      rw [acquire_lock, if_pos rfl]
      refine hacq.goto ((hhas m).symm) (iff_of_true rfl (.inl rfl)) fun u hu => ?_
      exact ⟨Iff.rfl, by simp [hu, State.setLock]⟩
    · rw [acquire_lock, if_neg hm]
      exact h.unconcerned (hhas m).symm (iff_of_false hm (hasks m))
  waiters c := h.fewer (fun _ hu => hu) (hwaits c)
  nodup := h.nodup
  acquiring := by
    intro u m p hu
    rw [acquire_control] at hu
    split_ifs at hu with hut
    · obtain ⟨rfl, rfl⟩ := Control.acquiring.inj hu
      exact hq
    · exact h.acquiring u m p hu
  returning := by
    intro u c p hu
    rw [acquire_control] at hu
    split_ifs at hu
    exact h.returning u c p hu

omit [DecidableEq C] in
/-- Thread `t` gives the lock back and goes to `k`, inside no queue yet. -/
theorem LocksRight.releases (h : LocksRight lockOf holds g) (hc : g.control t = .runs p)
    (hl : holds p l) {k : Control L C P}
    (hhas : ∀ m, k.Has lockOf holds m ↔ m ≠ l ∧ holds p m) (hasks : ∀ m, ¬ k.Acquires m) (m : L) :
    Held ((g.release t l).lock m) (fun u => ((g.goto t k).control u).Has lockOf holds m)
      (fun u => ((g.goto t k).control u).Acquires m) := by
  by_cases hm : m = l
  · subst hm
    have hrel := (h.held m).release (t := t) (by rw [hc]; exact hl) (by rw [hc]; exact id)
    rw [release_lock, if_pos rfl]
    refine hrel.goto ?_ ?_ fun u hu => ?_
    · exact iff_of_false (fun hk => ((hhas m).mp hk).1 rfl) fun hk => hk.1 rfl
    · rw [hc]
      exact iff_of_false (hasks m) id
    · exact ⟨by simp [hu], Iff.rfl⟩
  · rw [release_lock, if_neg hm]
    refine h.unconcerned ?_ ?_
    · rw [hc, hhas]
      exact ⟨fun hk => hk.2, fun hk => ⟨hm, hk⟩⟩
    · rw [hc]
      exact iff_of_false (hasks m) id

omit [DecidableEq L] in
/-- Thread `t` keeps its locks and runs on at `q`; the queue of `c` may get shorter. -/
theorem LocksRight.runs (h : LocksRight lockOf holds g) (hc : g.control t = .runs p)
    (hq : ∀ m, holds q m ↔ holds p m) {queue : List T} (hsub : queue.Sublist (g.waiters c)) :
    LocksRight lockOf holds ((g.setWaiters c queue).goto t (.runs q)) where
  held l := by
    refine h.unconcerned ?_ ?_
    · rw [hc]
      exact hq l
    · rw [hc]
      exact Iff.rfl
  waiters d := by
    have hnot : t ∉ g.waiters d := h.not_waiting fun p' => by simp [hc]
    rw [goto_waiters, setWaiters_waiters]
    split_ifs with hd
    · subst hd
      exact h.fewer (fun _ hu => hsub.subset hu) fun ht => hnot (hsub.subset ht)
    · exact h.fewer (fun _ hu => hu) hnot
  nodup d := by
    rw [goto_waiters, setWaiters_waiters]
    split_ifs with hd
    · exact hsub.nodup (h.nodup c)
    · exact h.nodup d
  acquiring := by
    intro u m p' hu
    rw [goto_control] at hu
    split_ifs at hu
    exact h.acquiring u m p' hu
  returning := by
    intro u d p' hu
    rw [goto_control] at hu
    split_ifs at hu
    exact h.returning u d p' hu

omit [DecidableEq C] in
theorem LocksRight.granted (h : LocksRight lockOf holds g) (hc : g.control t = .acquiring l p)
    (ho : (g.lock l).owner = some t) : LocksRight lockOf holds (g.goto t (.runs p)) where
  held m := by
    by_cases hm : m = l
    · subst hm
      refine ((h.held m).grant ho).goto ?_ ?_ fun u hu => ⟨by simp [hu], by simp [hu]⟩
      · exact iff_of_true (h.acquiring t m p hc) (.inl rfl)
      · exact iff_of_false id fun hk => hk.1 rfl
    · refine h.unconcerned ?_ ?_
      · rw [hc]
        exact ⟨fun hk => ⟨hm, hk⟩, fun hk => hk.2⟩
      · rw [hc]
        exact iff_of_false id hm
  waiters c := h.fewer (fun _ hu => hu) (h.not_waiting fun p' => by simp [hc])
  nodup := h.nodup
  acquiring := by
    intro u m p' hu
    rw [goto_control] at hu
    split_ifs at hu
    exact h.acquiring u m p' hu
  returning := by
    intro u d p' hu
    rw [goto_control] at hu
    split_ifs at hu
    exact h.returning u d p' hu

omit [DecidableEq C] in
theorem LocksRight.release (h : LocksRight lockOf holds g) (hc : g.control t = .runs p)
    (hl : holds p l) (hq : ∀ m, holds q m ↔ m ≠ l ∧ holds p m) :
    LocksRight lockOf holds ((g.release t l).goto t (.runs q)) where
  held := h.releases hc hl hq fun _ => id
  waiters c := h.fewer (fun _ hu => hu) (h.not_waiting fun p' => by simp [hc])
  nodup := h.nodup
  acquiring := by
    intro u m p' hu
    rw [goto_control] at hu
    split_ifs at hu
    exact h.acquiring u m p' hu
  returning := by
    intro u d p' hu
    rw [goto_control] at hu
    split_ifs at hu
    exact h.returning u d p' hu

theorem LocksRight.wait (h : LocksRight lockOf holds g) (hc : g.control t = .runs p)
    (hl : holds p (lockOf c)) (hq : ∀ m, holds q m ↔ holds p m) :
    LocksRight lockOf holds (g.wait t c (lockOf c) q) where
  held := h.releases hc hl (fun m => and_congr_right' (hq m)) fun _ => id
  waiters d := by
    have hnot : t ∉ g.waiters d := h.not_waiting fun p' => by simp [hc]
    intro u hu
    rw [wait_control]
    rw [wait_waiters] at hu
    split_ifs with hut
    · subst hut
      split_ifs at hu with hd
      · exact ⟨q, by rw [hd]⟩
      · exact absurd hu hnot
    · split_ifs at hu with hd
      · subst hd
        refine h.waiters d u ((List.mem_append.mp hu).resolve_right ?_)
        simpa using hut
      · exact h.waiters d u hu
  nodup d := by
    have hnot : t ∉ g.waiters c := h.not_waiting fun p' => by simp [hc]
    rw [wait_waiters]
    split_ifs
    · refine List.nodup_append.mpr ⟨h.nodup c, List.nodup_singleton t, ?_⟩
      rintro a ha b hb rfl
      exact hnot (List.mem_singleton.mp hb ▸ ha)
    · exact h.nodup d
  acquiring := by
    intro u m p' hu
    rw [wait_control] at hu
    split_ifs at hu
    exact h.acquiring u m p' hu
  returning := by
    intro u d p' hu
    rw [wait_control] at hu
    split_ifs at hu
    · obtain ⟨rfl, rfl⟩ := Control.waiting.inj hu
      exact (hq _).mpr hl
    · exact h.returning u d p' hu

omit [DecidableEq C] in
theorem LocksRight.woken (h : LocksRight lockOf holds g) (hc : g.control t = .waiting c p)
    (hw : t ∉ g.waiters c) : LocksRight lockOf holds (g.acquire t (lockOf c) p) := by
  refine h.acquire (fun d hd => ?_) ?_ ?_ (h.returning t c p hc)
  · obtain ⟨p', hp'⟩ := h.waiters d t hd
    obtain ⟨rfl, -⟩ := Control.waiting.inj (hc.symm.trans hp')
    exact hw hd
  · intro m
    rw [hc]
    rfl
  · intro m
    rw [hc]
    exact id

/-- The discipline is kept by every step. -/
theorem LocksRight.move (hd : Discipline lockOf program holds) (h : LocksRight lockOf holds g)
    (hm : Move lockOf program g t i g') : LocksRight lockOf holds g' := by
  cases hm with
  | granted hc ho => exact h.granted hc ho
  | woken hc hw => exact h.woken hc hw
  | @acquire p q l hc hi =>
    obtain ⟨hno, hq⟩ := hd _ _ _ _ _ hi
    refine h.acquire (fun d => h.not_waiting fun p' => by simp [hc]) ?_ ?_ ((hq l).mpr (.inl rfl))
    · intro m
      rw [hc, hq]
      constructor
      · intro hp
        exact ⟨fun hm => hno (hm ▸ hp), .inr hp⟩
      · rintro ⟨hm, rfl | hp⟩
        · exact absurd rfl hm
        · exact hp
    · intro m
      rw [hc]
      exact id
  | release hc hi =>
    obtain ⟨hl, hq⟩ := hd _ _ _ _ _ hi
    exact h.release hc hl hq
  | wait hc hi ho =>
    obtain ⟨hl, hq⟩ := hd _ _ _ _ _ hi
    exact h.wait hc hl hq
  | signal hc hi ho =>
    exact h.runs hc (hd _ _ _ _ _ hi).2 (List.tail_sublist _)
  | broadcast hc hi ho =>
    exact h.runs hc (hd _ _ _ _ _ hi).2 (List.nil_sublist _)
  | @refused p q c a hc hi ha ho =>
    have hown : holds p (lockOf c) := by
      rcases ha with rfl | rfl | rfl <;> exact (hd _ _ _ _ _ hi).1
    refine absurd ((h.held (lockOf c)).has t ?_) ho
    rw [hc]
    exact hown
  | @access p q s hc hi =>
    have hq := hd _ _ _ _ _ hi
    refine ⟨fun l => ?_, ?_, h.nodup, ?_, ?_⟩
    · refine h.unconcerned ?_ ?_
      · rw [hc]
        exact hq l
      · rw [hc]
        exact Iff.rfl
    · exact fun d => h.fewer (fun _ hu => hu) (h.not_waiting fun p' => by simp [hc])
    · intro u m p' hu
      rw [goto_control] at hu
      split_ifs at hu
      exact h.acquiring u m p' hu
    · intro u d p' hu
      rw [goto_control] at hu
      split_ifs at hu
      exact h.returning u d p' hu

/-! A step, by where the thread is. -/

/-- What an instruction does for a thread that has the locks it needs. -/
inductive Effect (lockOf : C → L) (g : State T L C S P) (t : T) :
    Instruction L C S P → State T L C S P → Prop
  | acquire {l : L} {q : P} : Effect lockOf g t (.acquire l q) (g.acquire t l q)
  | release {l : L} {q : P} :
      Effect lockOf g t (.release l q) ((g.release t l).goto t (.runs q))
  | wait {c : C} {q : P} : Effect lockOf g t (.wait c q) (g.wait t c (lockOf c) q)
  | signal {c : C} {q : P} :
      Effect lockOf g t (.signal c q) ((g.setWaiters c (g.waiters c).tail).goto t (.runs q))
  | broadcast {c : C} {q : P} :
      Effect lockOf g t (.broadcast c q) ((g.setWaiters c []).goto t (.runs q))
  | access {s : S} {q : P} :
      Effect lockOf g t (.access s q) (({ g with shared := s } : State T L C S P).goto t (.runs q))

theorem Move.effect (hm : Move lockOf program g t i g') (hd : Discipline lockOf program holds)
    (hl : LocksRight lockOf holds g) (hc : g.control t = .runs p) :
    ∃ a, program g.shared t p i = some a ∧ Effect lockOf g t a g' := by
  cases hm with
  | granted hc' ho => cases hc.symm.trans hc'
  | woken hc' hw => cases hc.symm.trans hc'
  | acquire hc' hi =>
    obtain rfl := Control.runs.inj (hc.symm.trans hc')
    exact ⟨_, hi, .acquire⟩
  | release hc' hi =>
    obtain rfl := Control.runs.inj (hc.symm.trans hc')
    exact ⟨_, hi, .release⟩
  | wait hc' hi ho =>
    obtain rfl := Control.runs.inj (hc.symm.trans hc')
    exact ⟨_, hi, .wait⟩
  | signal hc' hi ho =>
    obtain rfl := Control.runs.inj (hc.symm.trans hc')
    exact ⟨_, hi, .signal⟩
  | broadcast hc' hi ho =>
    obtain rfl := Control.runs.inj (hc.symm.trans hc')
    exact ⟨_, hi, .broadcast⟩
  | @refused p' q c a hc' hi ha ho =>
    have hown : holds p' (lockOf c) := by
      rcases ha with rfl | rfl | rfl <;> exact (hd _ _ _ _ _ hi).1
    refine absurd ((hl.held (lockOf c)).has t ?_) ho
    rw [hc']
    exact hown
  | access hc' hi =>
    obtain rfl := Control.runs.inj (hc.symm.trans hc')
    exact ⟨_, hi, .access⟩

theorem Move.of_acquiring (hm : Move lockOf program g t i g') (hc : g.control t = .acquiring l p) :
    (g.lock l).owner = some t ∧ g' = g.goto t (.runs p) := by
  cases hm with
  | granted hc' ho =>
    obtain ⟨rfl, rfl⟩ := Control.acquiring.inj (hc.symm.trans hc')
    exact ⟨ho, rfl⟩
  | woken hc' | acquire hc' | release hc' | wait hc' | signal hc' | broadcast hc' | refused hc'
  | access hc' => cases hc.symm.trans hc'

theorem Move.of_waiting (hm : Move lockOf program g t i g') (hc : g.control t = .waiting c p) :
    t ∉ g.waiters c ∧ g' = g.acquire t (lockOf c) p := by
  cases hm with
  | woken hc' hw =>
    obtain ⟨rfl, rfl⟩ := Control.waiting.inj (hc.symm.trans hc')
    exact ⟨hw, rfl⟩
  | granted hc' | acquire hc' | release hc' | wait hc' | signal hc' | broadcast hc' | refused hc'
  | access hc' => cases hc.symm.trans hc'

/-- An invariant of runs needs to be shown for the steps that respect the locks only. -/
theorem invariant_of_locks {g₀ : State T L C S P} {tr : List (Transition _ (T × I))}
    (hd : Discipline lockOf program holds) (hl : LocksRight lockOf holds g₀)
    {Q : State T L C S P → Prop} (h : Execution (Steps lockOf program) g₀ tr g) (h0 : Q g₀)
    (hstep : ∀ g t i g', LocksRight lockOf holds g → Q g → Move lockOf program g t i g' → Q g') :
    LocksRight lockOf holds g ∧ Q g := by
  refine h.invariant (P := fun g => LocksRight lockOf holds g ∧ Q g) ⟨hl, h0⟩ fun g e g' hg hs => ?_
  have hm := step_move hs
  exact ⟨hg.1.move hd hm, hstep g e.1 e.2 g' hg.1 hg.2 hm⟩

theorem invariant_of_discipline {s : S} {start : T → P} {tr : List (Transition _ (T × I))}
    (hd : Discipline lockOf program holds) (hstart : ∀ t l, ¬ holds (start t) l)
    {Q : State T L C S P → Prop} (h : Execution (Steps lockOf program) (.initial s start) tr g)
    (h0 : Q (.initial s start))
    (hstep : ∀ g t i g', LocksRight lockOf holds g → Q g → Move lockOf program g t i g' → Q g') :
    LocksRight lockOf holds g ∧ Q g :=
  invariant_of_locks hd (.initial s hstart) h h0 hstep

/-- Where every step lowers a measure no run is longer than the measure at its start. -/
theorem length_le_of_measure {g₀ : State T L C S P} {tr : List (Transition _ (T × I))}
    (hd : Discipline lockOf program holds) (hl : LocksRight lockOf holds g₀)
    {Q : State T L C S P → Prop} (h : Execution (Steps lockOf program) g₀ tr g) (h0 : Q g₀)
    (hstep : ∀ g t i g', LocksRight lockOf holds g → Q g → Move lockOf program g t i g' → Q g')
    (measure : State T L C S P → ℕ)
    (hlt : ∀ g t i g', Q g → Move lockOf program g t i g' → measure g' < measure g) :
    tr.length + measure g ≤ measure g₀ := by
  induction h with
  | start => simp
  | @extend tr s s' e hex hs ih =>
    have hq := (invariant_of_locks hd hl hex h0 hstep).2
    have hdrop := hlt s e.1 e.2 s' hq (step_move hs)
    rw [List.length_append, List.length_singleton]
    omega

/-! Who can go on. -/

omit [DecidableEq T] [DecidableEq L] [DecidableEq C] in
theorem not_blocked_of_runs (hc : g.control t = .runs p) : ¬ Blocked g t := by
  simp [Blocked, hc]

theorem step_of_granted (hc : g.control t = .acquiring l p) (ho : (g.lock l).owner = some t)
    (i : I) : (step lockOf program g t i).isSome := by
  simp [step, hc, ho]

theorem step_of_woken (hc : g.control t = .waiting c p) (hw : t ∉ g.waiters c) (i : I) :
    (step lockOf program g t i).isSome := by
  simp [step, hc, hw]

theorem step_of_runs (hc : g.control t = .runs p) (hi : (program g.shared t p i).isSome) :
    (step lockOf program g t i).isSome := by
  simpa [step, hc] using hi

omit [DecidableEq T] [DecidableEq L] [DecidableEq C] in
/-- A lock that is asked for is kept by a thread, or given to one inside its `Acquire`. -/
theorem LocksRight.exists_owner (h : LocksRight lockOf holds g)
    (hc : g.control t = .acquiring l p) : (∃ u, (g.control u).Has lockOf holds l) ∨
      ∃ u q, g.control u = .acquiring l q ∧ (g.lock l).owner = some u := by
  have hasks : (g.control t).Acquires l := by
    rw [hc]
    rfl
  obtain ⟨u, hu⟩ : ∃ u, (g.lock l).owner = some u := by
    rcases (h.held l).asking t hasks with ho | hmem
    · exact ⟨t, ho⟩
    · refine Option.ne_none_iff_exists'.mp fun ho => ?_
      simp [(g.lock l).idle ho] at hmem
  rcases (h.held l).owner u hu with hhas | hasks
  · exact .inl ⟨u, hhas⟩
  · cases hk : g.control u with
    | acquiring m q =>
      rw [hk] at hasks
      obtain rfl := hasks
      exact .inr ⟨u, q, hk, hu⟩
    | runs q | waiting c q =>
      rw [hk] at hasks
      exact hasks.elim

/-- Where the runs of allowed steps are bounded, one of them ends where no such step is left. -/
theorem exists_stuck {g₀ : State T L C S P} {n : ℕ}
    (hn : ∀ {tr : List (Transition _ (T × I))} {g : State T L C S P},
      Execution (Steps lockOf program) g₀ tr g → tr.length ≤ n)
    (allowed : State T L C S P → T × I → Prop) :
    ∃ tr g, Execution (Steps lockOf program) g₀ tr g ∧ (∀ x ∈ tr, allowed x.before x.event) ∧
      ∀ t i, allowed g (t, i) → step lockOf program g t i = none := by
  by_contra hnone
  have hlong : ∀ k, ∃ tr g, Execution (Steps lockOf program) g₀ tr g ∧
      (∀ x ∈ tr, allowed x.before x.event) ∧ tr.length = k := by
    intro k
    induction k with
    | zero => exact ⟨[], g₀, .start, by simp, rfl⟩
    | succ k ih =>
      obtain ⟨tr, g, hex, hall, hlen⟩ := ih
      obtain ⟨t, i, hti, hsome⟩ : ∃ t i, allowed g (t, i) ∧ step lockOf program g t i ≠ none := by
        by_contra hstuck
        push Not at hstuck
        exact hnone ⟨tr, g, hex, hall, hstuck⟩
      obtain ⟨g', hstep⟩ := Option.ne_none_iff_exists'.mp hsome
      refine ⟨_, g', hex.extend (e := (t, i)) hstep, fun x hx => ?_, ?_⟩
      · rcases List.mem_append.mp hx with hx | hx
        · exact hall x hx
        · obtain rfl := List.mem_singleton.mp hx
          exact hti
      · rw [List.length_append, List.length_singleton, hlen]
  obtain ⟨tr, g, hex, -, hlen⟩ := hlong (n + 1)
  have hle := hn hex
  omega

theorem execution_of_run {g₀ : State T L C S P} (schedule : List (T × I)) :
    ∀ {tr : List (Transition _ (T × I))} {g : State T L C S P},
      Execution (Steps lockOf program) g₀ tr g → run lockOf program g schedule = some g' →
      ∃ tr', Execution (Steps lockOf program) g₀ tr' g' := by
  induction schedule with
  | nil =>
    intro tr g hex hrun
    obtain rfl := Option.some.inj hrun
    exact ⟨tr, hex⟩
  | cons e schedule ih =>
    intro tr g hex hrun
    obtain ⟨g₁, hstep, hrest⟩ := Option.bind_eq_some_iff.mp hrun
    exact ih (hex.extend (e := e) hstep) hrest

variable (lockOf program g) in
/-- A test that succeeds at the end of a schedule, as a fact about an execution. -/
theorem exists_of_run (schedule : List (T × I)) (test : State T L C S P → Bool)
    (h : (run lockOf program g schedule).any test = true) :
    ∃ tr g', Execution (Steps lockOf program) g tr g' ∧ test g' = true := by
  obtain ⟨g', hrun, htest⟩ := (Option.any_eq_true _ _).mp h
  obtain ⟨tr, hex⟩ := execution_of_run schedule .start hrun
  exact ⟨tr, g', hex, htest⟩

theorem execution_of_runFirst {g₀ : State T L C S P} (check : State T L C S P → T × I → Bool)
    (threads : List (T × I)) (n : ℕ) :
    ∀ {tr : List (Transition _ (T × I))} {g : State T L C S P},
      Execution (Steps lockOf program) g₀ tr g → (∀ x ∈ tr, check x.before x.event = true) →
      ∃ tr', Execution (Steps lockOf program) g₀ tr' (runFirst lockOf program check threads n g) ∧
        ∀ x ∈ tr', check x.before x.event = true := by
  induction n with
  | zero =>
    intro tr g hex hall
    exact ⟨tr, hex, hall⟩
  | succ n ih =>
    intro tr g hex hall
    rw [runFirst]
    split
    · rename_i g' hfound
      obtain ⟨e, -, hstep⟩ := List.exists_of_findSome?_eq_some hfound
      split_ifs at hstep with hcheck
      refine ih (hex.extend (e := e) hstep) fun x hx => ?_
      rcases List.mem_append.mp hx with hx | hx
      · exact hall x hx
      · obtain rfl := List.mem_singleton.mp hx
        exact hcheck
    · exact ⟨tr, hex, hall⟩

variable (lockOf program g) in
theorem exists_of_runFirst (check : State T L C S P → T × I → Bool) (threads : List (T × I)) (n : ℕ)
    (test : State T L C S P → Bool)
    (h : test (runFirst lockOf program check threads n g) = true) :
    ∃ tr g', Execution (Steps lockOf program) g tr g' ∧
      (∀ x ∈ tr, check x.before x.event = true) ∧ test g' = true := by
  have hstart : Execution (Steps lockOf program) g [] g := .start
  obtain ⟨tr, hex, hall⟩ := execution_of_runFirst check threads n hstart (by simp)
  exact ⟨tr, _, hex, hall, h⟩

end Nachos.Mesa
