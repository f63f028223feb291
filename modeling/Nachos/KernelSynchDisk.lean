import Nachos.KernelSemaphores
import Nachos.FileSectors
import Nachos.FifoQueues

/-! The synchronous disk, `filesys/synchdisk.cc`: threads that read and write sectors of a disk
which takes one request at a time and tells by an interrupt that it is done. Any thread may run
between two steps, and the interrupt may come at any time after the request. -/
namespace Nachos.SynchDisk
open Executions FifoQueues FileSystem Threads

/-- A call of `ReadSector` or `WriteSector`. -/
inductive Request
  | read (sectorNumber : ℤ)
  | write (sectorNumber : ℤ) (data : Sector)

/-- What the disk does with a request, and the data that is read or written. -/
def serve (d : Disk) : Request → Except BitMaps.Fault (Disk × Sector)
  | .read sectorNumber => (readSector d sectorNumber).map fun data => (d, data)
  | .write sectorNumber data => (writeSector d sectorNumber data).map fun d => (d, data)

inductive Place
  | outside
  /-- asleep in `Acquire` -/
  | acquiring (r : Request)
  | acquired (r : Request)
  /-- in `P`, or woken there; `data` is in the buffer -/
  | requested (r : Request) (data : Sector)
  /-- asleep in `P` -/
  | sleeping (r : Request) (data : Sector)
  /-- behind `P` -/
  | done (r : Request) (data : Sector)

structure State (T : Type) where
  semaphore : Semaphore T
  lock : Lock T
  disk : Disk
  active : Bool
  place : T → Place

inductive Event (T : Type)
  | call (t : T) (r : Request)
  | request (t : T)
  | p (t : T)
  | interrupt
  | release (t : T)

inductive Stop
  | notEnabled
  /-- `ASSERT(!active)` -/
  | active
  /-- `ASSERT((sectorNumber >= 0) && (sectorNumber < NumSectors))` -/
  | noSector
  deriving DecidableEq, Repr

namespace State
variable {T : Type} [DecidableEq T]

/-- The owner of the new lock is none of the threads. -/
def initial (d : Disk) : State T where
  semaphore := .new 0
  lock := .new none
  disk := d
  active := false
  place _ := .outside

/-- `ReadyToRun` for a thread that sleeps in `P`. -/
def wake (place : T → Place) : Option T → T → Place
  | none => place
  | some t =>
    match place t with
    | .sleeping r data => Function.update place t (.requested r data)
    | _ => place

/-- `ReadyToRun` for a thread that sleeps in `Acquire` and has been given the lock. -/
def hand (place : T → Place) : Option T → T → Place
  | none => place
  | some t =>
    match place t with
    | .acquiring r => Function.update place t (.acquired r)
    | _ => place

def step (s : State T) : Event T → Except Stop (State T)
  | .call t r =>
    match s.place t with
    | .outside =>
      let (lock, sleeps) := s.lock.acquire t
      .ok { s with
        lock
        place := Function.update s.place t (if sleeps then .acquiring r else .acquired r) }
    | _ => .error .notEnabled
  | .request t =>
    match s.place t with
    | .acquired r =>
      if s.active then .error .active
      else
        match serve s.disk r with
        | .error _ => .error .noSector
        | .ok (disk, data) => .ok { s with
            disk
            active := true
            place := Function.update s.place t (.requested r data) }
    | _ => .error .notEnabled
  | .p t =>
    match s.place t with
    | .requested r data =>
      let (semaphore, passed) := s.semaphore.p t
      .ok { s with
        semaphore
        place := Function.update s.place t (if passed then .done r data else .sleeping r data) }
    | _ => .error .notEnabled
  | .interrupt =>
    if s.active then
      let (semaphore, woken) := s.semaphore.v
      .ok { s with semaphore, active := false, place := wake s.place woken }
    else .error .notEnabled
  | .release t =>
    match s.place t with
    | .done _ _ =>
      let (lock, next) := s.lock.release t
      .ok { s with lock, place := hand (Function.update s.place t .outside) next }
    | _ => .error .notEnabled

end State

variable {T : Type} {s s' : State T}

/-- Between `Acquire` and `Release`. -/
def Place.Inside : Place → Prop
  | .outside | .acquiring _ => False
  | _ => True

/-- How the disk and the semaphore are while the owner of the lock is at a place. -/
def Fits (t : T) (active : Bool) (semaphore : Semaphore T) : Place → Prop
  | .outside | .acquiring _ => False
  | .acquired _ | .done _ _ => active = false ∧ semaphore = ⟨0, []⟩
  | .requested _ _ =>
    active = true ∧ semaphore = ⟨0, []⟩ ∨ active = false ∧ semaphore = ⟨1, []⟩
  | .sleeping _ _ => active = true ∧ semaphore = ⟨0, [t]⟩

structure Inv (s : State T) : Prop where
  valid : s.lock.Valid
  nodup : s.lock.queue.Nodup
  queued : ∀ t, t ∈ s.lock.queue ↔ ∃ r, s.place t = .acquiring r
  owner : ∀ t, s.lock.threadWithPossession = some t ↔ (s.place t).Inside
  fits : ∀ t, s.lock.threadWithPossession = some t → Fits t s.active s.semaphore (s.place t)
  idle : s.lock.threadWithPossession = none → s.active = false ∧ s.semaphore = ⟨0, []⟩

theorem inv_initial (d : Disk) : Inv (State.initial d : State T) :=
  ⟨Lock.new_valid, List.nodup_nil, fun t => by simp [State.initial, Lock.new],
    fun t => by simp [State.initial, Lock.new, Place.Inside], fun t ht => (by cases ht),
    fun _ => ⟨rfl, rfl⟩⟩

theorem Inv.owns (h : Inv s) {t : T} (hin : (s.place t).Inside) :
    s.lock.threadWithPossession = some t ∧ Fits t s.active s.semaphore (s.place t) :=
  ⟨(h.owner t).mpr hin, h.fits t ((h.owner t).mpr hin)⟩

theorem Inv.outside_not_queued (h : Inv s) {t : T} (hp : s.place t = .outside) :
    t ∉ s.lock.queue := by
  intro hmem
  obtain ⟨r, hr⟩ := (h.queued t).mp hmem
  simp [hp] at hr

theorem Inv.owner_not_queued (h : Inv s) {t : T} (ho : s.lock.threadWithPossession = some t) :
    t ∉ s.lock.queue := by
  intro hmem
  obtain ⟨r, hr⟩ := (h.queued t).mp hmem
  simpa [hr, Place.Inside] using (h.owner t).mp ho

variable [DecidableEq T]

/-- What a step does, with what is so before it. -/
inductive Move (s : State T) : Event T → State T → Prop
  | enters {t : T} {r : Request} (hp : s.place t = .outside)
      (ho : s.lock.threadWithPossession = none) (hq : s.lock.queue = []) :
      Move s (.call t r) { s with
        lock := ⟨.busy, [], some t⟩, place := Function.update s.place t (.acquired r) }
  | queues {t u : T} {r : Request} (hp : s.place t = .outside)
      (ho : s.lock.threadWithPossession = some u) (hut : u ≠ t) (hb : s.lock.state = .busy) :
      Move s (.call t r) { s with
        lock := { s.lock with queue := s.lock.queue ++ [t] }
        place := Function.update s.place t (.acquiring r) }
  | requests {t : T} {r : Request} {disk : Disk} {data : Sector}
      (ho : s.lock.threadWithPossession = some t) (hp : s.place t = .acquired r)
      (hs : s.semaphore = ⟨0, []⟩) (hserve : serve s.disk r = .ok (disk, data)) :
      Move s (.request t) { s with
        disk, active := true, place := Function.update s.place t (.requested r data) }
  | sleeps {t : T} {r : Request} {data : Sector} (ho : s.lock.threadWithPossession = some t)
      (hp : s.place t = .requested r data) (ha : s.active = true) (hs : s.semaphore = ⟨0, []⟩) :
      Move s (.p t) { s with
        semaphore := ⟨0, [t]⟩, place := Function.update s.place t (.sleeping r data) }
  | passes {t : T} {r : Request} {data : Sector} (ho : s.lock.threadWithPossession = some t)
      (hp : s.place t = .requested r data) (ha : s.active = false) (hs : s.semaphore = ⟨1, []⟩) :
      Move s (.p t) { s with
        semaphore := ⟨0, []⟩, place := Function.update s.place t (.done r data) }
  | completes {t : T} {r : Request} {data : Sector} (ho : s.lock.threadWithPossession = some t)
      (hp : s.place t = .requested r data) (ha : s.active = true) (hs : s.semaphore = ⟨0, []⟩) :
      Move s .interrupt { s with semaphore := ⟨1, []⟩, active := false }
  | wakes {t : T} {r : Request} {data : Sector} (ho : s.lock.threadWithPossession = some t)
      (hp : s.place t = .sleeping r data) (ha : s.active = true) (hs : s.semaphore = ⟨0, [t]⟩) :
      Move s .interrupt { s with
        semaphore := ⟨1, []⟩
        active := false
        place := Function.update s.place t (.requested r data) }
  | hands {t u : T} {r r' : Request} {data : Sector} {rest : List T}
      (ho : s.lock.threadWithPossession = some t) (hp : s.place t = .done r data)
      (ha : s.active = false) (hs : s.semaphore = ⟨0, []⟩) (hq : s.lock.queue = u :: rest)
      (hu : s.place u = .acquiring r') (hb : s.lock.state = .busy) :
      Move s (.release t) { s with
        lock := { s.lock with queue := rest, threadWithPossession := some u }
        place := Function.update (Function.update s.place t .outside) u (.acquired r') }
  | leaves {t : T} {r : Request} {data : Sector} (ho : s.lock.threadWithPossession = some t)
      (hp : s.place t = .done r data) (ha : s.active = false) (hs : s.semaphore = ⟨0, []⟩)
      (hq : s.lock.queue = []) :
      Move s (.release t) { s with
        lock := ⟨.free, [], none⟩, place := Function.update s.place t .outside }

theorem Inv.move_call (h : Inv s) {t : T} {r : Request} (hs : s.step (.call t r) = .ok s') :
    Move s (.call t r) s' := by
  simp only [State.step] at hs
  cases hp : s.place t with
  | outside =>
    rw [hp] at hs
    rcases Lock.acquire_cases s.lock t with ⟨ho, -⟩ | ⟨-, hfree, he⟩ | ⟨hne, hbusy, he⟩
    · have hin := (h.owner t).mp ho
      simp [hp, Place.Inside] at hin
    · simp only [he] at hs
      cases hs
      have hnone := h.valid.free_iff.mp hfree
      have hq := h.valid.settled hfree
      have hmove := Move.enters (r := r) hp hnone hq
      rw [hq]
      exact hmove
    · simp only [he] at hs
      cases hs
      obtain ⟨u, hu⟩ := Option.isSome_iff_exists.mp (h.valid.busy_iff.mp hbusy)
      exact .queues hp hu (fun hut => hne (hut ▸ hu)) hbusy
  | _ => simp [hp] at hs

theorem Inv.move_request (h : Inv s) {t : T} (hs : s.step (.request t) = .ok s') :
    Move s (.request t) s' := by
  simp only [State.step] at hs
  cases hp : s.place t with
  | acquired r =>
    rw [hp] at hs
    obtain ⟨ho, hfits⟩ := h.owns (t := t) (by simp [hp, Place.Inside])
    rw [hp] at hfits
    obtain ⟨ha, hsem⟩ := hfits
    simp only [ha, Bool.false_eq_true, if_false] at hs
    cases hserve : serve s.disk r with
    | error e => simp [hserve] at hs
    | ok x =>
      simp only [hserve] at hs
      cases hs
      exact .requests ho hp hsem hserve
  | _ => simp [hp] at hs

theorem Inv.move_p (h : Inv s) {t : T} (hs : s.step (.p t) = .ok s') :
    Move s (.p t) s' := by
  simp only [State.step] at hs
  cases hp : s.place t with
  | requested r data =>
    rw [hp] at hs
    obtain ⟨ho, hfits⟩ := h.owns (t := t) (by simp [hp, Place.Inside])
    rw [hp] at hfits
    rcases hfits with ⟨ha, hsem⟩ | ⟨ha, hsem⟩
    · simp only [hsem, Semaphore.p, if_true] at hs
      cases hs
      exact .sleeps ho hp ha hsem
    · simp only [hsem, Semaphore.p] at hs
      cases hs
      exact .passes ho hp ha hsem
  | _ => simp [hp] at hs

theorem Inv.move_interrupt (h : Inv s) (hs : s.step .interrupt = .ok s') :
    Move s .interrupt s' := by
  simp only [State.step] at hs
  split at hs
  · next ha =>
    cases ho : s.lock.threadWithPossession with
    | none => simp [(h.idle ho).1] at ha
    | some t =>
      have hfits := h.fits t ho
      cases hp : s.place t with
      | requested r data =>
        rw [hp] at hfits
        rcases hfits with ⟨-, hsem⟩ | ⟨hidle, -⟩
        · simp only [hsem, Semaphore.v, State.wake] at hs
          cases hs
          exact .completes ho hp ha hsem
        · simp [hidle] at ha
      | sleeping r data =>
        rw [hp] at hfits
        obtain ⟨-, hsem⟩ := hfits
        simp only [hsem, Semaphore.v, State.wake, hp] at hs
        cases hs
        exact .wakes ho hp ha hsem
      | outside | acquiring r =>
        rw [hp] at hfits
        exact hfits.elim
      | acquired r | done r data =>
        rw [hp] at hfits
        simp [hfits.1] at ha
  · cases hs

theorem Inv.move_release (h : Inv s) {t : T} (hs : s.step (.release t) = .ok s') :
    Move s (.release t) s' := by
  simp only [State.step] at hs
  cases hp : s.place t with
  | done r data =>
    rw [hp] at hs
    obtain ⟨ho, hfits⟩ := h.owns (t := t) (by simp [hp, Place.Inside])
    rw [hp] at hfits
    obtain ⟨ha, hsem⟩ := hfits
    rcases Lock.release_cases s.lock t with ⟨hne, -⟩ | ⟨-, u, rest, hq, he⟩ | ⟨-, hq, he⟩
    · exact absurd ho hne
    · simp only [he] at hs
      cases hs
      obtain ⟨r', hu⟩ := (h.queued u).mp (hq ▸ List.mem_cons_self)
      have hne : u ≠ t := fun hut => by simp [hut, hp] at hu
      have hbusy := h.valid.busy_iff.mpr (by simp [ho])
      have hmove := Move.hands ho hp ha hsem hq hu hbusy
      simpa only [State.hand, Function.update_of_ne hne, hu] using hmove
    · simp only [he] at hs
      cases hs
      have hmove := Move.leaves ho hp ha hsem hq
      simpa only [State.hand, hq] using hmove
  | _ => simp [hp] at hs

theorem Inv.move (h : Inv s) {e : Event T} (hs : s.step e = .ok s') : Move s e s' := by
  cases e with
  | call t r => exact h.move_call hs
  | request t => exact h.move_request hs
  | p t => exact h.move_p hs
  | interrupt => exact h.move_interrupt hs
  | release t => exact h.move_release hs

/-- The owner goes to another place, and the lock stays. -/
theorem Inv.goto (h : Inv s) {t : T} (ho : s.lock.threadWithPossession = some t) (p : Place)
    (hin : p.Inside) {disk : Disk} {active : Bool} {semaphore : Semaphore T}
    (hfits : Fits t active semaphore p) :
    Inv { s with disk, active, semaphore, place := Function.update s.place t p } := by
  refine ⟨h.valid, h.nodup, fun u => ?_, fun u => ?_, fun u hu => ?_, fun hnone => ?_⟩
  · dsimp only
    by_cases hut : u = t
    · subst hut
      rw [h.queued, Function.update_self]
      refine iff_of_false ?_ ?_
      · rintro ⟨r, hr⟩
        simpa [hr, Place.Inside] using (h.owner u).mp ho
      · rintro ⟨r, rfl⟩
        exact hin
    · rw [Function.update_of_ne hut]
      exact h.queued u
  · dsimp only
    by_cases hut : u = t
    · subst hut
      rw [Function.update_self]
      exact iff_of_true ho hin
    · rw [Function.update_of_ne hut]
      exact h.owner u
  · obtain rfl : t = u := Option.some.inj (ho.symm.trans hu)
    simpa only [Function.update_self] using hfits
  · rw [ho] at hnone
    cases hnone

theorem Inv.enters (h : Inv s) {t : T} (r : Request) (ho : s.lock.threadWithPossession = none)
    (hq : s.lock.queue = []) :
    Inv { s with
      lock := ⟨.busy, [], some t⟩, place := Function.update s.place t (.acquired r) } := by
  refine ⟨⟨by simp, fun hfree => by cases hfree⟩, List.nodup_nil, fun u => ?_, fun u => ?_,
    fun u hu => ?_, fun hnone => by cases hnone⟩
  · dsimp only
    refine iff_of_false (by simp) ?_
    by_cases hut : u = t
    · simp [hut]
    · rw [Function.update_of_ne hut, ← h.queued, hq]
      simp
  · dsimp only
    by_cases hut : u = t
    · subst hut
      rw [Function.update_self]
      exact iff_of_true rfl trivial
    · rw [Function.update_of_ne hut, ← h.owner, ho]
      exact iff_of_false (fun he => hut (Option.some.inj he).symm) (by simp)
  · obtain rfl : t = u := Option.some.inj hu
    dsimp only
    rw [Function.update_self]
    exact h.idle ho

theorem Inv.queues (h : Inv s) {t u : T} (r : Request) (hp : s.place t = .outside)
    (ho : s.lock.threadWithPossession = some u) (hut : u ≠ t) (hb : s.lock.state = .busy) :
    Inv { s with
      lock := { s.lock with queue := s.lock.queue ++ [t] }
      place := Function.update s.place t (.acquiring r) } := by
  have hnot := h.outside_not_queued hp
  refine ⟨⟨h.valid.busy_iff, fun hfree => ?_⟩, ?_, fun v => ?_, fun v => ?_, fun v hv => ?_,
    fun hnone => ?_⟩
  · simp [hb] at hfree
  · exact List.nodup_append.mpr ⟨h.nodup, List.nodup_singleton t, fun a ha b hb' hab =>
      hnot (List.mem_singleton.mp hb' ▸ hab ▸ ha)⟩
  · dsimp only
    rw [List.mem_append, List.mem_singleton]
    by_cases hvt : v = t
    · subst hvt
      rw [Function.update_self]
      exact iff_of_true (.inr rfl) ⟨r, rfl⟩
    · rw [Function.update_of_ne hvt, ← h.queued]
      exact or_iff_left hvt
  · dsimp only
    by_cases hvt : v = t
    · subst hvt
      rw [Function.update_self, ho]
      exact iff_of_false (fun he => hut (Option.some.inj he)) id
    · rw [Function.update_of_ne hvt]
      exact h.owner v
  · obtain rfl : u = v := Option.some.inj (ho.symm.trans hv)
    simpa only [Function.update_of_ne hut] using h.fits u ho
  · rw [ho] at hnone
    cases hnone

theorem Inv.hands (h : Inv s) {t u : T} {r r' : Request} {data : Sector} {rest : List T}
    (ho : s.lock.threadWithPossession = some t) (hp : s.place t = .done r data)
    (ha : s.active = false) (hs : s.semaphore = ⟨0, []⟩) (hq : s.lock.queue = u :: rest)
    (hu : s.place u = .acquiring r') (hb : s.lock.state = .busy) :
    Inv { s with
      lock := { s.lock with queue := rest, threadWithPossession := some u }
      place := Function.update (Function.update s.place t .outside) u (.acquired r') } := by
  have hnd := h.nodup
  rw [hq] at hnd
  obtain ⟨hur, hrest⟩ := List.nodup_cons.mp hnd
  have hut : u ≠ t := fun he => by simp [he, hp] at hu
  refine ⟨⟨by simp [hb], fun hfree => ?_⟩, hrest, fun v => ?_, fun v => ?_, fun v hv => ?_,
    fun hnone => by cases hnone⟩
  · simp [hb] at hfree
  · dsimp only
    by_cases hvu : v = u
    · subst hvu
      rw [Function.update_self]
      exact iff_of_false hur (by simp)
    · rw [Function.update_of_ne hvu]
      by_cases hvt : v = t
      · subst hvt
        rw [Function.update_self]
        refine iff_of_false (fun hmem => ?_) (by simp)
        obtain ⟨r'', hr''⟩ := (h.queued v).mp (hq ▸ List.mem_cons_of_mem _ hmem)
        simp [hp] at hr''
      · rw [Function.update_of_ne hvt, ← h.queued, hq, List.mem_cons]
        exact (or_iff_right hvu).symm
  · dsimp only
    by_cases hvu : v = u
    · subst hvu
      rw [Function.update_self]
      exact iff_of_true rfl trivial
    · rw [Function.update_of_ne hvu]
      refine iff_of_false (fun he => hvu (Option.some.inj he).symm) ?_
      by_cases hvt : v = t
      · subst hvt
        rw [Function.update_self]
        exact id
      · rw [Function.update_of_ne hvt, ← h.owner, ho]
        exact fun he => hvt (Option.some.inj he).symm
  · obtain rfl : u = v := Option.some.inj hv
    dsimp only
    rw [Function.update_self]
    exact ⟨ha, hs⟩

theorem Inv.leaves (h : Inv s) {t : T} (ho : s.lock.threadWithPossession = some t)
    (ha : s.active = false) (hs : s.semaphore = ⟨0, []⟩) (hq : s.lock.queue = []) :
    Inv { s with lock := ⟨.free, [], none⟩, place := Function.update s.place t .outside } := by
  refine ⟨⟨by simp, fun _ => rfl⟩, List.nodup_nil, fun v => ?_, fun v => ?_,
    fun v hv => (by cases hv), fun _ => ⟨ha, hs⟩⟩
  · dsimp only
    refine iff_of_false (by simp) ?_
    by_cases hvt : v = t
    · simp [hvt]
    · rw [Function.update_of_ne hvt, ← h.queued, hq]
      simp
  · dsimp only
    refine iff_of_false (by simp) ?_
    by_cases hvt : v = t
    · simp [hvt, Place.Inside]
    · rw [Function.update_of_ne hvt, ← h.owner, ho]
      exact fun he => hvt (Option.some.inj he).symm

theorem Inv.next (h : Inv s) {e : Event T} (hm : Move s e s') : Inv s' := by
  cases hm with
  | enters hp ho hq => exact h.enters _ ho hq
  | queues hp ho hut hb => exact h.queues _ hp ho hut hb
  | requests ho hp hs hserve => exact h.goto ho (.requested _ _) trivial (.inl ⟨rfl, hs⟩)
  | sleeps ho hp ha hs => exact h.goto ho (.sleeping _ _) trivial ⟨ha, rfl⟩
  | passes ho hp ha hs => exact h.goto ho (.done _ _) trivial ⟨ha, rfl⟩
  | @completes t r data ho hp ha hs =>
    have hnext : Inv { s with
        active := false, semaphore := ⟨1, []⟩, place := Function.update s.place t (s.place t) } :=
      h.goto ho _ (hp ▸ trivial) (hp ▸ .inr ⟨rfl, rfl⟩)
    rwa [Function.update_eq_self] at hnext
  | wakes ho hp ha hs => exact h.goto ho (.requested _ _) trivial (.inr ⟨rfl, rfl⟩)
  | hands ho hp ha hs hq hu hb => exact h.hands ho hp ha hs hq hu hb
  | leaves ho hp ha hs hq => exact h.leaves ho ha hs hq

/-! What has happened in a run. -/

abbrev Step (T : Type) := Transition (State T) (Event T)

inductive Mark (T : Type)
  | request (t : T)
  | interrupt
  | release (t : T)
  deriving DecidableEq

def called (x : Step T) : List (T × Request) :=
  match x.event with
  | .call t r => [(t, r)]
  | _ => []

/-- What a thread has the disk do for it. -/
def serving (t : T) : Place → List (T × Request × Sector)
  | .requested r data | .sleeping r data | .done r data => [(t, r, data)]
  | _ => []

def served (x : Step T) : List (T × Request × Sector) :=
  match x.event with
  | .request t => serving t (x.after.place t)
  | _ => []

def returned (x : Step T) : List (T × Request × Sector) :=
  match x.event with
  | .release t => serving t (x.before.place t)
  | _ => []

def mark (x : Step T) : List (Mark T) :=
  match x.event with
  | .request t => [.request t]
  | .interrupt => [.interrupt]
  | .release t => [.release t]
  | _ => []

/-- A call from the request on. -/
def cycle (y : T × Request × Sector) : List (Mark T) := [.request y.1, .interrupt, .release y.1]

def asking (t : T) : Place → List (T × Request)
  | .acquiring r | .acquired r => [(t, r)]
  | _ => []

def progress (active : Bool) (t : T) : Place → List (Mark T)
  | .requested _ _ | .sleeping _ _ => if active then [.request t] else [.request t, .interrupt]
  | .done _ _ => [.request t, .interrupt]
  | _ => []

namespace State

/-- The calls that have not been served, in the order in which they will be. -/
def waiting (s : State T) : List (T × Request) :=
  (s.lock.threadWithPossession.toList ++ s.lock.queue).flatMap fun t => asking t (s.place t)

def inProgress (s : State T) : List (T × Request × Sector) :=
  s.lock.threadWithPossession.toList.flatMap fun t => serving t (s.place t)

def marks (s : State T) : List (Mark T) :=
  s.lock.threadWithPossession.toList.flatMap fun t => progress s.active t (s.place t)

end State

theorem flatMap_update {β : Type} {l : List T} {t : T} (ht : t ∉ l) (place : T → Place) (p : Place)
    (f : T → Place → List β) :
    (l.flatMap fun u => f u (Function.update place t p u)) = l.flatMap fun u => f u (place u) := by
  refine congrArg List.flatten (List.map_congr_left fun u hu => ?_)
  have hut : u ≠ t := fun he => ht (he ▸ hu)
  rw [Function.update_of_ne hut]

theorem waiting_moves (h : Inv s) {e : Event T} (hm : Move s e s') :
    Moves s.waiting (called ⟨s, e, s'⟩) ((served ⟨s, e, s'⟩).map fun y => (y.1, y.2.1))
      s'.waiting := by
  unfold Moves State.waiting
  cases hm with
  | enters hp ho hq => simp [called, served, ho, hq, asking]
  | @queues t u r hp ho hut hb =>
    have hnot := h.outside_not_queued hp
    simp only [ho, Option.toList_some, List.flatMap_append, List.flatMap_singleton,
      flatMap_update hnot, Function.update_of_ne hut, Function.update_self]
    simp [called, served, asking]
  | requests ho hp hs hserve =>
    simp only [ho, Option.toList_some, List.flatMap_append, List.flatMap_singleton,
      flatMap_update (h.owner_not_queued ho), Function.update_self, hp]
    simp [called, served, asking, serving]
  | sleeps ho hp ha hs | passes ho hp ha hs | wakes ho hp ha hs =>
    simp only [ho, Option.toList_some, List.flatMap_append, List.flatMap_singleton,
      flatMap_update (h.owner_not_queued ho), Function.update_self, hp]
    simp [called, served, asking]
  | completes ho hp ha hs => simp [called, served]
  | @hands t u r r' data rest ho hp ha hs hq hu hb =>
    have hnd := h.nodup
    have hnot := h.owner_not_queued ho
    rw [hq] at hnd hnot
    simp only [ho, hq, Option.toList_some, List.flatMap_append, List.flatMap_cons,
      flatMap_update (List.nodup_cons.mp hnd).1,
      flatMap_update (List.not_mem_of_not_mem_cons hnot), Function.update_self, hp, hu]
    simp [called, served, asking]
  | leaves ho hp ha hs hq => simp [called, served, ho, hp, hq, asking]

theorem inProgress_moves {e : Event T} (hm : Move s e s') :
    Moves s.inProgress (served ⟨s, e, s'⟩) (returned ⟨s, e, s'⟩) s'.inProgress := by
  unfold Moves State.inProgress
  cases hm with
  | enters hp ho hq => simp [served, returned, ho, serving]
  | queues hp ho hut hb => simp [served, returned, ho, Function.update_of_ne hut]
  | requests ho hp hs hserve => simp [served, returned, ho, hp, serving]
  | sleeps ho hp ha hs | passes ho hp ha hs | wakes ho hp ha hs =>
    simp [served, returned, ho, hp, serving]
  | completes ho hp ha hs => simp [served, returned]
  | hands ho hp ha hs hq hu hb => simp [served, returned, ho, hp, serving]
  | leaves ho hp ha hs hq => simp [served, returned, ho, hp, serving]

theorem marks_move {e : Event T} (hm : Move s e s') :
    Moves s.marks (mark ⟨s, e, s'⟩) ((returned ⟨s, e, s'⟩).flatMap cycle) s'.marks := by
  unfold Moves State.marks
  cases hm with
  | enters hp ho hq => simp [mark, returned, ho, progress]
  | queues hp ho hut hb => simp [mark, returned, ho, Function.update_of_ne hut]
  | requests ho hp hs hserve => simp [mark, returned, ho, hp, progress]
  | sleeps ho hp ha hs => simp [mark, returned, ho, hp, ha, progress]
  | passes ho hp ha hs => simp [mark, returned, ho, hp, ha, progress]
  | completes ho hp ha hs => simp [mark, returned, ho, hp, ha, progress]
  | wakes ho hp ha hs => simp [mark, returned, ho, hp, ha, progress]
  | hands ho hp ha hs hq hu hb => simp [mark, returned, ho, hp, progress, serving, cycle]
  | leaves ho hp ha hs hq => simp [mark, returned, ho, hp, progress, serving, cycle]

/-- The requests one after the other, with the data of each. -/
inductive Serial (d : Disk) : List (T × Request × Sector) → Disk → Prop
  | start : Serial d [] d
  | next {ys : List (T × Request × Sector)} {d' d'' : Disk} {t : T} {r : Request} {data : Sector} :
      Serial d ys d' → serve d' r = .ok (d'', data) → Serial d (ys ++ [(t, r, data)]) d''

/-- The calls are served in the order in which they were made, as if each were carried out at
once, and return in that order, each after its own interrupt and before the next request. -/
structure ServesInOrder (d : Disk) (tr : List (Step T)) (s : State T) : Prop where
  calls : tr.flatMap called = (tr.flatMap served).map (fun y => (y.1, y.2.1)) ++ s.waiting
  answers : tr.flatMap served = tr.flatMap returned ++ s.inProgress
  serial : Serial d (tr.flatMap served) s.disk
  interrupts : tr.flatMap mark = (tr.flatMap returned).flatMap cycle ++ s.marks

theorem serial_next {d : Disk} {ys : List (T × Request × Sector)} {e : Event T}
    (h : Serial d ys s.disk) (hm : Move s e s') : Serial d (ys ++ served ⟨s, e, s'⟩) s'.disk := by
  cases hm with
  | requests ho hp hs hserve =>
    simp only [served, Function.update_self, serving]
    exact h.next hserve
  | _ => simpa [served] using h

theorem synch_disk_serves_in_order {d : Disk} {tr : List (Step T)}
    (h : Execution (fun s e s' => s.step e = .ok s') (.initial d) tr s) : ServesInOrder d tr s := by
  have hnext : ∀ (s : State T) e s', Inv s → s.step e = .ok s' → Inv s' :=
    fun s e s' hs hstep => hs.next (hs.move hstep)
  have hcalls : Moves (State.initial d).waiting (tr.flatMap called)
      (tr.flatMap fun x => (served x).map fun y => (y.1, y.2.1)) s.waiting :=
    moves_run (q := State.waiting) h (inv_initial d) hnext fun s e s' hs hstep =>
      waiting_moves hs (hs.move hstep)
  have hanswers : Moves (State.initial d).inProgress (tr.flatMap served) (tr.flatMap returned)
      s.inProgress :=
    moves_run (q := State.inProgress) h (inv_initial d) hnext fun s e s' hs hstep =>
      inProgress_moves (hs.move hstep)
  have hmarks : Moves (State.initial d).marks (tr.flatMap mark)
      (tr.flatMap fun x => (returned x).flatMap cycle) s.marks :=
    moves_run (q := State.marks) h (inv_initial d) hnext fun s e s' hs hstep =>
      marks_move (hs.move hstep)
  have hserial : Inv s ∧ Serial d (tr.flatMap served) s.disk := by
    refine h.history_invariant (P := fun tr s => Inv s ∧ Serial d (tr.flatMap served) s.disk)
      (Q := fun _ => True) ⟨inv_initial d, .start⟩ ?_ fun _ _ => trivial
    rintro tr ⟨s, e, s'⟩ ⟨hs, hser⟩ hstep -
    have hm := hs.move hstep
    refine ⟨hs.next hm, ?_⟩
    rw [List.flatMap_append, List.flatMap_singleton]
    exact serial_next hser hm
  refine ⟨?_, ?_, hserial.2, ?_⟩
  · rw [List.map_flatMap]
    exact hcalls
  · exact hanswers
  · rw [List.flatMap_assoc]
    exact hmarks

/-- Two threads, the second of which waits for the lock and reads what the first has written. -/
theorem synch_disk_serves_in_order_two : ∃ tr s,
    Execution (fun s e s' => s.step e = .ok s') (.initial fun _ => .ofBytes [] : State ℕ) tr s ∧
    tr.flatMap returned =
      [(0, .write 3 (.ofBytes [7]), .ofBytes [7]), (1, .read 3, .ofBytes [7])] ∧
    ServesInOrder (fun _ => .ofBytes []) tr s := by
  have h₁ : Execution (fun s e s' => s.step e = .ok s')
      (.initial fun _ => .ofBytes [] : State ℕ) _ _ :=
    (Execution.start.extend (e := .call 0 (.write 3 (.ofBytes [7]))) rfl).extend
      (e := .call 1 (.read 3)) rfl
  have h₂ := ((h₁.extend (e := .request 0) rfl).extend (e := .p 0) rfl).extend (e := .interrupt) rfl
  have h₃ := (h₂.extend (e := .p 0) rfl).extend (e := .release 0) rfl
  have h₄ := (h₃.extend (e := .request 1) rfl).extend (e := .interrupt) rfl
  have h₅ := (h₄.extend (e := .p 1) rfl).extend (e := .release 1) rfl
  exact ⟨_, _, h₅, rfl, synch_disk_serves_in_order h₅⟩

/-- The steps that are left for the owner of the lock. -/
def Place.toDo (active : Bool) : Place → ℕ
  | .outside | .acquiring _ => 0
  | .acquired _ => 5
  | .requested _ _ => if active then 4 else 2
  | .sleeping _ _ => 3
  | .done _ _ => 1

/-- The most steps that the calls made so far can still take. -/
def State.toDo (s : State T) : ℕ :=
  (s.lock.threadWithPossession.elim 0 fun t => (s.place t).toDo s.active) + 6 * s.lock.queue.length

theorem toDo_move {e : Event T} (hm : Move s e s') :
    s'.toDo + 1 ≤ s.toDo + 7 * (called ⟨s, e, s'⟩).length := by
  cases hm with
  | enters hp ho hq => simp [State.toDo, Place.toDo, called, ho, hq]
  | queues hp ho hut hb =>
    simp [State.toDo, called, ho, Function.update_of_ne hut]
    omega
  | requests ho hp hs hserve => simp [State.toDo, Place.toDo, called, ho, hp]
  | sleeps ho hp ha hs | passes ho hp ha hs | completes ho hp ha hs | wakes ho hp ha hs =>
    simp [State.toDo, Place.toDo, called, ho, hp, ha]
  | hands ho hp ha hs hq hu hb =>
    simp [State.toDo, Place.toDo, called, ho, hp, hq]
    omega
  | leaves ho hp ha hs hq => simp [State.toDo, Place.toDo, called, ho, hp, hq]

theorem Inv.not_active (h : Inv s) (e : Event T) : s.step e ≠ .error .active := by
  intro he
  cases e with
  | request t =>
    simp only [State.step] at he
    cases hp : s.place t with
    | acquired r =>
      obtain ⟨-, hfits⟩ := h.owns (t := t) (by simp [hp, Place.Inside])
      rw [hp] at hfits he
      simp only [hfits.1, Bool.false_eq_true, if_false] at he
      split at he <;> cases he
    | _ => simp [hp] at he
  | _ =>
    simp only [State.step] at he
    split at he <;> cases he

/-- Whoever is inside, the owner of the lock or the disk can go on. -/
theorem Inv.goes_on (h : Inv s) {t : T} (ht : s.place t ≠ .outside) :
    ∃ e, (∀ u r, e ≠ .call u r) ∧
      ((∃ s', s.step e = .ok s') ∨ s.step e = .error .noSector) := by
  cases ho : s.lock.threadWithPossession with
  | none =>
    have hq := h.valid.settled (h.valid.free_iff.mpr ho)
    cases hp : s.place t with
    | outside => exact absurd hp ht
    | acquiring r =>
      have hmem := (h.queued t).mpr ⟨r, hp⟩
      simp [hq] at hmem
    | _ =>
      have howner := (h.owner t).mpr (by simp [hp, Place.Inside])
      simp [ho] at howner
  | some u =>
    have hfits := h.fits u ho
    cases hp : s.place u with
    | outside | acquiring r =>
      rw [hp] at hfits
      exact hfits.elim
    | acquired r =>
      rw [hp] at hfits
      refine ⟨.request u, by simp, ?_⟩
      simp only [State.step, hp, hfits.1, Bool.false_eq_true, if_false]
      cases serve s.disk r with
      | error e => exact .inr rfl
      | ok x => exact .inl ⟨_, rfl⟩
    | requested r data =>
      refine ⟨.p u, by simp, .inl ?_⟩
      simp only [State.step, hp]
      exact ⟨_, rfl⟩
    | sleeping r data =>
      rw [hp] at hfits
      refine ⟨.interrupt, by simp, .inl ?_⟩
      simp only [State.step, hfits.1, if_true]
      exact ⟨_, rfl⟩
    | done r data =>
      refine ⟨.release u, by simp, .inl ?_⟩
      simp only [State.step, hp]
      exact ⟨_, rfl⟩

/-- The calls take at most seven steps each, and until all have returned there is a next one,
which fails only for a sector that the disk does not have. -/
structure Returns (tr : List (Step T)) (s : State T) : Prop where
  not_active : ∀ e, s.step e ≠ .error .active
  goes_on : ∀ t, s.place t ≠ .outside → ∃ e, (∀ u r, e ≠ .call u r) ∧
    ((∃ s', s.step e = .ok s') ∨ s.step e = .error .noSector)
  steps : tr.length ≤ 7 * (tr.flatMap called).length

theorem synch_disk_returns {d : Disk} {tr : List (Step T)}
    (h : Execution (fun s e s' => s.step e = .ok s') (.initial d) tr s) : Returns tr s := by
  have hs : Inv s ∧ tr.length + s.toDo ≤ 7 * (tr.flatMap called).length := by
    refine h.history_invariant
      (P := fun tr s => Inv s ∧ tr.length + s.toDo ≤ 7 * (tr.flatMap called).length)
      (Q := fun _ => True) ⟨inv_initial d, le_rfl⟩ ?_ fun _ _ => trivial
    rintro tr ⟨s, e, s'⟩ ⟨hs, hle⟩ hstep -
    have hm := hs.move hstep
    have hdo := toDo_move hm
    refine ⟨hs.next hm, ?_⟩
    rw [List.flatMap_append, List.flatMap_singleton, List.length_append, List.length_append,
      List.length_singleton]
    dsimp only at hle hdo ⊢
    omega
  exact ⟨hs.1.not_active, fun _ ht => hs.1.goes_on ht, by omega⟩

/-- While the first thread sleeps for the interrupt, the second one sleeps for the lock. -/
theorem synch_disk_returns_asleep : ∃ tr s,
    Execution (fun s e s' => s.step e = .ok s') (.initial fun _ => .ofBytes [] : State ℕ) tr s ∧
    s.place 0 = .sleeping (.read 3) (.ofBytes []) ∧ s.place 1 = .acquiring (.read 4) ∧
    Returns tr s := by
  have h₁ : Execution (fun s e s' => s.step e = .ok s')
      (.initial fun _ => .ofBytes [] : State ℕ) _ _ :=
    (Execution.start.extend (e := .call 0 (.read 3)) rfl).extend (e := .call 1 (.read 4)) rfl
  have h₂ := (h₁.extend (e := .request 0) rfl).extend (e := .p 0) rfl
  exact ⟨_, _, h₂, rfl, rfl, synch_disk_returns h₂⟩

end Nachos.SynchDisk
