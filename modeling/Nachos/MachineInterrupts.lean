import Nachos.ListSequences

/-! The interrupts of the simulated hardware, `machine/interrupt.cc`, and the simulated time. What
the interrupt handlers do, and what `DelayedLoad` does to the machine, are parameters; so are the
threads, which act between the calls. -/
namespace Nachos.Interrupts
open Simulations

inductive IntStatus
  | intOff
  | intOn
  deriving DecidableEq, Repr

inductive MachineStatus
  | idleMode
  | systemMode
  | userMode
  deriving DecidableEq, Repr

inductive IntType
  | timerInt
  | diskInt
  | consoleWriteInt
  | consoleReadInt
  | networkSendInt
  | networkRecvInt
  deriving DecidableEq, Repr

/-- `handler` is one of the functions `η`. -/
structure PendingInterrupt (η : Type) where
  handler : η
  arg : ℤ
  when : ℤ
  type : IntType
  deriving DecidableEq, Repr

def systemTick : ℤ := 10

def userTick : ℤ := 1

structure Statistics where
  totalTicks : ℤ
  idleTicks : ℤ
  systemTicks : ℤ
  userTicks : ℤ
  deriving DecidableEq, Repr

/-- The clock is advanced to a time that is still to come. -/
def Statistics.skipTo (stats : Statistics) (when : ℤ) : Statistics :=
  if when > stats.totalTicks then
    { stats with idleTicks := stats.idleTicks + (when - stats.totalTicks), totalTicks := when }
  else stats

/-- What the flag `i` has printed about an interrupt, and when. -/
inductive Message (η : Type)
  | scheduling (p : PendingInterrupt η) (time : ℤ)
  | invoking (p : PendingInterrupt η) (time : ℤ)

/-- The class `Interrupt`, with the statistics and the rest of the system. The pending interrupts
are on a list that is sorted by `when`. -/
structure State (η σ : Type) where
  level : IntStatus
  pending : List (PendingInterrupt η)
  inHandler : Bool
  yieldOnReturn : Bool
  status : MachineStatus
  stats : Statistics
  messages : List (Message η)
  rest : σ

inductive Fault
  /-- `ASSERT(fromNow > 0)` -/
  | notLater
  /-- `ASSERT((now == IntOff) || (inHandler == FALSE))` -/
  | enabledInHandler
  /-- `ASSERT(inHandler == TRUE)` -/
  | notInHandler
  /-- `ASSERT(level == IntOff)` -/
  | notDisabled
  | endless
  deriving DecidableEq, Repr

/-- What an interrupt handler asks of the class `Interrupt`. -/
inductive Call (η : Type)
  | schedule (handler : η) (arg fromNow : ℤ) (type : IntType)
  | yieldOnReturn
  | setLevel (now : IntStatus)

/-- The handlers see the time, which stands still while they run. -/
structure Devices (η σ : Type) where
  handler : η → (arg time : ℤ) → σ → σ × List (Call η)
  delayedLoad : σ → σ

variable {η σ : Type}

/-- `SortedInsert` -/
def sortedInsert (pending : List (PendingInterrupt η)) (p : PendingInterrupt η) :
    List (PendingInterrupt η) :=
  pending.orderedInsert (fun a b => a.when < b.when) p

namespace State

/-- `Interrupt::Interrupt` -/
def initial (rest : σ) : State η σ where
  level := .intOff
  pending := []
  inHandler := false
  yieldOnReturn := false
  status := .systemMode
  stats := ⟨0, 0, 0, 0⟩
  messages := []
  rest := rest

def schedule (s : State η σ) (handler : η) (arg fromNow : ℤ) (type : IntType) :
    Except Fault (State η σ) :=
  let toOccur := ⟨handler, arg, s.stats.totalTicks + fromNow, type⟩
  if fromNow > 0 then
    .ok { s with
      pending := sortedInsert s.pending toOccur
      messages := s.messages ++ [.scheduling toOccur s.stats.totalTicks] }
  else .error .notLater

/-- A call that a handler makes. `SetLevel` does not come to `OneTick` here: a handler that
enables the interrupts fails the assertion. -/
def call (s : State η σ) : Call η → Except Fault (State η σ)
  | .schedule handler arg fromNow type => s.schedule handler arg fromNow type
  | .yieldOnReturn =>
    if s.inHandler = true then .ok { s with yieldOnReturn := true } else .error .notInHandler
  | .setLevel now =>
    if now = .intOff ∨ s.inHandler = false then .ok { s with level := now }
    else .error .enabledInHandler

def calls : State η σ → List (Call η) → Except Fault (State η σ)
  | s, [] => .ok s
  | s, c :: cs => do
    let s ← s.call c
    s.calls cs

/-- The end of `CheckIfDue`: the handler runs in the kernel. -/
def invoke (d : Devices η σ) (s : State η σ) (toOccur : PendingInterrupt η) :
    Except Fault (State η σ) := do
  let old := s.status
  let (rest, cs) := d.handler toOccur.handler toOccur.arg s.stats.totalTicks (d.delayedLoad s.rest)
  let s ← calls { s with
    inHandler := true
    status := .systemMode
    messages := s.messages ++ [.invoking toOccur s.stats.totalTicks]
    rest := rest } cs
  .ok { s with status := old, inHandler := false }

/-- It is TRUE if a handler was called. -/
def checkIfDue (d : Devices η σ) (advanceClock : Bool) (s : State η σ) :
    Except Fault (State η σ × Bool) :=
  if s.level ≠ .intOff then .error .notDisabled
  else
    match s.pending with
    | [] => .ok (s, false)
    | toOccur :: pending =>
      if advanceClock = false ∧ toOccur.when > s.stats.totalTicks then
        -- not time yet, put it back
        .ok ({ s with pending := sortedInsert pending toOccur }, false)
      else
        let stats := s.stats.skipTo toOccur.when
        if s.status = .idleMode ∧ toOccur.type = .timerInt ∧ pending = [] then
          -- there is nothing more to do
          .ok ({ s with stats, pending := sortedInsert pending toOccur }, false)
        else do
          let s ← invoke d { s with stats, pending } toOccur
          .ok (s, true)

/-- `while (CheckIfDue(FALSE))` -/
def checkAll (d : Devices η σ) : ℕ → State η σ → Except Fault (State η σ)
  | 0, _ => .error .endless
  | fuel + 1, s => do
    let (s, due) ← s.checkIfDue d false
    if due then checkAll d fuel s else .ok s

/-- At most the interrupts that are pending now are invoked. -/
def checkDue (d : Devices η σ) (s : State η σ) : Except Fault (State η σ) :=
  s.checkAll d (s.pending.length + 1)

def advance (s : State η σ) : State η σ :=
  if s.status = .systemMode then
    { s with stats := { s.stats with
      totalTicks := s.stats.totalTicks + systemTick
      systemTicks := s.stats.systemTicks + systemTick } }
  else
    { s with stats := { s.stats with
      totalTicks := s.stats.totalTicks + userTick
      userTicks := s.stats.userTicks + userTick } }

/-- `OneTick` up to the `Yield`. The answer is the status to go back to after it. -/
def oneTick (d : Devices η σ) (s : State η σ) : Except Fault (State η σ × Option MachineStatus) := do
  let old := s.status
  let s ← checkDue d { s.advance with level := .intOff }
  let s := { s with level := .intOn }
  if s.yieldOnReturn then .ok ({ s with yieldOnReturn := false, status := .systemMode }, some old)
  else .ok (s, none)

def setLevel (d : Devices η σ) (s : State η σ) (now : IntStatus) :
    Except Fault (State η σ × Option MachineStatus) :=
  let old := s.level
  if now = .intOff ∨ s.inHandler = false then
    if now = .intOn ∧ old = .intOff then oneTick d { s with level := now }
    else .ok ({ s with level := now }, none)
  else .error .enabledInHandler

/-- It is TRUE unless the machine halts. -/
def idle (d : Devices η σ) (s : State η σ) : Except Fault (State η σ × Bool) := do
  let (s, due) ← checkIfDue d true { s with status := .idleMode }
  if due then
    let s ← s.checkDue d
    .ok ({ s with yieldOnReturn := false, status := .systemMode }, true)
  else .ok (s, false)

end State

/-- What the threads do, in whatever order. -/
inductive Action (η σ : Type)
  | schedule (handler : η) (arg fromNow : ℤ) (type : IntType)
  | setLevel (now : IntStatus)
  /-- after a user instruction -/
  | oneTick
  | idle
  /-- `setStatus`, and the end of `OneTick` after a `Yield` -/
  | setStatus (user : Bool)
  | threads (f : σ → σ)

inductive Stop
  | fault (f : Fault)
  | halted
  deriving DecidableEq, Repr

def step (d : Devices η σ) (s : State η σ) : Action η σ → Except Stop (State η σ × Option MachineStatus)
  | .schedule handler arg fromNow type =>
    match s.schedule handler arg fromNow type with
    | .ok s => .ok (s, none)
    | .error f => .error (.fault f)
  | .setLevel now =>
    match s.setLevel d now with
    | .ok r => .ok r
    | .error f => .error (.fault f)
  | .oneTick =>
    match s.oneTick d with
    | .ok r => .ok r
    | .error f => .error (.fault f)
  | .idle =>
    match s.idle d with
    | .ok (s, true) => .ok (s, none)
    | .ok (_, false) => .error .halted
    | .error f => .error (.fault f)
  | .setStatus user => .ok ({ s with status := if user then .userMode else .systemMode }, none)
  | .threads f => .ok ({ s with rest := f s.rest }, none)

end Nachos.Interrupts
