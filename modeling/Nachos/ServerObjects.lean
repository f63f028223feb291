import Nachos.ServerMessages
import Nachos.SlotTables

/-! State of one server and the functions on its objects, `network/server.cc`.
Each table and its bitmap are one slot table; `serverLockArraySize` and its
siblings are the lengths of these tables. -/
namespace Nachos.Network
open SlotTables

structure ServerLockEntry where
  lock : ServerLock
  isToBeDeleted : Bool
  acquireCount : ℤ
  deriving DecidableEq, Repr

structure ServerConditionEntry where
  condition : ServerCondition
  isToBeDeleted : Bool
  deriving DecidableEq, Repr

structure ServerMVEntry where
  mvEntries : List ℤ
  numEntries : ℤ
  name : Name
  deriving DecidableEq, Repr

structure ServerResponse where
  toMachine : ℤ
  toMailbox : ℤ
  data : ℤ
  deriving DecidableEq, Repr

structure CVLockTracker where
  clientMachineID : ℤ
  clientMailbox : ℤ
  cvNum : ℤ
  lockNum : ℤ
  messageType : CVOperation
  deriving DecidableEq, Repr

structure ResponseQueueEntry where
  replyMachine : ℤ
  replyMailbox : ℤ
  replyMessageID : ℕ
  deriving DecidableEq, Repr

/-- The two headers and the data are those of `packet`. The type is set only for
the queries of an object number. -/
structure QueryStatus where
  packet : Packet
  numResponsesReceived : ℕ
  id : ℕ
  type : Option StructureType
  deriving DecidableEq, Repr

structure PendingCreate where
  name : Name
  type : StructureType
  responseTracker : ℤ → Bool
  waitingClients : List QueryStatus
  serverResponseQueue : List ResponseQueueEntry
  numResponses : ℕ
  ID : ℕ

def PendingCreate.isAMatch (pc : PendingCreate) (otherName : Name)
    (structType : StructureType) : Bool :=
  pc.name = otherName && structType = pc.type

structure Server where
  locks : SlotTable ServerLockEntry
  conditions : SlotTable ServerConditionEntry
  mvs : SlotTable ServerMVEntry
  necessaryResponses : List ServerResponse
  cvLockTrackerList : List CVLockTracker
  pendingCreates : List PendingCreate
  queryQueue : List QueryStatus
  nextQueryID : ℕ

/-- Ways in which a handler does not come back to its `Receive`. -/
inductive Fault
  /-- a bitmap is tested that is not allocated, or at an index outside it -/
  | bitmapRange
  /-- an array of negative size is allocated -/
  | negativeArray
  /-- a null pointer is followed -/
  | nullPointer
  /-- an uninitialised variable decides what happens next -/
  | uninitialised
  /-- a loop never ends -/
  | endlessLoop
  deriving DecidableEq, Repr

namespace Server

def initial : Server := ⟨[], [], [], [], [], [], [], 0⟩

def lock? (s : Server) (lockIndex : ℤ) : Option ServerLockEntry := live? s.locks lockIndex

def condition? (s : Server) (cvIndex : ℤ) : Option ServerConditionEntry :=
  live? s.conditions cvIndex

def mv? (s : Server) (mvIndex : ℤ) : Option ServerMVEntry := live? s.mvs mvIndex

def setLock (s : Server) (lockIndex : ℤ) (e : ServerLockEntry) : Server :=
  { s with locks := put s.locks lockIndex e }

def setCondition (s : Server) (cvIndex : ℤ) (e : ServerConditionEntry) : Server :=
  { s with conditions := put s.conditions cvIndex e }

def setMV (s : Server) (mvIndex : ℤ) (e : ServerMVEntry) : Server :=
  { s with mvs := put s.mvs mvIndex e }

/-- The table cell goes with its bit: `delete` and `Clear`. -/
def removeLock (s : Server) (lockIndex : ℤ) : Server :=
  { s with locks := clear s.locks lockIndex }

def removeCondition (s : Server) (cvIndex : ℤ) : Server :=
  { s with conditions := clear s.conditions cvIndex }

def removeMV (s : Server) (mvIndex : ℤ) : Server := { s with mvs := clear s.mvs mvIndex }

def pushResponse (s : Server) (r : ServerResponse) : Server :=
  { s with necessaryResponses := s.necessaryResponses ++ [r] }

end Server

def checkIfLockExists (s : Server) (name : Name) : Option ℕ :=
  search s.locks (fun e => e.lock.name = name)

def checkIfCVExists (s : Server) (name : Name) : Option ℕ :=
  search s.conditions (fun e => e.condition.name = name)

def checkIfMVExists (s : Server) (name : Name) : Option ℕ :=
  search s.mvs (fun e => e.name = name)

/-- The common body of the three creates on an allocated table: the first entry of
that name, else the first free slot, else `-1`. -/
def createEntry {α : Type} (t : SlotTable α) (sameName : α → Bool) (fresh : α) :
    SlotTable α × ℤ :=
  match search t sameName with
  | some i => (t, i)
  | none =>
    match firstFree t with
    | some i => (put t i fresh, i)
    | none => (t, -1)

def serverCreateLock (s : Server) (name : Name) : Server × ℤ :=
  let r := createEntry (allocate maxServerLocks s.locks) (fun e => e.lock.name = name)
    ⟨ServerLock.new name, false, 0⟩
  ({ s with locks := r.1 }, r.2)

def serverCreateCV (s : Server) (name : Name) : Server × ℤ :=
  let r := createEntry (allocate maxServerCVs s.conditions) (fun e => e.condition.name = name)
    ⟨ServerCondition.new name, false⟩
  ({ s with conditions := r.1 }, r.2)

/-- The array is allocated only once a free slot is found, so a negative size
matters only then. -/
def serverCreateMV (s : Server) (name : Name) (numEntries initialValue : ℤ) :
    Except Fault (Server × ℤ) :=
  let t := allocate maxServerMVArrays s.mvs
  if numEntries > maxServerEntriesPerMVArray then .ok ({ s with mvs := t }, -1)
  else if search t (fun e => e.name = name) = none ∧ firstFree t ≠ none ∧ numEntries < 0 then
    .error .negativeArray
  else
    let r := createEntry t (fun e => e.name = name)
      ⟨List.replicate numEntries.toNat initialValue, numEntries, name⟩
    .ok ({ s with mvs := r.1 }, r.2)

def serverDestroyLock (s : Server) (lockIndex : ℤ) : Server :=
  match s.lock? lockIndex with
  | none => s
  | some e =>
    if ¬ (e.lock.isBusy ∧ e.acquireCount = 0) then s.removeLock lockIndex
    else s.setLock lockIndex { e with isToBeDeleted := true }

/-- `none` for an index that is out of range or not in use. -/
def serverAcquire (s : Server) (machineID mailbox lockIndex : ℤ) :
    Server × Option (ClientRequest × Bool) :=
  match s.lock? lockIndex with
  | none => (s, none)
  | some e =>
    let r := e.lock.acquire ⟨machineID, mailbox⟩
    (s.setLock lockIndex { e with acquireCount := e.acquireCount + 1, lock := r.1 }, some r.2)

def serverRelease (s : Server) (machineID mailbox lockIndex : ℤ) :
    Server × Option (ClientRequest × Bool) :=
  match s.lock? lockIndex with
  | none => (s, none)
  | some e =>
    let r := e.lock.release ⟨machineID, mailbox⟩
    let e' : ServerLockEntry := { e with acquireCount := e.acquireCount - 1, lock := r.1 }
    if e'.isToBeDeleted ∧ e'.acquireCount = 0 ∧ ¬ e'.lock.isBusy then
      (s.removeLock lockIndex, some r.2)
    else (s.setLock lockIndex e', some r.2)

def serverDestroyCV (s : Server) (conditionIndex : ℤ) : Server :=
  match s.condition? conditionIndex with
  | none => s
  | some e =>
    if ¬ e.condition.hasWaiting then s.removeCondition conditionIndex
    else s.setCondition conditionIndex { e with isToBeDeleted := true }

def serverSignal (s : Server) (machineID mailbox conditionIndex lockNum : ℤ) :
    Server × Option (ClientRequest × Bool) :=
  match s.condition? conditionIndex with
  | none => (s, none)
  | some e =>
    if lockNum < 0 then (s, none)
    else
      let r := e.condition.signal lockNum ⟨machineID, mailbox⟩
      (s.setCondition conditionIndex { e with condition := r.1 }, some r.2)

/-- The only bound check is for a negative index, so the bitmap can be tested at an
index outside it. -/
def serverWait (s : Server) (machineID mailbox conditionIndex lockNum : ℤ) :
    Except Fault Server :=
  if conditionIndex < 0 then .ok s
  else if s.conditions.length ≤ conditionIndex.toNat then .error .bitmapRange
  else
    match s.condition? conditionIndex with
    | none => .ok s
    | some e =>
      let r := e.condition.wait lockNum ⟨machineID, mailbox⟩
      let e' : ServerConditionEntry := { e with condition := r.1 }
      if e'.isToBeDeleted ∧ ¬ e'.condition.hasWaiting then
        .ok (s.removeCondition conditionIndex)
      else .ok (s.setCondition conditionIndex e')

/-- `while (hasWaiting())` with a bound on the iterations; `none` when they run out. -/
def broadcastLoop (lockIndex : ℤ) (requester : ClientRequest) :
    ℕ → ServerCondition → Option (ServerCondition × List ServerResponse)
  | 0, c => if c.hasWaiting then none else some (c, [])
  | n + 1, c =>
    if c.hasWaiting then
      let r := c.signal lockIndex requester
      (broadcastLoop lockIndex requester n r.1).map fun q =>
        (q.1, ⟨r.2.1.machineID, r.2.1.mailboxNumber, -1⟩ :: q.2)
    else some (c, [])

def serverBroadcast (s : Server) (machineID mailbox conditionIndex lockIndex : ℤ) :
    Except Fault Server :=
  if conditionIndex < 0 then .ok s
  else if s.conditions.length ≤ conditionIndex.toNat then .error .bitmapRange
  else
    match s.condition? conditionIndex with
    | none => .ok s
    | some e =>
      match broadcastLoop lockIndex ⟨machineID, mailbox⟩ e.condition.queue.length
          e.condition with
      | none => .error .endlessLoop
      | some r =>
        .ok { s.setCondition conditionIndex { e with condition := r.1 } with
          necessaryResponses := s.necessaryResponses ++ r.2 }

def serverDestroyMV (s : Server) (mvIndex : ℤ) : Server :=
  match s.mv? mvIndex with
  | none => s
  | some _ => s.removeMV mvIndex

def serverGetMV (s : Server) (mvIndex entryIndex : ℤ) : ℤ :=
  match s.mv? mvIndex with
  | none => -1
  | some e =>
    if entryIndex < 0 ∨ entryIndex > e.numEntries - 1 then -1
    else e.mvEntries.getD entryIndex.toNat 0

def serverSetMV (s : Server) (mvIndex entryIndex value : ℤ) : Server :=
  match s.mv? mvIndex with
  | none => s
  | some e =>
    if entryIndex < 0 ∨ entryIndex > e.numEntries - 1 then s
    else s.setMV mvIndex { e with mvEntries := e.mvEntries.set entryIndex.toNat value }

/-- One visit of `LockWatcher` to a lock whose owner did not answer the ping. The
entry's `acquireCount` is left alone. -/
def lockWatcherRelease (s : Server) (lockIndex : ℤ) : Server :=
  match s.lock? lockIndex with
  | none => s
  | some e =>
    match e.lock.currentClientRequest with
    | none => s
    | some owner => s.setLock lockIndex { e with lock := (e.lock.release owner).1 }

/-! Entries after each operation. -/

namespace Server

@[simp] theorem lock?_pushResponse (s : Server) (r : ServerResponse) (i : ℤ) :
    (s.pushResponse r).lock? i = s.lock? i := rfl

@[simp] theorem condition?_pushResponse (s : Server) (r : ServerResponse) (i : ℤ) :
    (s.pushResponse r).condition? i = s.condition? i := rfl

@[simp] theorem lock?_setCondition (s : Server) (i : ℤ) (e : ServerConditionEntry) (j : ℤ) :
    (s.setCondition i e).lock? j = s.lock? j := rfl

theorem lock?_setLock {s : Server} {i : ℤ} {b : ServerLockEntry} (h : s.lock? i = some b)
    (e : ServerLockEntry) (j : ℤ) :
    (s.setLock i e).lock? j = if j = i then some e else s.lock? j := live?_put h e j

theorem lock?_removeLock {s : Server} {i : ℤ} {b : ServerLockEntry} (h : s.lock? i = some b)
    (j : ℤ) : (s.removeLock i).lock? j = if j = i then none else s.lock? j := live?_clear h j

theorem condition?_setCondition {s : Server} {i : ℤ} {b : ServerConditionEntry}
    (h : s.condition? i = some b) (e : ServerConditionEntry) (j : ℤ) :
    (s.setCondition i e).condition? j = if j = i then some e else s.condition? j :=
  live?_put h e j

theorem condition?_removeCondition {s : Server} {i : ℤ} {b : ServerConditionEntry}
    (h : s.condition? i = some b) (j : ℤ) :
    (s.removeCondition i).condition? j = if j = i then none else s.condition? j :=
  live?_clear h j

end Server

theorem serverDestroy_responses (s : Server) (i : ℤ) :
    (serverDestroyLock s i).necessaryResponses = s.necessaryResponses ∧
      (serverDestroyCV s i).necessaryResponses = s.necessaryResponses ∧
      (serverDestroyMV s i).necessaryResponses = s.necessaryResponses := by
  unfold serverDestroyLock serverDestroyCV serverDestroyMV
  refine ⟨?_, ?_, ?_⟩ <;> split <;> try rfl
  all_goals split_ifs <;> rfl

/-- A create keeps the live entries and adds at most the fresh one, in a free slot. -/
theorem createEntry_live {α : Type} (t : SlotTable α) (sameName : α → Bool) (fresh : α) (j : ℤ) :
    live? (createEntry t sameName fresh).1 j = live? t j ∨
      live? t j = none ∧ live? (createEntry t sameName fresh).1 j = some fresh := by
  unfold createEntry
  split
  · exact Or.inl rfl
  · split
    · rename_i i hi
      dsimp only
      rw [live?_put_firstFree hi]
      split_ifs with hj
      · subst hj
        exact Or.inr ⟨(firstFree_some hi).2, rfl⟩
      · exact Or.inl rfl
    · exact Or.inl rfl

theorem serverCreateLock_lock? (s : Server) (name : Name) (j : ℤ) :
    (serverCreateLock s name).1.lock? j = s.lock? j ∨
      s.lock? j = none ∧
        (serverCreateLock s name).1.lock? j = some ⟨ServerLock.new name, false, 0⟩ := by
  have h := createEntry_live (allocate maxServerLocks s.locks)
    (fun e => decide (e.lock.name = name)) ⟨ServerLock.new name, false, 0⟩ j
  rwa [live?_allocate] at h

theorem serverCreateCV_condition? (s : Server) (name : Name) (j : ℤ) :
    (serverCreateCV s name).1.condition? j = s.condition? j ∨
      s.condition? j = none ∧
        (serverCreateCV s name).1.condition? j = some ⟨ServerCondition.new name, false⟩ := by
  have h := createEntry_live (allocate maxServerCVs s.conditions)
    (fun e => decide (e.condition.name = name)) ⟨ServerCondition.new name, false⟩ j
  rwa [live?_allocate] at h

/-- The loop over the waiters of a bound condition empties its queue, in order. -/
theorem broadcastLoop_of_bound (lockIndex : ℤ) (requester : ClientRequest) :
    ∀ (n : ℕ) (c : ServerCondition), c.queue.length ≤ n → (c.queue = [] ∨ c.waitingLock = lockIndex) →
      broadcastLoop lockIndex requester n c =
        some ({ c with queue := [], waitingLock := if c.queue = [] then c.waitingLock else -1 },
          c.queue.map fun cr => ⟨cr.machineID, cr.mailboxNumber, -1⟩) := by
  intro n
  induction n with
  | zero =>
    intro c hn _
    obtain ⟨name, q, w⟩ := c
    obtain rfl : q = [] := List.length_eq_zero_iff.mp (by simpa using hn)
    simp [broadcastLoop, ServerCondition.hasWaiting]
  | succ n ih =>
    intro c hn hb
    obtain ⟨name, q, w⟩ := c
    cases q with
    | nil => simp [broadcastLoop, ServerCondition.hasWaiting]
    | cons next rest =>
      have hw : w = lockIndex := by simpa using hb
      have hsig := ServerCondition.signal_of_cons (c := ⟨name, next :: rest, w⟩) rfl hw requester
      simp only [broadcastLoop, ServerCondition.hasWaiting, hsig]
      rw [ih]
      · by_cases hr : rest = [] <;> simp [hr]
      · simpa using hn
      · by_cases hr : rest = [] <;> simp [hr, hw]

/-- With another lock no waiter is ever removed, and the loop never ends. -/
theorem broadcastLoop_of_other (lockIndex : ℤ) (requester : ClientRequest) (n : ℕ)
    {c : ServerCondition} (hq : c.queue ≠ []) (hw : c.waitingLock ≠ lockIndex) :
    broadcastLoop lockIndex requester n c = none := by
  have hh : c.hasWaiting = true := by simp [ServerCondition.hasWaiting, hq]
  induction n with
  | zero => simp [broadcastLoop, hh]
  | succ n ih =>
    have hs : c.signal lockIndex requester = (c, requester, false) :=
      ServerCondition.signal_of_not_wakes (fun h => hw h.2) requester
    simp [broadcastLoop, hh, hs, ih]

end Nachos.Network
