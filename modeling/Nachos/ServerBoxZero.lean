import Nachos.ServerObjects

/-! The loop body of `Server()`: one message of mailbox 0. A case leaves the new
state, the messages it sent by itself and the flag `respond`; afterwards the
response loop empties `necessaryResponses` if the flag is set. The body runs to its
end before another message of the server changes this state. -/
namespace Nachos.Network

structure Outcome where
  server : Server
  sent : List Packet
  respond : Bool

/-- The reply prepared before the switch: `-1` to the sender. -/
def Packet.response (p : Packet) : ServerResponse := ⟨p.fromMachine, p.fromMailbox, -1⟩

def sendMessageWithData (fromMachine fromMailbox toMachine toMailbox : ℤ) (data : Message) :
    Packet :=
  ⟨toMachine, toMailbox, fromMachine, fromMailbox, data⟩

namespace BoxZero

/-- Hand a message to the server-to-server thread of this machine, under its sender's name. -/
def toBoxOne (cfg : Config) (s : Server) (p : Packet) : Outcome :=
  ⟨s, [sendMessageWithData p.fromMachine p.fromMailbox cfg.myMachineID 1 p.data], false⟩

def answer (s : Server) (p : Packet) (data : ℤ) : Outcome :=
  ⟨s.pushResponse { p.response with data := data }, [], true⟩

def createLock (cfg : Config) (s : Server) (p : Packet) (name : Name) : Outcome :=
  match checkIfLockExists s name with
  | some i => answer s p (encodeIndex cfg i)
  | none =>
    if cfg.totalNumServers = 1 then
      -- the new index goes out as it is, without `encodeIndex`
      answer (serverCreateLock s name).1 p (serverCreateLock s name).2
    else toBoxOne cfg s p

def destroyLock (cfg : Config) (s : Server) (p : Packet) (lockNum : ℤ) : Outcome :=
  if decodeMachineIDFromLockNumber lockNum ≠ cfg.myMachineID then toBoxOne cfg s p
  else ⟨serverDestroyLock s (decodeIndex cfg lockNum), [], false⟩

def acquire (cfg : Config) (s : Server) (p : Packet) (lockNum : ℤ) : Outcome :=
  if decodeMachineIDFromLockNumber lockNum ≠ cfg.myMachineID then toBoxOne cfg s p
  else
    let r := serverAcquire s p.fromMachine p.fromMailbox (decodeIndex cfg lockNum)
    match r.2 with
    | none => ⟨r.1.pushResponse p.response, [], true⟩
    | some (cr, true) =>
      ⟨r.1.pushResponse { p.response with toMachine := cr.machineID,
                                          toMailbox := cr.mailboxNumber }, [], true⟩
    | some (_, false) => ⟨r.1, [], false⟩

def release (cfg : Config) (s : Server) (p : Packet) (lockNum : ℤ) : Outcome :=
  if decodeMachineIDFromLockNumber lockNum ≠ cfg.myMachineID then toBoxOne cfg s p
  else
    let r := serverRelease s p.fromMachine p.fromMailbox (decodeIndex cfg lockNum)
    match r.2 with
    | none => ⟨r.1.pushResponse p.response, [], true⟩
    | some (cr, true) =>
      ⟨(r.1.pushResponse p.response).pushResponse
        { p.response with toMachine := cr.machineID, toMailbox := cr.mailboxNumber }, [], true⟩
    | some (_, false) => ⟨r.1.pushResponse p.response, [], true⟩

def createCV (cfg : Config) (s : Server) (p : Packet) (name : Name) : Outcome :=
  match checkIfCVExists s name with
  | some i => answer s p (encodeIndex cfg i)
  | none =>
    if cfg.totalNumServers = 1 then
      answer (serverCreateCV s name).1 p (serverCreateCV s name).2
    else toBoxOne cfg s p

def destroyCV (cfg : Config) (s : Server) (p : Packet) (cvToDestroy : ℤ) : Outcome :=
  if decodeMachineIDFromCVNumber cvToDestroy ≠ cfg.myMachineID then toBoxOne cfg s p
  else
    -- the number is passed on without `decodeIndex`
    ⟨serverDestroyCV s cvToDestroy, [], false⟩

/-- The two early exits for an unknown lock leave without any answer. -/
def doesClientHaveLock (cfg : Config) (s : Server) (p : Packet)
    (clientMID clientMBX lockNum : ℤ) : Outcome :=
  match s.lock? (decodeIndex cfg lockNum) with
  | none => ⟨s, [], false⟩
  | some e =>
    ⟨s, [sendMessageWithData cfg.myMachineID 0 p.fromMachine p.fromMailbox
      (.cvLockTrackerResponse clientMID clientMBX lockNum
        (e.lock.isHeldByRequester ⟨clientMID, clientMBX⟩))], false⟩

/-- SIGNAL, WAIT and BROADCAST for a lock of another machine: remember the request and
ask the lock's machine whether the client owns it. -/
def queryLockOwner (cfg : Config) (s : Server) (p : Packet) (operation : CVOperation)
    (cvNum lockNum : ℤ) : Outcome :=
  ⟨{ s with cvLockTrackerList := s.cvLockTrackerList ++
      [⟨p.fromMachine, p.fromMailbox, cvNum, lockNum, operation⟩] },
    [sendMessageWithData cfg.myMachineID 0 (decodeMachineIDFromLockNumber lockNum) 0
      (.doesClientHaveLock p.fromMachine p.fromMailbox lockNum)], false⟩

/-- The reply to a client that a signal woke, if any. -/
def pushWoken (s : Server) : Option (ClientRequest × Bool) → Server
  | some (cr, true) => s.pushResponse ⟨cr.machineID, cr.mailboxNumber, -1⟩
  | _ => s

/-- The three operations when lock and condition are both on this machine. Nothing
here asks whether the sender owns the lock. -/
def localOperation (s : Server) (p : Packet) (operation : CVOperation)
    (cvIndex lockIndex : ℤ) (respond : Bool) : Except Fault Outcome :=
  match operation with
  | .signal =>
    let r := serverSignal s p.fromMachine p.fromMailbox cvIndex lockIndex
    .ok ⟨(pushWoken r.1 r.2).pushResponse p.response, [], true⟩
  | .broadcast => do
    let s ← serverBroadcast s p.fromMachine p.fromMailbox cvIndex lockIndex
    .ok ⟨s.pushResponse p.response, [], true⟩
  | .wait => do
    let s ← serverWait s p.fromMachine p.fromMailbox cvIndex lockIndex
    let r := serverRelease s p.fromMachine p.fromMailbox lockIndex
    match r.2 with
    | none => .error .nullPointer
    | some (cr, true) => .ok ⟨pushWoken r.1 (some (cr, true)), [], true⟩
    | some (_, false) => .ok ⟨r.1, [], respond⟩

/-- SIGNAL, BROADCAST and WAIT. An impossible lock owner is answered and then
processed all the same, and `totalNumServers` itself passes for a machine. For an
unknown lock WAIT sets `respond` without pushing the response. -/
def cvOperation (cfg : Config) (s : Server) (p : Packet) (operation : CVOperation)
    (cvNum lockNum : ℤ) : Except Fault Outcome :=
  let lockOwner := decodeMachineIDFromLockNumber lockNum
  let invalid : Bool := lockOwner < 0 ∨ lockOwner > cfg.totalNumServers
  let s := if invalid then s.pushResponse p.response else s
  if lockOwner = cfg.myMachineID then
    match s.lock? (decodeIndex cfg lockNum) with
    | none =>
      if operation = .wait then .ok ⟨s, [], true⟩
      else .ok ⟨s.pushResponse p.response, [], true⟩
    | some _ =>
      if decodeMachineIDFromCVNumber cvNum = cfg.myMachineID then
        localOperation s p operation (decodeIndex cfg cvNum) (decodeIndex cfg lockNum) invalid
      else .ok (toBoxOne cfg s p)
  else .ok (queryLockOwner cfg s p operation cvNum lockNum)

/-- The three operations once the lock's machine has confirmed the owner. The RELEASE
that follows a WAIT is sent under the name of this server. -/
def trackedOperation (cfg : Config) (s : Server) (p : Packet)
    (clientMID clientMBX lockNum cvNum : ℤ) (operation : CVOperation) : Except Fault Outcome :=
  if decodeMachineIDFromCVNumber cvNum = cfg.myMachineID then
    match operation with
    | .signal =>
      let r := serverSignal s clientMID clientMBX (decodeIndex cfg cvNum) lockNum
      .ok ⟨(pushWoken r.1 r.2).pushResponse ⟨clientMID, clientMBX, -1⟩, [], true⟩
    | .wait => do
      let s ← serverWait s clientMID clientMBX (decodeIndex cfg cvNum) lockNum
      .ok ⟨s, [sendMessageWithData cfg.myMachineID 0 (decodeMachineIDFromLockNumber lockNum) 0
        (.request (.release lockNum))], false⟩
    | .broadcast => do
      let s ← serverBroadcast s p.fromMachine p.fromMailbox (decodeIndex cfg cvNum) lockNum
      .ok ⟨s.pushResponse ⟨clientMID, clientMBX, -1⟩, [], true⟩
  else
    .ok ⟨s, [sendMessageWithData clientMID clientMBX cfg.myMachineID 1
      (.request (.cvOperation operation cvNum lockNum))], false⟩

/-- The answer is matched with a remembered request by client and lock only. Without
a match `cvNum` and `operation` stay uninitialised. -/
def cvLockTrackerResponse (cfg : Config) (s : Server) (p : Packet)
    (clientMID clientMBX lockNum : ℤ) (held : Bool) : Except Fault Outcome :=
  let found := s.cvLockTrackerList.findIdx? fun t =>
    t.clientMachineID = clientMID && t.clientMailbox = clientMBX && t.lockNum = lockNum
  let s' := match found with
    | none => s
    | some i => { s with cvLockTrackerList := s.cvLockTrackerList.eraseIdx i }
  if ¬ held then .ok ⟨s'.pushResponse ⟨clientMID, clientMBX, -1⟩, [], true⟩
  else
    match found.bind fun i => s.cvLockTrackerList[i]? with
    | none => .error .uninitialised
    | some t => trackedOperation cfg s' p clientMID clientMBX lockNum t.cvNum t.messageType

def createMV (cfg : Config) (s : Server) (p : Packet) (numEntries initialValue : ℤ)
    (name : Name) : Except Fault Outcome :=
  match checkIfMVExists s name with
  | some i => .ok (answer s p (encodeIndex cfg i))
  | none =>
    if cfg.totalNumServers = 1 then do
      let r ← serverCreateMV s name numEntries initialValue
      .ok (answer r.1 p (encodeIndex cfg r.2))
    else .ok (toBoxOne cfg s p)

def destroyMV (cfg : Config) (s : Server) (p : Packet) (mvNum : ℤ) : Outcome :=
  if decodeMachineIDFromMVNumber mvNum ≠ cfg.myMachineID then toBoxOne cfg s p
  else ⟨serverDestroyMV s (decodeIndex cfg mvNum), [], false⟩

def getMV (cfg : Config) (s : Server) (p : Packet) (mvNum entryIndex : ℤ) : Outcome :=
  if decodeMachineIDFromMVNumber mvNum ≠ cfg.myMachineID then toBoxOne cfg s p
  else answer s p (serverGetMV s (decodeIndex cfg mvNum) entryIndex)

def setMV (cfg : Config) (s : Server) (p : Packet) (mvNum entryIndex value : ℤ) : Outcome :=
  if decodeMachineIDFromMVNumber mvNum ≠ cfg.myMachineID then toBoxOne cfg s p
  else
    ⟨serverSetMV (s.pushResponse p.response) (decodeIndex cfg mvNum) entryIndex value, [], true⟩

def request (cfg : Config) (s : Server) (p : Packet) : Request → Except Fault Outcome
  | .createLock name => .ok (createLock cfg s p name)
  | .destroyLock lockNum => .ok (destroyLock cfg s p lockNum)
  | .acquire lockNum => .ok (acquire cfg s p lockNum)
  | .release lockNum => .ok (release cfg s p lockNum)
  | .createCV name => .ok (createCV cfg s p name)
  | .destroyCV cvNum => .ok (destroyCV cfg s p cvNum)
  | .cvOperation operation cvNum lockNum => cvOperation cfg s p operation cvNum lockNum
  | .createMV numEntries initialValue name => createMV cfg s p numEntries initialValue name
  | .destroyMV mvNum => .ok (destroyMV cfg s p mvNum)
  | .getMV mvNum entryIndex => .ok (getMV cfg s p mvNum entryIndex)
  | .setMV mvNum entryIndex value => .ok (setMV cfg s p mvNum entryIndex value)

/-- The switch on the message type. A four-byte answer of another server reaches the
default case: its first byte is that of `-1`, which no label matches. -/
def handle (cfg : Config) (s : Server) (p : Packet) : Except Fault Outcome :=
  match p.data with
  | .request r => request cfg s p r
  | .doesClientHaveLock clientMID clientMBX lockNum =>
    .ok (doesClientHaveLock cfg s p clientMID clientMBX lockNum)
  | .cvLockTrackerResponse clientMID clientMBX lockNum held =>
    cvLockTrackerResponse cfg s p clientMID clientMBX lockNum held
  | _ => .ok ⟨s, [], false⟩

/-- One packet of the response loop. -/
def responsePacket (cfg : Config) (r : ServerResponse) : Packet :=
  ⟨r.toMachine, r.toMailbox, cfg.myMachineID, 0, .reply r.data⟩

def flush (cfg : Config) (o : Outcome) : Server × List Packet :=
  if o.respond then
    ({ o.server with necessaryResponses := [] },
      o.sent ++ o.server.necessaryResponses.map (responsePacket cfg))
  else (o.server, o.sent)

end BoxZero

/-- One iteration of `Server()`. -/
def boxZero (cfg : Config) (s : Server) (p : Packet) : Except Fault (Server × List Packet) :=
  (BoxZero.handle cfg s p).map (BoxZero.flush cfg)

/-- SIGNAL, BROADCAST and WAIT that name a lock of a machine in range, at that machine. -/
theorem BoxZero.cvOperation_own {cfg : Config} {s : Server} {p : Packet}
    {operation : CVOperation} {cvNum lockNum : ℤ} (h0 : 0 ≤ cfg.myMachineID)
    (hn : cfg.myMachineID ≤ cfg.totalNumServers)
    (hm : decodeMachineIDFromLockNumber lockNum = cfg.myMachineID) :
    BoxZero.cvOperation cfg s p operation cvNum lockNum =
      match s.lock? (decodeIndex cfg lockNum) with
      | none =>
        if operation = .wait then .ok ⟨s, [], true⟩
        else .ok ⟨s.pushResponse p.response, [], true⟩
      | some _ =>
        if decodeMachineIDFromCVNumber cvNum = cfg.myMachineID then
          BoxZero.localOperation s p operation (decodeIndex cfg cvNum) (decodeIndex cfg lockNum)
            false
        else .ok (BoxZero.toBoxOne cfg s p) := by
  have hvalid : decide (cfg.myMachineID < 0 ∨ cfg.myMachineID > cfg.totalNumServers) = false := by
    simp [h0, hn]
  unfold BoxZero.cvOperation
  simp only [hm, hvalid, if_true]
  rfl

/-- The same for a lock of another machine in range. -/
theorem BoxZero.cvOperation_foreign {cfg : Config} {s : Server} {p : Packet}
    {operation : CVOperation} {cvNum lockNum : ℤ}
    (h0 : 0 ≤ decodeMachineIDFromLockNumber lockNum)
    (hn : decodeMachineIDFromLockNumber lockNum ≤ cfg.totalNumServers)
    (hm : decodeMachineIDFromLockNumber lockNum ≠ cfg.myMachineID) :
    BoxZero.cvOperation cfg s p operation cvNum lockNum =
      .ok (BoxZero.queryLockOwner cfg s p operation cvNum lockNum) := by
  have hvalid : decide (decodeMachineIDFromLockNumber lockNum < 0 ∨
      decodeMachineIDFromLockNumber lockNum > cfg.totalNumServers) = false := by
    simp [h0, hn]
  unfold BoxZero.cvOperation
  simp only [hvalid, hm, if_false]
  rfl

end Nachos.Network
