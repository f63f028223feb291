import Nachos.ServerBoxZero

/-! The loop body of `ServerToServerMessageHandler()`: one message of mailbox 1. It
resolves creates by asking every other server and finds the server of an object that
is not on this machine. -/
namespace Nachos.Network
open SlotTables

namespace BoxOne

/-- `Respond_Once_To_Server`: back to the asking box, with the id of its query. -/
def respondOnceToServer (cfg : Config) (p : Packet) (data : Message) : Packet :=
  ⟨p.fromMachine, p.fromMailbox, cfg.myMachineID, p.toMailbox, data⟩

/-- `Respond_Once_To_Client`. -/
def respondOnceToClient (cfg : Config) (p : Packet) (data : ℤ) : Packet :=
  ⟨p.fromMachine, p.fromMailbox, cfg.myMachineID, 1, .reply data⟩

/-- One message to box 1 of every other server, for `Create_Query` and
`Query_All_Servers`. -/
def toAllServers (cfg : Config) (data : Message) : List Packet :=
  (otherServers cfg).map fun i => ⟨i, 1, cfg.myMachineID, 1, data⟩

/-- The slot test behind DO_YOU_HAVE_LOCK, DO_YOU_HAVE_CV and DO_YOU_HAVE_MV. -/
def hasObject (s : Server) (type : StructureType) (index : ℤ) : Bool :=
  match type with
  | .lock => (s.lock? index).isSome
  | .cv => (s.condition? index).isSome
  | .mv => (s.mv? index).isSome

/-- DO_YOU_HAVE_LOCK / CV / MV: index 0 is refused along with the negative ones. -/
def doYouHave (cfg : Config) (s : Server) (p : Packet) (type : StructureType) (id : ℕ)
    (index : ℤ) : List Packet :=
  [respondOnceToServer cfg p
    (if decodeIndex cfg index > 0 ∧ hasObject s type (decodeIndex cfg index) then
      .haveObject type id
    else .doNotHaveObject type id)]

/-- `checkIfLockExists`, `checkIfCVExists` and `checkIfMVExists`. -/
def checkIfExists (s : Server) (type : StructureType) (name : Name) : Option ℕ :=
  match type with
  | .lock => checkIfLockExists s name
  | .cv => checkIfCVExists s name
  | .mv => checkIfMVExists s name

/-- The search of `determineResponseToCreateRequest`: it stops at the first matching
create that has heard from the asker, and otherwise ends with the last matching one. -/
def scanPending (name : Name) (type : StructureType) (asker : ℤ) :
    List PendingCreate → Option (PendingCreate × Bool)
  | [] => none
  | pc :: rest =>
    if pc.isAMatch name type then
      if pc.responseTracker asker then some (pc, true)
      else (scanPending name type asker rest).or (some (pc, false))
    else scanPending name type asker rest

/-- Objects are shared by pointer in the source; here the id names the create. -/
def modifyPending (s : Server) (id : ℕ) (f : PendingCreate → PendingCreate) : Server :=
  { s with pendingCreates := s.pendingCreates.map fun pc => if pc.ID = id then f pc else pc }

def postpone (s : Server) (pc : PendingCreate) (p : Packet) (id : ℕ) : Server :=
  modifyPending s pc.ID fun pc =>
    { pc with serverResponseQueue :=
        pc.serverResponseQueue ++ [⟨p.fromMachine, p.fromMailbox, id⟩] }

def determineResponseToCreateRequest (cfg : Config) (s : Server) (p : Packet)
    (type : StructureType) (id : ℕ) (name : Name) : Server × List Packet :=
  match scanPending name type p.fromMachine s.pendingCreates with
  | none => (s, [respondOnceToServer cfg p (.doNotHaveName type id)])
  | some (pc, true) => (postpone s pc p id, [])
  | some (pc, false) =>
    if cfg.myMachineID < p.fromMachine then (postpone s pc p id, [])
    else (s, [respondOnceToServer cfg p (.doNotHaveName type id)])

/-- DO_YOU_HAVE_LOCK_NAME / CV_NAME / MV_NAME. -/
def doYouHaveName (cfg : Config) (s : Server) (p : Packet) (type : StructureType) (id : ℕ)
    (name : Name) : Server × List Packet :=
  match checkIfExists s type name with
  | some _ => (s, [respondOnceToServer cfg p (.haveName type id)])
  | none => determineResponseToCreateRequest cfg s p type id name

def removePending (s : Server) (id : ℕ) : Server :=
  { s with pendingCreates := s.pendingCreates.eraseP fun pc => pc.ID = id }

def forwardWaitingClientMessagesToServer (pc : PendingCreate) (recipientMachine : ℤ) :
    List Packet :=
  pc.waitingClients.map fun qs =>
    { qs.packet with toMachine := recipientMachine, toMailbox := 1 }

def messageBackClients (cfg : Config) (pc : PendingCreate) (encodedIndex : ℤ) : List Packet :=
  pc.waitingClients.map fun qs => respondOnceToClient cfg qs.packet encodedIndex

def notifyServersOfCreation (cfg : Config) (pc : PendingCreate) : List Packet :=
  pc.serverResponseQueue.map fun r =>
    ⟨r.replyMachine, r.replyMailbox, cfg.myMachineID, 1, .haveName pc.type r.replyMessageID⟩

/-- HAVE_LOCK_NAME / CV_NAME / MV_NAME. The servers queued for an answer of this
create are dropped with it. -/
def haveName (s : Server) (p : Packet) (id : ℕ) : Server × List Packet :=
  match s.pendingCreates.find? fun pc => pc.ID = id with
  | none => (s, [])
  | some pc =>
    (removePending s id, forwardWaitingClientMessagesToServer pc p.fromMachine)

/-- The object for the first waiting client, once every other server denied the name. -/
def createPending (s : Server) (type : StructureType) (data : Message) :
    Except Fault (Server × ℤ) :=
  match type, data with
  | .lock, .request (.createLock name) => .ok (serverCreateLock s name)
  | .cv, .request (.createCV name) => .ok (serverCreateCV s name)
  | .mv, .request (.createMV numEntries initialValue name) =>
    serverCreateMV s name numEntries initialValue
  | _, _ => .error .uninitialised

/-- `numResponses++` and the mark in `responseTracker`. -/
def countResponse (pc : PendingCreate) (fromMachine : ℤ) : PendingCreate :=
  { pc with
    numResponses := pc.numResponses + 1
    responseTracker := Function.update pc.responseTracker fromMachine true }

/-- DO_NOT_HAVE_LOCK_NAME / CV_NAME / MV_NAME. -/
def doNotHaveName (cfg : Config) (s : Server) (p : Packet) (id : ℕ) :
    Except Fault (Server × List Packet) :=
  match s.pendingCreates.find? fun pc => pc.ID = id with
  | none => if cfg.strayTemp then .error .uninitialised else .ok (s, [])
  | some pc =>
    let pc := countResponse pc p.fromMachine
    if pc.numResponses = cfg.totalNumServers - 1 then
      match pc.waitingClients with
      | [] => .error .nullPointer
      | client :: _ => do
        let r ← createPending s pc.type client.packet.data
        .ok (removePending r.1 id,
          notifyServersOfCreation cfg pc ++ messageBackClients cfg pc (encodeIndex cfg r.2))
    else .ok (modifyPending s id fun pc => countResponse pc p.fromMachine, [])

theorem bind_eq_ok {α β : Type} {x : Except Fault α} {f : α → Except Fault β} {b : β} :
    (x >>= f) = .ok b ↔ ∃ a, x = .ok a ∧ f a = .ok b := by
  cases x <;> simp [bind, Except.bind]

/-- What a negative reply can do: nothing, count, or conclude a create. -/
theorem doNotHaveName_cases {cfg : Config} {s t : Server} {p : Packet} {id : ℕ}
    {out : List Packet} (h : doNotHaveName cfg s p id = .ok (t, out)) :
    (s.pendingCreates.find? (fun pc => pc.ID = id) = none ∧ cfg.strayTemp = false ∧
      t = s ∧ out = []) ∨
    ∃ pc, s.pendingCreates.find? (fun pc => pc.ID = id) = some pc ∧
      ((pc.numResponses + 1 ≠ cfg.totalNumServers - 1 ∧
        t = modifyPending s id (fun pc => countResponse pc p.fromMachine) ∧ out = []) ∨
      (pc.numResponses + 1 = cfg.totalNumServers - 1 ∧
        ∃ client rest r, pc.waitingClients = client :: rest ∧
          createPending s pc.type client.packet.data = .ok r ∧ t = removePending r.1 id ∧
          out = notifyServersOfCreation cfg pc ++
            messageBackClients cfg pc (encodeIndex cfg r.2))) := by
  unfold doNotHaveName at h
  cases hf : s.pendingCreates.find? fun pc => pc.ID = id with
  | none =>
    simp only [hf] at h
    split_ifs at h with hstray
    obtain ⟨rfl, rfl⟩ := Prod.mk.inj (Except.ok.inj h)
    exact Or.inl ⟨rfl, by simpa using hstray, rfl, rfl⟩
  | some pc =>
    refine Or.inr ⟨pc, rfl, ?_⟩
    have hcount : (countResponse pc p.fromMachine).numResponses = pc.numResponses + 1 := rfl
    have hwait : (countResponse pc p.fromMachine).waitingClients = pc.waitingClients := rfl
    by_cases hn : pc.numResponses + 1 = cfg.totalNumServers - 1
    · cases hw : pc.waitingClients with
      | nil => simp [hf, hcount, hn, hwait, hw] at h
      | cons client rest =>
        simp only [hf, hcount, hn, if_true, hwait, hw] at h
        obtain ⟨r, hr, ht⟩ := bind_eq_ok.mp h
        obtain ⟨rfl, rfl⟩ := Prod.mk.inj (Except.ok.inj ht)
        exact Or.inr ⟨hn, client, rest, r, rfl, hr, rfl, rfl⟩
    · simp only [hf, hcount, hn, if_false] at h
      obtain ⟨rfl, rfl⟩ := Prod.mk.inj (Except.ok.inj h)
      exact Or.inl ⟨hn, rfl, rfl⟩

/-- `new QueryStatus` takes the next query id. -/
def newQueryStatus (s : Server) (p : Packet) (type : Option StructureType) :
    Server × QueryStatus :=
  ({ s with nextQueryID := s.nextQueryID + 1 }, ⟨p, 0, s.nextQueryID, type⟩)

def addWaitingClient (s : Server) (pcID : ℕ) (p : Packet) : Server :=
  let r := newQueryStatus s p none
  modifyPending r.1 pcID fun pc => { pc with waitingClients := pc.waitingClients ++ [r.2] }

/-- `new PendingCreate`: this server counts as having answered. -/
def newPendingCreate (cfg : Config) (s : Server) (name : Name) (type : StructureType) :
    Server × PendingCreate :=
  let pc : PendingCreate :=
    ⟨name, type, fun i => i = cfg.myMachineID, [], [], 0, s.nextQueryID⟩
  ({ s with nextQueryID := s.nextQueryID + 1,
            pendingCreates := s.pendingCreates ++ [pc] }, pc)

/-- CREATE_LOCK, CREATE_CV and CREATE_MV, with the name that goes into the query. -/
def create (cfg : Config) (s : Server) (p : Packet) (type : StructureType)
    (name queriedName : Name) : Server × List Packet :=
  match checkIfExists s type name with
  | some i => (s, [respondOnceToClient cfg p (encodeIndex cfg i)])
  | none =>
    match s.pendingCreates.find? fun pc => pc.isAMatch name type with
    | some pc => (addWaitingClient s pc.ID p, [])
    | none =>
      let r := newPendingCreate cfg s name type
      (addWaitingClient r.1 r.2.ID p,
        toAllServers cfg (.doYouHaveName type r.2.ID queriedName))

/-- `Query_All_Servers`. The id is consumed twice. -/
def queryAllServers (cfg : Config) (s : Server) (p : Packet) (type : StructureType)
    (index : ℤ) : Server × List Packet :=
  let r := newQueryStatus s p (some type)
  ({ r.1 with nextQueryID := r.1.nextQueryID + 1, queryQueue := s.queryQueue ++ [r.2] },
    toAllServers cfg (.doYouHave type r.2.id index))

def request (cfg : Config) (s : Server) (p : Packet) : Request → Server × List Packet
  | .createLock name => create cfg s p .lock name name
  | .createCV name => create cfg s p .cv name name
  | .createMV numEntries initialValue name =>
    create cfg s p .mv name (queriedMVName numEntries initialValue name)
  | .acquire lockNum => queryAllServers cfg s p .lock lockNum
  | .release lockNum => queryAllServers cfg s p .lock lockNum
  | .destroyLock lockNum => queryAllServers cfg s p .lock lockNum
  | .destroyCV cvNum => queryAllServers cfg s p .cv cvNum
  | .cvOperation _ cvNum _ => queryAllServers cfg s p .cv cvNum
  | .destroyMV mvNum => queryAllServers cfg s p .mv mvNum
  | .getMV mvNum _ => queryAllServers cfg s p .mv mvNum
  | .setMV mvNum _ _ => queryAllServers cfg s p .mv mvNum

/-- HAVE_LOCK / CV / MV: the stored message goes to mailbox 0 of the answering server. -/
def haveObject (s : Server) (p : Packet) (id : ℕ) : Server × List Packet :=
  match s.queryQueue.find? fun qs => qs.id = id with
  | none => (s, [])
  | some qs =>
    ({ s with queryQueue := s.queryQueue.eraseP fun qs => qs.id = id },
      [{ qs.packet with toMachine := p.fromMachine, toMailbox := 0 }])

/-- DO_NOT_HAVE_LOCK / CV / MV. The `break` ends the loop at the first query, whether
it is the one that was asked about or not. -/
def doNotHaveObject (s : Server) (id : ℕ) : Server :=
  match s.queryQueue with
  | [] => s
  | qs :: rest =>
    if qs.id = id then
      { s with queryQueue :=
          { qs with numResponsesReceived := qs.numResponsesReceived + 1 } :: rest }
    else s

end BoxOne

/-- One iteration of `ServerToServerMessageHandler()`. The default case leaves
`action` uninitialised. -/
def boxOne (cfg : Config) (s : Server) (p : Packet) : Except Fault (Server × List Packet) :=
  match p.data with
  | .request r => .ok (BoxOne.request cfg s p r)
  | .doYouHave type id index => .ok (s, BoxOne.doYouHave cfg s p type id index)
  | .haveObject _ id => .ok (BoxOne.haveObject s p id)
  | .doNotHaveObject _ id => .ok (BoxOne.doNotHaveObject s id, [])
  | .doYouHaveName type id name => .ok (BoxOne.doYouHaveName cfg s p type id name)
  | .haveName _ id => .ok (BoxOne.haveName s p id)
  | .doNotHaveName _ id => BoxOne.doNotHaveName cfg s p id
  | .doesClientHaveLock .. => .error .uninitialised
  | .cvLockTrackerResponse .. => .error .uninitialised
  | .reply _ => .error .uninitialised

end Nachos.Network
