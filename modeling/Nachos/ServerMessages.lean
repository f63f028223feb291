import Nachos.ServerSynch

/-! Messages of the network server, `network/messagetypes.h`, after parsing. The
integers of a message are 32-bit fields that no handler adds to beyond the
encoding of an index, so they are plain integers here. -/
namespace Nachos.Network

def maxServerLocks : ℕ := 500
def maxServerCVs : ℕ := 500
def maxServerMVArrays : ℕ := 500
def maxServerEntriesPerMVArray : ℤ := 500

inductive StructureType
  | lock
  | cv
  | mv
  deriving DecidableEq, Repr

/-- SIGNAL, WAIT and BROADCAST; also the `messageType` that a `CVLockTracker` keeps. -/
inductive CVOperation
  | signal
  | wait
  | broadcast
  deriving DecidableEq, Repr

/-- The thirteen operations a client can ask for. -/
inductive Request
  | createLock (name : Name)
  | destroyLock (lockNum : ℤ)
  | acquire (lockNum : ℤ)
  | release (lockNum : ℤ)
  | createCV (name : Name)
  | destroyCV (cvNum : ℤ)
  | cvOperation (operation : CVOperation) (cvNum lockNum : ℤ)
  | createMV (numEntries initialValue : ℤ) (name : Name)
  | destroyMV (mvNum : ℤ)
  | getMV (mvNum entryIndex : ℤ)
  | setMV (mvNum entryIndex value : ℤ)
  deriving DecidableEq, Repr

/-- `reply` is the four-byte answer to a client. It carries no message type. -/
inductive Message
  | request (r : Request)
  | doesClientHaveLock (clientMID clientMBX lockNum : ℤ)
  | cvLockTrackerResponse (clientMID clientMBX lockNum : ℤ) (held : Bool)
  | doYouHave (type : StructureType) (id : ℕ) (index : ℤ)
  | haveObject (type : StructureType) (id : ℕ)
  | doNotHaveObject (type : StructureType) (id : ℕ)
  | doYouHaveName (type : StructureType) (id : ℕ) (name : Name)
  | haveName (type : StructureType) (id : ℕ)
  | doNotHaveName (type : StructureType) (id : ℕ)
  | reply (data : ℤ)
  deriving DecidableEq, Repr

/-- Packet header, mail header and data. The lengths follow from the data. -/
structure Packet where
  toMachine : ℤ
  toMailbox : ℤ
  fromMachine : ℤ
  fromMailbox : ℤ
  data : Message
  deriving DecidableEq, Repr

/-- The reply address of a message, as a client of locks and conditions. -/
def Packet.sender (p : Packet) : ClientRequest := ⟨p.fromMachine, p.fromMailbox⟩

/-- `myMachineID`, `totalNumServers`, and whether the pointer `temp`, which the
handler of DO_NOT_HAVE_*_NAME leaves uninitialised, holds garbage rather than NULL. -/
structure Config where
  myMachineID : ℤ
  totalNumServers : ℕ
  strayTemp : Bool := false
  deriving DecidableEq, Repr

def encodeIndex (cfg : Config) (internalIndex : ℤ) : ℤ :=
  cfg.myMachineID * maxServerLocks + internalIndex

def decodeIndex (cfg : Config) (encodedIndex : ℤ) : ℤ :=
  encodedIndex - cfg.myMachineID * maxServerLocks

/-- Division truncates toward zero. -/
def decodeMachineIDFromLockNumber (lockNum : ℤ) : ℤ := lockNum.tdiv maxServerLocks
def decodeMachineIDFromCVNumber (cvNum : ℤ) : ℤ := cvNum.tdiv maxServerCVs
def decodeMachineIDFromMVNumber (mvNum : ℤ) : ℤ := mvNum.tdiv maxServerMVArrays

/-- The other servers, in the order in which queries are sent to them. -/
def otherServers (cfg : Config) : List ℤ :=
  ((List.range cfg.totalNumServers).map Int.ofNat).filter (· ≠ cfg.myMachineID)

/-- The four bytes that `compressInt` stores, most significant first. -/
def compressInt (x : ℤ) : List UInt8 :=
  [24, 16, 8, 0].map fun k : ℕ => UInt8.ofNat ((x >>> k) % 256).toNat

/-- The C string at the start of a buffer. -/
def cString (bytes : List UInt8) : Name := bytes.takeWhile (· ≠ 0)

/-- The query for a monitor variable copies the name from offset 2 of the client's
message, as in the other two formats, although CREATE_MV has it at offset 10. The
name length there counts the terminating zero. -/
def queriedMVName (numEntries initialValue : ℤ) (name : Name) : Name :=
  cString (((compressInt numEntries).drop 1 ++ compressInt initialValue ++
    [UInt8.ofNat (name.length + 1)] ++ name).take (name.length + 1))

theorem mem_otherServers {cfg : Config} {j : ℤ} :
    j ∈ otherServers cfg ↔ (0 ≤ j ∧ j < cfg.totalNumServers) ∧ j ≠ cfg.myMachineID := by
  simp only [otherServers, List.mem_filter, List.mem_map, List.mem_range, Int.ofNat_eq_natCast,
    decide_eq_true_eq]
  constructor
  · rintro ⟨⟨k, hk, rfl⟩, hne⟩
    exact ⟨⟨by omega, by omega⟩, hne⟩
  · rintro ⟨⟨h0, hlt⟩, hne⟩
    exact ⟨⟨j.toNat, by omega, by omega⟩, hne⟩

theorem otherServers_nodup (cfg : Config) : (otherServers cfg).Nodup := by
  refine List.Nodup.filter _ (List.nodup_range.map ?_)
  intro a b h
  simpa using h

/-- A nonnegative number belongs to the machine whose block of indices contains it. -/
theorem decodeMachine_eq_iff {n m : ℤ} (hn : 0 ≤ n) :
    n.tdiv (500 : ℕ) = m ↔ 0 ≤ m ∧ 500 * m ≤ n ∧ n < 500 * m + 500 := by
  rw [Int.tdiv_eq_ediv_of_nonneg hn]
  omega

end Nachos.Network
