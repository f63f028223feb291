import Nachos.ByteBuffers
import Nachos.ServerMessages

/-! The bytes of the client-server messages, `network/messagetypes.h`: the syscall stubs
of `userprog/exception.cc` build them and the loop of `Server()` takes them apart. -/
namespace Nachos.Network.Wire
open ByteBuffers

/-- `MaxPacketSize - sizeof(MailHeader)`: two headers of three ints in 64 bytes. -/
def maxMailSize : ℕ := 40

/-! Integers, in `network/server.cc` and again in `userprog/exception.cc`. -/

def extractInt (buf : Buffer) : BitVec 32 :=
  let a := (ofChar (buf 0) <<< 24) &&& 0xff000000#32
  let b := (ofChar (buf 1) <<< 16) &&& 0x00ff0000#32
  let c := (ofChar (buf 2) <<< 8) &&& 0x0000ff00#32
  let d := (ofChar (buf 3) <<< 0) &&& 0x000000ff#32
  a + b + c + d

def compressInt (x : BitVec 32) (dest : Buffer) (off : ℕ) : Buffer :=
  let dest := dest.store off (toChar (x.sshiftRight 24 &&& 0x000000ff#32))
  let dest := dest.store (off + 1) (toChar (x.sshiftRight 16 &&& 0x000000ff#32))
  let dest := dest.store (off + 2) (toChar (x.sshiftRight 8 &&& 0x000000ff#32))
  dest.store (off + 3) (toChar (x.sshiftRight 0 &&& 0x000000ff#32))

def extractIntFromBytes (buf : Buffer) : BitVec 32 :=
  let a := (ofChar (buf 0) <<< 24) &&& 0xff000000#32
  let b := (ofChar (buf 1) <<< 16) &&& 0x00ff0000#32
  let c := (ofChar (buf 2) <<< 8) &&& 0x0000ff00#32
  let d := (ofChar (buf 3) <<< 0) &&& 0x000000ff#32
  a + b + c + d

def compressIntFromBytes (x : BitVec 32) (dest : Buffer) (off : ℕ) : Buffer :=
  let dest := dest.store off (toChar (x.sshiftRight 24 &&& 0x000000ff#32))
  let dest := dest.store (off + 1) (toChar (x.sshiftRight 16 &&& 0x000000ff#32))
  let dest := dest.store (off + 2) (toChar (x.sshiftRight 8 &&& 0x000000ff#32))
  dest.store (off + 3) (toChar (x.sshiftRight 0 &&& 0x000000ff#32))

/-- The byte that both encoders store at offset `k`. -/
def intByte (x : BitVec 32) (k : ℕ) : UInt8 :=
  toChar (x.sshiftRight (24 - 8 * k) &&& 0x000000ff#32)

theorem compressInt_inside (x : BitVec 32) (dest : Buffer) (off : ℕ) {k : ℕ} (hk : k < 4) :
    compressInt x dest off (off + k) = intByte x k := by
  interval_cases k <;> simp [compressInt, Buffer.store, Function.update, intByte]

theorem compressInt_outside {x : BitVec 32} {dest : Buffer} {off i : ℕ}
    (h : i < off ∨ off + 4 ≤ i) : compressInt x dest off i = dest i := by
  unfold compressInt
  rw [Buffer.store_of_ne (by omega), Buffer.store_of_ne (by omega), Buffer.store_of_ne (by omega),
    Buffer.store_of_ne (by omega)]

/-- The two encoders and the two decoders are the same. -/
theorem compressIntFromBytes_eq : compressIntFromBytes = compressInt := rfl

theorem extractIntFromBytes_eq : extractIntFromBytes = extractInt := rfl

theorem extractInt_of_bytes {buf : Buffer} {x : BitVec 32} (h : ∀ k < 4, buf k = intByte x k) :
    extractInt buf = x := by
  refine sum_masked x ?_ ?_ ?_ ?_
  · rw [h 0 (by omega)]
    exact toChar_toNat x (by omega)
  · rw [h 1 (by omega)]
    exact toChar_toNat x (by omega)
  · rw [h 2 (by omega)]
    exact toChar_toNat x (by omega)
  · rw [h 3 (by omega)]
    have hlow := toChar_toNat x (s := 0) (by omega)
    simpa [intByte] using hlow

/-! The message types. -/

def CREATE_LOCK : UInt8 := 97
def DESTROY_LOCK : UInt8 := 98
def ACQUIRE : UInt8 := 99
def RELEASE : UInt8 := 100
def CREATE_CV : UInt8 := 101
def DESTROY_CV : UInt8 := 102
def SIGNAL : UInt8 := 103
def WAIT : UInt8 := 104
def BROADCAST : UInt8 := 105
def CREATE_MV : UInt8 := 106
def DESTROY_MV : UInt8 := 107
def GET_MV : UInt8 := 108
def SET_MV : UInt8 := 109

/-! The stubs. -/

/-- The operations a user program can ask the servers for. A name is the bytes that
`copyin` brings into the kernel, as many as the program says. -/
inductive ClientCall
  | createLock (name : List UInt8)
  | destroyLock (lockIndex : BitVec 32)
  | acquire (lockIndex : BitVec 32)
  | release (lockIndex : BitVec 32)
  | createCondition (name : List UInt8)
  | destroyCondition (conditionIndex : BitVec 32)
  | signal (conditionIndex lockIndex : BitVec 32)
  | wait (conditionIndex lockIndex : BitVec 32)
  | broadcast (conditionIndex lockIndex : BitVec 32)
  | createMV (name : List UInt8) (numArrayEntries initialValue : BitVec 32)
  | destroyMV (index : BitVec 32)
  | getMV (arrIndex varIndex : BitVec 32)
  | setMV (arrIndex indexInArray value : BitVec 32)
  deriving DecidableEq, Repr

/-- `data` and `mailHeader->length`. -/
structure Mail where
  data : Buffer
  length : ℕ

/-- The kernel's copy of a name, followed by whatever comes behind it. -/
def nameBuffer (memory : Buffer) (name : List UInt8) : Buffer := fun i => name.getD i (memory i)

/-- Every name is preceded by its length, as a char. -/
def putName (memory : Buffer) (data : Buffer) (off : ℕ) (name : List UInt8) : Buffer :=
  strncpy (data.store off (UInt8.ofNat name.length)) (off + 1) (nameBuffer memory name) name.length

/-- A name from offset 1 on: CREATE_LOCK and CREATE_CV. -/
def createMail (memory : Buffer) (type : UInt8) (name : List UInt8) : Mail :=
  ⟨putName memory (memory.store 0 type) 1 name, 2 + name.length⟩

def createMVMail (memory : Buffer) (name : List UInt8) (numArrayEntries initialValue : BitVec 32) :
    Mail :=
  let data := memory.store 0 CREATE_MV
  let data := compressIntFromBytes numArrayEntries data 1
  let data := compressIntFromBytes initialValue data 5
  ⟨putName memory data 9 name, 10 + name.length⟩

/-- One, two or three integers from offset 1 on. -/
def intsMail (memory : Buffer) (type : UInt8) (ints : List (BitVec 32)) : Mail :=
  ⟨(ints.foldl (fun r x => (compressIntFromBytes x r.1 r.2, r.2 + 4))
    (memory.store 0 type, 1)).1, 1 + 4 * ints.length⟩

/-- The messages of a stub, in the order they are sent. WAIT is followed by ACQUIRE. -/
def stub (memory : Buffer) : ClientCall → List Mail
  | .createLock name => [createMail memory CREATE_LOCK name]
  | .destroyLock lockIndex => [intsMail memory DESTROY_LOCK [lockIndex]]
  | .acquire lockIndex => [intsMail memory ACQUIRE [lockIndex]]
  | .release lockIndex => [intsMail memory RELEASE [lockIndex]]
  | .createCondition name => [createMail memory CREATE_CV name]
  | .destroyCondition conditionIndex => [intsMail memory DESTROY_CV [conditionIndex]]
  | .signal conditionIndex lockIndex => [intsMail memory SIGNAL [conditionIndex, lockIndex]]
  | .wait conditionIndex lockIndex =>
    [intsMail memory WAIT [conditionIndex, lockIndex], intsMail memory ACQUIRE [lockIndex]]
  | .broadcast conditionIndex lockIndex => [intsMail memory BROADCAST [conditionIndex, lockIndex]]
  | .createMV name numArrayEntries initialValue =>
    [createMVMail memory name numArrayEntries initialValue]
  | .destroyMV index => [intsMail memory DESTROY_MV [index]]
  | .getMV arrIndex varIndex => [intsMail memory GET_MV [arrIndex, varIndex]]
  | .setMV arrIndex indexInArray value => [intsMail memory SET_MV [arrIndex, indexInArray, value]]

/-! The parser. -/

/-- `new char[nameLength]` and `strncpy`. A negative length fails. -/
def nameAt (messageData : Buffer) (off : ℕ) : Option Name :=
  let nameLength := (messageData off).toNat
  if nameLength < 128 then
    some (cString ((strncpy (fun _ => 0) 0 (messageData.advance (off + 1)) nameLength).bytes
      nameLength))
  else none

def intAt (messageData : Buffer) (off : ℕ) : ℤ := (extractInt (messageData.advance off)).toInt

/-- What the loop of `Server()` takes from a message of a client, by its type. -/
def parse (messageData : Buffer) : Option Request :=
  let messageType := messageData 0
  if messageType = CREATE_LOCK then (nameAt messageData 1).map .createLock
  else if messageType = DESTROY_LOCK then some (.destroyLock (intAt messageData 1))
  else if messageType = ACQUIRE then some (.acquire (intAt messageData 1))
  else if messageType = RELEASE then some (.release (intAt messageData 1))
  else if messageType = CREATE_CV then (nameAt messageData 1).map .createCV
  else if messageType = DESTROY_CV then some (.destroyCV (intAt messageData 1))
  else if messageType = SIGNAL then
    some (.cvOperation .signal (intAt messageData 1) (intAt messageData 5))
  else if messageType = WAIT then
    some (.cvOperation .wait (intAt messageData 1) (intAt messageData 5))
  else if messageType = BROADCAST then
    some (.cvOperation .broadcast (intAt messageData 1) (intAt messageData 5))
  else if messageType = CREATE_MV then
    (nameAt messageData 9).map (.createMV (intAt messageData 1) (intAt messageData 5))
  else if messageType = DESTROY_MV then some (.destroyMV (intAt messageData 1))
  else if messageType = GET_MV then some (.getMV (intAt messageData 1) (intAt messageData 5))
  else if messageType = SET_MV then
    some (.setMV (intAt messageData 1) (intAt messageData 5) (intAt messageData 9))
  else none

/-! The round trip. -/

/-- What the program asked for. -/
def ClientCall.requests : ClientCall → List Request
  | .createLock name => [.createLock (cString name)]
  | .destroyLock lockIndex => [.destroyLock lockIndex.toInt]
  | .acquire lockIndex => [.acquire lockIndex.toInt]
  | .release lockIndex => [.release lockIndex.toInt]
  | .createCondition name => [.createCV (cString name)]
  | .destroyCondition conditionIndex => [.destroyCV conditionIndex.toInt]
  | .signal conditionIndex lockIndex =>
    [.cvOperation .signal conditionIndex.toInt lockIndex.toInt]
  | .wait conditionIndex lockIndex =>
    [.cvOperation .wait conditionIndex.toInt lockIndex.toInt, .acquire lockIndex.toInt]
  | .broadcast conditionIndex lockIndex =>
    [.cvOperation .broadcast conditionIndex.toInt lockIndex.toInt]
  | .createMV name numArrayEntries initialValue =>
    [.createMV numArrayEntries.toInt initialValue.toInt (cString name)]
  | .destroyMV index => [.destroyMV index.toInt]
  | .getMV arrIndex varIndex => [.getMV arrIndex.toInt varIndex.toInt]
  | .setMV arrIndex indexInArray value =>
    [.setMV arrIndex.toInt indexInArray.toInt value.toInt]

/-- The name that a call sends, with the offset behind which it stands in the message. -/
def ClientCall.name? : ClientCall → Option (List UInt8 × ℕ)
  | .createLock name => some (name, 2)
  | .createCondition name => some (name, 2)
  | .createMV name _ _ => some (name, 10)
  | _ => none

/-- A name with its terminating zero that fits the message. -/
def ClientCall.Fits (call : ClientCall) : Prop :=
  ∀ name off, call.name? = some (name, off) → 0 ∈ name ∧ off + name.length ≤ maxMailSize

/-- The receiver sees the bytes that were sent; what lies behind them is arbitrary. -/
def Delivered (mail : Mail) (messageData : Buffer) : Prop :=
  ∀ i < mail.length, messageData i = mail.data i

theorem intAt_eq {messageData : Buffer} {x : BitVec 32} {off : ℕ}
    (h : ∀ k < 4, messageData (off + k) = intByte x k) : intAt messageData off = x.toInt := by
  have hint : extractInt (messageData.advance off) = x := extractInt_of_bytes h
  unfold intAt
  rw [hint]

/-- The integers of a list from an offset on. -/
def intsAt (dest : Buffer) (off : ℕ) : List (BitVec 32) → Buffer
  | [] => dest
  | x :: ints => intsAt (compressIntFromBytes x dest off) (off + 4) ints

theorem intsMail_data (memory : Buffer) (type : UInt8) (ints : List (BitVec 32)) :
    (intsMail memory type ints).data = intsAt (memory.store 0 type) 1 ints := by
  have hfold : ∀ (dest : Buffer) (off : ℕ) (ints : List (BitVec 32)),
      (ints.foldl (fun r x => (compressIntFromBytes x r.1 r.2, r.2 + 4)) (dest, off)).1 =
        intsAt dest off ints := by
    intro dest off ints
    induction ints generalizing dest off with
    | nil => rfl
    | cons x ints ih => exact ih _ _
  exact hfold _ _ _

theorem intsAt_outside {dest : Buffer} {off i : ℕ} (ints : List (BitVec 32)) (h : i < off) :
    intsAt dest off ints i = dest i := by
  induction ints generalizing dest off with
  | nil => rfl
  | cons x ints ih =>
    rw [intsAt, ih (by omega), compressIntFromBytes_eq, compressInt_outside (.inl h)]

theorem intsAt_inside {dest : Buffer} {off n k : ℕ} {ints : List (BitVec 32)} {x : BitVec 32}
    (hn : ints[n]? = some x) (hk : k < 4) :
    intsAt dest off ints (off + 4 * n + k) = intByte x k := by
  induction ints generalizing dest off n with
  | nil => simp at hn
  | cons y ints ih =>
    cases n with
    | zero =>
      obtain rfl : y = x := by simpa using hn
      rw [intsAt, intsAt_outside ints (by omega), compressIntFromBytes_eq]
      exact compressInt_inside y dest off hk
    | succ n =>
      have hrec : intsAt (compressIntFromBytes y dest off) (off + 4) ints (off + 4 + 4 * n + k) =
          intByte x k := ih (by simpa using hn)
      rw [intsAt, show off + 4 * (n + 1) + k = off + 4 + 4 * n + k by omega]
      exact hrec

/-- The receiver finds the type and every integer. -/
theorem intsMail_received {memory messageData : Buffer} {type : UInt8} {ints : List (BitVec 32)}
    (h : Delivered (intsMail memory type ints) messageData) :
    messageData 0 = type ∧
      ∀ n x, ints[n]? = some x → intAt messageData (1 + 4 * n) = x.toInt := by
  constructor
  · rw [h 0 (by simp [intsMail]), intsMail_data, intsAt_outside ints (by omega)]
    exact memory.store_self 0 type
  · intro n x hn
    have hlt : n < ints.length := (List.getElem?_eq_some_iff.mp hn).1
    refine intAt_eq fun k hk => ?_
    rw [h _ (by simp only [intsMail]; omega), intsMail_data]
    exact intsAt_inside hn hk

theorem cString_eq : cString = zeroTerminated := rfl

theorem nameBuffer_bytes (memory : Buffer) (name : List UInt8) :
    (nameBuffer memory name).bytes name.length = name := by
  apply List.ext_getElem
  · simp
  · intro i h₁ h₂
    simp [Buffer.bytes, nameBuffer, h₂]

theorem nameAt_eq {messageData : Buffer} {off : ℕ} (h : (messageData off).toNat < 128) :
    nameAt messageData off =
      some (cString ((messageData.advance (off + 1)).bytes (messageData off).toNat)) := by
  have hcopy := zeroTerminated_strncpy (fun _ => 0) (messageData.advance (off + 1)) 0
    (messageData off).toNat
  rw [Buffer.advance_zero] at hcopy
  simp only [nameAt, h, if_true, cString_eq, hcopy]

/-- A length below 128 and the copied name behind it are read back. -/
theorem nameAt_strncpy {dest src messageData : Buffer} {off n : ℕ} (hn : n < 128)
    (hlength : messageData off = UInt8.ofNat n)
    (h : ∀ i, off + 1 ≤ i → i < off + 1 + n →
      messageData i = strncpy dest (off + 1) src n i) :
    nameAt messageData off = some (cString (src.bytes n)) := by
  have hnat : (messageData off).toNat = n := by
    rw [hlength, UInt8.toNat_ofNat']
    omega
  have hbytes : (messageData.advance (off + 1)).bytes n =
      ((strncpy dest (off + 1) src n).advance (off + 1)).bytes n :=
    Buffer.bytes_congr fun i hi => h _ (by omega) (by omega)
  rw [nameAt_eq (by omega), hnat, hbytes, cString_eq, zeroTerminated_strncpy]

theorem putName_before {memory data : Buffer} {off i : ℕ} (name : List UInt8) (h : i < off) :
    putName memory data off name i = data i := by
  unfold putName
  rw [strncpy_outside (.inl (by omega)), Buffer.store_of_ne (by omega)]

theorem putName_length (memory data : Buffer) (off : ℕ) (name : List UInt8) :
    putName memory data off name off = UInt8.ofNat name.length := by
  unfold putName
  rw [strncpy_outside (.inl (by omega)), Buffer.store_self]

theorem nameAt_putName {memory data messageData : Buffer} {off : ℕ} {name : List UInt8}
    (hlen : name.length < 128)
    (h : ∀ i, off ≤ i → i < off + 1 + name.length →
      messageData i = putName memory data off name i) :
    nameAt messageData off = some (cString name) := by
  have hlength : messageData off = UInt8.ofNat name.length :=
    (h off (by omega) (by omega)).trans (putName_length memory data off name)
  rw [nameAt_strncpy hlen hlength fun i hi hlt => h i (by omega) hlt, nameBuffer_bytes]

theorem createMail_received {memory messageData : Buffer} {type : UInt8} {name : List UInt8}
    (hlen : 2 + name.length ≤ maxMailSize)
    (h : Delivered (createMail memory type name) messageData) :
    messageData 0 = type ∧ nameAt messageData 1 = some (cString name) := by
  constructor
  · have htype : putName memory (memory.store 0 type) 1 name 0 = memory.store 0 type 0 :=
      putName_before name Nat.one_pos
    rw [h 0 (by simp only [createMail]; omega)]
    exact htype.trans (memory.store_self 0 type)
  · have hmax : maxMailSize = 40 := rfl
    exact nameAt_putName (by omega) fun i _ hi => h i (by simp only [createMail]; omega)

theorem createMVMail_received {memory messageData : Buffer} {name : List UInt8}
    {numArrayEntries initialValue : BitVec 32} (hlen : 10 + name.length ≤ maxMailSize)
    (h : Delivered (createMVMail memory name numArrayEntries initialValue) messageData) :
    messageData 0 = CREATE_MV ∧ intAt messageData 1 = numArrayEntries.toInt ∧
      intAt messageData 5 = initialValue.toInt ∧ nameAt messageData 9 = some (cString name) := by
  have hints : ∀ i < 9, messageData i =
      intsAt (memory.store 0 CREATE_MV) 1 [numArrayEntries, initialValue] i := fun i hi =>
    (h i (by simp only [createMVMail]; omega)).trans (putName_before name hi)
  refine ⟨?_, ?_, ?_, ?_⟩
  · rw [hints 0 (by omega), intsAt_outside _ (by omega)]
    exact memory.store_self 0 CREATE_MV
  · exact intAt_eq fun k hk =>
      (hints _ (by omega)).trans (intsAt_inside (n := 0) rfl hk)
  · exact intAt_eq fun k hk =>
      (hints _ (by omega)).trans
        (intsAt_inside rfl hk : intsAt _ 1 [numArrayEntries, initialValue] (1 + 4 * 1 + k) = _)
  · have hmax : maxMailSize = 40 := rfl
    exact nameAt_putName (by omega) fun i _ hi => h i (by simp only [createMVMail]; omega)

attribute [local simp] CREATE_LOCK DESTROY_LOCK ACQUIRE RELEASE CREATE_CV DESTROY_CV SIGNAL WAIT
  BROADCAST CREATE_MV DESTROY_MV GET_MV SET_MV

/-- Every message of a stub reads as what the program asked for. -/
theorem stub_parsed (memory : Buffer) {call : ClientCall} (hfits : call.Fits) :
    List.Forall₂ (fun mail r => ∀ messageData, Delivered mail messageData →
      parse messageData = some r) (stub memory call) call.requests := by
  cases call with
  | createLock name =>
    refine .cons (fun messageData h => ?_) .nil
    obtain ⟨htype, hname⟩ := createMail_received (hfits _ _ rfl).2 h
    simp [parse, htype, hname]
  | createCondition name =>
    refine .cons (fun messageData h => ?_) .nil
    obtain ⟨htype, hname⟩ := createMail_received (hfits _ _ rfl).2 h
    simp [parse, htype, hname]
  | createMV name numArrayEntries initialValue =>
    refine .cons (fun messageData h => ?_) .nil
    obtain ⟨htype, hnum, hval, hname⟩ := createMVMail_received (hfits _ _ rfl).2 h
    simp [parse, htype, hnum, hval, hname]
  | destroyLock lockIndex | acquire lockIndex | release lockIndex | destroyCondition conditionIndex
  | destroyMV index =>
    refine .cons (fun messageData h => ?_) .nil
    obtain ⟨htype, hints⟩ := intsMail_received h
    simp [parse, htype, hints 0 _ rfl]
  | signal conditionIndex lockIndex | broadcast conditionIndex lockIndex | getMV arrIndex varIndex =>
    refine .cons (fun messageData h => ?_) .nil
    obtain ⟨htype, hints⟩ := intsMail_received h
    simp [parse, htype, hints 0 _ rfl, hints 1 _ rfl]
  | wait conditionIndex lockIndex =>
    refine .cons (fun messageData h => ?_) (.cons (fun messageData h => ?_) .nil)
    · obtain ⟨htype, hints⟩ := intsMail_received h
      simp [parse, htype, hints 0 _ rfl, hints 1 _ rfl]
    · obtain ⟨htype, hints⟩ := intsMail_received h
      simp [parse, htype, hints 0 _ rfl]
  | setMV arrIndex indexInArray value =>
    refine .cons (fun messageData h => ?_) .nil
    obtain ⟨htype, hints⟩ := intsMail_received h
    simp [parse, htype, hints 0 _ rfl, hints 1 _ rfl, hints 2 _ rfl]

/-- `respondToClient` of the servers, and what the stub reads from the reply. -/
def replyMail (memory : Buffer) (response : BitVec 32) : Mail := ⟨compressInt response memory 0, 4⟩

theorem reply_received {memory messageData : Buffer} {response : BitVec 32}
    (h : Delivered (replyMail memory response) messageData) :
    extractIntFromBytes messageData = response := by
  rw [extractIntFromBytes_eq]
  refine extractInt_of_bytes fun k hk => ?_
  have hbyte := compressInt_inside response memory 0 hk
  rw [Nat.zero_add] at hbyte
  exact (h k hk).trans hbyte

/-- The wire format: the server reads what the stub was given, the client what the
server answered. -/
theorem wire_format (memory : Buffer) :
    (∀ call : ClientCall, call.Fits → List.Forall₂ (fun mail r => ∀ messageData,
      Delivered mail messageData → parse messageData = some r) (stub memory call) call.requests) ∧
    ∀ (response : BitVec 32) (messageData : Buffer),
      Delivered (replyMail memory response) messageData →
        extractIntFromBytes messageData = response :=
  ⟨fun _ hfits => stub_parsed memory hfits, fun _ _ h => reply_received h⟩

theorem wire_format_negative :
    parse (createMVMail (fun _ => 0) [109, 0] 3#32 (-1)).data = some (.createMV 3 (-1) [109]) ∧
      extractIntFromBytes (replyMail (fun _ => 0) (-1)).data = -1 := by
  obtain ⟨hrequests, hreplies⟩ := wire_format fun _ => 0
  constructor
  · have hfits : (ClientCall.createMV [109, 0] 3#32 (-1)).Fits := by
      rintro name off ⟨rfl, rfl⟩
      decide
    exact (List.forall₂_cons.mp (hrequests _ hfits)).1 _ fun _ _ => rfl
  · exact hreplies (-1) _ fun _ _ => rfl

end Nachos.Network.Wire
