import Nachos.ServerWire
import Nachos.ServerBoxOne

/-! The query by name: box 1 packs the name of a client's create into a message for the
other servers, and reads it from the stored create again when all of them denied it. -/
namespace Nachos.Network.Wire
open ByteBuffers

def DO_YOU_HAVE_LOCK_NAME : UInt8 := 119
def DO_YOU_HAVE_CV_NAME : UInt8 := 120
def DO_YOU_HAVE_MV_NAME : UInt8 := 121

/-- `PostOffice::Send` asserts that the length fits. -/
def send (mail : Mail) : Option Mail := if mail.length ≤ maxMailSize then some mail else none

/-- The message of `Create_Query`. The name length of the client's message stands at
`lengthAt`, the name is copied from offset 2. -/
def nameQuery (memory : Buffer) (type : UInt8) (lengthAt : ℕ) (id : BitVec 32) (inData : Buffer) :
    Option Mail :=
  let nameLength := inData lengthAt
  let outData := memory.store 0 type
  let outData := outData.store 5 nameLength
  let outData := strncpy outData 6 (inData.advance 2) nameLength.toNat
  send ⟨compressInt id outData 1, 5 + 1 + nameLength.toNat⟩

def lockNameQuery (memory : Buffer) (id : BitVec 32) (inData : Buffer) : Option Mail :=
  nameQuery memory DO_YOU_HAVE_LOCK_NAME 1 id inData

def cvNameQuery (memory : Buffer) (id : BitVec 32) (inData : Buffer) : Option Mail :=
  nameQuery memory DO_YOU_HAVE_CV_NAME 1 id inData

def mvNameQuery (memory : Buffer) (id : BitVec 32) (inData : Buffer) : Option Mail :=
  nameQuery memory DO_YOU_HAVE_MV_NAME 9 id inData

/-- What box 1 sends for a create that it cannot resolve itself. -/
def createQuery (memory : Buffer) (id : BitVec 32) (inData : Buffer) : Option Mail :=
  if inData 0 = CREATE_LOCK then lockNameQuery memory id inData
  else if inData 0 = CREATE_CV then cvNameQuery memory id inData
  else if inData 0 = CREATE_MV then mvNameQuery memory id inData
  else none

/-- The name in DO_YOU_HAVE_LOCK_NAME, DO_YOU_HAVE_CV_NAME and DO_YOU_HAVE_MV_NAME. -/
def queriedName (inData : Buffer) : Option Name := nameAt inData 5

/-- The name under which the object of a stored create is made. -/
def createdName (data : Buffer) : Option Name :=
  if data 0 = CREATE_LOCK ∨ data 0 = CREATE_CV then nameAt data 1
  else if data 0 = CREATE_MV then nameAt data 9
  else none

/-- The bytes of CREATE_MV from offset 2 to the name length. -/
def fieldBytes (numArrayEntries initialValue : BitVec 32) : List UInt8 :=
  [1, 2, 3].map (intByte numArrayEntries) ++ [0, 1, 2, 3].map (intByte initialValue)

/-- The creates whose query carries their name. -/
def ClientCall.QueriedRight : ClientCall → Prop
  | .createLock name => 6 + name.length ≤ maxMailSize
  | .createCondition name => 6 + name.length ≤ maxMailSize
  | .createMV name numArrayEntries initialValue =>
    cString name ++ [0] <+: fieldBytes numArrayEntries initialValue
  | _ => True

theorem send_eq_some {mail sent : Mail} :
    send mail = some sent ↔ mail.length ≤ maxMailSize ∧ mail = sent := by
  simp [send]

/-- The other server reads as many bytes from offset 2 of the client's message as the
name is long. -/
theorem nameQuery_received {memory inData messageData : Buffer} {type : UInt8} {lengthAt : ℕ}
    {id : BitVec 32} {query : Mail} (hlen : (inData lengthAt).toNat < 128)
    (hq : nameQuery memory type lengthAt id inData = some query)
    (h : Delivered query messageData) :
    queriedName messageData =
      some (cString ((inData.advance 2).bytes (inData lengthAt).toNat)) := by
  obtain ⟨-, rfl⟩ := send_eq_some.mp hq
  have hbehind : ∀ i, 5 ≤ i → i < 6 + (inData lengthAt).toNat → messageData i =
      strncpy ((memory.store 0 type).store 5 (inData lengthAt)) 6 (inData.advance 2)
        (inData lengthAt).toNat i := fun i hi hlt =>
    (h i (by simp only []; omega)).trans (compressInt_outside (.inr (by omega)))
  refine nameAt_strncpy hlen ?_ fun i hi hlt => hbehind i (by omega) (by omega)
  rw [hbehind 5 (by omega) (by omega), strncpy_outside (.inl (by omega)), Buffer.store_self,
    UInt8.ofNat_toNat]

theorem toNat_of_length {b : UInt8} {n : ℕ} (hn : n < 128) (h : b = UInt8.ofNat n) : b.toNat = n := by
  rw [h, UInt8.toNat_ofNat']
  omega

/-- The query is sent and carries the name if it fits and the bytes from offset 2 are
the name. -/
theorem nameQuery_faithful_iff {memory inData : Buffer} {type : UInt8} {lengthAt : ℕ}
    {id : BitVec 32} {name : List UInt8} (hlen : name.length < 128)
    (hlength : inData lengthAt = UInt8.ofNat name.length) :
    (∃ query, nameQuery memory type lengthAt id inData = some query ∧ ∀ messageData,
      Delivered query messageData → queriedName messageData = some (cString name)) ↔
      6 + name.length ≤ maxMailSize ∧
        cString ((inData.advance 2).bytes name.length) = cString name := by
  have hnat := toNat_of_length hlen hlength
  have hread : ∀ {query messageData}, nameQuery memory type lengthAt id inData = some query →
      Delivered query messageData →
      queriedName messageData = some (cString ((inData.advance 2).bytes name.length)) :=
    fun hq h => hnat ▸ nameQuery_received (by omega) hq h
  constructor
  · rintro ⟨query, hq, hname⟩
    have hself : Delivered query query.data := fun _ _ => rfl
    refine ⟨?_, ?_⟩
    · obtain ⟨hfit, -⟩ := send_eq_some.mp hq
      simpa [hnat] using hfit
    · exact Option.some.inj ((hread hq hself).symm.trans (hname _ hself))
  · rintro ⟨hfit, hname⟩
    exact ⟨_, send_eq_some.mpr ⟨by simpa [hnat] using hfit, rfl⟩, fun _ h => by
      rw [hread (send_eq_some.mpr ⟨by simpa [hnat] using hfit, rfl⟩) h, hname]⟩

theorem zero_not_mem_cString (name : List UInt8) : 0 ∉ cString name := fun h => by
  simpa using List.mem_takeWhile_imp h

theorem cString_append_zero {name : List UInt8} (h : 0 ∉ name) : cString (name ++ [0]) = name := by
  have hall : ∀ x ∈ name, x ≠ 0 := fun x hx h0 => h (h0 ▸ hx)
  unfold cString
  rw [List.takeWhile_append_of_pos (by simpa using hall)]
  simp

theorem cString_length_lt {name : List UInt8} (h : 0 ∈ name) :
    (cString name).length < name.length := by
  have hstart : cString name <+: name := List.takeWhile_prefix _
  refine lt_of_le_of_ne hstart.length_le fun heq => zero_not_mem_cString name ?_
  rwa [hstart.eq_of_length heq]

/-- The bytes of a CREATE_MV behind offset 2: the fields, the length, the name. -/
theorem createMVMail_bytes {memory inData : Buffer} {name : List UInt8}
    {numArrayEntries initialValue : BitVec 32} (hzero : 0 ∈ name)
    (hlen : 10 + name.length ≤ maxMailSize)
    (h : Delivered (createMVMail memory name numArrayEntries initialValue) inData) :
    (inData.advance 2).bytes 7 = fieldBytes numArrayEntries initialValue ∧
      inData 9 = UInt8.ofNat name.length ∧
      (inData.advance 10).bytes ((cString name).length + 1) = cString name ++ [0] := by
  have hmax : maxMailSize = 40 := rfl
  have hdata : ∀ i < 10 + name.length, inData i = putName memory
      (intsAt (memory.store 0 CREATE_MV) 1 [numArrayEntries, initialValue]) 9 name i := h
  have hlength : inData 9 = UInt8.ofNat name.length :=
    (hdata 9 (by omega)).trans (putName_length _ _ _ _)
  have hnat := toNat_of_length (by omega) hlength
  refine ⟨?_, hlength, ?_⟩
  · have hints : ∀ i < 9, inData i =
        intsAt (memory.store 0 CREATE_MV) 1 [numArrayEntries, initialValue] i := fun i hi =>
      (hdata i (by omega)).trans (putName_before name hi)
    have hnum : ∀ k < 4, inData (1 + k) = intByte numArrayEntries k := fun k hk =>
      (hints _ (by omega)).trans (intsAt_inside (n := 0) rfl hk)
    have hval : ∀ k < 4, inData (5 + k) = intByte initialValue k := fun k hk =>
      (hints _ (by omega)).trans
        (intsAt_inside rfl hk : intsAt _ 1 [numArrayEntries, initialValue] (1 + 4 * 1 + k) = _)
    simp [Buffer.bytes, fieldBytes, List.range_succ, ← hnum, ← hval]
  · have hname := (createMVMail_received hlen h).2.2.2
    rw [nameAt_eq (by omega), hnat, Option.some.injEq, cString_eq] at hname
    exact (zeroTerminated_bytes_iff (zero_not_mem_cString name) (cString_length_lt hzero)).mp hname

/-- The bytes from offset 2 read as the name only if the name ends within the fields. -/
theorem createMVMail_misread_iff {memory inData : Buffer} {name : List UInt8}
    {numArrayEntries initialValue : BitVec 32} (hzero : 0 ∈ name)
    (hlen : 10 + name.length ≤ maxMailSize)
    (h : Delivered (createMVMail memory name numArrayEntries initialValue) inData) :
    cString ((inData.advance 2).bytes name.length) = cString name ↔
      cString name ++ [0] <+: fieldBytes numArrayEntries initialValue := by
  obtain ⟨hfields, hlength, hname⟩ := createMVMail_bytes hzero hlen h
  have hshort := cString_length_lt hzero
  have hnz := zero_not_mem_cString name
  have hiff := zeroTerminated_bytes_iff (b := inData.advance 2) hnz hshort
  rw [← cString_eq] at hiff
  rw [hiff, ← hfields]
  generalize hc : cString name = c at *
  constructor
  · intro hread
    have hend : inData (2 + c.length) = 0 := by
      have := congrArg (·[c.length]?) hread
      simpa [Buffer.bytes] using this
    by_cases hk : c.length + 1 ≤ 7
    · rw [← hread, ← Buffer.bytes_take _ hk]
      exact List.take_prefix _ _
    · -- the zero would be the length or a character of the name
      exfalso
      rcases Nat.lt_or_ge c.length 8 with hseven | height
      · rw [show 2 + c.length = 9 by omega, hlength] at hend
        have := congrArg UInt8.toNat hend
        rw [UInt8.toNat_ofNat'] at this
        have hmax : maxMailSize = 40 := rfl
        simp at this
        omega
      · have hchar : inData (2 + c.length) ∈ c := by
          have hat := congrArg (·[c.length - 8]?) hname
          rw [show 2 + c.length = 10 + (c.length - 8) by omega]
          rw [List.getElem?_append_left (by omega)] at hat
          refine List.mem_of_getElem? (hat.symm.trans ?_)
          simp [Buffer.bytes]
        exact hnz (hend ▸ hchar)
  · intro hstart
    have hk : c.length + 1 ≤ 7 := by simpa using hstart.length_le
    rw [← Buffer.bytes_take _ hk]
    simpa using (List.prefix_iff_eq_take.mp hstart).symm

/-- In the other two formats the name stands where the query takes it from. -/
theorem createMail_bytes {memory inData : Buffer} {type : UInt8} {name : List UInt8}
    (hlen : 2 + name.length ≤ maxMailSize)
    (h : Delivered (createMail memory type name) inData) :
    inData 1 = UInt8.ofNat name.length ∧
      cString ((inData.advance 2).bytes name.length) = cString name := by
  have hmax : maxMailSize = 40 := rfl
  have hdata : ∀ i < 2 + name.length, inData i =
      putName memory (memory.store 0 type) 1 name i := h
  have hlength : inData 1 = UInt8.ofNat name.length :=
    (hdata 1 (by omega)).trans (putName_length _ _ _ _)
  have hnat := toNat_of_length (by omega) hlength
  have hname := (createMail_received hlen h).2
  rw [nameAt_eq (by omega), hnat] at hname
  exact ⟨hlength, Option.some.inj hname⟩

/-- A client's create at box 1: the name is as long as the byte at `lengthAt` says, and
the object is made under it. -/
theorem create_received {memory inData : Buffer} {call : ClientCall} {name : List UInt8} {off : ℕ}
    {mail : Mail} (hfits : call.Fits) (hname : call.name? = some (name, off))
    (hmail : mail ∈ stub memory call) (hin : Delivered mail inData) :
    createdName inData = some (cString name) := by
  obtain ⟨-, hlen⟩ := hfits name off hname
  cases call with
  | createLock _ | createCondition _ =>
    obtain ⟨rfl, rfl⟩ := Prod.mk.inj (Option.some.inj hname)
    obtain rfl := List.mem_singleton.mp hmail
    obtain ⟨htype, hread⟩ := createMail_received hlen hin
    simp [createdName, htype, hread]
  | createMV _ _ _ =>
    obtain ⟨rfl, rfl⟩ := Prod.mk.inj (Option.some.inj hname)
    obtain rfl := List.mem_singleton.mp hmail
    obtain ⟨htype, -, -, hread⟩ := createMVMail_received hlen hin
    simp [createdName, htype, hread, CREATE_LOCK, CREATE_CV, CREATE_MV]
  | _ => cases hname

/-- Query fidelity, for every create that a client can send: the query that box 1 makes of
it reaches the other servers with the name under which the object will be made exactly if
the query fits the message and, for a monitor variable, the name ends within the fields
that its query reads. -/
theorem query_fidelity_iff (memory : Buffer) {outMemory inData : Buffer} {call : ClientCall}
    {name : List UInt8} {off : ℕ} {mail : Mail} (id : BitVec 32) (hfits : call.Fits)
    (hname : call.name? = some (name, off)) (hmail : mail ∈ stub memory call)
    (hin : Delivered mail inData) :
    (∃ query, createQuery outMemory id inData = some query ∧ ∀ messageData,
      Delivered query messageData → queriedName messageData = some (cString name) ∧
        queriedName messageData = createdName inData) ↔ call.QueriedRight := by
  have hmax : maxMailSize = 40 := rfl
  have hcreated := create_received hfits hname hmail hin
  simp only [hcreated, and_self]
  obtain ⟨hzero, hlen⟩ := hfits name off hname
  cases call with
  | createLock _ | createCondition _ =>
    obtain ⟨rfl, rfl⟩ := Prod.mk.inj (Option.some.inj hname)
    obtain rfl := List.mem_singleton.mp hmail
    obtain ⟨htype, -⟩ := createMail_received hlen hin
    obtain ⟨hlength, hquery⟩ := createMail_bytes hlen hin
    simp only [createQuery, htype, lockNameQuery, cvNameQuery, ClientCall.QueriedRight]
    exact (nameQuery_faithful_iff (by omega) hlength).trans (and_iff_left hquery)
  | createMV _ _ _ =>
    obtain ⟨rfl, rfl⟩ := Prod.mk.inj (Option.some.inj hname)
    obtain rfl := List.mem_singleton.mp hmail
    obtain ⟨htype, -, -, -⟩ := createMVMail_received hlen hin
    obtain ⟨-, hlength, -⟩ := createMVMail_bytes hzero hlen hin
    simp only [createQuery, htype, mvNameQuery, ClientCall.QueriedRight]
    rw [← createMVMail_misread_iff hzero hlen hin]
    exact (nameQuery_faithful_iff (by omega) hlength).trans (and_iff_right (by omega))
  | _ => cases hname

/-! The messages between the servers, `BoxOne.request`, carry the names of these bytes. -/

theorem compressInt_toInt (x : BitVec 32) :
    Network.compressInt x.toInt = (List.range 4).map (intByte x) := by
  have hbyte : ∀ k : ℕ, k < 4 →
      UInt8.ofNat ((x.toInt >>> (24 - 8 * k)) % 256).toNat = intByte x k := by
    intro k hk
    apply UInt8.toNat_inj.mp
    have hx : x.toNat < 2 ^ 32 := x.isLt
    rw [intByte, toChar_toNat x (by omega), UInt8.toNat_ofNat', Int.shiftRight_eq_div_pow,
      BitVec.toInt_eq_toNat_cond]
    interval_cases k <;> split <;> omega
  have h3 := hbyte 3 (by omega)
  simp only [Nat.reduceMul, Nat.sub_self] at h3
  simp [Network.compressInt, List.range_succ, ← hbyte 0, ← hbyte 1, ← hbyte 2, ← h3]

theorem misread_eq_queriedMVName {memory inData : Buffer} {name : Name}
    {numArrayEntries initialValue : BitVec 32} (hname : 0 ∉ name)
    (hlen : 10 + (name ++ [0]).length ≤ maxMailSize)
    (h : Delivered (createMVMail memory (name ++ [0]) numArrayEntries initialValue) inData) :
    cString ((inData.advance 2).bytes (name.length + 1)) =
      queriedMVName numArrayEntries.toInt initialValue.toInt name := by
  obtain ⟨hfields, hlength, hread⟩ := createMVMail_bytes (by simp) hlen h
  rw [cString_append_zero hname, Buffer.bytes_add] at hread
  have hchars : (inData.advance 10).bytes name.length = name := List.append_inj_left hread (by simp)
  have hbytes : (inData.advance 2).bytes (7 + (1 + name.length)) =
      fieldBytes numArrayEntries initialValue ++ ([UInt8.ofNat (name.length + 1)] ++ name) := by
    have hbehind : ((inData.advance 2).advance 7).advance 1 = inData.advance 10 := by
      funext i
      simp only [Buffer.advance_apply]
      congr 1
      omega
    rw [Buffer.bytes_add, Buffer.bytes_add, hfields, hbehind, hchars]
    simpa [Buffer.bytes] using hlength
  rw [← Buffer.bytes_take (inData.advance 2) (show name.length + 1 ≤ 7 + (1 + name.length) by omega),
    hbytes]
  simp [queriedMVName, compressInt_toInt, fieldBytes, List.range_succ]

theorem create_query_name {cfg : Config} {s : Server} {p q : Packet} {type type' : StructureType}
    {name queried name' : Name} {k : ℕ} (hq : q ∈ (BoxOne.create cfg s p type name queried).2)
    (hd : q.data = .doYouHaveName type' k name') : name' = queried := by
  unfold BoxOne.create at hq
  cases hf : BoxOne.checkIfExists s type name with
  | some i =>
    simp only [hf, List.mem_singleton] at hq
    subst hq
    simp [BoxOne.respondOnceToClient] at hd
  | none =>
    cases hp : s.pendingCreates.find? fun pc => pc.isAMatch name type with
    | some pc => simp [hf, hp] at hq
    | none =>
      simp only [hf, hp, BoxOne.toAllServers, List.mem_map] at hq
      obtain ⟨_, _, rfl⟩ := hq
      simp only [Message.doYouHaveName.injEq] at hd
      exact hd.2.2.symm

/-- A query of the modelled box 1 carries the name that the other server reads from the bytes. -/
theorem queriedName_as_modelled {memory outMemory inData messageData : Buffer} {call : ClientCall}
    {name name' : Name} {off k : ℕ} {mail query : Mail} {id : BitVec 32} {cfg : Config} {s : Server}
    {p q : Packet} {r : Request} {type : StructureType} (hfits : call.Fits) (hname : 0 ∉ name)
    (hcall : call.name? = some (name ++ [0], off)) (hmail : mail ∈ stub memory call)
    (hin : Delivered mail inData) (hquery : createQuery outMemory id inData = some query)
    (hmd : Delivered query messageData) (hr : r ∈ call.requests)
    (hq : q ∈ (BoxOne.request cfg s p r).2) (hd : q.data = .doYouHaveName type k name') :
    queriedName messageData = some name' := by
  have hmax : maxMailSize = 40 := rfl
  have hlen := (hfits _ off hcall).2
  have hc := cString_append_zero hname
  have hlen' : (name ++ [0]).length < 128 := by omega
  cases call with
  | createLock _ | createCondition _ =>
    obtain ⟨rfl, rfl⟩ := Prod.mk.inj (Option.some.inj hcall)
    obtain rfl := List.mem_singleton.mp hmail
    obtain rfl := List.mem_singleton.mp hr
    obtain ⟨htype, -⟩ := createMail_received hlen hin
    obtain ⟨hlength, hread⟩ := createMail_bytes hlen hin
    obtain rfl := create_query_name hq hd
    have hnat := toNat_of_length hlen' hlength
    simp only [createQuery, htype, lockNameQuery, cvNameQuery] at hquery
    rw [nameQuery_received (by omega) hquery hmd, hnat, hread]
  | createMV _ _ _ =>
    obtain ⟨rfl, rfl⟩ := Prod.mk.inj (Option.some.inj hcall)
    obtain rfl := List.mem_singleton.mp hmail
    obtain rfl := List.mem_singleton.mp hr
    obtain ⟨htype, -⟩ := createMVMail_received hlen hin
    obtain ⟨-, hlength, -⟩ := createMVMail_bytes (by simp) hlen hin
    obtain rfl := create_query_name hq hd
    have hnat := toNat_of_length hlen' hlength
    rw [List.length_append, List.length_singleton] at hnat hlen'
    simp only [createQuery, htype, mvNameQuery] at hquery
    rw [nameQuery_received (by omega) hquery hmd, hnat, misread_eq_queriedMVName hname hlen hin, hc]
  | _ => cases hcall

/-- CREATE_MV of "m" with one entry 0: the high bytes of the count end the queried name. -/
theorem query_loses_name :
    ∃ query, createQuery (fun _ => 0) 1#32 (createMVMail (fun _ => 0) [109, 0] 1#32 0#32).data =
        some query ∧ queriedName query.data = some [] ∧
      createdName (createMVMail (fun _ => 0) [109, 0] 1#32 0#32).data = some [109] := by
  refine ⟨_, rfl, ?_, ?_⟩ <;> decide +kernel

theorem query_fidelity_iff_lock :
    ∃ query, createQuery (fun _ => 0) 1#32 (createMail (fun _ => 0) CREATE_LOCK [97, 0]).data =
        some query ∧ ∀ messageData, Delivered query messageData →
      queriedName messageData = some [97] ∧ queriedName messageData =
        createdName (createMail (fun _ => 0) CREATE_LOCK [97, 0]).data := by
  have hfits : (ClientCall.createLock [97, 0]).Fits := by
    rintro name off ⟨rfl, rfl⟩
    decide
  exact (query_fidelity_iff (fun _ => 0) 1#32 hfits rfl (List.mem_singleton_self _)
    fun _ _ => rfl).mpr (show 6 + 2 ≤ 40 by decide)

end Nachos.Network.Wire
