import Nachos.ServerConditionEffects
import Nachos.ServerNetwork
import Nachos.ServerQueries

/-! The requests that wait for the machine of their lock, over runs of the network. Queries and
answers name the client and the lock only, so each is attributed to the request that it was sent
for on the side. -/
namespace Nachos.Network
open BoxOne Executions

variable {S : Setting} {cfg : Config} {s t : Server} {p q : Packet} {out : List Packet}
  {c d : CVLockTracker} {o : Outcome}

def Message.isLockQuery : Message → Bool
  | .doesClientHaveLock .. | .cvLockTrackerResponse .. => true
  | _ => false

/-- An answer about this client and lock is taken to be for the entry. -/
def CVLockTracker.isFor (c : CVLockTracker) (clientMID clientMBX lockNum : ℤ) : Bool :=
  c.clientMachineID = clientMID && c.clientMailbox = clientMBX && c.lockNum = lockNum

/-- The entry of a SIGNAL, WAIT or BROADCAST whose lock lives on another server than the one that
received it. -/
def Packet.tracked (p : Packet) : Option CVLockTracker :=
  match p.data with
  | .request (.cvOperation operation cvNum lockNum) =>
    if p.toMailbox = 0 ∧ ownerOf lockNum ≠ p.toMachine then
      some ⟨p.fromMachine, p.fromMailbox, cvNum, lockNum, operation⟩
    else none
  | _ => none

def Action.tracked : Action → Option CVLockTracker
  | .arrive _ => none
  | .handle p => p.tracked

/-- The server whose list a query or an answer is about. -/
def Packet.asker (p : Packet) : ℤ :=
  match p.data with
  | .doesClientHaveLock .. => p.fromMachine
  | _ => p.toMachine

structure Attributed where
  system : System
  causes : Multiset (Packet × CVLockTracker)

def Attributed.initial : Attributed := ⟨.initial, 0⟩

/-- The queries and answers among the messages sent for a request. -/
def attributed (S : Setting) (c : Option CVLockTracker) (out : List Packet) :
    Multiset (Packet × CVLockTracker) :=
  c.elim 0 fun c => ((out.filter fun q => S.Served q).filter fun q => q.data.isLockQuery).map (·, c)

/-- A step of the network. An answer is sent for the request of its query. -/
inductive Attributes (S : Setting) (u : Attributed) :
    Action × List Packet × Option CVLockTracker → Attributed → Prop
  | other {a : Action} {g : System} {out : List Packet} (h : network S u.system a = .ok (g, out))
      (ha : ∀ p, a = .handle p → p.data.isLockQuery = false) :
      Attributes S u (a, out, a.tracked) ⟨g, u.causes + attributed S a.tracked out⟩
  | lockQuery {p : Packet} {c : CVLockTracker} {g : System} {out : List Packet}
      (h : network S u.system (.handle p) = .ok (g, out)) (hp : p.data.isLockQuery = true)
      (hc : (p, c) ∈ u.causes) :
      Attributes S u (.handle p, out, some c)
        ⟨g, u.causes.erase (p, c) + attributed S (some c) out⟩

abbrev AttributedStep := Transition Attributed (Action × List Packet × Option CVLockTracker)

/-- The entry that the step puts on the list of server `i`. -/
def pushedAt (i : ℤ) (x : AttributedStep) : Multiset CVLockTracker :=
  match x.event.1 with
  | .handle p => if p.toMachine = i then p.tracked.toList else 0
  | .arrive _ => 0

/-- The request whose answer server `i` handles in the step. -/
def answeredAt (i : ℤ) (x : AttributedStep) : Multiset CVLockTracker :=
  match x.event.1 with
  | .handle p =>
    match p.data with
    | .cvLockTrackerResponse .. => if p.toMachine = i then x.event.2.2.toList else 0
    | _ => 0
  | .arrive _ => 0

/-- An answer removes the entry of the request that it was sent for, and has the operation and
the condition of that request executed. -/
def ExecutesRequest (S : Setting) (x : AttributedStep) : Prop :=
  ∀ p clientMID clientMBX lockNum held, x.event.1 = .handle p →
    p.data = .cvLockTrackerResponse clientMID clientMBX lockNum held →
    ∃ c s', x.event.2.2 = some c ∧
      c ∈ (x.before.system.server p.toMachine).cvLockTrackerList ∧
      s' = { x.before.system.server p.toMachine with
        cvLockTrackerList := (x.before.system.server p.toMachine).cvLockTrackerList.erase c } ∧
      BoxZero.cvLockTrackerResponse (S.config p.toMachine) (x.before.system.server p.toMachine) p
          clientMID clientMBX lockNum held =
        if held then BoxZero.trackedOperation (S.config p.toMachine) s' p c.clientMachineID
          c.clientMailbox c.lockNum c.cvNum c.messageType
        else .ok ⟨s'.pushResponse ⟨c.clientMachineID, c.clientMailbox, -1⟩, [], true⟩

structure TracksRequests (S : Setting) (tr : List AttributedStep) (u : Attributed) : Prop where
  executes : ∀ x ∈ tr, ExecutesRequest S x
  once : ∀ i, (tr.map (pushedAt i)).sum =
    (tr.map (answeredAt i)).sum + ((u.system.server i).cvLockTrackerList : Multiset CVLockTracker)
  done : u.system.net = [] → ∀ i, (u.system.server i).cvLockTrackerList = []

/-- A lock is there when its server is asked for its owner. A request names a lock of a server,
and no other operation of its client with this lock waits there for an answer. -/
structure LockKnown (S : Setting) (g : System) (a : Action) : Prop where
  live : ∀ p clientMID clientMBX lockNum, a = .handle p →
    p.data = .doesClientHaveLock clientMID clientMBX lockNum →
    (g.server p.toMachine).lock? (decodeIndex (S.config p.toMachine) lockNum) ≠ none
  server : ∀ p c, a = .handle p → p.tracked = some c → S.IsServer (ownerOf c.lockNum)
  alone : ∀ p c, a = .handle p → p.tracked = some c →
    ∀ d ∈ (g.server p.toMachine).cvLockTrackerList,
      d.isFor c.clientMachineID c.clientMailbox c.lockNum = true → d = c

/-! One message. -/

/-- The stored messages are requests. -/
structure Server.StoresRequests (s : Server) : Prop where
  queries : ∀ x ∈ s.records, ∃ r, x.1.data = .request r
  creates : WaitingCreates s.pendingCreates

/-- What the server that handles `p` does to its list, and which queries and answers it sends. -/
inductive LockQueryMove (S : Setting) (s : Server) (p : Packet) : Server → List Packet → Prop
  | asked {c : CVLockTracker} {t : Server} (hc : p.tracked = some c)
      (ht : t.cvLockTrackerList = s.cvLockTrackerList ++ [c]) :
      LockQueryMove S s p t [⟨ownerOf c.lockNum, 0, p.toMachine, 0,
        .doesClientHaveLock c.clientMachineID c.clientMailbox c.lockNum⟩]
  | answered {clientMID clientMBX lockNum : ℤ} {e : ServerLockEntry}
      (hp : p.data = .doesClientHaveLock clientMID clientMBX lockNum)
      (he : s.lock? (decodeIndex (S.config p.toMachine) lockNum) = some e) :
      LockQueryMove S s p s [⟨p.fromMachine, p.fromMailbox, p.toMachine, 0,
        .cvLockTrackerResponse clientMID clientMBX lockNum
          (e.lock.isHeldByRequester ⟨clientMID, clientMBX⟩)⟩]
  | ignored {clientMID clientMBX lockNum : ℤ}
      (hp : p.data = .doesClientHaveLock clientMID clientMBX lockNum)
      (he : s.lock? (decodeIndex (S.config p.toMachine) lockNum) = none) :
      LockQueryMove S s p s []
  | response {clientMID clientMBX lockNum : ℤ} {held : Bool} {t : Server} {out : List Packet}
      (hb : p.toMailbox = 0) (hp : p.data = .cvLockTrackerResponse clientMID clientMBX lockNum held)
      (ht : t.cvLockTrackerList = s.cvLockTrackerList.eraseP (·.isFor clientMID clientMBX lockNum))
      (hout : ∀ q ∈ out, q.data.isLockQuery = false) : LockQueryMove S s p t out
  | other {t : Server} {out : List Packet} (hp : p.data.isLockQuery = false) (hc : p.tracked = none)
      (ht : t.cvLockTrackerList = s.cvLockTrackerList)
      (hout : ∀ q ∈ out, q.data.isLockQuery = false) : LockQueryMove S s p t out

theorem request_sent {r : Request} (h : BoxZero.request cfg s p r = .ok o)
    (hr : ∀ op cv l, r ≠ .cvOperation op cv l) : ∀ q ∈ o.sent, q.data = p.data := by
  have hpass : ∀ q ∈ (BoxZero.toBoxOne cfg s p).sent, q.data = p.data := by
    intro q hq
    obtain rfl := List.mem_singleton.mp hq
    rfl
  cases hk : routedBy r with
  | some k =>
    rcases request_routed hk h with ⟨-, rfl⟩ | ⟨-, hs, -⟩
    · exact hpass
    · simp [hs]
  | none =>
    cases r with
    | cvOperation op cv l => exact absurd rfl (hr op cv l)
    | createLock name =>
      obtain rfl := Except.ok.inj h
      unfold BoxZero.createLock
      split
      · simp [BoxZero.answer]
      · split_ifs
        · simp [BoxZero.answer]
        · exact hpass
    | createCV name =>
      obtain rfl := Except.ok.inj h
      unfold BoxZero.createCV
      split
      · simp [BoxZero.answer]
      · split_ifs
        · simp [BoxZero.answer]
        · exact hpass
    | createMV n v name =>
      simp only [BoxZero.request, BoxZero.createMV] at h
      split at h
      · obtain rfl := Except.ok.inj h
        simp [BoxZero.answer]
      · split_ifs at h
        · obtain ⟨_, -, h⟩ := bind_eq_ok.mp h
          obtain rfl := Except.ok.inj h
          simp [BoxZero.answer]
        · obtain rfl := Except.ok.inj h
          exact hpass
    | _ => cases hk

theorem trackedOperation_sent {clientMID clientMBX l cv : ℤ} {operation : CVOperation}
    (h : BoxZero.trackedOperation cfg s p clientMID clientMBX l cv operation = .ok o) :
    ∀ q ∈ o.sent, q.data.isLockQuery = false := by
  unfold BoxZero.trackedOperation at h
  split_ifs at h
  · cases operation with
    | signal =>
      obtain rfl := Except.ok.inj h
      simp
    | wait | broadcast =>
      obtain ⟨_, -, h⟩ := bind_eq_ok.mp h
      obtain rfl := Except.ok.inj h
      simp [sendMessageWithData, Message.isLockQuery]
  · obtain rfl := Except.ok.inj h
    simp [sendMessageWithData, Message.isLockQuery]

/-- An answer removes the first entry that it is taken to be for. -/
theorem cvLockTrackerResponse_eq {clientMID clientMBX lockNum : ℤ} {held : Bool} :
    BoxZero.cvLockTrackerResponse cfg s p clientMID clientMBX lockNum held =
      if held then
        match s.cvLockTrackerList.find? (·.isFor clientMID clientMBX lockNum) with
        | none => .error .uninitialised
        | some c => BoxZero.trackedOperation cfg { s with
            cvLockTrackerList := s.cvLockTrackerList.eraseP (·.isFor clientMID clientMBX lockNum) }
            p clientMID clientMBX lockNum c.cvNum c.messageType
      else .ok ⟨{ s with
        cvLockTrackerList := s.cvLockTrackerList.eraseP (·.isFor clientMID clientMBX lockNum) }
          |>.pushResponse ⟨clientMID, clientMBX, -1⟩, [], true⟩ := by
  have hfun : (fun t : CVLockTracker => decide (t.clientMachineID = clientMID) &&
      decide (t.clientMailbox = clientMBX) && decide (t.lockNum = lockNum)) =
      (·.isFor clientMID clientMBX lockNum) := rfl
  simp only [BoxZero.cvLockTrackerResponse, hfun, List.eraseP_eq_eraseIdx]
  cases hf : s.cvLockTrackerList.findIdx? (·.isFor clientMID clientMBX lockNum) with
  | none =>
    have hnone : s.cvLockTrackerList.find? (·.isFor clientMID clientMBX lockNum) = none := by
      rw [List.find?_eq_none]
      intro c hc hm
      have := List.findIdx?_eq_none_iff.mp hf c hc
      simp [hm] at this
    cases held <;> simp [hnone]
  | some i =>
    obtain ⟨hlt, hm, hfirst⟩ := List.findIdx?_eq_some_iff_getElem.mp hf
    have hsome : s.cvLockTrackerList.find? (·.isFor clientMID clientMBX lockNum) =
        some s.cvLockTrackerList[i] := by
      rw [List.find?_eq_some_iff_getElem]
      exact ⟨hm, i, hlt, rfl, fun j hj => by simpa using hfirst j hj⟩
    cases held <;> simp [hsome, List.getElem?_eq_getElem hlt]

theorem flush_trackers {cfg : Config} (h : BoxZero.flush cfg o = (t, out)) :
    t.cvLockTrackerList = o.server.cvLockTrackerList ∧
      ∀ q ∈ out, q ∈ o.sent ∨ q.data.isLockQuery = false := by
  unfold BoxZero.flush at h
  split_ifs at h
  · obtain ⟨rfl, rfl⟩ := Prod.mk.inj h
    refine ⟨rfl, fun q hq => (List.mem_append.mp hq).imp id fun hq => ?_⟩
    obtain ⟨_, -, rfl⟩ := List.mem_map.mp hq
    rfl
  · obtain ⟨rfl, rfl⟩ := Prod.mk.inj h
    exact ⟨rfl, fun q hq => .inl hq⟩

theorem createPending_trackers {type : StructureType} {data : Message} {r : Server × ℤ}
    (h : createPending s type data = .ok r) : r.1.cvLockTrackerList = s.cvLockTrackerList := by
  unfold createPending at h
  split at h
  · obtain rfl := Except.ok.inj h
    rfl
  · obtain rfl := Except.ok.inj h
    rfl
  · unfold serverCreateMV at h
    dsimp only at h
    split_ifs at h <;> obtain rfl := Except.ok.inj h <;> rfl
  · cases h

theorem cvOperation_lockQueryMove {operation : CVOperation} {cv l : ℤ} (hb : p.toMailbox = 0)
    (hp : p.data = .request (.cvOperation operation cv l))
    (h : boxZero (S.config p.toMachine) s p = .ok (t, out)) : LockQueryMove S s p t out := by
  cases ho : BoxZero.handle (S.config p.toMachine) s p with
  | error f => simp [boxZero, ho, Except.map] at h
  | ok o =>
    have hflush : BoxZero.flush (S.config p.toMachine) o = (t, out) := by
      simpa only [boxZero, ho, Except.map, Except.ok.injEq] using h
    obtain ⟨htrack, hout⟩ := flush_trackers hflush
    simp only [BoxZero.handle, hp, BoxZero.request] at ho
    unfold BoxZero.cvOperation at ho
    dsimp only at ho
    generalize decide (decodeMachineIDFromLockNumber l < 0 ∨ decodeMachineIDFromLockNumber l >
      ((S.config p.toMachine).totalNumServers : ℤ)) = invalid at ho
    obtain ⟨u, hu, hlist⟩ : ∃ u, (if invalid = true then s.pushResponse p.response else s) = u ∧
        u.cvLockTrackerList = s.cvLockTrackerList := by
      cases invalid <;> exact ⟨_, rfl, rfl⟩
    rw [hu] at ho
    by_cases hown : decodeMachineIDFromLockNumber l = (S.config p.toMachine).myMachineID
    · have hc : p.tracked = none := by
        have hown : ownerOf l = p.toMachine := hown
        simp [Packet.tracked, hp, hown]
      have hquiet : o.server.cvLockTrackerList = s.cvLockTrackerList →
          (∀ q ∈ o.sent, q.data.isLockQuery = false) → LockQueryMove S s p t out := fun hs hq =>
        .other (by simp [hp, Message.isLockQuery]) hc (htrack.trans hs) fun q hmem =>
          (hout q hmem).elim (hq q) id
      rw [if_pos hown] at ho
      split at ho
      · split_ifs at ho <;> obtain rfl := Except.ok.inj ho <;> exact hquiet hlist (by simp)
      · split_ifs at ho
        · have hsent := (localOperation_updates ho).2
          exact hquiet ((localOperation_trackers ho).trans hlist) (by simp [hsent])
        · obtain rfl := Except.ok.inj ho
          refine hquiet hlist ?_
          simp [BoxZero.toBoxOne, sendMessageWithData, hp, Message.isLockQuery]
    · rw [if_neg hown] at ho
      obtain rfl := Except.ok.inj ho
      have hc : p.tracked = some ⟨p.fromMachine, p.fromMailbox, cv, l, operation⟩ := by
        have hown : ¬ ownerOf l = p.toMachine := hown
        simp [Packet.tracked, hp, hown, hb]
      obtain ⟨rfl, rfl⟩ := Prod.mk.inj hflush
      exact .asked hc (by simp [BoxZero.queryLockOwner, hlist])

theorem boxZero_lockQueryMove (hb : p.toMailbox = 0)
    (h : boxZero (S.config p.toMachine) s p = .ok (t, out)) : LockQueryMove S s p t out := by
  cases ho : BoxZero.handle (S.config p.toMachine) s p with
  | error f => simp [boxZero, ho, Except.map] at h
  | ok o =>
    have hflush : BoxZero.flush (S.config p.toMachine) o = (t, out) := by
      simpa only [boxZero, ho, Except.map, Except.ok.injEq] using h
    obtain ⟨htrack, hout⟩ := flush_trackers hflush
    cases hd : p.data with
    | request r =>
      simp only [BoxZero.handle, hd] at ho
      by_cases hr : ∀ op cv l, r ≠ .cvOperation op cv l
      · have hsame := (request_same (v := 0) ho hr).1
        refine .other (by simp [hd, Message.isLockQuery]) ?_ (htrack.trans hsame) fun q hq =>
          (hout q hq).elim (fun hq => ?_) id
        · cases r with
          | cvOperation op cv l => exact absurd rfl (hr op cv l)
          | _ => simp [Packet.tracked, hd]
        · rw [request_sent ho hr q hq, hd]
          rfl
      · push Not at hr
        obtain ⟨op, cv, l, rfl⟩ := hr
        exact cvOperation_lockQueryMove hb hd h
    | doesClientHaveLock clientMID clientMBX l =>
      simp only [BoxZero.handle, hd] at ho
      obtain rfl := Except.ok.inj ho
      cases he : s.lock? (decodeIndex (S.config p.toMachine) l) with
      | none =>
        simp only [BoxZero.doesClientHaveLock, he] at hflush
        obtain ⟨rfl, rfl⟩ := Prod.mk.inj hflush
        exact .ignored hd he
      | some e =>
        simp only [BoxZero.doesClientHaveLock, he] at hflush
        obtain ⟨rfl, rfl⟩ := Prod.mk.inj hflush
        exact .answered hd he
    | cvLockTrackerResponse clientMID clientMBX l held =>
      simp only [BoxZero.handle, hd, cvLockTrackerResponse_eq] at ho
      have hresponse : o.server.cvLockTrackerList =
          s.cvLockTrackerList.eraseP (·.isFor clientMID clientMBX l) →
          (∀ q ∈ o.sent, q.data.isLockQuery = false) → LockQueryMove S s p t out := fun hs hq =>
        .response hb hd (htrack.trans hs) fun q hmem => (hout q hmem).elim (hq q) id
      split_ifs at ho
      · split at ho
        · cases ho
        · exact hresponse (trackedOperation_trackers ho) (trackedOperation_sent ho)
      · obtain rfl := Except.ok.inj ho
        exact hresponse rfl (by simp)
    | _ =>
      simp only [BoxZero.handle, hd] at ho
      obtain rfl := Except.ok.inj ho
      refine .other (by simp [hd, Message.isLockQuery]) (by simp [Packet.tracked, hd]) htrack
        fun q hq => (hout q hq).elim (by simp) id

/-- Mailbox 1 leaves the list alone. -/
theorem boxOne_lockQueryMove (hs : s.StoresRequests) (hb : p.toMailbox ≠ 0)
    (h : boxOne (S.config p.toMachine) s p = .ok (t, out)) : LockQueryMove S s p t out := by
  have hc : p.tracked = none := by
    unfold Packet.tracked
    split
    · exact if_neg fun hh => hb hh.1
    · rfl
  have hother : t.cvLockTrackerList = s.cvLockTrackerList →
      (∀ q ∈ out, q.data.isLockQuery = false) → p.data.isLockQuery = false →
      LockQueryMove S s p t out := fun ht hout hp => .other hp hc ht hout
  have hcreate : ∀ type name queried,
      (create (S.config p.toMachine) s p type name queried).1.cvLockTrackerList =
        s.cvLockTrackerList ∧
      ∀ q ∈ (create (S.config p.toMachine) s p type name queried).2,
        q.data.isLockQuery = false := by
    intro type name queried
    unfold create
    split
    · simp [respondOnceToClient, Message.isLockQuery]
    · split
      · exact ⟨rfl, by simp⟩
      · exact ⟨rfl, by simp [toAllServers, Message.isLockQuery]⟩
  cases hd : p.data with
  | request r =>
    simp only [boxOne, hd] at h
    obtain ⟨rfl, rfl⟩ := Prod.mk.inj (Except.ok.inj h)
    have hp : p.data.isLockQuery = false := by simp [hd, Message.isLockQuery]
    cases r with
    | createLock | createCV | createMV => exact hother (hcreate _ _ _).1 (hcreate _ _ _).2 hp
    | _ =>
      refine hother rfl ?_ hp
      simp [queryAllServers, toAllServers, Message.isLockQuery]
  | doYouHave type id index =>
    simp only [boxOne, hd] at h
    obtain ⟨rfl, rfl⟩ := Prod.mk.inj (Except.ok.inj h)
    refine hother rfl ?_ (by simp [hd, Message.isLockQuery])
    simp only [doYouHave, List.mem_singleton, forall_eq, respondOnceToServer]
    split_ifs <;> rfl
  | haveObject type id =>
    simp only [boxOne, hd] at h
    have hp : p.data.isLockQuery = false := by simp [hd, Message.isLockQuery]
    unfold haveObject at h
    split at h
    · obtain ⟨rfl, rfl⟩ := Prod.mk.inj (Except.ok.inj h)
      exact .other hp hc rfl (by simp)
    · rename_i qs hqs
      obtain ⟨rfl, rfl⟩ := Prod.mk.inj (Except.ok.inj h)
      refine .other hp hc rfl ?_
      obtain ⟨r, hr : qs.packet.data = .request r⟩ := hs.queries (qs.packet, qs.id)
        (List.mem_map_of_mem (List.mem_of_find?_eq_some hqs))
      simp [hr, Message.isLockQuery]
  | doNotHaveObject type id =>
    simp only [boxOne, hd] at h
    obtain ⟨rfl, rfl⟩ := Prod.mk.inj (Except.ok.inj h)
    refine hother ?_ (by simp) (by simp [hd, Message.isLockQuery])
    unfold doNotHaveObject
    split
    · rfl
    · split_ifs <;> rfl
  | doYouHaveName type id name =>
    simp only [boxOne, hd] at h
    have hp : p.data.isLockQuery = false := by simp [hd, Message.isLockQuery]
    unfold doYouHaveName determineResponseToCreateRequest at h
    split at h
    · obtain ⟨rfl, rfl⟩ := Prod.mk.inj (Except.ok.inj h)
      exact .other hp hc rfl (by simp [respondOnceToServer, Message.isLockQuery])
    · split at h
      · obtain ⟨rfl, rfl⟩ := Prod.mk.inj (Except.ok.inj h)
        exact .other hp hc rfl (by simp [respondOnceToServer, Message.isLockQuery])
      · obtain ⟨rfl, rfl⟩ := Prod.mk.inj (Except.ok.inj h)
        exact .other hp hc rfl (by simp)
      · split_ifs at h
        · obtain ⟨rfl, rfl⟩ := Prod.mk.inj (Except.ok.inj h)
          exact .other hp hc rfl (by simp)
        · obtain ⟨rfl, rfl⟩ := Prod.mk.inj (Except.ok.inj h)
          exact .other hp hc rfl (by simp [respondOnceToServer, Message.isLockQuery])
  | haveName type id =>
    simp only [boxOne, hd] at h
    have hp : p.data.isLockQuery = false := by simp [hd, Message.isLockQuery]
    unfold haveName at h
    split at h
    · obtain ⟨rfl, rfl⟩ := Prod.mk.inj (Except.ok.inj h)
      exact .other hp hc rfl (by simp)
    · rename_i pc hf
      obtain ⟨rfl, rfl⟩ := Prod.mk.inj (Except.ok.inj h)
      refine .other hp hc rfl fun q hq => ?_
      obtain ⟨qs, hqs, rfl⟩ := List.mem_map.mp hq
      obtain ⟨r, hr, -⟩ := hs.creates pc (List.mem_of_find?_eq_some hf) qs hqs
      simp [hr, Message.isLockQuery]
  | doNotHaveName type id =>
    simp only [boxOne, hd] at h
    have hp : p.data.isLockQuery = false := by simp [hd, Message.isLockQuery]
    rcases doNotHaveName_cases h with ⟨-, -, rfl, rfl⟩ | ⟨pc, -, hcase⟩
    · exact .other hp hc rfl (by simp)
    · rcases hcase with ⟨-, rfl, rfl⟩ | ⟨-, client, rest, r, -, hr, rfl, rfl⟩
      · exact .other hp hc rfl (by simp)
      · refine .other hp hc (createPending_trackers hr) ?_
        simp [notifyServersOfCreation, messageBackClients, respondOnceToClient, or_imp, forall_and,
          Message.isLockQuery]
  | _ => simp [boxOne, hd] at h

theorem Server.StoresRequests.handle (hs : s.StoresRequests) (hN : S.totalNumServers ≠ 1)
    (h : handlePacket S s p = .ok (t, out)) : t.StoresRequests := by
  have hm := handlePacket_queryMove hN hs.creates h
  refine ⟨fun x hx => ?_, hm.orderly.waiting hs.creates⟩
  cases hm with
  | passed _ _ _ _ hk => exact hs.queries x (hk.records ▸ hx)
  | asked _ hp _ _ hrec =>
    rw [hrec] at hx
    rcases List.mem_append.mp hx with hx | hx
    · exact hs.queries x hx
    · obtain rfl := List.mem_singleton.mp hx
      exact ⟨_, hp⟩
  | answered => exact hs.queries x hx
  | forwarded _ _ _ hrec ht =>
    rw [ht] at hx
    refine hs.queries x (hrec ▸ ?_)
    exact (List.mem_append.mp hx).elim (List.mem_append_left _)
      fun hx => List.mem_append_right _ (List.mem_cons_of_mem _ hx)
  | other _ hrec => exact hs.queries x (hrec ▸ hx)

theorem handlePacket_lockQueryMove (hp : S.Served p)
    (hs : S.totalNumServers ≠ 1 → s.StoresRequests)
    (h : handlePacket S s p = .ok (t, out)) : LockQueryMove S s p t out := by
  unfold handlePacket at h
  split_ifs at h with hb
  · exact boxZero_lockQueryMove hb h
  · obtain ⟨-, hN⟩ := hp.2.resolve_left hb
    exact boxOne_lockQueryMove (hs (by omega)) hb h

/-! Messages in flight. -/

/-- The message is the query or the answer for this request. -/
def Packet.About (S : Setting) (q : Packet) (c : CVLockTracker) : Prop :=
  (q.data = .doesClientHaveLock c.clientMachineID c.clientMailbox c.lockNum ∧
      S.IsServer q.fromMachine ∧ q.fromMailbox = 0) ∨
    ∃ held, q.data = .cvLockTrackerResponse c.clientMachineID c.clientMailbox c.lockNum held

/-- Each query and each answer in flight has its request. -/
structure Attributed.Sound (S : Setting) (u : Attributed) : Prop where
  served : ∀ p ∈ u.system.net, S.Served p
  stores : S.totalNumServers ≠ 1 → ∀ i, (u.system.server i).StoresRequests
  inFlight : (u.system.net : Multiset Packet).filter (fun q => q.data.isLockQuery = true) =
    u.causes.map Prod.fst
  about : ∀ x ∈ u.causes, x.1.About S x.2

theorem Attributed.Sound.initial : Attributed.initial.Sound S :=
  ⟨by simp [Attributed.initial, System.initial],
    fun _ i => ⟨by simp [Attributed.initial, System.initial, Server.initial, Server.records],
      by simp [Attributed.initial, System.initial, Server.initial, WaitingCreates]⟩, rfl,
    by simp [Attributed.initial]⟩

theorem attributed_none : attributed S none out = 0 := rfl

theorem filter_no_query (S : Setting) (out : List Packet)
    (hout : ∀ q ∈ out, q.data.isLockQuery = false) :
    (out.filter fun q => S.Served q).filter (fun q => q.data.isLockQuery) = [] := by
  rw [List.filter_eq_nil_iff]
  intro q hq
  simp [hout q (List.mem_of_mem_filter hq)]

theorem attributed_of_no_query (hout : ∀ q ∈ out, q.data.isLockQuery = false)
    (o : Option CVLockTracker) : attributed S o out = 0 := by
  cases o with
  | none => rfl
  | some c => simp [attributed, filter_no_query S out hout]

theorem attributed_single (hp : S.Served p) (hq : p.data.isLockQuery = true) (c : CVLockTracker) :
    attributed S (some c) [p] = {(p, c)} := by
  simp [attributed, hp, hq]

theorem map_fst_attributed (c : CVLockTracker) :
    (attributed S (some c) out).map Prod.fst =
      ((out.filter fun q => S.Served q : List Packet) : Multiset Packet).filter
        (fun q => q.data.isLockQuery = true) := by
  simp [attributed, Function.comp_def]

theorem filter_post {net : List Packet} (out : List Packet) (hp : p ∈ net) :
    ((S.post (net.erase p) out : List Packet) : Multiset Packet).filter
        (fun q => q.data.isLockQuery = true) + (if p.data.isLockQuery then {p} else 0) =
      (net : Multiset Packet).filter (fun q => q.data.isLockQuery = true) +
        ((out.filter fun q => S.Served q : List Packet) : Multiset Packet).filter
          (fun q => q.data.isLockQuery = true) := by
  have hnet : (net : Multiset Packet) = p ::ₘ (net.erase p : List Packet) :=
    Multiset.coe_eq_coe.mpr (List.perm_cons_erase hp)
  rw [hnet, Setting.post, ← Multiset.coe_add, Multiset.filter_add, Multiset.filter_cons]
  abel

/-- What a query or an answer was sent for is what the message that caused it was sent for. -/
theorem LockQueryMove.about (h : LockQueryMove S s p t out) (hp : S.Served p)
    (hc : p.data.isLockQuery = true → p.About S c)
    (ht : p.data.isLockQuery = false → p.tracked = some c) :
    ∀ x ∈ attributed S (some c) out, x.1.About S x.2 := by
  cases h with
  | @asked d _ hd =>
    have hq : p.data.isLockQuery = false := by
      unfold Packet.tracked at hd
      split at hd
      · rename_i hdata
        simp [hdata, Message.isLockQuery]
      · cases hd
    obtain rfl := Option.some.inj ((ht hq).symm.trans hd)
    intro x hx
    simp only [attributed, Option.elim_some, Multiset.mem_coe, List.mem_map, List.mem_filter,
      List.mem_singleton] at hx
    obtain ⟨_, ⟨⟨rfl, -⟩, -⟩, rfl⟩ := hx
    exact .inl ⟨rfl, hp.1, rfl⟩
  | answered hdata =>
    intro x hx
    simp only [attributed, Option.elim_some, Multiset.mem_coe, List.mem_map, List.mem_filter,
      List.mem_singleton] at hx
    obtain ⟨_, ⟨⟨rfl, -⟩, -⟩, rfl⟩ := hx
    rcases hc (by simp [hdata, Message.isLockQuery]) with ⟨hd, -⟩ | ⟨held, hd⟩
    · obtain ⟨rfl, rfl, rfl⟩ := Message.doesClientHaveLock.inj (hdata.symm.trans hd)
      exact .inr ⟨_, rfl⟩
    · cases hdata.symm.trans hd
  | ignored => simp [attributed]
  | response _ _ _ hout => simp [attributed_of_no_query hout]
  | other _ _ _ hout => simp [attributed_of_no_query hout]

theorem LockQueryMove.no_query (h : LockQueryMove S s p t out) (hp : p.data.isLockQuery = false)
    (hc : p.tracked = none) : ∀ q ∈ out, q.data.isLockQuery = false := by
  cases h with
  | asked hd => simp [hc] at hd
  | answered hd | ignored hd | response _ hd => simp [hd, Message.isLockQuery] at hp
  | other _ _ _ hout => exact hout

theorem Attributes.sound {u u' : Attributed} {e : Action × List Packet × Option CVLockTracker}
    (h : Attributes S u e u') (hu : u.Sound S)
    (ha : ∀ p, e.1 = .arrive p → ∃ r, p.data = .request r) : u'.Sound S := by
  have hserved : ∀ {a g out}, network S u.system a = .ok (g, out) → ∀ p ∈ g.net, S.Served p :=
    fun hstep => network_served hstep hu.served
  have hstores : ∀ {a g out}, network S u.system a = .ok (g, out) → S.totalNumServers ≠ 1 →
      ∀ i, (g.server i).StoresRequests := fun hstep hN =>
    network_forall_servers (P := fun _ s => s.StoresRequests) hstep (hu.stores hN)
      fun _ _ _ _ hs hh => hs.handle hN hh
  cases h with
  | @lockQuery p c g out hstep hp hc =>
    obtain ⟨hen, t, ht, rfl⟩ := network_handle_iff.mp hstep
    have hmove := handlePacket_lockQueryMove (hu.served p hen.1) (fun hN => hu.stores hN _) ht
    refine ⟨hserved hstep, hstores hstep, ?_, fun x hx => ?_⟩
    · have hpost := filter_post (S := S) out hen.1
      rw [if_pos hp, hu.inFlight, ← Multiset.cons_erase hc, Multiset.map_cons,
        ← map_fst_attributed c, add_comm, Multiset.singleton_add, Multiset.cons_add,
        Multiset.cons_inj_right, ← Multiset.map_add] at hpost
      exact hpost
    · rcases Multiset.mem_add.mp hx with hx | hx
      · exact hu.about x (Multiset.mem_of_mem_erase hx)
      · refine hmove.about (hu.served p hen.1) (fun _ => hu.about _ hc) ?_ x hx
        simp [hp]
  | @other a g out hstep hq =>
    cases a with
    | arrive p =>
      obtain ⟨rfl, rfl⟩ := network_arrive_iff.mp hstep
      refine ⟨hserved hstep, hstores hstep, ?_, ?_⟩
      · obtain ⟨r, hr⟩ := ha p rfl
        simp only [Action.tracked, attributed_none, add_zero]
        rw [← hu.inFlight, Setting.post, ← Multiset.coe_add, Multiset.filter_add]
        have hnone := filter_no_query S [p] (by simp [hr, Message.isLockQuery])
        simp [Multiset.filter_coe, hnone]
      · simpa [Action.tracked, attributed_none] using hu.about
    | handle p =>
      have hp := hq p rfl
      obtain ⟨hen, t, ht, rfl⟩ := network_handle_iff.mp hstep
      have hmove := handlePacket_lockQueryMove (hu.served p hen.1) (fun hN => hu.stores hN _) ht
      have hpost := filter_post (S := S) out hen.1
      rw [if_neg (by simp [hp]), add_zero, hu.inFlight] at hpost
      simp only [Action.tracked]
      cases hc : p.tracked with
      | none =>
        have hout := attributed_of_no_query (S := S) (hmove.no_query hp hc)
        refine ⟨hserved hstep, hstores hstep, ?_, ?_⟩
        · have hnone := filter_no_query S _ (hmove.no_query hp hc)
          simpa [hout, Multiset.filter_coe, hnone] using hpost
        · simpa [hout] using hu.about
      | some c =>
        refine ⟨hserved hstep, hstores hstep, ?_, fun x hx => ?_⟩
        · rwa [← map_fst_attributed c, ← Multiset.map_add] at hpost
        · rcases Multiset.mem_add.mp hx with hx | hx
          · exact hu.about x hx
          · refine hmove.about (hu.served p hen.1) (fun hh => ?_) (fun _ => hc) x hx
            simp [hp] at hh

/-! The list. -/

theorem CVLockTracker.isFor_iff {clientMID clientMBX lockNum : ℤ} :
    c.isFor clientMID clientMBX lockNum = true ↔
      c.clientMachineID = clientMID ∧ c.clientMailbox = clientMBX ∧ c.lockNum = lockNum := by
  simp [CVLockTracker.isFor, and_assoc]

theorem CVLockTracker.isFor_self (c : CVLockTracker) :
    c.isFor c.clientMachineID c.clientMailbox c.lockNum = true := by simp [isFor]

section List
variable {l : List CVLockTracker}
  (hagree : ∀ d ∈ l, d.isFor c.clientMachineID c.clientMailbox c.lockNum = true → d = c)
include hagree

/-- With no other entry for the client and the lock, the answer removes the right one. -/
theorem eraseP_isFor :
    l.eraseP (·.isFor c.clientMachineID c.clientMailbox c.lockNum) = l.erase c := by
  induction l with
  | nil => rfl
  | cons d l ih =>
    by_cases hd : d = c
    · subst hd
      simp [CVLockTracker.isFor_self]
    · have hnot : d.isFor c.clientMachineID c.clientMailbox c.lockNum = false := by
        by_contra hne
        exact hd (hagree d (by simp) (by simpa using hne))
      rw [List.eraseP_cons_of_neg (by simp [hnot]), List.erase_cons_tail (by simpa using hd),
        ih fun d hd => hagree d (List.mem_cons_of_mem _ hd)]

theorem find?_isFor (hc : c ∈ l) :
    l.find? (·.isFor c.clientMachineID c.clientMailbox c.lockNum) = some c := by
  cases hf : l.find? (·.isFor c.clientMachineID c.clientMailbox c.lockNum) with
  | none => simpa [CVLockTracker.isFor_self] using List.find?_eq_none.mp hf c hc
  | some d =>
    have hd : d.isFor c.clientMachineID c.clientMailbox c.lockNum = true := by
      simpa using List.find?_some hf
    rw [hagree d (List.mem_of_find?_eq_some hf) hd]

end List

/-- The entries of each server are the requests of its queries and answers in flight. -/
structure Attributed.Tracks (u : Attributed) : Prop where
  balance : ∀ i, (u.causes.filter fun x => x.1.asker = i).map Prod.snd =
    ((u.system.server i).cvLockTrackerList : Multiset CVLockTracker)
  agree : ∀ i, ∀ c ∈ (u.system.server i).cvLockTrackerList,
    ∀ d ∈ (u.system.server i).cvLockTrackerList,
      d.isFor c.clientMachineID c.clientMailbox c.lockNum = true → d = c

theorem Attributed.Tracks.initial : Attributed.initial.Tracks :=
  ⟨fun _ => rfl, fun _ _ h => by simp [Attributed.initial, System.initial, Server.initial] at h⟩

theorem Attributed.Tracks.mem {u : Attributed} (h : u.Tracks) (hc : (p, c) ∈ u.causes) :
    c ∈ (u.system.server p.asker).cvLockTrackerList := by
  have hfilter : (p, c) ∈ u.causes.filter fun x => x.1.asker = p.asker :=
    Multiset.mem_filter.mpr ⟨hc, rfl⟩
  rw [← Multiset.mem_coe, ← h.balance]
  exact Multiset.mem_map_of_mem Prod.snd hfilter

/-- What is left for server `i` when a query or an answer has been received. -/
theorem balance_erase {u : Attributed} (hc : (p, c) ∈ u.causes) (i : ℤ) :
    (u.causes.filter fun x => x.1.asker = i).map Prod.snd =
      (if p.asker = i then {c} else 0) +
        ((u.causes.erase (p, c)).filter fun x => x.1.asker = i).map Prod.snd := by
  conv_lhs => rw [← Multiset.cons_erase hc, Multiset.filter_cons, Multiset.map_add]
  split_ifs <;> simp

theorem balance_attributed (hq : S.Served q) (hl : q.data.isLockQuery = true) (i : ℤ) :
    ((attributed S (some c) [q]).filter fun x => x.1.asker = i).map Prod.snd =
      if q.asker = i then {c} else 0 := by
  rw [attributed_single hq hl, Multiset.filter_singleton]
  by_cases hi : q.asker = i <;> simp [hi]

/-- In the step of an answer that it was sent for. -/
theorem executesRequest_step {u u' : Attributed} {e : Action × List Packet × Option CVLockTracker}
    (h : Attributes S u e u') (hu : u.Sound S) (ht : u.Tracks) :
    ExecutesRequest S ⟨u, e, u'⟩ := by
  intro p clientMID clientMBX l held hp hdata
  cases h with
  | other _ ha =>
    have hq := ha p hp
    simp [hdata, Message.isLockQuery] at hq
  | @lockQuery p' c g out hstep _ hc =>
    obtain rfl := Action.handle.inj hp
    obtain ⟨hd, -⟩ | ⟨held', hd⟩ := hu.about _ hc
    · cases hdata.symm.trans hd
    obtain ⟨rfl, rfl, rfl, -⟩ := Message.cvLockTrackerResponse.inj (hdata.symm.trans hd)
    have hmem := ht.mem hc
    have hasker : p'.asker = p'.toMachine := by simp [Packet.asker, hdata]
    rw [hasker] at hmem
    have hagree := ht.agree _ c hmem
    refine ⟨c, _, rfl, hmem, rfl, ?_⟩
    rw [cvLockTrackerResponse_eq, find?_isFor hagree hmem, eraseP_isFor hagree]

theorem answeredAt_of_no_query {u u' : Attributed} {o : Option CVLockTracker}
    (hp : p.data.isLockQuery = false) (i : ℤ) : answeredAt i ⟨u, (.handle p, out, o), u'⟩ = 0 := by
  unfold answeredAt
  dsimp only
  split
  · rename_i hd
    simp [hd, Message.isLockQuery] at hp
  · rfl

/-- The list of server `i` after a step: one entry more, one less, or as it was. -/
theorem server_update {u : Attributed} {i j : ℤ} {l : List CVLockTracker}
    (h : i ≠ j → l = (u.system.server i).cvLockTrackerList)
    (ht : i = j → l = t.cvLockTrackerList) :
    (Function.update u.system.server j t i).cvLockTrackerList = l := by
  by_cases hi : i = j
  · rw [ht hi, hi, Function.update_self]
  · rw [h hi, Function.update_of_ne hi]

theorem Attributes.tracks {u u' : Attributed} {e : Action × List Packet × Option CVLockTracker}
    (h : Attributes S u e u') (hu : u.Sound S) (ht : u.Tracks) (hc : LockKnown S u.system e.1) :
    u'.Tracks ∧ ∀ i, pushedAt i ⟨u, e, u'⟩ + (u.system.server i).cvLockTrackerList =
      answeredAt i ⟨u, e, u'⟩ + (u'.system.server i).cvLockTrackerList := by
  -- the steps that leave every list and the attribution as they are
  have hsame : ∀ {g : System} {m : Multiset (Packet × CVLockTracker)},
      (∀ i, (g.server i).cvLockTrackerList = (u.system.server i).cvLockTrackerList) →
      (∀ i, (m.filter fun x => x.1.asker = i).map Prod.snd =
        (u.causes.filter fun x => x.1.asker = i).map Prod.snd) →
      (⟨g, m⟩ : Attributed).Tracks := fun hl hm =>
    ⟨fun i => by rw [hm i, ht.balance, hl], fun i c hmem d hd => by
      simp only [hl] at hmem hd
      exact ht.agree i c hmem d hd⟩
  cases h with
  | @other a g out hstep hq =>
    cases a with
    | arrive p =>
      obtain ⟨rfl, rfl⟩ := network_arrive_iff.mp hstep
      exact ⟨hsame (fun _ => rfl) (by simp [Action.tracked, attributed_none]), fun _ => rfl⟩
    | handle p =>
      have hp := hq p rfl
      obtain ⟨hen, t, hhandle, rfl⟩ := network_handle_iff.mp hstep
      cases handlePacket_lockQueryMove (hu.served p hen.1) (fun hN => hu.stores hN _) hhandle with
      | answered hd | ignored hd | response _ hd => simp [hd, Message.isLockQuery] at hp
      | other _ hnone hlist hout =>
        have hlists : ∀ i, (Function.update u.system.server p.toMachine t i).cvLockTrackerList =
            (u.system.server i).cvLockTrackerList := fun i =>
          server_update (fun _ => rfl) fun hi => by rw [hi, hlist]
        refine ⟨hsame hlists fun i => by rw [attributed_of_no_query hout, add_zero], fun i => ?_⟩
        simp [pushedAt, answeredAt_of_no_query hp, hnone, hlists]
      | @asked c _ hsome hlist =>
        have hserver := hc.server p c rfl hsome
        have halone := hc.alone p c rfl hsome
        have hlists : ∀ i, (Function.update u.system.server p.toMachine t i).cvLockTrackerList =
            (u.system.server i).cvLockTrackerList ++ if p.toMachine = i then [c] else [] := fun i =>
          server_update (fun hi => by rw [if_neg (Ne.symm hi), List.append_nil])
            fun hi => by rw [hi, if_pos rfl, hlist]
        refine ⟨⟨fun i => ?_, fun i d hd d' hd' hfor => ?_⟩, fun i => ?_⟩
        · rw [hlists, ← Multiset.coe_add, ← ht.balance i]
          simp only [Action.tracked, hsome, Multiset.filter_add, Multiset.map_add]
          rw [balance_attributed ⟨hserver, .inl rfl⟩ rfl]
          refine congrArg _ ?_
          by_cases hi : p.toMachine = i <;> simp [Packet.asker, hi]
        · rw [hlists, List.mem_append] at hd hd'
          split_ifs at hd hd' with hi
          · subst hi
            rcases hd with hd | hd <;> rcases hd' with hd' | hd'
            · exact ht.agree _ d hd d' hd' hfor
            · obtain rfl := List.mem_singleton.mp hd'
              obtain ⟨h1, h2, h3⟩ := CVLockTracker.isFor_iff.mp hfor
              exact (halone d hd (CVLockTracker.isFor_iff.mpr ⟨h1.symm, h2.symm, h3.symm⟩)).symm
            · obtain rfl := List.mem_singleton.mp hd
              exact halone d' hd' hfor
            · rw [List.mem_singleton.mp hd, List.mem_singleton.mp hd']
          · exact ht.agree _ d (hd.resolve_right (by simp)) d' (hd'.resolve_right (by simp)) hfor
        · simp only [pushedAt, answeredAt_of_no_query hp, hsome, hlists, zero_add]
          by_cases hi : p.toMachine = i
          · rw [if_pos hi, if_pos hi, ← Multiset.coe_add, add_comm]
            rfl
          · rw [if_neg hi, if_neg hi, List.append_nil, zero_add]
  | @lockQuery p c g out hstep hp hmem =>
    obtain ⟨hen, t, hhandle, rfl⟩ := network_handle_iff.mp hstep
    have hnone : p.tracked = none := by
      unfold Packet.tracked
      split
      · rename_i hd
        simp [hd, Message.isLockQuery] at hp
      · rfl
    cases handlePacket_lockQueryMove (hu.served p hen.1) (fun hN => hu.stores hN _) hhandle with
    | asked hd => simp [hnone] at hd
    | other hd => simp [hp] at hd
    | ignored hd he => exact absurd he (hc.live p _ _ _ rfl hd)
    | @answered clientMID clientMBX lockNum e hd he =>
      have hlists : ∀ i, (Function.update u.system.server p.toMachine
          (u.system.server p.toMachine) i).cvLockTrackerList =
            (u.system.server i).cvLockTrackerList := by simp
      obtain ⟨-, hfrom, hbox⟩ | ⟨_, hdata⟩ := hu.about _ hmem
      · refine ⟨hsame hlists fun i => ?_, fun i => ?_⟩
        · have hasker : p.asker = p.fromMachine := by simp [Packet.asker, hd]
          rw [balance_erase hmem i, Multiset.filter_add, Multiset.map_add,
            balance_attributed ⟨hfrom, .inl hbox⟩ rfl, add_comm, hasker]
          rfl
        · simp [pushedAt, answeredAt, hnone, hd]
      · cases hd.symm.trans hdata
    | response hb hd hlist hout =>
      have hmem' := ht.mem hmem
      have hasker : p.asker = p.toMachine := by simp [Packet.asker, hd]
      rw [hasker] at hmem'
      obtain ⟨hdata, -⟩ | ⟨_, hdata⟩ := hu.about _ hmem
      · cases hd.symm.trans hdata
      obtain ⟨rfl, rfl, rfl, -⟩ := Message.cvLockTrackerResponse.inj (hd.symm.trans hdata)
      rw [eraseP_isFor (ht.agree _ c hmem')] at hlist
      have hlists : ∀ i, (Function.update u.system.server p.toMachine t i).cvLockTrackerList =
          if p.toMachine = i then (u.system.server i).cvLockTrackerList.erase c
          else (u.system.server i).cvLockTrackerList := fun i =>
        server_update (fun hi => by rw [if_neg (Ne.symm hi)]) fun hi => by rw [hi, if_pos rfl, hlist]
      have hbalance : ∀ i, ((u.system.server i).cvLockTrackerList : Multiset CVLockTracker) =
          (if p.toMachine = i then {c} else 0) +
            ((u.causes.erase (p, c)).filter fun x => x.1.asker = i).map Prod.snd := fun i => by
        rw [← ht.balance, balance_erase hmem, hasker]
      refine ⟨⟨fun i => ?_, fun i d hd d' hd' hfor => ?_⟩, fun i => ?_⟩
      · rw [attributed_of_no_query hout, add_zero, hlists]
        split_ifs with hi
        · rw [← Multiset.coe_erase, hbalance, if_pos hi, Multiset.singleton_add,
            Multiset.erase_cons_head]
        · rw [hbalance, if_neg hi, zero_add]
      · rw [hlists] at hd hd'
        split_ifs at hd hd' with hi
        · exact ht.agree i d (List.mem_of_mem_erase hd) d' (List.mem_of_mem_erase hd') hfor
        · exact ht.agree i d hd d' hd' hfor
      · simp only [pushedAt, answeredAt, hnone, hd, hlists]
        split_ifs with hi
        · subst hi
          rw [← Multiset.coe_erase]
          exact (zero_add _).trans (Multiset.cons_erase (Multiset.mem_coe.mpr hmem')).symm
        · rfl

/-! Runs. -/

def FromClient (a : Action) : Prop := ∀ p, a = .arrive p → ∃ r, p.data = .request r

/-- Every run of the network can be attributed. -/
theorem exists_attributed {tr : List NetworkStep} {g : System}
    (h : Execution (Handles (network S)) .initial tr g) (ha : ∀ x ∈ tr, FromClient x.event.1) :
    ∃ (atr : List AttributedStep) (u : Attributed), Execution (Attributes S) .initial atr u ∧
      u.Sound S ∧ u.system = g ∧
      atr.map (fun x => (⟨x.before.system, (x.event.1, x.event.2.1), x.after.system⟩ :
        NetworkStep)) = tr := by
  induction h with
  | start => exact ⟨[], _, .start, .initial, rfl, rfl⟩
  | @extend tr g g' e hex hst ih =>
    obtain ⟨atr, u, hu, hsound, rfl, hmap⟩ := ih fun x hx => ha x (List.mem_append_left _ hx)
    obtain ⟨a, out⟩ := e
    have hclient : FromClient a := ha ⟨u.system, (a, out), g'⟩ (by simp)
    have hst : network S u.system a = .ok (g', out) := hst
    obtain ⟨c, u', hstep, rfl⟩ : ∃ c u', Attributes S u (a, out, c) u' ∧ u'.system = g' := by
      by_cases hq : ∃ p, a = .handle p ∧ p.data.isLockQuery = true
      · obtain ⟨p, rfl, hp⟩ := hq
        obtain ⟨hen, -⟩ := network_handle_iff.mp hst
        have hmem : p ∈ u.causes.map Prod.fst := by
          rw [← hsound.inFlight]
          exact Multiset.mem_filter.mpr ⟨hen.1, hp⟩
        obtain ⟨⟨_, c⟩, hc, rfl⟩ := Multiset.mem_map.mp hmem
        exact ⟨_, _, .lockQuery hst hp hc, rfl⟩
      · refine ⟨_, _, .other hst fun p hp => ?_, rfl⟩
        by_contra hne
        exact hq ⟨p, hp, by simpa using hne⟩
    exact ⟨_, u', hu.extend hstep, hstep.sound hsound hclient, rfl, by simp [hmap]⟩

/-- In a run in which every named lock is known and no client asks twice, each entry is removed by
the answer that was sent for it, and none stays. -/
theorem requests_tracked {tr : List AttributedStep} {u : Attributed}
    (h : Execution (Attributes S) .initial tr u) (ha : ∀ x ∈ tr, FromClient x.event.1)
    (hc : ∀ x ∈ tr, LockKnown S x.before.system x.event.1) : TracksRequests S tr u := by
  have hinv : u.Sound S ∧ u.Tracks ∧ (∀ x ∈ tr, ExecutesRequest S x) ∧
      ∀ i, (tr.map (pushedAt i)).sum = (tr.map (answeredAt i)).sum +
        ((u.system.server i).cvLockTrackerList : Multiset CVLockTracker) := by
    refine h.history_invariant
      (P := fun tr u => u.Sound S ∧ u.Tracks ∧ (∀ x ∈ tr, ExecutesRequest S x) ∧
        ∀ i, (tr.map (pushedAt i)).sum = (tr.map (answeredAt i)).sum +
          ((u.system.server i).cvLockTrackerList : Multiset CVLockTracker))
      (Q := fun x => FromClient x.event.1 ∧ LockKnown S x.before.system x.event.1)
      ⟨.initial, .initial, by simp, fun _ => rfl⟩ ?_ fun x hx => ⟨ha x hx, hc x hx⟩
    rintro tr x ⟨hu, ht, hexec, honce⟩ hstep ⟨hclient, hknown⟩
    obtain ⟨ht', hlist⟩ := hstep.tracks hu ht hknown
    refine ⟨hstep.sound hu hclient, ht', fun y hy => ?_, fun i => ?_⟩
    · rcases List.mem_append.mp hy with hy | hy
      · exact hexec y hy
      · obtain rfl := List.mem_singleton.mp hy
        exact executesRequest_step hstep hu ht
    · have hi := hlist i
      simp only [List.map_append, List.sum_append, List.map_singleton, List.sum_singleton, honce i]
      rw [add_assoc, add_comm _ (pushedAt i x), hi, add_assoc]
  obtain ⟨hu, ht, hexec, honce⟩ := hinv
  refine ⟨hexec, honce, fun hnet i => ?_⟩
  have hnone : u.causes = 0 := by
    have hmap := hu.inFlight
    rw [hnet] at hmap
    exact Multiset.map_eq_zero.mp hmap.symm
  have hlist := ht.balance i
  rw [hnone] at hlist
  exact (Multiset.coe_eq_zero _).mp hlist.symm

/-- The machine of a lock knows it when asked. -/
def LockFound (S : Setting) (s : Server) (p : Packet) : Bool :=
  match p.data with
  | .doesClientHaveLock _ _ lockNum =>
    (s.lock? (decodeIndex (S.config p.toMachine) lockNum)).isSome
  | _ => true

theorem lockKnown_arrive {g : System} : LockKnown S g (.arrive p) :=
  ⟨fun _ _ _ _ h => (by cases h), fun _ _ h => (by cases h), fun _ _ h => (by cases h)⟩

theorem lockKnown_handle_iff {g : System} : LockKnown S g (.handle p) ↔
    LockFound S (g.server p.toMachine) p = true ∧ ∀ c ∈ p.tracked, S.IsServer (ownerOf c.lockNum) ∧
      ∀ d ∈ (g.server p.toMachine).cvLockTrackerList,
        d.isFor c.clientMachineID c.clientMailbox c.lockNum = true → d = c := by
  constructor
  · intro h
    refine ⟨?_, fun c hc => ⟨h.server p c rfl hc, h.alone p c rfl hc⟩⟩
    unfold LockFound
    split
    · rename_i hd
      exact Option.isSome_iff_ne_none.mpr (h.live p _ _ _ rfl hd)
    · rfl
  · rintro ⟨hfound, hc⟩
    refine ⟨fun q clientMID clientMBX lockNum hq hd => ?_, fun q c hq htracked => ?_,
      fun q c hq htracked => ?_⟩
    · obtain rfl := Action.handle.inj hq
      simp only [LockFound, hd] at hfound
      exact Option.isSome_iff_ne_none.mp hfound
    · obtain rfl := Action.handle.inj hq
      exact (hc c htracked).1
    · obtain rfl := Action.handle.inj hq
      exact (hc c htracked).2

instance (S : Setting) (g : System) : (a : Action) → Decidable (LockKnown S g a)
  | .arrive _ => isTrue lockKnown_arrive
  | .handle _ => decidable_of_iff _ lockKnown_handle_iff.symm

/-- A client that owns a lock of the other server signals a condition. -/
theorem requests_tracked_signal : ∃ (tr : List AttributedStep) (u : Attributed),
    Execution (Attributes ⟨2, false, false⟩) .initial tr u ∧
    (tr.getLast?.map fun x => x.event.1) =
      some (.handle ⟨0, 0, 1, 0, .cvLockTrackerResponse 5 9 500 true⟩) ∧
    TracksRequests ⟨2, false, false⟩ tr u := by
  obtain ⟨tr, g, h, hmap, htest⟩ := exists_of_trace (network ⟨2, false, false⟩) .initial
    [.arrive ⟨1, 0, 5, 9, .request (.createLock [97])⟩,
      .handle ⟨1, 0, 5, 9, .request (.createLock [97])⟩,
      .handle ⟨1, 1, 5, 9, .request (.createLock [97])⟩,
      .handle ⟨0, 1, 1, 1, .doYouHaveName .lock 0 [97]⟩,
      .handle ⟨1, 1, 0, 1, .doNotHaveName .lock 0⟩,
      .arrive ⟨1, 0, 5, 9, .request (.acquire 500)⟩, .handle ⟨1, 0, 5, 9, .request (.acquire 500)⟩,
      .arrive ⟨0, 0, 5, 9, .request (.cvOperation .signal 0 500)⟩,
      .handle ⟨0, 0, 5, 9, .request (.cvOperation .signal 0 500)⟩,
      .handle ⟨1, 0, 0, 0, .doesClientHaveLock 5 9 500⟩,
      .handle ⟨0, 0, 1, 0, .cvLockTrackerResponse 5 9 500 true⟩]
    (fun r => r.1.all fun x => decide (LockKnown ⟨2, false, false⟩ x.before x.event.1))
    (by decide +kernel)
  have hclient : ∀ x ∈ tr, FromClient x.event.1 := forall_inputs hmap (by simp [FromClient])
  simp only [List.all_eq_true, decide_eq_true_eq] at htest
  obtain ⟨atr, u, hu, -, rfl, rfl⟩ := exists_attributed h hclient
  simp only [List.mem_map, forall_exists_index, and_imp, forall_apply_eq_imp_iff₂] at hclient htest
  refine ⟨atr, u, hu, ?_, requests_tracked hu hclient htest⟩
  rw [List.map_map] at hmap
  have hlast := congrArg List.getLast? hmap
  rwa [List.getLast?_map] at hlast

/-- The server of a lock that was never created does not answer, and the request stays. -/
theorem unanswered_request_stays : ∃ (tr : List AttributedStep) (u : Attributed),
    Execution (Attributes ⟨2, false, false⟩) .initial tr u ∧
    tr.map (fun x => x.event.1) = [.arrive ⟨0, 0, 5, 9, .request (.cvOperation .signal 0 500)⟩,
      .handle ⟨0, 0, 5, 9, .request (.cvOperation .signal 0 500)⟩,
      .handle ⟨1, 0, 0, 0, .doesClientHaveLock 5 9 500⟩] ∧
    u.system.net = [] ∧ (u.system.server 0).cvLockTrackerList = [⟨5, 9, 0, 500, .signal⟩] ∧
    ¬ TracksRequests ⟨2, false, false⟩ tr u := by
  obtain ⟨tr, g, h, hmap, htest⟩ := exists_of_trace (network ⟨2, false, false⟩) .initial
    [.arrive ⟨0, 0, 5, 9, .request (.cvOperation .signal 0 500)⟩,
      .handle ⟨0, 0, 5, 9, .request (.cvOperation .signal 0 500)⟩,
      .handle ⟨1, 0, 0, 0, .doesClientHaveLock 5 9 500⟩]
    (fun r => decide (r.2.net = [] ∧
      (r.2.server 0).cvLockTrackerList = [⟨5, 9, 0, 500, .signal⟩])) (by decide +kernel)
  obtain ⟨hnet, hlist⟩ := of_decide_eq_true htest
  have hclient : ∀ x ∈ tr, FromClient x.event.1 := forall_inputs hmap (by simp [FromClient])
  obtain ⟨atr, u, hu, -, rfl, rfl⟩ := exists_attributed h hclient
  refine ⟨atr, u, hu, by rwa [List.map_map] at hmap, hnet, hlist, fun ht => ?_⟩
  have hdone := ht.done hnet 0
  simp [hdone] at hlist

end Nachos.Network
