import Nachos.ServerLockService

/-! Which client is owed a reply. A request is answered at once, or its client is put
in the queue of a lock or a condition and answered when it leaves that queue. This is
the bookkeeping of one handler call, for a server that works alone. -/
namespace Nachos.Network
open SlotTables

/-- The clients queued for a lock or on a condition. -/
def waiting (s : Server) : Multiset ClientRequest :=
  total (fun e => (e.lock.queue : Multiset ClientRequest)) s.locks +
    total (fun e => (e.condition.queue : Multiset ClientRequest)) s.conditions

def ServerResponse.client (r : ServerResponse) : ClientRequest := ⟨r.toMachine, r.toMailbox⟩

/-- The clients whose replies are in `necessaryResponses`. -/
def due (s : Server) : Multiset ClientRequest :=
  (s.necessaryResponses : Multiset ServerResponse).map ServerResponse.client

def owed (s : Server) : Multiset ClientRequest := due s + waiting s

def Packet.repliesTo (q : Packet) : Option ClientRequest :=
  match q.data with
  | .reply _ => some ⟨q.toMachine, q.toMailbox⟩
  | _ => none

/-- The clients that these packets answer. -/
def replied (out : List Packet) : Multiset ClientRequest := out.filterMap Packet.repliesTo

/-- The stub of every request but DESTROY_MV waits for a reply. -/
def Request.blocks : Request → Bool
  | .destroyMV _ => false
  | _ => true

/-- ACQUIRE and WAIT may be answered later. -/
def Request.mayQueue : Request → Bool
  | .acquire _ => true
  | .cvOperation .wait _ _ => true
  | _ => false

def Request.asks (r : Request) (p : Packet) : Multiset ClientRequest :=
  if r.blocks then {p.sender} else 0

/-- What one call owes its clients: replies go to the sender and to clients that leave
a queue, and the sender goes without only if it is now queued itself. -/
structure ReplyContract (s : Server) (p : Packet) (r : Request) (t : Server)
    (out : List Packet) : Prop where
  noResponses : t.necessaryResponses = []
  answered : replied out + waiting t = r.asks p + waiting s
  atOnce : r.mayQueue = false → waiting t ≤ waiting s

def AnswersProperly (cfg : Config) (s : Server) (p : Packet) (r : Request) : Prop :=
  ∃ t out, boxZero cfg s p = .ok (t, out) ∧ ReplyContract s p r t out

section Bookkeeping
variable {s : Server} {i : ℤ}

@[simp] theorem waiting_pushResponse (s : Server) (r : ServerResponse) :
    waiting (s.pushResponse r) = waiting s := rfl

@[simp] theorem due_pushResponse (s : Server) (r : ServerResponse) :
    due (s.pushResponse r) = due s + {r.client} := by
  simp only [due, Server.pushResponse, ← Multiset.coe_add, Multiset.map_add]
  simp

@[simp] theorem owed_pushResponse (s : Server) (r : ServerResponse) :
    owed (s.pushResponse r) = {r.client} + owed s := by
  simp only [owed, due_pushResponse, waiting_pushResponse]
  abel

@[simp] theorem response_client (p : Packet) : p.response.client = p.sender := rfl

theorem owed_of_noResponses (h : s.necessaryResponses = []) : owed s = waiting s := by
  simp [owed, due, h]

theorem replied_append (xs ys : List Packet) : replied (xs ++ ys) = replied xs + replied ys := by
  simp [replied]

theorem replied_responses (cfg : Config) (rs : List ServerResponse) :
    replied (rs.map (BoxZero.responsePacket cfg)) = rs.map ServerResponse.client := by
  induction rs with
  | nil => rfl
  | cons r rs ih =>
    simp only [replied, List.map_cons, List.filterMap_cons, Multiset.coe_eq_coe] at ih ⊢
    exact List.Perm.cons _ ih

/-- The contract, read off the outcome before the response loop. -/
theorem answersProperly_iff {cfg : Config} {p : Packet} {r : Request} {o : Outcome}
    (h : BoxZero.handle cfg s p = .ok o) (hsent : replied o.sent = 0) :
    AnswersProperly cfg s p r ↔
      (o.respond = true ∨ o.server.necessaryResponses = []) ∧
      owed o.server = r.asks p + waiting s ∧
      (r.mayQueue = false → waiting o.server ≤ waiting s) := by
  have hbox : boxZero cfg s p = .ok (BoxZero.flush cfg o) := by simp [boxZero, h, Except.map]
  have hiff : AnswersProperly cfg s p r ↔
      ReplyContract s p r (BoxZero.flush cfg o).1 (BoxZero.flush cfg o).2 := by
    constructor
    · rintro ⟨t, out, he, hc⟩
      rw [hbox] at he
      rwa [Except.ok.inj he]
    · exact fun hc => ⟨_, _, hbox, hc⟩
  rw [hiff]
  cases hr : o.respond with
  | true =>
    have hf : BoxZero.flush cfg o = ({ o.server with necessaryResponses := [] },
        o.sent ++ o.server.necessaryResponses.map (BoxZero.responsePacket cfg)) := by
      simp [BoxZero.flush, hr]
    have hout : replied (BoxZero.flush cfg o).2 + waiting (BoxZero.flush cfg o).1 =
        owed o.server := by
      rw [hf, replied_append, hsent, replied_responses, zero_add]
      rfl
    constructor
    · rintro ⟨-, ha, hq⟩
      refine ⟨Or.inl rfl, hout ▸ ha, fun hm => ?_⟩
      simpa [hf, waiting] using hq hm
    · rintro ⟨-, ha, hq⟩
      refine ⟨by rw [hf], hout.trans ha, fun hm => ?_⟩
      simpa [hf, waiting] using hq hm
  | false =>
    have hf : BoxZero.flush cfg o = (o.server, o.sent) := by simp [BoxZero.flush, hr]
    rw [hf]
    constructor
    · rintro ⟨hn, ha, hq⟩
      refine ⟨Or.inr hn, ?_, hq⟩
      rw [owed_of_noResponses hn, ← ha, hsent, zero_add]
    · rintro ⟨hn, ha, hq⟩
      have hn' : o.server.necessaryResponses = [] := by simpa using hn
      refine ⟨hn', ?_, hq⟩
      rw [hsent, zero_add, ← owed_of_noResponses hn', ha]

/-- A blocked client that is neither answered nor queued. -/
theorem not_answersProperly {cfg : Config} {p : Packet} {r : Request} {o : Outcome}
    (h : BoxZero.handle cfg s p = .ok o) (hsent : replied o.sent = 0) (hb : r.blocks = true)
    (hle : (owed o.server).card ≤ (waiting s).card) : ¬ AnswersProperly cfg s p r := by
  rw [answersProperly_iff h hsent]
  rintro ⟨-, ha, -⟩
  have hcard := congrArg Multiset.card ha
  simp [Request.asks, hb] at hcard
  omega

theorem not_answersProperly_of_error {cfg : Config} {p : Packet} {r : Request} {f : Fault}
    (h : BoxZero.handle cfg s p = .error f) : ¬ AnswersProperly cfg s p r := by
  rintro ⟨t, out, he, -⟩
  simp [boxZero, h, Except.map] at he

theorem waiting_setLock {e : ServerLockEntry} (h : s.lock? i = some e) (e' : ServerLockEntry) :
    waiting (s.setLock i e') + e.lock.queue = waiting s + e'.lock.queue := by
  have hh := total_put (fun e : ServerLockEntry => (e.lock.queue : Multiset ClientRequest)) h e'
  simp only [waiting, Server.setLock]
  rw [add_right_comm, hh, add_right_comm]

theorem waiting_removeLock {e : ServerLockEntry} (h : s.lock? i = some e) :
    waiting (s.removeLock i) + e.lock.queue = waiting s := by
  have hh := total_clear (fun e : ServerLockEntry => (e.lock.queue : Multiset ClientRequest)) h
  simp only [waiting, Server.removeLock]
  rw [add_right_comm, hh]

theorem waiting_setCondition {e : ServerConditionEntry} (h : s.condition? i = some e)
    (e' : ServerConditionEntry) :
    waiting (s.setCondition i e') + e.condition.queue = waiting s + e'.condition.queue := by
  have hh := total_put
    (fun e : ServerConditionEntry => (e.condition.queue : Multiset ClientRequest)) h e'
  simp only [waiting, Server.setCondition]
  rw [add_assoc, hh, add_assoc]

theorem waiting_removeCondition {e : ServerConditionEntry} (h : s.condition? i = some e) :
    waiting (s.removeCondition i) + e.condition.queue = waiting s := by
  have hh := total_clear
    (fun e : ServerConditionEntry => (e.condition.queue : Multiset ClientRequest)) h
  simp only [waiting, Server.removeCondition]
  rw [add_assoc, hh]

theorem total_createEntry {α M : Type} [AddCommMonoid M] (f : α → M) (t : SlotTable α)
    (sameName : α → Bool) {fresh : α} (hf : f fresh = 0) :
    total f (createEntry t sameName fresh).1 = total f t := by
  unfold createEntry
  split
  · rfl
  · split
    · rename_i i hi
      dsimp only
      rw [total_put_firstFree f hi, hf, add_zero]
    · rfl

@[simp] theorem waiting_serverCreateLock (s : Server) (name : Name) :
    waiting (serverCreateLock s name).1 = waiting s := by
  simp only [waiting, serverCreateLock]
  rw [total_createEntry _ _ _ (by simp [ServerLock.new]), total_allocate]

@[simp] theorem waiting_serverCreateCV (s : Server) (name : Name) :
    waiting (serverCreateCV s name).1 = waiting s := by
  simp only [waiting, serverCreateCV]
  rw [total_createEntry _ _ _ (by simp [ServerCondition.new]), total_allocate]

/-- The client that a call on a lock or a condition answers, if any. -/
def answeredBy : Option (ClientRequest × Bool) → Multiset ClientRequest
  | some (cr, true) => {cr}
  | _ => 0

/-- An acquirer is answered or joins the queue. -/
theorem waiting_acquire {e : ServerLockEntry} (h : s.lock? i = some e) (c : ClientRequest) :
    answeredBy (some (e.lock.acquire c).2) +
      waiting (storeEntry s i ((EntryOp.acquire c).apply e)) = {c} + waiting s := by
  have hw := waiting_setLock h
    { e with acquireCount := e.acquireCount + 1, lock := (e.lock.acquire c).1 }
  simp only [storeEntry, EntryOp.apply]
  generalize waiting (s.setLock i _) = w at hw ⊢
  unfold ServerLock.acquire at hw ⊢
  split_ifs at hw ⊢
  · simpa [answeredBy] using hw
  · simpa [answeredBy] using hw
  · simp only [← Multiset.coe_add, answeredBy, zero_add] at hw ⊢
    rw [← add_assoc, add_right_comm, add_left_inj] at hw
    rw [hw, add_comm, Multiset.coe_singleton]

/-- The client to which a lock is handed is answered and leaves the queue. -/
theorem waiting_release {e : ServerLockEntry} (h : s.lock? i = some e) (hv : e.lock.Valid)
    (c : ClientRequest) :
    answeredBy (some (e.lock.release c).2) +
      waiting (storeEntry s i ((EntryOp.release c).apply e)) = waiting s := by
  have hqueue : answeredBy (some (e.lock.release c).2) + (e.lock.release c).1.queue =
      (e.lock.queue : Multiset ClientRequest) := by
    by_cases ho : e.lock.currentClientRequest = some c
    · cases hq : e.lock.queue with
      | nil => simp [ServerLock.release_freed ho hq, answeredBy, hq]
      | cons next rest => simp [ServerLock.release_handed ho hq, answeredBy]
    · simp [ServerLock.release_rejected ho, answeredBy]
  simp only [EntryOp.apply]
  split_ifs with hd
  · have hv' := ServerLock.release_valid hv c
    have hempty := hv'.idle (by_contra fun ho => hd.2.2 (hv'.isBusy_iff.mpr ho))
    rw [hempty, Multiset.coe_nil, add_zero] at hqueue
    rw [hqueue, storeEntry, add_comm, waiting_removeLock h]
  · have hw := waiting_setLock h
      { e with acquireCount := e.acquireCount - 1, lock := (e.lock.release c).1 }
    dsimp only at hw
    rw [← hqueue, ← add_assoc, add_left_inj] at hw
    rw [storeEntry, add_comm, hw]

end Bookkeeping

end Nachos.Network
