import Nachos.ServerReplies
import Nachos.ServerLockRuns

/-! The request/reply contract of a server that works alone, kind of message by kind
of message, and then over runs. -/
namespace Nachos.Network
open SlotTables Executions

/-- The three operations on a condition of this machine, with a live lock. -/
def OperationAnswered (s : Server) (cvIndex lockIndex : ℤ) : CVOperation → Prop
  | .signal => True
  | .broadcast => cvIndex < 0 ∨ (cvIndex < s.conditions.length ∧
      ∀ e ∈ s.condition? cvIndex, e.condition.queue = [] ∨ e.condition.waitingLock = lockIndex)
  | .wait => ∃ e ∈ s.condition? cvIndex, e.condition.Accepts lockIndex

instance (s : Server) (i j : ℤ) (op : CVOperation) : Decidable (OperationAnswered s i j op) := by
  cases op <;> unfold OperationAnswered <;> infer_instance

/-- The requests that are answered as their stubs expect. -/
def ReplyCondition (cfg : Config) (s : Server) : Request → Prop
  | .createLock _ | .createCV _ | .destroyMV _ => True
  | .destroyLock _ | .destroyCV _ => False
  | .acquire lockNum | .release lockNum =>
    decodeMachineIDFromLockNumber lockNum = cfg.myMachineID
  | .cvOperation operation cvNum lockNum =>
    decodeMachineIDFromLockNumber lockNum = cfg.myMachineID ∧
      if (s.lock? (decodeIndex cfg lockNum)).isSome then
        decodeMachineIDFromCVNumber cvNum = cfg.myMachineID ∧
          OperationAnswered s (decodeIndex cfg cvNum) (decodeIndex cfg lockNum) operation
      else operation ≠ .wait
  | .createMV numEntries _ name =>
    0 ≤ numEntries ∨ (checkIfMVExists s name).isSome ∨
      (firstFree (allocate maxServerMVArrays s.mvs)).isNone
  | .getMV mvNum _ | .setMV mvNum _ _ => decodeMachineIDFromMVNumber mvNum = cfg.myMachineID

instance (cfg : Config) (s : Server) (r : Request) : Decidable (ReplyCondition cfg s r) := by
  cases r <;> unfold ReplyCondition <;> infer_instance

/-- SIGNAL, WAIT and BROADCAST name a lock of a machine that the test of the source lets pass. -/
def OwnerPossible (cfg : Config) : Request → Prop
  | .cvOperation _ _ lockNum =>
    0 ≤ decodeMachineIDFromLockNumber lockNum ∧
      decodeMachineIDFromLockNumber lockNum ≤ cfg.totalNumServers
  | _ => True

instance (cfg : Config) (r : Request) : Decidable (OwnerPossible cfg r) := by
  cases r <;> unfold OwnerPossible <;> infer_instance

section Conditions
variable {s t : Server} {m b i l : ℤ}

theorem owed_pushWoken (t : Server) (o : Option (ClientRequest × Bool)) :
    owed (BoxZero.pushWoken t o) = answeredBy o + owed t := by
  rcases o with _ | ⟨cr, _ | _⟩
  · simp [BoxZero.pushWoken, answeredBy]
  · simp [BoxZero.pushWoken, answeredBy]
  · simp [BoxZero.pushWoken, answeredBy, ServerResponse.client]

@[simp] theorem waiting_pushWoken (t : Server) (o : Option (ClientRequest × Bool)) :
    waiting (BoxZero.pushWoken t o) = waiting t := by
  rcases o with _ | ⟨cr, _ | _⟩ <;> rfl

/-- A signal answers the client that it takes from the queue. -/
theorem waiting_serverSignal (s : Server) (m b i l : ℤ) :
    answeredBy (serverSignal s m b i l).2 + waiting (serverSignal s m b i l).1 = waiting s ∧
      (serverSignal s m b i l).1.necessaryResponses = s.necessaryResponses := by
  unfold serverSignal
  cases he : s.condition? i with
  | none => simp [answeredBy]
  | some e =>
    dsimp only
    split_ifs
    · simp [answeredBy]
    · refine ⟨?_, rfl⟩
      have hw := waiting_setCondition he { e with condition := (e.condition.signal l ⟨m, b⟩).1 }
      by_cases hk : e.condition.Wakes l
      · obtain ⟨next, rest, hq⟩ := List.exists_cons_of_ne_nil hk.1
        simp only [ServerCondition.signal_of_cons hq hk.2, hq] at hw ⊢
        rw [← Multiset.cons_coe, ← Multiset.singleton_add, ← add_assoc, add_left_inj] at hw
        rw [answeredBy, add_comm, hw]
      · simp only [ServerCondition.signal_of_not_wakes hk] at hw ⊢
        simpa [answeredBy] using hw

/-- `ServerBroadcast` comes back unless it tests the bitmap outside its range or loops,
and answers every client that it takes from the queue. -/
theorem serverBroadcast_ok (h : OperationAnswered s i l .broadcast) :
    ∃ t, serverBroadcast s m b i l = .ok t ∧ owed t = owed s ∧ waiting t ≤ waiting s := by
  unfold serverBroadcast
  split_ifs with h0 hlen
  · exact ⟨s, rfl, rfl, le_rfl⟩
  · rcases h with h | ⟨h, -⟩ <;> omega
  · cases he : s.condition? i with
    | none => exact ⟨s, rfl, rfl, le_rfl⟩
    | some e =>
      have hb : e.condition.queue = [] ∨ e.condition.waitingLock = l := by
        rcases h with h | ⟨-, h⟩
        · exact absurd h h0
        · exact h e he
      have hloop := broadcastLoop_of_bound l ⟨m, b⟩ _ e.condition le_rfl hb
      have hw := waiting_setCondition he { e with condition := { e.condition with
        queue := [], waitingLock := if e.condition.queue = [] then e.condition.waitingLock else -1 } }
      rw [Multiset.coe_nil, add_zero] at hw
      simp only [hloop]
      refine ⟨_, rfl, ?_, ?_⟩
      · have hclients : (e.condition.queue.map fun cr : ClientRequest =>
            (⟨cr.machineID, cr.mailboxNumber, -1⟩ : ServerResponse)).map ServerResponse.client =
            e.condition.queue := by
          simp [ServerResponse.client, Function.comp_def]
        simp only [owed, due, ← Multiset.coe_add, Multiset.map_add, Multiset.map_coe, hclients]
        rw [← hw, add_assoc, add_comm (e.condition.queue : Multiset ClientRequest)]
        rfl
      · rw [← hw]
        exact le_add_of_nonneg_right (Multiset.zero_le _)

theorem serverBroadcast_error (h : ¬ OperationAnswered s i l .broadcast) :
    ∃ f, serverBroadcast s m b i l = .error f := by
  simp only [OperationAnswered, not_or, not_and, not_forall] at h
  obtain ⟨h0, h⟩ := h
  unfold serverBroadcast
  rw [if_neg h0]
  split_ifs with hlen
  · exact ⟨_, rfl⟩
  · obtain ⟨e, he, hq, hl⟩ := h (by omega)
    have he' : s.condition? i = some e := he
    simp only [he', broadcastLoop_of_other l ⟨m, b⟩ _ hq hl]
    exact ⟨_, rfl⟩

/-- `ServerWait` queues the client when the condition accepts the lock, and otherwise
leaves all queues as they are. -/
theorem serverWait_ok (h : serverWait s m b i l = .ok t) :
    t.locks = s.locks ∧ t.necessaryResponses = s.necessaryResponses ∧
      waiting t = (if OperationAnswered s i l .wait then {⟨m, b⟩} else 0) + waiting s := by
  unfold serverWait at h
  split_ifs at h with h0 hlen
  · obtain rfl := Except.ok.inj h
    have hnone : s.condition? i = none := by simp [Server.condition?, live?, h0]
    simp [OperationAnswered, hnone]
  · cases he : s.condition? i with
    | none =>
      simp only [he] at h
      obtain rfl := Except.ok.inj h
      simp [OperationAnswered, he]
    | some e =>
      by_cases ha : e.condition.Accepts l
      · have hw := waiting_setCondition he { e with condition := { e.condition with
          waitingLock := l, queue := e.condition.queue ++ [⟨m, b⟩] } }
        simp only [he, ServerCondition.wait_accepted ha, ServerCondition.hasWaiting] at h
        rw [if_neg (by simp)] at h
        obtain rfl := Except.ok.inj h
        rw [← Multiset.coe_add, ← add_assoc, add_right_comm, add_left_inj] at hw
        refine ⟨rfl, rfl, ?_⟩
        rw [hw, if_pos ⟨e, he, ha⟩, add_comm]
        rfl
      · have hno : ¬ OperationAnswered s i l .wait := by
          rintro ⟨e', he', ha'⟩
          obtain rfl : e = e' := by simpa [he] using he'
          exact ha ha'
        simp only [he, ServerCondition.wait_rejected ha] at h
        rw [if_neg hno, zero_add]
        split_ifs at h with hd
        · obtain rfl := Except.ok.inj h
          refine ⟨rfl, rfl, ?_⟩
          have hq : e.condition.queue = [] := by simpa [ServerCondition.hasWaiting] using hd.2
          simpa [hq] using waiting_removeCondition he
        · obtain rfl := Except.ok.inj h
          refine ⟨rfl, rfl, ?_⟩
          simpa using waiting_setCondition he e

end Conditions

section Kinds
variable {cfg : Config} {s : Server} {p : Packet} {r : Request}

theorem handle_request (hd : p.data = .request r) :
    BoxZero.handle cfg s p = BoxZero.request cfg s p r := by simp [BoxZero.handle, hd]

/-- A message for the server-to-server thread is lost on a server that works alone. -/
theorem toBoxOne_unanswered (hs : s.necessaryResponses = []) (hb : r.blocks = true)
    (hd : p.data = .request r)
    (h : BoxZero.request cfg s p r = .ok (BoxZero.toBoxOne cfg s p)) :
    ¬ AnswersProperly cfg s p r := by
  refine not_answersProperly ((handle_request hd).trans h) ?_ hb (owed_of_noResponses hs ▸ le_rfl)
  simp [replied, BoxZero.toBoxOne, sendMessageWithData, Packet.repliesTo, hd]

/-- The requests that are answered by pushing one response on a state with the same queues. -/
theorem answer_answersProperly {o : Outcome} {t : Server} {v : ℤ} (ht : due t = 0)
    (hw : waiting t = waiting s) (hb : r.blocks = true) (hd : p.data = .request r)
    (h : BoxZero.request cfg s p r = .ok o) (ho : o = BoxZero.answer t p v) :
    AnswersProperly cfg s p r := by
  subst ho
  rw [answersProperly_iff ((handle_request hd).trans h) rfl]
  refine ⟨Or.inl rfl, ?_, fun _ => by simp [BoxZero.answer, hw]⟩
  simp [BoxZero.answer, owed, ht, hw, Request.asks, hb, ServerResponse.client, Packet.response,
    Packet.sender]

theorem due_of_noResponses {t : Server} (h : t.necessaryResponses = []) : due t = 0 := by
  simp [due, h]

theorem createLock_answered (hone : cfg.totalNumServers = 1) (hs : s.necessaryResponses = [])
    {name : Name} (hd : p.data = .request (.createLock name)) :
    AnswersProperly cfg s p (.createLock name) := by
  cases hc : checkIfLockExists s name with
  | some i =>
    exact answer_answersProperly (due_of_noResponses hs) rfl rfl hd rfl
      (by simp [BoxZero.createLock, hc]; rfl)
  | none =>
    have hs' : (serverCreateLock s name).1.necessaryResponses = [] := hs
    exact answer_answersProperly (due_of_noResponses hs') (waiting_serverCreateLock s name) rfl
      hd rfl (by simp [BoxZero.createLock, hc, hone]; rfl)

theorem createCV_answered (hone : cfg.totalNumServers = 1) (hs : s.necessaryResponses = [])
    {name : Name} (hd : p.data = .request (.createCV name)) :
    AnswersProperly cfg s p (.createCV name) := by
  cases hc : checkIfCVExists s name with
  | some i =>
    exact answer_answersProperly (due_of_noResponses hs) rfl rfl hd rfl
      (by simp [BoxZero.createCV, hc]; rfl)
  | none =>
    have hs' : (serverCreateCV s name).1.necessaryResponses = [] := hs
    exact answer_answersProperly (due_of_noResponses hs') (waiting_serverCreateCV s name) rfl
      hd rfl (by simp [BoxZero.createCV, hc, hone]; rfl)

/-- A destroyed lock is not reported to the client, and its waiters are forgotten. -/
theorem destroyLock_unanswered (hs : s.necessaryResponses = []) {n : ℤ}
    (hd : p.data = .request (.destroyLock n)) : ¬ AnswersProperly cfg s p (.destroyLock n) := by
  by_cases hm : decodeMachineIDFromLockNumber n = cfg.myMachineID
  · have hle : (owed (serverDestroyLock s (decodeIndex cfg n))).card ≤ (waiting s).card := by
      unfold serverDestroyLock
      cases he : s.lock? (decodeIndex cfg n) with
      | none => rw [owed_of_noResponses hs]
      | some e =>
        dsimp only
        split_ifs
        · have hw := waiting_setLock he { e with isToBeDeleted := true }
          rw [add_left_inj] at hw
          rw [owed_of_noResponses (by exact hs), hw]
        · rw [owed_of_noResponses (by exact hs), ← waiting_removeLock he]
          exact Multiset.card_le_card (Multiset.le_add_right _ _)
    exact not_answersProperly ((handle_request hd).trans rfl)
      (by simp [BoxZero.destroyLock, hm, replied]) rfl (by simpa [BoxZero.destroyLock, hm] using hle)
  · exact toBoxOne_unanswered hs rfl hd (by simp [BoxZero.request, BoxZero.destroyLock, hm])

theorem destroyCV_unanswered (hs : s.necessaryResponses = []) {n : ℤ}
    (hd : p.data = .request (.destroyCV n)) : ¬ AnswersProperly cfg s p (.destroyCV n) := by
  by_cases hm : decodeMachineIDFromCVNumber n = cfg.myMachineID
  · have hle : (owed (serverDestroyCV s n)).card ≤ (waiting s).card := by
      unfold serverDestroyCV
      cases he : s.condition? n with
      | none => rw [owed_of_noResponses hs]
      | some e =>
        dsimp only
        split_ifs
        · have hw := waiting_setCondition he { e with isToBeDeleted := true }
          rw [add_left_inj] at hw
          rw [owed_of_noResponses (by exact hs), hw]
        · rw [owed_of_noResponses (by exact hs), ← waiting_removeCondition he]
          exact Multiset.card_le_card (Multiset.le_add_right _ _)
    exact not_answersProperly ((handle_request hd).trans rfl)
      (by simp [BoxZero.destroyCV, hm, replied]) rfl (by simpa [BoxZero.destroyCV, hm] using hle)
  · exact toBoxOne_unanswered hs rfl hd (by simp [BoxZero.request, BoxZero.destroyCV, hm])

/-- What has to be shown of a lock operation of this machine. -/
theorem boxZero_answersProperly {t : Server} {out : List Packet}
    (h : boxZero cfg s p = .ok (t, out)) (ht : t.necessaryResponses = [])
    (ha : replied out + waiting t = r.asks p + waiting s)
    (hq : r.mayQueue = false → waiting t ≤ waiting s) : AnswersProperly cfg s p r :=
  ⟨t, out, h, ht, ha, hq⟩

@[simp] theorem replied_nil : replied [] = 0 := rfl

theorem asks_of_blocks (h : r.blocks = true) : r.asks p = {p.sender} := if_pos h

@[simp] theorem replied_replyTo (cfg : Config) (c : ClientRequest) (v : ℤ) (out : List Packet) :
    replied (replyTo cfg c v :: out) = {c} + replied out := by
  simp [replied, replyTo, BoxZero.responsePacket, Packet.repliesTo]

theorem acquire_answered_iff (hs : s.necessaryResponses = []) {n : ℤ}
    (hd : p.data = .request (.acquire n)) :
    AnswersProperly cfg s p (.acquire n) ↔
      decodeMachineIDFromLockNumber n = cfg.myMachineID := by
  constructor
  · intro h
    by_contra hm
    exact toBoxOne_unanswered hs rfl hd (by simp [BoxZero.request, BoxZero.acquire, hm]) h
  · intro hm
    cases he : s.lock? (decodeIndex cfg n) with
    | none =>
      refine boxZero_answersProperly (boxZero_acquire_unknown hs hd hm he) hs ?_ (by simp)
      simp [Request.asks, Request.blocks]
    | some e =>
      refine boxZero_answersProperly (boxZero_acquire_live hs hd hm he) (by simpa using hs) ?_
        (by simp [Request.mayQueue])
      rw [asks_of_blocks rfl, ← waiting_acquire he p.sender]
      have hc := acquire_answers e.lock p.sender
      rcases hb : (e.lock.acquire p.sender).2 with ⟨cr, _ | _⟩
      · simp [answeredBy]
      · rw [hb] at hc
        dsimp only at hc
        simp [answeredBy, hc]

theorem release_answered_iff (hs : s.necessaryResponses = [])
    (hv : ∀ i e, s.lock? i = some e → e.lock.Valid) {n : ℤ}
    (hd : p.data = .request (.release n)) :
    AnswersProperly cfg s p (.release n) ↔
      decodeMachineIDFromLockNumber n = cfg.myMachineID := by
  constructor
  · intro h
    by_contra hm
    exact toBoxOne_unanswered hs rfl hd (by simp [BoxZero.request, BoxZero.release, hm]) h
  · intro hm
    cases he : s.lock? (decodeIndex cfg n) with
    | none =>
      refine boxZero_answersProperly (boxZero_release_unknown hs hd hm he) hs ?_ (by simp)
      simp [Request.asks, Request.blocks]
    | some e =>
      have hw := waiting_release he (hv _ _ he) p.sender
      refine boxZero_answersProperly (boxZero_release_live hs hd hm he) (by simpa using hs) ?_
        (fun _ => ?_)
      · rw [asks_of_blocks rfl, ← hw, replied_replyTo, add_assoc]
        rcases (e.lock.release p.sender).2 with ⟨cr, _ | _⟩ <;> simp [answeredBy]
      · rw [← hw]
        exact le_add_of_nonneg_left (Multiset.zero_le _)

theorem serverCreateMV_waiting {n v : ℤ} {name : Name} {q : Server × ℤ}
    (h : serverCreateMV s name n v = .ok q) :
    waiting q.1 = waiting s ∧ q.1.necessaryResponses = s.necessaryResponses := by
  obtain ⟨hl, hc, hr⟩ := serverCreateMV_frame h
  exact ⟨by simp [waiting, hl, hc], hr⟩

/-- CREATE_MV of a new name crashes on a negative size while a slot is free. -/
theorem serverCreateMV_ok_iff {name : Name} (hnew : checkIfMVExists s name = none) {n v : ℤ} :
    (∃ q, serverCreateMV s name n v = .ok q) ↔
      0 ≤ n ∨ (firstFree (allocate maxServerMVArrays s.mvs)).isNone := by
  have hsearch : search (allocate maxServerMVArrays s.mvs) (fun e => e.name = name) = none := by
    rw [checkIfMVExists, search_none] at hnew
    rw [search_none]
    simpa using hnew
  simp only [serverCreateMV, hsearch]
  by_cases hbig : n > maxServerEntriesPerMVArray
  · have h0 : 0 ≤ n := by simp [maxServerEntriesPerMVArray] at hbig; omega
    simp [hbig, h0]
  · cases hf : firstFree (allocate maxServerMVArrays s.mvs) with
    | none => simp [hbig]
    | some i =>
      by_cases hn : n < 0
      · simp [hbig, hn]
      · simp [hbig, hn]; omega

theorem createMV_answered_iff (hone : cfg.totalNumServers = 1) (hs : s.necessaryResponses = [])
    {n v : ℤ} {name : Name} (hd : p.data = .request (.createMV n v name)) :
    AnswersProperly cfg s p (.createMV n v name) ↔ ReplyCondition cfg s (.createMV n v name) := by
  cases hc : checkIfMVExists s name with
  | some i =>
    refine iff_of_true ?_ (by simp [ReplyCondition, hc])
    have hreq : BoxZero.request cfg s p (.createMV n v name) =
        .ok (BoxZero.answer s p (encodeIndex cfg i)) := by
      simp only [BoxZero.request, BoxZero.createMV, hc]
    exact answer_answersProperly (due_of_noResponses hs) rfl rfl hd hreq rfl
  | none =>
    have hreq : BoxZero.request cfg s p (.createMV n v name) =
        (serverCreateMV s name n v).map fun q => BoxZero.answer q.1 p (encodeIndex cfg q.2) := by
      simp only [BoxZero.request, BoxZero.createMV, hc, hone, if_true]
      cases serverCreateMV s name n v <;> rfl
    have hcond : ReplyCondition cfg s (.createMV n v name) ↔
        ∃ q, serverCreateMV s name n v = .ok q := by
      rw [serverCreateMV_ok_iff hc]
      simp [ReplyCondition, hc]
    rw [hcond]
    cases hq : serverCreateMV s name n v with
    | error f =>
      refine iff_of_false (not_answersProperly_of_error (f := f) ?_) (by simp)
      rw [handle_request hd, hreq, hq]
      rfl
    | ok q =>
      refine iff_of_true ?_ ⟨q, rfl⟩
      obtain ⟨hw, hr⟩ := serverCreateMV_waiting hq
      exact answer_answersProperly (due_of_noResponses (hr.trans hs)) hw rfl hd
        (by rw [hreq, hq]; rfl) rfl

theorem destroyMV_answered (hs : s.necessaryResponses = []) {n : ℤ}
    (hd : p.data = .request (.destroyMV n)) : AnswersProperly cfg s p (.destroyMV n) := by
  by_cases hm : decodeMachineIDFromMVNumber n = cfg.myMachineID
  · have hreq : BoxZero.request cfg s p (.destroyMV n) =
        .ok ⟨serverDestroyMV s (decodeIndex cfg n), [], false⟩ := by
      simp [BoxZero.request, BoxZero.destroyMV, hm]
    have hd' : (serverDestroyMV s (decodeIndex cfg n)).necessaryResponses = [] ∧
        waiting (serverDestroyMV s (decodeIndex cfg n)) = waiting s := by
      unfold serverDestroyMV
      cases s.mv? (decodeIndex cfg n) <;> exact ⟨hs, rfl⟩
    rw [answersProperly_iff ((handle_request hd).trans hreq) rfl]
    exact ⟨Or.inr hd'.1, by simp [owed_of_noResponses hd'.1, hd'.2, Request.asks, Request.blocks],
      fun _ => hd'.2.le⟩
  · have hreq : BoxZero.request cfg s p (.destroyMV n) = .ok (BoxZero.toBoxOne cfg s p) := by
      simp [BoxZero.request, BoxZero.destroyMV, hm]
    rw [answersProperly_iff ((handle_request hd).trans hreq) (by
      simp [replied, BoxZero.toBoxOne, sendMessageWithData, Packet.repliesTo, hd])]
    exact ⟨Or.inr hs, by
      simp [BoxZero.toBoxOne, owed_of_noResponses hs, Request.asks, Request.blocks],
      fun _ => le_rfl⟩

theorem getMV_answered_iff (hs : s.necessaryResponses = []) {n i : ℤ}
    (hd : p.data = .request (.getMV n i)) :
    AnswersProperly cfg s p (.getMV n i) ↔ decodeMachineIDFromMVNumber n = cfg.myMachineID := by
  constructor
  · intro h
    by_contra hm
    exact toBoxOne_unanswered hs rfl hd (by simp [BoxZero.request, BoxZero.getMV, hm]) h
  · intro hm
    exact answer_answersProperly (due_of_noResponses hs) rfl rfl hd rfl
      (by simp [BoxZero.getMV, hm]; rfl)

theorem setMV_answered_iff (hs : s.necessaryResponses = []) {n i v : ℤ}
    (hd : p.data = .request (.setMV n i v)) :
    AnswersProperly cfg s p (.setMV n i v) ↔
      decodeMachineIDFromMVNumber n = cfg.myMachineID := by
  constructor
  · intro h
    by_contra hm
    exact toBoxOne_unanswered hs rfl hd (by simp [BoxZero.request, BoxZero.setMV, hm]) h
  · intro hm
    rw [answersProperly_iff ((handle_request hd).trans rfl) (by simp [BoxZero.setMV, hm])]
    have hset : ∀ t : Server, due (serverSetMV t (decodeIndex cfg n) i v) = due t ∧
        waiting (serverSetMV t (decodeIndex cfg n) i v) = waiting t := by
      intro t
      unfold serverSetMV
      cases t.mv? (decodeIndex cfg n) with
      | none => exact ⟨rfl, rfl⟩
      | some e =>
        dsimp only
        split_ifs <;> exact ⟨rfl, rfl⟩
    obtain ⟨hdue, hwait⟩ := hset (s.pushResponse p.response)
    simp [BoxZero.setMV, hm, owed, hdue, hwait, due_of_noResponses hs, Request.asks,
      Request.blocks]

variable {operation : CVOperation} {cv l cvIndex lockIndex : ℤ} {e : ServerLockEntry}

theorem signal_answered (hs : s.necessaryResponses = [])
    (hd : p.data = .request (.cvOperation .signal cv l))
    (h : BoxZero.request cfg s p (.cvOperation .signal cv l) =
      BoxZero.localOperation s p .signal cvIndex lockIndex false) :
    AnswersProperly cfg s p (.cvOperation .signal cv l) := by
  obtain ⟨hw, hr⟩ := waiting_serverSignal s p.fromMachine p.fromMailbox cvIndex lockIndex
  rw [answersProperly_iff ((handle_request hd).trans (h.trans rfl)) rfl]
  refine ⟨Or.inl rfl, ?_, fun _ => ?_⟩
  · rw [owed_pushResponse, owed_pushWoken, owed_of_noResponses (hr.trans hs), hw,
      asks_of_blocks rfl, response_client]
  · rw [waiting_pushResponse, waiting_pushWoken, ← hw]
    exact le_add_of_nonneg_left (Multiset.zero_le _)

theorem broadcast_answered_iff (hs : s.necessaryResponses = [])
    (hd : p.data = .request (.cvOperation .broadcast cv l))
    (h : BoxZero.request cfg s p (.cvOperation .broadcast cv l) =
      BoxZero.localOperation s p .broadcast cvIndex lockIndex false) :
    AnswersProperly cfg s p (.cvOperation .broadcast cv l) ↔
      OperationAnswered s cvIndex lockIndex .broadcast := by
  by_cases hc : OperationAnswered s cvIndex lockIndex .broadcast
  · refine iff_of_true ?_ hc
    obtain ⟨t, ht, ho, hw⟩ := serverBroadcast_ok (m := p.fromMachine) (b := p.fromMailbox) hc
    have hreq : BoxZero.request cfg s p (.cvOperation .broadcast cv l) =
        .ok ⟨t.pushResponse p.response, [], true⟩ := by
      rw [h, BoxZero.localOperation, ht]
      rfl
    rw [answersProperly_iff ((handle_request hd).trans hreq) rfl]
    refine ⟨Or.inl rfl, ?_, fun _ => by simpa using hw⟩
    rw [owed_pushResponse, ho, owed_of_noResponses hs, asks_of_blocks rfl, response_client]
  · refine iff_of_false ?_ hc
    obtain ⟨f, hf⟩ := serverBroadcast_error (m := p.fromMachine) (b := p.fromMailbox) hc
    refine not_answersProperly_of_error (f := f) ?_
    rw [handle_request hd, h, BoxZero.localOperation, hf]
    rfl

/-- WAIT releases the lock whether or not the condition took the client, so a client
that the condition refuses is neither queued nor answered. -/
theorem wait_answered_iff (hs : s.necessaryResponses = [])
    (hv : ∀ i e, s.lock? i = some e → e.lock.Valid) (he : s.lock? lockIndex = some e)
    (hd : p.data = .request (.cvOperation .wait cv l))
    (h : BoxZero.request cfg s p (.cvOperation .wait cv l) =
      BoxZero.localOperation s p .wait cvIndex lockIndex false) :
    AnswersProperly cfg s p (.cvOperation .wait cv l) ↔
      OperationAnswered s cvIndex lockIndex .wait := by
  cases hw : serverWait s p.fromMachine p.fromMailbox cvIndex lockIndex with
  | error f =>
    refine iff_of_false (not_answersProperly_of_error (f := f) ?_) ?_
    · rw [handle_request hd, h, BoxZero.localOperation, hw]
      rfl
    · rintro ⟨e', he', -⟩
      have hlen := live?_lt_length he'
      unfold serverWait at hw
      have hlt : ¬ s.conditions.length ≤ cvIndex.toNat := by omega
      rw [if_neg (by omega), if_neg hlt] at hw
      split at hw
      · cases hw
      · dsimp only at hw
        split_ifs at hw
  | ok t =>
    obtain ⟨hlocks, hr, hwait⟩ := serverWait_ok hw
    have he' : t.lock? lockIndex = some e := by rw [Server.lock?, hlocks]; exact he
    have hrel := waiting_release he' (hv _ _ he) p.sender
    -- the outcome owes an answer to the client that got the lock, and nothing else
    have hreq : ∃ o, BoxZero.request cfg s p (.cvOperation .wait cv l) = .ok o ∧
        replied o.sent = 0 ∧ (o.respond = true ∨ o.server.necessaryResponses = []) ∧
        owed o.server = waiting t := by
      have hr' : ∀ o, (storeEntry t lockIndex o).necessaryResponses = [] := fun o => by
        rw [necessaryResponses_storeEntry, hr, hs]
      rw [← hrel, ← owed_of_noResponses (hr' ((EntryOp.release p.sender).apply e))]
      have hsr := serverRelease_live (m := p.fromMachine) (b := p.fromMailbox) he'
      rw [h, BoxZero.localOperation, hw]
      simp only [bind, Except.bind, hsr]
      rcases hb : (e.lock.release p.sender).2 with ⟨cr, _ | _⟩
      · have hb' : (e.lock.release ⟨p.fromMachine, p.fromMailbox⟩).2 = (cr, false) := hb
        simp only [hb']
        exact ⟨_, rfl, rfl, Or.inr (hr' _), by simp [answeredBy]; rfl⟩
      · have hb' : (e.lock.release ⟨p.fromMachine, p.fromMailbox⟩).2 = (cr, true) := hb
        simp only [hb']
        exact ⟨_, rfl, rfl, Or.inl rfl, owed_pushWoken _ _⟩
    obtain ⟨o, ho, hsent, hresp, howed⟩ := hreq
    by_cases hc : OperationAnswered s cvIndex lockIndex .wait
    · refine iff_of_true ?_ hc
      rw [if_pos hc] at hwait
      rw [answersProperly_iff ((handle_request hd).trans ho) hsent]
      exact ⟨hresp, howed.trans hwait, by simp [Request.mayQueue]⟩
    · refine iff_of_false (not_answersProperly ((handle_request hd).trans ho) hsent rfl ?_) hc
      rw [if_neg hc, zero_add] at hwait
      rw [howed, hwait]

/-- A lock of another machine is never found: the query goes to a server that does not
exist, and an impossible owner leaves its response in the list. -/
theorem queryLockOwner_unanswered (hs : s.necessaryResponses = [])
    (hd : p.data = .request (.cvOperation operation cv l))
    (hm : decodeMachineIDFromLockNumber l ≠ cfg.myMachineID) :
    ¬ AnswersProperly cfg s p (.cvOperation operation cv l) := by
  have hreq : BoxZero.request cfg s p (.cvOperation operation cv l) =
      .ok (BoxZero.queryLockOwner cfg (if decide (decodeMachineIDFromLockNumber l < 0 ∨
        decodeMachineIDFromLockNumber l > cfg.totalNumServers) then s.pushResponse p.response
        else s) p operation cv l) := by
    simp only [BoxZero.request, BoxZero.cvOperation, hm, if_false]
  rw [answersProperly_iff ((handle_request hd).trans hreq) rfl]
  rintro ⟨hr, ha, -⟩
  split_ifs at hr ha
  · simp [BoxZero.queryLockOwner, Server.pushResponse] at hr
  · have hcard := congrArg Multiset.card ha
    have ho : owed (BoxZero.queryLockOwner cfg s p operation cv l).server = waiting s :=
      owed_of_noResponses hs
    rw [ho] at hcard
    simp [Request.asks, Request.blocks] at hcard

theorem cvOperation_answered_iff (hmy : cfg.myMachineID = 0) (hs : s.necessaryResponses = [])
    (hv : ∀ i e, s.lock? i = some e → e.lock.Valid)
    (hd : p.data = .request (.cvOperation operation cv l)) :
    AnswersProperly cfg s p (.cvOperation operation cv l) ↔
      ReplyCondition cfg s (.cvOperation operation cv l) := by
  by_cases hm : decodeMachineIDFromLockNumber l = cfg.myMachineID
  swap
  · exact iff_of_false (queryLockOwner_unanswered hs hd hm) (fun h => hm h.1)
  have hown := @BoxZero.cvOperation_own cfg s p operation cv l (by omega) (by omega) hm
  cases he : s.lock? (decodeIndex cfg l) with
  | none =>
    have hreq : BoxZero.request cfg s p (.cvOperation operation cv l) =
        if operation = .wait then .ok ⟨s, [], true⟩
        else .ok ⟨s.pushResponse p.response, [], true⟩ := by
      simp only [BoxZero.request, hown, he]
    by_cases hop : operation = .wait
    · rw [if_pos hop] at hreq
      refine iff_of_false (not_answersProperly ((handle_request hd).trans hreq) rfl rfl
        (owed_of_noResponses hs ▸ le_rfl)) ?_
      simp [ReplyCondition, he, hop]
    · rw [if_neg hop] at hreq
      refine iff_of_true ?_ (by simp [ReplyCondition, he, hop, hm])
      rw [answersProperly_iff ((handle_request hd).trans hreq) rfl]
      refine ⟨Or.inl rfl, ?_, fun _ => le_rfl⟩
      rw [owed_pushResponse, owed_of_noResponses hs, asks_of_blocks rfl, response_client]
  | some e =>
    by_cases hc : decodeMachineIDFromCVNumber cv = cfg.myMachineID
    · have hreq : BoxZero.request cfg s p (.cvOperation operation cv l) =
          BoxZero.localOperation s p operation (decodeIndex cfg cv) (decodeIndex cfg l) false := by
        simp only [BoxZero.request, hown, he, hc, if_true]
      have hcond : ReplyCondition cfg s (.cvOperation operation cv l) ↔
          OperationAnswered s (decodeIndex cfg cv) (decodeIndex cfg l) operation := by
        simp [ReplyCondition, he, hm, hc]
      rw [hcond]
      cases operation with
      | signal => exact iff_of_true (signal_answered hs hd hreq) trivial
      | broadcast => exact broadcast_answered_iff hs hd hreq
      | wait => exact wait_answered_iff hs hv he hd hreq
    · have hreq : BoxZero.request cfg s p (.cvOperation operation cv l) =
          .ok (BoxZero.toBoxOne cfg s p) := by
        simp only [BoxZero.request, hown, he, hc, if_false]
      refine iff_of_false (toBoxOne_unanswered hs rfl hd hreq) ?_
      simp [ReplyCondition, he, hc]

/-- Every request, by the case analysis above. -/
theorem request_answered_iff (hone : cfg.totalNumServers = 1) (hmy : cfg.myMachineID = 0)
    (hs : s.necessaryResponses = []) (hv : ∀ i e, s.lock? i = some e → e.lock.Valid)
    (hd : p.data = .request r) : AnswersProperly cfg s p r ↔ ReplyCondition cfg s r := by
  cases r with
  | createLock name => exact iff_of_true (createLock_answered hone hs hd) trivial
  | createCV name => exact iff_of_true (createCV_answered hone hs hd) trivial
  | destroyLock n => exact iff_of_false (destroyLock_unanswered hs hd) id
  | destroyCV n => exact iff_of_false (destroyCV_unanswered hs hd) id
  | acquire n => exact acquire_answered_iff hs hd
  | release n => exact release_answered_iff hs hv hd
  | cvOperation operation cv l => exact cvOperation_answered_iff hmy hs hv hd
  | createMV n v name => exact createMV_answered_iff hone hs hd
  | destroyMV n => exact iff_of_true (destroyMV_answered hs hd) trivial
  | getMV n i => exact getMV_answered_iff hs hd
  | setMV n i v => exact setMV_answered_iff hs hd

end Kinds

def LocksValid (s : Server) : Prop := ∀ i e, s.lock? i = some e → e.lock.Valid

section Validity
variable {cfg : Config} {s t : Server} {p : Packet}

theorem LocksValid.of_locks (h : LocksValid s) (ht : t.locks = s.locks) : LocksValid t := by
  intro i e he
  exact h i e (by simpa [Server.lock?, ht] using he)

theorem LocksValid.addsLocks (h : LocksValid s) (ht : AddsLocks s t) : LocksValid t := by
  intro i e he
  rcases ht i with hi | ⟨-, name, hi⟩
  · exact h i e (hi ▸ he)
  · obtain rfl : _ = e := Option.some.inj (hi.symm.trans he)
    exact ServerLock.new_valid name

theorem LocksValid.applyTarget (h : LocksValid s) (i : ℤ) (op : EntryOp) :
    LocksValid (applyTarget s (some (i, op))) := by
  intro j e he
  rw [applyTarget_lock?] at he
  split_ifs at he
  · obtain ⟨b, hb, ha⟩ := Option.bind_eq_some_iff.mp he
    exact EntryOp.apply_valid (h i b hb) ha
  · exact h j e he

theorem serverAcquire_eq (s : Server) (m b i : ℤ) :
    (serverAcquire s m b i).1 = applyTarget s (some (i, .acquire ⟨m, b⟩)) := by
  cases he : s.lock? i with
  | none => simp [serverAcquire, applyTarget, he]
  | some e => simp [serverAcquire_live he, applyTarget, he]

theorem serverRelease_eq (s : Server) (m b i : ℤ) :
    (serverRelease s m b i).1 = applyTarget s (some (i, .release ⟨m, b⟩)) := by
  cases he : s.lock? i with
  | none => simp [serverRelease, applyTarget, he]
  | some e => simp [serverRelease_live he, applyTarget, he]

theorem serverDestroyLock_eq (s : Server) (i : ℤ) :
    serverDestroyLock s i = applyTarget s (some (i, .destroy)) := by
  cases he : s.lock? i with
  | none => simp [serverDestroyLock, applyTarget, he]
  | some e => simp [serverDestroyLock_live he, applyTarget, he]

theorem pushWoken_locks (s : Server) (o : Option (ClientRequest × Bool)) :
    (BoxZero.pushWoken s o).locks = s.locks := by
  rcases o with _ | ⟨cr, _ | _⟩ <;> rfl

theorem serverSignal_locks (s : Server) (m b i l : ℤ) :
    (serverSignal s m b i l).1.locks = s.locks := by
  unfold serverSignal
  cases s.condition? i with
  | none => rfl
  | some e =>
    dsimp only
    split_ifs <;> rfl

theorem serverBroadcast_locks {m b i l : ℤ} (h : serverBroadcast s m b i l = .ok t) :
    t.locks = s.locks := by
  unfold serverBroadcast at h
  split_ifs at h
  · rw [Except.ok.inj h]
  · split at h
    · rw [Except.ok.inj h]
    · split at h
      · cases h
      · rw [← Except.ok.inj h]
        rfl

theorem localOperation_valid {operation : CVOperation} {i l : ℤ} {respond : Bool} {o : Outcome}
    (h : BoxZero.localOperation s p operation i l respond = .ok o) (hv : LocksValid s) :
    LocksValid o.server := by
  cases operation with
  | signal =>
    obtain rfl := Except.ok.inj h
    exact hv.of_locks ((pushWoken_locks _ _).trans (serverSignal_locks _ _ _ _ _))
  | broadcast =>
    obtain ⟨t, ht, ho⟩ := BoxOne.bind_eq_ok.mp h
    obtain rfl := Except.ok.inj ho
    exact hv.of_locks (t := t.pushResponse p.response)
      (serverBroadcast_locks ht : t.locks = s.locks)
  | wait =>
    obtain ⟨t, ht, ho⟩ := BoxOne.bind_eq_ok.mp h
    have hrel : LocksValid (serverRelease t p.fromMachine p.fromMailbox l).1 := by
      rw [serverRelease_eq]
      exact (hv.of_locks (serverWait_ok ht).1).applyTarget l _
    dsimp only at ho
    split at ho
    · cases ho
    · obtain rfl := Except.ok.inj ho
      exact hrel.of_locks (pushWoken_locks _ _)
    · obtain rfl := Except.ok.inj ho
      exact hrel

/-- No request makes a lock ill-formed. -/
theorem request_valid {r : Request} {o : Outcome} (h : BoxZero.request cfg s p r = .ok o)
    (hv : LocksValid s) : LocksValid o.server := by
  cases r with
  | createLock name =>
    obtain rfl := Except.ok.inj h
    unfold BoxZero.createLock
    split
    · exact hv.of_locks rfl
    · split_ifs
      · exact hv.addsLocks (@AddsLocks.create s _ name rfl)
      · exact hv
  | createCV name =>
    obtain rfl := Except.ok.inj h
    unfold BoxZero.createCV
    split
    · exact hv.of_locks rfl
    · split_ifs
      · exact hv.of_locks rfl
      · exact hv
  | destroyLock n =>
    obtain rfl := Except.ok.inj h
    unfold BoxZero.destroyLock
    split_ifs
    · exact hv
    · dsimp only
      rw [serverDestroyLock_eq]
      exact hv.applyTarget _ _
  | destroyCV n =>
    obtain rfl := Except.ok.inj h
    unfold BoxZero.destroyCV
    split_ifs
    · exact hv
    · refine hv.of_locks ?_
      unfold serverDestroyCV
      split
      · rfl
      · split_ifs <;> rfl
  | acquire n =>
    obtain rfl := Except.ok.inj h
    unfold BoxZero.acquire
    have hacq := serverAcquire_eq s p.fromMachine p.fromMailbox (decodeIndex cfg n) ▸
      hv.applyTarget (decodeIndex cfg n) (.acquire ⟨p.fromMachine, p.fromMailbox⟩)
    split_ifs
    · exact hv
    · dsimp only
      split <;> exact hacq.of_locks rfl
  | release n =>
    obtain rfl := Except.ok.inj h
    unfold BoxZero.release
    have hrel := serverRelease_eq s p.fromMachine p.fromMailbox (decodeIndex cfg n) ▸
      hv.applyTarget (decodeIndex cfg n) (.release ⟨p.fromMachine, p.fromMailbox⟩)
    split_ifs
    · exact hv
    · dsimp only
      split <;> exact hrel.of_locks rfl
  | cvOperation operation cv l =>
    simp only [BoxZero.request, BoxZero.cvOperation] at h
    generalize decide (decodeMachineIDFromLockNumber l < 0 ∨
      decodeMachineIDFromLockNumber l > (cfg.totalNumServers : ℤ)) = invalid at h
    have hv' : LocksValid (if invalid = true then s.pushResponse p.response else s) := by
      split_ifs
      · exact hv.of_locks rfl
      · exact hv
    generalize (if invalid = true then s.pushResponse p.response else s) = u at h hv'
    split at h
    · split at h
      · split at h
        · rw [← Except.ok.inj h]
          exact hv'
        · rw [← Except.ok.inj h]
          exact hv'.of_locks rfl
      · split at h
        · exact localOperation_valid h hv'
        · rw [← Except.ok.inj h]
          exact hv'
    · rw [← Except.ok.inj h]
      exact hv'.of_locks rfl
  | createMV n v name =>
    simp only [BoxZero.request, BoxZero.createMV] at h
    split at h
    · obtain rfl := Except.ok.inj h
      exact hv.of_locks rfl
    · split_ifs at h
      · obtain ⟨q, hq, ho⟩ := BoxOne.bind_eq_ok.mp h
        obtain rfl := Except.ok.inj ho
        exact hv.of_locks (t := q.1.pushResponse _) (serverCreateMV_frame hq).1
      · obtain rfl := Except.ok.inj h
        exact hv
  | destroyMV n =>
    obtain rfl := Except.ok.inj h
    unfold BoxZero.destroyMV
    split_ifs
    · exact hv
    · refine hv.of_locks ?_
      unfold serverDestroyMV
      split <;> rfl
  | getMV n i =>
    obtain rfl := Except.ok.inj h
    unfold BoxZero.getMV
    split_ifs
    · exact hv
    · exact hv.of_locks rfl
  | setMV n i v =>
    obtain rfl := Except.ok.inj h
    unfold BoxZero.setMV
    split_ifs
    · exact hv
    · refine hv.of_locks ?_
      unfold serverSetMV
      split
      · rfl
      · split_ifs <;> rfl

theorem localOperation_flushes {operation : CVOperation} {i l : ℤ} {o : Outcome}
    (hs : s.necessaryResponses = [])
    (h : BoxZero.localOperation s p operation i l false = .ok o) :
    o.respond = true ∨ o.server.necessaryResponses = [] := by
  cases operation with
  | signal =>
    obtain rfl := Except.ok.inj h
    exact .inl rfl
  | broadcast =>
    obtain ⟨t, -, ho⟩ := BoxOne.bind_eq_ok.mp h
    obtain rfl := Except.ok.inj ho
    exact .inl rfl
  | wait =>
    obtain ⟨t, ht, ho⟩ := BoxOne.bind_eq_ok.mp h
    dsimp only at ho
    split at ho
    · cases ho
    · obtain rfl := Except.ok.inj ho
      exact .inl rfl
    · obtain rfl := Except.ok.inj ho
      right
      rw [serverRelease_eq, necessaryResponses_applyTarget, (serverWait_ok ht).2.1, hs]

/-- What is pushed is also sent, unless the lock's machine is impossible. -/
theorem request_flushes {r : Request} {o : Outcome} (hs : s.necessaryResponses = [])
    (hr : OwnerPossible cfg r) (h : BoxZero.request cfg s p r = .ok o) :
    o.respond = true ∨ o.server.necessaryResponses = [] := by
  cases r with
  | createLock name =>
    obtain rfl := Except.ok.inj h
    unfold BoxZero.createLock
    split
    · exact .inl rfl
    · split_ifs
      · exact .inl rfl
      · exact .inr hs
  | createCV name =>
    obtain rfl := Except.ok.inj h
    unfold BoxZero.createCV
    split
    · exact .inl rfl
    · split_ifs
      · exact .inl rfl
      · exact .inr hs
  | destroyLock n =>
    obtain rfl := Except.ok.inj h
    unfold BoxZero.destroyLock
    split_ifs
    · exact .inr hs
    · exact .inr ((serverDestroy_responses s _).1.trans hs)
  | destroyCV n =>
    obtain rfl := Except.ok.inj h
    unfold BoxZero.destroyCV
    split_ifs
    · exact .inr hs
    · exact .inr ((serverDestroy_responses s _).2.1.trans hs)
  | destroyMV n =>
    obtain rfl := Except.ok.inj h
    unfold BoxZero.destroyMV
    split_ifs
    · exact .inr hs
    · exact .inr ((serverDestroy_responses s _).2.2.trans hs)
  | acquire n =>
    obtain rfl := Except.ok.inj h
    unfold BoxZero.acquire
    split_ifs
    · exact .inr hs
    · dsimp only
      split
      · exact .inl rfl
      · exact .inl rfl
      · right
        rw [serverAcquire_eq, necessaryResponses_applyTarget, hs]
  | release n =>
    obtain rfl := Except.ok.inj h
    unfold BoxZero.release
    split_ifs
    · exact .inr hs
    · dsimp only
      split <;> exact .inl rfl
  | cvOperation operation cv l =>
    obtain ⟨h0, hn⟩ := hr
    by_cases hm : decodeMachineIDFromLockNumber l = cfg.myMachineID
    · rw [BoxZero.request, BoxZero.cvOperation_own (hm ▸ h0) (hm ▸ hn) hm] at h
      split at h
      · split_ifs at h <;> obtain rfl := Except.ok.inj h <;> exact .inl rfl
      · split_ifs at h
        · exact localOperation_flushes hs h
        · obtain rfl := Except.ok.inj h
          exact .inr hs
    · rw [BoxZero.request, BoxZero.cvOperation_foreign h0 hn hm] at h
      obtain rfl := Except.ok.inj h
      exact .inr hs
  | createMV n v name =>
    simp only [BoxZero.request, BoxZero.createMV] at h
    split at h
    · obtain rfl := Except.ok.inj h
      exact .inl rfl
    · split_ifs at h
      · obtain ⟨q, -, ho⟩ := BoxOne.bind_eq_ok.mp h
        obtain rfl := Except.ok.inj ho
        exact .inl rfl
      · obtain rfl := Except.ok.inj h
        exact .inr hs
  | getMV n i =>
    obtain rfl := Except.ok.inj h
    unfold BoxZero.getMV
    split_ifs
    · exact .inr hs
    · exact .inl rfl
  | setMV n i v =>
    obtain rfl := Except.ok.inj h
    unfold BoxZero.setMV
    split_ifs
    · exact .inr hs
    · exact .inl rfl

/-- One request and the response loop. -/
theorem boxZero_request {r : Request} {out : List Packet} (hd : p.data = .request r)
    (h : boxZero cfg s p = .ok (t, out)) :
    ∃ o, BoxZero.request cfg s p r = .ok o ∧ BoxZero.flush cfg o = (t, out) := by
  rw [boxZero, handle_request hd] at h
  cases ho : BoxZero.request cfg s p r with
  | error f => simp [ho, Except.map] at h
  | ok o =>
    rw [ho] at h
    exact ⟨o, rfl, Except.ok.inj h⟩

theorem boxZero_flushes {r : Request} {out : List Packet} (hs : s.necessaryResponses = [])
    (hd : p.data = .request r) (hr : OwnerPossible cfg r) (h : boxZero cfg s p = .ok (t, out)) :
    t.necessaryResponses = [] := by
  obtain ⟨o, ho, hflush⟩ := boxZero_request hd h
  obtain rfl : (BoxZero.flush cfg o).1 = t := congrArg Prod.fst hflush
  unfold BoxZero.flush
  split_ifs with hrespond
  · rfl
  · exact (request_flushes hs hr ho).resolve_left hrespond

theorem boxZero_valid {r : Request} {out : List Packet} (hv : LocksValid s)
    (hd : p.data = .request r) (h : boxZero cfg s p = .ok (t, out)) : LocksValid t := by
  obtain ⟨o, ho, hflush⟩ := boxZero_request hd h
  obtain rfl : (BoxZero.flush cfg o).1 = t := congrArg Prod.fst hflush
  unfold BoxZero.flush
  split_ifs
  · exact (request_valid ho hv).of_locks rfl
  · exact request_valid ho hv

end Validity

section Runs
variable {cfg : Config} {s : Server} {tr : List BoxZeroStep}

/-- A server at work between two messages: nothing is left to send. -/
structure AtReceive (s : Server) : Prop where
  noResponses : s.necessaryResponses = []
  valid : LocksValid s

/-- The contract is kept in this step. -/
def KeepsContract (x : BoxZeroStep) : Prop :=
  ∀ r, x.event.1.data = .request r → ReplyContract x.before x.event.1 r x.after x.event.2

def MeetsReplyCondition (cfg : Config) (s : Server) (p : Packet) : Prop :=
  ∃ r, p.data = .request r ∧ ReplyCondition cfg s r

/-- What a request gets, known before it is handled. -/
theorem keepsContract_iff (hone : cfg.totalNumServers = 1) (hmy : cfg.myMachineID = 0)
    {x : BoxZeroStep} {r : Request} (hs : AtReceive x.before)
    (hstep : Handles (boxZero cfg) x.before x.event x.after) (hd : x.event.1.data = .request r) :
    KeepsContract x ↔ MeetsReplyCondition cfg x.before x.event.1 := by
  have hone' : ∀ r', x.event.1.data = .request r' → r = r' := fun r' hr' =>
    Message.request.inj (hd.symm.trans hr')
  have hiff := request_answered_iff hone hmy hs.noResponses hs.valid hd
  constructor
  · exact fun h => ⟨r, hd, hiff.mp ⟨x.after, x.event.2, hstep, h r hd⟩⟩
  · rintro ⟨r', hr', hc⟩ r'' hr''
    obtain rfl := hone' r' hr'
    obtain rfl := hone' r'' hr''
    obtain ⟨t, out, hbox, hcon⟩ := hiff.mpr hc
    obtain ⟨rfl, rfl⟩ := Prod.mk.inj (Except.ok.inj (hbox.symm.trans hstep))
    exact hcon

/-- A single server, from its start, in any run of requests that name possible owners: the contract
is kept exactly in the steps that meet the condition, and the next request is answered exactly when
it meets the condition. -/
theorem singleServer_answers_iff (hone : cfg.totalNumServers = 1) (hmy : cfg.myMachineID = 0)
    (hrun : Execution (Handles (boxZero cfg)) .initial tr s)
    (hr : ∀ x ∈ tr, ∃ r, x.event.1.data = .request r ∧ OwnerPossible cfg r) :
    (∀ x ∈ tr, KeepsContract x ↔ MeetsReplyCondition cfg x.before x.event.1) ∧
      ∀ p r, p.data = .request r → (AnswersProperly cfg s p r ↔ ReplyCondition cfg s r) := by
  have h0 : AtReceive .initial := ⟨rfl, fun i e he => by simp [Server.initial, Server.lock?] at he⟩
  have hrun' := hrun.restrict (Q := fun e => ∃ r, e.1.data = .request r ∧ OwnerPossible cfg r) hr
  have hnext : ∀ (s : Server) (e : Packet × List Packet) (t : Server), AtReceive s →
      Handles (boxZero cfg) s e t ∧ (∃ r, e.1.data = .request r ∧ OwnerPossible cfg r) →
      AtReceive t := by
    rintro s e t hs ⟨hstep, r, hd, ho⟩
    exact ⟨boxZero_flushes hs.noResponses hd ho hstep, boxZero_valid hs.valid hd hstep⟩
  refine ⟨fun x hx => ?_, fun p r hd => ?_⟩
  · obtain ⟨hs, hstep, r, hd, -⟩ := hrun'.mem h0 hnext hx
    exact keepsContract_iff hone hmy hs hstep hd
  · have hs := hrun'.invariant h0 hnext
    exact request_answered_iff hone hmy hs.noResponses hs.valid hd

/-- A test that requests alone can pass. -/
def Message.passes (test : Request → Bool) : Message → Bool
  | .request r => test r
  | _ => false

theorem Message.exists_of_passes {test : Request → Bool} {m : Message} (h : m.passes test = true) :
    ∃ r, m = .request r ∧ test r = true := by
  cases m with
  | request r => exact ⟨r, rfl, h⟩
  | _ => cases h

/-- A lock is destroyed and made again; then one client waits, and another gets the lock and
signals. -/
theorem singleServer_answers_monitor : ∃ tr s,
    Execution (Handles (boxZero ⟨0, 1, false⟩)) .initial tr s ∧ tr.length = 8 ∧
      (∀ x ∈ tr, KeepsContract x ↔ x.event.1.data ≠ .request (.destroyLock 0)) ∧
      (∃ x ∈ tr, ¬ KeepsContract x) ∧
      AnswersProperly ⟨0, 1, false⟩ s ⟨0, 0, 2, 0, .request (.release 0)⟩ (.release 0) := by
  obtain ⟨tr, s, hrun, hmap, htest⟩ := exists_of_trace (boxZero ⟨0, 1, false⟩) .initial
    [⟨0, 0, 1, 0, .request (.createLock [97])⟩, ⟨0, 0, 1, 0, .request (.destroyLock 0)⟩,
      ⟨0, 0, 1, 0, .request (.createLock [97])⟩, ⟨0, 0, 1, 0, .request (.createCV [98])⟩,
      ⟨0, 0, 1, 0, .request (.acquire 0)⟩, ⟨0, 0, 2, 0, .request (.acquire 0)⟩,
      ⟨0, 0, 1, 0, .request (.cvOperation .wait 0 0)⟩,
      ⟨0, 0, 2, 0, .request (.cvOperation .signal 0 0)⟩]
    (fun r => (r.1.all fun x => x.event.1.data.passes fun q => OwnerPossible ⟨0, 1, false⟩ q &&
        decide (ReplyCondition ⟨0, 1, false⟩ x.before q ↔ q ≠ .destroyLock 0)) &&
      decide (ReplyCondition ⟨0, 1, false⟩ r.2 (.release 0)))
    (by decide +kernel)
  simp only [Bool.and_eq_true, List.all_eq_true, decide_eq_true_eq] at htest
  obtain ⟨hall, hrel⟩ := htest
  have hpass : ∀ x ∈ tr, ∃ r, x.event.1.data = .request r ∧ OwnerPossible ⟨0, 1, false⟩ r ∧
      (ReplyCondition ⟨0, 1, false⟩ x.before r ↔ r ≠ .destroyLock 0) := by
    intro x hx
    obtain ⟨r, hd, htest⟩ := Message.exists_of_passes (hall x hx)
    simp only [Bool.and_eq_true, decide_eq_true_eq] at htest
    exact ⟨r, hd, htest⟩
  obtain ⟨hkeeps, hnext⟩ := singleServer_answers_iff rfl rfl hrun fun x hx =>
    (hpass x hx).imp fun r h => ⟨h.1, h.2.1⟩
  have hiff : ∀ x ∈ tr, KeepsContract x ↔ x.event.1.data ≠ .request (.destroyLock 0) := by
    intro x hx
    obtain ⟨r, hd, -, hr⟩ := hpass x hx
    rw [hkeeps x hx, hd, Ne, Message.request.injEq, ← Ne, ← hr]
    exact ⟨fun ⟨r', hd', hc⟩ => Message.request.inj (hd.symm.trans hd') ▸ hc, fun hc => ⟨r, hd, hc⟩⟩
  refine ⟨tr, s, hrun, by simpa using congrArg List.length hmap, hiff, ?_, (hnext _ _ rfl).mpr hrel⟩
  have hmem : (⟨0, 0, 1, 0, .request (.destroyLock 0)⟩ : Packet) ∈ tr.map fun x => x.event.1 := by
    simp [hmap]
  obtain ⟨x, hx, he⟩ := List.mem_map.mp hmem
  exact ⟨x, hx, fun hk => (hiff x hx).mp hk (by rw [he])⟩

/-- The client of a DESTROY_LOCK never gets an answer. -/
theorem destroyLock_blocks_client : ∃ tr s,
    Execution (Handles (boxZero ⟨0, 1, false⟩)) .initial tr s ∧
      (∀ x ∈ tr, ∃ r, x.event.1.data = .request r) ∧
      ∃ p r, p.data = .request r ∧ r.blocks = true ∧ ¬ AnswersProperly ⟨0, 1, false⟩ s p r := by
  obtain ⟨tr, s, hrun, hmap, htest⟩ := exists_of_trace (boxZero ⟨0, 1, false⟩) .initial
    [⟨0, 0, 1, 0, .request (.createLock [97])⟩]
    (fun r => r.2.necessaryResponses = []) (by decide +kernel)
  refine ⟨tr, s, hrun, forall_inputs (Q := fun p => ∃ r, p.data = .request r) hmap (by simp),
    ⟨0, 0, 1, 0, .request (.destroyLock 0)⟩,
    .destroyLock 0, rfl, rfl, destroyLock_unanswered (of_decide_eq_true htest) rfl⟩

end Runs

end Nachos.Network
