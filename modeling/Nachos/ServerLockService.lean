import Nachos.Executions
import Nachos.ServerBoxZero

/-! What ACQUIRE, RELEASE and DESTROY_LOCK do to the entry of one lock and which
replies they send. Everything later about server locks rests on these equations. -/
namespace Nachos.Network
open SlotTables Executions

/-- One iteration of `Server()`: the message received and the messages sent. -/
abbrev BoxZeroStep := Transition Server (Packet × List Packet)

/-- The answer `data` to a client from mailbox 0. -/
def replyTo (cfg : Config) (cr : ClientRequest) (data : ℤ) : Packet :=
  BoxZero.responsePacket cfg ⟨cr.machineID, cr.mailboxNumber, data⟩

/-- An operation on the entry of one lock. -/
inductive EntryOp
  | acquire (client : ClientRequest)
  | release (client : ClientRequest)
  | destroy
  | watch
  deriving DecidableEq, Repr

/-- The entry after the operation; `none` when the lock is removed from the table. -/
def EntryOp.apply (e : ServerLockEntry) : EntryOp → Option ServerLockEntry
  | .acquire c => some { e with acquireCount := e.acquireCount + 1, lock := (e.lock.acquire c).1 }
  | .release c =>
    if e.isToBeDeleted ∧ e.acquireCount - 1 = 0 ∧ ¬ (e.lock.release c).1.isBusy then none
    else some { e with acquireCount := e.acquireCount - 1, lock := (e.lock.release c).1 }
  | .destroy =>
    if ¬ (e.lock.isBusy ∧ e.acquireCount = 0) then none
    else some { e with isToBeDeleted := true }
  | .watch =>
    match e.lock.currentClientRequest with
    | none => some e
    | some owner => some { e with lock := (e.lock.release owner).1 }

/-- Store the outcome of an operation on a live entry. -/
def storeEntry (s : Server) (lockIndex : ℤ) : Option ServerLockEntry → Server
  | none => s.removeLock lockIndex
  | some e => s.setLock lockIndex e

theorem lock?_storeEntry {s : Server} {i : ℤ} {b : ServerLockEntry} (h : s.lock? i = some b)
    (o : Option ServerLockEntry) (j : ℤ) :
    (storeEntry s i o).lock? j = if j = i then o else s.lock? j := by
  cases o with
  | none => exact Server.lock?_removeLock h j
  | some e => exact Server.lock?_setLock h e j

@[simp] theorem necessaryResponses_storeEntry (s : Server) (i : ℤ) (o : Option ServerLockEntry) :
    (storeEntry s i o).necessaryResponses = s.necessaryResponses := by cases o <;> rfl

theorem serverAcquire_live {s : Server} {i m b : ℤ} {e : ServerLockEntry}
    (h : s.lock? i = some e) :
    serverAcquire s m b i = (storeEntry s i ((EntryOp.acquire ⟨m, b⟩).apply e),
      some (e.lock.acquire ⟨m, b⟩).2) := by
  simp [serverAcquire, h, storeEntry, EntryOp.apply]

theorem serverRelease_live {s : Server} {i m b : ℤ} {e : ServerLockEntry}
    (h : s.lock? i = some e) :
    serverRelease s m b i = (storeEntry s i ((EntryOp.release ⟨m, b⟩).apply e),
      some (e.lock.release ⟨m, b⟩).2) := by
  simp only [serverRelease, h, EntryOp.apply]
  split_ifs <;> rfl

theorem serverDestroyLock_live {s : Server} {i : ℤ} {e : ServerLockEntry}
    (h : s.lock? i = some e) :
    serverDestroyLock s i = storeEntry s i (EntryOp.destroy.apply e) := by
  simp only [serverDestroyLock, h, EntryOp.apply]
  split_ifs <;> rfl

theorem lockWatcherRelease_live {s : Server} {i : ℤ} {e : ServerLockEntry}
    (h : s.lock? i = some e) :
    ∀ j, (lockWatcherRelease s i).lock? j = (storeEntry s i (EntryOp.watch.apply e)).lock? j := by
  intro j
  rw [lock?_storeEntry h]
  cases ho : e.lock.currentClientRequest with
  | none => simp [lockWatcherRelease, h, EntryOp.apply, ho]; rintro rfl; exact h
  | some owner => simp [lockWatcherRelease, h, EntryOp.apply, ho, Server.lock?_setLock h]

/-- The acquirer itself is the one that `Acquire` answers. -/
theorem acquire_answers (l : ServerLock) (cr : ClientRequest) : (l.acquire cr).2.1 = cr := by
  unfold ServerLock.acquire
  split_ifs <;> rfl

theorem flush_pushResponse {cfg : Config} {s : Server} (hs : s.necessaryResponses = [])
    (r : ServerResponse) (sent : List Packet) :
    BoxZero.flush cfg ⟨s.pushResponse r, sent, true⟩ =
      (s, sent ++ [BoxZero.responsePacket cfg r]) := by
  cases s
  simp_all [BoxZero.flush, Server.pushResponse]

theorem flush_pushResponse_two {cfg : Config} {s : Server} (hs : s.necessaryResponses = [])
    (r r' : ServerResponse) (sent : List Packet) :
    BoxZero.flush cfg ⟨(s.pushResponse r).pushResponse r', sent, true⟩ =
      (s, sent ++ [BoxZero.responsePacket cfg r, BoxZero.responsePacket cfg r']) := by
  cases s
  simp_all [BoxZero.flush, Server.pushResponse]

section Boxes
variable {cfg : Config} {s : Server} {p : Packet} {n : ℤ} {e : ServerLockEntry}

theorem boxZero_acquire_live (hs : s.necessaryResponses = [])
    (hd : p.data = .request (.acquire n)) (hm : decodeMachineIDFromLockNumber n = cfg.myMachineID)
    (he : s.lock? (decodeIndex cfg n) = some e) :
    boxZero cfg s p = .ok (storeEntry s (decodeIndex cfg n) ((EntryOp.acquire p.sender).apply e),
      if (e.lock.acquire p.sender).2.2 then [replyTo cfg p.sender (-1)] else []) := by
  have ha : serverAcquire s p.fromMachine p.fromMailbox (decodeIndex cfg n) =
      (storeEntry s (decodeIndex cfg n) ((EntryOp.acquire p.sender).apply e),
        some (e.lock.acquire p.sender).2) := serverAcquire_live he
  obtain ⟨b, hb⟩ : ∃ b, (e.lock.acquire p.sender).2 = (p.sender, b) :=
    ⟨_, Prod.ext (acquire_answers e.lock p.sender) rfl⟩
  simp only [boxZero, BoxZero.handle, hd, BoxZero.request, BoxZero.acquire, hm, ne_eq,
    not_true_eq_false, if_false, ha, hb]
  cases b with
  | true =>
    simp only [Except.map, if_true]
    rw [flush_pushResponse (by simpa using hs)]
    rfl
  | false => rfl

theorem boxZero_release_live (hs : s.necessaryResponses = [])
    (hd : p.data = .request (.release n)) (hm : decodeMachineIDFromLockNumber n = cfg.myMachineID)
    (he : s.lock? (decodeIndex cfg n) = some e) :
    boxZero cfg s p = .ok (storeEntry s (decodeIndex cfg n) ((EntryOp.release p.sender).apply e),
      replyTo cfg p.sender (-1) :: if (e.lock.release p.sender).2.2 then
        [replyTo cfg (e.lock.release p.sender).2.1 (-1)] else []) := by
  have ha : serverRelease s p.fromMachine p.fromMailbox (decodeIndex cfg n) =
      (storeEntry s (decodeIndex cfg n) ((EntryOp.release p.sender).apply e),
        some (e.lock.release p.sender).2) := serverRelease_live he
  obtain ⟨⟨cr, b⟩, hb⟩ : ∃ r, (e.lock.release p.sender).2 = r := ⟨_, rfl⟩
  simp only [boxZero, BoxZero.handle, hd, BoxZero.request, BoxZero.release, hm, ne_eq,
    not_true_eq_false, if_false, ha, hb]
  cases b with
  | true =>
    simp only [Except.map, if_true]
    rw [flush_pushResponse_two (by simpa using hs)]
    rfl
  | false =>
    simp only [Except.map, Bool.false_eq_true, if_false]
    rw [flush_pushResponse (by simpa using hs)]
    rfl

theorem boxZero_destroyLock_live (hd : p.data = .request (.destroyLock n))
    (hm : decodeMachineIDFromLockNumber n = cfg.myMachineID)
    (he : s.lock? (decodeIndex cfg n) = some e) :
    boxZero cfg s p =
      .ok (storeEntry s (decodeIndex cfg n) (EntryOp.destroy.apply e), []) := by
  simp only [boxZero, BoxZero.handle, hd, BoxZero.request, BoxZero.destroyLock, hm, ne_eq,
    not_true_eq_false, if_false, serverDestroyLock_live he]
  rfl

/-- ACQUIRE and RELEASE of an unknown lock are answered and change nothing. -/
theorem boxZero_acquire_unknown (hs : s.necessaryResponses = [])
    (hd : p.data = .request (.acquire n)) (hm : decodeMachineIDFromLockNumber n = cfg.myMachineID)
    (he : s.lock? (decodeIndex cfg n) = none) :
    boxZero cfg s p = .ok (s, [replyTo cfg p.sender (-1)]) := by
  simp only [boxZero, BoxZero.handle, hd, BoxZero.request, BoxZero.acquire, hm, ne_eq,
    not_true_eq_false, if_false, serverAcquire, he, Except.map, flush_pushResponse hs]
  rfl

theorem boxZero_release_unknown (hs : s.necessaryResponses = [])
    (hd : p.data = .request (.release n)) (hm : decodeMachineIDFromLockNumber n = cfg.myMachineID)
    (he : s.lock? (decodeIndex cfg n) = none) :
    boxZero cfg s p = .ok (s, [replyTo cfg p.sender (-1)]) := by
  simp only [boxZero, BoxZero.handle, hd, BoxZero.request, BoxZero.release, hm, ne_eq,
    not_true_eq_false, if_false, serverRelease, he, Except.map, flush_pushResponse hs]
  rfl

theorem boxZero_destroyLock_unknown (hd : p.data = .request (.destroyLock n))
    (hm : decodeMachineIDFromLockNumber n = cfg.myMachineID)
    (he : s.lock? (decodeIndex cfg n) = none) : boxZero cfg s p = .ok (s, []) := by
  simp only [boxZero, BoxZero.handle, hd, BoxZero.request, BoxZero.destroyLock, hm, ne_eq,
    not_true_eq_false, if_false, serverDestroyLock, he]
  rfl

/-- A lock number of another machine goes to the server-to-server thread. -/
theorem boxZero_foreign_lock {r : Request}
    (hr : r = .acquire n ∨ r = .release n ∨ r = .destroyLock n) (hd : p.data = .request r)
    (hm : decodeMachineIDFromLockNumber n ≠ cfg.myMachineID) :
    boxZero cfg s p = .ok (s, [⟨cfg.myMachineID, 1, p.fromMachine, p.fromMailbox, p.data⟩]) := by
  rcases hr with rfl | rfl | rfl <;>
  · simp only [boxZero, BoxZero.handle, hd, BoxZero.request, BoxZero.acquire, BoxZero.release,
      BoxZero.destroyLock, hm, ne_eq, not_false_eq_true, if_true]
    simp only [Except.map, BoxZero.toBoxOne, BoxZero.flush, sendMessageWithData, hd]
    rfl

/-- The lock of this machine that a message names, and what it does to it. -/
def lockTarget (cfg : Config) (p : Packet) : Option (ℤ × EntryOp) :=
  match p.data with
  | .request (.acquire n) =>
    if decodeMachineIDFromLockNumber n = cfg.myMachineID then
      some (decodeIndex cfg n, .acquire p.sender)
    else none
  | .request (.release n) =>
    if decodeMachineIDFromLockNumber n = cfg.myMachineID then
      some (decodeIndex cfg n, .release p.sender)
    else none
  | .request (.destroyLock n) =>
    if decodeMachineIDFromLockNumber n = cfg.myMachineID then
      some (decodeIndex cfg n, .destroy)
    else none
  | _ => none

/-- The server after an operation on a lock that need not exist. -/
def applyTarget (s : Server) : Option (ℤ × EntryOp) → Server
  | none => s
  | some (i, op) =>
    match s.lock? i with
    | none => s
    | some e => storeEntry s i (op.apply e)

@[simp] theorem necessaryResponses_applyTarget (s : Server) (o : Option (ℤ × EntryOp)) :
    (applyTarget s o).necessaryResponses = s.necessaryResponses := by
  rcases o with _ | ⟨i, op⟩
  · rfl
  · cases he : s.lock? i <;> simp [applyTarget, he]

theorem applyTarget_lock? (s : Server) (i j : ℤ) (op : EntryOp) :
    (applyTarget s (some (i, op))).lock? j =
      if j = i then (s.lock? i).bind op.apply else s.lock? j := by
  cases he : s.lock? i with
  | none =>
    by_cases hj : j = i
    · simp [applyTarget, hj, he]
    · simp [applyTarget, hj, he]
  | some e => simpa [applyTarget, he] using lock?_storeEntry he _ j

/-- The replies to ACQUIRE and RELEASE of a lock of this machine. -/
def lockReplies (cfg : Config) (s : Server) (i : ℤ) : EntryOp → List Packet
  | .acquire c =>
    match s.lock? i with
    | none => [replyTo cfg c (-1)]
    | some e => if (e.lock.acquire c).2.2 then [replyTo cfg c (-1)] else []
  | .release c =>
    match s.lock? i with
    | none => [replyTo cfg c (-1)]
    | some e =>
      replyTo cfg c (-1) :: if (e.lock.release c).2.2 then
        [replyTo cfg (e.lock.release c).2.1 (-1)] else []
  | _ => []

/-- ACQUIRE, RELEASE and DESTROY_LOCK at mailbox 0, in one equation. -/
theorem boxZero_lock {r : Request} (hs : s.necessaryResponses = [])
    (hr : r = .acquire n ∨ r = .release n ∨ r = .destroyLock n) (hd : p.data = .request r) :
    boxZero cfg s p = .ok (applyTarget s (lockTarget cfg p),
      match lockTarget cfg p with
      | none => [⟨cfg.myMachineID, 1, p.fromMachine, p.fromMailbox, p.data⟩]
      | some (i, op) => lockReplies cfg s i op) := by
  by_cases hm : decodeMachineIDFromLockNumber n = cfg.myMachineID
  · cases he : s.lock? (decodeIndex cfg n) with
    | none =>
      rcases hr with rfl | rfl | rfl
      · simp [boxZero_acquire_unknown hs hd hm he, lockTarget, hd, hm, applyTarget, he, lockReplies]
      · simp [boxZero_release_unknown hs hd hm he, lockTarget, hd, hm, applyTarget, he, lockReplies]
      · simp [boxZero_destroyLock_unknown hd hm he, lockTarget, hd, hm, applyTarget, he,
          lockReplies]
    | some e =>
      rcases hr with rfl | rfl | rfl
      · simp [boxZero_acquire_live hs hd hm he, lockTarget, hd, hm, applyTarget, he, lockReplies]
      · simp [boxZero_release_live hs hd hm he, lockTarget, hd, hm, applyTarget, he, lockReplies]
      · simp [boxZero_destroyLock_live hd hm he, lockTarget, hd, hm, applyTarget, he, lockReplies]
  · have ht : lockTarget cfg p = none := by
      rcases hr with rfl | rfl | rfl <;> simp [lockTarget, hd, hm]
    rw [boxZero_foreign_lock hr hd hm, ht]
    rfl

end Boxes

end Nachos.Network
