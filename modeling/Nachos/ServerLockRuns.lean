import Nachos.ServerBoxOne
import Nachos.ServerLockService

/-! Runs of one server in which only locks are used: the four lock messages at mailbox
0, any message at mailbox 1, and the releases of `LockWatcher`. -/
namespace Nachos.Network
open Executions

inductive LockEvent
  | boxZero (p : Packet)
  | boxOne (p : Packet)
  | watcher (lockIndex : ℤ)
  deriving DecidableEq, Repr

/-- What `LockWatcher` sends to a new owner is left out: its buffer is never written. -/
def lockHandler (cfg : Config) (s : Server) : LockEvent → Except Fault (Server × List Packet)
  | .boxZero p => boxZero cfg s p
  | .boxOne p => boxOne cfg s p
  | .watcher lockIndex => .ok (lockWatcherRelease s lockIndex, [])

abbrev LockStep := Transition Server (LockEvent × List Packet)

/-- CREATE_LOCK, ACQUIRE, RELEASE and DESTROY_LOCK. -/
def IsLockRequest (p : Packet) : Prop :=
  (∃ name, p.data = .request (.createLock name)) ∨
    ∃ n, p.data = .request (.acquire n) ∨ p.data = .request (.release n) ∨
      p.data = .request (.destroyLock n)

def LockEvent.Permitted : LockEvent → Prop
  | .boxZero p => IsLockRequest p
  | _ => True

/-- The lock an event names, and what it does to it. -/
def LockEvent.target (cfg : Config) : LockEvent → Option (ℤ × EntryOp)
  | .boxZero p => lockTarget cfg p
  | .boxOne _ => none
  | .watcher lockIndex => some (lockIndex, .watch)

/-- The live locks stay as they are, apart from a fresh one. -/
def AddsLocks (s t : Server) : Prop :=
  ∀ j, t.lock? j = s.lock? j ∨
    s.lock? j = none ∧ ∃ name, t.lock? j = some ⟨ServerLock.new name, false, 0⟩

theorem AddsLocks.of_eq {s t : Server} (h : t.locks = s.locks) : AddsLocks s t := by
  intro j
  exact Or.inl (by simp [Server.lock?, h])

theorem AddsLocks.create {s t : Server} {name : Name}
    (h : t.locks = (serverCreateLock s name).1.locks) : AddsLocks s t := by
  intro j
  have ht : t.lock? j = (serverCreateLock s name).1.lock? j := by simp [Server.lock?, h]
  rw [ht]
  rcases serverCreateLock_lock? s name j with hj | ⟨hn, hj⟩
  · exact Or.inl hj
  · exact Or.inr ⟨hn, name, hj⟩

section BoxOneFrame
variable {cfg : Config} {s t : Server} {p : Packet} {out : List Packet}

theorem serverCreateMV_frame {name : Name} {n v : ℤ} {r : Server × ℤ}
    (h : serverCreateMV s name n v = .ok r) :
    r.1.locks = s.locks ∧ r.1.conditions = s.conditions ∧
      r.1.necessaryResponses = s.necessaryResponses := by
  simp only [serverCreateMV] at h
  split_ifs at h
  · obtain rfl := Except.ok.inj h
    exact ⟨rfl, rfl, rfl⟩
  · obtain rfl := Except.ok.inj h
    exact ⟨rfl, rfl, rfl⟩

theorem createPending_frame {type : StructureType} {data : Message} {r : Server × ℤ}
    (h : BoxOne.createPending s type data = .ok r) :
    AddsLocks s r.1 ∧ r.1.necessaryResponses = s.necessaryResponses := by
  unfold BoxOne.createPending at h
  split at h
  · obtain rfl := Except.ok.inj h
    exact ⟨.create rfl, rfl⟩
  · obtain rfl := Except.ok.inj h
    exact ⟨.of_eq rfl, rfl⟩
  · obtain ⟨hl, -, hr⟩ := serverCreateMV_frame h
    exact ⟨.of_eq hl, hr⟩
  · cases h

theorem doNotHaveName_frame {id : ℕ} (h : BoxOne.doNotHaveName cfg s p id = .ok (t, out)) :
    AddsLocks s t ∧ t.necessaryResponses = s.necessaryResponses := by
  rcases BoxOne.doNotHaveName_cases h with ⟨-, -, rfl, -⟩ | ⟨pc, -, hc⟩
  · exact ⟨.of_eq rfl, rfl⟩
  · rcases hc with ⟨-, rfl, -⟩ | ⟨-, client, rest, r, -, hr, rfl, -⟩
    · exact ⟨.of_eq rfl, rfl⟩
    · exact createPending_frame hr

theorem create_frame (type : StructureType) (name queriedName : Name) :
    (BoxOne.create cfg s p type name queriedName).1.locks = s.locks ∧
      (BoxOne.create cfg s p type name queriedName).1.necessaryResponses =
        s.necessaryResponses := by
  unfold BoxOne.create
  split
  · exact ⟨rfl, rfl⟩
  · split <;> exact ⟨rfl, rfl⟩

/-- The server-to-server thread changes no lock; it only creates some. -/
theorem boxOne_frame (h : boxOne cfg s p = .ok (t, out)) :
    AddsLocks s t ∧ t.necessaryResponses = s.necessaryResponses := by
  have hsame : ∀ u : Server × List Packet, Except.ok (ε := Fault) u = .ok (t, out) →
      u.1.locks = s.locks ∧ u.1.necessaryResponses = s.necessaryResponses →
      AddsLocks s t ∧ t.necessaryResponses = s.necessaryResponses := by
    rintro u hu ⟨hl, hr⟩
    obtain rfl := Except.ok.inj hu
    exact ⟨.of_eq hl, hr⟩
  unfold boxOne at h
  split at h
  · rename_i r _
    refine hsame _ h ?_
    cases r with
    | createLock name => exact create_frame _ _ _
    | createCV name => exact create_frame _ _ _
    | createMV n v name => exact create_frame _ _ _
    | _ => exact ⟨rfl, rfl⟩
  · exact hsame _ h ⟨rfl, rfl⟩
  · refine hsame _ h ?_
    unfold BoxOne.haveObject
    split <;> exact ⟨rfl, rfl⟩
  · refine hsame _ h ?_
    dsimp only [BoxOne.doNotHaveObject]
    split
    · exact ⟨rfl, rfl⟩
    · split_ifs <;> exact ⟨rfl, rfl⟩
  · refine hsame _ h ?_
    unfold BoxOne.doYouHaveName BoxOne.determineResponseToCreateRequest
    split
    · exact ⟨rfl, rfl⟩
    · split
      · exact ⟨rfl, rfl⟩
      · exact ⟨rfl, rfl⟩
      · split_ifs <;> exact ⟨rfl, rfl⟩
  · refine hsame _ h ?_
    unfold BoxOne.haveName
    split <;> exact ⟨rfl, rfl⟩
  · exact doNotHaveName_frame h
  all_goals cases h

end BoxOneFrame

section BoxZeroFrame
variable {cfg : Config} {s t : Server} {p : Packet} {out : List Packet}

theorem boxZero_createLock {name : Name} (hs : s.necessaryResponses = [])
    (hd : p.data = .request (.createLock name)) (h : boxZero cfg s p = .ok (t, out)) :
    AddsLocks s t ∧ t.necessaryResponses = [] := by
  simp only [boxZero, BoxZero.handle, hd, BoxZero.request, Except.map, Except.ok.injEq] at h
  unfold BoxZero.createLock at h
  split at h
  · rw [BoxZero.answer, flush_pushResponse hs] at h
    obtain ⟨rfl, -⟩ := Prod.mk.inj h
    exact ⟨.of_eq rfl, hs⟩
  · split_ifs at h
    · have hc : (serverCreateLock s name).1.necessaryResponses = [] := hs
      rw [BoxZero.answer, flush_pushResponse hc] at h
      obtain ⟨rfl, -⟩ := Prod.mk.inj h
      exact ⟨.create rfl, hs⟩
    · obtain ⟨rfl, -⟩ := Prod.mk.inj h
      exact ⟨.of_eq rfl, hs⟩

end BoxZeroFrame

/-- What an event does to the locks: an operation on the one it names, or a creation. -/
theorem lockHandler_step {cfg : Config} {s t : Server} {ev : LockEvent} {out : List Packet}
    (h : lockHandler cfg s ev = .ok (t, out)) (hs : s.necessaryResponses = [])
    (hp : ev.Permitted) :
    t.necessaryResponses = [] ∧
      match ev.target cfg with
      | none => AddsLocks s t
      | some (i, op) => ∀ j, t.lock? j =
          if j = i then (s.lock? i).bind op.apply else s.lock? j := by
  cases ev with
  | boxOne p =>
    obtain ⟨ha, hr⟩ := boxOne_frame h
    exact ⟨hr.trans hs, ha⟩
  | watcher i =>
    have ht : (lockWatcherRelease s i, []) = (t, out) := Except.ok.inj h
    obtain ⟨rfl, -⟩ := Prod.mk.inj ht
    cases he : s.lock? i with
    | none =>
      have hsame : lockWatcherRelease s i = s := by simp [lockWatcherRelease, he]
      refine ⟨by simpa [hsame] using hs, ?_⟩
      intro j
      by_cases hj : j = i <;> simp [hsame, hj, he]
    | some e =>
      refine ⟨?_, fun j => ?_⟩
      · rw [← hs]
        cases ho : e.lock.currentClientRequest <;> simp [lockWatcherRelease, he, ho, Server.setLock]
      · rw [lockWatcherRelease_live he, lock?_storeEntry he]
        simp [he]
  | boxZero p =>
    rcases hp with ⟨name, hd⟩ | ⟨n, hn⟩
    · obtain ⟨ha, hr⟩ := boxZero_createLock hs hd h
      exact ⟨hr, by simpa [LockEvent.target, lockTarget, hd] using ha⟩
    · have hbox : ∃ r, p.data = .request r ∧
          (r = .acquire n ∨ r = .release n ∨ r = .destroyLock n) := by
        rcases hn with hn | hn | hn
        · exact ⟨_, hn, Or.inl rfl⟩
        · exact ⟨_, hn, Or.inr (Or.inl rfl)⟩
        · exact ⟨_, hn, Or.inr (Or.inr rfl)⟩
      obtain ⟨r, hd, hr⟩ := hbox
      rw [lockHandler, boxZero_lock hs hr hd] at h
      obtain ⟨rfl, -⟩ := Prod.mk.inj (Except.ok.inj h)
      refine ⟨by simpa using hs, ?_⟩
      cases ht : lockTarget cfg p with
      | none => simpa [LockEvent.target, ht] using AddsLocks.of_eq (s := s) (t := applyTarget s none) rfl
      | some q =>
        obtain ⟨i, op⟩ := q
        simpa [LockEvent.target, ht] using fun j => applyTarget_lock? s i j op

theorem EntryOp.apply_valid {e e' : ServerLockEntry} {op : EntryOp} (h : e.lock.Valid)
    (ha : op.apply e = some e') : e'.lock.Valid := by
  cases op with
  | acquire c =>
    obtain rfl := Option.some.inj ha
    exact ServerLock.acquire_valid h c
  | release c =>
    simp only [EntryOp.apply] at ha
    split_ifs at ha
    obtain rfl := Option.some.inj ha
    exact ServerLock.release_valid h c
  | destroy =>
    simp only [EntryOp.apply] at ha
    split_ifs at ha
    obtain rfl := Option.some.inj ha
    exact h
  | watch =>
    cases ho : e.lock.currentClientRequest with
    | none =>
      simp only [EntryOp.apply, ho, Option.some.injEq] at ha
      exact ha ▸ h
    | some owner =>
      simp only [EntryOp.apply, ho, Option.some.injEq] at ha
      exact ha ▸ ServerLock.release_valid h owner

/-- A live lock after an event is an old one, a fresh one, or the outcome of the operation. -/
theorem live_after {cfg : Config} {s t : Server} {ev : LockEvent} {out : List Packet}
    (h : lockHandler cfg s ev = .ok (t, out)) (hs : s.necessaryResponses = [])
    (hp : ev.Permitted) {i : ℤ} {e' : ServerLockEntry} (he' : t.lock? i = some e') :
    s.lock? i = some e' ∨ (∃ name, e' = ⟨ServerLock.new name, false, 0⟩) ∨
      ∃ op e, ev.target cfg = some (i, op) ∧ s.lock? i = some e ∧ op.apply e = some e' := by
  obtain ⟨-, hlocks⟩ := lockHandler_step h hs hp
  cases ht : ev.target cfg with
  | none =>
    simp only [ht] at hlocks
    rcases hlocks i with hj | ⟨-, name, hj⟩
    · exact Or.inl (hj ▸ he')
    · exact Or.inr (Or.inl ⟨name, by simpa [hj] using he'.symm⟩)
  | some q =>
    obtain ⟨j, op⟩ := q
    simp only [ht] at hlocks
    rw [hlocks] at he'
    split_ifs at he' with hij
    · subst hij
      obtain ⟨e, he, ha⟩ := Option.bind_eq_some_iff.mp he'
      exact Or.inr (Or.inr ⟨op, e, rfl, he, ha⟩)
    · exact Or.inl he'

end Nachos.Network
