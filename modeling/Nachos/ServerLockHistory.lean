import Nachos.ServerLockService

/-! ACQUIRE and RELEASE over whole runs. The entry of a lock follows the abstract
mutex, so the history of its requests is that of a FIFO queue. -/
namespace Nachos.Network
open Executions

def IsLockTraffic (p : Packet) : Prop :=
  ∃ n, p.data = .request (.acquire n) ∨ p.data = .request (.release n)

/-- The operation of a message on lock `i` of this machine. -/
def lockOp (cfg : Config) (i : ℤ) (p : Packet) : Option (FifoMutex.Op ClientRequest) :=
  match lockTarget cfg p with
  | some (j, .acquire c) => if j = i then some (.acquire c) else none
  | some (j, .release c) => if j = i then some (.release c) else none
  | _ => none

def lockOwner (s : Server) (i : ℤ) : Option ClientRequest :=
  (s.lock? i).bind fun e => e.lock.currentClientRequest

def lockQueue (s : Server) (i : ℤ) : List ClientRequest :=
  ((s.lock? i).map fun e => e.lock.queue).getD []

/-- The request of an ACQUIRE by a client that does not own the lock. -/
def requestsAdded (cfg : Config) (i : ℤ) (x : BoxZeroStep) : List ClientRequest :=
  match lockOp cfg i x.event.1 with
  | some (.acquire c) => if lockOwner x.before i = some c then [] else [c]
  | _ => []

/-- The request that becomes owner: the acquirer itself, or the client to which a
RELEASE by the owner hands the lock. -/
def requestsGranted (cfg : Config) (i : ℤ) (x : BoxZeroStep) : List ClientRequest :=
  match lockOp cfg i x.event.1 with
  | some (.acquire c) =>
    if lockOwner x.before i ≠ some c ∧ lockOwner x.after i = some c then [c] else []
  | some (.release c) =>
    if lockOwner x.before i = some c then (lockOwner x.after i).toList else []
  | none => []

/-- ACQUIRE is answered when its client then owns the lock. RELEASE is acknowledged, and
the request that it grants is answered. Only the owner's RELEASE has an effect. -/
def ReplyLaw (cfg : Config) (i : ℤ) (x : BoxZeroStep) : Prop :=
  match lockOp cfg i x.event.1 with
  | some (.acquire c) =>
    x.event.2 = if lockOwner x.after i = some c then [replyTo cfg c (-1)] else []
  | some (.release c) =>
    x.event.2 =
      replyTo cfg c (-1) :: (requestsGranted cfg i x).map (fun g => replyTo cfg g (-1)) ∧
    (lockOwner x.before i ≠ some c →
      lockOwner x.after i = lockOwner x.before i ∧ lockQueue x.after i = lockQueue x.before i)
  | none => x.after.lock? i = x.before.lock? i

/-- Lock `i` is live and stands for the abstract mutex. -/
def Implements (s : Server) (i : ℤ) (m : FifoMutex.Mutex ClientRequest) : Prop :=
  ∃ e : ServerLockEntry, s.lock? i = some e ∧ e.isToBeDeleted = false ∧
    ∃ h : e.lock.Valid, e.lock.toMutex h = m

theorem Implements.owner {s : Server} {i : ℤ} {m : FifoMutex.Mutex ClientRequest}
    (h : Implements s i m) : lockOwner s i = m.owner := by
  obtain ⟨e, he, -, hv, rfl⟩ := h
  simp [lockOwner, he, ServerLock.toMutex]

theorem Implements.queue {s : Server} {i : ℤ} {m : FifoMutex.Mutex ClientRequest}
    (h : Implements s i m) : lockQueue s i = m.waiting := by
  obtain ⟨e, he, -, hv, rfl⟩ := h
  simp [lockQueue, he, ServerLock.toMutex]

theorem Implements.of_lock?_eq {s t : Server} {i : ℤ} {m : FifoMutex.Mutex ClientRequest}
    (h : Implements s i m) (ht : t.lock? i = s.lock? i) : Implements t i m := by
  simpa [Implements, ht] using h

/-- The abstract effect of a message on the mutex. -/
def lockStep (m : FifoMutex.Mutex ClientRequest) :
    Option (FifoMutex.Op ClientRequest) → FifoMutex.Mutex ClientRequest
  | none => m
  | some op => FifoMutex.step m op

section Step
variable {cfg : Config} {i : ℤ} {s : Server} {m : FifoMutex.Mutex ClientRequest}

theorem acquire_implements (h : Implements s i m) (c : ClientRequest) :
    Implements (applyTarget s (some (i, .acquire c))) i (FifoMutex.acquire m c) ∧
    lockReplies cfg s i (.acquire c) =
      if (FifoMutex.acquire m c).owner = some c then [replyTo cfg c (-1)] else [] := by
  obtain ⟨e, he, hd, hv, rfl⟩ := h
  obtain ⟨hm, hr⟩ := ServerLock.acquire_refines hv c
  have hlock := applyTarget_lock? s i i (.acquire c)
  simp only [he, if_true, Option.bind_some, EntryOp.apply] at hlock
  refine ⟨⟨_, hlock, hd, ServerLock.acquire_valid hv c, hm⟩, ?_⟩
  have ho : (FifoMutex.acquire (e.lock.toMutex hv) c).owner =
      (e.lock.acquire c).1.currentClientRequest := by rw [← hm]; rfl
  simp [lockReplies, he, hr, ho]

theorem release_implements (h : Implements s i m) (c : ClientRequest) :
    Implements (applyTarget s (some (i, .release c))) i (FifoMutex.release m c) ∧
    lockReplies cfg s i (.release c) = replyTo cfg c (-1) ::
      (FifoMutex.grant m (.release c)).map (fun g => replyTo cfg g (-1)) := by
  obtain ⟨e, he, hd, hv, rfl⟩ := h
  obtain ⟨hm, hr⟩ := ServerLock.release_refines hv c
  have hlock := applyTarget_lock? s i i (.release c)
  simp only [he, if_true, Option.bind_some, EntryOp.apply, hd, Bool.false_eq_true, false_and,
    if_false] at hlock
  refine ⟨⟨_, hlock, rfl, ServerLock.release_valid hv c, hm⟩, ?_⟩
  rw [← hr]
  cases hb : (e.lock.release c).2.2 <;> simp [lockReplies, he, hb]

/-- What a message does to lock `i` and which replies it sends for it. -/
theorem boxZero_implements (cfg : Config) {p : Packet} (hs : s.necessaryResponses = []) (h : Implements s i m)
    (hp : IsLockTraffic p) :
    ∃ t out, boxZero cfg s p = .ok (t, out) ∧ t.necessaryResponses = [] ∧
      Implements t i (lockStep m (lockOp cfg i p)) ∧
      match lockOp cfg i p with
      | none => t.lock? i = s.lock? i
      | some (.acquire c) =>
        out = if (FifoMutex.acquire m c).owner = some c then [replyTo cfg c (-1)] else []
      | some (.release c) => out = replyTo cfg c (-1) ::
          (FifoMutex.grant m (.release c)).map (fun g => replyTo cfg g (-1)) := by
  obtain ⟨n, hn⟩ := hp
  have hbox : ∃ r, p.data = .request r ∧ (r = .acquire n ∨ r = .release n ∨ r = .destroyLock n) := by
    rcases hn with hn | hn
    · exact ⟨_, hn, Or.inl rfl⟩
    · exact ⟨_, hn, Or.inr (Or.inl rfl)⟩
  obtain ⟨r, hd, hr⟩ := hbox
  refine ⟨_, _, boxZero_lock hs hr hd, by simpa using hs, ?_⟩
  have hother : ∀ j op, j ≠ i →
      (applyTarget s (some (j, op))).lock? i = s.lock? i := by
    intro j op hj
    rw [applyTarget_lock?, if_neg (Ne.symm hj)]
  by_cases hm : decodeMachineIDFromLockNumber n = cfg.myMachineID
  · by_cases hi : decodeIndex cfg n = i
    · rcases hn with hn | hn
      · simp only [lockOp, lockTarget, hn, hm, if_true, hi, lockStep, FifoMutex.step]
        exact acquire_implements h p.sender
      · simp only [lockOp, lockTarget, hn, hm, if_true, hi, lockStep, FifoMutex.step]
        exact release_implements h p.sender
    · rcases hn with hn | hn <;>
      · simp only [lockOp, lockTarget, hn, hm, if_true, hi, if_false, lockStep]
        exact ⟨h.of_lock?_eq (hother _ _ hi), hother _ _ hi⟩
  · rcases hn with hn | hn <;>
    · simp only [lockOp, lockTarget, hn, hm, if_false, lockStep]
      exact ⟨h, rfl⟩

end Step

section History
variable {cfg : Config} {i : ℤ} {x : BoxZeroStep} {m m' : FifoMutex.Mutex ClientRequest}

theorem requestsAdded_eq (cfg : Config) (h : Implements x.before i m) :
    requestsAdded cfg i x = (lockOp cfg i x.event.1).elim [] (FifoMutex.arrival m) := by
  unfold requestsAdded
  rw [h.owner]
  rcases lockOp cfg i x.event.1 with _ | (c | c) <;> rfl

theorem requestsGranted_eq (cfg : Config) (h : Implements x.before i m)
    (h' : Implements x.after i (lockStep m (lockOp cfg i x.event.1))) :
    requestsGranted cfg i x = (lockOp cfg i x.event.1).elim [] (FifoMutex.grant m) := by
  have ho := h.owner
  have ho' := h'.owner
  unfold requestsGranted
  rcases hop : lockOp cfg i x.event.1 with _ | (c | c)
  · rfl
  · simp only [hop, lockStep, FifoMutex.step] at ho'
    simp only [ho, ho', Option.elim_some]
    cases hm : m.owner with
    | none => simp [FifoMutex.acquire, FifoMutex.grant, hm]
    | some b =>
      by_cases hb : b = c <;> simp [FifoMutex.acquire, FifoMutex.grant, hm, hb]
  · simp only [hop, lockStep, FifoMutex.step] at ho'
    simp only [ho, ho', Option.elim_some]
    by_cases hm : m.owner = some c
    · rw [if_pos hm, FifoMutex.release_owner hm]
      cases hw : m.waiting <;> simp [FifoMutex.grant, hm, hw]
    · simp [FifoMutex.grant, hm]

/-- One handled message of the run. -/
theorem boxZeroStep_lock (hstep : Handles (boxZero cfg) x.before x.event x.after)
    (hs : x.before.necessaryResponses = []) (h : Implements x.before i m)
    (hp : IsLockTraffic x.event.1) :
    x.after.necessaryResponses = [] ∧
      Implements x.after i (lockStep m (lockOp cfg i x.event.1)) ∧ ReplyLaw cfg i x := by
  obtain ⟨t, out, hbox, hresp, himp, hout⟩ := boxZero_implements cfg hs h hp
  rw [Handles, hbox] at hstep
  obtain ⟨rfl, rfl⟩ : t = x.after ∧ out = x.event.2 := by simpa using hstep
  refine ⟨hresp, himp, ?_⟩
  have hg := requestsGranted_eq cfg h himp
  unfold ReplyLaw
  rcases hop : lockOp cfg i x.event.1 with _ | (c | c) <;> simp only [hop] at himp hout hg ⊢
  · exact hout
  · rw [hout, himp.owner]
    rfl
  · refine ⟨by rw [hout, hg]; rfl, fun hne => ?_⟩
    rw [h.owner] at hne
    rw [h.owner, h.queue, himp.owner, himp.queue]
    simp [lockStep, FifoMutex.step, FifoMutex.release_of_not_owner hne]

/-- The operations of a run on lock `i`, oldest first. -/
def lockOps (cfg : Config) (i : ℤ) (tr : List BoxZeroStep) : List (FifoMutex.Op ClientRequest) :=
  tr.filterMap fun x => lockOp cfg i x.event.1

variable {s₀ s : Server} {tr : List BoxZeroStep}

/-- The lock of a run is the abstract mutex after the operations of the run, and the
requests added and granted are those of the mutex. -/
theorem lockRun_refines (hrun : Execution (Handles (boxZero cfg)) s₀ tr s)
    (hs : s₀.necessaryResponses = []) (h : Implements s₀ i m)
    (hp : ∀ x ∈ tr, IsLockTraffic x.event.1) :
    s.necessaryResponses = [] ∧ Implements s i (FifoMutex.run m (lockOps cfg i tr)) ∧
      tr.flatMap (requestsAdded cfg i) = FifoMutex.arrivals m (lockOps cfg i tr) ∧
      tr.flatMap (requestsGranted cfg i) = FifoMutex.grants m (lockOps cfg i tr) ∧
      ∀ x ∈ tr, ReplyLaw cfg i x := by
  induction hrun with
  | start => exact ⟨hs, h, rfl, rfl, by simp⟩
  | @extend tr s t e hrun hst ih =>
    obtain ⟨hs, himp, hadd, hgrant, hlaw⟩ := ih fun x hx => hp x (List.mem_append_left _ hx)
    obtain ⟨ht, himp', hx⟩ := boxZeroStep_lock (x := ⟨s, e, t⟩) hst hs himp (hp _ (by simp))
    have ha := requestsAdded_eq cfg (x := ⟨s, e, t⟩) himp
    have hg := requestsGranted_eq cfg (x := ⟨s, e, t⟩) himp himp'
    have hops : lockOps cfg i (tr ++ [⟨s, e, t⟩]) =
        lockOps cfg i tr ++ (lockOp cfg i e.1).toList := by
      cases hop : lockOp cfg i e.1 <;> simp [lockOps, hop]
    refine ⟨ht, ?_, ?_, ?_, ?_⟩
    · rw [hops, FifoMutex.run_append]
      cases hop : lockOp cfg i e.1 <;> simpa [hop, lockStep, FifoMutex.run] using himp'
    · rw [List.flatMap_append, hadd, hops, FifoMutex.arrivals_append]
      cases hop : lockOp cfg i e.1 <;> simp [ha, hop, FifoMutex.arrivals]
    · rw [List.flatMap_append, hgrant, hops, FifoMutex.grants_append]
      cases hop : lockOp cfg i e.1 <;> simp [hg, hop, FifoMutex.grants]
    · intro x hmem
      rcases List.mem_append.mp hmem with hmem | hmem
      · exact hlaw x hmem
      · obtain rfl := List.mem_singleton.mp hmem
        exact hx

/-- The state of the lock and the history of its requests at the end of a run. -/
structure LockHistory (cfg : Config) (i : ℤ) (tr : List BoxZeroStep) (s : Server) : Prop where
  live : (s.lock? i).isSome
  busy_iff : ∀ e, s.lock? i = some e → (e.lock.isBusy ↔ e.lock.currentClientRequest ≠ none)
  queue_busy : ∀ e, s.lock? i = some e → e.lock.queue ≠ [] → e.lock.isBusy
  fifo : tr.flatMap (requestsAdded cfg i) =
    tr.flatMap (requestsGranted cfg i) ++ lockQueue s i
  replies : ∀ x ∈ tr, ReplyLaw cfg i x

/-- From the creation of a lock on, every sequence of ACQUIRE and RELEASE messages is
handled, and the requests are granted in the order of their arrival, each once. -/
theorem lock_history (hs : s₀.necessaryResponses = []) {name : Name}
    (hi : s₀.lock? i = some ⟨ServerLock.new name, false, 0⟩) (messages : List Packet)
    (hp : ∀ p ∈ messages, IsLockTraffic p) :
    (∃ tr s, Execution (Handles (boxZero cfg)) s₀ tr s ∧
      tr.map (fun x => x.event.1) = messages) ∧
    ∀ tr s, Execution (Handles (boxZero cfg)) s₀ tr s →
      tr.map (fun x => x.event.1) = messages → LockHistory cfg i tr s := by
  have h0 : Implements s₀ i FifoMutex.free :=
    ⟨_, hi, rfl, ServerLock.new_valid name, rfl⟩
  constructor
  · obtain ⟨tr, s, hrun, -, hmap⟩ := exists_execution
      (P := fun s => s.necessaryResponses = [] ∧ ∃ m, Implements s i m) (A := IsLockTraffic)
      (by
        rintro s p ⟨hs, m, hm⟩ hp
        obtain ⟨t, out, hbox, ht, himp, -⟩ := boxZero_implements cfg hs hm hp
        exact ⟨t, out, hbox, ht, _, himp⟩)
      ⟨hs, _, h0⟩ messages hp
    exact ⟨tr, s, hrun, hmap⟩
  · rintro tr s hrun rfl
    obtain ⟨-, himp, hadd, hgrant, hlaw⟩ := lockRun_refines hrun hs h0
      (fun x hx => hp _ (List.mem_map_of_mem hx))
    have hq := himp.queue
    obtain ⟨e, he, -, hv, -⟩ := himp
    refine ⟨by simp [he], ?_, ?_, ?_, hlaw⟩
    · intro e' he'
      obtain rfl : e = e' := by simpa [he] using he'
      exact hv.isBusy_iff
    · intro e' he' hne
      obtain rfl : e = e' := by simpa [he] using he'
      exact hv.isBusy_iff.mpr fun ho => hne (hv.idle ho)
    · rw [hadd, hgrant, hq, FifoMutex.grants_append_waiting]
      rfl

/-- A lock with one owner, one waiter and a reentrant request. -/
theorem lock_history_handOff : ∃ s₀ : Server, ∃ messages : List Packet,
    s₀.lock? 0 = some ⟨ServerLock.new [97], false, 0⟩ ∧ messages.length = 4 ∧
    ∀ tr s, Execution (Handles (boxZero ⟨0, 1, false⟩)) s₀ tr s →
      tr.map (fun x => x.event.1) = messages → LockHistory ⟨0, 1, false⟩ 0 tr s := by
  refine ⟨(serverCreateLock .initial [97]).1,
    [⟨0, 0, 1, 0, .request (.acquire 0)⟩, ⟨0, 0, 2, 0, .request (.acquire 0)⟩,
      ⟨0, 0, 1, 0, .request (.acquire 0)⟩, ⟨0, 0, 1, 0, .request (.release 0)⟩],
    by decide +kernel, rfl, ?_⟩
  refine (@lock_history _ 0 _ rfl [97] (by decide +kernel) _ ?_).2
  intro p hp
  simp only [List.mem_cons, List.not_mem_nil, or_false] at hp
  rcases hp with rfl | rfl | rfl | rfl
  · exact ⟨0, Or.inl rfl⟩
  · exact ⟨0, Or.inl rfl⟩
  · exact ⟨0, Or.inl rfl⟩
  · exact ⟨0, Or.inr rfl⟩

end History

end Nachos.Network
