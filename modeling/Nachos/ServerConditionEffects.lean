import Nachos.ServerReplyContract

/-! What the messages of mailbox 0 do to the queue of a condition and to the lock that
it remembers. The local path stores the index of the lock in this server's table, the
tracked path its global number. -/
namespace Nachos.Network
open SlotTables Executions

def conditionQueue (s : Server) (v : ℤ) : List ClientRequest :=
  ((s.condition? v).map fun e => e.condition.queue).getD []

def boundLock (s : Server) (v : ℤ) : ℤ :=
  ((s.condition? v).map fun e => e.condition.waitingLock).getD (-1)

/-- The global lock number in a message about a condition. -/
def namedLock (p : Packet) : Option ℤ :=
  match p.data with
  | .request (.cvOperation _ _ lockNum) => some lockNum
  | .cvLockTrackerResponse _ _ lockNum _ => some lockNum
  | _ => none

/-- What `waitingLock` holds for a lock number: an index for a lock of this machine, the
number itself for any other. -/
def storedLock (cfg : Config) (lockNum : ℤ) : ℤ :=
  if decodeMachineIDFromLockNumber lockNum = cfg.myMachineID then decodeIndex cfg lockNum
  else lockNum

/-- The possible effects of a message on condition `v`: the queue stays, a client joins
it, or clients leave it at the head. `code` is the lock as the condition stores it. -/
inductive QueueEffect (s t : Server) (v code : ℤ) : Prop
  | same (hq : conditionQueue t v = conditionQueue s v)
      (hb : conditionQueue s v ≠ [] → boundLock t v = boundLock s v)
  | queued (c : ClientRequest) (hq : conditionQueue t v = conditionQueue s v ++ [c])
      (hb : boundLock t v = code) (ha : boundLock s v = -1 ∨ boundLock s v = code)
  | woken (n : ℕ) (hq : conditionQueue t v = (conditionQueue s v).drop n)
      (hb : boundLock s v = code) (hb' : conditionQueue t v ≠ [] → boundLock t v = code)

section Effects
variable {cfg : Config} {s t : Server} {m b i l v : ℤ} {code : ℤ}

theorem QueueEffect.of_condition? (h : t.condition? v = s.condition? v) :
    QueueEffect s t v code :=
  .same (by simp [conditionQueue, h]) (by simp [boundLock, h])

theorem QueueEffect.of_conditions (h : t.conditions = s.conditions) : QueueEffect s t v code :=
  .of_condition? (by simp [Server.condition?, h])

/-- Only the queue and the lock of condition `v` matter. -/
theorem QueueEffect.trans_eq {u : Server} (h : QueueEffect s t v code)
    (hu : u.conditions = t.conditions) : QueueEffect s u v code := by
  have hq : conditionQueue u v = conditionQueue t v := by
    simp [conditionQueue, Server.condition?, hu]
  have hb : boundLock u v = boundLock t v := by simp [boundLock, Server.condition?, hu]
  cases h with
  | same hq' hb' => exact .same (hq.trans hq') (fun hne => hb.trans (hb' hne))
  | queued c hq' hb' ha => exact .queued c (hq.trans hq') (hb.trans hb') ha
  | woken n hq' hb' hb'' => exact .woken n (hq.trans hq') hb' (by rwa [hq, hb])

theorem QueueEffect.congr_left {u : Server} (h : QueueEffect u t v code)
    (hu : u.conditions = s.conditions) : QueueEffect s t v code := by
  have hq : conditionQueue u v = conditionQueue s v := by
    simp [conditionQueue, Server.condition?, hu]
  have hb : boundLock u v = boundLock s v := by simp [boundLock, Server.condition?, hu]
  cases h with
  | same hq' hb' => exact .same (hq'.trans hq) (by rw [← hb, ← hq]; exact hb')
  | queued c hq' hb' ha => exact .queued c (by rw [hq', hq]) hb' (by rwa [← hb])
  | woken n hq' hb' hb'' => exact .woken n (by rw [hq', hq]) (by rwa [← hb]) hb''

/-- The effect of replacing the entry of a live condition. -/
theorem setCondition_effect {e : ServerConditionEntry} (he : s.condition? i = some e)
    (e' : ServerConditionEntry)
    (h : (e'.condition.queue = e.condition.queue ∧
        (e.condition.queue ≠ [] → e'.condition.waitingLock = e.condition.waitingLock)) ∨
      (∃ c, e'.condition.queue = e.condition.queue ++ [c] ∧ e'.condition.waitingLock = code ∧
        e.condition.Accepts code) ∨
      ∃ n, e'.condition.queue = e.condition.queue.drop n ∧ e.condition.waitingLock = code ∧
        (e'.condition.queue ≠ [] → e'.condition.waitingLock = code)) :
    QueueEffect s (s.setCondition i e') v code := by
  by_cases hv : v = i
  · subst hv
    have ht : (s.setCondition v e').condition? v = some e' := by
      rw [Server.condition?_setCondition he, if_pos rfl]
    rcases h with ⟨hq, hb⟩ | ⟨c, hq, hb, ha⟩ | ⟨n, hq, hb, hb'⟩
    · exact .same (by simp [conditionQueue, ht, he, hq])
        (by simpa [conditionQueue, boundLock, ht, he] using hb)
    · exact .queued c (by simp [conditionQueue, ht, he, hq]) (by simp [boundLock, ht, hb])
        (by simpa [boundLock, he, ServerCondition.Accepts] using ha)
    · exact .woken n (by simp [conditionQueue, ht, he, hq]) (by simp [boundLock, he, hb])
        (by simpa [conditionQueue, boundLock, ht] using hb')
  · exact .of_condition? (by rw [Server.condition?_setCondition he, if_neg hv])

theorem removeCondition_effect {e : ServerConditionEntry} (he : s.condition? i = some e)
    (hq : e.condition.queue = []) : QueueEffect s (s.removeCondition i) v code := by
  by_cases hv : v = i
  · subst hv
    have ht : (s.removeCondition v).condition? v = none := by
      rw [Server.condition?_removeCondition he, if_pos rfl]
    exact .same (by simp [conditionQueue, ht, he, hq]) (by simp [conditionQueue, he, hq])
  · exact .of_condition? (by rw [Server.condition?_removeCondition he, if_neg hv])

theorem serverSignal_effect (s : Server) (m b i l v : ℤ) :
    QueueEffect s (serverSignal s m b i l).1 v l := by
  unfold serverSignal
  cases he : s.condition? i with
  | none => exact .of_conditions rfl
  | some e =>
    dsimp only
    split_ifs
    · exact .of_conditions rfl
    · refine setCondition_effect he _ ?_
      by_cases hk : e.condition.Wakes l
      · obtain ⟨next, rest, hq⟩ := List.exists_cons_of_ne_nil hk.1
        refine Or.inr (Or.inr ⟨1, ?_, hk.2, ?_⟩)
        · simp [ServerCondition.signal_of_cons hq hk.2, hq]
        · simp only [ServerCondition.signal_of_cons hq hk.2]
          intro hne
          rw [if_neg hne, hk.2]
      · refine Or.inl ?_
        simp [ServerCondition.signal_of_not_wakes hk]

theorem serverWait_effect (h : serverWait s m b i l = .ok t) : QueueEffect s t v l := by
  unfold serverWait at h
  split_ifs at h
  · rw [← Except.ok.inj h]
    exact .of_conditions rfl
  · cases he : s.condition? i with
    | none =>
      simp only [he] at h
      rw [← Except.ok.inj h]
      exact .of_conditions rfl
    | some e =>
      simp only [he] at h
      by_cases ha : e.condition.Accepts l
      · simp only [ServerCondition.wait_accepted ha, ServerCondition.hasWaiting] at h
        rw [if_neg (by simp)] at h
        rw [← Except.ok.inj h]
        exact setCondition_effect he _ (Or.inr (Or.inl ⟨⟨m, b⟩, rfl, rfl, ha⟩))
      · simp only [ServerCondition.wait_rejected ha] at h
        split_ifs at h with hd
        · rw [← Except.ok.inj h]
          exact removeCondition_effect he (by simpa [ServerCondition.hasWaiting] using hd.2)
        · rw [← Except.ok.inj h]
          exact setCondition_effect he _ (Or.inl ⟨rfl, fun _ => rfl⟩)

/-- A broadcast that ends finds the condition without waiters or bound to its lock. -/
theorem broadcastLoop_some {requester : ClientRequest} {n : ℕ} {c : ServerCondition}
    {q : ServerCondition × List ServerResponse} (h : broadcastLoop l requester n c = some q) :
    c.queue = [] ∨ c.waitingLock = l := by
  by_contra hne
  rw [not_or] at hne
  rw [broadcastLoop_of_other l requester n hne.1 hne.2] at h
  cases h

theorem serverBroadcast_effect (h : serverBroadcast s m b i l = .ok t) :
    QueueEffect s t v l := by
  unfold serverBroadcast at h
  split_ifs at h
  · rw [← Except.ok.inj h]
    exact .of_conditions rfl
  · cases he : s.condition? i with
    | none =>
      simp only [he] at h
      rw [← Except.ok.inj h]
      exact .of_conditions rfl
    | some e =>
      simp only [he] at h
      cases hl : broadcastLoop l ⟨m, b⟩ e.condition.queue.length e.condition with
      | none => simp [hl] at h
      | some q =>
        have hb := broadcastLoop_some hl
        rw [broadcastLoop_of_bound l ⟨m, b⟩ _ e.condition le_rfl hb] at hl
        obtain rfl := Option.some.inj hl
        rw [broadcastLoop_of_bound l ⟨m, b⟩ _ e.condition le_rfl hb] at h
        rw [← Except.ok.inj h]
        refine QueueEffect.trans_eq (t := s.setCondition i _) (setCondition_effect he _ ?_) rfl
        rcases hb with hq | hb
        · exact Or.inl (by simp [hq])
        · exact Or.inr (Or.inr ⟨e.condition.queue.length, by simp, hb, by simp⟩)

end Effects

/-- Condition `v` is as it was, as far as its waiters can tell. -/
def QueueSame (s t : Server) (v : ℤ) : Prop :=
  conditionQueue t v = conditionQueue s v ∧
    (conditionQueue s v ≠ [] → boundLock t v = boundLock s v)

/-- The lock queries in flight are about locks of other machines. -/
def TrackersForeign (cfg : Config) (s : Server) : Prop :=
  ∀ t ∈ s.cvLockTrackerList, decodeMachineIDFromLockNumber t.lockNum ≠ cfg.myMachineID

section Messages
variable {cfg : Config} {s t : Server} {p : Packet} {o : Outcome} {v : ℤ}

theorem QueueSame.of_conditions (h : t.conditions = s.conditions) : QueueSame s t v := by
  simp [QueueSame, conditionQueue, boundLock, Server.condition?, h]

theorem QueueSame.effect (h : QueueSame s t v) (code : ℤ) : QueueEffect s t v code :=
  .same h.1 h.2

theorem serverCreateCV_same (s : Server) (name : Name) :
    QueueSame s (serverCreateCV s name).1 v := by
  rcases serverCreateCV_condition? s name v with h | ⟨hn, h⟩
  · simp [QueueSame, conditionQueue, boundLock, h]
  · simp [QueueSame, conditionQueue, hn, h, ServerCondition.new]

theorem serverDestroyCV_same (s : Server) (i : ℤ) : QueueSame s (serverDestroyCV s i) v := by
  unfold serverDestroyCV
  cases he : s.condition? i with
  | none => exact .of_conditions rfl
  | some e =>
    dsimp only
    by_cases hv : v = i
    · subst hv
      split_ifs with hw
      · have ht := Server.condition?_setCondition he { e with isToBeDeleted := true } v
        rw [if_pos rfl] at ht
        simp [QueueSame, conditionQueue, boundLock, ht, he]
      · have ht := Server.condition?_removeCondition he v
        rw [if_pos rfl] at ht
        have hq : e.condition.queue = [] := by simpa [ServerCondition.hasWaiting] using hw
        simp [QueueSame, conditionQueue, ht, he, hq]
    · split_ifs
      · have ht := Server.condition?_setCondition he { e with isToBeDeleted := true } v
        rw [if_neg hv] at ht
        simp [QueueSame, conditionQueue, boundLock, ht]
      · have ht := Server.condition?_removeCondition he v
        rw [if_neg hv] at ht
        simp [QueueSame, conditionQueue, boundLock, ht]

theorem storeEntry_conditions (s : Server) (i : ℤ) (o : Option ServerLockEntry) :
    (storeEntry s i o).conditions = s.conditions := by cases o <;> rfl

theorem applyTarget_conditions (s : Server) (q : Option (ℤ × EntryOp)) :
    (applyTarget s q).conditions = s.conditions ∧
      (applyTarget s q).cvLockTrackerList = s.cvLockTrackerList := by
  rcases q with _ | ⟨i, op⟩
  · exact ⟨rfl, rfl⟩
  · cases he : s.lock? i with
    | none => simp [applyTarget, he]
    | some e =>
      simp only [applyTarget, he, storeEntry_conditions, true_and]
      cases op.apply e <;> rfl

theorem pushWoken_conditions (s : Server) (o : Option (ClientRequest × Bool)) :
    (BoxZero.pushWoken s o).conditions = s.conditions := by
  rcases o with _ | ⟨cr, _ | _⟩ <;> rfl

theorem localOperation_effect {operation : CVOperation} {i l : ℤ} {respond : Bool}
    (h : BoxZero.localOperation s p operation i l respond = .ok o) :
    QueueEffect s o.server v l := by
  cases operation with
  | signal =>
    rw [← Except.ok.inj h]
    exact (serverSignal_effect s _ _ i l v).trans_eq (pushWoken_conditions _ _)
  | broadcast =>
    obtain ⟨t, ht, ho⟩ := BoxOne.bind_eq_ok.mp h
    rw [← Except.ok.inj ho]
    exact (serverBroadcast_effect ht).trans_eq rfl
  | wait =>
    obtain ⟨t, ht, ho⟩ := BoxOne.bind_eq_ok.mp h
    have hrel : (serverRelease t p.fromMachine p.fromMailbox l).1.conditions = t.conditions := by
      rw [serverRelease_eq]
      exact (applyTarget_conditions _ _).1
    dsimp only at ho
    split at ho
    · cases ho
    · rw [← Except.ok.inj ho]
      exact (serverWait_effect ht).trans_eq ((pushWoken_conditions _ _).trans hrel)
    · rw [← Except.ok.inj ho]
      exact (serverWait_effect ht).trans_eq hrel

theorem trackedOperation_effect {operation : CVOperation} {clientMID clientMBX l cv : ℤ}
    (h : BoxZero.trackedOperation cfg s p clientMID clientMBX l cv operation = .ok o) :
    QueueEffect s o.server v l := by
  unfold BoxZero.trackedOperation at h
  split_ifs at h
  · cases operation with
    | signal =>
      rw [← Except.ok.inj h]
      exact (serverSignal_effect s _ _ _ l v).trans_eq (pushWoken_conditions _ _)
    | wait =>
      obtain ⟨t, ht, ho⟩ := BoxOne.bind_eq_ok.mp h
      rw [← Except.ok.inj ho]
      exact serverWait_effect ht
    | broadcast =>
      obtain ⟨t, ht, ho⟩ := BoxOne.bind_eq_ok.mp h
      rw [← Except.ok.inj ho]
      exact (serverBroadcast_effect ht).trans_eq rfl
  · rw [← Except.ok.inj h]
    exact .of_conditions rfl

theorem serverSignal_trackers (s : Server) (m b i l : ℤ) :
    (serverSignal s m b i l).1.cvLockTrackerList = s.cvLockTrackerList := by
  unfold serverSignal
  cases s.condition? i with
  | none => rfl
  | some e =>
    dsimp only
    split_ifs <;> rfl

theorem serverWait_trackers {m b i l : ℤ} (h : serverWait s m b i l = .ok t) :
    t.cvLockTrackerList = s.cvLockTrackerList := by
  unfold serverWait at h
  split_ifs at h
  · rw [Except.ok.inj h]
  · split at h
    · rw [Except.ok.inj h]
    · dsimp only at h
      split_ifs at h <;> rw [← Except.ok.inj h] <;> rfl

theorem serverBroadcast_trackers {m b i l : ℤ} (h : serverBroadcast s m b i l = .ok t) :
    t.cvLockTrackerList = s.cvLockTrackerList := by
  unfold serverBroadcast at h
  split_ifs at h
  · rw [Except.ok.inj h]
  · split at h
    · rw [Except.ok.inj h]
    · split at h
      · cases h
      · rw [← Except.ok.inj h]
        rfl

theorem pushWoken_trackers (s : Server) (o : Option (ClientRequest × Bool)) :
    (BoxZero.pushWoken s o).cvLockTrackerList = s.cvLockTrackerList := by
  rcases o with _ | ⟨cr, _ | _⟩ <;> rfl

theorem localOperation_trackers {operation : CVOperation} {i l : ℤ} {respond : Bool}
    (h : BoxZero.localOperation s p operation i l respond = .ok o) :
    o.server.cvLockTrackerList = s.cvLockTrackerList := by
  cases operation with
  | signal =>
    rw [← Except.ok.inj h]
    exact (pushWoken_trackers _ _).trans (serverSignal_trackers _ _ _ _ _)
  | broadcast =>
    obtain ⟨t, ht, ho⟩ := BoxOne.bind_eq_ok.mp h
    rw [← Except.ok.inj ho]
    exact (serverBroadcast_trackers ht : t.cvLockTrackerList = s.cvLockTrackerList)
  | wait =>
    obtain ⟨t, ht, ho⟩ := BoxOne.bind_eq_ok.mp h
    have hrel : (serverRelease t p.fromMachine p.fromMailbox l).1.cvLockTrackerList =
        s.cvLockTrackerList := by
      rw [serverRelease_eq, (applyTarget_conditions _ _).2, serverWait_trackers ht]
    dsimp only at ho
    split at ho
    · cases ho
    · rw [← Except.ok.inj ho]
      exact (pushWoken_trackers _ _).trans hrel
    · rw [← Except.ok.inj ho]
      exact hrel

theorem trackedOperation_trackers {operation : CVOperation} {clientMID clientMBX l cv : ℤ}
    (h : BoxZero.trackedOperation cfg s p clientMID clientMBX l cv operation = .ok o) :
    o.server.cvLockTrackerList = s.cvLockTrackerList := by
  unfold BoxZero.trackedOperation at h
  split_ifs at h
  · cases operation with
    | signal =>
      rw [← Except.ok.inj h]
      exact (pushWoken_trackers _ _).trans (serverSignal_trackers _ _ _ _ _)
    | wait =>
      obtain ⟨t, ht, ho⟩ := BoxOne.bind_eq_ok.mp h
      rw [← Except.ok.inj ho]
      exact serverWait_trackers ht
    | broadcast =>
      obtain ⟨t, ht, ho⟩ := BoxOne.bind_eq_ok.mp h
      rw [← Except.ok.inj ho]
      exact (serverBroadcast_trackers ht : t.cvLockTrackerList = s.cvLockTrackerList)
  · rw [← Except.ok.inj h]

/-- SIGNAL, BROADCAST and WAIT: the local path works with the index of the lock. -/
theorem cvOperation_effect {operation : CVOperation} {cv l : ℤ} (hf : TrackersForeign cfg s)
    (h : BoxZero.cvOperation cfg s p operation cv l = .ok o) :
    TrackersForeign cfg o.server ∧ QueueEffect s o.server v (storedLock cfg l) := by
  unfold BoxZero.cvOperation at h
  dsimp only at h
  generalize decide (decodeMachineIDFromLockNumber l < 0 ∨
    decodeMachineIDFromLockNumber l > (cfg.totalNumServers : ℤ)) = invalid at h
  have hu : ∃ u, (if invalid = true then s.pushResponse p.response else s) = u ∧
      u.conditions = s.conditions ∧ u.cvLockTrackerList = s.cvLockTrackerList := by
    cases invalid <;> exact ⟨_, rfl, rfl, rfl⟩
  obtain ⟨u, hu, hcond, htrack⟩ := hu
  rw [hu] at h
  have hfu : TrackersForeign cfg u := by simpa [TrackersForeign, htrack] using hf
  split at h
  · rename_i hown
    have hcode : storedLock cfg l = decodeIndex cfg l := if_pos hown
    split at h
    · split at h
      · rw [← Except.ok.inj h]
        exact ⟨hfu, .of_conditions hcond⟩
      · rw [← Except.ok.inj h]
        exact ⟨hfu, .of_conditions hcond⟩
    · split at h
      · refine ⟨by simpa [TrackersForeign, localOperation_trackers h] using hfu, ?_⟩
        rw [hcode]
        exact (localOperation_effect h).congr_left hcond
      · rw [← Except.ok.inj h]
        exact ⟨hfu, .of_conditions hcond⟩
  · rename_i hforeign
    rw [← Except.ok.inj h]
    refine ⟨?_, .of_conditions hcond⟩
    intro t ht
    rcases List.mem_append.mp ht with ht | ht
    · exact hfu t ht
    · rw [List.mem_singleton.mp ht]
      exact hforeign

/-- The answer of a lock's machine: the tracked path works with the global number. -/
theorem cvLockTrackerResponse_effect {clientMID clientMBX l : ℤ} {held : Bool}
    (hf : TrackersForeign cfg s)
    (h : BoxZero.cvLockTrackerResponse cfg s p clientMID clientMBX l held = .ok o) :
    TrackersForeign cfg o.server ∧ QueueEffect s o.server v (storedLock cfg l) := by
  unfold BoxZero.cvLockTrackerResponse at h
  dsimp only at h
  cases hfound : s.cvLockTrackerList.findIdx? fun t =>
      t.clientMachineID = clientMID && t.clientMailbox = clientMBX && t.lockNum = l with
  | none =>
    simp only [hfound, Option.bind_none] at h
    split_ifs at h
    rw [← Except.ok.inj h]
    exact ⟨hf, .of_conditions rfl⟩
  | some i =>
    obtain ⟨hlt, hmatch, -⟩ := List.findIdx?_eq_some_iff_getElem.mp hfound
    have hferase : TrackersForeign cfg
        { s with cvLockTrackerList := s.cvLockTrackerList.eraseIdx i } :=
      fun t ht => hf t (List.mem_of_mem_eraseIdx ht)
    simp only [hfound, Option.bind_some, List.getElem?_eq_getElem hlt] at h
    split_ifs at h
    · have hforeign := hf _ (List.getElem_mem hlt)
      have hl : s.cvLockTrackerList[i].lockNum = l := by
        simp only [Bool.and_eq_true, decide_eq_true_eq] at hmatch
        exact hmatch.2
      rw [hl] at hforeign
      refine ⟨by simpa [TrackersForeign, trackedOperation_trackers h] using hferase, ?_⟩
      rw [show storedLock cfg l = l from if_neg hforeign]
      exact (trackedOperation_effect h).congr_left rfl
    · rw [← Except.ok.inj h]
      exact ⟨hferase, .of_conditions rfl⟩

/-- The requests that leave the queues of the conditions alone. -/
theorem request_same {r : Request} (h : BoxZero.request cfg s p r = .ok o)
    (hr : ∀ op cv l, r ≠ .cvOperation op cv l) :
    o.server.cvLockTrackerList = s.cvLockTrackerList ∧ QueueSame s o.server v := by
  cases r with
  | cvOperation op cv l => exact absurd rfl (hr op cv l)
  | createCV name =>
    rw [← Except.ok.inj h]
    unfold BoxZero.createCV
    split
    · exact ⟨rfl, .of_conditions rfl⟩
    · split_ifs
      · exact ⟨rfl, serverCreateCV_same s name⟩
      · exact ⟨rfl, .of_conditions rfl⟩
  | destroyCV n =>
    rw [← Except.ok.inj h]
    unfold BoxZero.destroyCV
    split_ifs
    · exact ⟨rfl, .of_conditions rfl⟩
    · refine ⟨?_, serverDestroyCV_same s n⟩
      unfold serverDestroyCV
      split
      · rfl
      · split_ifs <;> rfl
  | createLock name =>
    rw [← Except.ok.inj h]
    unfold BoxZero.createLock
    split
    · exact ⟨rfl, .of_conditions rfl⟩
    · split_ifs <;> exact ⟨rfl, .of_conditions rfl⟩
  | destroyLock n =>
    rw [← Except.ok.inj h]
    unfold BoxZero.destroyLock
    split_ifs
    · exact ⟨rfl, .of_conditions rfl⟩
    · dsimp only
      rw [serverDestroyLock_eq]
      exact ⟨(applyTarget_conditions _ _).2, .of_conditions (applyTarget_conditions _ _).1⟩
  | acquire n =>
    rw [← Except.ok.inj h]
    unfold BoxZero.acquire
    split_ifs
    · exact ⟨rfl, .of_conditions rfl⟩
    · have ha := applyTarget_conditions s
        (some (decodeIndex cfg n, .acquire ⟨p.fromMachine, p.fromMailbox⟩))
      rw [← serverAcquire_eq] at ha
      dsimp only
      split <;> exact ⟨ha.2, .of_conditions ha.1⟩
  | release n =>
    rw [← Except.ok.inj h]
    unfold BoxZero.release
    split_ifs
    · exact ⟨rfl, .of_conditions rfl⟩
    · have ha := applyTarget_conditions s
        (some (decodeIndex cfg n, .release ⟨p.fromMachine, p.fromMailbox⟩))
      rw [← serverRelease_eq] at ha
      dsimp only
      split <;> exact ⟨ha.2, .of_conditions ha.1⟩
  | createMV n x name =>
    simp only [BoxZero.request, BoxZero.createMV] at h
    split at h
    · rw [← Except.ok.inj h]
      exact ⟨rfl, .of_conditions rfl⟩
    · split_ifs at h
      · obtain ⟨q, hq, ho⟩ := BoxOne.bind_eq_ok.mp h
        rw [← Except.ok.inj ho]
        refine ⟨?_, .of_conditions (serverCreateMV_frame hq).2.1⟩
        simp only [serverCreateMV] at hq
        split_ifs at hq <;> rw [← Except.ok.inj hq] <;> rfl
      · rw [← Except.ok.inj h]
        exact ⟨rfl, .of_conditions rfl⟩
  | destroyMV n =>
    rw [← Except.ok.inj h]
    unfold BoxZero.destroyMV serverDestroyMV
    split_ifs
    · exact ⟨rfl, .of_conditions rfl⟩
    · dsimp only
      split <;> exact ⟨rfl, .of_conditions rfl⟩
  | getMV n i =>
    rw [← Except.ok.inj h]
    unfold BoxZero.getMV
    split_ifs <;> exact ⟨rfl, .of_conditions rfl⟩
  | setMV n i x =>
    rw [← Except.ok.inj h]
    unfold BoxZero.setMV serverSetMV
    split_ifs
    · exact ⟨rfl, .of_conditions rfl⟩
    · dsimp only
      split
      · exact ⟨rfl, .of_conditions rfl⟩
      · split_ifs <;> exact ⟨rfl, .of_conditions rfl⟩

/-- What any message of mailbox 0 does to the waiters of condition `v`. -/
theorem boxZero_effect {out : List Packet} (hf : TrackersForeign cfg s)
    (h : boxZero cfg s p = .ok (t, out)) (v : ℤ) :
    TrackersForeign cfg t ∧
      match namedLock p with
      | none => QueueSame s t v
      | some l => QueueEffect s t v (storedLock cfg l) := by
  cases ho : BoxZero.handle cfg s p with
  | error f => simp [boxZero, ho, Except.map] at h
  | ok o =>
    have ht : (BoxZero.flush cfg o).1 = t := by
      simp only [boxZero, ho, Except.map, Except.ok.injEq] at h
      rw [h]
    have hc : t.conditions = o.server.conditions ∧
        t.cvLockTrackerList = o.server.cvLockTrackerList := by
      rw [← ht]
      unfold BoxZero.flush
      split_ifs <;> exact ⟨rfl, rfl⟩
    suffices hh : TrackersForeign cfg o.server ∧
        match namedLock p with
        | none => QueueSame s o.server v
        | some l => QueueEffect s o.server v (storedLock cfg l) by
      refine ⟨by simpa [TrackersForeign, hc.2] using hh.1, ?_⟩
      split <;> rename_i hn <;> simp only [hn] at hh
      · simpa [QueueSame, conditionQueue, boundLock, Server.condition?, hc.1] using hh.2
      · exact hh.2.trans_eq hc.1
    cases hd : p.data with
    | request r =>
      simp only [BoxZero.handle, hd] at ho
      cases r with
      | cvOperation op cv l =>
        simp only [namedLock, hd]
        exact cvOperation_effect hf ho
      | _ =>
        simp only [namedLock, hd]
        obtain ⟨htr, hq⟩ := request_same (v := v) ho (by simp)
        exact ⟨by simpa [TrackersForeign, htr] using hf, hq⟩
    | cvLockTrackerResponse clientMID clientMBX l held =>
      simp only [BoxZero.handle, hd] at ho
      simp only [namedLock, hd]
      exact cvLockTrackerResponse_effect hf ho
    | doesClientHaveLock clientMID clientMBX l =>
      simp only [BoxZero.handle, hd] at ho
      simp only [namedLock, hd]
      rw [← Except.ok.inj ho]
      unfold BoxZero.doesClientHaveLock
      split <;> exact ⟨hf, .of_conditions rfl⟩
    | _ =>
      simp only [BoxZero.handle, hd] at ho
      simp only [namedLock, hd]
      rw [← Except.ok.inj ho]
      exact ⟨hf, .of_conditions rfl⟩

end Messages

end Nachos.Network
