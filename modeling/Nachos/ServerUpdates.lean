import Nachos.ServerBoxOne

/-! What the operations on existing objects can do to a server: a sequence of changes of
single entries, each of which keeps its name or is removed. -/
namespace Nachos.Network
open SlotTables BoxOne

variable {s t u : Server}

/-- The kind and the name of the object that a request creates. -/
def creation : Request → Option (StructureType × Name)
  | .createLock name => some (.lock, name)
  | .createCV name => some (.cv, name)
  | .createMV _ _ name => some (.mv, name)
  | _ => none

/-- One entry, changed under its name or removed. Answers and trackers do not matter. -/
inductive Update : Server → Server → Prop
  | lock {s : Server} {i : ℤ} {e : ServerLockEntry} (he : s.lock? i = some e)
      (e' : ServerLockEntry) (hn : e'.lock.name = e.lock.name) : Update s (s.setLock i e')
  | noLock {s : Server} {i : ℤ} {e : ServerLockEntry} (he : s.lock? i = some e) :
      Update s (s.removeLock i)
  | condition {s : Server} {i : ℤ} {e : ServerConditionEntry} (he : s.condition? i = some e)
      (e' : ServerConditionEntry) (hn : e'.condition.name = e.condition.name) :
      Update s (s.setCondition i e')
  | noCondition {s : Server} {i : ℤ} {e : ServerConditionEntry} (he : s.condition? i = some e) :
      Update s (s.removeCondition i)
  | mv {s : Server} {i : ℤ} {e : ServerMVEntry} (he : s.mv? i = some e) (e' : ServerMVEntry)
      (hn : e'.name = e.name) : Update s (s.setMV i e')
  | noMV {s : Server} {i : ℤ} {e : ServerMVEntry} (he : s.mv? i = some e) :
      Update s (s.removeMV i)
  | noted (s : Server) (responses : List ServerResponse) (trackers : List CVLockTracker) :
      Update s { s with necessaryResponses := responses, cvLockTrackerList := trackers }

def Updates : Server → Server → Prop := Relation.ReflTransGen Update

namespace Updates

theorem refl (s : Server) : Updates s s := Relation.ReflTransGen.refl

theorem of (h : Update s t) : Updates s t := Relation.ReflTransGen.single h

theorem trans (h : Updates s t) (h' : Updates t u) : Updates s u :=
  Relation.ReflTransGen.trans h h'

theorem pushResponse (s : Server) (r : ServerResponse) : Updates s (s.pushResponse r) :=
  .of (.noted s _ s.cvLockTrackerList)

end Updates

/-! Names are kept by the locks and the conditions themselves. -/

@[simp] theorem ServerLock.acquire_name (l : ServerLock) (cr : ClientRequest) :
    (l.acquire cr).1.name = l.name := by
  unfold ServerLock.acquire
  split_ifs <;> rfl

@[simp] theorem ServerLock.release_name (l : ServerLock) (cr : ClientRequest) :
    (l.release cr).1.name = l.name := by
  unfold ServerLock.release
  split_ifs
  · split <;> rfl
  · rfl

@[simp] theorem ServerCondition.wait_name (c : ServerCondition) (lockNum : ℤ)
    (cr : ClientRequest) : (c.wait lockNum cr).1.name = c.name := by
  unfold ServerCondition.wait
  dsimp only
  split_ifs <;> rfl

@[simp] theorem ServerCondition.signal_name (c : ServerCondition) (lockNum : ℤ)
    (cr : ClientRequest) : (c.signal lockNum cr).1.name = c.name := by
  unfold ServerCondition.signal
  split
  · rfl
  · split_ifs <;> rfl

theorem broadcastLoop_name {lockIndex : ℤ} {requester : ClientRequest} :
    ∀ {n : ℕ} {c : ServerCondition} {q : ServerCondition × List ServerResponse},
      broadcastLoop lockIndex requester n c = some q → q.1.name = c.name := by
  intro n
  induction n with
  | zero =>
    intro c q h
    unfold broadcastLoop at h
    split_ifs at h
    rw [← Option.some.inj h]
  | succ n ih =>
    intro c q h
    unfold broadcastLoop at h
    split_ifs at h
    · obtain ⟨r, hr, rfl⟩ := Option.map_eq_some_iff.mp h
      rw [ih hr, ServerCondition.signal_name]
    · rw [← Option.some.inj h]

/-! The operations. -/

theorem serverAcquire_updates (s : Server) (m b i : ℤ) : Updates s (serverAcquire s m b i).1 := by
  unfold serverAcquire
  split
  · exact .refl s
  · rename_i e he
    exact .of (.lock he _ (ServerLock.acquire_name _ _))

theorem serverRelease_updates (s : Server) (m b i : ℤ) : Updates s (serverRelease s m b i).1 := by
  unfold serverRelease
  split
  · exact .refl s
  · rename_i e he
    dsimp only
    split_ifs
    · exact .of (.noLock he)
    · exact .of (.lock he _ (ServerLock.release_name _ _))

theorem serverDestroyLock_updates (s : Server) (i : ℤ) : Updates s (serverDestroyLock s i) := by
  unfold serverDestroyLock
  split
  · exact .refl s
  · rename_i e he
    split_ifs
    · exact .of (.lock he _ rfl)
    · exact .of (.noLock he)

theorem serverDestroyCV_updates (s : Server) (i : ℤ) : Updates s (serverDestroyCV s i) := by
  unfold serverDestroyCV
  split
  · exact .refl s
  · rename_i e he
    split_ifs
    · exact .of (.condition he _ rfl)
    · exact .of (.noCondition he)

theorem serverSignal_updates (s : Server) (m b i l : ℤ) : Updates s (serverSignal s m b i l).1 := by
  unfold serverSignal
  split
  · exact .refl s
  · rename_i e he
    split_ifs
    · exact .refl s
    · exact .of (.condition he _ (ServerCondition.signal_name _ _ _))

theorem serverWait_updates {m b i l : ℤ} (h : serverWait s m b i l = .ok t) : Updates s t := by
  unfold serverWait at h
  split_ifs at h
  · rw [← Except.ok.inj h]
    exact .refl s
  · split at h
    · rw [← Except.ok.inj h]
      exact .refl s
    · rename_i e he
      dsimp only at h
      split_ifs at h
      · rw [← Except.ok.inj h]
        exact .of (.noCondition he)
      · rw [← Except.ok.inj h]
        exact .of (.condition he _ (ServerCondition.wait_name _ _ _))

theorem serverBroadcast_updates {m b i l : ℤ} (h : serverBroadcast s m b i l = .ok t) :
    Updates s t := by
  unfold serverBroadcast at h
  split_ifs at h
  · rw [← Except.ok.inj h]
    exact .refl s
  · split at h
    · rw [← Except.ok.inj h]
      exact .refl s
    · rename_i e he
      split at h
      · cases h
      · rename_i q hq
        rw [← Except.ok.inj h]
        exact (Updates.of (.condition he _ (broadcastLoop_name hq))).trans
          (.of (.noted _ _ s.cvLockTrackerList))

theorem serverDestroyMV_updates (s : Server) (i : ℤ) : Updates s (serverDestroyMV s i) := by
  unfold serverDestroyMV
  split
  · exact .refl s
  · rename_i e he
    exact .of (.noMV he)

theorem serverSetMV_updates (s : Server) (i n x : ℤ) : Updates s (serverSetMV s i n x) := by
  unfold serverSetMV
  split
  · exact .refl s
  · rename_i e he
    split_ifs
    · exact .refl s
    · exact .of (.mv he _ rfl)

theorem pushWoken_updates (s : Server) (r : Option (ClientRequest × Bool)) :
    Updates s (BoxZero.pushWoken s r) := by
  unfold BoxZero.pushWoken
  split
  · exact .pushResponse s _
  · exact .refl s

/-! What is kept. -/

/-- The name of the entry in use at an index. -/
def Server.nameAt (s : Server) (type : StructureType) (i : ℤ) : Option Name :=
  match type with
  | .lock => (s.lock? i).map fun e => e.lock.name
  | .cv => (s.condition? i).map fun e => e.condition.name
  | .mv => (s.mv? i).map fun e => e.name

theorem Update.nameAt (h : Update s t) {type : StructureType} {i : ℤ} {name : Name}
    (hi : t.nameAt type i = some name) : s.nameAt type i = some name := by
  cases h with
  | @lock i' e he e' hn =>
    cases type <;> try exact hi
    simp only [Server.nameAt, Server.lock?_setLock he] at hi ⊢
    split_ifs at hi with hii
    · simpa [hii, he, hn] using hi
    · exact hi
  | @noLock i' e he =>
    cases type <;> try exact hi
    simp only [Server.nameAt, Server.lock?_removeLock he] at hi ⊢
    split_ifs at hi
    · cases hi
    · exact hi
  | @condition i' e he e' hn =>
    cases type <;> try exact hi
    simp only [Server.nameAt, Server.condition?_setCondition he] at hi ⊢
    split_ifs at hi with hii
    · simpa [hii, he, hn] using hi
    · exact hi
  | @noCondition i' e he =>
    cases type <;> try exact hi
    simp only [Server.nameAt, Server.condition?_removeCondition he] at hi ⊢
    split_ifs at hi
    · cases hi
    · exact hi
  | @mv i' e he e' hn =>
    cases type <;> try exact hi
    simp only [Server.nameAt, Server.mv?, Server.setMV] at he hi ⊢
    rw [live?_put he] at hi
    split_ifs at hi with hii
    · simpa [hii, he, hn] using hi
    · exact hi
  | @noMV i' e he =>
    cases type <;> try exact hi
    simp only [Server.nameAt, Server.mv?, Server.removeMV] at he hi ⊢
    rw [live?_clear he] at hi
    split_ifs at hi
    · cases hi
    · exact hi
  | noted => exact hi

/-- An entry in use had its name before. -/
theorem Updates.nameAt (h : Updates s t) {type : StructureType} {i : ℤ} {name : Name}
    (hi : t.nameAt type i = some name) : s.nameAt type i = some name := by
  induction h with
  | refl => exact hi
  | tail _ h ih => exact ih (h.nameAt hi)

end Nachos.Network
