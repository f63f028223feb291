import Nachos.ServerConditionDeferral
import Nachos.ServerDestroys

/-! Requests of mailbox 0 that name a slot outside a table, or an array of negative size. -/
namespace Nachos.Network
open SlotTables BoxOne Executions

variable {S : Setting} {cfg : Config} {s t : Server} {p : Packet} {i l : ℤ}
  {type : StructureType} {op : CVOperation} {o : Outcome}

def tableSize (s : Server) : StructureType → ℕ
  | .lock => s.locks.length
  | .cv => s.conditions.length
  | .mv => s.mvs.length

/-- A table that is not allocated yet has no slots. -/
def Outside (s : Server) (type : StructureType) (i : ℤ) : Prop := i < 0 ∨ tableSize s type ≤ i

instance : Decidable (Outside s type i) := inferInstanceAs (Decidable (_ ∨ _))

/-- The objects that a request names. -/
def Request.numbers : Request → List (StructureType × ℤ)
  | .createLock _ | .createCV _ | .createMV .. => []
  | .destroyLock n | .acquire n | .release n => [(.lock, n)]
  | .destroyCV n => [(.cv, n)]
  | .cvOperation _ cvNum lockNum => [(.cv, cvNum), (.lock, lockNum)]
  | .destroyMV n | .getMV n _ | .setMV n _ _ => [(.mv, n)]

def Request.NegativeSize : Request → Prop
  | .createMV numEntries _ _ => numEntries < 0
  | _ => False

/-- The message names, or makes the server use, a slot of its own that is not in the table,
or an array of negative size. -/
inductive OutOfTables (cfg : Config) (s : Server) (p : Packet) : Prop
  | number {r : Request} {type : StructureType} {n : ℤ} (hp : p.data = .request r)
      (hn : (type, n) ∈ r.numbers) (how : ownerOf n = cfg.myMachineID)
      (hout : Outside s type (decodeIndex cfg n)) : OutOfTables cfg s p
  | operation {op : CVOperation} {i l : ℤ} (hop : operationAt cfg s p = some (op, i, l))
      (hout : Outside s .cv i) : OutOfTables cfg s p
  | size {r : Request} (hp : p.data = .request r) (hr : r.NegativeSize) : OutOfTables cfg s p

/-- No entry changes and no lock is released on another server. -/
structure Refused (s t : Server) (out : List Packet) : Prop where
  tables : ∀ type i, SameEntry s t type i
  keepsLocks : ∀ q ∈ out, ∀ n, q.data ≠ .request (.release n)

/-- What the message makes of the tables. -/
structure KeepsToTables (cfg : Config) (s : Server) (p : Packet) : Prop where
  bitmap : boxZero cfg s p ≠ .error .bitmapRange
  size : boxZero cfg s p ≠ .error .negativeArray
  refused : OutOfTables cfg s p → ∀ t out, boxZero cfg s p = .ok (t, out) → Refused s t out

/-- The exact condition: a WAIT finds its condition's slot in the table, a BROADCAST not
beyond it, and a lone server makes no array of negative size. -/
structure WithinTables (cfg : Config) (s : Server) (p : Packet) : Prop where
  condition : ∀ op i l, operationAt cfg s p = some (op, i, l) → Outside s .cv i →
    op = .signal ∨ op = .broadcast ∧ i < 0
  size : ∀ numEntries initialValue name,
    p.data = .request (.createMV numEntries initialValue name) → numEntries < 0 →
    cfg.totalNumServers = 1 → checkIfMVExists s name = none →
    firstFree (allocate maxServerMVArrays s.mvs) = none

/-! Slots outside. -/

theorem live?_of_outside {α : Type} {t : SlotTable α} (h : i < 0 ∨ (t.length : ℤ) ≤ i) :
    live? t i = none := by
  by_contra hne
  obtain ⟨a, ha⟩ := Option.ne_none_iff_exists'.mp hne
  have hlt := live?_lt_length ha
  omega

theorem Outside.nameAt (h : Outside s type i) : s.nameAt type i = none := by
  cases type <;> exact Option.map_eq_none_iff.mpr (live?_of_outside h)

theorem serverWait_bitmapRange_iff {m b : ℤ} :
    serverWait s m b i l = .error .bitmapRange ↔ 0 ≤ i ∧ Outside s .cv i := by
  unfold serverWait Outside tableSize
  split_ifs with h0 hlen
  · simp [h0, not_le.mpr h0]
  · simp
    omega
  · have hin : ¬ (0 ≤ i ∧ (i < 0 ∨ (s.conditions.length : ℤ) ≤ i)) := by omega
    simp only [hin, iff_false]
    split
    · simp
    · split_ifs <;> simp

theorem serverBroadcast_bitmapRange_iff {m b : ℤ} :
    serverBroadcast s m b i l = .error .bitmapRange ↔ 0 ≤ i ∧ Outside s .cv i := by
  unfold serverBroadcast Outside tableSize
  split_ifs with h0 hlen
  · simp [h0, not_le.mpr h0]
  · simp
    omega
  · have hin : ¬ (0 ≤ i ∧ (i < 0 ∨ (s.conditions.length : ℤ) ≤ i)) := by omega
    simp only [hin, iff_false]
    split
    · simp
    · split <;> simp

/-! One case of the switch. -/

/-- The case leaves every entry alone and releases no lock elsewhere. -/
structure TurnsDown (s : Server) (o : Outcome) : Prop where
  tables : ∀ type i, SameEntry s o.server type i
  keepsLocks : ∀ q ∈ o.sent, ∀ n, q.data ≠ .request (.release n)

/-- `KeepsToTables`, of a case of the switch and of whether the message is out of the tables. -/
structure CaseKeeps (s : Server) (out : Prop) (r : Except Fault Outcome) : Prop where
  bitmap : r ≠ .error .bitmapRange
  size : r ≠ .error .negativeArray
  refused : out → ∀ o, r = .ok o → TurnsDown s o

theorem flush_refused_iff {out : List Packet} (h : BoxZero.flush cfg o = (t, out)) :
    Refused s t out ↔ TurnsDown s o := by
  unfold BoxZero.flush at h
  split_ifs at h <;> obtain ⟨rfl, rfl⟩ := Prod.mk.inj h
  · constructor
    · refine fun hr => ⟨fun type i => ?_, fun q hq => hr.keepsLocks q (List.mem_append_left _ hq)⟩
      have hsame := hr.tables type i
      cases type <;> exact hsame
    · refine fun ht => ⟨ht.tables, fun q hq n => ?_⟩
      rcases List.mem_append.mp hq with hq | hq
      · exact ht.keepsLocks q hq n
      · obtain ⟨r, -, rfl⟩ := List.mem_map.mp hq
        simp [BoxZero.responsePacket]
  · exact ⟨fun hr => ⟨hr.tables, hr.keepsLocks⟩, fun ht => ⟨ht.tables, ht.keepsLocks⟩⟩

theorem keepsToTables_iff_case :
    KeepsToTables cfg s p ↔ CaseKeeps s (OutOfTables cfg s p) (BoxZero.handle cfg s p) := by
  cases ho : BoxZero.handle cfg s p with
  | error f =>
    have hbox : boxZero cfg s p = .error f := by simp [boxZero, ho, Except.map]
    constructor
    · exact fun h => ⟨by simpa [hbox] using h.bitmap, by simpa [hbox] using h.size,
        fun _ _ ho => by cases ho⟩
    · exact fun h => ⟨by simpa [hbox] using h.bitmap, by simpa [hbox] using h.size,
        fun _ _ _ ht => by simp [hbox] at ht⟩
  | ok o =>
    have hbox : boxZero cfg s p = .ok (BoxZero.flush cfg o) := by simp [boxZero, ho, Except.map]
    constructor
    · rintro h
      refine ⟨(by simp), (by simp), ?_⟩
      rintro hout _ ⟨⟩
      exact (flush_refused_iff rfl).mp (h.refused hout _ _ hbox)
    · refine fun h => ⟨by simp [hbox], by simp [hbox], fun hout t out ht => ?_⟩
      exact (flush_refused_iff (Except.ok.inj (hbox.symm.trans ht))).mpr (h.refused hout _ rfl)

theorem CaseKeeps.of_ok {out : Prop} (h : out → TurnsDown s o) : CaseKeeps s out (.ok o) := by
  refine ⟨nofun, nofun, ?_⟩
  rintro hout _ ⟨⟩
  exact h hout

/-- The entries before are all that matters. -/
theorem CaseKeeps.congr {out : Prop} {r : Except Fault Outcome} (hl : t.locks = s.locks)
    (hc : t.conditions = s.conditions) (hm : t.mvs = s.mvs) :
    CaseKeeps t out r ↔ CaseKeeps s out r := by
  have hturn : ∀ o, TurnsDown t o ↔ TurnsDown s o := by
    intro o
    have hsame : ∀ type i, SameEntry t o.server type i ↔ SameEntry s o.server type i := by
      intro type i
      cases type <;> simp [SameEntry, Server.lock?, Server.condition?, Server.mv?, hl, hc, hm]
    exact ⟨fun h => ⟨fun type i => (hsame type i).mp (h.tables type i), h.keepsLocks⟩,
      fun h => ⟨fun type i => (hsame type i).mpr (h.tables type i), h.keepsLocks⟩⟩
  exact ⟨fun h => ⟨h.bitmap, h.size, fun hout o ho => (hturn o).mp (h.refused hout o ho)⟩,
    fun h => ⟨h.bitmap, h.size, fun hout o ho => (hturn o).mpr (h.refused hout o ho)⟩⟩

/-! SIGNAL, BROADCAST and WAIT. -/

theorem serverSignal_outside {m b : ℤ} (h : Outside s .cv i) : serverSignal s m b i l = (s, none) := by
  have hnone : s.condition? i = none := live?_of_outside h
  simp [serverSignal, hnone]

theorem serverRelease_changes {m b : ℤ} (h : (s.lock? l).isSome) :
    (serverRelease s m b l).1.lock? l ≠ s.lock? l := by
  obtain ⟨e, he⟩ := Option.isSome_iff_exists.mp h
  unfold serverRelease
  simp only [he]
  split_ifs
  · simp [Server.lock?_removeLock he]
  · rw [Server.lock?_setLock he, if_pos rfl]
    intro heq
    have hcount := congrArg ServerLockEntry.acquireCount (Option.some.inj heq)
    simp at hcount

theorem serverWait_error {m b : ℤ} {f : Fault} (h : serverWait s m b i l = .error f) :
    f = .bitmapRange := by
  unfold serverWait at h
  split_ifs at h
  · exact (Except.error.inj h).symm
  · split at h
    · cases h
    · dsimp only at h
      split_ifs at h

theorem serverBroadcast_ne_negativeArray {m b : ℤ} :
    serverBroadcast s m b i l ≠ .error .negativeArray := by
  unfold serverBroadcast
  split_ifs
  · simp
  · simp
  · split
    · simp
    · split <;> simp

theorem serverWait_negative {m b : ℤ} (h : i < 0) : serverWait s m b i l = .ok s := if_pos h

theorem serverBroadcast_negative {m b : ℤ} (h : i < 0) : serverBroadcast s m b i l = .ok s :=
  if_pos h

/-- The test of the bitmap comes first in the case. -/
theorem not_caseKeeps_of_bitmapRange {out : Prop} {α : Type} {x : Except Fault α}
    {f : α → Except Fault Outcome} (h : x = .error .bitmapRange) : ¬ CaseKeeps s out (x >>= f) :=
  fun hk => hk.bitmap (by rw [h]; rfl)

theorem localOperation_inside {respond : Bool} (h : ¬ Outside s .cv i) :
    CaseKeeps s (Outside s .cv i) (BoxZero.localOperation s p op i l respond) := by
  suffices hne : BoxZero.localOperation s p op i l respond ≠ .error .bitmapRange ∧
      BoxZero.localOperation s p op i l respond ≠ .error .negativeArray from
    ⟨hne.1, hne.2, fun hout => absurd hout h⟩
  cases op with
  | signal => exact ⟨nofun, nofun⟩
  | broadcast =>
    unfold BoxZero.localOperation
    cases hb : serverBroadcast s p.fromMachine p.fromMailbox i l with
    | ok t => exact ⟨nofun, nofun⟩
    | error f =>
      refine ⟨fun hf => ?_, fun hf => ?_⟩
      · obtain rfl := Except.error.inj hf
        exact h (serverBroadcast_bitmapRange_iff.mp hb).2
      · obtain rfl := Except.error.inj hf
        exact serverBroadcast_ne_negativeArray hb
  | wait =>
    unfold BoxZero.localOperation
    cases hw : serverWait s p.fromMachine p.fromMailbox i l with
    | error f =>
      obtain rfl := serverWait_error hw
      exact absurd (serverWait_bitmapRange_iff.mp hw).2 h
    | ok t =>
      simp only [bind, Except.bind]
      split <;> simp

/-- A WAIT with a negative index still releases the lock. -/
theorem localWait_negative {respond : Bool} (hl : (s.lock? l).isSome) (h0 : i < 0) :
    ∃ o, BoxZero.localOperation s p .wait i l respond = .ok o ∧
      o.server.lock? l = (serverRelease s p.fromMachine p.fromMailbox l).1.lock? l := by
  have hsome : (serverRelease s p.fromMachine p.fromMailbox l).2 ≠ none := by
    obtain ⟨e, he⟩ := Option.isSome_iff_exists.mp hl
    unfold serverRelease
    simp only [he]
    split_ifs <;> simp
  obtain ⟨⟨cr, woken⟩, hr⟩ := Option.ne_none_iff_exists'.mp hsome
  simp only [BoxZero.localOperation, serverWait_negative h0, bind, Except.bind, hr]
  cases woken
  · exact ⟨_, rfl, rfl⟩
  · exact ⟨_, rfl, rfl⟩

theorem localOperation_caseKeeps_iff {respond : Bool} (hl : (s.lock? l).isSome) :
    CaseKeeps s (Outside s .cv i) (BoxZero.localOperation s p op i l respond) ↔
      (Outside s .cv i → op = .signal ∨ op = .broadcast ∧ i < 0) := by
  by_cases hout : Outside s .cv i
  swap
  · exact iff_of_true (localOperation_inside hout) fun h => absurd h hout
  cases op with
  | signal =>
    refine iff_of_true (.of_ok fun _ => ?_) fun _ => .inl rfl
    simp only [serverSignal_outside hout]
    exact ⟨fun type i => by cases type <;> rfl, by simp⟩
  | broadcast =>
    by_cases h0 : i < 0
    · refine iff_of_true ?_ fun _ => .inr ⟨rfl, h0⟩
      simp only [BoxZero.localOperation, serverBroadcast_negative h0]
      exact .of_ok fun _ => ⟨fun type i => by cases type <;> rfl, by simp⟩
    · refine iff_of_false (not_caseKeeps_of_bitmapRange ?_) fun h => by simp [h0] at h; exact h hout
      exact serverBroadcast_bitmapRange_iff.mpr ⟨not_lt.mp h0, hout⟩
  | wait =>
    refine iff_of_false ?_ fun h => by simpa using h hout
    by_cases h0 : i < 0
    · intro hk
      obtain ⟨o, ho, hrelease⟩ := @localWait_negative s p i l respond hl h0
      have hsame := (hk.refused hout o ho).tables .lock l
      exact serverRelease_changes hl (hrelease.symm.trans hsame)
    · exact not_caseKeeps_of_bitmapRange (serverWait_bitmapRange_iff.mpr ⟨not_lt.mp h0, hout⟩)

theorem trackedOperation_inside {clientMID clientMBX lockNum cvNum : ℤ}
    (hcv : decodeMachineIDFromCVNumber cvNum = cfg.myMachineID)
    (h : ¬ Outside s .cv (decodeIndex cfg cvNum)) :
    CaseKeeps s (Outside s .cv (decodeIndex cfg cvNum))
      (BoxZero.trackedOperation cfg s p clientMID clientMBX lockNum cvNum op) := by
  suffices hne : BoxZero.trackedOperation cfg s p clientMID clientMBX lockNum cvNum op ≠
        .error .bitmapRange ∧
      BoxZero.trackedOperation cfg s p clientMID clientMBX lockNum cvNum op ≠
        .error .negativeArray from ⟨hne.1, hne.2, fun hout => absurd hout h⟩
  unfold BoxZero.trackedOperation
  rw [if_pos hcv]
  cases op with
  | signal => exact ⟨nofun, nofun⟩
  | broadcast =>
    cases hb : serverBroadcast s p.fromMachine p.fromMailbox (decodeIndex cfg cvNum) lockNum with
    | ok t => exact ⟨nofun, nofun⟩
    | error f =>
      refine ⟨fun hf => ?_, fun hf => ?_⟩
      · obtain rfl := Except.error.inj hf
        exact h (serverBroadcast_bitmapRange_iff.mp hb).2
      · obtain rfl := Except.error.inj hf
        exact serverBroadcast_ne_negativeArray hb
  | wait =>
    cases hw : serverWait s clientMID clientMBX (decodeIndex cfg cvNum) lockNum with
    | ok t => exact ⟨nofun, nofun⟩
    | error f =>
      obtain rfl := serverWait_error hw
      exact absurd (serverWait_bitmapRange_iff.mp hw).2 h

theorem trackedOperation_caseKeeps_iff {clientMID clientMBX lockNum cvNum : ℤ}
    (hcv : decodeMachineIDFromCVNumber cvNum = cfg.myMachineID) :
    CaseKeeps s (Outside s .cv (decodeIndex cfg cvNum))
        (BoxZero.trackedOperation cfg s p clientMID clientMBX lockNum cvNum op) ↔
      (Outside s .cv (decodeIndex cfg cvNum) →
        op = .signal ∨ op = .broadcast ∧ decodeIndex cfg cvNum < 0) := by
  by_cases hout : Outside s .cv (decodeIndex cfg cvNum)
  swap
  · exact iff_of_true (trackedOperation_inside hcv hout) fun h => absurd h hout
  unfold BoxZero.trackedOperation
  rw [if_pos hcv]
  cases op with
  | signal =>
    refine iff_of_true (.of_ok fun _ => ?_) fun _ => .inl rfl
    simp only [serverSignal_outside hout]
    exact ⟨fun type i => by cases type <;> rfl, by simp⟩
  | broadcast =>
    by_cases h0 : decodeIndex cfg cvNum < 0
    · refine iff_of_true ?_ fun _ => .inr ⟨rfl, h0⟩
      simp only [serverBroadcast_negative h0]
      exact .of_ok fun _ => ⟨fun type i => by cases type <;> rfl, by simp⟩
    · refine iff_of_false (not_caseKeeps_of_bitmapRange ?_) fun h => by simp [h0] at h; exact h hout
      exact serverBroadcast_bitmapRange_iff.mpr ⟨not_lt.mp h0, hout⟩
  | wait =>
    refine iff_of_false ?_ fun h => by simpa using h hout
    by_cases h0 : decodeIndex cfg cvNum < 0
    · intro hk
      simp only [serverWait_negative h0] at hk
      exact (hk.refused hout _ rfl).keepsLocks _ (List.mem_singleton_self _) lockNum rfl
    · exact not_caseKeeps_of_bitmapRange (serverWait_bitmapRange_iff.mpr ⟨not_lt.mp h0, hout⟩)

/-! Every message. -/

theorem WithinTables.of_other (hop : operationAt cfg s p = none)
    (hmv : ∀ numEntries initialValue name,
      p.data ≠ .request (.createMV numEntries initialValue name)) : WithinTables cfg s p :=
  ⟨fun op i l h => by simp [hop] at h, fun n v name hp => absurd hp (hmv n v name)⟩

/-- A request that names one object. -/
theorem OutOfTables.of_single {r : Request} {n : ℤ} (h : OutOfTables cfg s p)
    (hp : p.data = .request r) (hn : r.numbers = [(type, n)]) (hr : ¬ r.NegativeSize)
    (hop : operationAt cfg s p = none) :
    ownerOf n = cfg.myMachineID ∧ Outside s type (decodeIndex cfg n) := by
  cases h with
  | @number r' type' n' hp' hn' how hout =>
    obtain rfl := Message.request.inj (hp.symm.trans hp')
    rw [hn, List.mem_singleton] at hn'
    obtain ⟨rfl, rfl⟩ := Prod.mk.inj hn'
    exact ⟨how, hout⟩
  | operation h => simp [hop] at h
  | size hp' hr' =>
    obtain rfl := Message.request.inj (hp.symm.trans hp')
    exact absurd hr' hr

theorem OutOfTables.not_of_create {r : Request} (hp : p.data = .request r) (hn : r.numbers = [])
    (hr : ¬ r.NegativeSize) (hop : operationAt cfg s p = none) : ¬ OutOfTables cfg s p := by
  intro h
  cases h with
  | number hp' hn' =>
    obtain rfl := Message.request.inj (hp.symm.trans hp')
    simp [hn] at hn'
  | operation h => simp [hop] at h
  | size hp' hr' =>
    obtain rfl := Message.request.inj (hp.symm.trans hp')
    exact absurd hr' hr

theorem TurnsDown.of_tables (hl : o.server.locks = s.locks)
    (hc : o.server.conditions = s.conditions) (hm : o.server.mvs = s.mvs) (hs : o.sent = []) :
    TurnsDown s o := by
  refine ⟨fun type i => ?_, by simp [hs]⟩
  cases type <;> simp [SameEntry, Server.lock?, Server.condition?, Server.mv?, hl, hc, hm]

/-- The requests that use one object. -/
theorem caseKeeps_use {r : Request} {n : ℤ} (hp : p.data = .request r)
    (hn : r.numbers = [(type, n)]) (hr : ∀ type n, r ≠ destroyRequest type n) :
    CaseKeeps s (OutOfTables cfg s p) (BoxZero.request cfg s p r) := by
  cases r with
  | createLock | createCV | createMV | cvOperation => cases hn
  | destroyLock k => exact absurd rfl (hr .lock k)
  | destroyCV k => exact absurd rfl (hr .cv k)
  | destroyMV k => exact absurd rfl (hr .mv k)
  | acquire k =>
    obtain ⟨rfl, rfl⟩ := Prod.mk.inj (List.singleton_inj.mp hn)
    refine .of_ok fun hout => ?_
    obtain ⟨how, hslot⟩ := hout.of_single hp rfl id (by simp [operationAt, hp])
    have how : decodeMachineIDFromLockNumber k = cfg.myMachineID := how
    have hnone : s.lock? (decodeIndex cfg k) = none := live?_of_outside hslot
    unfold BoxZero.acquire
    rw [if_neg (not_not.mpr how)]
    simp only [serverAcquire, hnone]
    exact .of_tables rfl rfl rfl rfl
  | release k =>
    obtain ⟨rfl, rfl⟩ := Prod.mk.inj (List.singleton_inj.mp hn)
    refine .of_ok fun hout => ?_
    obtain ⟨how, hslot⟩ := hout.of_single hp rfl id (by simp [operationAt, hp])
    have how : decodeMachineIDFromLockNumber k = cfg.myMachineID := how
    have hnone : s.lock? (decodeIndex cfg k) = none := live?_of_outside hslot
    unfold BoxZero.release
    rw [if_neg (not_not.mpr how)]
    simp only [serverRelease, hnone]
    exact .of_tables rfl rfl rfl rfl
  | getMV k j =>
    obtain ⟨rfl, rfl⟩ := Prod.mk.inj (List.singleton_inj.mp hn)
    refine .of_ok fun hout => ?_
    obtain ⟨how, hslot⟩ := hout.of_single hp rfl id (by simp [operationAt, hp])
    have how : decodeMachineIDFromMVNumber k = cfg.myMachineID := how
    have hnone : s.mv? (decodeIndex cfg k) = none := live?_of_outside hslot
    unfold BoxZero.getMV
    rw [if_neg (not_not.mpr how)]
    simp only [serverGetMV, hnone]
    exact .of_tables rfl rfl rfl rfl
  | setMV k j v =>
    obtain ⟨rfl, rfl⟩ := Prod.mk.inj (List.singleton_inj.mp hn)
    refine .of_ok fun hout => ?_
    obtain ⟨how, hslot⟩ := hout.of_single hp rfl id (by simp [operationAt, hp])
    have how : decodeMachineIDFromMVNumber k = cfg.myMachineID := how
    have hnone : (s.pushResponse p.response).mv? (decodeIndex cfg k) = none := live?_of_outside hslot
    unfold BoxZero.setMV
    rw [if_neg (not_not.mpr how)]
    simp only [serverSetMV, hnone]
    exact .of_tables rfl rfl rfl rfl

theorem keepsToTables_destroy (type : StructureType) (ha : s.Allocated) {n : ℤ}
    (hp : p.data = .request (destroyRequest type n)) :
    KeepsToTables cfg s p := by
  have hop : operationAt cfg s p = none := by cases type <;> simp [operationAt, hp, destroyRequest]
  have hnum : (destroyRequest type n).numbers = [(type, n)] := by cases type <;> rfl
  have hsize : ¬ (destroyRequest type n).NegativeSize := by cases type <;> exact id
  by_cases how : ownerOf n = cfg.myMachineID
  · have hbox := boxZero_destroy_own (s := s) _ _ hp how
    refine ⟨by simp [hbox], by simp [hbox], fun hout t out ht => ?_⟩
    obtain ⟨rfl, rfl⟩ := Prod.mk.inj (Except.ok.inj (hbox.symm.trans ht))
    obtain ⟨-, hslot⟩ := hout.of_single hp hnum hsize hop
    have hdead : s.nameAt type (lookedUp cfg type n) = none := by
      by_cases hcv : type = .cv ∧ cfg.myMachineID ≠ 0
      · obtain ⟨rfl, hm⟩ := hcv
        exact undecoded_dead ha (how ▸ hm)
      · have hlooked : lookedUp cfg type n = decodeIndex cfg n := by
          cases type <;> simp_all [lookedUp, decodeIndex]
        exact hlooked ▸ hslot.nameAt
    rw [destroyAt_dead hdead]
    exact ⟨SameEntry.refl s, by simp⟩
  · have hbox := boxZero_destroy_other (s := s) hp how
    refine ⟨by simp [hbox], by simp [hbox], fun hout t out ht => ?_⟩
    exact absurd (hout.of_single hp hnum hsize hop).1 how

/-- The tables of an MV that is not made. -/
theorem allocate_turnsDown {n : ℤ} :
    TurnsDown s (BoxZero.answer { s with mvs := allocate maxServerMVArrays s.mvs } p n) := by
  refine ⟨fun type i => ?_, by simp [BoxZero.answer]⟩
  cases type with
  | mv => exact live?_allocate _ _ _
  | _ => rfl

theorem createMV_keeps_iff {n v : ℤ} {name : Name}
    (hp : p.data = .request (.createMV n v name)) :
    CaseKeeps s (OutOfTables cfg s p) (BoxZero.createMV cfg s p n v name) ↔
      (n < 0 → cfg.totalNumServers = 1 → checkIfMVExists s name = none →
        firstFree (allocate maxServerMVArrays s.mvs) = none) := by
  unfold BoxZero.createMV
  cases hname : checkIfMVExists s name with
  | some k => exact iff_of_true (.of_ok fun _ => .of_tables rfl rfl rfl rfl) (by simp)
  | none =>
    by_cases hlone : cfg.totalNumServers = 1
    swap
    · simp only [hlone, if_false]
      refine iff_of_true (.of_ok fun _ => ⟨SameEntry.refl s, fun q hq => ?_⟩) fun _ h => h.elim
      obtain rfl := List.mem_singleton.mp hq
      simp [sendMessageWithData, hp]
    simp only [hlone, if_true, true_imp_iff]
    have hsearch : search (allocate maxServerMVArrays s.mvs) (fun e => e.name = name) = none := by
      refine search_none.mpr fun j e he => search_none.mp hname j e ?_
      rwa [live?_allocate] at he
    by_cases hsize : n < 0
    · have hmax : ¬ n > maxServerEntriesPerMVArray := by
        have hle : 0 ≤ maxServerEntriesPerMVArray := by decide
        omega
      by_cases hfull : firstFree (allocate maxServerMVArrays s.mvs) = none
      · have hmake : serverCreateMV s name n v =
            .ok ({ s with mvs := allocate maxServerMVArrays s.mvs }, -1) := by
          simp [serverCreateMV, hmax, hsearch, hfull, createEntry]
        rw [hmake]
        exact iff_of_true (.of_ok fun _ => allocate_turnsDown) fun _ => hfull
      · have hmake : serverCreateMV s name n v = .error .negativeArray := by
          simp [serverCreateMV, hmax, hsearch, hfull, hsize]
        rw [hmake]
        exact iff_of_false (fun hk => hk.size rfl) fun h => hfull (h hsize)
    · obtain ⟨r, hr⟩ : ∃ r, serverCreateMV s name n v = .ok r := by
        unfold serverCreateMV
        dsimp only
        split_ifs with hmax hbad
        · exact ⟨_, rfl⟩
        · exact absurd hbad.2.2 hsize
        · exact ⟨_, rfl⟩
      rw [hr]
      refine iff_of_true (.of_ok fun hout => ?_) fun h => absurd h hsize
      exact absurd hout (OutOfTables.not_of_create hp rfl hsize (by simp [operationAt, hp]))

theorem cvOperation_keeps_iff {op : CVOperation} {cvNum lockNum : ℤ} (h0 : 0 ≤ cfg.myMachineID)
    (hN : cfg.myMachineID ≤ cfg.totalNumServers)
    (hp : p.data = .request (.cvOperation op cvNum lockNum)) :
    CaseKeeps s (OutOfTables cfg s p) (BoxZero.cvOperation cfg s p op cvNum lockNum) ↔
      ∀ op i l, operationAt cfg s p = some (op, i, l) → Outside s .cv i →
        op = .signal ∨ op = .broadcast ∧ i < 0 := by
  by_cases hown : decodeMachineIDFromLockNumber lockNum = cfg.myMachineID
  · rw [BoxZero.cvOperation_own h0 hN hown]
    cases hl : s.lock? (decodeIndex cfg lockNum) with
    | none =>
      have hop : operationAt cfg s p = none := by simp [operationAt, hp, hl]
      simp only [hop]
      refine iff_of_true ?_ (by simp)
      split_ifs <;> exact .of_ok fun _ => .of_tables rfl rfl rfl rfl
    | some e =>
      dsimp only
      by_cases hcv : decodeMachineIDFromCVNumber cvNum = cfg.myMachineID
      · have hop : operationAt cfg s p =
            some (op, decodeIndex cfg cvNum, decodeIndex cfg lockNum) := by
          simp [operationAt, hp, hl, hown, hcv]
        have hlive : (s.lock? (decodeIndex cfg lockNum)).isSome := by simp [hl]
        rw [if_pos hcv, hop]
        have hout : OutOfTables cfg s p ↔ Outside s .cv (decodeIndex cfg cvNum) := by
          refine ⟨fun h => ?_, .operation hop⟩
          cases h with
          | number hp' hn _ hslot =>
            obtain rfl := Message.request.inj (hp.symm.trans hp')
            rcases List.mem_cons.mp hn with heq | hn
            · obtain ⟨rfl, rfl⟩ := Prod.mk.inj heq
              exact hslot
            · obtain ⟨rfl, rfl⟩ := Prod.mk.inj (List.mem_singleton.mp hn)
              cases (live?_of_outside hslot).symm.trans hl
          | operation hop' hslot =>
            obtain ⟨rfl, rfl, rfl⟩ := by simpa using hop.symm.trans hop'
            exact hslot
          | size hp' hr =>
            obtain rfl := Message.request.inj (hp.symm.trans hp')
            exact hr.elim
        rw [hout, localOperation_caseKeeps_iff hlive]
        constructor
        · rintro h _ _ _ ⟨⟩
          exact h
        · exact fun h => h _ _ _ rfl
      · have hop : operationAt cfg s p = none := by simp [operationAt, hp, hcv]
        rw [if_neg hcv, hop]
        refine iff_of_true (.of_ok fun _ => ⟨SameEntry.refl s, fun q hq => ?_⟩) (by simp)
        obtain rfl := List.mem_singleton.mp hq
        simp [sendMessageWithData, hp]
  · have hop : operationAt cfg s p = none := by simp [operationAt, hp, hown]
    rw [hop]
    refine iff_of_true ?_ (by simp)
    unfold BoxZero.cvOperation
    rw [if_neg hown]
    refine .of_ok fun _ => ⟨fun type i => ?_, fun q hq => ?_⟩
    · split_ifs <;> cases type <;> rfl
    · obtain rfl := List.mem_singleton.mp hq
      simp [sendMessageWithData]

theorem response_keeps_iff {clientMID clientMBX lockNum : ℤ} {held : Bool}
    (hp : p.data = .cvLockTrackerResponse clientMID clientMBX lockNum held) :
    CaseKeeps s (OutOfTables cfg s p)
        (BoxZero.cvLockTrackerResponse cfg s p clientMID clientMBX lockNum held) ↔
      ∀ op i l, operationAt cfg s p = some (op, i, l) → Outside s .cv i →
        op = .signal ∨ op = .broadcast ∧ i < 0 := by
  unfold BoxZero.cvLockTrackerResponse
  dsimp only
  cases hf : s.cvLockTrackerList.findIdx? fun t => t.clientMachineID = clientMID &&
      t.clientMailbox = clientMBX && t.lockNum = lockNum with
  | none =>
    have hop : operationAt cfg s p = none := by
      cases held <;> simp [operationAt, trackedRequest, hp, hf]
    rw [hop]
    refine iff_of_true ?_ (by simp)
    cases held
    · exact .of_ok fun _ => .of_tables rfl rfl rfl rfl
    · exact ⟨(by simp), (by simp), fun _ _ ho => by cases ho⟩
  | some k =>
    cases held with
    | false =>
      have hop : operationAt cfg s p = none := by simp [operationAt, hp]
      rw [hop]
      exact iff_of_true (.of_ok fun _ => .of_tables rfl rfl rfl rfl) (by simp)
    | true =>
      simp only [not_true_eq_false, if_false, Option.bind_some]
      cases ht : s.cvLockTrackerList[k]? with
      | none =>
        have hop : operationAt cfg s p = none := by simp [operationAt, trackedRequest, hp, hf, ht]
        rw [hop]
        exact iff_of_true ⟨(by simp), (by simp), fun _ _ ho => by cases ho⟩ (by simp)
      | some t =>
        dsimp only
        by_cases hcv : decodeMachineIDFromCVNumber t.cvNum = cfg.myMachineID
        · have hop : operationAt cfg s p =
              some (t.messageType, decodeIndex cfg t.cvNum, lockNum) := by
            simp [operationAt, trackedRequest, hp, hf, ht, hcv]
          have hout : OutOfTables cfg s p ↔ Outside s .cv (decodeIndex cfg t.cvNum) := by
            refine ⟨fun h => ?_, .operation hop⟩
            cases h with
            | number hp' => simp [hp] at hp'
            | operation hop' hslot =>
              obtain ⟨rfl, rfl, rfl⟩ := by simpa using hop.symm.trans hop'
              exact hslot
            | size hp' => simp [hp] at hp'
          rw [hout, hop]
          refine (CaseKeeps.congr (t := s) (s := { s with
            cvLockTrackerList := s.cvLockTrackerList.eraseIdx k }) rfl rfl rfl).trans ?_
          refine (trackedOperation_caseKeeps_iff hcv).trans ?_
          constructor
          · rintro h _ _ _ ⟨⟩
            exact h
          · exact fun h => h _ _ _ rfl
        · have hop : operationAt cfg s p = none := by
            simp [operationAt, trackedRequest, hp, hf, ht, hcv]
          rw [hop]
          unfold BoxZero.trackedOperation
          rw [if_neg hcv]
          refine iff_of_true (.of_ok fun _ => ⟨fun type i => by cases type <;> rfl, ?_⟩) (by simp)
          simp [sendMessageWithData]

/-- Only the condition matters, or only the size. -/
theorem withinTables_iff_condition (hmv : ∀ numEntries initialValue name,
      p.data ≠ .request (.createMV numEntries initialValue name)) :
    WithinTables cfg s p ↔ ∀ op i l, operationAt cfg s p = some (op, i, l) → Outside s .cv i →
      op = .signal ∨ op = .broadcast ∧ i < 0 :=
  ⟨fun h => h.condition, fun h => ⟨h, fun n v name hp => absurd hp (hmv n v name)⟩⟩

/-- A message that carries out no operation on a condition and creates no MV. -/
theorem keepsToTables_iff_of_other (hop : operationAt cfg s p = none)
    (hmv : ∀ numEntries initialValue name,
      p.data ≠ .request (.createMV numEntries initialValue name))
    (h : CaseKeeps s (OutOfTables cfg s p) (BoxZero.handle cfg s p)) :
    KeepsToTables cfg s p ↔ WithinTables cfg s p :=
  iff_of_true (keepsToTables_iff_case.mpr h) (.of_other hop hmv)

theorem keepsToTables_request_iff (ha : s.Allocated) (h0 : 0 ≤ cfg.myMachineID)
    (hN : cfg.myMachineID ≤ cfg.totalNumServers) {r : Request} (hp : p.data = .request r) :
    KeepsToTables cfg s p ↔ WithinTables cfg s p := by
  have hhandle : BoxZero.handle cfg s p = BoxZero.request cfg s p r := by
    simp only [BoxZero.handle, hp]
  have hcreate : (∀ op cvNum lockNum, r ≠ .cvOperation op cvNum lockNum) →
      operationAt cfg s p = none := by
    intro hr
    cases r <;> simp [operationAt, hp]
    exact absurd rfl (hr _ _ _)
  cases r with
  | cvOperation op cvNum lockNum =>
    rw [keepsToTables_iff_case, hhandle, withinTables_iff_condition (by simp [hp])]
    exact cvOperation_keeps_iff h0 hN hp
  | createMV n v name =>
    rw [keepsToTables_iff_case, hhandle]
    refine (createMV_keeps_iff hp).trans ⟨fun h => ⟨?_, ?_⟩, fun h => h.size n v name hp⟩
    · simp [hcreate (by simp)]
    · intro n' v' name' hp'
      obtain ⟨rfl, rfl, rfl⟩ := Request.createMV.inj (Message.request.inj (hp.symm.trans hp'))
      exact h
  | destroyLock n =>
    exact iff_of_true (keepsToTables_destroy .lock ha hp)
      (.of_other (hcreate (by simp)) (by simp [hp]))
  | destroyCV n =>
    exact iff_of_true (keepsToTables_destroy .cv ha hp)
      (.of_other (hcreate (by simp)) (by simp [hp]))
  | destroyMV n =>
    exact iff_of_true (keepsToTables_destroy .mv ha hp)
      (.of_other (hcreate (by simp)) (by simp [hp]))
  | createLock | createCV =>
    refine keepsToTables_iff_of_other (hcreate (by simp)) (by simp [hp]) ?_
    rw [hhandle]
    exact .of_ok fun hout => absurd hout
      (OutOfTables.not_of_create hp rfl id (hcreate (by simp)))
  | acquire | release | getMV | setMV =>
    refine keepsToTables_iff_of_other (hcreate (by simp)) (by simp [hp]) ?_
    rw [hhandle]
    exact caseKeeps_use hp rfl fun type n => by cases type <;> simp [destroyRequest]

/-- The handler keeps to the tables exactly when the message is within them. -/
theorem keepsToTables_iff (ha : s.Allocated) (h0 : 0 ≤ cfg.myMachineID)
    (hN : cfg.myMachineID ≤ cfg.totalNumServers) :
    KeepsToTables cfg s p ↔ WithinTables cfg s p := by
  have hother : operationAt cfg s p = none → (∀ r, p.data ≠ .request r) →
      (∃ o, BoxZero.handle cfg s p = .ok o) → (KeepsToTables cfg s p ↔ WithinTables cfg s p) := by
    rintro hop hr ⟨o, ho⟩
    refine keepsToTables_iff_of_other hop (fun n v name => hr _) ?_
    rw [ho]
    refine .of_ok fun hout => ?_
    cases hout with
    | number hp => exact absurd hp (hr _)
    | operation hop' => simp [hop] at hop'
    | size hp => exact absurd hp (hr _)
  cases hd : p.data with
  | request r => exact keepsToTables_request_iff ha h0 hN hd
  | cvLockTrackerResponse clientMID clientMBX lockNum held =>
    have hhandle : BoxZero.handle cfg s p =
        BoxZero.cvLockTrackerResponse cfg s p clientMID clientMBX lockNum held := by
      simp only [BoxZero.handle, hd]
    rw [keepsToTables_iff_case, hhandle, withinTables_iff_condition (by simp [hd])]
    exact response_keeps_iff hd
  | _ => exact hother (by simp [operationAt, hd]) (by simp [hd]) (by simp [BoxZero.handle, hd])

/-- In every run of the servers, for every message to mailbox 0. -/
theorem keeps_to_tables_iff {tr : List NetworkStep} {g : System}
    (h : Execution (Handles (network S)) .initial tr g) (hserver : S.IsServer p.toMachine) :
    KeepsToTables (S.config p.toMachine) (g.server p.toMachine) p ↔
      WithinTables (S.config p.toMachine) (g.server p.toMachine) p :=
  keepsToTables_iff (network_tables h p.toMachine).2 hserver.1 hserver.2.le

/-- A lone server that made a lock only is asked for an MV. -/
theorem keeps_to_tables_mv :
    ∃ (tr : List NetworkStep) (g : System),
      Execution (Handles (network ⟨1, false, false⟩)) .initial tr g ∧
      OutOfTables ⟨0, 1, false⟩ (g.server 0) ⟨0, 0, 5, 1, .request (.getMV 3 0)⟩ ∧
      KeepsToTables ⟨0, 1, false⟩ (g.server 0) ⟨0, 0, 5, 1, .request (.getMV 3 0)⟩ := by
  obtain ⟨tr, g, h, -, htest⟩ := exists_of_trace (network ⟨1, false, false⟩) .initial
    (loneServer [(1, .createLock [97])]) (fun r => decide ((r.2.server 0).mvs = []))
    (by decide +kernel)
  have hempty : (g.server 0).mvs = [] := of_decide_eq_true htest
  refine ⟨tr, g, h, .number rfl (List.mem_singleton_self _) rfl (.inr ?_), ?_⟩
  · simp [tableSize, hempty, decodeIndex]
  · refine (keeps_to_tables_iff (p := ⟨0, 0, 5, 1, .request (.getMV 3 0)⟩) h (by decide)).mpr ?_
    exact .of_other rfl (by simp)

/-- It is sent a WAIT: the bitmap of the conditions was never made. -/
theorem wait_tests_no_bitmap :
    ∃ (tr : List NetworkStep) (g : System),
      Execution (Handles (network ⟨1, false, false⟩)) .initial tr g ∧
      ¬ KeepsToTables ⟨0, 1, false⟩ (g.server 0)
        ⟨0, 0, 5, 1, .request (.cvOperation .wait 0 0)⟩ := by
  obtain ⟨tr, g, h, -, htest⟩ := exists_of_trace (network ⟨1, false, false⟩) .initial
    (loneServer [(1, .createLock [97])])
    (fun r => match boxZero ⟨0, 1, false⟩ (r.2.server 0)
        ⟨0, 0, 5, 1, .request (.cvOperation .wait 0 0)⟩ with
      | .error .bitmapRange => true
      | _ => false) (by decide +kernel)
  refine ⟨tr, g, h, fun hk => hk.bitmap ?_⟩
  dsimp only at htest
  split at htest
  · assumption
  · cases htest

end Nachos.Network
