import Nachos.ServerTables

/-! The three DESTROY messages at the server that the object number decodes to. -/
namespace Nachos.Network
open SlotTables BoxOne Executions

variable {S : Setting} {cfg : Config} {s t : Server} {p : Packet} {type : StructureType}
  {i number : ℤ}

def destroyRequest : StructureType → ℤ → Request
  | .lock, lockNum => .destroyLock lockNum
  | .cv, cvNum => .destroyCV cvNum
  | .mv, mvNum => .destroyMV mvNum

/-- An object that nobody owns or waits for. -/
def Unused (s : Server) (type : StructureType) (i : ℤ) : Prop :=
  match type with
  | .lock => ∃ e, s.lock? i = some e ∧ e.lock.isBusy = false
  | .cv => ∃ e, s.condition? i = some e ∧ e.condition.hasWaiting = false
  | .mv => ∃ e, s.mv? i = some e

/-- Every operation on the index is turned down. -/
def Refuses (s : Server) (type : StructureType) (i : ℤ) : Prop :=
  match type with
  | .lock => ∀ m b, serverAcquire s m b i = (s, none) ∧ serverRelease s m b i = (s, none) ∧
      serverDestroyLock s i = s
  | .cv => ∀ m b l, serverSignal s m b i l = (s, none) ∧ serverWait s m b i l = .ok s ∧
      serverBroadcast s m b i l = .ok s ∧ serverDestroyCV s i = s
  | .mv => ∀ j v, serverGetMV s i j = -1 ∧ serverSetMV s i j v = s ∧ serverDestroyMV s i = s

/-- Exactly that object is gone. -/
structure Destroyed (s t : Server) (type : StructureType) (i : ℤ) : Prop where
  free : t.nameAt type i = none
  others : ∀ type' j, (type', j) ≠ (type, i) → SameEntry s t type' j
  anew : ∀ name, s.nameAt type i = some name → checkIfExists t type name = none
  refused : Refuses t type i

/-- A DESTROY of a live, unused object, and one of any other number. -/
structure DestroysRight (cfg : Config) (s : Server) (p : Packet) (type : StructureType)
    (number : ℤ) : Prop where
  live : ownerOf number = cfg.myMachineID → Unused s type (decodeIndex cfg number) →
    ∃ t, boxZero cfg s p = .ok (t, []) ∧ Destroyed s t type (decodeIndex cfg number)
  other : (ownerOf number = cfg.myMachineID → s.nameAt type (decodeIndex cfg number) = none) →
    ∃ out, boxZero cfg s p = .ok (s, out)

/-! One table. -/

theorem checkIfExists_none_of {name : Name} (h : ∀ j, s.nameAt type j ≠ some name) :
    checkIfExists s type name = none := by
  cases type <;> refine search_none.mpr fun j e he => ?_
  all_goals
    have hj := h j
    simpa [Server.nameAt, Server.lock?, Server.condition?, Server.mv?, he] using hj

/-- An entry that was alone under its name and is gone. -/
theorem anew_of (hs : s.NamesApart) (hfree : t.nameAt type i = none)
    (hothers : ∀ type' j, (type', j) ≠ (type, i) → SameEntry s t type' j) {name : Name}
    (hname : s.nameAt type i = some name) : checkIfExists t type name = none := by
  refine checkIfExists_none_of fun j hj => ?_
  by_cases hji : j = i
  · rw [hji, hfree] at hj
    cases hj
  · have hsame := hothers type j fun he => hji (Prod.mk.inj he).2
    refine hji (hs.nameAt ?_ hname)
    cases type
    all_goals
      simp only [SameEntry] at hsame
      simpa [Server.nameAt, hsame] using hj

theorem destroyed_removeLock (hs : s.NamesApart) {e : ServerLockEntry} (he : s.lock? i = some e) :
    Destroyed s (s.removeLock i) .lock i := by
  have hnone : (s.removeLock i).lock? i = none := by rw [Server.lock?_removeLock he, if_pos rfl]
  have hfree : (s.removeLock i).nameAt .lock i = none := by simp [Server.nameAt, hnone]
  have hothers : ∀ type' j, (type', j) ≠ (StructureType.lock, i) →
      SameEntry s (s.removeLock i) type' j := by
    intro type' j hne
    cases type' with
    | lock => exact (Server.lock?_removeLock he j).trans (if_neg fun hji => hne (by rw [hji]))
    | _ => rfl
  refine ⟨hfree, hothers, fun name => anew_of hs hfree hothers, fun m b => ?_⟩
  simp [serverAcquire, serverRelease, serverDestroyLock, hnone]

theorem destroyed_removeCondition (hs : s.NamesApart) {e : ServerConditionEntry}
    (he : s.condition? i = some e) : Destroyed s (s.removeCondition i) .cv i := by
  have hnone : (s.removeCondition i).condition? i = none := by
    rw [Server.condition?_removeCondition he, if_pos rfl]
  have hfree : (s.removeCondition i).nameAt .cv i = none := by simp [Server.nameAt, hnone]
  have hothers : ∀ type' j, (type', j) ≠ (StructureType.cv, i) →
      SameEntry s (s.removeCondition i) type' j := by
    intro type' j hne
    cases type' with
    | cv =>
      exact (Server.condition?_removeCondition he j).trans (if_neg fun hji => hne (by rw [hji]))
    | _ => rfl
  refine ⟨hfree, hothers, fun name => anew_of hs hfree hothers, fun m b l => ?_⟩
  -- the index is still inside the bitmap
  obtain ⟨h0, hlt⟩ := live?_lt_length he
  have hlt : ¬ (s.removeCondition i).conditions.length ≤ i.toNat := by
    simp only [Server.removeCondition, length_clear]
    omega
  simp [serverSignal, serverWait, serverBroadcast, serverDestroyCV, hnone, hlt]

theorem destroyed_removeMV (hs : s.NamesApart) {e : ServerMVEntry} (he : s.mv? i = some e) :
    Destroyed s (s.removeMV i) .mv i := by
  have hremove : ∀ j, (s.removeMV i).mv? j = if j = i then none else s.mv? j := live?_clear he
  have hnone : (s.removeMV i).mv? i = none := by rw [hremove, if_pos rfl]
  have hfree : (s.removeMV i).nameAt .mv i = none := by simp [Server.nameAt, hnone]
  have hothers : ∀ type' j, (type', j) ≠ (StructureType.mv, i) →
      SameEntry s (s.removeMV i) type' j := by
    intro type' j hne
    cases type' with
    | mv => exact (hremove j).trans (if_neg fun hji => hne (by rw [hji]))
    | _ => rfl
  refine ⟨hfree, hothers, fun name => anew_of hs hfree hothers, fun j v => ?_⟩
  simp [serverGetMV, serverSetMV, serverDestroyMV, hnone]

/-! The handler. -/

/-- What a DESTROY does with the index that it looks up. -/
def destroyAt (s : Server) : StructureType → ℤ → Server
  | .lock, i => serverDestroyLock s i
  | .cv, i => serverDestroyCV s i
  | .mv, i => serverDestroyMV s i

/-- The index that a DESTROY looks up: the number of a condition is not decoded. -/
def lookedUp (cfg : Config) : StructureType → ℤ → ℤ
  | .cv, number => number
  | _, number => decodeIndex cfg number

theorem destroyAt_unused (hs : s.NamesApart) (hu : Unused s type i) :
    Destroyed s (destroyAt s type i) type i := by
  cases type with
  | lock =>
    obtain ⟨e, he, hfree⟩ := hu
    have hr : destroyAt s .lock i = s.removeLock i := by simp [destroyAt, serverDestroyLock, he, hfree]
    exact hr ▸ destroyed_removeLock hs he
  | cv =>
    obtain ⟨e, he, hfree⟩ := hu
    have hr : destroyAt s .cv i = s.removeCondition i := by
      simp [destroyAt, serverDestroyCV, he, hfree]
    exact hr ▸ destroyed_removeCondition hs he
  | mv =>
    obtain ⟨e, he⟩ := hu
    have hr : destroyAt s .mv i = s.removeMV i := by simp [destroyAt, serverDestroyMV, he]
    exact hr ▸ destroyed_removeMV hs he

theorem destroyAt_dead (h : s.nameAt type i = none) : destroyAt s type i = s := by
  cases type
  all_goals
    have hnone := Option.map_eq_none_iff.mp h
    simp [destroyAt, serverDestroyLock, serverDestroyCV, serverDestroyMV, hnone]

variable (type number) in
theorem boxZero_destroy_own (hp : p.data = .request (destroyRequest type number))
    (how : ownerOf number = cfg.myMachineID) :
    boxZero cfg s p = .ok (destroyAt s type (lookedUp cfg type number), []) := by
  have how : number.tdiv 500 = cfg.myMachineID := by simpa [ownerOf] using how
  cases type
  all_goals
    simp [boxZero, BoxZero.handle, hp, destroyRequest, BoxZero.request, BoxZero.destroyLock,
      BoxZero.destroyCV, BoxZero.destroyMV, decodeMachineIDFromLockNumber,
      decodeMachineIDFromCVNumber, decodeMachineIDFromMVNumber, maxServerLocks, maxServerCVs,
      maxServerMVArrays, how, Except.map, BoxZero.flush, destroyAt, lookedUp]

theorem boxZero_destroy_other (hp : p.data = .request (destroyRequest type number))
    (how : ownerOf number ≠ cfg.myMachineID) :
    boxZero cfg s p = .ok (s, [⟨cfg.myMachineID, 1, p.fromMachine, p.fromMailbox, p.data⟩]) := by
  have how : number.tdiv 500 ≠ cfg.myMachineID := by simpa [ownerOf] using how
  cases type
  all_goals
    simp [boxZero, BoxZero.handle, hp, destroyRequest, BoxZero.request, BoxZero.destroyLock,
      BoxZero.destroyCV, BoxZero.destroyMV, decodeMachineIDFromLockNumber,
      decodeMachineIDFromCVNumber, decodeMachineIDFromMVNumber, maxServerLocks, maxServerCVs,
      maxServerMVArrays, how, Except.map, BoxZero.flush, BoxZero.toBoxOne, sendMessageWithData]

/-- Off machine 0 the undecoded number is outside every table. -/
theorem undecoded_dead (hs : s.Allocated) (h : ownerOf number ≠ 0) :
    s.nameAt .cv number = none := by
  refine Option.map_eq_none_iff.mpr ?_
  by_contra hne
  obtain ⟨e, he⟩ := Option.ne_none_iff_exists'.mp hne
  obtain ⟨h0, hlt⟩ := live?_lt_length he
  have hsize : s.conditions.length ≤ 500 := by rcases hs.conditions with h | h <;> omega
  exact h ((decodeMachine_eq_iff h0).mpr ⟨le_rfl, by omega, by omega⟩)

theorem Unused.nameAt (h : Unused s type i) : s.nameAt type i ≠ none := by
  cases type
  all_goals
    obtain ⟨e, he⟩ := h
    simp [Server.nameAt, he]

theorem destroysRight_iff (hn : s.NamesApart) (ha : s.Allocated)
    (hp : p.data = .request (destroyRequest type number)) :
    DestroysRight cfg s p type number ↔ (type = .cv → cfg.myMachineID = 0 ∨
      ¬ (ownerOf number = cfg.myMachineID ∧ Unused s .cv (decodeIndex cfg number))) := by
  have hlooked : (type = .cv → cfg.myMachineID = 0) →
      lookedUp cfg type number = decodeIndex cfg number := by
    intro h
    cases type with
    | cv => simp [lookedUp, decodeIndex, h rfl]
    | _ => rfl
  have hundecoded : type = .cv → cfg.myMachineID ≠ 0 → ownerOf number = cfg.myMachineID →
      boxZero cfg s p = .ok (s, []) := by
    rintro rfl hm how
    rw [boxZero_destroy_own _ _ hp how]
    have hdead : s.nameAt .cv number = none := undecoded_dead ha (how ▸ hm)
    exact congrArg (fun t => Except.ok (t, [])) (destroyAt_dead hdead)
  constructor
  · rintro hr rfl
    by_contra hbad
    obtain ⟨hm, hbad⟩ := not_or.mp hbad
    obtain ⟨how, hu⟩ := not_not.mp hbad
    obtain ⟨t, ht, hd⟩ := hr.live how hu
    obtain rfl := congrArg Prod.fst (Except.ok.inj ((hundecoded rfl hm how).symm.trans ht))
    exact hu.nameAt hd.free
  · intro hc
    refine ⟨fun how hu => ?_, fun hdead => ?_⟩
    · have hzero : type = .cv → cfg.myMachineID = 0 := fun htype =>
        (hc htype).resolve_right fun hn => hn ⟨how, htype ▸ hu⟩
      rw [boxZero_destroy_own _ _ hp how, hlooked hzero]
      exact ⟨_, rfl, destroyAt_unused hn hu⟩
    · by_cases how : ownerOf number = cfg.myMachineID
      · by_cases hcv : type = .cv ∧ cfg.myMachineID ≠ 0
        · exact ⟨[], hundecoded hcv.1 hcv.2 how⟩
        · have hzero : type = .cv → cfg.myMachineID = 0 := fun htype =>
            by_contra fun hm => hcv ⟨htype, hm⟩
          rw [boxZero_destroy_own _ _ hp how, hlooked hzero, destroyAt_dead (hdead how)]
          exact ⟨[], rfl⟩
      · exact ⟨_, boxZero_destroy_other hp how⟩

/-- In every run of the servers, at each of them. -/
theorem destroys_right_iff {tr : List NetworkStep} {g : System}
    (h : Execution (Handles (network S)) .initial tr g)
    (hp : p.data = .request (destroyRequest type number)) :
    DestroysRight (S.config p.toMachine) (g.server p.toMachine) p type number ↔
      (type = .cv → p.toMachine = 0 ∨ ¬ (ownerOf number = p.toMachine ∧
        Unused (g.server p.toMachine) .cv (decodeIndex (S.config p.toMachine) number))) := by
  obtain ⟨hn, ha⟩ := network_tables h p.toMachine
  exact destroysRight_iff hn ha hp

/-- Of two servers, server 1 makes a lock for a client and is asked to destroy it. -/
theorem destroys_right_lock :
    ∃ (tr : List NetworkStep) (g : System),
      Execution (Handles (network ⟨2, false, false⟩)) .initial tr g ∧
      Unused (g.server 1) .lock 0 ∧
      DestroysRight ⟨1, 2, false⟩ (g.server 1) ⟨1, 0, 5, 9, .request (.destroyLock 500)⟩ .lock 500 := by
  obtain ⟨tr, g, h, -, htest⟩ := exists_of_trace (network ⟨2, false, false⟩) .initial
    [.arrive ⟨1, 0, 5, 9, .request (.createLock [97])⟩,
      .handle ⟨1, 0, 5, 9, .request (.createLock [97])⟩,
      .handle ⟨1, 1, 5, 9, .request (.createLock [97])⟩,
      .handle ⟨0, 1, 1, 1, .doYouHaveName .lock 0 [97]⟩,
      .handle ⟨1, 1, 0, 1, .doNotHaveName .lock 0⟩]
    (fun r => (r.2.server 1).lock? 0 = some ⟨ServerLock.new [97], false, 0⟩) (by decide +kernel)
  refine ⟨tr, g, h, ⟨_, of_decide_eq_true htest, rfl⟩, ?_⟩
  exact (destroys_right_iff (p := ⟨1, 0, 5, 9, .request (.destroyLock 500)⟩) h rfl).mpr nofun

/-- The same with a condition: its number is looked up undecoded, and it stays. -/
theorem destroyCV_keeps_condition :
    ∃ (tr : List NetworkStep) (g : System),
      Execution (Handles (network ⟨2, false, false⟩)) .initial tr g ∧
      Unused (g.server 1) .cv 0 ∧
      ¬ DestroysRight ⟨1, 2, false⟩ (g.server 1) ⟨1, 0, 5, 9, .request (.destroyCV 500)⟩ .cv 500 := by
  obtain ⟨tr, g, h, -, htest⟩ := exists_of_trace (network ⟨2, false, false⟩) .initial
    [.arrive ⟨1, 0, 5, 9, .request (.createCV [97])⟩,
      .handle ⟨1, 0, 5, 9, .request (.createCV [97])⟩,
      .handle ⟨1, 1, 5, 9, .request (.createCV [97])⟩,
      .handle ⟨0, 1, 1, 1, .doYouHaveName .cv 0 [97]⟩,
      .handle ⟨1, 1, 0, 1, .doNotHaveName .cv 0⟩]
    (fun r => decide ((r.2.server 1).condition? 0 = some ⟨ServerCondition.new [97], false⟩) &&
      decide ((r.2.server 1).nameAt .cv 500 = none)) (by decide +kernel)
  simp only [Bool.and_eq_true, decide_eq_true_eq] at htest
  obtain ⟨hlive, hdead⟩ := htest
  have hunused : Unused (g.server 1) .cv 0 := ⟨_, hlive, rfl⟩
  refine ⟨tr, g, h, hunused, fun hr => ?_⟩
  obtain ⟨t, ht, hd⟩ := hr.live rfl hunused
  rw [boxZero_destroy_own .cv 500 rfl rfl] at ht
  obtain rfl := congrArg Prod.fst (Except.ok.inj ht)
  exact hunused.nameAt ((congrArg (fun t => t.nameAt .cv 0) (destroyAt_dead hdead)).symm.trans hd.free)

end Nachos.Network
