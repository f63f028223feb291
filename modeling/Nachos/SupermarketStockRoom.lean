import Nachos.SupermarketHandOff

/-! The goods loaders of `test/supermarket.c` in the stock room: their locks and conditions carry
out the hand-off, in every interleaving with the rest of the store. -/
namespace Nachos.Supermarket
open Mesa Executions

variable {T : Type*} [DecidableEq T] {role : T → Role} {s s' : Shared T} {t u : T}
  {p q : Place} {pc : StockRoom} {choice : Choice} {g g' : Market T}
  {k : Control LockName ConditionName Place} {l : LockName} {c : ConditionName}

def Place.inRoom : Place → Option StockRoom
  | .restock _ _ (.stockRoom pc) => some pc
  | _ => none

/-- Where the control of thread `t` is in the stock room. -/
def spotAt (g : Market T) (t : T) : Control LockName ConditionName Place → Spot
  | .runs p => p.inRoom.elim .elsewhere .runs
  | .acquiring _ p => p.inRoom.elim .elsewhere .acquiring
  | .waiting c p => p.inRoom.elim .elsewhere fun pc => .waiting pc (t ∈ g.waiters c)

/-- The hand-off as the store runs it. -/
def room (g : Market T) : Room T where
  spot t := spotAt g t (g.control t)
  current := g.shared.currentLoaderInStock
  count := g.shared.waitingForStockRoomCount
  line := g.waiters .currentLoaderInStockCV
  door := g.waiters .stockRoomCV

def StockRoom.lockAsked : StockRoom → LockName
  | .someoneInside | .releaseLine | .letIn => .stockRoomLock
  | _ => .currentLoaderInStockLock

def StockRoom.conditionAwaited : StockRoom → ConditionName
  | .acquireRoom => .currentLoaderInStockCV
  | _ => .stockRoomCV

/-- The call from which a thread returns to its place. -/
def Called : Control LockName ConditionName Place → Prop
  | .runs _ => True
  | .acquiring l p =>
    match p.inRoom with
    | some pc => pc ∈ acquired ∧ l = pc.lockAsked
    | none => (p = .putBack ∧ l = .stockRoomLock) ∨ ∃ k, l = .shelfLock k
  | .waiting c p =>
    match p.inRoom with
    | some pc => pc ∈ awaited ∧ c = pc.conditionAwaited
    | none => ∃ k, c = .shelfCV k

theorem eq_of_inRoom (h : p.inRoom = some pc) : ∃ k hands, p = .restock k hands (.stockRoom pc) := by
  unfold Place.inRoom at h
  split at h
  · rename_i k hands pc'
    obtain rfl := Option.some.inj h
    exact ⟨k, hands, rfl⟩
  · cases h

/-! What the statements do to the stock room. -/

/-- An instruction outside, which may lead to its door. -/
inductive Outside (s : Shared T) : Code T → Prop
  | acquires {l : LockName} {q : Place} (hq : Called (.acquiring l q)) (hout : q.inRoom = none) :
      Outside s (.acquire l q)
  | releases {l : LockName} {q : Place} (hout : q.inRoom = none ∨ q.inRoom = some .acquireLine) :
      Outside s (.release l q)
  | waits {k : Shelf} {q : Place} (hout : q.inRoom = none) : Outside s (.wait (.shelfCV k) q)
  | broadcasts {k : Shelf} {q : Place} (hout : q.inRoom = none) :
      Outside s (.broadcast (.shelfCV k) q)
  | accesses {s' : Shared T} {q : Place}
      (hcurrent : s'.currentLoaderInStock = s.currentLoaderInStock)
      (hcount : s'.waitingForStockRoomCount = s.waitingForStockRoomCount)
      (hout : q.inRoom = none) : Outside s (.access s' q)

omit [DecidableEq T] in
theorem outside {a : Code T} (hi : program role s t p choice = some a) (hp : p.inRoom = none) :
    Outside s a := by
  cases p with
  | nextEntry i cart =>
    obtain ⟨e, -, rfl⟩ := Option.map_eq_some_iff.mp hi
    refine .accesses rfl rfl ?_
    split_ifs <;> rfl
  | shop i e cart pc =>
    obtain rfl := Option.some.inj hi
    cases pc with
    | acquireShelf | acquireToWait => exact .acquires (.inr ⟨_, rfl⟩) rfl
    | waitAtShelf => exact .waits rfl
    | releaseShelf | giveUp | releaseRestocked => exact .releases (.inl rfl)
    | needMore | enough =>
      refine .accesses rfl rfl ?_
      split_ifs <;> rfl
    | loadInventory | storeInventory _ | fillCart => exact .accesses rfl rfl rfl
  | sell =>
    cases choice with
    | shelf k =>
      obtain rfl := Option.some.inj hi
      exact .acquires (.inr ⟨k, rfl⟩) rfl
    | managerItem => cases hi
  | broadcastShelf k =>
    obtain rfl := Option.some.inj hi
    exact .broadcasts rfl
  | releaseAnnounced k | putBack =>
    obtain rfl := Option.some.inj hi
    exact .releases (.inl rfl)
  | awaitOrders =>
    cases choice with
    | shelf k =>
      obtain rfl := Option.some.inj hi
      exact .acquires (.inr ⟨k, rfl⟩) rfl
    | managerItem =>
      obtain rfl := Option.some.inj hi
      exact .acquires (.inl ⟨rfl, rfl⟩) rfl
  | restock k hands pc =>
    obtain rfl := Option.some.inj hi
    cases pc with
    | stockRoom pc => cases hp
    | releaseShelf => exact .releases (.inr rfl)
    | finish => exact .releases (.inl rfl)
    | acquireShelf => exact .acquires (.inr ⟨k, rfl⟩) rfl
    | notFull | full =>
      refine .accesses rfl rfl ?_
      split_ifs <;> rfl
    | loadInventory | storeInventory _ => exact .accesses rfl rfl rfl

/-! The steps of the store, as steps of the hand-off. -/

theorem room_congr {v : Room T} (hspot : ∀ u, spotAt g' u (g'.control u) = v.spot u)
    (hcurrent : g'.shared.currentLoaderInStock = v.current)
    (hcount : g'.shared.waitingForStockRoomCount = v.count)
    (hline : g'.waiters .currentLoaderInStockCV = v.line)
    (hdoor : g'.waiters .stockRoomCV = v.door) : room g' = v := by
  obtain ⟨spot, current, count, line, door⟩ := v
  simp only [room, Room.mk.injEq]
  exact ⟨funext hspot, hcurrent, hcount, hline, hdoor⟩

theorem spotAt_congr (h : ∀ c, u ∈ g'.waiters c ↔ u ∈ g.waiters c) :
    spotAt g' u k = spotAt g u k := by
  cases k with
  | waiting c p => simp only [spotAt, h c]
  | _ => rfl

/-- Thread `t` moves to `k` and the queues stay. -/
theorem room_moved (hw : g'.waiters = g.waiters)
    (hcontrol : ∀ u, g'.control u = if u = t then k else g.control u) :
    room g' = { (room g).goto t (spotAt g t k) with
      current := g'.shared.currentLoaderInStock
      count := g'.shared.waitingForStockRoomCount } := by
  refine room_congr (fun u => ?_) rfl rfl (by rw [hw]; rfl) (by rw [hw]; rfl)
  rw [spotAt_congr (g := g) fun c => by rw [hw], hcontrol]
  change _ = ((room g).goto t _).spot u
  rw [goto_spot]
  split_ifs with hu
  · rw [hu]
  · rfl

/-- Thread `t` moves to `k`, and nothing else changes in the stock room. -/
theorem room_goto (hw : g'.waiters = g.waiters)
    (hcontrol : ∀ u, g'.control u = if u = t then k else g.control u)
    (hcurrent : g'.shared.currentLoaderInStock = g.shared.currentLoaderInStock)
    (hcount : g'.shared.waitingForStockRoomCount = g.shared.waitingForStockRoomCount) :
    room g' = (room g).goto t (spotAt g t k) := by
  rw [room_moved hw hcontrol, hcurrent, hcount]
  rfl

theorem room_spot (hc : g.control t = k) : (room g).spot t = spotAt g t k := by
  rw [← hc]
  rfl

/-- A step of thread `t` by himself. -/
theorem RoomStep.of_goto (hw : g'.waiters = g.waiters)
    (hcontrol : ∀ u, g'.control u = if u = t then k else g.control u)
    (hcurrent : g'.shared.currentLoaderInStock = g.shared.currentLoaderInStock)
    (hcount : g'.shared.waitingForStockRoomCount = g.shared.waitingForStockRoomCount)
    (hgoes : Goes g.shared.currentLoaderInStock g.shared.waitingForStockRoomCount
      (spotAt g t (g.control t)) (spotAt g t k)) : RoomStep t (room g) (room g') := by
  rw [room_goto hw hcontrol hcurrent hcount]
  exact .goes hgoes

theorem granted_step {l : LockName} (hcalled : Called (.acquiring l p))
    (hc : g.control t = .acquiring l p) : RoomStep t (room g) (room (g.goto t (.runs p))) := by
  refine .of_goto rfl (fun u => goto_control ..) rfl rfl ?_
  rw [hc]
  cases hp : p.inRoom with
  | none =>
    simp only [spotAt, hp]
    exact .stays
  | some pc =>
    simp only [Called, hp] at hcalled
    simp only [spotAt, hp]
    exact .granted hcalled.1

theorem woken_step (hcalled : Called (.waiting c p)) (hc : g.control t = .waiting c p)
    (hw : t ∉ g.waiters c) : RoomStep t (room g) (room (g.acquire t (lockOf c) p)) := by
  refine .of_goto rfl (fun u => acquire_control ..) rfl rfl ?_
  rw [hc]
  cases hp : p.inRoom with
  | none =>
    simp only [spotAt, hp]
    exact .stays
  | some pc =>
    simp only [Called, hp] at hcalled
    simp only [spotAt, hp, hw]
    exact .woken hcalled.1

theorem acquire_step {l : LockName} (hi : program role g.shared t p choice = some (.acquire l q))
    (hc : g.control t = .runs p) : RoomStep t (room g) (room (g.acquire t l q)) := by
  refine .of_goto rfl (fun u => acquire_control ..) rfl rfl ?_
  rw [hc]
  cases hp : p.inRoom with
  | none =>
    obtain ⟨-, hq⟩ := outside hi hp
    simp only [spotAt, hp, hq]
    exact .stays
  | some pc =>
    obtain ⟨k, hands, rfl⟩ := eq_of_inRoom hp
    have hacq := Option.some.inj hi
    cases pc with
    | acquireLine =>
      obtain ⟨rfl, rfl⟩ := Instruction.acquire.inj hacq
      exact .asksLine
    | acquireRoom =>
      obtain ⟨rfl, rfl⟩ := Instruction.acquire.inj hacq
      exact .asksRoom
    | reacquireLine =>
      obtain ⟨rfl, rfl⟩ := Instruction.acquire.inj hacq
      exact .asksLineAgain
    | _ => cases hacq

theorem release_step {l : LockName} (hi : program role g.shared t p choice = some (.release l q))
    (hc : g.control t = .runs p) :
    RoomStep t (room g) (room ((g.release t l).goto t (.runs q))) := by
  refine .of_goto rfl (fun u => goto_control ..) rfl rfl ?_
  rw [hc]
  cases hp : p.inRoom with
  | none =>
    cases outside hi hp with
    | releases hout =>
      rcases hout with hq | hq <;> simp only [spotAt, hp, hq]
      · exact .stays
      · exact .comes
  | some pc =>
    obtain ⟨k, hands, rfl⟩ := eq_of_inRoom hp
    have hrel := Option.some.inj hi
    cases pc with
    | releaseLine =>
      obtain ⟨rfl, rfl⟩ := Instruction.release.inj hrel
      exact .leavesLine
    | releaseLineCalled =>
      obtain ⟨rfl, rfl⟩ := Instruction.release.inj hrel
      exact .leavesLineCalled
    | releaseLineVacant =>
      obtain ⟨rfl, rfl⟩ := Instruction.release.inj hrel
      exact .leavesLineVacant
    | releaseRoom =>
      obtain ⟨rfl, rfl⟩ := Instruction.release.inj hrel
      exact .goes
    | _ => cases hrel

theorem access_step (hi : program role g.shared t p choice = some (.access s q))
    (hc : g.control t = .runs p) :
    RoomStep t (room g) (room (({ g with shared := s } : Market T).goto t (.runs q))) := by
  cases hp : p.inRoom with
  | none =>
    cases outside hi hp with
    | accesses hcurrent hcount hq =>
      refine .of_goto rfl (fun u => goto_control ..) hcurrent hcount ?_
      rw [hc]
      simp only [spotAt, hp, hq]
      exact .stays
  | some pc =>
    obtain ⟨k, hands, rfl⟩ := eq_of_inRoom hp
    have hspot : (room g).spot t = .runs pc := room_spot hc
    have hacc := Option.some.inj hi
    have hroom : room (({ g with shared := s } : Market T).goto t (.runs q)) = _ :=
      room_moved (g := g) rfl fun u => goto_control _ t u _
    rw [hroom]
    have hgoes : ∀ s', Goes (room g).current (room g).count (.runs pc) s' →
        RoomStep t (room g) ((room g).goto t s') := fun s' h => .goes (hspot ▸ h)
    cases pc with
    | lineNeeded =>
      obtain ⟨rfl, rfl⟩ := Instruction.access.inj hacc
      split_ifs with hneeded
      · exact hgoes _ (.lines hneeded)
      · exact hgoes _ (.goesIn (by_contra fun h => hneeded (.inl h)))
    | countMe =>
      obtain ⟨rfl, rfl⟩ := Instruction.access.inj hacc
      exact .counts hspot
    | someoneInside =>
      obtain ⟨rfl, rfl⟩ := Instruction.access.inj hacc
      split_ifs with hinside
      · exact hgoes _ (.finds hinside)
      · exact hgoes _ (.findsNobody (not_not.mp hinside))
    | announce =>
      obtain ⟨rfl, rfl⟩ := Instruction.access.inj hacc
      exact .announces hspot
    | occupy =>
      obtain ⟨rfl, rfl⟩ := Instruction.access.inj hacc
      exact .occupies hspot
    | someoneInLine =>
      obtain ⟨rfl, rfl⟩ := Instruction.access.inj hacc
      split_ifs with hline
      · exact hgoes _ (.calls hline)
      · exact hgoes _ (.empties (not_lt.mp hline))
    | uncountNext =>
      obtain ⟨rfl, rfl⟩ := Instruction.access.inj hacc
      exact .uncounts hspot
    | vacate =>
      obtain ⟨rfl, rfl⟩ := Instruction.access.inj hacc
      exact .vacates hspot
    | _ => cases hacc

/-- Thread `t` joins the queue of the condition. -/
theorem room_wait : room (g.wait t c l q) =
    { (room g).goto t (q.inRoom.elim .elsewhere fun pc => .waiting pc true) with
      line := (g.wait t c l q).waiters .currentLoaderInStockCV
      door := (g.wait t c l q).waiters .stockRoomCV } := by
  refine room_congr (fun u => ?_) rfl rfl rfl rfl
  change _ = ((room g).goto t _).spot u
  rw [goto_spot, wait_control]
  split_ifs with hu
  · subst hu
    simp [spotAt]
  · refine spotAt_congr fun d => ?_
    rw [wait_waiters]
    split_ifs with hd
    · simp [hd, hu]
    · exact Iff.rfl

theorem wait_step (hi : program role g.shared t p choice = some (.wait c q))
    (hc : g.control t = .runs p) : RoomStep t (room g) (room (g.wait t c l q)) := by
  rw [room_wait]
  cases hp : p.inRoom with
  | none =>
    cases outside hi hp with
    | waits hq =>
      have hgoes : Goes (room g).current (room g).count ((room g).spot t) .elsewhere := by
        rw [room_spot hc]
        simp only [spotAt, hp]
        exact .stays
      rw [hq]
      exact .goes hgoes
  | some pc =>
    obtain ⟨k, hands, rfl⟩ := eq_of_inRoom hp
    have hspot : (room g).spot t = .runs pc := room_spot hc
    have hwait := Option.some.inj hi
    cases pc with
    | waitInLine =>
      obtain ⟨rfl, rfl⟩ := Instruction.wait.inj hwait
      exact .lines hspot
    | waitAdmitted =>
      obtain ⟨rfl, rfl⟩ := Instruction.wait.inj hwait
      exact .waitsInside hspot
    | waitSuccessor =>
      obtain ⟨rfl, rfl⟩ := Instruction.wait.inj hwait
      exact .waitsAtDoor hspot
    | _ => cases hwait

/-- The first of the queue is woken. -/
theorem spotAt_signal (hl : LocksRight lockOf holds g) (c : ConditionName) (u : T) :
    spotAt (g.setWaiters c (g.waiters c).tail) u (g.control u) =
      if (g.waiters c).head? = some u then ((room g).spot u).wake else (room g).spot u := by
  cases hqueue : g.waiters c with
  | nil =>
    refine (spotAt_congr fun d => ?_).trans (if_neg (by simp)).symm
    rw [setWaiters_waiters]
    split_ifs with hd
    · rw [hd, hqueue]
      exact Iff.rfl
    · exact Iff.rfl
  | cons w rest =>
    have hnodup : (w :: rest).Nodup := hqueue ▸ hl.nodup c
    rw [List.head?_cons, List.tail_cons]
    by_cases huw : u = w
    · subst huw
      obtain ⟨p, hp⟩ := hl.waiters c u (by simp [hqueue])
      have hnot : u ∉ rest := (List.nodup_cons.mp hnodup).1
      rw [if_pos rfl, room_spot hp, hp]
      cases hin : p.inRoom <;> simp [spotAt, hin, hnot, Spot.wake]
    · rw [if_neg (by simpa using Ne.symm huw)]
      refine spotAt_congr fun d => ?_
      rw [setWaiters_waiters]
      split_ifs with hd
      · simp [hd, hqueue, huw]
      · exact Iff.rfl

theorem room_signal (hl : LocksRight lockOf holds g) :
    room ((g.setWaiters c (g.waiters c).tail).goto t (.runs q)) =
      { ((room g).wake (g.waiters c)).goto t (spotAt g t (.runs q)) with
        line := (g.setWaiters c (g.waiters c).tail).waiters .currentLoaderInStockCV
        door := (g.setWaiters c (g.waiters c).tail).waiters .stockRoomCV } := by
  refine room_congr (fun u => ?_) rfl rfl rfl rfl
  change _ = (((room g).wake _).goto t _).spot u
  rw [goto_control, goto_spot, setWaiters_control]
  split_ifs with hu
  · rfl
  · exact spotAt_signal hl c u

theorem signal_step (hl : LocksRight lockOf holds g)
    (hi : program role g.shared t p choice = some (.signal c q)) (hc : g.control t = .runs p) :
    RoomStep t (room g) (room ((g.setWaiters c (g.waiters c).tail).goto t (.runs q))) := by
  rw [room_signal hl]
  cases hp : p.inRoom with
  | none => cases outside hi hp
  | some pc =>
    obtain ⟨k, hands, rfl⟩ := eq_of_inRoom hp
    have hspot : (room g).spot t = .runs pc := room_spot hc
    have hsignal := Option.some.inj hi
    cases pc with
    | wakeInside =>
      obtain ⟨rfl, rfl⟩ := Instruction.signal.inj hsignal
      exact .wakes hspot
    | callNext =>
      obtain ⟨rfl, rfl⟩ := Instruction.signal.inj hsignal
      exact .callsNext hspot
    | letIn =>
      obtain ⟨rfl, rfl⟩ := Instruction.signal.inj hsignal
      exact .letsIn hspot
    | _ => cases hsignal

/-- Who waits at a shelf is not in the stock room. -/
theorem spotAt_broadcast {shelf : Shelf} (hcalled : Called (g.control u)) :
    spotAt (g.setWaiters (.shelfCV shelf) []) u (g.control u) = (room g).spot u := by
  change _ = spotAt g u (g.control u)
  cases hu : g.control u with
  | waiting d p =>
    rw [hu] at hcalled
    cases hp : p.inRoom with
    | none => simp only [spotAt, hp, Option.elim_none]
    | some pc =>
      simp only [Called, hp] at hcalled
      have hd : d ≠ .shelfCV shelf := by
        rw [hcalled.2]
        unfold StockRoom.conditionAwaited
        split <;> simp
      simp only [spotAt, setWaiters_waiters, if_neg hd]
  | _ => rfl

/-- The broadcasts are to customers at the shelves. -/
theorem broadcast_step (hcalled : ∀ u, Called (g.control u))
    (hi : program role g.shared t p choice = some (.broadcast c q)) (hc : g.control t = .runs p) :
    RoomStep t (room g) (room ((g.setWaiters c []).goto t (.runs q))) := by
  cases hp : p.inRoom with
  | none =>
    cases outside hi hp with
    | @broadcasts shelf _ hq =>
      have hroom : room ((g.setWaiters (.shelfCV shelf) []).goto t (.runs q)) =
          (room g).goto t .elsewhere := by
        refine room_congr (fun u => ?_) rfl rfl rfl rfl
        rw [goto_control, goto_spot, setWaiters_control]
        split_ifs with hu
        · simp only [spotAt, hq, Option.elim_none]
        · exact spotAt_broadcast (hcalled u)
      have hgoes : Goes (room g).current (room g).count ((room g).spot t) .elsewhere := by
        rw [room_spot hc]
        simp only [spotAt, hp]
        exact .stays
      rw [hroom]
      exact .goes hgoes
  | some pc =>
    obtain ⟨k, hands, rfl⟩ := eq_of_inRoom hp
    have hbroadcast := Option.some.inj hi
    cases pc <;> cases hbroadcast

/-- Each step of the store is one of the hand-off. -/
theorem room_step (hl : LocksRight lockOf holds g) (hcalled : ∀ u, Called (g.control u))
    (hm : Move lockOf (program role) g t choice g') : RoomStep t (room g) (room g') := by
  cases hm with
  | granted hc ho => exact granted_step (hc ▸ hcalled t) hc
  | woken hc hw => exact woken_step (hc ▸ hcalled t) hc hw
  | acquire hc hi => exact acquire_step hi hc
  | release hc hi => exact release_step hi hc
  | wait hc hi ho => exact wait_step hi hc
  | signal hc hi ho => exact signal_step hl hi hc
  | broadcast hc hi ho => exact broadcast_step hcalled hi hc
  | @refused p q c a hc hi ha ho =>
    have hown : holds p (lockOf c) := by
      rcases ha with rfl | rfl | rfl <;> exact (program_discipline role _ _ _ _ _ hi).1
    refine absurd ((hl.held (lockOf c)).has t ?_) ho
    rw [hc]
    exact hown
  | access hc hi => exact access_step hi hc

/-! The calls. -/

omit [DecidableEq T] in
theorem acquire_called {l : LockName} (hi : program role s t p choice = some (.acquire l q)) :
    Called (.acquiring l q) := by
  cases hp : p.inRoom with
  | none =>
    cases outside hi hp with
    | acquires hq _ => exact hq
  | some pc =>
    obtain ⟨k, hands, rfl⟩ := eq_of_inRoom hp
    have hacq := Option.some.inj hi
    cases pc <;> cases hacq <;> exact ⟨by simp [acquired], rfl⟩

omit [DecidableEq T] in
theorem wait_called (hi : program role s t p choice = some (.wait c q)) :
    Called (.waiting c q) := by
  cases hp : p.inRoom with
  | none =>
    cases outside hi hp with
    | waits hq =>
      simp only [Called, hq]
      exact ⟨_, rfl⟩
  | some pc =>
    obtain ⟨k, hands, rfl⟩ := eq_of_inRoom hp
    have hwait := Option.some.inj hi
    cases pc <;> cases hwait <;> exact ⟨by simp [awaited], rfl⟩

theorem Called.woken (h : Called (.waiting c p)) : Called (.acquiring (lockOf c) p) := by
  cases hp : p.inRoom with
  | none =>
    simp only [Called, hp] at h ⊢
    obtain ⟨k, rfl⟩ := h
    exact .inr ⟨k, rfl⟩
  | some pc =>
    simp only [Called, hp, awaited, List.mem_cons, List.not_mem_nil, or_false] at h ⊢
    obtain ⟨rfl | rfl | rfl, rfl⟩ := h <;> exact ⟨by simp [acquired], rfl⟩

theorem Called.move (h : ∀ u, Called (g.control u)) (hm : Move lockOf (program role) g t choice g')
    (u : T) : Called (g'.control u) := by
  by_cases hu : u = t
  · subst hu
    have ht := h u
    cases hm with
    | woken hc hw =>
      rw [acquire_control, if_pos rfl]
      exact (hc ▸ ht : Called (.waiting _ _)).woken
    | acquire hc hi =>
      rw [acquire_control, if_pos rfl]
      exact acquire_called hi
    | wait hc hi ho =>
      rw [wait_control, if_pos rfl]
      exact wait_called hi
    | _ =>
      rw [goto_control, if_pos rfl]
      trivial
  · rw [hm.control_of_ne hu]
    exact h u

/-! The locks and the queues. -/

theorem holds_line (shelf : Shelf) (hands : ℤ) (h : pc.hasLine) :
    holds (.restock shelf hands (.stockRoom pc)) .currentLoaderInStockLock := by
  cases pc <;> simp_all [holds, locksOf, StockRoom.hasLine]

theorem holds_room (shelf : Shelf) (hands : ℤ) (h : pc.hasRoom) :
    holds (.restock shelf hands (.stockRoom pc)) .stockRoomLock := by
  cases pc <;> simp_all [holds, locksOf, StockRoom.hasRoom]

theorem has_line (hcalled : Called k) (h : (spotAt g t k).hasLine) :
    k.Has lockOf holds .currentLoaderInStockLock := by
  cases k with
  | runs p =>
    cases hp : p.inRoom with
    | none => simp [spotAt, hp, Spot.hasLine] at h
    | some pc =>
      obtain ⟨shelf, hands, rfl⟩ := eq_of_inRoom hp
      exact holds_line shelf hands h
  | acquiring l p =>
    cases hp : p.inRoom with
    | none => simp [spotAt, hp, Spot.hasLine] at h
    | some pc =>
      obtain ⟨shelf, hands, rfl⟩ := eq_of_inRoom hp
      obtain ⟨-, rfl⟩ := hcalled
      have hpc : pc = .someoneInside ∨ pc = .releaseLine := by
        cases pc <;> first | exact .inl rfl | exact .inr rfl | cases h
      rcases hpc with rfl | rfl
      · exact ⟨by simp [StockRoom.lockAsked], holds_line _ _ rfl⟩
      · exact ⟨by simp [StockRoom.lockAsked], holds_line _ _ rfl⟩
  | waiting c p =>
    cases hp : p.inRoom with
    | none => simp [spotAt, hp, Spot.hasLine] at h
    | some pc =>
      obtain ⟨shelf, hands, rfl⟩ := eq_of_inRoom hp
      obtain ⟨-, rfl⟩ := hcalled
      have hpc : pc = .releaseLine := by
        cases pc <;> first | rfl | cases h
      subst hpc
      exact ⟨by simp [StockRoom.conditionAwaited, lockOf], holds_line _ _ rfl⟩

theorem has_room (hcalled : Called k) (h : (spotAt g t k).hasRoom) :
    k.Has lockOf holds .stockRoomLock := by
  cases k with
  | runs p =>
    cases hp : p.inRoom with
    | none => simp [spotAt, hp, Spot.hasRoom] at h
    | some pc =>
      obtain ⟨shelf, hands, rfl⟩ := eq_of_inRoom hp
      exact holds_room shelf hands h
  | acquiring l p =>
    cases hp : p.inRoom with
    | none => simp [spotAt, hp, Spot.hasRoom] at h
    | some pc =>
      obtain ⟨shelf, hands, rfl⟩ := eq_of_inRoom hp
      obtain ⟨-, rfl⟩ := hcalled
      have hpc : pc = .someoneInLine := by
        cases pc <;> first | rfl | cases h
      subst hpc
      exact ⟨by simp [StockRoom.lockAsked], holds_room _ _ rfl⟩
  | waiting c p =>
    cases hp : p.inRoom with
    | none => simp [spotAt, hp, Spot.hasRoom] at h
    | some pc => cases pc <;> simp [spotAt, hp, Spot.hasRoom] at h

omit [DecidableEq T] in
/-- Who waits in the stock room waits for what the place says. -/
theorem called_of_waiting (hcalled : Called (g.control t)) (hc : g.control t = .waiting c p)
    (hshelf : ∀ shelf, c ≠ .shelfCV shelf) :
    ∃ pc ∈ awaited, p.inRoom = some pc ∧ c = pc.conditionAwaited := by
  rw [hc] at hcalled
  cases hp : p.inRoom with
  | none =>
    simp only [Called, hp] at hcalled
    obtain ⟨shelf, hc⟩ := hcalled
    exact absurd hc (hshelf shelf)
  | some pc =>
    simp only [Called, hp] at hcalled
    exact ⟨pc, hcalled.1, rfl, hcalled.2⟩

theorem control_of_runs (hs : (room g).spot t = .runs pc) :
    ∃ p, g.control t = .runs p ∧ p.inRoom = some pc := by
  change spotAt g t (g.control t) = _ at hs
  cases hc : g.control t with
  | runs p => cases hp : p.inRoom <;> simp_all [spotAt]
  | acquiring l p | waiting c p => cases hp : p.inRoom <;> simp_all [spotAt]

theorem control_of_acquiring (hcalled : Called (g.control t))
    (hs : (room g).spot t = .acquiring pc) :
    ∃ p, g.control t = .acquiring pc.lockAsked p ∧ p.inRoom = some pc := by
  change spotAt g t (g.control t) = _ at hs
  cases hc : g.control t with
  | acquiring l p => cases hp : p.inRoom <;> simp_all [spotAt, Called]
  | runs p | waiting c p => cases hp : p.inRoom <;> simp_all [spotAt]

theorem control_of_waiting {queued : Bool} (hcalled : Called (g.control t))
    (hs : (room g).spot t = .waiting pc queued) :
    pc ∈ awaited ∧ ∃ p, g.control t = .waiting pc.conditionAwaited p ∧ p.inRoom = some pc ∧
      queued = decide (t ∈ g.waiters pc.conditionAwaited) := by
  change spotAt g t (g.control t) = _ at hs
  cases hc : g.control t with
  | waiting c p =>
    rw [hc] at hs hcalled
    cases hp : p.inRoom with
    | none => simp [spotAt, hp] at hs
    | some pc' =>
      simp only [spotAt, hp, Option.elim_some, Spot.waiting.injEq] at hs
      simp only [Called, hp] at hcalled
      obtain ⟨rfl, rfl⟩ := hs
      obtain ⟨hpc, rfl⟩ := hcalled
      exact ⟨hpc, p, rfl, hp, rfl⟩
  | runs p | acquiring l p => cases hp : p.inRoom <;> simp_all [spotAt]

/-- Who is queued in the hand-off stands in the queue of his condition. -/
theorem mem_of_queued (hcalled : Called (g.control t))
    (hs : (room g).spot t = .waiting pc true) : t ∈ g.waiters pc.conditionAwaited := by
  obtain ⟨-, p, -, -, hmem⟩ := control_of_waiting hcalled hs
  exact of_decide_eq_true hmem.symm

theorem orderly (hl : LocksRight lockOf holds g) (hcalled : ∀ u, Called (g.control u)) :
    Orderly (room g) where
  line_holder t u ht hu := hl.exclusive (has_line (hcalled t) ht) (has_line (hcalled u) hu)
  room_holder t u ht hu := hl.exclusive (has_room (hcalled t) ht) (has_room (hcalled u) hu)
  line t := by
    constructor
    · intro (ht : t ∈ g.waiters .currentLoaderInStockCV)
      obtain ⟨p, hp⟩ := hl.waiters _ t ht
      obtain ⟨pc, hpc, hin, hcond⟩ := called_of_waiting (hcalled t) hp (by simp)
      rw [room_spot hp, spotAt, hin, Option.elim_some, decide_eq_true ht]
      simp only [awaited, List.mem_cons, List.not_mem_nil, or_false] at hpc
      rcases hpc with rfl | rfl | rfl
      · rfl
      · cases hcond
      · cases hcond
    · exact mem_of_queued (hcalled t)
  door t := by
    constructor
    · intro (ht : t ∈ g.waiters .stockRoomCV)
      obtain ⟨p, hp⟩ := hl.waiters _ t ht
      obtain ⟨pc, hpc, hin, hcond⟩ := called_of_waiting (hcalled t) hp (by simp)
      rw [room_spot hp, spotAt, hin, Option.elim_some, decide_eq_true ht]
      simp only [awaited, List.mem_cons, List.not_mem_nil, or_false] at hpc
      rcases hpc with rfl | rfl | rfl
      · cases hcond
      · exact .inl rfl
      · exact .inr rfl
    · rintro (ht | ht)
      · exact mem_of_queued (hcalled t) ht
      · exact mem_of_queued (hcalled t) ht
  line_nodup := hl.nodup _
  door_nodup := hl.nodup _

/-! Who can go on. -/

/-- The loader is in the hand-off, from asking for its first lock to giving back the last. -/
def InSection (g : Market T) (t : T) : Prop := (placeOf (g.control t)).inRoom ≠ none

instance (g : Market T) (t : T) : Decidable (InSection g t) :=
  inferInstanceAs (Decidable (_ ≠ _))

/-- The loader is putting an item of the manager back. -/
def PutsBack (g : Market T) (t : T) : Prop := placeOf (g.control t) = .putBack

/-- Some loader in the hand-off can go on, or one who holds the room's lock to put an item back. -/
def Lively (g : Market T) : Prop :=
  (∃ t, InSection g t ∧ ¬ Blocked g t) ∨
    ∃ t, PutsBack g t ∧ (g.lock .stockRoomLock).owner = some t ∧ ¬ Blocked g t

omit [DecidableEq T] in
theorem not_blocked_owner {l : LockName} (hc : g.control t = .acquiring l p)
    (ho : (g.lock l).owner = some t) : ¬ Blocked g t := by
  simp [Blocked, hc, ho]

theorem line_holder_place (h : holds p .currentLoaderInStockLock) : p.inRoom ≠ none := by
  cases p with
  | restock k hands pc => cases pc <;> simp_all [holds, locksOf, Place.inRoom]
  | shop i e cart pc => cases pc <;> simp_all [holds, locksOf]
  | _ => simp_all [holds, locksOf]

theorem room_holder_place (h : holds p .stockRoomLock) : p.inRoom ≠ none ∨ p = .putBack := by
  cases p with
  | restock k hands pc => cases pc <;> simp_all [holds, locksOf, Place.inRoom]
  | shop i e cart pc => cases pc <;> simp_all [holds, locksOf]
  | _ => simp_all [holds, locksOf]

omit [DecidableEq T] in
theorem Lively.of_runs (hc : g.control t = .runs p) (hp : p.inRoom ≠ none) : Lively g := by
  refine .inl ⟨t, ?_, not_blocked_of_runs hc⟩
  rw [InSection, hc]
  exact hp

omit [DecidableEq T] in
/-- The owner of a lock of the stock room, who is inside its `Acquire`, can go on. -/
theorem Lively.of_owner {l : LockName} (hcalled : Called (g.control t))
    (hc : g.control t = .acquiring l p) (ho : (g.lock l).owner = some t)
    (hshelf : ∀ shelf, l ≠ .shelfLock shelf) : Lively g := by
  cases hp : p.inRoom with
  | some pc =>
    refine .inl ⟨t, ?_, not_blocked_owner hc ho⟩
    rw [InSection, hc]
    simp [placeOf, hp]
  | none =>
    rw [hc] at hcalled
    simp only [Called, hp] at hcalled
    rcases hcalled with ⟨rfl, rfl⟩ | ⟨shelf, hl⟩
    · refine .inr ⟨t, ?_, ho, not_blocked_owner hc ho⟩
      rw [PutsBack, hc]
      rfl
    · exact absurd hl (hshelf shelf)

/-- What a call of a loader in the hand-off shows. -/
theorem spot_of_acquiring {l : LockName} (hcalled : Called (g.control t))
    (hc : g.control t = .acquiring l p) (hp : p.inRoom = some pc) :
    (room g).spot t = .acquiring pc ∧ pc ∈ acquired ∧ l = pc.lockAsked := by
  rw [hc] at hcalled
  simp only [Called, hp] at hcalled
  refine ⟨?_, hcalled⟩
  rw [room_spot hc, spotAt, hp, Option.elim_some]

theorem spot_of_waiting (hcalled : Called (g.control t)) (hc : g.control t = .waiting c p)
    (hp : p.inRoom = some pc) :
    (room g).spot t = .waiting pc (t ∈ g.waiters c) ∧ pc ∈ awaited ∧ c = pc.conditionAwaited := by
  rw [hc] at hcalled
  simp only [Called, hp] at hcalled
  refine ⟨?_, hcalled⟩
  rw [room_spot hc, spotAt, hp, Option.elim_some]

theorem inRoom_of_line {l : LockName} (h : l = .currentLoaderInStockLock) (hp : holds p l) :
    ∃ pc, p.inRoom = some pc :=
  Option.ne_none_iff_exists'.mp (line_holder_place (h ▸ hp))

/-- A loader who keeps the line while he is in a call keeps it on his way into the room. -/
theorem keeps_line (hcalled : Called (g.control t)) (hnot : ∀ p, g.control t ≠ .runs p)
    (h : (g.control t).Has lockOf holds .currentLoaderInStockLock) :
    (room g).spot t = .acquiring .someoneInside ∨ (room g).spot t = .acquiring .releaseLine ∨
      ∃ queued, (room g).spot t = .waiting .releaseLine queued := by
  cases hk : g.control t with
  | runs p => exact absurd hk (hnot p)
  | acquiring l p =>
    rw [hk] at h
    obtain ⟨pc, hp⟩ := inRoom_of_line rfl h.2
    obtain ⟨hspot, hpc, rfl⟩ := spot_of_acquiring hcalled hk hp
    obtain ⟨shelf, hands, rfl⟩ := eq_of_inRoom hp
    rw [hspot]
    simp only [acquired, List.mem_cons, List.not_mem_nil, or_false] at hpc
    rcases hpc with rfl | rfl | rfl | rfl | rfl | rfl
    · exact absurd rfl h.1
    · exact absurd rfl h.1
    · exact .inl rfl
    · exact .inr (.inl rfl)
    · exact absurd rfl h.1
    · exact absurd h.2 (by simp [holds, locksOf])
  | waiting c p =>
    rw [hk] at h
    obtain ⟨pc, hp⟩ := inRoom_of_line rfl h.2
    obtain ⟨hspot, hpc, rfl⟩ := spot_of_waiting hcalled hk hp
    obtain ⟨shelf, hands, rfl⟩ := eq_of_inRoom hp
    rw [hspot]
    simp only [awaited, List.mem_cons, List.not_mem_nil, or_false] at hpc
    rcases hpc with rfl | rfl | rfl
    · exact absurd rfl h.1
    · exact .inr (.inr ⟨_, rfl⟩)
    · exact absurd h.2 (by simp [holds, locksOf])

/-- The loader inside asks for the line's lock: nobody keeps it while he is asleep. -/
theorem Lively.of_inside_asks (hl : LocksRight lockOf holds g) (hcalled : ∀ u, Called (g.control u))
    (hin : ∃ ph, (room g).In ph) (hc : g.control t = .acquiring .currentLoaderInStockLock p)
    (hspot : (room g).spot t = .acquiring .someoneInLine) : Lively g := by
  obtain ⟨ph, hin⟩ := hin
  obtain rfl := Phase.eq_inside (hin.duty hspot)
  rcases hl.exists_owner hc with ⟨u, hhas⟩ | ⟨u, q, hk, hu⟩
  · by_cases hruns : ∃ q, g.control u = .runs q
    · obtain ⟨q, hq⟩ := hruns
      rw [hq] at hhas
      exact .of_runs hq (line_holder_place hhas)
    · have hduty := hin.allows u
      have hkeeps := keeps_line (hcalled u) (fun q hq => hruns ⟨q, hq⟩) hhas
      have hut : u ≠ t := by
        rintro rfl
        simp [hspot] at hkeeps
      simp only [Phase.Allows, if_neg hut] at hduty
      rcases hkeeps with hs | hs | ⟨queued, hs⟩
      · simp [hs, Spot.duty] at hduty
      · simp [hs, Spot.duty] at hduty
      · cases queued <;> simp [hs, Spot.duty] at hduty
  · exact .of_owner (hcalled u) hk hu (by simp)

/-- The room's lock is asked for: its owner can go on, or the one who keeps the line from him. -/
theorem Lively.of_room_asked (hl : LocksRight lockOf holds g) (hcalled : ∀ u, Called (g.control u))
    (hin : ∃ ph, (room g).In ph) (hc : g.control t = .acquiring .stockRoomLock p) : Lively g := by
  rcases hl.exists_owner hc with ⟨u, hhas⟩ | ⟨u, q, hk, hu⟩
  · cases hk : g.control u with
    | runs q =>
      rw [hk] at hhas
      rcases room_holder_place hhas with hq | rfl
      · exact .of_runs hk hq
      · refine .inr ⟨u, ?_, (hl.held _).has u (by rw [hk]; exact hhas), not_blocked_of_runs hk⟩
        rw [PutsBack, hk]
        rfl
    | waiting c q =>
      rw [hk] at hhas
      have hret := hl.returning u c q hk
      cases hq : q.inRoom with
      | none =>
        obtain rfl := (room_holder_place hhas.2).resolve_left (fun h => h hq)
        exact absurd (List.mem_singleton.mp hret).symm hhas.1
      | some pc =>
        obtain ⟨-, hpc, rfl⟩ := spot_of_waiting (hcalled u) hk hq
        obtain ⟨shelf, hands, rfl⟩ := eq_of_inRoom hq
        simp only [awaited, List.mem_cons, List.not_mem_nil, or_false] at hpc
        rcases hpc with rfl | rfl | rfl
        · exact absurd hhas.2 (by simp [holds, locksOf])
        · exact absurd rfl hhas.1
        · exact absurd rfl hhas.1
    | acquiring l q =>
      rw [hk] at hhas
      have hacq := hl.acquiring u l q hk
      cases hq : q.inRoom with
      | none =>
        obtain rfl := (room_holder_place hhas.2).resolve_left (fun h => h hq)
        exact absurd (List.mem_singleton.mp hacq).symm hhas.1
      | some pc =>
        obtain ⟨hspot, hpc, rfl⟩ := spot_of_acquiring (hcalled u) hk hq
        obtain ⟨shelf, hands, rfl⟩ := eq_of_inRoom hq
        simp only [acquired, List.mem_cons, List.not_mem_nil, or_false] at hpc
        rcases hpc with rfl | rfl | rfl | rfl | rfl | rfl
        · exact absurd hhas.2 (by simp [holds, locksOf])
        · exact absurd hhas.2 (by simp [holds, locksOf])
        · exact absurd rfl hhas.1
        · exact absurd rfl hhas.1
        · exact .of_inside_asks hl hcalled hin hk hspot
        · exact absurd rfl hhas.1
  · exact .of_owner (hcalled u) hk hu (by simp)

theorem Lively.of_spot_runs (hs : (room g).spot t = .runs pc) : Lively g := by
  obtain ⟨p, hc, hp⟩ := control_of_runs hs
  exact .of_runs hc (by simp [hp])

/-- A loader who has been signalled can go on to the lock. -/
theorem Lively.of_spot_woken (hcalled : Called (g.control t))
    (hs : (room g).spot t = .waiting pc false) : Lively g := by
  obtain ⟨-, p, hc, hp, hmem⟩ := control_of_waiting hcalled hs
  refine .inl ⟨t, ?_, ?_⟩
  · rw [InSection, hc]
    simp [placeOf, hp]
  · simpa [Blocked, hc] using of_decide_eq_false hmem.symm

/-- The line's lock is asked for: its owner can go on, or the one whom he waits for inside. -/
theorem Lively.of_line_asked (hl : LocksRight lockOf holds g) (hcalled : ∀ u, Called (g.control u))
    (hin : ∃ ph, (room g).In ph) (hc : g.control t = .acquiring .currentLoaderInStockLock p) :
    Lively g := by
  rcases hl.exists_owner hc with ⟨u, hhas⟩ | ⟨u, q, hk, hu⟩
  · by_cases hruns : ∃ q, g.control u = .runs q
    · obtain ⟨q, hq⟩ := hruns
      rw [hq] at hhas
      exact .of_runs hq (line_holder_place hhas)
    · rcases keeps_line (hcalled u) (fun q hq => hruns ⟨q, hq⟩) hhas with hs | hs | ⟨queued, hs⟩
      · obtain ⟨q, hq, -⟩ := control_of_acquiring (hcalled u) hs
        exact .of_room_asked hl hcalled hin hq
      · obtain ⟨q, hq, -⟩ := control_of_acquiring (hcalled u) hs
        exact .of_room_asked hl hcalled hin hq
      · cases queued with
        | false => exact .of_spot_woken (hcalled u) hs
        | true =>
          -- he is being greeted by the loader who leaves
          obtain ⟨ph, hph⟩ := hin
          obtain ⟨x, rfl⟩ := Phase.eq_of_admitted (hph.duty hs)
          have hx : ((room g).spot x).duty = .leaving := by
            simpa [Phase.Allows] using hph.allows x
          rcases eq_of_leaving hx with hx | hx | hx
          · exact .of_spot_runs hx
          · obtain ⟨q, hq, -⟩ := control_of_acquiring (hcalled x) hx
            exact .of_room_asked hl hcalled ⟨_, hph⟩ hq
          · exact .of_spot_woken (hcalled x) hx
  · exact .of_owner (hcalled u) hk hu (by simp)

theorem Lively.of_awake (hl : LocksRight lockOf holds g) (hcalled : ∀ u, Called (g.control u))
    (hin : ∃ ph, (room g).In ph) (h : ((room g).spot t).Awake) : Lively g := by
  cases hs : (room g).spot t with
  | elsewhere => simp [hs, Spot.Awake] at h
  | runs pc => exact .of_spot_runs hs
  | acquiring pc =>
    obtain ⟨p, hc, -⟩ := control_of_acquiring (hcalled t) hs
    have hlock : pc.lockAsked = .stockRoomLock ∨ pc.lockAsked = .currentLoaderInStockLock := by
      cases pc <;> simp [StockRoom.lockAsked]
    rcases hlock with hlock | hlock
    · exact .of_room_asked hl hcalled hin (hlock ▸ hc)
    · exact .of_line_asked hl hcalled hin (hlock ▸ hc)
  | waiting pc queued =>
    cases queued with
    | false => exact .of_spot_woken (hcalled t) hs
    | true => simp [hs, Spot.Awake] at h

/-- A loader in the hand-off is awake, or in one of its queues. -/
theorem awake_or_queued (ht : InSection g t) :
    ((room g).spot t).Awake ∨ ∃ pc, (room g).spot t = .waiting pc true := by
  obtain ⟨pc, hpc⟩ := Option.ne_none_iff_exists'.mp ht
  cases hc : g.control t with
  | runs p | acquiring l p =>
    rw [hc] at hpc
    have hp : p.inRoom = some pc := hpc
    refine .inl ?_
    rw [room_spot hc, spotAt, hp]
    trivial
  | waiting c p =>
    rw [hc] at hpc
    have hp : p.inRoom = some pc := hpc
    rw [room_spot hc, spotAt, hp]
    by_cases hmem : t ∈ g.waiters c
    · exact .inr ⟨pc, by simp [hmem]⟩
    · exact .inl (by simp [hmem, Spot.Awake])

/-- No deadlock: with a loader in the hand-off, somebody can go on. -/
theorem lively (hl : LocksRight lockOf holds g) (hcalled : ∀ u, Called (g.control u))
    (hin : ∃ ph, (room g).In ph) (ht : InSection g t) : Lively g := by
  rcases awake_or_queued ht with hawake | ⟨pc, hs⟩
  · exact .of_awake hl hcalled hin hawake
  · obtain ⟨ph, hph⟩ := hin
    obtain ⟨hpc, -⟩ := control_of_waiting (hcalled t) hs
    have hused : ph ≠ .vacant := by
      rintro rfl
      have hduty := hph.duty hs
      simp only [awaited, List.mem_cons, List.not_mem_nil, or_false] at hpc
      rcases hpc with rfl | rfl | rfl <;> simp [Phase.Allows, Spot.duty] at hduty
    obtain ⟨u, hu⟩ := hph.exists_awake hused
    exact .of_awake hl hcalled ⟨ph, hph⟩ hu

/-! Runs. -/

omit [DecidableEq T] in
theorem start_inRoom (role : T → Role) (t : T) : (start role t).inRoom = none := by
  unfold start
  split <;> rfl

theorem room_initial (role : T → Role) :
    room (Market.initial role) = ⟨fun _ => .elsewhere, -1, 0, [], []⟩ := by
  refine room_congr (fun t => ?_) rfl rfl rfl rfl
  change spotAt _ t (.runs (start role t)) = .elsewhere
  rw [spotAt, start_inRoom]
  rfl

theorem HandOff.initial : HandOff (⟨fun _ => .elsewhere, -1, 0, [], []⟩ : Room T) where
  phase := ⟨.vacant, trivial, fun _ => .inl rfl, iff_of_true rfl rfl⟩
  exact _ := rfl
  ahead t h := by rcases h with h | h <;> cases h
  calls t h := by cases h
  empty t h := by cases h

theorem handOff (role : T → Role) {tr : List (Transition (Market T) (T × Choice))}
    (h : Execution (Steps lockOf (program role)) (Market.initial role) tr g) :
    LocksRight lockOf holds g ∧ (∀ u, Called (g.control u)) ∧ HandOff (room g) := by
  refine invariant_of_discipline (Q := fun g => (∀ u, Called (g.control u)) ∧ HandOff (room g))
    (program_discipline role) (not_holds_start role) h
    ⟨fun u => trivial, room_initial role ▸ .initial⟩ fun g t i g' hl hq hm => ?_
  have hcalled := Called.move hq.1 hm
  have horderly := orderly (hl.move (program_discipline role) hm) hcalled
  exact ⟨hcalled, hq.2.step (orderly hl hq.1) horderly (room_step hl hq.1 hm)⟩

/-- The statements from entering the stock room to giving it back. -/
def StockRoom.within : StockRoom → Bool
  | .releaseLine | .reacquireLine | .someoneInLine | .callNext | .uncountNext
  | .releaseLineCalled | .waitSuccessor | .letIn | .vacate | .releaseLineVacant
  | .releaseRoom => true
  | _ => false

/-- The loader has entered, and holds the stock room or waits for his successor. -/
def InStockRoom (g : Market T) (t : T) : Prop :=
  match g.control t with
  | .runs p => ∃ pc, p.inRoom = some pc ∧ pc.within
  | .acquiring _ p | .waiting _ p => ∃ pc, p.inRoom = some pc ∧ pc.within ∧ pc ≠ .releaseLine

/-- The loader has entered and has not left to his successor or announced an empty room. -/
def Inside (g : Market T) (t : T) : Prop :=
  InStockRoom g t ∧ (placeOf (g.control t)).inRoom ≠ some .releaseLineVacant ∧
    (placeOf (g.control t)).inRoom ≠ some .releaseRoom

/-- The loader has counted himself and not joined the line, or has called the next of the line
and not counted him out. -/
def MidCount (g : Market T) (t : T) : Prop :=
  ∃ p, g.control t = .runs p ∧ (p.inRoom = some .waitInLine ∨ p.inRoom = some .uncountNext)

structure StockRoomRight (g : Market T) : Prop where
  exclusive : ∀ t u, InStockRoom g t → InStockRoom g u → t = u
  vacant : g.shared.currentLoaderInStock = -1 → ∀ t, ¬ Inside g t
  counted : (∀ t, ¬ MidCount g t) →
    g.shared.waitingForStockRoomCount = (g.waiters .currentLoaderInStockCV).length
  midCount : ∀ t, MidCount g t → (g.lock .currentLoaderInStockLock).owner = some t ∧
    g.shared.waitingForStockRoomCount = (g.waiters .currentLoaderInStockCV).length + 1
  lively : ∀ t, InSection g t → Lively g

theorem duty_of_inStockRoom (hcalled : Called (g.control t)) (h : InStockRoom g t) :
    ((room g).spot t).duty.Within := by
  unfold InStockRoom at h
  cases hc : g.control t with
  | runs p =>
    rw [hc] at h
    obtain ⟨pc, hp, hwithin⟩ := h
    rw [room_spot hc, spotAt, hp, Option.elim_some]
    cases pc <;> first | cases hwithin; done | simp [Duty.Within, Spot.duty]
  | acquiring l p =>
    rw [hc] at h
    obtain ⟨pc, hp, hwithin, hne⟩ := h
    obtain ⟨hspot, hpc, -⟩ := spot_of_acquiring hcalled hc hp
    simp only [acquired, List.mem_cons, List.not_mem_nil, or_false] at hpc
    rw [hspot]
    rcases hpc with rfl | rfl | rfl | rfl | rfl | rfl
    · cases hwithin
    · cases hwithin
    · cases hwithin
    · exact absurd rfl hne
    · exact .inl rfl
    · exact .inr (.inr (.inl rfl))
  | waiting c p =>
    rw [hc] at h
    obtain ⟨pc, hp, hwithin, hne⟩ := h
    obtain ⟨hspot, hpc, -⟩ := spot_of_waiting hcalled hc hp
    simp only [awaited, List.mem_cons, List.not_mem_nil, or_false] at hpc
    rw [hspot]
    rcases hpc with rfl | rfl | rfl
    · cases hwithin
    · exact absurd rfl hne
    · cases decide (t ∈ g.waiters c)
      · exact .inr (.inr (.inl rfl))
      · exact .inr (.inl rfl)

theorem midCount_iff : MidCount g t ↔ ((room g).spot t).Counting := by
  constructor
  · rintro ⟨p, hc, hp | hp⟩
    · exact .inl (by rw [room_spot hc, spotAt, hp, Option.elim_some])
    · exact .inr (by rw [room_spot hc, spotAt, hp, Option.elim_some])
  · rintro (hs | hs)
    · obtain ⟨p, hc, hp⟩ := control_of_runs hs
      exact ⟨p, hc, .inl hp⟩
    · obtain ⟨p, hc, hp⟩ := control_of_runs hs
      exact ⟨p, hc, .inr hp⟩

/-- A loader inside has not come to the end of the section. -/
theorem Inside.not_departing (h : Inside g t) : ((room g).spot t).duty ≠ .departing := by
  intro hd
  rcases eq_of_departing hd with hs | hs
  · obtain ⟨p, hc, hp⟩ := control_of_runs hs
    exact h.2.1 (by rw [hc]; exact hp)
  · obtain ⟨p, hc, hp⟩ := control_of_runs hs
    exact h.2.2 (by rw [hc]; exact hp)

/-- In every interleaving one loader at a time is in the stock room, and the hand-off goes on. -/
theorem stock_room_right (role : T → Role) {tr : List (Transition (Market T) (T × Choice))}
    (h : Execution (Steps lockOf (program role)) (Market.initial role) tr g) :
    StockRoomRight g := by
  obtain ⟨hl, hcalled, hoff⟩ := handOff role h
  obtain ⟨ph, hin⟩ := hoff.phase
  have ho := orderly hl hcalled
  refine ⟨fun t u ht hu => ?_, fun hcurrent t ht => ?_, fun hnone => ?_, fun t ht => ⟨?_, ?_⟩,
    fun t ht => lively hl hcalled ⟨ph, hin⟩ ht⟩
  · exact hin.alone ho (duty_of_inStockRoom (hcalled t) ht) (duty_of_inStockRoom (hcalled u) hu)
  · obtain rfl := hin.current.mp hcurrent
    have hduty := hin.allows t
    have hnot := ht.not_departing
    rcases duty_of_inStockRoom (hcalled t) ht.1 with hd | hd | hd | hd <;>
      simp [hd, Phase.Allows] at hduty hnot
  · exact hoff.exact fun t ht => hnone t (midCount_iff.mpr ht)
  · refine (hl.held _).has t (has_line (g := g) (t := t) (hcalled t) ?_)
    exact (midCount_iff.mp ht).hasLine
  · exact hoff.ahead t (midCount_iff.mp ht)

/-- Two loaders. -/
def twoLoaders : Bool → Role
  | false => .goodsLoader 4
  | true => .goodsLoader 5

def atShelf (t : Bool) (steps : ℕ) : List (Bool × Choice) :=
  List.replicate steps (t, .shelf ⟨0, 0⟩)

/-- Loader 5 has been in the stock room and has let in loader 4, who had to wait in line. -/
theorem stock_room_right_handed : ∃ tr g,
    Execution (Steps lockOf (program twoLoaders)) (Market.initial twoLoaders) tr g ∧
      InSection g false ∧ ¬ InSection g true ∧ g.shared.currentLoaderInStock = 4 ∧
      StockRoomRight g := by
  obtain ⟨tr, g, hex, htest⟩ := exists_of_run lockOf (program twoLoaders)
    (Market.initial twoLoaders)
    (atShelf true 12 ++ atShelf false 9 ++ atShelf true 7 ++ atShelf false 8 ++
      atShelf true 4 ++ atShelf false 3)
    (fun g => InSection g false ∧ ¬ InSection g true ∧ g.shared.currentLoaderInStock = 4)
    (by decide +kernel)
  obtain ⟨hfirst, hsecond, hcurrent⟩ := of_decide_eq_true htest
  exact ⟨tr, g, hex, hfirst, hsecond, hcurrent, stock_room_right twoLoaders hex⟩

/-- Loader 4 puts an item back while loader 5, alone in the hand-off, asks for the same lock. In
another run he has counted himself and is not in the queue yet. -/
theorem section_blocked_and_miscounted :
    (∃ tr g, Execution (Steps lockOf (program twoLoaders)) (Market.initial twoLoaders) tr g ∧
      InSection g true ∧ ∀ t, InSection g t → Blocked g t) ∧
    ∃ tr g, Execution (Steps lockOf (program twoLoaders)) (Market.initial twoLoaders) tr g ∧
      g.shared.waitingForStockRoomCount = 1 ∧ g.waiters .currentLoaderInStockCV = [] := by
  constructor
  · obtain ⟨tr, g, hex, htest⟩ := exists_of_run lockOf (program twoLoaders)
      (Market.initial twoLoaders)
      (List.replicate 2 (false, .managerItem) ++ atShelf true 8)
      (fun g => InSection g true ∧ ∀ t, InSection g t → Blocked g t) (by decide +kernel)
    exact ⟨tr, g, hex, of_decide_eq_true htest⟩
  · obtain ⟨tr, g, hex, htest⟩ := exists_of_run lockOf (program twoLoaders)
      (Market.initial twoLoaders)
      (atShelf true 12 ++ atShelf false 8)
      (fun g => g.shared.waitingForStockRoomCount = 1 ∧ g.waiters .currentLoaderInStockCV = [])
      (by decide +kernel)
    exact ⟨tr, g, hex, of_decide_eq_true htest⟩

end Nachos.Supermarket
