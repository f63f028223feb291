import Nachos.SupermarketThreads

/-! The hand-off of the stock room from one loader to the next, with the loaders told apart only
by where they stand in it. A loader inside calls the first of the line, waits for him at the
door, and is let out by him while he lets him in. -/
namespace Nachos.Supermarket

/-- Before a statement, inside the call that leads to it, or elsewhere in the store. A loader
inside `Wait` may still be in the queue of the condition. -/
inductive Spot
  | elsewhere
  | runs (pc : StockRoom)
  | acquiring (pc : StockRoom)
  | waiting (pc : StockRoom) (queued : Bool)
  deriving DecidableEq, Repr

def StockRoom.hasLine : StockRoom → Bool
  | .acquireLine | .reacquireLine | .waitSuccessor | .letIn | .releaseRoom => false
  | _ => true

def StockRoom.hasRoom : StockRoom → Bool
  | .acquireLine | .lineNeeded | .countMe | .waitInLine | .acquireRoom => false
  | _ => true

/-- The loader holds `currentLoaderInStockLock`. -/
def Spot.hasLine : Spot → Bool
  | .runs pc => pc.hasLine
  | .acquiring .someoneInside | .acquiring .releaseLine | .waiting .releaseLine _ => true
  | _ => false

/-- The loader holds `stockRoomLock`. -/
def Spot.hasRoom : Spot → Bool
  | .runs pc => pc.hasRoom
  | .acquiring .someoneInLine => true
  | _ => false

/-- A loader's part in the hand-off. -/
inductive Duty
  | idle
  | lining
  /-- signalled, not yet back from `Wait` -/
  | returning
  | arriving
  | announcing
  | admitted
  | entering
  | occupying
  | inside
  | calling
  | leaving
  | departing
  deriving DecidableEq, Repr

def Spot.duty : Spot → Duty
  | .runs pc =>
    match pc with
    | .acquireLine | .lineNeeded => .idle
    | .countMe | .waitInLine => .lining
    | .acquireRoom | .someoneInside => .arriving
    | .announce | .wakeInside => .announcing
    | .waitAdmitted => .admitted
    | .occupy => .occupying
    | .releaseLine | .reacquireLine | .someoneInLine | .callNext | .vacate => .inside
    | .uncountNext | .releaseLineCalled | .waitSuccessor => .calling
    | .letIn => .leaving
    | .releaseLineVacant | .releaseRoom => .departing
  | .acquiring .acquireRoom | .waiting .acquireRoom false => .returning
  | .acquiring .someoneInside => .arriving
  | .acquiring .releaseLine | .waiting .releaseLine false => .entering
  | .acquiring .someoneInLine => .inside
  | .acquiring .letIn | .waiting .letIn false => .leaving
  | .waiting .acquireRoom true => .lining
  | .waiting .releaseLine true => .admitted
  | .waiting .letIn true => .calling
  | _ => .idle

/-- The count of the line and the queue of the line differ by one. -/
def Spot.Counting (s : Spot) : Prop := s = .runs .waitInLine ∨ s = .runs .uncountNext

variable {T : Type*} [DecidableEq T]

/-- `currentLoaderInStock`, `waitingForStockRoomCount`, and the queues of
`currentLoaderInStockCV` and `stockRoomCV`. -/
structure Room (T : Type*) where
  spot : T → Spot
  current : ℤ
  count : ℤ
  line : List T
  door : List T

/-- The locks and the queues are in order. -/
structure Orderly (v : Room T) : Prop where
  line_holder : ∀ t u, (v.spot t).hasLine → (v.spot u).hasLine → t = u
  room_holder : ∀ t u, (v.spot t).hasRoom → (v.spot u).hasRoom → t = u
  line : ∀ t, t ∈ v.line ↔ v.spot t = .waiting .acquireRoom true
  door : ∀ t, t ∈ v.door ↔ v.spot t = .waiting .releaseLine true ∨ v.spot t = .waiting .letIn true
  line_nodup : v.line.Nodup
  door_nodup : v.door.Nodup

/-- What the calls of `Acquire` and `Wait` return to. -/
def acquired : List StockRoom :=
  [.lineNeeded, .acquireRoom, .someoneInside, .releaseLine, .someoneInLine, .letIn]

def awaited : List StockRoom := [.acquireRoom, .releaseLine, .letIn]

/-- A loader goes on by himself. -/
inductive Goes (current count : ℤ) : Spot → Spot → Prop
  | stays : Goes current count .elsewhere .elsewhere
  | comes : Goes current count .elsewhere (.runs .acquireLine)
  | asksLine : Goes current count (.runs .acquireLine) (.acquiring .lineNeeded)
  | granted {pc : StockRoom} (h : pc ∈ acquired) : Goes current count (.acquiring pc) (.runs pc)
  | lines (h : current ≠ -1 ∨ 0 < count) : Goes current count (.runs .lineNeeded) (.runs .countMe)
  | goesIn (h : current = -1) : Goes current count (.runs .lineNeeded) (.runs .acquireRoom)
  | woken {pc : StockRoom} (h : pc ∈ awaited) : Goes current count (.waiting pc false) (.acquiring pc)
  | asksRoom : Goes current count (.runs .acquireRoom) (.acquiring .someoneInside)
  | finds (h : current ≠ -1) : Goes current count (.runs .someoneInside) (.runs .announce)
  | findsNobody (h : current = -1) : Goes current count (.runs .someoneInside) (.runs .occupy)
  | leavesLine : Goes current count (.runs .releaseLine) (.runs .reacquireLine)
  | asksLineAgain : Goes current count (.runs .reacquireLine) (.acquiring .someoneInLine)
  | calls (h : 0 < count) : Goes current count (.runs .someoneInLine) (.runs .callNext)
  | empties (h : count ≤ 0) : Goes current count (.runs .someoneInLine) (.runs .vacate)
  | leavesLineCalled : Goes current count (.runs .releaseLineCalled) (.runs .waitSuccessor)
  | leavesLineVacant : Goes current count (.runs .releaseLineVacant) (.runs .releaseRoom)
  | goes : Goes current count (.runs .releaseRoom) .elsewhere

def Room.goto (v : Room T) (t : T) (s : Spot) : Room T :=
  { v with spot := Function.update v.spot t s }

/-- The first of a queue is woken: he is no longer queued. -/
def Spot.wake : Spot → Spot
  | .waiting pc _ => .waiting pc false
  | s => s

def Room.wake (v : Room T) (queue : List T) : Room T :=
  { v with spot := fun u => if queue.head? = some u then (v.spot u).wake else v.spot u }

/-- One step of loader `t`. -/
inductive RoomStep (t : T) (v : Room T) : Room T → Prop
  | goes {s : Spot} (h : Goes v.current v.count (v.spot t) s) : RoomStep t v (v.goto t s)
  | counts (h : v.spot t = .runs .countMe) :
      RoomStep t v { v.goto t (.runs .waitInLine) with count := v.count + 1 }
  | lines (h : v.spot t = .runs .waitInLine) :
      RoomStep t v { v.goto t (.waiting .acquireRoom true) with line := v.line ++ [t] }
  | announces {myID : ℕ} (h : v.spot t = .runs .announce) :
      RoomStep t v { v.goto t (.runs .wakeInside) with current := myID }
  | wakes (h : v.spot t = .runs .wakeInside) :
      RoomStep t v { (v.wake v.door).goto t (.runs .waitAdmitted) with door := v.door.tail }
  | waitsInside (h : v.spot t = .runs .waitAdmitted) :
      RoomStep t v { v.goto t (.waiting .releaseLine true) with door := v.door ++ [t] }
  | occupies {myID : ℕ} (h : v.spot t = .runs .occupy) :
      RoomStep t v { v.goto t (.runs .releaseLine) with current := myID }
  | callsNext (h : v.spot t = .runs .callNext) :
      RoomStep t v { (v.wake v.line).goto t (.runs .uncountNext) with line := v.line.tail }
  | uncounts (h : v.spot t = .runs .uncountNext) :
      RoomStep t v { v.goto t (.runs .releaseLineCalled) with count := v.count - 1 }
  | waitsAtDoor (h : v.spot t = .runs .waitSuccessor) :
      RoomStep t v { v.goto t (.waiting .letIn true) with door := v.door ++ [t] }
  | letsIn (h : v.spot t = .runs .letIn) :
      RoomStep t v { (v.wake v.door).goto t (.runs .releaseRoom) with door := v.door.tail }
  | vacates (h : v.spot t = .runs .vacate) :
      RoomStep t v { v.goto t (.runs .releaseLineVacant) with current := -1 }

/-- Who is in the stock room, and who is on his way in. -/
inductive Phase (T : Type*)
  | vacant
  | inside (x : T)
  | handing (x y : T)
  | greeting (x y : T)
  | entering (y : T)

/-- What loader `t` may be doing meanwhile. -/
def Phase.Allows (t : T) : Phase T → Duty → Prop
  | .vacant, d => d = .idle ∨ d = .departing ∨ d = .arriving ∨ d = .occupying
  | .inside x, d => if t = x then d = .inside else d = .idle ∨ d = .lining
  | .handing x y, d =>
    if t = x then d = .calling
    else if t = y then d = .returning ∨ d = .arriving ∨ d = .announcing
    else d = .idle ∨ d = .lining
  | .greeting x y, d =>
    if t = x then d = .leaving else if t = y then d = .admitted else d = .idle ∨ d = .lining
  | .entering y, d => if t = y then d = .entering else d = .idle ∨ d = .lining ∨ d = .departing

def Phase.Proper : Phase T → Prop
  | .handing x y | .greeting x y => x ≠ y
  | _ => True

structure Room.In (v : Room T) (ph : Phase T) : Prop where
  proper : ph.Proper
  allows : ∀ t, ph.Allows t (v.spot t).duty
  current : v.current = -1 ↔ ph = .vacant

structure HandOff (v : Room T) : Prop where
  phase : ∃ ph, v.In ph
  exact : (∀ t, ¬ (v.spot t).Counting) → v.count = v.line.length
  ahead : ∀ t, (v.spot t).Counting → v.count = v.line.length + 1
  calls : ∀ t, v.spot t = .runs .callNext → 0 < v.count
  empty : ∀ t, v.spot t = .runs .vacate → v.count ≤ 0

variable {v v' : Room T} {ph : Phase T} {t u x y : T} {s : Spot} {pc : StockRoom}

theorem goto_spot (v : Room T) (t u : T) (s : Spot) :
    (v.goto t s).spot u = if u = t then s else v.spot u := Function.update_apply _ _ _ _

theorem goto_spot_self (v : Room T) (t : T) (s : Spot) : (v.goto t s).spot t = s := by
  rw [goto_spot, if_pos rfl]

theorem goto_spot_of_ne (h : u ≠ t) : (v.goto t s).spot u = v.spot u := by
  rw [goto_spot, if_neg h]

theorem wake_spot (v : Room T) (queue : List T) (u : T) :
    (v.wake queue).spot u = if queue.head? = some u then (v.spot u).wake else v.spot u := rfl

theorem wake_eq_runs : s.wake = .runs pc ↔ s = .runs pc := by
  cases s <;> simp [Spot.wake]

/-- The other loaders stay before the statement where they are, if they are before one. -/
theorem RoomStep.runs_of_ne (h : RoomStep t v v') (hu : u ≠ t) :
    v'.spot u = .runs pc ↔ v.spot u = .runs pc := by
  cases h with
  | wakes _ | callsNext _ | letsIn _ =>
    change ((v.wake _).goto t _).spot u = .runs pc ↔ v.spot u = .runs pc
    rw [goto_spot_of_ne hu, wake_spot]
    split_ifs
    · exact wake_eq_runs
    · exact Iff.rfl
  | _ =>
    change (v.goto t _).spot u = .runs pc ↔ v.spot u = .runs pc
    rw [goto_spot_of_ne hu]

theorem RoomStep.counting_of_ne (h : RoomStep t v v') (hu : u ≠ t) :
    (v'.spot u).Counting ↔ (v.spot u).Counting :=
  or_congr (h.runs_of_ne hu) (h.runs_of_ne hu)

/-! What a duty says about the locks. -/

theorem eq_of_departing (h : s.duty = .departing) :
    s = .runs .releaseLineVacant ∨ s = .runs .releaseRoom := by
  cases s with
  | elsewhere => cases h
  | runs pc => cases pc <;> first | exact .inl rfl | exact .inr rfl | cases h
  | acquiring pc => cases pc <;> cases h
  | waiting pc queued => cases pc <;> cases queued <;> cases h

theorem hasRoom_of_departing (h : s.duty = .departing) : s.hasRoom := by
  rcases eq_of_departing h with rfl | rfl <;> rfl

theorem hasLine_of_arriving (h : s.duty = .arriving) : s.hasLine := by
  cases s with
  | elsewhere => cases h
  | runs pc => cases pc <;> first | rfl | cases h
  | acquiring pc => cases pc <;> first | rfl | cases h
  | waiting pc queued => cases pc <;> cases queued <;> cases h

theorem hasLine_of_occupying (h : s.duty = .occupying) : s.hasLine := by
  cases s with
  | elsewhere => cases h
  | runs pc => cases pc <;> first | rfl | cases h
  | acquiring pc => cases pc <;> cases h
  | waiting pc queued => cases pc <;> cases queued <;> cases h

/-- The loader at the door is the only one who is being relieved without the room's lock. -/
theorem eq_waiting_of_calling (h : s.duty = .calling) (hr : ¬ s.hasRoom) :
    s = .waiting .letIn true := by
  cases s with
  | elsewhere => cases h
  | runs pc => cases pc <;> first | exact absurd rfl hr | cases h
  | acquiring pc => cases pc <;> cases h
  | waiting pc queued => cases pc <;> cases queued <;> first | rfl | cases h

theorem eq_waiting_of_admitted (h : s.duty = .admitted) (hr : ¬ s.hasRoom) :
    s = .waiting .releaseLine true := by
  cases s with
  | elsewhere => cases h
  | runs pc => cases pc <;> first | exact absurd rfl hr | cases h
  | acquiring pc => cases pc <;> cases h
  | waiting pc queued => cases pc <;> cases queued <;> first | rfl | cases h

theorem eq_waiting_of_lining (h : s.duty = .lining) (hl : ¬ s.hasLine) :
    s = .waiting .acquireRoom true := by
  cases s with
  | elsewhere => cases h
  | runs pc => cases pc <;> first | exact absurd rfl hl | cases h
  | acquiring pc => cases pc <;> cases h
  | waiting pc queued => cases pc <;> cases queued <;> first | rfl | cases h

theorem eq_of_leaving (h : s.duty = .leaving) :
    s = .runs .letIn ∨ s = .acquiring .letIn ∨ s = .waiting .letIn false := by
  cases s with
  | elsewhere => cases h
  | runs pc => cases pc <;> first | exact .inl rfl | cases h
  | acquiring pc => cases pc <;> first | exact .inr (.inl rfl) | cases h
  | waiting pc queued => cases pc <;> cases queued <;> first | exact .inr (.inr rfl) | cases h

/-- The loader is not asleep in a queue of the hand-off. -/
def Spot.Awake : Spot → Prop
  | .runs _ | .acquiring _ | .waiting _ false => True
  | _ => False

theorem awake_of_duty (hidle : s.duty ≠ .idle) (hlining : s.duty ≠ .lining)
    (hcalling : s.duty ≠ .calling) (hadmitted : s.duty ≠ .admitted) : s.Awake := by
  cases s with
  | elsewhere => exact absurd rfl hidle
  | runs pc | acquiring pc => trivial
  | waiting pc queued =>
    cases queued with
    | false => trivial
    | true =>
      cases pc <;>
        first
          | exact absurd rfl hidle
          | exact absurd rfl hlining
          | exact absurd rfl hcalling
          | exact absurd rfl hadmitted

theorem Spot.Counting.hasLine (h : s.Counting) : s.hasLine := by
  rcases h with rfl | rfl <;> rfl

theorem Spot.Counting.duty (h : s.Counting) : s.duty = .lining ∨ s.duty = .calling := by
  rcases h with rfl | rfl
  · exact .inl rfl
  · exact .inr rfl

/-! The phases. -/

theorem Phase.eq_inside (h : ph.Allows t .inside) : ph = .inside t := by
  cases ph <;> grind [Phase.Allows]

theorem Phase.eq_entering (h : ph.Allows t .entering) : ph = .entering t := by
  cases ph <;> grind [Phase.Allows]

theorem Phase.eq_vacant (h : ph.Allows t .occupying) : ph = .vacant := by
  cases ph <;> grind [Phase.Allows]

theorem Phase.eq_greeting (h : ph.Allows t .leaving) : ∃ y, ph = .greeting t y := by
  cases ph <;> grind [Phase.Allows]

theorem Phase.eq_handing (h : ph.Allows t .announcing) : ∃ x, ph = .handing x t := by
  cases ph <;> grind [Phase.Allows]

theorem Phase.eq_of_admitted (h : ph.Allows t .admitted) : ∃ x, ph = .greeting x t := by
  cases ph <;> grind [Phase.Allows]

theorem Phase.arrives (h : ph.Allows t .returning) : ph.Allows t .arriving := by
  cases ph <;> grind [Phase.Allows]

theorem Phase.lines (h : ph.Allows t .idle) (hv : ph ≠ .vacant) : ph.Allows t .lining := by
  cases ph <;> grind [Phase.Allows]

theorem Phase.announces (h : ph.Allows t .arriving) (hv : ph ≠ .vacant) :
    ph.Allows t .announcing := by
  cases ph <;> grind [Phase.Allows]

theorem Phase.goes (h : ph.Allows t .departing) : ph.Allows t .idle := by
  cases ph <;> grind [Phase.Allows]

/-- The duties of a loader who has entered. -/
def Duty.Within (d : Duty) : Prop := d = .inside ∨ d = .calling ∨ d = .leaving ∨ d = .departing

/-- One loader is in the stock room. -/
theorem Room.In.alone (h : v.In ph) (ho : Orderly v) (ht : (v.spot t).duty.Within)
    (hu : (v.spot u).duty.Within) : t = u := by
  by_cases hboth : (v.spot t).duty = .departing ∧ (v.spot u).duty = .departing
  · exact ho.room_holder t u (hasRoom_of_departing hboth.1) (hasRoom_of_departing hboth.2)
  · have hallowst := h.allows t
    have hallowsu := h.allows u
    unfold Duty.Within at ht hu
    cases ph <;> grind [Phase.Allows]

/-- While the room is in use somebody in the hand-off is awake. -/
theorem Room.In.exists_awake (h : v.In ph) (hph : ph ≠ .vacant) : ∃ t, (v.spot t).Awake := by
  cases ph with
  | vacant => exact absurd rfl hph
  | inside x =>
    have hx : (v.spot x).duty = .inside := by simpa [Phase.Allows] using h.allows x
    exact ⟨x, awake_of_duty (by simp [hx]) (by simp [hx]) (by simp [hx]) (by simp [hx])⟩
  | handing x y =>
    have hne : y ≠ x := Ne.symm h.proper
    have hy := h.allows y
    simp only [Phase.Allows, if_neg hne, ↓reduceIte] at hy
    refine ⟨y, ?_⟩
    rcases hy with hy | hy | hy <;>
      exact awake_of_duty (by simp [hy]) (by simp [hy]) (by simp [hy]) (by simp [hy])
  | greeting x y =>
    have hx : (v.spot x).duty = .leaving := by simpa [Phase.Allows] using h.allows x
    exact ⟨x, awake_of_duty (by simp [hx]) (by simp [hx]) (by simp [hx]) (by simp [hx])⟩
  | entering y =>
    have hy : (v.spot y).duty = .entering := by simpa [Phase.Allows] using h.allows y
    exact ⟨y, awake_of_duty (by simp [hy]) (by simp [hy]) (by simp [hy]) (by simp [hy])⟩

theorem Room.In.congr (h : v.In ph) (hs : ∀ u, ph.Allows u (v'.spot u).duty)
    (hc : v'.current = -1 ↔ v.current = -1) : v'.In ph :=
  ⟨h.proper, hs, hc.trans h.current⟩

/-- Loader `t` changes his place within the phase. -/
theorem Room.In.goto (h : v.In ph) (hs : ph.Allows t s.duty) (u : T) :
    ph.Allows u ((v.goto t s).spot u).duty := by
  rw [goto_spot]
  split_ifs with hu
  · rw [hu]
    exact hs
  · exact h.allows u

theorem Room.In.duty (h : v.In ph) (hs : v.spot t = s) : ph.Allows t s.duty := hs ▸ h.allows t

/-- Nobody is in line while the count is not positive and no loader is counting. -/
theorem HandOff.line_eq_nil (h : HandOff v) (hc : v.count ≤ 0)
    (hnone : ∀ u, ¬ (v.spot u).Counting) : v.line = [] := by
  have := h.exact hnone
  exact List.eq_nil_of_length_eq_zero (by omega)

omit [DecidableEq T] in
/-- The holder of the line's lock is the only one who may be counting. -/
theorem Orderly.not_counting (ho : Orderly v) (ht : (v.spot t).hasLine)
    (hnot : ¬ (v.spot t).Counting) (u : T) : ¬ (v.spot u).Counting := by
  intro hu
  obtain rfl := ho.line_holder t u ht hu.hasLine
  exact hnot hu

theorem not_counting_runs (h1 : pc ≠ .waitInLine) (h2 : pc ≠ .uncountNext) :
    ¬ (Spot.runs pc).Counting := by
  rintro (h | h)
  · exact h1 (Spot.runs.inj h)
  · exact h2 (Spot.runs.inj h)

/-- A loader finds somebody inside or in line only while the room is in use. -/
theorem HandOff.not_vacant (h : HandOff v) (ho : Orderly v) (hin : v.In ph)
    (ht : v.spot t = .runs .lineNeeded) (hc : v.current ≠ -1 ∨ 0 < v.count) : ph ≠ .vacant := by
  rintro rfl
  have hcur := hin.current.mpr rfl
  have hpos : 0 < v.count := hc.resolve_left fun h => h hcur
  have hexact := h.exact (ho.not_counting (t := t) (by rw [ht]; rfl)
    (by rw [ht]; exact not_counting_runs (by simp) (by simp)))
  obtain ⟨u, hu⟩ : ∃ u, u ∈ v.line := List.exists_mem_of_length_pos (by omega)
  have hduty := hin.duty ((ho.line u).mp hu)
  simp [Phase.Allows, Spot.duty] at hduty

/-- Loader `t` moves on by himself. -/
theorem HandOff.goes (h : HandOff v) (ho : Orderly v) (ho' : Orderly (v.goto t s))
    (hs : Goes v.current v.count (v.spot t) s) : ∃ ph, (v.goto t s).In ph := by
  obtain ⟨ph, hin⟩ := h.phase
  have ht := hin.allows t
  generalize hspot : v.spot t = s₀ at hs ht
  have hstays : ph.Allows t s.duty → ∃ ph, (v.goto t s).In ph := fun hd =>
    ⟨ph, hin.congr (hin.goto hd) Iff.rfl⟩
  cases hs with
  | @granted pc hpc =>
    simp only [acquired, List.mem_cons, List.not_mem_nil, or_false] at hpc
    rcases hpc with rfl | rfl | rfl | rfl | rfl | rfl
    · exact hstays ht
    · exact hstays (Phase.arrives ht)
    · exact hstays ht
    · -- the newcomer is inside now
      obtain rfl := Phase.eq_entering ht
      refine ⟨.inside t, trivial, fun u => ?_, iff_of_false (fun hc => ?_) (by simp)⟩
      · by_cases hu : u = t
        · rw [hu, goto_spot_self]
          simp [Phase.Allows, Spot.duty]
        · have hother := hin.allows u
          rw [goto_spot_of_ne hu]
          simp only [Phase.Allows, if_neg hu] at hother ⊢
          rcases hother with hidle | hlining | hdeparting
          · exact .inl hidle
          · exact .inr hlining
          · refine absurd (ho'.room_holder u t ?_ ?_) hu
            · rw [goto_spot_of_ne hu]
              exact hasRoom_of_departing hdeparting
            · rw [goto_spot_self]
              rfl
      · simpa using hin.current.mp hc
    · exact hstays ht
    · exact hstays ht
  | lines hc => exact hstays (Phase.lines ht (h.not_vacant ho hin hspot hc))
  | goesIn hc =>
    obtain rfl := hin.current.mp hc
    exact hstays (.inr (.inr (.inl rfl)))
  | woken hpc =>
    simp only [awaited, List.mem_cons, List.not_mem_nil, or_false] at hpc
    rcases hpc with rfl | rfl | rfl <;> exact hstays ht
  | finds hc => exact hstays (Phase.announces ht fun hv => hc (hin.current.mpr hv))
  | findsNobody hc =>
    obtain rfl := hin.current.mp hc
    exact hstays (.inr (.inr (.inr rfl)))
  | goes => exact hstays (Phase.goes ht)
  | _ => exact hstays ht

/-- The first loader in an empty room. -/
theorem HandOff.occupies (h : HandOff v) (ho : Orderly v) (ht : v.spot t = .runs .occupy) :
    ∀ u, (Phase.inside t).Allows u ((v.goto t (.runs .releaseLine)).spot u).duty := by
  obtain ⟨ph, hin⟩ := h.phase
  obtain rfl := Phase.eq_vacant (hin.duty ht)
  have hline : (v.spot t).hasLine := by
    rw [ht]
    rfl
  have hroom : (v.spot t).hasRoom := by
    rw [ht]
    rfl
  intro u
  by_cases hu : u = t
  · rw [hu, goto_spot_self]
    simp [Phase.Allows, Spot.duty]
  · rw [goto_spot_of_ne hu]
    simp only [Phase.Allows, if_neg hu]
    rcases hin.allows u with hidle | hdeparting | harriving | hoccupying
    · exact .inl hidle
    · exact absurd (ho.room_holder u t (hasRoom_of_departing hdeparting) hroom) hu
    · exact absurd (ho.line_holder u t (hasLine_of_arriving harriving) hline) hu
    · exact absurd (ho.line_holder u t (hasLine_of_occupying hoccupying) hline) hu

/-- With nobody in line the room is vacant after the loader inside. -/
theorem HandOff.vacates (h : HandOff v) (ho : Orderly v) (ht : v.spot t = .runs .vacate) :
    ∀ u, Phase.vacant.Allows u ((v.goto t (.runs .releaseLineVacant)).spot u).duty := by
  obtain ⟨ph, hin⟩ := h.phase
  obtain rfl := Phase.eq_inside (hin.duty ht)
  have hline : (v.spot t).hasLine := by
    rw [ht]
    rfl
  have hempty : v.line = [] := h.line_eq_nil (h.empty t ht) (ho.not_counting hline (by
    rw [ht]
    exact not_counting_runs (by simp) (by simp)))
  intro u
  by_cases hu : u = t
  · rw [hu, goto_spot_self]
    exact .inr (.inl rfl)
  · have hother := hin.allows u
    rw [goto_spot_of_ne hu]
    simp only [Phase.Allows, if_neg hu] at hother
    rcases hother with hidle | hlining
    · exact .inl hidle
    · have hqueued := eq_waiting_of_lining hlining fun hl => hu (ho.line_holder u t hl hline)
      have hmem := (ho.line u).mpr hqueued
      simp [hempty] at hmem

/-- The loader inside calls the first of the line. -/
theorem HandOff.callsNext (h : HandOff v) (ho : Orderly v) (ht : v.spot t = .runs .callNext) :
    ∃ y, t ≠ y ∧ ∀ u, (Phase.handing t y).Allows u
      (((v.wake v.line).goto t (.runs .uncountNext)).spot u).duty := by
  obtain ⟨ph, hin⟩ := h.phase
  obtain rfl := Phase.eq_inside (hin.duty ht)
  have hexact := h.exact (ho.not_counting (t := t) (by rw [ht]; rfl)
    (by rw [ht]; exact not_counting_runs (by simp) (by simp)))
  have hpos := h.calls t ht
  obtain ⟨y, rest, hline⟩ := List.exists_cons_of_length_pos (l := v.line) (by omega)
  have hy : v.spot y = .waiting .acquireRoom true := (ho.line y).mp (by simp [hline])
  have hne : t ≠ y := by
    rintro rfl
    rw [ht] at hy
    cases hy
  refine ⟨y, hne, fun u => ?_⟩
  by_cases hu : u = t
  · rw [hu, goto_spot_self]
    simp [Phase.Allows, Spot.duty]
  · have hother := hin.allows u
    rw [goto_spot_of_ne hu, wake_spot, hline, List.head?_cons]
    simp only [Phase.Allows, if_neg hu] at hother ⊢
    by_cases huy : u = y
    · simp [huy, hy, Spot.wake, Spot.duty]
    · simpa [huy, Ne.symm huy] using hother

omit [DecidableEq T] in
/-- One loader is at the door. -/
theorem Orderly.door_eq (ho : Orderly v) (hx : x ∈ v.door) (honly : ∀ u ∈ v.door, u = x) :
    v.door = [x] := by
  have hperm : v.door.Perm [x] := by
    refine (List.perm_ext_iff_of_nodup ho.door_nodup (List.nodup_singleton x)).mpr fun u => ?_
    rw [List.mem_singleton]
    exact ⟨honly u, fun hu => hu ▸ hx⟩
  exact List.perm_singleton.mp hperm

/-- The newcomer wakes the loader who waits at the door. -/
theorem HandOff.wakes (h : HandOff v) (ho : Orderly v) (ht : v.spot t = .runs .wakeInside) :
    ∃ x, x ≠ t ∧ ∀ u, (Phase.greeting x t).Allows u
      (((v.wake v.door).goto t (.runs .waitAdmitted)).spot u).duty := by
  obtain ⟨ph, hin⟩ := h.phase
  obtain ⟨x, rfl⟩ := Phase.eq_handing (hin.duty ht)
  have hne : x ≠ t := hin.proper
  have hx : v.spot x = .waiting .letIn true := by
    refine eq_waiting_of_calling (by simpa [Phase.Allows] using hin.allows x) fun hr => ?_
    exact hne (ho.room_holder x t hr (by rw [ht]; rfl))
  have hdoor : v.door = [x] := by
    refine ho.door_eq ((ho.door x).mpr (.inr hx)) fun u hu => ?_
    by_contra hux
    have hduty := hin.allows u
    rcases (ho.door u).mp hu with hs | hs <;> rw [hs] at hduty <;>
      simp [Phase.Allows, Spot.duty, hux] at hduty
  refine ⟨x, hne, fun u => ?_⟩
  by_cases hu : u = t
  · rw [hu, goto_spot_self]
    simp [Phase.Allows, Spot.duty, hne.symm]
  · have hother := hin.allows u
    rw [goto_spot_of_ne hu, wake_spot, hdoor, List.head?_cons]
    by_cases hux : u = x
    · simp [Phase.Allows, hux, hx, Spot.wake, Spot.duty]
    · simpa [Phase.Allows, hu, hux, Ne.symm hux] using hother

/-- The loader who leaves wakes the newcomer. -/
theorem HandOff.letsIn (h : HandOff v) (ho : Orderly v) (ht : v.spot t = .runs .letIn) :
    ∃ y, ∀ u, (Phase.entering y).Allows u
      (((v.wake v.door).goto t (.runs .releaseRoom)).spot u).duty := by
  obtain ⟨ph, hin⟩ := h.phase
  obtain ⟨y, rfl⟩ := Phase.eq_greeting (hin.duty ht)
  have hne : t ≠ y := hin.proper
  have hy : v.spot y = .waiting .releaseLine true := by
    refine eq_waiting_of_admitted (by simpa [Phase.Allows, hne.symm] using hin.allows y)
      fun hr => ?_
    exact hne.symm (ho.room_holder y t hr (by rw [ht]; rfl))
  have hdoor : v.door = [y] := by
    refine ho.door_eq ((ho.door y).mpr (.inl hy)) fun u hu => ?_
    by_contra huy
    have hduty := hin.allows u
    rcases (ho.door u).mp hu with hs | hs
    · rw [hs] at hduty
      have hut : u ≠ t := by
        rintro rfl
        rw [ht] at hs
        cases hs
      simp [Phase.Allows, Spot.duty, huy, hut] at hduty
    · rw [hs] at hduty
      by_cases hut : u = t <;> simp [Phase.Allows, Spot.duty, huy, hut] at hduty
  refine ⟨y, fun u => ?_⟩
  by_cases hu : u = t
  · rw [hu, goto_spot_self]
    simp [Phase.Allows, Spot.duty, hne]
  · have hother := hin.allows u
    rw [goto_spot_of_ne hu, wake_spot, hdoor, List.head?_cons]
    by_cases huy : u = y
    · simp [Phase.Allows, huy, hy, Spot.wake, Spot.duty]
    · simp only [Phase.Allows, if_neg hu, if_neg huy] at hother
      have hnot : ¬ some y = some u := by simpa using Ne.symm huy
      rw [if_neg hnot, Phase.Allows, if_neg huy]
      exact hother.imp id .inl

/-- The room stays in use. -/
theorem Room.In.in_use {ph' : Phase T} (h : v.In ph) (hph : ph ≠ .vacant)
    (hc : v'.current = v.current) (hph' : ph' ≠ .vacant) : v'.current = -1 ↔ ph' = .vacant := by
  rw [hc, h.current]
  exact iff_of_false hph hph'

/-- The phase after a step. -/
theorem HandOff.phase_step (h : HandOff v) (ho : Orderly v) (ho' : Orderly v')
    (hs : RoomStep t v v') : ∃ ph, v'.In ph := by
  obtain ⟨ph, hin⟩ := h.phase
  -- the loader stays within the phase, and so does the room
  have hstays : ∀ {w : Room T} {s : Spot}, w.spot = (v.goto t s).spot → w.current = v.current →
      s.duty = (v.spot t).duty → ∃ ph, w.In ph := by
    intro w s hw hc hd
    refine ⟨ph, hin.congr (fun u => ?_) (by rw [hc])⟩
    rw [hw]
    exact hin.goto (hd ▸ hin.allows t) u
  cases hs with
  | goes hg => exact h.goes ho ho' hg
  | counts ht | lines ht | waitsInside ht | uncounts ht | waitsAtDoor ht =>
    exact hstays rfl rfl (by rw [ht]; rfl)
  | @announces myID ht =>
    have hduty : ph.Allows t .announcing := hin.duty ht
    obtain ⟨x, rfl⟩ := Phase.eq_handing hduty
    refine ⟨.handing x t, hin.proper, hin.goto hduty, iff_of_false ?_ (by simp)⟩
    change (myID : ℤ) ≠ -1
    omega
  | wakes ht =>
    obtain ⟨x, hne, hallows⟩ := h.wakes ho ht
    obtain ⟨x', rfl⟩ := Phase.eq_handing (hin.duty ht)
    exact ⟨.greeting x t, hne, hallows, hin.in_use (by simp) rfl (by simp)⟩
  | @occupies myID ht =>
    refine ⟨.inside t, trivial, h.occupies ho ht, iff_of_false ?_ (by simp)⟩
    change (myID : ℤ) ≠ -1
    omega
  | callsNext ht =>
    obtain ⟨y, hne, hallows⟩ := h.callsNext ho ht
    obtain rfl := Phase.eq_inside (hin.duty ht)
    exact ⟨.handing t y, hne, hallows, hin.in_use (by simp) rfl (by simp)⟩
  | letsIn ht =>
    obtain ⟨y, hallows⟩ := h.letsIn ho ht
    obtain ⟨y', rfl⟩ := Phase.eq_greeting (hin.duty ht)
    exact ⟨.entering y, trivial, hallows, hin.in_use (by simp) rfl (by simp)⟩
  | vacates ht => exact ⟨.vacant, trivial, h.vacates ho ht, iff_of_true rfl rfl⟩

/-! The count of the line. -/

/-- A step that leaves count and line alone, of a loader who is not counting. -/
theorem HandOff.exact_step (h : HandOff v) (hs : RoomStep t v v') (hc : v'.count = v.count)
    (hl : v'.line = v.line) (hbefore : ¬ (v.spot t).Counting) (hafter : ¬ (v'.spot t).Counting) :
    ((∀ u, ¬ (v'.spot u).Counting) → v'.count = v'.line.length) ∧
      ∀ u, (v'.spot u).Counting → v'.count = v'.line.length + 1 := by
  rw [hc, hl]
  constructor
  · intro hnone
    refine h.exact fun u hu => ?_
    by_cases hut : u = t
    · exact hbefore (hut ▸ hu)
    · exact hnone u ((hs.counting_of_ne hut).mpr hu)
  · intro u hu
    by_cases hut : u = t
    · exact absurd (hut ▸ hu) hafter
    · exact h.ahead u ((hs.counting_of_ne hut).mp hu)

theorem Goes.not_counting {current count : ℤ} {s s' : Spot} (h : Goes current count s s') :
    ¬ s.Counting ∧ ¬ s'.Counting := by
  unfold Spot.Counting
  cases h with
  | granted hpc =>
    simp only [acquired, List.mem_cons, List.not_mem_nil, or_false] at hpc
    rcases hpc with rfl | rfl | rfl | rfl | rfl | rfl <;> simp
  | _ => simp

/-- While loader `t` holds the line's lock no other one counts, and none begins to. -/
theorem RoomStep.others_not_counting (hs : RoomStep t v v') (ho : Orderly v)
    (ht : (v.spot t).hasLine) (hu : u ≠ t) : ¬ (v'.spot u).Counting := by
  rw [hs.counting_of_ne hu]
  exact fun hc => hu (ho.line_holder u t hc.hasLine ht)

/-- The holder of the line's lock changes count and line. -/
theorem RoomStep.counted (hs : RoomStep t v v') (ho : Orderly v) (ht : (v.spot t).hasLine)
    (hexact : ¬ (v'.spot t).Counting → v'.count = v'.line.length)
    (hahead : (v'.spot t).Counting → v'.count = v'.line.length + 1) :
    ((∀ u, ¬ (v'.spot u).Counting) → v'.count = v'.line.length) ∧
      ∀ u, (v'.spot u).Counting → v'.count = v'.line.length + 1 := by
  refine ⟨fun hnone => hexact (hnone t), fun u hu => ?_⟩
  by_cases hut : u = t
  · exact hahead (hut ▸ hu)
  · exact absurd hu (hs.others_not_counting ho ht hut)

theorem HandOff.count_step (h : HandOff v) (ho : Orderly v) (hs : RoomStep t v v') :
    ((∀ u, ¬ (v'.spot u).Counting) → v'.count = v'.line.length) ∧
      ∀ u, (v'.spot u).Counting → v'.count = v'.line.length + 1 := by
  have hstep := hs
  cases hs with
  | goes hg =>
    refine h.exact_step hstep rfl rfl hg.not_counting.1 ?_
    rw [goto_spot_self]
    exact hg.not_counting.2
  | counts ht =>
    have hline : (v.spot t).hasLine := by rw [ht]; rfl
    have hexact := h.exact (ho.not_counting hline (by
      rw [ht]
      exact not_counting_runs (by simp) (by simp)))
    refine hstep.counted ho hline (fun hnot => absurd ?_ hnot) fun _ => ?_
    · exact .inl (goto_spot_self ..)
    · change v.count + 1 = v.line.length + 1
      rw [hexact]
  | lines ht =>
    have hline : (v.spot t).hasLine := by rw [ht]; rfl
    have hahead := h.ahead t (.inl ht)
    refine hstep.counted ho hline (fun _ => ?_) fun hcounts => ?_
    · change v.count = ((v.line ++ [t]).length : ℤ)
      simpa using hahead
    · rcases hcounts with hc | hc <;> cases (goto_spot_self v t _).symm.trans hc
  | callsNext ht =>
    have hline : (v.spot t).hasLine := by rw [ht]; rfl
    have hexact := h.exact (ho.not_counting hline (by
      rw [ht]
      exact not_counting_runs (by simp) (by simp)))
    have hpos := h.calls t ht
    refine hstep.counted ho hline (fun hnot => absurd ?_ hnot) fun _ => ?_
    · exact .inr (goto_spot_self ..)
    · change (v.wake v.line).count = (v.line.tail.length : ℤ) + 1
      rw [List.length_tail]
      change v.count = _
      omega
  | uncounts ht =>
    have hline : (v.spot t).hasLine := by rw [ht]; rfl
    have hahead := h.ahead t (.inr ht)
    refine hstep.counted ho hline (fun _ => ?_) fun hcounts => ?_
    · change v.count - 1 = v.line.length
      omega
    · rcases hcounts with hc | hc <;> cases (goto_spot_self v t _).symm.trans hc
  | announces ht | waitsInside ht | occupies ht | waitsAtDoor ht | vacates ht =>
    refine h.exact_step hstep rfl rfl ?_ ?_
    · rw [ht]
      exact not_counting_runs (by simp) (by simp)
    · rintro (hc | hc) <;> cases (goto_spot_self v t _).symm.trans hc
  | wakes ht | letsIn ht =>
    refine h.exact_step hstep rfl rfl ?_ ?_
    · rw [ht]
      exact not_counting_runs (by simp) (by simp)
    · rintro (hc | hc) <;> cases (goto_spot_self (v.wake v.door) t _).symm.trans hc

/-- The count changes only under the line's lock. -/
theorem RoomStep.count_of_not_hasLine (hs : RoomStep t v v') (ht : ¬ (v.spot t).hasLine) :
    v'.count = v.count := by
  cases hs with
  | counts h | uncounts h => exact absurd (by rw [h]; rfl) ht
  | _ => rfl

/-- A loader who has just read the count goes on by what he has read. -/
theorem RoomStep.read (hs : RoomStep t v v') :
    (v'.spot t = .runs .callNext → 0 < v'.count) ∧ (v'.spot t = .runs .vacate → v'.count ≤ 0) := by
  cases hs with
  | @goes s hg =>
    rw [goto_spot_self]
    generalize v.spot t = s₀ at hg
    cases hg with
    | calls hpos => exact ⟨fun _ => hpos, by simp⟩
    | empties hzero => exact ⟨by simp, fun _ => hzero⟩
    | granted hpc =>
      simp only [acquired, List.mem_cons, List.not_mem_nil, or_false] at hpc
      rcases hpc with rfl | rfl | rfl | rfl | rfl | rfl <;> simp
    | _ => simp
  | wakes _ | callsNext _ | letsIn _ =>
    change (((v.wake _).goto t _).spot t = _ → _) ∧ (((v.wake _).goto t _).spot t = _ → _)
    simp [goto_spot_self]
  | _ =>
    change ((v.goto t _).spot t = _ → _) ∧ ((v.goto t _).spot t = _ → _)
    simp [goto_spot_self]

/-- What the holder of the line's lock has read stays true. -/
theorem HandOff.read_step (h : HandOff v) (ho : Orderly v) (hs : RoomStep t v v') :
    (∀ u, v'.spot u = .runs .callNext → 0 < v'.count) ∧
      ∀ u, v'.spot u = .runs .vacate → v'.count ≤ 0 := by
  have hsame : ∀ u pc, u ≠ t → pc.hasLine → v.spot u = .runs pc → v'.count = v.count := by
    intro u pc hu hpc hspot
    refine hs.count_of_not_hasLine fun ht => hu (ho.line_holder u t ?_ ht)
    rw [hspot]
    exact hpc
  constructor
  · intro u hu
    by_cases hut : u = t
    · exact hs.read.1 (hut ▸ hu)
    · have hbefore := (hs.runs_of_ne hut).mp hu
      rw [hsame u .callNext hut rfl hbefore]
      exact h.calls u hbefore
  · intro u hu
    by_cases hut : u = t
    · exact hs.read.2 (hut ▸ hu)
    · have hbefore := (hs.runs_of_ne hut).mp hu
      rw [hsame u .vacate hut rfl hbefore]
      exact h.empty u hbefore

theorem HandOff.step (h : HandOff v) (ho : Orderly v) (ho' : Orderly v')
    (hs : RoomStep t v v') : HandOff v' :=
  ⟨h.phase_step ho ho' hs, (h.count_step ho hs).1, (h.count_step ho hs).2,
    (h.read_step ho hs).1, (h.read_step ho hs).2⟩

end Nachos.Supermarket
