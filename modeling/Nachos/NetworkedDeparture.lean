import Nachos.LostUpdates
import Nachos.NetworkedVariables

/-! `test/customer.c`: a customer who leaves does `SetMV(customersDone, 0, GetMV(customersDone, 0)
+ 1)` under no lock, and `test/manager.c` closes the store when the count is that of all
customers. The messages of any number of customers at a lone server. -/
namespace Nachos.Networked
open Executions LostUpdates

/-- Where a customer is, with what the server has told him. -/
inductive Stage
  | shopping
  /-- GET_MV is on its way to the server -/
  | asks
  /-- the reply is on its way back -/
  | told (done : ℤ)
  /-- SET_MV of one more is on its way to the server -/
  | writes (done : ℤ)
  /-- the reply is on its way back -/
  | written
  | left
  deriving DecidableEq, Repr

structure Store (C : Type*) where
  market : Market
  stage : C → Stage

inductive Departure (C : Type*)
  | ask (c : C)
  | serveGet (c : C)
  | receiveGet (c : C)
  | serveSet (c : C)
  | receiveSet (c : C)
  /-- a request of another program, or of a customer elsewhere in his program -/
  | serveOther (market : Market)

variable {C : Type*} [DecidableEq C]

def Store.goto (g : Store C) (c : C) (stage : Stage) : Store C :=
  { g with stage := Function.update g.stage c stage }

/-- What others ask of the server leaves `customersDone` alone. -/
def perform (g : Store C) : Departure C → Option (Store C)
  | .ask c => if g.stage c = .shopping then some (g.goto c .asks) else none
  | .serveGet c =>
    if g.stage c = .asks then some (g.goto c (.told (g.market.get .customersDone 0))) else none
  | .receiveGet c =>
    match g.stage c with
    | .told done => some (g.goto c (.writes done))
    | _ => none
  | .serveSet c =>
    match g.stage c with
    | .writes done =>
      some (Store.goto { g with market := g.market.set .customersDone 0 (done + 1) } c .written)
    | _ => none
  | .receiveSet c => if g.stage c = .written then some (g.goto c .left) else none
  | .serveOther market =>
    if market.get .customersDone 0 = g.market.get .customersDone 0 then some { g with market }
    else none

/-- The store opens, and all customers are in it or still to come. -/
def opening : Store C := ⟨openingMarket, fun _ => .shopping⟩

abbrev Departs (g : Store C) (e : Departure C) (g' : Store C) : Prop := perform g e = some g'

/-- The count as it should be. -/
def departed [Fintype C] (g : Store C) : ℕ := (Finset.univ.filter fun c => g.stage c = .left).card

/-- No customer is in his increment section. -/
def Quiet (g : Store C) : Prop := ∀ c, g.stage c = .shopping ∨ g.stage c = .left

/-- The server has answered the customer's GET_MV, and not yet carried out his SET_MV. -/
def Between (g : Store C) (c : C) : Prop := ∃ done, g.stage c = .told done ∨ g.stage c = .writes done

/-- The server carries out no GET_MV of a customer while another is between his two messages. -/
def ServesAlone (x : Transition (Store C) (Departure C)) : Prop :=
  ∀ c, x.event = .serveGet c → ∀ d, ¬ Between x.before d

/-! The counter behind it. -/

def Stage.read : Stage → Option ℤ
  | .told done | .writes done => some done
  | _ => none

def Stage.Executed (stage : Stage) : Prop := stage = .written ∨ stage = .left

instance : DecidablePred Stage.Executed := fun _ => inferInstanceAs (Decidable (_ ∨ _))

def executed [Fintype C] (g : Store C) : ℕ := (Finset.univ.filter fun c => (g.stage c).Executed).card

def counter [Fintype C] (g : Store C) : Counter C :=
  ⟨g.market.get .customersDone 0, executed g, fun c => (g.stage c).read⟩

def Departure.event : Departure C → Event C
  | .serveGet c => .read c
  | .serveSet c => .write c
  | _ => .idle

section
variable {g g' : Store C} {c d : C} {stage : Stage} {e : Departure C}

@[simp] theorem goto_stage :
    (g.goto c stage).stage d = if d = c then stage else g.stage d := Function.update_apply _ _ _ _

@[simp] theorem goto_market : (g.goto c stage).market = g.market := rfl

theorem inRange_done : Market.InRange .customersDone 0 := by decide +kernel

omit [DecidableEq C] in
theorem between_iff : Between g c ↔ (g.stage c).read ≠ none := by
  unfold Between
  cases g.stage c <;> simp [Stage.read]

variable [Fintype C]

theorem executed_goto (g : Store C) (c : C) (stage : Stage) :
    executed (g.goto c stage) + (if (g.stage c).Executed then 1 else 0) =
      executed g + if stage.Executed then 1 else 0 := by
  have hrest : ∑ d ∈ Finset.univ.erase c, (if ((g.goto c stage).stage d).Executed then 1 else 0) =
      ∑ d ∈ Finset.univ.erase c, if (g.stage d).Executed then 1 else 0 := by
    refine Finset.sum_congr rfl fun d hd => ?_
    rw [goto_stage, if_neg (Finset.ne_of_mem_erase hd)]
  have hself : (g.goto c stage).stage c = stage := by simp
  rw [executed, executed, Finset.card_filter, Finset.card_filter,
    ← Finset.add_sum_erase _ _ (Finset.mem_univ c), hrest, hself,
    ← Finset.add_sum_erase _ (fun d => if (g.stage d).Executed then 1 else 0) (Finset.mem_univ c)]
  omega

/-- A stage with the same number in hand, after as many increments. -/
theorem counter_goto (hread : stage.read = (g.stage c).read)
    (hexecuted : stage.Executed ↔ (g.stage c).Executed) : counter (g.goto c stage) = counter g := by
  have hcount := executed_goto g c stage
  simp only [hexecuted] at hcount
  refine Counter.ext rfl ?_ (funext fun d => ?_)
  · change (executed (g.goto c stage) : ℤ) = executed g
    omega
  · change ((g.goto c stage).stage d).read = (g.stage d).read
    rw [goto_stage]
    split_ifs with hd
    · rw [hd, hread]
    · rfl

/-- The counter runs along with the messages. -/
theorem perform_counter (h : Departs g e g') : Step (counter g) e.event (counter g') := by
  cases e with
  | ask c =>
    obtain ⟨hstage, hsome⟩ := Option.ite_none_right_eq_some.mp h
    obtain rfl := Option.some.inj hsome
    rw [counter_goto (by simp [hstage, Stage.read]) (by simp [hstage, Stage.Executed])]
    exact .idle
  | serveGet c =>
    obtain ⟨hstage, hsome⟩ := Option.ite_none_right_eq_some.mp h
    obtain rfl := Option.some.inj hsome
    have hcount := executed_goto g c (.told (g.market.get .customersDone 0))
    have hnone : (counter g).read c = none := by simp [counter, hstage, Stage.read]
    have hnext : counter (g.goto c (.told (g.market.get .customersDone 0))) = (counter g).reads c := by
      refine Counter.ext rfl ?_ (funext fun d => ?_)
      · simp only [hstage, Stage.Executed, reduceCtorEq, or_self, if_false] at hcount
        change (executed (g.goto c _) : ℤ) = executed g
        omega
      · rw [Counter.reads_read]
        change ((g.goto c _).stage d).read = _
        rw [goto_stage]
        split_ifs <;> rfl
    rw [hnext]
    exact .read hnone
  | receiveGet c =>
    simp only [Departs, perform] at h
    cases hstage : g.stage c with
    | told done =>
      rw [hstage] at h
      obtain rfl := Option.some.inj h
      rw [counter_goto (by simp [hstage, Stage.read]) (by simp [hstage, Stage.Executed])]
      exact .idle
    | _ =>
      rw [hstage] at h
      cases h
  | serveSet c =>
    simp only [Departs, perform] at h
    cases hstage : g.stage c with
    | writes done =>
      rw [hstage] at h
      obtain rfl := Option.some.inj h
      have hcount := executed_goto { g with market := g.market.set .customersDone 0 (done + 1) } c
        .written
      have hread : (counter g).read c = some done := by simp [counter, hstage, Stage.read]
      have hnext : counter (Store.goto { g with market := g.market.set .customersDone 0 (done + 1) }
          c .written) = (counter g).writes c done := by
        refine Counter.ext ?_ ?_ (funext fun d => ?_)
        · exact g.market.get_set inRange_done (done + 1)
        · simp only [hstage, Stage.Executed, reduceCtorEq, or_self, or_false, if_true, if_false]
            at hcount
          change (executed (Store.goto _ c _) : ℤ) = executed g + 1
          exact_mod_cast hcount
        · rw [Counter.writes_read]
          change ((Store.goto _ c _).stage d).read = _
          rw [goto_stage]
          split_ifs <;> rfl
      rw [hnext]
      exact .write hread
    | _ =>
      rw [hstage] at h
      cases h
  | receiveSet c =>
    obtain ⟨hstage, hsome⟩ := Option.ite_none_right_eq_some.mp h
    obtain rfl := Option.some.inj hsome
    rw [counter_goto (by simp [hstage, Stage.read]) (by simp [hstage, Stage.Executed])]
    exact .idle
  | serveOther market =>
    obtain ⟨hkeep, hsome⟩ := Option.ite_none_right_eq_some.mp h
    obtain rfl := Option.some.inj hsome
    have hnext : counter { g with market } = counter g := Counter.ext hkeep rfl rfl
    rw [hnext]
    exact .idle

variable {tr : List (Transition (Store C) (Departure C))} {x : Transition (Store C) (Departure C)}

omit [DecidableEq C] in
theorem alone_iff :
    Alone ⟨counter x.before, x.event.event, counter x.after⟩ ↔ ServesAlone x := by
  have hevent : ∀ c, x.event.event = .read c ↔ x.event = .serveGet c := by
    intro c
    cases x.event <;> simp [Departure.event]
  have hread : ∀ d, (counter x.before).read d = none ↔ ¬ Between x.before d := fun d => by
    rw [between_iff, not_not]
    rfl
  simp only [Alone, ServesAlone, hevent, hread]

omit [DecidableEq C] [Fintype C] in
theorem opening_done : (opening : Store C).market.get .customersDone 0 = 0 :=
  Market.openingMarket_get (c := ⟨.customersDone, "customersDone", 1, 0⟩) (by simp [creations])
    (by decide)

omit [DecidableEq C] in
theorem executed_of_quiet (h : Quiet g) : executed g = departed g := by
  unfold executed departed
  congr 1
  refine Finset.filter_congr fun c _ => ?_
  rcases h c with hc | hc <;> simp [hc, Stage.Executed]

/-- At every moment in which no customer is inside, `customersDone` counts the customers who have
left exactly if the server has so far carried out each GET_MV alone; and once all have left the
manager's test holds exactly then. -/
theorem departures_counted_iff (h : Execution Departs (opening : Store C) tr g) (hquiet : Quiet g) :
    (g.market.get .customersDone 0 = departed g ↔ ∀ x ∈ tr, ServesAlone x) ∧
      ((∀ c, g.stage c = .left) →
        (g.market.get .customersDone 0 = Fintype.card C ↔ ∀ x ∈ tr, ServesAlone x)) := by
  have hview : Execution Step (counter opening)
      (tr.map fun x => ⟨counter x.before, x.event.event, counter x.after⟩) (counter g) :=
    h.map (P := fun _ => True) True.intro (fun _ _ _ _ _ => True.intro)
      fun _ _ _ _ hs => perform_counter hs
  have hstart : (counter (opening : Store C)).value = (counter (opening : Store C)).executed := by
    have hzero : executed (opening : Store C) = 0 := by
      simp [executed, opening, Stage.Executed]
    simp only [counter, opening_done, hzero, Nat.cast_zero]
  have hread : ∀ c, (counter g).read c = none := by
    intro c
    rcases hquiet c with hc | hc <;> simp [counter, hc, Stage.read]
  have hexact := exact_iff hview hstart (fun _ => rfl) hread
  have hiff : g.market.get .customersDone 0 = departed g ↔ ∀ x ∈ tr, ServesAlone x := by
    rw [← executed_of_quiet hquiet]
    refine hexact.trans ?_
    simp only [List.forall_mem_map, alone_iff]
  refine ⟨hiff, fun hall => ?_⟩
  have hcard : departed g = Fintype.card C := by
    simp [departed, hall, Finset.card_univ]
  rw [← hcard]
  exact hiff

end

/-- The two messages of a customer, and their replies. -/
def leave {C : Type*} (c : C) : List (Departure C) :=
  [.ask c, .serveGet c, .receiveGet c, .serveSet c, .receiveSet c]

/-- One customer after the other. -/
theorem departures_counted_two : ∃ (tr : List (Transition (Store Bool) (Departure Bool))) (g : Store Bool),
    Execution Departs opening tr g ∧ (∀ c, g.stage c = .left) ∧
      g.market.get .customersDone 0 = Fintype.card Bool ∧ ∀ x ∈ tr, ServesAlone x := by
  obtain ⟨tr, g, hex, -, -, htest⟩ := exists_of_runSteps perform opening (leave true ++ leave false)
    (fun _ _ => true)
    (fun g => (∀ c, g.stage c = .left) ∧ g.market.get .customersDone 0 = Fintype.card Bool)
    (by decide +kernel)
  obtain ⟨hleft, hcount⟩ := of_decide_eq_true htest
  exact ⟨tr, g, hex, hleft, hcount,
    ((departures_counted_iff hex fun c => .inr (hleft c)).2 hleft).mp hcount⟩

/-- Both customers ask before one of them writes. -/
theorem customer_lost : ∃ (tr : List (Transition (Store Bool) (Departure Bool))) (g : Store Bool),
    Execution Departs opening tr g ∧ Quiet g ∧ departed g = 2 ∧
      g.market.get .customersDone 0 = 1 := by
  obtain ⟨tr, g, hex, -, -, htest⟩ := exists_of_runSteps perform opening
    [.ask true, .ask false, .serveGet true, .serveGet false, .receiveGet true, .receiveGet false,
      .serveSet true, .serveSet false, .receiveSet true, .receiveSet false] (fun _ _ => true)
    (fun g => (∀ c, g.stage c = .left) ∧ g.market.get .customersDone 0 = 1) (by decide +kernel)
  obtain ⟨hleft, hone⟩ := of_decide_eq_true htest
  exact ⟨tr, g, hex, fun c => .inr (hleft c), by simp [departed, hleft], hone⟩

end Nachos.Networked
