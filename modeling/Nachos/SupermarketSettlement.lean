import Nachos.SupermarketNegotiation

/-! How the negotiation of `test/supermarket.c` ends: it always does, and then the customer has
paid the price of what is left in his trolley, while the manager holds the rest. -/
namespace Nachos.Supermarket.Negotiation
open Mesa Executions

variable {S H : Type*} {till : Till S H} {deal : Deal H} {s s' : S} {m : Manager} {v : Customer}
  {pc : CustomerStep} {pcm : ManagerStep} {g g' : Exchange S} {i : ℤ} {t : Party}

/-! Where the exchange ends. -/

variable (till deal g) in
/-- Both have left, and the customer has paid for what he keeps. -/
structure Settled (m : Manager) (v : Customer) : Prop extends
    Paid till deal g.shared m v where
  customer : g.control .customer = .runs (.customer v .left)
  manager : g.control .manager = .runs (.manager m .left)
  revenue : till.totalRevenue g.shared = deal.revenue + v.amountOwed

variable (till g) in
/-- Only the cashier can go on, with other customers. -/
def Halted : Prop := ∀ t i, (step lockOf (program till) g t i).isSome → Serves g t

/-- A holder of the lock has a next statement. -/
theorem program_of_holds {p : Place} {l : LockName} (hp : holds p l) (s : S) (t : Party) :
    (program till s t p 0).isSome := by
  cases p with
  | customer v pc => cases pc <;> first | rfl | exact absurd rfl hp
  | manager m pc => cases pc <;> first | rfl | exact absurd rfl hp
  | cashier pc => cases pc <;> first | rfl | simp [holds] at hp

theorem Halted.not_holds (h : Halted till g) {p : Place} {l : LockName} (hp : holds p l) :
    g.control t ≠ .runs p := by
  intro hc
  obtain ⟨-, hserves⟩ := h t 0 (step_of_runs hc (program_of_holds hp _ _))
  obtain rfl := Control.runs.inj (hc.symm.trans hserves)
  simp [holds] at hp

theorem Halted.not_acquiring (h : Halted till g) (hl : LocksRight lockOf holds g) {l : LockName}
    {p : Place} : g.control t ≠ .acquiring l p := by
  intro hc
  rcases hl.exists_owner hc with ⟨u, hu⟩ | ⟨u, q, hu, ho⟩
  · cases hk : g.control u with
    | runs q =>
      rw [hk] at hu
      exact h.not_holds (l := l) hu hk
    | acquiring m q =>
      rw [hk] at hu
      exact hu.1 rfl
    | waiting c q =>
      rw [hk] at hu
      exact hu.1 rfl
  · obtain ⟨-, hserves⟩ := h u 0 (step_of_granted hu ho 0)
    cases hu.symm.trans hserves

theorem Halted.not_signalled (h : Halted till g) (hl : LocksRight lockOf holds g) {p : Place}
    (hq : t ∉ g.waiters .managerCV) : ¬ Signalled g t p := by
  rintro (hc | hc)
  · obtain ⟨-, hserves⟩ := h t 0 (step_of_woken hc hq 0)
    cases hc.symm.trans hserves
  · exact h.not_acquiring hl hc

/-- The exchange can only stop when it is over. -/
theorem Scene.settled (hs : Scene till deal g) (hl : LocksRight lockOf holds g)
    (h : Halted till g) : ∃ m v, Settled till deal g m v := by
  cases hs with
  | telling hq hm hv hc hrevenue hitems =>
    cases hk : g.control .cashier with
    | waiting c p =>
      rw [hk] at hc
      cases hc
    | acquiring l p => exact (h.not_acquiring hl hk).elim
    | runs p =>
      rw [hk] at hc
      have hstep : (step lockOf (program till) g .cashier 0).isSome :=
        step_of_runs hk (by cases hc <;> rfl)
      obtain ⟨-, hserves⟩ := h .cashier 0 hstep
      obtain rfl := Control.runs.inj (hk.symm.trans hserves)
      cases hc
  | @manager m v pc next hq hm hv hk hc =>
    rcases hm with hm | hm
    · refine (h.not_holds (l := .managerLock) ?_ hm).elim
      rintro rfl
      exact hk
    · exact (h.not_signalled hl (by simp [hq]) hm).elim
  | managerWaits hq hm hw hv hk hc => exact (h.not_signalled hl (by simp [hq]) hv).elim
  | @customer m v pc next hq hv hm hk hc =>
    rcases hv with hv | hv
    · refine (h.not_holds (l := .managerLock) ?_ hv).elim
      rintro rfl
      exact hk
    · exact (h.not_signalled hl (by simp [hq]) hv).elim
  | customerWaits hq hv hw hm hk hc => exact (h.not_signalled hl (by simp [hq]) hm).elim
  | @parting m v pc pcv hq hm hpc hv hpcv hrevenue hpaid hc =>
    refine ⟨m, v, hpaid, ?_, ?_, hrevenue⟩
    · rcases hv with hv | hv
      · rcases hpcv with rfl | rfl
        · exact (h.not_holds (l := .managerLock) (by simp [holds]) hv).elim
        · exact hv
      · exact (h.not_signalled hl (by simp [hq]) hv).elim
    · rcases hpc with rfl | rfl
      · exact (h.not_holds (l := .managerLock) (by simp [holds]) hm).elim
      · exact hm

/-! No exchange goes on for ever: what is left to do at each place. -/

/-- Until the customer hands over or keeps the items of his current entry. -/
def CustomerStep.cost (entries : ℕ) : CustomerStep → ℕ
  | .nextItem => 14 + 4 * entries
  | .whileQty => 17 + 4 * (entries - 1)
  | .affordable => 16 + 4 * (entries - 1)
  | .takeOut => 15 + 4 * (entries - 1)
  | .hand => 22 + 4 * (entries - 1)
  | .signalItem => 21 + 4 * (entries - 1)
  | .waitSubtotal => 20 + 4 * (entries - 1)
  | .finish => 13
  | .signalFinish => 12
  | .waitTotal => 11
  | .readTotal => 8
  | .payCash => 7
  | .pay => 6
  | .signalPaid => 5
  | .waitReceipt => 4
  | .release => 1
  | .left => 0

def ManagerStep.cost : ManagerStep → ℕ
  | .readFlag => 19
  | .clearFlag => 18
  | .quote => 17
  | .signalQuote => 16
  | .waitItem => 15
  | .whileItem => 12
  | .subtract => 11
  | .push => 10
  | .total => 9
  | .signalTotal => 8
  | .waitPaid => 7
  | .collect => 4
  | .receipt => 3
  | .signalReceipt => 2
  | .release => 1
  | .left => 0

def CashierStep.cost : CashierStep → ℕ
  | .tellType => 7
  | .tellTotal => 6
  | .acquire => 5
  | .signal => 3
  | .release => 2
  | .serve => 1
  | .left => 0

/-- With `n` items in the trolley at the start. -/
def Place.cost (n : ℕ) : Place → ℕ
  | .customer v pc => pc.cost v.ahead.length + 20 * (content v.trolley).length
  | .manager m pc => pc.cost + 20 * (n - m.removed.length)
  | .cashier pc => pc.cost

def controlCost (n : ℕ) : Control LockName ConditionName Place → ℕ
  | .runs p => p.cost n
  | .acquiring _ p => p.cost n + 1
  | .waiting _ p => p.cost n + 2

def measure (n : ℕ) (g : Exchange S) : ℕ :=
  controlCost n (g.control .customer) + controlCost n (g.control .manager) +
    controlCost n (g.control .cashier)

/-- There is an item to take out, and one that may still be taken back. -/
def Place.Ready (n : ℕ) : Place → Prop
  | .customer v .takeOut => 0 < v.qty
  | .manager m .push => m.removed.length < n
  | _ => True

theorem pass_ahead (v : Customer) : v.pass.ahead.length = v.ahead.length - 1 := by
  obtain ⟨passed, ahead, owed, cash⟩ := v
  cases ahead <;> simp [Customer.pass]

theorem takeOut_ahead (v : Customer) : v.takeOut.ahead.length = v.ahead.length := by
  obtain ⟨passed, ahead, owed, cash⟩ := v
  cases ahead <;> simp [Customer.takeOut]

theorem length_takeOut (h : 0 < v.qty) :
    (content v.trolley).length = (content v.takeOut.trolley).length + 1 := by
  rw [(content_takeOut h).length_eq, List.length_cons]

/-- What a call may add to the work left behind it. -/
def extra : Code S → ℕ
  | .wait .. => 2
  | .acquire .. => 1
  | _ => 0

theorem customerCode_cost {n : ℕ} (hr : (Place.customer v pc).Ready n) {a : Code S}
    (ha : customerCode till s v pc = some a) :
    a.next.cost n + extra a < (Place.customer v pc).cost n := by
  cases pc with
  | nextItem =>
    obtain rfl := Option.some.inj ha
    simp only [Instruction.next, extra, Place.cost]
    split_ifs with hahead
    · simp only [CustomerStep.cost]
      omega
    · have hpos := List.length_pos_of_ne_nil hahead
      simp only [CustomerStep.cost]
      omega
  | whileQty =>
    obtain rfl := Option.some.inj ha
    simp only [Instruction.next, extra]
    split_ifs
    · simp only [Place.cost, CustomerStep.cost]
      omega
    · simp only [Place.cost, CustomerStep.cost, trolley_pass, pass_ahead]
      omega
  | affordable =>
    obtain rfl := Option.some.inj ha
    simp only [Instruction.next, extra]
    split_ifs
    · simp only [Place.cost, CustomerStep.cost, trolley_pass, pass_ahead]
      omega
    · simp only [Place.cost, CustomerStep.cost]
      omega
  | takeOut =>
    obtain rfl := Option.some.inj ha
    have hlen := length_takeOut hr
    simp only [Instruction.next, extra, Place.cost, CustomerStep.cost, takeOut_ahead, hlen]
    omega
  | left => cases ha
  | _ =>
    obtain rfl := Option.some.inj ha
    simp only [Instruction.next, extra, Place.cost, CustomerStep.cost, Customer.trolley]
    omega

theorem managerCode_cost {n : ℕ} (hr : (Place.manager m pcm).Ready n) {a : Code S}
    (ha : managerCode till s m pcm = some a) :
    a.next.cost n + extra a < (Place.manager m pcm).cost n := by
  cases pcm with
  | whileItem =>
    obtain rfl := Option.some.inj ha
    simp only [Instruction.next, extra, Place.cost]
    split_ifs <;> simp only [ManagerStep.cost] <;> omega
  | push =>
    obtain rfl := Option.some.inj ha
    have hlt : m.removed.length < n := hr
    simp only [Instruction.next, extra, Place.cost, ManagerStep.cost, List.length_append,
      List.length_singleton]
    omega
  | left => cases ha
  | _ =>
    obtain rfl := Option.some.inj ha
    simp only [Instruction.next, extra, Place.cost, ManagerStep.cost]
    omega

theorem program_cost {n : ℕ} {p : Place} (hr : p.Ready n) {a : Code S}
    (ha : program till s t p i = some a) : a.next.cost n + extra a < p.cost n := by
  cases p with
  | customer v pc => exact customerCode_cost hr ha
  | manager m pc => exact managerCode_cost hr ha
  | cashier pc => cases pc <;> cases ha <;> exact Nat.lt_of_sub_pos Nat.one_pos

/-- A step lowers what its thread has left to do. -/
theorem controlCost_move {n : ℕ} (hr : ∀ p, g.control t = .runs p → p.Ready n)
    (hmove : Move lockOf (program till) g t i g') :
    controlCost n (g'.control t) < controlCost n (g.control t) := by
  cases hmove with
  | granted hc ho => simp [hc, controlCost]
  | woken hc hw => simp [hc, controlCost]
  | acquire hc hi | wait hc hi | release hc hi | signal hc hi | broadcast hc hi | access hc hi =>
    have hcost := program_cost (hr _ hc) hi
    simpa [hc, controlCost, Instruction.next, extra] using hcost
  | @refused p q c a hc hi ha ho =>
    have hcost := program_cost (hr _ hc) hi
    have hnext : a.next = q := by rcases ha with rfl | rfl | rfl <;> rfl
    rw [hnext] at hcost
    simp only [hc, controlCost, goto_control, if_true]
    omega

theorem measure_move {n : ℕ} (hr : ∀ p, g.control t = .runs p → p.Ready n)
    (hmove : Move lockOf (program till) g t i g') : measure n g' < measure n g := by
  have hlt := controlCost_move hr hmove
  have hother : ∀ u, u ≠ t → g'.control u = g.control u := fun u hu => hmove.control_of_ne hu
  cases t with
  | customer =>
    simp only [measure, hother .manager (by simp), hother .cashier (by simp)]
    omega
  | manager =>
    simp only [measure, hother .customer (by simp), hother .cashier (by simp)]
    omega
  | cashier =>
    simp only [measure, hother .customer (by simp), hother .manager (by simp)]
    omega

theorem ManagerKnows.ready {next : CustomerStep} (h : ManagerKnows till deal s m v next pcm) :
    (Place.manager m pcm).Ready (content deal.cart).length := by
  cases pcm with
  | push =>
    obtain ⟨-, -, hun⟩ := h
    have hlen := hun.perm.length_eq
    simp only [List.length_append, List.length_singleton] at hlen
    change m.removed.length < _
    omega
  | _ => trivial

theorem CustomerKnows.ready {next : ManagerStep} (h : CustomerKnows till deal s m v next pc) :
    (Place.customer v pc).Ready (content deal.cart).length := by
  cases pc with
  | takeOut => exact h.2.2.1
  | _ => trivial

theorem Active.runs_eq {p q : Place} (h : Active g t p) (hc : g.control t = .runs q) : q = p := by
  rcases h with h | h | h
  · exact Control.runs.inj (hc.symm.trans h)
  · cases hc.symm.trans h
  · cases hc.symm.trans h

theorem CashierDone.ready {n : ℕ} (h : CashierDone g) {p : Place}
    (hc : g.control .cashier = .runs p) : p.Ready n := by
  rcases h with h | h | h <;> obtain rfl := Control.runs.inj (hc.symm.trans h) <;> trivial

/-- A party that can go on finds what it needs. -/
theorem Scene.ready (h : Scene till deal g) {p : Place} (hp : g.control t = .runs p) :
    p.Ready (content deal.cart).length := by
  cases h with
  | telling hq hm hv hc hrevenue hitems =>
    cases t with
    | customer => cases hp.symm.trans hv
    | manager => cases hp.symm.trans hm
    | cashier =>
      rw [hp] at hc
      cases hc <;> trivial
  | manager hq hm hv hk hc =>
    cases t with
    | customer => cases hp.symm.trans hv
    | manager => exact hm.runs_eq hp ▸ hk.ready
    | cashier => exact hc.ready hp
  | managerWaits hq hm hw hv hk hc =>
    cases t with
    | customer => exact (Active.runs_eq (.inr hv) hp) ▸ hk.ready
    | manager =>
      obtain rfl := Control.runs.inj (hp.symm.trans hm)
      cases hw <;> trivial
    | cashier => exact hc.ready hp
  | customer hq hv hm hk hc =>
    cases t with
    | customer => exact hv.runs_eq hp ▸ hk.ready
    | manager => cases hp.symm.trans hm
    | cashier => exact hc.ready hp
  | customerWaits hq hv hw hm hk hc =>
    cases t with
    | customer =>
      obtain rfl := Control.runs.inj (hp.symm.trans hv)
      cases hw <;> trivial
    | manager => exact (Active.runs_eq (.inr hm) hp) ▸ hk.ready
    | cashier => exact hc.ready hp
  | parting hq hm hpc hv hpcv hrevenue hpaid hc =>
    cases t with
    | customer =>
      rw [hv.runs_eq hp]
      rcases hpcv with rfl | rfl <;> trivial
    | manager =>
      obtain rfl := Control.runs.inj (hp.symm.trans hm)
      rcases hpc with rfl | rfl <;> trivial
    | cashier => exact hc.ready hp

/-- The manager begins with what the flag said. -/
theorem Scene.begins (h : Scene till deal g)
    (hp : g.control .manager = .runs (.manager m .clearFlag)) : m.amountOwed = deal.owed := by
  cases h with
  | telling hq hm hv hc hrevenue hitems => cases hp.symm.trans hm
  | manager hq hm hv hk hc =>
    obtain ⟨rfl, rfl⟩ := Place.manager.inj (hm.runs_eq hp)
    obtain ⟨hremoved, -, -, hun⟩ := hk
    simpa [hremoved, price] using hun.owed
  | managerWaits hq hm hw hv hk hc =>
    obtain ⟨rfl, rfl⟩ := Place.manager.inj (Control.runs.inj (hp.symm.trans hm))
    cases hw
  | customer hq hv hm hk hc => cases hp.symm.trans hm
  | customerWaits hq hv hw hm hk hc => rcases hm with hm | hm <;> cases hp.symm.trans hm
  | parting hq hm hpc hv hpcv hrevenue hpaid hc =>
    obtain ⟨rfl, rfl⟩ := Place.manager.inj (Control.runs.inj (hp.symm.trans hm))
    rcases hpc with hpc | hpc <;> cases hpc

theorem measure_start (s : S) (cart : List Entry) (cash n : ℕ) :
    measure n (start s cart cash) = 44 + 4 * cart.length + 20 * (content cart).length + 20 * n := by
  simp only [measure, start, controlCost, Place.cost, CustomerStep.cost, ManagerStep.cost,
    CashierStep.cost, Customer.trolley, List.nil_append, List.length_nil]
  omega

/-- An exchange has as many steps at most. -/
def bound (cart : List Entry) : ℕ := 44 + 4 * cart.length + 40 * (content cart).length

section
variable {cart : List Entry} {cash : ℕ} {tr : List (Transition (Exchange S) (Party × ℤ))}

theorem length_le (h : Execution (Steps lockOf (program till)) (start s cart cash) tr g) :
    tr.length ≤ bound cart := by
  have hle := length_le_of_measure (program_discipline till) (locksRight_start s cart cash)
    (Q := fun g => ∃ owed, Scene till { dealOf till s cart cash with owed := owed } g) h
    ⟨_, scene_start s cart cash⟩
    (fun g t i g' hl ⟨owed, hscene⟩ hm =>
      let ⟨owed', hscene', _⟩ := hscene.next hl hm
      ⟨owed', hscene'⟩)
    (measure (content cart).length)
    fun g t i g' ⟨owed, hscene⟩ hm => measure_move (fun p hp => hscene.ready hp) hm
  rw [measure_start] at hle
  rw [bound]
  omega

theorem settled_of_halted
    (h : Execution (Steps lockOf (program till)) (start s cart cash) tr g)
    (hreads : ∀ x ∈ tr, ReadsFirst x) (hhalt : Halted till g) :
    ∃ m v, Settled till (dealOf till s cart cash) g m v := by
  obtain ⟨hl, hs⟩ := scene_of_execution h hreads
  exact hs.settled hl hhalt

/-- Both parties are through with each other. -/
def BothLeft (g : Exchange S) : Prop :=
  (∃ v, g.control .customer = .runs (.customer v .left)) ∧
    ∃ m, g.control .manager = .runs (.manager m .left)

/-- Nobody waits for ever, whatever the manager finds in the flag. -/
theorem bothLeft_of_halted (h : Execution (Steps lockOf (program till)) (start s cart cash) tr g)
    (hhalt : Halted till g) : BothLeft g := by
  obtain ⟨hl, owed, hs⟩ := scene_of_any_execution h
  obtain ⟨m, v, hsettled⟩ := hs.settled hl hhalt
  exact ⟨⟨v, hsettled.customer⟩, m, hsettled.manager⟩

end

/-- What the customer pays falls short of the price of what he keeps by as much as the manager began
with less than the price of all. -/
theorem Paid.price_eq (h : Paid till deal s m v) :
    price (content v.trolley) + deal.owed = v.amountOwed + price (content deal.cart) := by
  have hprice : price (content deal.cart) = price m.removed + price (content v.trolley) := by
    rw [price, price, price, (h.perm.map scan).sum_eq, List.nil_append, List.map_append,
      List.sum_append]
  rw [h.paid, h.owed, hprice]
  omega

theorem Paid.price_left (h : Paid till deal s m v) (howed : deal.owed = price (content deal.cart)) :
    v.amountOwed = price (content v.trolley) := by
  have hprice := h.price_eq
  omega

/-- He can afford it. -/
theorem Paid.affordable (h : Paid till deal s m v) (howed : deal.owed = price (content deal.cart)) :
    v.amountOwed ≤ deal.cash := by
  rcases h.finished with hempty | hlt
  · rw [h.price_left howed, hempty]
    simp [price]
  · rw [h.paid]
    exact hlt.le

/-! `test/supermarket.c`: the shared variables are those of the program. -/

inductive CustomerType
  | customer
  | privilegedCustomer
  deriving DecidableEq, Repr

/-- With the variables of one cashier. -/
structure Store where
  managerDesk : ℤ
  cashierFlags : ℤ
  custType : CustomerType
  total : ℤ
  totalRevenue : ℤ
  managerItems : List ℤ
  deriving DecidableEq, Repr

def supermarket : Till Store (List ℤ) where
  managerDesk := Store.managerDesk
  setManagerDesk s v := { s with managerDesk := v }
  cashierFlag := Store.cashierFlags
  setCashierFlag s v := { s with cashierFlags := v }
  totalRevenue := Store.totalRevenue
  addRevenue s v := { s with totalRevenue := s.totalRevenue + v }
  managerItems := Store.managerItems
  add items x := items ++ [x]
  pushItem s x := { s with managerItems := s.managerItems ++ [x] }
  tellType s := { s with managerDesk := if s.custType = .privilegedCustomer then 1 else 0 }
  tellTotal s := { s with cashierFlags := s.total }
  flag_set _ _ := rfl
  desk_set _ _ := rfl
  desk_flag _ _ := rfl
  desk_push _ _ := rfl
  desk_revenue _ _ := rfl
  revenue_desk _ _ := rfl
  revenue_flag _ _ := rfl
  revenue_push _ _ := rfl
  revenue_add _ _ := rfl
  revenue_type _ := rfl
  revenue_total _ := rfl
  items_desk _ _ := rfl
  items_flag _ _ := rfl
  items_push _ _ := rfl
  items_revenue _ _ := rfl
  items_type _ := rfl
  items_total _ := rfl

/-- `total[myCounter] += scan(cashierDesk[myCounter])`, from 0 and for every item on the desk -/
def scanTotal (desk : List ℤ) : ℤ := desk.foldl (fun total item => total + scan item) 0

theorem foldl_scan (desk : List ℤ) : ∀ total : ℤ,
    desk.foldl (fun total item => total + scan item) total = total + price desk := by
  induction desk with
  | nil => simp [price]
  | cons item desk ih =>
    intro total
    rw [List.foldl_cons, ih, price, price, List.map_cons, List.sum_cons]
    omega

theorem scanTotal_eq (desk : List ℤ) : scanTotal desk = price desk := by
  rw [scanTotal, foldl_scan, zero_add]

/-- The cashier has scanned the trolley, which the customer has cleared item by item. -/
def Store.scanned (s : Store) (cart : List Entry) : Store :=
  { s with total := scanTotal (content cart) }

theorem foldl_push (items removed : List ℤ) :
    removed.foldl supermarket.add items = items ++ removed := by
  induction removed generalizing items with
  | nil => simp
  | cons x removed ih =>
    rw [List.foldl_cons, ih]
    simp [supermarket]

/-- What the deal comes to, from the store `s` and with the items `removed` taken back. -/
structure Honoured (s : Store) (cart : List Entry) (cash : ℕ) (g : Exchange Store)
    (removed : List ℤ) (v : Customer) : Prop where
  customer : g.control .customer = .runs (.customer v .left)
  manager : ∃ m, g.control .manager = .runs (.manager m .left)
  perm : (content cart).Perm (removed ++ content v.trolley)
  paid : v.amountOwed = price (content v.trolley)
  affordable : v.amountOwed ≤ cash
  cash : v.myCash = cash - v.amountOwed
  items : g.shared.managerItems = s.managerItems ++ removed
  revenue : g.shared.totalRevenue = s.totalRevenue + v.amountOwed

/-- For every trolley and every amount of cash the exchange ends, after a number of steps that the
trolley bounds, and both parties have left then. If the manager reads the flag before the cashier puts
the number of a later customer into it, the customer has paid the price of what is left in his trolley,
the items taken back are in `managerItems`, each once, and the revenue has grown by what was paid. -/
theorem negotiation_right (s : Store) (cart : List Entry) (cash : ℕ)
    {tr : List (Transition (Exchange Store) (Party × ℤ))} {g : Exchange Store}
    (h : Execution (Steps lockOf (program supermarket)) (start (s.scanned cart) cart cash) tr g) :
    tr.length ≤ bound cart ∧ (Halted supermarket g → BothLeft g) ∧
      ((∀ x ∈ tr, ReadsFirst x) → Halted supermarket g →
        ∃ removed v, Honoured s cart cash g removed v) := by
  refine ⟨length_le h, bothLeft_of_halted h, fun hreads hhalt => ?_⟩
  obtain ⟨m, v, hsettled⟩ := settled_of_halted h hreads hhalt
  have howed : (dealOf supermarket (s.scanned cart) cart cash).owed = price (content cart) :=
    scanTotal_eq _
  have hpaid := hsettled.toPaid
  refine ⟨m.removed, v, hsettled.customer, ⟨m, hsettled.manager⟩, hpaid.perm,
    hpaid.price_left howed, hpaid.affordable howed, hpaid.cash, ?_, hsettled.revenue⟩
  rw [← foldl_push]
  exact hpaid.items

/-! Schedules: the parties in their order, and the number of the next customer who cannot pay. -/

/-- Whether a thread can go on does not depend on that number. -/
theorem isSome_step (till : Till S H) (g : Exchange S) (t : Party) (i : ℤ) :
    (step lockOf (program till) g t i).isSome = (step lockOf (program till) g t 0).isSome := by
  have hprogram : ∀ p, (program till g.shared t p i).isSome = (program till g.shared t p 0).isSome := by
    intro p
    cases p with
    | cashier pc => cases pc <;> rfl
    | _ => rfl
  cases hc : g.control t with
  | runs p => simp only [step, hc, Option.isSome_map, hprogram]
  | _ => simp only [step, hc]

def stopped (till : Till S H) (g : Exchange S) (t : Party) : Bool :=
  (step lockOf (program till) g t 0).isNone || decide (Serves g t)

theorem halted_of_stopped {till : Till S H} {g : Exchange S}
    (h : (stopped till g .customer && stopped till g .manager && stopped till g .cashier) = true) :
    Halted till g := by
  intro t i hsome
  rw [isSome_step] at hsome
  have ht : stopped till g t = true := by
    simp only [Bool.and_eq_true] at h
    cases t
    · exact h.1.1
    · exact h.1.2
    · exact h.2
  simpa [stopped, Option.isNone_eq_false_iff.mpr hsome] using ht

def unread : Control LockName ConditionName Place → Bool
  | .runs (.manager _ .readFlag) | .waiting _ (.manager _ .readFlag)
  | .acquiring _ (.manager _ .readFlag) => true
  | _ => false

theorem not_unread (h : unread (g.control .manager) = false) : ¬ Unread g := by
  rintro ⟨m, hm | hm | hm⟩ <;> simp [unread, hm] at h

/-- A trolley worth 21, and 9 in cash. The cashier goes on with customer 4 once the manager has read
the flag. -/
theorem negotiation_right_poor : ∃ tr g removed v,
    Execution (Steps lockOf (program supermarket))
      (start (Store.scanned ⟨0, 3, .customer, 0, 100, [6]⟩ [⟨0, 1⟩, ⟨3, 2⟩]) [⟨0, 1⟩, ⟨3, 2⟩] 9)
        tr g ∧
      (∀ x ∈ tr, ReadsFirst x) ∧ Halted supermarket g ∧ g.shared.cashierFlags = 4 ∧
      tr.length ≤ bound [⟨0, 1⟩, ⟨3, 2⟩] ∧
      Honoured ⟨0, 3, .customer, 0, 100, [6]⟩ [⟨0, 1⟩, ⟨3, 2⟩] 9 g removed v := by
  obtain ⟨tr, g, hex, hcheck, htest⟩ := exists_of_runFirst lockOf (program supermarket)
    (start (Store.scanned ⟨0, 3, .customer, 0, 100, [6]⟩ [⟨0, 1⟩, ⟨3, 2⟩]) [⟨0, 1⟩, ⟨3, 2⟩] 9)
    (fun g e => !decide (Serves g e.1) || !unread (g.control .manager))
    [(.manager, 0), (.cashier, 4), (.customer, 0)] 90
    (fun g => (stopped supermarket g .customer && stopped supermarket g .manager &&
      stopped supermarket g .cashier) && decide (g.shared.cashierFlags = 4))
    (by decide +kernel)
  obtain ⟨hstopped, hflag⟩ := Bool.and_eq_true_iff.mp htest
  have hreads : ∀ x ∈ tr, ReadsFirst x := by
    intro x hx hserves
    have hx := hcheck x hx
    simp only [hserves, decide_true, Bool.not_true, Bool.false_or, Bool.not_eq_true'] at hx
    exact not_unread hx
  have hhalt := halted_of_stopped hstopped
  obtain ⟨hlen, -, hend⟩ := negotiation_right ⟨0, 3, .customer, 0, 100, [6]⟩ [⟨0, 1⟩, ⟨3, 2⟩] 9 hex
  obtain ⟨removed, v, hdone⟩ := hend hreads hhalt
  exact ⟨tr, g, removed, v, hex, hreads, hhalt, of_decide_eq_true hflag, hlen, hdone⟩

/-- The same trolley. The cashier is quicker than the manager, who finds the number 4 in the flag. -/
theorem number_taken_for_total : ∃ tr g,
    Execution (Steps lockOf (program supermarket))
      (start (Store.scanned ⟨0, 3, .customer, 0, 100, [6]⟩ [⟨0, 1⟩, ⟨3, 2⟩]) [⟨0, 1⟩, ⟨3, 2⟩] 9)
        tr g ∧
      Halted supermarket g ∧ g.control .customer = .runs (.customer ⟨[⟨0, 1⟩, ⟨3, 2⟩], [], 4, 5⟩ .left) ∧
      g.shared.totalRevenue = 104 ∧
      ¬ ∃ removed v, Honoured ⟨0, 3, .customer, 0, 100, [6]⟩ [⟨0, 1⟩, ⟨3, 2⟩] 9 g removed v := by
  obtain ⟨tr, g, hex, -, htest⟩ := exists_of_runFirst lockOf (program supermarket)
    (start (Store.scanned ⟨0, 3, .customer, 0, 100, [6]⟩ [⟨0, 1⟩, ⟨3, 2⟩]) [⟨0, 1⟩, ⟨3, 2⟩] 9)
    (fun _ _ => true) [(.cashier, 4), (.manager, 0), (.customer, 0)] 90
    (fun g => (stopped supermarket g .customer && stopped supermarket g .manager &&
      stopped supermarket g .cashier) &&
      decide (g.control .customer = .runs (.customer ⟨[⟨0, 1⟩, ⟨3, 2⟩], [], 4, 5⟩ .left) ∧
        g.shared.totalRevenue = 104))
    (by decide +kernel)
  obtain ⟨hstopped, hend⟩ := Bool.and_eq_true_iff.mp htest
  obtain ⟨hcustomer, hrevenue⟩ := of_decide_eq_true hend
  refine ⟨tr, g, hex, halted_of_stopped hstopped, hcustomer, hrevenue, ?_⟩
  rintro ⟨removed, v, hdone⟩
  obtain ⟨rfl, -⟩ := Place.customer.inj (Control.runs.inj (hcustomer.symm.trans hdone.customer))
  exact absurd hdone.paid (by decide)

end Nachos.Supermarket.Negotiation
