import Nachos.SupermarketThreads

/-! `test/supermarket.c`, and its port to the network: a customer who cannot pay, the manager who
takes items back until he can, and the cashier who has called the manager. They meet at one
monitor, and speak through one cell that carries item numbers, subtotals and -1. Afterwards the
cashier serves other customers, up to one who cannot pay either. The locks of `managerItems` and
of the inactive loaders, which no other party here takes, and the printing are left out. -/
namespace Nachos.Supermarket.Negotiation
open Mesa Executions

/-- Gets the prices for each type of item. -/
def scan : ℤ → ℤ
  | 0 => 5
  | 1 => 2
  | 2 => 3
  | 3 => 8
  | 4 => 7
  | 5 => 3
  | 6 => 10
  | 7 => 4
  | _ => 1

def price (items : List ℤ) : ℤ := (items.map scan).sum

/-- The items of a trolley, one by one. -/
def content (cart : List Entry) : List ℤ := cart.flatMap fun e => List.replicate e.qty e.item

/-- The variables that the parties share: `managerDesk`, `cashierFlags` of the cashier,
`totalRevenue` and `managerItems`, and what the cashier says before he wakes the manager. -/
structure Till (S H : Type*) where
  managerDesk : S → ℤ
  setManagerDesk : S → ℤ → S
  cashierFlag : S → ℤ
  setCashierFlag : S → ℤ → S
  totalRevenue : S → ℤ
  addRevenue : S → ℤ → S
  managerItems : S → H
  add : H → ℤ → H
  pushItem : S → ℤ → S
  tellType : S → S
  tellTotal : S → S
  flag_set : ∀ s v, cashierFlag (setCashierFlag s v) = v
  desk_set : ∀ s v, managerDesk (setManagerDesk s v) = v
  desk_flag : ∀ s v, managerDesk (setCashierFlag s v) = managerDesk s
  desk_push : ∀ s x, managerDesk (pushItem s x) = managerDesk s
  desk_revenue : ∀ s v, managerDesk (addRevenue s v) = managerDesk s
  revenue_desk : ∀ s v, totalRevenue (setManagerDesk s v) = totalRevenue s
  revenue_flag : ∀ s v, totalRevenue (setCashierFlag s v) = totalRevenue s
  revenue_push : ∀ s x, totalRevenue (pushItem s x) = totalRevenue s
  revenue_add : ∀ s v, totalRevenue (addRevenue s v) = totalRevenue s + v
  revenue_type : ∀ s, totalRevenue (tellType s) = totalRevenue s
  revenue_total : ∀ s, totalRevenue (tellTotal s) = totalRevenue s
  items_desk : ∀ s v, managerItems (setManagerDesk s v) = managerItems s
  items_flag : ∀ s v, managerItems (setCashierFlag s v) = managerItems s
  items_push : ∀ s x, managerItems (pushItem s x) = add (managerItems s) x
  items_revenue : ∀ s v, managerItems (addRevenue s v) = managerItems s
  items_type : ∀ s, managerItems (tellType s) = managerItems s
  items_total : ∀ s, managerItems (tellTotal s) = managerItems s

attribute [simp] Till.flag_set Till.desk_set Till.desk_flag Till.desk_push Till.desk_revenue
  Till.revenue_desk Till.revenue_flag Till.revenue_push Till.revenue_add Till.revenue_type
  Till.revenue_total Till.items_desk Till.items_flag Till.items_push Till.items_revenue
  Till.items_type Till.items_total

inductive Party
  | customer
  | manager
  | cashier
  deriving DecidableEq, Repr

inductive LockName
  | managerLock
  deriving DecidableEq, Repr

inductive ConditionName
  | managerCV
  deriving DecidableEq, Repr

def lockOf : ConditionName → LockName
  | .managerCV => .managerLock

/-- The customer's variables. The entries of the trolley before index `i` are in `passed`. -/
structure Customer where
  passed : List Entry
  ahead : List Entry
  amountOwed : ℤ
  myCash : ℤ
  deriving DecidableEq, Repr

/-- The manager's variables, with the items that he has taken back. -/
structure Manager where
  amountOwed : ℤ
  removed : List ℤ
  deriving DecidableEq, Repr

inductive CustomerStep
  /-- `for( i = 0; i < numItemsToBuy; i++)` -/
  | nextItem
  /-- `while(qtyItemsInCart[i] > 0)` -/
  | whileQty
  /-- `if(managerDesk < myCash)` -/
  | affordable
  | takeOut
  | hand
  | signalItem
  | waitSubtotal
  | finish
  | signalFinish
  | waitTotal
  | readTotal
  | payCash
  | pay
  | signalPaid
  | waitReceipt
  | release
  | left
  deriving DecidableEq, Repr

inductive ManagerStep
  | readFlag
  | clearFlag
  | quote
  | signalQuote
  | waitItem
  /-- `while(managerDesk != -1 )` -/
  | whileItem
  | subtract
  | push
  | total
  | signalTotal
  | waitPaid
  | collect
  | receipt
  | signalReceipt
  | release
  | left
  deriving DecidableEq, Repr

inductive CashierStep
  | tellType
  | tellTotal
  | acquire
  | signal
  | release
  /-- The next customers who can pay are served, and then there is one who cannot. -/
  | serve
  /-- waits for the manager -/
  | left
  deriving DecidableEq, Repr

inductive Place
  | customer (v : Customer) (pc : CustomerStep)
  | manager (m : Manager) (pc : ManagerStep)
  | cashier (pc : CashierStep)
  deriving DecidableEq, Repr

abbrev Code (S : Type*) := Instruction LockName ConditionName S Place

variable {S H : Type*} (till : Till S H)

/-- One item fewer of the first entry. -/
def Customer.takeOut (v : Customer) : Customer :=
  match v.ahead with
  | [] => v
  | e :: rest => { v with ahead := { e with qty := e.qty - 1 } :: rest }

def Customer.pass (v : Customer) : Customer :=
  match v.ahead with
  | [] => v
  | e :: rest => { v with passed := v.passed ++ [e], ahead := rest }

/-- `qtyItemsInCart[i]` and `itemsInCart[i]` -/
def Customer.qty (v : Customer) : ℕ := (v.ahead.head?.map Entry.qty).getD 0

def Customer.item (v : Customer) : ℤ := (v.ahead.head?.map fun e => (e.item : ℤ)).getD (-1)

def customerCode (s : S) (v : Customer) : CustomerStep → Option (Code S)
  | .nextItem => some (.access s (.customer v (if v.ahead = [] then .finish else .whileQty)))
  | .whileQty =>
    some (.access s (if v.qty > 0 then .customer v .affordable else .customer v.pass .nextItem))
  | .affordable =>
    some (.access s (if till.managerDesk s < v.myCash then .customer v.pass .nextItem
      else .customer v .takeOut))
  | .takeOut => some (.access s (.customer v.takeOut .hand))
  | .hand => some (.access (till.setManagerDesk s v.item) (.customer v .signalItem))
  | .signalItem => some (.signal .managerCV (.customer v .waitSubtotal))
  | .waitSubtotal => some (.wait .managerCV (.customer v .whileQty))
  | .finish => some (.access (till.setManagerDesk s (-1)) (.customer v .signalFinish))
  | .signalFinish => some (.signal .managerCV (.customer v .waitTotal))
  | .waitTotal => some (.wait .managerCV (.customer v .readTotal))
  | .readTotal =>
    some (.access s (.customer { v with amountOwed := till.managerDesk s } .payCash))
  | .payCash => some (.access s (.customer { v with myCash := v.myCash - v.amountOwed } .pay))
  | .pay => some (.access (till.setManagerDesk s v.amountOwed) (.customer v .signalPaid))
  | .signalPaid => some (.signal .managerCV (.customer v .waitReceipt))
  | .waitReceipt => some (.wait .managerCV (.customer v .release))
  | .release => some (.release .managerLock (.customer v .left))
  | .left => none

def managerCode (s : S) (m : Manager) : ManagerStep → Option (Code S)
  | .readFlag =>
    some (.access s (.manager { m with amountOwed := till.cashierFlag s } .clearFlag))
  | .clearFlag => some (.access (till.setCashierFlag s (-1)) (.manager m .quote))
  | .quote => some (.access (till.setManagerDesk s m.amountOwed) (.manager m .signalQuote))
  | .signalQuote => some (.signal .managerCV (.manager m .waitItem))
  | .waitItem => some (.wait .managerCV (.manager m .whileItem))
  | .whileItem =>
    some (.access s (.manager m (if till.managerDesk s ≠ -1 then .subtract else .total)))
  | .subtract =>
    some (.access s
      (.manager { m with amountOwed := m.amountOwed - scan (till.managerDesk s) } .push))
  | .push =>
    some (.access (till.pushItem s (till.managerDesk s))
      (.manager { m with removed := m.removed ++ [till.managerDesk s] } .quote))
  | .total => some (.access (till.setManagerDesk s m.amountOwed) (.manager m .signalTotal))
  | .signalTotal => some (.signal .managerCV (.manager m .waitPaid))
  | .waitPaid => some (.wait .managerCV (.manager m .collect))
  | .collect => some (.access (till.addRevenue s (till.managerDesk s)) (.manager m .receipt))
  | .receipt => some (.access (till.setManagerDesk s (-1)) (.manager m .signalReceipt))
  | .signalReceipt => some (.signal .managerCV (.manager m .release))
  | .release => some (.release .managerLock (.manager m .left))
  | .left => none

/-- `number` is that of the next customer who cannot pay. Serving the others touches nothing that
the parties of this exchange share. -/
def cashierCode (s : S) (number : ℤ) : CashierStep → Option (Code S)
  | .tellType => some (.access (till.tellType s) (.cashier .tellTotal))
  | .tellTotal => some (.access (till.tellTotal s) (.cashier .acquire))
  | .acquire => some (.acquire .managerLock (.cashier .signal))
  | .signal => some (.signal .managerCV (.cashier .release))
  | .release => some (.release .managerLock (.cashier .serve))
  | .serve => some (.access (till.setCashierFlag s number) (.cashier .left))
  | .left => none

def program : Program Party LockName ConditionName S Place ℤ := fun s _ p number =>
  match p with
  | .customer v pc => customerCode till s v pc
  | .manager m pc => managerCode till s m pc
  | .cashier pc => cashierCode till s number pc

abbrev Exchange (S : Type*) := State Party LockName ConditionName S Place

/-- Manager and customer wait at the monitor, and the cashier is about to speak. -/
def start (s : S) (cart : List Entry) (cash : ℕ) : Exchange S where
  lock _ := FifoMutex.free
  waiters _ := [.manager, .customer]
  shared := s
  control
    | .customer => .waiting .managerCV (.customer ⟨[], cart, 0, cash⟩ .nextItem)
    | .manager => .waiting .managerCV (.manager ⟨0, []⟩ .readFlag)
    | .cashier => .runs (.cashier .tellType)

/-- The statements before which a party holds `managerLock`. -/
def holds (p : Place) (_ : LockName) : Prop :=
  match p with
  | .customer _ pc => pc ≠ .left
  | .manager _ pc => pc ≠ .left
  | .cashier pc => pc = .signal ∨ pc = .release

theorem program_discipline : Discipline lockOf (program till) holds := by
  intro s t p i a h
  cases p with
  | customer v pc =>
    cases pc <;> cases h <;> simp [Instruction.Respects, holds]
    all_goals split_ifs <;> simp
  | manager m pc =>
    cases pc <;> cases h <;> simp [Instruction.Respects, holds]
    all_goals split_ifs <;> simp
  | cashier pc => cases pc <;> cases h <;> simp [Instruction.Respects, holds]

theorem locksRight_start (s : S) (cart : List Entry) (cash : ℕ) :
    LocksRight lockOf holds (start s cart cash) where
  held l := by
    refine Held.free.congr (fun t => ?_) fun t => ?_
    · cases t <;> simp [start, Control.Has, holds, lockOf]
    · cases t <;> simp [start, Control.Acquires]
  waiters c t ht := by
    cases c
    simp only [start, List.mem_cons, List.not_mem_nil, or_false] at ht
    rcases ht with rfl | rfl
    · exact ⟨_, rfl⟩
    · exact ⟨_, rfl⟩
  nodup c := by simp [start]
  acquiring t l p h := by cases t <;> cases h
  returning t c p h := by cases t <;> cases h <;> simp [holds]

/-! What holds while they talk. -/

/-- The deal at its start. -/
structure Deal (H : Type*) where
  cart : List Entry
  cash : ℕ
  /-- what the manager begins with -/
  owed : ℤ
  revenue : ℤ
  items : H

def Customer.trolley (v : Customer) : List Entry := v.passed ++ v.ahead

variable (deal : Deal H)

/-- The items taken back, those on the desk and those in the trolley are the ones of the start, and
the manager has subtracted those taken back. -/
structure Agreed (onDesk : List ℤ) (s : S) (m : Manager) (v : Customer) : Prop where
  perm : (content deal.cart).Perm (m.removed ++ (onDesk ++ content v.trolley))
  owed : m.amountOwed = deal.owed - price m.removed
  items : till.managerItems s = m.removed.foldl till.add deal.items

/-- Before the customer pays. -/
structure Unpaid (onDesk : List ℤ) (s : S) (m : Manager) (v : Customer) : Prop
    extends Agreed till deal onDesk s m v where
  revenue : till.totalRevenue s = deal.revenue
  cash : v.myCash = deal.cash

def Customer.Emptied (v : Customer) : Prop := ∀ e ∈ v.passed, e.qty = 0

/-- No item is left, or the subtotal is below the customer's cash. -/
def Finished (m : Manager) (v : Customer) : Prop :=
  content v.trolley = [] ∨ m.amountOwed < deal.cash

structure Paid (s : S) (m : Manager) (v : Customer) : Prop extends Agreed till deal [] s m v where
  finished : Finished deal m v
  paid : v.amountOwed = m.amountOwed
  cash : v.myCash = deal.cash - v.amountOwed

/-- At `pc` of the manager, while the customer sleeps and will go on at `next`. -/
def ManagerKnows (s : S) (m : Manager) (v : Customer) (next : CustomerStep) : ManagerStep → Prop
  | .readFlag => till.cashierFlag s = deal.owed ∧ m.removed = [] ∧ v.passed = [] ∧
      next = .nextItem ∧ Unpaid till deal [] s { m with amountOwed := deal.owed } v
  | .clearFlag => m.removed = [] ∧ v.passed = [] ∧ next = .nextItem ∧ Unpaid till deal [] s m v
  | .quote => v.Emptied ∧ (next = .nextItem ∨ next = .whileQty) ∧ Unpaid till deal [] s m v
  | .signalQuote => v.Emptied ∧ (next = .nextItem ∨ next = .whileQty) ∧
      till.managerDesk s = m.amountOwed ∧ Unpaid till deal [] s m v
  | .whileItem =>
    (till.managerDesk s ≠ -1 ∧ next = .whileQty ∧ v.Emptied ∧
      Unpaid till deal [till.managerDesk s] s m v) ∨
    (till.managerDesk s = -1 ∧ next = .readTotal ∧ Finished deal m v ∧ Unpaid till deal [] s m v)
  | .subtract => next = .whileQty ∧ v.Emptied ∧ Unpaid till deal [till.managerDesk s] s m v
  | .push => next = .whileQty ∧ v.Emptied ∧ Unpaid till deal [till.managerDesk s] s
      { m with amountOwed := m.amountOwed + scan (till.managerDesk s) } v
  | .total => next = .readTotal ∧ Finished deal m v ∧ Unpaid till deal [] s m v
  | .signalTotal => next = .readTotal ∧ Finished deal m v ∧
      till.managerDesk s = m.amountOwed ∧ Unpaid till deal [] s m v
  | .collect => next = .release ∧ till.managerDesk s = m.amountOwed ∧
      till.totalRevenue s = deal.revenue ∧ Paid till deal s m v
  | .receipt | .signalReceipt => next = .release ∧
      till.totalRevenue s = deal.revenue + v.amountOwed ∧ Paid till deal s m v
  | .waitItem | .waitPaid | .release | .left => False

/-- At `pc` of the customer, while the manager sleeps and will go on at `next`. -/
def CustomerKnows (s : S) (m : Manager) (v : Customer) (next : ManagerStep) :
    CustomerStep → Prop
  | .nextItem | .whileQty => next = .whileItem ∧ (v.Emptied ∨ m.amountOwed < deal.cash) ∧
      till.managerDesk s = m.amountOwed ∧ Unpaid till deal [] s m v
  | .affordable => next = .whileItem ∧ 0 < v.qty ∧ (v.Emptied ∨ m.amountOwed < deal.cash) ∧
      till.managerDesk s = m.amountOwed ∧ Unpaid till deal [] s m v
  | .takeOut => next = .whileItem ∧ v.Emptied ∧ 0 < v.qty ∧ Unpaid till deal [] s m v
  | .hand => next = .whileItem ∧ v.Emptied ∧ v.item ≠ -1 ∧ Unpaid till deal [v.item] s m v
  | .signalItem => next = .whileItem ∧ v.Emptied ∧ till.managerDesk s ≠ -1 ∧
      Unpaid till deal [till.managerDesk s] s m v
  | .finish => next = .whileItem ∧ Finished deal m v ∧ Unpaid till deal [] s m v
  | .signalFinish => next = .whileItem ∧ Finished deal m v ∧ till.managerDesk s = -1 ∧
      Unpaid till deal [] s m v
  | .readTotal => next = .collect ∧ Finished deal m v ∧ till.managerDesk s = m.amountOwed ∧
      Unpaid till deal [] s m v
  | .payCash => next = .collect ∧ Finished deal m v ∧ v.amountOwed = m.amountOwed ∧
      Unpaid till deal [] s m v
  | .pay => next = .collect ∧ till.totalRevenue s = deal.revenue ∧ Paid till deal s m v
  | .signalPaid => next = .collect ∧ till.managerDesk s = m.amountOwed ∧
      till.totalRevenue s = deal.revenue ∧ Paid till deal s m v
  | .waitSubtotal | .waitTotal | .waitReceipt | .release | .left => False

variable (g : Exchange S)

def Asleep (t : Party) (p : Place) : Prop := g.control t = .waiting .managerCV p

/-- Signalled, and on the way back from `Wait`. -/
def Signalled (t : Party) (p : Place) : Prop :=
  g.control t = .waiting .managerCV p ∨ g.control t = .acquiring .managerLock p

def Active (t : Party) (p : Place) : Prop := g.control t = .runs p ∨ Signalled g t p

/-- The cashier is through with the manager. -/
def CashierDone : Prop :=
  g.control .cashier = .runs (.cashier .release) ∨ g.control .cashier = .runs (.cashier .serve) ∨
    g.control .cashier = .runs (.cashier .left)

/-- The party is the cashier, about to serve other customers. -/
def Serves (t : Party) : Prop := t = .cashier ∧ g.control t = .runs (.cashier .serve)

instance (t : Party) : Decidable (Serves g t) := inferInstanceAs (Decidable (_ ∧ _))

/-- The manager has not read the flag yet. -/
def Unread : Prop := ∃ m, Active g .manager (.manager m .readFlag)

/-- If the cashier puts the number of a later customer into the flag, the manager has read it. -/
def ReadsFirst (x : Transition (Exchange S) (Party × ℤ)) : Prop :=
  Serves x.before x.event.1 → ¬ Unread x.before

/-- Where the cashier is before he has woken the manager, and what the flag says by then. -/
inductive Tells (s : S) : Control LockName ConditionName Place → Prop
  | type (h : till.cashierFlag (till.tellTotal (till.tellType s)) = deal.owed) :
      Tells s (.runs (.cashier .tellType))
  | total (h : till.cashierFlag (till.tellTotal s) = deal.owed) :
      Tells s (.runs (.cashier .tellTotal))
  | acquire (h : till.cashierFlag s = deal.owed) : Tells s (.runs (.cashier .acquire))
  | acquiring (h : till.cashierFlag s = deal.owed) :
      Tells s (.acquiring .managerLock (.cashier .signal))
  | signal (h : till.cashierFlag s = deal.owed) : Tells s (.runs (.cashier .signal))

/-- The manager's calls of `Wait`, and what he goes on with. -/
inductive ManagerWaits : ManagerStep → ManagerStep → Prop
  | item : ManagerWaits .waitItem .whileItem
  | paid : ManagerWaits .waitPaid .collect

inductive CustomerWaits : CustomerStep → CustomerStep → Prop
  | subtotal : CustomerWaits .waitSubtotal .whileQty
  | total : CustomerWaits .waitTotal .readTotal
  | receipt : CustomerWaits .waitReceipt .release

/-- Who has the word. -/
inductive Scene : Prop
  | telling (hq : g.waiters .managerCV = [.manager, .customer])
      (hm : Asleep g .manager (.manager ⟨0, []⟩ .readFlag))
      (hv : Asleep g .customer (.customer ⟨[], deal.cart, 0, deal.cash⟩ .nextItem))
      (hc : Tells till deal g.shared (g.control .cashier))
      (hrevenue : till.totalRevenue g.shared = deal.revenue)
      (hitems : till.managerItems g.shared = deal.items) : Scene
  | manager {m : Manager} {v : Customer} {pc : ManagerStep} {next : CustomerStep}
      (hq : g.waiters .managerCV = [.customer]) (hm : Active g .manager (.manager m pc))
      (hv : Asleep g .customer (.customer v next))
      (hk : ManagerKnows till deal g.shared m v next pc) (hc : CashierDone g) : Scene
  | managerWaits {m : Manager} {v : Customer} {pc next : ManagerStep} {pcv : CustomerStep}
      (hq : g.waiters .managerCV = []) (hm : g.control .manager = .runs (.manager m pc))
      (hw : ManagerWaits pc next) (hv : Signalled g .customer (.customer v pcv))
      (hk : CustomerKnows till deal g.shared m v next pcv) (hc : CashierDone g) : Scene
  | customer {m : Manager} {v : Customer} {pc : CustomerStep} {next : ManagerStep}
      (hq : g.waiters .managerCV = [.manager]) (hv : Active g .customer (.customer v pc))
      (hm : Asleep g .manager (.manager m next))
      (hk : CustomerKnows till deal g.shared m v next pc) (hc : CashierDone g) : Scene
  | customerWaits {m : Manager} {v : Customer} {pc next : CustomerStep} {pcm : ManagerStep}
      (hq : g.waiters .managerCV = []) (hv : g.control .customer = .runs (.customer v pc))
      (hw : CustomerWaits pc next) (hm : Signalled g .manager (.manager m pcm))
      (hk : ManagerKnows till deal g.shared m v next pcm) (hc : CashierDone g) : Scene
  | parting {m : Manager} {v : Customer} {pc : ManagerStep} {pcv : CustomerStep}
      (hq : g.waiters .managerCV = []) (hm : g.control .manager = .runs (.manager m pc))
      (hpc : pc = .release ∨ pc = .left) (hv : Active g .customer (.customer v pcv))
      (hpcv : pcv = .release ∨ pcv = .left)
      (hrevenue : till.totalRevenue g.shared = deal.revenue + v.amountOwed)
      (hpaid : Paid till deal g.shared m v) (hc : CashierDone g) : Scene

variable {till deal} {s s' : S} {m m' : Manager} {v v' : Customer} {pc pc' : CustomerStep}
  {pcm pcm' : ManagerStep} {onDesk : List ℤ} {e : Entry} {rest : List Entry}

/-! The trolley. -/

theorem content_append (a b : List Entry) : content (a ++ b) = content a ++ content b :=
  List.flatMap_append

theorem content_cons (e : Entry) (rest : List Entry) :
    content (e :: rest) = List.replicate e.qty (e.item : ℤ) ++ content rest := rfl

theorem content_eq_nil {cart : List Entry} (h : ∀ e ∈ cart, e.qty = 0) : content cart = [] := by
  rw [content, List.flatMap_eq_nil_iff]
  intro e he
  rw [h e he]
  rfl

theorem trolley_pass (v : Customer) : v.pass.trolley = v.trolley := by
  obtain ⟨passed, ahead, owed, cash⟩ := v
  cases ahead <;> simp [Customer.pass, Customer.trolley]

theorem pass_myCash (v : Customer) : v.pass.myCash = v.myCash := by
  obtain ⟨passed, ahead, owed, cash⟩ := v
  cases ahead <;> rfl

/-- The entry that the customer passes is empty. -/
theorem Customer.Emptied.pass (h : v.Emptied) (hqty : v.qty = 0) : v.pass.Emptied := by
  obtain ⟨passed, ahead, owed, cash⟩ := v
  cases ahead with
  | nil => exact h
  | cons e rest =>
    intro e' he'
    rcases List.mem_append.mp he' with he' | he'
    · exact h e' he'
    · obtain rfl := List.mem_singleton.mp he'
      exact hqty

theorem exists_entry (h : 0 < v.qty) : ∃ e rest, v.ahead = e :: rest ∧ 0 < e.qty := by
  obtain ⟨passed, ahead, owed, cash⟩ := v
  cases ahead with
  | nil => simp [Customer.qty] at h
  | cons e rest => exact ⟨e, rest, rfl, h⟩

/-- One item leaves the trolley for the desk. -/
theorem content_takeOut (h : 0 < v.qty) :
    (content v.trolley).Perm (v.takeOut.item :: content v.takeOut.trolley) := by
  obtain ⟨e, rest, hahead, hpos⟩ := exists_entry h
  obtain ⟨n, hn⟩ := Nat.exists_eq_add_of_lt hpos
  obtain ⟨passed, ahead, owed, cash⟩ := v
  simp only at hahead
  subst hahead
  have hcons : List.replicate e.qty (e.item : ℤ) =
      (e.item : ℤ) :: List.replicate (e.qty - 1) (e.item : ℤ) := by
    rw [← List.replicate_succ]
    congr 1
    omega
  simp only [Customer.trolley, Customer.takeOut, Customer.item, content_append, content_cons,
    hcons, List.head?_cons, Option.map_some, Option.getD_some]
  exact List.perm_middle

theorem takeOut_emptied (h : v.Emptied) : v.takeOut.Emptied := by
  obtain ⟨passed, ahead, owed, cash⟩ := v
  cases ahead <;> exact h

theorem takeOut_item (h : 0 < v.qty) : v.takeOut.item ≠ -1 := by
  obtain ⟨e, rest, hahead, -⟩ := exists_entry h
  obtain ⟨passed, ahead, owed, cash⟩ := v
  simp only at hahead
  subst hahead
  simp only [Customer.takeOut, Customer.item, List.head?_cons, Option.map_some, Option.getD_some]
  omega

theorem takeOut_myCash (v : Customer) : v.takeOut.myCash = v.myCash := by
  obtain ⟨passed, ahead, owed, cash⟩ := v
  cases ahead <;> rfl

/-! The agreement. -/

theorem Unpaid.congr (h : Unpaid till deal onDesk s m v)
    (hitems : till.managerItems s' = till.managerItems s)
    (hrevenue : till.totalRevenue s' = till.totalRevenue s) (htrolley : v'.trolley = v.trolley)
    (hcash : v'.myCash = v.myCash) : Unpaid till deal onDesk s' m v' :=
  ⟨⟨htrolley ▸ h.perm, h.owed, hitems.trans h.items⟩, hrevenue.trans h.revenue,
    hcash.trans h.cash⟩

theorem Unpaid.setDesk (h : Unpaid till deal onDesk s m v) (x : ℤ) :
    Unpaid till deal onDesk (till.setManagerDesk s x) m v :=
  h.congr (by simp) (by simp) rfl rfl

theorem Unpaid.pass (h : Unpaid till deal onDesk s m v) : Unpaid till deal onDesk s m v.pass :=
  h.congr rfl rfl (trolley_pass v) (pass_myCash v)

theorem Finished.congr (h : Finished deal m v) (htrolley : v'.trolley = v.trolley) :
    Finished deal m v' := by
  rw [Finished, htrolley]
  exact h

/-- What a statement of the customer does. -/
theorem CustomerKnows.access {next : ManagerStep} (h : CustomerKnows till deal s m v next pc)
    {p : Place} (hi : customerCode till s v pc = some (.access s' p)) :
    ∃ v' pc', p = .customer v' pc' ∧ CustomerKnows till deal s' m v' next pc' := by
  cases pc with
  | nextItem =>
    obtain ⟨rfl, rfl⟩ := Instruction.access.inj (Option.some.inj hi)
    obtain ⟨rfl, hloop, hdesk, hun⟩ := h
    refine ⟨v, _, rfl, ?_⟩
    split_ifs with hahead
    · refine ⟨rfl, hloop.imp_left fun hempty => ?_, hun⟩
      rw [Customer.trolley, hahead, List.append_nil]
      exact content_eq_nil hempty
    · exact ⟨rfl, hloop, hdesk, hun⟩
  | whileQty =>
    obtain ⟨rfl, rfl⟩ := Instruction.access.inj (Option.some.inj hi)
    obtain ⟨rfl, hloop, hdesk, hun⟩ := h
    split_ifs with hqty
    · exact ⟨v, .affordable, rfl, rfl, hqty, hloop, hdesk, hun⟩
    · exact ⟨v.pass, .nextItem, rfl, rfl, hloop.imp_left fun h => h.pass (by omega), hdesk, hun.pass⟩
  | affordable =>
    obtain ⟨rfl, rfl⟩ := Instruction.access.inj (Option.some.inj hi)
    obtain ⟨rfl, hqty, hloop, hdesk, hun⟩ := h
    rw [hdesk, hun.cash]
    split_ifs with hafford
    · exact ⟨v.pass, .nextItem, rfl, rfl, .inr hafford, hdesk, hun.pass⟩
    · exact ⟨v, .takeOut, rfl, rfl, hloop.resolve_right hafford, hqty, hun⟩
  | takeOut =>
    obtain ⟨rfl, rfl⟩ := Instruction.access.inj (Option.some.inj hi)
    obtain ⟨rfl, hempty, hqty, hun⟩ := h
    refine ⟨v.takeOut, .hand, rfl, rfl, takeOut_emptied hempty, takeOut_item hqty,
      ⟨⟨?_, hun.owed, hun.items⟩, hun.revenue, (takeOut_myCash v).trans hun.cash⟩⟩
    exact hun.perm.trans ((content_takeOut hqty).append_left m.removed)
  | hand =>
    obtain ⟨rfl, rfl⟩ := Instruction.access.inj (Option.some.inj hi)
    obtain ⟨rfl, hempty, hitem, hun⟩ := h
    refine ⟨v, .signalItem, rfl, rfl, hempty, ?_, ?_⟩
    · rwa [till.desk_set]
    · rw [till.desk_set]
      exact hun.setDesk v.item
  | finish =>
    obtain ⟨rfl, rfl⟩ := Instruction.access.inj (Option.some.inj hi)
    obtain ⟨rfl, hfinished, hun⟩ := h
    exact ⟨v, .signalFinish, rfl, rfl, hfinished, till.desk_set s (-1), hun.setDesk (-1)⟩
  | readTotal =>
    obtain ⟨rfl, rfl⟩ := Instruction.access.inj (Option.some.inj hi)
    obtain ⟨rfl, hfinished, hdesk, hun⟩ := h
    exact ⟨_, .payCash, rfl, rfl, hfinished.congr rfl, hdesk, hun.congr rfl rfl rfl rfl⟩
  | payCash =>
    obtain ⟨rfl, rfl⟩ := Instruction.access.inj (Option.some.inj hi)
    obtain ⟨rfl, hfinished, howed, hun⟩ := h
    refine ⟨_, .pay, rfl, rfl, hun.revenue, ⟨hun.perm, hun.owed, hun.items⟩,
      hfinished.congr rfl, howed, ?_⟩
    change v.myCash - v.amountOwed = _
    rw [hun.cash]
  | pay =>
    obtain ⟨rfl, rfl⟩ := Instruction.access.inj (Option.some.inj hi)
    obtain ⟨rfl, hrevenue, hpaid⟩ := h
    refine ⟨v, .signalPaid, rfl, rfl, ?_, ?_, ⟨hpaid.perm, hpaid.owed, ?_⟩, hpaid.finished,
      hpaid.paid, hpaid.cash⟩
    · rw [till.desk_set, hpaid.paid]
    · rw [till.revenue_desk, hrevenue]
    · rw [till.items_desk, hpaid.items]
  | _ => cases hi

/-- A signal of the customer leaves the word to the manager. -/
theorem CustomerKnows.signal {next : ManagerStep} (h : CustomerKnows till deal s m v next pc)
    {c : ConditionName} {p : Place} (hi : customerCode till s v pc = some (.signal c p)) :
    ∃ pc' next', p = .customer v pc' ∧ CustomerWaits pc' next' ∧
      ManagerKnows till deal s m v next' next := by
  cases pc with
  | signalItem =>
    obtain ⟨-, rfl⟩ := Instruction.signal.inj (Option.some.inj hi)
    obtain ⟨rfl, hempty, hitem, hun⟩ := h
    exact ⟨_, _, rfl, .subtotal, .inl ⟨hitem, rfl, hempty, hun⟩⟩
  | signalFinish =>
    obtain ⟨-, rfl⟩ := Instruction.signal.inj (Option.some.inj hi)
    obtain ⟨rfl, hfinished, hdesk, hun⟩ := h
    exact ⟨_, _, rfl, .total, .inr ⟨hdesk, rfl, hfinished, hun⟩⟩
  | signalPaid =>
    obtain ⟨-, rfl⟩ := Instruction.signal.inj (Option.some.inj hi)
    obtain ⟨rfl, hdesk, hrevenue, hpaid⟩ := h
    exact ⟨_, _, rfl, .receipt, rfl, hdesk, hrevenue, hpaid⟩
  | _ => cases hi

/-- What a statement of the manager does. -/
theorem ManagerKnows.access {next : CustomerStep} (h : ManagerKnows till deal s m v next pcm)
    {p : Place} (hi : managerCode till s m pcm = some (.access s' p)) :
    ∃ m' pc', p = .manager m' pc' ∧ ManagerKnows till deal s' m' v next pc' := by
  cases pcm with
  | readFlag =>
    obtain ⟨rfl, rfl⟩ := Instruction.access.inj (Option.some.inj hi)
    obtain ⟨hflag, hremoved, hpassed, rfl, hun⟩ := h
    refine ⟨_, .clearFlag, rfl, hremoved, hpassed, rfl, ?_⟩
    rw [hflag]
    exact hun
  | clearFlag =>
    obtain ⟨rfl, rfl⟩ := Instruction.access.inj (Option.some.inj hi)
    obtain ⟨-, hpassed, rfl, hun⟩ := h
    refine ⟨m, .quote, rfl, ?_, .inl rfl, hun.congr (by simp) (by simp) rfl rfl⟩
    simp [Customer.Emptied, hpassed]
  | quote =>
    obtain ⟨rfl, rfl⟩ := Instruction.access.inj (Option.some.inj hi)
    obtain ⟨hempty, hnext, hun⟩ := h
    exact ⟨m, .signalQuote, rfl, hempty, hnext, till.desk_set .., hun.setDesk _⟩
  | whileItem =>
    obtain ⟨rfl, rfl⟩ := Instruction.access.inj (Option.some.inj hi)
    rcases h with ⟨hitem, rfl, hempty, hun⟩ | ⟨hdesk, rfl, hfinished, hun⟩
    · rw [if_pos hitem]
      exact ⟨m, .subtract, rfl, rfl, hempty, hun⟩
    · rw [if_neg (not_not.mpr hdesk)]
      exact ⟨m, .total, rfl, rfl, hfinished, hun⟩
  | subtract =>
    obtain ⟨rfl, rfl⟩ := Instruction.access.inj (Option.some.inj hi)
    obtain ⟨rfl, hempty, hun⟩ := h
    refine ⟨_, .push, rfl, rfl, hempty, ?_⟩
    simpa using hun
  | push =>
    obtain ⟨rfl, rfl⟩ := Instruction.access.inj (Option.some.inj hi)
    obtain ⟨rfl, hempty, hun⟩ := h
    refine ⟨_, .quote, rfl, hempty, .inr rfl, ⟨?_, ?_, ?_⟩, ?_, hun.cash⟩
    · simpa using hun.perm
    · have howed := hun.owed
      simp only [price, List.map_append, List.sum_append, List.map_singleton, List.sum_singleton]
        at howed ⊢
      omega
    · rw [till.items_push, hun.items, List.foldl_append]
      rfl
    · rw [till.revenue_push, hun.revenue]
  | total =>
    obtain ⟨rfl, rfl⟩ := Instruction.access.inj (Option.some.inj hi)
    obtain ⟨rfl, hfinished, hun⟩ := h
    exact ⟨m, .signalTotal, rfl, rfl, hfinished, till.desk_set .., hun.setDesk _⟩
  | collect =>
    obtain ⟨rfl, rfl⟩ := Instruction.access.inj (Option.some.inj hi)
    obtain ⟨rfl, hdesk, hrevenue, hpaid⟩ := h
    refine ⟨m, .receipt, rfl, rfl, ?_, ⟨hpaid.perm, hpaid.owed, ?_⟩, hpaid.finished, hpaid.paid,
      hpaid.cash⟩
    · rw [till.revenue_add, hrevenue, hdesk, hpaid.paid]
    · rw [till.items_revenue, hpaid.items]
  | receipt =>
    obtain ⟨rfl, rfl⟩ := Instruction.access.inj (Option.some.inj hi)
    obtain ⟨rfl, hrevenue, hpaid⟩ := h
    refine ⟨m, .signalReceipt, rfl, rfl, ?_, ⟨hpaid.perm, hpaid.owed, ?_⟩, hpaid.finished,
      hpaid.paid, hpaid.cash⟩
    · rw [till.revenue_desk, hrevenue]
    · rw [till.items_desk, hpaid.items]
  | _ => cases hi

/-- A signal of the manager leaves the word to the customer, or is the last one. -/
theorem ManagerKnows.signal {next : CustomerStep} (h : ManagerKnows till deal s m v next pcm)
    {c : ConditionName} {p : Place} (hi : managerCode till s m pcm = some (.signal c p)) :
    (∃ pc' next', p = .manager m pc' ∧ ManagerWaits pc' next' ∧
      CustomerKnows till deal s m v next' next) ∨
    (p = .manager m .release ∧ next = .release ∧
      till.totalRevenue s = deal.revenue + v.amountOwed ∧ Paid till deal s m v) := by
  cases pcm with
  | signalQuote =>
    obtain ⟨-, rfl⟩ := Instruction.signal.inj (Option.some.inj hi)
    obtain ⟨hempty, hnext, hdesk, hun⟩ := h
    refine .inl ⟨_, _, rfl, .item, ?_⟩
    rcases hnext with rfl | rfl <;> exact ⟨rfl, .inl hempty, hdesk, hun⟩
  | signalTotal =>
    obtain ⟨-, rfl⟩ := Instruction.signal.inj (Option.some.inj hi)
    obtain ⟨rfl, hfinished, hdesk, hun⟩ := h
    exact .inl ⟨_, _, rfl, .paid, rfl, hfinished, hdesk, hun⟩
  | signalReceipt =>
    obtain ⟨-, rfl⟩ := Instruction.signal.inj (Option.some.inj hi)
    obtain ⟨rfl, hrevenue, hpaid⟩ := h
    exact .inr ⟨rfl, rfl, hrevenue, hpaid⟩
  | _ => cases hi

/-! One step of the exchange. -/

variable {g g' : Exchange S} {i : ℤ} {t : Party}

theorem Asleep.of_move {p : Place} (h : Asleep g t p) {u : Party} (hu : t ≠ u)
    (hm : Move lockOf (program till) g u i g') : Asleep g' t p :=
  (hm.control_of_ne hu).trans h

theorem Active.of_move {p : Place} (h : Active g t p) {u : Party} (hu : t ≠ u)
    (hm : Move lockOf (program till) g u i g') : Active g' t p := by
  unfold Active Signalled
  rw [hm.control_of_ne hu]
  exact h

/-- A sleeper does not move. -/
theorem Asleep.no_move {p : Place} (h : Asleep g t p) (hmem : t ∈ g.waiters .managerCV)
    (hm : Move lockOf (program till) g t i g') : False :=
  (hm.of_waiting h).1 hmem

/-- The cashier lets go of the lock. -/
theorem CashierDone.move (hc : CashierDone g) (hserves : ¬ Serves g .cashier)
    (hl : LocksRight lockOf holds g) (hm : Move lockOf (program till) g .cashier i g') :
    CashierDone g' ∧ g'.waiters = g.waiters ∧ g'.shared = g.shared := by
  rcases hc with hc | hc | hc
  · obtain ⟨a, hi, heff⟩ := hm.effect (program_discipline till) hl hc
    obtain rfl := Option.some.inj hi
    cases heff
    exact ⟨.inr (.inl (goto_control .. |>.trans (if_pos rfl))), rfl, rfl⟩
  · exact absurd ⟨rfl, hc⟩ hserves
  · obtain ⟨a, hi, -⟩ := hm.effect (program_discipline till) hl hc
    cases hi

/-- A party that has been signalled gets on towards its place, and changes nothing else. -/
theorem Signalled.move {p : Place} (h : Signalled g t p)
    (hm : Move lockOf (program till) g t i g') :
    Active g' t p ∧ g'.waiters = g.waiters ∧ g'.shared = g.shared := by
  rcases h with hc | hc
  · obtain ⟨-, rfl⟩ := hm.of_waiting hc
    exact ⟨.inr (.inr (acquire_control .. |>.trans (if_pos rfl))), rfl, rfl⟩
  · obtain ⟨-, rfl⟩ := hm.of_acquiring hc
    exact ⟨.inl (goto_control .. |>.trans (if_pos rfl)), rfl, rfl⟩

/-- While another party holds the lock, one that has been signalled gets no further than
`Acquire`. -/
theorem Signalled.move_behind {p q : Place} {u : Party} (h : Signalled g t p)
    (hl : LocksRight lockOf holds g) (hu : g.control u = .runs q) (hq : holds q .managerLock)
    (hne : u ≠ t) (hm : Move lockOf (program till) g t i g') :
    Signalled g' t p ∧ g'.waiters = g.waiters ∧ g'.shared = g.shared := by
  rcases h with hc | hc
  · obtain ⟨-, rfl⟩ := hm.of_waiting hc
    exact ⟨.inr (acquire_control .. |>.trans (if_pos rfl)), rfl, rfl⟩
  · obtain ⟨ho, -⟩ := hm.of_acquiring hc
    have hown := (hl.held .managerLock).has u (by rw [hu]; exact hq)
    exact absurd (Option.some.inj (hown.symm.trans ho)) hne

theorem Scene.telling_move (hl : LocksRight lockOf holds g)
    (hq : g.waiters .managerCV = [.manager, .customer])
    (hm : Asleep g .manager (.manager ⟨0, []⟩ .readFlag))
    (hv : Asleep g .customer (.customer ⟨[], deal.cart, 0, deal.cash⟩ .nextItem))
    (hc : Tells till deal g.shared (g.control .cashier))
    (hrevenue : till.totalRevenue g.shared = deal.revenue)
    (hitems : till.managerItems g.shared = deal.items)
    (hmove : Move lockOf (program till) g t i g') : Scene till deal g' := by
  cases t with
  | customer => exact (hv.no_move (by simp [hq]) hmove).elim
  | manager => exact (hm.no_move (by simp [hq]) hmove).elim
  | cashier =>
    have hm' := hm.of_move (by simp) hmove
    have hv' := hv.of_move (by simp) hmove
    cases hk : g.control .cashier with
    | waiting c p =>
      rw [hk] at hc
      cases hc
    | acquiring l p =>
      obtain ⟨-, rfl⟩ := hmove.of_acquiring hk
      rw [hk] at hc
      cases hc with
      | acquiring hflag =>
        refine .telling hq hm' hv' ?_ hrevenue hitems
        rw [goto_control, if_pos rfl]
        exact .signal hflag
    | runs p =>
      obtain ⟨a, hi, heff⟩ := hmove.effect (program_discipline till) hl hk
      rw [hk] at hc
      cases hc with
      | type hflag =>
        obtain rfl := Option.some.inj hi
        cases heff
        refine .telling hq hm' hv' ?_ (by simpa using hrevenue) (by simpa using hitems)
        rw [goto_control, if_pos rfl]
        exact .total hflag
      | total hflag =>
        obtain rfl := Option.some.inj hi
        cases heff
        refine .telling hq hm' hv' ?_ (by simpa using hrevenue) (by simpa using hitems)
        rw [goto_control, if_pos rfl]
        exact .acquire hflag
      | acquire hflag =>
        obtain rfl := Option.some.inj hi
        cases heff
        refine .telling hq hm' hv' ?_ hrevenue hitems
        rw [acquire_control, if_pos rfl]
        exact .acquiring hflag
      | signal hflag =>
        obtain rfl := Option.some.inj hi
        cases heff
        have hactive : Active _ .manager (.manager ⟨0, []⟩ .readFlag) := .inr (.inl hm')
        refine .manager ?_ hactive hv' ?_ (.inl ?_)
        · simp [hq]
        · refine ⟨hflag, rfl, rfl, rfl, ⟨?_, ?_, hitems⟩, hrevenue, rfl⟩
          · exact List.Perm.refl _
          · simp [price]
        · rw [goto_control, if_pos rfl]

/-- A party that has been signalled, and the waits of the others, keep their place under a step of
another party. -/
theorem Signalled.of_move {p : Place} (h : Signalled g t p) {u : Party} (hu : t ≠ u)
    (hm : Move lockOf (program till) g u i g') : Signalled g' t p := by
  unfold Signalled
  rw [hm.control_of_ne hu]
  exact h

theorem CashierDone.of_move (h : CashierDone g) (hu : .cashier ≠ t)
    (hm : Move lockOf (program till) g t i g') : CashierDone g' := by
  unfold CashierDone
  rw [hm.control_of_ne hu]
  exact h

theorem Scene.manager_move {next : CustomerStep} (hl : LocksRight lockOf holds g)
    (hq : g.waiters .managerCV = [.customer]) (hm : Active g .manager (.manager m pcm))
    (hv : Asleep g .customer (.customer v next))
    (hk : ManagerKnows till deal g.shared m v next pcm) (hc : CashierDone g)
    (hserves : ¬ Serves g t) (hmove : Move lockOf (program till) g t i g') :
    Scene till deal g' := by
  cases t with
  | customer => exact (hv.no_move (by simp [hq]) hmove).elim
  | cashier =>
    obtain ⟨hc', hw, hs⟩ := hc.move hserves hl hmove
    exact .manager (by rw [hw, hq]) (hm.of_move (by simp) hmove) (hv.of_move (by simp) hmove)
      (by rw [hs]; exact hk) hc'
  | manager =>
    have hv' := hv.of_move (by simp) hmove
    have hc' := hc.of_move (by simp) hmove
    rcases hm with hruns | hsig
    · obtain ⟨a, hi, heff⟩ := hmove.effect (program_discipline till) hl hruns
      cases heff with
      | access =>
        obtain ⟨m', pc', rfl, hk'⟩ := hk.access hi
        exact .manager hq (.inl ((goto_control ..).trans (if_pos rfl))) hv' hk' hc'
      | @signal c q =>
        rcases hk.signal hi with ⟨pc', next', rfl, hw, hk'⟩ | ⟨rfl, rfl, hrevenue, hpaid⟩
        · exact .managerWaits (by simp [hq]) ((goto_control ..).trans (if_pos rfl)) hw (.inl hv')
            hk' hc'
        · exact .parting (by simp [hq]) ((goto_control ..).trans (if_pos rfl)) (.inl rfl)
            (.inr (.inl hv')) (.inl rfl) hrevenue hpaid hc'
      | acquire | release | wait | broadcast =>
        change managerCode till g.shared m pcm = _ at hi
        cases pcm <;> first | exact hk.elim | cases hi
    · obtain ⟨hm', hw, hs⟩ := hsig.move hmove
      exact .manager (by rw [hw, hq]) hm' hv' (by rw [hs]; exact hk) hc'

theorem Scene.customer_move {next : ManagerStep} (hl : LocksRight lockOf holds g)
    (hq : g.waiters .managerCV = [.manager]) (hv : Active g .customer (.customer v pc))
    (hm : Asleep g .manager (.manager m next))
    (hk : CustomerKnows till deal g.shared m v next pc) (hc : CashierDone g)
    (hserves : ¬ Serves g t) (hmove : Move lockOf (program till) g t i g') :
    Scene till deal g' := by
  cases t with
  | manager => exact (hm.no_move (by simp [hq]) hmove).elim
  | cashier =>
    obtain ⟨hc', hw, hs⟩ := hc.move hserves hl hmove
    exact .customer (by rw [hw, hq]) (hv.of_move (by simp) hmove) (hm.of_move (by simp) hmove)
      (by rw [hs]; exact hk) hc'
  | customer =>
    have hm' := hm.of_move (by simp) hmove
    have hc' := hc.of_move (by simp) hmove
    rcases hv with hruns | hsig
    · obtain ⟨a, hi, heff⟩ := hmove.effect (program_discipline till) hl hruns
      cases heff with
      | access =>
        obtain ⟨v', pc', rfl, hk'⟩ := hk.access hi
        exact .customer hq (.inl ((goto_control ..).trans (if_pos rfl))) hm' hk' hc'
      | @signal c q =>
        obtain ⟨pc', next', rfl, hw, hk'⟩ := hk.signal hi
        exact .customerWaits (by simp [hq]) ((goto_control ..).trans (if_pos rfl)) hw (.inl hm')
          hk' hc'
      | acquire | release | wait | broadcast =>
        change customerCode till g.shared v pc = _ at hi
        cases pc <;> first | exact hk.elim | cases hi
    · obtain ⟨hv', hw, hs⟩ := hsig.move hmove
      exact .customer (by rw [hw, hq]) hv' hm' (by rw [hs]; exact hk) hc'

theorem Scene.managerWaits_move {next : ManagerStep} (hl : LocksRight lockOf holds g)
    (hq : g.waiters .managerCV = []) (hm : g.control .manager = .runs (.manager m pcm))
    (hw : ManagerWaits pcm next) (hv : Signalled g .customer (.customer v pc))
    (hk : CustomerKnows till deal g.shared m v next pc) (hc : CashierDone g)
    (hserves : ¬ Serves g t) (hmove : Move lockOf (program till) g t i g') :
    Scene till deal g' := by
  have hholds : holds (.manager m pcm) .managerLock := by cases hw <;> simp [holds]
  cases t with
  | cashier =>
    obtain ⟨hc', hw', hs⟩ := hc.move hserves hl hmove
    exact .managerWaits (by rw [hw', hq]) ((hmove.control_of_ne (by simp)).trans hm) hw
      (hv.of_move (by simp) hmove) (by rw [hs]; exact hk) hc'
  | customer =>
    obtain ⟨hv', hw', hs⟩ := hv.move_behind hl hm hholds (by simp) hmove
    exact .managerWaits (by rw [hw', hq]) ((hmove.control_of_ne (by simp)).trans hm) hw hv'
      (by rw [hs]; exact hk) (hc.of_move (by simp) hmove)
  | manager =>
    obtain ⟨a, hi, heff⟩ := hmove.effect (program_discipline till) hl hm
    have hv' := hv.of_move (by simp) hmove
    have hc' := hc.of_move (by simp) hmove
    cases hw with
    | item | paid =>
      obtain rfl := Option.some.inj hi
      cases heff
      exact .customer (by simp [hq]) (.inr hv') ((wait_control ..).trans (if_pos rfl)) hk hc'

theorem Scene.customerWaits_move {next : CustomerStep} (hl : LocksRight lockOf holds g)
    (hq : g.waiters .managerCV = []) (hv : g.control .customer = .runs (.customer v pc))
    (hw : CustomerWaits pc next) (hm : Signalled g .manager (.manager m pcm))
    (hk : ManagerKnows till deal g.shared m v next pcm) (hc : CashierDone g)
    (hserves : ¬ Serves g t) (hmove : Move lockOf (program till) g t i g') :
    Scene till deal g' := by
  have hholds : holds (.customer v pc) .managerLock := by cases hw <;> simp [holds]
  cases t with
  | cashier =>
    obtain ⟨hc', hw', hs⟩ := hc.move hserves hl hmove
    exact .customerWaits (by rw [hw', hq]) ((hmove.control_of_ne (by simp)).trans hv) hw
      (hm.of_move (by simp) hmove) (by rw [hs]; exact hk) hc'
  | manager =>
    obtain ⟨hm', hw', hs⟩ := hm.move_behind hl hv hholds (by simp) hmove
    exact .customerWaits (by rw [hw', hq]) ((hmove.control_of_ne (by simp)).trans hv) hw hm'
      (by rw [hs]; exact hk) (hc.of_move (by simp) hmove)
  | customer =>
    obtain ⟨a, hi, heff⟩ := hmove.effect (program_discipline till) hl hv
    have hm' := hm.of_move (by simp) hmove
    have hc' := hc.of_move (by simp) hmove
    cases hw with
    | subtotal | total | receipt =>
      obtain rfl := Option.some.inj hi
      cases heff
      exact .manager (by simp [hq]) (.inr hm') ((wait_control ..).trans (if_pos rfl)) hk hc'

theorem Scene.parting_move (hl : LocksRight lockOf holds g)
    (hq : g.waiters .managerCV = []) (hm : g.control .manager = .runs (.manager m pcm))
    (hpc : pcm = .release ∨ pcm = .left) (hv : Active g .customer (.customer v pc))
    (hpcv : pc = .release ∨ pc = .left)
    (hrevenue : till.totalRevenue g.shared = deal.revenue + v.amountOwed)
    (hpaid : Paid till deal g.shared m v) (hc : CashierDone g)
    (hserves : ¬ Serves g t) (hmove : Move lockOf (program till) g t i g') :
    Scene till deal g' := by
  cases t with
  | cashier =>
    obtain ⟨hc', hw, hs⟩ := hc.move hserves hl hmove
    rw [← hs] at hrevenue hpaid
    exact .parting (by rw [hw, hq]) ((hmove.control_of_ne (by simp)).trans hm) hpc
      (hv.of_move (by simp) hmove) hpcv hrevenue hpaid hc'
  | manager =>
    obtain ⟨a, hi, heff⟩ := hmove.effect (program_discipline till) hl hm
    have hv' := hv.of_move (by simp) hmove
    have hc' := hc.of_move (by simp) hmove
    rcases hpc with rfl | rfl
    · obtain rfl := Option.some.inj hi
      cases heff
      exact .parting hq ((goto_control ..).trans (if_pos rfl)) (.inr rfl) hv' hpcv hrevenue hpaid hc'
    · cases hi
  | customer =>
    have hm' := (hmove.control_of_ne (by simp)).trans hm
    have hc' := hc.of_move (by simp) hmove
    rcases hv with hruns | hsig
    · obtain ⟨a, hi, heff⟩ := hmove.effect (program_discipline till) hl hruns
      rcases hpcv with rfl | rfl
      · obtain rfl := Option.some.inj hi
        cases heff
        exact .parting hq hm' hpc (.inl ((goto_control ..).trans (if_pos rfl))) (.inr rfl) hrevenue
          hpaid hc'
      · cases hi
    · obtain ⟨hv', hw, hs⟩ := hsig.move hmove
      rw [← hs] at hrevenue hpaid
      exact .parting (by rw [hw, hq]) hm' hpc hv' hpcv hrevenue hpaid hc'

/-- Between the customers whom the cashier serves afterwards the scenes follow one another. -/
theorem Scene.move (h : Scene till deal g) (hl : LocksRight lockOf holds g) (hserves : ¬ Serves g t)
    (hmove : Move lockOf (program till) g t i g') : Scene till deal g' := by
  cases h with
  | telling hq hm hv hc hrevenue hitems =>
    exact telling_move hl hq hm hv hc hrevenue hitems hmove
  | manager hq hm hv hk hc => exact manager_move hl hq hm hv hk hc hserves hmove
  | managerWaits hq hm hw hv hk hc => exact managerWaits_move hl hq hm hw hv hk hc hserves hmove
  | customer hq hv hm hk hc => exact customer_move hl hq hv hm hk hc hserves hmove
  | customerWaits hq hv hw hm hk hc => exact customerWaits_move hl hq hv hw hm hk hc hserves hmove
  | parting hq hm hpc hv hpcv hrevenue hpaid hc =>
    exact parting_move hl hq hm hpc hv hpcv hrevenue hpaid hc hserves hmove

/-! The number of a later customer in the flag. -/

section
variable {n : ℤ} {next : CustomerStep} {nextm : ManagerStep}

theorem unpaid_setFlag :
    Unpaid till deal onDesk (till.setCashierFlag s n) m v ↔ Unpaid till deal onDesk s m v :=
  ⟨fun h => h.congr (by simp) (by simp) rfl rfl, fun h => h.congr (by simp) (by simp) rfl rfl⟩

theorem paid_setFlag : Paid till deal (till.setCashierFlag s n) m v ↔ Paid till deal s m v := by
  constructor
  · intro h
    exact ⟨⟨h.perm, h.owed, by simpa using h.items⟩, h.finished, h.paid, h.cash⟩
  · intro h
    exact ⟨⟨h.perm, h.owed, by simpa using h.items⟩, h.finished, h.paid, h.cash⟩

theorem CustomerKnows.setFlag (h : CustomerKnows till deal s m v nextm pc) (n : ℤ) :
    CustomerKnows till deal (till.setCashierFlag s n) m v nextm pc := by
  cases pc with
  | waitSubtotal | waitTotal | waitReceipt | release | left => exact h.elim
  | _ => simpa [CustomerKnows, unpaid_setFlag, paid_setFlag] using h

/-- Only a manager who has not read the flag begins with the number. -/
theorem ManagerKnows.setFlag (h : ManagerKnows till deal s m v next pcm) (n : ℤ) :
    ∃ owed, ManagerKnows till { deal with owed := owed } (till.setCashierFlag s n) m v next pcm ∧
      (pcm ≠ .readFlag → owed = deal.owed) := by
  cases pcm with
  | readFlag =>
    obtain ⟨-, hremoved, hpassed, hnext, hun⟩ := h
    refine ⟨n, ⟨till.flag_set s n, hremoved, hpassed, hnext, ⟨hun.perm, ?_, ?_⟩, ?_, hun.cash⟩,
      fun hne => absurd rfl hne⟩
    · simp [hremoved, price]
    · rw [till.items_flag, hun.items]
    · rw [till.revenue_flag, hun.revenue]
  | waitItem | waitPaid | release | left => exact h.elim
  | _ =>
    refine ⟨deal.owed, ?_, fun _ => rfl⟩
    simpa [ManagerKnows, unpaid_setFlag, paid_setFlag] using h

end

theorem Serves.move (h : Serves g t) (hl : LocksRight lockOf holds g)
    (hmove : Move lockOf (program till) g t i g') : t = .cashier ∧ CashierDone g' ∧
      g'.waiters = g.waiters ∧ g'.shared = till.setCashierFlag g.shared i := by
  obtain ⟨rfl, hc⟩ := h
  obtain ⟨a, hi, heff⟩ := hmove.effect (program_discipline till) hl hc
  obtain rfl := Option.some.inj hi
  cases heff
  exact ⟨rfl, .inr (.inr ((goto_control ..).trans (if_pos rfl))), rfl, rfl⟩

theorem Scene.serve (h : Scene till deal g) (hl : LocksRight lockOf holds g) (hserves : Serves g t)
    (hmove : Move lockOf (program till) g t i g') :
    ∃ owed, Scene till { deal with owed := owed } g' ∧ (¬ Unread g → owed = deal.owed) := by
  obtain ⟨rfl, hc', hw', hs'⟩ := hserves.move hl hmove
  have hread : ∀ {m : Manager} {pcm : ManagerStep} {owed : ℤ}, Active g .manager (.manager m pcm) →
      (pcm ≠ .readFlag → owed = deal.owed) → ¬ Unread g → owed = deal.owed := by
    intro m pcm owed hm howed hunread
    refine howed ?_
    rintro rfl
    exact hunread ⟨m, hm⟩
  cases h with
  | telling hq hm hv hc hrevenue hitems =>
    rw [hserves.2] at hc
    cases hc
  | manager hq hm hv hk hc =>
    obtain ⟨owed, hk', howed⟩ := hk.setFlag i
    rw [← hs'] at hk'
    exact ⟨owed, .manager (by rw [hw', hq]) (hm.of_move (by simp) hmove) (hv.of_move (by simp) hmove)
      hk' hc', hread hm howed⟩
  | managerWaits hq hm hw hv hk hc =>
    have hk' := hk.setFlag i
    rw [← hs'] at hk'
    exact ⟨deal.owed, .managerWaits (by rw [hw', hq]) ((hmove.control_of_ne (by simp)).trans hm) hw
      (hv.of_move (by simp) hmove) hk' hc', fun _ => rfl⟩
  | customer hq hv hm hk hc =>
    have hk' := hk.setFlag i
    rw [← hs'] at hk'
    exact ⟨deal.owed, .customer (by rw [hw', hq]) (hv.of_move (by simp) hmove)
      (hm.of_move (by simp) hmove) hk' hc', fun _ => rfl⟩
  | customerWaits hq hv hw hm hk hc =>
    obtain ⟨owed, hk', howed⟩ := hk.setFlag i
    rw [← hs'] at hk'
    exact ⟨owed, .customerWaits (by rw [hw', hq]) ((hmove.control_of_ne (by simp)).trans hv) hw
      (hm.of_move (by simp) hmove) hk' hc', hread (.inr hm) howed⟩
  | parting hq hm hpc hv hpcv hrevenue hpaid hc =>
    have hpaid' := paid_setFlag (n := i).mpr hpaid
    rw [← till.revenue_flag g.shared i, ← hs'] at hrevenue
    rw [← hs'] at hpaid'
    exact ⟨deal.owed, .parting (by rw [hw', hq]) ((hmove.control_of_ne (by simp)).trans hm) hpc
      (hv.of_move (by simp) hmove) hpcv hrevenue hpaid' hc', fun _ => rfl⟩

/-- A step keeps the deal but for what the manager begins with, and that as well if he reads the
flag first. -/
theorem Scene.next (h : Scene till deal g) (hl : LocksRight lockOf holds g)
    (hmove : Move lockOf (program till) g t i g') :
    ∃ owed, Scene till { deal with owed := owed } g' ∧
      ((Serves g t → ¬ Unread g) → owed = deal.owed) := by
  by_cases hserves : Serves g t
  · obtain ⟨owed, hscene, howed⟩ := h.serve hl hserves hmove
    exact ⟨owed, hscene, fun hread => howed (hread hserves)⟩
  · exact ⟨deal.owed, h.move hl hserves hmove, fun _ => rfl⟩

/-- The deal that the cashier's words make. -/
def dealOf (till : Till S H) (s : S) (cart : List Entry) (cash : ℕ) : Deal H :=
  ⟨cart, cash, till.cashierFlag (till.tellTotal (till.tellType s)), till.totalRevenue s,
    till.managerItems s⟩

theorem scene_start (s : S) (cart : List Entry) (cash : ℕ) :
    Scene till (dealOf till s cart cash) (start s cart cash) :=
  .telling rfl rfl rfl (.type rfl) rfl rfl

section
variable {cart : List Entry} {cash : ℕ} {tr : List (Transition (Exchange S) (Party × ℤ))}

/-- In every run, with the total or with a number in its place. -/
theorem scene_of_any_execution
    (h : Execution (Steps lockOf (program till)) (start s cart cash) tr g) :
    LocksRight lockOf holds g ∧
      ∃ owed, Scene till { dealOf till s cart cash with owed := owed } g := by
  refine invariant_of_locks (Q := fun g => ∃ owed, Scene till { dealOf till s cart cash with
    owed := owed } g) (program_discipline till) (locksRight_start s cart cash) h
    ⟨_, scene_start s cart cash⟩ ?_
  rintro g t i g' hl ⟨owed, hscene⟩ hm
  obtain ⟨owed', hscene', -⟩ := hscene.next hl hm
  exact ⟨owed', hscene'⟩

theorem scene_of_execution (h : Execution (Steps lockOf (program till)) (start s cart cash) tr g)
    (hreads : ∀ x ∈ tr, ReadsFirst x) :
    LocksRight lockOf holds g ∧ Scene till (dealOf till s cart cash) g := by
  refine h.invariant_of_cond
    (P := fun g => LocksRight lockOf holds g ∧ Scene till (dealOf till s cart cash) g)
    ⟨locksRight_start s cart cash, scene_start s cart cash⟩ (fun x hP hstep hread => ?_) hreads
  have hm := step_move hstep
  obtain ⟨owed, hscene, howed⟩ := hP.2.next hP.1 hm
  rw [howed hread] at hscene
  exact ⟨hP.1.move (program_discipline till) hm, hscene⟩

end

end Nachos.Supermarket.Negotiation
