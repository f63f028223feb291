import Nachos.SupermarketSettlement
import Nachos.NetworkedVariables

/-! `test/cashier.c`, `test/manager.c` and `test/customer.c`: the negotiation with a customer who
cannot pay, over the monitor variables of a lone server. It is that of `test/supermarket.c`, but
for one call: the cashier has a `GetMV` where the total should be written. -/
namespace Nachos.Networked
open Mesa Executions Supermarket.Negotiation
open Supermarket (Entry numItems)

/-- The server, and `totalRevenue` of the manager, who is the only one to know it. -/
structure Shop where
  market : Market
  totalRevenue : ℤ

namespace Shop
variable (s : Shop) {x y : Variable} {i j : ℤ}

def get (x : Variable) (i : ℤ) : ℤ := s.market.get x i

def set (x : Variable) (i v : ℤ) : Shop := { s with market := s.market.set x i v }

theorem get_set (hi : Market.InRange x i) (v : ℤ) : (s.set x i v).get x i = v :=
  s.market.get_set hi v

theorem get_set_of_ne (hi : Market.InRange x i) (v : ℤ) (hne : number y ≠ number x ∨ j ≠ i) :
    (s.set x i v).get y j = s.get y j :=
  s.market.get_set_of_ne hi v hne

end Shop

/-- `getDepartmentFromItem`, of the items on a desk -/
def deptOf (item : ℤ) : Fin 3 := ⟨(item % 3).toNat, by omega⟩

/-- `if(GetMV(custType, i) == type) SetMV(managerDesk, 0, desk)` -/
def tellIf (i type desk : ℤ) (s : Shop) : Shop :=
  if s.get .custType i = type then s.set .managerDesk 0 desk else s

def tellType (i : ℤ) (s : Shop) : Shop := tellIf i customer 0 (tellIf i privilegedCustomer 1 s)

/-- `GetMV(cashierFlags, myCounter, GetMV(total, myCounter))` writes nothing. -/
def tellTotal (s : Shop) : Shop := s

def pushItem (s : Shop) (item : ℤ) : Shop :=
  let s := s.set (.managerItems (deptOf item)) item (s.get (.managerItems (deptOf item)) item + 1)
  s.set .hasTakenItems 0 1

/-- How many of each item the manager holds. -/
def managerItems (s : Shop) (item : ℤ) : ℤ := s.get (.managerItems (deptOf item)) item

def addItem (held : ℤ → ℤ) (item : ℤ) : ℤ → ℤ :=
  if 0 ≤ item ∧ item < numItems then Function.update held item (held item + 1) else held

theorem inRange_desk : Market.InRange .managerDesk 0 := by decide +kernel

theorem inRange_taken : Market.InRange .hasTakenItems 0 := by decide +kernel

theorem inRange_flag (i : Fin numCashiers) : Market.InRange .cashierFlags i := by
  revert i
  decide +kernel

theorem inRange_total (i : Fin numCashiers) : Market.InRange .total i := by
  revert i
  decide +kernel

theorem inRange_custID (i : Fin numCashiers) : Market.InRange .custID i := by
  revert i
  decide +kernel

theorem entries_items (dept : Fin 3) : entries (.managerItems dept) = numItems := by
  revert dept
  decide +kernel

variable {s : Shop} {i : Fin numCashiers} {item : ℤ} {x : Variable} {j : ℤ}

theorem tellIf_get (hx : number x ≠ number .managerDesk) (type desk : ℤ) :
    (tellIf i type desk s).get x j = s.get x j := by
  unfold tellIf
  split_ifs
  · exact s.get_set_of_ne inRange_desk desk (.inl hx)
  · rfl

/-- A variable that is not the manager's desk. -/
theorem tellType_get (hx : number x ≠ number .managerDesk) :
    (tellType i s).get x j = s.get x j := by
  rw [tellType, tellIf_get hx, tellIf_get hx]

theorem managerItems_congr {t : Shop} (h : ∀ dept j, t.get (.managerItems dept) j =
    s.get (.managerItems dept) j) : managerItems t = managerItems s :=
  funext fun item => h (deptOf item) item

theorem tellIf_revenue (type desk : ℤ) : (tellIf i type desk s).totalRevenue = s.totalRevenue := by
  unfold tellIf
  split_ifs <;> rfl

theorem set_managerItems (hi : Market.InRange x j) (hx : ∀ dept, number (.managerItems dept) ≠ number x)
    (v : ℤ) : managerItems (s.set x j v) = managerItems s :=
  managerItems_congr fun dept _ => s.get_set_of_ne hi v (.inl (hx dept))

/-- Other variables than the counts of the items keep their values. -/
theorem pushItem_get (hx : ∀ dept, number x ≠ number (.managerItems dept))
    (htaken : number x ≠ number .hasTakenItems) : (pushItem s item).get x j = s.get x j := by
  rw [pushItem, Shop.get_set_of_ne _ inRange_taken _ (.inl htaken)]
  by_cases hitem : 0 ≤ item ∧ item < numItems
  · exact s.get_set_of_ne ⟨by simp, hitem.1, by simpa [entries_items] using hitem.2⟩ _
      (.inl (hx _))
  · rw [Shop.set, Market.set_of_not_inRange _ (by simp) (by rw [entries_items]; omega)]

theorem pushItem_managerItems : managerItems (pushItem s item) = addItem (managerItems s) item := by
  have htaken : ∀ t : Shop, managerItems (t.set .hasTakenItems 0 1) = managerItems t := fun t =>
    set_managerItems inRange_taken (by simp [number]; omega) 1
  rw [pushItem, htaken, addItem]
  split_ifs with hitem
  · have hrange : Market.InRange (.managerItems (deptOf item)) item :=
      ⟨by simp, hitem.1, by simpa [entries_items] using hitem.2⟩
    funext k
    by_cases hk : k = item
    · subst hk
      rw [Function.update_self]
      exact s.get_set hrange _
    · rw [Function.update_of_ne hk]
      exact s.get_set_of_ne hrange _ (.inr hk)
  · rw [Shop.set, Market.set_of_not_inRange _ (by simp) (by rw [entries_items]; omega)]

theorem desk_ne_items (dept : Fin 3) : number .managerDesk ≠ number (.managerItems dept) := by
  revert dept
  decide

theorem desk_ne_flags : number .managerDesk ≠ number .cashierFlags := by decide

theorem desk_ne_taken : number .managerDesk ≠ number .hasTakenItems := by decide

theorem items_ne_flags (dept : Fin 3) : number (.managerItems dept) ≠ number .cashierFlags := by
  revert dept
  decide

/-- The negotiation at cashier `i`. -/
def networked (i : Fin numCashiers) : Till Shop (ℤ → ℤ) where
  managerDesk s := s.get .managerDesk 0
  setManagerDesk s v := s.set .managerDesk 0 v
  cashierFlag s := s.get .cashierFlags i
  setCashierFlag s v := s.set .cashierFlags i v
  totalRevenue := Shop.totalRevenue
  addRevenue s v := { s with totalRevenue := s.totalRevenue + v }
  managerItems := managerItems
  add := addItem
  pushItem := pushItem
  tellType := tellType i
  tellTotal := tellTotal
  flag_set s v := s.get_set (inRange_flag i) v
  desk_set s v := s.get_set inRange_desk v
  desk_flag s v := s.get_set_of_ne (inRange_flag i) v (.inl desk_ne_flags)
  desk_push _ _ := pushItem_get desk_ne_items desk_ne_taken
  desk_revenue _ _ := rfl
  revenue_desk _ _ := rfl
  revenue_flag _ _ := rfl
  revenue_push _ _ := rfl
  revenue_add _ _ := rfl
  revenue_type _ := (tellIf_revenue _ _).trans (tellIf_revenue _ _)
  revenue_total _ := rfl
  items_desk _ v := set_managerItems inRange_desk (fun dept => (desk_ne_items dept).symm) v
  items_flag _ v := set_managerItems (inRange_flag i) items_ne_flags v
  items_push _ _ := pushItem_managerItems
  items_revenue _ _ := rfl
  items_type _ := managerItems_congr fun dept _ => tellType_get (desk_ne_items dept).symm
  items_total _ := rfl

/-! Before the negotiation: the cashier scans the trolley and raises his flag. -/

/-- `SetMV(total, myCounter, GetMV(total, myCounter) + scan(GetMV(cashierDesk, myCounter)))` -/
def scanItem (i : ℤ) (s : Shop) (item : ℤ) : Shop := s.set .total i (s.get .total i + scan item)

/-- The total is set to 0, and then the items of the trolley come over the desk one by one. -/
def scanned (i : ℤ) (cart : List Entry) (s : Shop) : Shop :=
  (content cart).foldl (scanItem i) (s.set .total i 0)

/-- `SetMV(cashierFlags, myCounter, GetMV(custID, myCounter))` -/
def flagged (i : ℤ) (s : Shop) : Shop := s.set .cashierFlags i (s.get .custID i)

theorem foldl_scanItem (items : List ℤ) : ∀ s : Shop,
    (items.foldl (scanItem i) s).get .total i = s.get .total i + price items ∧
      (items.foldl (scanItem i) s).get .custID i = s.get .custID i ∧
      (items.foldl (scanItem i) s).totalRevenue = s.totalRevenue := by
  induction items with
  | nil => simp [price]
  | cons item items ih =>
    intro s
    obtain ⟨htotal, hcust, hrevenue⟩ := ih (scanItem i s item)
    rw [List.foldl_cons, htotal, hcust, hrevenue]
    refine ⟨?_, s.get_set_of_ne (inRange_total i) _ (.inl (by decide)), rfl⟩
    rw [scanItem, s.get_set (inRange_total i), price, price, List.map_cons, List.sum_cons]
    omega

/-- The total is the price of the trolley. -/
theorem scanned_total (s : Shop) (cart : List Entry) :
    (scanned i cart s).get .total i = price (content cart) := by
  rw [scanned, (foldl_scanItem (content cart) _).1, s.get_set (inRange_total i), zero_add]

theorem scanned_custID (s : Shop) (cart : List Entry) :
    (scanned i cart s).get .custID i = s.get .custID i := by
  rw [scanned, (foldl_scanItem (content cart) _).2.1]
  exact s.get_set_of_ne (inRange_total i) 0 (.inl (by decide))

/-- The shop when the manager has been called and waits together with the customer. -/
def called (i : ℤ) (cart : List Entry) (s : Shop) : Shop := flagged i (scanned i cart s)

theorem called_total (s : Shop) (cart : List Entry) :
    (called i cart s).get .total i = price (content cart) := by
  rw [called, flagged, Shop.get_set_of_ne _ (inRange_flag i) _ (.inl (by decide)), scanned_total]

theorem called_revenue (s : Shop) (cart : List Entry) :
    (called i cart s).totalRevenue = s.totalRevenue :=
  (foldl_scanItem (content cart) _).2.2

/-- The flag that the manager finds has the number of the customer. -/
theorem called_owed (s : Shop) (cart : List Entry) (cash : ℕ) :
    (dealOf (networked i) (called i cart s) cart cash).owed = s.get .custID i := by
  have htype : (tellType i (called i cart s)).get .cashierFlags i =
      (called i cart s).get .cashierFlags i := tellType_get (by decide)
  refine htype.trans ?_
  rw [called, flagged, Shop.get_set _ (inRange_flag i), scanned_custID]

/-- From the call of cashier `i`, in every run in which the manager reads the flag before the cashier
puts the number of a later customer into it: the manager begins with the total that was scanned, and
when the negotiation is over he has collected the price of what is left in the trolley. -/
structure ChargesRight (i : Fin numCashiers) (s : Shop) (cart : List Entry) (cash : ℕ) : Prop where
  begins : ∀ {tr : List (Transition (Exchange Shop) (Party × ℤ))} {g : Exchange Shop}
    {m : Manager}, Execution (Steps lockOf (program (networked i)))
      (start (called i cart s) cart cash) tr g → (∀ x ∈ tr, ReadsFirst x) →
    g.control .manager = .runs (.manager m .clearFlag) →
      m.amountOwed = (called i cart s).get .total i
  collects : ∀ {tr : List (Transition (Exchange Shop) (Party × ℤ))} {g : Exchange Shop},
    Execution (Steps lockOf (program (networked i))) (start (called i cart s) cart cash) tr g →
    (∀ x ∈ tr, ReadsFirst x) → Halted (networked i) g →
    ∃ v, g.control .customer = .runs (.customer v .left) ∧
      g.shared.totalRevenue = s.totalRevenue + price (content v.trolley)

/-- The manager does not begin with less than the total, or with more. -/
theorem custID_of_chargesRight {cart : List Entry} {cash : ℕ} (h : ChargesRight i s cart cash) :
    s.get .custID i = price (content cart) := by
  -- the cashier serves nobody else
  have hle : ∀ {tr : List (Transition (Exchange Shop) (Party × ℤ))} {g : Exchange Shop},
      Execution (Steps lockOf (program (networked i))) (start (called i cart s) cart cash) tr g →
        tr.length ≤ bound cart := length_le
  obtain ⟨tr, g, hex, hall, hstuck⟩ := exists_stuck hle fun g e => ¬ Serves g e.1
  have hreads : ∀ x ∈ tr, ReadsFirst x := fun x hx hserves => absurd hserves (hall x hx)
  have hhalt : Halted (networked i) g := by
    intro t j hsome
    by_contra hserves
    simp [hstuck t j hserves] at hsome
  obtain ⟨m, v, hsettled⟩ := settled_of_halted hex hreads hhalt
  obtain ⟨v', hv', hcollected⟩ := h.collects hex hreads hhalt
  obtain ⟨rfl, -⟩ := Place.customer.inj (Control.runs.inj (hv'.symm.trans hsettled.customer))
  have howed := called_owed (i := i) s cart cash
  have hprice : price (content v'.trolley) + (dealOf (networked i) (called i cart s) cart cash).owed =
      v'.amountOwed + price (content cart) := hsettled.toPaid.price_eq
  have hrevenue : g.shared.totalRevenue = s.totalRevenue + v'.amountOwed := by
    rw [← called_revenue (i := i) s cart]
    exact hsettled.revenue
  rw [← howed]
  omega

theorem chargesRight_of_custID {cart : List Entry} (cash : ℕ)
    (hcust : s.get .custID i = price (content cart)) : ChargesRight i s cart cash := by
  have howed : (dealOf (networked i) (called i cart s) cart cash).owed = price (content cart) :=
    (called_owed s cart cash).trans hcust
  refine ⟨fun hex hreads hm => ?_, fun hex hreads hhalt => ?_⟩
  · rw [called_total, ← howed]
    exact (scene_of_execution hex hreads).2.begins hm
  · obtain ⟨m, v, hsettled⟩ := settled_of_halted hex hreads hhalt
    refine ⟨v, hsettled.customer, ?_⟩
    rw [← called_revenue (i := i) s cart, ← hsettled.toPaid.price_left howed]
    exact hsettled.revenue

/-- Where the manager reads the flag in time the networked programs charge right when the number of
the customer happens to be the price of his trolley, and at no other time. -/
theorem charges_right_iff (i : Fin numCashiers) (s : Shop) (cart : List Entry) (cash : ℕ) :
    ChargesRight i s cart cash ↔ s.get .custID i = price (content cart) :=
  ⟨custID_of_chargesRight, chargesRight_of_custID cash⟩

/-- The shop as it opens, with a customer at a cashier. -/
def openingShop (i : Fin numCashiers) (customerID : ℤ) : Shop :=
  Shop.set ⟨openingMarket, 0⟩ .custID i customerID

theorem openingShop_custID (i : Fin numCashiers) (customerID : ℤ) :
    (openingShop i customerID).get .custID i = customerID :=
  Shop.get_set _ (inRange_custID i) customerID

/-- Customer 8 has one item that costs 8, and customer 2 comes with another. -/
theorem charges_right_eight : ChargesRight 0 (openingShop 0 8) [⟨3, 1⟩] 4 ∧
    ¬ ChargesRight 0 (openingShop 0 2) [⟨3, 1⟩] 4 := by
  rw [charges_right_iff, charges_right_iff, openingShop_custID, openingShop_custID]
  decide

/-- Customer 2 has one item that costs 8, and 4 in cash. -/
theorem customer_two_undercharged :
    ((4 : ℕ) : ℤ) < price (content [⟨3, 1⟩]) ∧ ¬ ChargesRight 0 (openingShop 0 2) [⟨3, 1⟩] 4 := by
  refine ⟨by decide, fun h => ?_⟩
  have hprice := (openingShop_custID 0 2).symm.trans (custID_of_chargesRight h)
  exact absurd hprice (by decide)

end Nachos.Networked
