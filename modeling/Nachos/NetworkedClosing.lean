import Nachos.NetworkedVariables

/-! `test/manager.c`: the manager empties the drawers of the cashiers, during the day and once more
when all customers have left. The second copy of the code takes the balance of a register for the
number of a monitor variable. -/
namespace Nachos.Networked

/-- The server, and what the manager knows and holds. -/
structure Closing where
  market : Market
  totalRevenue : ℤ
  cashierLock : Fin numCashiers → Bool

namespace Closing
variable (c : Closing) (i : Fin numCashiers)

def acquire : Closing := { c with cashierLock := Function.update c.cashierLock i true }

def release : Closing := { c with cashierLock := Function.update c.cashierLock i false }

/-- Empties register `i`, which the manager reads and writes at the number `register`. Without
money in it there is no result, and with a number of no server no end. -/
def empty (register : Closing → Option ℤ) : Option (Option Closing) := do
  let balance ← c.market.getMV (← register c) i
  if balance > 0 then
    let c := { c with totalRevenue := c.totalRevenue + (← c.market.getMV (← register c) i) }
    let cashierTotal ← c.market.getMV (number .cashierTotals) i
    let market ← c.market.setMV (number .cashierTotals) i
      (cashierTotal + (← c.market.getMV (← register c) i))
    let c := { c with market }
    let market ← c.market.setMV (← register c) i 0
    return some (release { c with market } i)
  else return none

/-- `GetMV(cashRegister, i)` during the day, of a cashier who has not called the manager. -/
def emptyDrawer : Option Closing :=
  ((c.acquire i).empty i fun _ => some (number .cashRegister)).map fun r =>
    r.getD ((c.acquire i).release i)

/-- `GetMV(GetMV(cashRegister, i), i)` once all customers have left. -/
def closeRegister : Option Closing :=
  ((c.acquire i).empty i fun c => c.market.getMV (number .cashRegister) i).map fun r =>
    r.getD (c.acquire i)

variable {c i} {c' : Closing} {register : Closing → Option ℤ} {n balance : ℤ} {j : Fin numCashiers}

/-- The register that is emptied has the number `n` as long as entry `i` of `cashRegister` is kept. -/
def Finds (c : Closing) (i : Fin numCashiers) (register : Closing → Option ℤ) (n : ℤ) : Prop :=
  ∀ d : Closing, d.market.get .cashRegister i = c.market.get .cashRegister i → register d = some n

theorem inRange_totals (i : Fin numCashiers) : Market.InRange .cashierTotals i := by
  revert i
  decide +kernel

theorem inRange_register (i : Fin numCashiers) : Market.InRange .cashRegister i := by
  revert i
  decide +kernel

/-- What emptying does, in one go. -/
theorem empty_eq (h : Finds c i register n) : c.empty i register =
    (c.market.getMV n i).bind fun balance =>
      if balance > 0 then
        ((c.market.set .cashierTotals i (c.market.get .cashierTotals i + balance)).setMV n i 0).map
          fun market => some (release ⟨market, c.totalRevenue + balance, c.cashierLock⟩ i)
      else some none := by
  have hfirst : register c = some n := h c rfl
  have hsecond : ∀ revenue, register { c with totalRevenue := revenue } = some n := fun _ => h _ rfl
  have hthird : ∀ revenue v,
      register ⟨c.market.set .cashierTotals i v, revenue, c.cashierLock⟩ = some n := fun _ v =>
    h _ (c.market.get_set_of_ne (inRange_totals i) v (.inl (by decide)))
  cases hb : c.market.getMV n i with
  | none => simp [empty, hfirst, hb]
  | some balance =>
    by_cases hpos : balance > 0
    · simp [empty, hfirst, hb, hpos, hsecond, hthird, Option.map_eq_bind]
    · simp [empty, hfirst, hb, hpos]

variable (c i) in
/-- The balance of the register has gone to the revenue and to the total of the cashier, and the lock
is free. -/
structure Emptied (c' : Closing) : Prop where
  revenue : c'.totalRevenue = c.totalRevenue + c.market.get .cashRegister i
  cashierTotal : c'.market.get .cashierTotals i =
    c.market.get .cashierTotals i + c.market.get .cashRegister i
  register : c'.market.get .cashRegister i = 0
  free : c'.cashierLock i = false

variable (c i) in
/-- The other cashiers are left alone. -/
def Untouched (c' : Closing) : Prop :=
  ∀ j ≠ i, (∀ x, c'.market.get x j = c.market.get x j) ∧ c'.cashierLock j = c.cashierLock j

theorem val_ne {j : Fin numCashiers} (hj : j ≠ i) : (j : ℤ) ≠ i := by
  simpa [Fin.ext_iff] using hj

/-- The code does what it should where the number is that of the registers. -/
theorem empty_right (h : Finds c i register (number .cashRegister))
    (hpos : 0 < c.market.get .cashRegister i) :
    ∃ c', c.empty i register = some (some c') ∧ Emptied c i c' ∧ Untouched c i c' := by
  rw [empty_eq h, Market.getMV_number, Option.bind_some, if_pos hpos, Market.setMV_number]
  refine ⟨_, rfl, ⟨rfl, ?_, ?_, ?_⟩, fun j hj => ⟨fun x => ?_, ?_⟩⟩
  · exact (Market.get_set_of_ne _ (inRange_register i) 0 (.inl (by decide))).trans
      (c.market.get_set (inRange_totals i) _)
  · exact Market.get_set _ (inRange_register i) 0
  · simp [release]
  · exact (Market.get_set_of_ne _ (inRange_register i) 0 (.inr (val_ne hj))).trans
      (c.market.get_set_of_ne (inRange_totals i) _ (.inr (val_ne hj)))
  · simp [release, hj]

theorem get_acquire (x : Variable) : (c.acquire i).market.get x i = c.market.get x i := rfl

/-- During the day every drawer is emptied as it should be. -/
theorem emptyDrawer_right (h : 0 ≤ c.market.get .cashRegister i) :
    ∃ c', c.emptyDrawer i = some c' ∧ Emptied c i c' ∧ Untouched c i c' := by
  have hfinds : Finds (c.acquire i) i (fun _ => some (number .cashRegister)) (number .cashRegister) :=
    fun _ _ => rfl
  rcases h.eq_or_lt with hzero | hpos
  · refine ⟨(c.acquire i).release i, ?_, ⟨?_, ?_, hzero.symm, by simp [release]⟩, fun j hj => ?_⟩
    · rw [emptyDrawer, empty_eq hfinds, Market.getMV_number, Option.bind_some, if_neg]
      · rfl
      · exact (hzero.symm.le.not_gt ·)
    · rw [← hzero, add_zero]
      rfl
    · rw [← hzero, add_zero]
      rfl
    · exact ⟨fun _ => rfl, by simp [release, acquire, hj]⟩
  · obtain ⟨c', hrun, hemptied, hother⟩ := empty_right hfinds hpos
    refine ⟨c', by rw [emptyDrawer, hrun]; rfl, ⟨hemptied.revenue, hemptied.cashierTotal,
      hemptied.register, hemptied.free⟩, fun j hj => ⟨(hother j hj).1, ?_⟩⟩
    rw [(hother j hj).2]
    simp [acquire, hj]

/-! The closing pass. -/

theorem finds_closing (c : Closing) (i : Fin numCashiers) :
    Finds c i (fun c => c.market.getMV (number .cashRegister) i) (c.market.get .cashRegister i) := by
  intro d hd
  exact d.market.getMV_number.trans (congrArg some hd)

/-- What the closing pass does at one cashier. -/
theorem closeRegister_cases (h : c.closeRegister i = some c') :
    c' = c.acquire i ∨ ∃ balance market, 0 < balance ∧
      c.market.getMV (c.market.get .cashRegister i) i = some balance ∧
      (c.market.set .cashierTotals i (c.market.get .cashierTotals i + balance)).setMV
        (c.market.get .cashRegister i) i 0 = some market ∧
      c' = release ⟨market, c.totalRevenue + balance, (c.acquire i).cashierLock⟩ i := by
  unfold closeRegister at h
  rw [empty_eq (finds_closing _ i)] at h
  obtain ⟨r, hr, rfl⟩ := Option.map_eq_some_iff.mp h
  obtain ⟨balance, hbalance, hrest⟩ := Option.bind_eq_some_iff.mp hr
  split_ifs at hrest with hpos
  · obtain ⟨market, hmarket, rfl⟩ := Option.map_eq_some_iff.mp hrest
    exact .inr ⟨balance, market, hpos, hbalance, hmarket, rfl⟩
  · obtain rfl := Option.some.inj hrest
    exact .inl rfl

theorem closeRegister_untouched (h : c.closeRegister i = some c') : Untouched c i c' := by
  intro j hj
  rcases closeRegister_cases h with rfl | ⟨balance, market, -, -, hmarket, rfl⟩
  · exact ⟨fun _ => rfl, by simp [acquire, hj]⟩
  · refine ⟨fun x => ?_, by simp [release, acquire, hj]⟩
    exact (Market.get_setMV_of_ne _ hmarket (.inr (val_ne hj))).trans
      (c.market.get_set_of_ne (inRange_totals i) _ (.inr (val_ne hj)))

/-- A register that holds the number of the registers. -/
theorem closeRegister_right (h : c.market.get .cashRegister i = number .cashRegister) :
    ∃ c', c.closeRegister i = some c' ∧ Emptied c i c' := by
  have hfinds := finds_closing (c.acquire i) i
  rw [get_acquire, h] at hfinds
  have hpos : 0 < (c.acquire i).market.get .cashRegister i := by
    rw [get_acquire, h]
    decide
  obtain ⟨c', hrun, hemptied, -⟩ := empty_right hfinds hpos
  exact ⟨c', by rw [closeRegister, hrun]; rfl, ⟨hemptied.revenue, hemptied.cashierTotal,
    hemptied.register, hemptied.free⟩⟩

/-- Any other balance is not written off, or is taken for that of the total. -/
theorem register_of_closeRegister (h : c.closeRegister i = some c') (hfree : c'.cashierLock i = false)
    (htotal : c'.market.get .cashierTotals i =
      c.market.get .cashierTotals i + c.market.get .cashRegister i)
    (hzero : c'.market.get .cashRegister i = 0) :
    c.market.get .cashRegister i = number .cashRegister := by
  rcases closeRegister_cases h with rfl | ⟨balance, market, hpos, hbalance, hmarket, rfl⟩
  · simp [acquire] at hfree
  · by_contra hne
    -- a number that is not that of the registers leaves the register as it was: it held 0
    have hkept : market.get .cashRegister i = c.market.get .cashRegister i :=
      (Market.get_setMV_of_ne _ hmarket (.inl (Ne.symm hne))).trans
        (c.market.get_set_of_ne (inRange_totals i) _ (.inl (by decide)))
    have hregister : c.market.get .cashRegister i = 0 := hkept.symm.trans hzero
    have hnumber : number .cashierTotals = 0 := rfl
    rw [hregister, ← hnumber, Market.getMV_number] at hbalance
    rw [hregister, ← hnumber, Market.setMV_number] at hmarket
    obtain rfl := Option.some.inj hmarket
    have htotal' : (0 : ℤ) = c.market.get .cashierTotals i + c.market.get .cashRegister i :=
      (Market.get_set _ (inRange_totals i) 0).symm.trans htotal
    have hsome := Option.some.inj hbalance
    omega

/-- `for( i = 0; i < NUM_CASHIERS; i++)` -/
def closeAll : List (Fin numCashiers) → Closing → Option Closing
  | [], c => some c
  | i :: rest, c => (c.closeRegister i).bind (closeAll rest)

def closingPass (c : Closing) : Option Closing := closeAll (List.finRange numCashiers) c

theorem closeAll_untouched (is : List (Fin numCashiers)) :
    ∀ {c c' : Closing}, closeAll is c = some c' → ∀ j ∉ is,
      (∀ x, c'.market.get x j = c.market.get x j) ∧ c'.cashierLock j = c.cashierLock j := by
  induction is with
  | nil =>
    rintro c c' h j -
    obtain rfl := Option.some.inj h
    exact ⟨fun _ => rfl, rfl⟩
  | cons i is ih =>
    intro c c' h j hj
    obtain ⟨d, hd, hrest⟩ := Option.bind_eq_some_iff.mp h
    obtain ⟨hne, hmem⟩ := not_or.mp (mt List.mem_cons.mpr hj)
    obtain ⟨hvars, hlock⟩ := ih hrest j hmem
    obtain ⟨hvars', hlock'⟩ := closeRegister_untouched hd j hne
    exact ⟨fun x => (hvars x).trans (hvars' x), hlock.trans hlock'⟩

theorem closeAll_right (is : List (Fin numCashiers)) (hnodup : is.Nodup) :
    ∀ {c : Closing}, (∀ i ∈ is, c.market.get .cashRegister i = number .cashRegister) →
      ∃ c', closeAll is c = some c' ∧
        c'.totalRevenue = c.totalRevenue +
          (is.map fun i : Fin numCashiers => c.market.get .cashRegister i).sum ∧
        ∀ i ∈ is, c'.market.get .cashierTotals i =
            c.market.get .cashierTotals i + c.market.get .cashRegister i ∧
          c'.market.get .cashRegister i = 0 ∧ c'.cashierLock i = false := by
  induction is with
  | nil =>
    intro c _
    exact ⟨c, rfl, by simp, by simp⟩
  | cons i is ih =>
    intro c hall
    obtain ⟨hnot, hnodup⟩ := List.nodup_cons.mp hnodup
    obtain ⟨d, hd, hemptied⟩ := closeRegister_right (hall i (by simp))
    have hother := closeRegister_untouched hd
    have hne : ∀ j ∈ is, j ≠ i := fun j hj hji => hnot (hji ▸ hj)
    obtain ⟨c', hc', hrevenue, hdone⟩ := ih hnodup (c := d) fun j hj => by
      rw [(hother j (hne j hj)).1]
      exact hall j (by simp [hj])
    obtain ⟨hvars, hlock⟩ := closeAll_untouched is hc' i hnot
    refine ⟨c', by rw [closeAll, hd]; exact hc', ?_, fun j hj => ?_⟩
    · have hsum : (is.map fun j : Fin numCashiers => d.market.get .cashRegister j) =
          is.map fun j : Fin numCashiers => c.market.get .cashRegister j :=
        List.map_congr_left fun j hj => (hother j (hne j hj)).1 _
      rw [hrevenue, hemptied.revenue, hsum, List.map_cons, List.sum_cons]
      omega
    · rcases List.mem_cons.mp hj with rfl | hj
      · rw [hvars, hvars, hlock]
        exact ⟨hemptied.cashierTotal, hemptied.register, hemptied.free⟩
      · obtain ⟨htotal, hzero, hfree⟩ := hdone j hj
        rw [(hother j (hne j hj)).1, (hother j (hne j hj)).1] at htotal
        exact ⟨htotal, hzero, hfree⟩

theorem register_of_closeAll (is : List (Fin numCashiers)) (hnodup : is.Nodup) :
    ∀ {c c' : Closing}, closeAll is c = some c' →
      (∀ i ∈ is, c'.market.get .cashierTotals i =
          c.market.get .cashierTotals i + c.market.get .cashRegister i ∧
        c'.market.get .cashRegister i = 0 ∧ c'.cashierLock i = false) →
      ∀ i ∈ is, c.market.get .cashRegister i = number .cashRegister := by
  induction is with
  | nil => simp
  | cons i is ih =>
    intro c c' h hdone j hj
    obtain ⟨hnot, hnodup⟩ := List.nodup_cons.mp hnodup
    obtain ⟨d, hd, hrest⟩ := Option.bind_eq_some_iff.mp h
    have hother := closeRegister_untouched hd
    rcases List.mem_cons.mp hj with rfl | hmem
    · obtain ⟨hvars, hlock⟩ := closeAll_untouched is hrest j hnot
      obtain ⟨htotal, hzero, hfree⟩ := hdone j (by simp)
      rw [hvars] at htotal hzero
      exact register_of_closeRegister hd (hlock ▸ hfree) htotal hzero
    · have hne : ∀ k ∈ is, k ≠ i := fun k hk hki => hnot (hki ▸ hk)
      rw [← (hother j (hne j hmem)).1]
      refine ih hnodup hrest (fun k hk => ?_) j hmem
      rw [(hother k (hne k hk)).1, (hother k (hne k hk)).1]
      exact hdone k (by simp [hk])

/-- What closing the store should come to: every balance has been added to the revenue and to the
total of its cashier, the registers are empty and the locks free. -/
structure Closed (c c' : Closing) : Prop where
  revenue : c'.totalRevenue =
    c.totalRevenue + ∑ i : Fin numCashiers, c.market.get .cashRegister i
  cashierTotals : ∀ i : Fin numCashiers, c'.market.get .cashierTotals i =
    c.market.get .cashierTotals i + c.market.get .cashRegister i
  registers : ∀ i : Fin numCashiers, c'.market.get .cashRegister i = 0
  free : ∀ i, c'.cashierLock i = false

theorem register_of_closed (h : closingPass c = some c') (hclosed : Closed c c')
    (i : Fin numCashiers) : c.market.get .cashRegister i = number .cashRegister :=
  register_of_closeAll (List.finRange numCashiers) (List.nodup_finRange _) h
    (fun i _ => ⟨hclosed.cashierTotals i, hclosed.registers i, hclosed.free i⟩) i
    (List.mem_finRange i)

end Closing
open Closing

/-- The closing pass ends and is right when every register holds as much as the number of the
registers is, and at no other time. -/
theorem closes_right_iff (market : Market) (totalRevenue : ℤ) :
    (∃ c', closingPass ⟨market, totalRevenue, fun _ => false⟩ = some c' ∧
      Closed ⟨market, totalRevenue, fun _ => false⟩ c') ↔
      ∀ i : Fin numCashiers, market.get .cashRegister i = number .cashRegister := by
  constructor
  · rintro ⟨c', hrun, hclosed⟩
    exact register_of_closed hrun hclosed
  · intro h
    obtain ⟨c', hrun, hrevenue, hdone⟩ := closeAll_right (List.finRange numCashiers)
      (List.nodup_finRange _) (c := ⟨market, totalRevenue, fun _ => false⟩) fun i _ => h i
    refine ⟨c', hrun, ?_, fun i => (hdone i (List.mem_finRange i)).1,
      fun i => (hdone i (List.mem_finRange i)).2.1, fun i => (hdone i (List.mem_finRange i)).2.2⟩
    rw [hrevenue, Fin.sum_univ_def]

/-- The store as it opens, but for 8 in the register of cashier 0. -/
theorem closing_loses_eight : ¬ ∃ c',
    closingPass ⟨openingMarket.set .cashRegister 0 8, 0, fun _ => false⟩ = some c' ∧
      Closed ⟨openingMarket.set .cashRegister 0 8, 0, fun _ => false⟩ c' := by
  rintro ⟨c', hrun, hclosed⟩
  have hregister := register_of_closed hrun hclosed 0
  have height : (openingMarket.set .cashRegister 0 8).get .cashRegister 0 = 8 :=
    Market.get_set _ (by decide +kernel) 8
  exact absurd (height.symm.trans hregister) (by decide)

end Nachos.Networked
