import Nachos.MesaThreads
import Nachos.NetworkedVariables

/-! The trollies of the networked supermarket: `test/customer.c` takes them at the front of the
store and leaves them at its end, `test/goodsloader.c` moves them back, and `test/manager.c` and
`test/cashier.c` reckon the money, in variables of their own but for one. The locks of the
cashiers, which nobody takes who touches a trolley, are left out. -/
namespace Nachos.Networked.Trollies
open Mesa Executions Network

inductive LockName
  | trollyLock
  | displacedTrollyLock
  deriving DecidableEq, Repr

inductive ConditionName
  | trollyCV
  deriving DecidableEq, Repr

def lockOf : ConditionName → LockName
  | .trollyCV => .trollyLock

inductive CustomerStep
  | enter
  /-- `while(GetMV(trollyCount, 0) == 0)` -/
  | check
  | wait
  | readFront
  | take (trollyCount : ℤ)
  | releaseFront
  /-- shops, pays and comes to the end of the store -/
  | shop
  | readDisplaced
  | leave (displacedTrollyCount : ℤ)
  | releaseDisplaced
  | left
  deriving DecidableEq, Repr

inductive LoaderStep
  | idle
  | check
  | readDisplaced
  | clear (restoreTrollies : ℤ)
  | releaseDisplaced (restoreTrollies : ℤ)
  /-- `if(restoreTrollies != 0)` -/
  | restore (restoreTrollies : ℤ)
  | readFront (restoreTrollies : ℤ)
  | add (restoreTrollies trollyCount : ℤ)
  | broadcast
  | releaseFront
  deriving DecidableEq, Repr

/-- Emptying drawer `i`, in the loop or in the closing pass: `register` is the number of the
variable that the balance is taken from. -/
inductive ManagerStep
  | idle
  | register (closing : Bool) (i : Fin numCashiers)
  | check (closing : Bool) (i : Fin numCashiers) (register : ℤ)
  | readTotal (closing : Bool) (i : Fin numCashiers)
  | registerAgain (closing : Bool) (i : Fin numCashiers) (cashierTotal : ℤ)
  | readBalance (closing : Bool) (i : Fin numCashiers) (cashierTotal register : ℤ)
  | add (closing : Bool) (i : Fin numCashiers) (cashierTotal : ℤ)
  | registerLast (closing : Bool) (i : Fin numCashiers)
  | clear (i : Fin numCashiers) (register : ℤ)
  deriving DecidableEq, Repr

inductive Place
  | customer (pc : CustomerStep)
  | loader (pc : LoaderStep)
  | manager (pc : ManagerStep)
  | cashier
  deriving DecidableEq, Repr

inductive Role
  | customer
  | loader
  | manager
  | cashier
  deriving DecidableEq, Repr

instance : Fintype Role := ⟨{.customer, .loader, .manager, .cashier}, fun r => by cases r <;> decide⟩

/-- What comes next where the trollies do not decide it. -/
structure Choice where
  closing : Bool
  i : Fin numCashiers
  balance : ℤ

abbrev Code := Instruction LockName ConditionName Market Place

def customerCode (m : Market) : CustomerStep → Option Code
  | .enter => some (.acquire .trollyLock (.customer .check))
  | .check => some (.access m (.customer (if m.get .trollyCount 0 = 0 then .wait else .readFront)))
  | .wait => some (.wait .trollyCV (.customer .check))
  | .readFront => some (.access m (.customer (.take (m.get .trollyCount 0))))
  | .take front => some (.access (m.set .trollyCount 0 (front - 1)) (.customer .releaseFront))
  | .releaseFront => some (.release .trollyLock (.customer .shop))
  | .shop => some (.acquire .displacedTrollyLock (.customer .readDisplaced))
  | .readDisplaced => some (.access m (.customer (.leave (m.get .displacedTrollyCount 0))))
  | .leave displaced =>
    some (.access (m.set .displacedTrollyCount 0 (displaced + 1)) (.customer .releaseDisplaced))
  | .releaseDisplaced => some (.release .displacedTrollyLock (.customer .left))
  | .left => none

def loaderCode (m : Market) : LoaderStep → Option Code
  | .idle => some (.acquire .displacedTrollyLock (.loader .check))
  | .check =>
    some (.access m (.loader (if m.get .displacedTrollyCount 0 > 0 then .readDisplaced
      else .releaseDisplaced 0)))
  | .readDisplaced => some (.access m (.loader (.clear (m.get .displacedTrollyCount 0))))
  | .clear n => some (.access (m.set .displacedTrollyCount 0 0) (.loader (.releaseDisplaced n)))
  | .releaseDisplaced n =>
    some (.release .displacedTrollyLock (.loader (if n ≠ 0 then .restore n else .idle)))
  | .restore n => some (.acquire .trollyLock (.loader (.readFront n)))
  | .readFront n => some (.access m (.loader (.add n (m.get .trollyCount 0))))
  | .add n front => some (.access (m.set .trollyCount 0 (front + n)) (.loader .broadcast))
  | .broadcast => some (.broadcast .trollyCV (.loader .releaseFront))
  | .releaseFront => some (.release .trollyLock (.loader .idle))

/-- `cashRegister`, or `GetMV(cashRegister, i)` in the closing pass -/
def registerNumber (m : Market) (closing : Bool) (i : Fin numCashiers) : ℤ :=
  if closing then m.get .cashRegister i else number .cashRegister

def managerCode (m : Market) (choice : Choice) : ManagerStep → Option Code
  | .idle => some (.access m (.manager (.register choice.closing choice.i)))
  | .register closing i =>
    some (.access m (.manager (.check closing i (registerNumber m closing i))))
  | .check closing i n => (m.getMV n i).map fun balance =>
      .access m (.manager (if balance > 0 then .readTotal closing i else .idle))
  | .readTotal closing i =>
    some (.access m (.manager (.registerAgain closing i (m.get .cashierTotals i))))
  | .registerAgain closing i total =>
    some (.access m (.manager (.readBalance closing i total (registerNumber m closing i))))
  | .readBalance closing i total n => (m.getMV n i).map fun balance =>
      .access m (.manager (.add closing i (total + balance)))
  | .add closing i total =>
    some (.access (m.set .cashierTotals i total) (.manager (.registerLast closing i)))
  | .registerLast closing i => some (.access m (.manager (.clear i (registerNumber m closing i))))
  | .clear i n => (m.setMV n i 0).map fun m' => .access m' (.manager .idle)

/-- A cashier changes what is in his register. -/
def cashierCode (m : Market) (choice : Choice) : Option Code :=
  some (.access (m.set .cashRegister choice.i choice.balance) .cashier)

variable {T : Type*} [DecidableEq T]

def program : Program T LockName ConditionName Market Place Choice := fun m _ p choice =>
  match p with
  | .customer pc => customerCode m pc
  | .loader pc => loaderCode m pc
  | .manager pc => managerCode m choice pc
  | .cashier => cashierCode m choice

def start : Role → Place
  | .customer => .customer .enter
  | .loader => .loader .idle
  | .manager => .manager .idle
  | .cashier => .cashier

abbrev Supermarket (T : Type*) := State T LockName ConditionName Market Place

/-- The processes after `setup`. -/
def initial (role : T → Role) : Supermarket T := State.initial openingMarket fun t => start (role t)

def holds : Place → LockName → Prop
  | .customer pc, l => match pc with
    | .check | .wait | .readFront | .take _ | .releaseFront => l = .trollyLock
    | .readDisplaced | .leave _ | .releaseDisplaced => l = .displacedTrollyLock
    | .enter | .shop | .left => False
  | .loader pc, l => match pc with
    | .check | .readDisplaced | .clear _ | .releaseDisplaced _ => l = .displacedTrollyLock
    | .readFront _ | .add _ _ | .broadcast | .releaseFront => l = .trollyLock
    | .idle | .restore _ => False
  | .manager _, _ => False
  | .cashier, _ => False

/-! What should be conserved. -/

/-- The trollies that a process has at a place. -/
def Place.carried : Place → ℤ
  | .customer .releaseFront | .customer .shop | .customer .readDisplaced | .customer (.leave _) => 1
  | .loader (.releaseDisplaced n) | .loader (.restore n) | .loader (.readFront n)
  | .loader (.add n _) => n
  | _ => 0

def placeOf : Control LockName ConditionName Place → Place
  | .runs p | .acquiring _ p | .waiting _ p => p

/-- At the front of the store, at its end, and with customers and loaders. -/
def trollies [Fintype T] (g : Supermarket T) : ℤ :=
  g.shared.get .trollyCount 0 + g.shared.get .displacedTrollyCount 0 +
    ∑ t, (placeOf (g.control t)).carried

def Conserved [Fintype T] (g : Supermarket T) : Prop := trollies g = numTrolly

/-- The displaced trollies have a variable to themselves. -/
def Unshared (globals : Variable → ℤ) : Prop :=
  ∀ x, x ≠ .displacedTrollyCount → globals x ≠ globals .displacedTrollyCount

/-- The manager is about to write the total of cashier 0, or, in the closing pass, another variable
that counts trollies. -/
def Place.Disturbs : Place → Prop
  | .manager (.add _ i _) => i = 0
  | .manager (.clear i n) => i = 0 ∧ (n = number .trollyCount ∨ n = number .displacedTrollyCount)
  | _ => False

/-- The step does not write such a variable. -/
def KeepsOff (x : Transition (Supermarket T) (T × Choice)) : Prop :=
  ∀ p, x.before.control x.event.1 = .runs p → ¬ p.Disturbs

/-! The counts, and what the processes have read of them. -/

def count (m : Market) : LockName → ℤ
  | .trollyLock => m.get .trollyCount 0
  | .displacedTrollyLock => m.get .displacedTrollyCount 0

def stored (m : Market) : ℤ := count m .trollyLock + count m .displacedTrollyLock

/-- The count of the lock, as a process has read it and is about to write it anew. -/
def Place.copy : Place → Option (LockName × ℤ)
  | .customer (.take v) | .loader (.add _ v) => some (.trollyLock, v)
  | .customer (.leave v) | .loader (.clear v) => some (.displacedTrollyLock, v)
  | _ => none

/-- Who has read a count keeps its lock, and the count is still the same. -/
def Aware (g : Supermarket T) : Prop :=
  ∀ t l v, (placeOf (g.control t)).copy = some (l, v) →
    (g.control t).Has lockOf holds l ∧ count g.shared l = v

/-- What an instruction does to the trollies that are stored and carried. -/
def Accounts (m : Market) (p : Place) : Code → Prop
  | .access m' q => stored m' + q.carried = stored m + p.carried ∧
      (∀ l, ¬ holds p l → count m' l = count m l) ∧
      ∀ l v, q.copy = some (l, v) → count m' l = v
  | .acquire _ q | .release _ q | .wait _ q | .signal _ q | .broadcast _ q =>
    q.carried = p.carried ∧ q.copy = none

section
variable {m m' : Market} {p q : Place} {l : LockName} {v i : ℤ} {x : Variable} {a : Code}
  {choice : Choice}

theorem inRange_trolly : Market.InRange .trollyCount 0 := by decide +kernel

theorem inRange_totals (i : Fin numCashiers) : Market.InRange .cashierTotals i := by
  revert i
  decide +kernel

theorem inRange_register (i : Fin numCashiers) : Market.InRange .cashRegister i := by
  revert i
  decide +kernel

@[simp] theorem count_set_trolly (l : LockName) :
    count (m.set .trollyCount 0 v) l = if l = .trollyLock then v else count m l := by
  cases l
  · exact m.get_set inRange_trolly v
  · exact m.get_set_of_ne inRange_trolly v (.inl (by decide))

/-- The displaced trollies are counted where the total of cashier 0 is. -/
@[simp] theorem count_set_displaced (l : LockName) :
    count (m.set .displacedTrollyCount 0 v) l = if l = .displacedTrollyLock then v else count m l := by
  have hset : m.set .displacedTrollyCount 0 v = m.set .cashierTotals 0 v := rfl
  rw [hset]
  cases l
  · exact m.get_set_of_ne (inRange_totals 0) v (.inl (by decide))
  · exact m.get_set (inRange_totals 0) v

theorem holds_of_copy (h : p.copy = some (l, v)) : holds p l := by
  unfold Place.copy at h
  split at h
  all_goals cases h
  all_goals rfl

theorem Accounts.read (hcarried : q.carried = p.carried)
    (hcopy : ∀ l v, q.copy = some (l, v) → count m l = v) : Accounts m p (.access m q) :=
  ⟨by rw [hcarried], fun _ _ => rfl, hcopy⟩

/-- A variable that counts no trollies is written. -/
theorem Accounts.elsewhere (hcount : ∀ l, count m' l = count m l) (hp : p.carried = 0)
    (hq : q.carried = 0) (hcopy : q.copy = none) : Accounts m p (.access m' q) := by
  refine ⟨?_, fun l _ => hcount l, by simp [hcopy]⟩
  rw [stored, stored, hcount, hcount, hp, hq]

/-- A count is written by a process that has read it. -/
theorem Accounts.write {w : ℤ} (hcount : ∀ k, count m' k = if k = l then w else count m k)
    (hp : p.copy = some (l, v)) (hv : count m l = v) (hcarried : w + q.carried = v + p.carried)
    (hq : q.copy = none) : Accounts m p (.access m' q) := by
  refine ⟨?_, fun k hk => ?_, by simp [hq]⟩
  · cases l
    all_goals
      simp only [stored, hcount, reduceCtorEq, if_true, if_false, hv]
      omega
  · have hkl : k ≠ l := by
      rintro rfl
      exact hk (holds_of_copy hp)
    rw [hcount, if_neg hkl]

theorem customer_accounts {pc : CustomerStep}
    (hcopy : ∀ l v, (Place.customer pc).copy = some (l, v) → count m l = v)
    (h : customerCode m pc = some a) : Accounts m (.customer pc) a := by
  cases pc with
  | enter | wait | releaseFront | shop | releaseDisplaced =>
    obtain rfl := Option.some.inj h
    exact ⟨rfl, rfl⟩
  | check =>
    obtain rfl := Option.some.inj h
    split_ifs
    all_goals exact .read rfl (by simp [Place.copy])
  | readFront | readDisplaced =>
    obtain rfl := Option.some.inj h
    refine .read rfl ?_
    rintro l v ⟨⟩
    rfl
  | take front =>
    obtain rfl := Option.some.inj h
    exact .write count_set_trolly rfl (hcopy _ _ rfl) (by simp [Place.carried]) rfl
  | leave displaced =>
    obtain rfl := Option.some.inj h
    exact .write count_set_displaced rfl (hcopy _ _ rfl) (add_zero _) rfl
  | left => cases h

theorem loader_accounts {pc : LoaderStep}
    (hcopy : ∀ l v, (Place.loader pc).copy = some (l, v) → count m l = v)
    (h : loaderCode m pc = some a) : Accounts m (.loader pc) a := by
  cases pc with
  | idle | restore n | broadcast | releaseFront =>
    obtain rfl := Option.some.inj h
    exact ⟨rfl, rfl⟩
  | check =>
    obtain rfl := Option.some.inj h
    split_ifs
    all_goals exact .read rfl (by simp [Place.copy])
  | readDisplaced | readFront n =>
    obtain rfl := Option.some.inj h
    refine .read rfl ?_
    rintro l v ⟨⟩
    rfl
  | clear n =>
    obtain rfl := Option.some.inj h
    exact .write count_set_displaced rfl (hcopy _ _ rfl) (by simp [Place.carried]) rfl
  | releaseDisplaced n =>
    obtain rfl := Option.some.inj h
    by_cases hn : n = 0
    · subst hn
      exact ⟨rfl, rfl⟩
    · rw [if_pos hn]
      exact ⟨rfl, rfl⟩
  | add n front =>
    obtain rfl := Option.some.inj h
    exact .write count_set_trolly rfl (hcopy _ _ rfl) (add_zero _) rfl

/-- The manager's writes, those to the counts of trollies apart. -/
theorem manager_accounts {pc : ManagerStep} (hkeeps : ¬ (Place.manager pc).Disturbs)
    (h : managerCode m choice pc = some a) : Accounts m (.manager pc) a := by
  have hread : ∀ pc', Accounts m (.manager pc) (.access m (.manager pc')) := fun pc' =>
    .read rfl (by simp [Place.copy])
  cases pc with
  | idle | register closing i | readTotal closing i | registerAgain closing i n
  | registerLast closing i =>
    obtain rfl := Option.some.inj h
    exact hread _
  | check closing i n | readBalance closing i total n =>
    obtain ⟨balance, -, rfl⟩ := Option.map_eq_some_iff.mp h
    exact hread _
  | add closing i total =>
    obtain rfl := Option.some.inj h
    have hi : (0 : ℤ) ≠ i := by
      intro h0
      exact hkeeps (Fin.ext (Int.ofNat.inj h0.symm))
    refine .elsewhere (fun l => ?_) rfl rfl rfl
    cases l
    all_goals exact m.get_set_of_ne (inRange_totals i) total (.inr hi)
  | clear i n =>
    obtain ⟨m', hset, rfl⟩ := Option.map_eq_some_iff.mp h
    have hne : ∀ x, x = .trollyCount ∨ x = .displacedTrollyCount → number x ≠ n ∨ (0 : ℤ) ≠ i := by
      intro x hx
      by_contra hboth
      push Not at hboth
      refine hkeeps ⟨Fin.ext (Int.ofNat.inj hboth.2.symm), ?_⟩
      rcases hx with rfl | rfl
      · exact .inl hboth.1.symm
      · exact .inr hboth.1.symm
    refine .elsewhere (fun l => ?_) rfl rfl rfl
    cases l
    · exact m.get_setMV_of_ne hset (hne _ (.inl rfl))
    · exact m.get_setMV_of_ne hset (hne _ (.inr rfl))

theorem cashier_accounts (h : cashierCode m choice = some a) : Accounts m .cashier a := by
  obtain rfl := Option.some.inj h
  refine .elsewhere (fun l => ?_) rfl rfl rfl
  cases l
  all_goals exact m.get_set_of_ne (inRange_register choice.i) choice.balance (.inl (by decide))

omit [DecidableEq T] in
theorem program_accounts {t : T} (hkeeps : ¬ p.Disturbs)
    (hcopy : ∀ l v, p.copy = some (l, v) → count m l = v) (h : program m t p choice = some a) :
    Accounts m p a := by
  cases p with
  | customer pc => exact customer_accounts hcopy h
  | loader pc => exact loader_accounts hcopy h
  | manager pc => exact manager_accounts hkeeps h
  | cashier => exact cashier_accounts h

end

/-! One step. -/

omit [DecidableEq T] in
theorem program_discipline : Discipline lockOf (program (T := T)) holds := by
  intro m t p choice a h
  cases p with
  | customer pc =>
    cases pc <;> cases h <;> simp [Instruction.Respects, holds, lockOf]
    all_goals split_ifs <;> simp
  | loader pc =>
    cases pc <;> cases h <;> simp [Instruction.Respects, holds, lockOf]
    all_goals split_ifs <;> simp
  | manager pc =>
    cases pc with
    | idle | register closing i | readTotal closing i | registerAgain closing i n
    | add closing i total | registerLast closing i =>
      obtain rfl := Option.some.inj h
      exact fun _ => Iff.rfl
    | check closing i n | readBalance closing i total n | clear i n =>
      obtain ⟨_, -, rfl⟩ := Option.map_eq_some_iff.mp h
      exact fun _ => Iff.rfl
  | cashier =>
    obtain rfl := Option.some.inj h
    exact fun _ => Iff.rfl

/-- A step of thread `t` that accounts for its trollies. -/
structure Moved (g g' : Supermarket T) (t : T) : Prop where
  control : ∀ u, u ≠ t → g'.control u = g.control u
  account : stored g'.shared + (placeOf (g'.control t)).carried =
    stored g.shared + (placeOf (g.control t)).carried
  counts : ∀ l, ¬ (g.control t).Has lockOf holds l → count g'.shared l = count g.shared l
  copy : ∀ l v, (placeOf (g'.control t)).copy = some (l, v) →
    (g'.control t).Has lockOf holds l ∧ count g'.shared l = v

section
variable {g g' : Supermarket T} {t : T} {choice : Choice} {p : Place} {a : Code}

theorem Moved.of_accounts (hc : g.control t = .runs p) (hcontrol : ∀ u, u ≠ t → g'.control u = g.control u)
    (ha : Accounts g.shared p a) (he : Effect lockOf g t a g') : Moved g g' t := by
  have hplace : (placeOf (g.control t)) = p := by rw [hc, placeOf]
  have hcalm : ∀ q, placeOf (g'.control t) = q → g'.shared = g.shared →
      q.carried = p.carried ∧ q.copy = none → Moved g g' t := by
    rintro q hq hshared ⟨hcarried, hcopy⟩
    refine ⟨hcontrol, ?_, fun l _ => by rw [hshared], fun l v hv => ?_⟩
    · rw [hshared, hq, hcarried, hplace]
    · rw [hq, hcopy] at hv
      cases hv
  cases he with
  | @acquire _ q | @release _ q | @wait _ q | @signal _ q | @broadcast _ q =>
    exact hcalm q (by simp [placeOf]) rfl ha
  | @access m' q =>
    obtain ⟨haccount, hcounts, hcopy⟩ := ha
    have hk : (({ g with shared := m' } : Supermarket T).goto t (.runs q)).control t = .runs q := by
      simp
    refine ⟨hcontrol, ?_, fun l hl => hcounts l ?_, fun l v hv => ?_⟩
    · rw [hk, hplace]
      exact haccount
    · rwa [hc] at hl
    · rw [hk] at hv ⊢
      exact ⟨holds_of_copy hv, hcopy l v hv⟩

omit [DecidableEq T] in
/-- The thread wakes up, or is given the lock that it asked for. -/
theorem Moved.of_resumes (haware : Aware g) (hshared : g'.shared = g.shared)
    (hcontrol : ∀ u, u ≠ t → g'.control u = g.control u)
    (hplace : placeOf (g'.control t) = placeOf (g.control t))
    (hhas : ∀ l, (g.control t).Has lockOf holds l → (g'.control t).Has lockOf holds l) :
    Moved g g' t := by
  refine ⟨hcontrol, by rw [hshared, hplace], fun l _ => by rw [hshared], fun l v hv => ?_⟩
  obtain ⟨hl, hcount⟩ := haware t l v (hplace ▸ hv)
  exact ⟨hhas l hl, hshared ▸ hcount⟩

theorem moved (hl : LocksRight lockOf holds g) (haware : Aware g)
    (hm : Move lockOf program g t choice g')
    (hkeeps : ∀ p, g.control t = .runs p → ¬ p.Disturbs) : Moved g g' t := by
  have hcontrol : ∀ u, u ≠ t → g'.control u = g.control u := fun u hu => hm.control_of_ne hu
  cases hc : g.control t with
  | acquiring l p =>
    obtain ⟨-, rfl⟩ := hm.of_acquiring hc
    refine .of_resumes haware rfl hcontrol (by simp [hc, placeOf]) fun k hk => ?_
    rw [hc] at hk
    rw [goto_control, if_pos rfl]
    exact hk.2
  | waiting c p =>
    obtain ⟨-, rfl⟩ := hm.of_waiting hc
    refine .of_resumes haware rfl hcontrol (by simp [hc, placeOf]) fun k hk => ?_
    rw [hc] at hk
    rw [acquire_control, if_pos rfl]
    exact hk
  | runs p =>
    obtain ⟨a, hi, he⟩ := hm.effect program_discipline hl hc
    refine .of_accounts hc hcontrol (program_accounts (hkeeps p hc) (fun l v hv => ?_) hi) he
    exact (haware t l v (by rw [hc]; exact hv)).2

/-- What a thread knows of a count stays true while it keeps the lock. -/
theorem Aware.moved (h : Aware g) (hl : LocksRight lockOf holds g) (hm : Moved g g' t) :
    Aware g' := by
  intro u l v hv
  by_cases hu : u = t
  · subst hu
    exact hm.copy l v hv
  · rw [hm.control u hu] at hv ⊢
    obtain ⟨hhas, hcount⟩ := h u l v hv
    have hother : ¬ (g.control t).Has lockOf holds l := fun ht => hu (hl.exclusive hhas ht)
    exact ⟨hhas, (hm.counts l hother).trans hcount⟩

theorem Moved.trollies_eq [Fintype T] (hm : Moved g g' t) : trollies g' = trollies g := by
  have hrest : ∑ u ∈ Finset.univ.erase t, (placeOf (g'.control u)).carried =
      ∑ u ∈ Finset.univ.erase t, (placeOf (g.control u)).carried := by
    refine Finset.sum_congr rfl fun u hu => ?_
    rw [hm.control u (Finset.ne_of_mem_erase hu)]
  have hafter := Finset.add_sum_erase Finset.univ (fun u => (placeOf (g'.control u)).carried)
    (Finset.mem_univ t)
  have hbefore := Finset.add_sum_erase Finset.univ (fun u => (placeOf (g.control u)).carried)
    (Finset.mem_univ t)
  have haccount := hm.account
  simp only [stored, count] at haccount hafter hbefore
  simp only [trollies]
  omega

end

/-! Whole runs. -/

section
variable {role : T → Role} {g : Supermarket T} {tr : List (Transition (Supermarket T) (T × Choice))}

theorem not_holds_start (role : Role) (l : LockName) : ¬ holds (start role) l := by
  cases role <;> exact id

omit [DecidableEq T] in
theorem aware_initial : Aware (initial role) := by
  intro t l v hv
  cases hr : role t <;> simp [initial, State.initial, placeOf, start, hr, Place.copy] at hv

omit [DecidableEq T] in
theorem conserved_initial [Fintype T] : Conserved (initial role) := by
  have hfront : openingMarket.get .trollyCount 0 = numTrolly :=
    Market.openingMarket_get (c := ⟨.trollyCount, "trollyCount", 1, numTrolly⟩)
      (by simp [creations]) (by decide)
  have hdisplaced : openingMarket.get .displacedTrollyCount 0 = 0 :=
    Market.openingMarket_get (c := ⟨.cashierTotals, "cTotals", numCashiers, 0⟩)
      (by simp [creations]) (by decide)
  have hcarried : ∀ t, (placeOf ((initial role).control t)).carried = 0 := by
    intro t
    cases hr : role t <;> simp [initial, State.initial, placeOf, start, hr, Place.carried]
  have hshared : (initial role).shared = openingMarket := rfl
  simp only [Conserved, trollies, hcarried, hshared, hfront, hdisplaced, Finset.sum_const_zero,
    add_zero]

theorem conserved_of_keepsOff [Fintype T] (h : Execution (Steps lockOf program) (initial role) tr g)
    (hkeeps : ∀ x ∈ tr, KeepsOff x) : Conserved g := by
  have hall := h.invariant_of_cond
    (P := fun g => LocksRight lockOf holds g ∧ Aware g ∧ Conserved g) (Q := KeepsOff)
    ⟨.initial _ fun t => not_holds_start (role t), aware_initial, conserved_initial⟩
    (fun x hx hs hq => ?_) hkeeps
  · exact hall.2.2
  · obtain ⟨hl, haware, hcons⟩ := hx
    have hm := step_move hs
    have hmoved := moved hl haware hm hq
    exact ⟨hl.move program_discipline hm, haware.moved hl hmoved, hmoved.trollies_eq.trans hcons⟩

theorem not_unshared : ¬ Unshared number := fun h => h .cashierTotals (by decide) rfl

/-- In every state of every run the displaced trollies are counted in the variable of another
quantity, in the numbers that each program has from its `setup`. No trolley has appeared or got
lost if the manager has kept off the counts. -/
theorem trollies_wrong [Fintype T] (h : Execution (Steps lockOf program) (initial role) tr g) :
    (∀ client, ∃ globals, setup client creations (fun _ => 0) g.shared.server =
      some (globals, g.shared.server) ∧ ¬ (Conserved g ∧ Unshared globals)) ∧
    ((∀ x ∈ tr, KeepsOff x) → Conserved g) := by
  refine ⟨fun client => ⟨number, g.shared.opened.setup, fun hboth => ?_⟩, conserved_of_keepsOff h⟩
  exact not_unshared hboth.2

end

/-! Stores without a manager. -/

section
variable {role : T → Role} {g g' : Supermarket T} {t : T} {choice : Choice} {p : Place} {a : Code}
  {tr : List (Transition (Supermarket T) (T × Choice))}

def Place.isManager : Place → Bool
  | .manager _ => true
  | _ => false

omit [DecidableEq T] in
theorem isManager_next {m : Market} (hp : p.isManager = false)
    (h : program m t p choice = some a) : a.next.isManager = false := by
  cases p with
  | customer pc =>
    cases pc <;> cases h <;> simp [Instruction.next, Place.isManager]
  | loader pc =>
    cases pc <;> cases h <;> simp [Instruction.next, Place.isManager]
  | manager pc => cases hp
  | cashier =>
    obtain rfl := Option.some.inj h
    rfl

theorem isManager_move (h : ∀ u, (placeOf (g.control u)).isManager = false)
    (hm : Move lockOf program g t choice g') : ∀ u, (placeOf (g'.control u)).isManager = false := by
  have hmover : (placeOf (g'.control t)).isManager = false := by
    have ht := h t
    cases hm with
    | granted hc ho => simpa [hc, placeOf] using ht
    | woken hc hw => simpa [hc, placeOf] using ht
    | acquire hc hi | release hc hi | wait hc hi | signal hc hi | broadcast hc hi | access hc hi =>
      rw [hc] at ht
      simpa [placeOf, Instruction.next] using isManager_next ht hi
    | @refused p q c a hc hi ha ho =>
      rw [hc] at ht
      have hq := isManager_next ht hi
      rcases ha with rfl | rfl | rfl <;> simpa [placeOf, Instruction.next] using hq
  intro u
  by_cases hu : u = t
  · exact hu ▸ hmover
  · rw [hm.control_of_ne hu]
    exact h u

/-- Nobody else writes a total. -/
theorem keepsOff_of_no_manager (hrole : ∀ t, role t ≠ .manager)
    (h : Execution (Steps lockOf program) (initial role) tr g) : ∀ x ∈ tr, KeepsOff x := by
  have hstart : ∀ u, (placeOf ((initial role).control u)).isManager = false := by
    intro u
    have hu := hrole u
    cases hr : role u <;> simp_all [initial, State.initial, placeOf, start, Place.isManager]
  intro x hx p hp hdisturbs
  have hplace := (h.mem hstart (fun _ _ _ hg hs => isManager_move hg (step_move hs)) hx).1 x.event.1
  rw [hp] at hplace
  cases p with
  | manager pc => cases hplace
  | customer pc | loader pc | cashier => exact hdisturbs

end

/-- A customer takes a trolley and leaves it, and the loader moves it back to the front. -/
theorem trollies_wrong_restored : ∃ (tr : List (Transition (Supermarket Bool) (Bool × Choice)))
    (g : Supermarket Bool),
    Execution (Steps lockOf program) (initial fun b => if b then .customer else .loader) tr g ∧
      placeOf (g.control true) = .customer .left ∧ g.shared.get .trollyCount 0 = numTrolly ∧
      (∃ globals, setup ⟨1, 0⟩ creations (fun _ => 0) g.shared.server =
        some (globals, g.shared.server) ∧ ¬ (Conserved g ∧ Unshared globals)) ∧ Conserved g := by
  obtain ⟨tr, g, hex, htest⟩ := exists_of_run lockOf program
    (initial fun b : Bool => if b then Role.customer else .loader)
    ((List.replicate 11 (true, ⟨false, 0, 0⟩)) ++ List.replicate 11 (false, ⟨false, 0, 0⟩))
    (fun g => placeOf (g.control true) = .customer .left ∧ g.shared.get .trollyCount 0 = numTrolly)
    (by decide +kernel)
  obtain ⟨hleft, hfront⟩ := of_decide_eq_true htest
  have hkeeps := keepsOff_of_no_manager (fun b => by cases b <;> decide) hex
  obtain ⟨hshared, hcons⟩ := trollies_wrong hex
  exact ⟨tr, g, hex, hleft, hfront, hshared ⟨1, 0⟩, hcons hkeeps⟩

/-- A customer has a trolley, and the manager empties a drawer with 5 dollars: the loader finds as
many displaced trollies, and takes them to the front. -/
theorem money_turned_to_trollies : ∃ (tr : List (Transition (Supermarket Role) (Role × Choice)))
    (g : Supermarket Role), Execution (Steps lockOf program) (initial id) tr g ∧
      trollies g = numTrolly + 5 ∧ g.shared.get .trollyCount 0 = 34 ∧
      setup ⟨1, 0⟩ creations (fun _ => 0) g.shared.server = some (number, g.shared.server) ∧
      ¬ Unshared number := by
  obtain ⟨tr, g, hex, htest⟩ := exists_of_run lockOf program (initial (id : Role → Role))
    (List.replicate 6 (.customer, ⟨false, 0, 0⟩) ++ (.cashier, ⟨false, 0, 5⟩) ::
      List.replicate 9 (.manager, ⟨false, 0, 0⟩) ++ List.replicate 10 (.loader, ⟨false, 0, 0⟩))
    (fun g => trollies g = numTrolly + 5 ∧ g.shared.get .trollyCount 0 = 34) (by decide +kernel)
  obtain ⟨hsum, hfront⟩ := of_decide_eq_true htest
  exact ⟨tr, g, hex, hsum, hfront, g.shared.opened.setup, not_unshared⟩

end Nachos.Networked.Trollies
