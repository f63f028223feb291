import Nachos.SupermarketThreads

/-! The stock of the shelves, over all interleavings of customers and goods loaders. -/
namespace Nachos.Supermarket
open Mesa Executions

variable {T : Type*} [DecidableEq T] {role : T → Role} {s s' : Shared T} {t u : T} {k : Shelf}
  {h : List (ShelfEvent T)} {p q : Place} {choice : Choice} {g g' : Market T}

/-- How many items an event takes off shelf `k`. -/
def ShelfEvent.takenFrom (k : Shelf) : ShelfEvent T → ℤ
  | .took _ _ k' quantity => if k' = k then quantity else 0
  | .stocked _ _ _ => 0

/-- How many items an event puts on shelf `k`. -/
def ShelfEvent.putOn (k : Shelf) : ShelfEvent T → ℤ
  | .took _ _ _ _ => 0
  | .stocked _ k' quantity => if k' = k then quantity else 0

def taken (h : List (ShelfEvent T)) (k : Shelf) : ℤ := (h.map (ShelfEvent.takenFrom k)).sum

def putOn (h : List (ShelfEvent T)) (k : Shelf) : ℤ := (h.map (ShelfEvent.putOn k)).sum

/-- The event takes items for entry `i` of customer `t`. -/
def ShelfEvent.Takes (t : T) (i : ℕ) : ShelfEvent T → Prop
  | .took t' i' _ _ => t' = t ∧ i' = i
  | .stocked _ _ _ => False

instance (t : T) (i : ℕ) (e : ShelfEvent T) : Decidable (e.Takes t i) :=
  match e with
  | .took _ _ _ _ => inferInstanceAs (Decidable (_ ∧ _))
  | .stocked _ _ _ => inferInstanceAs (Decidable False)

/-- How often customer `t` has taken items for entry `i` of his list. -/
def takings (h : List (ShelfEvent T)) (t : T) (i : ℕ) : ℕ := h.countP fun e => e.Takes t i

/-- The event takes items off shelf `k` for customer `t`. -/
def ShelfEvent.TakesFrom (t : T) (k : Shelf) : ShelfEvent T → Prop
  | .took t' _ k' _ => t' = t ∧ k' = k
  | .stocked _ _ _ => False

instance (t : T) (k : Shelf) (e : ShelfEvent T) : Decidable (e.TakesFrom t k) :=
  match e with
  | .took _ _ _ _ => inferInstanceAs (Decidable (_ ∧ _))
  | .stocked _ _ _ => inferInstanceAs (Decidable False)

/-- How often customer `t` has taken items off shelf `k`. -/
def takingsFrom (h : List (ShelfEvent T)) (t : T) (k : Shelf) : ℕ :=
  h.countP fun e => e.TakesFrom t k

/-- A customer takes what his list says, and a loader puts on one item. -/
def ShelfEvent.Allowed (role : T → Role) : ShelfEvent T → Prop
  | .took t i k quantity => ∃ e, (role t).list[i]? = some e ∧ k = e.shelf ∧ quantity = e.qty
  | .stocked t _ quantity => (∃ myID, role t = .goodsLoader myID) ∧ quantity = 1

/-- The stock of one shelf. -/
structure ShelfRight (s : Shared T) (k : Shelf) : Prop where
  low : 1 ≤ s.shelfInventory k
  high : s.shelfInventory k ≤ maxShelfQty
  balance : s.shelfInventory k + taken s.history k = defaultInventory + putOn s.history k

/-- The stock of the whole store. Each entry of a list is taken once, so an item is taken as
often as the list names it at most. -/
structure StockRight (role : T → Role) (s : Shared T) : Prop where
  shelf : ∀ k, ShelfRight s k
  once : ∀ t i, takings s.history t i ≤ 1
  named : ∀ t k, takingsFrom s.history t k ≤ (role t).list.countP fun e => e.shelf = k
  allowed : ∀ e ∈ s.history, e.Allowed role

/-! What each thread knows. -/

/-- The entry has not been taken, or is all in the cart. -/
def Untaken (h : List (ShelfEvent T)) (t : T) (i : ℕ) (cart : Cart) : Prop :=
  takings h t i = 0 ∧ cart.qty i = 0

/-- Of entry `i` at statement `pc`. -/
def EntryKept (h : List (ShelfEvent T)) (t : T) (i : ℕ) (e : Entry) (cart : Cart) :
    Shopping → Prop
  | .needMore => Untaken h t i cart ∨ takings h t i = 1 ∧ cart.qty i = e.qty
  | .fillCart => takings h t i = 1 ∧ cart.qty i = 0
  | .releaseShelf => takings h t i = 1 ∧ cart.qty i = e.qty
  | _ => Untaken h t i cart

/-- The loader's `qtyInHands`. -/
def handsAt : Restocking → ℤ
  | .notFull | .releaseShelf | .finish => 0
  | .stockRoom pc =>
    match pc with
    | .acquireLine | .lineNeeded | .countMe | .waitInLine | .acquireRoom | .someoneInside
    | .announce | .wakeInside | .waitAdmitted | .occupy | .releaseLine => 0
    | _ => 1
  | _ => 1

/-- What a thread knows from what it has done itself. -/
def Kept (role : T → Role) (h : List (ShelfEvent T)) (t : T) : Place → Prop
  | .nextEntry i cart => (∀ j < i, takings h t j ≤ 1) ∧ ∀ j ≥ i, Untaken h t j cart
  | .shop i e cart pc => (role t).list[i]? = some e ∧ (∀ j < i, takings h t j ≤ 1) ∧
      (∀ j > i, Untaken h t j cart) ∧ EntryKept h t i e cart pc
  | .awaitOrders | .putBack => (∀ j, takings h t j = 0) ∧ ∃ myID, role t = .goodsLoader myID
  | .restock _ hands pc => (∀ j, takings h t j = 0) ∧ (∃ myID, role t = .goodsLoader myID) ∧
      hands = handsAt pc
  | _ => ∀ j, takings h t j = 0

/-- The thread has not read a shelf yet, or is done with it. -/
def Unread : Place → Prop
  | .shop _ _ _ .loadInventory | .shop _ _ _ (.storeInventory _) => False
  | .restock _ _ .loadInventory | .restock _ _ (.storeInventory _) => False
  | _ => True

/-- What a thread has read of a shelf while it holds the lock. -/
def Seen (s : Shared T) : Control LockName ConditionName Place → Prop
  | .runs (.shop _ e _ .loadInventory) => e.qty < s.shelfInventory e.shelf
  | .runs (.shop _ e _ (.storeInventory loaded)) =>
    loaded = s.shelfInventory e.shelf ∧ e.qty < loaded
  | .runs (.restock k _ .loadInventory) => s.shelfInventory k ≠ maxShelfQty
  | .runs (.restock k _ (.storeInventory loaded)) =>
    loaded = s.shelfInventory k ∧ loaded ≠ maxShelfQty
  | .runs _ => True
  | .acquiring _ p | .waiting _ p => Unread p

structure Shelving (role : T → Role) (g : Market T) : Prop where
  shelf : ∀ k, ShelfRight g.shared k
  allowed : ∀ e ∈ g.shared.history, e.Allowed role
  kept : ∀ t, Kept role g.shared.history t (placeOf (g.control t))
  seen : ∀ t, Seen g.shared (g.control t)

theorem takings_append (h : List (ShelfEvent T)) (e : ShelfEvent T) (t : T) (i : ℕ) :
    takings (h ++ [e]) t i = takings h t i + if e.Takes t i then 1 else 0 := by
  simp [takings, List.countP_append, List.countP_cons]

omit [DecidableEq T] in
@[simp] theorem takes_took (t t' : T) (i i' : ℕ) (k : Shelf) (v : ℤ) :
    (ShelfEvent.took t' i' k v).Takes t i ↔ t' = t ∧ i' = i := Iff.rfl

omit [DecidableEq T] in
@[simp] theorem not_takes_stocked (t t' : T) (i : ℕ) (k : Shelf) (v : ℤ) :
    ¬ (ShelfEvent.stocked t' k v).Takes t i := id

omit [DecidableEq T] in
@[simp] theorem takesFrom_took (t t' : T) (i : ℕ) (k k' : Shelf) (v : ℤ) :
    (ShelfEvent.took t' i k' v).TakesFrom t k ↔ t' = t ∧ k' = k := Iff.rfl

omit [DecidableEq T] in
@[simp] theorem not_takesFrom_stocked (t t' : T) (k k' : Shelf) (v : ℤ) :
    ¬ (ShelfEvent.stocked t' k' v).TakesFrom t k := id

theorem takingsFrom_append (h : List (ShelfEvent T)) (e : ShelfEvent T) (t : T) (k : Shelf) :
    takingsFrom (h ++ [e]) t k = takingsFrom h t k + if e.TakesFrom t k then 1 else 0 := by
  simp [takingsFrom, List.countP_append, List.countP_cons]

omit [DecidableEq T] in
theorem taken_append (h : List (ShelfEvent T)) (e : ShelfEvent T) (k : Shelf) :
    taken (h ++ [e]) k = taken h k + e.takenFrom k := by simp [taken]

omit [DecidableEq T] in
theorem putOn_append (h : List (ShelfEvent T)) (e : ShelfEvent T) (k : Shelf) :
    putOn (h ++ [e]) k = putOn h k + e.putOn k := by simp [putOn]

theorem EntryKept.le_one {i : ℕ} {e : Entry} {cart : Cart} {pc : Shopping}
    (hk : EntryKept h t i e cart pc) : takings h t i ≤ 1 := by
  cases pc <;> simp only [EntryKept, Untaken] at hk <;> omega

theorem Kept.le_one (hk : Kept role h t p) (i : ℕ) : takings h t i ≤ 1 := by
  cases p with
  | nextEntry j cart =>
    rcases lt_or_ge i j with hij | hij
    · exact hk.1 i hij
    · exact (hk.2 i hij).1.le.trans zero_le_one
  | shop j e cart pc =>
    rcases lt_trichotomy i j with hij | rfl | hij
    · exact hk.2.1 i hij
    · exact hk.2.2.2.le_one
    · exact (hk.2.2.1 i hij).1.le.trans zero_le_one
  | restock | awaitOrders | putBack => exact (hk.1 i).le.trans zero_le_one
  | _ => exact (hk i).le.trans zero_le_one

/-- The events of others are no business of thread `t`. -/
theorem Kept.others {e : ShelfEvent T} (hk : Kept role h t p) (he : ∀ i, ¬ e.Takes t i) :
    Kept role (h ++ [e]) t p := by
  have hsame : ∀ i, takings (h ++ [e]) t i = takings h t i := by
    intro i
    rw [takings_append, if_neg (he i), Nat.add_zero]
  have hun : ∀ i cart, Untaken (h ++ [e]) t i cart ↔ Untaken h t i cart := by
    intro i cart
    rw [Untaken, hsame]
    exact Iff.rfl
  cases p with
  | nextEntry i cart => simpa only [Kept, hsame, hun] using hk
  | shop i e cart pc =>
    obtain ⟨hlist, hlow, hhigh, hentry⟩ := hk
    refine ⟨hlist, by simpa only [hsame] using hlow, by simpa only [hun] using hhigh, ?_⟩
    cases pc <;> simpa only [EntryKept, hsame, hun] using hentry
  | restock k hands pc => simpa only [Kept, hsame] using hk
  | _ => simpa only [Kept, hsame] using hk

omit [DecidableEq T] in
/-- Only the stock matters to what has been read. -/
theorem Seen.congr {c : Control LockName ConditionName Place}
    (hinv : s'.shelfInventory = s.shelfInventory) (h : Seen s c) : Seen s' c := by
  unfold Seen at h ⊢
  rw [hinv]
  exact h

omit [DecidableEq T] in
theorem Unread.seen (hp : Unread p) : Seen s (.runs p) := by
  unfold Unread at hp
  split at hp <;> first | exact hp.elim | skip
  unfold Seen
  split <;> simp_all

/-! The statements. -/

/-- A call leads to a place where nothing has been read, and the thread keeps what it knows. -/
theorem call_kept {a : Code T} (hi : program role s t p choice = some a)
    (ha : ∀ s' q, a ≠ .access s' q) (hk : Kept role h t p) :
    Kept role h t a.next ∧ Unread a.next := by
  cases p with
  | nextEntry i cart =>
    obtain ⟨e, -, rfl⟩ := Option.map_eq_some_iff.mp hi
    exact absurd rfl (ha _ _)
  | shop i e cart pc =>
    obtain rfl := Option.some.inj hi
    obtain ⟨hlist, hlow, hhigh, hentry⟩ := hk
    cases pc with
    | acquireShelf | giveUp | acquireToWait | waitAtShelf =>
      exact ⟨⟨hlist, hlow, hhigh, hentry⟩, trivial⟩
    | releaseShelf => exact ⟨⟨hlist, hlow, hhigh, .inr hentry⟩, trivial⟩
    | releaseRestocked => exact ⟨⟨hlist, hlow, hhigh, .inl hentry⟩, trivial⟩
    | _ => exact absurd rfl (ha _ _)
  | restock k hands pc =>
    obtain rfl := Option.some.inj hi
    obtain ⟨hnone, hrole, hhands⟩ := hk
    cases pc with
    | stockRoom pc =>
      cases pc with
      | lineNeeded | countMe | someoneInside | announce | occupy | someoneInLine | uncountNext
      | vacate => exact absurd rfl (ha _ _)
      | releaseLine => exact ⟨⟨hnone, hrole, by simp [hhands, handsAt]⟩, trivial⟩
      | _ => exact ⟨⟨hnone, hrole, hhands⟩, trivial⟩
    | releaseShelf | acquireShelf => exact ⟨⟨hnone, hrole, hhands⟩, trivial⟩
    | finish => exact ⟨⟨hnone, hrole⟩, trivial⟩
    | _ => exact absurd rfl (ha _ _)
  | sell =>
    cases choice with
    | shelf k =>
      obtain rfl := Option.some.inj hi
      exact ⟨hk, trivial⟩
    | managerItem => cases hi
  | awaitOrders =>
    cases choice with
    | shelf k =>
      obtain rfl := Option.some.inj hi
      exact ⟨⟨hk.1, hk.2, rfl⟩, trivial⟩
    | managerItem =>
      obtain rfl := Option.some.inj hi
      exact ⟨hk, trivial⟩
  | broadcastShelf k | releaseAnnounced k | putBack =>
    obtain rfl := Option.some.inj hi
    exact ⟨hk, trivial⟩

/-- What a statement on the shared variables does to the shelves. -/
inductive ShelfAccess (role : T → Role) (s : Shared T) (t : T) (p : Place) :
    Shared T → Place → Prop
  | same {s' : Shared T} {q : Place} (hinv : s'.shelfInventory = s.shelfInventory)
      (hhist : s'.history = s.history) (hk : Kept role s.history t q) (hs : Seen s (.runs q)) :
      ShelfAccess role s t p s' q
  | took {i : ℕ} {e : Entry} {cart : Cart} {loaded : ℤ}
      (hp : p = .shop i e cart (.storeInventory loaded)) :
      ShelfAccess role s t p (setInventory s e.shelf (loaded - e.qty) (.took t i e.shelf e.qty))
        (.shop i e cart .fillCart)
  | stocked {k : Shelf} {hands loaded : ℤ} (hp : p = .restock k hands (.storeInventory loaded)) :
      ShelfAccess role s t p (setInventory s k (loaded + hands) (.stocked t k hands))
        (.restock k 0 .notFull)

theorem shelfAccess (hi : program role s t p choice = some (.access s' q))
    (hk : Kept role s.history t p) (hseen : Seen s (.runs p)) : ShelfAccess role s t p s' q := by
  cases p with
  | nextEntry i cart =>
    obtain ⟨e, he, hacc⟩ := Option.map_eq_some_iff.mp hi
    obtain ⟨rfl, rfl⟩ := Instruction.access.inj hacc
    obtain ⟨hlow, hhigh⟩ := hk
    split_ifs
    · exact .same rfl rfl ⟨he, hlow, fun j hj => hhigh j hj.le, .inl (hhigh i le_rfl)⟩ trivial
    · refine .same rfl rfl ⟨fun j hj => ?_, fun j hj => hhigh j (by omega)⟩ trivial
      rcases Nat.lt_succ_iff_lt_or_eq.mp hj with hj | rfl
      · exact hlow j hj
      · exact (hhigh j le_rfl).1.le.trans zero_le_one
  | shop i e cart pc =>
    obtain ⟨hlist, hlow, hhigh, hentry⟩ := hk
    have hacc := Option.some.inj hi
    cases pc with
    | storeInventory loaded =>
      obtain ⟨rfl, rfl⟩ := Instruction.access.inj hacc
      exact .took rfl
    | needMore =>
      obtain ⟨rfl, rfl⟩ := Instruction.access.inj hacc
      split_ifs with hmore
      · refine .same rfl rfl ⟨hlist, hlow, hhigh, hentry.resolve_right fun h => ?_⟩ trivial
        exact absurd hmore (by rw [h.2]; exact lt_irrefl _)
      · refine .same rfl rfl ⟨fun j hj => ?_, fun j hj => hhigh j hj⟩ trivial
        rcases Nat.lt_succ_iff_lt_or_eq.mp hj with hj | rfl
        · exact hlow j hj
        · exact EntryKept.le_one (hentry : EntryKept _ _ _ _ _ .needMore)
    | enough =>
      obtain ⟨rfl, rfl⟩ := Instruction.access.inj hacc
      split_ifs with henough
      · exact .same rfl rfl ⟨hlist, hlow, hhigh, hentry⟩ henough
      · exact .same rfl rfl ⟨hlist, hlow, hhigh, hentry⟩ trivial
    | loadInventory =>
      obtain ⟨rfl, rfl⟩ := Instruction.access.inj hacc
      exact .same rfl rfl ⟨hlist, hlow, hhigh, hentry⟩ ⟨rfl, hseen⟩
    | fillCart =>
      obtain ⟨rfl, rfl⟩ := Instruction.access.inj hacc
      refine .same rfl rfl ⟨hlist, hlow, fun j hj => ?_, hentry.1, ?_⟩ trivial
      · simpa [Untaken, Cart.put, hj.ne'] using hhigh j hj
      · simp [Cart.put, hentry.2]
    | _ => cases hacc
  | restock k hands pc =>
    obtain ⟨hnone, hrole, hhands⟩ := hk
    have hacc := Option.some.inj hi
    cases pc with
    | storeInventory loaded =>
      obtain ⟨rfl, rfl⟩ := Instruction.access.inj hacc
      exact .stocked rfl
    | notFull =>
      obtain ⟨rfl, rfl⟩ := Instruction.access.inj hacc
      split_ifs <;> exact .same rfl rfl ⟨hnone, hrole, hhands⟩ trivial
    | full =>
      obtain ⟨rfl, rfl⟩ := Instruction.access.inj hacc
      split_ifs with hfull
      · exact .same rfl rfl ⟨hnone, hrole, rfl⟩ trivial
      · exact .same rfl rfl ⟨hnone, hrole, hhands⟩ hfull
    | loadInventory =>
      obtain ⟨rfl, rfl⟩ := Instruction.access.inj hacc
      exact .same rfl rfl ⟨hnone, hrole, hhands⟩ ⟨rfl, hseen⟩
    | stockRoom pc =>
      cases pc with
      | lineNeeded | someoneInside | someoneInLine =>
        obtain ⟨rfl, rfl⟩ := Instruction.access.inj hacc
        split_ifs <;> exact .same rfl rfl ⟨hnone, hrole, hhands⟩ trivial
      | countMe | announce | occupy | uncountNext | vacate =>
        obtain ⟨rfl, rfl⟩ := Instruction.access.inj hacc
        exact .same rfl rfl ⟨hnone, hrole, hhands⟩ trivial
      | _ => cases hacc
    | _ => cases hacc
  | sell | awaitOrders => cases choice <;> cases hi
  | _ => cases hi

/-! One step. -/

omit [DecidableEq T] in
theorem setInventory_apply (s : Shared T) (k j : Shelf) (v : ℤ) (e : ShelfEvent T) :
    (setInventory s k v e).shelfInventory j = if j = k then v else s.shelfInventory j :=
  Function.update_apply _ _ _ _

omit [DecidableEq T] in
/-- The shelf gains or loses what the event says. -/
theorem ShelfRight.set {v : ℤ} {e : ShelfEvent T} (h : ShelfRight s k) (j : Shelf)
    (hv : k = j → 1 ≤ v ∧ v ≤ maxShelfQty ∧ v + e.takenFrom k = s.shelfInventory k + e.putOn k)
    (hother : k ≠ j → e.takenFrom k = 0 ∧ e.putOn k = 0) : ShelfRight (setInventory s j v e) k := by
  have hbalance := h.balance
  refine ⟨?_, ?_, ?_⟩ <;> rw [setInventory_apply]
  · split_ifs with hk
    · exact (hv hk).1
    · exact h.low
  · split_ifs with hk
    · exact (hv hk).2.1
    · exact h.high
  · change _ + taken (s.history ++ [e]) k = _ + putOn (s.history ++ [e]) k
    rw [taken_append, putOn_append]
    split_ifs with hk
    · have := (hv hk).2.2
      omega
    · have := hother hk
      omega

omit [DecidableEq T] in
/-- What the others have read stays true when a shelf changes whose lock they do not hold. -/
theorem Seen.others {c : Control LockName ConditionName Place} {v : ℤ} {e : ShelfEvent T}
    (h : Seen s c) (hc : ¬ c.Has lockOf holds (.shelfLock k)) : Seen (setInventory s k v e) c := by
  cases c with
  | acquiring l p => exact h
  | waiting c p => exact h
  | runs p =>
    by_cases hp : Unread p
    · exact hp.seen
    · unfold Unread at hp
      split at hp <;> try exact absurd trivial hp
      all_goals
        simp only [Control.Has, holds, locksOf, List.mem_singleton, LockName.shelfLock.injEq] at hc
        simp only [Seen, setInventory_apply, if_neg (Ne.symm hc)]
        exact h

/-- The shared variables are as before, and so are the other threads. -/
theorem Shelving.moved (h : Shelving role g) (hm : Move lockOf (program role) g t choice g')
    {c : Control LockName ConditionName Place} (hc : g'.control t = c)
    (hinv : g'.shared.shelfInventory = g.shared.shelfInventory)
    (hhist : g'.shared.history = g.shared.history)
    (hk : Kept role g.shared.history t (placeOf c)) (hseen : Seen g.shared c) :
    Shelving role g' := by
  refine ⟨fun k => ?_, by rw [hhist]; exact h.allowed, fun u => ?_, fun u => ?_⟩
  · have hshelf := h.shelf k
    exact ⟨by rw [hinv]; exact hshelf.low, by rw [hinv]; exact hshelf.high,
      by rw [hinv, hhist]; exact hshelf.balance⟩
  · rw [hhist]
    by_cases hu : u = t
    · rw [hu, hc]
      exact hk
    · rw [hm.control_of_ne hu]
      exact h.kept u
  · refine Seen.congr hinv ?_
    by_cases hu : u = t
    · rw [hu, hc]
      exact hseen
    · rw [hm.control_of_ne hu]
      exact h.seen u

/-- A shelf changes, and thread `t` holds its lock. -/
theorem Shelving.changed (h : Shelving role g) (hl : LocksRight lockOf holds g)
    (hm : Move lockOf (program role) g t choice g') {v : ℤ} {e : ShelfEvent T}
    (hs : g'.shared = setInventory g.shared k v e)
    (hlock : (g.control t).Has lockOf holds (.shelfLock k))
    (hshelf : ∀ j, ShelfRight (setInventory g.shared k v e) j) (hallowed : e.Allowed role)
    (hnot : ∀ u ≠ t, ∀ i, ¬ e.Takes u i) (hc : g'.control t = .runs q)
    (hk : Kept role (g.shared.history ++ [e]) t q) (hunread : Unread q) : Shelving role g' := by
  refine ⟨fun j => by rw [hs]; exact hshelf j, ?_, fun u => ?_, fun u => ?_⟩
  · rw [hs]
    intro e' he'
    rcases List.mem_append.mp he' with he' | he'
    · exact h.allowed e' he'
    · rw [List.mem_singleton.mp he']
      exact hallowed
  · rw [hs]
    by_cases hu : u = t
    · rw [hu, hc]
      exact hk
    · rw [hm.control_of_ne hu]
      exact (h.kept u).others (hnot u hu)
  · rw [hs]
    by_cases hu : u = t
    · rw [hu, hc]
      exact hunread.seen
    · rw [hm.control_of_ne hu]
      exact (h.seen u).others fun hhas => hu (hl.exclusive hhas hlock)

/-- Entry `i` is taken off the shelf, from what thread `t` has read there. -/
theorem Shelving.took (h : Shelving role g) (hl : LocksRight lockOf holds g)
    (hm : Move lockOf (program role) g t choice g') {i : ℕ} {e : Entry} {cart : Cart} {loaded : ℤ}
    (hp : g.control t = .runs (.shop i e cart (.storeInventory loaded)))
    (hs : g'.shared = setInventory g.shared e.shelf (loaded - e.qty) (.took t i e.shelf e.qty))
    (hc : g'.control t = .runs (.shop i e cart .fillCart)) : Shelving role g' := by
  have hkept := h.kept t
  have hseen := h.seen t
  rw [hp] at hkept hseen
  obtain ⟨hlist, hlow, hhigh, hnone, hqty⟩ := hkept
  obtain ⟨rfl, hmore⟩ := hseen
  have hlock : (g.control t).Has lockOf holds (.shelfLock e.shelf) := by
    rw [hp]
    exact List.mem_singleton_self _
  refine h.changed hl hm hs hlock (fun j => ?_) ⟨e, hlist, rfl, rfl⟩ ?_ hc
    ⟨hlist, fun j hj => ?_, fun j hj => ?_, ?_, hqty⟩ trivial
  · have hhigh := (h.shelf e.shelf).high
    refine (h.shelf j).set e.shelf ?_ fun hj => ?_
    · rintro rfl
      simp only [ShelfEvent.takenFrom, ShelfEvent.putOn, ↓reduceIte]
      omega
    · simp [ShelfEvent.takenFrom, ShelfEvent.putOn, Ne.symm hj]
  · rintro u hu j ⟨rfl, -⟩
    exact hu rfl
  · rw [takings_append, if_neg (fun ht => hj.ne' ht.2)]
    exact hlow j hj
  · refine ⟨?_, (hhigh j hj).2⟩
    rw [takings_append, if_neg (fun ht => hj.ne ht.2)]
    exact (hhigh j hj).1
  · rw [takings_append, if_pos ⟨rfl, rfl⟩, hnone]

/-- The loader puts what is in his hands on the shelf that he has found below its bound. -/
theorem Shelving.stocked (h : Shelving role g) (hl : LocksRight lockOf holds g)
    (hm : Move lockOf (program role) g t choice g') {hands loaded : ℤ}
    (hp : g.control t = .runs (.restock k hands (.storeInventory loaded)))
    (hs : g'.shared = setInventory g.shared k (loaded + hands) (.stocked t k hands))
    (hc : g'.control t = .runs (.restock k 0 .notFull)) : Shelving role g' := by
  have hkept := h.kept t
  have hseen := h.seen t
  rw [hp] at hkept hseen
  obtain ⟨hnone, hrole, hhands⟩ := hkept
  obtain rfl : hands = 1 := hhands
  obtain ⟨rfl, hroom⟩ := hseen
  have hlock : (g.control t).Has lockOf holds (.shelfLock k) := by
    rw [hp]
    exact List.mem_singleton_self _
  refine h.changed hl hm hs hlock (fun j => ?_) ⟨hrole, rfl⟩ (fun u _ i => not_takes_stocked u t i k 1) hc
    ⟨fun j => ?_, hrole, rfl⟩ trivial
  · have hlow := (h.shelf k).low
    have hhigh := (h.shelf k).high
    refine (h.shelf j).set k ?_ fun hj => ?_
    · rintro rfl
      simp only [ShelfEvent.takenFrom, ShelfEvent.putOn, ↓reduceIte]
      omega
    · simp [ShelfEvent.takenFrom, ShelfEvent.putOn, Ne.symm hj]
  · rw [takings_append, if_neg (not_takes_stocked t t j k 1)]
    exact hnone j

theorem Shelving.move (hl : LocksRight lockOf holds g) (h : Shelving role g)
    (hm : Move lockOf (program role) g t choice g') : Shelving role g' := by
  have hmove := hm
  have hkept := h.kept t
  have hseen := h.seen t
  cases hm with
  | granted hc ho =>
    rw [hc] at hkept hseen
    exact h.moved hmove ((goto_control ..).trans (if_pos rfl)) rfl rfl hkept (Unread.seen hseen)
  | woken hc hw =>
    rw [hc] at hkept hseen
    exact h.moved hmove ((acquire_control ..).trans (if_pos rfl)) rfl rfl hkept hseen
  | acquire hc hi =>
    rw [hc] at hkept
    obtain ⟨hk, hu⟩ := call_kept hi (by simp) hkept
    exact h.moved hmove ((acquire_control ..).trans (if_pos rfl)) rfl rfl hk hu
  | release hc hi =>
    rw [hc] at hkept
    obtain ⟨hk, hu⟩ := call_kept hi (by simp) hkept
    exact h.moved hmove ((goto_control ..).trans (if_pos rfl)) rfl rfl hk hu.seen
  | wait hc hi ho =>
    rw [hc] at hkept
    obtain ⟨hk, hu⟩ := call_kept hi (by simp) hkept
    exact h.moved hmove ((wait_control ..).trans (if_pos rfl)) rfl rfl hk hu
  | signal hc hi ho =>
    rw [hc] at hkept
    obtain ⟨hk, hu⟩ := call_kept hi (by simp) hkept
    exact h.moved hmove ((goto_control ..).trans (if_pos rfl)) rfl rfl hk hu.seen
  | broadcast hc hi ho =>
    rw [hc] at hkept
    obtain ⟨hk, hu⟩ := call_kept hi (by simp) hkept
    exact h.moved hmove ((goto_control ..).trans (if_pos rfl)) rfl rfl hk hu.seen
  | @refused p q c a hc hi ha ho =>
    rw [hc] at hkept
    obtain ⟨hk, hu⟩ := call_kept hi (by rcases ha with rfl | rfl | rfl <;> simp) hkept
    have hnext : a.next = q := by rcases ha with rfl | rfl | rfl <;> rfl
    rw [hnext] at hk hu
    exact h.moved hmove ((goto_control ..).trans (if_pos rfl)) rfl rfl hk hu.seen
  | access hc hi =>
    rw [hc] at hkept hseen
    cases shelfAccess hi hkept hseen with
    | same hinv hhist hk hs =>
      exact h.moved hmove ((goto_control ..).trans (if_pos rfl)) hinv hhist hk hs
    | took hp =>
      subst hp
      exact h.took hl hmove hc rfl (by simp)
    | stocked hp =>
      subst hp
      exact h.stocked hl hmove hc rfl (by simp)

/-! Runs. -/

theorem Shelving.initial (role : T → Role) : Shelving role (Market.initial role) where
  shelf k := by
    refine ⟨?_, ?_, rfl⟩
    · change 1 ≤ defaultInventory
      decide
    · change defaultInventory ≤ maxShelfQty
      decide
  allowed e he := absurd he List.not_mem_nil
  kept t := by
    change Kept role [] t (start role t)
    unfold start
    split
    · exact ⟨fun j hj => absurd hj j.not_lt_zero, fun j _ => ⟨rfl, rfl⟩⟩
    · exact fun j => rfl
    · rename_i myID hrole
      exact ⟨fun j => rfl, myID, hrole⟩
  seen t := by
    change Seen _ (.runs (start role t))
    refine Unread.seen ?_
    unfold start
    split <;> trivial

/-- How many entries of the list name the shelf, counted by position. -/
theorem sum_names (l : List Entry) (k : Shelf) :
    (∑ i ∈ Finset.range l.length, if l[i]?.map Entry.shelf = some k then 1 else 0) =
      l.countP fun e => e.shelf = k := by
  induction l using List.reverseRecOn with
  | nil => rfl
  | append_singleton l e ih =>
    have hfront : ∀ i ∈ Finset.range l.length,
        (if (l ++ [e])[i]?.map Entry.shelf = some k then 1 else 0) =
          if l[i]?.map Entry.shelf = some k then 1 else 0 := by
      intro i hi
      rw [List.getElem?_append_left (Finset.mem_range.mp hi)]
    rw [List.length_append, List.length_singleton, Finset.sum_range_succ,
      Finset.sum_congr rfl hfront, ih, List.countP_append]
    simp [List.countP_cons]

/-- What is taken off a shelf is taken for the entries that name it. -/
theorem takingsFrom_eq_sum (hallowed : ∀ e ∈ h, e.Allowed role) :
    takingsFrom h t k = ∑ i ∈ Finset.range (role t).list.length,
      if (role t).list[i]?.map Entry.shelf = some k then takings h t i else 0 := by
  induction h using List.reverseRecOn with
  | nil => simp [takingsFrom, takings]
  | append_singleton h e ih =>
    have hrest := ih fun e' he' => hallowed e' (List.mem_append_left _ he')
    have he := hallowed e (by simp)
    have hsplit : ∀ i, (if (role t).list[i]?.map Entry.shelf = some k
        then takings (h ++ [e]) t i else 0) =
        (if (role t).list[i]?.map Entry.shelf = some k then takings h t i else 0) +
          if (role t).list[i]?.map Entry.shelf = some k ∧ e.Takes t i then 1 else 0 := by
      intro i
      rw [takings_append]
      split_ifs <;> simp_all
    rw [Finset.sum_congr rfl fun i _ => hsplit i, Finset.sum_add_distrib, ← hrest]
    rw [takingsFrom_append]
    congr 1
    cases e with
    | stocked t' k' quantity => simp
    | took t' i k' quantity =>
      obtain ⟨entry, hentry, rfl, -⟩ := he
      simp only [takes_took, takesFrom_took]
      by_cases ht : t' = t
      · subst ht
        have hi : i ∈ Finset.range (role t').list.length :=
          Finset.mem_range.mpr (List.getElem?_eq_some_iff.mp hentry).1
        have honly : ∀ j, ((role t').list[j]?.map Entry.shelf = some k ∧ t' = t' ∧ i = j) ↔
            i = j ∧ entry.shelf = k := by
          intro j
          constructor
          · rintro ⟨hk, -, rfl⟩
            exact ⟨rfl, by simpa [hentry] using hk⟩
          · rintro ⟨rfl, hk⟩
            exact ⟨by simp [hentry, hk], rfl, rfl⟩
        rw [Finset.sum_congr rfl fun j _ => if_congr (honly j) rfl rfl]
        simp only [ite_and, Finset.sum_ite_eq, if_pos hi, true_and]
      · simp [ht]

/-- Every taking is for another entry that names the shelf. -/
theorem takingsFrom_le (hallowed : ∀ e ∈ h, e.Allowed role) (honce : ∀ i, takings h t i ≤ 1) :
    takingsFrom h t k ≤ (role t).list.countP fun e => e.shelf = k := by
  rw [takingsFrom_eq_sum hallowed, ← sum_names]
  refine Finset.sum_le_sum fun i _ => ?_
  split_ifs
  · exact honce i
  · exact le_rfl

/-- Customers and loaders keep every shelf stocked in every interleaving, and lose no item. -/
theorem shelves_right (role : T → Role) {tr : List (Transition (Market T) (T × Choice))}
    (h : Execution (Steps lockOf (program role)) (Market.initial role) tr g) :
    StockRight role g.shared := by
  have hinv : Shelving role g :=
    (invariant_of_discipline (program_discipline role) (not_holds_start role) h
      (.initial role) fun g t i g' hl hq hm => hq.move hl hm).2
  have honce : ∀ t i, takings g.shared.history t i ≤ 1 := fun t i => (hinv.kept t).le_one i
  exact ⟨hinv.shelf, honce, fun t k => takingsFrom_le hinv.allowed (honce t), hinv.allowed⟩

/-- A customer wants two of item 0, and a loader restocks its shelf. -/
def shopperAndLoader : Bool → Role
  | false => .customer [⟨0, 2⟩]
  | true => .goodsLoader 7

/-- The customer takes his two, and the loader has put one back. -/
theorem shelves_right_restocked : ∃ tr g,
    Execution (Steps lockOf (program shopperAndLoader)) (Market.initial shopperAndLoader) tr g ∧
      g.shared.history = [.took false 0 ⟨0, 0⟩ 2, .stocked true ⟨0, 0⟩ 1] ∧
      g.shared.shelfInventory ⟨0, 0⟩ = 9 ∧ StockRight shopperAndLoader g.shared := by
  obtain ⟨tr, g, hex, htest⟩ := exists_of_run lockOf (program shopperAndLoader)
    (Market.initial shopperAndLoader)
    (List.replicate 9 (false, .managerItem) ++ List.replicate 23 (true, .shelf ⟨0, 0⟩))
    (fun g => g.shared.history = [.took false 0 ⟨0, 0⟩ 2, .stocked true ⟨0, 0⟩ 1] ∧
      g.shared.shelfInventory ⟨0, 0⟩ = 9) (by decide +kernel)
  obtain ⟨hhistory, hinventory⟩ := of_decide_eq_true htest
  exact ⟨tr, g, hex, hhistory, hinventory, shelves_right shopperAndLoader hex⟩

end Nachos.Supermarket
