import Nachos.MesaThreads

/-! `test/supermarket.c`: the threads that use the shelves and the stock room. Customers take
items off the shelves, goods loaders put them on one at a time and fetch each from the stock
room, and salesmen wake the customers who wait at a shelf. Printing, and the talks that decide
which shelf a loader restocks and when a customer asks a salesman, are left out: any shelf and
any time is possible. -/
namespace Nachos.Supermarket
open Mesa

def maxShelfQty : ℤ := 15
def numItems : ℕ := 10
def numDepartments : ℕ := 3
def defaultInventory : ℤ := 10

structure Shelf where
  dept : ℕ
  item : ℕ
  deriving DecidableEq, Repr

inductive LockName
  | shelfLock (k : Shelf)
  | stockRoomLock
  | currentLoaderInStockLock
  deriving DecidableEq, Repr

inductive ConditionName
  | shelfCV (k : Shelf)
  | stockRoomCV
  | currentLoaderInStockCV
  deriving DecidableEq, Repr

/-- The lock that is passed with each condition. -/
def lockOf : ConditionName → LockName
  | .shelfCV k => .shelfLock k
  | .stockRoomCV => .stockRoomLock
  | .currentLoaderInStockCV => .currentLoaderInStockLock

/-- What is done to a shelf: by entry `i` of a customer's list, or by a loader. -/
inductive ShelfEvent (T : Type*)
  | took (t : T) (i : ℕ) (k : Shelf) (quantity : ℤ)
  | stocked (t : T) (k : Shelf) (quantity : ℤ)
  deriving DecidableEq, Repr

/-- The variables, with the history of the shelves. -/
structure Shared (T : Type*) where
  shelfInventory : Shelf → ℤ
  currentLoaderInStock : ℤ
  waitingForStockRoomCount : ℤ
  history : List (ShelfEvent T)

/-- An entry of `itemsToBuy` and `qtyItemsToBuy`. -/
structure Entry where
  item : ℕ
  qty : ℕ
  deriving DecidableEq, Repr

def getDepartmentFromItem (itemNum : ℕ) : ℕ := itemNum % numDepartments

def Entry.shelf (e : Entry) : Shelf := ⟨getDepartmentFromItem e.item, e.item⟩

/-- `itemsInCart` and `qtyItemsInCart` -/
structure Cart where
  items : ℕ → ℤ
  qty : ℕ → ℤ

def Cart.empty : Cart := ⟨fun _ => -1, fun _ => 0⟩

def Cart.put (cart : Cart) (i : ℕ) (e : Entry) : Cart :=
  ⟨Function.update cart.items i e.item, Function.update cart.qty i (cart.qty i + e.qty)⟩

inductive Role
  | customer (list : List Entry)
  | salesman
  | goodsLoader (myID : ℕ)
  deriving DecidableEq, Repr

def Role.list : Role → List Entry
  | .customer list => list
  | _ => []

def Role.myID : Role → ℕ
  | .goodsLoader myID => myID
  | _ => 0

/-- The statements at the shelf of an entry. -/
inductive Shopping
  /-- `while(qtyItemsInCart[i] < qtyItemsToBuy[i])` -/
  | needMore
  | acquireShelf
  /-- `if(shelfInventory[..][..] > qtyItemsToBuy[i])` -/
  | enough
  | loadInventory
  | storeInventory (loaded : ℤ)
  | fillCart
  | releaseShelf
  | giveUp
  | acquireToWait
  | waitAtShelf
  | releaseRestocked
  deriving DecidableEq, Repr

/-- The statements from `Acquire(currentLoaderInStockLock)` to `Release(stockRoomLock)`. -/
inductive StockRoom
  | acquireLine
  /-- `if(currentLoaderInStock != -1 || waitingForStockRoomCount > 0)` -/
  | lineNeeded
  | countMe
  | waitInLine
  | acquireRoom
  /-- `if(currentLoaderInStock != -1)` -/
  | someoneInside
  | announce
  | wakeInside
  | waitAdmitted
  | occupy
  | releaseLine
  | reacquireLine
  /-- `if(waitingForStockRoomCount > 0)` -/
  | someoneInLine
  | callNext
  | uncountNext
  | releaseLineCalled
  | waitSuccessor
  | letIn
  | vacate
  | releaseLineVacant
  | releaseRoom
  deriving DecidableEq, Repr

/-- The statements of the restocking loop. -/
inductive Restocking
  /-- `while(shelfInventory[..][..] < maxShelfQty)` -/
  | notFull
  | releaseShelf
  | stockRoom (s : StockRoom)
  | acquireShelf
  /-- `if(shelfInventory[..][..] == maxShelfQty)` -/
  | full
  | loadInventory
  | storeInventory (loaded : ℤ)
  | finish
  deriving DecidableEq, Repr

inductive Place
  /-- `for(i = 0; i < numItemsToBuy; i++)`, up to the shelf of the item -/
  | nextEntry (i : ℕ) (cart : Cart)
  | shop (i : ℕ) (e : Entry) (cart : Cart) (s : Shopping)
  | sell
  | broadcastShelf (k : Shelf)
  | releaseAnnounced (k : Shelf)
  | awaitOrders
  /-- an item of the manager is put back in the stock room -/
  | putBack
  | restock (k : Shelf) (qtyInHands : ℤ) (s : Restocking)

/-- What a salesman or the manager asks for. -/
inductive Choice
  | shelf (k : Shelf)
  | managerItem
  deriving DecidableEq, Repr

abbrev Code (T : Type*) := Instruction LockName ConditionName (Shared T) Place

section
variable {T : Type*}

/-- A statement on local variables, or the test of a condition. -/
def think (s : Shared T) (next : Place) : Code T := .access s next

def setInventory (s : Shared T) (k : Shelf) (v : ℤ) (e : ShelfEvent T) : Shared T :=
  { s with shelfInventory := Function.update s.shelfInventory k v, history := s.history ++ [e] }

def shopping (s : Shared T) (t : T) (i : ℕ) (e : Entry) (cart : Cart) : Shopping → Code T
  | .needMore =>
    think s (if cart.qty i < e.qty then .shop i e cart .acquireShelf else .nextEntry (i + 1) cart)
  | .acquireShelf => .acquire (.shelfLock e.shelf) (.shop i e cart .enough)
  | .enough =>
    think s (if s.shelfInventory e.shelf > e.qty then .shop i e cart .loadInventory
      else .shop i e cart .giveUp)
  | .loadInventory => think s (.shop i e cart (.storeInventory (s.shelfInventory e.shelf)))
  | .storeInventory loaded =>
    .access (setInventory s e.shelf (loaded - e.qty) (.took t i e.shelf e.qty))
      (.shop i e cart .fillCart)
  | .fillCart => think s (.shop i e (cart.put i e) .releaseShelf)
  | .releaseShelf => .release (.shelfLock e.shelf) (.shop i e cart .needMore)
  | .giveUp => .release (.shelfLock e.shelf) (.shop i e cart .acquireToWait)
  | .acquireToWait => .acquire (.shelfLock e.shelf) (.shop i e cart .waitAtShelf)
  | .waitAtShelf => .wait (.shelfCV e.shelf) (.shop i e cart .releaseRestocked)
  | .releaseRestocked => .release (.shelfLock e.shelf) (.shop i e cart .needMore)

/-- The stock room hand-off of the loader `myID`, who restocks shelf `k`. -/
def stockRoom (s : Shared T) (myID : ℕ) (k : Shelf) (hands : ℤ) : StockRoom → Code T :=
  let here := fun pc => Place.restock k hands (.stockRoom pc)
  fun
  | .acquireLine => .acquire .currentLoaderInStockLock (here .lineNeeded)
  | .lineNeeded =>
    think s (if s.currentLoaderInStock ≠ -1 ∨ s.waitingForStockRoomCount > 0 then here .countMe
      else here .acquireRoom)
  | .countMe =>
    .access { s with waitingForStockRoomCount := s.waitingForStockRoomCount + 1 }
      (here .waitInLine)
  | .waitInLine => .wait .currentLoaderInStockCV (here .acquireRoom)
  | .acquireRoom => .acquire .stockRoomLock (here .someoneInside)
  | .someoneInside =>
    think s (if s.currentLoaderInStock ≠ -1 then here .announce else here .occupy)
  | .announce => .access { s with currentLoaderInStock := myID } (here .wakeInside)
  | .wakeInside => .signal .stockRoomCV (here .waitAdmitted)
  | .waitAdmitted => .wait .stockRoomCV (here .releaseLine)
  | .occupy => .access { s with currentLoaderInStock := myID } (here .releaseLine)
  | .releaseLine =>
    .release .currentLoaderInStockLock (.restock k (hands + 1) (.stockRoom .reacquireLine))
  | .reacquireLine => .acquire .currentLoaderInStockLock (here .someoneInLine)
  | .someoneInLine =>
    think s (if s.waitingForStockRoomCount > 0 then here .callNext else here .vacate)
  | .callNext => .signal .currentLoaderInStockCV (here .uncountNext)
  | .uncountNext =>
    .access { s with waitingForStockRoomCount := s.waitingForStockRoomCount - 1 }
      (here .releaseLineCalled)
  | .releaseLineCalled => .release .currentLoaderInStockLock (here .waitSuccessor)
  | .waitSuccessor => .wait .stockRoomCV (here .letIn)
  | .letIn => .signal .stockRoomCV (here .releaseRoom)
  | .vacate => .access { s with currentLoaderInStock := -1 } (here .releaseLineVacant)
  | .releaseLineVacant => .release .currentLoaderInStockLock (here .releaseRoom)
  | .releaseRoom => .release .stockRoomLock (.restock k hands .acquireShelf)

def restocking (s : Shared T) (t : T) (myID : ℕ) (k : Shelf) (hands : ℤ) : Restocking → Code T
  | .notFull =>
    think s (.restock k hands (if s.shelfInventory k < maxShelfQty then .releaseShelf else .finish))
  | .releaseShelf =>
    .release (.shelfLock k) (.restock k hands (.stockRoom .acquireLine))
  | .stockRoom pc => stockRoom s myID k hands pc
  | .acquireShelf => .acquire (.shelfLock k) (.restock k hands .full)
  | .full =>
    think s (if s.shelfInventory k = maxShelfQty then .restock k 0 .finish
      else .restock k hands .loadInventory)
  | .loadInventory => think s (.restock k hands (.storeInventory (s.shelfInventory k)))
  | .storeInventory loaded =>
    .access (setInventory s k (loaded + hands) (.stocked t k hands)) (.restock k 0 .notFull)
  | .finish => .release (.shelfLock k) .awaitOrders

/-- The statement of a thread. A customer who has been through his list is done. -/
def program (role : T → Role) : Program T LockName ConditionName (Shared T) Place Choice :=
  fun s t p choice =>
    match p with
    | .nextEntry i cart =>
      (role t).list[i]?.map fun e => think s (if e.item < numItems then .shop i e cart .needMore
        else .nextEntry (i + 1) cart)
    | .shop i e cart pc => some (shopping s t i e cart pc)
    | .sell =>
      match choice with
      | .shelf k => some (.acquire (.shelfLock k) (.broadcastShelf k))
      | .managerItem => none
    | .broadcastShelf k => some (.broadcast (.shelfCV k) (.releaseAnnounced k))
    | .releaseAnnounced k => some (.release (.shelfLock k) .sell)
    | .awaitOrders =>
      match choice with
      | .shelf k => some (.acquire (.shelfLock k) (.restock k 0 .notFull))
      | .managerItem => some (.acquire .stockRoomLock .putBack)
    | .putBack => some (.release .stockRoomLock .awaitOrders)
    | .restock k hands pc => some (restocking s t (role t).myID k hands pc)

def start (role : T → Role) (t : T) : Place :=
  match role t with
  | .customer _ => .nextEntry 0 .empty
  | .salesman => .sell
  | .goodsLoader _ => .awaitOrders

def Shared.initial : Shared T := ⟨fun _ => defaultInventory, -1, 0, []⟩

abbrev Market (T : Type*) := State T LockName ConditionName (Shared T) Place

def Market.initial (role : T → Role) : Market T := State.initial .initial (start role)

/-- Where the thread is, or comes back to from a call. -/
def placeOf : Control LockName ConditionName Place → Place
  | .runs p | .acquiring _ p | .waiting _ p => p

/-- The locks that a thread holds before each statement. -/
def locksOf : Place → List LockName
  | .nextEntry _ _ | .sell | .awaitOrders => []
  | .shop _ e _ pc =>
    match pc with
    | .needMore | .acquireShelf | .acquireToWait => []
    | _ => [.shelfLock e.shelf]
  | .broadcastShelf k | .releaseAnnounced k => [.shelfLock k]
  | .putBack => [.stockRoomLock]
  | .restock k _ pc =>
    match pc with
    | .acquireShelf => []
    | .stockRoom pc =>
      match pc with
      | .acquireLine => []
      | .lineNeeded | .countMe | .waitInLine | .acquireRoom => [.currentLoaderInStockLock]
      | .reacquireLine | .waitSuccessor | .letIn | .releaseRoom => [.stockRoomLock]
      | _ => [.currentLoaderInStockLock, .stockRoomLock]
    | _ => [.shelfLock k]

def holds (p : Place) (l : LockName) : Prop := l ∈ locksOf p

instance (p : Place) (l : LockName) : Decidable (holds p l) := inferInstanceAs (Decidable (_ ∈ _))

theorem not_holds_start (role : T → Role) (t : T) (l : LockName) : ¬ holds (start role t) l := by
  unfold start
  split <;> exact List.not_mem_nil

variable {s : Shared T} {t : T} {role : T → Role}

theorem shopping_respects (i : ℕ) (e : Entry) (cart : Cart) (pc : Shopping) :
    (shopping s t i e cart pc).Respects lockOf holds (.shop i e cart pc) := by
  cases pc <;> simp [shopping, think, Instruction.Respects, holds, locksOf, lockOf]
  · split_ifs <;> simp
  · split_ifs <;> simp

theorem stockRoom_respects (myID : ℕ) (k : Shelf) (hands : ℤ) (pc : StockRoom) :
    (stockRoom s myID k hands pc).Respects lockOf holds (.restock k hands (.stockRoom pc)) := by
  cases pc <;> simp [stockRoom, think, Instruction.Respects, holds, locksOf, lockOf]
  case lineNeeded | someoneInside | someoneInLine =>
    intro m
    split_ifs <;> simp
  all_goals
    intro m
    cases m <;> simp

theorem restocking_respects (myID : ℕ) (k : Shelf) (hands : ℤ) (pc : Restocking) :
    (restocking s t myID k hands pc).Respects lockOf holds (.restock k hands pc) := by
  cases pc with
  | stockRoom pc => exact stockRoom_respects myID k hands pc
  | notFull | full =>
    intro m
    split_ifs <;> simp [holds, locksOf]
  | _ => simp [restocking, think, Instruction.Respects, holds, locksOf]

/-- Every statement keeps to the locks that its thread holds there. -/
theorem program_discipline (role : T → Role) : Discipline lockOf (program role) holds := by
  intro s t p choice a h
  cases p with
  | nextEntry i cart =>
    obtain ⟨e, -, rfl⟩ := Option.map_eq_some_iff.mp h
    intro m
    split_ifs <;> simp [holds, locksOf]
  | shop i e cart pc =>
    obtain rfl := Option.some.inj h
    exact shopping_respects i e cart pc
  | restock k hands pc =>
    obtain rfl := Option.some.inj h
    exact restocking_respects (role t).myID k hands pc
  | sell | awaitOrders =>
    cases choice
    all_goals
      cases h
      try simp [Instruction.Respects, holds, locksOf]
  | _ =>
    obtain rfl := Option.some.inj h
    simp [Instruction.Respects, holds, locksOf, lockOf]

end

end Nachos.Supermarket
