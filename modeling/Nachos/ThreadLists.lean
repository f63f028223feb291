import Nachos.LinkedChains
import Nachos.Simulations
import Mathlib.Data.List.Sort

/-! The lists of `threads/list.cc`: elements in memory, linked by pointers. Which free address
`new` gives is the allocator's choice, and the address of a deleted element may be given again. -/
namespace Nachos.Lists
open LinkedChains Simulations

variable {ι : Type}

/-- `item` is a pointer, and `none` is NULL. -/
structure ListElement (ι : Type) where
  next : Option ℕ
  key : ℤ
  item : Option ι

inductive Fault
  | nullPointer
  | dangling
  | noList
  | inUse
  | endless
  deriving DecidableEq, Repr

/-- The elements that exist. No address from `limit` on has been given yet. -/
structure Memory (ι : Type) where
  element : ℕ → Option (ListElement ι)
  limit : ℕ
  unused : ∀ a, limit ≤ a → element a = none

namespace Memory
variable (μ : Memory ι)

def empty : Memory ι := ⟨fun _ => none, 0, fun _ _ => rfl⟩

/-- The address that `new` gives: the allocator's choice, if it is free. -/
def address (choice : ℕ) : ℕ := if (μ.element choice).isNone then choice else μ.limit

def allocate (choice : ℕ) (e : ListElement ι) : Memory ι where
  element := Function.update μ.element (μ.address choice) (some e)
  limit := max μ.limit (μ.address choice + 1)
  unused a ha := by
    have hne : a ≠ μ.address choice := by omega
    rw [Function.update_of_ne hne]
    exact μ.unused a (by omega)

def load (p : Option ℕ) : Except Fault (ListElement ι) :=
  match p with
  | none => .error .nullPointer
  | some a =>
    match μ.element a with
    | none => .error .dangling
    | some e => .ok e

def setNext (p n : Option ℕ) : Except Fault (Memory ι) :=
  match p with
  | none => .error .nullPointer
  | some a =>
    match h : μ.element a with
    | none => .error .dangling
    | some e => .ok {
        element := Function.update μ.element a (some { e with next := n })
        limit := μ.limit
        unused := fun b hb => by
          have hne : b ≠ a := by
            rintro rfl
            simp [μ.unused b hb] at h
          rw [Function.update_of_ne hne]
          exact μ.unused b hb }

/-- `delete` -/
def free (p : Option ℕ) : Except Fault (Memory ι) :=
  match p with
  | none => .error .nullPointer
  | some a =>
    match μ.element a with
    | none => .error .dangling
    | some _ => .ok {
        element := Function.update μ.element a none
        limit := μ.limit
        unused := fun b hb => by
          by_cases hba : b = a
          · simp [hba]
          · rw [Function.update_of_ne hba]
            exact μ.unused b hb }

end Memory

/-- The class `List`. -/
structure LinkedList where
  first : Option ℕ
  last : Option ℕ
  deriving DecidableEq, Repr

namespace LinkedList

def new : LinkedList := ⟨none, none⟩

def isEmpty (l : LinkedList) : Bool := l.first.isNone

def append (μ : Memory ι) (l : LinkedList) (choice : ℕ) (item : Option ι) :
    Except Fault (Memory ι × LinkedList) :=
  let element := μ.address choice
  let μ := μ.allocate choice ⟨none, 0, item⟩
  if l.isEmpty then .ok (μ, ⟨some element, some element⟩)
  else do
    let μ ← μ.setNext l.last (some element)
    .ok (μ, { l with last := some element })

def prepend (μ : Memory ι) (l : LinkedList) (choice : ℕ) (item : Option ι) :
    Except Fault (Memory ι × LinkedList) :=
  let element := μ.address choice
  let μ := μ.allocate choice ⟨none, 0, item⟩
  if l.isEmpty then .ok (μ, ⟨some element, some element⟩)
  else do
    let μ ← μ.setNext (some element) l.first
    .ok (μ, { l with first := some element })

/-- The loop of `SortedInsert`: the element before the first one after `ptr` that is bigger,
and none at the end of the list. -/
def seek (μ : Memory ι) (sortKey : ℤ) : ℕ → ℕ → Except Fault (Option ℕ)
  | 0, _ => .error .endless
  | fuel + 1, ptr => do
    let e ← μ.load (some ptr)
    match e.next with
    | none => .ok none
    | some n =>
      let e' ← μ.load (some n)
      if sortKey < e'.key then .ok (some ptr) else seek μ sortKey fuel n

def sortedInsert (μ : Memory ι) (l : LinkedList) (choice : ℕ) (item : Option ι) (sortKey : ℤ) :
    Except Fault (Memory ι × LinkedList) :=
  let element := μ.address choice
  let μ := μ.allocate choice ⟨none, sortKey, item⟩
  match l.first with
  | none => .ok (μ, ⟨some element, some element⟩)
  | some first => do
    let e ← μ.load (some first)
    if sortKey < e.key then
      let μ ← μ.setNext (some element) (some first)
      .ok (μ, { l with first := some element })
    else
      match ← seek μ sortKey μ.limit first with
      | some ptr =>
        let e ← μ.load (some ptr)
        let μ ← μ.setNext (some element) e.next
        let μ ← μ.setNext (some ptr) (some element)
        .ok (μ, l)
      | none =>
        let μ ← μ.setNext l.last (some element)
        .ok (μ, { l with last := some element })

/-- With the item and, if there was one to remove, its key. -/
def sortedRemove (μ : Memory ι) (l : LinkedList) :
    Except Fault (Memory ι × LinkedList × Option ι × Option ℤ) :=
  if l.isEmpty then .ok (μ, l, none, none)
  else do
    let element ← μ.load l.first
    let l' := if l.first = l.last then ⟨none, none⟩ else { l with first := element.next }
    let μ ← μ.free l.first
    .ok (μ, l', element.item, some element.key)

/-- `Remove` is `SortedRemove`, but ignores the key. -/
def remove (μ : Memory ι) (l : LinkedList) : Except Fault (Memory ι × LinkedList × Option ι) := do
  let (μ, l, thing, _) ← sortedRemove μ l
  .ok (μ, l, thing)

/-- The items that `Mapcar` hands to the function. -/
def mapcar (μ : Memory ι) : ℕ → Option ℕ → Except Fault (List (Option ι))
  | _, none => .ok []
  | 0, some _ => .error .endless
  | fuel + 1, some ptr => do
    let e ← μ.load (some ptr)
    let items ← mapcar μ fuel e.next
    .ok (e.item :: items)

/-- The loop of the destructor, which stops at an item that is NULL as at the end. -/
def destroy : ℕ → Memory ι → LinkedList → Except Fault (Memory ι)
  | 0, _, _ => .error .endless
  | fuel + 1, μ, l => do
    let (μ, l, thing) ← remove μ l
    if thing.isNone then .ok μ else destroy fuel μ l

end LinkedList

/-- The lists by their addresses. -/
structure State (ι : Type) where
  memory : Memory ι
  lists : ℕ → Option LinkedList

def State.start : State ι := ⟨.empty, fun _ => none⟩

inductive Op (ι : Type)
  | new (l : ℕ)
  | delete (l : ℕ)
  | append (l choice : ℕ) (item : Option ι)
  | prepend (l choice : ℕ) (item : Option ι)
  | remove (l : ℕ)
  | mapcar (l : ℕ)
  | isEmpty (l : ℕ)
  | sortedInsert (l choice : ℕ) (item : Option ι) (sortKey : ℤ)
  | sortedRemove (l : ℕ)

inductive Answer (ι : Type)
  | nothing
  | flag (b : Bool)
  | items (items : List (Option ι))
  | thing (item : Option ι)
  | thingWithKey (item : Option ι) (key : Option ℤ)
  deriving DecidableEq, Repr

namespace State

def find (s : State ι) (l : ℕ) : Except Fault LinkedList :=
  match s.lists l with
  | none => .error .noList
  | some list => .ok list

def put (s : State ι) (l : ℕ) (r : Memory ι × LinkedList) : State ι :=
  ⟨r.1, Function.update s.lists l (some r.2)⟩

def step (s : State ι) : Op ι → Except Fault (State ι × Answer ι)
  | .new l =>
    match s.lists l with
    | some _ => .error .inUse
    | none => .ok (s.put l (s.memory, .new), .nothing)
  | .delete l => do
    let list ← s.find l
    let μ ← list.destroy (s.memory.limit + 1) s.memory
    .ok (⟨μ, Function.update s.lists l none⟩, .nothing)
  | .append l choice item => do
    let list ← s.find l
    let r ← list.append s.memory choice item
    .ok (s.put l r, .nothing)
  | .prepend l choice item => do
    let list ← s.find l
    let r ← list.prepend s.memory choice item
    .ok (s.put l r, .nothing)
  | .remove l => do
    let list ← s.find l
    let (μ, list, thing) ← list.remove s.memory
    .ok (s.put l (μ, list), .thing thing)
  | .mapcar l => do
    let list ← s.find l
    let items ← LinkedList.mapcar s.memory s.memory.limit list.first
    .ok (s, .items items)
  | .isEmpty l => do
    let list ← s.find l
    .ok (s, .flag list.isEmpty)
  | .sortedInsert l choice item sortKey => do
    let list ← s.find l
    let r ← list.sortedInsert s.memory choice item sortKey
    .ok (s.put l r, .nothing)
  | .sortedRemove l => do
    let list ← s.find l
    let (μ, list, thing, key) ← list.sortedRemove s.memory
    .ok (s.put l (μ, list), .thingWithKey thing key)

end State
end Nachos.Lists
