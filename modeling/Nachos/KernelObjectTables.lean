import Nachos.KernelLockTable

/-! `lockTable` with `lockMap` and `conditionTable` with `conditionMap` of
`userprog/exception.cc`: arrays of pointers to kernel objects with the address space that each
belongs to, and a bitmap of the slots in use. Clearing a bit leaves the entry as it is. -/
namespace Nachos.Threads

/-- The pointer is missing from memory that no `new` of the object has written. -/
structure ObjectEntry (O S : Type*) where
  object : Option O
  space : Option S
  isToBeDeleted : Bool
  deriving DecidableEq, Repr

structure ObjectTable (O S : Type*) where
  arraySize : ℕ
  map : ℤ → Bool
  entries : ℤ → ObjectEntry O S

variable {O S : Type*} [DecidableEq S]

namespace ObjectTable

/-- Not allocated yet, in memory that holds any spaces and marks. -/
def initial (memory : ℤ → Option S × Bool) : ObjectTable O S :=
  ⟨0, fun _ => false, fun i => ⟨none, (memory i).1, (memory i).2⟩⟩

/-- Allocation on first use. -/
def allocate (t : ObjectTable O S) : ObjectTable O S :=
  if t.arraySize = 0 then { t with arraySize := maxLocksConditions } else t

/-- The index that `Find` returns, if there is one. -/
def free? (t : ObjectTable O S) : Option ℕ := (List.range t.arraySize).find? fun i => !t.map i

/-- `Find` sets the bit. -/
def take (t : ObjectTable O S) (i : ℤ) : ObjectTable O S :=
  { t with map := Function.update t.map i true }

/-- What Create does with its slot after `Find`. -/
def write (t : ObjectTable O S) (i : ℤ) (object : O) (space : S) : ObjectTable O S :=
  { t with entries := Function.update t.entries i ⟨some object, some space, false⟩ }

/-- The three validations of an index. -/
def validates (t : ObjectTable O S) (space : S) (i : ℤ) : Bool :=
  0 ≤ i ∧ i < t.arraySize ∧ t.map i ∧ (t.entries i).space = some space

/-- `Clear` after the `delete` of the object. -/
def clear (t : ObjectTable O S) (i : ℤ) : ObjectTable O S :=
  { t with map := Function.update t.map i false }

/-- `isToBeDeleted = true`. -/
def setToBeDeleted (t : ObjectTable O S) (i : ℤ) : ObjectTable O S :=
  { t with entries := Function.update t.entries i { t.entries i with isToBeDeleted := true } }

/-- An iteration of the loop of Exit over the table, with the pointers deleted so far. -/
def exitSlot (space : S) (r : ObjectTable O S × List (Option O)) (i : ℕ) :
    ObjectTable O S × List (Option O) :=
  if (r.1.entries i).space = some space then
    ({ r.1 with
        map := Function.update r.1.map i false
        entries := Function.update r.1.entries i ⟨(r.1.entries i).object, none, false⟩ },
      r.2 ++ [(r.1.entries i).object])
  else r

def exitLoop (t : ObjectTable O S) (space : S) : ObjectTable O S × List (Option O) :=
  (List.range t.arraySize).foldl (exitSlot space) (t, [])

variable {t : ObjectTable O S} {s : S} {i j : ℤ} {o : O}

omit [DecidableEq S] in
@[simp] theorem allocate_map (t : ObjectTable O S) : t.allocate.map = t.map := by
  unfold allocate
  split_ifs <;> rfl

omit [DecidableEq S] in
@[simp] theorem allocate_entries (t : ObjectTable O S) : t.allocate.entries = t.entries := by
  unfold allocate
  split_ifs <;> rfl

omit [DecidableEq S] in
theorem arraySize_le_allocate (t : ObjectTable O S) : t.arraySize ≤ t.allocate.arraySize := by
  unfold allocate
  split_ifs with h
  · simp [h]
  · exact le_rfl

omit [DecidableEq S] in
theorem free?_some {n : ℕ} (h : t.free? = some n) : n < t.arraySize ∧ t.map n = false := by
  unfold free? at h
  exact ⟨List.mem_range.mp (List.mem_of_find?_eq_some h), by simpa using List.find?_some h⟩

theorem validates_iff : t.validates s i = true ↔
    0 ≤ i ∧ i < t.arraySize ∧ t.map i = true ∧ (t.entries i).space = some s := by
  simp [validates]

end ObjectTable

end Nachos.Threads
