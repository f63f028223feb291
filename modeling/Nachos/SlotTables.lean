import Mathlib

/-! Tables of slots allocated by a bitmap. A table is the empty list until it is
allocated; afterwards it has one cell a slot, and a cell is `none` where the bit of
the slot is clear. -/
namespace Nachos.SlotTables

abbrev SlotTable (α : Type*) := List (Option α)

variable {α : Type*}

/-- The entry at an index that is in range and whose bit is set. -/
def live? (t : SlotTable α) (i : ℤ) : Option α :=
  if 0 ≤ i then t[i.toNat]?.join else none

/-- Allocation on first use. -/
def allocate (n : ℕ) (t : SlotTable α) : SlotTable α :=
  if t.length = 0 then List.replicate n none else t

/-- First slot whose entry satisfies the test. -/
def search (t : SlotTable α) (p : α → Bool) : Option ℕ := t.findIdx? (fun c => c.any p)

/-- First slot whose bit is clear. -/
def firstFree (t : SlotTable α) : Option ℕ := t.findIdx? Option.isNone

def put (t : SlotTable α) (i : ℤ) (a : α) : SlotTable α := t.set i.toNat (some a)

def clear (t : SlotTable α) (i : ℤ) : SlotTable α := t.set i.toNat none

theorem live?_eq_some {t : SlotTable α} {i : ℤ} {a : α} :
    live? t i = some a ↔ 0 ≤ i ∧ t[i.toNat]? = some (some a) := by
  unfold live?
  split_ifs with h
  · simp [h, Option.join_eq_some_iff]
  · simp [h]

theorem live?_lt_length {t : SlotTable α} {i : ℤ} {a : α} (h : live? t i = some a) :
    0 ≤ i ∧ i < t.length := by
  obtain ⟨h0, hi⟩ := live?_eq_some.mp h
  obtain ⟨hlt, -⟩ := List.getElem?_eq_some_iff.mp hi
  omega

@[simp] theorem live?_nil (i : ℤ) : live? ([] : SlotTable α) i = none := by simp [live?]

theorem live?_set {t : SlotTable α} {i : ℤ} (h0 : 0 ≤ i) (hi : i < t.length)
    (c : Option α) (j : ℤ) :
    live? (t.set i.toNat c) j = if j = i then c else live? t j := by
  by_cases hj : 0 ≤ j
  · by_cases he : j = i
    · subst he
      simp [live?, hj, show j.toNat < t.length by omega]
    · have hne : i.toNat ≠ j.toNat := by omega
      simp [live?, hj, he, hne]
  · simp [live?, hj, show j ≠ i by omega]

theorem live?_put {t : SlotTable α} {i : ℤ} {b : α} (h : live? t i = some b) (a : α) (j : ℤ) :
    live? (put t i a) j = if j = i then some a else live? t j :=
  live?_set (live?_lt_length h).1 (live?_lt_length h).2 _ j

theorem live?_clear {t : SlotTable α} {i : ℤ} {b : α} (h : live? t i = some b) (j : ℤ) :
    live? (clear t i) j = if j = i then none else live? t j :=
  live?_set (live?_lt_length h).1 (live?_lt_length h).2 _ j

@[simp] theorem length_put (t : SlotTable α) (i : ℤ) (a : α) : (put t i a).length = t.length := by
  simp [put]

@[simp] theorem length_clear (t : SlotTable α) (i : ℤ) : (clear t i).length = t.length := by
  simp [clear]

@[simp] theorem live?_allocate (n : ℕ) (t : SlotTable α) (i : ℤ) :
    live? (allocate n t) i = live? t i := by
  unfold allocate
  split_ifs with h
  · obtain rfl := List.length_eq_zero_iff.mp h
    unfold live?
    split_ifs
    · cases hr : (List.replicate n (none : Option α))[i.toNat]? with
      | none => simp
      | some c => simp [List.getElem?_replicate] at hr ⊢; exact hr.2.symm
    · rfl
  · rfl

theorem search_some {t : SlotTable α} {p : α → Bool} {i : ℕ} (h : search t p = some i) :
    ∃ a, live? t i = some a ∧ p a = true := by
  obtain ⟨hlt, hp, -⟩ := List.findIdx?_eq_some_iff_getElem.mp h
  cases ha : t[i] with
  | none => simp [ha] at hp
  | some a => exact ⟨a, live?_eq_some.mpr ⟨by omega, by simp [hlt, ha]⟩, by simpa [ha] using hp⟩

theorem search_none {t : SlotTable α} {p : α → Bool} :
    search t p = none ↔ ∀ i a, live? t i = some a → p a = false := by
  unfold search
  rw [List.findIdx?_eq_none_iff]
  constructor
  · intro h i a ha
    obtain ⟨-, hi⟩ := live?_eq_some.mp ha
    simpa using h _ (List.mem_of_getElem? hi)
  · intro h c hc
    obtain ⟨i, hi, rfl⟩ := List.mem_iff_getElem.mp hc
    cases ha : t[i] with
    | none => rfl
    | some a =>
      have := h i a (live?_eq_some.mpr ⟨by omega, by simp [hi, ha]⟩)
      simpa using this

theorem firstFree_some {t : SlotTable α} {i : ℕ} (h : firstFree t = some i) :
    i < t.length ∧ live? t i = none := by
  obtain ⟨hlt, hp, -⟩ := List.findIdx?_eq_some_iff_getElem.mp h
  refine ⟨hlt, ?_⟩
  simp [live?, hlt, Option.isNone_iff_eq_none.mp hp]

theorem firstFree_none {t : SlotTable α} (h : firstFree t = none) {i : ℤ} (h0 : 0 ≤ i)
    (hi : i < t.length) : live? t i ≠ none := by
  have hlt : i.toNat < t.length := by omega
  have hmem := List.findIdx?_eq_none_iff.mp h _ (List.getElem_mem hlt)
  cases ht : t[i.toNat] with
  | none => simp [ht] at hmem
  | some a => simp [live?, h0, hlt, ht]

theorem live?_put_firstFree {t : SlotTable α} {i : ℕ} (h : firstFree t = some i) (a : α)
    (j : ℤ) : live? (put t i a) j = if j = i then some a else live? t j :=
  live?_set (by omega) (by have := (firstFree_some h).1; omega) _ j

/-! What the entries of a table contribute to a total. -/

variable {M : Type*} [AddCommMonoid M]

def total (f : α → M) (t : SlotTable α) : M := (t.map fun c => c.elim 0 f).sum

theorem total_set (f : α → M) {t : SlotTable α} {i : ℕ} (hi : i < t.length) (c : Option α) :
    total f (t.set i c) + t[i].elim 0 f = total f t + c.elim 0 f := by
  induction t generalizing i with
  | nil => simp at hi
  | cons a t ih =>
    cases i with
    | zero =>
      simp only [total, List.set_cons_zero, List.map_cons, List.sum_cons, List.getElem_cons_zero]
      abel
    | succ i =>
      have hi' : i < t.length := by simpa using hi
      have hh := ih hi'
      simp only [total, List.set_cons_succ, List.map_cons, List.sum_cons,
        List.getElem_cons_succ] at hh ⊢
      rw [add_assoc, hh, add_assoc]

theorem total_put (f : α → M) {t : SlotTable α} {i : ℤ} {b : α} (h : live? t i = some b) (a : α) :
    total f (put t i a) + f b = total f t + f a := by
  obtain ⟨h0, hi⟩ := live?_eq_some.mp h
  obtain ⟨hlt, hb⟩ := List.getElem?_eq_some_iff.mp hi
  have hh := total_set f hlt (some a)
  rwa [hb] at hh

theorem total_clear (f : α → M) {t : SlotTable α} {i : ℤ} {b : α} (h : live? t i = some b) :
    total f (clear t i) + f b = total f t := by
  obtain ⟨h0, hi⟩ := live?_eq_some.mp h
  obtain ⟨hlt, hb⟩ := List.getElem?_eq_some_iff.mp hi
  have hh := total_set f hlt none
  rw [hb] at hh
  simpa [clear] using hh

theorem total_put_firstFree (f : α → M) {t : SlotTable α} {i : ℕ} (h : firstFree t = some i)
    (a : α) : total f (put t i a) = total f t + f a := by
  obtain ⟨hlt, hp, -⟩ := List.findIdx?_eq_some_iff_getElem.mp h
  have hh := total_set f hlt (some a)
  rw [Option.isNone_iff_eq_none.mp hp] at hh
  simpa [put] using hh

@[simp] theorem total_allocate (f : α → M) (n : ℕ) (t : SlotTable α) :
    total f (allocate n t) = total f t := by
  unfold allocate
  split_ifs with h
  · obtain rfl := List.length_eq_zero_iff.mp h
    simp [total]
  · rfl

end Nachos.SlotTables
