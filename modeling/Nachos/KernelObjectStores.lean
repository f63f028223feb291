import Nachos.KernelObjectTables

/-! A table of kernel objects with the Creates that are under way and the objects that were
made and deleted. An object stands for one creation, so that its address may be used again. -/
namespace Nachos.Threads

structure ObjectStore (T O S : Type*) where
  table : ObjectTable O S
  /-- the slot that a Create of this thread has found -/
  creating : T → Option ℤ
  /-- the address space whose Create made the object -/
  creator : O → Option S
  freed : List O

variable {T O S : Type*} [DecidableEq T] [DecidableEq O] [DecidableEq S]

namespace ObjectStore

def initial (memory : ℤ → Option S × Bool) : ObjectStore T O S :=
  ⟨.initial memory, fun _ => none, fun _ => none, []⟩

def object (st : ObjectStore T O S) (i : ℤ) : Option O := (st.table.entries i).object

def space (st : ObjectStore T O S) (i : ℤ) : Option S := (st.table.entries i).space

def isToBeDeleted (st : ObjectStore T O S) (i : ℤ) : Bool := (st.table.entries i).isToBeDeleted

/-- Create up to `Find`; none if the table is full. -/
def find (st : ObjectStore T O S) (t : T) : Option (ObjectStore T O S) :=
  st.table.allocate.free?.map fun i : ℕ =>
    { st with table := st.table.allocate.take i
              creating := Function.update st.creating t (some (i : ℤ)) }

/-- The rest of Create, with a new object. -/
def write (st : ObjectStore T O S) (t : T) (i : ℤ) (o : O) (s : S) : ObjectStore T O S :=
  { st with table := st.table.write i o s
            creating := Function.update st.creating t none
            creator := Function.update st.creator o (some s) }

/-- `delete` and `Clear`. -/
def delete (st : ObjectStore T O S) (i : ℤ) (o : O) : ObjectStore T O S :=
  { st with table := st.table.clear i
            freed := st.freed ++ [o] }

def defer (st : ObjectStore T O S) (i : ℤ) : ObjectStore T O S :=
  { st with table := st.table.setToBeDeleted i }

/-- The loop of Exit; none if it deletes a pointer that was never set. -/
def exit (st : ObjectStore T O S) (s : S) : Option (ObjectStore T O S) :=
  let r := st.table.exitLoop s
  if r.2.all Option.isSome then some { st with table := r.1, freed := st.freed ++ r.2.reduceOption }
  else none

/-- No Create has found the slot and not written it. -/
def Complete (st : ObjectStore T O S) (i : ℤ) : Prop := ∀ t, st.creating t ≠ some i

/-- The slot is in use and has been written. -/
def Live (st : ObjectStore T O S) (i : ℤ) : Prop := st.table.map i = true ∧ st.Complete i

/-- The slot has been taken by a Create of the address space and not destroyed since. -/
def Owned (space : T → S) (st : ObjectStore T O S) (i : ℤ) (s : S) : Prop :=
  st.table.map i = true ∧ ((∃ t, st.creating t = some i ∧ space t = s) ∨
    (st.Complete i ∧ st.space i = some s ∧ st.isToBeDeleted i = false))

end ObjectStore

/-! The loop of Exit in closed form. -/

namespace ObjectTable

variable {t : ObjectTable O S} {s : S} {i : ℤ} {o : O}

/-- The slots before `n` that belong to the space. -/
def exitSlots (t : ObjectTable O S) (s : S) (n : ℕ) : List ℕ :=
  (List.range n).filter fun i => (t.entries (i : ℤ)).space = some s

/-- The slot is before `n` and belongs to the space. -/
def Cleared (t : ObjectTable O S) (s : S) (n : ℕ) (i : ℤ) : Prop :=
  0 ≤ i ∧ i < n ∧ (t.entries i).space = some s

instance (t : ObjectTable O S) (s : S) (n : ℕ) (i : ℤ) : Decidable (t.Cleared s n i) :=
  inferInstanceAs (Decidable (_ ∧ _))

omit [DecidableEq O] in
theorem exitLoop_prefix (t : ObjectTable O S) (s : S) (n : ℕ) :
    (List.range n).foldl (exitSlot s) (t, []) =
      (⟨t.arraySize, fun i => if t.Cleared s n i then false else t.map i,
        fun i => if t.Cleared s n i then ⟨(t.entries i).object, none, false⟩ else t.entries i⟩,
        (t.exitSlots s n).map fun i : ℕ => (t.entries i).object) := by
  induction n with
  | zero =>
    have hnone : ∀ i, ¬ t.Cleared s 0 i := fun i h => by
      have h1 := h.1
      have h2 := h.2.1
      simp at h2
      omega
    simp [hnone, exitSlots]
  | succ n ih =>
    have hnot : ¬ t.Cleared s n (n : ℤ) := fun h => by
      have h2 := h.2.1
      omega
    rw [List.range_succ, List.foldl_append, ih]
    by_cases hs : (t.entries n).space = some s
    · have hcleared : ∀ i : ℤ, t.Cleared s (n + 1) i ↔ i = n ∨ t.Cleared s n i := by
        intro i
        constructor
        · rintro ⟨h0, hi, hsp⟩
          by_cases hin : i = n
          · exact .inl hin
          · exact .inr ⟨h0, by push_cast at hi; omega, hsp⟩
        · rintro (rfl | ⟨h0, hi, hsp⟩)
          · exact ⟨by omega, by push_cast; omega, hs⟩
          · exact ⟨h0, by push_cast; omega, hsp⟩
      have hslots : t.exitSlots s (n + 1) = t.exitSlots s n ++ [n] := by
        simp [exitSlots, List.range_succ, List.filter_append, hs]
      simp only [List.foldl_cons, List.foldl_nil, exitSlot, hnot, if_false, hs, if_true, hslots,
        List.map_append, List.map_cons, List.map_nil, hcleared]
      refine Prod.ext ?_ rfl
      simp only [ObjectTable.mk.injEq, true_and]
      constructor
      · funext i
        by_cases hi : i = (n : ℤ) <;> simp [hi]
      · funext i
        by_cases hi : i = (n : ℤ) <;> simp [hi]
    · have hcleared : ∀ i : ℤ, t.Cleared s (n + 1) i ↔ t.Cleared s n i := by
        intro i
        constructor
        · rintro ⟨h0, hi, hsp⟩
          have hin : i ≠ n := by
            rintro rfl
            exact hs hsp
          exact ⟨h0, by push_cast at hi; omega, hsp⟩
        · rintro ⟨h0, hi, hsp⟩
          exact ⟨h0, by push_cast; omega, hsp⟩
      have hslots : t.exitSlots s (n + 1) = t.exitSlots s n := by
        simp [exitSlots, List.range_succ, List.filter_append, hs]
      simp only [List.foldl_cons, List.foldl_nil, exitSlot, hnot, if_false, hs, hslots, hcleared]

omit [DecidableEq O] in
/-- The table after Exit, and the pointers that it deletes. -/
theorem exitLoop_eq (t : ObjectTable O S) (s : S) :
    t.exitLoop s =
      (⟨t.arraySize, fun i => if t.Cleared s t.arraySize i then false else t.map i,
        fun i => if t.Cleared s t.arraySize i then ⟨(t.entries i).object, none, false⟩
          else t.entries i⟩,
        (t.exitSlots s t.arraySize).map fun i : ℕ => (t.entries i).object) :=
  exitLoop_prefix t s t.arraySize

end ObjectTable

/-! What every operation keeps when no operation names a slot that a Create has not written. -/

variable {space : T → S} {st st' : ObjectStore T O S} {t v : T} {i j : ℤ} {o : O} {s p : S}

/-- The slots found are in use, each by one Create; an entry with a space was written by it. -/
structure ObjectStore.Sane (st : ObjectStore T O S) : Prop where
  taken : ∀ t i, st.creating t = some i → st.table.map i = true
  apart : ∀ t v i, st.creating t = some i → st.creating v = some i → t = v
  made : ∀ i o s, st.object i = some o → st.space i = some s → st.creator o = some s

/-- The bit and the entry of the slot are the same. -/
def ObjectStore.SameSlot (st st' : ObjectStore T O S) (i : ℤ) : Prop :=
  st'.table.map i = st.table.map i ∧ st'.table.entries i = st.table.entries i

namespace ObjectStore

omit [DecidableEq T] [DecidableEq O] [DecidableEq S] in
theorem Sane.initial (memory : ℤ → Option S × Bool) :
    (ObjectStore.initial memory : ObjectStore T O S).Sane := by
  constructor <;> simp [ObjectStore.initial, ObjectTable.initial, ObjectStore.object]

omit [DecidableEq O] [DecidableEq S] in
theorem find_eq (h : st.find t = some st') :
    ∃ n : ℕ, n < st.table.allocate.arraySize ∧ st.table.map n = false ∧ st' =
      { st with table := st.table.allocate.take n
                creating := Function.update st.creating t (some (n : ℤ)) } := by
  unfold ObjectStore.find at h
  obtain ⟨n, hn, rfl⟩ := Option.map_eq_some_iff.mp h
  have hfree := ObjectTable.free?_some hn
  exact ⟨n, hfree.1, by simpa using hfree.2, rfl⟩

omit [DecidableEq O] [DecidableEq S] in
theorem Sane.find (h : st.Sane) (hf : st.find t = some st') : st'.Sane := by
  obtain ⟨n, -, hn, rfl⟩ := find_eq hf
  have hold : ∀ {v i}, Function.update st.creating t (some (n : ℤ)) v = some i →
      (v = t ∧ i = n) ∨ (i ≠ n ∧ st.creating v = some i) := by
    intro v i hv
    by_cases hvt : v = t
    · subst hvt
      exact .inl ⟨rfl, by simpa [eq_comm] using hv⟩
    · rw [Function.update_of_ne hvt] at hv
      refine .inr ⟨?_, hv⟩
      rintro rfl
      simp [h.taken v n hv] at hn
  refine ⟨fun v i hv => ?_, fun v w i hv hw => ?_, fun i o s ho hs => h.made i o s ?_ ?_⟩
  · rcases hold hv with ⟨-, rfl⟩ | ⟨hi, hv⟩
    · simp [ObjectTable.take]
    · simpa [ObjectTable.take, hi] using h.taken v i hv
  · rcases hold hv with ⟨rfl, rfl⟩ | ⟨hi, hv⟩
    · exact ((hold hw).resolve_right fun hw => hw.1 rfl).1.symm
    · exact h.apart v w i hv ((hold hw).resolve_left fun hw => hi hw.2).2
  · simpa [ObjectStore.object, ObjectTable.take] using ho
  · simpa [ObjectStore.space, ObjectTable.take] using hs

omit [DecidableEq S] in
theorem Sane.write (h : st.Sane) (hc : st.creating t = some i) (hnew : st.creator o = none)
    (s : S) : (st.write t i o s).Sane := by
  have hold : ∀ {v j}, Function.update st.creating t none v = some j → st.creating v = some j := by
    intro v j hv
    have hvt : v ≠ t := by
      rintro rfl
      simp at hv
    rwa [Function.update_of_ne hvt] at hv
  refine ⟨fun v j hv => h.taken v j (hold hv), fun v w j hv hw => h.apart v w j (hold hv) (hold hw),
    fun j o' s' ho hs => ?_⟩
  by_cases hj : j = i
  · subst hj
    obtain rfl : o = o' := by simpa [ObjectStore.object, ObjectStore.write, ObjectTable.write] using ho
    obtain rfl : s = s' := by simpa [ObjectStore.space, ObjectStore.write, ObjectTable.write] using hs
    simp [ObjectStore.write]
  · have hmade := h.made j o' s'
      (by simpa [ObjectStore.object, ObjectStore.write, ObjectTable.write, hj] using ho)
      (by simpa [ObjectStore.space, ObjectStore.write, ObjectTable.write, hj] using hs)
    have ho' : o' ≠ o := by
      rintro rfl
      simp [hnew] at hmade
    simpa [ObjectStore.write, ho'] using hmade

omit [DecidableEq T] [DecidableEq O] [DecidableEq S] in
theorem Sane.delete (h : st.Sane) (hcom : st.Complete i) (o : O) : (st.delete i o).Sane := by
  refine ⟨fun v j hv => ?_, h.apart, h.made⟩
  have hj : j ≠ i := by
    rintro rfl
    exact hcom v hv
  simpa [ObjectStore.delete, ObjectTable.clear, hj] using h.taken v j hv

omit [DecidableEq T] [DecidableEq O] [DecidableEq S] in
theorem Sane.defer (h : st.Sane) (i : ℤ) : (st.defer i).Sane := by
  refine ⟨h.taken, h.apart, fun j o s ho hs => h.made j o s ?_ ?_⟩
  · by_cases hj : j = i <;>
      simpa [ObjectStore.object, ObjectStore.defer, ObjectTable.setToBeDeleted, hj] using ho
  · by_cases hj : j = i <;>
      simpa [ObjectStore.space, ObjectStore.defer, ObjectTable.setToBeDeleted, hj] using hs

omit [DecidableEq T] [DecidableEq O] in
theorem exit_eq (h : st.exit s = some st') :
    (∀ i ∈ st.table.exitSlots s st.table.arraySize, (st.object i).isSome) ∧
    st' = { st with
      table := (st.table.exitLoop s).1
      freed := st.freed ++
        ((st.table.exitSlots s st.table.arraySize).map fun i : ℕ => st.object i).reduceOption } := by
  unfold ObjectStore.exit at h
  dsimp only at h
  split_ifs at h with hall
  rw [ObjectTable.exitLoop_eq] at hall h
  refine ⟨?_, ?_⟩
  · simpa [ObjectStore.object] using hall
  · rw [ObjectTable.exitLoop_eq]
    exact (Option.some.inj h).symm

omit [DecidableEq T] [DecidableEq O] in
theorem exit_slot (h : st.exit s = some st') (i : ℤ) :
    st'.table.map i = (if st.table.Cleared s st.table.arraySize i then false else st.table.map i) ∧
    st'.table.entries i = if st.table.Cleared s st.table.arraySize i then
      ⟨st.object i, none, false⟩ else st.table.entries i := by
  obtain ⟨-, rfl⟩ := exit_eq h
  rw [ObjectTable.exitLoop_eq]
  exact ⟨rfl, rfl⟩

omit [DecidableEq T] [DecidableEq O] in
theorem mem_exitSlots {n : ℕ} :
    n ∈ st.table.exitSlots s st.table.arraySize ↔ st.table.Cleared s st.table.arraySize n := by
  simp [ObjectTable.exitSlots, ObjectTable.Cleared]

omit [DecidableEq T] [DecidableEq O] in
/-- The slots that the loop of Exit clears, as a bounded condition. -/
theorem cleared_of_slots {P : ℤ → Prop} (h : ∀ n ∈ st.table.exitSlots s st.table.arraySize, P n)
    (hi : st.table.Cleared s st.table.arraySize i) : P i := by
  have h0 := hi.1
  have hn : ((i.toNat : ℕ) : ℤ) = i := by omega
  have hP := h i.toNat (mem_exitSlots.mpr (hn ▸ hi))
  rwa [hn] at hP

omit [DecidableEq T] [DecidableEq O] in
theorem Sane.exit (h : st.Sane) (he : st.exit s = some st')
    (hcom : ∀ n ∈ st.table.exitSlots s st.table.arraySize, st.Complete n) : st'.Sane := by
  have hslot := exit_slot he
  obtain ⟨-, rfl⟩ := exit_eq he
  refine ⟨fun v i hv => ?_, h.apart, fun i o s' ho hs => ?_⟩
  · have hnot : ¬ st.table.Cleared s st.table.arraySize i := fun hi =>
      cleared_of_slots hcom hi v hv
    rw [(hslot i).1, if_neg hnot]
    exact h.taken v i hv
  · have hentry := (hslot i).2
    simp only [ObjectStore.object, ObjectStore.space] at ho hs
    split_ifs at hentry with hi
    · rw [hentry] at hs
      cases hs
    · rw [hentry] at ho hs
      exact h.made i o s' ho hs

/-! A slot that belongs to another address space stays as it is. -/

omit [DecidableEq T] [DecidableEq O] [DecidableEq S] in
theorem space_of_owned (ho : st.Owned space i p) (hcom : st.Complete i) : st.space i = some p := by
  rcases ho.2 with ⟨v, hv, -⟩ | ⟨-, hs, -⟩
  · exact absurd hv (hcom v)
  · exact hs

omit [DecidableEq O] [DecidableEq S] in
theorem sameSlot_find (ho : st.Owned space i p) (hf : st.find t = some st') : st.SameSlot st' i := by
  obtain ⟨n, -, hn, rfl⟩ := find_eq hf
  have hi : i ≠ n := by
    rintro rfl
    simp [ho.1] at hn
  exact ⟨by simp [ObjectTable.take, hi], by simp [ObjectTable.take]⟩

omit [DecidableEq S] in
theorem sameSlot_write (h : st.Sane) (ho : st.Owned space i p) (hp : p ≠ space t)
    (hc : st.creating t = some j) (o : O) : st.SameSlot (st.write t j o (space t)) i := by
  have hi : i ≠ j := by
    rintro rfl
    rcases ho.2 with ⟨v, hv, rfl⟩ | ⟨hcom, -⟩
    · exact hp (by rw [h.apart v t i hv hc])
    · exact hcom t hc
  exact ⟨rfl, by simp [ObjectStore.write, ObjectTable.write, hi]⟩

omit [DecidableEq T] [DecidableEq O] in
/-- A validated slot is not the slot of another address space. -/
theorem ne_of_validates (ho : st.Owned space i p) (hp : p ≠ s)
    (hv : st.table.validates s j = true) (hcom : st.Complete j) : i ≠ j := by
  rintro rfl
  rcases ho.2 with ⟨v, hv', -⟩ | ⟨-, hs, -⟩
  · exact hcom v hv'
  · exact hp (Option.some.inj (hs.symm.trans (ObjectTable.validates_iff.mp hv).2.2.2))

omit [DecidableEq T] [DecidableEq O] [DecidableEq S] in
/-- Nor is a marked one. -/
theorem ne_of_marked (ho : st.Owned space i p) (hm : st.isToBeDeleted j = true)
    (hcom : st.Complete j) : i ≠ j := by
  rintro rfl
  rcases ho.2 with ⟨v, hv, -⟩ | ⟨-, -, hm'⟩
  · exact hcom v hv
  · simp [hm] at hm'

omit [DecidableEq T] [DecidableEq O] [DecidableEq S] in
theorem sameSlot_delete (hi : i ≠ j) (o : O) : st.SameSlot (st.delete j o) i :=
  ⟨by simp [ObjectStore.delete, ObjectTable.clear, hi], rfl⟩

omit [DecidableEq T] [DecidableEq O] [DecidableEq S] in
theorem sameSlot_defer (hi : i ≠ j) : st.SameSlot (st.defer j) i :=
  ⟨rfl, by simp [ObjectStore.defer, ObjectTable.setToBeDeleted, hi]⟩

omit [DecidableEq T] [DecidableEq O] in
theorem sameSlot_exit (ho : st.Owned space i p) (hp : p ≠ s) (he : st.exit s = some st')
    (hcom : ∀ n ∈ st.table.exitSlots s st.table.arraySize, st.Complete n) :
    st.SameSlot st' i := by
  have hnot : ¬ st.table.Cleared s st.table.arraySize i := fun hi => by
    rcases ho.2 with ⟨v, hv, -⟩ | ⟨-, hs, -⟩
    · exact cleared_of_slots hcom hi v hv
    · exact hp (Option.some.inj (hs.symm.trans hi.2.2))
  have hslot := exit_slot he i
  rwa [if_neg hnot, if_neg hnot] at hslot

end ObjectStore

end Nachos.Threads
