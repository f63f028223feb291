import Nachos.ThreadLists

/-! What the lists are for: sequences of items, and for the sorted operations sequences of items
with their keys. Whatever addresses the allocator gives, and however the operations on different
lists alternate, the pointers answer as the sequences do. -/
namespace Nachos.Lists
open LinkedChains Simulations

variable {ι : Type}

abbrev Sequence (ι : Type) := List (ℤ × Option ι)

namespace Sequence

/-- After the items with the same key. -/
def insert (xs : Sequence ι) (sortKey : ℤ) (item : Option ι) : Sequence ι :=
  xs.orderedInsert (fun x y => x.1 < y.1) (sortKey, item)

def removed : Sequence ι → Sequence ι × Option ι × Option ℤ
  | [] => ([], none, none)
  | (key, item) :: xs => (xs, item, some key)

end Sequence

/-- The sequences by the names of the lists. -/
abbrev Sequences (ι : Type) := ℕ → Option (Sequence ι)

namespace Sequences

def find (t : Sequences ι) (l : ℕ) : Except Fault (Sequence ι) :=
  match t l with
  | none => .error .noList
  | some xs => .ok xs

def put (t : Sequences ι) (l : ℕ) (xs : Sequence ι) : Sequences ι := Function.update t l (some xs)

/-- The choices of the allocator play no part. -/
def step (t : Sequences ι) : Op ι → Except Fault (Sequences ι × Answer ι)
  | .new l =>
    match t l with
    | some _ => .error .inUse
    | none => .ok (t.put l [], .nothing)
  | .delete l => do
    let _ ← t.find l
    .ok (Function.update t l none, .nothing)
  | .append l _ item => do
    let xs ← t.find l
    .ok (t.put l (xs ++ [(0, item)]), .nothing)
  | .prepend l _ item => do
    let xs ← t.find l
    .ok (t.put l ((0, item) :: xs), .nothing)
  | .remove l => do
    let xs ← t.find l
    .ok (t.put l xs.removed.1, .thing xs.removed.2.1)
  | .mapcar l => do
    let xs ← t.find l
    .ok (t, .items (xs.map Prod.snd))
  | .isEmpty l => do
    let xs ← t.find l
    .ok (t, .flag xs.isEmpty)
  | .sortedInsert l _ item sortKey => do
    let xs ← t.find l
    .ok (t.put l (xs.insert sortKey item), .nothing)
  | .sortedRemove l => do
    let xs ← t.find l
    .ok (t.put l xs.removed.1, .thingWithKey xs.removed.2.1 xs.removed.2.2)

end Sequences

/-! The memory. -/

/-- What an element carries. -/
def ListElement.load (e : ListElement ι) : ℤ × Option ι := (e.key, e.item)

@[simp] theorem ListElement.load_fst (e : ListElement ι) : e.load.1 = e.key := rfl

@[simp] theorem ListElement.load_snd (e : ListElement ι) : e.load.2 = e.item := rfl

abbrev Cells (ι : Type) := List (ℕ × ListElement ι)

def Cells.addresses (cs : Cells ι) : List ℕ := cs.map Prod.fst

def Cells.sequence (cs : Cells ι) : Sequence ι := cs.map fun x => x.2.load

namespace Memory
variable {μ : Memory ι} {a b choice : ℕ} {e : ListElement ι}

theorem address_free (μ : Memory ι) (choice : ℕ) : μ.element (μ.address choice) = none := by
  unfold address
  split
  · next h => exact Option.isNone_iff_eq_none.mp h
  · exact μ.unused _ le_rfl

theorem address_ne (h : μ.element a = some e) (choice : ℕ) : a ≠ μ.address choice := by
  rintro rfl
  simp [address_free] at h

theorem load_eq (h : μ.element a = some e) : μ.load (some a) = .ok e := by
  simp [load, h]

theorem lt_limit (h : μ.element a = some e) : a < μ.limit := by
  by_contra hlt
  simp [μ.unused a (by omega)] at h

/-- Another memory holds `o` at the address and is the same elsewhere. -/
structure Writes (μ : Memory ι) (a : ℕ) (o : Option (ListElement ι)) (μ' : Memory ι) : Prop where
  element : μ'.element = Function.update μ.element a o

theorem setNext_eq (h : μ.element a = some e) (n : Option ℕ) :
    ∃ μ', μ.setNext (some a) n = .ok μ' ∧ μ.Writes a (some { e with next := n }) μ' := by
  simp only [setNext]
  split
  · next hnone => simp [hnone] at h
  · next hsome =>
    obtain rfl := Option.some.inj (hsome.symm.trans h)
    exact ⟨_, rfl, ⟨rfl⟩⟩

theorem free_eq (h : μ.element a = some e) :
    ∃ μ', μ.free (some a) = .ok μ' ∧ μ.Writes a none μ' := by
  simp only [free]
  split
  · next hnone => simp [hnone] at h
  · exact ⟨_, rfl, ⟨rfl⟩⟩

end Memory

/-- The pointers of `l` lead through the elements `cs`. -/
structure Holds (μ : Memory ι) (l : LinkedList) (cs : Cells ι) : Prop where
  chain : Chain ListElement.next μ.element l.first cs none
  last : l.last = cs.addresses.getLast?

/-- A change of memory where `cs` becomes `cs'` and nothing else changes. -/
structure Edits (μ : Memory ι) (cs : Cells ι) (μ' : Memory ι) (cs' : Cells ι) : Prop where
  frame : ∀ a, a ∉ cs.addresses → a ∉ cs'.addresses → μ'.element a = μ.element a
  fresh : ∀ a ∈ cs'.addresses, a ∈ cs.addresses ∨ μ.element a = none
  freed : ∀ a ∈ cs.addresses, a ∉ cs'.addresses → μ'.element a = none

/-- The list `l` of the elements `cs` becomes one of the sequence `xs`. -/
def Performs (μ : Memory ι) (cs : Cells ι) (xs : Sequence ι)
    (r : Except Fault (Memory ι × LinkedList)) : Prop :=
  ∃ μ' l' cs', r = .ok (μ', l') ∧ Holds μ' l' cs' ∧ Edits μ cs μ' cs' ∧ cs'.sequence = xs

namespace Holds
variable {μ : Memory ι} {l : LinkedList} {cs : Cells ι}

theorem nodup (h : Holds μ l cs) : cs.addresses.Nodup := h.chain.nodup

theorem live (h : Holds μ l cs) {a : ℕ} (ha : a ∈ cs.addresses) : ∃ e, μ.element a = some e := by
  obtain ⟨x, hx, rfl⟩ := List.mem_map.mp ha
  exact ⟨x.2, h.chain.mem hx⟩

theorem not_mem_address (h : Holds μ l cs) (choice : ℕ) : μ.address choice ∉ cs.addresses := by
  intro ha
  obtain ⟨e, he⟩ := h.live ha
  exact Memory.address_ne he choice rfl

theorem isEmpty_iff (h : Holds μ l cs) : l.isEmpty = cs.isEmpty := by
  have hchain := h.chain
  cases cs with
  | nil => simp_all [LinkedList.isEmpty]
  | cons x cs => simp [LinkedList.isEmpty, hchain.1]

theorem length_le (h : Holds μ l cs) : cs.length ≤ μ.limit := by
  have hlive : ∀ x ∈ cs, x.1 ∈ Finset.range μ.limit := fun x hx =>
    Finset.mem_range.mpr (Memory.lt_limit (h.chain.mem hx))
  simpa using h.chain.length_le hlive

end Holds

section
variable {μ : Memory ι} {l : LinkedList} {cs : Cells ι} {e : ListElement ι}

/-- Another element is written into a list's memory, at an address that was free. -/
theorem Holds.allocate (h : Holds μ l cs) (choice : ℕ) (e : ListElement ι) :
    Holds (μ.allocate choice e) l cs :=
  ⟨h.chain.update (h.not_mem_address choice) _, h.last⟩

theorem allocate_element (μ : Memory ι) (choice : ℕ) (e : ListElement ι) :
    (μ.allocate choice e).element (μ.address choice) = some e := by
  simp [Memory.allocate]

theorem performs_single (μ : Memory ι) (choice : ℕ) (he : e.next = none) :
    Performs μ [] [e.load]
      (.ok (μ.allocate choice e, ⟨some (μ.address choice), some (μ.address choice)⟩)) := by
  refine ⟨_, _, [(μ.address choice, e)], rfl, ⟨?_, rfl⟩, ⟨?_, ?_, ?_⟩, rfl⟩
  · exact ⟨rfl, allocate_element μ choice e, he⟩
  · intro a _ ha
    exact Function.update_of_ne (by simpa [Cells.addresses] using ha) _ _
  · intro a ha
    simp only [Cells.addresses, List.map_cons, List.map_nil, List.mem_singleton] at ha
    exact .inr (ha ▸ μ.address_free choice)
  · intro a ha
    simp [Cells.addresses] at ha

/-- The new element goes before the first one. -/
theorem performs_cons (h : Holds μ l cs) (hcs : cs ≠ []) (choice : ℕ) :
    Performs μ cs (e.load :: cs.sequence) (do
      let μ' ← (μ.allocate choice e).setNext (some (μ.address choice)) l.first
      .ok (μ', { l with first := some (μ.address choice) })) := by
  obtain ⟨μ', hset, hw⟩ := Memory.setNext_eq (allocate_element μ choice e) l.first
  have hnot := h.not_mem_address choice
  have h' : Holds μ' l cs := by
    refine ⟨?_, h.last⟩
    rw [hw.element]
    exact (h.allocate choice e).chain.update hnot _
  refine ⟨μ', { l with first := some (μ.address choice) },
    (μ.address choice, { e with next := l.first }) :: cs, by rw [hset]; rfl, ⟨?_, ?_⟩,
    ⟨?_, ?_, ?_⟩, rfl⟩
  · exact ⟨rfl, by simp [hw.element], h'.chain⟩
  · obtain ⟨x, ys, rfl⟩ := List.exists_cons_of_ne_nil hcs
    simpa [Cells.addresses, List.getLast?_cons_cons] using h.last
  · intro a _ ha
    have hne : a ≠ μ.address choice := by
      rintro rfl
      simp [Cells.addresses] at ha
    rw [hw.element, Function.update_of_ne hne]
    exact Function.update_of_ne hne _ _
  · intro a ha
    rcases List.mem_cons.mp ha with rfl | ha
    · exact .inr (μ.address_free choice)
    · exact .inl ha
  · intro a ha hnot'
    exact absurd (List.mem_cons_of_mem _ ha) hnot'

/-- The new element goes after one that there is. -/
theorem Holds.insertAfter {xs ys : Cells ι} {b : ℕ} {eb : ListElement ι}
    (h : Holds μ l (xs ++ (b, eb) :: ys)) (choice : ℕ) {μ' : Memory ι} {last : Option ℕ}
    (hb : μ'.element b = some { eb with next := some (μ.address choice) })
    (hnew : μ'.element (μ.address choice) = some { e with next := eb.next })
    (hframe : ∀ a, a ≠ b → a ≠ μ.address choice → μ'.element a = μ.element a)
    (hlast : last = if ys = [] then some (μ.address choice) else l.last) :
    ∃ cs', Holds μ' { l with last := last } cs' ∧ Edits μ (xs ++ (b, eb) :: ys) μ' cs' ∧
      cs'.sequence = Cells.sequence (xs ++ [(b, eb)]) ++ e.load :: Cells.sequence ys := by
  have hnot := h.not_mem_address choice
  have hnd := h.nodup
  have hmem : ∀ x ∈ xs ++ (b, eb) :: ys, x.1 ≠ μ.address choice := by
    rintro x hx heq
    exact hnot (heq ▸ List.mem_map_of_mem hx)
  simp only [Cells.addresses, List.map_append, List.map_cons, List.nodup_append, List.nodup_cons,
    List.mem_cons] at hnd
  have hkeep : ∀ x ∈ xs ++ ys, μ'.element x.1 = μ.element x.1 := by
    intro x hx
    have hxb : x.1 ≠ b := by
      rcases List.mem_append.mp hx with hx | hx
      · exact hnd.2.2 x.1 (List.mem_map_of_mem hx) b (.inl rfl)
      · rintro rfl
        exact hnd.2.1.1 (List.mem_map_of_mem hx)
    exact hframe x.1 hxb (hmem x (by grind))
  obtain ⟨r, hxs, hr, -, hys⟩ := chain_append.mp h.chain
  refine ⟨xs ++ (b, { eb with next := some (μ.address choice) }) ::
    (μ.address choice, { e with next := eb.next }) :: ys, ⟨?_, ?_⟩, ⟨?_, ?_, ?_⟩, ?_⟩
  · refine chain_append.mpr ⟨r, hxs.congr fun x hx => hkeep x (by simp [hx]), hr, hb, rfl, hnew, ?_⟩
    exact hys.congr fun x hx => hkeep x (by simp [hx])
  · rw [hlast]
    split
    · next hnil => simp [hnil, Cells.addresses]
    · next hne =>
      obtain ⟨y, zs, rfl⟩ := List.exists_cons_of_ne_nil hne
      simp [h.last, Cells.addresses, List.getLast?_append, List.getLast?_cons_cons]
  · intro a ha ha'
    refine hframe a ?_ ?_
    · rintro rfl
      simp [Cells.addresses] at ha
    · rintro rfl
      simp [Cells.addresses] at ha'
  · intro a ha
    simp only [Cells.addresses, List.map_append, List.map_cons, List.mem_append,
      List.mem_cons] at ha ⊢
    rcases ha with ha | rfl | rfl | ha
    · exact .inl (.inl ha)
    · exact .inl (.inr (.inl rfl))
    · exact .inr (μ.address_free choice)
    · exact .inl (.inr (.inr ha))
  · intro a ha hnot'
    simp only [Cells.addresses, List.map_append, List.map_cons, List.mem_append,
      List.mem_cons] at ha hnot'
    tauto
  · simp [Cells.sequence, ListElement.load]

theorem allocate_element_of_mem {a : ℕ} {c : ListElement ι} (h : μ.element a = some c)
    (choice : ℕ) (e : ListElement ι) : (μ.allocate choice e).element a = some c := by
  simp [Memory.allocate, Function.update_of_ne (Memory.address_ne h choice), h]

/-- The new element goes to the end of the list. -/
theorem performs_concat (h : Holds μ l cs) (hcs : cs ≠ []) (choice : ℕ) (he : e.next = none) :
    Performs μ cs (cs.sequence ++ [e.load]) (do
      let μ' ← (μ.allocate choice e).setNext l.last (some (μ.address choice))
      .ok (μ', { l with last := some (μ.address choice) })) := by
  obtain ⟨xs, ⟨b, eb⟩, rfl⟩ := (List.eq_nil_or_concat' cs).resolve_left hcs
  obtain ⟨-, hb, hend⟩ := chain_concat.mp h.chain
  have hlast : l.last = some b := by simp [h.last, Cells.addresses]
  have hne := Memory.address_ne hb choice
  obtain ⟨μ', hset, hw⟩ := Memory.setNext_eq (allocate_element_of_mem hb choice e)
    (some (μ.address choice))
  have hnew : μ'.element (μ.address choice) = some { e with next := eb.next } := by
    rw [hw.element, Function.update_of_ne hne.symm, allocate_element, hend, ← he]
  obtain ⟨cs', hholds, hedits, hseq⟩ := h.insertAfter choice (by simp [hw.element]) hnew
    (fun a hab ha => by
      rw [hw.element, Function.update_of_ne hab]
      exact Function.update_of_ne ha _ _)
    (if_pos rfl).symm
  exact ⟨μ', _, cs', by rw [hlast, hset]; rfl, hholds, hedits, by simpa [Cells.sequence] using hseq⟩

/-- The new element goes between two others. -/
theorem performs_between {xs ys : Cells ι} {a : ℕ} {ea : ListElement ι} {y : ℕ × ListElement ι}
    (h : Holds μ l (xs ++ (a, ea) :: y :: ys)) (choice : ℕ) :
    Performs μ (xs ++ (a, ea) :: y :: ys)
      (Cells.sequence (xs ++ [(a, ea)]) ++ e.load :: Cells.sequence (y :: ys)) (do
        let ptr ← (μ.allocate choice e).load (some a)
        let μ' ← (μ.allocate choice e).setNext (some (μ.address choice)) ptr.next
        let μ' ← μ'.setNext (some a) (some (μ.address choice))
        .ok (μ', l)) := by
  have ha : μ.element a = some ea := h.chain.mem (x := (a, ea)) (by simp)
  have hne := Memory.address_ne ha choice
  have ha' := allocate_element_of_mem ha choice e
  obtain ⟨μ₁, hset₁, hw₁⟩ := Memory.setNext_eq (allocate_element μ choice e) ea.next
  have ha₁ : μ₁.element a = some ea := by rw [hw₁.element, Function.update_of_ne hne, ha']
  obtain ⟨μ₂, hset₂, hw₂⟩ := Memory.setNext_eq ha₁ (some (μ.address choice))
  have hnew : μ₂.element (μ.address choice) = some { e with next := ea.next } := by
    rw [hw₂.element, Function.update_of_ne hne.symm, hw₁.element, Function.update_self]
  have hframe : ∀ d, d ≠ a → d ≠ μ.address choice → μ₂.element d = μ.element d := by
    intro d hda hd
    rw [hw₂.element, Function.update_of_ne hda, hw₁.element, Function.update_of_ne hd]
    exact Function.update_of_ne hd _ _
  have hlast : l.last = if y :: ys = [] then some (μ.address choice) else l.last := by simp
  obtain ⟨cs', hholds, hedits, hseq⟩ :=
    h.insertAfter choice (by simp [hw₂.element]) hnew hframe hlast
  refine ⟨μ₂, l, cs', ?_, hholds, hedits, hseq⟩
  simp [bind, Except.bind, Memory.load_eq ha', hset₁, hset₂]

theorem append_performs (h : Holds μ l cs) (choice : ℕ) (item : Option ι) :
    Performs μ cs (cs.sequence ++ [(0, item)]) (l.append μ choice item) := by
  unfold LinkedList.append
  by_cases hcs : cs = []
  · subst hcs
    simp only [h.isEmpty_iff, List.isEmpty_nil, if_true]
    exact performs_single μ choice rfl
  · have hemp : l.isEmpty = false := by simp [h.isEmpty_iff, hcs]
    simp only [hemp, Bool.false_eq_true, if_false]
    exact performs_concat h hcs choice rfl

theorem prepend_performs (h : Holds μ l cs) (choice : ℕ) (item : Option ι) :
    Performs μ cs ((0, item) :: cs.sequence) (l.prepend μ choice item) := by
  unfold LinkedList.prepend
  by_cases hcs : cs = []
  · subst hcs
    simp only [h.isEmpty_iff, List.isEmpty_nil, if_true]
    exact performs_single μ choice rfl
  · have hemp : l.isEmpty = false := by simp [h.isEmpty_iff, hcs]
    simp only [hemp, Bool.false_eq_true, if_false]
    exact performs_cons h hcs choice

/-! The sorted operations. -/

theorem Sequence.insert_append {xs ys : Sequence ι} {k : ℤ} (hxs : ∀ x ∈ xs, x.1 ≤ k)
    (hys : ∀ y ∈ ys.head?, k < y.1) (item : Option ι) :
    Sequence.insert (xs ++ ys) k item = xs ++ (k, item) :: ys := by
  induction xs with
  | nil =>
    cases ys with
    | nil => rfl
    | cons y ys => exact if_pos (hys y rfl)
  | cons x xs ih =>
    have hx : ¬ (k < x.1) := not_lt.mpr (hxs x List.mem_cons_self)
    have hrest := ih fun y hy => hxs y (List.mem_cons_of_mem _ hy)
    simp only [Sequence.insert, List.cons_append, List.orderedInsert_cons, hx, if_false] at hrest ⊢
    rw [hrest]

/-- The loop stops at the element after which the new one belongs. -/
theorem seek_spec {k : ℤ} {b : ℕ} {eb : ListElement ι} {fuel : ℕ} {cs : Cells ι}
    (h : Chain ListElement.next μ.element (some b) ((b, eb) :: cs) none) (hb : eb.key ≤ k)
    (hfuel : cs.length < fuel) :
    (LinkedList.seek μ k fuel b = .ok none ∧ ∀ x ∈ (b, eb) :: cs, x.2.key ≤ k) ∨
      ∃ xs a ea y ys, (b, eb) :: cs = xs ++ (a, ea) :: y :: ys ∧
        LinkedList.seek μ k fuel b = .ok (some a) ∧ (∀ x ∈ xs ++ [(a, ea)], x.2.key ≤ k) ∧
        k < y.2.key := by
  induction cs generalizing b eb fuel with
  | nil =>
    obtain ⟨fuel, rfl⟩ := Nat.exists_eq_succ_of_ne_zero (by omega : fuel ≠ 0)
    obtain ⟨-, hm, hnext⟩ := h
    refine .inl ⟨?_, by simpa using hb⟩
    rw [chain_nil] at hnext
    simp [LinkedList.seek, Memory.load_eq hm, hnext, bind, Except.bind]
  | cons y cs ih =>
    obtain ⟨c, ec⟩ := y
    obtain ⟨fuel, rfl⟩ := Nat.exists_eq_succ_of_ne_zero (by omega : fuel ≠ 0)
    obtain ⟨-, hm, hrest⟩ := h
    have hnext := hrest.1
    have hseek : LinkedList.seek μ k (fuel + 1) b =
        if k < ec.key then .ok (some b) else LinkedList.seek μ k fuel c := by
      simp [LinkedList.seek, Memory.load_eq hm, hnext, Memory.load_eq hrest.2.1, bind, Except.bind]
    by_cases hlt : k < ec.key
    · exact .inr ⟨[], b, eb, (c, ec), cs, rfl, by rw [Nat.succ_eq_add_one, hseek, if_pos hlt],
        by simpa using hb, hlt⟩
    · rw [Nat.succ_eq_add_one, hseek, if_neg hlt]
      rw [hnext] at hrest
      rcases ih hrest (not_lt.mp hlt) (by simpa using hfuel) with
        ⟨hend, hall⟩ | ⟨xs, a, ea, y, ys, heq, hstop, hall, hy⟩
      · exact .inl ⟨hend, by simpa [hb] using hall⟩
      · exact .inr ⟨(b, eb) :: xs, a, ea, y, ys, by rw [heq]; rfl, hstop,
          by simpa [hb] using hall, hy⟩

theorem Cells.sequence_le {k : ℤ} {xs : Cells ι} (h : ∀ x ∈ xs, x.2.key ≤ k) :
    ∀ x ∈ xs.sequence, x.1 ≤ k := by
  intro x hx
  obtain ⟨y, hy, rfl⟩ := List.mem_map.mp hx
  exact h y hy

theorem sortedInsert_performs (h : Holds μ l cs) (choice : ℕ) (item : Option ι) (k : ℤ) :
    Performs μ cs (cs.sequence.insert k item) (l.sortedInsert μ choice item k) := by
  have hchain := h.chain
  unfold LinkedList.sortedInsert
  cases cs with
  | nil =>
    rw [chain_nil] at hchain
    simp only [hchain]
    exact performs_single μ choice rfl
  | cons x cs =>
    obtain ⟨b, eb⟩ := x
    have hfirst := hchain.1
    have hb := allocate_element_of_mem hchain.2.1 choice ⟨none, k, item⟩
    simp only [hfirst, Memory.load_eq hb, bind, Except.bind]
    by_cases hk : k < eb.key
    · have hins : Sequence.insert (Cells.sequence ((b, eb) :: cs)) k item =
          (k, item) :: Cells.sequence ((b, eb) :: cs) := by
        have hnone : ∀ x ∈ ([] : Sequence ι), x.1 ≤ k := by simp
        exact Sequence.insert_append hnone (by simpa [Cells.sequence] using hk) item
      rw [if_pos hk, hins]
      have hcons := performs_cons (e := ⟨none, k, item⟩) h (List.cons_ne_nil _ _) choice
      rw [hfirst] at hcons
      exact hcons
    · have halloc := h.allocate choice ⟨none, k, item⟩
      have hfuel : cs.length < (μ.allocate choice ⟨none, k, item⟩).limit := halloc.length_le
      have hstart := halloc.chain
      rw [hfirst] at hstart
      rw [if_neg hk]
      rcases seek_spec hstart (not_lt.mp hk) hfuel with
        ⟨hend, hall⟩ | ⟨xs, a, ea, ⟨c, ec⟩, ys, heq, hstop, hall, hy⟩
      · have hins : Sequence.insert (Cells.sequence ((b, eb) :: cs)) k item =
            Cells.sequence ((b, eb) :: cs) ++ [(k, item)] := by
          have hnone : ∀ y ∈ ([] : Sequence ι).head?, k < y.1 := by simp
          simpa using Sequence.insert_append (Cells.sequence_le hall) hnone item
        rw [hend, hins]
        have hconcat := performs_concat (e := ⟨none, k, item⟩) h (List.cons_ne_nil _ _) choice rfl
        rw [hfirst] at hconcat
        exact hconcat
      · have hins : Sequence.insert (Cells.sequence ((b, eb) :: cs)) k item =
            Cells.sequence (xs ++ [(a, ea)]) ++ (k, item) :: Cells.sequence ((c, ec) :: ys) := by
          rw [heq, ← Sequence.insert_append (Cells.sequence_le hall)
            (by simpa [Cells.sequence] using hy) item]
          simp [Cells.sequence]
        rw [heq] at h
        rw [hstop, hins, heq]
        exact performs_between h choice

/-- The first element is removed and deleted. -/
theorem sortedRemove_spec (h : Holds μ l cs) :
    ∃ μ' l', l.sortedRemove μ = .ok (μ', l', cs.sequence.removed.2) ∧ Holds μ' l' cs.tail ∧
      Edits μ cs μ' cs.tail := by
  have hchain := h.chain
  have hemp := h.isEmpty_iff
  unfold LinkedList.sortedRemove
  cases cs with
  | nil =>
    refine ⟨μ, l, by simp [hemp, Cells.sequence, Sequence.removed], h, ⟨?_, ?_, ?_⟩⟩
    · exact fun a _ _ => rfl
    · exact fun a ha => .inl ha
    · exact fun a ha hnot => absurd ha hnot
  | cons x cs =>
    obtain ⟨b, eb⟩ := x
    obtain ⟨hfirst, hb, hrest⟩ := hchain
    obtain ⟨μ', hfree, hw⟩ := Memory.free_eq hb
    have hnd := h.nodup
    have hlast := h.last
    simp only [Cells.addresses, List.map_cons, List.nodup_cons] at hnd hlast
    have hchain' : Chain ListElement.next μ'.element eb.next cs none := by
      rw [hw.element]
      exact hrest.update hnd.1 _
    refine ⟨μ', if l.first = l.last then ⟨none, none⟩ else { l with first := eb.next },
      ?_, ?_, ⟨?_, ?_, ?_⟩⟩
    · simp [hemp, hfirst, Memory.load_eq hb, hfree, bind, Except.bind, Cells.sequence,
        Sequence.removed]
    · cases cs with
      | nil =>
        rw [if_pos (by simp [hfirst, hlast])]
        exact ⟨rfl, rfl⟩
      | cons y cs =>
        have hne : l.first ≠ l.last := by
          intro heq
          rw [hfirst, hlast, List.map_cons, List.getLast?_cons_cons] at heq
          exact hnd.1 (List.mem_of_getLast? heq.symm)
        rw [if_neg hne]
        exact ⟨hchain', by simp [hlast, Cells.addresses]⟩
    · intro a ha _
      have hab : a ≠ b := by
        rintro rfl
        simp [Cells.addresses] at ha
      rw [hw.element, Function.update_of_ne hab]
    · exact fun a ha => .inl (List.mem_cons_of_mem _ ha)
    · intro a ha hnot
      rcases List.mem_cons.mp ha with rfl | ha
      · simp [hw.element]
      · exact absurd ha hnot

theorem mapcar_spec {p : Option ℕ} {fuel : ℕ}
    (h : Chain ListElement.next μ.element p cs none) (hfuel : cs.length ≤ fuel) :
    LinkedList.mapcar μ fuel p = .ok (cs.sequence.map Prod.snd) := by
  induction cs generalizing p fuel with
  | nil =>
    rw [chain_nil.mp h]
    cases fuel <;> rfl
  | cons x cs ih =>
    obtain ⟨b, eb⟩ := x
    obtain ⟨rfl, hb, hrest⟩ := h
    obtain ⟨fuel, rfl⟩ := Nat.exists_eq_succ_of_ne_zero
      (by simp only [List.length_cons] at hfuel; omega : fuel ≠ 0)
    simp [LinkedList.mapcar, Memory.load_eq hb, ih hrest (by simpa using hfuel), bind, Except.bind,
      Cells.sequence]

/-- The destructor touches no other element, and deletes all of its own unless an item is NULL. -/
theorem destroy_spec {fuel : ℕ} (h : Holds μ l cs) (hfuel : cs.length < fuel) :
    ∃ μ', LinkedList.destroy fuel μ l = .ok μ' ∧
      (∀ a, a ∉ cs.addresses → μ'.element a = μ.element a) ∧
      ((∀ x ∈ cs, x.2.item ≠ none) → ∀ a ∈ cs.addresses, μ'.element a = none) := by
  induction cs generalizing μ l fuel with
  | nil =>
    obtain ⟨fuel, rfl⟩ := Nat.exists_eq_succ_of_ne_zero (by omega : fuel ≠ 0)
    obtain ⟨μ', l', hremove, -, hedits⟩ := sortedRemove_spec h
    refine ⟨μ', ?_, fun a ha => hedits.frame a ha ha, fun _ a ha => absurd ha (by simp [Cells.addresses])⟩
    simp [LinkedList.destroy, LinkedList.remove, hremove, bind, Except.bind, Cells.sequence,
      Sequence.removed]
  | cons x cs ih =>
    obtain ⟨fuel, rfl⟩ := Nat.exists_eq_succ_of_ne_zero (by omega : fuel ≠ 0)
    obtain ⟨μ₁, l₁, hremove, hholds, hedits⟩ := sortedRemove_spec h
    have hnd := h.nodup
    simp only [Cells.addresses, List.map_cons, List.nodup_cons] at hnd
    have hstep : LinkedList.destroy (fuel + 1) μ l =
        if x.2.item.isNone then .ok μ₁ else LinkedList.destroy fuel μ₁ l₁ := by
      simp [LinkedList.destroy, LinkedList.remove, hremove, bind, Except.bind, Cells.sequence,
        Sequence.removed, ListElement.load]
    have hframe : ∀ a, a ∉ Cells.addresses (x :: cs) → μ₁.element a = μ.element a := by
      intro a ha
      exact hedits.frame a ha fun hmem => ha (List.mem_cons_of_mem _ hmem)
    rw [Nat.succ_eq_add_one, hstep]
    cases hx : x.2.item with
    | none =>
      exact ⟨μ₁, rfl, hframe, fun hall => absurd hx (hall x List.mem_cons_self)⟩
    | some item =>
      obtain ⟨μ', hrec, hframe', hall'⟩ := ih hholds (by simpa using hfuel)
      refine ⟨μ', by simpa using hrec, ?_, ?_⟩
      · intro a ha
        rw [hframe' a fun hmem => ha (List.mem_cons_of_mem _ hmem), hframe a ha]
      · intro hall a ha
        rcases List.mem_cons.mp ha with rfl | ha
        · rw [hframe' _ hnd.1]
          exact hedits.freed _ List.mem_cons_self hnd.1
        · exact hall' (fun y hy => hall y (List.mem_cons_of_mem _ hy)) a ha

end

/-! All the lists at once. -/

variable {s s' : State ι} {t : Sequences ι} {chains : ℕ → Cells ι}

/-- The elements `cs` of a list, if there is one, hold its sequence. -/
inductive Keeps (μ : Memory ι) (cs : Cells ι) : Option LinkedList → Option (Sequence ι) → Prop
  | absent : cs = [] → Keeps μ cs none none
  | present {l : LinkedList} : Holds μ l cs → Keeps μ cs (some l) (some cs.sequence)

/-- No two lists share an element. -/
structure Layout (s : State ι) (t : Sequences ι) (chains : ℕ → Cells ι) : Prop where
  keeps : ∀ l, Keeps s.memory (chains l) (s.lists l) (t l)
  apart : ∀ l l' a, a ∈ (chains l).addresses → a ∈ (chains l').addresses → l = l'

/-- Every element belongs to a list, and none carries NULL. -/
structure Tight (s : State ι) (chains : ℕ → Cells ι) : Prop where
  owned : ∀ a e, s.memory.element a = some e → ∃ l, a ∈ (chains l).addresses
  items : ∀ l, ∀ x ∈ chains l, x.2.item ≠ none

theorem layout_start : Layout (.start : State ι) (fun _ => none) (fun _ => []) :=
  ⟨fun _ => .absent rfl, fun _ _ _ ha => by simp [Cells.addresses] at ha⟩

theorem tight_start : Tight (.start : State ι) (fun _ => []) :=
  ⟨fun _ _ h => by simp [State.start, Memory.empty] at h, fun _ _ hx => by simp at hx⟩

theorem Keeps.live {μ : Memory ι} {cs : Cells ι} {o : Option LinkedList} {o' : Option (Sequence ι)}
    (h : Keeps μ cs o o') {a : ℕ} (ha : a ∈ cs.addresses) : ∃ e, μ.element a = some e := by
  cases h with
  | absent hnil => simp [hnil, Cells.addresses] at ha
  | present h => exact h.live ha

theorem Keeps.congr {μ μ' : Memory ι} {cs : Cells ι} {o : Option LinkedList}
    {o' : Option (Sequence ι)} (h : Keeps μ cs o o')
    (hμ : ∀ a ∈ cs.addresses, μ'.element a = μ.element a) : Keeps μ' cs o o' := by
  cases h with
  | absent hnil => exact .absent hnil
  | present h =>
    exact .present ⟨h.chain.congr fun x hx => hμ x.1 (List.mem_map_of_mem hx), h.last⟩

/-- One list is changed. -/
theorem Layout.change (h : Layout s t chains) {l : ℕ} {μ' : Memory ι} {cs' : Cells ι}
    {o : Option LinkedList} {o' : Option (Sequence ι)}
    (hframe : ∀ a, a ∉ (chains l).addresses → a ∉ cs'.addresses →
      μ'.element a = s.memory.element a)
    (hfresh : ∀ a ∈ cs'.addresses, a ∈ (chains l).addresses ∨ s.memory.element a = none)
    (hkeeps : Keeps μ' cs' o o') :
    Layout ⟨μ', Function.update s.lists l o⟩ (Function.update t l o')
      (Function.update chains l cs') := by
  have hother : ∀ l' a, l' ≠ l → a ∈ (chains l').addresses →
      a ∉ (chains l).addresses ∧ a ∉ cs'.addresses := by
    intro l' a hne ha
    have hnot : a ∉ (chains l).addresses := fun hmem => hne (h.apart l' l a ha hmem)
    refine ⟨hnot, fun hmem => ?_⟩
    obtain ⟨e, he⟩ := (h.keeps l').live ha
    rcases hfresh a hmem with hold | hnone
    · exact hnot hold
    · simp [hnone] at he
  refine ⟨fun l' => ?_, fun l₁ l₂ a ha₁ ha₂ => ?_⟩
  · by_cases hl : l' = l
    · subst hl
      simpa using hkeeps
    · simp only [Function.update_of_ne hl]
      refine (h.keeps l').congr fun a ha => ?_
      have hnot := hother l' a hl ha
      exact hframe a hnot.1 hnot.2
  · by_cases h₁ : l₁ = l <;> by_cases h₂ : l₂ = l
    · rw [h₁, h₂]
    · subst h₁
      rw [Function.update_self] at ha₁
      rw [Function.update_of_ne h₂] at ha₂
      exact absurd ha₁ (hother l₂ a h₂ ha₂).2
    · subst h₂
      rw [Function.update_of_ne h₁] at ha₁
      rw [Function.update_self] at ha₂
      exact absurd ha₂ (hother l₁ a h₁ ha₁).2
    · rw [Function.update_of_ne h₁] at ha₁
      rw [Function.update_of_ne h₂] at ha₂
      exact h.apart l₁ l₂ a ha₁ ha₂

theorem Tight.change (h : Tight s chains) {l : ℕ} {μ' : Memory ι} {cs' : Cells ι}
    {o : Option LinkedList} (he : Edits s.memory (chains l) μ' cs')
    (hitems : ∀ x ∈ cs', x.2.item ≠ none) :
    Tight ⟨μ', Function.update s.lists l o⟩ (Function.update chains l cs') := by
  refine ⟨fun a e hlive => ?_, fun l' x hx => ?_⟩
  · by_cases hnew : a ∈ cs'.addresses
    · exact ⟨l, by simpa using hnew⟩
    · have hold : a ∉ (chains l).addresses := fun hmem => by simp [he.freed a hmem hnew] at hlive
      simp only [he.frame a hold hnew] at hlive
      obtain ⟨l', hl'⟩ := h.owned a e hlive
      have hne : l' ≠ l := by
        rintro rfl
        exact hold hl'
      exact ⟨l', by rwa [Function.update_of_ne hne]⟩
  · by_cases hl : l' = l
    · subst hl
      rw [Function.update_self] at hx
      exact hitems x hx
    · rw [Function.update_of_ne hl] at hx
      exact h.items l' x hx

/-! The operations. -/

/-- No NULL is put on a list. -/
def Op.Proper : Op ι → Prop
  | .append _ _ item | .prepend _ _ item | .sortedInsert _ _ item _ => item ≠ none
  | _ => True

/-- The sequences are laid out, and tightly if they were and the operation is proper. -/
def Follows (s : State ι) (chains : ℕ → Cells ι) (proper : Prop) (s' : State ι)
    (t' : Sequences ι) : Prop :=
  ∃ chains', Layout s' t' chains' ∧ (Tight s chains → proper → Tight s' chains')

theorem items_sequence {cs : Cells ι} :
    (∀ x ∈ cs, x.2.item ≠ none) ↔ ∀ x ∈ cs.sequence, x.2 ≠ none := by
  unfold Cells.sequence
  rw [List.forall_mem_map]
  rfl

theorem Layout.find (h : Layout s t chains) (l : ℕ) :
    (s.find l = .error .noList ∧ t.find l = .error .noList) ∨
      ∃ p, s.find l = .ok p ∧ t.find l = .ok (chains l).sequence ∧ Holds s.memory p (chains l) := by
  have hl := h.keeps l
  unfold State.find Sequences.find
  generalize s.lists l = o, t l = o' at hl
  cases hl with
  | absent => exact .inl ⟨rfl, rfl⟩
  | present h => exact .inr ⟨_, rfl, rfl, h⟩

/-- An operation that changes one list. -/
theorem Layout.performs (h : Layout s t chains) {l : ℕ} {xs : Sequence ι} {μ' : Memory ι}
    {p' : LinkedList} {cs' : Cells ι} {proper : Prop} (hholds : Holds μ' p' cs')
    (he : Edits s.memory (chains l) μ' cs') (hseq : cs'.sequence = xs)
    (hitems : (∀ x ∈ (chains l).sequence, x.2 ≠ none) → proper → ∀ x ∈ xs, x.2 ≠ none) :
    Follows s chains proper (s.put l (μ', p')) (t.put l xs) := by
  refine ⟨Function.update chains l cs', ?_, fun htight hproper => htight.change he ?_⟩
  · exact h.change he.frame he.fresh (hseq ▸ .present hholds)
  · rw [items_sequence, hseq]
    exact hitems (items_sequence.mp (htight.items l)) hproper

/-- An operation without an answer. -/
theorem agrees_of_performs (h : Layout s t chains) (l : ℕ) {proper : Prop}
    {f : LinkedList → Except Fault (Memory ι × LinkedList)} {g : Sequence ι → Sequence ι}
    (hf : ∀ p cs, Holds s.memory p cs → Performs s.memory cs (g cs.sequence) (f p))
    (hitems : ∀ xs : Sequence ι, (∀ x ∈ xs, x.2 ≠ none) → proper → ∀ x ∈ g xs, x.2 ≠ none) :
    AgreeStep (Follows s chains proper)
      (do
        let list ← s.find l
        let r ← f list
        .ok (s.put l r, .nothing) : Except Fault (State ι × Answer ι))
      (do
        let xs ← t.find l
        .ok (t.put l (g xs), .nothing)) := by
  rcases h.find l with ⟨hs, ht⟩ | ⟨p, hs, ht, hholds⟩
  · rw [hs, ht]
    exact .error _
  · obtain ⟨μ', p', cs', hp, hholds', he, hseq⟩ := hf p (chains l) hholds
    rw [hs, ht]
    simp only [bind, Except.bind, hp]
    exact .ok (h.performs hholds' he hseq (hitems _))

theorem Sequence.removed_items {xs : Sequence ι} (h : ∀ x ∈ xs, x.2 ≠ none) :
    ∀ x ∈ xs.removed.1, x.2 ≠ none := by
  cases xs with
  | nil => exact h
  | cons x xs => exact fun y hy => h y (List.mem_cons_of_mem _ hy)

theorem Sequence.removed_tail (xs : Sequence ι) : xs.removed.1 = xs.tail := by
  cases xs <;> rfl

/-- The removal of the first element, whatever is answered. -/
theorem agrees_of_removed (h : Layout s t chains) (l : ℕ) (answer : Option ι × Option ℤ → Answer ι) :
    AgreeStep (Follows s chains True)
      (do
        let list ← s.find l
        let r ← list.sortedRemove s.memory
        .ok (s.put l (r.1, r.2.1), answer r.2.2) : Except Fault (State ι × Answer ι))
      (do
        let xs ← t.find l
        .ok (t.put l xs.removed.1, answer xs.removed.2)) := by
  rcases h.find l with ⟨hs, ht⟩ | ⟨p, hs, ht, hholds⟩
  · rw [hs, ht]
    exact .error _
  · obtain ⟨μ', p', hp, hholds', he⟩ := sortedRemove_spec hholds
    rw [hs, ht]
    simp only [bind, Except.bind, hp]
    have hseq : Cells.sequence (chains l).tail = (chains l).sequence.removed.1 := by
      simp [Cells.sequence, Sequence.removed_tail]
    exact .ok (h.performs hholds' he hseq fun hall _ => Sequence.removed_items hall)

/-- An operation that only looks at a list. -/
theorem agrees_of_reads (h : Layout s t chains) (l : ℕ) {f : LinkedList → Except Fault (Answer ι)}
    {g : Sequence ι → Answer ι}
    (hf : ∀ p cs, Holds s.memory p cs → f p = .ok (g cs.sequence)) :
    AgreeStep (Follows s chains True)
      (do
        let list ← s.find l
        let answer ← f list
        .ok (s, answer) : Except Fault (State ι × Answer ι))
      (do
        let xs ← t.find l
        .ok (t, g xs)) := by
  rcases h.find l with ⟨hs, ht⟩ | ⟨p, hs, ht, hholds⟩
  · rw [hs, ht]
    exact .error _
  · rw [hs, ht]
    simp only [bind, Except.bind, hf p _ hholds]
    exact .ok ⟨chains, h, fun htight _ => htight⟩

theorem new_agrees (h : Layout s t chains) (l : ℕ) :
    AgreeStep (Follows s chains True) (s.step (.new l)) (t.step (.new l)) := by
  have hl := h.keeps l
  simp only [State.step, Sequences.step]
  generalize hs : s.lists l = o, ht : t l = o' at hl
  cases hl with
  | absent hnil =>
    have hnew : Holds s.memory .new ([] : Cells ι) := ⟨rfl, rfl⟩
    refine .ok (h.performs hnew ?_ rfl fun _ _ x hx => by simp at hx)
    rw [hnil]
    exact ⟨fun a _ _ => rfl, fun a ha => .inl ha, fun a ha hnot => absurd ha hnot⟩
  | present => exact .error _

theorem delete_agrees (h : Layout s t chains) (l : ℕ) :
    AgreeStep (Follows s chains True) (s.step (.delete l)) (t.step (.delete l)) := by
  simp only [State.step, Sequences.step]
  rcases h.find l with ⟨hs, ht⟩ | ⟨p, hs, ht, hholds⟩
  · rw [hs, ht]
    exact .error _
  · obtain ⟨μ', hp, hframe, hfreed⟩ := destroy_spec hholds (Nat.lt_succ_of_le hholds.length_le)
    rw [hs, ht]
    simp only [bind, Except.bind, hp]
    refine .ok ⟨Function.update chains l [], ?_, fun htight _ => htight.change ?_ (by simp)⟩
    · exact h.change (fun a ha _ => hframe a ha) (by simp [Cells.addresses]) (.absent rfl)
    · exact ⟨fun a ha _ => hframe a ha, by simp [Cells.addresses],
        fun a ha _ => hfreed (htight.items l) a ha⟩

theorem step_agrees (h : Layout s t chains) (op : Op ι) :
    AgreeStep (Follows s chains op.Proper) (s.step op) (t.step op) := by
  cases op with
  | new l => exact new_agrees h l
  | delete l => exact delete_agrees h l
  | append l choice item =>
    refine agrees_of_performs h l (fun p cs hp => append_performs hp choice item) ?_
    intro xs hxs hitem x hx
    rcases List.mem_append.mp hx with hx | hx
    · exact hxs x hx
    · exact List.mem_singleton.mp hx ▸ hitem
  | prepend l choice item =>
    refine agrees_of_performs h l (g := fun xs => (0, item) :: xs)
      (fun p cs hp => prepend_performs hp choice item) ?_
    intro xs hxs hitem x hx
    rcases List.mem_cons.mp hx with rfl | hx
    · exact hitem
    · exact hxs x hx
  | remove l =>
    have hstep : s.step (.remove l) = (do
        let list ← s.find l
        let r ← list.sortedRemove s.memory
        .ok (s.put l (r.1, r.2.1), .thing r.2.2.1)) := by
      simp only [State.step, LinkedList.remove, bind_assoc]
      rfl
    rw [hstep]
    exact agrees_of_removed h l fun r => .thing r.1
  | mapcar l =>
    have hstep : s.step (.mapcar l) = (do
        let list ← s.find l
        let answer ← Except.map .items (LinkedList.mapcar s.memory s.memory.limit list.first)
        .ok (s, answer)) := by
      simp only [State.step]
      cases s.find l with
      | error e => rfl
      | ok list =>
        simp only [bind, Except.bind]
        cases LinkedList.mapcar s.memory s.memory.limit list.first <;> rfl
    rw [hstep]
    refine agrees_of_reads h l (g := fun xs => .items (xs.map Prod.snd)) fun p cs hp => ?_
    rw [mapcar_spec hp.chain hp.length_le]
    rfl
  | isEmpty l =>
    refine agrees_of_reads h l (f := fun p => .ok (.flag p.isEmpty)) fun p cs hp => ?_
    simp [hp.isEmpty_iff, Cells.sequence]
  | sortedInsert l choice item sortKey =>
    refine agrees_of_performs h l (g := fun xs => xs.insert sortKey item)
      (fun p cs hp => sortedInsert_performs hp choice item sortKey) ?_
    intro xs hxs hitem x hx
    rcases (List.mem_orderedInsert _).mp hx with rfl | hx
    · exact hitem
    · exact hxs x hx
  | sortedRemove l => exact agrees_of_removed h l fun r => .thingWithKey r.1 r.2

/-- Any number of lists in one memory give the answers of the sequences, whatever the allocator
chooses; only a list that does not exist makes a run fail. -/
theorem lists_are_sequences (ops : List (Op ι)) :
    (run State.step .start ops).1 = (run Sequences.step (fun _ => none) ops).1 ∧
      Agree (fun s t => ∃ chains, Layout s t chains)
        (run State.step .start ops).2 (run Sequences.step (fun _ => none) ops).2 := by
  have hstep : ∀ (s : State ι) t op, (∃ chains, Layout s t chains) →
      ∃ op', op = op' ∧ AgreeStep (fun s t => ∃ chains, Layout s t chains)
        (s.step op) (Sequences.step t op') := by
    rintro s t op ⟨chains, h⟩
    refine ⟨op, rfl, ?_⟩
    have hagree := step_agrees h op
    revert hagree
    generalize s.step op = r, Sequences.step t op = r'
    rintro (⟨⟨chains', h', -⟩, ho⟩ | e)
    · exact Agree.ok ⟨⟨chains', h'⟩, ho⟩
    · exact Agree.error e
  obtain ⟨ops', hops, hrun⟩ := run_agrees (fun op => ⟨op, rfl⟩) hstep ⟨_, layout_start⟩ ops
  rw [List.forall₂_eq_eq_eq] at hops
  exact hops ▸ hrun

theorem step_tight (h : ∃ t chains, Layout s t chains ∧ Tight s chains) {op : Op ι}
    (hop : op.Proper) {o : Answer ι} (hs : s.step op = .ok (s', o)) :
    ∃ t chains, Layout s' t chains ∧ Tight s' chains := by
  obtain ⟨t, chains, hlayout, htight⟩ := h
  have hagree := step_agrees hlayout op
  rw [hs] at hagree
  generalize Sequences.step t op = r at hagree
  cases hagree with
  | ok hr =>
    obtain ⟨⟨chains', hlayout', htight'⟩, -⟩ := hr
    exact ⟨_, chains', hlayout', htight' htight hop⟩

/-- As long as no NULL is put on a list, every element that exists is on exactly one of the
lists that exist: deleting the lists deletes everything. -/
theorem elements_are_on_lists {ops : List (Op ι)} (hops : ∀ op ∈ ops, op.Proper)
    (hrun : (run State.step .start ops).2 = .ok s) {a : ℕ} {e : ListElement ι}
    (ha : s.memory.element a = some e) :
    ∃! l, ∃ p cs, s.lists l = some p ∧ Holds s.memory p cs ∧ a ∈ cs.addresses := by
  obtain ⟨t, chains, hlayout, htight⟩ := run_invariant
    (P := fun s => ∃ t chains, Layout s t chains ∧ Tight s chains)
    ⟨_, _, layout_start, tight_start⟩ (fun op hop s s' o h hs => step_tight h (hops op hop) hs) hrun
  have hown : ∀ l p cs, s.lists l = some p → Holds s.memory p cs → cs = chains l := by
    intro l p cs hp hcs
    have hl := hlayout.keeps l
    rw [hp] at hl
    generalize t l = o at hl
    cases hl with
    | present h => exact hcs.chain.unique h.chain
  obtain ⟨l, hl⟩ := htight.owned a e ha
  refine ⟨l, ?_, ?_⟩
  · have hk := hlayout.keeps l
    generalize hp : s.lists l = o, t l = o' at hk
    cases hk with
    | absent hnil => simp [hnil, Cells.addresses] at hl
    | present h => exact ⟨_, _, hp, h, hl⟩
  · rintro l' ⟨p, cs, hp, hcs, hmem⟩
    exact hlayout.apart l' l a (hown l' p cs hp hcs ▸ hmem) hl

/-- Two elements in order of their keys, the second one put before the first. -/
theorem elements_are_on_lists_sorted : ∃ (s : State ℕ) (e : ListElement ℕ),
    (run State.step .start
      [.new 0, .sortedInsert 0 3 (some 7) 5, .sortedInsert 0 9 (some 8) 4]).2 = .ok s ∧
    s.memory.element 3 = some e ∧
    ∃! l, ∃ p cs, s.lists l = some p ∧ Holds s.memory p cs ∧ 3 ∈ cs.addresses := by
  refine ⟨_, _, rfl, rfl, ?_⟩
  have hops : ∀ op ∈ [Op.new 0, .sortedInsert 0 3 (some 7) 5, .sortedInsert 0 9 (some 8) 4],
      op.Proper := by
    simp [Op.Proper]
  exact elements_are_on_lists hops rfl rfl

end Nachos.Lists
