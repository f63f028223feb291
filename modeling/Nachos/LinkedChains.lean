import Mathlib.Data.List.Nodup
import Mathlib.Data.Finset.Card
import Mathlib.Logic.Function.Basic

/-! Cells of a store that are linked by a field of theirs. A chain is the list of the cells
met on the way from one link to another, each with its address. -/
namespace Nachos.LinkedChains

variable {A C : Type*} {next : C → Option A} {m m' : A → Option C} {p q r : Option A}
  {cs ds : List (A × C)} {a : A} {c : C}

/-- The cells `cs` lead from the link `p` to the link `q`. -/
def Chain (next : C → Option A) (m : A → Option C) : Option A → List (A × C) → Option A → Prop
  | p, [], q => p = q
  | p, (a, c) :: cs, q => p = some a ∧ m a = some c ∧ Chain next m (next c) cs q

@[simp] theorem chain_nil : Chain next m p [] q ↔ p = q := Iff.rfl

@[simp] theorem chain_cons :
    Chain next m p ((a, c) :: cs) q ↔ p = some a ∧ m a = some c ∧ Chain next m (next c) cs q :=
  Iff.rfl

theorem chain_append :
    Chain next m p (cs ++ ds) q ↔ ∃ r, Chain next m p cs r ∧ Chain next m r ds q := by
  induction cs generalizing p with
  | nil => simp
  | cons x cs ih =>
    obtain ⟨a, c⟩ := x
    simp only [List.cons_append, chain_cons, ih]
    constructor
    · rintro ⟨hp, hm, r, hcs, hds⟩
      exact ⟨r, ⟨hp, hm, hcs⟩, hds⟩
    · rintro ⟨r, ⟨hp, hm, hcs⟩, hds⟩
      exact ⟨hp, hm, r, hcs, hds⟩

theorem chain_concat :
    Chain next m p (cs ++ [(a, c)]) q ↔
      Chain next m p cs (some a) ∧ m a = some c ∧ next c = q := by
  rw [chain_append]
  constructor
  · rintro ⟨r, hcs, rfl, hm, hq⟩
    exact ⟨hcs, hm, hq⟩
  · rintro ⟨hcs, hm, hq⟩
    exact ⟨some a, hcs, rfl, hm, hq⟩

theorem Chain.mem (h : Chain next m p cs q) {x : A × C} (hx : x ∈ cs) : m x.1 = some x.2 := by
  induction cs generalizing p with
  | nil => simp at hx
  | cons y cs ih =>
    obtain ⟨-, hm, hrest⟩ := h
    rcases List.mem_cons.mp hx with rfl | hx
    · exact hm
    · exact ih hrest hx

/-- What is written elsewhere does not change a chain. -/
theorem Chain.congr (h : Chain next m p cs q) (hm : ∀ x ∈ cs, m' x.1 = m x.1) :
    Chain next m' p cs q := by
  induction cs generalizing p with
  | nil => exact h
  | cons y cs ih =>
    obtain ⟨hp, hy, hrest⟩ := h
    refine ⟨hp, ?_, ih hrest fun x hx => hm x (List.mem_cons_of_mem _ hx)⟩
    rw [hm y List.mem_cons_self, hy]

theorem Chain.update [DecidableEq A] (h : Chain next m p cs q) (ha : a ∉ cs.map Prod.fst)
    (o : Option C) : Chain next (Function.update m a o) p cs q := by
  refine h.congr fun x hx => ?_
  have hne : x.1 ≠ a := by
    rintro rfl
    exact ha (List.mem_map_of_mem hx)
  exact Function.update_of_ne hne o m

/-- To the end of the links there is one way only. -/
theorem Chain.unique (h : Chain next m p cs none) (h' : Chain next m p ds none) : cs = ds := by
  induction cs generalizing p ds with
  | nil =>
    cases ds with
    | nil => rfl
    | cons y ds => simp_all [Chain]
  | cons x cs ih =>
    obtain ⟨hp, hx, hrest⟩ := h
    cases ds with
    | nil => simp_all [Chain]
    | cons y ds =>
      obtain ⟨hp', hy, hrest'⟩ := h'
      have haddr : x.1 = y.1 := Option.some.inj (hp.symm.trans hp')
      have hcell : x.2 = y.2 := Option.some.inj (by rw [← hx, ← hy, haddr])
      rw [Prod.ext haddr hcell, ih hrest (hcell ▸ hrest')]

/-- A cell met twice would lead back to itself and never to the end. -/
theorem Chain.nodup (h : Chain next m p cs none) : (cs.map Prod.fst).Nodup := by
  induction cs generalizing p with
  | nil => exact List.nodup_nil
  | cons x cs ih =>
    obtain ⟨-, hx, hrest⟩ := h
    refine List.nodup_cons.mpr ⟨fun hmem => ?_, ih hrest⟩
    obtain ⟨y, hy, hxy⟩ := List.mem_map.mp hmem
    obtain ⟨us, vs, rfl⟩ := List.append_of_mem hy
    obtain ⟨r, -, hback⟩ := chain_append.mp hrest
    have hcell : x.2 = y.2 := Option.some.inj (by rw [← hx, ← hback.2.1, hxy])
    have htwice : us ++ y :: vs = vs := Chain.unique hrest (hcell ▸ hback.2.2)
    have hlen := congrArg List.length htwice
    simp only [List.length_append, List.length_cons] at hlen
    omega

theorem Chain.length_le [DecidableEq A] (h : Chain next m p cs none) {live : Finset A}
    (hlive : ∀ x ∈ cs, x.1 ∈ live) : cs.length ≤ live.card := by
  have hsub : (cs.map Prod.fst).toFinset ⊆ live := by
    intro i hi
    obtain ⟨x, hx, rfl⟩ := List.mem_map.mp (List.mem_toFinset.mp hi)
    exact hlive x hx
  have hcard := Finset.card_le_card hsub
  rwa [List.toFinset_card_of_nodup h.nodup, List.length_map] at hcard

end Nachos.LinkedChains
