import Nachos.Executions

/-! A store of arrays with names: a map from the live names to their arrays, and a number
for each live name by which the entries are read and written. -/
namespace Nachos.NamedArrays
open Executions

@[ext]
structure Store (K V : Type*) where
  array : K → Option (List V)
  nameOf : ℤ → Option K

inductive Op (K V : Type*)
  | create (name : K) (count : ℕ) (initial : V)
  | get (number entry : ℤ)
  | set (number entry : ℤ) (value : V)
  | destroy (number : ℤ)
  deriving DecidableEq, Repr

/-- How the answers are sent. -/
structure Replies (V R : Type*) where
  number : ℤ → R
  value : V → R
  done : R
  failed : R

variable {K V R : Type*} [DecidableEq K]

namespace Store

def empty : Store K V := ⟨fun _ => none, fun _ => none⟩

def contents (s : Store K V) (n : ℤ) : Option (List V) := (s.nameOf n).bind s.array

def entry (s : Store K V) (n j : ℤ) : Option V :=
  (s.contents n).bind fun a => if 0 ≤ j then a[j.toNat]? else none

/-- A number stands for a live name, and every live name has one number. -/
structure Consistent (s : Store K V) : Prop where
  live : ∀ n k, s.nameOf n = some k → s.array k ≠ none
  numbered : ∀ k, s.array k ≠ none → ∃ n, s.nameOf n = some k
  unique : ∀ n m k, s.nameOf n = some k → s.nameOf m = some k → n = m

end Store

/-- An operation, its reply and the store afterwards. A destroy is not answered. -/
inductive Answers (r : Replies V R) (capacity : ℤ) (s : Store K V) :
    Op K V → Option R → Store K V → Prop
  | known {n : ℤ} {k : K} {count : ℕ} {initial : V} (hn : s.nameOf n = some k) :
      Answers r capacity s (.create k count initial) (some (r.number n)) s
  | created {n : ℤ} {k : K} {count : ℕ} {initial : V} (hk : s.array k = none)
      (hn : s.nameOf n = none) (h0 : 0 ≤ n) (hlt : n < capacity) :
      Answers r capacity s (.create k count initial) (some (r.number n))
        ⟨Function.update s.array k (some (List.replicate count initial)),
          Function.update s.nameOf n (some k)⟩
  | full {k : K} {count : ℕ} {initial : V} (hk : s.array k = none)
      (hfull : ∀ n, 0 ≤ n → n < capacity → s.nameOf n ≠ none) :
      Answers r capacity s (.create k count initial) (some r.failed) s
  | read {n j : ℤ} {v : V} (hv : s.entry n j = some v) :
      Answers r capacity s (.get n j) (some (r.value v)) s
  | unread {n j : ℤ} (hv : s.entry n j = none) :
      Answers r capacity s (.get n j) (some r.failed) s
  | wrote {n j : ℤ} {v : V} {k : K} {a : List V} (hn : s.nameOf n = some k)
      (ha : s.array k = some a) (hv : s.entry n j ≠ none) :
      Answers r capacity s (.set n j v) (some r.done)
        { s with array := Function.update s.array k (some (a.set j.toNat v)) }
  | unwritten {n j : ℤ} {v : V} (hv : s.entry n j = none) :
      Answers r capacity s (.set n j v) (some r.failed) s
  | destroyed {n : ℤ} {k : K} (hn : s.nameOf n = some k) :
      Answers r capacity s (.destroy n) none
        ⟨Function.update s.array k none, Function.update s.nameOf n none⟩
  | nothing {n : ℤ} (hn : s.nameOf n = none) : Answers r capacity s (.destroy n) none s

/-- The value that an operation writes to an entry. -/
def writes (n j : ℤ) : Op K V → Option V
  | .set m i v => if m = n ∧ i = j then some v else none
  | _ => none

variable {r : Replies V R} {capacity : ℤ} {s s' init : Store K V} {op : Op K V}
  {reply : Option R} {n j : ℤ} {k : K}

namespace Store

omit [DecidableEq K] in
theorem Consistent.empty : (empty : Store K V).Consistent := by
  constructor <;> simp [Store.empty]

omit [DecidableEq K] in
theorem entry_eq (hn : s.nameOf n = some k) {a : List V} (ha : s.array k = some a) :
    s.entry n j = if 0 ≤ j then a[j.toNat]? else none := by
  simp [entry, contents, hn, ha]

end Store

namespace Store.Consistent

theorem created (hc : s.Consistent) (hk : s.array k = none) (hn : s.nameOf n = none) (a : List V) :
    (⟨Function.update s.array k (some a), Function.update s.nameOf n (some k)⟩ :
      Store K V).Consistent := by
  have hother : ∀ m k', m ≠ n → s.nameOf m = some k' → k' ≠ k := by
    rintro m k' _ hm rfl
    exact hc.live m k' hm hk
  have hname : ∀ m k', Function.update s.nameOf n (some k) m = some k' →
      (m = n ∧ k' = k) ∨ (m ≠ n ∧ s.nameOf m = some k') := by
    intro m k' hm
    by_cases hmn : m = n
    · subst hmn
      exact .inl ⟨rfl, by simpa using hm.symm⟩
    · exact .inr ⟨hmn, by simpa [hmn] using hm⟩
  refine ⟨fun m k' hm => ?_, fun k' hk' => ?_, fun m₁ m₂ k' h₁ h₂ => ?_⟩
  · rcases hname m k' hm with ⟨rfl, rfl⟩ | ⟨hmn, hm⟩
    · simp
    · simpa [hother m k' hmn hm] using hc.live m k' hm
  · by_cases hkk : k' = k
    · exact ⟨n, by simp [hkk]⟩
    · obtain ⟨m, hm⟩ := hc.numbered k' (by simpa [hkk] using hk')
      have hmn : m ≠ n := by
        rintro rfl
        simp [hn] at hm
      exact ⟨m, by simpa [hmn] using hm⟩
  · rcases hname m₁ k' h₁ with ⟨hm₁, hk₁⟩ | ⟨hm₁, h₁'⟩
    · rcases hname m₂ k' h₂ with ⟨hm₂, -⟩ | ⟨hm₂, h₂'⟩
      · exact hm₁.trans hm₂.symm
      · exact absurd hk₁ (hother m₂ k' hm₂ h₂')
    · rcases hname m₂ k' h₂ with ⟨hm₂, hk₂⟩ | ⟨-, h₂'⟩
      · exact absurd hk₂ (hother m₁ k' hm₁ h₁')
      · exact hc.unique m₁ m₂ k' h₁' h₂'

theorem wrote (hc : s.Consistent) (ha : s.array k ≠ none) (a : List V) :
    ({ s with array := Function.update s.array k (some a) } : Store K V).Consistent := by
  refine ⟨fun m k' hm => ?_, fun k' hk' => ?_, hc.unique⟩
  · by_cases hkk : k' = k
    · simp [hkk]
    · simpa [hkk] using hc.live m k' hm
  · by_cases hkk : k' = k
    · exact hc.numbered k' (hkk ▸ ha)
    · exact hc.numbered k' (by simpa [hkk] using hk')

theorem destroyed (hc : s.Consistent) (hn : s.nameOf n = some k) :
    (⟨Function.update s.array k none, Function.update s.nameOf n none⟩ :
      Store K V).Consistent := by
  have hname : ∀ m k', Function.update s.nameOf n none m = some k' →
      m ≠ n ∧ s.nameOf m = some k' := by
    intro m k' hm
    by_cases hmn : m = n
    · simp [hmn] at hm
    · exact ⟨hmn, by simpa [hmn] using hm⟩
  refine ⟨fun m k' hm => ?_, fun k' hk' => ?_, fun m₁ m₂ k' h₁ h₂ => ?_⟩
  · obtain ⟨hmn, hm'⟩ := hname m k' hm
    have hkk : k' ≠ k := by
      rintro rfl
      exact hmn (hc.unique m n k' hm' hn)
    simpa [hkk] using hc.live m k' hm'
  · have hkk : k' ≠ k := by
      rintro rfl
      simp at hk'
    obtain ⟨m, hm⟩ := hc.numbered k' (by simpa [hkk] using hk')
    have hmn : m ≠ n := by
      rintro rfl
      exact hkk (Option.some.inj (hm.symm.trans hn))
    exact ⟨m, by simpa [hmn] using hm⟩
  · exact hc.unique m₁ m₂ k' (hname m₁ k' h₁).2 (hname m₂ k' h₂).2

end Store.Consistent

theorem Answers.consistent (hc : s.Consistent) (h : Answers r capacity s op reply s') :
    s'.Consistent := by
  cases h with
  | known | full | read | unread | unwritten | nothing => exact hc
  | created hk hn _ _ => exact hc.created hk hn _
  | wrote hn ha _ => exact hc.wrote (by simp [ha]) _
  | destroyed hn => exact hc.destroyed hn

theorem Answers.get_reply (h : Answers r capacity s (.get n j) reply s') :
    reply = some ((s.entry n j).elim r.failed r.value) := by
  cases h with
  | read hv => simp [hv]
  | unread hv => simp [hv]

/-- An array that is not destroyed changes only where it is written. -/
theorem Answers.entry_step (hc : s.Consistent) (h : Answers r capacity s op reply s')
    (hlive : s.nameOf n ≠ none) (hd : op ≠ .destroy n) (j : ℤ) :
    s'.nameOf n ≠ none ∧
      s'.entry n j = (s.entry n j).map fun v => (writes n j op).getD v := by
  obtain ⟨k, hk⟩ := Option.ne_none_iff_exists'.mp hlive
  cases h with
  | known | full | read | unread | nothing => exact ⟨hlive, by simp [writes]⟩
  | @created m k' count initial hk' hm h0 hlt =>
    have hmn : n ≠ m := by
      rintro rfl
      exact hlive hm
    have hkk : k ≠ k' := by
      rintro rfl
      exact hc.live n k hk hk'
    simp [Store.entry, Store.contents, hmn, hk, hkk, writes]
  | @unwritten m i v hv =>
    refine ⟨hlive, ?_⟩
    by_cases hw : m = n ∧ i = j
    · obtain ⟨rfl, rfl⟩ := hw
      simp [hv]
    · simp [writes, hw]
  | @wrote m i v k' a hm ha hv =>
    refine ⟨hlive, ?_⟩
    by_cases hmn : m = n
    · subst hmn
      obtain rfl : k = k' := Option.some.inj (hk.symm.trans hm)
      have hnew := Store.entry_eq (j := j)
        (s := { s with array := Function.update s.array k (some (a.set i.toNat v)) }) hk
        (Function.update_self _ _ _)
      rw [hnew, Store.entry_eq hk ha]
      rw [Store.entry_eq hk ha] at hv
      have hi : 0 ≤ i ∧ i.toNat < a.length := by
        by_cases h0 : 0 ≤ i
        · simpa [h0] using hv
        · simp [h0] at hv
      by_cases h0 : 0 ≤ j
      · by_cases hij : i = j
        · subst hij
          simp [h0, hi.2, writes]
        · have hne : i.toNat ≠ j.toNat := by omega
          simp [h0, hij, hne, writes]
      · simp [h0]
    · have hkk : k ≠ k' := by
        rintro rfl
        exact hmn (hc.unique m n k hm hk)
      simp [Store.entry, Store.contents, hk, hkk, writes, hmn]
  | @destroyed m k' hm =>
    have hmn : n ≠ m := by
      rintro rfl
      exact hd rfl
    have hkk : k ≠ k' := by
      rintro rfl
      exact hmn (hc.unique n m k hk hm)
    simp [Store.entry, Store.contents, hmn, hk, hkk, writes]

abbrev StoreStep (K V R : Type*) := Transition (Store K V) (Op K V × Option R)

def step (r : Replies V R) (capacity : ℤ) (s : Store K V) (e : Op K V × Option R)
    (s' : Store K V) : Prop :=
  Answers r capacity s e.1 e.2 s'

theorem consistent_run {tr : List (StoreStep K V R)} (h : Execution (step r capacity) init tr s)
    (h0 : init.Consistent) : s.Consistent :=
  h.invariant h0 fun _ _ _ hc hs => Answers.consistent hc hs

/-- The create that makes a number stand for an array fills the array. -/
theorem Answers.fills {count : ℕ} {initial : V}
    (h : Answers r capacity s (.create k count initial) reply s') (hnew : s.nameOf n = none)
    (hlive : s'.nameOf n ≠ none) (j : ℤ) :
    s'.entry n j = if 0 ≤ j ∧ j < count then some initial else none := by
  cases h with
  | known | full => exact absurd hnew hlive
  | @created m _ _ _ hk hm h0 hlt =>
    have hnm : n = m := by
      by_contra hnm
      simp [hnm, hnew] at hlive
    subst hnm
    by_cases hj : 0 ≤ j
    · have hlt : j.toNat < count ↔ j < count := by omega
      simp [Store.entry, Store.contents, hj, List.getElem?_replicate, hlt]
    · simp [Store.entry, Store.contents, hj]

/-- After its creation an entry has the value of the last write to it, or the initial one. -/
theorem latest_write {tr : List (StoreStep K V R)} {c : StoreStep K V R} {count : ℕ}
    {initial : V} (h : Execution (step r capacity) init tr s) (h0 : init.Consistent) (j : ℤ) :
    ∀ {pre post : List (StoreStep K V R)}, tr = pre ++ c :: post →
      c.event.1 = .create k count initial → c.before.nameOf n = none → c.after.nameOf n ≠ none →
      (∀ x ∈ post, x.event.1 ≠ .destroy n) →
      s.nameOf n ≠ none ∧ s.entry n j = if 0 ≤ j ∧ j < count then
        some ((post.filterMap fun x => writes n j x.event.1).getLast?.getD initial) else none := by
  induction h with
  | start =>
    intro pre post he
    simp at he
  | @extend tr s t e hex hst ih =>
    intro pre post he hcreate hnew hlive hkeep
    rcases List.eq_nil_or_concat post with rfl | ⟨post, y, rfl⟩
    · obtain ⟨rfl, hc⟩ := List.append_inj' he rfl
      obtain rfl := List.singleton_inj.mp hc
      obtain ⟨op, reply⟩ := e
      obtain rfl : op = .create k count initial := hcreate
      exact ⟨hlive, by simpa using Answers.fills hst hnew hlive j⟩
    · have he' : tr ++ [⟨s, e, t⟩] = (pre ++ c :: post) ++ [y] := by simpa using he
      obtain ⟨htr, hy⟩ := List.append_inj' he' rfl
      obtain rfl := List.singleton_inj.mp hy
      obtain ⟨hn, hentry⟩ := ih htr hcreate hnew hlive fun x hx => hkeep x (by simp [hx])
      obtain ⟨hn', hentry'⟩ := Answers.entry_step (consistent_run hex h0) hst hn
        (hkeep ⟨s, e, t⟩ (by simp)) j
      refine ⟨hn', hentry'.trans ?_⟩
      rw [hentry]
      split_ifs
      · cases hw : writes n j e.1 <;> simp [List.filterMap_append, hw]
      · rfl

end Nachos.NamedArrays
