import Nachos.Executions

/-! A counter that several threads increment, each by a read and a later write. No increment is
lost if and only if nobody ever reads while another thread is between its read and its write. -/
namespace Nachos.LostUpdates
open Executions

/-- The counter, the number of increments so far, and what is in the hands of the threads. -/
@[ext] structure Counter (T : Type*) where
  value : ℤ
  executed : ℤ
  read : T → Option ℤ

inductive Event (T : Type*)
  | read (t : T)
  | write (t : T)
  | idle

variable {T : Type*} [DecidableEq T]

namespace Counter

def reads (s : Counter T) (t : T) : Counter T :=
  { s with read := Function.update s.read t (some s.value) }

def writes (s : Counter T) (t : T) (v : ℤ) : Counter T :=
  ⟨v + 1, s.executed + 1, Function.update s.read t none⟩

variable (s : Counter T) (t u : T) (v : ℤ)

@[simp] theorem reads_value : (s.reads t).value = s.value := rfl

@[simp] theorem reads_executed : (s.reads t).executed = s.executed := rfl

@[simp] theorem reads_read : (s.reads t).read u = if u = t then some s.value else s.read u :=
  Function.update_apply _ _ _ _

@[simp] theorem writes_value : (s.writes t v).value = v + 1 := rfl

@[simp] theorem writes_executed : (s.writes t v).executed = s.executed + 1 := rfl

@[simp] theorem writes_read : (s.writes t v).read u = if u = t then none else s.read u :=
  Function.update_apply _ _ _ _

end Counter

inductive Step (s : Counter T) : Event T → Counter T → Prop
  | read {t : T} (h : s.read t = none) : Step s (.read t) (s.reads t)
  | write {t : T} {v : ℤ} (h : s.read t = some v) : Step s (.write t) (s.writes t v)
  | idle : Step s .idle s

/-- Who reads is the only one inside. -/
def Alone (x : Transition (Counter T) (Event T)) : Prop :=
  ∀ t, x.event = .read t → ∀ u, x.before.read u = none

/-- No increment is lost, and none will be. -/
structure Exact (s : Counter T) : Prop where
  value : s.value = s.executed
  read : ∀ t v, s.read t = some v → v = s.value
  alone : ∀ t u, s.read t ≠ none → s.read u ≠ none → t = u

/-- Nobody is ahead of the increments. -/
structure Bounded (s : Counter T) : Prop where
  value : s.value ≤ s.executed
  read : ∀ t v, s.read t = some v → v ≤ s.executed

/-- An increment is lost: it has been, or it will be when those inside have written. -/
def Lossy (s : Counter T) : Prop :=
  (∃ t u, t ≠ u ∧ s.read t ≠ none ∧ s.read u ≠ none) ∨
    (∀ t v, s.read t = some v → v < s.executed) ∧ (s.value < s.executed ∨ ∃ t, s.read t ≠ none)

variable {s s' : Counter T} {e : Event T} {tr : List (Transition (Counter T) (Event T))} {t u : T}
  {v : ℤ}

theorem Bounded.step (h : Bounded s) (hs : Step s e s') : Bounded s' := by
  cases hs with
  | @read t hnone =>
    refine ⟨h.value, fun u v hu => ?_⟩
    rw [Counter.reads_read] at hu
    split_ifs at hu
    · exact Option.some.inj hu ▸ h.value
    · exact h.read u v hu
  | @write t w ht =>
    have hw := h.read t w ht
    refine ⟨by simpa using hw, fun u v hu => ?_⟩
    rw [Counter.writes_read] at hu
    split_ifs at hu
    have hv := h.read u v hu
    rw [Counter.writes_executed]
    omega
  | idle => exact h

theorem Exact.step (h : Exact s) (hs : Step s e s') (ha : Alone ⟨s, e, s'⟩) : Exact s' := by
  cases hs with
  | @read t hnone =>
    have hfree := ha t rfl
    simp only at hfree
    refine ⟨h.value, fun u v hu => ?_, fun u w hu hw => ?_⟩
    · rw [Counter.reads_read, hfree] at hu
      split_ifs at hu
      exact (Option.some.inj hu).symm
    · rw [Counter.reads_read, hfree] at hu hw
      split_ifs at hu hw with hut hwt
      · exact hut.trans hwt.symm
      all_goals contradiction
  | @write t w ht =>
    have hw := h.read t w ht
    have hnone : ∀ u, (s.writes t w).read u = none := by
      intro u
      rw [Counter.writes_read]
      split_ifs with hut
      · rfl
      · by_contra hu
        exact hut (h.alone u t hu (by simp [ht]))
    refine ⟨?_, fun u v hu => ?_, fun u w hu => (hu (hnone u)).elim⟩
    · rw [Counter.writes_value, Counter.writes_executed, hw, h.value]
    · cases (hnone u).symm.trans hu
  | idle => exact h

/-- A second reader loses an increment. -/
theorem Lossy.of_overlap (hs : Step s e s') (ha : ¬ Alone ⟨s, e, s'⟩) : Lossy s' := by
  simp only [Alone, not_forall] at ha
  obtain ⟨t, rfl, u, hu⟩ := ha
  cases hs with
  | read hnone =>
    have hut : u ≠ t := by
      rintro rfl
      exact hu hnone
    exact .inl ⟨u, t, hut, by simpa [hut] using hu, by simp⟩

/-- What is lost stays lost. -/
theorem Lossy.step (h : Lossy s) (hb : Bounded s) (hs : Step s e s') : Lossy s' := by
  cases hs with
  | @read t hnone =>
    have hkeep : ∀ u, s.read u ≠ none → (s.reads t).read u ≠ none := by
      intro u hu
      rw [Counter.reads_read]
      split_ifs
      · simp
      · exact hu
    rcases h with ⟨u, w, hne, hu, hw⟩ | ⟨hread, hvalue | ⟨u, hu⟩⟩
    · exact .inl ⟨u, w, hne, hkeep u hu, hkeep w hw⟩
    · refine .inr ⟨fun u v hu => ?_, .inl hvalue⟩
      rw [Counter.reads_read] at hu
      split_ifs at hu
      · exact Option.some.inj hu ▸ hvalue
      · exact hread u v hu
    · have hut : u ≠ t := by
        rintro rfl
        exact hu hnone
      exact .inl ⟨u, t, hut, hkeep u hu, by simp⟩
  | @write t w ht =>
    -- whoever is still inside has read before this write
    have hbehind : ∀ u v, (s.writes t w).read u = some v → v < (s.writes t w).executed := by
      intro u v hu
      rw [Counter.writes_read] at hu
      split_ifs at hu
      have hv := hb.read u v hu
      rw [Counter.writes_executed]
      omega
    refine .inr ⟨hbehind, ?_⟩
    rcases h with ⟨u, r, hne, hu, hr⟩ | ⟨hread, -⟩
    · rcases eq_or_ne u t with rfl | hut
      · exact .inr ⟨r, by simpa [hne.symm] using hr⟩
      · exact .inr ⟨u, by simpa [hut] using hu⟩
    · have hlt := hread t w ht
      exact .inl (by simpa using hlt)
  | idle => exact h

/-- Once nobody is inside, the counter has the number of increments exactly if every reader was
alone. -/
theorem exact_iff {s₀ : Counter T} (h : Execution Step s₀ tr s) (h0 : s₀.value = s₀.executed)
    (hnone : ∀ t, s₀.read t = none) (hquiet : ∀ t, s.read t = none) :
    s.value = s.executed ↔ ∀ x ∈ tr, Alone x := by
  have hstart : Bounded s₀ ∧ Exact s₀ :=
    ⟨⟨h0.le, by simp [hnone]⟩, ⟨h0, by simp [hnone], fun t u ht => (ht (hnone t)).elim⟩⟩
  have hrun : Bounded s ∧ ((∀ x ∈ tr, Alone x) → Exact s) ∧ (¬ (∀ x ∈ tr, Alone x) → Lossy s) := by
    clear hquiet
    induction h with
    | start => exact ⟨hstart.1, fun _ => hstart.2, fun hall => (hall (by simp)).elim⟩
    | @extend tr s s' e hex hs ih =>
      obtain ⟨hb, hexact, hlossy⟩ := ih
      refine ⟨hb.step hs, fun hall => ?_, fun hall => ?_⟩
      · exact (hexact fun x hx => hall x (by simp [hx])).step hs (hall _ (by simp))
      · by_cases hbefore : ∀ x ∈ tr, Alone x
        · refine Lossy.of_overlap hs fun ha => hall fun x hx => ?_
          rcases List.mem_append.mp hx with hx | hx
          · exact hbefore x hx
          · rwa [List.mem_singleton.mp hx]
        · exact (hlossy hbefore).step hb hs
  obtain ⟨-, hexact, hlossy⟩ := hrun
  refine ⟨fun hvalue => ?_, fun hall => (hexact hall).value⟩
  by_contra hall
  rcases hlossy hall with ⟨t, -, -, ht, -⟩ | ⟨-, hlt | ⟨t, ht⟩⟩
  · exact ht (hquiet t)
  · omega
  · exact ht (hquiet t)

end Nachos.LostUpdates
