import Mathlib.Data.List.Forall2

/-! Handlers, which answer an input in a state and may fail, and handlers that simulate them
where a choice of the input's own is made. -/
namespace Nachos.Simulations

variable {σ τ α β ω φ : Type*} {f : σ → α → Except φ (σ × ω)} {g : τ → β → Except φ (τ × ω)}
  {R : σ → τ → Prop} {s : σ} {t : τ}

/-- The answers of a run, as many as there are, and the state or the failure at its end. -/
def run (f : σ → α → Except φ (σ × ω)) : σ → List α → List ω × Except φ σ
  | s, [] => ([], .ok s)
  | s, a :: as =>
    match f s a with
    | .ok (s', o) => (o :: (run f s' as).1, (run f s' as).2)
    | .error e => ([], .error e)

/-- Each input of a run is allowed in the state that it meets. -/
def Along (f : σ → α → Except φ (σ × ω)) (G : σ → α → Prop) : σ → List α → Prop
  | _, [] => True
  | s, a :: as => G s a ∧ ∀ s' o, f s a = .ok (s', o) → Along f G s' as

/-- Two states that are related, or twice the same failure. -/
inductive Agree (R : σ → τ → Prop) : Except φ σ → Except φ τ → Prop
  | ok {s : σ} {t : τ} : R s t → Agree R (.ok s) (.ok t)
  | error (e : φ) : Agree R (.error e) (.error e)

/-- Related states with the same answer, or the same failure. -/
def AgreeStep (R : σ → τ → Prop) : Except φ (σ × ω) → Except φ (τ × ω) → Prop :=
  Agree fun x y => R x.1 y.1 ∧ x.2 = y.2

theorem AgreeStep.ok {o : ω} (h : R s t) :
    AgreeStep R (.ok (s, o) : Except φ (σ × ω)) (.ok (t, o)) := Agree.ok ⟨h, rfl⟩

/-! Lists of related elements. -/

section
variable {l : List σ} {u : List τ} {x : σ} {y : τ}

theorem forall₂_set (h : List.Forall₂ R l u) (hxy : R x y) (i : ℕ) :
    List.Forall₂ R (l.set i x) (u.set i y) := by
  induction h generalizing i with
  | nil => exact .nil
  | cons hab hrest ih => cases i with
    | zero => exact .cons hxy hrest
    | succ i => exact .cons hab (ih i)

theorem forall₂_modify {f : σ → σ} {g : τ → τ} (h : List.Forall₂ R l u)
    (hfg : ∀ x y, R x y → R (f x) (g y)) (i : ℕ) :
    List.Forall₂ R (l.modify i f) (u.modify i g) := by
  induction h generalizing i with
  | nil => simp
  | cons hab hrest ih => cases i with
    | zero => exact .cons (hfg _ _ hab) hrest
    | succ i => exact .cons hab (ih i)

theorem forall₂_getElem? (h : List.Forall₂ R l u) (i : ℕ) : Option.Rel R l[i]? u[i]? := by
  induction h generalizing i with
  | nil => exact .none
  | cons hab _ ih => cases i with
    | zero => exact .some hab
    | succ i => exact ih i

end

theorem exists_of_map_eq_ok {x : Except φ σ} {f : σ → τ} {y : τ} (h : x.map f = .ok y) :
    ∃ a, x = .ok a ∧ f a = y := by
  cases x with
  | error e => cases h
  | ok a => exact ⟨a, rfl, Except.ok.inj h⟩

/-! Runs. -/

theorem exists_forall₂ {A : α → β → Prop} (htotal : ∀ a, ∃ b, A a b) (as : List α) :
    ∃ bs, List.Forall₂ A as bs := by
  induction as with
  | nil => exact ⟨[], .nil⟩
  | cons a as ih =>
    obtain ⟨b, hb⟩ := htotal a
    obtain ⟨bs, hbs⟩ := ih
    exact ⟨b :: bs, .cons hb hbs⟩

/-- What the inputs of a run keep holds at its end. -/
theorem run_invariant {P : σ → Prop} {as : List α} {s' : σ} (h : P s)
    (hstep : ∀ a ∈ as, ∀ s s' o, P s → f s a = .ok (s', o) → P s')
    (hrun : (run f s as).2 = .ok s') : P s' := by
  induction as generalizing s with
  | nil =>
    obtain rfl : s = s' := Except.ok.inj hrun
    exact h
  | cons a as ih =>
    cases hf : f s a with
    | error e => simp [run, hf] at hrun
    | ok r =>
      simp only [run, hf] at hrun
      exact ih (hstep a List.mem_cons_self s r.1 r.2 h hf)
        (fun b hb => hstep b (List.mem_cons_of_mem _ hb)) hrun

theorem run_ne_error {P : σ → Prop} {e : φ} (h : P s)
    (hstep : ∀ s a, P s → f s a ≠ .error e ∧ ∀ s' o, f s a = .ok (s', o) → P s') (as : List α) :
    (run f s as).2 ≠ .error e := by
  induction as generalizing s with
  | nil => exact fun he => by cases he
  | cons a as ih =>
    obtain ⟨hne, hnext⟩ := hstep s a h
    simp only [run]
    cases hf : f s a with
    | error e' =>
      intro he
      cases he
      exact hne hf
    | ok r => exact ih (hnext r.1 r.2 hf)

theorem along_true (as : List α) : Along f (fun _ _ => True) s as := by
  induction as generalizing s with
  | nil => trivial
  | cons a as ih => exact ⟨trivial, fun s' _ _ => ih⟩

/-- A handler that another one simulates step by step, where the inputs are allowed, is simulated by
it in whole runs. -/
theorem run_agrees_along {A : α → β → Prop} {G : σ → α → Prop} (htotal : ∀ a, ∃ b, A a b)
    (hstep : ∀ s t a, R s t → G s a → ∃ b, A a b ∧ AgreeStep R (f s a) (g t b)) (h : R s t)
    {as : List α} (hG : Along f G s as) :
    ∃ bs, List.Forall₂ A as bs ∧ (run f s as).1 = (run g t bs).1 ∧
      Agree R (run f s as).2 (run g t bs).2 := by
  induction as generalizing s t with
  | nil => exact ⟨[], .nil, rfl, .ok h⟩
  | cons a as ih =>
    obtain ⟨b, hb, hagree⟩ := hstep s t a h hG.1
    cases hf : f s a with
    | error e =>
      obtain ⟨bs, hbs⟩ := exists_forall₂ htotal as
      rw [hf] at hagree
      cases hg : g t b with
      | error e' =>
        rw [hg] at hagree
        cases hagree
        exact ⟨b :: bs, .cons hb hbs, by simp [run, hf, hg], by simpa [run, hf, hg] using .error e⟩
      | ok r =>
        rw [hg] at hagree
        cases hagree
    | ok r =>
      rw [hf] at hagree
      cases hg : g t b with
      | error e' =>
        rw [hg] at hagree
        cases hagree
      | ok r' =>
        rw [hg] at hagree
        cases hagree with
        | ok hr =>
          obtain ⟨bs, hbs, hanswers, hend⟩ := ih hr.1 (hG.2 r.1 r.2 hf)
          refine ⟨b :: bs, .cons hb hbs, ?_, ?_⟩
          · simp [run, hf, hg, hanswers, hr.2]
          · simpa [run, hf, hg] using hend

theorem run_agrees {A : α → β → Prop} (htotal : ∀ a, ∃ b, A a b)
    (hstep : ∀ s t a, R s t → ∃ b, A a b ∧ AgreeStep R (f s a) (g t b)) (h : R s t)
    (as : List α) :
    ∃ bs, List.Forall₂ A as bs ∧ (run f s as).1 = (run g t bs).1 ∧
      Agree R (run f s as).2 (run g t bs).2 :=
  run_agrees_along htotal (fun s t a hr _ => hstep s t a hr) h (along_true as)

end Nachos.Simulations
