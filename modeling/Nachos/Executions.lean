import Mathlib

/-! Finite executions of a labelled transition relation, with the history kept.
Invariants are lifted from one step to a run here once; so is the passage from
"this step is lawful exactly when it meets the condition" to whole runs. -/
namespace Nachos.Executions

structure Transition (σ ε : Type*) where
  before : σ
  event : ε
  after : σ

variable {σ ε : Type*} {step : σ → ε → σ → Prop} {init s : σ} {tr : List (Transition σ ε)}

inductive Execution (step : σ → ε → σ → Prop) (init : σ) :
    List (Transition σ ε) → σ → Prop
  | start : Execution step init [] init
  | extend {tr : List (Transition σ ε)} {s t : σ} {e : ε} :
      Execution step init tr s → step s e t →
      Execution step init (tr ++ [⟨s, e, t⟩]) t

/-- What holds at the start and is kept by every step holds in every state reached. -/
theorem Execution.invariant {P : σ → Prop} (h : Execution step init tr s) (h0 : P init)
    (hs : ∀ s e t, P s → step s e t → P t) : P s := by
  induction h with
  | start => exact h0
  | extend _ hst ih => exact hs _ _ _ ih hst

/-- Every recorded transition is a step, taken from a state that satisfies the invariant. -/
theorem Execution.mem {P : σ → Prop} (h : Execution step init tr s) (h0 : P init)
    (hs : ∀ s e t, P s → step s e t → P t) {x : Transition σ ε} (hx : x ∈ tr) :
    P x.before ∧ step x.before x.event x.after := by
  induction h with
  | start => simp at hx
  | extend hex hst ih =>
    rcases List.mem_append.mp hx with hx | hx
    · exact ih hx
    · obtain rfl := List.mem_singleton.mp hx
      exact ⟨hex.invariant h0 hs, hst⟩

/-- The run up to one of its transitions, and that step. -/
theorem Execution.split (h : Execution step init tr s) :
    ∀ {pre post : List (Transition σ ε)} {x : Transition σ ε}, tr = pre ++ x :: post →
      Execution step init pre x.before ∧ step x.before x.event x.after := by
  induction h with
  | start =>
    intro pre post x he
    simp at he
  | @extend tr s t e hex hst ih =>
    intro pre post x he
    rcases List.eq_nil_or_concat post with rfl | ⟨post, y, rfl⟩
    · obtain ⟨rfl, hx⟩ := List.append_inj' he rfl
      obtain rfl := List.singleton_inj.mp hx
      exact ⟨hex, hst⟩
    · have he' : tr ++ [⟨s, e, t⟩] = (pre ++ x :: post) ++ [y] := by simpa using he
      exact ih (List.append_inj' he' rfl).1

/-- A simulation: the images of the states and events of a run form a run. -/
theorem Execution.map {σ' ε' : Type*} {step' : σ' → ε' → σ' → Prop} {P : σ → Prop} {f : σ → σ'}
    {g : ε → ε'} (h : Execution step init tr s) (h0 : P init)
    (hs : ∀ s e t, P s → step s e t → P t)
    (hsim : ∀ s e t, P s → step s e t → step' (f s) (g e) (f t)) :
    Execution step' (f init) (tr.map fun x => ⟨f x.before, g x.event, f x.after⟩) (f s) := by
  induction h with
  | start => exact .start
  | extend hex hst ih =>
    rw [List.map_append]
    exact ih.extend (hsim _ _ _ (hex.invariant h0 hs) hst)

/-- A run whose steps all have a property is a run of the steps that have it. -/
theorem Execution.restrict {Q : ε → Prop} (h : Execution step init tr s)
    (hq : ∀ x ∈ tr, Q x.event) :
    Execution (fun s e t => step s e t ∧ Q e) init tr s := by
  induction h with
  | start => exact .start
  | @extend tr s t e _ hst ih =>
    have he : Q e := hq ⟨s, e, t⟩ (by simp)
    exact (ih fun x hx => hq x (List.mem_append_left _ hx)).extend ⟨hst, he⟩

/-- Steps that change nothing can be left out of a run. -/
theorem Execution.filter {p : Transition σ ε → Bool} (h : Execution step init tr s)
    (hstay : ∀ x ∈ tr, p x = false → x.after = x.before) :
    Execution step init (tr.filter p) s := by
  induction h with
  | start => exact .start
  | @extend tr s t e _ hst ih =>
    have hkept := ih fun x hx => hstay x (List.mem_append_left _ hx)
    rw [List.filter_append]
    cases hp : p ⟨s, e, t⟩ with
    | true => simpa [hp] using hkept.extend hst
    | false =>
      obtain rfl : t = s := hstay ⟨s, e, t⟩ (by simp) hp
      simpa [hp] using hkept

/-- A law that each step obeys exactly under a condition is obeyed throughout a run
exactly when every step meets the condition. The invariant may depend on the
condition having held so far. -/
theorem Execution.forall_iff {P : σ → Prop} {Law Cond : Transition σ ε → Prop}
    (h : Execution step init tr s) (h0 : P init)
    (hiff : ∀ x : Transition σ ε, P x.before → step x.before x.event x.after →
      (Law x ↔ Cond x))
    (hnext : ∀ x : Transition σ ε, P x.before → step x.before x.event x.after →
      Cond x → P x.after) :
    (∀ x ∈ tr, Law x) ↔ ∀ x ∈ tr, Cond x := by
  suffices hh : ((∀ x ∈ tr, Law x) ↔ ∀ x ∈ tr, Cond x) ∧ ((∀ x ∈ tr, Cond x) → P s) from hh.1
  induction h with
  | start => exact ⟨by simp, fun _ => h0⟩
  | @extend tr s t e _ hst ih =>
    obtain ⟨hlaw, hinv⟩ := ih
    have hsplit : ∀ Q : Transition σ ε → Prop,
        (∀ x ∈ tr ++ [⟨s, e, t⟩], Q x) ↔ (∀ x ∈ tr, Q x) ∧ Q ⟨s, e, t⟩ := by
      intro Q
      simp only [List.mem_append, List.mem_singleton, or_imp, forall_and, forall_eq]
    refine ⟨?_, ?_⟩
    · rw [hsplit, hsplit, hlaw]
      constructor
      · rintro ⟨hc, hl⟩
        exact ⟨hc, (hiff _ (hinv hc) hst).mp hl⟩
      · rintro ⟨hc, hl⟩
        exact ⟨hc, (hiff _ (hinv hc) hst).mpr hl⟩
    · intro hc
      rw [hsplit] at hc
      exact hnext _ (hinv hc.1) hst hc.2

/-- Under the condition the invariant reaches the last state. -/
theorem Execution.invariant_of_cond {P : σ → Prop} {Q : Transition σ ε → Prop}
    (h : Execution step init tr s) (h0 : P init)
    (hnext : ∀ x : Transition σ ε, P x.before → step x.before x.event x.after →
      Q x → P x.after) (hc : ∀ x ∈ tr, Q x) : P s := by
  induction h with
  | start => exact h0
  | extend _ hst ih =>
    have hb := ih (fun x hx => hc x (List.mem_append_left _ hx))
    exact hnext ⟨_, _, _⟩ hb hst (hc _ (by simp))

/-- An invariant of the state and of what happened so far, kept by the steps that meet the
condition. -/
theorem Execution.history_invariant {P : List (Transition σ ε) → σ → Prop}
    {Q : Transition σ ε → Prop} (h : Execution step init tr s) (h0 : P [] init)
    (hnext : ∀ tr (x : Transition σ ε), P tr x.before → step x.before x.event x.after → Q x →
      P (tr ++ [x]) x.after) (hc : ∀ x ∈ tr, Q x) : P tr s := by
  induction h with
  | start => exact h0
  | extend _ hst ih =>
    have hb := ih (fun x hx => hc x (List.mem_append_left _ hx))
    exact hnext _ ⟨_, _, _⟩ hb hst (hc _ (by simp))

/-! Executions of a handler: a function from state and input to the next state and
the output, which may fail. -/

variable {α ω φ : Type*}

/-- One call of the handler, as a transition labelled with its input and output. -/
def Handles (f : σ → α → Except φ (σ × ω)) (s : σ) (e : α × ω) (t : σ) : Prop :=
  f s e.1 = .ok (t, e.2)

/-- A handler that fails on none of these inputs handles every sequence of them. -/
theorem exists_execution {f : σ → α → Except φ (σ × ω)} {A : α → Prop} {P : σ → Prop}
    (htotal : ∀ s a, P s → A a → ∃ t o, f s a = .ok (t, o) ∧ P t) (hinit : P init)
    (inputs : List α) (hin : ∀ a ∈ inputs, A a) :
    ∃ tr s, Execution (Handles f) init tr s ∧ P s ∧
      tr.map (fun x => x.event.1) = inputs := by
  induction inputs using List.reverseRecOn with
  | nil => exact ⟨[], init, .start, hinit, rfl⟩
  | append_singleton as a ih =>
    obtain ⟨tr, s, hex, hP, hmap⟩ := ih (fun x hx => hin x (by simp [hx]))
    obtain ⟨t, o, ht, hPt⟩ := htotal s a hP (hin a (by simp))
    exact ⟨_, t, hex.extend (e := (a, o)) ht, hPt, by simp [hmap]⟩

/-- The transitions of the handler on a list of inputs, oldest first, with the
state reached. -/
def traceFrom (f : σ → α → Except φ (σ × ω)) :
    List (Transition σ (α × ω)) → σ → List α → Option (List (Transition σ (α × ω)) × σ)
  | tr, s, [] => some (tr, s)
  | tr, s, a :: as =>
    match f s a with
    | .error _ => none
    | .ok (t, o) => traceFrom f (tr ++ [⟨s, (a, o), t⟩]) t as

def trace (f : σ → α → Except φ (σ × ω)) (init : σ) (inputs : List α) :
    Option (List (Transition σ (α × ω)) × σ) := traceFrom f [] init inputs

theorem execution_of_traceFrom {f : σ → α → Except φ (σ × ω)} (inputs : List α) :
    ∀ {tr₀ tr : List (Transition σ (α × ω))} {s₀ s : σ},
      Execution (Handles f) init tr₀ s₀ → traceFrom f tr₀ s₀ inputs = some (tr, s) →
      Execution (Handles f) init tr s ∧
        tr.map (fun x => x.event.1) = tr₀.map (fun x => x.event.1) ++ inputs := by
  induction inputs with
  | nil =>
    intro tr₀ tr s₀ s hex he
    simp only [traceFrom, Option.some.injEq, Prod.mk.injEq] at he
    obtain ⟨rfl, rfl⟩ := he
    exact ⟨hex, by simp⟩
  | cons a as ih =>
    intro tr₀ tr s₀ s hex he
    cases hf : f s₀ a with
    | error => simp [traceFrom, hf] at he
    | ok r =>
      obtain ⟨t, o⟩ := r
      simp only [traceFrom, hf] at he
      obtain ⟨hex', hmap⟩ := ih (hex.extend (e := (a, o)) hf) he
      exact ⟨hex', by simp [hmap]⟩

/-- A test that succeeds on the run of these inputs, as a fact about an execution. -/
theorem exists_of_trace (f : σ → α → Except φ (σ × ω)) (init : σ) (inputs : List α)
    (test : List (Transition σ (α × ω)) × σ → Bool)
    (h : (trace f init inputs).any test = true) :
    ∃ tr s, Execution (Handles f) init tr s ∧ tr.map (fun x => x.event.1) = inputs ∧
      test (tr, s) = true := by
  obtain ⟨⟨tr, s⟩, ht, htest⟩ := (Option.any_eq_true _ _).mp h
  obtain ⟨hex, hmap⟩ := execution_of_traceFrom inputs .start ht
  exact ⟨tr, s, hex, by simpa using hmap, htest⟩

theorem forall_inputs {Q : α → Prop} {tr : List (Transition σ (α × ω))} {inputs : List α}
    (hmap : tr.map (fun x => x.event.1) = inputs) (h : ∀ a ∈ inputs, Q a) :
    ∀ x ∈ tr, Q x.event.1 := by
  intro x hx
  exact h _ (hmap ▸ List.mem_map_of_mem hx)

/-! The same for a function that gives the next state only, with a check before each step. -/

def runSteps (f : σ → α → Option σ) (check : σ → α → Bool) : σ → List α → Option σ
  | s, [] => some s
  | s, a :: as => if check s a then (f s a).bind fun t => runSteps f check t as else none

theorem execution_of_runSteps {f : σ → α → Option σ} {check : σ → α → Bool} (inputs : List α) :
    ∀ {tr₀ : List (Transition σ α)} {s₀ s : σ},
      Execution (fun s a t => f s a = some t) init tr₀ s₀ → runSteps f check s₀ inputs = some s →
      ∃ tr, Execution (fun s a t => f s a = some t) init (tr₀ ++ tr) s ∧
        tr.map (fun x => x.event) = inputs ∧ ∀ x ∈ tr, check x.before x.event = true := by
  induction inputs with
  | nil =>
    intro tr₀ s₀ s hex he
    obtain rfl := Option.some.inj he
    exact ⟨[], by simpa using hex, rfl, by simp⟩
  | cons a as ih =>
    intro tr₀ s₀ s hex he
    rw [runSteps] at he
    split_ifs at he with hcheck
    obtain ⟨t, ht, hrest⟩ := Option.bind_eq_some_iff.mp he
    obtain ⟨tr, hex', hmap, hall⟩ := ih (hex.extend ht) hrest
    refine ⟨⟨s₀, a, t⟩ :: tr, by simpa using hex', by simp [hmap], fun x hx => ?_⟩
    rcases List.mem_cons.mp hx with rfl | hx
    · exact hcheck
    · exact hall x hx

theorem exists_of_runSteps (f : σ → α → Option σ) (init : σ) (inputs : List α)
    (check : σ → α → Bool) (test : σ → Bool)
    (h : (runSteps f check init inputs).any test = true) :
    ∃ tr s, Execution (fun s a t => f s a = some t) init tr s ∧
      tr.map (fun x => x.event) = inputs ∧ (∀ x ∈ tr, check x.before x.event = true) ∧
      test s = true := by
  obtain ⟨s, hs, htest⟩ := (Option.any_eq_true _ _).mp h
  obtain ⟨tr, hex, hmap, hall⟩ := execution_of_runSteps inputs .start hs
  exact ⟨tr, s, by simpa using hex, hmap, hall, htest⟩

/-- The same for a function that may fail. -/
theorem exists_of_run (f : σ → α → Except φ σ) (init : σ) (inputs : List α) (check : σ → α → Bool)
    (test : σ → Bool)
    (h : (runSteps (fun s a => (f s a).toOption) check init inputs).any test = true) :
    ∃ tr s, Execution (fun s a t => f s a = .ok t) init tr s ∧
      tr.map (fun x => x.event) = inputs ∧ (∀ x ∈ tr, check x.before x.event = true) ∧
      test s = true := by
  have hstep : (fun s a t => (f s a).toOption = some t) = fun s a t => f s a = .ok t := by
    funext s a t
    cases f s a <;> simp [Except.toOption]
  simpa only [hstep] using exists_of_runSteps (fun s a => (f s a).toOption) init inputs check test h

end Nachos.Executions
