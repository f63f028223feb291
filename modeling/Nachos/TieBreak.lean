import Mathlib

/-! Agreement of several servers on who creates one name. A server that wants to create
asks all others and creates once everyone has denied the name. A server that is itself
pending denies only an asker above it that has not denied it before; it postpones its
answer to all others until its own create is decided. Channels are FIFO. -/
namespace Nachos.TieBreak
open Function

inductive Msg
  | ask (id : ℕ)
  | answer (has : Bool) (id : ℕ)
  deriving DecidableEq

def Msg.answers (id : ℕ) : Msg → Bool
  | .ask _ => false
  | .answer _ n => n = id

@[simp] theorem Msg.answers_ask (id n : ℕ) : Msg.answers id (.ask n) = false := rfl

@[simp] theorem Msg.answers_answer (id n : ℕ) (has : Bool) :
    Msg.answers id (.answer has n) = decide (n = id) := rfl

/-- A create that waits for the others: who denied the name so far, and the queries
whose answer waits for its outcome. -/
structure Pend (ι : Type*) where
  id : ℕ
  heard : Finset ι
  count : ℕ
  postponed : List (ι × ℕ)

@[ext]
structure State (ι : Type*) where
  holds : ι → Prop
  pend : ι → Option (Pend ι)
  next : ι → ℕ
  chan : ι → ι → List Msg

variable {ι : Type*} [LinearOrder ι] {servers : Finset ι}

/-- Messages that `b` sends, one list for each receiver. -/
def send (chan : ι → ι → List Msg) (b : ι) (out : ι → List Msg) : ι → ι → List Msg :=
  fun x y => chan x y ++ if x = b then out y else []

/-- The oldest message from `a` to `b` is consumed. -/
def drop (chan : ι → ι → List Msg) (a b : ι) : ι → ι → List Msg :=
  fun x y => if x = a ∧ y = b then (chan x y).tail else chan x y

def only (a : ι) (m : Msg) : ι → List Msg := fun y => if y = a then [m] else []

/-- Answers that nobody waits for any more. -/
def State.Noise (s : State ι) (out : ι → List Msg) : Prop :=
  ∀ y m, m ∈ out y → ∃ has id, m = .answer has id ∧ id < s.next y ∧
    ∀ p, s.pend y = some p → p.id ≠ id

inductive Event (ι : Type*)
  | other
  | postpone (a b : ι)
  | complete (b : ι) (created : Prop)

/-- One step at server `b`, which consumes a message of `a` in all cases but the first two. -/
inductive Step (servers : Finset ι) : Event ι → State ι → State ι → Prop
  | stray {s : State ι} (b : ι) (n : ℕ) (out : ι → List Msg) (hn : s.next b ≤ n)
      (hout : s.Noise out) :
      Step servers .other s
        { s with next := update s.next b n, chan := send s.chan b out }
  | start {s : State ι} (b : ι) (n : ℕ) (hb : b ∈ servers) (hh : ¬ s.holds b)
      (hp : s.pend b = none) (hn : s.next b < n) :
      Step servers .other s
        { s with
          pend := update s.pend b (some ⟨s.next b, ∅, 0, []⟩)
          next := update s.next b n
          chan := send s.chan b fun y => if y ∈ servers ∧ y ≠ b then [.ask (s.next b)] else [] }
  | ignore {s : State ι} (a b : ι) (has : Bool) (id : ℕ) (rest : List Msg) (out : ι → List Msg)
      (hc : s.chan a b = .answer has id :: rest) (hid : ∀ p, s.pend b = some p → p.id ≠ id)
      (hout : s.Noise out) :
      Step servers .other s { s with chan := send (drop s.chan a b) b out }
  | confirm {s : State ι} (a b : ι) (id : ℕ) (rest : List Msg)
      (hc : s.chan a b = .ask id :: rest) (hh : s.holds b) :
      Step servers .other s
        { s with chan := send (drop s.chan a b) b (only a (.answer true id)) }
  | deny {s : State ι} (a b : ι) (id : ℕ) (rest : List Msg)
      (hc : s.chan a b = .ask id :: rest) (hh : ¬ s.holds b)
      (hp : ∀ q, s.pend b = some q → a ∉ q.heard ∧ ¬ b < a) :
      Step servers .other s
        { s with chan := send (drop s.chan a b) b (only a (.answer false id)) }
  | postpone {s : State ι} (a b : ι) (id : ℕ) (rest : List Msg) (q : Pend ι)
      (hc : s.chan a b = .ask id :: rest) (hh : ¬ s.holds b) (hq : s.pend b = some q)
      (hp : a ∈ q.heard ∨ b < a) :
      Step servers (.postpone a b) s
        { s with
          pend := update s.pend b (some { q with postponed := q.postponed ++ [(a, id)] })
          chan := drop s.chan a b }
  | yield {s : State ι} (a b : ι) (rest : List Msg) (q : Pend ι)
      (hc : s.chan a b = .answer true q.id :: rest) (hq : s.pend b = some q) :
      Step servers .other s
        { s with pend := update s.pend b none, chan := drop s.chan a b }
  | count {s : State ι} (a b : ι) (rest : List Msg) (q : Pend ι)
      (hc : s.chan a b = .answer false q.id :: rest) (hq : s.pend b = some q)
      (hn : q.count + 2 ≠ servers.card) :
      Step servers .other s
        { s with
          pend := update s.pend b
            (some { q with heard := insert a q.heard, count := q.count + 1 })
          chan := drop s.chan a b }
  | complete {s : State ι} (a b : ι) (rest : List Msg) (q : Pend ι) (created : Prop)
      (hc : s.chan a b = .answer false q.id :: rest) (hq : s.pend b = some q)
      (hn : q.count + 2 = servers.card) :
      Step servers (.complete b created) s
        { s with
          holds := fun x => s.holds x ∨ x = b ∧ created
          pend := update s.pend b none
          chan := send (drop s.chan a b) b fun y =>
            (q.postponed.filter fun r => r.1 = y).map fun r => .answer true r.2 }

/-! How channels change. -/

theorem mem_send {chan : ι → ι → List Msg} {b : ι} {out : ι → List Msg} {x y : ι} {m : Msg} :
    m ∈ send chan b out x y ↔ m ∈ chan x y ∨ x = b ∧ m ∈ out y := by
  unfold send
  split_ifs with h <;> simp [h]

theorem drop_sublist (chan : ι → ι → List Msg) (a b x y : ι) :
    (drop chan a b x y).Sublist (chan x y) := by
  unfold drop
  split_ifs
  · exact List.tail_sublist _
  · exact List.Sublist.refl _

theorem mem_of_mem_drop {chan : ι → ι → List Msg} {a b x y : ι} {m : Msg}
    (h : m ∈ drop chan a b x y) : m ∈ chan x y := (drop_sublist chan a b x y).subset h

theorem countP_send (chan : ι → ι → List Msg) (b : ι) (out : ι → List Msg) (x y : ι)
    (P : Msg → Bool) :
    (send chan b out x y).countP P =
      (chan x y).countP P + if x = b then (out y).countP P else 0 := by
  unfold send
  split_ifs <;> simp

theorem countP_drop {chan : ι → ι → List Msg} {a b : ι} {m : Msg} {rest : List Msg}
    (hc : chan a b = m :: rest) (x y : ι) (P : Msg → Bool) :
    (drop chan a b x y).countP P + (if x = a ∧ y = b ∧ P m then 1 else 0) =
      (chan x y).countP P := by
  unfold drop
  by_cases h : x = a ∧ y = b
  · obtain ⟨rfl, rfl⟩ := h
    simp [hc, List.countP_cons]
  · rw [if_neg h, if_neg (fun hh => h ⟨hh.1, hh.2.1⟩), Nat.add_zero]

theorem countP_only (a y : ι) (m : Msg) (P : Msg → Bool) :
    (only a m y).countP P = if y = a ∧ P m then 1 else 0 := by
  unfold only
  by_cases h : y = a <;> simp [h, List.countP_cons]

/-- Two messages that were neither in order before have the second one sent now. -/
theorem pair_sublist_append {l₁ l₂ : List Msg} {m n : Msg} (h : [m, n].Sublist (l₁ ++ l₂)) :
    [m, n].Sublist l₁ ∨ n ∈ l₂ := by
  obtain ⟨k₁, k₂, hk, h₁, h₂⟩ := List.sublist_append_iff.mp h
  cases k₂ with
  | nil =>
    rw [List.append_nil] at hk
    exact Or.inl (hk ▸ h₁)
  | cons c cs =>
    have hn : n ∈ c :: cs := by
      have hlast : (k₁ ++ c :: cs).getLast? = some n := by rw [← hk]; rfl
      rw [List.getLast?_append_of_ne_nil _ (by simp)] at hlast
      exact List.mem_of_getLast? hlast
    exact Or.inr (h₂.subset hn)

theorem pair_sublist_send {chan : ι → ι → List Msg} {b : ι} {out : ι → List Msg} {x y : ι}
    {m n : Msg} (h : [m, n].Sublist (send chan b out x y)) :
    [m, n].Sublist (chan x y) ∨ x = b ∧ n ∈ out y := by
  rcases pair_sublist_append h with h | h
  · exact Or.inl h
  · split_ifs at h with hx
    · exact Or.inr ⟨hx, h⟩
    · simp at h

/-! Where a query of a pending create is: on its way, answered on the way back,
postponed, or counted. -/

def State.postponed (s : State ι) (j : ι) : List (ι × ℕ) :=
  (s.pend j).elim [] Pend.postponed

def State.tokens (s : State ι) (i : ι) (p : Pend ι) (j : ι) : ℕ :=
  (s.chan i j).countP (· = .ask p.id) + (s.chan j i).countP (Msg.answers p.id) +
    (s.postponed j).count (i, p.id) + if j ∈ p.heard then 1 else 0

/-- Query ids in use are below the next one, and no query is there twice. -/
structure Ledger (servers : Finset ι) (s : State ι) : Prop where
  pend_lt : ∀ i p, s.pend i = some p → p.id < s.next i
  ask_lt : ∀ i j id, .ask id ∈ s.chan i j → id < s.next i
  answer_lt : ∀ i j has id, .answer has id ∈ s.chan j i → id < s.next i
  postponed_lt : ∀ i j id, (i, id) ∈ s.postponed j → id < s.next i
  once : ∀ i p, s.pend i = some p → ∀ j,
    s.tokens i p j ≤ if j ∈ servers ∧ j ≠ i then 1 else 0

omit [LinearOrder ι] in
theorem State.postponed_of_pend {s : State ι} {b : ι} {q : Pend ι} (h : s.pend b = some q) :
    s.postponed b = q.postponed := by
  simp [State.postponed, h]

/-- The answers to the postponed queries of one asker. -/
theorem countP_answers_postponed (l : List (ι × ℕ)) (y : ι) (id : ℕ) :
    (((l.filter fun r => decide (r.1 = y)).map fun r => Msg.answer true r.2).countP
      (Msg.answers id)) = l.count (y, id) := by
  induction l with
  | nil => rfl
  | cons r l ih =>
    obtain ⟨x, n⟩ := r
    by_cases hx : x = y
    · subst hx
      by_cases hn : n = id <;> simp [hn, ih]
    · simp [hx, ih]

section Noise
omit [LinearOrder ι]
variable {s : State ι} {out : ι → List Msg}

theorem State.Noise.countP_answers (h : s.Noise out) {y : ι} {p : Pend ι}
    (hp : s.pend y = some p) : (out y).countP (Msg.answers p.id) = 0 := by
  rw [List.countP_eq_zero]
  intro m hm
  obtain ⟨has, id, rfl, -, hid⟩ := h y m hm
  simpa using fun he => hid p hp he.symm

theorem State.Noise.countP_asks (h : s.Noise out) (y : ι) (id : ℕ) :
    (out y).countP (· = .ask id) = 0 := by
  rw [List.countP_eq_zero]
  intro m hm
  obtain ⟨has, n, rfl, -, -⟩ := h y m hm
  simp

theorem State.Noise.no_answer (h : s.Noise out) {y : ι} {p : Pend ι} {has : Bool}
    (hp : s.pend y = some p) : .answer has p.id ∉ out y := by
  intro hm
  obtain ⟨has', id, he, -, hid⟩ := h y _ hm
  exact hid p hp (Msg.answer.inj he).2

end Noise

omit [LinearOrder ι] in
theorem State.noise_nothing (s : State ι) : s.Noise fun _ => [] := by
  intro y m hm
  simp at hm

theorem send_nothing (chan : ι → ι → List Msg) (b : ι) : send chan b (fun _ => []) = chan := by
  funext x y
  simp [send]

section Tokens
variable {s s' : State ι} {e : Event ι}

/-- A server that takes some ids sends nothing. -/
theorem Step.tick (s : State ι) (b : ι) {n : ℕ} (hn : s.next b ≤ n) :
    Step servers .other s { s with next := update s.next b n } := by
  have h : Step servers .other s _ := Step.stray b n (fun _ => []) hn s.noise_nothing
  rwa [send_nothing] at h

/-- Noise alone. -/
theorem Step.noise (s : State ι) (b : ι) {out : ι → List Msg} (hout : s.Noise out) :
    Step servers .other s { s with chan := send s.chan b out } := by
  have h : Step servers .other s _ := Step.stray b (s.next b) out le_rfl hout
  rwa [update_eq_self] at h

/-- A server that learns that the name exists forgets whom it had postponed. -/
def Forgets (s s' : State ι) (j : ι) : Prop :=
  ∃ a q, s.pend j = some q ∧ .answer true q.id ∈ s.chan a j ∧ s'.pend j = none

/-- A pending create is new and has just asked every other server, or its queries keep
their place in the ledger. -/
def Carried (servers : Finset ι) (s s' : State ι) (i : ι) (p' : Pend ι) : Prop :=
  (s.pend i = none ∧ p'.id = s.next i ∧ p'.heard = ∅ ∧ p'.count = 0 ∧
    ∀ j, s'.tokens i p' j = if j ∈ servers ∧ j ≠ i then 1 else 0) ∨
  ∃ p, s.pend i = some p ∧ p'.id = p.id ∧ ∀ j,
    s'.tokens i p' j = s.tokens i p j ∨ s'.tokens i p' j ≤ s.tokens i p j ∧ Forgets s s' j

theorem Carried.kept {i : ι} {p p' : Pend ι} (hp : s.pend i = some p) (hid : p'.id = p.id)
    (h : ∀ j, s'.tokens i p' j = s.tokens i p j) : Carried servers s s' i p' :=
  Or.inr ⟨p, hp, hid, fun j => Or.inl (h j)⟩

theorem Ledger.unused (hl : Ledger servers s) (i j : ι) :
    (s.chan i j).countP (· = .ask (s.next i)) = 0 ∧
      (s.chan j i).countP (Msg.answers (s.next i)) = 0 ∧
      (s.postponed j).count (i, s.next i) = 0 := by
  refine ⟨?_, ?_, ?_⟩
  · rw [List.countP_eq_zero]
    intro m hm he
    have := hl.ask_lt i j (s.next i) (by simpa using (of_decide_eq_true he) ▸ hm)
    omega
  · rw [List.countP_eq_zero]
    intro m hm he
    cases m with
    | ask => simp at he
    | answer has id =>
      have := hl.answer_lt i j has id hm
      simp only [Msg.answers_answer, decide_eq_true_eq] at he
      omega
  · rw [List.count_eq_zero]
    intro hm
    have := hl.postponed_lt i j _ hm
    omega

theorem carried_start {b i : ι} {n : ℕ} {p' : Pend ι} (hl : Ledger servers s)
    (hpb : s.pend b = none)
    (hs : s' = { s with
      pend := update s.pend b (some ⟨s.next b, ∅, 0, []⟩)
      next := update s.next b n
      chan := send s.chan b fun y => if y ∈ servers ∧ y ≠ b then [.ask (s.next b)] else [] })
    (hp' : s'.pend i = some p') : Carried servers s s' i p' := by
  subst hs
  have hpost : ∀ j, State.postponed { s with
      pend := update s.pend b (some ⟨s.next b, ∅, 0, []⟩)
      next := update s.next b n
      chan := send s.chan b fun y => if y ∈ servers ∧ y ≠ b then [.ask (s.next b)] else [] } j =
      s.postponed j := by
    intro j
    by_cases hj : j = b
    · subst hj
      simp [State.postponed, hpb]
    · simp [State.postponed, update_of_ne hj]
  by_cases hib : i = b
  · subst hib
    obtain rfl : ⟨s.next i, ∅, 0, []⟩ = p' := by simpa using hp'
    refine Or.inl ⟨hpb, rfl, rfl, rfl, fun j => ?_⟩
    obtain ⟨h1, h2, h3⟩ := hl.unused i j
    have h4 : (if j ∈ servers ∧ j ≠ i then [Msg.ask (s.next i)] else []).countP
        (· = .ask (s.next i)) = if j ∈ servers ∧ j ≠ i then 1 else 0 := by
      split_ifs <;> simp
    simp only [State.tokens, countP_send, hpost, h1, h2, h3, h4, if_true, Finset.notMem_empty,
      if_false, ne_eq, not_true_eq_false, and_false, List.countP_nil, ite_self, Nat.zero_add,
      Nat.add_zero]
  · have hp : s.pend i = some p' := by simpa [update_of_ne hib] using hp'
    refine Carried.kept hp rfl fun j => ?_
    by_cases hj : j = b <;> by_cases hi : i ∈ servers <;>
      simp [State.tokens, countP_send, hpost, hib, hj, hi]

/-- The answer to a query takes its place. -/
theorem tokens_answered {a b i : ι} {has : Bool} {id : ℕ} {rest : List Msg} {p : Pend ι}
    (hc : s.chan a b = .ask id :: rest) (j : ι) :
    State.tokens { s with chan := send (drop s.chan a b) b (only a (.answer has id)) } i p j =
      s.tokens i p j := by
  have h1 := countP_drop hc i j (· = .ask p.id)
  have h2 := countP_drop hc j i (Msg.answers p.id)
  simp only [Msg.answers_ask, Msg.ask.injEq, Bool.false_eq_true, and_false, if_false,
    decide_eq_true_eq] at h1 h2
  simp only [State.tokens, State.postponed, countP_send, countP_only, Msg.answers_answer,
    decide_eq_true_eq, reduceCtorEq, decide_false, Bool.false_eq_true, and_false, if_false]
  split_ifs at h1 ⊢ <;> simp_all <;> omega

/-- A postponed query is noted at the server that postpones it. -/
theorem tokens_postponed {a b i : ι} {id : ℕ} {rest : List Msg} {p p' q : Pend ι}
    (hc : s.chan a b = .ask id :: rest) (hq : s.pend b = some q) (hid : p'.id = p.id)
    (hh : p'.heard = p.heard) (j : ι) :
    State.tokens { s with
      pend := update s.pend b (some { q with postponed := q.postponed ++ [(a, id)] })
      chan := drop s.chan a b } i p' j = s.tokens i p j := by
  have h1 := countP_drop hc i j (· = .ask p.id)
  have h2 := countP_drop hc j i (Msg.answers p.id)
  simp only [Msg.answers_ask, Msg.ask.injEq, Bool.false_eq_true, and_false, if_false,
    decide_eq_true_eq, Nat.add_zero] at h1 h2
  simp only [State.tokens, State.postponed, hid, hh, h2, update_apply]
  by_cases hj : j = b
  · subst hj
    by_cases hia : i = a ∧ id = p.id
    · obtain ⟨rfl, rfl⟩ := hia
      simp [hq] at h1 ⊢
      omega
    · have hne : ¬ (a, id) = (i, p.id) := fun he => hia ⟨(Prod.mk.inj he).1.symm, (Prod.mk.inj he).2⟩
      simp [hq, hne] at h1 ⊢
      rw [if_neg (by tauto)] at h1
      omega
  · simp [hj] at h1 ⊢
    omega

/-- An answer that is consumed is not one to a query of another server. -/
theorem countP_drop_answer {a b i : ι} {has : Bool} {id : ℕ} {rest : List Msg}
    (hc : s.chan a b = .answer has id :: rest) (hib : i ≠ b) (j : ι) (n : ℕ) :
    (drop s.chan a b i j).countP (· = .ask n) = (s.chan i j).countP (· = .ask n) ∧
      (drop s.chan a b j i).countP (Msg.answers n) = (s.chan j i).countP (Msg.answers n) := by
  have h1 := countP_drop hc i j (· = .ask n)
  have h2 := countP_drop hc j i (Msg.answers n)
  simp only [hib, reduceCtorEq, decide_false, Bool.false_eq_true, and_false, false_and,
    if_false, Nat.add_zero] at h1 h2
  exact ⟨h1, h2⟩

theorem Step.carried (h : Step servers e s s') (hl : Ledger servers s) {i : ι} {p' : Pend ι}
    (hp' : s'.pend i = some p') : Carried servers s s' i p' := by
  cases h with
  | stray b n out hn hout =>
    refine Carried.kept hp' rfl fun j => ?_
    simp only [State.tokens, State.postponed, countP_send, hout.countP_asks j,
      hout.countP_answers hp', ite_self, Nat.add_zero]
  | start b n hb hh hpb hn => exact carried_start hl hpb rfl hp'
  | ignore a b has id rest out hc hid hout =>
    refine Carried.kept hp' rfl fun j => ?_
    have h1 := countP_drop hc i j (· = .ask p'.id)
    have h2 := countP_drop hc j i (Msg.answers p'.id)
    have h3 : ¬ (j = a ∧ i = b ∧ Msg.answers p'.id (.answer has id)) := by
      rintro ⟨-, rfl, he⟩
      exact hid p' hp' (of_decide_eq_true he).symm
    simp only [h3, if_false, reduceCtorEq, decide_false, Bool.false_eq_true, and_false,
      Nat.add_zero] at h1 h2
    simp only [State.tokens, State.postponed, countP_send, hout.countP_asks j,
      hout.countP_answers hp', ite_self, Nat.add_zero, h1, h2]
  | confirm a b id rest hc hh => exact Carried.kept hp' rfl fun j => tokens_answered hc j
  | deny a b id rest hc hh hp => exact Carried.kept hp' rfl fun j => tokens_answered hc j
  | postpone a b id rest q hc hh hq hp =>
    by_cases hib : i = b
    · subst hib
      obtain rfl : { q with postponed := q.postponed ++ [(a, id)] } = p' := by simpa using hp'
      exact Carried.kept hq rfl fun j => tokens_postponed hc hq rfl rfl j
    · have hpi : s.pend i = some p' := by simpa [update_of_ne hib] using hp'
      exact Carried.kept hpi rfl fun j => tokens_postponed hc hq rfl rfl j
  | yield a b rest q hc hq =>
    have hib : i ≠ b := by
      rintro rfl
      simp at hp'
    have hpi : s.pend i = some p' := by simpa [update_of_ne hib] using hp'
    refine Or.inr ⟨p', hpi, rfl, fun j => ?_⟩
    obtain ⟨h1, h2⟩ := countP_drop_answer hc hib j p'.id
    by_cases hj : j = b
    · subst hj
      refine Or.inr ⟨?_, a, q, hq, by simp [hc], by simp⟩
      simp only [State.tokens, State.postponed, h1, h2, update_self, Option.elim_none,
        List.count_nil]
      omega
    · left
      simp only [State.tokens, State.postponed, h1, h2, update_of_ne hj]
  | count a b rest q hc hq hn =>
    have hpost : ∀ j, State.postponed { s with
        pend := update s.pend b
          (some { q with heard := insert a q.heard, count := q.count + 1 })
        chan := drop s.chan a b } j = s.postponed j := by
      intro j
      by_cases hj : j = b
      · subst hj
        simp [State.postponed, hq]
      · simp [State.postponed, update_of_ne hj]
    by_cases hib : i = b
    · subst hib
      obtain rfl : { q with heard := insert a q.heard, count := q.count + 1 } = p' := by
        simpa using hp'
      refine Carried.kept hq rfl fun j => ?_
      have h0 := hl.once i q hq a
      have h1 := countP_drop hc i j (· = .ask q.id)
      have h2 := countP_drop hc j i (Msg.answers q.id)
      simp only [State.tokens, hc, List.countP_cons, Msg.answers_answer, decide_true, if_true] at h0
      simp only [Msg.answers_answer, decide_true, and_true, reduceCtorEq, decide_false,
        Bool.false_eq_true, and_false, if_false, Nat.add_zero] at h1 h2
      simp only [State.tokens, hpost, h1, Finset.mem_insert]
      by_cases hja : j = a
      · subst hja
        split_ifs at h0 h2 ⊢ <;> simp_all
        omega
      · rw [if_neg hja] at h2
        simp only [hja, false_or, ← h2, Nat.add_zero]
    · have hpi : s.pend i = some p' := by simpa [update_of_ne hib] using hp'
      refine Carried.kept hpi rfl fun j => ?_
      obtain ⟨h1, h2⟩ := countP_drop_answer hc hib j p'.id
      simp only [State.tokens, hpost, h1, h2]
  | complete a b rest q created hc hq hn =>
    have hib : i ≠ b := by
      rintro rfl
      simp at hp'
    have hpi : s.pend i = some p' := by simpa [update_of_ne hib] using hp'
    refine Carried.kept hpi rfl fun j => ?_
    obtain ⟨h1, h2⟩ := countP_drop_answer hc hib j p'.id
    by_cases hj : j = b
    · subst hj
      simp only [State.tokens, State.postponed, countP_send, countP_answers_postponed, hib, hq,
        h1, h2, update_self, Option.elim_none, Option.elim_some, List.count_nil, if_true, if_false]
      omega
    · simp only [State.tokens, State.postponed, countP_send, hib, hj, h1, h2, update_of_ne hj,
        if_false, Nat.add_zero]

/-- Ids and queries of the next state, each from the state before or within its bound. -/
theorem Ledger.next (hl : Ledger servers s) (hnext : ∀ i, s.next i ≤ s'.next i)
    (hpend : ∀ i p, s.pend i = none → s'.pend i = some p → p.id < s'.next i)
    (hask : ∀ i j id, .ask id ∈ s'.chan i j → .ask id ∈ s.chan i j ∨ id < s'.next i)
    (hanswer : ∀ i j has id, .answer has id ∈ s'.chan j i →
      .answer has id ∈ s.chan j i ∨ id < s.next i)
    (hpost : ∀ i j id, (i, id) ∈ s'.postponed j → (i, id) ∈ s.postponed j ∨ id < s.next i)
    (hc : ∀ i p', s'.pend i = some p' → Carried servers s s' i p') : Ledger servers s' := by
  refine ⟨?_, ?_, ?_, ?_, ?_⟩
  · intro i p' hp'
    rcases hc i p' hp' with ⟨hp, -⟩ | ⟨p, hp, hid, -⟩
    · exact hpend i p' hp hp'
    · exact hid ▸ (hl.pend_lt i p hp).trans_le (hnext i)
  · intro i j id hm
    rcases hask i j id hm with h | h
    · exact (hl.ask_lt i j id h).trans_le (hnext i)
    · exact h
  · intro i j has id hm
    rcases hanswer i j has id hm with h | h
    · exact (hl.answer_lt i j has id h).trans_le (hnext i)
    · exact h.trans_le (hnext i)
  · intro i j id hm
    rcases hpost i j id hm with h | h
    · exact (hl.postponed_lt i j id h).trans_le (hnext i)
    · exact h.trans_le (hnext i)
  · intro i p' hp' j
    rcases hc i p' hp' with ⟨-, -, -, -, ht⟩ | ⟨p, hp, -, ht⟩
    · exact (ht j).le
    · have hle : s'.tokens i p' j ≤ s.tokens i p j := by
        rcases ht j with h | h
        · exact h.le
        · exact h.1
      exact hle.trans (hl.once i p hp j)

omit [LinearOrder ι] in
theorem update_le {b : ι} {n : ℕ} [DecidableEq ι] (hn : s.next b ≤ n) (i : ι) :
    s.next i ≤ update s.next b n i := by
  by_cases hi : i = b
  · subst hi
    simpa using hn
  · simp [update_of_ne hi]

theorem answered_ledger {a b : ι} {has : Bool} {id : ℕ} {rest : List Msg}
    (hl : Ledger servers s) (hcab : s.chan a b = .ask id :: rest)
    (hs : s' = { s with chan := send (drop s.chan a b) b (only a (.answer has id)) })
    (hc : ∀ i p', s'.pend i = some p' → Carried servers s s' i p') : Ledger servers s' := by
  subst hs
  refine hl.next (fun _ => le_rfl) (fun i p hi hp => ?_) (fun i j n hm => ?_)
    (fun i j has' n hm => ?_) (fun i j n hm => Or.inl hm) hc
  · simp [hi] at hp
  · rcases mem_send.mp hm with hm | ⟨-, hm⟩
    · exact Or.inl (mem_of_mem_drop hm)
    · unfold only at hm
      split_ifs at hm <;> simp at hm
  · rcases mem_send.mp hm with hm | ⟨-, hm⟩
    · exact Or.inl (mem_of_mem_drop hm)
    · unfold only at hm
      split_ifs at hm with hi
      · obtain ⟨-, rfl⟩ := Msg.answer.inj (List.mem_singleton.mp hm)
        exact Or.inr (hi ▸ hl.ask_lt a b n (by simp [hcab]))
      · simp at hm

/-- No create starts when the entry of a server that was pending is updated. -/
theorem not_started {b i : ι} {c : Option (Pend ι)} {p : Pend ι} {P : Prop}
    (hb : s.pend b ≠ none) (hi : s.pend i = none) (hp : update s.pend b c i = some p) : P := by
  by_cases h : i = b
  · exact (hb (h ▸ hi)).elim
  · rw [update_of_ne h, hi] at hp
    cases hp

theorem mem_postponed_update {b j : ι} {c : Option (Pend ι)} {r : ι × ℕ}
    (hs : s'.pend = update s.pend b c) (h : r ∈ s'.postponed j) :
    (j = b ∧ ∃ q, c = some q ∧ r ∈ q.postponed) ∨ r ∈ s.postponed j := by
  unfold State.postponed at h
  rw [hs] at h
  by_cases hj : j = b
  · subst hj
    rw [update_self] at h
    cases c with
    | none => simp at h
    | some q => exact Or.inl ⟨rfl, q, rfl, h⟩
  · rw [update_of_ne hj] at h
    exact Or.inr h

theorem Step.ledger (h : Step servers e s s') (hl : Ledger servers s) : Ledger servers s' := by
  have hc : ∀ i p', s'.pend i = some p' → Carried servers s s' i p' :=
    fun i p' hp' => h.carried hl hp'
  cases h with
  | stray b n out hn hout =>
    refine hl.next (update_le hn) (fun i p hi hp => ?_) (fun i j id hm => ?_)
      (fun i j has id hm => ?_) (fun i j id hm => Or.inl hm) hc
    · simp [hi] at hp
    · rcases mem_send.mp hm with hm | ⟨-, hm⟩
      · exact Or.inl hm
      · obtain ⟨has, n, he, -⟩ := hout j _ hm
        cases he
    · rcases mem_send.mp hm with hm | ⟨-, hm⟩
      · exact Or.inl hm
      · obtain ⟨has, n, he, hlt, -⟩ := hout i _ hm
        obtain ⟨-, rfl⟩ := Msg.answer.inj he
        exact Or.inr hlt
  | start b n hb hh hpb hn =>
    refine hl.next (update_le hn.le) (fun i p hi hp => ?_) (fun i j id hm => ?_)
      (fun i j has id hm => ?_) (fun i j id hm => ?_) hc
    · by_cases hib : i = b
      · subst hib
        obtain rfl : ⟨s.next i, ∅, 0, []⟩ = p := by simpa using hp
        simpa using hn
      · simp [update_of_ne hib, hi] at hp
    · dsimp only at hm
      rcases mem_send.mp hm with hm | ⟨rfl, hm⟩
      · exact Or.inl hm
      · split_ifs at hm with hj
        · obtain rfl : id = s.next i := by simpa using hm
          exact Or.inr (by simpa using hn)
        · simp at hm
    · dsimp only at hm
      rcases mem_send.mp hm with hm | ⟨-, hm⟩
      · exact Or.inl hm
      · split_ifs at hm <;> simp at hm
    · rcases mem_postponed_update rfl hm with ⟨-, q', hq', hm⟩ | hm
      · obtain rfl := Option.some.inj hq'
        simp at hm
      · exact Or.inl hm
  | ignore a b has id rest out hcab hid hout =>
    refine hl.next (fun _ => le_rfl) (fun i p hi hp => ?_) (fun i j id hm => ?_)
      (fun i j has id hm => ?_) (fun i j id hm => Or.inl hm) hc
    · simp [hi] at hp
    · rcases mem_send.mp hm with hm | ⟨-, hm⟩
      · exact Or.inl (mem_of_mem_drop hm)
      · obtain ⟨has, n, he, -⟩ := hout j _ hm
        cases he
    · rcases mem_send.mp hm with hm | ⟨-, hm⟩
      · exact Or.inl (mem_of_mem_drop hm)
      · obtain ⟨has, n, he, hlt, -⟩ := hout i _ hm
        obtain ⟨-, rfl⟩ := Msg.answer.inj he
        exact Or.inr hlt
  | confirm a b id rest hcab hh => exact answered_ledger hl hcab rfl hc
  | deny a b id rest hcab hh hp => exact answered_ledger hl hcab rfl hc
  | postpone a b id rest q hcab hh hq hp =>
    refine hl.next (fun _ => le_rfl) (fun i p => not_started (by simp [hq]))
      (fun i j id hm => Or.inl (mem_of_mem_drop hm))
      (fun i j has id hm => Or.inl (mem_of_mem_drop hm)) (fun i j n hm => ?_) hc
    rcases mem_postponed_update rfl hm with ⟨rfl, q', hq', hm⟩ | hm
    · obtain rfl := Option.some.inj hq'
      rcases List.mem_append.mp hm with hm | hm
      · exact Or.inl (by rwa [State.postponed_of_pend hq])
      · obtain ⟨rfl, rfl⟩ := Prod.mk.inj (List.mem_singleton.mp hm)
        exact Or.inr (hl.ask_lt i j n (by simp [hcab]))
    · exact Or.inl hm
  | yield a b rest q hcab hq =>
    refine hl.next (fun _ => le_rfl) (fun i p => not_started (by simp [hq]))
      (fun i j id hm => Or.inl (mem_of_mem_drop hm))
      (fun i j has id hm => Or.inl (mem_of_mem_drop hm)) (fun i j n hm => ?_) hc
    rcases mem_postponed_update rfl hm with ⟨-, q', hq', -⟩ | hm
    · cases hq'
    · exact Or.inl hm
  | count a b rest q hcab hq hn =>
    refine hl.next (fun _ => le_rfl) (fun i p => not_started (by simp [hq]))
      (fun i j id hm => Or.inl (mem_of_mem_drop hm))
      (fun i j has id hm => Or.inl (mem_of_mem_drop hm)) (fun i j n hm => ?_) hc
    rcases mem_postponed_update rfl hm with ⟨rfl, q', hq', hm⟩ | hm
    · obtain rfl := Option.some.inj hq'
      exact Or.inl (by rwa [State.postponed_of_pend hq])
    · exact Or.inl hm
  | complete a b rest q created hcab hq hn =>
    refine hl.next (fun _ => le_rfl) (fun i p => not_started (by simp [hq]))
      (fun i j id hm => ?_) (fun i j has id hm => ?_) (fun i j n hm => ?_) hc
    · dsimp only at hm
      rcases mem_send.mp hm with hm | ⟨-, hm⟩
      · exact Or.inl (mem_of_mem_drop hm)
      · simp at hm
    · dsimp only at hm
      rcases mem_send.mp hm with hm | ⟨rfl, hout⟩
      · exact Or.inl (mem_of_mem_drop hm)
      · obtain ⟨⟨x, n⟩, hr, he⟩ := List.mem_map.mp hout
        obtain ⟨-, rfl⟩ := Msg.answer.inj he
        obtain ⟨hr, hx⟩ := List.mem_filter.mp hr
        obtain rfl : x = i := of_decide_eq_true hx
        exact Or.inr (hl.postponed_lt x j n (by rwa [State.postponed_of_pend hq]))
    · rcases mem_postponed_update rfl hm with ⟨-, q', hq', -⟩ | hm
      · cases hq'
      · exact Or.inl hm

def State.initial : State ι := ⟨fun _ => False, fun _ => none, fun _ => 0, fun _ _ => []⟩

omit [LinearOrder ι] in
theorem ledger_initial [LinearOrder ι] : Ledger servers (State.initial : State ι) := by
  refine ⟨?_, ?_, ?_, ?_, ?_⟩ <;> simp [State.initial, State.postponed]

end Tokens

end Nachos.TieBreak
