import Nachos.TieBreakSafety

/-! When nothing is in flight, a create is still pending exactly when the postponed
answers form a cycle. A cycle is only closed by postponing the answer to a server that
the postponing server itself waits for. -/
namespace Nachos.TieBreak
open Function Relation

variable {ι : Type*} [LinearOrder ι] {servers : Finset ι} {s s' : State ι} {e : Event ι}

/-- Server `j` has postponed its answer to the pending create of `i`. -/
def State.Waits (s : State ι) (i j : ι) : Prop :=
  ∃ p, s.pend i = some p ∧ (i, p.id) ∈ s.postponed j

/-- Steps in which a completed create does create. -/
def Event.Creates : Event ι → Prop
  | .complete _ created => created
  | _ => True

/-- Positive answers come from a holder, and the queries of a pending create are all
accounted for, but for those that a server forgot when it learnt of a holder. -/
structure Accounted (servers : Finset ι) (s : State ι) : Prop where
  truthful : ∀ m i p, s.pend i = some p → .answer true p.id ∈ s.chan m i → s.holds m
  tokens : ∀ i p, s.pend i = some p → ∀ j ∈ servers, j ≠ i →
    s.tokens i p j = 1 ∨ ∃ m, m ≠ j ∧ s.holds m

theorem Step.holds_mono (h : Step servers e s s') {m : ι} (hm : s.holds m) : s'.holds m := by
  cases h <;> first | exact hm | exact Or.inl hm

theorem Ledger.answered_ne (hl : Ledger servers s) {i j : ι} {p : Pend ι} {has : Bool}
    (hp : s.pend i = some p) (h : .answer has p.id ∈ s.chan j i) : j ≠ i := by
  intro hj
  have ho := hl.once i p hp j
  have h1 := answer_counted h
  rw [if_neg (fun hh => hh.2 hj)] at ho
  simp only [State.tokens] at ho
  omega

/-- What a step adds to the positive answers to a pending create. -/
theorem Step.truthful (h : Step servers e s s') (he : e.Creates) (hl : Ledger servers s)
    (ha : Accounted servers s) {m i : ι} {p' : Pend ι} (hp' : s'.pend i = some p')
    (hm : .answer true p'.id ∈ s'.chan m i) : s'.holds m := by
  have hdrop : ∀ {a b : ι} {c : Option (Pend ι)}, (∀ p', c = some p' → ∃ p, s.pend b = some p ∧
      p'.id = p.id) → update s.pend b c i = some p' →
      .answer true p'.id ∈ drop s.chan a b m i → s.holds m := by
    intro a b c hc hpi hmi
    rcases pend_update hpi with ⟨rfl, he⟩ | ⟨-, hpi⟩
    · obtain ⟨p, hp, hid⟩ := hc p' he
      exact ha.truthful m i p hp (hid ▸ mem_of_mem_drop hmi)
    · exact ha.truthful m i p' hpi (mem_of_mem_drop hmi)
  cases h with
  | stray b n out hn hout =>
    rcases mem_send.mp hm with hm | ⟨-, hm⟩
    · exact ha.truthful m i p' hp' hm
    · exact (hout.no_answer hp' hm).elim
  | start b n hb hh hpb hn =>
    have hm' : .answer true p'.id ∈ s.chan m i := by
      dsimp only at hm
      rcases mem_send.mp hm with hm | ⟨-, hm⟩
      · exact hm
      · split_ifs at hm <;> simp at hm
    rcases pend_update hp' with ⟨rfl, he⟩ | ⟨-, hp⟩
    · obtain rfl := Option.some.inj he
      exact ((hl.answer_lt i m true _ hm').ne rfl).elim
    · exact ha.truthful m i p' hp hm'
  | ignore a b has id rest out hc hid hout =>
    rcases mem_send.mp hm with hm | ⟨-, hm⟩
    · exact ha.truthful m i p' hp' (mem_of_mem_drop hm)
    · exact (hout.no_answer hp' hm).elim
  | confirm a b id rest hc hh =>
    rcases mem_send.mp hm with hm | ⟨rfl, hm⟩
    · exact ha.truthful m i p' hp' (mem_of_mem_drop hm)
    · exact hh
  | deny a b id rest hc hh hp =>
    rcases mem_send.mp hm with hm | ⟨-, hm⟩
    · exact ha.truthful m i p' hp' (mem_of_mem_drop hm)
    · unfold only at hm
      split_ifs at hm <;> simp at hm
  | postpone a b id rest q hc hh hq hp =>
    refine hdrop (fun p'' he => ?_) hp' hm
    obtain rfl := Option.some.inj he
    exact ⟨q, hq, rfl⟩
  | yield a b rest q hc hq => exact hdrop (fun p'' he => by cases he) hp' hm
  | count a b rest q hc hq hn =>
    refine hdrop (fun p'' he => ?_) hp' hm
    obtain rfl := Option.some.inj he
    exact ⟨q, hq, rfl⟩
  | complete a b rest q created hc hq hn =>
    dsimp only at hm
    rcases mem_send.mp hm with hm | ⟨rfl, -⟩
    · exact Or.inl (hdrop (fun p'' he => by cases he) hp' hm)
    · exact Or.inr ⟨rfl, he⟩

theorem Step.accounted (h : Step servers e s s') (he : e.Creates) (hl : Ledger servers s)
    (ha : Accounted servers s) : Accounted servers s' := by
  refine ⟨fun m i p' hp' hm => h.truthful he hl ha hp' hm, fun i p' hp' j hj hji => ?_⟩
  rcases h.carried hl hp' with ⟨-, -, -, -, ht⟩ | ⟨p, hp, -, ht⟩
  · exact Or.inl ((ht j).trans (if_pos ⟨hj, hji⟩))
  · rcases ht j with ht | ⟨-, a, q, hq, hm, -⟩
    · rcases ha.tokens i p hp j hj hji with h1 | ⟨m, hmj, hm⟩
      · exact Or.inl (ht.trans h1)
      · exact Or.inr ⟨m, hmj, h.holds_mono hm⟩
    · exact Or.inr ⟨a, hl.answered_ne hq hm, h.holds_mono (ha.truthful a j q hq hm)⟩

theorem accounted_initial : Accounted servers (State.initial : State ι) := by
  refine ⟨?_, ?_⟩ <;> simp [State.initial]

/-- Only postponing an answer makes a server wait. -/
theorem Step.waits (h : Step servers e s s') (hl : Ledger servers s) {i j : ι}
    (hw : s'.Waits i j) : s.Waits i j ∨ e = .postpone i j ∧ i ≠ j := by
  obtain ⟨p', hp', hr⟩ := hw
  have hkeep : ∀ {b : ι} {c : Option (Pend ι)}, (∀ p', c = some p' → ∃ p, s.pend b = some p ∧
      p'.id = p.id) → update s.pend b c i = some p' → (i, p'.id) ∈ s.postponed j → s.Waits i j := by
    intro b c hc hpi hri
    rcases pend_update hpi with ⟨rfl, he⟩ | ⟨-, hpi⟩
    · obtain ⟨p, hp, hid⟩ := hc p' he
      exact ⟨p, hp, hid ▸ hri⟩
    · exact ⟨p', hpi, hri⟩
  cases h with
  | stray b n out hn hout => exact Or.inl ⟨p', hp', hr⟩
  | start b n hb hh hpb hn =>
    left
    rcases mem_postponed_update rfl hr with ⟨-, q, hq, hr'⟩ | hr'
    · obtain rfl := Option.some.inj hq
      simp at hr'
    · rcases pend_update hp' with ⟨rfl, he⟩ | ⟨-, hp⟩
      · obtain rfl := Option.some.inj he
        exact ((hl.postponed_lt i j _ hr').ne rfl).elim
      · exact ⟨p', hp, hr'⟩
  | ignore a b has id rest out hc hid hout => exact Or.inl ⟨p', hp', hr⟩
  | confirm a b id rest hc hh => exact Or.inl ⟨p', hp', hr⟩
  | deny a b id rest hc hh hp => exact Or.inl ⟨p', hp', hr⟩
  | postpone a b id rest q hc hh hq hp =>
    have hold : ∀ p'', some { q with postponed := q.postponed ++ [(a, id)] } = some p'' →
        ∃ p, s.pend b = some p ∧ p''.id = p.id := by
      intro p'' he
      obtain rfl := Option.some.inj he
      exact ⟨q, hq, rfl⟩
    rcases mem_postponed_update rfl hr with ⟨rfl, q', hq', hr'⟩ | hr
    · obtain rfl := Option.some.inj hq'
      rcases List.mem_append.mp hr' with hr' | hr'
      · exact Or.inl (hkeep hold hp' (by rwa [State.postponed_of_pend hq]))
      · obtain ⟨rfl, rfl⟩ := Prod.mk.inj (List.mem_singleton.mp hr')
        refine Or.inr ⟨rfl, ?_⟩
        obtain ⟨p, hpi, hid⟩ : ∃ p, s.pend i = some p ∧ p'.id = p.id := by
          rcases pend_update hp' with ⟨rfl, he⟩ | ⟨-, hp⟩
          · exact hold p' he
          · exact ⟨p', hp, rfl⟩
        exact (hl.asked_ne hpi (by simp [hc, hid])).symm
    · exact Or.inl (hkeep hold hp' hr)
  | yield a b rest q hc hq =>
    left
    rcases mem_postponed_update rfl hr with ⟨-, q', hq', -⟩ | hr
    · cases hq'
    · exact hkeep (fun p'' he => by cases he) hp' hr
  | count a b rest q hc hq hn =>
    left
    have hold : ∀ p'', some { q with heard := insert a q.heard, count := q.count + 1 } = some p'' →
        ∃ p, s.pend b = some p ∧ p''.id = p.id := by
      intro p'' he
      obtain rfl := Option.some.inj he
      exact ⟨q, hq, rfl⟩
    rcases mem_postponed_update rfl hr with ⟨rfl, q', hq', hr'⟩ | hr
    · obtain rfl := Option.some.inj hq'
      exact hkeep hold hp' (by rwa [State.postponed_of_pend hq])
    · exact hkeep hold hp' hr
  | complete a b rest q created hc hq hn =>
    left
    rcases mem_postponed_update rfl hr with ⟨-, q', hq', -⟩ | hr
    · cases hq'
    · exact hkeep (fun p'' he => by cases he) hp' hr

/-! Cycles. -/

/-- A path over one more edge either avoids it or goes through it. -/
theorem transGen_insert {α : Type*} {r r' : α → α → Prop} {a b : α}
    (h : ∀ x y, r' x y → r x y ∨ x = a ∧ y = b) {x y : α} (hxy : TransGen r' x y) :
    TransGen r x y ∨ ReflTransGen r x a ∧ ReflTransGen r b y := by
  induction hxy with
  | single hstep =>
    rcases h _ _ hstep with hr | ⟨rfl, rfl⟩
    · exact Or.inl (.single hr)
    · exact Or.inr ⟨.refl, .refl⟩
  | tail _ hstep ih =>
    rcases h _ _ hstep with hr | ⟨rfl, rfl⟩
    · rcases ih with ih | ⟨h1, h2⟩
      · exact Or.inl (ih.tail hr)
      · exact Or.inr ⟨h1, h2.tail hr⟩
    · rcases ih with ih | ⟨h1, -⟩
      · exact Or.inr ⟨ih.to_reflTransGen, .refl⟩
      · exact Or.inr ⟨h1, .refl⟩

theorem acyclic_insert {α : Type*} {r r' : α → α → Prop} {a b : α}
    (h : ∀ x y, r' x y → r x y ∨ x = a ∧ y = b) (hne : a ≠ b) (hba : ¬ TransGen r b a)
    (hr : ∀ x, ¬ TransGen r x x) (x : α) : ¬ TransGen r' x x := by
  intro hx
  rcases transGen_insert h hx with hx | ⟨h1, h2⟩
  · exact hr x hx
  · rcases reflTransGen_iff_eq_or_transGen.mp (h2.trans h1) with he | ht
    · exact hne he
    · exact hba ht

/-- A step that does not postpone the answer to a server waited for closes no cycle. -/
theorem Step.acyclic (h : Step servers e s s') (hl : Ledger servers s)
    (hs : ∀ i, ¬ TransGen s.Waits i i)
    (he : ∀ a b, e = .postpone a b → ¬ TransGen s.Waits b a) (i : ι) :
    ¬ TransGen s'.Waits i i := by
  by_cases hp : ∃ a b, e = .postpone a b ∧ a ≠ b
  · obtain ⟨a, b, rfl, hne⟩ := hp
    refine acyclic_insert (fun x y hxy => ?_) hne (he a b rfl) hs i
    rcases h.waits hl hxy with hw | ⟨he, -⟩
    · exact Or.inl hw
    · obtain ⟨rfl, rfl⟩ := Event.postpone.inj he
      exact Or.inr ⟨rfl, rfl⟩
  · have hsub : ∀ x y, s'.Waits x y → s.Waits x y := by
      intro x y hxy
      rcases h.waits hl hxy with hw | hxy
      · exact hw
      · exact (hp ⟨x, y, hxy⟩).elim
    exact fun hi => hs i (TransGen.mono hsub i i hi)

/-! States with nothing in flight. -/

/-- Whoever is pending in a quiet state waits for a pending server. -/
theorem waits_of_quiet (hx : Exclusion servers s) (ha : Accounted servers s)
    (hquiet : ∀ i j, s.chan i j = []) {i : ι} {p : Pend ι}
    (hp : s.pend i = some p) : ∃ j ∈ servers, s.Waits i j ∧ s.pend j ≠ none := by
  have htokens : ∀ j, s.tokens i p j =
      (s.postponed j).count (i, p.id) + if j ∈ p.heard then 1 else 0 := by
    intro j
    simp [State.tokens, hquiet]
  have hnone : ∀ m, ¬ s.holds m := by
    intro m hm
    have hmi : m ≠ i := by
      rintro rfl
      simp [hx.idle m hm] at hp
    rcases ha.tokens i p hp m (hx.member m (Or.inl hm)) hmi with h1 | ⟨m', hne, hm'⟩
    · have hh : m ∉ p.heard := fun h => hx.holder m i p hm hp (Or.inl h)
      rw [htokens, State.postponed, hx.idle m hm, if_neg hh] at h1
      simp at h1
    · exact hne (hx.unique m' m hm' hm)
  obtain ⟨hcount, hle⟩ := hx.count i p hp
  have hi : i ∈ servers := hx.member i (Or.inr (by simp [hp]))
  obtain ⟨j, hj, hjh⟩ : ∃ j ∈ servers.erase i, j ∉ p.heard := by
    refine Finset.exists_mem_notMem_of_card_lt_card ?_
    rw [Finset.card_erase_of_mem hi]
    omega
  obtain ⟨hji, hjs⟩ := Finset.mem_erase.mp hj
  rcases ha.tokens i p hp j hjs hji with h1 | ⟨m, -, hm⟩
  · rw [htokens, if_neg hjh, Nat.add_zero] at h1
    have hmem : (i, p.id) ∈ s.postponed j := List.count_pos_iff.mp (by omega)
    refine ⟨j, hjs, ⟨p, hp, hmem⟩, fun hnone' => ?_⟩
    rw [State.postponed, hnone'] at hmem
    simp at hmem
  · exact (hnone m hm).elim

/-- In a quiet state creates are pending exactly when there is a cycle. -/
theorem pending_iff_cycle (hx : Exclusion servers s) (ha : Accounted servers s)
    (hquiet : ∀ i j, s.chan i j = []) :
    (∃ i, s.pend i ≠ none) ↔ ∃ i, TransGen s.Waits i i := by
  constructor
  · rintro ⟨i₀, hi₀⟩
    by_contra hcycle
    rw [not_exists] at hcycle
    -- a pending server whose chain of waits is longest waits for another one
    let r : servers → servers → Prop := fun y x => TransGen s.Waits (x : ι) y
    have htrans : IsTrans servers r := ⟨fun x y z hxy hyz => TransGen.trans hyz hxy⟩
    have hirrefl : Std.Irrefl r := ⟨fun x => hcycle x⟩
    have hwf : WellFounded r := Finite.wellFounded_of_trans_of_irrefl r
    obtain ⟨x, hxp, hmin⟩ := hwf.has_min {x : servers | s.pend x ≠ none}
      ⟨⟨i₀, hx.member i₀ (Or.inr hi₀)⟩, hi₀⟩
    obtain ⟨p, hp⟩ := Option.ne_none_iff_exists'.mp hxp
    obtain ⟨j, hj, hw, hjp⟩ := waits_of_quiet hx ha hquiet hp
    exact hmin ⟨j, hj⟩ hjp (.single hw)
  · rintro ⟨i, hi⟩
    obtain ⟨j, ⟨p, hp, -⟩, -⟩ := TransGen.head'_iff.mp hi
    exact ⟨i, by simp [hp]⟩

end Nachos.TieBreak
