import Nachos.TieBreak

/-! At most one server creates the name. Two pending servers never deny each other:
whoever is asked second has either heard the denial, and postpones, or is the lower of
the two, and postpones. -/
namespace Nachos.TieBreak
open Function

variable {ι : Type*} [LinearOrder ι] {servers : Finset ι} {s s' : State ι} {e : Event ι}

/-- Server `j` has denied the create `p` of server `i`. -/
def State.Denied (s : State ι) (j i : ι) (p : Pend ι) : Prop :=
  j ∈ p.heard ∨ .answer false p.id ∈ s.chan j i

structure Exclusion (servers : Finset ι) (s : State ι) : Prop where
  member : ∀ i, s.holds i ∨ s.pend i ≠ none → i ∈ servers
  idle : ∀ i, s.holds i → s.pend i = none
  count : ∀ i p, s.pend i = some p → p.count = p.heard.card ∧ p.count + 2 ≤ servers.card
  order : ∀ i j p q, i < j → s.pend i = some p → s.pend j = some q →
    ¬ [Msg.ask p.id, .answer false q.id].Sublist (s.chan i j)
  exclusive : ∀ i j p q, s.pend i = some p → s.pend j = some q →
    ¬ (s.Denied j i p ∧ s.Denied i j q)
  holder : ∀ i j q, s.holds i → s.pend j = some q → ¬ s.Denied i j q
  unique : ∀ i j, s.holds i → s.holds j → i = j

theorem answer_counted {l : List Msg} {has : Bool} {id : ℕ} (h : .answer has id ∈ l) :
    0 < l.countP (Msg.answers id) := List.countP_pos_iff.mpr ⟨_, h, by simp⟩

theorem Ledger.denied (hl : Ledger servers s) {i j : ι} {p : Pend ι} (hp : s.pend i = some p)
    (h : s.Denied j i p) : j ∈ servers ∧ j ≠ i := by
  have ho := hl.once i p hp j
  by_contra hj
  rw [if_neg hj] at ho
  simp only [State.tokens, Nat.le_zero, Nat.add_eq_zero_iff] at ho
  rcases h with h | h
  · simp [h] at ho
  · have := answer_counted h
    omega

/-- A denial on its way has not been counted. -/
theorem Ledger.not_heard (hl : Ledger servers s) {i j : ι} {p : Pend ι} (hp : s.pend i = some p)
    (h : .answer false p.id ∈ s.chan j i) : j ∉ p.heard := by
  intro hj
  have ho := hl.once i p hp j
  have h1 := answer_counted h
  have h2 : s.tokens i p j ≤ 1 := ho.trans (by split_ifs <;> omega)
  simp only [State.tokens, if_pos hj] at h2
  omega

theorem Ledger.asked_ne (hl : Ledger servers s) {i j : ι} {p : Pend ι} (hp : s.pend i = some p)
    (h : .ask p.id ∈ s.chan i j) : j ≠ i := by
  intro hj
  have ho := hl.once i p hp j
  have h1 : 0 < (s.chan i j).countP (· = .ask p.id) := List.countP_pos_iff.mpr ⟨_, h, by simp⟩
  rw [if_neg (fun hh => hh.2 hj)] at ho
  simp only [State.tokens] at ho
  omega

/-- Steps that deny nothing and create nothing. -/
theorem Exclusion.quiet (hx : Exclusion servers s) (hholds : s'.holds = s.holds)
    (hpend : ∀ i p', s'.pend i = some p' → ∃ p, s.pend i = some p ∧ p'.id = p.id ∧
      (∀ j, s'.Denied j i p' → s.Denied j i p) ∧
      p'.count = p'.heard.card ∧ p'.count + 2 ≤ servers.card)
    (hord : ∀ i j p q, s.pend i = some p → s.pend j = some q →
      [Msg.ask p.id, .answer false q.id].Sublist (s'.chan i j) →
      [Msg.ask p.id, .answer false q.id].Sublist (s.chan i j)) : Exclusion servers s' := by
  refine ⟨?_, ?_, ?_, ?_, ?_, ?_, ?_⟩
  · rintro i (hi | hi)
    · exact hx.member i (Or.inl (hholds ▸ hi))
    · obtain ⟨p', hp'⟩ := Option.ne_none_iff_exists'.mp hi
      obtain ⟨p, hp, -⟩ := hpend i p' hp'
      exact hx.member i (Or.inr (by simp [hp]))
  · intro i hi
    by_contra hne
    obtain ⟨p', hp'⟩ := Option.ne_none_iff_exists'.mp hne
    obtain ⟨p, hp, -⟩ := hpend i p' hp'
    rw [hx.idle i (hholds ▸ hi)] at hp
    cases hp
  · intro i p' hp'
    obtain ⟨-, -, -, -, hc⟩ := hpend i p' hp'
    exact hc
  · intro i j p' q' hij hp' hq' hs
    obtain ⟨p, hp, hpid, -⟩ := hpend i p' hp'
    obtain ⟨q, hq, hqid, -⟩ := hpend j q' hq'
    rw [hpid, hqid] at hs
    exact hx.order i j p q hij hp hq (hord i j p q hp hq hs)
  · rintro i j p' q' hp' hq' ⟨h1, h2⟩
    obtain ⟨p, hp, -, hpd, -⟩ := hpend i p' hp'
    obtain ⟨q, hq, -, hqd, -⟩ := hpend j q' hq'
    exact hx.exclusive i j p q hp hq ⟨hpd j h1, hqd i h2⟩
  · intro i j q' hi hq' hd
    obtain ⟨q, hq, -, hqd, -⟩ := hpend j q' hq'
    exact hx.holder i j q (hholds ▸ hi) hq (hqd i hd)
  · intro i j hi hj
    exact hx.unique i j (hholds ▸ hi) (hholds ▸ hj)

/-- The same when the entries are those of the state before. -/
theorem Exclusion.frame (hx : Exclusion servers s) (hholds : s'.holds = s.holds)
    (hpend : ∀ i p', s'.pend i = some p' → ∃ p, s.pend i = some p ∧ p'.id = p.id ∧
      p'.heard = p.heard ∧ p'.count = p.count)
    (hden : ∀ i j p, s.pend i = some p → .answer false p.id ∈ s'.chan j i →
      .answer false p.id ∈ s.chan j i)
    (hord : ∀ i j p q, s.pend i = some p → s.pend j = some q →
      [Msg.ask p.id, .answer false q.id].Sublist (s'.chan i j) →
      [Msg.ask p.id, .answer false q.id].Sublist (s.chan i j)) : Exclusion servers s' := by
  refine hx.quiet hholds (fun i p' hp' => ?_) hord
  obtain ⟨p, hp, hid, hheard, hcount⟩ := hpend i p' hp'
  refine ⟨p, hp, hid, fun j hd => ?_, by rw [hcount, hheard]; exact hx.count i p hp⟩
  rcases hd with hd | hd
  · exact Or.inl (hheard ▸ hd)
  · exact Or.inr (hden i j p hp (hid ▸ hd))

theorem pend_update {b i : ι} {c : Option (Pend ι)} {p' : Pend ι}
    (h : update s.pend b c i = some p') :
    (i = b ∧ c = some p') ∨ (i ≠ b ∧ s.pend i = some p') := by
  by_cases hi : i = b
  · subst hi
    exact Or.inl ⟨rfl, by simpa using h⟩
  · exact Or.inr ⟨hi, by simpa [update_of_ne hi] using h⟩

section Start
variable {b : ι} {n : ℕ}

theorem exclusion_start (hl : Ledger servers s) (hx : Exclusion servers s)
    (hcard : 2 ≤ servers.card) (hb : b ∈ servers) (hh : ¬ s.holds b) :
    Exclusion servers { s with
      pend := update s.pend b (some ⟨s.next b, ∅, 0, []⟩)
      next := update s.next b n
      chan := send s.chan b fun y => if y ∈ servers ∧ y ≠ b then [.ask (s.next b)] else [] } := by
  have hmem : ∀ i j id, .answer false id ∈ send s.chan b
      (fun y => if y ∈ servers ∧ y ≠ b then [.ask (s.next b)] else []) i j →
      .answer false id ∈ s.chan i j := by
    intro i j id hm
    rcases mem_send.mp hm with hm | ⟨-, hm⟩
    · exact hm
    · split_ifs at hm <;> simp at hm
  have hnew : ∀ j, ¬ State.Denied { s with
      pend := update s.pend b (some ⟨s.next b, ∅, 0, []⟩)
      next := update s.next b n
      chan := send s.chan b fun y => if y ∈ servers ∧ y ≠ b then [.ask (s.next b)] else [] } j b
      ⟨s.next b, ∅, 0, []⟩ := by
    rintro j (hd | hd)
    · simp at hd
    · have := hl.answer_lt b j false _ (hmem _ _ _ hd)
      exact this.ne rfl
  have hold : ∀ i j p, State.Denied { s with
      pend := update s.pend b (some ⟨s.next b, ∅, 0, []⟩)
      next := update s.next b n
      chan := send s.chan b fun y => if y ∈ servers ∧ y ≠ b then [.ask (s.next b)] else [] } j i p →
      s.Denied j i p := fun i j p hd => hd.imp id (hmem _ _ _)
  refine ⟨?_, ?_, ?_, ?_, ?_, ?_, hx.unique⟩
  · rintro i (hi | hi)
    · exact hx.member i (Or.inl hi)
    · by_cases hib : i = b
      · exact hib ▸ hb
      · exact hx.member i (Or.inr (by simpa [update_of_ne hib] using hi))
  · intro i hi
    have hib : i ≠ b := fun he => hh (he ▸ hi)
    simpa [update_of_ne hib] using hx.idle i hi
  · intro i p hp
    rcases pend_update hp with ⟨-, he⟩ | ⟨-, hp⟩
    · obtain rfl := Option.some.inj he
      exact ⟨rfl, by simpa using hcard⟩
    · exact hx.count i p hp
  · intro i j p q hij hp hq hs
    have hs' : [Msg.ask p.id, .answer false q.id].Sublist (s.chan i j) := by
      dsimp only at hs
      rcases pair_sublist_send hs with h | ⟨-, h⟩
      · exact h
      · split_ifs at h <;> simp at h
    rcases pend_update hp with ⟨rfl, he⟩ | ⟨hib, hp⟩
    · obtain rfl := Option.some.inj he
      exact (hl.ask_lt i j _ (hs'.subset (by simp))).ne rfl
    · rcases pend_update hq with ⟨rfl, he⟩ | ⟨hjb, hq⟩
      · obtain rfl := Option.some.inj he
        exact (hl.answer_lt j i false _ (hs'.subset (by simp))).ne rfl
      · exact hx.order i j p q hij hp hq hs'
  · rintro i j p q hp hq ⟨h1, h2⟩
    rcases pend_update hp with ⟨rfl, he⟩ | ⟨hib, hp⟩
    · obtain rfl := Option.some.inj he
      exact hnew j h1
    · rcases pend_update hq with ⟨rfl, he⟩ | ⟨hjb, hq⟩
      · obtain rfl := Option.some.inj he
        exact hnew i h2
      · exact hx.exclusive i j p q hp hq ⟨hold _ _ _ h1, hold _ _ _ h2⟩
  · intro i j q hi hq hd
    rcases pend_update hq with ⟨rfl, he⟩ | ⟨hjb, hq⟩
    · obtain rfl := Option.some.inj he
      exact hnew i hd
    · exact hx.holder i j q hi hq (hold _ _ _ hd)

end Start

section Deny
variable {a b : ι} {id : ℕ} {rest : List Msg}

theorem denied_deny {i j : ι} {p : Pend ι}
    (h : State.Denied { s with chan := send (drop s.chan a b) b (only a (.answer false id)) } j i p) :
    s.Denied j i p ∨ (j = b ∧ i = a ∧ p.id = id) := by
  rcases h with h | h
  · exact Or.inl (Or.inl h)
  · rcases mem_send.mp h with h | ⟨hj, h⟩
    · exact Or.inl (Or.inr (mem_of_mem_drop h))
    · unfold only at h
      split_ifs at h with hi
      · obtain ⟨-, he⟩ := Msg.answer.inj (List.mem_singleton.mp h)
        exact Or.inr ⟨hj, hi, he⟩
      · simp at h

/-- The server that denies has not been denied by the asker: the asker would have done so
either before it asked, and the denial would have been counted, or after, and then it
would have postponed its answer to a higher server. -/
theorem not_denied_by_asker (hl : Ledger servers s) (hx : Exclusion servers s)
    (hc : s.chan a b = .ask id :: rest) (hp : ∀ q, s.pend b = some q → a ∉ q.heard ∧ ¬ b < a)
    {p q : Pend ι} (hpa : s.pend a = some p) (hid : p.id = id) (hqb : s.pend b = some q) :
    ¬ s.Denied a b q := by
  obtain ⟨hheard, hba⟩ := hp q hqb
  have hne : b ≠ a := hl.asked_ne hpa (by simp [hc, hid])
  rintro (hd | hd)
  · exact hheard hd
  · rw [hc, List.mem_cons] at hd
    rcases hd with hd | hd
    · cases hd
    · refine hx.order a b p q (lt_of_le_of_ne (not_lt.mp hba) hne.symm) hpa hqb ?_
      rw [hc, hid]
      exact (List.singleton_sublist.mpr hd).cons_cons _

theorem exclusion_deny (hl : Ledger servers s) (hx : Exclusion servers s)
    (hc : s.chan a b = .ask id :: rest) (hh : ¬ s.holds b)
    (hp : ∀ q, s.pend b = some q → a ∉ q.heard ∧ ¬ b < a) :
    Exclusion servers
      { s with chan := send (drop s.chan a b) b (only a (.answer false id)) } := by
  refine ⟨hx.member, hx.idle, hx.count, ?_, ?_, ?_, hx.unique⟩
  · intro i j p q hij hpi hqj hs
    rcases pair_sublist_send hs with h | ⟨rfl, h⟩
    · exact hx.order i j p q hij hpi hqj (h.trans (drop_sublist _ _ _ _ _))
    · unfold only at h
      split_ifs at h with hj
      · exact (hp p hpi).2 (hj ▸ hij)
      · simp at h
  · rintro i j p q hpi hqj ⟨h1, h2⟩
    rcases denied_deny h1 with d1 | ⟨rfl, rfl, hid⟩
    · rcases denied_deny h2 with d2 | ⟨rfl, rfl, hid⟩
      · exact hx.exclusive i j p q hpi hqj ⟨d1, d2⟩
      · exact not_denied_by_asker hl hx hc hp hqj hid hpi d1
    · rcases denied_deny h2 with d2 | ⟨he, -, -⟩
      · exact not_denied_by_asker hl hx hc hp hpi hid hqj d2
      · exact hl.asked_ne hpi (by simp [hc, hid]) he.symm
  · intro i j q hi hq hd
    rcases denied_deny hd with hd | ⟨rfl, -, -⟩
    · exact hx.holder i j q hi hq hd
    · exact hh hi

end Deny

section Complete
variable {a b : ι} {rest : List Msg} {q : Pend ι}

/-- With the last denial, every other server has denied. -/
theorem all_denied (hl : Ledger servers s) (hx : Exclusion servers s)
    (hc : s.chan a b = .answer false q.id :: rest) (hq : s.pend b = some q)
    (hn : q.count + 2 = servers.card) {j : ι} (hj : j ∈ servers) (hjb : j ≠ b) :
    s.Denied j b q := by
  have ha : Msg.answer false q.id ∈ s.chan a b := by simp [hc]
  have hb : b ∈ servers := hx.member b (Or.inr (by simp [hq]))
  have hsub : insert a q.heard ⊆ servers.erase b := by
    intro x hx'
    rcases Finset.mem_insert.mp hx' with rfl | hx'
    · have := hl.denied hq (Or.inr ha)
      exact Finset.mem_erase.mpr ⟨this.2, this.1⟩
    · have := hl.denied hq (Or.inl hx')
      exact Finset.mem_erase.mpr ⟨this.2, this.1⟩
  have hcard : (servers.erase b).card ≤ (insert a q.heard).card := by
    rw [Finset.card_insert_of_notMem (hl.not_heard hq ha), Finset.card_erase_of_mem hb,
      ← (hx.count b q hq).1]
    omega
  have heq := Finset.eq_of_subset_of_card_le hsub hcard
  have hjm : j ∈ insert a q.heard := heq ▸ Finset.mem_erase.mpr ⟨hjb, hj⟩
  rcases Finset.mem_insert.mp hjm with rfl | hjm
  · exact Or.inr ha
  · exact Or.inl hjm

theorem exclusion_complete (hl : Ledger servers s) (hx : Exclusion servers s) (created : Prop)
    (hc : s.chan a b = .answer false q.id :: rest) (hq : s.pend b = some q)
    (hn : q.count + 2 = servers.card) :
    Exclusion servers { s with
      holds := fun x => s.holds x ∨ x = b ∧ created
      pend := update s.pend b none
      chan := send (drop s.chan a b) b fun y =>
        (q.postponed.filter fun r => r.1 = y).map fun r => .answer true r.2 } := by
  have hall := fun j => all_denied (j := j) hl hx hc hq hn
  have hpend : ∀ {i p}, update s.pend b none i = some p → i ≠ b ∧ s.pend i = some p := by
    intro i p hp
    rcases pend_update hp with ⟨-, he⟩ | h
    · cases he
    · exact h
  have hden : ∀ i j p, State.Denied { s with
      holds := fun x => s.holds x ∨ x = b ∧ created
      pend := update s.pend b none
      chan := send (drop s.chan a b) b fun y =>
        (q.postponed.filter fun r => r.1 = y).map fun r => .answer true r.2 } j i p →
      s.Denied j i p := by
    rintro i j p (hd | hd)
    · exact Or.inl hd
    · dsimp only at hd
      rcases mem_send.mp hd with hd | ⟨-, hd⟩
      · exact Or.inr (mem_of_mem_drop hd)
      · simp at hd
  refine ⟨?_, ?_, ?_, ?_, ?_, ?_, ?_⟩
  · rintro i ((hi | ⟨rfl, -⟩) | hi)
    · exact hx.member i (Or.inl hi)
    · exact hx.member i (Or.inr (by simp [hq]))
    · obtain ⟨p, hp⟩ := Option.ne_none_iff_exists'.mp hi
      exact hx.member i (Or.inr (by simp [(hpend hp).2]))
  · rintro i hi
    by_cases hib : i = b
    · subst hib
      simp
    · rcases hi with hi | ⟨rfl, -⟩
      · simpa [update_of_ne hib] using hx.idle i hi
      · exact (hib rfl).elim
  · intro i p hp
    exact hx.count i p (hpend hp).2
  · intro i j p r hij hp hr hs
    refine hx.order i j p r hij (hpend hp).2 (hpend hr).2 ?_
    dsimp only at hs
    rcases pair_sublist_send hs with h | ⟨-, h⟩
    · exact h.trans (drop_sublist _ _ _ _ _)
    · simp at h
  · rintro i j p r hp hr ⟨h1, h2⟩
    exact hx.exclusive i j p r (hpend hp).2 (hpend hr).2 ⟨hden _ _ _ h1, hden _ _ _ h2⟩
  · rintro i j r hi hr hd
    obtain ⟨hjb, hrj⟩ := hpend hr
    rcases hi with hi | ⟨rfl, -⟩
    · exact hx.holder i j r hi hrj (hden _ _ _ hd)
    · have hj : j ∈ servers := hx.member j (Or.inr (by simp [hrj]))
      exact hx.exclusive i j q r hq hrj ⟨hall j hj hjb, hden _ _ _ hd⟩
  · have hother : ∀ i, s.holds i → i = b := by
      intro i hi
      by_contra hib
      exact hx.holder i b q hi hq (hall i (hx.member i (Or.inl hi)) hib)
    rintro i j (hi | ⟨rfl, -⟩) (hj | ⟨rfl, -⟩)
    · exact hx.unique i j hi hj
    · exact hother i hi
    · exact (hother j hj).symm
    · rfl

end Complete

theorem Step.exclusion (h : Step servers e s s') (hcard : 2 ≤ servers.card)
    (hl : Ledger servers s) (hx : Exclusion servers s) : Exclusion servers s' := by
  cases h with
  | stray b n out hn hout =>
    refine hx.frame rfl (fun i p hp => ⟨p, hp, rfl, rfl, rfl⟩) (fun i j p hp hm => ?_)
      (fun i j p q hp hq hs => ?_)
    · rcases mem_send.mp hm with hm | ⟨-, hm⟩
      · exact hm
      · exact (hout.no_answer hp hm).elim
    · rcases pair_sublist_send hs with h | ⟨-, h⟩
      · exact h
      · exact (hout.no_answer hq h).elim
  | start b n hb hh hpb hn => exact exclusion_start hl hx hcard hb hh
  | ignore a b has id rest out hc hid hout =>
    refine hx.frame rfl (fun i p hp => ⟨p, hp, rfl, rfl, rfl⟩) (fun i j p hp hm => ?_)
      (fun i j p q hp hq hs => ?_)
    · rcases mem_send.mp hm with hm | ⟨-, hm⟩
      · exact mem_of_mem_drop hm
      · exact (hout.no_answer hp hm).elim
    · rcases pair_sublist_send hs with h | ⟨-, h⟩
      · exact h.trans (drop_sublist _ _ _ _ _)
      · exact (hout.no_answer hq h).elim
  | confirm a b id rest hc hh =>
    have hno : ∀ y n, .answer false n ∉ only a (.answer true id) y := by
      intro y n hm
      unfold only at hm
      split_ifs at hm <;> simp at hm
    refine hx.frame rfl (fun i p hp => ⟨p, hp, rfl, rfl, rfl⟩) (fun i j p hp hm => ?_)
      (fun i j p q hp hq hs => ?_)
    · rcases mem_send.mp hm with hm | ⟨-, hm⟩
      · exact mem_of_mem_drop hm
      · exact (hno _ _ hm).elim
    · rcases pair_sublist_send hs with h | ⟨-, h⟩
      · exact h.trans (drop_sublist _ _ _ _ _)
      · exact (hno _ _ h).elim
  | deny a b id rest hc hh hp => exact exclusion_deny hl hx hc hh hp
  | postpone a b id rest q hc hh hq hp =>
    refine hx.frame rfl (fun i p' hp' => ?_) (fun i j p _ hm => mem_of_mem_drop hm)
      (fun i j p q _ _ hs => hs.trans (drop_sublist _ _ _ _ _))
    rcases pend_update hp' with ⟨rfl, he⟩ | ⟨-, hp'⟩
    · obtain rfl := Option.some.inj he
      exact ⟨q, hq, rfl, rfl, rfl⟩
    · exact ⟨p', hp', rfl, rfl, rfl⟩
  | yield a b rest q hc hq =>
    refine hx.frame rfl (fun i p' hp' => ?_) (fun i j p _ hm => mem_of_mem_drop hm)
      (fun i j p q _ _ hs => hs.trans (drop_sublist _ _ _ _ _))
    rcases pend_update hp' with ⟨-, he⟩ | ⟨-, hp'⟩
    · cases he
    · exact ⟨p', hp', rfl, rfl, rfl⟩
  | count a b rest q hc hq hn =>
    have ha : Msg.answer false q.id ∈ s.chan a b := by simp [hc]
    refine hx.quiet rfl (fun i p' hp' => ?_)
      (fun i j p q _ _ hs => hs.trans (drop_sublist _ _ _ _ _))
    rcases pend_update hp' with ⟨rfl, he⟩ | ⟨-, hp'⟩
    · obtain rfl := Option.some.inj he
      obtain ⟨hcount, hle⟩ := hx.count i q hq
      refine ⟨q, hq, rfl, fun j hd => ?_, ?_, ?_⟩
      · rcases hd with hd | hd
        · rcases Finset.mem_insert.mp hd with rfl | hd
          · exact Or.inr ha
          · exact Or.inl hd
        · exact Or.inr (mem_of_mem_drop hd)
      · rw [Finset.card_insert_of_notMem (hl.not_heard hq ha), ← hcount]
      · dsimp only
        omega
    · exact ⟨p', hp', rfl, fun j hd => hd.imp id mem_of_mem_drop, hx.count i p' hp'⟩
  | complete a b rest q created hc hq hn => exact exclusion_complete hl hx created hc hq hn

theorem exclusion_initial : Exclusion servers (State.initial : State ι) := by
  refine ⟨?_, ?_, ?_, ?_, ?_, ?_, ?_⟩ <;> simp [State.initial]

end Nachos.TieBreak
