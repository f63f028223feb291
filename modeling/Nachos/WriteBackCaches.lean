import Mathlib

/-! A write-back cache over a store. Each line holds at most one block, and some cells of the
blocks have a known value. The cache is coherent when the line that holds a block has its known
cells, and the store has them unless that line is dirty. -/
namespace Nachos.WriteBack

structure Cache (F K O B : Type*) where
  line : F → Option K
  data : F → O → B
  dirty : F → Bool
  stored : K → O → Option B

variable {F K O B : Type*} {c c' : Cache F K O B} {known known' : K → O → Option B} {f : F} {k : K}

structure Coherent (c : Cache F K O B) (known : K → O → Option B) : Prop where
  one : ∀ {f g k}, c.line f = some k → c.line g = some k → f = g
  cached : ∀ {f k o b}, c.line f = some k → known k o = some b → c.data f o = b
  backed : ∀ {k o b}, (∀ f, c.line f = some k → c.dirty f = false) → known k o = some b →
    c.stored k o = some b

/-- With no line in use the store has everything. -/
theorem Coherent.of_empty (hline : ∀ f, c.line f = none)
    (hstored : ∀ k o b, known k o = some b → c.stored k o = some b) : Coherent c known :=
  ⟨fun hf => by simp [hline] at hf, fun hf => by simp [hline] at hf,
    fun _ hb => hstored _ _ _ hb⟩

/-- Lines other than `f` are as before. -/
def KeepsOthers (c c' : Cache F K O B) (f : F) : Prop :=
  ∀ g, g ≠ f → c'.line g = c.line g ∧
    (c.line g ≠ none → c'.data g = c.data g ∧ c'.dirty g = c.dirty g)

/-- Nothing changes for any line in use. -/
structure Same (c c' : Cache F K O B) : Prop where
  line : c'.line = c.line
  kept : ∀ g, c.line g ≠ none → c'.data g = c.data g ∧ c'.dirty g = c.dirty g
  stored : c'.stored = c.stored

theorem Same.trans {c'' : Cache F K O B} (h : Same c c') (h' : Same c' c'') : Same c c'' := by
  refine ⟨h'.line.trans h.line, fun g hg => ?_, h'.stored.trans h.stored⟩
  obtain ⟨hdata, hdirty⟩ := h.kept g hg
  obtain ⟨hdata', hdirty'⟩ := h'.kept g (h.line ▸ hg)
  exact ⟨hdata'.trans hdata, hdirty'.trans hdirty⟩

theorem Coherent.same (h : Coherent c known) (hs : Same c c') : Coherent c' known := by
  refine ⟨fun hf hg => h.one (hs.line ▸ hf) (hs.line ▸ hg), fun {f k o b} hf hb => ?_,
    fun {k o b} hclean hb => ?_⟩
  · rw [hs.line] at hf
    rw [(hs.kept f (by simp [hf])).1]
    exact h.cached hf hb
  · rw [hs.stored]
    refine h.backed (fun f hf => ?_) hb
    rw [← (hs.kept f (by simp [hf])).2]
    exact hclean f (hs.line ▸ hf)

/-- A block that no line holds is read into an unused line. -/
structure Loads (c c' : Cache F K O B) (f : F) (k : K) : Prop where
  unused : c.line f = none
  absent : ∀ g, c.line g ≠ some k
  line : c'.line f = some k
  data : ∀ o b, c.stored k o = some b → c'.data f o = b
  others : KeepsOthers c c' f
  stored : c'.stored = c.stored

theorem Coherent.loads (h : Coherent c known) (hl : Loads c c' f k) : Coherent c' known := by
  have hline : ∀ g j, c'.line g = some j → g = f ∧ j = k ∨ g ≠ f ∧ c.line g = some j := by
    intro g j hg
    by_cases hgf : g = f
    · subst hgf
      exact Or.inl ⟨rfl, (Option.some.inj (hl.line.symm.trans hg)).symm⟩
    · exact Or.inr ⟨hgf, (hl.others g hgf).1 ▸ hg⟩
  refine ⟨fun {f' g j} hf hg => ?_, fun {g j o b} hg hb => ?_, fun {j o b} hclean hb => ?_⟩
  · rcases hline f' j hf with ⟨rfl, rfl⟩ | ⟨-, hf⟩ <;> rcases hline g _ hg with ⟨rfl, hj⟩ | ⟨-, hg⟩
    · rfl
    · exact absurd hg (hl.absent g)
    · exact absurd (hj ▸ hf) (hl.absent f')
    · exact h.one hf hg
  · rcases hline g j hg with ⟨rfl, rfl⟩ | ⟨hgf, hg⟩
    · refine hl.data o b (h.backed (fun g hg => absurd hg (hl.absent g)) hb)
    · rw [((hl.others g hgf).2 (by simp [hg])).1]
      exact h.cached hg hb
  · rw [hl.stored]
    refine h.backed (fun g hg => ?_) hb
    have hgf : g ≠ f := by
      rintro rfl
      simp [hl.unused] at hg
    rw [← ((hl.others g hgf).2 (by simp [hg])).2]
    exact hclean g ((hl.others g hgf).1.trans hg)

/-- Cells of the block in a line are written, and the line is marked. -/
structure Writes (c c' : Cache F K O B) (known known' : K → O → Option B) (f : F) (k : K) :
    Prop where
  held : c.line f = some k
  line : c'.line f = some k
  dirty : c'.dirty f = true
  cells : ∀ o, known' k o = some (c'.data f o) ∨ known' k o = known k o ∧ c'.data f o = c.data f o
  others : KeepsOthers c c' f
  blocks : ∀ j, j ≠ k → known' j = known j
  stored : c'.stored = c.stored

theorem Coherent.writes (h : Coherent c known) (hw : Writes c c' known known' f k) :
    Coherent c' known' := by
  have hline : c'.line = c.line := by
    funext g
    by_cases hgf : g = f
    · subst hgf
      rw [hw.line, hw.held]
    · exact (hw.others g hgf).1
  refine ⟨fun hf hg => h.one (hline ▸ hf) (hline ▸ hg), fun {g j o b} hg hb => ?_,
    fun {j o b} hclean hb => ?_⟩
  · rw [hline] at hg
    by_cases hgf : g = f
    · subst hgf
      obtain rfl := Option.some.inj (hw.held.symm.trans hg)
      rcases hw.cells o with ho | ⟨ho, hd⟩
      · exact Option.some.inj (ho.symm.trans hb)
      · rw [hd]
        exact h.cached hg (ho ▸ hb)
    · have hjk : j ≠ k := by
        rintro rfl
        exact hgf (h.one hg hw.held)
      rw [((hw.others g hgf).2 (by simp [hg])).1]
      exact h.cached hg (hw.blocks j hjk ▸ hb)
  · have hjk : j ≠ k := by
      rintro rfl
      simpa [hw.dirty] using hclean f hw.line
    rw [hw.stored]
    refine h.backed (fun g hg => ?_) (hw.blocks j hjk ▸ hb)
    have hgf : g ≠ f := by
      rintro rfl
      exact hjk (Option.some.inj (hg.symm.trans hw.held))
    rw [← ((hw.others g hgf).2 (by simp [hg])).2]
    exact hclean g (hline ▸ hg)

/-- A block leaves its line, and goes to the store if the line is dirty. -/
structure Evicts (c c' : Cache F K O B) (f : F) (k : K) : Prop where
  held : c.line f = some k
  line : c'.line f = none
  others : KeepsOthers c c' f
  writtenBack : c.dirty f = true → ∀ o, c'.stored k o = some (c.data f o)
  dropped : c.dirty f = false → c'.stored k = c.stored k
  blocks : ∀ j, j ≠ k → c'.stored j = c.stored j

/-- Nothing known is lost with the line. -/
theorem Coherent.evicted (h : Coherent c known) (he : Evicts c c' f k) {o : O} {b : B}
    (hb : known k o = some b) : c'.stored k o = some b := by
  cases hd : c.dirty f with
  | true =>
    rw [he.writtenBack hd, h.cached he.held hb]
  | false =>
    rw [he.dropped hd]
    refine h.backed (fun g hg => ?_) hb
    rw [h.one hg he.held, hd]

theorem Coherent.evicts (h : Coherent c known) (he : Evicts c c' f k) : Coherent c' known := by
  have hline : ∀ g j, c'.line g = some j → g ≠ f ∧ c.line g = some j := by
    intro g j hg
    have hgf : g ≠ f := by
      rintro rfl
      simp [he.line] at hg
    exact ⟨hgf, (he.others g hgf).1 ▸ hg⟩
  refine ⟨fun hf hg => h.one (hline _ _ hf).2 (hline _ _ hg).2, fun {g j o b} hg hb => ?_,
    fun {j o b} hclean hb => ?_⟩
  · obtain ⟨hgf, hg⟩ := hline g j hg
    rw [((he.others g hgf).2 (by simp [hg])).1]
    exact h.cached hg hb
  · by_cases hjk : j = k
    · subst hjk
      exact h.evicted he hb
    · rw [he.blocks j hjk]
      refine h.backed (fun g hg => ?_) hb
      have hgf : g ≠ f := by
        rintro rfl
        exact hjk (Option.some.inj (hg.symm.trans he.held))
      rw [← ((he.others g hgf).2 (by simp [hg])).2]
      exact hclean g ((he.others g hgf).1.trans hg)

/-! Weaker than coherence: whatever a line or the store has of the known cells is right. Clean and
dirty lines are the same here, and the store may miss cells. -/

structure Agrees (c : Cache F K O B) (known : K → O → Option B) : Prop where
  cached : ∀ {f k o b}, c.line f = some k → known k o = some b → c.data f o = b
  stored : ∀ {k o b b'}, known k o = some b → c.stored k o = some b' → b' = b

/-- Lines in use keep their cells, or are given up. -/
structure KeepsCells (c c' : Cache F K O B) : Prop where
  cells : ∀ {f k}, c'.line f = some k → c.line f = some k ∧ c'.data f = c.data f
  stored : c'.stored = c.stored

theorem KeepsCells.trans {c'' : Cache F K O B} (h : KeepsCells c c') (h' : KeepsCells c' c'') :
    KeepsCells c c'' := by
  refine ⟨fun hf => ?_, h'.stored.trans h.stored⟩
  obtain ⟨hf', hdata'⟩ := h'.cells hf
  obtain ⟨hf'', hdata⟩ := h.cells hf'
  exact ⟨hf'', hdata'.trans hdata⟩

theorem Same.keepsCells (h : Same c c') : KeepsCells c c' := by
  refine ⟨fun {f k} hf => ?_, h.stored⟩
  rw [h.line] at hf
  exact ⟨hf, (h.kept f (by simp [hf])).1⟩

theorem Agrees.keeps (h : Agrees c known) (hk : KeepsCells c c') : Agrees c' known := by
  refine ⟨fun hf hb => ?_, fun hb hb' => h.stored hb (hk.stored ▸ hb')⟩
  obtain ⟨hf', hdata⟩ := hk.cells hf
  rw [hdata]
  exact h.cached hf' hb

/-- Knowing less. -/
theorem Agrees.mono (h : Agrees c known) (hle : ∀ k o b, known' k o = some b → known k o = some b) :
    Agrees c known' :=
  ⟨fun hf hb => h.cached hf (hle _ _ _ hb), fun hb => h.stored (hle _ _ _ hb)⟩

/-- The cells that the store does not have must be right in the line already. -/
theorem Agrees.loads (h : Agrees c known) (hl : Loads c c' f k)
    (hrest : ∀ o b, known k o = some b → c.stored k o = none → c'.data f o = b) :
    Agrees c' known := by
  refine ⟨fun {g j o b} hg hb => ?_, fun hb hb' => h.stored hb (hl.stored ▸ hb')⟩
  by_cases hgf : g = f
  · subst hgf
    obtain rfl := Option.some.inj (hl.line.symm.trans hg)
    cases hs : c.stored k o with
    | none => exact hrest o b hb hs
    | some b' => rw [hl.data o b' hs, h.stored hb hs]
  · rw [(hl.others g hgf).1] at hg
    rw [((hl.others g hgf).2 (by simp [hg])).1]
    exact h.cached hg hb

theorem Agrees.evicts (h : Agrees c known) (he : Evicts c c' f k) : Agrees c' known := by
  refine ⟨fun {g j o b} hg hb => ?_, fun {j o b b'} hb hb' => ?_⟩
  · have hgf : g ≠ f := by
      rintro rfl
      simp [he.line] at hg
    rw [(he.others g hgf).1] at hg
    rw [((he.others g hgf).2 (by simp [hg])).1]
    exact h.cached hg hb
  · by_cases hjk : j = k
    · subst hjk
      cases hd : c.dirty f with
      | true =>
        rw [he.writtenBack hd] at hb'
        rw [← Option.some.inj hb']
        exact h.cached he.held hb
      | false => exact h.stored hb (he.dropped hd ▸ hb')
    · exact h.stored hb (he.blocks j hjk ▸ hb')

/-- The written cells are not known any more. -/
theorem Agrees.writes {w : K → O → Option B} (h : Agrees c known)
    (hw : Writes c c' (fun _ _ => none) w f k)
    (hle : ∀ j o b, known' j o = some b → known j o = some b ∧ w j o = none) :
    Agrees c' known' := by
  refine ⟨fun {g j o b} hg hb => ?_, fun hb hb' => h.stored (hle _ _ _ hb).1 (hw.stored ▸ hb')⟩
  obtain ⟨hb, hno⟩ := hle _ _ _ hb
  by_cases hgf : g = f
  · subst hgf
    obtain rfl := Option.some.inj (hw.line.symm.trans hg)
    rcases hw.cells o with ho | ⟨-, hd⟩
    · simp [hno] at ho
    · rw [hd]
      exact h.cached hw.held hb
  · rw [(hw.others g hgf).1] at hg
    rw [((hw.others g hgf).2 (by simp [hg])).1]
    exact h.cached hg hb

end Nachos.WriteBack
