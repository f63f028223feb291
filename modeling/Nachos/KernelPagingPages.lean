import Nachos.KernelPagingInvariant

/-! The page that leaves a frame and the page that comes in. -/
namespace Nachos.Paging
open Executions WriteBack

variable {Thread Space : Type*} [DecidableEq Thread] [DecidableEq Space]
  {cfg : Config Thread Space} {s u : State Thread Space} {v f : ℕ}

theorem copyTo_in {memory source : ℕ → UInt8} {start len o : ℕ} (ho : o < len) :
    copyTo memory start len source (start + o) = source o := by
  rw [copyTo, if_pos (by omega), Nat.add_sub_cancel_left]

theorem copyTo_out {memory source : ℕ → UInt8} {start len k : ℕ}
    (hk : ¬ (start ≤ k ∧ k < start + len)) : copyTo memory start len source k = memory k :=
  if_neg hk

/-- Different pages do not overlap. -/
theorem page_apart {m n : ℕ} (hmn : m ≠ n) (o : Fin pageSize) :
    ¬ (n * pageSize ≤ m * pageSize + o ∧ m * pageSize + o < n * pageSize + pageSize) := by
  have ho := o.isLt
  simp only [pageSize] at ho ⊢
  omega

omit [DecidableEq Thread] in
theorem getElem?_updatePage {a : Space} {e₀ e : PageTableEntry}
    (h : (s.pageTable a)[v]? = some e₀) (k : Space × ℕ) :
    ((updatePage s a v e).pageTable k.1)[k.2]? =
      if k = (a, v) then some e else (s.pageTable k.1)[k.2]? := by
  obtain ⟨b, w⟩ := k
  obtain ⟨hlt, -⟩ := List.getElem?_eq_some_iff.mp h
  by_cases hb : b = a
  · subst hb
    by_cases hw : w = v
    · subst hw
      simp [updatePage, hlt]
    · simp [updatePage, hw, List.getElem?_set_ne (Ne.symm hw)]
  · simp [updatePage, hb]

/-- The place of a written page in the swap file, and the files afterwards. -/
structure Swapped (s u : State Thread Space) (f : ℕ) (a : Space) (n : ℕ) : Prop where
  frame : ∃ table map file, u = { s with pageTable := table, swapMap := map, swapFile := file }
  entry : ∃ e, (s.pageTable a)[(s.ipt f).virtualPage]? = some e ∧ ∀ k : Space × ℕ,
    (u.pageTable k.1)[k.2]? = if k = (a, (s.ipt f).virtualPage) then
      some { e with location := .inSwap, offset := n * pageSize } else (s.pageTable k.1)[k.2]?
  place : swapPlace? s (a, (s.ipt f).virtualPage) = some (n * pageSize) ∨ s.swapMap n = false
  bound : s.swapMap n = true ∨ n < numSwapPages
  map : ∀ m, u.swapMap m = true ↔ m = n ∨ s.swapMap m = true
  file : u.swapFile = copyTo s.swapFile (n * pageSize) pageSize fun i =>
    s.mainMemory (f * pageSize + i)

omit [DecidableEq Thread] in
theorem writeToSwap_spec (h : SwapInv s) (hs : writeToSwap s f = .ok u) :
    ∃ a n, (s.ipt f).space = some a ∧ Swapped s u f a n := by
  unfold writeToSwap at hs
  split at hs
  · cases hs
  · rename_i a ha
    split at hs
    · cases hs
    · rename_i e he
      dsimp only at hs
      by_cases hl : e.location = .inSwap
      · rw [if_pos hl] at hs
        simp only [if_pos hl] at hs
        obtain rfl := Except.ok.inj hs
        have hplace : swapPlace? s (a, (s.ipt f).virtualPage) = some e.offset := by
          simp [swapPlace?, he, hl]
        obtain ⟨n, hn, hmap⟩ := h.place _ _ hplace
        have hdiv : e.offset / pageSize = n := by
          rw [hn]
          exact Nat.mul_div_cancel _ (by decide)
        refine ⟨a, n, ha, ⟨⟨_, _, _, rfl⟩, ⟨e, he, fun k => ?_⟩, Or.inl (hn ▸ hplace),
          Or.inl hmap, fun m => ⟨Or.inr, fun hm => hm.elim (fun he => he ▸ hmap) id⟩, ?_⟩⟩
        · rw [hdiv]
          exact getElem?_updatePage (s := { s with swapFile := _ }) he k
        · rw [hdiv]
          rfl
      · rw [if_neg hl] at hs
        cases hfind : bitMapFind s.swapMap numSwapPages with
        | none => simp [hfind] at hs
        | some n =>
          simp only [hfind, if_neg hl] at hs
          obtain rfl := Except.ok.inj hs
          have hfree : s.swapMap n = false := by simpa using List.find?_some hfind
          have hlt := List.mem_range.mp (List.mem_of_find?_eq_some hfind)
          refine ⟨a, n, ha, ⟨⟨_, _, _, rfl⟩, ⟨e, he, fun k => ?_⟩, Or.inr hfree, Or.inr hlt,
            fun m => ?_, rfl⟩⟩
          · exact getElem?_updatePage (s := { s with swapMap := _, swapFile := _ }) he k
          · by_cases hm : m = n <;> simp [updatePage, hm]

namespace Swapped
variable {a : Space} {n : ℕ}

omit [DecidableEq Thread] in
theorem swapPlace (h : Swapped s u f a n) (k : Space × ℕ) :
    swapPlace? u k =
      if k = (a, (s.ipt f).virtualPage) then some (n * pageSize) else swapPlace? s k := by
  obtain ⟨e, -, hk⟩ := h.entry
  rw [swapPlace?, hk]
  split_ifs
  · simp
  · rfl

omit [DecidableEq Thread] in
/-- The place is no other page's. -/
theorem apart (hs : SwapInv s) (h : Swapped s u f a n) {k : Space × ℕ}
    (hk : k ≠ (a, (s.ipt f).virtualPage)) {m : ℕ} (hm : swapPlace? s k = some (m * pageSize)) :
    m ≠ n := by
  rintro rfl
  rcases h.place with hp | hp
  · exact hk (hs.apart _ _ _ hm hp)
  · obtain ⟨m', hm', hmap⟩ := hs.place _ _ hm
    have : m = m' := Nat.eq_of_mul_eq_mul_right (by decide) hm'
    simp [this ▸ hmap] at hp

omit [DecidableEq Thread] in
theorem swapInv (hs : SwapInv s) (h : Swapped s u f a n) : SwapInv u := by
  refine ⟨fun k o hk => ?_, fun k k' o hk hk' => ?_⟩
  · rw [h.swapPlace] at hk
    split_ifs at hk
    · exact ⟨n, (Option.some.inj hk).symm, (h.map n).mpr (Or.inl rfl)⟩
    · obtain ⟨m, hm, hmap⟩ := hs.place k o hk
      exact ⟨m, hm, (h.map m).mpr (Or.inr hmap)⟩
  · rw [h.swapPlace] at hk hk'
    split_ifs at hk hk' with h1 h2 h2
    · rw [h1, h2]
    · rw [← Option.some.inj hk] at hk'
      exact absurd rfl (h.apart hs h2 hk')
    · rw [← Option.some.inj hk'] at hk
      exact absurd rfl (h.apart hs h1 hk)
    · exact hs.apart k k' o hk hk'

omit [DecidableEq Thread] in
theorem stored_self (h : Swapped s u f a n) (o : Fin pageSize) :
    storedPage cfg u (a, (s.ipt f).virtualPage) o = some (s.mainMemory (f * pageSize + o)) := by
  obtain ⟨e, -, hk⟩ := h.entry
  rw [storedPage, hk, if_pos rfl]
  simp [h.file, copyTo_in o.isLt]

omit [DecidableEq Thread] in
theorem stored_other (hs : SwapInv s) (h : Swapped s u f a n) {k : Space × ℕ}
    (hk : k ≠ (a, (s.ipt f).virtualPage)) : storedPage cfg u k = storedPage cfg s k := by
  obtain ⟨e₀, -, hentry⟩ := h.entry
  funext o
  rw [storedPage, storedPage, hentry, if_neg hk]
  cases he : (s.pageTable k.1)[k.2]? with
  | none => rfl
  | some e =>
    simp only [Option.bind_some]
    cases hl : e.location with
    | inSwap =>
      have hplace : swapPlace? s k = some e.offset := by simp [swapPlace?, he, hl]
      obtain ⟨m, hm, -⟩ := hs.place k _ hplace
      rw [hm] at hplace
      simp only [hm, h.file]
      rw [copyTo_out (page_apart (h.apart hs hk hplace) o)]
    | _ => rfl

end Swapped

/-! The end of `Evict`. -/

/-- The files after the victim was looked at: its page is there now if it was dirty. -/
structure WrittenBack (cfg : Config Thread Space) (s u : State Thread Space) (f : ℕ)
    (k : Space × ℕ) : Prop where
  frame : ∃ table map file, u = { s with pageTable := table, swapMap := map, swapFile := file }
  listed : ∀ (j : Space × ℕ) e, (s.pageTable j.1)[j.2]? = some e →
    ∃ e, (u.pageTable j.1)[j.2]? = some e
  swap : SwapInv u
  dirty : (s.ipt f).dirty = true → ∀ o : Fin pageSize,
    storedPage cfg u k o = some (s.mainMemory (f * pageSize + o))
  clean : (s.ipt f).dirty = false → storedPage cfg u k = storedPage cfg s k
  others : ∀ j, j ≠ k → storedPage cfg u j = storedPage cfg s j

omit [DecidableEq Thread] in
variable (cfg) in
theorem writtenBack (hs : SwapInv s) {a : Space} (ha : (s.ipt f).space = some a)
    (hw : (if (s.ipt f).dirty then writeToSwap s f else .ok s) = .ok u) :
    WrittenBack cfg s u f (a, (s.ipt f).virtualPage) := by
  cases hd : (s.ipt f).dirty with
  | false =>
    rw [hd] at hw
    obtain rfl := Except.ok.inj hw
    exact ⟨⟨s.pageTable, s.swapMap, s.swapFile, rfl⟩, fun _ e he => ⟨e, he⟩, hs,
      by simp [hd], fun _ => rfl, fun _ _ => rfl⟩
  | true =>
    rw [hd] at hw
    obtain ⟨b, n, hb, h⟩ := writeToSwap_spec hs hw
    obtain rfl : a = b := Option.some.inj (ha.symm.trans hb)
    obtain ⟨e₀, -, hentry⟩ := h.entry
    refine ⟨h.frame, fun j e he => ?_, h.swapInv hs, fun _ => h.stored_self, by simp [hd],
      fun j hj => h.stored_other hs hj⟩
    rw [hentry]
    split_ifs
    · exact ⟨_, rfl⟩
    · exact ⟨e, he⟩

omit [DecidableEq Thread] [DecidableEq Space] in
theorem setUse_self {b : Bool} (h : (s.ipt f).use = b) : setUse s f b = s := by
  subst h
  simp [setUse, State.setIPT]

theorem finishEviction_ok (hs : finishEviction s v f = .ok u) :
    ∃ w, (if (s.ipt f).dirty then writeToSwap s f else .ok s) = .ok w ∧
      u = releaseIPTLock (setUse w f true) (.loading v f) := by
  unfold finishEviction at hs
  split_ifs at hs ⊢
  · cases hw : writeToSwap s f with
    | error e =>
      rw [hw] at hs
      cases hs
    | ok w =>
      rw [hw] at hs
      exact ⟨w, rfl, (Except.ok.inj hs).symm⟩
  · exact ⟨s, rfl, (Except.ok.inj hs).symm⟩

/-- The victim's page leaves the frame. -/
theorem Inv.finish_eviction (h : Inv cfg s) (hp : s.phase s.currentThread = .evicting v f)
    (hs : finishEviction s v f = .ok u) :
    ∃ k, Inv cfg u ∧ Evicts (cacheOf cfg s) (cacheOf cfg u) f k := by
  have hpin : (s.phase s.currentThread).pinned? = some f := by simp [hp, Phase.pinned?]
  obtain ⟨a, ha, hheld⟩ := h.line_of_valid (h.frame.victim _ v f hp)
    (h.loads_pinned hpin (by simp [hp, Phase.loads?]))
  obtain ⟨w, hw, hwu⟩ := finishEviction_ok hs
  have hback := writtenBack cfg h.swap ha hw
  have huse : (w.ipt f).use = true := by
    obtain ⟨_, _, _, rfl⟩ := hback.frame
    exact (h.frame.pinned _ f hpin).2.1
  rw [setUse_self huse] at hwu
  subst hwu
  obtain ⟨table, map, file, rfl⟩ := hback.frame
  set u := releaseIPTLock { s with pageTable := table, swapMap := map, swapFile := file }
    (.loading v f) with hu
  have hphase : ∀ t, u.phase t = if t = s.currentThread then .loading v f else s.phase t :=
    setPhase_phase _ _
  have hpinned : ∀ t, (u.phase t).pinned? = (s.phase t).pinned? := by
    intro t
    rw [hphase]
    split_ifs with ht
    · rw [ht, hp]
      rfl
    · rfl
  have hbefore : ∀ {t q}, u.phase t = q → q ≠ .loading v f → s.phase t = q := by
    intro t q hq hne
    rw [hphase] at hq
    split_ifs at hq
    · exact absurd hq.symm hne
    · exact hq
  have hloads : ∀ g, g ≠ f →
      ((∀ t, (u.phase t).loads? ≠ some g) ↔ ∀ t, (s.phase t).loads? ≠ some g) := by
    intro g hg
    refine forall_congr' fun t => not_congr ?_
    rw [hphase]
    split_ifs with ht
    · rw [ht, hp]
      simp [Phase.loads?, hg.symm]
    · exact Iff.rfl
  have hline : ∀ g, g ≠ f → (cacheOf cfg u).line g = (cacheOf cfg s).line g := fun g hg =>
    line_congr rfl rfl rfl (hloads g hg)
  have hgone : (cacheOf cfg u).line f = none := by
    by_contra hne
    obtain ⟨k, hk⟩ := Option.ne_none_iff_exists'.mp hne
    refine (line_eq_some.mp hk).2.1 s.currentThread ?_
    rw [hphase, if_pos rfl]
    rfl
  have hsub : ∀ g k, (cacheOf cfg u).line g = some k → (cacheOf cfg s).line g = some k := by
    intro g k hk
    have hg : g ≠ f := by
      rintro rfl
      simp [hgone] at hk
    rw [← hline g hg, hk]
  have hslot : ∀ i, (s.tlb i).valid = true → (s.tlb i).physicalPage ≠ f := by
    rintro i hi rfl
    exact (h.tlb.slot i hi).kept _ v hp
  have hlock := h.lock_release (p := .loading v f) (by simp [hp, Phase.holdsIPT]) rfl
  refine ⟨(a, (s.ipt f).virtualPage), ⟨⟨hlock.table, hlock.ipt⟩, ?_, ?_, ?_,
    ⟨hback.swap.place, hback.swap.apart⟩⟩, ?_⟩
  · refine ⟨fun t g ht => h.frame.pinned t g (hpinned t ▸ ht), fun t t' g ht ht' =>
      h.frame.pinnedOnce t t' g (hpinned t ▸ ht) (hpinned t' ▸ ht'), fun g hg => ?_, fun g hg => ?_,
      fun g hlt hb => ?_, h.frame.listed, fun t x g ht => h.frame.victim t x g (hbefore ht (by simp))⟩
    · simpa only [hpinned] using h.frame.used g hg
    · obtain ⟨hb, hlt, hphys, b, e, hspace, he⟩ := h.frame.valid g hg
      obtain ⟨e', he'⟩ := hback.listed (b, (s.ipt g).virtualPage) e he
      exact ⟨hb, hlt, hphys, b, e', hspace, he'⟩
    · refine (h.frame.allocated g hlt hb).imp id fun hl => ?_
      by_contra hnone
      push Not at hnone
      by_cases hg : g = f
      · exact hnone s.currentThread (by rw [hphase, if_pos rfl, hg]; rfl)
      · obtain ⟨t, ht⟩ := hl
        exact (hloads g hg).mp hnone t ht
  · refine ⟨fun t x g ht => ?_, fun t x ht g hk => ?_⟩
    · have hfound := hbefore ht (by simp)
      have hg : g ≠ f := by
        rintro rfl
        obtain rfl := h.frame.pinnedOnce t s.currentThread g (by simp [hfound, Phase.pinned?]) hpin
        rw [hp] at hfound
        cases hfound
      rw [hline g hg]
      exact h.line.found t x g hfound
    · have hx : (s.phase t).seeks? = some x := by
        rw [hphase] at ht
        split_ifs at ht with hc
        · rw [hc, hp]
          exact ht
        · exact ht
      exact h.line.seeks t x hx g (hsub g _ hk)
  · refine ⟨fun i hi => ?_, h.tlb.once, fun x hx i hi => ?_⟩
    · have hs := h.tlb.slot i hi
      exact ⟨(hline _ (hslot i hi)).trans hs.line, hs.dirty, fun t x ht =>
        hs.kept t x (hbefore ht (by simp))⟩
    · refine h.tlb.fault x ?_ i hi
      have hcur : u.currentThread = s.currentThread := rfl
      rw [hcur, hphase, if_pos rfl] at hx
      rw [hp]
      exact hx
  · refine ⟨hheld, hgone, fun g hg => ⟨hline g hg, fun _ => ⟨rfl, rfl⟩⟩, fun hd => ?_, fun hd => ?_,
      hback.others⟩
    · rw [Inv.dirty_other hslot] at hd
      exact hback.dirty hd
    · rw [Inv.dirty_other hslot] at hd
      exact hback.clean hd

end Nachos.Paging
