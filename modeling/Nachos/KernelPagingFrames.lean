import Nachos.KernelPaging
import Nachos.WriteBackCaches

/-! The frames, the TLB and the backing files as a write-back cache of the pages, and the loops
over the TLB. -/
namespace Nachos.Paging
open Executions WriteBack

variable {Thread Space : Type*} {cfg : Config Thread Space} {s u : State Thread Space}

namespace Phase

/-- The page that the thread is waiting for. -/
def page? : Phase → Option ℕ
  | .user => none
  | .faulted v | .tableLocked v | .searching v | .missing v | .choosing v => some v
  | .found v _ | .evicting v _ | .loading v _ => some v

/-- The frame that the thread keeps in use. -/
def pinned? : Phase → Option ℕ
  | .found _ f | .evicting _ f | .loading _ f => some f
  | _ => none

/-- The frame whose old page is gone and whose new one is not there. -/
def loads? : Phase → Option ℕ
  | .loading _ f => some f
  | _ => none

/-- The page for which the search found no frame. -/
def seeks? : Phase → Option ℕ
  | .missing v | .choosing v | .evicting v _ | .loading v _ => some v
  | _ => none

def holdsTable : Phase → Bool
  | .user | .faulted _ => false
  | _ => true

def holdsIPT : Phase → Bool
  | .searching _ | .choosing _ | .evicting _ _ => true
  | _ => false

theorem pinned?_of_loads? {p : Phase} {f : ℕ} (h : p.loads? = some f) : p.pinned? = some f := by
  cases p <;> simp_all [loads?, pinned?]

end Phase

/-- A page of the executable or the swap file, as far as it is there. -/
def storedPage (cfg : Config Thread Space) (s : State Thread Space) (k : Space × ℕ)
    (o : Fin pageSize) : Option UInt8 :=
  (s.pageTable k.1)[k.2]?.bind fun e =>
    match e.location with
    | .inExecutable => (cfg.executable k.1).file[e.offset + o]?
    | .inSwap => some (s.swapFile (e.offset + o))
    | .inMemory | .uninit => none

open Classical in
/-- The frames as cache lines. The dirty bit of a page is the one in the inverted page table or
the one in the TLB. -/
noncomputable def cacheOf (cfg : Config Thread Space) (s : State Thread Space) :
    Cache ℕ (Space × ℕ) (Fin pageSize) UInt8 where
  line f := if (s.ipt f).valid = true ∧ ∀ t, (s.phase t).loads? ≠ some f then
    (s.ipt f).space.map fun a => (a, (s.ipt f).virtualPage) else none
  data f o := s.mainMemory (f * pageSize + o)
  dirty f := (s.ipt f).dirty ||
    decide (∃ i, (s.tlb i).valid = true ∧ (s.tlb i).physicalPage = f ∧ (s.tlb i).dirty = true)
  stored := storedPage cfg s

theorem line_eq_some {f : ℕ} {k : Space × ℕ} :
    (cacheOf cfg s).line f = some k ↔ (s.ipt f).valid = true ∧
      (∀ t, (s.phase t).loads? ≠ some f) ∧ (s.ipt f).space = some k.1 ∧
      (s.ipt f).virtualPage = k.2 := by
  obtain ⟨a, v⟩ := k
  unfold cacheOf
  dsimp only
  split_ifs with h
  · simp [h, Option.map_eq_some_iff]
  · simp only [false_iff]
    exact fun hh => h ⟨hh.1, hh.2.1⟩

theorem dirty_eq_true {f : ℕ} : (cacheOf cfg s).dirty f = true ↔ (s.ipt f).dirty = true ∨
    ∃ i, (s.tlb i).valid = true ∧ (s.tlb i).physicalPage = f ∧ (s.tlb i).dirty = true := by
  simp [cacheOf]

/-- A line depends on its entry in the inverted page table and on who loads. -/
theorem line_congr {f : ℕ} (hv : (u.ipt f).valid = (s.ipt f).valid)
    (hs : (u.ipt f).space = (s.ipt f).space)
    (hp : (u.ipt f).virtualPage = (s.ipt f).virtualPage)
    (hl : (∀ t, (u.phase t).loads? ≠ some f) ↔ ∀ t, (s.phase t).loads? ≠ some f) :
    (cacheOf cfg u).line f = (cacheOf cfg s).line f := by
  ext k
  rw [line_eq_some, line_eq_some, hv, hs, hp, hl]

/-! The loops over the TLB. -/

/-- What a context switch does to slots and entries, other things being unchanged. -/
structure Saved (s u : State Thread Space) (l : List (Fin tlbSize)) : Prop where
  frame : ∃ tlb ipt, u = { s with tlb := tlb, ipt := ipt }
  tlb : ∀ j, u.tlb j = if j ∈ l then { s.tlb j with valid := false } else s.tlb j
  kept : ∀ g, (∀ j ∈ l, (s.tlb j).valid = true → (s.tlb j).physicalPage ≠ g) → u.ipt g = s.ipt g
  copied : ∀ i ∈ l, (s.tlb i).valid = true →
    (∀ j ∈ l, (s.tlb j).valid = true → (s.tlb j).physicalPage = (s.tlb i).physicalPage → j = i) →
    u.ipt (s.tlb i).physicalPage = { s.ipt (s.tlb i).physicalPage with dirty := (s.tlb i).dirty }

theorem copyDirty_ipt (s : State Thread Space) (i : Fin tlbSize) (g : ℕ) :
    (s.copyDirty i).ipt g =
      if (s.tlb i).valid = true ∧ (s.tlb i).physicalPage = g then
        { s.ipt g with dirty := (s.tlb i).dirty } else s.ipt g := by
  unfold State.copyDirty State.setIPT
  by_cases hv : (s.tlb i).valid = true
  · by_cases hg : (s.tlb i).physicalPage = g
    · subst hg
      simp [hv]
    · simp [hv, hg, Function.update_of_ne (Ne.symm hg)]
  · simp [hv]

theorem copyDirty_frame (s : State Thread Space) (i : Fin tlbSize) :
    s.copyDirty i = { s with ipt := (s.copyDirty i).ipt } := by
  unfold State.copyDirty State.setIPT
  split_ifs <;> rfl

theorem saved_foldl (l : List (Fin tlbSize)) : ∀ s : State Thread Space, l.Nodup →
    Saved s (l.foldl (fun s i => (s.copyDirty i).invalidate i) s) l := by
  induction l with
  | nil => exact fun s _ => ⟨⟨s.tlb, s.ipt, rfl⟩, by simp, fun _ _ => rfl, by simp⟩
  | cons i l ih =>
    intro s hn
    obtain ⟨hi, hn⟩ := List.nodup_cons.mp hn
    have h := ih ((s.copyDirty i).invalidate i) hn
    have hslot : ∀ j, ((s.copyDirty i).invalidate i).tlb j =
        if j = i then { s.tlb i with valid := false } else s.tlb j := by
      intro j
      rw [copyDirty_frame]
      by_cases hj : j = i
      · subst hj
        simp [State.invalidate, State.setTLB]
      · simp [State.invalidate, State.setTLB, hj]
    have hother : ∀ j ∈ l, ((s.copyDirty i).invalidate i).tlb j = s.tlb j := by
      intro j hj
      rw [hslot, if_neg (by rintro rfl; exact hi hj)]
    have hipt : ∀ g, ((s.copyDirty i).invalidate i).ipt g =
        if (s.tlb i).valid = true ∧ (s.tlb i).physicalPage = g then
          { s.ipt g with dirty := (s.tlb i).dirty } else s.ipt g := copyDirty_ipt s i
    refine ⟨?_, fun j => ?_, fun g hg => ?_, fun j hj hv hone => ?_⟩
    · obtain ⟨tlb, ipt, he⟩ := h.frame
      refine ⟨tlb, ipt, he.trans ?_⟩
      rw [copyDirty_frame]
      rfl
    · rw [List.foldl_cons, h.tlb, hslot]
      by_cases hji : j = i
      · subst hji
        simp [hi]
      · simp [hji]
    · rw [List.foldl_cons, h.kept g fun j hj => ?_, hipt, if_neg]
      · exact fun hh => hg i (by simp) hh.1 hh.2
      · rw [hother j hj]
        exact hg j (by simp [hj])
    · rw [List.foldl_cons]
      rcases List.mem_cons.mp hj with rfl | hj
      · rw [h.kept _ fun j' hj' hv' he => ?_, hipt, if_pos ⟨hv, rfl⟩]
        rw [hother j' hj'] at hv' he
        have := hone j' (by simp [hj']) hv' he
        exact hi (this ▸ hj')
      · have hne : ¬ ((s.tlb i).valid = true ∧ (s.tlb i).physicalPage = (s.tlb j).physicalPage) := by
          rintro ⟨hvi, he⟩
          have := hone i (by simp) hvi he
          exact hi (this ▸ hj)
        have hc := h.copied j hj (by rw [hother j hj]; exact hv) fun j' hj' hv' he => by
          rw [hother j' hj'] at hv' he
          rw [hother j hj] at he
          exact hone j' (by simp [hj']) hv' he
        rw [hother j hj, hipt, if_neg hne] at hc
        exact hc

theorem saved_saveState (s : State Thread Space) : Saved s (saveState s) (List.finRange tlbSize) :=
  saved_foldl _ s (List.nodup_finRange _)

/-- The loop of `Evict` passes over slots of other frames. -/
theorem foldl_evictSlot {f : ℕ} {l : List (Fin tlbSize)}
    (h : ∀ i ∈ l, ¬ ((s.tlb i).physicalPage = f ∧ (s.tlb i).valid = true)) :
    l.foldl (evictSlot f) s = s := by
  induction l with
  | nil => rfl
  | cons i l ih =>
    rw [List.foldl_cons, evictSlot, if_neg (h i (by simp))]
    exact ih fun j hj => h j (by simp [hj])

theorem evictFromTLB_frame (s : State Thread Space) (f : ℕ) :
    ∃ tlb ipt, evictFromTLB s f = { s with tlb := tlb, ipt := ipt } := by
  unfold evictFromTLB
  induction List.finRange tlbSize generalizing s with
  | nil => exact ⟨s.tlb, s.ipt, rfl⟩
  | cons i l ih =>
    obtain ⟨tlb, ipt, he⟩ := ih (evictSlot f s i)
    rw [List.foldl_cons, he]
    unfold evictSlot
    split_ifs <;> exact ⟨tlb, ipt, rfl⟩

theorem evictFromTLB_none {f : ℕ}
    (h : ∀ i, ¬ ((s.tlb i).physicalPage = f ∧ (s.tlb i).valid = true)) :
    evictFromTLB s f = s := foldl_evictSlot fun i _ => h i

theorem evictFromTLB_one {f : ℕ} {i : Fin tlbSize}
    (hi : (s.tlb i).physicalPage = f ∧ (s.tlb i).valid = true)
    (hone : ∀ j, (s.tlb j).physicalPage = f → (s.tlb j).valid = true → j = i) :
    evictFromTLB s f = evictSlot f s i := by
  obtain ⟨l₁, l₂, hl⟩ := List.append_of_mem (List.mem_finRange i)
  have hn := List.nodup_finRange tlbSize
  rw [hl] at hn
  have hi' := (List.nodup_cons.mp (List.nodup_middle.mp hn)).1
  have htlb : ∀ j, j ≠ i → (evictSlot f s i).tlb j = s.tlb j := by
    intro j hj
    unfold evictSlot
    rw [if_pos hi]
    split_ifs <;> simp [State.invalidate, State.setTLB, State.setIPT, hj]
  have hbefore : l₁.foldl (evictSlot f) s = s := by
    refine foldl_evictSlot fun j hj hm => ?_
    obtain rfl := hone j hm.1 hm.2
    exact hi' (List.mem_append_left _ hj)
  have hafter : l₂.foldl (evictSlot f) (evictSlot f s i) = evictSlot f s i := by
    refine foldl_evictSlot fun j hj hm => ?_
    have hne : j ≠ i := by
      rintro rfl
      exact hi' (List.mem_append_right _ hj)
    rw [htlb j hne] at hm
    exact hne (hone j hm.1 hm.2)
  rw [evictFromTLB, hl, List.foldl_append, List.foldl_cons, hbefore, hafter]

end Nachos.Paging
