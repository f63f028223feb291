import Nachos.KernelPagingLoads

/-! Context switches and the accesses of user programs. -/
namespace Nachos.Paging
open Executions WriteBack

variable {Thread Space : Type*} {cfg : Config Thread Space} {s u : State Thread Space}

namespace Saved

/-- Only dirty bits change in the inverted page table. -/
theorem entry (h : Saved s u (List.finRange tlbSize))
    (honce : ∀ i j, (s.tlb i).valid = true → (s.tlb j).valid = true →
      (s.tlb i).physicalPage = (s.tlb j).physicalPage → i = j) (g : ℕ) :
    ∃ d, u.ipt g = { s.ipt g with dirty := d } := by
  by_cases hex : ∃ i, (s.tlb i).valid = true ∧ (s.tlb i).physicalPage = g
  · obtain ⟨i, hi, rfl⟩ := hex
    exact ⟨_, h.copied i (List.mem_finRange i) hi fun j _ hj hij => honce j i hj hi hij⟩
  · exact ⟨(s.ipt g).dirty, h.kept g fun j _ hj hg => hex ⟨j, hj, hg⟩⟩

theorem no_slot (h : Saved s u (List.finRange tlbSize)) (j : Fin tlbSize) :
    (u.tlb j).valid = false := by
  rw [h.tlb, if_pos (List.mem_finRange j)]

end Saved

/-- With no slot in use it does not matter which thread runs. -/
theorem Inv.change_thread (h : Inv cfg s) (hslot : ∀ j, (s.tlb j).valid = false) (next : Thread) :
    Inv cfg { s with currentThread := next } ∧
      Same (cacheOf cfg s) (cacheOf cfg { s with currentThread := next }) := by
  refine ⟨⟨⟨h.lock.table, h.lock.ipt⟩, ⟨h.frame.pinned, h.frame.pinnedOnce, h.frame.used,
    h.frame.valid, h.frame.allocated, h.frame.listed, h.frame.victim⟩,
    ⟨h.line.found, h.line.seeks⟩, ⟨fun i hi => ?_, fun i j hi => ?_, fun v _ i hi => ?_⟩,
    ⟨h.swap.place, h.swap.apart⟩⟩, rfl, fun _ _ => ⟨rfl, rfl⟩, rfl⟩
  all_goals simp [hslot i] at hi

theorem Inv.save_state (h : Inv cfg s) : Inv cfg (saveState s) ∧
    Same (cacheOf cfg s) (cacheOf cfg (saveState s)) := by
  have hsaved := saved_saveState s
  have hslot := hsaved.no_slot
  have hentry := hsaved.entry h.tlb.once
  have hkept := hsaved.kept
  have hcopied := hsaved.copied
  obtain ⟨tlb, ipt, he⟩ := hsaved.frame
  rw [he] at hslot hentry hkept hcopied ⊢
  have hnone : ∀ j, ¬ (tlb j).valid = true := fun j hj => Bool.false_ne_true ((hslot j).symm.trans hj)
  have hfields : ∀ g, (ipt g).valid = (s.ipt g).valid ∧ (ipt g).space = (s.ipt g).space ∧
      (ipt g).virtualPage = (s.ipt g).virtualPage ∧ (ipt g).physicalPage = (s.ipt g).physicalPage ∧
      (ipt g).use = (s.ipt g).use := by
    intro g
    obtain ⟨d, hd⟩ := hentry g
    dsimp only at hd
    rw [hd]
    exact ⟨rfl, rfl, rfl, rfl, rfl⟩
  have hline : (cacheOf cfg { s with tlb := tlb, ipt := ipt }).line = (cacheOf cfg s).line := by
    funext g
    obtain ⟨hv, hs, hpage, -, -⟩ := hfields g
    exact line_congr hv hs hpage Iff.rfl
  have hframe : FrameInv { s with tlb := tlb, ipt := ipt } := by
    refine ⟨fun t g ht => ?_, h.frame.pinnedOnce, fun g hg => ?_, fun g hg => ?_,
      fun g hlt hb => ?_, h.frame.listed, fun t x g ht => ?_⟩ <;> dsimp only at *
    · rw [(hfields g).2.2.2.2]
      exact h.frame.pinned t g ht
    · rw [(hfields g).2.2.2.2] at hg
      exact h.frame.used g hg
    · obtain ⟨hv, hs, hpage, hphys, -⟩ := hfields g
      rw [hv] at hg
      rw [hs, hpage, hphys]
      exact h.frame.valid g hg
    · rw [(hfields g).1]
      exact h.frame.allocated g hlt hb
    · rw [(hfields g).1]
      exact h.frame.victim t x g ht
  refine ⟨⟨⟨h.lock.table, h.lock.ipt⟩, hframe, ⟨fun t x g ht => ?_, fun t x ht g => ?_⟩,
    ⟨fun i hi => ?_, fun i j hi => ?_, fun x _ i hi => ?_⟩, ⟨h.swap.place, h.swap.apart⟩⟩, hline,
    fun g _ => ⟨rfl, ?_⟩, rfl⟩
  · rw [hline]
    exact h.line.found t x g ht
  · rw [hline]
    exact h.line.seeks t x ht g
  · exact absurd hi (hnone i)
  · exact absurd hi (hnone i)
  · exact absurd hi (hnone i)
  · rw [Inv.dirty_other fun i hi => absurd hi (hnone i)]
    by_cases hex : ∃ i, (s.tlb i).valid = true ∧ (s.tlb i).physicalPage = g
    · obtain ⟨i, hi, rfl⟩ := hex
      rw [h.dirty_slot hi, hcopied i (List.mem_finRange i) hi fun j _ hj hij =>
        h.tlb.once j i hj hi hij]
    · push Not at hex
      rw [Inv.dirty_other hex, hkept g fun j _ hj => hex j hj]

theorem Inv.context_switch (h : Inv cfg s) (next : Thread) : Inv cfg (contextSwitch s next) ∧
    Same (cacheOf cfg s) (cacheOf cfg (contextSwitch s next)) := by
  obtain ⟨h1, hs1⟩ := h.save_state
  obtain ⟨h2, hs2⟩ := h1.change_thread (saved_saveState s).no_slot next
  obtain ⟨h3, hs3⟩ := h2.save_state
  exact ⟨h3, (hs1.trans hs2).trans hs3⟩

/-! Accesses. -/

theorem translate_none {address size : ℕ} {writing : Bool}
    (hs : translate s address size writing = .ok none) (i : Fin tlbSize)
    (hi : (s.tlb i).valid = true) : (s.tlb i).virtualPage ≠ address / pageSize := by
  unfold translate at hs
  split_ifs at hs
  split at hs
  · rename_i hfind
    have hnone := List.find?_eq_none.mp hfind i (List.mem_finRange i)
    simpa [hi] using hnone
  · dsimp only at hs
    split_ifs at hs
    cases hs

structure Translated (s u : State Thread Space) (address size : ℕ) (writing : Bool)
    (i : Fin tlbSize) (physAddr : ℕ) : Prop where
  valid : (s.tlb i).valid = true
  page : (s.tlb i).virtualPage = address / pageSize
  tlb : u = s.setTLB i { s.tlb i with use := true, dirty := (s.tlb i).dirty || writing }
  physAddr : physAddr = (s.tlb i).physicalPage * pageSize + address % pageSize
  aligned : (size = 4 → address % 4 = 0) ∧ (size = 2 → address % 2 = 0)

theorem translate_some {address size physAddr : ℕ} {writing : Bool}
    (hs : translate s address size writing = .ok (some (u, physAddr))) :
    ∃ i, Translated s u address size writing i physAddr := by
  unfold translate at hs
  split_ifs at hs with halign
  split at hs
  · cases hs
  · rename_i i hfind
    have hi := List.find?_some hfind
    simp only [Bool.and_eq_true, decide_eq_true_eq] at hi
    dsimp only at hs
    split_ifs at hs
    obtain ⟨rfl, rfl⟩ := Prod.mk.inj (Option.some.inj (Except.ok.inj hs))
    exact ⟨i, hi.1, hi.2, rfl, rfl, by tauto, by tauto⟩

/-- An access stays in its page. -/
theorem Translated.in_page {address size physAddr : ℕ} {writing : Bool} {i : Fin tlbSize}
    (h : Translated s u address size writing i physAddr) (hsize : size = 1 ∨ size = 2 ∨ size = 4) :
    address % pageSize + size ≤ pageSize := by
  obtain ⟨h4, h2⟩ := h.aligned
  unfold pageSize
  omega

theorem access_cases [DecidableEq Thread] {address size : ℕ} {writing : Bool}
    {perform : State Thread Space → ℕ → State Thread Space × Option (List UInt8)}
    {out : Option (List UInt8)}
    (hs : access s address size writing perform = .ok (u, out)) :
    s.phase s.currentThread = .user ∧ (size = 1 ∨ size = 2 ∨ size = 4) ∧
      (translate s address size writing = .ok none ∧
          u = s.setPhase (.faulted (address / pageSize)) ∧ out = none ∨
        ∃ t physAddr i, Translated s t address size writing i physAddr ∧
          perform t physAddr = (u, out)) := by
  unfold access at hs
  split_ifs at hs with hc
  refine ⟨hc.1, hc.2.1, ?_⟩
  split at hs
  · cases hs
  · rename_i ht
    obtain ⟨rfl, rfl⟩ := Prod.mk.inj (Except.ok.inj hs)
    exact Or.inl ⟨ht, rfl, rfl⟩
  · rename_i t physAddr ht
    obtain ⟨i, hi⟩ := translate_some ht
    exact Or.inr ⟨t, physAddr, i, hi, Except.ok.inj hs⟩

/-- A page fault is raised. -/
theorem Inv.fault [DecidableEq Thread] (h : Inv cfg s) {v : ℕ}
    (hp : s.phase s.currentThread = .user)
    (hv : ∀ i, (s.tlb i).valid = true → (s.tlb i).virtualPage ≠ v) :
    Inv cfg (s.setPhase (.faulted v)) ∧
      Same (cacheOf cfg s) (cacheOf cfg (s.setPhase (.faulted v))) := by
  refine h.of_phase (l := s.iptLock) (m := s.pageTableLock) (by simp [hp, Phase.pinned?]) rfl
    (LockInv.set cfg (by simp [Phase.holdsTable]) (by simp [Phase.holdsIPT])
      (fun t _ ht => h.lock.table t ht) fun t _ ht => h.lock.ipt t ht) (by simp [Phase.seeks?]) ?_
  rintro w ⟨⟩
  exact hv

/-- A slot is used, and perhaps marked. -/
theorem Inv.touch (h : Inv cfg s) {address size physAddr : ℕ} {writing : Bool} {i : Fin tlbSize}
    (ht : Translated s u address size writing i physAddr) : Inv cfg u := by
  have hslot : ∀ j, (u.tlb j).valid = (s.tlb j).valid ∧
      (u.tlb j).virtualPage = (s.tlb j).virtualPage ∧
      (u.tlb j).physicalPage = (s.tlb j).physicalPage ∧
      ((s.tlb j).dirty = true → (u.tlb j).dirty = true) := by
    intro j
    rw [ht.tlb]
    by_cases hj : j = i
    · subst hj
      simp +contextual [State.setTLB]
    · simp [State.setTLB, hj]
  have he : u = { s with tlb := u.tlb } := by
    rw [ht.tlb]
    rfl
  generalize u.tlb = tlb at he hslot
  subst he
  refine ⟨⟨h.lock.table, h.lock.ipt⟩, ⟨h.frame.pinned, h.frame.pinnedOnce, h.frame.used,
    h.frame.valid, h.frame.allocated, h.frame.listed, h.frame.victim⟩,
    ⟨h.line.found, h.line.seeks⟩, ⟨fun j hj => ?_, fun j k hj hk hjk => ?_, fun v hv j hj => ?_⟩,
    ⟨h.swap.place, h.swap.apart⟩⟩
  · obtain ⟨hv, hpage, hphys, hd⟩ := hslot j
    have hs := h.tlb.slot j (hv ▸ hj)
    refine ⟨?_, fun hd' => hd (hs.dirty ?_), fun t x htx => hs.kept t x (hphys ▸ htx)⟩
    · simp only [hphys, hpage]
      exact hs.line
    · simpa only [hphys] using hd'
  · obtain ⟨hvj, -, hpj, -⟩ := hslot j
    obtain ⟨hvk, -, hpk, -⟩ := hslot k
    exact h.tlb.once j k (hvj ▸ hj) (hvk ▸ hk) (hpj ▸ hpk ▸ hjk)
  · obtain ⟨hvj, hpage, -, -⟩ := hslot j
    simp only [hpage]
    exact h.tlb.fault v hv j (hvj ▸ hj)

end Nachos.Paging
