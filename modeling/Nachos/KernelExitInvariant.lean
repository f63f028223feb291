import Nachos.KernelMultiprogramming

/-! The invariant of paging in runs with Exit. A thread that has exited leaves its slots in the TLB,
so until the next context switch the invariant is that of the saved state. -/
namespace Nachos.Paging
open Executions WriteBack

variable {Thread Space : Type*} {cfg : Config Thread Space}

theorem saveState_entry (s : State Thread Space) (g : ℕ) :
    ∃ d, (saveState s).ipt g = { s.ipt g with dirty := d } := by
  unfold saveState
  induction List.finRange tlbSize generalizing s with
  | nil => exact ⟨(s.ipt g).dirty, rfl⟩
  | cons i l ih =>
    obtain ⟨d, hd⟩ := ih ((s.copyDirty i).invalidate i)
    have hipt : ((s.copyDirty i).invalidate i).ipt g = (s.copyDirty i).ipt g := rfl
    rw [List.foldl_cons, hd, hipt, copyDirty_ipt]
    split_ifs <;> exact ⟨d, rfl⟩

theorem keepsCells_saveState (s : State Thread Space) :
    KeepsCells (cacheOf cfg s) (cacheOf cfg (saveState s)) := by
  obtain ⟨tlb, ipt, he⟩ := (saved_saveState s).frame
  have hphase : (saveState s).phase = s.phase := by rw [he]
  refine ⟨fun {f k} hf => ⟨?_, by rw [he]; rfl⟩, by rw [he]; rfl⟩
  obtain ⟨d, hd⟩ := saveState_entry s f
  rw [← hf]
  refine (line_congr ?_ ?_ ?_ ?_).symm
  · rw [hd]
  · rw [hd]
  · rw [hd]
  · rw [hphase]

theorem keepsCells_contextSwitch (s : State Thread Space) (next : Thread) :
    KeepsCells (cacheOf cfg s) (cacheOf cfg (contextSwitch s next)) := by
  have hchange : KeepsCells (cacheOf cfg (saveState s))
      (cacheOf cfg { saveState s with currentThread := next }) := ⟨fun hf => ⟨hf, rfl⟩, rfl⟩
  exact ((keepsCells_saveState s).trans hchange).trans (keepsCells_saveState _)

end Nachos.Paging

namespace Nachos.Multiprogramming
open Executions Paging WriteBack

variable {T : Type*} {cfg : Paging.Config T ℕ}

/-! Frames are freed. -/

namespace Freed
variable {s u : Paging.State T ℕ} {F : ℕ → Prop}

theorem saveState (h : Freed s u F) : Freed (saveState s) (saveState u) F := by
  unfold Paging.saveState
  induction List.finRange tlbSize generalizing s u with
  | nil => exact h
  | cons i l ih =>
    rw [List.foldl_cons, List.foldl_cons]
    refine ih ?_
    obtain ⟨ipt, map, rfl⟩ := h.frame
    have hipt : ∀ (w : Paging.State T ℕ) g, ((w.copyDirty i).invalidate i).ipt g =
        if (w.tlb i).valid = true ∧ (w.tlb i).physicalPage = g then
          { w.ipt g with dirty := (w.tlb i).dirty } else w.ipt g := fun w g => copyDirty_ipt w i g
    have hmap : ∀ w : Paging.State T ℕ,
        ((w.copyDirty i).invalidate i).mainMemoryBitmap = w.mainMemoryBitmap := by
      intro w
      rw [copyDirty_frame]
      rfl
    refine ⟨⟨(({ s with ipt := ipt, mainMemoryBitmap := map } : Paging.State T ℕ).copyDirty i).ipt,
      map, ?_⟩, fun f hf => ?_, fun f hf => ?_⟩
    · rw [copyDirty_frame, copyDirty_frame s]
      rfl
    · obtain ⟨hentry, hbit⟩ := h.freed f hf
      rw [hipt, hipt, hmap]
      refine ⟨?_, hbit⟩
      split_ifs
      · rw [hentry]
      · exact hentry
    · obtain ⟨hentry, hbit⟩ := h.kept f hf
      rw [hipt, hipt, hmap, hmap]
      refine ⟨?_, hbit⟩
      split_ifs
      · rw [hentry]
      · exact hentry

theorem line (h : Freed s u F) {f : ℕ} {k : ℕ × ℕ} :
    (cacheOf cfg u).line f = some k ↔ ¬ F f ∧ (cacheOf cfg s).line f = some k := by
  have hphase : u.phase = s.phase := by
    obtain ⟨ipt, map, rfl⟩ := h.frame
    rfl
  rw [line_eq_some, line_eq_some, hphase]
  by_cases hf : F f
  · simp [(h.freed f hf).1, hf]
  · simp [(h.kept f hf).1, hf]

theorem keepsCells (h : Freed s u F) : KeepsCells (cacheOf cfg s) (cacheOf cfg u) := by
  refine ⟨fun hf => ⟨(h.line.mp hf).2, ?_⟩, ?_⟩ <;>
    obtain ⟨ipt, map, rfl⟩ := h.frame <;> rfl

/-- The invariant stays if no slot of the TLB is valid and nobody keeps the frames in use. -/
theorem inv (h : Freed s u F) (hi : Inv cfg s) (hslot : ∀ i, (s.tlb i).valid = false)
    (hpin : ∀ f, F f → ∀ t, (s.phase t).pinned? ≠ some f) : Inv cfg u := by
  obtain ⟨hphase, htlb, htable, hlist, hswap, hlock⟩ : u.phase = s.phase ∧ u.tlb = s.tlb ∧
      u.pageTable = s.pageTable ∧ u.evictionList = s.evictionList ∧ u.swapMap = s.swapMap ∧
      u.pageTableLock = s.pageTableLock ∧ u.iptLock = s.iptLock := by
    obtain ⟨ipt, map, rfl⟩ := h.frame
    exact ⟨rfl, rfl, rfl, rfl, rfl, rfl, rfl⟩
  have hpinned : ∀ {t f}, (u.phase t).pinned? = some f → u.ipt f = s.ipt f ∧
      u.mainMemoryBitmap f = s.mainMemoryBitmap f := by
    intro t f ht
    rw [hphase] at ht
    exact h.kept f fun hf => hpin f hf t ht
  have hnotFreed : ∀ {f}, (u.ipt f).valid = true ∨ (u.ipt f).use = true ∨
      u.mainMemoryBitmap f = true →
      u.ipt f = s.ipt f ∧ u.mainMemoryBitmap f = s.mainMemoryBitmap f := by
    intro f hf
    refine h.kept f fun hF => ?_
    obtain ⟨he, hb⟩ := h.freed f hF
    simp [he, hb] at hf
  have hplace : swapPlace? u = swapPlace? s := by
    unfold swapPlace?
    rw [htable]
  refine ⟨⟨?_, ?_⟩, ⟨?_, ?_, ?_, ?_, ?_, ?_, ?_⟩, ⟨?_, ?_⟩, ⟨?_, ?_, ?_⟩, ⟨?_, ?_⟩⟩
  · rw [hphase, hlock.1]
    exact hi.lock.table
  · rw [hphase, hlock.2]
    exact hi.lock.ipt
  · intro t f ht
    obtain ⟨he, hb⟩ := hpinned ht
    rw [he, hb]
    exact hi.frame.pinned t f (hphase ▸ ht)
  · rw [hphase]
    exact hi.frame.pinnedOnce
  · intro f hf
    obtain ⟨he, -⟩ := hnotFreed (Or.inr (Or.inl hf))
    rw [hphase]
    exact hi.frame.used f (he ▸ hf)
  · intro f hf
    obtain ⟨he, hb⟩ := hnotFreed (Or.inl hf)
    rw [he, hb, htable]
    exact hi.frame.valid f (he ▸ hf)
  · intro f hlt hf
    obtain ⟨he, hb⟩ := hnotFreed (Or.inr (Or.inr hf))
    rw [he, hphase]
    exact hi.frame.allocated f hlt (hb ▸ hf)
  · rw [hlist]
    exact hi.frame.listed
  · intro t v f ht
    obtain ⟨he, -⟩ := hpinned (t := t) (f := f) (by rw [ht]; rfl)
    rw [he]
    exact hi.frame.victim t v f (hphase ▸ ht)
  · intro t v f ht
    rw [hphase] at ht
    exact h.line.mpr ⟨fun hf => hpin f hf t (by rw [ht]; rfl), hi.line.found t v f ht⟩
  · intro t v ht f hf
    exact hi.line.seeks t v (hphase ▸ ht) f (h.line.mp hf).2
  · exact fun i hv => by simp [htlb, hslot i] at hv
  · exact fun i _ hv => by simp [htlb, hslot i] at hv
  · exact fun _ _ i hv => by simp [htlb, hslot i] at hv
  · rw [hplace, hswap]
    exact hi.swap.place
  · rw [hplace]
    exact hi.swap.apart

end Freed

/-! The invariant over runs. -/

variable [DecidableEq T] {s u : State T} {a : Action T} {out : Option (List UInt8)}

structure SystemInv (cfg : Paging.Config T ℕ) (s : State T) : Prop where
  saved : Paging.Inv cfg (saveState s.paging)
  alive : (s.processes.thread s.paging.currentThread).status ≠ .exited → Paging.Inv cfg s.paging
  clearing : ∀ t, s.clearing t = true → (s.processes.thread t).status = .exited

/-- If the step ends the Exit of a process, nobody keeps one of its frames. -/
def ClearsUnused (s : State T) (a : Action T) : Prop :=
  a = .clearFrames → ∀ f < numPhysPages, (s.paging.ipt f).space = some (process s) →
    ∀ t, (s.paging.phase t).pinned? ≠ some f

omit [DecidableEq T] in
theorem systemInv_initial (first : T) : SystemInv cfg (initial cfg first) :=
  ⟨(inv_initial first).save_state.1, fun _ => inv_initial first, fun _ h => by cases h⟩

omit [DecidableEq T] in
theorem SystemInv.of_inv (hi : Paging.Inv cfg u.paging)
    (hclearing : ∀ t, u.clearing t = true → (u.processes.thread t).status = .exited) :
    SystemInv cfg u := ⟨hi.save_state.1, fun _ => hi, hclearing⟩

omit [DecidableEq T] in
/-- The current thread is gone, and some frames are free. -/
theorem SystemInv.of_freed {F : ℕ → Prop} (hi : Paging.Inv cfg (saveState s.paging))
    (h : Freed s.paging u.paging F) (hpin : ∀ f, F f → ∀ t, (s.paging.phase t).pinned? ≠ some f)
    (hgone : (u.processes.thread u.paging.currentThread).status = .exited)
    (hclearing : ∀ t, u.clearing t = true → (u.processes.thread t).status = .exited) :
    SystemInv cfg u := by
  have hphase : (saveState s.paging).phase = s.paging.phase := by
    obtain ⟨_, _, he⟩ := (saved_saveState s.paging).frame
    rw [he]
  refine ⟨h.saveState.inv hi (saved_saveState s.paging).no_slot ?_, fun hne => absurd hgone hne,
    hclearing⟩
  rw [hphase]
  exact hpin

theorem exited_of_change {s u : Processes.State T} (h : Processes.Change s u) {t : T}
    (ht : (s.thread t).status = .exited) : (u.thread t).status = .exited := by
  have hborn : ∀ {c p}, Processes.Born s u c p → (u.thread t).status = .exited := by
    intro c p hb
    refine (hb.others t ?_).2.2.2.mpr ht
    rintro rfl
    simp [hb.new] at ht
  cases h with
  | process c hnew => exact hborn hnew
  | fork _ c _ hnew => exact hborn hnew
  | start _ _ h => exact (h.keeps t).2.2.2.mpr ht
  | goesOn h => exact (h.thread t).2.2.2.mpr ht
  | exit x h =>
    rw [h.thread]
    by_cases hx : t = x
    · simp [hx]
    · simpa [hx] using ht

omit [DecidableEq T] in
theorem inUserMemory_alive (h : inUserMemory s = true) :
    (s.processes.thread s.paging.currentThread).status ≠ .exited := by
  intro he
  simp [inUserMemory, he] at h

theorem SystemInv.paging_step (h : SystemInv cfg s) {b : Paging.Action T} {p : Paging.State T ℕ}
    (hon : pagingEnabled s b = true) (hs : Paging.step cfg s.paging b = .ok (p, out)) :
    Paging.Inv cfg p := by
  cases b with
  | contextSwitch next =>
    obtain ⟨rfl, -⟩ := Prod.mk.inj (Except.ok.inj hs)
    exact ((h.saved.change_thread (saved_saveState s.paging).no_slot next).1).save_state.1
  | _ => exact (h.alive (inUserMemory_alive hon)).step hs

theorem SystemInv.next (h : SystemInv cfg s) (hc : Change cfg s u a out) (hclear : ClearsUnused s a) :
    SystemInv cfg u := by
  cases hc with
  | paging b p out hon hs hu =>
    subst hu
    exact SystemInv.of_inv (h.paging_step hon hs) h.clearing
  | processes a hp huser halive hnext hclearing =>
    refine SystemInv.of_inv (hp ▸ h.alive halive) fun t ht => ?_
    exact (hclearing t ht).elim (fun hs => exited_of_change hnext (h.clearing t hs)) id
  | exit huser halive hothers hlock hexit hclearing hfree =>
    have hfreed := (freeStack_spec hfree).2
    have hcurrent : u.paging.currentThread = s.paging.currentThread := by
      obtain ⟨_, _, he⟩ := hfreed.frame
      rw [he]
    refine SystemInv.of_freed h.saved hfreed (fun f hf => ?_) ?_ fun t ht => ?_
    · exact (h.alive (by simp [halive])).line_unpinned hf.1.2.1
    · rw [hcurrent, hexit.thread, Function.update_self]
    · exact exited_of_change (.exit _ hexit) (h.clearing t (hclearing ▸ ht))
  | clear hon hlock hu =>
    have hfreed := freed_freeProcess s.paging (process s)
    generalize freeProcess s.paging (process s) = p at hfreed hu
    subst hu
    have hcurrent : p.currentThread = s.paging.currentThread := by
      obtain ⟨_, _, he⟩ := hfreed.frame
      rw [he]
    refine SystemInv.of_freed h.saved hfreed (fun f hf => hclear rfl f hf.1 hf.2) ?_ fun t ht => ?_
    · dsimp only
      rw [hcurrent]
      exact h.clearing _ hon
    · by_cases htc : t = s.paging.currentThread
      · subst htc
        exact h.clearing _ hon
      · exact h.clearing t (by simpa [htc] using ht)

end Nachos.Multiprogramming
