import Nachos.KernelIsolation

/-! What Exit does with the locks and conditions of a process when its last thread leaves. -/
namespace Nachos.Threads
open Executions

variable {T L C O S : Type*} [DecidableEq T] [DecidableEq L] [DecidableEq C] [DecidableEq O]
  [DecidableEq S]

/-- The objects of the address space that were made and not deleted are deleted, each once. -/
def ObjectStore.FreesExactly (st st' : ObjectStore T O S) (s : S) : Prop :=
  ∃ os, st'.freed = st.freed ++ os ∧ os.Nodup ∧
    ∀ o, o ∈ os ↔ st.creator o = some s ∧ o ∉ st.freed

/-- Every slot in use belongs to a process with a thread that lives. -/
def ObjectStore.UsedByLiving (space : T → S) (alive : List T) (st : ObjectStore T O S) : Prop :=
  ∀ i, st.table.map i = true → ∃ v ∈ alive, st.creating v = some i ∨ st.space i = some (space v)

/-- The Exit of the last thread of a process. -/
structure ExitsCleanly (space : T → S) (x : ObjectStep T L C S) (t : T) : Prop where
  locksFreed : x.before.locks.FreesExactly x.after.locks (space t)
  conditionsFreed : x.before.conditions.FreesExactly x.after.conditions (space t)
  lockSlots : ∀ i s, s ≠ space t → x.before.locks.Owned space i s →
    x.before.locks.SameSlot x.after.locks i
  conditionSlots : ∀ i s, s ≠ space t → x.before.conditions.Owned space i s →
    x.before.conditions.SameSlot x.after.conditions i
  locksUsed : x.after.locks.UsedByLiving space x.after.alive
  conditionsUsed : x.after.conditions.UsedByLiving space x.after.alive

/-- A slot whose Create is under way is not named, not ended on and not swept, as for the
isolation of processes. When the last thread of a process exits, every slot with its
address space is in use; so is a marked slot on which a `Wait_Syscall` ends. -/
def ExitAllowed (space : T → S) (u : ObjectKernel T L C S) (call : ObjectCall T L C) : Prop :=
  IsolationAllowed space u call ∧
    match call with
    | .exit => ∀ t ∈ u.kernel.currentThread, u.LastOfProcess space t →
      (∀ n ∈ u.locks.table.exitSlots (space t) u.locks.table.arraySize,
        u.locks.table.map n = true) ∧
      ∀ n ∈ u.conditions.table.exitSlots (space t) u.conditions.table.arraySize,
        u.conditions.table.map n = true
    | .dispatch t => ∀ i ∈ u.waitingAt t, u.kernel.GetsLock t →
      u.conditions.isToBeDeleted i = true → u.conditions.table.map i = true
    | _ => True

instance [Fintype T] (space : T → S) (u : ObjectKernel T L C S) (call : ObjectCall T L C) :
    Decidable (ExitAllowed space u call) :=
  match call with
  | .exit =>
    inferInstanceAs (Decidable (_ ∧ ∀ t ∈ _, (∀ v ∈ _, _) → (∀ n ∈ _, _) ∧ ∀ n ∈ _, _))
  | .dispatch _ => inferInstanceAs (Decidable (_ ∧ ∀ i ∈ _, _ → _ → _))
  | .createLock | .newLock .. | .createCondition | .newCondition .. | .acquire _ | .release _
  | .wait .. | .signal .. | .broadcast .. | .destroyLock _ | .destroyCondition _ | .fork _ | .sleep
  | .wake _ =>
    inferInstanceAs (Decidable (_ ∧ True))

/-- The objects made and not deleted are in slots in use, one in each, of processes with a
thread that lives. -/
structure ObjectStore.Accounted (space : T → S) (alive : List T) (st : ObjectStore T O S) :
    Prop where
  sane : st.Sane
  holds : ∀ i, st.Live i → ∃ o s, st.object i = some o ∧ st.space i = some s ∧ o ∉ st.freed
  distinct : ∀ i j, st.Live i → st.Live j → st.object i = st.object j → i = j
  kept : ∀ o s, st.creator o = some s → o ∉ st.freed → ∃ i, st.Live i ∧ st.object i = some o
  old : ∀ o ∈ st.freed, st.creator o ≠ none
  inRange : ∀ i, st.table.map i = true → 0 ≤ i ∧ i < st.table.arraySize
  busy : ∀ t i, st.creating t = some i → t ∈ alive
  owners : ∀ i s, st.Live i → st.space i = some s → ∃ t ∈ alive, space t = s

variable {space : T → S} {alive : List T} {st st' : ObjectStore T O S} {t v : T} {i j : ℤ} {o : O}
  {s p : S}

namespace ObjectStore

omit [DecidableEq T] [DecidableEq O] [DecidableEq S] in
theorem Accounted.initial (memory : ℤ → Option S × Bool) :
    (ObjectStore.initial memory : ObjectStore T O S).Accounted space alive := by
  refine ⟨.initial memory, ?_, ?_, ?_, ?_, ?_, ?_, ?_⟩ <;>
    simp [ObjectStore.initial, ObjectTable.initial, ObjectStore.Live]

omit [DecidableEq T] [DecidableEq O] [DecidableEq S] in
theorem Accounted.mono (h : st.Accounted space alive) {alive' : List T}
    (ha : ∀ t ∈ alive, t ∈ alive') : st.Accounted space alive' := by
  refine ⟨h.sane, h.holds, h.distinct, h.kept, h.old, h.inRange,
    fun t i ht => ha t (h.busy t i ht), fun i s hi hs => ?_⟩
  obtain ⟨t, ht, hst⟩ := h.owners i s hi hs
  exact ⟨t, ha t ht, hst⟩

omit [DecidableEq O] [DecidableEq S] in
/-- A thread leaves while another of its process lives. -/
theorem Accounted.leave (h : st.Accounted space alive) (hc : st.creating t = none)
    (hv : v ∈ alive.erase t) (hs : space v = space t) : st.Accounted space (alive.erase t) := by
  refine ⟨h.sane, h.holds, h.distinct, h.kept, h.old, h.inRange, fun w i hw => ?_,
    fun i s hi hsp => ?_⟩
  · have hwt : w ≠ t := by
      rintro rfl
      simp [hc] at hw
    exact (List.mem_erase_of_ne hwt).mpr (h.busy w i hw)
  · obtain ⟨w, hw, hws⟩ := h.owners i s hi hsp
    by_cases hwt : w = t
    · exact ⟨v, hv, by rw [hs, ← hwt, hws]⟩
    · exact ⟨w, (List.mem_erase_of_ne hwt).mpr hw, hws⟩

omit [DecidableEq O] [DecidableEq S] in
theorem live_find (hc : st.creating t = none) (hf : st.find t = some st') :
    (st'.Live i ↔ st.Live i) ∧ st'.object i = st.object i ∧ st'.space i = st.space i := by
  obtain ⟨n, -, hn, rfl⟩ := find_eq hf
  refine ⟨?_, by simp [ObjectStore.object, ObjectTable.take], by
    simp [ObjectStore.space, ObjectTable.take]⟩
  constructor
  · rintro ⟨hmap, hcom⟩
    have hi : i ≠ n := by
      rintro rfl
      exact hcom t (by simp)
    refine ⟨by simpa [ObjectTable.take, hi] using hmap, fun v hv => ?_⟩
    have hvt : v ≠ t := by
      rintro rfl
      simp [hc] at hv
    exact hcom v (by simpa [hvt] using hv)
  · rintro ⟨hmap, hcom⟩
    have hi : i ≠ n := by
      rintro rfl
      simp [hmap] at hn
    refine ⟨by simpa [ObjectTable.take, hi] using hmap, fun v hv => ?_⟩
    by_cases hvt : v = t
    · subst hvt
      exact hi (by simpa [eq_comm] using hv)
    · exact hcom v (by simpa [hvt] using hv)

omit [DecidableEq O] [DecidableEq S] in
theorem Accounted.find (h : st.Accounted space alive) (hc : st.creating t = none)
    (ht : t ∈ alive) (hf : st.find t = some st') : st'.Accounted space alive := by
  have hlive {i} := live_find hc hf (i := i)
  have hsane := h.sane.find hf
  obtain ⟨n, hlt, -, rfl⟩ := find_eq hf
  refine ⟨hsane, fun i hi => ?_, fun i j hi hj he => ?_, fun o s ho hfree => ?_, h.old,
    fun i hi => ?_, fun v i hv => ?_, fun i s hi hs => ?_⟩
  · rw [hlive.2.1, hlive.2.2]
    exact h.holds i (hlive.1.mp hi)
  · rw [hlive.2.1, hlive.2.1] at he
    exact h.distinct i j (hlive.1.mp hi) (hlive.1.mp hj) he
  · obtain ⟨i, hi, hobj⟩ := h.kept o s ho hfree
    exact ⟨i, hlive.1.mpr hi, hlive.2.1.trans hobj⟩
  · have hsize := ObjectTable.arraySize_le_allocate st.table
    by_cases hin : i = n
    · subst hin
      exact ⟨by omega, by exact_mod_cast hlt⟩
    · have hold := h.inRange i (by simpa [ObjectTable.take, hin] using hi)
      exact ⟨hold.1, hold.2.trans_le (by exact_mod_cast hsize)⟩
  · by_cases hvt : v = t
    · exact hvt ▸ ht
    · exact h.busy v i (by simpa [hvt] using hv)
  · rw [hlive.2.2] at hs
    exact h.owners i s (hlive.1.mp hi) hs

omit [DecidableEq S] in
theorem Accounted.write (h : st.Accounted space alive) (hc : st.creating t = some i)
    (hnew : st.creator o = none) (ht : t ∈ alive) :
    (st.write t i o (space t)).Accounted space alive := by
  have hlive : ∀ {j}, (st.write t i o (space t)).Live j ↔ j = i ∨ st.Live j := by
    intro j
    constructor
    · rintro ⟨hmap, hcom⟩
      by_cases hj : j = i
      · exact .inl hj
      · refine .inr ⟨hmap, fun v hv => ?_⟩
        have hvt : v ≠ t := by
          rintro rfl
          exact hj (Option.some.inj (hv.symm.trans hc))
        exact hcom v (by simpa [ObjectStore.write, hvt] using hv)
    · have hcom : ∀ v, (st.write t i o (space t)).creating v = some j →
          v ≠ t ∧ st.creating v = some j := by
        intro v hv
        have hvt : v ≠ t := by
          rintro rfl
          simp [ObjectStore.write] at hv
        exact ⟨hvt, by simpa [ObjectStore.write, hvt] using hv⟩
      rintro (rfl | ⟨hmap, hcomplete⟩)
      · refine ⟨h.sane.taken t j hc, fun v hv => ?_⟩
        exact (hcom v hv).1 (h.sane.apart v t j (hcom v hv).2 hc)
      · exact ⟨hmap, fun v hv => hcomplete v (hcom v hv).2⟩
  have hnot : ¬ st.Live i := fun hi => hi.2 t hc
  have hentry : ∀ {j}, st.Live j → (st.write t i o (space t)).object j = st.object j ∧
      (st.write t i o (space t)).space j = st.space j := by
    intro j hj
    have hji : j ≠ i := by
      rintro rfl
      exact hnot hj
    simp [ObjectStore.object, ObjectStore.space, ObjectStore.write, ObjectTable.write, hji]
  have hself : (st.write t i o (space t)).object i = some o ∧
      (st.write t i o (space t)).space i = some (space t) := by
    simp [ObjectStore.object, ObjectStore.space, ObjectStore.write, ObjectTable.write]
  have hmade : ∀ {j}, st.Live j → st.object j ≠ some o := by
    intro j hj ho
    obtain ⟨o', s, ho', hs, -⟩ := h.holds j hj
    obtain rfl := Option.some.inj (ho.symm.trans ho')
    have := h.sane.made j o s ho hs
    simp [hnew] at this
  refine ⟨h.sane.write hc hnew (space t), fun j hj => ?_, fun j₁ j₂ h₁ h₂ he => ?_,
    fun o' s ho hfree => ?_, fun o' ho => ?_, h.inRange, fun v j hv => ?_, fun j s hj hs => ?_⟩
  · rcases hlive.mp hj with rfl | hj
    · exact ⟨o, space t, hself.1, hself.2, fun hfree => h.old o hfree hnew⟩
    · rw [(hentry hj).1, (hentry hj).2]
      exact h.holds j hj
  · rcases hlive.mp h₁ with rfl | hj₁
    · rcases hlive.mp h₂ with rfl | hj₂
      · rfl
      · rw [hself.1, (hentry hj₂).1] at he
        exact absurd he.symm (hmade hj₂)
    · rcases hlive.mp h₂ with rfl | hj₂
      · rw [hself.1, (hentry hj₁).1] at he
        exact absurd he (hmade hj₁)
      · rw [(hentry hj₁).1, (hentry hj₂).1] at he
        exact h.distinct j₁ j₂ hj₁ hj₂ he
  · by_cases ho' : o' = o
    · subst ho'
      exact ⟨i, hlive.mpr (.inl rfl), hself.1⟩
    · obtain ⟨j, hj, hobj⟩ := h.kept o' s (by simpa [ObjectStore.write, ho'] using ho) hfree
      exact ⟨j, hlive.mpr (.inr hj), (hentry hj).1.trans hobj⟩
  · by_cases ho' : o' = o
    · simp [ObjectStore.write, ho']
    · simpa [ObjectStore.write, ho'] using h.old o' ho
  · have hvt : v ≠ t := by
      rintro rfl
      simp [ObjectStore.write] at hv
    exact h.busy v j (by simpa [ObjectStore.write, hvt] using hv)
  · rcases hlive.mp hj with rfl | hj
    · exact ⟨t, ht, Option.some.inj (hself.2.symm.trans hs)⟩
    · rw [(hentry hj).2] at hs
      exact h.owners j s hj hs

omit [DecidableEq T] [DecidableEq O] [DecidableEq S] in
theorem Accounted.defer (h : st.Accounted space alive) (i : ℤ) :
    (st.defer i).Accounted space alive := by
  have hentry : ∀ j, (st.defer i).object j = st.object j ∧ (st.defer i).space j = st.space j := by
    intro j
    by_cases hj : j = i <;>
      simp [ObjectStore.object, ObjectStore.space, ObjectStore.defer, ObjectTable.setToBeDeleted, hj]
  refine ⟨h.sane.defer i, fun j hj => ?_, fun j₁ j₂ h₁ h₂ he => ?_, fun o s ho hfree => ?_, h.old,
    h.inRange, h.busy, fun j s hj hs => ?_⟩
  · rw [(hentry j).1, (hentry j).2]
    exact h.holds j hj
  · rw [(hentry j₁).1, (hentry j₂).1] at he
    exact h.distinct j₁ j₂ h₁ h₂ he
  · obtain ⟨j, hj, hobj⟩ := h.kept o s ho hfree
    exact ⟨j, hj, (hentry j).1.trans hobj⟩
  · rw [(hentry j).2] at hs
    exact h.owners j s hj hs

omit [DecidableEq T] [DecidableEq O] [DecidableEq S] in
theorem Accounted.delete (h : st.Accounted space alive) (hi : st.Live i)
    (ho : st.object i = some o) : (st.delete i o).Accounted space alive := by
  have hlive : ∀ {j}, (st.delete i o).Live j ↔ j ≠ i ∧ st.Live j := by
    intro j
    by_cases hj : j = i
    · simp [ObjectStore.Live, ObjectStore.delete, ObjectTable.clear, hj]
    · simp [ObjectStore.Live, ObjectStore.delete, ObjectTable.clear, hj, ObjectStore.Complete]
  refine ⟨h.sane.delete hi.2 o, fun j hj => ?_, fun j₁ j₂ h₁ h₂ he => ?_, fun o' s ho' hfree => ?_,
    fun o' ho' => ?_, fun j hj => ?_, h.busy, fun j s hj hs => h.owners j s (hlive.mp hj).2 hs⟩
  · obtain ⟨hne, hold⟩ := hlive.mp hj
    obtain ⟨o', s, ho', hs, hfree⟩ := h.holds j hold
    refine ⟨o', s, ho', hs, ?_⟩
    have hoo : o' ≠ o := by
      rintro rfl
      exact hne (h.distinct j i hold hi (ho'.trans ho.symm))
    simp [ObjectStore.delete, hfree, hoo]
  · exact h.distinct j₁ j₂ (hlive.mp h₁).2 (hlive.mp h₂).2 he
  · simp only [ObjectStore.delete, List.mem_append, List.mem_singleton, not_or] at hfree
    obtain ⟨j, hj, hobj⟩ := h.kept o' s ho' hfree.1
    refine ⟨j, hlive.mpr ⟨?_, hj⟩, hobj⟩
    rintro rfl
    exact hfree.2 (Option.some.inj (hobj.symm.trans ho))
  · simp only [ObjectStore.delete, List.mem_append, List.mem_singleton] at ho'
    rcases ho' with ho' | rfl
    · exact h.old o' ho'
    · obtain ⟨o'', s, ho'', hs, -⟩ := h.holds i hi
      obtain rfl := Option.some.inj (ho.symm.trans ho'')
      simp [ObjectStore.delete, h.sane.made i o' s ho hs]
  · by_cases hji : j = i
    · simp [ObjectStore.delete, ObjectTable.clear, hji] at hj
    · exact h.inRange j (by simpa [ObjectStore.delete, ObjectTable.clear, hji] using hj)

/-! Exit of the last thread `t` of address space `s`, all of whose slots are in use. -/

omit [DecidableEq T] [DecidableEq O] in
theorem live_exit (he : st.exit s = some st') :
    st'.Live i ↔ ¬ st.table.Cleared s st.table.arraySize i ∧ st.Live i := by
  have hslot := exit_slot he i
  have hcom : st'.Complete i ↔ st.Complete i := by
    obtain ⟨-, rfl⟩ := exit_eq he
    rfl
  unfold ObjectStore.Live
  rw [hcom, hslot.1]
  split_ifs with hi <;> simp [hi]

omit [DecidableEq T] [DecidableEq O] [DecidableEq S] in
theorem cleared_iff (h : st.Accounted space alive) (hi : st.Live i) :
    st.table.Cleared s st.table.arraySize i ↔ st.space i = some s :=
  ⟨fun hc => hc.2.2, fun hs => ⟨(h.inRange i hi.1).1, (h.inRange i hi.1).2, hs⟩⟩

omit [DecidableEq T] [DecidableEq O] in
theorem mem_swept :
    o ∈ ((st.table.exitSlots s st.table.arraySize).map fun i : ℕ => st.object i).reduceOption ↔
      ∃ i, st.table.Cleared s st.table.arraySize i ∧ st.object i = some o := by
  rw [List.reduceOption_mem_iff, List.mem_map]
  constructor
  · rintro ⟨n, hn, ho⟩
    exact ⟨n, mem_exitSlots.mp hn, ho⟩
  · rintro ⟨i, hi, ho⟩
    have h0 := hi.1
    have hn : ((i.toNat : ℕ) : ℤ) = i := by omega
    exact ⟨i.toNat, mem_exitSlots.mpr (hn ▸ hi), by rw [hn]; exact ho⟩

omit [DecidableEq T] [DecidableEq O] in
theorem exit_freesExactly (h : st.Accounted space alive) (he : st.exit s = some st')
    (hlive : ∀ n ∈ st.table.exitSlots s st.table.arraySize, st.Live n) :
    st.FreesExactly st' s := by
  have hcleared : ∀ {i}, st.table.Cleared s st.table.arraySize i → st.Live i :=
    fun hi => cleared_of_slots hlive hi
  obtain ⟨-, rfl⟩ := exit_eq he
  refine ⟨_, rfl, ?_, fun o => ?_⟩
  · -- two slots in use hold two objects
    rw [List.reduceOption, List.filterMap_map, List.Nodup, List.pairwise_filterMap]
    have hnodup : (st.table.exitSlots s st.table.arraySize).Nodup :=
      (List.nodup_range).filter _
    refine hnodup.imp_of_mem fun {n m} hn hm hne o ho o' ho' hoo => hne ?_
    subst hoo
    have heq := h.distinct n m (hlive n hn) (hlive m hm) (ho.trans ho'.symm)
    exact_mod_cast heq
  · rw [mem_swept]
    constructor
    · rintro ⟨i, hi, ho⟩
      obtain ⟨o', s', ho', hs, hfree⟩ := h.holds i (hcleared hi)
      obtain rfl := Option.some.inj (ho.symm.trans ho')
      exact ⟨h.sane.made i o s ho hi.2.2, hfree⟩
    · rintro ⟨ho, hfree⟩
      obtain ⟨i, hi, hobj⟩ := h.kept o s ho hfree
      obtain ⟨o', s', ho', hs, -⟩ := h.holds i hi
      obtain rfl := Option.some.inj (hobj.symm.trans ho')
      obtain rfl := Option.some.inj (ho.symm.trans (h.sane.made i o s' hobj hs))
      exact ⟨i, (cleared_iff h hi).mpr hs, hobj⟩

omit [DecidableEq O] in
theorem Accounted.exit (h : st.Accounted space alive) (hc : st.creating t = none)
    (he : st.exit (space t) = some st')
    (hlive : ∀ n ∈ st.table.exitSlots (space t) st.table.arraySize, st.Live n) :
    st'.Accounted space (alive.erase t) := by
  have hnew := exit_freesExactly h he hlive
  have hslot := exit_slot he
  have hlive' {i} := live_exit he (i := i)
  have hentry : ∀ {i}, st'.Live i → st'.object i = st.object i ∧ st'.space i = st.space i := by
    intro i hi
    have hentry := (hslot i).2
    rw [if_neg (hlive'.mp hi).1] at hentry
    simp [ObjectStore.object, ObjectStore.space, hentry]
  have hcreator : st'.creator = st.creator ∧ st'.creating = st.creating ∧
      st'.table.arraySize = st.table.arraySize := by
    obtain ⟨-, rfl⟩ := exit_eq he
    exact ⟨rfl, rfl, by rw [ObjectTable.exitLoop_eq]⟩
  obtain ⟨os, hfreed, -, hos⟩ := hnew
  refine ⟨h.sane.exit he fun n hn => (hlive n hn).2, fun i hi => ?_, fun i j hi hj heq => ?_,
    fun o s ho hfree => ?_, fun o ho => ?_, fun i hi => ?_, fun v i hv => ?_, fun i s hi hs => ?_⟩
  · obtain ⟨o, s, ho, hs, hfree⟩ := h.holds i (hlive'.mp hi).2
    refine ⟨o, s, (hentry hi).1.trans ho, (hentry hi).2.trans hs, ?_⟩
    rw [hfreed, List.mem_append, hos]
    rintro (hf | ⟨hcr, -⟩)
    · exact hfree hf
    · obtain rfl := Option.some.inj (hcr.symm.trans (h.sane.made i o s ho hs))
      exact (hlive'.mp hi).1 ((cleared_iff h (hlive'.mp hi).2).mpr hs)
  · rw [(hentry hi).1, (hentry hj).1] at heq
    exact h.distinct i j (hlive'.mp hi).2 (hlive'.mp hj).2 heq
  · rw [hcreator.1] at ho
    rw [hfreed, List.mem_append, hos, not_or] at hfree
    obtain ⟨i, hi, hobj⟩ := h.kept o s ho hfree.1
    have hi' : st'.Live i := by
      refine hlive'.mpr ⟨fun hcl => hfree.2 ⟨?_, hfree.1⟩, hi⟩
      exact h.sane.made i o (space t) hobj hcl.2.2
    exact ⟨i, hi', (hentry hi').1.trans hobj⟩
  · rw [hcreator.1]
    rw [hfreed, List.mem_append, hos] at ho
    rcases ho with ho | ⟨ho, -⟩
    · exact h.old o ho
    · simp [ho]
  · rw [hcreator.2.2]
    rw [(hslot i).1] at hi
    split_ifs at hi
    exact h.inRange i hi
  · rw [hcreator.2.1] at hv
    have hvt : v ≠ t := by
      rintro rfl
      simp [hc] at hv
    exact (List.mem_erase_of_ne hvt).mpr (h.busy v i hv)
  · rw [(hentry hi).2] at hs
    obtain ⟨v, hv, rfl⟩ := h.owners i s (hlive'.mp hi).2 hs
    have hvt : v ≠ t := by
      rintro rfl
      exact (hlive'.mp hi).1 ((cleared_iff h (hlive'.mp hi).2).mpr hs)
    exact ⟨v, (List.mem_erase_of_ne hvt).mpr hv, rfl⟩

omit [DecidableEq T] [DecidableEq O] [DecidableEq S] in
theorem usedByLiving_of_accounted (h : st.Accounted space alive) : st.UsedByLiving space alive := by
  intro i hi
  by_cases hcom : st.Complete i
  · obtain ⟨o, s, -, hs, -⟩ := h.holds i ⟨hi, hcom⟩
    obtain ⟨v, hv, rfl⟩ := h.owners i s ⟨hi, hcom⟩ hs
    exact ⟨v, hv, .inr hs⟩
  · simp only [ObjectStore.Complete, not_forall, not_not] at hcom
    obtain ⟨v, hv⟩ := hcom
    exact ⟨v, h.busy v i hv, .inl hv⟩

end ObjectStore

/-! Steps. -/

variable {u u' : ObjectKernel T L C S} {call : ObjectCall T L C} {k k' : Kernel T L C}
  {a : Action T L C} {out : List T} {l lock : L} {c : C}

/-- The thread runs, is ready, or is inside a call. -/
def Kernel.Present (k : Kernel T L C) (t : T) : Prop :=
  k.currentThread = some t ∨ t ∈ k.readyList ∨ ∃ call, k.inside t = some call

omit [DecidableEq L] [DecidableEq C] in
theorem present_of_update {k₁ : Kernel T L C} (h : k₁.Present v)
    (hk : k₁.inside = k.inside ∨ ∃ call, k₁.inside = Function.update k.inside t call)
    (hc : k₁.currentThread = none ∨ k₁.currentThread = k.currentThread)
    (hr : ∀ w ∈ k₁.readyList, k.Present w) (ht : k.Present t) : k.Present v := by
  rcases h with h | h | ⟨call', h⟩
  · rcases hc with hc | hc
    · simp [hc] at h
    · exact .inl (hc ▸ h)
  · exact hr v h
  · rcases hk with hk | ⟨call, hk⟩
    · exact .inr (.inr ⟨call', hk ▸ h⟩)
    · by_cases hv : v = t
      · exact hv ▸ ht
      · rw [hk, Function.update_of_ne hv] at h
        exact .inr (.inr ⟨call', h⟩)

omit [DecidableEq C] in
theorem acquire_readyList (k : Kernel T L C) (t : T) (lock : L) (call : Inside L C) :
    (k.acquire t lock call).readyList = k.readyList ∧
      ((k.acquire t lock call).currentThread = none ∨
        (k.acquire t lock call).currentThread = k.currentThread) := by
  unfold Kernel.acquire
  dsimp only
  split_ifs
  · exact ⟨rfl, .inl rfl⟩
  · exact ⟨rfl, .inr rfl⟩

omit [DecidableEq C] in
theorem release_readyList (hp : Placed k) (t : T) (lock : L) :
    ∀ w ∈ (k.release t lock).1.readyList, k.Present w := by
  intro w hw
  rcases Lock.release_cases (k.locks lock) t with ⟨-, he⟩ | ⟨-, x, rest, hq, he⟩ | ⟨-, -, he⟩
  · exact .inr (.inl (by simpa [Kernel.release, he, Kernel.setLock] using hw))
  · have hw : w ∈ k.readyList ∨ w = x := by
      simpa [Kernel.release, he, Kernel.setLock, Kernel.readyToRun] using hw
    rcases hw with hw | rfl
    · exact .inr (.inl hw)
    · obtain ⟨-, call, hcall, -⟩ := hp.queued lock w (by simp [hq])
      exact .inr (.inr ⟨call, hcall⟩)
  · exact .inr (.inl (by simpa [Kernel.release, he, Kernel.setLock] using hw))

omit [DecidableEq T] [DecidableEq L] in
theorem wakeWaiters_readyList (hp : Placed k) {threads rest : List T}
    (hq : ∀ w ∈ threads, w ∈ (k.conditions c).queue) :
    ∀ w ∈ (k.wakeWaiters c lock threads rest).readyList, k.Present w := by
  intro w hw
  have hw : w ∈ k.readyList ∨ w ∈ threads := by
    simpa [Kernel.wakeWaiters, Kernel.readyToRun, Kernel.setCondition] using hw
  rcases hw with hw | hw
  · exact .inr (.inl hw)
  · obtain ⟨-, lock, hcall, -⟩ := hp.waiting c w (hq w hw)
    exact .inr (.inr ⟨_, hcall⟩)

/-- A step of the kernel brings no thread in but the one it wakes. -/
theorem present_before (hp : Placed k) (hm : KernelMove k a k' out) (h : k'.Present v) :
    k.Present v ∨ a = .wake v := by
  cases hm with
  | @acquire t lock ht =>
    obtain ⟨hready, hcur⟩ := acquire_readyList k t lock (.acquire lock)
    exact .inl (present_of_update h
      ((acquire_place k t lock _).imp_right fun he => ⟨_, he⟩) hcur
      (fun w hw => .inr (.inl (hready ▸ hw))) (.inl ht))
  | @release t lock ht =>
    exact .inl (present_of_update (t := t) h (.inl rfl) (.inr rfl) (release_readyList hp t lock)
      (.inl ht))
  | @waited t c lock ht hc =>
    exact .inl (present_of_update h (.inr ⟨_, rfl⟩) (.inl rfl) (release_readyList hp t lock) (.inl ht))
  | @signalled t w c lock rest ht hw hq =>
    exact .inl (present_of_update (t := t) h (.inl rfl) (.inr rfl)
      (wakeWaiters_readyList hp (by simp [hq])) (.inl ht))
  | @broadcast t c lock ht hw =>
    exact .inl (present_of_update (t := t) h (.inl rfl) (.inr rfl)
      (wakeWaiters_readyList hp fun _ hw => hw) (.inl ht))
  | @slept t ht =>
    exact .inl (present_of_update (t := t) h (.inl rfl) (.inl rfl) (fun w hw => .inr (.inl hw))
      (.inl ht))
  | bound | refused => exact .inl h
  | @dispatched t ht =>
    have hbase : ∀ w, ({ k with
        readyList := k.readyList.erase t ++ k.currentThread.toList
        currentThread := some t
        inside := Function.update k.inside t none } : Kernel T L C).Present w → k.Present w := by
      rintro w (hw | hw | ⟨call, hw⟩)
      · exact Option.some.inj hw ▸ .inr (.inl ht)
      · rcases List.mem_append.mp hw with hw | hw
        · exact .inr (.inl (List.mem_of_mem_erase hw))
        · exact .inl (by simpa using hw)
      · by_cases hwt : w = t
        · exact hwt ▸ .inr (.inl ht)
        · exact .inr (.inr ⟨call, by simpa [hwt] using hw⟩)
    unfold Kernel.dispatch at h
    dsimp only at h
    split at h
    · next c lock hin =>
      obtain ⟨hready, hcur⟩ := acquire_readyList ({ k with
        readyList := k.readyList.erase t ++ k.currentThread.toList
        currentThread := some t
        inside := Function.update k.inside t none } : Kernel T L C) t lock (.reacquire c lock)
      exact .inl (hbase v (present_of_update h
        ((acquire_place _ t lock _).imp_right fun he => ⟨_, he⟩) hcur
        (fun w hw => .inr (.inl (hready ▸ hw))) (.inl rfl)))
    · exact .inl (hbase v h)
  | @woken t hr hc hi =>
    rcases h with h | h | h
    · exact .inl (.inl h)
    · have h : v ∈ k.readyList ∨ v = t := by simpa [Kernel.readyToRun] using h
      rcases h with h | rfl
      · exact .inl (.inr (.inl h))
      · exact .inr rfl
    · exact .inl (.inr (.inr h))

/-- Both tables are accounted for, and the threads that are present live. -/
structure Tidy (space : T → S) (u : ObjectKernel T L C S) : Prop where
  separate : Separate space u
  locks : u.locks.Accounted space u.alive
  conditions : u.conditions.Accounted space u.alive
  present : ∀ t, u.kernel.Present t → t ∈ u.alive

namespace Tidy

omit [DecidableEq S] in
theorem kernel (h : Tidy space u) (hm : KernelMove u.kernel a k' out)
    (hs : Separate space u') (hk : u'.kernel = k') (hl : u'.locks = u.locks)
    (hc : u'.conditions = u.conditions) (ha : ∀ t ∈ u.alive, t ∈ u'.alive)
    (hw : ∀ t, a = .wake t → t ∈ u'.alive) : Tidy space u' := by
  refine ⟨hs, by rw [hl]; exact h.locks.mono ha, by rw [hc]; exact h.conditions.mono ha,
    fun t ht => ?_⟩
  rw [hk] at ht
  rcases present_before h.separate.placed hm ht with ht | ht
  · exact ha t (h.present t ht)
  · exact hw t ht

omit [DecidableEq T] [DecidableEq L] [DecidableEq C] [DecidableEq S] in
theorem endsWait (h : Tidy space u) (he : EndsWait u i u') (hs : Separate space u')
    (hlive : u.conditions.isToBeDeleted i = true → u.conditions.Live i) : Tidy space u' := by
  cases he with
  | kept => exact h
  | freed hm ho hq => exact ⟨hs, h.locks, h.conditions.delete (hlive hm) ho, h.present⟩

end Tidy

omit [DecidableEq T] [DecidableEq L] [DecidableEq C] in
theorem LockNamed.live (hn : LockNamed space u t j lock) (hcom : u.locks.Complete j) :
    u.locks.Live j := ⟨(ObjectTable.validates_iff.mp hn.valid).2.2.1, hcom⟩

omit [DecidableEq T] [DecidableEq L] [DecidableEq C] in
theorem ConditionNamed.live (hn : ConditionNamed space u t i c) (hcom : u.conditions.Complete i) :
    u.conditions.Live i := ⟨(ObjectTable.validates_iff.mp hn.valid).2.2.1, hcom⟩

omit [DecidableEq L] [DecidableEq C] [DecidableEq S] in
/-- Who is present when thread `t` has left. -/
theorem present_after_exit (h : Tidy space u) (ht : u.kernel.currentThread = some t)
    (hv : ({ u.kernel with currentThread := none } : Kernel T L C).Present v) :
    v ∈ u.alive.erase t := by
  obtain ⟨hin, hready⟩ := h.separate.placed.running t ht
  rcases hv with hv | hv | ⟨call, hv⟩
  · cases hv
  · have hvt : v ≠ t := by
      rintro rfl
      exact hready hv
    exact (List.mem_erase_of_ne hvt).mpr (h.present v (.inr (.inl hv)))
  · have hvt : v ≠ t := by
      rintro rfl
      simp [hin] at hv
    exact (List.mem_erase_of_ne hvt).mpr (h.present v (.inr (.inr ⟨call, hv⟩)))

theorem tidy_step (h : Tidy space u) (hm : ObjectMove space u call u')
    (hc : ExitAllowed space u call) : Tidy space u' := by
  have hs := separate_step h.separate hm hc.1
  cases hm with
  | ignored => exact h
  | @foundLock t st ht hcr hf =>
    exact ⟨hs, h.locks.find hcr (h.present t (.inl ht)) hf, h.conditions, h.present⟩
  | @wroteLock t i lock memory ht hcr hnew =>
    exact ⟨hs, h.locks.write hcr hnew (h.present t (.inl ht)), h.conditions, h.present⟩
  | @foundCondition t st ht hcr hf =>
    exact ⟨hs, h.locks, h.conditions.find hcr (h.present t (.inl ht)) hf, h.present⟩
  | @wroteCondition t i c memory ht hcr hnew =>
    exact ⟨hs, h.locks, h.conditions.write hcr hnew (h.present t (.inl ht)), h.present⟩
  | acquired hn hk => exact h.kernel hk hs rfl rfl rfl (fun _ ht => ht) (by simp)
  | @released t j lock locks hn hl =>
    have hlocks : locks.Accounted space u.alive := by
      rcases hl with rfl | rfl
      · exact h.locks
      · exact h.locks.delete (hn.live (hc.1 t hn.running hn.valid)) hn.object
    refine ⟨hs, hlocks, h.conditions, fun v hv => ?_⟩
    have hk : KernelMove _ (.release lock) _ _ := .release hn.running
    exact h.present v ((present_before h.separate.placed hk hv).resolve_right (by simp))
  | woken hi hj ha hk =>
    refine h.kernel hk hs rfl rfl rfl (fun _ ht => ht) fun v hv => ?_
    rcases ha with ⟨-, rfl⟩ | ⟨-, rfl⟩ <;> simp at hv
  | asleep hi hj ha =>
    exact h.kernel (.waited hi.running ha) hs rfl rfl rfl (fun _ ht => ht) (by simp)
  | @rejected t i j c lock u' hi hj ha he =>
    have hbase : Tidy space { u with kernel := u.kernel.setCondition c { u.kernel.conditions c with
        waitingLock := some ((u.kernel.conditions c).waitingLock.getD lock) } } := by
      exact h.kernel (.bound hi.running ha) (h.separate.bound hi hj ha) rfl rfl rfl
        (fun _ ht => ht) (by simp)
    exact hbase.endsWait he hs fun hm =>
      hi.live (hc.1 t hi.running hi.valid hj.valid c hi.object lock hj.object ha hm)
  | @lockDestroyed t j lock locks hn hl =>
    refine ⟨hs, ?_, h.conditions, h.present⟩
    rcases hl with rfl | rfl
    · exact h.locks.defer j
    · exact h.locks.delete (hn.live (hc.1 t hn.running hn.valid)) hn.object
  | @conditionDestroyed t i c conditions hn hl =>
    refine ⟨hs, h.locks, ?_, h.present⟩
    rcases hl with rfl | rfl
    · exact h.conditions.defer i
    · exact h.conditions.delete (hn.live (hc.1 t hn.running hn.valid)) hn.object
  | slept ht => exact h.kernel (.slept ht) hs rfl rfl rfl (fun _ ht => ht) (by simp)
  | @readied t call alive k' out hcall ht hk =>
    have halive : ∀ v ∈ u.alive, v ∈ alive := by
      rcases hcall with ⟨-, rfl⟩ | ⟨-, rfl⟩
      · exact fun _ hv => hv
      · exact fun _ hv => List.mem_cons_of_mem _ hv
    refine h.kernel hk hs rfl rfl rfl halive fun v hv => ?_
    obtain rfl := Action.wake.inj hv
    exact ht
  | dispatched ht hw =>
    exact h.kernel (.dispatched ht) hs rfl rfl rfl (fun _ ht => ht) (by simp)
  | @returned t i u' ht hw hb he =>
    have hbase : Tidy space { u with
        kernel := u.kernel.dispatch t
        waitingAt := Function.update u.waitingAt t none } :=
      h.kernel (.dispatched ht) (h.separate.comeBack ht) rfl rfl rfl (fun _ ht => ht) (by simp)
    obtain ⟨c, hin⟩ := h.separate.waiting t i hw
    have hlock := getsLock_of_back hin hb
    exact hbase.endsWait he hs fun hm => ⟨hc.2 i hw hlock hm, hc.1 i hw hlock hm⟩
  | @left t v ht hl hcc hv hsp =>
    exact ⟨hs, h.locks.leave hl hv hsp, h.conditions.leave hcc hv hsp,
      fun w hw => present_after_exit h ht hw⟩
  | @exited t locks conditions ht hcl hcc hlast hlocks hconditions =>
    obtain ⟨hcl', hcc'⟩ := hc.1 t ht hlast
    obtain ⟨hml, hmc⟩ := hc.2 t ht hlast
    exact ⟨hs, h.locks.exit hcl hlocks fun n hn => ⟨hml n hn, hcl' n hn⟩,
      h.conditions.exit hcc hconditions fun n hn => ⟨hmc n hn, hcc' n hn⟩,
      fun w hw => present_after_exit h ht hw⟩

/-! Runs. -/

omit [DecidableEq T] [DecidableEq O] in
/-- The loop of Exit finds an object in each slot. -/
theorem ObjectStore.exit_of_live (h : st.Accounted space alive)
    (hlive : ∀ n ∈ st.table.exitSlots s st.table.arraySize, st.Live n) :
    ∃ st', st.exit s = some st' := by
  have hall : (st.table.exitLoop s).2.all Option.isSome = true := by
    rw [ObjectTable.exitLoop_eq, List.all_map, List.all_eq_true]
    intro n hn
    obtain ⟨o, s', ho, -, -⟩ := h.holds n (hlive n hn)
    simpa [ObjectStore.object] using congrArg Option.isSome ho
  exact ⟨_, if_pos hall⟩

omit [DecidableEq T] [DecidableEq L] [DecidableEq C] [DecidableEq S] in
theorem Tidy.initial (lockMemory conditionMemory : ℤ → Option S × Bool) (count : ℤ → ℤ) :
    Tidy space (ObjectKernel.initial lockMemory conditionMemory count : ObjectKernel T L C S) := by
  refine ⟨.initial _ _ _, .initial _, .initial _, ?_⟩
  rintro t (h | h | ⟨call, h⟩) <;> cases h

theorem exit_step (h : Tidy space u) (hm : ObjectMove space u .exit u')
    (hc : ExitAllowed space u .exit) (ht : u.kernel.currentThread = some t)
    (hlast : u.LastOfProcess space t) : ExitsCleanly space ⟨u, .exit, u'⟩ t := by
  have htidy := tidy_step h hm hc
  have hsame : ∀ {v}, u.kernel.currentThread = some v → v = t := fun hv =>
    Option.some.inj (hv.symm.trans ht)
  cases hm with
  | ignored hn => exact absurd rfl hn
  | woken hi hj ha hk => rcases ha with ⟨ha, -⟩ | ⟨ha, -⟩ <;> cases ha
  | readied hcall hv hk => rcases hcall with ⟨ha, -⟩ | ⟨ha, -⟩ <;> cases ha
  | left hv _ _ hw hs =>
    obtain rfl := hsame hv
    exact absurd hs (hlast _ hw)
  | exited hv _ _ _ hlocks hconditions =>
    obtain rfl := hsame hv
    obtain ⟨hcl, hcc⟩ := hc.1 _ ht hlast
    obtain ⟨hml, hmc⟩ := hc.2 _ ht hlast
    exact ⟨ObjectStore.exit_freesExactly h.locks hlocks fun n hn => ⟨hml n hn, hcl n hn⟩,
      ObjectStore.exit_freesExactly h.conditions hconditions fun n hn => ⟨hmc n hn, hcc n hn⟩,
      fun i s hs ho => ObjectStore.sameSlot_exit ho hs hlocks hcl,
      fun i s hs ho => ObjectStore.sameSlot_exit ho hs hconditions hcc,
      ObjectStore.usedByLiving_of_accounted htidy.locks,
      ObjectStore.usedByLiving_of_accounted htidy.conditions⟩

omit [DecidableEq L] [DecidableEq C] in
/-- The loops of Exit get to their end. -/
theorem exit_succeeds (h : Tidy space u) (hc : ExitAllowed space u .exit)
    (ht : u.kernel.currentThread = some t) (hlast : u.LastOfProcess space t)
    (hrest : u.alive.erase t ≠ []) : ∃ u', u.exit space t = .ok u' := by
  obtain ⟨hcl, hcc⟩ := hc.1 t ht hlast
  obtain ⟨hml, hmc⟩ := hc.2 t ht hlast
  obtain ⟨locks, hlocks⟩ := ObjectStore.exit_of_live h.locks fun n hn => ⟨hml n hn, hcl n hn⟩
  obtain ⟨conditions, hconditions⟩ :=
    ObjectStore.exit_of_live h.conditions fun n hn => ⟨hmc n hn, hcc n hn⟩
  have hany : ¬ ((u.alive.erase t).any fun v => space v = space t) = true := by
    simp only [List.any_eq_true, decide_eq_true_eq, not_exists, not_and]
    exact hlast
  exact ⟨_, by unfold ObjectKernel.exit; rw [if_neg hrest, if_neg hany, hlocks, hconditions]⟩

variable {lockMemory conditionMemory : ℤ → Option S × Bool} {count : ℤ → ℤ}
  {tr : List (ObjectStep T L C S)}

theorem tidy_of_allowed
    (h : Execution (fun u call u' => objectCall space u call = .ok u')
      (ObjectKernel.initial lockMemory conditionMemory count) tr u)
    (hc : ∀ x ∈ tr, ExitAllowed space x.before x.event) : Tidy space u := by
  refine h.invariant_of_cond (Q := fun x => ExitAllowed space x.before x.event)
    (Tidy.initial _ _ _) (fun x hx hs hcx => ?_) hc
  exact tidy_step hx (objectCall_move hx.separate.placed hs) hcx

/-- Every Exit of the last thread of a process, and the one that comes next. -/
theorem exitsCleanly_of_allowed
    (h : Execution (fun u call u' => objectCall space u call = .ok u')
      (ObjectKernel.initial lockMemory conditionMemory count) tr u)
    (hc : ∀ x ∈ tr, ExitAllowed space x.before x.event) :
    (∀ x ∈ tr, ∀ t, x.event = .exit → x.before.kernel.currentThread = some t →
      x.before.LastOfProcess space t → ExitsCleanly space x t) ∧
    ∀ t, u.kernel.currentThread = some t → u.LastOfProcess space t → u.alive.erase t ≠ [] →
      u.locks.creating t = none → u.conditions.creating t = none → ExitAllowed space u .exit →
      ∃ u', objectCall space u .exit = .ok u' := by
  constructor
  · rintro ⟨b, call, a⟩ hx t rfl ht hlast
    obtain ⟨pre, post, rfl⟩ := List.append_of_mem hx
    obtain ⟨hpre, hs⟩ := h.split rfl
    have htidy := tidy_of_allowed hpre fun y hy => hc y (by simp [hy])
    exact exit_step htidy (objectCall_move htidy.separate.placed hs) (hc _ hx) ht hlast
  · intro t ht hlast hrest hl hcc hallowed
    have htidy := tidy_of_allowed h hc
    obtain ⟨u', hu'⟩ := exit_succeeds htidy hallowed ht hlast hrest
    exact ⟨u', by simpa [objectCall, ht, hl, hcc] using hu'⟩

/-- A process leaves with a lock and a condition in use. -/
theorem exitsCleanly_of_allowed_single :
    ∃ (tr : List (ObjectStep (Fin 3) ℕ ℕ Bool)) (u : ObjectKernel (Fin 3) ℕ ℕ Bool),
      Execution (fun u call u' => objectCall twoSpaces u call = .ok u')
        (.initial (fun _ => (none, false)) (fun _ => (none, false)) fun _ => 0) tr u ∧
      tr.map (fun x => x.event) = [.fork 1, .fork 2, .dispatch 1, .createLock, .newLock 5 none,
        .createCondition, .newCondition 7 none, .exit] ∧ u.locks.freed = [5] ∧
      ∀ x ∈ tr, ∀ t, x.event = .exit → x.before.kernel.currentThread = some t →
        x.before.LastOfProcess twoSpaces t → ExitsCleanly twoSpaces x t := by
  obtain ⟨tr, u, h, hmap, hall, htest⟩ := exists_of_run
    (objectCall (L := ℕ) (C := ℕ) twoSpaces)
    (.initial (fun _ => (none, false)) (fun _ => (none, false)) fun _ => 0)
    [.fork 1, .fork 2, .dispatch 1, .createLock, .newLock 5 none, .createCondition,
      .newCondition 7 none, .exit]
    (fun u call => ExitAllowed twoSpaces u call) (fun u => decide (u.locks.freed = [5]))
    (by decide +kernel)
  refine ⟨tr, u, h, hmap, by simpa using htest, ?_⟩
  exact (exitsCleanly_of_allowed h fun x hx => by simpa using hall x hx).1

/-- A lock that its process has destroyed is deleted again when the process leaves. -/
theorem exit_frees_again :
    ∃ (tr : List (ObjectStep (Fin 3) ℕ ℕ Bool)) (u : ObjectKernel (Fin 3) ℕ ℕ Bool),
      Execution (fun u call u' => objectCall twoSpaces u call = .ok u')
        (.initial (fun _ => (none, false)) (fun _ => (none, false)) fun _ => 0) tr u ∧
      ∃ x ∈ tr, x.event = .exit ∧ x.before.kernel.currentThread = some 1 ∧
        x.before.LastOfProcess twoSpaces 1 ∧ x.before.locks.freed = [5] ∧
        x.after.locks.freed = [5, 5] ∧ ¬ ExitsCleanly twoSpaces x 1 := by
  obtain ⟨tr, u, h, hmap, hall, htest⟩ := exists_of_run
    (objectCall (L := ℕ) (C := ℕ) twoSpaces)
    (.initial (fun _ => (none, false)) (fun _ => (none, false)) fun _ => 0)
    [.fork 1, .fork 2, .dispatch 1, .createLock, .newLock 5 none, .destroyLock 0]
    (fun _ _ => true)
    (fun u => decide (u.kernel.currentThread = some 1) &&
      decide (∀ v ∈ u.alive.erase 1, twoSpaces v ≠ twoSpaces 1) &&
      decide (u.locks.freed = [5]) &&
      (objectCall twoSpaces u .exit).toOption.any
        fun u' : ObjectKernel (Fin 3) ℕ ℕ Bool => decide (u'.locks.freed = [5, 5]))
    (by decide +kernel)
  simp only [Bool.and_eq_true, decide_eq_true_eq, Option.any_eq_true] at htest
  obtain ⟨⟨⟨hcur, hlast⟩, hfreed⟩, u', hu', hfreed'⟩ := htest
  have hstep : objectCall twoSpaces u .exit = .ok u' := by
    cases hr : objectCall twoSpaces u .exit with
    | error _ => simp [hr, Except.toOption] at hu'
    | ok r => simpa [hr, Except.toOption] using hu'
  refine ⟨_, u', h.extend hstep, ⟨u, .exit, u'⟩, by simp, rfl, hcur, hlast, hfreed, hfreed',
    fun hclean => ?_⟩
  obtain ⟨os, hos, -, hmem⟩ := hclean.locksFreed
  have hos : os = [5] := by simpa [hfreed, hfreed'] using hos.symm
  have hnot := ((hmem 5).mp (by simp [hos])).2
  simp [hfreed] at hnot

end Nachos.Threads
