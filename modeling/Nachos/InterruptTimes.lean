import Nachos.MachineInterrupts

/-! When the interrupts occur: each one that is scheduled is invoked once or still pending, in the
order of their times, never early and late by one tick of the clock at most. -/
namespace Nachos.Interrupts
open Simulations

variable {η σ : Type} {d : Devices η σ} {s s' : State η σ} {p : PendingInterrupt η}
  {ps : List (PendingInterrupt η)}

/-! The list of pending interrupts. -/

def Sorted (ps : List (PendingInterrupt η)) : Prop := ps.Pairwise fun a b => a.when ≤ b.when

/-- The list is one of `list.cc`, with the times as keys. -/
theorem sortedInsert_sequence (ps : List (PendingInterrupt η)) (p : PendingInterrupt η) :
    (sortedInsert ps p).map (fun q => (q.when, some q)) =
      Lists.Sequence.insert (ps.map fun q => (q.when, some q)) p.when (some p) := by
  induction ps with
  | nil => rfl
  | cons q ps ih =>
    simp only [sortedInsert, Lists.Sequence.insert, List.map_cons, List.orderedInsert_cons] at ih ⊢
    split
    · rfl
    · rw [List.map_cons, ih]

theorem sortedInsert_perm (ps : List (PendingInterrupt η)) (p : PendingInterrupt η) :
    (sortedInsert ps p).Perm (p :: ps) :=
  List.perm_orderedInsert _ p ps

theorem mem_sortedInsert {q : PendingInterrupt η} : q ∈ sortedInsert ps p ↔ q = p ∨ q ∈ ps :=
  List.mem_orderedInsert _

theorem sorted_sortedInsert (h : Sorted ps) (p : PendingInterrupt η) : Sorted (sortedInsert ps p) := by
  induction ps with
  | nil => exact List.pairwise_singleton _ p
  | cons q ps ih =>
    obtain ⟨hq, hps⟩ := List.pairwise_cons.mp h
    simp only [sortedInsert, List.orderedInsert_cons]
    split
    · next hlt =>
      refine List.pairwise_cons.mpr ⟨fun r hr => ?_, h⟩
      rcases List.mem_cons.mp hr with rfl | hr
      · exact hlt.le
      · exact hlt.le.trans (hq r hr)
    · next hge =>
      refine List.pairwise_cons.mpr ⟨fun r hr => ?_, ih hps⟩
      rcases mem_sortedInsert.mp hr with rfl | hr
      · exact not_lt.mp hge
      · exact hq r hr

/-! What was printed. -/

def scheduled (ms : List (Message η)) : List (PendingInterrupt η) :=
  ms.filterMap fun
    | .scheduling p _ => some p
    | .invoking _ _ => none

/-- With the times. -/
def invoked (ms : List (Message η)) : List (PendingInterrupt η × ℤ) :=
  ms.filterMap fun
    | .scheduling _ _ => none
    | .invoking p time => some (p, time)

@[simp] theorem scheduled_scheduling (ms : List (Message η)) (p : PendingInterrupt η) (time : ℤ) :
    scheduled (ms ++ [.scheduling p time]) = scheduled ms ++ [p] := by
  simp [scheduled]

@[simp] theorem scheduled_invoking (ms : List (Message η)) (p : PendingInterrupt η) (time : ℤ) :
    scheduled (ms ++ [.invoking p time]) = scheduled ms := by
  simp [scheduled]

@[simp] theorem invoked_scheduling (ms : List (Message η)) (p : PendingInterrupt η) (time : ℤ) :
    invoked (ms ++ [.scheduling p time]) = invoked ms := by
  simp [invoked]

@[simp] theorem invoked_invoking (ms : List (Message η)) (p : PendingInterrupt η) (time : ℤ) :
    invoked (ms ++ [.invoking p time]) = invoked ms ++ [(p, time)] := by
  simp [invoked]

/-- How late an interrupt is that waits between the calls. One of the timer may have been put
back by `Idle` when it was due. -/
def waits (type : IntType) : ℤ := if type = .timerInt then 0 else -1

/-- The state, where no interrupt is later than `slack`. -/
structure Timely (slack : IntType → ℤ) (s : State η σ) : Prop where
  accounts : s.stats.totalTicks = s.stats.idleTicks + s.stats.systemTicks + s.stats.userTicks
  once : (scheduled s.messages).Perm ((invoked s.messages).map Prod.fst ++ s.pending)
  sorted : Sorted s.pending
  ordered : ((invoked s.messages).map fun x => x.1.when).Pairwise (· ≤ ·)
  prompt : ∀ x ∈ invoked s.messages, x.1.when ≤ x.2 ∧ x.2 ≤ x.1.when + systemTick + waits x.1.type
  past : ∀ x ∈ invoked s.messages, x.1.when ≤ s.stats.totalTicks
  before : ∀ x ∈ invoked s.messages, ∀ p ∈ s.pending, x.1.when ≤ p.when
  due : ∀ p ∈ s.pending, s.stats.totalTicks ≤ p.when + slack p.type

namespace Timely
variable {slack slack' : IntType → ℤ}

/-- Nothing else matters. -/
theorem congr (h : Timely slack s) (hp : s'.pending = s.pending) (ht : s'.stats = s.stats)
    (hm : s'.messages = s.messages) : Timely slack s' := by
  refine ⟨?_, ?_, ?_, ?_, ?_, ?_, ?_, ?_⟩
  · rw [ht]
    exact h.accounts
  · rw [hp, hm]
    exact h.once
  · rw [hp]
    exact h.sorted
  · rw [hm]
    exact h.ordered
  · rw [hm]
    exact h.prompt
  · rw [hm, ht]
    exact h.past
  · rw [hm, hp]
    exact h.before
  · rw [hp, ht]
    exact h.due

theorem mono (h : Timely slack s)
    (hslack : ∀ p ∈ s.pending, s.stats.totalTicks ≤ p.when + slack' p.type) : Timely slack' s :=
  { h with due := hslack }

theorem schedule (h : Timely slack s) (hslack : ∀ type, -1 ≤ slack type) {handler : η}
    {arg fromNow : ℤ} {type : IntType} (hs : s.schedule handler arg fromNow type = .ok s') :
    Timely slack s' := by
  unfold State.schedule at hs
  split at hs
  · next hpos =>
    cases hs
    refine ⟨h.accounts, ?_, sorted_sortedInsert h.sorted _, ?_, ?_, ?_, ?_, ?_⟩
    · have hinsert := sortedInsert_perm s.pending ⟨handler, arg, s.stats.totalTicks + fromNow, type⟩
      rw [scheduled_scheduling, invoked_scheduling]
      refine (h.once.append_right _).trans ?_
      rw [List.append_assoc]
      exact ((List.perm_append_singleton _ _).trans hinsert.symm).append_left _
    · simpa using h.ordered
    · simpa using h.prompt
    · simpa using h.past
    · intro x hx q hq
      rw [invoked_scheduling] at hx
      rcases mem_sortedInsert.mp hq with rfl | hq
      · have := h.past x hx
        simp only
        omega
      · exact h.before x hx q hq
    · intro q hq
      rcases mem_sortedInsert.mp hq with rfl | hq
      · have := hslack type
        simp only
        omega
      · exact h.due q hq
  · cases hs

end Timely

/-! The handlers. -/

/-- What the calls of a handler leave as it is. Nothing that they schedule is due at once. -/
structure Unmoved (s s' : State η σ) : Prop where
  stats : s'.stats = s.stats
  status : s'.status = s.status
  inHandler : s'.inHandler = s.inHandler
  level : s.level = .intOff → s'.level = .intOff
  due : (s'.pending.filter fun p => p.when ≤ s.stats.totalTicks).length =
    (s.pending.filter fun p => p.when ≤ s.stats.totalTicks).length

theorem Unmoved.refl (s : State η σ) : Unmoved s s := ⟨rfl, rfl, rfl, id, rfl⟩

theorem Unmoved.trans {s'' : State η σ} (h : Unmoved s s') (h' : Unmoved s' s'') : Unmoved s s'' := by
  refine ⟨h'.stats.trans h.stats, h'.status.trans h.status, h'.inHandler.trans h.inHandler,
    fun hl => h'.level (h.level hl), ?_⟩
  have hdue := h'.due
  rw [h.stats] at hdue
  exact hdue.trans h.due

theorem schedule_unmoved {handler : η} {arg fromNow : ℤ} {type : IntType}
    (hs : s.schedule handler arg fromNow type = .ok s') : Unmoved s s' := by
  unfold State.schedule at hs
  split at hs
  · next hpos =>
    cases hs
    refine ⟨rfl, rfl, rfl, id, ?_⟩
    rw [((sortedInsert_perm _ _).filter _).length_eq, List.filter_cons_of_neg]
    simp only [decide_eq_true_eq]
    omega
  · cases hs

theorem call_unmoved (hin : s.inHandler = true) {c : Call η} (hs : s.call c = .ok s') :
    Unmoved s s' := by
  cases c with
  | schedule handler arg fromNow type => exact schedule_unmoved hs
  | yieldOnReturn =>
    simp only [State.call, hin, if_true] at hs
    cases hs
    exact ⟨rfl, rfl, hin.symm, id, rfl⟩
  | setLevel now =>
    simp only [State.call, hin] at hs
    split at hs
    · next hoff =>
      cases hs
      exact ⟨rfl, rfl, hin.symm, fun _ => by simpa using hoff, rfl⟩
    · cases hs

theorem Timely.call {slack : IntType → ℤ} (h : Timely slack s) (hslack : ∀ type, -1 ≤ slack type)
    {c : Call η} (hs : s.call c = .ok s') : Timely slack s' := by
  cases c with
  | schedule handler arg fromNow type => exact h.schedule hslack hs
  | yieldOnReturn =>
    simp only [State.call] at hs
    split at hs
    · cases hs
      exact h.congr rfl rfl rfl
    · cases hs
  | setLevel now =>
    simp only [State.call] at hs
    split at hs
    · cases hs
      exact h.congr rfl rfl rfl
    · cases hs

theorem calls_cons {c : Call η} {cs : List (Call η)} (hs : s.calls (c :: cs) = .ok s') :
    ∃ u, s.call c = .ok u ∧ u.calls cs = .ok s' := by
  simp only [State.calls] at hs
  cases hc : s.call c with
  | error f =>
    rw [hc] at hs
    cases hs
  | ok u =>
    rw [hc] at hs
    exact ⟨u, rfl, hs⟩

theorem calls_unmoved (hin : s.inHandler = true) {cs : List (Call η)} (hs : s.calls cs = .ok s') :
    Unmoved s s' := by
  induction cs generalizing s with
  | nil =>
    cases hs
    exact .refl _
  | cons c cs ih =>
    obtain ⟨u, hc, hrest⟩ := calls_cons hs
    have hu := call_unmoved hin hc
    exact hu.trans (ih (hu.inHandler.trans hin) hrest)

theorem Timely.calls {slack : IntType → ℤ} (h : Timely slack s) (hslack : ∀ type, -1 ≤ slack type)
    {cs : List (Call η)} (hs : s.calls cs = .ok s') : Timely slack s' := by
  induction cs generalizing s with
  | nil =>
    cases hs
    exact h
  | cons c cs ih =>
    obtain ⟨u, hc, hrest⟩ := calls_cons hs
    exact ih (h.call hslack hc) hrest

theorem invoke_cases (hs : s.invoke d p = .ok s') :
    ∃ rest u cs, State.calls { s with
        inHandler := true
        status := .systemMode
        messages := s.messages ++ [.invoking p s.stats.totalTicks]
        rest := rest } cs = .ok u ∧
      s' = { u with status := s.status, inHandler := false } := by
  simp only [State.invoke, bind, Except.bind] at hs
  split at hs
  · cases hs
  · next u hu =>
    cases hs
    exact ⟨_, u, _, hu, rfl⟩

theorem invoke_unmoved (hs : s.invoke d p = .ok s') :
    s'.stats = s.stats ∧ s'.status = s.status ∧ s'.inHandler = false ∧
      (s.level = .intOff → s'.level = .intOff) ∧
      (s'.pending.filter fun p => p.when ≤ s.stats.totalTicks).length =
        (s.pending.filter fun p => p.when ≤ s.stats.totalTicks).length := by
  obtain ⟨rest, u, cs, hu, rfl⟩ := invoke_cases hs
  have h := calls_unmoved rfl hu
  exact ⟨h.stats, rfl, rfl, h.level, h.due⟩

/-- The handler begins: the first of the pending interrupts is taken off, and its invocation is
printed. -/
theorem Timely.begin {slack : IntType → ℤ} (h : Timely slack s)
    (hslack : slack p.type ≤ systemTick + waits p.type) (hp : s.pending = p :: ps)
    (hnow : p.when ≤ s.stats.totalTicks) (rest : σ) :
    Timely slack { s with
      pending := ps
      inHandler := true
      status := .systemMode
      messages := s.messages ++ [.invoking p s.stats.totalTicks]
      rest := rest } := by
  have hmem : p ∈ s.pending := hp ▸ List.mem_cons_self
  have hsub : ∀ q ∈ ps, q ∈ s.pending := fun q hq => hp ▸ List.mem_cons_of_mem _ hq
  have hsorted := h.sorted
  rw [hp] at hsorted
  obtain ⟨hfirst, hps⟩ := List.pairwise_cons.mp hsorted
  refine ⟨h.accounts, ?_, hps, ?_, ?_, ?_, ?_, fun q hq => h.due q (hsub q hq)⟩
  · have honce := h.once
    rw [hp] at honce
    simpa using honce
  · simp only [invoked_invoking, List.map_append, List.map_cons, List.map_nil]
    refine List.pairwise_append.mpr ⟨h.ordered, List.pairwise_singleton _ _, ?_⟩
    intro a ha b hb
    obtain ⟨x, hx, rfl⟩ := List.mem_map.mp ha
    rw [List.mem_singleton.mp hb]
    exact h.before x hx p hmem
  · intro x hx
    rw [invoked_invoking] at hx
    rcases List.mem_append.mp hx with hx | hx
    · exact h.prompt x hx
    · obtain rfl := List.mem_singleton.mp hx
      have hdue := h.due p hmem
      exact ⟨hnow, by simp only; omega⟩
  · intro x hx
    rw [invoked_invoking] at hx
    rcases List.mem_append.mp hx with hx | hx
    · exact h.past x hx
    · obtain rfl := List.mem_singleton.mp hx
      exact hnow
  · intro x hx q hq
    rw [invoked_invoking] at hx
    rcases List.mem_append.mp hx with hx | hx
    · exact h.before x hx q (hsub q hq)
    · obtain rfl := List.mem_singleton.mp hx
      exact hfirst q hq

/-- The first of the pending interrupts is invoked. -/
theorem Timely.invoke {slack : IntType → ℤ} (h : Timely slack s)
    (hslack : ∀ type, -1 ≤ slack type ∧ slack type ≤ systemTick + waits type)
    (hp : s.pending = p :: ps) (hnow : p.when ≤ s.stats.totalTicks)
    (hs : State.invoke d { s with pending := ps } p = .ok s') : Timely slack s' := by
  obtain ⟨rest, u, cs, hu, rfl⟩ := invoke_cases hs
  have hbegin := h.begin (hslack p.type).2 hp hnow rest
  exact (hbegin.calls (fun type => (hslack type).1) hu).congr rfl rfl rfl

/-! `CheckIfDue`. -/

theorem skipTo_of_le {stats : Statistics} {when : ℤ} (h : when ≤ stats.totalTicks) :
    stats.skipTo when = stats := if_neg (not_lt.mpr h)

/-- The ways through `CheckIfDue`. -/
inductive Check (d : Devices η σ) (advanceClock : Bool) (s : State η σ) : State η σ → Bool → Prop
  | empty : s.pending = [] → Check d advanceClock s s false
  | early {p : PendingInterrupt η} {ps : List (PendingInterrupt η)} : s.pending = p :: ps →
      advanceClock = false → s.stats.totalTicks < p.when →
      Check d advanceClock s { s with pending := sortedInsert ps p } false
  | alone {p : PendingInterrupt η} : s.pending = [p] → s.status = .idleMode → p.type = .timerInt →
      (advanceClock = false → p.when ≤ s.stats.totalTicks) →
      Check d advanceClock s { s with stats := s.stats.skipTo p.when, pending := [p] } false
  | due {p : PendingInterrupt η} {ps : List (PendingInterrupt η)} {s' : State η σ} :
      s.pending = p :: ps → (advanceClock = false → p.when ≤ s.stats.totalTicks) →
      ¬ (s.status = .idleMode ∧ p.type = .timerInt ∧ ps = []) →
      State.invoke d { s with stats := s.stats.skipTo p.when, pending := ps } p = .ok s' →
      Check d advanceClock s s' true

theorem check {advanceClock due : Bool} (hs : s.checkIfDue d advanceClock = .ok (s', due)) :
    s.level = .intOff ∧ Check d advanceClock s s' due := by
  unfold State.checkIfDue at hs
  split at hs
  · cases hs
  · next hlevel =>
    refine ⟨not_not.mp hlevel, ?_⟩
    split at hs
    · next hp =>
      cases hs
      exact .empty hp
    · next p ps hp =>
      simp only at hs
      split at hs
      · next hearly =>
        cases hs
        exact .early hp hearly.1 hearly.2
      · next hlate =>
        have hnow : advanceClock = false → p.when ≤ s.stats.totalTicks := fun ha =>
          not_lt.mp fun hlt => hlate ⟨ha, hlt⟩
        split at hs
        · next halone =>
          obtain ⟨hidle, htimer, rfl⟩ := halone
          cases hs
          exact .alone hp hidle htimer hnow
        · next hmore =>
          simp only [bind, Except.bind] at hs
          split at hs
          · cases hs
          · next u hu =>
            cases hs
            exact .due hp hnow hmore hu

/-- Nothing is due any more, unless it is the timer alone that could wake the machine. -/
def Quiet (s : State η σ) : Prop :=
  (∀ p ∈ s.pending, s.stats.totalTicks < p.when) ∨
    s.status = .idleMode ∧ ∃ p, s.pending = [p] ∧ p.type = .timerInt

/-- What the checks keep, when the clock is not advanced. -/
structure Checked (slack : IntType → ℤ) (s s' : State η σ) : Prop where
  timely : Timely slack s'
  stats : s'.stats = s.stats
  status : s'.status = s.status
  inHandler : s.inHandler = false → s'.inHandler = false
  level : s.level = .intOff → s'.level = .intOff

theorem Checked.trans {slack : IntType → ℤ} {s'' : State η σ} (h : Checked slack s s')
    (h' : Checked slack s' s'') : Checked slack s s'' :=
  ⟨h'.timely, h'.stats.trans h.stats, h'.status.trans h.status,
    fun hin => h'.inHandler (h.inHandler hin), fun hl => h'.level (h.level hl)⟩

theorem Timely.putBack {slack : IntType → ℤ} (h : Timely slack s) (hp : s.pending = p :: ps) :
    Timely slack { s with pending := sortedInsert ps p } := by
  have hsorted := h.sorted
  rw [hp] at hsorted
  have hmem : ∀ q, q ∈ sortedInsert ps p ↔ q ∈ s.pending := by
    intro q
    rw [mem_sortedInsert, hp, List.mem_cons]
  refine ⟨h.accounts, ?_, sorted_sortedInsert (List.pairwise_cons.mp hsorted).2 p, h.ordered,
    h.prompt, h.past, fun x hx q hq => h.before x hx q ((hmem q).mp hq),
    fun q hq => h.due q ((hmem q).mp hq)⟩
  have honce := h.once
  rw [hp] at honce
  exact honce.trans ((sortedInsert_perm ps p).symm.append_left _)

/-- The number of interrupts that are due. -/
def dueNow (s : State η σ) : ℕ := (s.pending.filter fun p => p.when ≤ s.stats.totalTicks).length

theorem checkIfDue_spec {slack : IntType → ℤ} (h : Timely slack s)
    (hslack : ∀ type, -1 ≤ slack type ∧ slack type ≤ systemTick + waits type) {due : Bool}
    (hs : s.checkIfDue d false = .ok (s', due)) :
    Checked slack s s' ∧ (due = false → Quiet s') ∧ (due = true → dueNow s' + 1 = dueNow s) := by
  obtain ⟨-, hc⟩ := check hs
  cases hc with
  | empty hp =>
    exact ⟨⟨h, rfl, rfl, id, id⟩, fun _ => .inl (by simp [hp]), by simp⟩
  | early hp _ hlate =>
    refine ⟨⟨h.putBack hp, rfl, rfl, id, id⟩, fun _ => .inl fun q hq => ?_, by simp⟩
    have hsorted := h.sorted
    rw [hp] at hsorted
    rcases mem_sortedInsert.mp hq with rfl | hq
    · exact hlate
    · exact hlate.trans_le ((List.pairwise_cons.mp hsorted).1 q hq)
  | alone hp hidle htimer hnow =>
    rw [skipTo_of_le (hnow rfl), ← hp]
    exact ⟨⟨h, rfl, rfl, id, id⟩, fun _ => .inr ⟨hidle, _, hp, htimer⟩, by simp⟩
  | @due p ps _ hp hnow _ hinvoke =>
    rw [skipTo_of_le (hnow rfl)] at hinvoke
    obtain ⟨hstats, hstatus, hin, hlevel, hcount⟩ := invoke_unmoved hinvoke
    refine ⟨⟨h.invoke hslack hp (hnow rfl) hinvoke, hstats, hstatus, fun _ => hin, hlevel⟩,
      by simp, fun _ => ?_⟩
    unfold dueNow
    rw [hstats, hp, List.filter_cons_of_pos (by simpa using hnow rfl), List.length_cons]
    exact congrArg (· + 1) hcount

theorem call_ne_endless {c : Call η} : s.call c ≠ .error .endless := by
  cases c with
  | schedule handler arg fromNow type =>
    simp only [State.call, State.schedule]
    split <;> simp
  | yieldOnReturn =>
    simp only [State.call]
    split <;> simp
  | setLevel now =>
    simp only [State.call]
    split <;> simp

theorem calls_ne_endless {cs : List (Call η)} : s.calls cs ≠ .error .endless := by
  induction cs generalizing s with
  | nil => simp [State.calls]
  | cons c cs ih =>
    simp only [State.calls]
    cases hc : s.call c with
    | error f =>
      intro he
      cases he
      exact call_ne_endless hc
    | ok u => exact ih

theorem checkIfDue_ne_endless {advanceClock : Bool} :
    s.checkIfDue d advanceClock ≠ .error .endless := by
  intro he
  unfold State.checkIfDue at he
  split at he
  · cases he
  · split at he
    · cases he
    · simp only at he
      split at he
      · cases he
      · split at he
        · cases he
        · simp only [State.invoke, bind, Except.bind] at he
          split at he
          · next hf =>
            split at hf
            · next hcalls =>
              cases hf
              cases he
              exact calls_ne_endless hcalls
            · cases hf
          · cases he

/-- The loop ends as soon as the interrupts that were due have been invoked. -/
theorem checkAll_spec {slack : IntType → ℤ} {fuel : ℕ} (h : Timely slack s)
    (hslack : ∀ type, -1 ≤ slack type ∧ slack type ≤ systemTick + waits type)
    (hfuel : dueNow s < fuel) :
    s.checkAll d fuel ≠ .error .endless ∧
      ∀ s', s.checkAll d fuel = .ok s' → Checked slack s s' ∧ Quiet s' := by
  induction fuel generalizing s with
  | zero => omega
  | succ fuel ih =>
    simp only [State.checkAll, bind, Except.bind]
    cases hc : s.checkIfDue d false with
    | error f =>
      refine ⟨fun he => ?_, fun s' hs => by cases hs⟩
      cases he
      exact checkIfDue_ne_endless hc
    | ok r =>
      obtain ⟨u, due⟩ := r
      obtain ⟨hchecked, hquiet, hcount⟩ := checkIfDue_spec h hslack hc
      cases due with
      | false =>
        refine ⟨by simp, fun s' hs => ?_⟩
        cases hs
        exact ⟨hchecked, hquiet rfl⟩
      | true =>
        have hless : dueNow u < fuel := by
          have := hcount rfl
          omega
        obtain ⟨hends, hrest⟩ := ih hchecked.timely hless
        refine ⟨hends, fun s' hs => ?_⟩
        obtain ⟨hchecked', hquiet'⟩ := hrest s' hs
        exact ⟨hchecked.trans hchecked', hquiet'⟩

theorem checkDue_spec {slack : IntType → ℤ} (h : Timely slack s)
    (hslack : ∀ type, -1 ≤ slack type ∧ slack type ≤ systemTick + waits type) :
    s.checkDue d ≠ .error .endless ∧
      ∀ s', s.checkDue d = .ok s' → Checked slack s s' ∧ Quiet s' :=
  checkAll_spec h hslack (Nat.lt_succ_of_le (List.length_filter_le _ _))

/-! The calls of the threads. -/

/-- Between the calls. -/
structure Settled (s : State η σ) : Prop where
  timely : Timely waits s
  status : s.status ≠ .idleMode
  inHandler : s.inHandler = false

theorem settled_initial (rest : σ) : Settled (.initial rest : State η σ) := by
  refine ⟨⟨rfl, by simp [scheduled, invoked, State.initial], List.Pairwise.nil, ?_, ?_, ?_, ?_, ?_⟩,
    by simp [State.initial], rfl⟩ <;> simp [invoked, State.initial]

theorem waits_bounds (type : IntType) : -1 ≤ waits type ∧ waits type ≤ 0 := by
  unfold waits
  split <;> omega

/-- A tick makes everything that much later. -/
theorem Timely.advance (h : Timely waits s) :
    ∃ tick, 0 ≤ tick ∧ tick ≤ systemTick ∧ Timely (fun type => tick + waits type) s.advance := by
  unfold State.advance
  have hlater : ∀ tick, 0 ≤ tick → ∀ x ∈ invoked s.messages,
      x.1.when ≤ s.stats.totalTicks + tick := fun tick ht x hx => by
    have := h.past x hx
    omega
  split
  · refine ⟨systemTick, by decide, le_rfl, ⟨?_, h.once, h.sorted, h.ordered, h.prompt,
      hlater _ (by decide), h.before, fun p hp => ?_⟩⟩
    · have := h.accounts
      simp only
      omega
    · have := h.due p hp
      simp only
      omega
  · refine ⟨userTick, by decide, by decide, ⟨?_, h.once, h.sorted, h.ordered, h.prompt,
      hlater _ (by decide), h.before, fun p hp => ?_⟩⟩
    · have := h.accounts
      simp only
      omega
    · have := h.due p hp
      simp only
      omega

theorem Timely.quiet {slack : IntType → ℤ} (h : Timely slack s) (hq : Quiet s)
    (htimer : s.status = .idleMode → ∀ p ∈ s.pending, s.stats.totalTicks ≤ p.when) :
    Timely waits s := by
  refine h.mono fun p hp => ?_
  rcases hq with hfuture | ⟨hidle, q, hq, htype⟩
  · have := hfuture p hp
    have := waits_bounds p.type
    omega
  · have hle := htimer hidle p hp
    rw [hq] at hp
    obtain rfl := List.mem_singleton.mp hp
    simpa [waits, htype] using hle

theorem Settled.oneTick (h : Settled s) :
    s.oneTick d ≠ .error .endless ∧ ∀ s' o, s.oneTick d = .ok (s', o) → Settled s' := by
  obtain ⟨tick, hpos, hmax, htimely⟩ := h.timely.advance
  have hstart : Timely (fun type => tick + waits type) { s.advance with level := .intOff } :=
    htimely.congr rfl rfl rfl
  obtain ⟨hends, hspec⟩ := checkDue_spec (d := d) hstart fun type => by
    have := waits_bounds type
    omega
  have hstatus : s.advance.status = s.status := by
    unfold State.advance
    split <;> rfl
  have hin : s.advance.inHandler = s.inHandler := by
    unfold State.advance
    split <;> rfl
  simp only [State.oneTick, bind, Except.bind]
  cases hc : State.checkDue d { s.advance with level := .intOff } with
  | error f =>
    refine ⟨fun he => hends ?_, fun s' o hs => by cases hs⟩
    cases he
    exact hc
  | ok u =>
    obtain ⟨hchecked, hquiet⟩ := hspec u hc
    have hne : u.status ≠ .idleMode := by rw [hchecked.status, hstatus]; exact h.status
    have hu : Timely waits u := hchecked.timely.quiet hquiet fun hidle => absurd hidle hne
    have huin := hchecked.inHandler (hin.trans h.inHandler)
    dsimp only
    constructor
    · split <;> simp
    · intro s' o hs
      split at hs
      · cases hs
        exact ⟨hu.congr rfl rfl rfl, by simp, huin⟩
      · cases hs
        exact ⟨hu.congr rfl rfl rfl, hne, huin⟩

theorem Settled.setLevel (h : Settled s) (now : IntStatus) :
    s.setLevel d now ≠ .error .endless ∧ ∀ s' o, s.setLevel d now = .ok (s', o) → Settled s' := by
  have hlevel : Settled { s with level := now } := ⟨h.timely.congr rfl rfl rfl, h.status, h.inHandler⟩
  unfold State.setLevel
  rw [if_pos (Or.inr h.inHandler)]
  split
  · exact hlevel.oneTick
  · refine ⟨by simp, fun s' o hs => ?_⟩
    cases hs
    exact hlevel

theorem totalTicks_skipTo (stats : Statistics) (when : ℤ) :
    (stats.skipTo when).totalTicks = max stats.totalTicks when := by
  unfold Statistics.skipTo
  split
  · next h => exact (max_eq_right h.le).symm
  · next h => exact (max_eq_left (not_lt.mp h)).symm

theorem skipTo_accounts {stats : Statistics} (when : ℤ)
    (h : stats.totalTicks = stats.idleTicks + stats.systemTicks + stats.userTicks) :
    (stats.skipTo when).totalTicks = (stats.skipTo when).idleTicks +
      (stats.skipTo when).systemTicks + (stats.skipTo when).userTicks := by
  unfold Statistics.skipTo
  split
  · simp only
    omega
  · exact h

/-- The machine idles until the first interrupt that is pending. -/
theorem Timely.skipTo (h : Timely waits s) (hp : s.pending = p :: ps) :
    Timely (fun _ => 0) { s with stats := s.stats.skipTo p.when, status := .idleMode } := by
  have hsorted := h.sorted
  rw [hp] at hsorted
  have hfirst : ∀ q ∈ s.pending, p.when ≤ q.when := by
    intro q hq
    rw [hp] at hq
    rcases List.mem_cons.mp hq with rfl | hq
    · exact le_rfl
    · exact (List.pairwise_cons.mp hsorted).1 q hq
  refine ⟨skipTo_accounts _ h.accounts, h.once, h.sorted, h.ordered, h.prompt, ?_, h.before, ?_⟩
  · intro x hx
    simp only [totalTicks_skipTo]
    exact (h.past x hx).trans (le_max_left _ _)
  · intro q hq
    simp only [totalTicks_skipTo, Int.add_zero]
    have := h.due q hq
    have := waits_bounds q.type
    exact max_le (by omega) (hfirst q hq)

theorem Settled.idle (h : Settled s) :
    s.idle d ≠ .error .endless ∧ ∀ s', s.idle d = .ok (s', true) → Settled s' ∧
      ∃ p ps, s.pending = p :: ps ∧ s'.stats = s.stats.skipTo p.when := by
  simp only [State.idle, bind, Except.bind]
  cases hc : State.checkIfDue d true { s with status := .idleMode } with
  | error f =>
    refine ⟨fun he => ?_, fun s' hs => by cases hs⟩
    cases he
    exact checkIfDue_ne_endless hc
  | ok r =>
    obtain ⟨u, due⟩ := r
    cases due with
    | false => exact ⟨by simp, fun s' hs => by simp at hs⟩
    | true =>
      obtain ⟨-, hcheck⟩ := check hc
      cases hcheck with
      | @due p ps _ hp _ _ hinvoke =>
        have hslack : ∀ type : IntType, -1 ≤ (0 : ℤ) ∧ (0 : ℤ) ≤ systemTick + waits type := by
          intro type
          have := waits_bounds type
          simp only [systemTick]
          omega
        have hstart := h.timely.skipTo hp
        have hnow : p.when ≤ (s.stats.skipTo p.when).totalTicks := by
          rw [totalTicks_skipTo]
          exact le_max_right _ _
        have hu := hstart.invoke hslack hp hnow hinvoke
        obtain ⟨hstats, hstatus, hin, -, -⟩ := invoke_unmoved hinvoke
        obtain ⟨hends, hspec⟩ := checkDue_spec (d := d) hu hslack
        simp only [if_true]
        cases hd : u.checkDue d with
        | error f =>
          refine ⟨fun he => hends ?_, fun s' hs => by cases hs⟩
          cases he
          exact hd
        | ok v =>
          refine ⟨by simp, fun s' hs => ?_⟩
          obtain ⟨hchecked, hquiet⟩ := hspec v hd
          have hv : Timely waits v := hchecked.timely.quiet hquiet fun _ q hq => by
            simpa using hchecked.timely.due q hq
          cases hs
          exact ⟨⟨hv.congr rfl rfl rfl, by simp, hchecked.inHandler hin⟩, p, ps, hp,
            hchecked.stats.trans hstats⟩

theorem Settled.step (h : Settled s) (a : Action η σ) :
    step d s a ≠ .error (.fault .endless) ∧ ∀ s' o, step d s a = .ok (s', o) → Settled s' := by
  cases a with
  | schedule handler arg fromNow type =>
    simp only [Interrupts.step]
    cases hs : s.schedule handler arg fromNow type with
    | error f =>
      refine ⟨fun he => ?_, fun s' o ho => by cases ho⟩
      cases he
      exact call_ne_endless (c := .schedule handler arg fromNow type) hs
    | ok u =>
      refine ⟨by simp, fun s' o ho => ?_⟩
      cases ho
      have hu := schedule_unmoved hs
      exact ⟨h.timely.schedule (fun type => (waits_bounds type).1) hs, hu.status ▸ h.status,
        hu.inHandler.trans h.inHandler⟩
  | setLevel now =>
    obtain ⟨hends, hspec⟩ := h.setLevel (d := d) now
    simp only [Interrupts.step]
    cases hs : s.setLevel d now with
    | error f => exact ⟨fun he => hends (by cases he; exact hs), fun s' o ho => by cases ho⟩
    | ok r => exact ⟨by simp, fun s' o ho => hspec s' o (by cases ho; exact hs)⟩
  | oneTick =>
    obtain ⟨hends, hspec⟩ := h.oneTick (d := d)
    simp only [Interrupts.step]
    cases hs : s.oneTick d with
    | error f => exact ⟨fun he => hends (by cases he; exact hs), fun s' o ho => by cases ho⟩
    | ok r => exact ⟨by simp, fun s' o ho => hspec s' o (by cases ho; exact hs)⟩
  | idle =>
    obtain ⟨hends, hspec⟩ := h.idle (d := d)
    simp only [Interrupts.step]
    cases hs : s.idle d with
    | error f => exact ⟨fun he => hends (by cases he; exact hs), fun s' o ho => by cases ho⟩
    | ok r =>
      obtain ⟨u, awake⟩ := r
      cases awake with
      | false => exact ⟨by simp, fun s' o ho => by cases ho⟩
      | true => exact ⟨by simp, fun s' o ho => by cases ho; exact (hspec u hs).1⟩
  | setStatus user =>
    refine ⟨by simp [Interrupts.step], fun s' o ho => ?_⟩
    cases ho
    exact ⟨h.timely.congr rfl rfl rfl, by cases user <;> simp, h.inHandler⟩
  | threads f =>
    refine ⟨by simp [Interrupts.step], fun s' o ho => ?_⟩
    cases ho
    exact ⟨h.timely.congr rfl rfl rfl, h.status, h.inHandler⟩

/-- Whatever the threads and the handlers do, the checks for interrupts come to an end. Each
interrupt that was scheduled has been invoked once or is pending, they are invoked in the order of
their times, never before their time and less than a tick after it (at a tick, one of the timer),
and the time is that of the idle machine, the kernel and the users together. -/
theorem interrupts_on_time (d : Devices η σ) (rest : σ) (actions : List (Action η σ)) :
    (run (step d) (.initial rest) actions).2 ≠ .error (.fault .endless) ∧
      ∀ s, (run (step d) (.initial rest) actions).2 = .ok s → Timely waits s := by
  constructor
  · exact run_ne_error (P := Settled) (settled_initial rest) (fun s a h => h.step a) actions
  · intro s hrun
    have h : Settled s := run_invariant (settled_initial rest)
      (fun a _ s s' o h hs => (h.step a).2 s' o hs) hrun
    exact h.timely

/-- When nothing is ready to run, the machine halts if there is no interrupt to wait for, or only
one of the timer. Otherwise the clock goes to the time of the first one. -/
theorem idle_halts_iff {rest : σ} {actions : List (Action η σ)}
    (hrun : (run (step d) (.initial rest) actions).2 = .ok s) {awake : Bool}
    (hs : s.idle d = .ok (s', awake)) :
    (awake = false ↔ s.pending = [] ∨ ∃ p, s.pending = [p] ∧ p.type = .timerInt) ∧
      (awake = true → ∃ p ps, s.pending = p :: ps ∧ s'.stats = s.stats.skipTo p.when ∧
        s'.stats.totalTicks = p.when) := by
  have h : Settled s := run_invariant (settled_initial rest)
    (fun a _ s s' o h hs => (h.step a).2 s' o hs) hrun
  constructor
  · simp only [State.idle, bind, Except.bind] at hs
    cases hc : State.checkIfDue d true { s with status := .idleMode } with
    | error f =>
      rw [hc] at hs
      cases hs
    | ok r =>
      rw [hc] at hs
      obtain ⟨u, due⟩ := r
      obtain ⟨-, hcheck⟩ := check hc
      cases hcheck with
      | empty hp =>
        cases hs
        exact iff_of_true rfl (.inl hp)
      | early _ ha => cases ha
      | alone hp _ htimer =>
        cases hs
        exact iff_of_true rfl (.inr ⟨_, hp, htimer⟩)
      | due hp _ hmore =>
        simp only [if_true] at hs
        split at hs
        · cases hs
        · cases hs
          refine iff_of_false (by simp) ?_
          rintro (hnil | ⟨q, hq, htimer⟩)
          · rw [hnil] at hp
            cases hp
          · rw [hq] at hp
            obtain ⟨rfl, rfl⟩ := List.cons.inj hp
            exact hmore ⟨rfl, htimer, rfl⟩
  · rintro rfl
    obtain ⟨-, p, ps, hp, hstats⟩ := h.idle.2 s' hs
    refine ⟨p, ps, hp, hstats, ?_⟩
    have hdue := h.timely.due p (hp ▸ List.mem_cons_self)
    have := waits_bounds p.type
    rw [hstats, totalTicks_skipTo]
    exact max_eq_right (by omega)

/-- A disk whose interrupts do nothing. -/
def silentDisk : Devices Unit Unit := ⟨fun _ _ _ _ => ((), []), id⟩

theorem idle_halts_iff_disk : ∃ s s' : State Unit Unit,
    (run (step silentDisk) (.initial ()) [.schedule () 0 5 .diskInt]).2 = .ok s ∧
    s.idle silentDisk = .ok (s', true) ∧ s'.stats.idleTicks = 5 ∧
    ((true = false ↔ s.pending = [] ∨ ∃ p, s.pending = [p] ∧ p.type = .timerInt) ∧
      (true = true → ∃ p ps, s.pending = p :: ps ∧ s'.stats = s.stats.skipTo p.when ∧
        s'.stats.totalTicks = p.when)) := by
  refine ⟨_, _, rfl, rfl, rfl, ?_⟩
  have hrun : (run (step silentDisk) (.initial ()) [.schedule () 0 5 .diskInt]).2 = .ok _ := rfl
  exact idle_halts_iff hrun rfl

end Nachos.Interrupts
