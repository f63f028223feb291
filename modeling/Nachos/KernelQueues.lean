import Nachos.FifoQueues

/-! The queue syscalls of `userprog/exception.cc`: eight queues of integers, made by the first
CreateQueue, and `queueMap` with those in use. A queue is never given back. -/
namespace Nachos.Queues
open Executions FifoQueues

structure QueueTable where
  queueArraySize : ℕ
  queueMap : ℤ → Bool
  queueTable : ℤ → List ℤ

inductive QueueFault
  /-- `queueMap` is followed before it is made -/
  | nullPointer
  /-- the ASSERT of `BitMap::Test`: nachos aborts -/
  | assertion
  /-- `front()` or `pop()` of an empty queue -/
  | emptyQueue
  | halted
  deriving DecidableEq, Repr

inductive QueueCall
  | createQueue
  | push (queueNum whatToPush : ℤ)
  | front (queueNum : ℤ)
  | pop (queueNum : ℤ)
  | empty (queueNum : ℤ)
  | size (queueNum : ℤ)
  deriving DecidableEq, Repr

namespace QueueTable

def initial : QueueTable := ⟨0, fun _ => false, fun _ => []⟩

/-- `queueMap->Test`. -/
def test (t : QueueTable) (queueNum : ℤ) : Except QueueFault Bool :=
  if t.queueArraySize = 0 then .error .nullPointer
  else if 0 ≤ queueNum ∧ queueNum < t.queueArraySize then .ok (t.queueMap queueNum)
  else .error .assertion

def setQueue (t : QueueTable) (queueNum : ℤ) (q : List ℤ) : QueueTable :=
  { t with queueTable := Function.update t.queueTable queueNum q }

def createQueue (t : QueueTable) : Except QueueFault (QueueTable × Option ℤ) :=
  let t := if t.queueArraySize = 0 then ⟨8, fun _ => false, fun _ => []⟩ else t
  match (List.range t.queueArraySize).find? fun i : ℕ => !t.queueMap i with
  | none => .error .halted
  | some i => .ok ({ t with queueMap := Function.update t.queueMap i true }, some i)

/-- The two checks of the number, here and below, print a line and go on; the second one
needs the bitmap. -/
def queuePush (t : QueueTable) (queueNum whatToPush : ℤ) :
    Except QueueFault (QueueTable × Option ℤ) := do
  let _ ← t.test queueNum
  .ok (t.setQueue queueNum (t.queueTable queueNum ++ [whatToPush]), none)

def queueFront (t : QueueTable) (queueNum : ℤ) : Except QueueFault (QueueTable × Option ℤ) := do
  let _ ← t.test queueNum
  match t.queueTable queueNum with
  | [] => .error .emptyQueue
  | v :: _ => .ok (t, some v)

def queuePop (t : QueueTable) (queueNum : ℤ) : Except QueueFault (QueueTable × Option ℤ) := do
  let _ ← t.test queueNum
  match t.queueTable queueNum with
  | [] => .error .emptyQueue
  | _ :: rest => .ok (t.setQueue queueNum rest, none)

def queueEmpty (t : QueueTable) (queueNum : ℤ) : Except QueueFault (QueueTable × Option ℤ) := do
  let _ ← t.test queueNum
  .ok (t, some (if (t.queueTable queueNum).isEmpty then 1 else 0))

def queueSize (t : QueueTable) (queueNum : ℤ) : Except QueueFault (QueueTable × Option ℤ) := do
  let _ ← t.test queueNum
  .ok (t, some (t.queueTable queueNum).length)

def queueSyscall (t : QueueTable) : QueueCall → Except QueueFault (QueueTable × Option ℤ)
  | .createQueue => t.createQueue
  | .push queueNum whatToPush => t.queuePush queueNum whatToPush
  | .front queueNum => t.queueFront queueNum
  | .pop queueNum => t.queuePop queueNum
  | .empty queueNum => t.queueEmpty queueNum
  | .size queueNum => t.queueSize queueNum

/-- The number designates a created queue. -/
def Created (t : QueueTable) (n : ℤ) : Prop := 0 ≤ n ∧ n < t.queueArraySize ∧ t.queueMap n = true

instance (t : QueueTable) (n : ℤ) : Decidable (t.Created n) := inferInstanceAs (Decidable (_ ∧ _))

end QueueTable

/-! What queues are for. -/

/-- The created queues with what is in them. -/
abbrev Fifos := ℤ → Option (List ℤ)

def QueueTable.fifos (t : QueueTable) : Fifos := fun n =>
  if t.Created n then some (t.queueTable n) else none

/-- What a call on a queue does, and the value it is to return, if any; `none` where the call
is to be refused. -/
def Fifos.call (a : Fifos) : QueueCall → Option (Fifos × Option ℤ)
  | .createQueue => none
  | .push n v => (a n).map fun q => (Function.update a n (some (q ++ [v])), none)
  | .front n =>
    match a n with
    | some (v :: _) => some (a, some v)
    | _ => none
  | .pop n =>
    match a n with
    | some (_ :: rest) => some (Function.update a n (some rest), none)
    | _ => none
  | .empty n => (a n).map fun q => (a, some (if q = [] then 1 else 0))
  | .size n => (a n).map fun q => (a, some q.length)

/-- One call, against the purpose: a created queue is empty at first, a call on a created queue
does its work, and any other call is refused. -/
structure CallRight (t : QueueTable) (c : QueueCall) : Prop where
  created : c = .createQueue → ∀ t' rv, t.queueSyscall c = .ok (t', rv) →
    ∃ n, rv = some n ∧ t.fifos n = none ∧ t'.fifos = Function.update t.fifos n (some [])
  served : ∀ a rv, t.fifos.call c = some (a, rv) →
    ∃ t', t.queueSyscall c = .ok (t', rv) ∧ t'.fifos = a
  refused : c ≠ .createQueue → t.fifos.call c = none → ∃ rv, t.queueSyscall c = .ok (t, rv)

/-- The call is on a created queue, not on an empty one if it is Front or Pop; or it only asks
for the state of one of the eight. -/
def Admissible (t : QueueTable) (c : QueueCall) : Prop :=
  c ≠ .createQueue → t.fifos.call c = none →
    ∃ n, (c = .empty n ∨ c = .size n) ∧ 0 ≤ n ∧ n < t.queueArraySize

variable {t t' : QueueTable} {c : QueueCall} {n v : ℤ} {rv : Option ℤ}

/-! The table. -/

/-- What holds between two calls, if no call on a queue that was not created was made: these
queues are empty. -/
structure QueueTable.Sound (t : QueueTable) : Prop where
  size : t.queueArraySize = 0 ∨ t.queueArraySize = 8
  unused : ∀ n, ¬ t.Created n → t.queueTable n = []

theorem QueueTable.Sound.initial : QueueTable.initial.Sound := ⟨.inl rfl, fun _ _ => rfl⟩

theorem test_of_inside (h : 0 ≤ n ∧ n < t.queueArraySize) : t.test n = .ok (t.queueMap n) := by
  have hsize : t.queueArraySize ≠ 0 := by omega
  rw [QueueTable.test, if_neg hsize, if_pos h]

theorem test_of_outside (h : ¬ (0 ≤ n ∧ n < t.queueArraySize)) : ∃ f, t.test n = .error f := by
  unfold QueueTable.test
  rw [if_neg h]
  split_ifs
  · exact ⟨_, rfl⟩
  · exact ⟨_, rfl⟩

theorem fifos_of_created (h : t.Created n) : t.fifos n = some (t.queueTable n) := if_pos h

theorem fifos_of_not_created (h : ¬ t.Created n) : t.fifos n = none := if_neg h

theorem fifos_setQueue (h : t.Created n) (q : List ℤ) :
    (t.setQueue n q).fifos = Function.update t.fifos n (some q) := by
  funext m
  by_cases hm : m = n
  · subst hm
    rw [Function.update_self]
    exact (if_pos h).trans (by simp [QueueTable.setQueue])
  · rw [Function.update_of_ne hm]
    exact if_congr Iff.rfl (congrArg some (Function.update_of_ne hm _ _)) rfl

theorem setQueue_sound (hs : t.Sound) (h : t.Created n) (q : List ℤ) : (t.setQueue n q).Sound := by
  refine ⟨hs.size, fun m hm => ?_⟩
  have hne : m ≠ n := by
    rintro rfl
    exact hm h
  exact (Function.update_of_ne hne _ _).trans (hs.unused m hm)

/-! CreateQueue. -/

/-- `Find` sets the bit. -/
def QueueTable.take (t : QueueTable) (n : ℤ) : QueueTable :=
  { t with queueMap := Function.update t.queueMap n true }

theorem created_take_iff (h : 0 ≤ n ∧ n < t.queueArraySize) {m : ℤ} :
    (t.take n).Created m ↔ m = n ∨ t.Created m := by
  by_cases hm : m = n
  · subst hm
    simp [QueueTable.Created, QueueTable.take, h]
  · simp [QueueTable.Created, QueueTable.take, hm]

theorem take_sound (hs : t.Sound) (h : 0 ≤ n ∧ n < t.queueArraySize) : (t.take n).Sound :=
  ⟨hs.size, fun m hm => hs.unused m fun hc => hm ((created_take_iff h).mpr (.inr hc))⟩

theorem fifos_take (hs : t.Sound) (h : 0 ≤ n ∧ n < t.queueArraySize) (hfree : ¬ t.Created n) :
    (t.take n).fifos = Function.update t.fifos n (some []) := by
  funext m
  by_cases hm : m = n
  · subst hm
    rw [Function.update_self, fifos_of_created ((created_take_iff h).mpr (.inl rfl))]
    exact congrArg some (hs.unused m hfree)
  · rw [Function.update_of_ne hm]
    exact if_congr ((created_take_iff h).trans (or_iff_right hm)) rfl rfl

/-- The table that the first CreateQueue makes. -/
theorem sound_new : (⟨8, fun _ => false, fun _ => []⟩ : QueueTable).Sound := ⟨.inr rfl, fun _ _ => rfl⟩

theorem createQueue_right (hs : t.Sound) (h : t.createQueue = .ok (t', rv)) :
    t'.Sound ∧ ∃ n, rv = some n ∧ t.fifos n = none ∧
      t'.fifos = Function.update t.fifos n (some []) := by
  -- the table with the same queues that the free one is looked for in
  obtain ⟨u, hu, hus, hfifos⟩ : ∃ u : QueueTable,
      u = (if t.queueArraySize = 0 then ⟨8, fun _ => false, fun _ => []⟩ else t) ∧ u.Sound ∧
        u.fifos = t.fifos := by
    refine ⟨_, rfl, ?_⟩
    split_ifs with h0
    · refine ⟨sound_new, funext fun n => ?_⟩
      rw [fifos_of_not_created (by simp [QueueTable.Created]),
        fifos_of_not_created (by rintro ⟨h1, h2, -⟩; omega)]
    · exact ⟨hs, rfl⟩
  simp only [QueueTable.createQueue, ← hu] at h
  split at h
  · cases h
  · rename_i i hi
    obtain ⟨rfl, rfl⟩ := Prod.mk.inj (Except.ok.inj h)
    have hfree : u.queueMap i = false := by simpa using List.find?_some hi
    have hlt : i < u.queueArraySize := List.mem_range.mp (List.mem_of_find?_eq_some hi)
    have hin : (0 : ℤ) ≤ i ∧ (i : ℤ) < u.queueArraySize := by omega
    have hc : ¬ u.Created i := fun hc => by cases hfree.symm.trans hc.2.2
    refine ⟨take_sound hus hin, i, rfl, ?_, ?_⟩
    · rw [← hfifos, fifos_of_not_created hc]
    · rw [← hfifos]
      exact fifos_take hus hin hc

/-! The calls on a queue. -/

theorem not_callRight_of_error {f : QueueFault} (hc : c ≠ .createQueue) (hr : t.fifos.call c = none)
    (h : t.queueSyscall c = .error f) : ¬ CallRight t c := by
  intro hright
  obtain ⟨rv, ht⟩ := hright.refused hc hr
  cases h.symm.trans ht

theorem callRight_of_served {a : Fifos} (hc : c ≠ .createQueue) (hr : t.fifos.call c = some (a, rv))
    (h : ∃ t', t.queueSyscall c = .ok (t', rv) ∧ t'.fifos = a) : CallRight t c := by
  refine ⟨fun he => absurd he hc, fun a' rv' hr' => ?_, fun _ hn => by simp [hr] at hn⟩
  obtain ⟨rfl, rfl⟩ := Prod.mk.inj (Option.some.inj (hr.symm.trans hr'))
  exact h

theorem callRight_of_refused (hc : c ≠ .createQueue) (hr : t.fifos.call c = none)
    (h : t.queueSyscall c = .ok (t, rv)) : CallRight t c :=
  ⟨fun he => absurd he hc, fun _ _ hr' => (Option.some_ne_none _ (hr'.symm.trans hr)).elim,
    fun _ _ => ⟨rv, h⟩⟩

theorem admissible_of_served {r : Fifos × Option ℤ} (hr : t.fifos.call c = some r) :
    Admissible t c := fun _ hn => (Option.some_ne_none _ (hr.symm.trans hn)).elim

theorem not_admissible (hc : c ≠ .createQueue) (hr : t.fifos.call c = none)
    (hask : ∀ n, c ≠ .empty n ∧ c ≠ .size n) : ¬ Admissible t c := by
  intro h
  obtain ⟨n, he | he, -⟩ := h hc hr
  · exact (hask n).1 he
  · exact (hask n).2 he

/-- After the checks of the number, whatever they find. -/
theorem test_bind {α : Type} (h : 0 ≤ n ∧ n < t.queueArraySize) (f : Bool → Except QueueFault α) :
    (t.test n >>= f) = f (t.queueMap n) := by
  rw [test_of_inside h]
  rfl

theorem test_bind_error {α : Type} (h : ¬ (0 ≤ n ∧ n < t.queueArraySize))
    (f : Bool → Except QueueFault α) : ∃ e, (t.test n >>= f) = .error e := by
  obtain ⟨e, he⟩ := test_of_outside h
  rw [he]
  exact ⟨e, rfl⟩

theorem push_right_iff : CallRight t (.push n v) ↔ Admissible t (.push n v) := by
  by_cases hc : t.Created n
  · have hr : t.fifos.call (.push n v) =
        some (Function.update t.fifos n (some (t.queueTable n ++ [v])), none) := by
      simp [Fifos.call, fifos_of_created hc]
    exact iff_of_true
      (callRight_of_served nofun hr ⟨_, test_bind ⟨hc.1, hc.2.1⟩ _, fifos_setQueue hc _⟩)
      (admissible_of_served hr)
  · have hr : t.fifos.call (.push n v) = none := by simp [Fifos.call, fifos_of_not_created hc]
    refine iff_of_false ?_ (not_admissible nofun hr fun n => ⟨nofun, nofun⟩)
    by_cases hin : 0 ≤ n ∧ n < t.queueArraySize
    · -- the value goes into a queue that was not created
      intro hright
      obtain ⟨rv, hrefused⟩ := hright.refused nofun hr
      have hpush : t.queueSyscall (.push n v) =
          .ok (t.setQueue n (t.queueTable n ++ [v]), none) := test_bind hin _
      have hsame := congrArg (fun t : QueueTable => (t.queueTable n).length)
        (Prod.mk.inj (Except.ok.inj (hpush.symm.trans hrefused))).1
      simp [QueueTable.setQueue] at hsame
    · obtain ⟨f, hf⟩ := test_bind_error hin _
      exact not_callRight_of_error nofun hr hf

theorem created_of_fifos {q : List ℤ} (h : t.fifos n = some q) : t.Created n ∧ t.queueTable n = q := by
  by_cases hc : t.Created n
  · exact ⟨hc, Option.some.inj ((fifos_of_created hc).symm.trans h)⟩
  · cases (fifos_of_not_created hc).symm.trans h

/-- Front and Pop without a value to give. -/
theorem call_of_noValue (hcall : c = .front n ∨ c = .pop n)
    (h : ∀ v rest, t.fifos n ≠ some (v :: rest)) : t.fifos.call c = none := by
  rcases hcall with rfl | rfl
  all_goals
    unfold Fifos.call
    dsimp only
    split
    · exact absurd ‹_› (h _ _)
    · rfl

theorem noValue_right_iff (hs : t.Sound) (hcall : c = .front n ∨ c = .pop n)
    (h : ∀ v rest, t.fifos n ≠ some (v :: rest)) : CallRight t c ↔ Admissible t c := by
  have hne : c ≠ .createQueue := by rcases hcall with rfl | rfl <;> nofun
  have hr := call_of_noValue hcall h
  have hnil : t.queueTable n = [] := by
    by_cases hc : t.Created n
    · cases hq : t.queueTable n with
      | nil => rfl
      | cons v rest => exact absurd (hq ▸ fifos_of_created hc) (h v rest)
    · exact hs.unused n hc
  refine iff_of_false ?_ (not_admissible hne hr fun n => ?_)
  · by_cases hin : 0 ≤ n ∧ n < t.queueArraySize
    · refine not_callRight_of_error (f := .emptyQueue) hne hr ?_
      rcases hcall with rfl | rfl
      · exact (test_bind hin _).trans (by rw [hnil])
      · exact (test_bind hin _).trans (by rw [hnil])
    · obtain ⟨f, hf⟩ : ∃ f, t.queueSyscall c = .error f := by
        rcases hcall with rfl | rfl <;> exact test_bind_error hin _
      exact not_callRight_of_error hne hr hf
  · rcases hcall with rfl | rfl <;> exact ⟨nofun, nofun⟩

theorem front_right_iff (hs : t.Sound) : CallRight t (.front n) ↔ Admissible t (.front n) := by
  by_cases h : ∃ v rest, t.fifos n = some (v :: rest)
  · obtain ⟨v, rest, hq⟩ := h
    obtain ⟨hc, htable⟩ := created_of_fifos hq
    have hr : t.fifos.call (.front n) = some (t.fifos, some v) := by simp [Fifos.call, hq]
    refine iff_of_true (callRight_of_served nofun hr ⟨t, ?_, rfl⟩) (admissible_of_served hr)
    exact (test_bind ⟨hc.1, hc.2.1⟩ _).trans (by rw [htable])
  · exact noValue_right_iff hs (.inl rfl) (by simpa using h)

theorem pop_right_iff (hs : t.Sound) : CallRight t (.pop n) ↔ Admissible t (.pop n) := by
  by_cases h : ∃ v rest, t.fifos n = some (v :: rest)
  · obtain ⟨v, rest, hq⟩ := h
    obtain ⟨hc, htable⟩ := created_of_fifos hq
    have hr : t.fifos.call (.pop n) = some (Function.update t.fifos n (some rest), none) := by
      simp [Fifos.call, hq]
    refine iff_of_true (callRight_of_served nofun hr ⟨t.setQueue n rest, ?_, fifos_setQueue hc rest⟩)
      (admissible_of_served hr)
    exact (test_bind ⟨hc.1, hc.2.1⟩ _).trans (by rw [htable])
  · exact noValue_right_iff hs (.inr rfl) (by simpa using h)

/-- Empty and Size leave every queue alone. -/
theorem ask_right_iff (hask : c = .empty n ∨ c = .size n) : CallRight t c ↔ Admissible t c := by
  have hne : c ≠ .createQueue := by rcases hask with rfl | rfl <;> nofun
  by_cases hin : 0 ≤ n ∧ n < t.queueArraySize
  · refine iff_of_true ?_ fun _ _ => ⟨n, hask, hin⟩
    by_cases hc : t.Created n
    · rcases hask with rfl | rfl
      · exact callRight_of_served hne (by simp [Fifos.call, fifos_of_created hc]; rfl)
          ⟨t, (test_bind hin _).trans (by simp), rfl⟩
      · exact callRight_of_served hne (by simp [Fifos.call, fifos_of_created hc])
          ⟨t, test_bind hin _, rfl⟩
    · rcases hask with rfl | rfl
      · exact callRight_of_refused hne (by simp [Fifos.call, fifos_of_not_created hc])
          (test_bind hin _)
      · exact callRight_of_refused hne (by simp [Fifos.call, fifos_of_not_created hc])
          (test_bind hin _)
  · have hr : t.fifos.call c = none := by
      have hc : ¬ t.Created n := fun hc => hin ⟨hc.1, hc.2.1⟩
      rcases hask with rfl | rfl <;> simp [Fifos.call, fifos_of_not_created hc]
    have herror : ∃ f, t.queueSyscall c = .error f := by
      rcases hask with rfl | rfl <;> exact test_bind_error hin _
    refine iff_of_false (not_callRight_of_error hne hr herror.choose_spec) fun h => ?_
    obtain ⟨m, hm, hin'⟩ := h hne hr
    rcases hask with rfl | rfl <;> rcases hm with hm | hm <;> cases hm <;> exact hin hin'

theorem callRight_iff (hs : t.Sound) : CallRight t c ↔ Admissible t c := by
  cases c with
  | createQueue =>
    refine iff_of_true ⟨fun _ t' rv h => (createQueue_right hs h).2, fun a rv h => ?_, nofun⟩ nofun
    cases h
  | push n v => exact push_right_iff
  | front n => exact front_right_iff hs
  | pop n => exact pop_right_iff hs
  | empty n => exact ask_right_iff (.inl rfl)
  | size n => exact ask_right_iff (.inr rfl)

/-! Runs. -/

abbrev QueueStep := Transition QueueTable (QueueCall × Option ℤ)

/-- What a call adds to queue `n`. -/
def pushedTo (n : ℤ) (x : QueueStep) : List ℤ :=
  match x.event.1 with
  | .push m v => if m = n then [v] else []
  | _ => []

/-- What a call takes from queue `n`. -/
def poppedFrom (n : ℤ) (x : QueueStep) : List ℤ :=
  match x.event.1 with
  | .pop m => if m = n then (x.before.queueTable n).take 1 else []
  | _ => []

theorem QueueTable.Sound.queueTable_eq (hs : t.Sound) (n : ℤ) :
    t.queueTable n = (t.fifos n).getD [] := by
  by_cases hc : t.Created n
  · rw [fifos_of_created hc, Option.getD_some]
  · rw [fifos_of_not_created hc, hs.unused n hc, Option.getD_none]

/-- Front, Empty and Size change nothing. -/
theorem ask_unchanged (hcall : c = .front n ∨ c = .empty n ∨ c = .size n)
    (h : t.queueSyscall c = .ok (t', rv)) : t' = t := by
  by_cases hin : 0 ≤ n ∧ n < t.queueArraySize
  · rcases hcall with rfl | rfl | rfl
    · have h := (test_bind hin _).symm.trans h
      split at h
      · cases h
      · exact (Prod.mk.inj (Except.ok.inj h)).1.symm
    · exact (Prod.mk.inj (Except.ok.inj ((test_bind hin _).symm.trans h))).1.symm
    · exact (Prod.mk.inj (Except.ok.inj ((test_bind hin _).symm.trans h))).1.symm
  · have herror : ∃ f, t.queueSyscall c = .error f := by
      rcases hcall with rfl | rfl | rfl <;> exact test_bind_error hin _
    obtain ⟨f, hf⟩ := herror
    cases hf.symm.trans h

theorem admissible_step (hs : t.Sound) (ha : Admissible t c)
    (h : t.queueSyscall c = .ok (t', rv)) :
    t'.Sound ∧ ∀ n, Moves (t.queueTable n) (pushedTo n ⟨t, (c, rv), t'⟩)
      (poppedFrom n ⟨t, (c, rv), t'⟩) (t'.queueTable n) := by
  cases c with
  | createQueue =>
    obtain ⟨hs', m, -, hm, hfifos⟩ := createQueue_right hs h
    refine ⟨hs', fun n => ?_⟩
    have hsame : t'.queueTable n = t.queueTable n := by
      rw [hs.queueTable_eq, hs'.queueTable_eq, hfifos]
      by_cases hn : n = m
      · rw [hn, Function.update_self, hm]
        rfl
      · rw [Function.update_of_ne hn]
    exact hsame ▸ Moves.refl _
  | push m v =>
    have hc : t.Created m := by
      by_contra hc
      have hr : t.fifos.call (.push m v) = none := by simp [Fifos.call, fifos_of_not_created hc]
      exact absurd ha (not_admissible nofun hr fun n => ⟨nofun, nofun⟩)
    have h := (test_bind ⟨hc.1, hc.2.1⟩ _).symm.trans h
    obtain ⟨rfl, rfl⟩ := Prod.mk.inj (Except.ok.inj h)
    refine ⟨setQueue_sound hs hc _, fun n => ?_⟩
    by_cases hn : n = m
    · subst hn
      simpa [pushedTo, poppedFrom, QueueTable.setQueue] using Moves.enter (t.queueTable n) [v]
    · simpa [pushedTo, poppedFrom, QueueTable.setQueue, hn, Ne.symm hn] using
        Moves.refl (t.queueTable n)
  | pop m =>
    obtain ⟨v, rest, hq⟩ : ∃ v rest, t.fifos m = some (v :: rest) := by
      by_contra hno
      have hr := @call_of_noValue t (.pop m) m (.inr rfl) (by simpa using hno)
      exact absurd ha (not_admissible nofun hr fun n => ⟨nofun, nofun⟩)
    obtain ⟨hc, htable⟩ := created_of_fifos hq
    have h := (test_bind ⟨hc.1, hc.2.1⟩ _).symm.trans h
    rw [htable] at h
    obtain ⟨rfl, rfl⟩ := Prod.mk.inj (Except.ok.inj h)
    refine ⟨setQueue_sound hs hc _, fun n => ?_⟩
    by_cases hn : n = m
    · subst hn
      simpa [pushedTo, poppedFrom, QueueTable.setQueue, htable] using Moves.leave [v] rest
    · simpa [pushedTo, poppedFrom, QueueTable.setQueue, hn, Ne.symm hn] using
        Moves.refl (t.queueTable n)
  | front m =>
    obtain rfl := ask_unchanged (.inl rfl) h
    exact ⟨hs, fun n => .refl _⟩
  | empty m =>
    obtain rfl := ask_unchanged (.inr (.inl rfl)) h
    exact ⟨hs, fun n => .refl _⟩
  | size m =>
    obtain rfl := ask_unchanged (.inr (.inr rfl)) h
    exact ⟨hs, fun n => .refl _⟩

/-- In a run of calls that are all admissible each queue is FIFO, independently of the others,
and exactly the admissible next calls are right. -/
theorem queue_syscalls_right {tr : List QueueStep}
    (h : Execution (Handles QueueTable.queueSyscall) .initial tr t)
    (ha : ∀ x ∈ tr, Admissible x.before x.event.1) :
    (∀ n, tr.flatMap (pushedTo n) = tr.flatMap (poppedFrom n) ++ t.queueTable n) ∧
      ∀ c, CallRight t c ↔ Admissible t c := by
  have hrun := h.history_invariant (P := fun tr t => t.Sound ∧ ∀ n,
      Moves [] (tr.flatMap (pushedTo n)) (tr.flatMap (poppedFrom n)) (t.queueTable n))
    ⟨.initial, fun n => .refl _⟩ (fun tr x hs hx hc => ?_) ha
  · exact ⟨hrun.2, fun c => callRight_iff hrun.1⟩
  · obtain ⟨hs', hmoves⟩ := admissible_step hs.1 hc hx
    refine ⟨hs', fun n => ?_⟩
    rw [List.flatMap_append, List.flatMap_append, List.flatMap_singleton, List.flatMap_singleton]
    exact (hs.2 n).trans (hmoves n)

theorem queue_syscalls_right_pop :
    ∃ (tr : List QueueStep) (t : QueueTable),
      Execution (Handles QueueTable.queueSyscall) .initial tr t ∧ t.queueTable 0 = [8] ∧
      tr.flatMap (pushedTo 0) = tr.flatMap (poppedFrom 0) ++ t.queueTable 0 := by
  obtain ⟨tr, t, h, -, htest⟩ := exists_of_trace QueueTable.queueSyscall .initial
    [.createQueue, .push 0 7, .push 0 8, .pop 0]
    (fun r => decide (r.2.queueTable 0 = [8]) && r.1.all fun x =>
      decide (x.event.1 = .createQueue) || (x.before.fifos.call x.event.1).isSome)
    (by decide +kernel)
  simp only [Bool.and_eq_true, decide_eq_true_eq, List.all_eq_true, Bool.or_eq_true] at htest
  refine ⟨tr, t, h, htest.1, (queue_syscalls_right h fun x hx => ?_).1 0⟩
  rcases htest.2 x hx with hc | hr
  · exact fun hne => absurd hc hne
  · obtain ⟨r, hr⟩ := Option.isSome_iff_exists.mp hr
    exact admissible_of_served hr

/-- After one CreateQueue, a Push on queue 3 puts its value there. -/
theorem push_not_refused :
    ∃ (tr : List QueueStep) (t : QueueTable),
      Execution (Handles QueueTable.queueSyscall) .initial tr t ∧ ¬ CallRight t (.push 3 7) := by
  obtain ⟨tr, t, h, -, htest⟩ := exists_of_trace QueueTable.queueSyscall .initial [.createQueue]
    (fun r => (r.2.fifos.call (.push 3 7)).isNone && match r.2.queueSyscall (.push 3 7) with
      | .ok q => decide (q.1.queueTable 3 ≠ r.2.queueTable 3)
      | .error _ => false) (by decide +kernel)
  rw [Bool.and_eq_true, Option.isNone_iff_eq_none] at htest
  refine ⟨tr, t, h, fun hright => ?_⟩
  obtain ⟨rv, hrefused⟩ := hright.refused nofun htest.1
  simp [hrefused] at htest

end Nachos.Queues
