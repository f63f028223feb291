import Nachos.KernelQueues
import Nachos.SupermarketThreads

/-! `test/supermarket.c`: the part of the manager's loop that sends salesmen on break and calls
them back. Who is away goes round a queue of the kernel, department and number in one integer.
The locks of the departments are left out: between two parts of the loop the other threads do
what they like with the variables of the floor. -/
namespace Nachos.SalesBreaks
open Executions Queues
open Supermarket (numDepartments)

def numSalesmen : ℕ := 3

instance : NeZero numSalesmen := ⟨by decide⟩

instance : NeZero numDepartments := ⟨by decide⟩

/-- constructs an argument (for a salesman) that combines 2 numbers into one -/
def constructSalesArg (dept id : ℤ) : ℤ := Int.lor (dept <<< 8) id

/-- `target[0]`, the salesman, and `target[1]`, the department -/
def deconstructSalesArg (val : ℤ) : ℤ × ℤ := (Int.land val 0x000000ff, Int.land val 0x0000ff00 >>> 8)

inductive SalesmanStatus
  | notBusy
  | busy
  | goOnBreak
  | onBreak
  | readyToTalk
  | readyToTalkToLoader
  | signallingLoader
  deriving DecidableEq, Repr

/-- What the manager shares with customers, loaders and salesmen. -/
structure Floor where
  greetingCustWaitingLineCount : ℤ → ℤ
  complainingCustWaitingLineCount : ℤ → ℤ
  loaderWaitingLineCount : ℤ → ℤ
  currentSalesStatus : ℤ → ℤ → SalesmanStatus
  salesBreakBoard : ℤ → ℤ → ℤ

def Floor.write (f : Floor) (dept id note : ℤ) : Floor :=
  let row := Function.update (f.salesBreakBoard dept) id note
  { f with salesBreakBoard := Function.update f.salesBreakBoard dept row }

/-- With the pairs of department and salesman that have been sent on break and not called back. -/
structure Manager where
  floor : Floor
  queues : QueueTable
  salesmenOnBreak : ℤ
  numSalesmenOnBreak : ℤ → ℤ
  away : List (ℤ × ℤ)

inductive Event
  | others (floor : Floor) (queues : QueueTable)
  | bringBack
  /-- with the random numbers `chance`, `dept` and `r` -/
  | putOnBreak (chance : ℕ) (dept : Fin numDepartments) (r : Fin numSalesmen)

/-- There is someone in a line of the department, and the salesman is on break. -/
def Floor.Needs (f : Floor) (dept id : ℤ) : Prop :=
  f.greetingCustWaitingLineCount dept + f.complainingCustWaitingLineCount dept +
      f.loaderWaitingLineCount dept > 0 ∧ f.currentSalesStatus dept id = .onBreak

instance (f : Floor) (dept id : ℤ) : Decidable (f.Needs dept id) :=
  inferInstanceAs (Decidable (_ ∧ _))

namespace Manager

def changeCount (s : Manager) (dept change : ℤ) : Manager :=
  let count := s.numSalesmenOnBreak dept + change
  { s with numSalesmenOnBreak := Function.update s.numSalesmenOnBreak dept count }

/-- Begin bringing salesmen back from break -/
def bringBack (s : Manager) : Except QueueFault Manager := do
  let (_, size) ← s.queues.queueSize s.salesmenOnBreak
  if size = some 0 then return s
  let (_, arg) ← s.queues.queueFront s.salesmenOnBreak
  let (wakeSalesman, dept) := deconstructSalesArg (arg.getD 0)
  let (queues, _) ← s.queues.queuePop s.salesmenOnBreak
  if s.floor.Needs dept wakeSalesman then
    let s := s.changeCount dept (-1)
    let floor := s.floor.write dept wakeSalesman 0
    return { s with queues, floor, away := s.away.erase (dept, wakeSalesman) }
  else
    let (queues, _) ← queues.queuePush s.salesmenOnBreak wakeSalesman
    return { s with queues }

/-- Begin putting salesmen on break -/
def putOnBreak (s : Manager) (chance : ℕ) (dept : Fin numDepartments) (r : Fin numSalesmen) :
    Except QueueFault Manager := do
  if chance = 1 ∧ s.numSalesmenOnBreak dept < numSalesmen - 1 ∧ s.floor.salesBreakBoard dept r = 0 ∧
      s.floor.currentSalesStatus dept r ≠ .onBreak ∧
      s.floor.currentSalesStatus dept r ≠ .goOnBreak then
    let (queues, _) ← s.queues.queuePush s.salesmenOnBreak (constructSalesArg dept r)
    let s := s.changeCount dept 1
    let floor := s.floor.write dept r 1
    return { s with queues, floor, away := s.away ++ [((dept : ℤ), (r : ℤ))] }
  else return s

/-- The other threads, and the manager elsewhere in his loop, keep off the queue and the counts. -/
def perform (s : Manager) : Event → Option Manager
  | .others floor queues =>
    if queues.fifos s.salesmenOnBreak = s.queues.fifos s.salesmenOnBreak then
      some { s with floor, queues }
    else none
  | .bringBack => s.bringBack.toOption
  | .putOnBreak chance dept r => (s.putOnBreak chance dept r).toOption

/-- The manager at the start of his loop. -/
def start (floor : Floor) (queues : QueueTable) (salesmenOnBreak : ℤ) : Manager :=
  ⟨floor, queues, salesmenOnBreak, fun _ => 0, []⟩

def entries (s : Manager) : List ℤ := s.queues.queueTable s.salesmenOnBreak

end Manager

def salesmanOf (arg : ℤ) : ℤ := (deconstructSalesArg arg).1

def departmentOf (arg : ℤ) : ℤ := (deconstructSalesArg arg).2

theorem deconstruct_construct (dept : Fin numDepartments) (id : Fin numSalesmen) :
    salesmanOf (constructSalesArg dept id) = id ∧ departmentOf (constructSalesArg dept id) = dept := by
  revert dept id
  decide

/-- A salesman's number alone stands for one of department 0. -/
theorem deconstruct_id (id : Fin numSalesmen) : salesmanOf id = id ∧ departmentOf id = 0 := by
  revert id
  decide

theorem construct_zero (id : Fin numSalesmen) : constructSalesArg 0 id = id := by
  revert id
  decide

/-! The calls of the queue syscalls, on a created queue. -/

section Calls
variable {t : QueueTable} {n v : ℤ} {rest : List ℤ}

theorem size_of_created (h : t.Created n) :
    t.queueSize n = .ok (t, some (t.queueTable n).length) := by
  rw [QueueTable.queueSize, test_of_inside ⟨h.1, h.2.1⟩]
  rfl

theorem front_of_created (h : t.Created n) (hq : t.queueTable n = v :: rest) :
    t.queueFront n = .ok (t, some v) := by
  rw [QueueTable.queueFront, test_of_inside ⟨h.1, h.2.1⟩]
  simp only [hq]
  rfl

theorem pop_of_created (h : t.Created n) (hq : t.queueTable n = v :: rest) :
    t.queuePop n = .ok (t.setQueue n rest, none) := by
  rw [QueueTable.queuePop, test_of_inside ⟨h.1, h.2.1⟩]
  simp only [hq]
  rfl

theorem push_of_created (h : t.Created n) (v : ℤ) :
    t.queuePush n v = .ok (t.setQueue n (t.queueTable n ++ [v]), none) := by
  rw [QueueTable.queuePush, test_of_inside ⟨h.1, h.2.1⟩]
  rfl

theorem created_setQueue (h : t.Created n) (q : List ℤ) : (t.setQueue n q).Created n := h

@[simp] theorem setQueue_queueTable (t : QueueTable) (n : ℤ) (q : List ℤ) :
    (t.setQueue n q).queueTable n = q := Function.update_self ..

theorem setQueue_setQueue (t : QueueTable) (n : ℤ) (p q : List ℤ) :
    (t.setQueue n p).setQueue n q = t.setQueue n q := by
  simp [QueueTable.setQueue]

end Calls

namespace Manager
variable {s s' : Manager} {arg : ℤ} {rest : List ℤ}

@[simp] theorem changeCount_floor (dept change : ℤ) : (s.changeCount dept change).floor = s.floor :=
  rfl

@[simp] theorem changeCount_away (dept change : ℤ) : (s.changeCount dept change).away = s.away := rfl

theorem bringBack_nobody (hc : s.queues.Created s.salesmenOnBreak) (hq : s.entries = []) :
    s.bringBack = .ok s := by
  have hsize := size_of_created hc
  rw [show s.queues.queueTable s.salesmenOnBreak = [] from hq] at hsize
  simp [bringBack, hsize, bind, Except.bind, pure, Except.pure]

/-- The salesman at the front is called back. -/
def calledBack (s : Manager) (arg : ℤ) (rest : List ℤ) : Manager :=
  { s.changeCount (departmentOf arg) (-1) with
    queues := s.queues.setQueue s.salesmenOnBreak rest
    floor := s.floor.write (departmentOf arg) (salesmanOf arg) 0
    away := s.away.erase (departmentOf arg, salesmanOf arg) }

/-- His number goes to the end of the queue. -/
def putBack (s : Manager) (arg : ℤ) (rest : List ℤ) : Manager :=
  { s with queues := s.queues.setQueue s.salesmenOnBreak (rest ++ [salesmanOf arg]) }

theorem bringBack_front (hc : s.queues.Created s.salesmenOnBreak) (hq : s.entries = arg :: rest) :
    s.bringBack = .ok (if s.floor.Needs (departmentOf arg) (salesmanOf arg) then
      s.calledBack arg rest else s.putBack arg rest) := by
  have hsize := size_of_created hc
  rw [show s.queues.queueTable s.salesmenOnBreak = arg :: rest from hq] at hsize
  have hnot : ¬ (rest.length : ℤ) + 1 = 0 := by omega
  have hpush := push_of_created (created_setQueue hc rest) (salesmanOf arg)
  rw [setQueue_queueTable, setQueue_setQueue] at hpush
  split_ifs with hneeds
  · simp only [departmentOf, salesmanOf] at hneeds
    simp [bringBack, hsize, front_of_created hc hq, pop_of_created hc hq, bind, Except.bind, pure,
      Except.pure, hnot, hneeds, calledBack, departmentOf, salesmanOf]
  · simp only [departmentOf, salesmanOf] at hneeds hpush
    simp [bringBack, hsize, front_of_created hc hq, pop_of_created hc hq, bind, Except.bind, pure,
      Except.pure, hnot, hneeds, hpush, putBack, salesmanOf]

/-- A salesman is sent on break. -/
def sent (s : Manager) (dept : Fin numDepartments) (r : Fin numSalesmen) : Manager :=
  let queue := s.entries ++ [constructSalesArg dept r]
  { s.changeCount dept 1 with
    queues := s.queues.setQueue s.salesmenOnBreak queue
    floor := s.floor.write dept r 1
    away := s.away ++ [((dept : ℤ), (r : ℤ))] }

theorem putOnBreak_cases (hc : s.queues.Created s.salesmenOnBreak) {chance : ℕ}
    {dept : Fin numDepartments} {r : Fin numSalesmen} (h : s.putOnBreak chance dept r = .ok s') :
    s' = s ∨ s' = s.sent dept r := by
  unfold putOnBreak at h
  split_ifs at h with hcond
  · rw [push_of_created hc] at h
    exact .inr (Except.ok.inj h).symm
  · exact .inl (Except.ok.inj h).symm

/-- The pair that an entry stands for. -/
def pairOf (arg : ℤ) : ℤ × ℤ := (departmentOf arg, salesmanOf arg)

/-- The count of each department is that of its entries, and the entries are those who are away. -/
structure Accounted (s : Manager) : Prop where
  created : s.queues.Created s.salesmenOnBreak
  packed : ∀ arg ∈ s.entries, ∃ (dept : Fin numDepartments) (id : Fin numSalesmen),
    arg = constructSalesArg dept id
  away : s.away.Perm (s.entries.map pairOf)
  counted : ∀ dept, s.numSalesmenOnBreak dept = s.entries.countP fun arg => departmentOf arg = dept

theorem Accounted.others (h : Accounted s) {floor : Floor} {queues : QueueTable}
    (hkeep : queues.fifos s.salesmenOnBreak = s.queues.fifos s.salesmenOnBreak) :
    Accounted { s with floor, queues } := by
  rw [fifos_of_created h.created] at hkeep
  obtain ⟨hc, htable⟩ := created_of_fifos hkeep
  have hentries : Manager.entries { s with floor, queues } = s.entries := htable
  refine ⟨hc, ?_, ?_, ?_⟩
  · rw [hentries]
    exact h.packed
  · rw [hentries]
    exact h.away
  · rw [hentries]
    exact h.counted

theorem calledBack_entries : (s.calledBack arg rest).entries = rest := setQueue_queueTable ..

theorem putBack_entries : (s.putBack arg rest).entries = rest ++ [salesmanOf arg] :=
  setQueue_queueTable ..

theorem sent_entries (dept : Fin numDepartments) (r : Fin numSalesmen) :
    (s.sent dept r).entries = s.entries ++ [constructSalesArg dept r] := setQueue_queueTable ..

theorem Accounted.calledBack (h : Accounted s) (hq : s.entries = arg :: rest) :
    Accounted (s.calledBack arg rest) := by
  refine ⟨created_setQueue h.created rest, fun a ha => ?_, ?_, fun dept => ?_⟩
  · rw [calledBack_entries] at ha
    exact h.packed a (by simp [hq, ha])
  · rw [calledBack_entries]
    have haway := h.away.erase (pairOf arg)
    rwa [hq, List.map_cons, List.erase_cons_head] at haway
  · have hcounted := h.counted dept
    rw [hq, List.countP_cons] at hcounted
    rw [calledBack_entries]
    change Function.update s.numSalesmenOnBreak (departmentOf arg) _ dept = _
    rw [Function.update_apply]
    split_ifs with hdept
    · subst hdept
      simp only [decide_true, if_true] at hcounted
      omega
    · simpa [Ne.symm hdept] using hcounted

theorem Accounted.sent (h : Accounted s) (dept : Fin numDepartments) (r : Fin numSalesmen) :
    Accounted (s.sent dept r) := by
  obtain ⟨hsalesman, hdepartment⟩ := deconstruct_construct dept r
  refine ⟨created_setQueue h.created _, fun a ha => ?_, ?_, fun d => ?_⟩
  · rw [sent_entries] at ha
    rcases List.mem_append.mp ha with ha | ha
    · exact h.packed a ha
    · exact ⟨dept, r, List.mem_singleton.mp ha⟩
  · rw [sent_entries, List.map_append, List.map_singleton, pairOf, hsalesman, hdepartment]
    exact h.away.append_right _
  · rw [sent_entries, List.countP_append, List.countP_singleton, hdepartment]
    change Function.update s.numSalesmenOnBreak (dept : ℤ) _ d = _
    rw [Function.update_apply]
    split_ifs with hd hd' hd'
    · rw [hd, h.counted, Nat.cast_add]
      rfl
    · exact absurd (decide_eq_true hd.symm) hd'
    · exact absurd (of_decide_eq_true hd').symm hd
    · rw [h.counted, Nat.add_zero]

/-- A salesman of department 0 is put back as he was. -/
theorem Accounted.putBack (h : Accounted s) (hq : s.entries = arg :: rest)
    (hdept : departmentOf arg = 0) : Accounted (s.putBack arg rest) := by
  obtain ⟨dept, id, harg⟩ := h.packed arg (by simp [hq])
  obtain ⟨hsalesman, hdepartment⟩ := deconstruct_construct dept id
  rw [← harg] at hsalesman hdepartment
  have hzero : (dept : ℤ) = 0 := hdepartment.symm.trans hdept
  have hsame : salesmanOf arg = arg := by
    rw [hsalesman, harg, hzero, construct_zero]
  have hperm : (rest ++ [arg]).Perm s.entries := by
    rw [hq]
    exact List.perm_append_comm
  refine ⟨created_setQueue h.created _, fun a ha => ?_, ?_, fun d => ?_⟩
  · rw [putBack_entries, hsame] at ha
    exact h.packed a (hperm.subset ha)
  · rw [putBack_entries, hsame]
    exact h.away.trans (hperm.map pairOf).symm
  · rw [putBack_entries, hsame, hperm.countP_eq]
    exact h.counted d

end Manager

open Manager

/-- What is asked of a state: the counts are those of the entries, and each entry stands for a
salesman who has been sent on break and not called back. -/
structure CountsAway (s : Manager) : Prop where
  counted : ∀ dept, s.numSalesmenOnBreak dept = s.entries.countP fun arg => departmentOf arg = dept
  away : ∀ arg ∈ s.entries, (departmentOf arg, salesmanOf arg) ∈ s.away

/-- The manager's next entry is of `arg`, and he will not call that salesman back. -/
def PutsBack (x : Transition Manager Event) (arg : ℤ) (rest : List ℤ) : Prop :=
  x.event = .bringBack ∧ x.before.entries = arg :: rest ∧
    ¬ x.before.floor.Needs (departmentOf arg) (salesmanOf arg)

/-- The step leaves counts and entries right, and an entry that is put back keeps its department. -/
structure StepRight (x : Transition Manager Event) : Prop where
  counts : CountsAway x.after
  department : ∀ arg rest, PutsBack x arg rest → ∃ arg', x.after.entries = rest ++ [arg'] ∧
    departmentOf arg' = departmentOf arg

/-- Only salesmen of department 0 are put back. -/
def PutsBackFirst (x : Transition Manager Event) : Prop :=
  ∀ arg rest, PutsBack x arg rest → departmentOf arg = 0

abbrev Steps (s : Manager) (e : Event) (s' : Manager) : Prop := perform s e = some s'

section
variable {s s' : Manager} {e : Event} {x : Transition Manager Event} {arg : ℤ} {rest : List ℤ}

theorem Manager.Accounted.countsAway (h : Accounted s) : CountsAway s :=
  ⟨h.counted, fun _ ha => h.away.symm.subset (List.mem_map_of_mem ha)⟩

/-- What one step can do. -/
theorem perform_cases (h : Accounted s) (hs : Steps s e s') :
    (∃ floor queues, e = .others floor queues ∧
      queues.fifos s.salesmenOnBreak = s.queues.fifos s.salesmenOnBreak ∧
      s' = { s with floor, queues }) ∨
    (e = .bringBack ∧ s.entries = [] ∧ s' = s) ∨
    (∃ arg rest, e = .bringBack ∧ s.entries = arg :: rest ∧
      s.floor.Needs (departmentOf arg) (salesmanOf arg) ∧ s' = s.calledBack arg rest) ∨
    (∃ arg rest, e = .bringBack ∧ s.entries = arg :: rest ∧
      ¬ s.floor.Needs (departmentOf arg) (salesmanOf arg) ∧ s' = s.putBack arg rest) ∨
    ∃ chance dept r, e = .putOnBreak chance dept r ∧ (s' = s ∨ s' = s.sent dept r) := by
  cases e with
  | others floor queues =>
    obtain ⟨hkeep, hsome⟩ := Option.ite_none_right_eq_some.mp hs
    exact .inl ⟨floor, queues, rfl, hkeep, (Option.some.inj hsome).symm⟩
  | bringBack =>
    change s.bringBack.toOption = some s' at hs
    cases hq : s.entries with
    | nil =>
      rw [bringBack_nobody h.created hq] at hs
      exact .inr (.inl ⟨rfl, rfl, (Option.some.inj hs).symm⟩)
    | cons arg rest =>
      rw [bringBack_front h.created hq] at hs
      have hnext := Option.some.inj hs
      split_ifs at hnext with hneeds
      · exact .inr (.inr (.inl ⟨arg, rest, rfl, rfl, hneeds, hnext.symm⟩))
      · exact .inr (.inr (.inr (.inl ⟨arg, rest, rfl, rfl, hneeds, hnext.symm⟩)))
  | putOnBreak chance dept r =>
    change (s.putOnBreak chance dept r).toOption = some s' at hs
    cases hput : s.putOnBreak chance dept r with
    | error f =>
      rw [hput] at hs
      cases hs
    | ok t =>
      rw [hput] at hs
      obtain rfl := Option.some.inj hs
      exact .inr (.inr (.inr (.inr ⟨chance, dept, r, rfl, putOnBreak_cases h.created hput⟩)))

theorem Manager.Accounted.step (h : Accounted s) (hs : Steps s e s')
    (hfirst : PutsBackFirst ⟨s, e, s'⟩) : Accounted s' := by
  rcases perform_cases h hs with ⟨floor, queues, rfl, hkeep, rfl⟩ | ⟨rfl, hq, rfl⟩ |
    ⟨arg, rest, rfl, hq, hneeds, rfl⟩ | ⟨arg, rest, rfl, hq, hneeds, rfl⟩ |
    ⟨chance, dept, r, rfl, rfl | rfl⟩
  · exact h.others hkeep
  · exact h
  · exact h.calledBack hq
  · exact h.putBack hq (hfirst arg rest ⟨rfl, hq, hneeds⟩)
  · exact h
  · exact h.sent dept r

/-- What is put back is the number of the salesman alone. -/
theorem after_of_putsBack (h : Accounted x.before) (hs : Steps x.before x.event x.after)
    (hput : PutsBack x arg rest) : x.after.entries = rest ++ [salesmanOf arg] ∧
      departmentOf (salesmanOf arg) = 0 := by
  obtain ⟨hevent, hq, hneeds⟩ := hput
  refine ⟨?_, ?_⟩
  · rcases perform_cases h hs with ⟨floor, queues, he, -, -⟩ | ⟨-, hq', -⟩ |
      ⟨arg', rest', -, hq', hneeds', -⟩ | ⟨arg', rest', -, hq', -, hafter⟩ | ⟨chance, dept, r, he, -⟩
    · cases hevent.symm.trans he
    · cases hq.symm.trans hq'
    · obtain ⟨rfl, rfl⟩ := List.cons.inj (hq.symm.trans hq')
      exact absurd hneeds' hneeds
    · obtain ⟨rfl, rfl⟩ := List.cons.inj (hq.symm.trans hq')
      rw [hafter, putBack_entries]
    · cases hevent.symm.trans he
  · obtain ⟨dept, id, rfl⟩ := h.packed arg (by simp [hq])
    rw [(deconstruct_construct dept id).1]
    exact (deconstruct_id id).2

/-- A step is right when what it puts back is of department 0. -/
theorem stepRight_iff (h : Accounted x.before) (hs : Steps x.before x.event x.after) :
    StepRight x ↔ PutsBackFirst x := by
  constructor
  · intro hright arg rest hput
    obtain ⟨arg', hafter, hdept⟩ := hright.department arg rest hput
    obtain ⟨hafter', hzero⟩ := after_of_putsBack h hs hput
    obtain ⟨-, harg⟩ := List.append_inj' (hafter.symm.trans hafter') rfl
    obtain rfl := List.singleton_inj.mp harg
    exact hdept.symm.trans hzero
  · intro hfirst
    refine ⟨(h.step hs hfirst).countsAway, fun arg rest hput => ?_⟩
    obtain ⟨hafter, hzero⟩ := after_of_putsBack h hs hput
    exact ⟨_, hafter, hzero.trans (hfirst arg rest hput).symm⟩

end

theorem accounted_start (floor : Floor) {queues : QueueTable} {n : ℤ}
    (hnew : queues.fifos n = some []) : Accounted (start floor queues n) := by
  obtain ⟨hc, hq⟩ := created_of_fifos hnew
  have hentries : (start floor queues n).entries = [] := hq
  refine ⟨hc, ?_, ?_, ?_⟩
  · simp [hentries]
  · rw [hentries]
    exact List.Perm.refl []
  · rw [hentries]
    exact fun _ => rfl

/-- In every run from a queue just created, whatever lines, salesmen and random numbers do: every
step leaves the counts and the entries right, and keeps the department of an entry that goes back to
the queue, if and only if all that ever goes back is of department 0. -/
theorem breaks_right_iff (floor : Floor) {queues : QueueTable} {n : ℤ}
    (hnew : queues.fifos n = some []) {tr : List (Transition Manager Event)} {s : Manager}
    (h : Execution Steps (start floor queues n) tr s) :
    (∀ x ∈ tr, StepRight x) ↔ ∀ x ∈ tr, PutsBackFirst x :=
  h.forall_iff (accounted_start floor hnew) (fun _ hx hs => stepRight_iff hx hs)
    fun _ hx hs hfirst => hx.step hs hfirst

/-- Nobody waits, and all salesmen are busy. -/
def quietFloor : Floor := ⟨fun _ => 0, fun _ => 0, fun _ => 0, fun _ _ => .busy, fun _ _ => 0⟩

def firstQueue : QueueTable := QueueTable.take ⟨8, fun _ => false, fun _ => []⟩ 0

theorem firstQueue_new : firstQueue.fifos 0 = some [] := by decide +kernel

/-- Salesman 2 of department 0 is sent on break, and put back because nobody needs him. -/
theorem breaks_right_first : ∃ tr s, Execution Steps (start quietFloor firstQueue 0) tr s ∧
    s.entries = [2] ∧ (∀ x ∈ tr, PutsBackFirst x) ∧ ∀ x ∈ tr, StepRight x := by
  obtain ⟨tr, s, hex, -, hcheck, htest⟩ := exists_of_runSteps perform
    (start quietFloor firstQueue 0) [.putOnBreak 1 0 2, .bringBack]
    (fun s _ => s.entries.all fun arg => departmentOf arg = 0) (fun s => s.entries = [2])
    (by decide +kernel)
  have hfirst : ∀ x ∈ tr, PutsBackFirst x := by
    rintro x hx arg rest ⟨-, hq, -⟩
    have hall := hcheck x hx
    rw [hq, List.all_cons, Bool.and_eq_true] at hall
    exact of_decide_eq_true hall.1
  exact ⟨tr, s, hex, of_decide_eq_true htest, hfirst,
    (breaks_right_iff quietFloor firstQueue_new hex).mpr hfirst⟩

/-- Salesman 0 of department 1 is sent on break, and put back as one of department 0. -/
theorem department_lost : ∃ tr s, Execution Steps (start quietFloor firstQueue 0) tr s ∧
    s.numSalesmenOnBreak 1 = 1 ∧ s.entries = [0] ∧ ¬ CountsAway s := by
  obtain ⟨tr, s, hex, -, -, htest⟩ := exists_of_runSteps perform (start quietFloor firstQueue 0)
    [.putOnBreak 1 1 0, .bringBack] (fun _ _ => true)
    (fun s => s.numSalesmenOnBreak 1 = 1 ∧ s.entries = [0]) (by decide +kernel)
  obtain ⟨hcount, hentries⟩ := of_decide_eq_true htest
  refine ⟨tr, s, hex, hcount, hentries, fun h => ?_⟩
  have hone := h.counted 1
  rw [hcount, hentries] at hone
  revert hone
  decide

end Nachos.SalesBreaks
