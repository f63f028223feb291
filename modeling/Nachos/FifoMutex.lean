import Mathlib

/-! A mutual-exclusion lock with hand-off to the longest waiting client. The state
carries its invariant: nobody waits for a lock without an owner. -/
namespace Nachos.FifoMutex

structure Mutex (α : Type*) where
  owner : Option α
  waiting : List α
  idle : owner = none → waiting = []

inductive Op (α : Type*)
  | acquire (a : α)
  | release (a : α)

variable {α : Type*}

@[ext] theorem Mutex.ext {m n : Mutex α} (ho : m.owner = n.owner)
    (hw : m.waiting = n.waiting) : m = n := by
  cases m
  cases n
  simp_all

def free : Mutex α := ⟨none, [], fun _ => rfl⟩

variable [DecidableEq α]

/-- The owner may ask again; any other client queues behind an owner. -/
def acquire (m : Mutex α) (a : α) : Mutex α :=
  match m.owner with
  | none => ⟨some a, [], by simp⟩
  | some b => if b = a then m else ⟨some b, m.waiting ++ [a], by simp⟩

/-- Only the owner releases; the head of the queue becomes owner at once. -/
def release (m : Mutex α) (a : α) : Mutex α :=
  if m.owner = some a then
    match m.waiting with
    | [] => ⟨none, [], fun _ => rfl⟩
    | b :: rest => ⟨some b, rest, by simp⟩
  else m

def step (m : Mutex α) : Op α → Mutex α
  | .acquire a => acquire m a
  | .release a => release m a

def run (m : Mutex α) (ops : List (Op α)) : Mutex α := ops.foldl step m

/-- The request that an operation adds: an acquire by a client that is not the owner. -/
def arrival (m : Mutex α) : Op α → List α
  | .acquire a => if m.owner = some a then [] else [a]
  | .release _ => []

/-- The request that an operation makes owner. -/
def grant (m : Mutex α) : Op α → List α
  | .acquire a => if m.owner = none then [a] else []
  | .release a => if m.owner = some a then m.waiting.take 1 else []

def arrivals : Mutex α → List (Op α) → List α
  | _, [] => []
  | m, op :: ops => arrival m op ++ arrivals (step m op) ops

def grants : Mutex α → List (Op α) → List α
  | _, [] => []
  | m, op :: ops => grant m op ++ grants (step m op) ops

/-- One operation moves requests through the queue without loss or reordering. -/
theorem grant_append_waiting (m : Mutex α) (op : Op α) :
    grant m op ++ (step m op).waiting = m.waiting ++ arrival m op := by
  cases op with
  | acquire a =>
    cases ho : m.owner with
    | none => simp [grant, step, arrival, acquire, ho, m.idle ho]
    | some b =>
      by_cases hb : b = a
      · simp [grant, step, arrival, acquire, ho, hb]
      · simp [grant, step, arrival, acquire, ho, hb]
  | release a =>
    by_cases ho : m.owner = some a
    · cases hw : m.waiting with
      | nil => simp [grant, step, arrival, release, ho, hw]
      | cons b rest => simp [grant, step, arrival, release, ho, hw]
    · simp [grant, step, arrival, release, ho]

/-- The requests granted so far, followed by those still queued, are the requests
in the order of their arrival. -/
theorem grants_append_waiting (m : Mutex α) (ops : List (Op α)) :
    grants m ops ++ (run m ops).waiting = m.waiting ++ arrivals m ops := by
  induction ops generalizing m with
  | nil => simp [grants, arrivals, run]
  | cons op ops ih =>
    calc grants m (op :: ops) ++ (run m (op :: ops)).waiting
        = grant m op ++ (grants (step m op) ops ++ (run (step m op) ops).waiting) := by
          simp [grants, run]
      _ = (grant m op ++ (step m op).waiting) ++ arrivals (step m op) ops := by
          rw [ih, List.append_assoc]
      _ = m.waiting ++ arrivals m (op :: ops) := by
          rw [grant_append_waiting, List.append_assoc, arrivals]

theorem run_append (m : Mutex α) (xs ys : List (Op α)) :
    run m (xs ++ ys) = run (run m xs) ys := List.foldl_append

theorem grants_append (m : Mutex α) (xs ys : List (Op α)) :
    grants m (xs ++ ys) = grants m xs ++ grants (run m xs) ys := by
  induction xs generalizing m with
  | nil => rfl
  | cons op xs ih => simp [grants, ih, run]

theorem arrivals_append (m : Mutex α) (xs ys : List (Op α)) :
    arrivals m (xs ++ ys) = arrivals m xs ++ arrivals (run m xs) ys := by
  induction xs generalizing m with
  | nil => rfl
  | cons op xs ih => simp [arrivals, ih, run]

/-- A client that does not own the lock cannot change it by a release. -/
theorem release_of_not_owner {m : Mutex α} {a : α} (h : m.owner ≠ some a) :
    release m a = m := by simp [release, h]

/-- A request is granted exactly when it becomes owner of a lock it did not own. -/
theorem grant_acquire_iff (m : Mutex α) (a : α) :
    grant m (.acquire a) = [a] ↔ m.owner ≠ some a ∧ (acquire m a).owner = some a := by
  cases ho : m.owner with
  | none => simp [grant, acquire, ho]
  | some b =>
    by_cases hb : b = a
    · simp [grant, acquire, ho, hb]
    · simp [grant, acquire, ho, hb]

/-- After a release by the owner the owner is the request that was granted, if any. -/
theorem release_owner {m : Mutex α} {a : α} (h : m.owner = some a) :
    (release m a).owner = (grant m (.release a)).head? := by
  cases hw : m.waiting with
  | nil => simp [release, grant, h, hw]
  | cons b rest => simp [release, grant, h, hw]

end Nachos.FifoMutex
