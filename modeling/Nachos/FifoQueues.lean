import Nachos.Executions

/-! Queues in a run: what has entered is what has left, followed by what is still queued. -/
namespace Nachos.FifoQueues
open Executions

variable {σ ε α : Type*} {step : σ → ε → σ → Prop} {init s : σ} {tr : List (Transition σ ε)}

/-- A step adds these at the end of a queue and takes those from its front. -/
def Moves (q entered left q' : List α) : Prop := q ++ entered = left ++ q'

theorem Moves.refl (q : List α) : Moves q [] [] q := List.append_nil q

theorem Moves.enter (q xs : List α) : Moves q xs [] (q ++ xs) := rfl

theorem Moves.leave (xs q : List α) : Moves (xs ++ q) [] xs q := List.append_nil _

theorem Moves.trans {q q' q'' xs xs' ys ys' : List α} (h : Moves q xs ys q')
    (h' : Moves q' xs' ys' q'') : Moves q (xs ++ xs') (ys ++ ys') q'' := by
  unfold Moves at *
  calc q ++ (xs ++ xs') = (q ++ xs) ++ xs' := (List.append_assoc _ _ _).symm
    _ = ys ++ (q' ++ xs') := by rw [h, List.append_assoc]
    _ = (ys ++ ys') ++ q'' := by rw [h', List.append_assoc]

/-- The queue `q` of the state over a run in which every step moves it so. -/
theorem moves_run {P : σ → Prop} {q : σ → List α} {entered left : Transition σ ε → List α}
    (h : Execution step init tr s) (h0 : P init) (hP : ∀ s e t, P s → step s e t → P t)
    (hstep : ∀ s e t, P s → step s e t →
      Moves (q s) (entered ⟨s, e, t⟩) (left ⟨s, e, t⟩) (q t)) :
    Moves (q init) (tr.flatMap entered) (tr.flatMap left) (q s) := by
  induction h with
  | start => exact .refl _
  | extend hex hst ih =>
    rw [List.flatMap_append, List.flatMap_append, List.flatMap_singleton, List.flatMap_singleton]
    exact ih.trans (hstep _ _ _ (hex.invariant h0 hP) hst)

end Nachos.FifoQueues
