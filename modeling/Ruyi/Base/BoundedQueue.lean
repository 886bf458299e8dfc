import Ruyi.Base.Simulation

namespace Ruyi.Base

/-- The calls on a bounded queue, with what they come to. -/
inductive QueueOp (α : Type) where
  | push (a : α)
  | refuse (a : α)
  | pop (a : α)
  | empty
  deriving DecidableEq

namespace QueueOp

variable {α : Type}

/-- The calls are on one of the two ends. -/
def atBack : QueueOp α → Bool
  | push _ | refuse _ => true
  | pop _ | empty => false

def pushes (ops : List (QueueOp α)) : List α :=
  ops.filterMap fun
    | push a => some a
    | _ => none

def pops (ops : List (QueueOp α)) : List α :=
  ops.filterMap fun
    | pop a => some a
    | _ => none

end QueueOp

/-- A queue of at most `capacity` elements, whose calls happen one after the other. -/
def boundedQueue (α : Type) (capacity : Nat) : Spec (List α) (QueueOp α) where
  Step q op q' :=
    match op with
    | .push a => q.length < capacity ∧ q' = q ++ [a]
    | .refuse _ => capacity ≤ q.length ∧ q' = q
    | .pop a => q = a :: q'
    | .empty => q = [] ∧ q' = q

namespace boundedQueue

variable {α : Type} {capacity : Nat} {ops : List (QueueOp α)} {q : List α}

theorem conserves (h : (boundedQueue α capacity).Run [] ops q) :
    QueueOp.pops ops ++ q = QueueOp.pushes ops ∧ q.length ≤ capacity := by
  refine h.invariant (I := fun ops q => QueueOp.pops ops ++ q = QueueOp.pushes ops ∧
    q.length ≤ capacity) ⟨rfl, Nat.zero_le _⟩ ?_
  rintro ops q op q' ⟨hsame, hle⟩ hstep
  simp only [QueueOp.pops, QueueOp.pushes, List.filterMap_append] at hsame ⊢
  cases op with
  | push a =>
      obtain ⟨hlt, rfl⟩ := hstep
      constructor
      · rw [← hsame]
        simp
      · rw [List.length_append]
        exact hlt
  | refuse a =>
      obtain ⟨-, rfl⟩ := hstep
      exact ⟨by simpa using hsame, hle⟩
  | pop a =>
      obtain rfl : q = a :: q' := hstep
      exact ⟨by simpa using hsame, Nat.le_of_succ_le hle⟩
  | empty =>
      obtain ⟨-, rfl⟩ := hstep
      exact ⟨by simpa using hsame, hle⟩

end boundedQueue

end Ruyi.Base
