import Mathlib

namespace Ruyi.Base

/-- Queues side by side, one for each index. -/
abbrev Queues (ι α : Type) := ι → List α

namespace Queues

variable {ι α : Type} [DecidableEq ι] [DecidableEq α]

def push (q : Queues ι α) (k : ι) (a : α) : Queues ι α := Function.update q k (q k ++ [a])

def remove (q : Queues ι α) (a : α) : Queues ι α := fun i => (q i).erase a

variable {q : Queues ι α} {a : α} {p : α → Bool}

omit [DecidableEq α] in
theorem filter_push (h : p a = false) (k i : ι) : (q.push k a i).filter p = (q i).filter p := by
  by_cases hi : i = k
  · subst hi
    rw [push, Function.update_self, List.filter_append, List.filter_singleton, h]
    exact List.append_nil _
  · rw [push, Function.update_of_ne hi]

omit [DecidableEq α] in
theorem flatMap_push {l : List ι} {k : ι} (hnodup : l.Nodup) (hk : k ∈ l) (q : Queues ι α) (a : α) :
    (l.flatMap (q.push k a)).Perm (l.flatMap q ++ [a]) := by
  induction l with
  | nil => cases hk
  | cons i l ih =>
      obtain ⟨hi, hnodup⟩ := List.nodup_cons.mp hnodup
      rw [List.flatMap_cons, List.flatMap_cons]
      rcases List.mem_cons.mp hk with rfl | hk
      · have hsame : l.flatMap (q.push k a) = l.flatMap q := by
          apply List.flatMap_congr
          rintro j hj
          refine Function.update_of_ne ?_ _ _
          rintro rfl
          exact hi hj
        rw [hsame, push, Function.update_self, List.append_assoc, List.append_assoc]
        exact List.perm_append_comm.append_left _
      · have hne : i ≠ k := by
          rintro rfl
          exact hi hk
        rw [push, Function.update_of_ne hne, List.append_assoc]
        exact (ih hnodup hk).append_left _

omit [DecidableEq ι] in
theorem filter_remove (h : p a = false) (i : ι) : (q.remove a i).filter p = (q i).filter p := by
  rw [remove, ← List.erase_filter]
  apply List.erase_of_not_mem
  intro hmem
  rw [List.mem_filter, h] at hmem
  exact Bool.false_ne_true hmem.2

end Queues

/-- A change to queues: an element is put at the end of one, moved there from wherever it
is, or taken out. -/
inductive QueueStep (ι α : Type) where
  | push (k : ι) (a : α)
  | move (k : ι) (a : α)
  | remove (a : α)

namespace QueueStep

variable {ι α : Type} [DecidableEq ι] [DecidableEq α]

def subject : QueueStep ι α → α
  | .push _ a => a
  | .move _ a => a
  | .remove a => a

def apply (q : Queues ι α) : QueueStep ι α → Queues ι α
  | .push k a => q.push k a
  | .move k a => (q.remove a).push k a
  | .remove a => q.remove a

variable {q : Queues ι α} {p : α → Bool}

theorem filter_apply {step : QueueStep ι α} (h : p step.subject = false) (i : ι) :
    (step.apply q i).filter p = (q i).filter p := by
  cases step with
  | push k a => exact Queues.filter_push h k i
  | move k a => exact (Queues.filter_push h k i).trans (Queues.filter_remove h i)
  | remove a => exact Queues.filter_remove h i

theorem filter_foldl {steps : List (QueueStep ι α)} (h : ∀ step ∈ steps, p step.subject = false)
    (i : ι) : (steps.foldl apply q i).filter p = (q i).filter p := by
  induction steps generalizing q with
  | nil => rfl
  | cons step steps ih =>
      rw [List.foldl_cons, ih fun step' hmem => h step' (List.mem_cons_of_mem _ hmem)]
      exact filter_apply (h step List.mem_cons_self) i

end QueueStep

end Ruyi.Base
