import Mathlib

namespace Ruyi.Base

/-- A machine with labelled steps.  In a given state an action may be disabled, it may
fail, or it may emit an event and lead to a next state. -/
structure Machine (σ α ε φ : Type) where
  step : σ → α → Option (Except φ (ε × σ))

namespace Machine

variable {σ α ε φ ω : Type} (M : Machine σ α ε φ)

/-- The runs all of whose steps satisfy `ok`, with the events they emit. -/
inductive Run (ok : σ → α → Prop) (s : σ) : List ε → σ → Prop where
  | nil : Run ok s [] s
  | snoc {log : List ε} {t u : σ} {a : α} {e : ε} (run : Run ok s log t) (allowed : ok t a)
      (step : M.step t a = some (.ok (e, u))) : Run ok s (log ++ [e]) u

variable {M} {ok ok' : σ → α → Prop} {s t u : σ} {log log' : List ε}

/-- The rule of invariants, over the events so far and the state. -/
theorem Run.invariant {I : List ε → σ → Prop} (hinit : I [] s)
    (hstep : ∀ {log t a e u}, I log t → ok t a → M.step t a = some (.ok (e, u)) →
      I (log ++ [e]) u)
    (h : M.Run ok s log t) : I log t := by
  induction h with
  | nil => exact hinit
  | snoc _ hallowed hnext ih => exact hstep ih hallowed hnext

theorem Run.trans (h : M.Run ok s log t) (h' : M.Run ok t log' u) :
    M.Run ok s (log ++ log') u := by
  induction h' with
  | nil =>
      rw [List.append_nil]
      exact h
  | snoc _ hallowed hnext ih =>
      rw [← List.append_assoc]
      exact ih.snoc hallowed hnext

theorem Run.mono (hle : ∀ s a, ok s a → ok' s a) (h : M.Run ok s log t) :
    M.Run ok' s log t := by
  induction h with
  | nil => exact .nil
  | snoc _ hallowed hnext ih => exact ih.snoc (hle _ _ hallowed) hnext

/-- The machine with a history variable, which sees every step and changes none. -/
def withHistory (M : Machine σ α ε φ) (record : σ → α → ε → ω → ω) :
    Machine (σ × ω) α ε φ where
  step s a :=
    (M.step s.1 a).map fun r => r.map fun next => (next.1, next.2, record s.1 a next.1 s.2)

theorem withHistory_step {record : σ → α → ε → ω → ω} {a : α} {e : ε} {h h' : ω} :
    (M.withHistory record).step (s, h) a = some (.ok (e, t, h')) ↔
      M.step s a = some (.ok (e, t)) ∧ h' = record s a e h := by
  constructor
  · intro hstep
    obtain ⟨r, hnext, hr⟩ := Option.map_eq_some_iff.mp hstep
    cases r with
    | error fault => cases hr
    | ok next =>
        cases hr
        exact ⟨hnext, rfl⟩
  · rintro ⟨hnext, rfl⟩
    simp only [withHistory, hnext, Option.map_some, Except.map]

theorem Run.forget {record : σ → α → ε → ω → ω} {okω : σ × ω → α → Prop} {p q : σ × ω}
    (hle : ∀ p a, okω p a → ok p.1 a) (h : (M.withHistory record).Run okω p log q) :
    M.Run ok p.1 log q.1 := by
  induction h with
  | nil => exact .nil
  | snoc _ hallowed hnext ih => exact ih.snoc (hle _ _ hallowed) (withHistory_step.mp hnext).1

theorem Run.length_le {I : σ → Prop} {left : σ → Nat} (hinit : I s)
    (hstep : ∀ {t a e u}, I t → ok t a → M.step t a = some (.ok (e, u)) → I u ∧ left u < left t)
    (h : M.Run ok s log t) : I t ∧ log.length + left t ≤ left s := by
  induction h with
  | nil => exact ⟨hinit, Nat.le_of_eq (Nat.zero_add _)⟩
  | snoc _ hallowed hnext ih =>
      obtain ⟨hI, hle⟩ := ih
      obtain ⟨hI', hlt⟩ := hstep hI hallowed hnext
      refine ⟨hI', ?_⟩
      rw [List.length_append, List.length_singleton]
      omega

/-- The run along a list of actions, when all are allowed, enabled and succeed. -/
def exec (M : Machine σ α ε φ) (ok : σ → α → Prop) [∀ s a, Decidable (ok s a)] :
    List α → σ → Option (List ε × σ)
  | [], s => some ([], s)
  | a :: as, s =>
      if ok s a then
        match M.step s a with
        | some (.ok (e, t)) => (M.exec ok as t).map fun r => (e :: r.1, r.2)
        | _ => none
      else none

theorem Run.of_exec [∀ s a, Decidable (ok s a)] (as : List α)
    (h : M.exec ok as s = some (log, t)) : M.Run ok s log t := by
  induction as generalizing s log with
  | nil =>
      cases h
      exact .nil
  | cons a as ih =>
      rw [exec] at h
      split at h
      · rename_i hallowed
        split at h
        · rename_i e u hstep
          obtain ⟨r, hr, heq⟩ := Option.map_eq_some_iff.mp h
          cases heq
          have hhead : M.Run ok s [e] u := Run.nil.snoc hallowed hstep
          exact hhead.trans (ih hr)
        · cases h
      · cases h

end Machine

end Ruyi.Base
