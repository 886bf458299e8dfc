import Mathlib

namespace Ruyi.Base

variable {α σ ρ : Type}

/-- A scan takes the elements one by one until it has a result; what it has not taken comes with
the result. -/
def scan (step : σ → α → σ ⊕ ρ) : σ → List α → σ ⊕ (ρ × List α)
  | s, [] => .inl s
  | s, x :: xs =>
      match step s x with
      | .inl s => scan step s xs
      | .inr r => .inr (r, xs)

variable {step : σ → α → σ ⊕ ρ}

theorem scan_append (s : σ) (xs ys : List α) :
    scan step s (xs ++ ys) =
      match scan step s xs with
      | .inl s => scan step s ys
      | .inr (r, rest) => .inr (r, rest ++ ys) := by
  induction xs generalizing s with
  | nil => rfl
  | cons x xs ih =>
      rw [List.cons_append, scan, scan]
      cases step s x with
      | inl s' => exact ih s'
      | inr r => rfl

theorem scan_invariant {I : σ → Prop} (hstep : ∀ {s x s'}, I s → step s x = .inl s' → I s')
    {s s' : σ} {xs : List α} (h : I s) (hscan : scan step s xs = .inl s') : I s' := by
  induction xs generalizing s with
  | nil =>
      cases hscan
      exact h
  | cons x xs ih =>
      rw [scan] at hscan
      cases hx : step s x with
      | inl t =>
          rw [hx] at hscan
          exact ih (hstep h hx) hscan
      | inr r =>
          rw [hx] at hscan
          cases hscan

theorem scan_result {P : ρ → Prop} (hstep : ∀ {s x r}, step s x = .inr r → P r) {s : σ}
    {xs rest : List α} {r : ρ} (hscan : scan step s xs = .inr (r, rest)) : P r := by
  induction xs generalizing s with
  | nil => cases hscan
  | cons x xs ih =>
      rw [scan] at hscan
      cases hx : step s x with
      | inl t =>
          rw [hx] at hscan
          exact ih hscan
      | inr r' =>
          rw [hx] at hscan
          cases hscan
          exact hstep hx

/-- The step that collects elements until `n` of them have been taken. -/
def takeStep (result : List α → ρ) : Nat × List α → α → (Nat × List α) ⊕ ρ
  | (n, taken), x =>
      if n ≤ 1 then .inr (result (taken ++ [x])) else .inl (n - 1, taken ++ [x])

theorem takeStep_pos {result : List α → ρ} {s s' : Nat × List α} {x : α}
    (h : takeStep result s x = .inl s') : 0 < s'.1 := by
  obtain ⟨n, taken⟩ := s
  rw [takeStep] at h
  split at h
  · cases h
  · cases h
    dsimp only
    omega

theorem scan_takeStep (result : List α → ρ) {n : Nat} (hn : 0 < n) (taken xs : List α) :
    scan (takeStep result) (n, taken) xs =
      if n ≤ xs.length then .inr (result (taken ++ xs.take n), xs.drop n)
      else .inl (n - xs.length, taken ++ xs) := by
  induction xs generalizing n taken with
  | nil => rw [if_neg (by rw [List.length_nil]; omega), List.append_nil]; rfl
  | cons x xs ih =>
      rw [scan, takeStep, List.length_cons]
      by_cases hone : n ≤ 1
      · have heq : n = 1 := by omega
        rw [if_pos hone, if_pos (by omega), heq]
        rfl
      · obtain ⟨m, rfl⟩ : ∃ m, n = m + 2 := ⟨n - 2, by omega⟩
        rw [if_neg hone]
        dsimp only
        rw [ih (by omega), List.append_assoc, List.append_assoc]
        by_cases hle : m + 2 ≤ xs.length + 1
        · rw [if_pos (by omega), if_pos hle]
          rfl
        · rw [if_neg (by omega), if_neg hle]
          congr 2
          omega

end Ruyi.Base
