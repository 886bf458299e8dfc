import Mathlib

namespace Ruyi.Base

variable {w bits : Nat}

theorem testBit_ofDigits (hw : 0 < w) {groups : List Nat} (h : ∀ g ∈ groups, g < 2 ^ w) (j : Nat) :
    (Nat.ofDigits (2 ^ w) groups).testBit j = (groups.getD (j / w) 0).testBit (j % w) := by
  induction groups generalizing j with
  | nil => simp [Nat.ofDigits]
  | cons g rest ih =>
      obtain ⟨hg, hrest⟩ := List.forall_mem_cons.mp h
      rw [Nat.ofDigits_cons, Nat.add_comm, Nat.testBit_two_pow_mul_add _ hg]
      split
      · rename_i hlt
        rw [Nat.div_eq_of_lt hlt, Nat.mod_eq_of_lt hlt, List.getD_cons_zero]
      · rename_i hge
        have hle : w ≤ j := Nat.le_of_not_lt hge
        rw [ih hrest, Nat.div_eq_sub_div hw hle, Nat.mod_eq_sub_mod hle, List.getD_cons_succ]

/-- The groups from the `k`-th on are or-ed onto a number of `bits` bits, each shifted to its
place; a machine takes the shift modulo the width. -/
def orGroups (w bits : Nat) : (k v : Nat) → List Nat → Nat
  | _, v, [] => v
  | k, v, g :: rest => orGroups w bits (k + 1) (v ||| (g <<< (w * k % bits)) % 2 ^ bits) rest

theorem testBit_orGroups (w bits k v : Nat) (groups : List Nat) (j : Nat) :
    (orGroups w bits k v groups).testBit j = true ↔ v.testBit j = true ∨
      (j < bits ∧ ∃ i t, (groups.getD i 0).testBit t = true ∧ w * (k + i) % bits + t = j) := by
  induction groups generalizing k v with
  | nil => simp [orGroups]
  | cons g rest ih =>
      rw [orGroups, ih, Nat.testBit_or, Nat.testBit_mod_two_pow, Nat.testBit_shiftLeft]
      simp only [Bool.or_eq_true, Bool.and_eq_true, decide_eq_true_eq]
      constructor
      · rintro ((hv | ⟨hj, hge, hg⟩) | ⟨hj, i, t, ht, hpos⟩)
        · exact .inl hv
        · exact .inr ⟨hj, 0, j - w * k % bits, hg, Nat.add_sub_cancel' hge⟩
        · rw [Nat.add_assoc, Nat.add_comm 1] at hpos
          exact .inr ⟨hj, i + 1, t, ht, hpos⟩
      · rintro (hv | ⟨hj, i, t, ht, hpos⟩)
        · exact .inl (.inl hv)
        · cases i with
          | zero =>
              rw [Nat.add_zero] at hpos
              refine .inl (.inr ⟨hj, by omega, ?_⟩)
              rw [← hpos, Nat.add_sub_cancel_left]
              exact ht
          | succ i =>
              refine .inr ⟨hj, i, t, ht, ?_⟩
              rw [Nat.add_assoc, Nat.add_comm 1]
              exact hpos

/-- A group that starts at bit `bits` or above sets no bit below it that the groups there leave
clear. -/
def NoAlias (w bits : Nat) (groups : List Nat) : Prop :=
  ∀ i < groups.length, bits ≤ w * i → ∀ t < w, (groups.getD i 0).testBit t = true →
    w * i % bits + t < bits →
      (groups.getD ((w * i % bits + t) / w) 0).testBit ((w * i % bits + t) % w) = true

instance (w bits : Nat) (groups : List Nat) : Decidable (NoAlias w bits groups) :=
  inferInstanceAs (Decidable (∀ i < groups.length, _))

theorem noAlias_of_length {groups : List Nat} (h : w * (groups.length - 1) < bits) :
    NoAlias w bits groups := by
  intro i hi hle
  have hmono : w * i ≤ w * (groups.length - 1) := Nat.mul_le_mul_left w (by omega)
  omega

theorem orGroups_eq_iff (hw : 0 < w) {groups : List Nat} (h : ∀ g ∈ groups, g < 2 ^ w) :
    orGroups w bits 0 0 groups = Nat.ofDigits (2 ^ w) groups % 2 ^ bits ↔
      NoAlias w bits groups := by
  have hgroup : ∀ {i t}, (groups.getD i 0).testBit t = true → i < groups.length ∧ t < w := by
    intro i t ht
    rcases Nat.lt_or_ge i groups.length with hi | hi
    · refine ⟨hi, Nat.lt_of_not_le fun hle => ?_⟩
      rw [List.getD_eq_getElem _ _ hi, Nat.testBit_lt_two_pow (Nat.lt_of_lt_of_le
        (h _ (List.getElem_mem hi)) (Nat.pow_le_pow_right (Nat.zero_lt_succ 1) hle))] at ht
      cases ht
    · rw [List.getD_eq_default _ _ hi, Nat.zero_testBit] at ht
      cases ht
  constructor
  · intro heq i _ _ t _ ht hlt
    have hbit : (orGroups w bits 0 0 groups).testBit (w * i % bits + t) = true :=
      (testBit_orGroups w bits 0 0 groups _).mpr (.inr ⟨hlt, i, t, ht, by rw [Nat.zero_add]⟩)
    rw [heq, Nat.testBit_mod_two_pow, Bool.and_eq_true, testBit_ofDigits hw h] at hbit
    exact hbit.2
  · intro halias
    refine Nat.eq_of_testBit_eq fun j => Bool.eq_iff_iff.mpr ?_
    rw [testBit_orGroups, Nat.testBit_mod_two_pow, Bool.and_eq_true, decide_eq_true_eq,
      testBit_ofDigits hw h, Nat.zero_testBit]
    constructor
    · rintro (hv | ⟨hj, i, t, ht, rfl⟩)
      · cases hv
      · rw [Nat.zero_add] at hj ⊢
        refine ⟨hj, ?_⟩
        obtain ⟨hi, hlt⟩ := hgroup ht
        rcases Nat.lt_or_ge (w * i) bits with hin | hout
        · rw [Nat.mod_eq_of_lt hin, Nat.mul_add_div hw, Nat.div_eq_of_lt hlt,
            Nat.mul_add_mod, Nat.mod_eq_of_lt hlt]
          exact ht
        · exact halias i hi hout t hlt ht hj
    · rintro ⟨hj, hbit⟩
      refine .inr ⟨hj, j / w, j % w, hbit, ?_⟩
      have hin : w * (j / w) < bits := Nat.lt_of_le_of_lt (Nat.mul_div_le j w) hj
      rw [Nat.zero_add, Nat.mod_eq_of_lt hin]
      exact Nat.div_add_mod j w

end Ruyi.Base
