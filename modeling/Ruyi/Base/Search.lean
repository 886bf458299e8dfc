import Mathlib

namespace Ruyi.Base

variable {α : Type}

/-- The needle stands at the offset `i` of the list. -/
def OccursAt (needle hay : List α) (i : Nat) : Prop :=
  (hay.drop i).take needle.length = needle

instance [DecidableEq α] (needle hay : List α) (i : Nat) : Decidable (OccursAt needle hay i) :=
  inferInstanceAs (Decidable (_ = _))

/-- The least number that satisfies `p`, if there is one. -/
def First (p : Nat → Prop) : Option Nat → Prop
  | some i => IsLeast {j | p j} i
  | none => ∀ j, ¬ p j

/-- The greatest number that satisfies `p`, if there is one. -/
def Last (p : Nat → Prop) : Option Nat → Prop
  | some i => IsGreatest {j | p j} i
  | none => ∀ j, ¬ p j

/-- All parts of `size` elements next to each other, from left to right. -/
def slices (size : Nat) (xs : List α) : List (List α) :=
  (List.range (xs.length + 1 - size)).map fun i => (xs.drop i).take size

/-- The first of the slices that is the needle. -/
def position [BEq α] (needle hay : List α) : Option Nat :=
  (List.range (hay.length + 1 - needle.length)).find? fun i =>
    (hay.drop i).take needle.length == needle

/-- The last of the slices that is the needle. -/
def rposition [BEq α] (needle hay : List α) : Option Nat :=
  (List.range (hay.length + 1 - needle.length)).reverse.find? fun i =>
    (hay.drop i).take needle.length == needle

section

variable {p q r : Nat → Prop} {o : Option Nat} {i : Nat}

theorem First.congr (h : First p o) (hpq : ∀ j, p j ↔ q j) : First q o := by
  have heq : p = q := funext fun j => propext (hpq j)
  exact heq ▸ h

theorem Last.congr (h : Last p o) (hpq : ∀ j, p j ↔ q j) : Last q o := by
  have heq : p = q := funext fun j => propext (hpq j)
  exact heq ▸ h

theorem First.of_left (hsplit : ∀ j, p j ↔ q j ∨ r j) (hle : ∀ j k, q j → r k → j ≤ k)
    (h : First q (some i)) : First p (some i) := by
  refine ⟨(hsplit i).mpr (.inl h.1), ?_⟩
  intro j hj
  rcases (hsplit j).mp hj with hq | hr
  · exact h.2 hq
  · exact hle i j h.1 hr

theorem First.of_right (hsplit : ∀ j, p j ↔ q j ∨ r j) (hq : First q none) (h : First r o) :
    First p o := by
  refine h.congr fun j => ?_
  rw [hsplit j]
  exact ⟨.inr, fun hj => hj.resolve_left (hq j)⟩

theorem First.shift {n : Nat} (h : First p o) (hle : ∀ j, q j → n ≤ j)
    (hpq : ∀ j, q (n + j) ↔ p j) : First q (o.map (n + ·)) := by
  cases o with
  | none =>
      intro j hj
      obtain ⟨k, rfl⟩ := Nat.exists_eq_add_of_le (hle j hj)
      exact h k ((hpq k).mp hj)
  | some i =>
      refine ⟨(hpq i).mpr h.1, ?_⟩
      intro j hj
      obtain ⟨k, rfl⟩ := Nat.exists_eq_add_of_le (hle j hj)
      exact Nat.add_le_add_left (h.2 ((hpq k).mp hj)) n

theorem first_find (n : Nat) (p : Nat → Bool) :
    First (fun i => i < n ∧ p i = true) ((List.range n).find? p) := by
  cases hfind : (List.range n).find? p with
  | none =>
      rintro j ⟨hlt, hp⟩
      exact List.find?_eq_none.mp hfind j (List.mem_range.mpr hlt) hp
  | some i =>
      obtain ⟨hp, hmem, hmin⟩ := List.find?_range_eq_some.mp hfind
      refine ⟨⟨List.mem_range.mp hmem, hp⟩, ?_⟩
      rintro j ⟨-, hj⟩
      by_contra hlt
      have hnot := hmin j (Nat.lt_of_not_le hlt)
      rw [hj] at hnot
      cases hnot

theorem last_find_range' (first n : Nat) (p : Nat → Bool) :
    Last (fun i => (first ≤ i ∧ i < first + n) ∧ p i = true)
      ((List.range' first n).reverse.find? p) := by
  induction n with
  | zero => exact fun j hj => absurd hj.1.2 (Nat.not_lt.mpr hj.1.1)
  | succ n ih =>
      rw [List.range'_1_concat, List.reverse_append, List.reverse_singleton,
        List.singleton_append, List.find?_cons]
      cases hn : p (first + n) with
      | true =>
          refine ⟨⟨⟨Nat.le_add_right _ _, Nat.lt_succ_self _⟩, hn⟩, ?_⟩
          exact fun j hj => Nat.le_of_lt_succ hj.1.2
      | false =>
          refine ih.congr fun j => ?_
          constructor
          · exact fun hj => ⟨⟨hj.1.1, Nat.lt_succ_of_lt hj.1.2⟩, hj.2⟩
          · rintro ⟨⟨hle, hlt⟩, hj⟩
            refine ⟨⟨hle, Nat.lt_of_le_of_ne (Nat.le_of_lt_succ hlt) ?_⟩, hj⟩
            rintro rfl
            rw [hn] at hj
            cases hj

theorem last_find (n : Nat) (p : Nat → Bool) :
    Last (fun i => i < n ∧ p i = true) ((List.range n).reverse.find? p) := by
  rw [List.range_eq_range']
  refine (last_find_range' 0 n p).congr fun j => ?_
  rw [Nat.zero_add]
  exact and_congr_left fun _ => and_iff_right (Nat.zero_le j)

end

theorem findM?_ok {ε : Type} {f : α → Except ε Bool} {p : α → Bool} {xs : List α}
    (h : ∀ x ∈ xs, f x = .ok (p x)) : xs.findM? f = .ok (xs.find? p) := by
  induction xs with
  | nil => rfl
  | cons x xs ih =>
      obtain ⟨hx, hxs⟩ := List.forall_mem_cons.mp h
      rw [List.findM?, hx, List.find?_cons]
      cases p x with
      | true => rfl
      | false => exact ih hxs

theorem findM?_error {ε : Type} {f : α → Except ε Bool} {p : α → Bool} {e : ε} {xs : List α}
    (h : ∀ x ∈ xs, f x = if p x then .error e else .ok false) :
    xs.findM? f = if xs.any p then .error e else .ok none := by
  induction xs with
  | nil => rfl
  | cons x xs ih =>
      obtain ⟨hx, hxs⟩ := List.forall_mem_cons.mp h
      rw [List.findM?, hx, List.any_cons]
      cases p x with
      | true => rfl
      | false => exact ih hxs

section

variable {needle hay before after : List α} {i : Nat}

theorem occursAt_iff_prefixOf : OccursAt needle hay i ↔ needle <+: hay.drop i := by
  rw [List.prefix_iff_eq_take]
  exact eq_comm

theorem OccursAt.add_le (h : OccursAt needle hay i) (hne : needle ≠ []) :
    i + needle.length ≤ hay.length := by
  have hpos : 0 < needle.length := List.length_pos_iff.mpr hne
  have hlen := congrArg List.length h
  rw [List.length_take, List.length_drop] at hlen
  omega

theorem occursAt_append_left (h : i + needle.length ≤ before.length) :
    OccursAt needle (before ++ after) i ↔ OccursAt needle before i := by
  rw [OccursAt, OccursAt, List.drop_append_of_le_length (by omega),
    List.take_append_of_le_length (by rw [List.length_drop]; omega)]

theorem occursAt_append_right :
    OccursAt needle (before ++ after) (before.length + i) ↔ OccursAt needle after i := by
  rw [OccursAt, OccursAt, List.drop_length_add_append]

theorem occursAt_take (hne : needle ≠ []) {n : Nat} :
    OccursAt needle (hay.take n) i ↔ i + needle.length ≤ n ∧ OccursAt needle hay i := by
  have happend : i + needle.length ≤ (hay.take n).length →
      (OccursAt needle (hay.take n ++ hay.drop n) i ↔ OccursAt needle (hay.take n) i) :=
    occursAt_append_left
  rw [List.take_append_drop] at happend
  constructor
  · intro h
    have hle := h.add_le hne
    refine ⟨?_, (happend hle).mpr h⟩
    rw [List.length_take] at hle
    omega
  · rintro ⟨hle, h⟩
    have hin := h.add_le hne
    refine (happend ?_).mp h
    rw [List.length_take]
    omega

theorem occursAt_append_across (hi : i ≤ before.length)
    (hend : before.length ≤ i + needle.length) :
    OccursAt needle (before ++ after) i ↔
      before.drop i = needle.take (before.length - i) ∧
        needle.drop (before.length - i) <+: after := by
  have hlen : (before.drop i).length = before.length - i := List.length_drop
  rw [occursAt_iff_prefixOf, List.drop_append_of_le_length hi]
  constructor
  · intro h
    obtain ⟨rest, hrest⟩ := h
    have htake := congrArg (List.take (before.length - i)) hrest
    have hdrop := congrArg (List.drop (before.length - i)) hrest
    rw [List.take_append_of_le_length (by omega), List.take_left' hlen] at htake
    rw [List.drop_append_of_le_length (by omega), List.drop_left' hlen] at hdrop
    exact ⟨htake.symm, rest, hdrop⟩
  · rintro ⟨htake, rest, hdrop⟩
    refine ⟨rest, ?_⟩
    rw [← hdrop, htake, ← List.append_assoc, List.take_append_drop]

/-- The last `m` elements of the needle stand at the head of the right part, and the others at
the end of the left one. -/
theorem occursAt_append_back {m : Nat} (hm : m ≤ needle.length) :
    needle.length ≤ before.length + m ∧
        OccursAt needle (before ++ after) (before.length + m - needle.length) ↔
      after.take m = needle.drop (needle.length - m) ∧
        needle.take (needle.length - m) <:+ before := by
  have htake : (needle.take (needle.length - m)).length = needle.length - m := by
    rw [List.length_take, Nat.min_eq_left (Nat.sub_le _ _)]
  have hdrop : (needle.drop (needle.length - m)).length = m := by
    rw [List.length_drop]
    omega
  have hhead : needle.drop (needle.length - m) <+: after ↔
      after.take m = needle.drop (needle.length - m) := by
    rw [List.prefix_iff_eq_take, hdrop]
    exact eq_comm
  rcases Nat.lt_or_ge (before.length + m) needle.length with hlt | hle
  · refine ⟨fun h => absurd h.1 (Nat.not_le.mpr hlt), fun h => ?_⟩
    have := h.2.length_le
    omega
  · have hsub : before.length - (before.length + m - needle.length) = needle.length - m := by
      omega
    have hstart : before.length + m - needle.length = before.length - (needle.length - m) := by
      omega
    rw [occursAt_append_across (by omega) (by omega), hsub, hhead, List.suffix_iff_eq_drop, htake,
      ← hstart, and_iff_right hle, and_comm, eq_comm (a := before.drop _)]

theorem last_append_of_right {n : Nat} (h : Last (OccursAt needle after) (some n)) :
    Last (OccursAt needle (before ++ after)) (some (before.length + n)) := by
  refine ⟨occursAt_append_right.mpr h.1, ?_⟩
  intro j hj
  rcases Nat.lt_or_ge j before.length with hlt | hle
  · exact Nat.le_trans (Nat.le_of_lt hlt) (Nat.le_add_right _ _)
  · obtain ⟨k, rfl⟩ := Nat.exists_eq_add_of_le hle
    exact Nat.add_le_add_left (h.2 (occursAt_append_right.mp hj)) _

/-- The needle ends after `m` elements of the right part, and begins in the left one. -/
structure Across (needle before after : List α) (m : Nat) : Prop where
  pos : 0 < m
  le : m ≤ after.length
  fits : needle.length ≤ before.length + m
  occurs : OccursAt needle (before ++ after) (before.length + m - needle.length)

section

variable {left dropped : List α} {m : Nat} {o : Option Nat} (hne : needle ≠ [])
  (hdropped : dropped = [] ∨ left.length + 1 = needle.length)
  (hnone : Last (OccursAt needle (left ++ dropped)) none)
include hne hdropped hnone

/-- When the right part has been searched, only the first elements of it still matter. -/
theorem occursAt_cases {j : Nat} (h : OccursAt needle (before ++ (left ++ dropped)) j) :
    OccursAt needle before j ∨
      ∃ m, Across needle before left m ∧ j = before.length + m - needle.length := by
  have hend := h.add_le hne
  rcases Nat.lt_or_ge j before.length with hlt | hle
  · rcases Nat.lt_or_ge before.length (j + needle.length) with hin | hout
    · have hle : j + needle.length ≤ (before ++ left).length := by
        rw [List.length_append] at hend ⊢
        rcases hdropped with rfl | hlen
        · rwa [List.append_nil] at hend
        · omega
      rw [← List.append_assoc, occursAt_append_left hle] at h
      rw [List.length_append] at hle
      have hj : j = before.length + (j + needle.length - before.length) - needle.length := by omega
      refine .inr ⟨j + needle.length - before.length, ⟨?_, ?_, ?_, ?_⟩, hj⟩
      · omega
      · omega
      · omega
      · rwa [← hj]
    · exact .inl ((occursAt_append_left hout).mp h)
  · obtain ⟨k, rfl⟩ := Nat.exists_eq_add_of_le hle
    exact absurd (occursAt_append_right.mp h) (hnone k)

theorem last_append_of_across (h : Last (Across needle before left) (some m)) :
    Last (OccursAt needle (before ++ (left ++ dropped)))
      (some (before.length + m - needle.length)) := by
  have hacross := h.1
  constructor
  · have hle : before.length + m - needle.length + needle.length ≤ (before ++ left).length := by
      have hfits := hacross.fits
      have hm := hacross.le
      rw [List.length_append]
      omega
    show OccursAt needle _ _
    rw [← List.append_assoc, occursAt_append_left hle]
    exact hacross.occurs
  · intro j hj
    rcases occursAt_cases hne hdropped hnone hj with hbefore | ⟨k, hk, rfl⟩
    · have := hbefore.add_le hne
      have := hacross.pos
      omega
    · have hkm : k ≤ m := h.2 hk
      omega

theorem last_append_of_left (h : Last (Across needle before left) none)
    (ho : Last (OccursAt needle before) o) :
    Last (OccursAt needle (before ++ (left ++ dropped))) o := by
  refine ho.congr fun j => ?_
  constructor
  · intro hj
    exact (occursAt_append_left (hj.add_le hne)).mpr hj
  · intro hj
    rcases occursAt_cases hne hdropped hnone hj with hbefore | ⟨k, hk, -⟩
    · exact hbefore
    · exact absurd hk (h k)

end

end

section

variable [BEq α] [LawfulBEq α] {needle hay : List α}

theorem occursAt_iff_beq {i : Nat} :
    OccursAt needle hay i ↔ ((hay.drop i).take needle.length == needle) = true := by
  rw [beq_iff_eq]
  exact Iff.rfl

theorem lt_slices_iff (hne : needle ≠ []) {i : Nat} :
    OccursAt needle hay i ↔ i < hay.length + 1 - needle.length ∧
      ((hay.drop i).take needle.length == needle) = true := by
  rw [← occursAt_iff_beq]
  refine ⟨fun h => ⟨?_, h⟩, And.right⟩
  have := h.add_le hne
  omega

theorem first_position (hne : needle ≠ []) :
    First (OccursAt needle hay) (position needle hay) :=
  (first_find _ _).congr fun _ => (lt_slices_iff hne).symm

theorem last_rposition (hne : needle ≠ []) :
    Last (OccursAt needle hay) (rposition needle hay) :=
  (last_find _ _).congr fun _ => (lt_slices_iff hne).symm

end

section

variable {xs : List α} {size n : Nat}

@[simp] theorem length_slices : (slices size xs).length = xs.length + 1 - size := by
  rw [slices, List.length_map, List.length_range]

theorem take_succ_slices (h : n < (slices size xs).length) :
    (slices size xs).take (n + 1) = (slices size xs).take n ++ [(xs.drop n).take size] := by
  rw [List.take_succ_eq_append_getElem h]
  simp only [slices, List.getElem_map, List.getElem_range]

theorem drop_slices (h : n < (slices size xs).length) :
    (slices size xs).drop n = (xs.drop n).take size :: (slices size xs).drop (n + 1) := by
  rw [List.drop_eq_getElem_cons h]
  simp only [slices, List.getElem_map, List.getElem_range]

theorem take_drop_middle {before middle after : List α} (h : n + size ≤ middle.length) :
    ((before ++ middle ++ after).drop (before.length + n)).take size =
      (middle.drop n).take size := by
  rw [List.append_assoc, List.drop_length_add_append,
    List.drop_append_of_le_length (by omega),
    List.take_append_of_le_length (by rw [List.length_drop]; omega)]

end

end Ruyi.Base
