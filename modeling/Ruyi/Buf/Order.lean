import Ruyi.Buf.Prepending

namespace Ruyi.Buf

/-- The loop of `cmp`: `blocks` and `others` are what the two iterators have left, `slice` and
`otherSlice` what is left of the blocks they gave last, and the flags say which of them has
ended. -/
def cmpLoop : (blocks others : List Block) → (slice otherSlice : List UInt8) →
    (none1 none2 : Bool) → Ordering
  | blocks, others, slice, otherSlice, none1, none2 =>
      if slice.length < otherSlice.length then
        let ord := compare slice (otherSlice.take slice.length)
        if ord ≠ .eq then ord
        else
          match blocks with
          | [] => .lt
          | block :: blocks =>
              cmpLoop blocks others block.asBytes (otherSlice.drop slice.length) none1 none2
      else if otherSlice.length < slice.length then
        let ord := compare (slice.take otherSlice.length) otherSlice
        if ord ≠ .eq then ord
        else
          match others with
          | [] => .gt
          | block :: others =>
              cmpLoop blocks others (slice.drop otherSlice.length) block.asBytes none1 none2
      else
        let ord := compare slice otherSlice
        if ord ≠ .eq then ord
        else if none1 && none2 then .eq
        else
          match blocks, others with
          | [], [] => cmpLoop [] [] [] [] true true
          | [], other :: others => cmpLoop [] others [] other.asBytes true none2
          | block :: blocks, [] => cmpLoop blocks [] block.asBytes [] none1 true
          | block :: blocks, other :: others =>
              cmpLoop blocks others block.asBytes other.asBytes none1 none2
termination_by blocks others _ _ none1 none2 =>
  blocks.length + others.length + (!none1).toNat + (!none2).toNat
decreasing_by
  all_goals
    cases none1 <;> cases none2 <;> simp_all <;> omega

namespace ByteBuf

def cmp (buf other : ByteBuf) : Ordering :=
  cmpLoop buf.blocks other.blocks [] [] false false

def partialCmp (buf other : ByteBuf) : Option Ordering := some (buf.cmp other)

def eq (buf other : ByteBuf) : Bool := buf.cmp other == .eq

end ByteBuf

section

variable {α : Type} [Ord α] {xs ys xs' ys' : List α}

theorem compare_append (h : xs.length = ys.length) :
    compare (xs ++ xs') (ys ++ ys') = (compare xs ys).then (compare xs' ys') := by
  induction xs generalizing ys with
  | nil =>
      rw [List.eq_nil_of_length_eq_zero h.symm]
      rfl
  | cons x xs ih =>
      cases ys with
      | nil => cases h
      | cons y ys =>
          rw [List.cons_append, List.cons_append, List.compare_cons_cons, List.compare_cons_cons,
            ih (Nat.succ.inj h), Ordering.then_assoc]

theorem compare_append_of_le (h : xs.length ≤ ys.length) :
    compare (xs ++ xs') (ys ++ ys') =
      (compare xs (ys.take xs.length)).then (compare xs' (ys.drop xs.length ++ ys')) := by
  have htake : xs.length = (ys.take xs.length).length := by
    rw [List.length_take, Nat.min_eq_left h]
  rw [← compare_append htake, ← List.append_assoc, List.take_append_drop]

theorem compare_append_of_ge (h : ys.length ≤ xs.length) :
    compare (xs ++ xs') (ys ++ ys') =
      (compare (xs.take ys.length) ys).then (compare (xs.drop ys.length ++ xs') ys') := by
  have htake : (xs.take ys.length).length = ys.length := by
    rw [List.length_take, Nat.min_eq_left h]
  rw [← compare_append htake, ← List.append_assoc, List.take_append_drop]

theorem compare_nil_of_pos (h : 0 < ys.length) : compare [] ys = .lt := by
  obtain ⟨y, ys, rfl⟩ := List.exists_cons_of_length_pos h
  rfl

theorem compare_nil_right_of_pos (h : 0 < xs.length) : compare xs [] = .gt := by
  obtain ⟨x, xs, rfl⟩ := List.exists_cons_of_length_pos h
  rfl

end

theorem then_of_ne {first next : Ordering} (h : first ≠ .eq) : first.then next = first := by
  cases first with
  | eq => exact absurd rfl h
  | _ => rfl

theorem then_of_eq {first next : Ordering} (h : ¬ first ≠ .eq) : first.then next = next := by
  rw [not_not.mp h]
  rfl

/-- The loop compares what is left on the two sides; an iterator that has ended has no block
left. -/
theorem cmpLoop_eq (blocks others : List Block) (slice otherSlice : List UInt8)
    (none1 none2 : Bool) (h1 : none1 = true → blocks = []) (h2 : none2 = true → others = []) :
    cmpLoop blocks others slice otherSlice none1 none2 =
      compare (slice ++ bytesOf blocks) (otherSlice ++ bytesOf others) := by
  fun_induction cmpLoop blocks others slice otherSlice none1 none2 with
  | case1 blocks others slice otherSlice none1 none2 hlt ord hne =>
      rw [compare_append_of_le (Nat.le_of_lt hlt), then_of_ne hne]
  | case2 others slice otherSlice none1 none2 hlt ord heq =>
      have hleft : 0 < (otherSlice.drop slice.length ++ bytesOf others).length := by
        rw [List.length_append, List.length_drop]
        omega
      rw [compare_append_of_le (Nat.le_of_lt hlt), then_of_eq heq, bytesOf_nil,
        compare_nil_of_pos hleft]
  | case3 others slice otherSlice none1 none2 hlt ord heq block blocks ih =>
      have hnone1 : none1 = true → blocks = [] := fun h => absurd (h1 h) (List.cons_ne_nil _ _)
      rw [compare_append_of_le (Nat.le_of_lt hlt), then_of_eq heq, bytesOf_cons, ih hnone1 h2]
  | case4 blocks others slice otherSlice none1 none2 hge hlt ord hne =>
      rw [compare_append_of_ge (Nat.le_of_lt hlt), then_of_ne hne]
  | case5 blocks slice otherSlice none1 none2 hge hlt ord heq =>
      have hleft : 0 < (slice.drop otherSlice.length ++ bytesOf blocks).length := by
        rw [List.length_append, List.length_drop]
        omega
      rw [compare_append_of_ge (Nat.le_of_lt hlt), then_of_eq heq, bytesOf_nil,
        compare_nil_right_of_pos hleft]
  | case6 blocks slice otherSlice none1 none2 hge hlt ord heq block others ih =>
      have hnone2 : none2 = true → others = [] := fun h => absurd (h2 h) (List.cons_ne_nil _ _)
      rw [compare_append_of_ge (Nat.le_of_lt hlt), then_of_eq heq, bytesOf_cons, ih h1 hnone2]
  | case7 blocks others slice otherSlice none1 none2 hge hle ord hne =>
      rw [compare_append (by omega), then_of_ne hne]
  | case8 blocks others slice otherSlice none1 none2 hge hle ord heq hnone =>
      obtain ⟨hnone1, hnone2⟩ := Bool.and_eq_true_iff.mp hnone
      rw [compare_append (by omega), then_of_eq heq, h1 hnone1, h2 hnone2]
      rfl
  | case9 slice otherSlice none1 none2 hge hle ord heq hnone ih =>
      rw [compare_append (by omega), then_of_eq heq, ih (fun _ => rfl) fun _ => rfl]
      rfl
  | case10 slice otherSlice none1 none2 hge hle ord heq hnone other others ih =>
      have hnone2 : none2 = true → others = [] := fun h => absurd (h2 h) (List.cons_ne_nil _ _)
      rw [compare_append (by omega), then_of_eq heq, bytesOf_cons, ih (fun _ => rfl) hnone2]
      rfl
  | case11 slice otherSlice none1 none2 hge hle ord heq hnone block blocks ih =>
      have hnone1 : none1 = true → blocks = [] := fun h => absurd (h1 h) (List.cons_ne_nil _ _)
      rw [compare_append (by omega), then_of_eq heq, bytesOf_cons, ih hnone1 fun _ => rfl]
      rfl
  | case12 slice otherSlice none1 none2 hge hle ord heq hnone block blocks other others ih =>
      have hnone1 : none1 = true → blocks = [] := fun h => absurd (h1 h) (List.cons_ne_nil _ _)
      have hnone2 : none2 = true → others = [] := fun h => absurd (h2 h) (List.cons_ne_nil _ _)
      rw [compare_append (by omega), then_of_eq heq, bytesOf_cons, bytesOf_cons,
        ih hnone1 hnone2]

namespace ByteBuf

variable {buf other third : ByteBuf}

theorem bytesOf_of_clean (h : buf.Clean) : bytesOf buf.blocks = buf.content := by
  rw [bytesOf_blocks, clean_iff.mp h, List.nil_append]

theorem cmp_eq (h : buf.Clean) (h' : other.Clean) :
    buf.cmp other = compare buf.content other.content := by
  rw [cmp, cmpLoop_eq _ _ _ _ _ _ Bool.false_ne_true.elim Bool.false_ne_true.elim,
    bytesOf_of_clean h, bytesOf_of_clean h']
  rfl

/-- Buffers are compared as their contents are, whatever the blocks. -/
theorem cmp_is_lexicographic (h : buf.Clean) (h' : other.Clean) (h'' : third.Clean) :
    buf.cmp other = compare buf.content other.content ∧
      buf.partialCmp other = some (compare buf.content other.content) ∧
      (buf.eq other = true ↔ buf.content = other.content) ∧
      other.cmp buf = (buf.cmp other).swap ∧
      ((buf.cmp other).isLE = true → (other.cmp third).isLE = true →
        (buf.cmp third).isLE = true) := by
  have hcmp := cmp_eq h h'
  refine ⟨hcmp, congrArg some hcmp, ?_, ?_, ?_⟩
  · rw [eq, beq_iff_eq, hcmp]
    exact Std.LawfulEqCmp.compare_eq_iff_eq
  · rw [hcmp, cmp_eq h' h]
    exact Std.OrientedCmp.eq_swap
  · rw [hcmp, cmp_eq h' h'', cmp_eq h h'']
    exact Std.TransCmp.isLE_trans

theorem cmp_is_lexicographic_of_three :
    ((ByteBuf.ofVec 0 [1, 2] []).extend (.ofVec 1 [3] [])).eq
      (((ByteBuf.ofVec 2 [1] []).extend (.ofVec 3 [] [])).extend (.ofVec 4 [2, 3] [])) = true :=
  (@cmp_is_lexicographic ((ByteBuf.ofVec 0 [1, 2] []).extend (.ofVec 1 [3] []))
    (((ByteBuf.ofVec 2 [1] []).extend (.ofVec 3 [] [])).extend (.ofVec 4 [2, 3] [])) .new
    (by decide) (by decide) (by decide)).2.2.1.mpr (by decide)

end ByteBuf

end Ruyi.Buf
