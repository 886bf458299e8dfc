import Ruyi.Buf.Windows

namespace Ruyi.Buf

namespace Windows

/-- `n + 1` calls of `next`, and what the last of them returns. -/
def nexts : Nat → Windows → Except Fault (Option Window × Windows)
  | 0, w => w.next
  | n + 1, w => do
      let r ← w.next
      nexts n r.2

def outcomes : List WindowsCall → Windows → Except Fault (List (Option Window))
  | [], _ => .ok []
  | c :: calls, w => do
      let r ← w.call c
      let others ← outcomes calls r.2
      .ok (r.1 :: others)

/-- No calls can tell the iterators apart. -/
def Alike (w u : Windows) : Prop := w.len = u.len ∧ ∀ calls, w.outcomes calls = u.outcomes calls

/-- `nth` does what the same number of calls of `next` does. -/
def NthIsNexts (w : Windows) (n : Nat) : Prop :=
  ∃ o u v, w.nth n = .ok (o, u) ∧ w.nexts n = .ok (o, v) ∧ u.Alike v

/-- The window `n` bytes into the blocks is taken, and `count` windows are counted for it. -/
def taking (w : Windows) (n count : Nat) : Option Window × Windows :=
  (some (.fromLeft (nthSkip w.blocks n).1 (nthSkip w.blocks n).2 w.size),
    { w with
      blocks := (nthSkip w.blocks n).1
      off := (nthSkip w.blocks n).2 + 1
      len := w.len - count })

end Windows

/-- The length of the first block that is not empty. -/
def firstLen : List Block → Nat
  | [] => 0
  | block :: rest => if block.len = 0 then firstLen rest else block.len

section

variable {blocks rest : List Block} {n m r : Nat}

theorem nthSkip_le (blocks : List Block) (n : Nat) : (nthSkip blocks n).2 ≤ n := by
  induction blocks generalizing n with
  | nil => exact Nat.le_refl n
  | cons block rest ih =>
      rw [nthSkip]
      split
      · exact Nat.le_refl n
      · exact (ih _).trans (Nat.sub_le _ _)

theorem nthSkip_add (blocks : List Block) (n m : Nat) :
    nthSkip (nthSkip blocks n).1 ((nthSkip blocks n).2 + m) = nthSkip blocks (n + m) := by
  induction blocks generalizing n with
  | nil => rfl
  | cons block rest ih =>
      by_cases hlt : n < block.len
      · have hstay : nthSkip (block :: rest) n = (block :: rest, n) := if_pos hlt
        rw [hstay]
      · have hskip : nthSkip (block :: rest) n = nthSkip rest (n - block.len) := if_neg hlt
        have hskip' : nthSkip (block :: rest) (n + m) = nthSkip rest (n + m - block.len) :=
          if_neg (by omega)
        rw [hskip, hskip', ih]
        congr 1
        omega

theorem nthSkip_self (blocks : List Block) (n : Nat) :
    nthSkip (nthSkip blocks n).1 (nthSkip blocks n).2 = nthSkip blocks n := nthSkip_add blocks n 0

theorem nthSkip_of_le (h : (bytesOf blocks).length ≤ n) : (nthSkip blocks n).1 = [] := by
  induction blocks generalizing n with
  | nil => rfl
  | cons block rest ih =>
      rw [bytesOf_cons, List.length_append, Block.length_asBytes] at h
      rw [nthSkip, if_neg (by omega)]
      exact ih (by omega)

theorem length_nthSkip (h : n < (bytesOf blocks).length) :
    (bytesOf (nthSkip blocks n).1).length + n =
      (bytesOf blocks).length + (nthSkip blocks n).2 := by
  obtain ⟨dropped, hblocks, hn, -⟩ := exists_nthSkip h
  have hlen := congrArg List.length (congrArg bytesOf hblocks)
  rw [bytesOf_append, List.length_append] at hlen
  omega

theorem nthSkip_inj (hn : n < (bytesOf blocks).length) (hm : m < (bytesOf blocks).length)
    (h : nthSkip blocks n = nthSkip blocks m) : n = m := by
  have hn := length_nthSkip hn
  have hm := length_nthSkip hm
  rw [h] at hn
  omega

theorem firstLen_le (blocks : List Block) : firstLen blocks ≤ (bytesOf blocks).length := by
  induction blocks with
  | nil => exact Nat.le_refl 0
  | cons block rest ih =>
      rw [firstLen, bytesOf_cons, List.length_append, Block.length_asBytes]
      split <;> omega

theorem nthSkip_eq_iff (h : n < (bytesOf blocks).length) :
    (nthSkip blocks n).2 = n ↔ n < firstLen blocks := by
  induction blocks generalizing n with
  | nil => exact absurd h (Nat.not_lt_zero n)
  | cons block rest ih =>
      rw [bytesOf_cons, List.length_append, Block.length_asBytes] at h
      rw [nthSkip, firstLen]
      by_cases hzero : block.len = 0
      · rw [hzero, if_neg (Nat.not_lt_zero n), if_pos rfl, Nat.sub_zero]
        exact ih (by omega)
      · rw [if_neg hzero]
        split
        · next hlt => exact iff_of_true rfl hlt
        · next hge =>
            have := nthSkip_le rest (n - block.len)
            exact iff_of_false (by omega) hge

theorem skipTo_inv {off : Nat} (h : skipTo blocks off = .ok (rest, r)) :
    r < headLen rest ∧ ∃ dropped, blocks = dropped ++ rest := by
  induction blocks generalizing off with
  | nil => cases h
  | cons block blocks ih =>
      rw [skipTo] at h
      split at h
      · next hlt =>
          cases h
          exact ⟨hlt, [], rfl⟩
      · obtain ⟨hlt, dropped, rfl⟩ := ih h
        exact ⟨hlt, block :: dropped, rfl⟩

end

namespace Windows

variable {w u : Windows} {o : Option Window} {n : Nat}

theorem next_cases (h : w.next = .ok (o, u)) :
    (w.len = 0 ∧ o = none ∧ u = w) ∨
      ∃ rest r, skipTo w.blocks w.off = .ok (rest, r) ∧
        u = { w with blocks := rest, off := r + 1, len := w.len - 1 } := by
  rw [next] at h
  split at h
  · next hlen =>
      cases h
      exact .inl ⟨hlen, rfl, rfl⟩
  · obtain ⟨⟨rest, r⟩, hskip, hret⟩ := ok_of_bind_ok h
    cases hret
    exact .inr ⟨rest, r, hskip, rfl⟩

theorem nextBack_cases (h : w.nextBack = .ok (o, u)) :
    (w.len = 0 ∧ o = none ∧ u = w) ∨
      ∃ rest r, skipTo w.blocks.reverse w.roff = .ok (rest, r) ∧
        u = { w with blocks := rest.reverse, roff := r + 1, len := w.len - 1 } := by
  rw [nextBack] at h
  split at h
  · next hlen =>
      cases h
      exact .inl ⟨hlen, rfl, rfl⟩
  · obtain ⟨⟨rest, r⟩, hskip, hret⟩ := ok_of_bind_ok h
    cases hret
    exact .inr ⟨rest, r, hskip, rfl⟩

/-- The front is in the first block, or at its end. -/
def Aligned (w : Windows) : Prop := w.off ≤ headLen w.blocks

theorem Aligned.next (h : w.Aligned) (hnext : w.next = .ok (o, u)) : u.Aligned := by
  rcases next_cases hnext with ⟨-, -, rfl⟩ | ⟨rest, r, hskip, rfl⟩
  · exact h
  · exact (skipTo_inv hskip).1

theorem Aligned.nextBack (h : w.Aligned) (hnext : w.nextBack = .ok (o, u)) : u.Aligned := by
  rcases nextBack_cases hnext with ⟨-, -, rfl⟩ | ⟨rest, r, hskip, rfl⟩
  · exact h
  · obtain ⟨hlt, dropped, hblocks⟩ := skipTo_inv hskip
    rw [Aligned, ← List.reverse_reverse w.blocks, hblocks, List.reverse_append,
      headLen_append (List.reverse_ne_nil_iff.mpr (ne_nil_of_lt_headLen hlt))] at h
    exact h

theorem Aligned.nth (h : w.Aligned) (hnth : w.nth n = .ok (o, u)) : u.Aligned := by
  rw [Windows.nth] at hnth
  split at hnth
  · cases hnth
    exact h
  · next hlt =>
      have hle := nthSkip_le w.blocks n
      rcases next_cases hnth with ⟨hlen, -, -⟩ | ⟨rest, r, hskip, rfl⟩
      · dsimp only at hlen
        omega
      · exact (skipTo_inv hskip).1

theorem Aligned.call (h : w.Aligned) {c : WindowsCall} (hcall : w.call c = .ok (o, u)) :
    u.Aligned := by
  cases c with
  | next => exact h.next hcall
  | nth n => exact h.nth hcall
  | nextBack => exact h.nextBack hcall

theorem aligned_of_run {buf : ByteBuf} {size : Nat} {ok : Windows → WindowsCall → Prop}
    {log : List (WindowsCall × Option Window)}
    (h : windowsMachine.Run ok (windows buf size) log w) : w.Aligned := by
  refine h.invariant (I := fun _ w => w.Aligned) (Nat.zero_le _) ?_
  intro log w c e u hw _ hstep
  obtain ⟨⟨o, u'⟩, hcall, heq⟩ := ok_of_map_ok (Option.some.inj hstep)
  cases heq
  exact hw.call hcall

theorem Aligned.off_le (h : w.Aligned) : w.off ≤ (bytesOf w.blocks).length :=
  Nat.le_trans h (headLen_le w.blocks)

theorem taking_aligned (count : Nat) (h : n < (bytesOf w.blocks).length) :
    (w.taking n count).2.Aligned := by
  obtain ⟨-, -, -, hhead⟩ := exists_nthSkip h
  exact hhead

theorem next_eq (h : w.Aligned) (hlen : w.len ≠ 0) :
    w.next = if w.off < (bytesOf w.blocks).length then .ok (w.taking w.off 1)
      else .error .unreachable := by
  rw [next, if_neg hlen, skipTo_eq h]
  split <;> rfl

theorem taking_length (count : Nat) (h : n < (bytesOf w.blocks).length) :
    (bytesOf (w.taking n count).2.blocks).length + (n + 1) =
      (bytesOf w.blocks).length + (w.taking n count).2.off := by
  have hlen := length_nthSkip h
  simp only [taking]
  omega

theorem taking_taking {m count count' : Nat} :
    (w.taking n count).2.taking ((w.taking n count).2.off + m) count' =
      w.taking (n + (m + 1)) (count + count') := by
  have hskip := nthSkip_add w.blocks n (m + 1)
  simp only [taking, Nat.sub_sub]
  rw [Nat.add_right_comm, Nat.add_assoc, hskip]

theorem nexts_eq (h : w.Aligned) (hn : n < w.len) :
    w.nexts n = if w.off + n < (bytesOf w.blocks).length then .ok (w.taking (w.off + n) (n + 1))
      else .error .unreachable := by
  induction n generalizing w with
  | zero => exact next_eq h (Nat.ne_of_gt hn)
  | succ n ih =>
      rw [nexts, next_eq h (by omega)]
      split
      · next hlt =>
          have hu : (w.taking w.off 1).2.len = w.len - 1 := rfl
          have hlength := taking_length 1 hlt
          simp only [bind, Except.bind]
          rw [ih (taking_aligned 1 hlt) (by omega), taking_taking, Nat.add_comm 1]
          congr 1
          rw [eq_iff_iff]
          omega
      · rw [if_neg (by omega)]
        rfl

theorem nexts_of_le (h : w.Aligned) (hn : w.len ≤ n) :
    (w.off + w.len ≤ (bytesOf w.blocks).length ∧
        ∃ v, w.nexts n = .ok (none, v) ∧ v.len = 0) ∨
      ((bytesOf w.blocks).length < w.off + w.len ∧ w.nexts n = .error .unreachable) := by
  induction n generalizing w with
  | zero =>
      have hlen : w.len = 0 := Nat.le_zero.mp hn
      rw [hlen]
      exact .inl ⟨h.off_le, w, if_pos hlen, hlen⟩
  | succ n ih =>
      rw [nexts]
      by_cases hlen : w.len = 0
      · have hnext : w.next = .ok (none, w) := if_pos hlen
        rw [hnext]
        exact ih h (by omega)
      · rw [next_eq h hlen]
        by_cases hlt : w.off < (bytesOf w.blocks).length
        · have hu : (w.taking w.off 1).2.len = w.len - 1 := rfl
          have hlength := taking_length 1 hlt
          rw [if_pos hlt]
          rcases ih (taking_aligned 1 hlt) (by omega) with ⟨hle, hv⟩ | ⟨hgt, herror⟩
          · exact .inl ⟨by omega, hv⟩
          · exact .inr ⟨by omega, herror⟩
        · rw [if_neg hlt]
          exact .inr ⟨by omega, rfl⟩

/-- `nth` starts from the first byte of the blocks, and counts only what it skips in the block
it finds. -/
theorem nth_eq (hn : n < w.len) :
    w.nth n = if n < (bytesOf w.blocks).length then
        .ok (w.taking n ((nthSkip w.blocks n).2 + 1))
      else .error .unreachable := by
  have hle := nthSkip_le w.blocks n
  rw [nth, if_neg (Nat.not_le.mpr hn)]
  dsimp only
  split
  · next hlt =>
      obtain ⟨-, -, -, hhead⟩ := exists_nthSkip hlt
      rw [next_eq (Nat.le_of_lt hhead) (by dsimp only; omega),
        if_pos (hhead.trans_le (headLen_le _))]
      simp only [taking, nthSkip_self, Nat.sub_sub]
  · next hge =>
      rw [next, if_neg (by dsimp only; omega), nthSkip_of_le (Nat.not_lt.mp hge)]
      rfl

theorem outcomes_of_empty (h : w.len = 0) (calls : List WindowsCall) :
    w.outcomes calls = .ok (List.replicate calls.length none) := by
  induction calls generalizing w with
  | nil => rfl
  | cons c calls ih =>
      have hcall : ∃ u, w.call c = .ok (none, u) ∧ u.len = 0 := by
        cases c with
        | next => exact ⟨w, if_pos h, h⟩
        | nth n => exact ⟨_, if_pos (h ▸ Nat.zero_le n), rfl⟩
        | nextBack => exact ⟨w, if_pos h, h⟩
      obtain ⟨u, hu, hlen⟩ := hcall
      rw [outcomes, hu, List.length_cons, List.replicate_succ]
      simp only [bind, Except.bind]
      rw [ih hlen]

theorem Alike.refl (w : Windows) : w.Alike w := ⟨rfl, fun _ => rfl⟩

theorem alike_of_empty {v : Windows} (hu : u.len = 0) (hv : v.len = 0) : u.Alike v :=
  ⟨hu.trans hv.symm, fun calls => by rw [outcomes_of_empty hu, outcomes_of_empty hv]⟩

theorem taking_inj {m : Nat} (count count' : Nat) (hn : n < (bytesOf w.blocks).length)
    (hm : m < (bytesOf w.blocks).length)
    (h : (w.taking n count).1 = (w.taking m count').1) : n = m := by
  obtain ⟨hblocks, hoff, -⟩ := Window.mk.inj (Option.some.inj h)
  exact nthSkip_inj hn hm (Prod.ext hblocks (Off.left.inj hoff))

theorem nthIsNexts_of_lt (h : w.Aligned) (hn : n < w.len) :
    w.NthIsNexts n ↔ w.off = 0 ∧ n < firstLen w.blocks := by
  have hskip := nthSkip_le w.blocks n
  rw [NthIsNexts, nth_eq hn, nexts_eq h hn]
  constructor
  · rintro ⟨o, u, v, hu, hv, hlen, -⟩
    split at hu
    · next hnlt =>
        split at hv
        · next hofflt =>
            obtain ⟨ho, hu⟩ := Prod.mk.inj (Except.ok.inj hu)
            obtain ⟨ho', hv⟩ := Prod.mk.inj (Except.ok.inj hv)
            have hoff : n = w.off + n := taking_inj ((nthSkip w.blocks n).2 + 1) (n + 1)
              hnlt hofflt (ho.trans ho'.symm)
            subst hu hv
            dsimp only at hlen
            exact ⟨by omega, (nthSkip_eq_iff hnlt).mp (by omega)⟩
        · cases hv
    · cases hu
  · rintro ⟨hoff, hfirst⟩
    have hnlt : n < (bytesOf w.blocks).length := hfirst.trans_le (firstLen_le _)
    rw [hoff, Nat.zero_add, if_pos hnlt, if_pos hnlt, (nthSkip_eq_iff hnlt).mpr hfirst]
    exact ⟨_, _, _, rfl, rfl, .refl _⟩

theorem nthIsNexts_of_le (h : w.Aligned) (hn : w.len ≤ n) :
    w.NthIsNexts n ↔ w.off + w.len ≤ (bytesOf w.blocks).length := by
  have hnth : w.nth n = .ok (none, { w with len := 0 }) := if_pos hn
  rw [NthIsNexts, hnth]
  rcases nexts_of_le h hn with ⟨hle, v, hv, hlen⟩ | ⟨hgt, herror⟩
  · exact iff_of_true ⟨none, _, v, rfl, hv, alike_of_empty rfl hlen⟩ hle
  · refine iff_of_false ?_ (Nat.not_le.mpr hgt)
    rintro ⟨o, u, v, -, hv, -⟩
    cases herror.symm.trans hv

/-- `nth` is right when nothing of the first block has been taken and it stays in that block, or
when it goes beyond all windows that are left. -/
theorem nth_is_nexts_iff {buf : ByteBuf} {size : Nat} {log : List (WindowsCall × Option Window)}
    (h : windowsMachine.Run (fun _ _ => True) (windows buf size) log w) (n : Nat) :
    w.NthIsNexts n ↔
      (n < w.len ∧ w.off = 0 ∧ n < firstLen w.blocks) ∨
        (w.len ≤ n ∧ w.off + w.len ≤ (bytesOf w.blocks).length) := by
  have haligned := aligned_of_run h
  rcases Nat.lt_or_ge n w.len with hlt | hge
  · rw [nthIsNexts_of_lt haligned hlt, and_iff_right hlt, or_iff_left]
    exact fun hle => Nat.not_le.mpr hlt hle.1
  · rw [nthIsNexts_of_le haligned hge, and_iff_right hge, or_iff_right]
    exact fun hlt => Nat.not_le.mpr hlt.1 hge

theorem nth_is_nexts_iff_of_fresh : (windows threeBytes 1).NthIsNexts 1 :=
  (nth_is_nexts_iff .nil 1).mpr (.inl (by decide))

/-- After one window, `nth 0` finds that window again. -/
theorem nth_again :
    ¬ ∀ (buf : ByteBuf) (size : Nat) (log : List (WindowsCall × Option Window)) (w : Windows)
        (n : Nat), 1 ≤ size →
      windowsMachine.Run (fun _ _ => True) (windows buf size) log w → w.NthIsNexts n := by
  intro h
  have hend : ((windowsMachine.exec (fun _ _ => True) [.next] (windows threeBytes 1)).map
      fun r => decide ((r.2.nth 0).map Prod.fst ≠ (r.2.nexts 0).map Prod.fst)) = some true := by
    decide
  obtain ⟨⟨log, w⟩, hexec, hne⟩ := Option.map_eq_some_iff.mp hend
  obtain ⟨o, u, v, hu, hv, -⟩ := h threeBytes 1 log w 0 (by decide) (.of_exec _ hexec)
  refine of_decide_eq_true hne ?_
  dsimp only
  rw [hu, hv]
  rfl

end Windows

end Ruyi.Buf
