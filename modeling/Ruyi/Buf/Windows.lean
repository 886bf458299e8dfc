import Ruyi.Base.Machine
import Ruyi.Base.Search
import Ruyi.Buf.Window

namespace Ruyi.Buf

open Base (slices length_slices take_succ_slices drop_slices take_drop_middle)

/-- The iterator over all windows of `size` bytes; `len` of them are left. -/
structure Windows where
  blocks : List Block
  off : Nat
  roff : Nat
  len : Nat
  size : Nat
  deriving DecidableEq

def windows (buf : ByteBuf) (size : Nat) : Windows :=
  let blocks := buf.blocks.drop buf.idx
  let len := blocks.foldl (fun n b => n + b.len) 0
  { blocks, off := 0, roff := 0, len := if size ≤ len then len - size + 1 else 0, size }

/-- The loop of `next`, and the one of `next_back` over the blocks from the last one to the first:
blocks that have no byte after `off` are left behind. -/
def skipTo : List Block → (off : Nat) → Except Fault (List Block × Nat)
  | [], _ => .error .unreachable
  | block :: rest, off => if off < block.len then .ok (block :: rest, off) else skipTo rest 0

/-- The loop of `nth`. -/
def nthSkip : List Block → (n : Nat) → List Block × Nat
  | [], n => ([], n)
  | block :: rest, n => if n < block.len then (block :: rest, n) else nthSkip rest (n - block.len)

namespace Windows

def next (w : Windows) : Except Fault (Option Window × Windows) :=
  if w.len = 0 then .ok (none, w)
  else do
    let (blocks, off) ← skipTo w.blocks w.off
    .ok (some (.fromLeft blocks off w.size),
      { w with blocks, off := off + 1, len := w.len - 1 })

def nth (w : Windows) (n : Nat) : Except Fault (Option Window × Windows) :=
  if w.len ≤ n then .ok (none, { w with len := 0 })
  else
    let (blocks, n) := nthSkip w.blocks n
    next { w with blocks, off := n, len := w.len - n }

def nextBack (w : Windows) : Except Fault (Option Window × Windows) :=
  if w.len = 0 then .ok (none, w)
  else do
    let (blocks, roff) ← skipTo w.blocks.reverse w.roff
    .ok (some (.fromRight blocks.reverse roff w.size),
      { w with blocks := blocks.reverse, roff := roff + 1, len := w.len - 1 })

variable {w : Windows} {rest : List Block} {r : Nat}

theorem next_of_skipTo (hlen : w.len ≠ 0) (h : skipTo w.blocks w.off = .ok (rest, r)) :
    w.next = .ok (some (.fromLeft rest r w.size),
      { w with blocks := rest, off := r + 1, len := w.len - 1 }) := by
  rw [next, if_neg hlen, h]
  rfl

theorem nextBack_of_skipTo (hlen : w.len ≠ 0)
    (h : skipTo w.blocks.reverse w.roff = .ok (rest, r)) :
    w.nextBack = .ok (some (.fromRight rest.reverse r w.size),
      { w with blocks := rest.reverse, roff := r + 1, len := w.len - 1 }) := by
  rw [nextBack, if_neg hlen, h]
  rfl

end Windows

inductive WindowsCall where
  | next
  | nth (n : Nat)
  | nextBack
  deriving DecidableEq

def Windows.call (w : Windows) : WindowsCall → Except Fault (Option Window × Windows)
  | .next => w.next
  | .nth n => w.nth n
  | .nextBack => w.nextBack

def windowsMachine : Base.Machine Windows WindowsCall (WindowsCall × Option Window) Fault where
  step w c := some ((w.call c).map fun r => ((c, r.1), r.2))

/-- The windows that came from the front, and those that came from the back. -/
def fronts (log : List (WindowsCall × Option Window)) : List Window :=
  log.filterMap fun e => if e.1 = .nextBack then none else e.2

def backs (log : List (WindowsCall × Option Window)) : List Window :=
  log.filterMap fun e => if e.1 = .nextBack then e.2 else none

/-- Runs without `nth`. -/
def TwoSided (_ : Windows) (c : WindowsCall) : Prop := c = .next ∨ c = .nextBack

instance (w : Windows) (c : WindowsCall) : Decidable (TwoSided w c) :=
  inferInstanceAs (Decidable (_ ∨ _))

section

variable {blocks : List Block} {off n m : Nat}

theorem headLen_append (hne : blocks ≠ []) (others : List Block) :
    headLen (blocks ++ others) = headLen blocks := by
  cases blocks with
  | nil => exact absurd rfl hne
  | cons block rest => rfl

theorem exists_nthSkip (h : n < (bytesOf blocks).length) :
    ∃ dropped, blocks = dropped ++ (nthSkip blocks n).1 ∧
      (bytesOf dropped).length + (nthSkip blocks n).2 = n ∧
      (nthSkip blocks n).2 < headLen (nthSkip blocks n).1 := by
  induction blocks generalizing n with
  | nil => exact absurd h (Nat.not_lt_zero n)
  | cons block rest ih =>
      rw [nthSkip]
      split
      · next hlt => exact ⟨[], rfl, Nat.zero_add n, hlt⟩
      · next hge =>
          rw [bytesOf_cons, List.length_append, Block.length_asBytes] at h
          obtain ⟨dropped, heq, hn, hlt⟩ := ih (n := n - block.len) (by omega)
          refine ⟨block :: dropped, congrArg (block :: ·) heq, ?_, hlt⟩
          rw [bytesOf_cons, List.length_append, Block.length_asBytes]
          omega

theorem skipTo_eq (h : off ≤ headLen blocks) :
    skipTo blocks off =
      if off < (bytesOf blocks).length then .ok (nthSkip blocks off) else .error .unreachable := by
  induction blocks generalizing off with
  | nil => rfl
  | cons block rest ih =>
      rw [headLen] at h
      rw [skipTo, nthSkip, bytesOf_cons, List.length_append, Block.length_asBytes]
      split
      · next hlt => rw [if_pos (by omega)]
      · next hge =>
          have hoff : off = block.len := by omega
          rw [ih (Nat.zero_le _), hoff, Nat.sub_self]
          simp only [Nat.lt_add_right_iff_pos]

theorem skipTo_ok (h : off ≤ headLen blocks) (hlt : off < (bytesOf blocks).length) :
    ∃ dropped rest r, skipTo blocks off = .ok (rest, r) ∧ blocks = dropped ++ rest ∧
      (bytesOf dropped).length + r = off ∧ r < headLen rest := by
  obtain ⟨dropped, hblocks, hoff, hhead⟩ := exists_nthSkip hlt
  exact ⟨dropped, _, _, by rw [skipTo_eq h, if_pos hlt], hblocks, hoff, hhead⟩

theorem ne_nil_of_lt_headLen (h : n < headLen blocks) : blocks ≠ [] := by
  rintro rfl
  exact Nat.not_lt_zero n h

end

/-- Windows were taken on both sides of the content; `pre` and `suf` were in blocks that have been
left behind. -/
structure Remains (content : List UInt8) (size : Nat) (front back : Nat) (pre suf : List UInt8)
    (w : Windows) : Prop where
  content_eq : content = pre ++ bytesOf w.blocks ++ suf
  front_eq : pre.length + w.off = front
  back_eq : suf.length + w.roff = back
  off_le : w.off ≤ headLen w.blocks
  roff_le : w.roff ≤ headLen w.blocks.reverse
  size_eq : w.size = size
  len_eq : w.len + front + back = (slices size content).length

namespace Remains

variable {content pre suf : List UInt8} {size front back : Nat} {w : Windows}

theorem init (buf : ByteBuf) (size : Nat) :
    Remains buf.content size 0 0 [] [] (windows buf size) where
  content_eq := (List.append_nil _).symm
  front_eq := rfl
  back_eq := rfl
  off_le := Nat.zero_le _
  roff_le := Nat.zero_le _
  size_eq := rfl
  len_eq := by
    have hlen : (windows buf size).len =
        if size ≤ buf.len then buf.len - size + 1 else 0 := rfl
    rw [hlen, length_slices, ByteBuf.len_eq]
    split <;> omega

theorem next_step {dropped rest : List Block} {off : Nat}
    (h : Remains content size front back pre suf w) (hlen : w.len ≠ 0)
    (hblocks : w.blocks = dropped ++ rest) (hoff : (bytesOf dropped).length + off = w.off)
    (hhead : off < headLen rest) :
    Remains content size (front + 1) back (pre ++ bytesOf dropped) suf
      { w with blocks := rest, off := off + 1, len := w.len - 1 } where
  content_eq := by rw [h.content_eq, hblocks, bytesOf_append, ← List.append_assoc]
  front_eq := by
    have hfront := h.front_eq
    rw [List.length_append]
    dsimp only
    omega
  back_eq := h.back_eq
  off_le := hhead
  roff_le := by
    have hroff := h.roff_le
    rwa [hblocks, List.reverse_append,
      headLen_append (List.reverse_ne_nil_iff.mpr (ne_nil_of_lt_headLen hhead))] at hroff
  size_eq := h.size_eq
  len_eq := by
    have hcount := h.len_eq
    dsimp only
    omega

theorem nextBack_step {dropped rest : List Block} {roff : Nat}
    (h : Remains content size front back pre suf w) (hlen : w.len ≠ 0)
    (hblocks : w.blocks.reverse = dropped ++ rest)
    (hoff : (bytesOf dropped).length + roff = w.roff) (hhead : roff < headLen rest) :
    Remains content size front (back + 1) pre (bytesOf dropped.reverse ++ suf)
      { w with blocks := rest.reverse, roff := roff + 1, len := w.len - 1 } where
  content_eq := by
    rw [h.content_eq, ← List.reverse_reverse w.blocks, hblocks, List.reverse_append,
      bytesOf_append, List.append_assoc, List.append_assoc, List.append_assoc]
  front_eq := h.front_eq
  back_eq := by
    have hback := h.back_eq
    rw [List.length_append, length_bytesOf_reverse]
    dsimp only
    omega
  off_le := by
    have hleft := h.off_le
    rwa [← List.reverse_reverse w.blocks, hblocks, List.reverse_append,
      headLen_append (List.reverse_ne_nil_iff.mpr (ne_nil_of_lt_headLen hhead))] at hleft
  roff_le := by
    rw [List.reverse_reverse]
    exact hhead
  size_eq := h.size_eq
  len_eq := by
    have hcount := h.len_eq
    dsimp only
    omega

theorem next_ok (h : Remains content size front back pre suf w) (hsize : 1 ≤ size)
    (hlen : w.len ≠ 0) :
    ∃ v u pre', w.next = .ok (some v, u) ∧ v.Shows ((content.drop front).take size) ∧
      Remains content size (front + 1) back pre' suf u := by
  have hcount := h.len_eq
  have hfront := h.front_eq
  have hback := h.back_eq
  have hcontent := congrArg List.length h.content_eq
  simp only [List.length_append] at hcontent
  rw [length_slices] at hcount
  have hlt : w.off < (bytesOf w.blocks).length := by omega
  obtain ⟨dropped, rest, off, hskip, hblocks, hoff, hhead⟩ := skipTo_ok h.off_le hlt
  have hbytes : bytesOf w.blocks = bytesOf dropped ++ bytesOf rest := by
    rw [hblocks, bytesOf_append]
  have hsplit := congrArg List.length hbytes
  rw [List.length_append] at hsplit
  have hmiddle : content = (pre ++ bytesOf dropped) ++ bytesOf rest ++ suf := by
    rw [h.content_eq, hbytes, ← List.append_assoc]
  have hat : (pre ++ bytesOf dropped).length + off = front := by
    rw [List.length_append]
    omega
  have hslice : (content.drop front).take size = ((bytesOf rest).drop off).take size := by
    rw [hmiddle, ← hat]
    exact take_drop_middle (by omega)
  refine ⟨_, _, pre ++ bytesOf dropped, Windows.next_of_skipTo hlen hskip, ?_, ?_⟩
  · rw [hslice, h.size_eq]
    exact Window.fromLeft_shows hsize (Nat.le_of_lt hhead) (by omega)
  · exact h.next_step hlen hblocks hoff hhead

theorem nextBack_ok (h : Remains content size front back pre suf w) (hsize : 1 ≤ size)
    (hlen : w.len ≠ 0) :
    ∃ v u suf', w.nextBack = .ok (some v, u) ∧
      v.Shows ((content.drop ((slices size content).length - (back + 1))).take size) ∧
      Remains content size front (back + 1) pre suf' u := by
  have hcount := h.len_eq
  have hfront := h.front_eq
  have hback := h.back_eq
  have hcontent := congrArg List.length h.content_eq
  simp only [List.length_append] at hcontent
  rw [length_slices] at hcount
  have hreverse := length_bytesOf_reverse w.blocks
  have hlt : w.roff < (bytesOf w.blocks.reverse).length := by omega
  obtain ⟨dropped, rest, roff, hskip, hblocks, hoff, hhead⟩ := skipTo_ok h.roff_le hlt
  have hbytes : bytesOf w.blocks = bytesOf rest.reverse ++ bytesOf dropped.reverse := by
    rw [← List.reverse_reverse w.blocks, hblocks, List.reverse_append, bytesOf_append]
  have hsplit := congrArg List.length hbytes
  have hrest := length_bytesOf_reverse rest
  have hdropped := length_bytesOf_reverse dropped
  rw [List.length_append] at hsplit
  have hmiddle : content = pre ++ bytesOf rest.reverse ++ (bytesOf dropped.reverse ++ suf) := by
    rw [h.content_eq, hbytes, List.append_assoc, List.append_assoc, List.append_assoc]
  have hat : pre.length + ((bytesOf rest.reverse).length - roff - size) =
      (slices size content).length - (back + 1) := by
    rw [length_slices]
    omega
  have hslice : (content.drop ((slices size content).length - (back + 1))).take size =
      ((bytesOf rest.reverse).drop ((bytesOf rest.reverse).length - roff - size)).take size := by
    rw [← hat, hmiddle]
    exact take_drop_middle (by omega)
  refine ⟨_, _, bytesOf dropped.reverse ++ suf, Windows.nextBack_of_skipTo hlen hskip, ?_, ?_⟩
  · rw [hslice, h.size_eq]
    exact Window.fromRight_shows hsize (by rw [List.reverse_reverse]; exact Nat.le_of_lt hhead)
      (by omega)
  · exact h.nextBack_step hlen hblocks hoff hhead

end Remains

section

variable {log : List (WindowsCall × Option Window)} {v : Window}

theorem fronts_next : fronts (log ++ [(.next, some v)]) = fronts log ++ [v] := by
  rw [fronts, List.filterMap_append]
  rfl

theorem backs_next {o : Option Window} : backs (log ++ [(.next, o)]) = backs log := by
  rw [backs, List.filterMap_append]
  exact List.append_nil _

theorem fronts_nextBack {o : Option Window} : fronts (log ++ [(.nextBack, o)]) = fronts log := by
  rw [fronts, List.filterMap_append]
  exact List.append_nil _

theorem backs_nextBack : backs (log ++ [(.nextBack, some v)]) = backs log ++ [v] := by
  rw [backs, List.filterMap_append]
  rfl

theorem fronts_none {c : WindowsCall} : fronts (log ++ [(c, none)]) = fronts log := by
  rw [fronts, List.filterMap_append]
  cases c <;> exact List.append_nil _

theorem backs_none {c : WindowsCall} : backs (log ++ [(c, none)]) = backs log := by
  rw [backs, List.filterMap_append]
  cases c <;> exact List.append_nil _

end

/-- The windows taken so far show the slices of the content on their side. -/
def Taken (content : List UInt8) (size : Nat) (log : List (WindowsCall × Option Window))
    (w : Windows) : Prop :=
  (∃ pre suf, Remains content size (fronts log).length (backs log).length pre suf w) ∧
    List.Forall₂ Window.Shows (fronts log) ((slices size content).take (fronts log).length) ∧
    List.Forall₂ Window.Shows (backs log).reverse
      ((slices size content).drop ((slices size content).length - (backs log).length))

section

variable {content : List UInt8} {size : Nat} {log : List (WindowsCall × Option Window)}
  {w u : Windows} {o : Option Window}

theorem Taken.next (hsize : 1 ≤ size) (h : Taken content size log w) (hnext : w.next = .ok (o, u)) :
    Taken content size (log ++ [(.next, o)]) u := by
  obtain ⟨⟨pre, suf, hremains⟩, hfronts, hbacks⟩ := h
  by_cases hlen : w.len = 0
  · rw [Windows.next, if_pos hlen] at hnext
    cases hnext
    rw [Taken, fronts_none, backs_none]
    exact ⟨⟨pre, suf, hremains⟩, hfronts, hbacks⟩
  · obtain ⟨v, u', pre', hv, hshows, hremains'⟩ := hremains.next_ok hsize hlen
    cases hv.symm.trans hnext
    have hlt : (fronts log).length < (slices size content).length := by
      have := hremains.len_eq
      omega
    rw [Taken, fronts_next, backs_next, List.length_append, List.length_singleton,
      take_succ_slices hlt]
    exact ⟨⟨pre', suf, hremains'⟩, List.rel_append hfronts (.cons hshows .nil), hbacks⟩

theorem Taken.nextBack (hsize : 1 ≤ size) (h : Taken content size log w)
    (hnext : w.nextBack = .ok (o, u)) : Taken content size (log ++ [(.nextBack, o)]) u := by
  obtain ⟨⟨pre, suf, hremains⟩, hfronts, hbacks⟩ := h
  by_cases hlen : w.len = 0
  · rw [Windows.nextBack, if_pos hlen] at hnext
    cases hnext
    rw [Taken, fronts_none, backs_none]
    exact ⟨⟨pre, suf, hremains⟩, hfronts, hbacks⟩
  · obtain ⟨v, u', suf', hv, hshows, hremains'⟩ := hremains.nextBack_ok hsize hlen
    cases hv.symm.trans hnext
    have hcount := hremains.len_eq
    have hmove : (slices size content).length - ((backs log).length + 1) + 1 =
        (slices size content).length - (backs log).length := by
      omega
    rw [Taken, fronts_nextBack, backs_nextBack, List.length_append, List.length_singleton,
      List.reverse_append, drop_slices (by omega), hmove]
    exact ⟨⟨pre, suf', hremains'⟩, hfronts, .cons hshows hbacks⟩

theorem Taken.init (buf : ByteBuf) (size : Nat) :
    Taken buf.content size [] (windows buf size) := by
  refine ⟨⟨[], [], .init buf size⟩, .nil, ?_⟩
  rw [show (backs []).length = 0 from rfl, Nat.sub_zero, List.drop_length]
  exact .nil

end

theorem taken_of_run {buf : ByteBuf} {size : Nat} (hsize : 1 ≤ size)
    {log : List (WindowsCall × Option Window)} {w : Windows}
    (h : windowsMachine.Run TwoSided (windows buf size) log w) :
    Taken buf.content size log w := by
  refine h.invariant (.init buf size) ?_
  intro log w c e u htaken hsided hstep
  obtain ⟨⟨o, u'⟩, hcall, heq⟩ := ok_of_map_ok (Option.some.inj hstep)
  cases heq
  rcases hsided with rfl | rfl
  · exact htaken.next hsize hcall
  · exact htaken.nextBack hsize hcall

/-- The two sides meet, and every window has been taken once when they do. -/
theorem windows_all (buf : ByteBuf) {size : Nat} (hsize : 1 ≤ size)
    {log : List (WindowsCall × Option Window)} {w : Windows}
    (h : windowsMachine.Run TwoSided (windows buf size) log w) :
    w.len + (fronts log).length + (backs log).length = (slices size buf.content).length ∧
      List.Forall₂ Window.Shows (fronts log)
        ((slices size buf.content).take (fronts log).length) ∧
      List.Forall₂ Window.Shows (backs log).reverse
        ((slices size buf.content).drop ((slices size buf.content).length - (backs log).length)) ∧
      (w.len = 0 →
        List.Forall₂ Window.Shows (fronts log ++ (backs log).reverse)
          (slices size buf.content)) ∧
      ∀ c, TwoSided w c → ∃ o u, w.call c = .ok (o, u) ∧ (o = none ↔ w.len = 0) := by
  obtain ⟨⟨pre, suf, hremains⟩, hfronts, hbacks⟩ := taken_of_run hsize h
  refine ⟨hremains.len_eq, hfronts, hbacks, ?_, ?_⟩
  · intro hlen
    have hmeet : (slices size buf.content).length - (backs log).length = (fronts log).length := by
      have := hremains.len_eq
      omega
    rw [hmeet] at hbacks
    rw [← List.take_append_drop (fronts log).length (slices size buf.content)]
    exact List.rel_append hfronts hbacks
  · rintro c (rfl | rfl)
    · by_cases hlen : w.len = 0
      · exact ⟨none, w, if_pos hlen, iff_of_true rfl hlen⟩
      · obtain ⟨v, u, -, hv, -, -⟩ := hremains.next_ok hsize hlen
        exact ⟨some v, u, hv, iff_of_false (Option.some_ne_none v) hlen⟩
    · by_cases hlen : w.len = 0
      · exact ⟨none, w, if_pos hlen, iff_of_true rfl hlen⟩
      · obtain ⟨v, u, -, hv, -, -⟩ := hremains.nextBack_ok hsize hlen
        exact ⟨some v, u, hv, iff_of_false (Option.some_ne_none v) hlen⟩

/-- Three bytes in two blocks. -/
def threeBytes : ByteBuf := (ByteBuf.ofVec 0 [1, 2] []).extend (.ofVec 1 [3] [])

theorem windows_all_of_three :
    ∃ log w, windowsMachine.Run TwoSided (windows threeBytes 2) log w ∧
      List.Forall₂ Window.Shows (fronts log ++ (backs log).reverse)
        (slices 2 threeBytes.content) := by
  have hend : ((windowsMachine.exec TwoSided [.next, .nextBack] (windows threeBytes 2)).map
      fun r => r.2.len) = some 0 := by
    decide
  obtain ⟨⟨log, w⟩, hexec, hlen⟩ := Option.map_eq_some_iff.mp hend
  have hrun := Base.Machine.Run.of_exec _ hexec
  exact ⟨log, w, hrun, (windows_all threeBytes (by decide) hrun).2.2.2.1 hlen⟩

end Ruyi.Buf
