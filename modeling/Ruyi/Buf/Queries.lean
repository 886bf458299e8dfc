import Ruyi.Buf.Buffers
import Ruyi.Buf.Order
import Ruyi.Buf.Views
import Ruyi.Buf.Windows

namespace Ruyi.Buf

open Base (OccursAt findM?_error slices length_slices)

/-- An end of a double-ended iterator. -/
inductive Side where
  | front
  | back
  deriving DecidableEq

def Side.other : Side → Side
  | front => back
  | back => front

theorem Side.eq_or_other (side side' : Side) : side = side' ∨ side.other = side' := by
  cases side <;> cases side' <;> decide

namespace Windows

def nextAt (w : Windows) : Side → Except Fault (Option Window × Windows)
  | .front => w.next
  | .back => w.nextBack

/-- What the calls return, one after the other. -/
def nextsAt : Windows → List Side → Except Fault (List (Option Window))
  | _, [] => .ok []
  | w, side :: sides => do
      let (window, w) ← w.nextAt side
      let windows ← w.nextsAt sides
      .ok (window :: windows)

end Windows

/-- The calls that only look at a buffer. -/
inductive Query where
  | len
  | isEmpty
  | startsWith (needle : List UInt8)
  | endsWith (needle : List UInt8)
  | findFrom (needle : List UInt8) (pos : Nat)
  | rfindFrom (needle : List UInt8) (rpos : Nat)
  | asBytes
  | bytes (n : Nat)
  | cmp (other : ByteBuf)
  | windows (size : Nat) (sides : List Side)

inductive Answer where
  | number (n : Nat)
  | truth (b : Bool)
  | place (pos : Option Nat)
  | cow (bytes : Cow)
  | items (bytes : List (Option UInt8))
  | order (ord : Ordering)
  | windows (ws : List (Option Window))

/-- No block from the last one on begins with an end of the needle, until there is one that holds
the needle. -/
def MeetsFirst (needle : List UInt8) : List Block → Prop
  | [] => False
  | block :: rest =>
      (∃ i, OccursAt needle block.asBytes i) ∨
        (∀ part, part ≠ [] → part <:+ needle → ¬ part <+: block.asBytes) ∧ MeetsFirst needle rest

namespace Query

def run (build : Build) (buf : ByteBuf) : Query → Except Fault Answer
  | len => .ok (.number buf.len)
  | isEmpty => .ok (.truth buf.isEmpty)
  | startsWith needle => (buf.startsWith needle).map .truth
  | endsWith needle => (buf.endsWith needle).map .truth
  | findFrom needle pos => (buf.findFrom needle pos).map .place
  | rfindFrom needle rpos => (buf.rfindFrom build needle rpos).map .place
  | asBytes => buf.asBytes.map .cow
  | bytes n => .ok (.items (buf.bytes.nexts n))
  | cmp other => .ok (.order (buf.cmp other))
  | windows size sides => ((Buf.windows buf size).nextsAt sides).map .windows

/-- The end of what `rfind_from` looks at is a number of the machine. -/
def InRange (build : Build) : Query → Prop
  | rfindFrom needle rpos => rpos + needle.length < 2 ^ build.bits
  | _ => True

/-- A search from the end is on a buffer with a block that readers have not passed, or else meets
the needle in time, and windows of no bytes are not all taken from one side. -/
def Safe (build : Build) (buf : ByteBuf) : Query → Prop
  | rfindFrom needle _ =>
      needle = [] ∨ buf.idx < buf.blocks.length ∨
        build.overflowChecks = false ∧
          (buf.blocks = [] ∨ MeetsFirst needle buf.blocks.reverse)
  | windows size sides =>
      0 < size ∨ ∀ side, sides.take (buf.len + 1) ≠ List.replicate (buf.len + 1) side
  | _ => True

end Query

theorem Build.exists_sub {build : Build} (h : build.overflowChecks = false) (x y : Nat) :
    ∃ z, build.sub x y = .ok z := by
  rw [Build.sub, h]
  split
  · exact ⟨_, rfl⟩
  · exact ⟨_, rfl⟩

namespace ByteBuf

variable {buf : ByteBuf} {build : Build} {needle bytes : List UInt8} {idx rpos last : Nat}

theorem locateIdx_passed (hpassed : buf.blocks.length ≤ buf.idx) (pos : Nat) :
    buf.locateIdx pos = .error pos := by
  have hcontent : buf.content = [] := by
    rw [content, List.drop_of_length_le hpassed, bytesOf_nil]
  cases hlocate : buf.locateIdx pos with
  | ok p =>
      have hle := (locateIdx_ok hlocate).1
      have hlt := p.idx_lt
      omega
  | error left =>
      have hpos := locateIdx_error_eq hlocate
      rw [hcontent, List.length_nil, Nat.zero_add] at hpos
      rw [hpos]

theorem rsearchAcross_passed (hlt : bytes.length < needle.length) (hidx : idx < buf.idx) :
    buf.rsearchAcross build needle bytes idx =
      if (List.range' 1 bytes.length).reverse.any
          (fun m => bytes.take m == needle.drop (needle.length - m)) then .error .panic
      else .ok none := by
  refine findM?_error fun m hm => ?_
  rw [List.mem_reverse, List.mem_range'_1] at hm
  have hpanic : ∀ left, buf.endsWithInternal left idx = .error .panic :=
    fun _ => if_neg fun h => absurd h.1 (Nat.not_le.mpr hidx)
  rw [rsearchAcross_test build (by omega), hpanic]

theorem any_take_iff :
    (List.range' 1 bytes.length).reverse.any
        (fun m => bytes.take m == needle.drop (needle.length - m)) = true ↔
      ∃ part, part ≠ [] ∧ part <:+ needle ∧ part <+: bytes := by
  rw [List.any_eq_true]
  constructor
  · rintro ⟨m, hm, heq⟩
    rw [List.mem_reverse, List.mem_range'_1] at hm
    rw [beq_iff_eq] at heq
    refine ⟨bytes.take m, ?_, heq ▸ List.drop_suffix _ _, List.take_prefix _ _⟩
    rw [← List.length_pos_iff, List.length_take]
    omega
  · rintro ⟨part, hne, hsuffix, hprefix⟩
    have hpos := List.length_pos_iff.mpr hne
    have hle := hprefix.length_le
    refine ⟨part.length, ?_, ?_⟩
    · rw [List.mem_reverse, List.mem_range'_1]
      omega
    · rw [beq_iff_eq, ← List.prefix_iff_eq_take.mp hprefix]
      exact List.suffix_iff_eq_drop.mp hsuffix

/-- How the loop goes on below the block `idx`. -/
def rfindBelow (buf : ByteBuf) (build : Build) (needle : List UInt8) :
    (idx rpos : Nat) → Except Fault (Option Nat)
  | 0, _ => .error (if build.overflowChecks then .panic else .freed)
  | idx + 1, rpos =>
      match buf.blocks[idx]? with
      | none => .error .freed
      | some block =>
          build.sub rpos block.asBytes.length >>= buf.rfindLoop build needle idx block.asBytes

theorem rfindLoop_turn (build : Build) (hne : needle ≠ []) (hidx : idx < buf.idx)
    (bytes : List UInt8) (rpos : Nat) :
    ((∃ i, OccursAt needle bytes i) ∧
        ∃ n, buf.rfindLoop build needle idx bytes rpos = .ok (some n)) ∨
      ((∀ i, ¬ OccursAt needle bytes i) ∧
        (∃ part, part ≠ [] ∧ part <:+ needle ∧ part <+: bytes) ∧
          buf.rfindLoop build needle idx bytes rpos = .error .panic) ∨
      (∀ i, ¬ OccursAt needle bytes i) ∧
        (∀ part, part ≠ [] → part <:+ needle → ¬ part <+: bytes) ∧
          buf.rfindLoop build needle idx bytes rpos =
            buf.rfindBelow build needle idx rpos := by
  rw [rfindLoop.eq_def]
  dsimp only
  rcases rsearchIn_cases hne rpos bytes with
    ⟨n, hsearch, hlast⟩ | ⟨left, dropped, hsearch, rfl, hleft, hdropped, hnone⟩
  · rw [hsearch]
    exact .inl ⟨⟨n, hlast.1⟩, _, rfl⟩
  · refine .inr ?_
    rw [hsearch]
    dsimp only
    rw [if_neg (Nat.ne_of_lt hidx), rsearchAcross_passed hleft hidx]
    -- what begins the bytes is shorter than the needle, and so are the bytes that are left
    have hpart : (∃ part, part ≠ [] ∧ part <:+ needle ∧ part <+: left) ↔
        ∃ part, part ≠ [] ∧ part <:+ needle ∧ part <+: left ++ dropped := by
      refine exists_congr fun part => and_congr_right fun _ => and_congr_right fun hsuffix => ?_
      refine ⟨fun h => h.trans (List.prefix_append _ _), fun h => ?_⟩
      have hlt : part.length < needle.length := by
        refine Nat.lt_of_le_of_ne hsuffix.length_le fun heq => hnone 0 ?_
        rw [hsuffix.eq_of_length heq, List.prefix_iff_eq_take] at h
        exact h.symm
      rcases hdropped with rfl | hlen
      · rwa [List.append_nil] at h
      · exact (prefix_append_of_length_le (by omega)).mp h
    split
    · rename_i hany
      exact .inl ⟨hnone, hpart.mp (any_take_iff.mp hany), rfl⟩
    · rename_i hany
      refine .inr ⟨hnone, fun part hne hsuffix hprefix => ?_, by cases idx <;> rfl⟩
      exact hany (any_take_iff.mpr (hpart.mpr ⟨part, hne, hsuffix, hprefix⟩))

/-- Without overflow checks the search runs down the blocks, and out of them if nothing stops
it. -/
theorem rfindLoop_passed (hchecks : build.overflowChecks = false) (hne : needle ≠ [])
    (hpassed : buf.blocks.length ≤ buf.idx) (hidx : idx < buf.blocks.length) :
    (∃ r, buf.rfindLoop build needle idx buf.blocks[idx].asBytes rpos = .ok r) ↔
      MeetsFirst needle (buf.blocks.take (idx + 1)).reverse := by
  induction idx generalizing rpos with
  | zero =>
      rw [List.take_succ_eq_append_getElem hidx, List.reverse_concat, List.take_zero,
        List.reverse_nil, MeetsFirst, MeetsFirst, and_false, or_false]
      rcases rfindLoop_turn build hne (Nat.lt_of_lt_of_le hidx hpassed) buf.blocks[0].asBytes rpos
        with ⟨hoccurs, n, hrun⟩ | ⟨hnone, -, hrun⟩ | ⟨hnone, -, hrun⟩
      · exact iff_of_true ⟨_, hrun⟩ hoccurs
      · rw [hrun]
        exact iff_of_false (fun ⟨_, h⟩ => by cases h) (not_exists.mpr hnone)
      · rw [hrun]
        exact iff_of_false (fun ⟨_, h⟩ => by cases h) (not_exists.mpr hnone)
  | succ idx ih =>
      rw [List.take_succ_eq_append_getElem hidx, List.reverse_concat, MeetsFirst]
      rcases rfindLoop_turn build hne (Nat.lt_of_lt_of_le hidx hpassed)
          buf.blocks[idx + 1].asBytes rpos with
        ⟨hoccurs, n, hrun⟩ | ⟨hnone, ⟨part, hpart, hsuffix, hprefix⟩, hrun⟩ | ⟨hnone, hpart, hrun⟩
      · exact iff_of_true ⟨_, hrun⟩ (.inl hoccurs)
      · rw [hrun]
        refine iff_of_false (fun ⟨_, h⟩ => by cases h) ?_
        rintro (⟨i, hi⟩ | ⟨h, -⟩)
        · exact hnone i hi
        · exact h part hpart hsuffix hprefix
      · have hblock : idx < buf.blocks.length := Nat.lt_of_succ_lt hidx
        obtain ⟨z, hsub⟩ := Build.exists_sub hchecks rpos buf.blocks[idx].asBytes.length
        rw [hrun]
        simp only [rfindBelow, List.getElem?_eq_getElem hblock, hsub, bind, Except.bind]
        rw [ih hblock, or_iff_right (not_exists.mpr hnone), and_iff_right hpart]

/-- With overflow checks a block that has bytes stops it, and the first block does. -/
theorem rfindLoop_passed_checked (hchecks : build.overflowChecks = true) (hne : needle ≠ [])
    (hpassed : buf.blocks.length ≤ buf.idx) (hidx : idx < buf.blocks.length) :
    ¬ ∃ r, buf.rfindLoop build needle idx [] 0 = .ok r := by
  have hnone : ∀ i, ¬ OccursAt needle [] i := by
    intro i hi
    have hle := hi.add_le hne
    have hpos := List.length_pos_iff.mpr hne
    rw [List.length_nil] at hle
    omega
  induction idx with
  | zero =>
      rcases rfindLoop_turn build hne (Nat.lt_of_lt_of_le hidx hpassed) [] 0 with
        ⟨⟨i, hi⟩, -⟩ | ⟨-, -, hrun⟩ | ⟨-, -, hrun⟩
      · exact absurd hi (hnone i)
      · rw [hrun]
        exact fun ⟨_, h⟩ => by cases h
      · rw [hrun]
        exact fun ⟨_, h⟩ => by cases h
  | succ idx ih =>
      have hblock : idx < buf.blocks.length := Nat.lt_of_succ_lt hidx
      rcases rfindLoop_turn build hne (Nat.lt_of_lt_of_le hidx hpassed) [] 0 with
        ⟨⟨i, hi⟩, -⟩ | ⟨-, -, hrun⟩ | ⟨-, -, hrun⟩
      · exact absurd hi (hnone i)
      · rw [hrun]
        exact fun ⟨_, h⟩ => by cases h
      · rw [hrun, rfindBelow, List.getElem?_eq_getElem hblock]
        dsimp only
        rcases hbytes : buf.blocks[idx].asBytes with _ | ⟨b, bs⟩
        · exact ih hblock
        · rintro ⟨r, h⟩
          obtain ⟨z, hsub, -⟩ := ok_of_bind_ok h
          rw [Build.sub, if_neg (by rw [List.length_cons]; omega), hchecks] at hsub
          cases hsub

theorem rfindFrom_nil (hne : needle ≠ []) (hadd : build.add rpos needle.length = .ok last)
    (hlast : 0 < last) (hnil : buf.blocks = []) :
    (∃ r, buf.rfindFrom build needle rpos = .ok r) ↔ build.overflowChecks = false := by
  have hpassed : buf.blocks.length ≤ buf.idx := by
    rw [hnil]
    exact Nat.zero_le _
  have hempty : needle.isEmpty = false := List.isEmpty_eq_false_iff.mpr hne
  have hrun : buf.rfindFrom build needle rpos =
      build.sub 0 last >>= buf.rfindLoop build needle buf.idx [] := by
    rw [rfindFrom, hadd]
    simp only [bind, Except.bind, rlocate, locateIdx_passed hpassed, build.sub_ok (Nat.le_refl _),
      Nat.sub_self, hnil, List.getLast?_nil, hempty, Bool.false_eq_true, if_false]
  rw [hrun]
  constructor
  · rintro ⟨r, h⟩
    obtain ⟨z, hsub, -⟩ := ok_of_bind_ok h
    rw [Build.sub, if_neg (by omega)] at hsub
    split at hsub
    · cases hsub
    · rename_i hchecks
      exact Bool.eq_false_iff.mpr hchecks
  · intro hchecks
    obtain ⟨z, hsub⟩ := Build.exists_sub hchecks 0 last
    refine ⟨none, bind_of_ok hsub ?_⟩
    rw [rfindLoop.eq_def]
    dsimp only
    rw [rsearchIn, if_neg (by
      have hpos := List.length_pos_iff.mpr hne
      rw [List.length_nil]
      omega)]
    exact if_pos rfl

theorem rfindFrom_passed (hne : needle ≠ []) (hadd : build.add rpos needle.length = .ok last)
    (hpassed : buf.blocks.length ≤ buf.idx) (hblocks : buf.blocks ≠ []) :
    (∃ r, buf.rfindFrom build needle rpos = .ok r) ↔
      build.overflowChecks = false ∧ MeetsFirst needle buf.blocks.reverse := by
  have hlen := List.length_pos_iff.mpr hblocks
  have hidx : buf.blocks.length - 1 < buf.blocks.length := by omega
  have hget : buf.blocks.getLast? = some buf.blocks[buf.blocks.length - 1] := by
    rw [List.getLast?_eq_getElem?, List.getElem?_eq_getElem hidx]
  have hempty : needle.isEmpty = false := List.isEmpty_eq_false_iff.mpr hne
  have hrun : buf.rfindFrom build needle rpos =
      build.sub 0 buf.blocks[buf.blocks.length - 1].asBytes.length >>=
        buf.rfindLoop build needle (buf.blocks.length - 1)
          buf.blocks[buf.blocks.length - 1].asBytes := by
    rw [rfindFrom, hadd]
    simp only [bind, Except.bind, rlocate, locateIdx_passed hpassed, build.sub_ok (Nat.le_refl _),
      Nat.sub_self, hget, hempty, Bool.false_eq_true, if_false, Block.length_asBytes]
  rw [hrun]
  rcases Bool.eq_false_or_eq_true build.overflowChecks with hchecks | hchecks
  · refine iff_of_false ?_ (fun h => by rw [hchecks] at h; cases h.1)
    rcases hbytes : buf.blocks[buf.blocks.length - 1].asBytes with _ | ⟨b, bs⟩
    · exact rfindLoop_passed_checked hchecks hne hpassed hidx
    · rintro ⟨r, h⟩
      obtain ⟨z, hsub, -⟩ := ok_of_bind_ok h
      rw [Build.sub, if_neg (by rw [List.length_cons]; omega), hchecks] at hsub
      cases hsub
  · obtain ⟨z, hsub⟩ :=
      Build.exists_sub hchecks 0 buf.blocks[buf.blocks.length - 1].asBytes.length
    have hloop := @rfindLoop_passed _ _ _ _ z hchecks hne hpassed hidx
    rw [Nat.sub_add_cancel hlen, List.take_length] at hloop
    rw [hsub, and_iff_right hchecks]
    exact hloop

theorem exists_rlocate (buf : ByteBuf) (build : Build) (rpos : Nat) :
    ∃ r, buf.rlocate build rpos = .ok r := by
  rw [rlocate]
  cases hlocate : buf.locateIdx rpos with
  | ok p => exact ⟨_, rfl⟩
  | error off =>
      have hpos := locateIdx_error_eq hlocate
      dsimp only
      rw [build.sub_ok (by omega)]
      cases hlast : buf.blocks.getLast? with
      | none => exact ⟨_, rfl⟩
      | some block => exact ⟨_, rfl⟩

theorem rfindFrom_ok_iff (hfits : rpos + needle.length < 2 ^ build.bits) :
    (∃ r, buf.rfindFrom build needle rpos = .ok r) ↔
      needle = [] ∨ buf.idx < buf.blocks.length ∨
        build.overflowChecks = false ∧
          (buf.blocks = [] ∨ MeetsFirst needle buf.blocks.reverse) := by
  have hadd := Build.add_ok hfits
  rcases eq_or_ne needle [] with rfl | hne
  · obtain ⟨⟨idx, bytes, last, off⟩, hlocate⟩ := exists_rlocate buf build (rpos + 0)
    exact iff_of_true ⟨some last, bind_of_ok hadd (bind_of_ok hlocate rfl)⟩ (.inl rfl)
  · rw [or_iff_right hne]
    rcases Nat.lt_or_ge buf.idx buf.blocks.length with hidx | hpassed
    · obtain ⟨r, hrun, -⟩ := rfindFrom_of_add hidx hne hadd
      exact iff_of_true ⟨r, hrun⟩ (.inl hidx)
    · rw [or_iff_right (Nat.not_lt.mpr hpassed)]
      rcases eq_or_ne buf.blocks [] with hnil | hblocks
      · have hpos := List.length_pos_iff.mpr hne
        rw [rfindFrom_nil hne hadd (by omega) hnil]
        exact (and_iff_left (.inl hnil)).symm
      · rw [rfindFrom_passed hne hadd hpassed hblocks, or_iff_right hblocks]

theorem exists_findFrom (buf : ByteBuf) (needle : List UInt8) (pos : Nat) :
    ∃ r, buf.findFrom needle pos = .ok r := by
  cases hlocate : buf.locateIdx pos with
  | error left => exact ⟨none, by rw [findFrom, hlocate]⟩
  | ok p =>
      rcases eq_or_ne needle [] with rfl | hne
      · exact ⟨some pos, by rw [findFrom, hlocate]; rfl⟩
      · obtain ⟨r, hrun, -⟩ := findFrom_located hne hlocate
        exact ⟨r, hrun⟩

end ByteBuf

/-- Windows of no bytes were taken on both sides; on a side from which one was taken the offset is
behind a byte. -/
structure Sides (content : List UInt8) (taken : Side → Nat) (w : Windows) : Prop where
  remains : ∃ pre suf, Remains content 0 (taken .front) (taken .back) pre suf w
  off_pos : 0 < taken .front → 0 < w.off
  roff_pos : 0 < taken .back → 0 < w.roff

namespace Sides

variable {content : List UInt8} {taken : Side → Nat} {w : Windows}

theorem init (buf : ByteBuf) : Sides buf.content (fun _ => 0) (windows buf 0) where
  remains := ⟨[], [], .init buf 0⟩
  off_pos := fun h => absurd h (Nat.lt_irrefl 0)
  roff_pos := fun h => absurd h (Nat.lt_irrefl 0)

theorem nextAt (h : Sides content taken w) (side : Side) (hlen : w.len ≠ 0) :
    (taken side.other = 0 ∧ w.len = 1 ∧ w.nextAt side = .error .unreachable) ∨
      (taken side.other = 0 → w.len ≠ 1) ∧ ∃ v u taken', w.nextAt side = .ok (v, u) ∧
        Sides content taken' u ∧ taken' side = taken side + 1 ∧
          taken' side.other = taken side.other ∧ u.len + 1 = w.len := by
  obtain ⟨⟨pre, suf, hremains⟩, hoff, hroff⟩ := h
  have hcount := hremains.len_eq
  have hfront := hremains.front_eq
  have hback := hremains.back_eq
  have hreverse := length_bytesOf_reverse w.blocks
  have hcontent := congrArg List.length hremains.content_eq
  simp only [List.length_append] at hcontent
  rw [length_slices] at hcount
  cases side with
  | front =>
      by_cases hlt : w.off < (bytesOf w.blocks).length
      · obtain ⟨dropped, rest, off, hskip, hblocks, hat, hhead⟩ := skipTo_ok hremains.off_le hlt
        refine .inr ⟨fun (hzero : taken .back = 0) => by omega, _, _,
          fun | .front => taken .front + 1 | .back => taken .back,
          Windows.next_of_skipTo hlen hskip, ⟨⟨_, _, hremains.next_step hlen hblocks hat hhead⟩,
            fun _ => Nat.succ_pos off, hroff⟩, rfl, rfl, ?_⟩
        dsimp only
        omega
      · refine .inl ⟨show taken .back = 0 by omega, by omega, ?_⟩
        rw [Windows.nextAt, Windows.next, if_neg hlen, skipTo_eq hremains.off_le, if_neg hlt]
        rfl
  | back =>
      by_cases hlt : w.roff < (bytesOf w.blocks.reverse).length
      · obtain ⟨dropped, rest, roff, hskip, hblocks, hat, hhead⟩ := skipTo_ok hremains.roff_le hlt
        refine .inr ⟨fun (hzero : taken .front = 0) => by omega, _, _,
          fun | .front => taken .front | .back => taken .back + 1,
          Windows.nextBack_of_skipTo hlen hskip,
          ⟨⟨_, _, hremains.nextBack_step hlen hblocks hat hhead⟩, hoff,
            fun _ => Nat.succ_pos roff⟩, rfl, rfl, ?_⟩
        dsimp only
        omega
      · refine .inl ⟨show taken .front = 0 by omega, by omega, ?_⟩
        rw [Windows.nextAt, Windows.nextBack, if_neg hlen, skipTo_eq hremains.roff_le, if_neg hlt]
        rfl

end Sides

namespace Windows

variable {w u : Windows} {side : Side} {sides : List Side} {v : Option Window}

theorem nextsAt_cons_ok (h : w.nextAt side = .ok (v, u)) :
    (∃ r, w.nextsAt (side :: sides) = .ok r) ↔ ∃ r, u.nextsAt sides = .ok r := by
  rw [nextsAt]
  constructor
  · rintro ⟨r, hr⟩
    obtain ⟨x, hx, hrest⟩ := ok_of_bind_ok hr
    cases h.symm.trans hx
    obtain ⟨ws, hws, -⟩ := ok_of_bind_ok hrest
    exact ⟨ws, hws⟩
  · rintro ⟨ws, hws⟩
    exact ⟨v :: ws, bind_of_ok h (bind_of_ok hws rfl)⟩

theorem take_cons_eq_replicate {other : Side} {k : Nat} :
    (side :: sides).take (k + 1) = List.replicate (k + 1) other ↔
      side = other ∧ sides.take k = List.replicate k other := by
  rw [List.take_succ_cons, List.replicate_succ, List.cons.injEq]

theorem exists_nextsAt {content pre suf : List UInt8} {size front back : Nat} (hsize : 1 ≤ size)
    (h : Remains content size front back pre suf w) : ∃ r, w.nextsAt sides = .ok r := by
  induction sides generalizing front back pre suf w with
  | nil => exact ⟨[], rfl⟩
  | cons side sides ih =>
      by_cases hlen : w.len = 0
      · have hdone : w.nextAt side = .ok (none, w) := by
          cases side <;> exact if_pos hlen
        exact (nextsAt_cons_ok hdone).mpr (ih h)
      · cases side with
        | front =>
            obtain ⟨v, u, pre', hnext, -, hremains⟩ := h.next_ok hsize hlen
            have hat : w.nextAt .front = .ok (some v, u) := hnext
            exact (nextsAt_cons_ok hat).mpr (ih hremains)
        | back =>
            obtain ⟨v, u, suf', hnext, -, hremains⟩ := h.nextBack_ok hsize hlen
            have hat : w.nextAt .back = .ok (some v, u) := hnext
            exact (nextsAt_cons_ok hat).mpr (ih hremains)

theorem nextsAt_zero_ok_iff {content : List UInt8} {taken : Side → Nat}
    (h : Sides content taken w) :
    (∃ r, w.nextsAt sides = .ok r) ↔ (0 < w.len → ∀ side, taken side.other = 0 →
      sides.take w.len ≠ List.replicate w.len side) := by
  induction sides generalizing taken w with
  | nil =>
      refine iff_of_true ⟨[], rfl⟩ fun hpos side _ htake => ?_
      have hlen := congrArg List.length htake
      rw [List.take_nil, List.length_nil, List.length_replicate] at hlen
      omega
  | cons side sides ih =>
      by_cases hlen : w.len = 0
      · have hdone : w.nextAt side = .ok (none, w) := by
          cases side <;> exact if_pos hlen
        rw [nextsAt_cons_ok hdone, ih h]
        exact iff_of_true (fun hpos => absurd hlen (Nat.ne_of_gt hpos))
          (fun hpos => absurd hlen (Nat.ne_of_gt hpos))
      · obtain ⟨k, hk⟩ := Nat.exists_eq_succ_of_ne_zero hlen
        rcases h.nextAt side hlen with
          ⟨hzero, hone, hnext⟩ | ⟨hmore, v, u, taken', hnext, hsides, hside, hother, hcount⟩
        · refine iff_of_false ?_ ?_
          · rintro ⟨r, hr⟩
            obtain ⟨x, hx, -⟩ := ok_of_bind_ok hr
            cases hnext.symm.trans hx
          · intro hall
            exact hall (by omega) side hzero (by rw [hone]; rfl)
        · have hleft : u.len = k := by omega
          rw [nextsAt_cons_ok hnext, ih hsides, hleft, hk]
          constructor
          · intro hall _ side' hzero htake
            obtain ⟨rfl, hrest⟩ := take_cons_eq_replicate.mp htake
            have hpos : 0 < k := by
              have := hmore hzero
              omega
            exact hall hpos side (hother.trans hzero) hrest
          · intro hall _ side' hzero htake
            -- from the other side one has been taken now
            rcases side'.eq_or_other side with rfl | rfl
            · exact hall (Nat.succ_pos k) side' (hother.symm.trans hzero)
                (take_cons_eq_replicate.mpr ⟨rfl, htake⟩)
            · omega

end Windows

namespace Query

theorem exists_map_ok {α : Type} {r : Except Fault α} {f : α → Answer} :
    (∃ a, r.map f = .ok a) ↔ ∃ x, r = .ok x := by
  constructor
  · rintro ⟨a, h⟩
    obtain ⟨x, hx, -⟩ := ok_of_map_ok h
    exact ⟨x, hx⟩
  · rintro ⟨x, rfl⟩
    exact ⟨f x, rfl⟩

/-- A query returns exactly when it is safe on the buffer. -/
theorem run_ok_iff (build : Build) (buf : ByteBuf) {q : Query} (h : q.InRange build) :
    (∃ a, q.run build buf = .ok a) ↔ q.Safe build buf := by
  cases q with
  | len => exact iff_of_true ⟨_, rfl⟩ trivial
  | isEmpty => exact iff_of_true ⟨_, rfl⟩ trivial
  | startsWith needle =>
      obtain ⟨r, hrun, -⟩ := buf.startsWith_ok needle
      exact iff_of_true (exists_map_ok.mpr ⟨r, hrun⟩) trivial
  | endsWith needle =>
      obtain ⟨r, hrun, -⟩ := buf.endsWith_ok needle
      exact iff_of_true (exists_map_ok.mpr ⟨r, hrun⟩) trivial
  | findFrom needle pos =>
      exact iff_of_true (exists_map_ok.mpr (buf.exists_findFrom needle pos)) trivial
  | rfindFrom needle rpos => exact exists_map_ok.trans (ByteBuf.rfindFrom_ok_iff h)
  | asBytes =>
      obtain ⟨cow, hrun, -⟩ := asBytesLoop_none (buf.blocks.drop buf.idx)
      exact iff_of_true (exists_map_ok.mpr ⟨cow, hrun⟩) trivial
  | bytes n => exact iff_of_true ⟨_, rfl⟩ trivial
  | cmp other => exact iff_of_true ⟨_, rfl⟩ trivial
  | windows size sides =>
      refine exists_map_ok.trans ?_
      rcases Nat.eq_zero_or_pos size with rfl | hsize
      · have hlen : (Buf.windows buf 0).len = buf.len + 1 := rfl
        rw [Windows.nextsAt_zero_ok_iff (.init buf), hlen, Safe, or_iff_right (Nat.lt_irrefl 0)]
        exact ⟨fun hall side => hall (Nat.succ_pos _) side rfl, fun hall _ side _ => hall side⟩
      · exact iff_of_true (Windows.exists_nextsAt hsize (.init buf size)) (.inl hsize)

theorem run_ok_iff_of_three :
    ∃ a, (windows 0 [.front, .back, .front]).run ⟨64, true⟩ (.ofVec 0 [1, 2] []) = .ok a :=
  (@run_ok_iff ⟨64, true⟩ (.ofVec 0 [1, 2] []) (windows 0 [.front, .back, .front]) trivial).mpr
    (.inr (by rintro (_ | _) <;> decide))

/-- Once the only byte has been skipped a search from the end runs out of the blocks. -/
theorem not_run_ok_of_passed :
    ¬ ∀ (target : Endian) (log : List BufEvent) (s : Buffers) (buf : ByteBuf) (build : Build)
      (q : Query), (buffersMachine target).Run (fun _ _ => True) .init log s → buf ∈ s.bufs →
        q.InRange build → ∃ a, q.run build buf = .ok a := by
  intro h
  have hend : ((buffersMachine .little).exec (fun _ _ => True)
      [.make (.withCapacity 16), .call 0 (.append (.u8s [1]) 3), .call 0 (.skip 2)] .init).map
        (fun r => r.2.bufs.map fun buf => buf.rfindFrom ⟨64, false⟩ [1] 0) =
      some [.error .freed] := by
    decide +kernel
  obtain ⟨⟨log, s⟩, hexec, hbufs⟩ := Option.map_eq_some_iff.mp hend
  obtain ⟨buf, hbuf, hfault⟩ := List.map_eq_singleton_iff.mp hbufs
  have hmem : buf ∈ s.bufs := hbuf ▸ List.mem_singleton.mpr rfl
  have hfits : (rfindFrom [1] 0).InRange ⟨64, false⟩ := by
    show 0 + 1 < 2 ^ 64
    decide
  obtain ⟨a, ha⟩ := h .little log s buf ⟨64, false⟩ _ (Base.Machine.Run.of_exec _ hexec) hmem hfits
  obtain ⟨r, hr, -⟩ := ok_of_map_ok ha
  cases hfault.symm.trans hr

end Query

end Ruyi.Buf
