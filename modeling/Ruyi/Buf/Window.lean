import Ruyi.Buf.ByteBuf
import Ruyi.Outcome

namespace Ruyi.Buf

/-- A difference of two positions that the code takes to be in order. -/
def minus (x y : Nat) : Except Fault Nat := if y ≤ x then .ok (x - y) else .error .panic

theorem minus_ok {x y : Nat} (h : y ≤ x) : minus x y = .ok (x - y) := if_pos h

/-- `as_bytes_range`, which reads memory of the block whatever its positions are. -/
def Block.asBytesRange (b : Block) (first len : Nat) : Except Fault (List UInt8) :=
  if first + len ≤ b.cap then .ok ((b.mem.drop first).take len) else .error .uninit

/-- Where a window is anchored: at the left end of its blocks, or at the right one. -/
inductive Off where
  | left (off : Nat)
  | right (off : Nat)
  deriving DecidableEq

structure Window where
  blocks : List Block
  off : Off
  size : Nat
  deriving DecidableEq

namespace Window

def fromLeft (blocks : List Block) (off size : Nat) : Window := ⟨blocks, .left off, size⟩

def fromRight (blocks : List Block) (off size : Nat) : Window := ⟨blocks, .right off, size⟩

/-- The loop of `to_bytes_left`; what it does not copy is not initialized. -/
def toBytesLeft : List Block → (off size : Nat) → Except Fault (List UInt8)
  | [], _, size => if size = 0 then .ok [] else .error .uninit
  | block :: rest, off, size => do
      let off := block.readPos + off
      let len ← minus block.writePos off
      if size ≤ len then block.asBytesRange off size
      else
        let bytes ← block.asBytesRange off len
        let others ← toBytesLeft rest 0 (size - len)
        .ok (bytes ++ others)

/-- The loop of `to_bytes_right`, over the blocks from the last one to the first. -/
def toBytesRight : List Block → (off size : Nat) → Except Fault (List UInt8)
  | [], _, size => if size = 0 then .ok [] else .error .uninit
  | block :: rest, off, size => do
      let off ← minus block.writePos off
      let len ← minus off block.readPos
      if size ≤ len then block.asBytesRange (off - size) size
      else
        let bytes ← block.asBytesRange block.readPos len
        let others ← toBytesRight rest 0 (size - len)
        .ok (others ++ bytes)

def toBytes (w : Window) : Except Fault (List UInt8) :=
  match w.off with
  | .left off => toBytesLeft w.blocks off w.size
  | .right off => toBytesRight w.blocks.reverse off w.size

/-- The bytes of a window in one block. -/
def inBlock (b : Block) (off : Off) (size : Nat) : Except Fault (List UInt8) :=
  match off with
  | .left off => b.asBytesRange (b.readPos + off) size
  | .right off => do
      let last ← minus b.writePos off
      let first ← minus last size
      b.asBytesRange first size

def asBytes (w : Window) : Except Fault (List UInt8) :=
  if w.size = 0 then .ok []
  else
    match w.blocks with
    | [b] => inBlock b w.off w.size
    | _ => w.toBytes

def tryAsBytes (w : Window) : Except Fault (Option (List UInt8)) :=
  if w.size = 0 then .ok (some [])
  else
    match w.blocks with
    | [b] => (inBlock b w.off w.size).map some
    | _ => .ok none

/-- The loop of `eq_left`. -/
def eqLeftLoop : List Block → (off : Nat) → (other : List UInt8) → Except Fault Bool
  | [], _, _ => .ok false
  | block :: rest, off, other => do
      let off := off + block.readPos
      let len ← minus block.writePos off
      if other.length ≤ len then
        let bytes ← block.asBytesRange off other.length
        .ok (bytes == other)
      else
        let bytes ← block.asBytesRange off len
        if bytes != other.take len then .ok false
        else eqLeftLoop rest 0 (other.drop len)

/-- The loop of `eq_right`, over the blocks from the last one to the first. -/
def eqRightLoop : List Block → (off : Nat) → (other : List UInt8) → Except Fault Bool
  | [], _, _ => .ok false
  | block :: rest, off, other => do
      let off ← minus block.writePos off
      let len ← minus off block.readPos
      if other.length ≤ len then
        let bytes ← block.asBytesRange (off - other.length) other.length
        .ok (bytes == other)
      else
        let bytes ← block.asBytesRange block.readPos len
        if bytes != other.drop (other.length - len) then .ok false
        else eqRightLoop rest 0 (other.take (other.length - len))

/-- `PartialEq` of a window and a slice, either way round. -/
def eqBytes (w : Window) (other : List UInt8) : Except Fault Bool :=
  if w.size = other.length then
    match w.off with
    | .left off => eqLeftLoop w.blocks off other
    | .right off => eqRightLoop w.blocks.reverse off other
  else .ok false

/-- The window shows these bytes, by whichever method it is looked at. -/
structure Shows (w : Window) (bytes : List UInt8) : Prop where
  toBytes : w.toBytes = .ok bytes
  asBytes : w.asBytes = .ok bytes
  tryAsBytes : w.tryAsBytes = .ok none ∨ w.tryAsBytes = .ok (some bytes)
  eqBytes : ∀ other, w.eqBytes other = .ok (bytes == other)

end Window

theorem Block.asBytesRange_ok {b : Block} {off len : Nat} (h : off + len ≤ b.len) :
    b.asBytesRange (b.readPos + off) len = .ok ((b.asBytes.drop off).take len) := by
  have hread := b.read_le
  have hwrite := b.write_le
  simp only [Block.len] at h
  rw [asBytesRange, if_pos (by omega), asBytes, List.drop_take, List.take_take, List.drop_drop,
    Nat.min_eq_left (by simp only [Block.len]; omega)]

/-- The length of the first block. -/
def headLen : List Block → Nat
  | [] => 0
  | block :: _ => block.len

theorem headLen_le (blocks : List Block) : headLen blocks ≤ (bytesOf blocks).length := by
  cases blocks with
  | nil => exact Nat.le_refl 0
  | cons block rest =>
      rw [bytesOf_cons, List.length_append, Block.length_asBytes]
      exact Nat.le_add_right _ _

theorem length_bytesOf_reverse (blocks : List Block) :
    (bytesOf blocks.reverse).length = (bytesOf blocks).length := by
  induction blocks with
  | nil => rfl
  | cons block rest ih =>
      rw [bytesOf_reverse_cons, bytesOf_cons, List.length_append, List.length_append, ih,
        Nat.add_comm]

theorem take_drop_append {left right : List UInt8} {first size : Nat}
    (hfirst : first ≤ left.length) (hsize : left.length - first ≤ size) :
    ((left ++ right).drop first).take size =
      left.drop first ++ right.take (size - (left.length - first)) := by
  have hlen : (left.drop first).length = left.length - first := List.length_drop
  rw [List.drop_append_of_le_length hfirst, List.take_append, hlen,
    List.take_of_length_le (Nat.le_trans (Nat.le_of_eq hlen) hsize)]

theorem Block.asBytesRange_readPos {b : Block} {len : Nat} (h : len ≤ b.len) :
    b.asBytesRange b.readPos len = .ok (b.asBytes.take len) := by
  have hrange : b.asBytesRange (b.readPos + 0) len = .ok ((b.asBytes.drop 0).take len) :=
    b.asBytesRange_ok (by omega)
  rwa [Nat.add_zero, List.drop_zero] at hrange

namespace Window

variable {blocks : List Block} {off size : Nat}

theorem toBytesLeft_ok (hoff : off ≤ headLen blocks)
    (hsize : off + size ≤ (bytesOf blocks).length) :
    toBytesLeft blocks off size = .ok (((bytesOf blocks).drop off).take size) := by
  induction blocks generalizing off size with
  | nil =>
      have hzero : size = 0 := by
        simp only [bytesOf_nil, List.length_nil] at hsize
        omega
      rw [toBytesLeft, if_pos hzero, hzero, List.take_zero]
  | cons block rest ih =>
      have hread := block.read_le
      have hlen : block.len = block.writePos - block.readPos := rfl
      have hbytes := block.length_asBytes
      rw [headLen] at hoff
      rw [bytesOf_cons, List.length_append, Block.length_asBytes] at hsize
      rw [toBytesLeft, bytesOf_cons]
      simp only [bind, Except.bind]
      rw [minus_ok (by omega)]
      have hcount : block.writePos - (block.readPos + off) = block.len - off := by omega
      dsimp only
      rw [hcount]
      split
      · rw [Block.asBytesRange_ok (by omega), List.drop_append_of_le_length (by omega),
          List.take_append_of_le_length (by rw [List.length_drop]; omega)]
      · have hwhole : (block.asBytes.drop off).take (block.len - off) = block.asBytes.drop off :=
          List.take_of_length_le (by rw [List.length_drop]; omega)
        rw [Block.asBytesRange_ok (by omega), ih (Nat.zero_le _) (by omega), List.drop_zero,
          take_drop_append (by omega) (by omega), hbytes, hwhole]

theorem toBytesRight_ok (hoff : off ≤ headLen blocks)
    (hsize : off + size ≤ (bytesOf blocks).length) :
    toBytesRight blocks off size =
      .ok (((bytesOf blocks.reverse).drop ((bytesOf blocks).length - off - size)).take size) := by
  induction blocks generalizing off size with
  | nil =>
      have hzero : size = 0 := by
        simp only [bytesOf_nil, List.length_nil] at hsize
        omega
      rw [toBytesRight, if_pos hzero, hzero, List.take_zero]
  | cons block rest ih =>
      have hread := block.read_le
      have hlen : block.len = block.writePos - block.readPos := rfl
      have hreverse := length_bytesOf_reverse rest
      rw [headLen] at hoff
      rw [bytesOf_cons, List.length_append, Block.length_asBytes] at hsize ⊢
      rw [toBytesRight, bytesOf_reverse_cons]
      simp only [bind, Except.bind]
      rw [minus_ok (by omega)]
      dsimp only
      rw [minus_ok (by omega)]
      dsimp only
      split
      · have hfirst : block.writePos - off - size = block.readPos + (block.len - off - size) := by
          omega
        have hdrop : block.len + (bytesOf rest).length - off - size =
            (bytesOf rest.reverse).length + (block.len - off - size) := by
          omega
        rw [hfirst, Block.asBytesRange_ok (by omega), hdrop, List.drop_length_add_append]
      · have hcount : block.writePos - off - block.readPos = block.len - off := by omega
        have hothers : toBytesRight rest 0 (size - (block.len - off)) = _ :=
          ih (Nat.zero_le _) (by omega)
        have hcut : (bytesOf rest).length - 0 - (size - (block.len - off)) =
            block.len + (bytesOf rest).length - off - size := by
          omega
        rw [hcut] at hothers
        rw [hcount, Block.asBytesRange_readPos (Nat.sub_le _ _)]
        dsimp only
        rw [hothers]
        have hwhole : size - ((bytesOf rest.reverse).length -
            (block.len + (bytesOf rest).length - off - size)) = block.len - off := by
          omega
        dsimp only
        rw [take_drop_append (by omega) (by omega), hwhole,
          List.take_of_length_le (by rw [List.length_drop]; omega)]

theorem append_beq_left (left right other : List UInt8) :
    (left ++ right == other) =
      (left == other.take left.length && right == other.drop left.length) := by
  rw [Bool.eq_iff_iff, Bool.and_eq_true, beq_iff_eq, beq_iff_eq, beq_iff_eq]
  constructor
  · rintro rfl
    exact ⟨List.take_left.symm, List.drop_left.symm⟩
  · rintro ⟨hleft, hright⟩
    calc
      left ++ right = other.take left.length ++ other.drop left.length := by
        rw [← hleft, ← hright]
      _ = other := List.take_append_drop _ _

theorem append_beq_right (left right other : List UInt8) :
    (left ++ right == other) =
      (right == other.drop (other.length - right.length) &&
        left == other.take (other.length - right.length)) := by
  rw [Bool.eq_iff_iff, Bool.and_eq_true, beq_iff_eq, beq_iff_eq, beq_iff_eq]
  constructor
  · rintro rfl
    rw [List.length_append, Nat.add_sub_cancel]
    exact ⟨List.drop_left.symm, List.take_left.symm⟩
  · rintro ⟨hright, hleft⟩
    calc
      left ++ right = other.take (other.length - right.length) ++
          other.drop (other.length - right.length) := by
        rw [← hleft, ← hright]
      _ = other := List.take_append_drop _ _

theorem eqLeftLoop_ok {other : List UInt8} (hne : other ≠ []) (hoff : off ≤ headLen blocks)
    (hsize : off + other.length ≤ (bytesOf blocks).length) :
    eqLeftLoop blocks off other =
      .ok (((bytesOf blocks).drop off).take other.length == other) := by
  have hpos : 0 < other.length := List.length_pos_iff.mpr hne
  induction blocks generalizing off other with
  | nil =>
      simp only [bytesOf_nil, List.length_nil] at hsize
      omega
  | cons block rest ih =>
      have hread := block.read_le
      have hlen : block.len = block.writePos - block.readPos := rfl
      have hbytes := block.length_asBytes
      rw [headLen] at hoff
      rw [bytesOf_cons, List.length_append, Block.length_asBytes] at hsize
      rw [eqLeftLoop, bytesOf_cons, Nat.add_comm off]
      simp only [bind, Except.bind]
      rw [minus_ok (by omega)]
      have hcount : block.writePos - (block.readPos + off) = block.len - off := by omega
      dsimp only
      rw [hcount]
      split
      · rw [Block.asBytesRange_ok (by omega), List.drop_append_of_le_length (by omega),
          List.take_append_of_le_length (by rw [List.length_drop]; omega)]
      · have hfirst : (block.asBytes.drop off).length = block.len - off := by
          rw [List.length_drop, hbytes]
        have hwhole : (block.asBytes.drop off).take (block.len - off) = block.asBytes.drop off :=
          List.take_of_length_le (Nat.le_of_eq hfirst)
        have hdrop : (other.drop (block.len - off)).length = other.length - (block.len - off) :=
          List.length_drop
        have hothers : eqLeftLoop rest 0 (other.drop (block.len - off)) = _ := ih
          (by rw [← List.length_pos_iff]; omega) (Nat.zero_le _) (by omega) (by omega)
        rw [hdrop, List.drop_zero] at hothers
        rw [Block.asBytesRange_ok (by omega), hwhole, take_drop_append (by omega) (by omega),
          hbytes, append_beq_left, hfirst]
        dsimp only
        rw [hothers]
        cases hhead : block.asBytes.drop off == other.take (block.len - off) <;>
          simp [bne, hhead]

theorem eqRightLoop_ok {other : List UInt8} (hne : other ≠ []) (hoff : off ≤ headLen blocks)
    (hsize : off + other.length ≤ (bytesOf blocks).length) :
    eqRightLoop blocks off other =
      .ok (((bytesOf blocks.reverse).drop ((bytesOf blocks).length - off - other.length)).take
        other.length == other) := by
  have hpos : 0 < other.length := List.length_pos_iff.mpr hne
  induction blocks generalizing off other with
  | nil =>
      simp only [bytesOf_nil, List.length_nil] at hsize
      omega
  | cons block rest ih =>
      have hread := block.read_le
      have hlen : block.len = block.writePos - block.readPos := rfl
      have hreverse := length_bytesOf_reverse rest
      rw [headLen] at hoff
      rw [bytesOf_cons, List.length_append, Block.length_asBytes] at hsize ⊢
      rw [eqRightLoop, bytesOf_reverse_cons]
      simp only [bind, Except.bind]
      rw [minus_ok (by omega)]
      dsimp only
      rw [minus_ok (by omega)]
      dsimp only
      split
      · have hfirst : block.writePos - off - other.length =
            block.readPos + (block.len - off - other.length) := by
          omega
        have hdrop : block.len + (bytesOf rest).length - off - other.length =
            (bytesOf rest.reverse).length + (block.len - off - other.length) := by
          omega
        rw [hfirst, Block.asBytesRange_ok (by omega), hdrop, List.drop_length_add_append]
      · have hcount : block.writePos - off - block.readPos = block.len - off := by omega
        have htake : (other.take (other.length - (block.len - off))).length =
            other.length - (block.len - off) := by
          rw [List.length_take]
          omega
        have hothers : eqRightLoop rest 0 (other.take (other.length - (block.len - off))) = _ := ih
          (by rw [← List.length_pos_iff]; omega) (Nat.zero_le _) (by omega) (by omega)
        have hcut : (bytesOf rest).length - 0 - (other.length - (block.len - off)) =
            block.len + (bytesOf rest).length - off - other.length := by
          omega
        rw [htake, hcut] at hothers
        have hwhole : other.length - ((bytesOf rest.reverse).length -
            (block.len + (bytesOf rest).length - off - other.length)) = block.len - off := by
          omega
        have hlast : (block.asBytes.take (block.len - off)).length = block.len - off := by
          rw [List.length_take, Block.length_asBytes]
          omega
        have hshort : ((bytesOf rest.reverse).drop
            (block.len + (bytesOf rest).length - off - other.length)).take
              (other.length - (block.len - off)) =
            (bytesOf rest.reverse).drop
              (block.len + (bytesOf rest).length - off - other.length) :=
          List.take_of_length_le (by rw [List.length_drop]; omega)
        rw [hcount, Block.asBytesRange_readPos (Nat.sub_le _ _),
          take_drop_append (by omega) (by omega), hwhole, append_beq_right, hlast]
        dsimp only
        rw [hothers, hshort]
        cases hhead : block.asBytes.take (block.len - off) ==
          other.drop (other.length - (block.len - off)) <;> simp [bne, hhead]

theorem inBlock_left {b : Block} (h : off + size ≤ b.len) :
    inBlock b (.left off) size = .ok (((bytesOf [b]).drop off).take size) := by
  rw [inBlock, Block.asBytesRange_ok h, bytesOf_cons, bytesOf_nil, List.append_nil]

theorem inBlock_right {b : Block} (h : off + size ≤ b.len) :
    inBlock b (.right off) size =
      .ok (((bytesOf [b]).drop ((bytesOf [b]).length - off - size)).take size) := by
  have hread := b.read_le
  have hlen : b.len = b.writePos - b.readPos := rfl
  have hfirst : b.writePos - off - size = b.readPos + (b.len - off - size) := by omega
  rw [inBlock]
  simp only [bind, Except.bind]
  rw [minus_ok (by omega)]
  dsimp only
  rw [minus_ok (by omega), bytesOf_cons, bytesOf_nil, List.append_nil, Block.length_asBytes]
  dsimp only
  rw [hfirst, Block.asBytesRange_ok (by omega)]

theorem shows_of_reads {w : Window} {bytes : List UInt8} (hsize : 0 < w.size)
    (hone : ∀ b, w.blocks = [b] → inBlock b w.off w.size = .ok bytes)
    (hmany : w.toBytes = .ok bytes) (heq : ∀ other, w.eqBytes other = .ok (bytes == other)) :
    w.Shows bytes := by
  have hne : w.size ≠ 0 := Nat.ne_of_gt hsize
  by_cases hblocks : ∃ b, w.blocks = [b]
  · obtain ⟨b, hb⟩ := hblocks
    refine ⟨hmany, ?_, .inr ?_, heq⟩
    · rw [asBytes, if_neg hne, hb]
      exact hone b hb
    · rw [tryAsBytes, if_neg hne, hb]
      dsimp only
      rw [hone b hb]
      rfl
  · refine ⟨hmany, ?_, .inl ?_, heq⟩
    · rw [asBytes, if_neg hne]
      split
      · next b hb => exact absurd ⟨b, hb⟩ hblocks
      · exact hmany
    · rw [tryAsBytes, if_neg hne]
      split
      · next b hb => exact absurd ⟨b, hb⟩ hblocks
      · rfl

theorem beq_of_length_ne {bytes other : List UInt8} (h : bytes.length ≠ other.length) :
    (bytes == other) = false := by
  rw [beq_eq_false_iff_ne]
  exact fun heq => h (congrArg List.length heq)

theorem fromLeft_shows (hpos : 0 < size) (hoff : off ≤ headLen blocks)
    (hsize : off + size ≤ (bytesOf blocks).length) :
    (fromLeft blocks off size).Shows (((bytesOf blocks).drop off).take size) := by
  have hlen : (((bytesOf blocks).drop off).take size).length = size := by
    rw [List.length_take, List.length_drop]
    omega
  refine shows_of_reads hpos ?_ (toBytesLeft_ok hoff hsize) ?_
  · rintro b rfl
    rw [bytesOf_cons, bytesOf_nil, List.append_nil, Block.length_asBytes] at hsize
    exact inBlock_left hsize
  · intro other
    by_cases heq : size = other.length
    · subst heq
      simp only [eqBytes, fromLeft, if_true]
      exact eqLeftLoop_ok (List.length_pos_iff.mp hpos) hoff hsize
    · rw [beq_of_length_ne (by rwa [hlen])]
      exact if_neg heq

theorem fromRight_shows (hpos : 0 < size) (hoff : off ≤ headLen blocks.reverse)
    (hsize : off + size ≤ (bytesOf blocks).length) :
    (fromRight blocks off size).Shows
      (((bytesOf blocks).drop ((bytesOf blocks).length - off - size)).take size) := by
  have hlen : (((bytesOf blocks).drop ((bytesOf blocks).length - off - size)).take size).length =
      size := by
    rw [List.length_take, List.length_drop]
    omega
  have hreverse := length_bytesOf_reverse blocks
  refine shows_of_reads hpos ?_ ?_ ?_
  · rintro b rfl
    rw [bytesOf_cons, bytesOf_nil, List.append_nil, Block.length_asBytes] at hsize
    exact inBlock_right hsize
  · have hbytes : toBytesRight blocks.reverse off size = _ := toBytesRight_ok hoff (by omega)
    rwa [hreverse, List.reverse_reverse] at hbytes
  · intro other
    by_cases heq : size = other.length
    · subst heq
      simp only [eqBytes, fromRight, if_true]
      have hbytes := eqRightLoop_ok (List.length_pos_iff.mp hpos) hoff (by omega)
      rwa [hreverse, List.reverse_reverse] at hbytes
    · rw [beq_of_length_ne (by rwa [hlen])]
      exact if_neg heq

end Window

end Ruyi.Buf
