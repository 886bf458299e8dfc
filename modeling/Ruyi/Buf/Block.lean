import Mathlib
import Ruyi.Base.Region

namespace Ruyi.Buf

/-- One block of a chained buffer.  `mem` holds the bytes of the region
`[ptr, ptr + cap)` of the allocation `shared`; the bytes in
`[readPos, writePos)` are the readable ones.  The bounds are the ones the
setters of the source assert. -/
structure Block where
  shared : Nat
  ptr : Nat
  mem : List UInt8
  cap : Nat
  readPos : Nat
  writePos : Nat
  mem_length : mem.length = cap
  read_le : readPos ≤ writePos
  write_le : writePos ≤ cap
  deriving DecidableEq

namespace Block

/-- `From<Vec<u8>>`: the whole vector is readable, `spare` is what the vector
holds beyond its length. -/
def ofVec (shared : Nat) (bytes spare : List UInt8) : Block where
  shared := shared
  ptr := 0
  mem := bytes ++ spare
  cap := bytes.length + spare.length
  readPos := 0
  writePos := bytes.length
  mem_length := by simp
  read_le := Nat.zero_le _
  write_le := Nat.le_add_right _ _

def isEmpty (b : Block) : Bool := b.readPos == b.writePos

def setReadPos (b : Block) (pos : Nat) (h : pos ≤ b.writePos) : Block :=
  { b with readPos := pos, read_le := h }

def len (b : Block) : Nat := b.writePos - b.readPos

def appendable (b : Block) : Nat := b.cap - b.writePos

def asBytes (b : Block) : List UInt8 := (b.mem.drop b.readPos).take b.len

/-- Splits the region at `readPos + pos`: the first block keeps the bytes
before, the second one takes what follows, with no byte copied. -/
def splitOff (b : Block) (pos : Nat) (h : pos ≤ b.len) : Block × Block :=
  let off := b.readPos + pos
  have hoff : off ≤ b.writePos := by
    have := b.read_le
    simp only [len] at h
    omega
  ({ b with
      mem := b.mem.take off
      cap := off
      writePos := off
      mem_length := by
        rw [List.length_take, b.mem_length, Nat.min_eq_left (Nat.le_trans hoff b.write_le)]
      read_le := Nat.le_add_right _ _
      write_le := Nat.le_refl _ },
    { shared := b.shared
      ptr := b.ptr + off
      mem := b.mem.drop off
      cap := b.cap - off
      readPos := 0
      writePos := b.writePos - off
      mem_length := by rw [List.length_drop, b.mem_length]
      read_le := Nat.zero_le _
      write_le := Nat.sub_le_sub_right b.write_le off })

@[simp] theorem length_asBytes (b : Block) : b.asBytes.length = b.len := by
  have := b.mem_length
  have := b.read_le
  have := b.write_le
  simp only [asBytes, len, List.length_take, List.length_drop]
  omega

theorem isEmpty_iff (b : Block) : b.isEmpty = true ↔ b.len = 0 := by
  have := b.read_le
  simp only [isEmpty, len, beq_iff_eq]
  omega

theorem asBytes_of_isEmpty {b : Block} (h : b.isEmpty = true) : b.asBytes = [] :=
  List.eq_nil_of_length_eq_zero (by rw [length_asBytes, ← isEmpty_iff]; exact h)

@[simp] theorem asBytes_ofVec (shared : Nat) (bytes spare : List UInt8) :
    (ofVec shared bytes spare).asBytes = bytes := by
  simp [ofVec, asBytes, len]

theorem asBytes_setReadPos (b : Block) (n : Nat) (h : b.readPos + n ≤ b.writePos) :
    (b.setReadPos (b.readPos + n) h).asBytes = b.asBytes.drop n := by
  simp only [setReadPos, asBytes, len, List.drop_take, List.drop_drop]
  congr 1
  omega

theorem asBytes_splitOff_fst (b : Block) (pos : Nat) (h : pos ≤ b.len) :
    (b.splitOff pos h).1.asBytes = b.asBytes.take pos := by
  simp only [splitOff, asBytes, len, List.take_take, List.drop_take]
  simp only [len] at h
  congr 1
  omega

theorem asBytes_splitOff_snd (b : Block) (pos : Nat) (h : pos ≤ b.len) :
    (b.splitOff pos h).2.asBytes = b.asBytes.drop pos := by
  simp only [splitOff, asBytes, len, List.drop_take, List.drop_drop]
  congr 1
  omega

/-- The addresses of the block. -/
def region (b : Block) : Base.Region := ⟨b.shared, b.ptr, b.cap⟩

/-- A new allocation, whose bytes are not initialized in the source. -/
def withCapacity (shared capacity : Nat) : Block where
  shared := shared
  ptr := 0
  mem := List.replicate capacity 0
  cap := capacity
  readPos := 0
  writePos := 0
  mem_length := List.length_replicate
  read_le := Nat.le_refl _
  write_le := Nat.zero_le _

def forPrependable (shared capacity : Nat) : Block :=
  { withCapacity shared capacity with
    readPos := capacity
    writePos := capacity
    read_le := Nat.le_refl _
    write_le := Nat.le_refl _ }

def prependable (b : Block) : Nat := b.readPos

/-- Both positions of an empty block are set to `pos`. -/
def moveTo (b : Block) (pos : Nat) (h : pos ≤ b.cap) : Block :=
  { b with readPos := pos, writePos := pos, read_le := Nat.le_refl _, write_le := h }

end Block

/-- `ptr::copy_nonoverlapping` of the bytes to the offset `off`, as far as there is memory. -/
def overwrite (mem : List UInt8) (off : Nat) (bytes : List UInt8) : List UInt8 :=
  mem.take off ++ bytes.take (mem.length - off) ++ mem.drop (off + bytes.length)

theorem length_overwrite (mem : List UInt8) (off : Nat) (bytes : List UInt8) :
    (overwrite mem off bytes).length = mem.length := by
  simp only [overwrite, List.length_append, List.length_take, List.length_drop]
  omega

theorem overwrite_of_le {mem bytes : List UInt8} {off : Nat}
    (h : off + bytes.length ≤ mem.length) :
    overwrite mem off bytes = mem.take off ++ (bytes ++ mem.drop (off + bytes.length)) := by
  have hbytes : bytes.take (mem.length - off) = bytes := List.take_of_length_le (by omega)
  rw [overwrite, hbytes, List.append_assoc]

namespace Block

/-- The bytes are written at the offset `off` of the block. -/
def copyTo (b : Block) (off : Nat) (bytes : List UInt8) : Block :=
  { b with
    mem := overwrite b.mem off bytes
    mem_length := (length_overwrite b.mem off bytes).trans b.mem_length }

/-- Writes the bytes after the readable ones, all of them or as many as there is room for, and
moves the write position behind them. -/
def append (b : Block) (bytes : List UInt8) : Block :=
  let fitting := bytes.take b.appendable
  { b.copyTo b.writePos fitting with
    writePos := b.writePos + fitting.length
    read_le := Nat.le_trans b.read_le (Nat.le_add_right _ _)
    write_le := by
      have := b.write_le
      simp only [fitting, copyTo, List.length_take, appendable]
      omega }

/-- Writes the bytes before the readable ones, all of them or the last of them as there is room,
and moves the read position to the first. -/
def prepend (b : Block) (bytes : List UInt8) : Block :=
  let fitting := bytes.drop (bytes.length - b.prependable)
  { b.copyTo (b.readPos - fitting.length) fitting with
    readPos := b.readPos - fitting.length
    read_le := Nat.le_trans (Nat.sub_le _ _) b.read_le }

/-- Moves the read position on by `n` bytes, at most to the write position. -/
def consume (b : Block) (n : Nat) : Block :=
  b.setReadPos (min (b.readPos + n) b.writePos) (Nat.min_le_right _ _)

variable (b : Block)

@[simp] theorem region_consume (n : Nat) : (b.consume n).region = b.region := rfl

theorem asBytes_consume (n : Nat) : (b.consume n).asBytes = b.asBytes.drop n := by
  rcases Nat.lt_or_ge b.writePos (b.readPos + n) with hlt | hle
  · have hlen : b.asBytes.length ≤ n := by
      have hread := b.read_le
      rw [length_asBytes, len]
      omega
    rw [List.drop_of_length_le hlen]
    simp only [consume, setReadPos, asBytes, len, Nat.min_eq_right (Nat.le_of_lt hlt),
      Nat.sub_self, List.take_zero]
  · rw [← b.asBytes_setReadPos n hle]
    simp only [consume, Nat.min_eq_left hle]

theorem isEmpty_consume_len : (b.consume b.len).isEmpty = true := by
  have := b.read_le
  simp only [consume, setReadPos, isEmpty, len, beq_iff_eq]
  omega

@[simp] theorem region_setReadPos (pos : Nat) (h : pos ≤ b.writePos) :
    (b.setReadPos pos h).region = b.region := rfl

@[simp] theorem region_moveTo (pos : Nat) (h : pos ≤ b.cap) : (b.moveTo pos h).region = b.region :=
  rfl

@[simp] theorem region_copyTo (off : Nat) (bytes : List UInt8) :
    (b.copyTo off bytes).region = b.region := rfl

@[simp] theorem region_append (bytes : List UInt8) : (b.append bytes).region = b.region := rfl

@[simp] theorem region_prepend (bytes : List UInt8) : (b.prepend bytes).region = b.region := rfl

theorem isEmpty_moveTo (pos : Nat) (h : pos ≤ b.cap) : (b.moveTo pos h).isEmpty = true :=
  beq_self_eq_true _

theorem isEmpty_setReadPos_writePos : (b.setReadPos b.writePos (Nat.le_refl _)).isEmpty = true :=
  beq_self_eq_true _

theorem asBytes_eq : b.asBytes = (b.mem.take b.writePos).drop b.readPos := by
  rw [asBytes, len, List.drop_take]

theorem asBytes_append (bytes : List UInt8) :
    (b.append bytes).asBytes = b.asBytes ++ bytes.take b.appendable := by
  have hread := b.read_le
  have hwrite := b.write_le
  have hmem := b.mem_length
  have hfit : b.writePos + (bytes.take b.appendable).length ≤ b.mem.length := by
    simp only [List.length_take, appendable]
    omega
  have htake : (b.mem.take b.writePos).length = b.writePos := by
    rw [List.length_take]
    omega
  have hlen : (b.mem.take b.writePos ++ bytes.take b.appendable).length =
      b.writePos + (bytes.take b.appendable).length := by
    rw [List.length_append, htake]
  rw [asBytes_eq, asBytes_eq]
  simp only [append, copyTo]
  rw [overwrite_of_le hfit, ← List.append_assoc,
    List.take_append_of_le_length (Nat.le_of_eq hlen.symm),
    List.take_of_length_le (Nat.le_of_eq hlen),
    List.drop_append_of_le_length (Nat.le_trans hread (Nat.le_of_eq htake.symm))]

theorem append_take (bytes : List UInt8) : b.append (bytes.take b.appendable) = b.append bytes := by
  simp only [append, List.take_take, Nat.min_self]

theorem append_of_full {b : Block} (h : b.appendable = 0) (bytes : List UInt8) :
    b.append bytes = b := by
  simp [append, h, copyTo, overwrite]

theorem append_nil : b.append [] = b := by
  simp [append, copyTo, overwrite]

theorem asBytes_prepend (bytes : List UInt8) :
    (b.prepend bytes).asBytes = bytes.drop (bytes.length - b.prependable) ++ b.asBytes := by
  have hread := b.read_le
  have hwrite := b.write_le
  have hmem := b.mem_length
  let fitting := bytes.drop (bytes.length - b.prependable)
  have hlen : fitting.length ≤ b.readPos := by
    simp only [fitting, List.length_drop, prependable]
    omega
  have hoff : b.readPos - fitting.length + fitting.length = b.readPos := Nat.sub_add_cancel hlen
  have htake : (b.mem.take (b.readPos - fitting.length)).length = b.readPos - fitting.length := by
    rw [List.length_take]
    omega
  show ((overwrite b.mem (b.readPos - fitting.length) fitting).drop
      (b.readPos - fitting.length)).take (b.writePos - (b.readPos - fitting.length)) = _
  rw [overwrite_of_le (by omega), List.drop_append_of_le_length (Nat.le_of_eq htake.symm),
    List.drop_of_length_le (Nat.le_of_eq htake), List.nil_append, hoff, List.take_append,
    List.take_of_length_le (by omega), asBytes, len]
  congr 2
  omega

theorem prepend_drop (bytes : List UInt8) :
    b.prepend (bytes.drop (bytes.length - b.prependable)) = b.prepend bytes := by
  have hsub : (bytes.drop (bytes.length - b.prependable)).length - b.prependable = 0 := by
    rw [List.length_drop]
    omega
  simp only [prepend, hsub, List.drop_zero]

theorem prepend_of_full {b : Block} (h : b.prependable = 0) (bytes : List UInt8) :
    b.prepend bytes = b := by
  simp [prepend, h, copyTo, overwrite]

theorem prepend_nil : b.prepend [] = b := by
  simp [prepend, copyTo, overwrite]

@[simp] theorem asBytes_withCapacity (shared capacity : Nat) :
    (withCapacity shared capacity).asBytes = [] := by
  simp [withCapacity, asBytes, len]

@[simp] theorem asBytes_forPrependable (shared capacity : Nat) :
    (forPrependable shared capacity).asBytes = [] := by
  simp [forPrependable, withCapacity, asBytes, len]

@[simp] theorem appendable_withCapacity (shared capacity : Nat) :
    (withCapacity shared capacity).appendable = capacity := rfl

@[simp] theorem prependable_forPrependable (shared capacity : Nat) :
    (forPrependable shared capacity).prependable = capacity := rfl

theorem asBytes_eq_nil_iff : b.asBytes = [] ↔ b.isEmpty = true := by
  rw [isEmpty_iff, ← List.length_eq_zero_iff, length_asBytes]

theorem region_splitOff (pos : Nat) (h : pos ≤ b.len) :
    (b.splitOff pos h).1.region.Within b.region ∧ (b.splitOff pos h).2.region.Within b.region ∧
      (b.splitOff pos h).1.region.base + (b.splitOff pos h).1.region.size ≤
        (b.splitOff pos h).2.region.base := by
  have hread := b.read_le
  have hwrite := b.write_le
  simp only [len] at h
  refine ⟨⟨rfl, Nat.le_refl _, ?_⟩, ⟨rfl, ?_, ?_⟩, ?_⟩
  · simp only [splitOff, region]
    omega
  · exact Nat.le_add_right _ _
  · simp only [splitOff, region]
    omega
  · exact Nat.le_refl _

end Block

end Ruyi.Buf
