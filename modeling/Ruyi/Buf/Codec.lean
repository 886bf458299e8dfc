import Ruyi.Buf.FixedWidth

namespace Ruyi.Buf

/-- The modules of `codec` for a single value. -/
inductive Codec where
  | u8 | i8
  | u16be | u16le | u16varint | i16be | i16le | i16varint
  | u32be | u32le | u32varint | i32be | i32le | i32varint
  | u64be | u64le | u64varint | i64be | i64le | i64varint
  | f32be | f32le | f64be | f64le
  deriving DecidableEq, Repr

/-- What the modules have in common: one byte, a fixed number of bytes in a byte order, or
groups of seven bits of a number of so many bits. -/
inductive Shape where
  | byte
  | fixed (size : Nat) (order : Endian)
  | varint (bits : Nat)
  deriving DecidableEq, Repr

/-- The signed codecs are those of the unsigned types under an `as` cast, and those of the floats
copy bytes as those of the integers of their size do: `v` is always the number with the bits of
the value. -/
def Codec.shape : Codec → Shape
  | u8 | i8 => .byte
  | u16be | i16be => .fixed 2 .big
  | u16le | i16le => .fixed 2 .little
  | u32be | i32be | f32be => .fixed 4 .big
  | u32le | i32le | f32le => .fixed 4 .little
  | u64be | i64be | f64be => .fixed 8 .big
  | u64le | i64le | f64le => .fixed 8 .little
  | u16varint | i16varint => .varint 16
  | u32varint | i32varint => .varint 32
  | u64varint | i64varint => .varint 64

theorem Codec.size_of_fixed {codec : Codec} {size : Nat} {order : Endian}
    (h : codec.shape = .fixed size order) : size = 2 ∨ size = 4 ∨ size = 8 := by
  cases codec <;> cases h <;> decide

/-- The bytes of a fixed-width number as `append`, `prepend` and `set` copy them: the number as
it lies in memory, reversed if that is not the order of the codec. -/
def memoryOf (order target : Endian) (size v : Nat) : List UInt8 :=
  let bytes := bytesFor target size v
  if order = target then bytes else reverse bytes size

theorem memoryOf_eq {size : Nat} (hsize : size = 2 ∨ size = 4 ∨ size = 8) (order target : Endian)
    (v : Nat) : memoryOf order target size v = bytesFor order size v := by
  rw [memoryOf, reverse_eq hsize (length_bytesFor target size v)]
  cases order <;> cases target <;> simp [bytesFor]

/-- The groups of seven bits of a number, the low ones first, all but the last one marked. -/
def varint (v : Nat) : List UInt8 :=
  if _h : v >>> 7 = 0 then [UInt8.ofNat v]
  else UInt8.ofNat (v ||| 0x80) :: varint (v >>> 7)
termination_by v
decreasing_by
  rw [Nat.shiftRight_eq_div_pow] at _h ⊢
  omega

/-- What a codec makes of a value, wherever the bytes are put. -/
def Codec.encode (codec : Codec) (v : Nat) : List UInt8 :=
  match codec.shape with
  | .byte => [UInt8.ofNat v]
  | .fixed size order => bytesFor order size v
  | .varint _ => varint v

theorem varint_of_zero {v : Nat} (h : v >>> 7 = 0) : varint v = [UInt8.ofNat v] := by
  rw [varint, dif_pos h]

theorem varint_of_ne {v : Nat} (h : v >>> 7 ≠ 0) :
    varint v = UInt8.ofNat (v ||| 0x80) :: varint (v >>> 7) := by
  rw [varint, dif_neg h]

theorem varint_ne_nil (v : Nat) : varint v ≠ [] := by
  rw [varint]
  split <;> exact List.cons_ne_nil _ _

end Ruyi.Buf
