import Ruyi.Buf.RoundTrip

namespace Ruyi.Buf

open Base (scan_takeStep)

variable {σ ρ ρ' : Type}

/-- The unsigned types that have a module for each byte order. -/
inductive Width where
  | u16
  | u32
  | u64
  deriving DecidableEq, Repr

def Width.size : Width → Nat
  | u16 => 2
  | u32 => 4
  | u64 => 8

/-- The modules `big_endian` and `little_endian` of the type. -/
def Width.codec : Width → Endian → Codec
  | u16, .big => .u16be
  | u16, .little => .u16le
  | u32, .big => .u32be
  | u32, .little => .u32le
  | u64, .big => .u64be
  | u64, .little => .u64le

/-- `swap_bytes` of a number of `size` bytes. -/
def swapBytes (size v : Nat) : Nat := valueOf .big (bytesFor .little size v)

theorem Width.shape_codec (w : Width) (order : Endian) :
    (w.codec order).shape = .fixed w.size order := by
  cases w <;> cases order <;> rfl

section

variable {bytes : List UInt8} {size : Nat}

theorem valueOf_little_reverse (bytes : List UInt8) :
    valueOf .little bytes.reverse = valueOf .big bytes := rfl

theorem valueOf_big_reverse (bytes : List UInt8) :
    valueOf .big bytes.reverse = valueOf .little bytes := by
  rw [← valueOf_little_reverse, List.reverse_reverse]

theorem bytesFor_reverse (size v : Nat) :
    (bytesFor .big size v).reverse = bytesFor .little size v := List.reverse_reverse _

theorem bytesFor_little_valueOf (bytes : List UInt8) :
    bytesFor .little bytes.length (valueOf .little bytes) = bytes := by
  induction bytes with
  | nil => rfl
  | cons b bytes ih =>
      have hvalue : valueOf .little (b :: bytes) = b.toNat + 256 * valueOf .little bytes :=
        Nat.ofDigits_cons
      have hlow : UInt8.ofNat (valueOf .little (b :: bytes)) = b := by
        rw [hvalue, ← UInt8.toNat_inj, UInt8.toNat_ofNat']
        have := b.toNat_lt
        omega
      have hhigh : valueOf .little (b :: bytes) / 256 = valueOf .little bytes := by
        rw [hvalue]
        have := b.toNat_lt
        omega
      rw [bytesFor, List.length_cons, List.range_succ_eq_map, List.map_cons, List.map_map,
        Nat.pow_zero, Nat.div_one, hlow]
      congr 1
      conv_rhs => rw [← ih]
      refine List.map_congr_left fun i _ => ?_
      rw [Function.comp_apply, Nat.succ_eq_add_one, Nat.pow_succ', ← Nat.div_div_eq_div_mul, hhigh]

theorem bytesFor_big_valueOf (bytes : List UInt8) :
    bytesFor .big bytes.length (valueOf .big bytes) = bytes := by
  have hlittle := bytesFor_little_valueOf bytes.reverse
  rw [List.length_reverse, valueOf_little_reverse] at hlittle
  rw [← List.reverse_reverse (bytesFor _ _ _), bytesFor_reverse, hlittle, List.reverse_reverse]

theorem swapBytes_valueOf (hlen : bytes.length = size) :
    swapBytes size (valueOf .big bytes) = valueOf .little bytes := by
  have hlittle := bytesFor_little_valueOf bytes.reverse
  rw [List.length_reverse, hlen, valueOf_little_reverse] at hlittle
  rw [swapBytes, hlittle, valueOf_big_reverse]

theorem bytesFor_big_swapBytes (size v : Nat) :
    bytesFor .big size (swapBytes size v) = bytesFor .little size v := by
  have hbig := bytesFor_big_valueOf (bytesFor .little size v)
  rw [length_bytesFor] at hbig
  exact hbig

theorem bytesFor_little_swapBytes (size v : Nat) :
    bytesFor .little size (swapBytes size v) = bytesFor .big size v := by
  rw [← bytesFor_reverse, bytesFor_big_swapBytes, ← bytesFor_reverse, List.reverse_reverse]

end

theorem forBlocks_readBytesBody (result : List UInt8 → ρ) (result' : List UInt8 → ρ')
    (stop : Nat × List UInt8 → ρ) (stop' : Nat × List UInt8 → ρ') (s : Nat × List UInt8)
    (blocks : List Block) :
    (forBlocks (readBytesBody result) stop s blocks).2 =
      (forBlocks (readBytesBody result') stop' s blocks).2 := by
  induction blocks generalizing s with
  | nil => rfl
  | cons block rest ih =>
      rw [forBlocks, forBlocks]
      split
      · exact congrArg (fun r : List Block × Nat => (block :: r.1, r.2 + 1)) (ih s)
      · by_cases hle : s.1 ≤ block.len
        · rw [readBytesBody, readBytesBody, if_pos hle, if_pos hle]
        · rw [readBytesBody, readBytesBody, if_neg hle, if_neg hle]
          exact congrArg (fun r : List Block × Nat => (block.consume block.len :: r.1, r.2 + 1))
            (ih _)

namespace ByteBuf

theorem readFixed_buffer (size : Nat) (order order' target : Endian) (buf : ByteBuf) :
    (readFixed size order target buf).2 = (readFixed size order' target buf).2 := by
  rw [readFixed, readFixed, readBody_eq, readBody_eq]
  simp only [readWith, forBlocks_readBytesBody
    (fun v => Except.ok (valueOf target (if order = target then v else reverse v size)))
    (fun v => Except.ok (valueOf target (if order' = target then v else reverse v size)))
    (fun _ => Except.error Error.underflow) (fun _ => Except.error Error.underflow)]

theorem exists_located_iff {buf : ByteBuf} {index : Nat} :
    (∃ p, buf.locateIdx index = .ok p) ↔ buf.idx < buf.blocks.length ∧ index ≤ buf.len := by
  rw [len_eq]
  constructor
  · rintro ⟨p, hp⟩
    obtain ⟨hidx, -, -⟩ := locateIdx_ok hp
    exact ⟨Nat.lt_of_le_of_lt hidx p.idx_lt, (bytesOf_located hp).1⟩
  · rintro ⟨hidx, hle⟩
    exact exists_locateIdx hidx hle

end ByteBuf

namespace Codec

variable {codec : Codec} {size : Nat} {order : Endian}

theorem read_fixed (hshape : codec.shape = .fixed size order) (target : Endian) (buf : ByteBuf) :
    (codec.read target buf).1 =
      if size ≤ buf.len then .ok (valueOf order (buf.content.take size))
      else .error .underflow := by
  have hsize := size_of_fixed hshape
  have hpos : 0 < size := by omega
  have hscan := congrArg Prod.fst
    (buf.readWith_scan (scans_readBytesBody fun v => Except.ok (valueOf target
      (if order = target then v else reverse v size))) (fun _ => .error Error.underflow)
      (s := (size, [])) hpos)
  simp only [Codec.read, hshape, readFixed, readBody_eq]
  rw [hscan, scan_takeStep _ hpos, buf.len_eq]
  by_cases hle : size ≤ buf.content.length
  · have htake : (buf.content.take size).length = size := by
      rw [List.length_take, Nat.min_eq_left hle]
    rw [if_pos hle, if_pos hle]
    dsimp only
    rw [List.nil_append, valueOf_target hsize htake]
  · rw [if_neg hle, if_neg hle]

theorem get_fixed (hshape : codec.shape = .fixed size order) (target : Endian) {buf : ByteBuf}
    {index : Nat} {p : Position buf.blocks} (hp : buf.locateIdx index = .ok p) :
    buf.get index (codec.get target) =
      .ok (if index + size ≤ buf.len then .ok (valueOf order ((buf.content.drop index).take size))
        else .error codec.getError) := by
  have hsize := size_of_fixed hshape
  have hpos : 0 < size := by omega
  have hle := (ByteBuf.bytesOf_located hp).1
  have hget : codec.get target = forGetBlocks
      (getBytesBody fun v => Except.ok (valueOf target
        (if order = target then v else reverse v size)))
      (fun _ => .error codec.getError) (size, []) := by
    funext chain
    simp only [Codec.get, hshape]
  rw [hget, ByteBuf.get_scan (scansBytes_getBytesBody _) _ hpos hp, scan_takeStep _ hpos,
    buf.len_eq, List.length_drop]
  by_cases hfits : index + size ≤ buf.content.length
  · have htake : ((buf.content.drop index).take size).length = size := by
      rw [List.length_take, List.length_drop]
      omega
    rw [if_pos (by omega), if_pos hfits]
    dsimp only
    rw [List.nil_append, valueOf_target hsize htake]
  · rw [if_neg (by omega), if_neg hfits]

theorem set_fixed (hshape : codec.shape = .fixed size order) (target : Endian) (v index : Nat)
    (buf : ByteBuf) :
    codec.set target v index buf =
      buf.setWith index (setBody size) (fun _ => .error .indexOutOfBounds)
        (bytesFor order size v) := by
  simp only [Codec.set, hshape, memoryOf_eq (size_of_fixed hshape)]

end Codec

/-- The modules of a type do the same but for the order of the bytes. -/
structure Width.SameButForOrder (w : Width) (target : Endian) (buf : ByteBuf) (index : Nat) :
    Prop where
  get : buf.get index ((w.codec .little).get target) =
    (buf.get index ((w.codec .big).get target)).map fun r => r.map (swapBytes w.size)
  read : (w.codec .little).read target buf =
    (((w.codec .big).read target buf).1.map (swapBytes w.size), ((w.codec .big).read target buf).2)
  set_little : ∀ v, (w.codec .little).set target v index buf =
    (w.codec .big).set target (swapBytes w.size v) index buf
  set_big : ∀ v, (w.codec .big).set target v index buf =
    (w.codec .little).set target (swapBytes w.size v) index buf

namespace Width

variable {w : Width} {target : Endian} {buf : ByteBuf} {index : Nat}

theorem read_swaps (w : Width) (target : Endian) (buf : ByteBuf) :
    (w.codec .little).read target buf =
      (((w.codec .big).read target buf).1.map (swapBytes w.size),
        ((w.codec .big).read target buf).2) := by
  refine Prod.ext ?_ ?_
  · dsimp only
    rw [Codec.read_fixed (w.shape_codec .little), Codec.read_fixed (w.shape_codec .big)]
    by_cases hle : w.size ≤ buf.len
    · have htake : (buf.content.take w.size).length = w.size := by
        rw [List.length_take, Nat.min_eq_left (buf.len_eq ▸ hle)]
      rw [if_pos hle, if_pos hle, Except.map, swapBytes_valueOf htake]
    · rw [if_neg hle, if_neg hle]
      rfl
  · simp only [Codec.read, w.shape_codec]
    exact ByteBuf.readFixed_buffer w.size .little .big target buf

theorem get_swaps_iff :
    buf.get index ((w.codec .little).get target) =
        ((buf.get index ((w.codec .big).get target)).map fun r => r.map (swapBytes w.size)) ↔
      (w = .u64 → buf.idx < buf.blocks.length → index ≤ buf.len → index + 8 ≤ buf.len) := by
  by_cases hfound : ∃ p, buf.locateIdx index = .ok p
  · obtain ⟨p, hp⟩ := hfound
    obtain ⟨hidx, hindex⟩ := ByteBuf.exists_located_iff.mp ⟨p, hp⟩
    rw [Codec.get_fixed (w.shape_codec .little) target hp,
      Codec.get_fixed (w.shape_codec .big) target hp]
    by_cases hle : index + w.size ≤ buf.len
    · have htake : ((buf.content.drop index).take w.size).length = w.size := by
        rw [List.length_take, List.length_drop, ← buf.len_eq]
        omega
      rw [if_pos hle, if_pos hle]
      refine ⟨?_, fun _ => ?_⟩
      · rintro - rfl - -
        exact hle
      · rw [Except.map, Except.map, swapBytes_valueOf htake]
    · rw [if_neg hle, if_neg hle]
      cases w with
      | u16 => exact ⟨fun _ h => Width.noConfusion h, fun _ => rfl⟩
      | u32 => exact ⟨fun _ h => Width.noConfusion h, fun _ => rfl⟩
      | u64 =>
          refine ⟨fun h => ?_, fun h => absurd (h rfl hidx hindex) hle⟩
          cases h
  · have hpanic : ∀ {α : Type} (f : List (Block × Nat) → α),
        buf.get index f = .error .panic := by
      intro α f
      rw [ByteBuf.get]
      split
      · rfl
      · exact absurd ⟨_, ‹_›⟩ hfound
    rw [hpanic, hpanic]
    refine ⟨fun _ _ hidx hindex => ?_, fun _ => rfl⟩
    exact absurd (ByteBuf.exists_located_iff.mpr ⟨hidx, hindex⟩) hfound

/-- What sets the modules apart is the order of the bytes, except where there are too few bytes
for a `get` of 64 bits. -/
theorem same_but_for_order_iff (w : Width) (target : Endian) (buf : ByteBuf) (index : Nat) :
    w.SameButForOrder target buf index ↔
      (w = .u64 → buf.idx < buf.blocks.length → index ≤ buf.len → index + 8 ≤ buf.len) := by
  refine ⟨fun h => get_swaps_iff.mp h.get, fun h => ?_⟩
  refine ⟨get_swaps_iff.mpr h, w.read_swaps target buf, fun v => ?_, fun v => ?_⟩
  · rw [Codec.set_fixed (w.shape_codec .little), Codec.set_fixed (w.shape_codec .big),
      bytesFor_big_swapBytes]
  · rw [Codec.set_fixed (w.shape_codec .little), Codec.set_fixed (w.shape_codec .big),
      bytesFor_little_swapBytes]

/-- Three bytes are too few for a number of 64 bits, and the modules differ in how they say so. -/
theorem short_get_differs :
    (ByteBuf.ofVec 0 [1, 2, 3] []).get 0 (Codec.u64le.get .little) = .ok (.error .underflow) ∧
      (ByteBuf.ofVec 0 [1, 2, 3] []).get 0 (Codec.u64be.get .little) =
        .ok (.error .indexOutOfBounds) ∧
      ¬ Width.u64.SameButForOrder .little (ByteBuf.ofVec 0 [1, 2, 3] []) 0 := by
  refine ⟨by decide, by decide, fun h => ?_⟩
  exact absurd h.get (by decide)

end Width

end Ruyi.Buf
