import Ruyi.Buf.ReadIter

namespace Ruyi.Buf

/-- A byte order: of a codec, or of the target the crate is compiled for. -/
inductive Endian where
  | little
  | big
  deriving DecidableEq, Repr

/-- `ptr::swap` of two bytes. -/
def swap (bytes : List UInt8) (i j : Nat) : List UInt8 :=
  match bytes[i]?, bytes[j]? with
  | some x, some y => (bytes.set i y).set j x
  | _, _ => bytes

/-- `codec::reverse`: reverses the first `len` bytes in place. -/
def reverse (bytes : List UInt8) (len : Nat) : List UInt8 :=
  (List.range (len >>> 1)).foldl (fun bytes i => swap bytes i (len - 1 - i)) bytes

/-- The number whose bytes lie in memory in this order. -/
def valueOf : Endian → List UInt8 → Nat
  | .little, bytes => Nat.ofDigits 256 (bytes.map UInt8.toNat)
  | .big, bytes => Nat.ofDigits 256 (bytes.reverse.map UInt8.toNat)

/-- The bytes a fixed-width codec of this order writes for a number. -/
def bytesFor (order : Endian) (size value : Nat) : List UInt8 :=
  let little := (List.range size).map fun i => UInt8.ofNat (value / 256 ^ i)
  match order with
  | .little => little
  | .big => little.reverse

/-- The body of the loop of a fixed-width `read`: `n` bytes are still missing
from `dst`, the part of the number copied so far. -/
def readBody (size : Nat) (order target : Endian) :
    Nat × List UInt8 → Block → Block × ((Nat × List UInt8) ⊕ Except Error Nat)
  | (n, dst), block =>
      if h : n ≤ block.len then
        let v := dst ++ block.asBytes.take n
        -- the codec's order is reached from the one of the target
        let v := if order = target then v else reverse v size
        (block.setReadPos (block.readPos + n) (by
            have := block.read_le
            simp only [Block.len] at h
            omega),
          .inr (.ok (valueOf target v)))
      else
        (block.setReadPos block.writePos (Nat.le_refl _),
          .inl (n - block.len, dst ++ block.asBytes))

/-- `read` of the codec of `size` bytes in byte order `order`. -/
def readFixed (size : Nat) (order target : Endian) (buf : ByteBuf) :
    Except Error Nat × ByteBuf :=
  buf.readWith (readBody size order target) (fun _ => .error .underflow) (size, [])

def u16be.read (target : Endian) (buf : ByteBuf) : Except Error Nat × ByteBuf :=
  readFixed 2 .big target buf

def u16le.read (target : Endian) (buf : ByteBuf) : Except Error Nat × ByteBuf :=
  readFixed 2 .little target buf

def u32be.read (target : Endian) (buf : ByteBuf) : Except Error Nat × ByteBuf :=
  readFixed 4 .big target buf

def u32le.read (target : Endian) (buf : ByteBuf) : Except Error Nat × ByteBuf :=
  readFixed 4 .little target buf

theorem forBlocks_readBody (size : Nat) (order target : Endian) {n : Nat} (dst : List UInt8)
    {blocks : List Block} (hn : 0 < n) (hlen : n ≤ (bytesOf blocks).length) :
    ∃ blocks' moved,
      forBlocks (readBody size order target) (fun _ => .error .underflow) (n, dst) blocks =
        (.ok (valueOf target
          (if order = target then dst ++ (bytesOf blocks).take n
            else reverse (dst ++ (bytesOf blocks).take n) size)), blocks', moved) ∧
      bytesOf (blocks'.drop moved) = (bytesOf blocks).drop n ∧ moved < blocks'.length := by
  induction blocks generalizing n dst with
  | nil =>
      simp only [bytesOf_nil, List.length_nil] at hlen
      omega
  | cons block rest ih =>
      rw [bytesOf_cons, List.length_append, Block.length_asBytes] at hlen
      rw [forBlocks, bytesOf_cons]
      split
      · rename_i hempty
        have hnil := Block.asBytes_of_isEmpty hempty
        have hzero := (Block.isEmpty_iff block).mp hempty
        obtain ⟨blocks', moved, hrun, hbytes, hmoved⟩ := ih dst hn (by omega)
        refine ⟨block :: blocks', moved + 1, ?_, ?_, ?_⟩
        · rw [hrun, hnil, List.nil_append]
        · simpa [hnil] using hbytes
        · simpa using hmoved
      · simp only [readBody]
        split
        · rename_i h
          split at h
          · rename_i hle
            cases h
            have hle' : n ≤ block.asBytes.length := by rwa [Block.length_asBytes]
            have hread : block.readPos + n ≤ block.writePos := by
              have := block.read_le
              simp only [Block.len] at hle
              omega
            refine ⟨block.setReadPos (block.readPos + n) hread :: rest, 0, ?_, ?_,
              Nat.zero_lt_succ _⟩
            · rw [List.take_append_of_le_length hle']
            · rw [List.drop_zero, bytesOf_cons, Block.asBytes_setReadPos,
                List.drop_append_of_le_length hle']
          · cases h
        · rename_i h
          split at h
          · cases h
          · rename_i hlt
            cases h
            have htake : (block.asBytes ++ bytesOf rest).take n =
                block.asBytes ++ (bytesOf rest).take (n - block.len) := by
              rw [List.take_append, List.take_of_length_le (by rw [Block.length_asBytes]; omega),
                Block.length_asBytes]
            have hdrop : (block.asBytes ++ bytesOf rest).drop n =
                (bytesOf rest).drop (n - block.len) := by
              rw [List.drop_append, List.drop_of_length_le (by rw [Block.length_asBytes]; omega),
                Block.length_asBytes, List.nil_append]
            obtain ⟨blocks', moved, hrun, hbytes, hmoved⟩ :=
              ih (dst ++ block.asBytes) (show 0 < n - block.len by omega) (by omega)
            refine ⟨block.setReadPos block.writePos (Nat.le_refl _) :: blocks', moved + 1,
              ?_, ?_, Nat.succ_lt_succ hmoved⟩
            · rw [hrun, htake, List.append_assoc]
            · rw [hdrop]
              simpa using hbytes

theorem reverse_eq {bytes : List UInt8} {size : Nat}
    (hsize : size = 2 ∨ size = 4 ∨ size = 8) (hlen : bytes.length = size) :
    reverse bytes size = bytes.reverse := by
  subst hlen
  match bytes, hsize with
  | [_, _], _ => simp [reverse, swap, List.range_succ]
  | [_, _, _, _], _ => simp [reverse, swap, List.range_succ]
  | [_, _, _, _, _, _, _, _], _ => simp [reverse, swap, List.range_succ]

/-- Whatever the target, what is read is the number in the codec's own byte order. -/
theorem valueOf_target {size : Nat} {order target : Endian} {bytes : List UInt8}
    (hsize : size = 2 ∨ size = 4 ∨ size = 8) (hlen : bytes.length = size) :
    valueOf target (if order = target then bytes else reverse bytes size) =
      valueOf order bytes := by
  rw [reverse_eq hsize hlen]
  cases order <;> cases target <;> simp [valueOf]

theorem readFixed_ok {size : Nat} {order target : Endian} {buf : ByteBuf}
    (hsize : size = 2 ∨ size = 4 ∨ size = 8) (hlen : size ≤ buf.content.length) :
    ∃ buf', readFixed size order target buf =
        (.ok (valueOf order (buf.content.take size)), buf') ∧
      buf'.content = buf.content.drop size ∧ buf'.idx < buf'.blocks.length := by
  obtain ⟨blocks', moved, hrun, hbytes, hmoved⟩ :=
    forBlocks_readBody size order target []
      (show 0 < size by omega) hlen
  have htake : ((bytesOf (buf.blocks.drop buf.idx)).take size).length = size := by
    rw [List.length_take]
    exact Nat.min_eq_left hlen
  refine ⟨(readFixed size order target buf).2, ?_, ?_, ?_⟩
  · refine Prod.ext ?_ rfl
    simp only [readFixed, ByteBuf.readWith]
    rw [hrun, List.nil_append, valueOf_target hsize htake]
    rfl
  · rw [readFixed, ByteBuf.content_readWith, hrun]
    exact hbytes
  · have hidx := buf.idx_le
    simp only [readFixed, ByteBuf.readWith]
    rw [hrun, List.length_append, List.length_take]
    simp only
    omega

theorem length_bytesFor (order : Endian) (size value : Nat) :
    (bytesFor order size value).length = size := by
  cases order <;> simp [bytesFor]

theorem valueOf_bytesFor (order : Endian) {size value : Nat} (h : value < 256 ^ size) :
    valueOf order (bytesFor order size value) = value := by
  have hlittle : ∀ k v, Nat.ofDigits 256
      ((List.range k).map fun i => (UInt8.ofNat (v / 256 ^ i)).toNat) = v % 256 ^ k := by
    intro k
    induction k with
    | zero => intro v; simp [Nat.mod_one]
    | succ k ih =>
        intro v
        have hshift : (List.range k).map (fun i => (UInt8.ofNat (v / 256 ^ (i + 1))).toNat) =
            (List.range k).map fun i => (UInt8.ofNat (v / 256 / 256 ^ i)).toNat := by
          refine List.map_congr_left fun i _ => ?_
          rw [pow_succ, Nat.mul_comm, ← Nat.div_div_eq_div_mul]
        rw [List.range_succ_eq_map, List.map_cons, List.map_map, Nat.ofDigits_cons]
        simp only [Function.comp_def, Nat.succ_eq_add_one]
        rw [hshift, ih, pow_succ, Nat.mul_comm (256 ^ k), Nat.mod_mul]
        simp
  have hmod : value % 256 ^ size = value := Nat.mod_eq_of_lt h
  cases order with
  | little =>
      simp only [valueOf, bytesFor, List.map_map]
      exact (hlittle size value).trans hmod
  | big =>
      simp only [valueOf, bytesFor, List.reverse_reverse, List.map_map]
      exact (hlittle size value).trans hmod

end Ruyi.Buf
