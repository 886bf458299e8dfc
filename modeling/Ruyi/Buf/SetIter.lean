import Ruyi.Buf.Cursor

namespace Ruyi.Buf

variable {σ ρ : Type}

/-- `SetIter::next` passes over empty blocks, and over the first one when nothing in it comes
after `initPos`. -/
def passesOver (initPos : Nat) (block : Block) : Bool :=
  if 0 < initPos then block.len ≤ initPos else block.isEmpty

/-- The loop `for mut block in chain { .. }` of a set codec; `body` is given the offset of the
first byte it may set. -/
def forSetBlocks (body : σ → Block → Nat → Block × (σ ⊕ ρ)) (stop : σ → ρ) :
    (initPos : Nat) → σ → List Block → ρ × List Block
  | _, s, [] => (stop s, [])
  | initPos, s, block :: rest =>
      if passesOver initPos block then
        let r := forSetBlocks body stop 0 s rest
        (r.1, block :: r.2)
      else
        match body s block (block.readPos + initPos) with
        | (block, .inr result) => (result, block :: rest)
        | (block, .inl s) =>
            let r := forSetBlocks body stop 0 s rest
            (r.1, block :: r.2)

/-- The body of `u8s::set` and of the fixed-width codecs; the state is what is left of the
bytes. -/
def setBody (result : Nat) (bytes : List UInt8) (block : Block) (setPos : Nat) :
    Block × (List UInt8 ⊕ Except Error Nat) :=
  let len := block.writePos - setPos
  if bytes.length ≤ len then (block.copyTo setPos bytes, .inr (.ok result))
  else (block.copyTo setPos (bytes.take len), .inl (bytes.drop len))

/-- The body of `u8s::set_fill`. -/
def setFillBody (val : UInt8) (count n : Nat) (block : Block) (setPos : Nat) :
    Block × (Nat ⊕ Except Error Nat) :=
  let len := block.writePos - setPos
  if n ≤ len then (block.copyTo setPos (List.replicate n val), .inr (.ok count))
  else (block.copyTo setPos (List.replicate len val), .inl (n - len))

/-- The body of `u8::set`. -/
def setByteBody (v : UInt8) (_ : Unit) (block : Block) (setPos : Nat) :
    Block × (Unit ⊕ Except Error Nat) :=
  (block.copyTo setPos [v], .inr (.ok 1))

/-- The body of `varint::set`, whose loop over the positions of a block is that of `append`. -/
def setVarintBody : Nat × Nat → Block → Nat → Block × ((Nat × Nat) ⊕ Except Error Nat)
  | (v, n), block, setPos =>
      let r := ByteBuf.varintRun (block.writePos - setPos) v
      (block.copyTo setPos r.1,
        match r.2 with
        | none => .inr (.ok (n + r.1.length))
        | some v => .inl (v, n + r.1.length))

theorem length_forSetBlocks (body : σ → Block → Nat → Block × (σ ⊕ ρ)) (stop : σ → ρ)
    (initPos : Nat) (s : σ) (blocks : List Block) :
    (forSetBlocks body stop initPos s blocks).2.length = blocks.length := by
  induction blocks generalizing initPos s with
  | nil => rfl
  | cons block rest ih =>
      rw [forSetBlocks]
      split
      · exact congrArg (· + 1) (ih 0 s)
      · split
        · rfl
        · exact congrArg (· + 1) (ih 0 _)

namespace ByteBuf

theorem idx_le_take_append (buf : ByteBuf) {k : Nat} {blocks : List Block}
    (hlen : blocks.length = (buf.blocks.drop k).length) :
    buf.idx ≤ (buf.blocks.take k ++ blocks).length := by
  rw [List.length_append, hlen, ← List.length_append, List.take_append_drop]
  exact buf.idx_le

/-- `ByteBuf::set` with a codec whose loop has this body; an index out of bounds is a panic. -/
def setWith (buf : ByteBuf) (index : Nat) (body : σ → Block → Nat → Block × (σ ⊕ ρ))
    (stop : σ → ρ) (s : σ) : Option (ρ × ByteBuf) :=
  match buf.locateIdx index with
  | .error _ => none
  | .ok p =>
      let r := forSetBlocks body stop p.off s (buf.blocks.drop p.idx)
      some (r.1,
        { buf with
          blocks := buf.blocks.take p.idx ++ r.2
          idx_le := buf.idx_le_take_append (length_forSetBlocks body stop p.off s _) })

end ByteBuf

/-- `set` of the module for a value. -/
def Codec.set (codec : Codec) (target : Endian) (v index : Nat) (buf : ByteBuf) :
    Option (Except Error Nat × ByteBuf) :=
  match codec.shape with
  | .byte => buf.setWith index (setByteBody (UInt8.ofNat v)) (fun _ => .error .indexOutOfBounds) ()
  | .fixed size order =>
      buf.setWith index (setBody size) (fun _ => .error .indexOutOfBounds)
        (memoryOf order target size v)
  | .varint _ => buf.setWith index setVarintBody (fun _ => .error .indexOutOfBounds) (v, 0)

def u8s.set (v : List UInt8) (index : Nat) (buf : ByteBuf) : Option (Except Error Nat × ByteBuf) :=
  buf.setWith index (setBody v.length) (fun _ => .error .indexOutOfBounds) v

def u8s.setFill (val : UInt8) (count index : Nat) (buf : ByteBuf) :
    Option (Except Error Nat × ByteBuf) :=
  buf.setWith index (setFillBody val count) (fun _ => .error .indexOutOfBounds) count

/-- A body that keeps a block where it is, with the bytes in it that can be read. -/
structure SetsBytes (body : σ → Block → Nat → Block × (σ ⊕ ρ)) : Prop where
  region : ∀ s block setPos, (body s block setPos).1.region = block.region
  isEmpty : ∀ s block setPos, (body s block setPos).1.isEmpty = block.isEmpty

theorem setsBytes_setBody (result : Nat) : SetsBytes (setBody result) := by
  constructor
  · intro bytes block setPos
    rw [setBody]
    split <;> rfl
  · intro bytes block setPos
    rw [setBody]
    split <;> rfl

theorem setsBytes_setFillBody (val : UInt8) (count : Nat) : SetsBytes (setFillBody val count) := by
  constructor
  · intro n block setPos
    rw [setFillBody]
    split <;> rfl
  · intro n block setPos
    rw [setFillBody]
    split <;> rfl

theorem setsBytes_setByteBody (v : UInt8) : SetsBytes (setByteBody v) :=
  ⟨fun _ _ _ => rfl, fun _ _ _ => rfl⟩

theorem setsBytes_setVarintBody : SetsBytes setVarintBody :=
  ⟨fun _ _ _ => rfl, fun _ _ _ => rfl⟩

theorem forSetBlocks_map {α : Type} {body : σ → Block → Nat → Block × (σ ⊕ ρ)} {stop : σ → ρ}
    {f : Block → α} (h : ∀ s block setPos, f (body s block setPos).1 = f block) (initPos : Nat)
    (s : σ) (blocks : List Block) :
    (forSetBlocks body stop initPos s blocks).2.map f = blocks.map f := by
  induction blocks generalizing initPos s with
  | nil => rfl
  | cons block rest ih =>
      rw [forSetBlocks]
      split
      · exact congrArg (List.cons _) (ih 0 s)
      · have hblock := h s block (block.readPos + initPos)
        split
        · rename_i block' result hbody
          rw [hbody] at hblock
          rw [List.map_cons, List.map_cons, hblock]
        · rename_i block' s' hbody
          rw [hbody] at hblock
          rw [List.map_cons, List.map_cons, hblock, ih]

namespace ByteBuf

theorem keeps_setWith {body : σ → Block → Nat → Block × (σ ⊕ ρ)} (h : SetsBytes body)
    {stop : σ → ρ} {s : σ} {index : Nat} {buf : ByteBuf} {r : ρ × ByteBuf}
    (hset : buf.setWith index body stop s = some r) : Keeps buf r.2 := by
  rw [setWith] at hset
  split at hset
  · cases hset
  · rename_i p _
    cases hset
    have hmap : ∀ {α : Type} {f : Block → α},
        (∀ s block setPos, f (body s block setPos).1 = f block) →
          (buf.blocks.take p.idx ++
            (forSetBlocks body stop p.off s (buf.blocks.drop p.idx)).2).map f =
              buf.blocks.map f := by
      intro α f hf
      rw [List.map_append, forSetBlocks_map hf, ← List.map_append, List.take_append_drop]
    constructor
    · exact hmap h.region
    · intro hclean
      have hempty : ∀ b ∈ (buf.blocks.map Block.isEmpty).take buf.idx, b = true := by
        rw [← List.map_take, List.forall_mem_map]
        exact hclean
      rw [← hmap h.isEmpty, ← List.map_take, List.forall_mem_map] at hempty
      exact hempty

theorem keeps_codec_set {codec : Codec} {target : Endian} {v index : Nat} {buf : ByteBuf}
    {r : Except Error Nat × ByteBuf} (h : codec.set target v index buf = some r) :
    Keeps buf r.2 := by
  rw [Codec.set] at h
  split at h
  · exact keeps_setWith (setsBytes_setByteBody _) h
  · exact keeps_setWith (setsBytes_setBody _) h
  · exact keeps_setWith setsBytes_setVarintBody h

end ByteBuf

end Ruyi.Buf
