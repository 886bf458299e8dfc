import Ruyi.Buf.Appending
import Ruyi.Buf.Prepend

namespace Ruyi.Buf

variable {σ ρ : Type}

/-- The body of `u8::read`. -/
def readByteBody (_ : Unit) (block : Block) : Block × (Unit ⊕ Except Error Nat) :=
  (block.consume 1, .inr (.ok (block.asBytes.headD 0).toNat))

/-- The loop over the positions of a block in `varint::read`, with the value of `bits` bits read
so far and the shift of the next group: the value and the number of bytes read if it ends here. -/
def varintScan (bits : Nat) : (bytes : List UInt8) → (v shift n : Nat) → (Nat × Nat) ⊕ (Nat × Nat)
  | [], v, shift, _ => .inl (v, shift)
  | b :: bytes, v, shift, n =>
      let v := v ||| ((b.toNat &&& 0x7F) <<< (shift % bits)) % 2 ^ bits
      if b.toNat >>> 7 = 0 then .inr (v, n + 1)
      else varintScan bits bytes v ((shift + 7) % 2 ^ 32) (n + 1)

/-- The body of `varint::read`. -/
def readVarintBody (bits : Nat) :
    Nat × Nat → Block → Block × ((Nat × Nat) ⊕ Except Error Nat)
  | (v, shift), block =>
      match varintScan bits block.asBytes v shift 0 with
      | .inl s => (block.consume block.len, .inl s)
      | .inr (v, n) => (block.consume n, .inr (.ok v))

/-- The body of `u8s::read_exact` and of `Reader::read`: `n` bytes are still missing from `dst`. -/
def readBytesBody (result : List UInt8 → ρ) :
    Nat × List UInt8 → Block → Block × ((Nat × List UInt8) ⊕ ρ)
  | (n, dst), block =>
      if n ≤ block.len then (block.consume n, .inr (result (dst ++ block.asBytes.take n)))
      else (block.consume block.len, .inl (n - block.len, dst ++ block.asBytes))

/-- `read` of the module for a value. -/
def Codec.read (codec : Codec) (target : Endian) (buf : ByteBuf) : Except Error Nat × ByteBuf :=
  match codec.shape with
  | .byte => buf.readWith readByteBody (fun _ => .error .underflow) ()
  | .fixed size order => readFixed size order target buf
  | .varint bits => buf.readWith (readVarintBody bits) (fun _ => .error .underflow) (0, 0)

def u8s.readExact (n : Nat) (buf : ByteBuf) : Except Error (List UInt8) × ByteBuf :=
  if n = 0 then (.ok [], buf)
  else buf.readWith (readBytesBody .ok) (fun _ => .error .underflow) (n, [])

def u8s.read (buf : ByteBuf) : Except Error (List UInt8) × ByteBuf :=
  u8s.readExact buf.len buf

/-- `Reader::read` into a buffer of `n` bytes: the bytes it has read. -/
def Reader.read (n : Nat) (buf : ByteBuf) : List UInt8 × ByteBuf :=
  buf.readWith (readBytesBody id) Prod.snd (n, [])

/-- The loop of `skip` over the blocks from `idx` on; the last component says by how much `idx`
has moved. -/
def skipBlocks (n : Nat) : (skipped : Nat) → List Block → Nat × List Block × Nat
  | skipped, [] => (skipped, [], 0)
  | skipped, block :: rest =>
      let skipped := skipped + block.len
      if n ≤ skipped then (n, block.consume (block.len - (skipped - n)) :: rest, 0)
      else
        let r := skipBlocks n skipped rest
        (r.1, block.consume block.len :: r.2.1, r.2.2 + 1)

/-- The number of empty blocks at the head of a chain. -/
def emptyBlocks : List Block → Nat
  | [] => 0
  | block :: rest => if block.isEmpty then emptyBlocks rest + 1 else 0

theorem length_skipBlocks (n skipped : Nat) (blocks : List Block) :
    (skipBlocks n skipped blocks).2.2 ≤ (skipBlocks n skipped blocks).2.1.length := by
  induction blocks generalizing skipped with
  | nil => exact Nat.le_refl _
  | cons block rest ih =>
      rw [skipBlocks]
      dsimp only
      split
      · exact Nat.zero_le _
      · exact Nat.succ_le_succ (ih _)

theorem emptyBlocks_le (blocks : List Block) : emptyBlocks blocks ≤ blocks.length := by
  induction blocks with
  | nil => exact Nat.le_refl _
  | cons block rest ih =>
      rw [emptyBlocks]
      split
      · exact Nat.succ_le_succ ih
      · exact Nat.zero_le _

theorem isEmpty_of_mem_emptyBlocks {blocks : List Block} {block : Block}
    (h : block ∈ blocks.take (emptyBlocks blocks)) : block.isEmpty = true := by
  induction blocks with
  | nil => cases h
  | cons first rest ih =>
      rw [emptyBlocks] at h
      split at h
      · rename_i hempty
        rcases List.mem_cons.mp h with rfl | h
        · exact hempty
        · exact ih h
      · cases h

theorem Block.reserved_le (b : Block) (len : Nat) :
    (if b.cap < len then b.cap else len) ≤ b.cap := by
  split <;> omega

namespace ByteBuf

def withCapacity (allocs : List Nat) (capacity : Nat) : ByteBuf × List Nat :=
  let cap := if capacity = 0 then 8 * 1024 else capacity
  ({ blocks := [Block.withCapacity allocs.length cap]
     idx := 0
     growth := cap
     idx_le := Nat.zero_le _ },
    allocs ++ [cap])

def setGrowth (buf : ByteBuf) (growth : Nat) : ByteBuf := { buf with growth := growth }

def skip (buf : ByteBuf) (n : Nat) : Nat × ByteBuf :=
  let r := skipBlocks n 0 (buf.blocks.drop buf.idx)
  (r.1,
    { blocks := buf.blocks.take buf.idx ++ r.2.1
      idx := buf.idx + r.2.2
      growth := buf.growth
      idx_le := by
        have : r.2.2 ≤ r.2.1.length := length_skipBlocks n 0 _
        have := buf.idx_le
        simp only [List.length_append, List.length_take]
        omega })

def tryReserveInHead (buf : ByteBuf) (len : Nat) : Nat × ByteBuf :=
  match buf.blocks.head? with
  | none => (0, buf)
  | some first =>
      if first.isEmpty then
        let reserved := if first.cap < len then first.cap else len
        (reserved,
          { buf with
            blocks := first.moveTo reserved (first.reserved_le len) :: buf.blocks.tail
            idx_le := buf.idx_le_cons_tail _ })
      else (first.readPos, buf)

def reserve (buf : ByteBuf) (allocs : List Nat) (additional : Nat) : ByteBuf × List Nat :=
  let appendable := room buf.blocks
  if appendable < additional then buf.appendBlock allocs (additional - appendable)
  else (buf, allocs)

/-- `compact`, which drops the blocks before the first that has bytes to read. -/
def compact (buf : ByteBuf) : ByteBuf :=
  let idx := buf.idx + emptyBlocks (buf.blocks.drop buf.idx)
  if 0 < idx then
    { buf with
      blocks := buf.blocks.drop idx
      idx := 0
      idx_le := Nat.zero_le _ }
  else buf

end ByteBuf

/-- `Reader::next`: the first block that has bytes to read, behind the empty ones. -/
def Reader.next (buf : ByteBuf) : Option Block × ByteBuf :=
  let moved := emptyBlocks (buf.blocks.drop buf.idx)
  (buf.blocks[buf.idx + moved]?,
    { buf with
      idx := buf.idx + moved
      idx_le := by
        have : moved ≤ (buf.blocks.drop buf.idx).length := emptyBlocks_le _
        have := buf.idx_le
        rw [List.length_drop] at *
        omega })

/-- A body that keeps a block where it is, and goes on to the next one when the block is used
up. -/
structure UsesUp (body : σ → Block → Block × (σ ⊕ ρ)) : Prop where
  region : ∀ s block, (body s block).1.region = block.region
  empty : ∀ s block s', (body s block).2 = .inl s' → (body s block).1.isEmpty = true

theorem usesUp_readBody (size : Nat) (order target : Endian) :
    UsesUp (readBody size order target) := by
  constructor
  · rintro ⟨n, dst⟩ block
    rw [readBody]
    split <;> rfl
  · rintro ⟨n, dst⟩ block s' h
    rw [readBody] at h ⊢
    split at h
    · cases h
    · rename_i hlt
      rw [dif_neg hlt]
      exact block.isEmpty_setReadPos_writePos

theorem usesUp_readByteBody : UsesUp readByteBody := ⟨fun _ _ => rfl, fun _ _ _ h => by cases h⟩

theorem usesUp_readVarintBody (bits : Nat) : UsesUp (readVarintBody bits) := by
  constructor
  · rintro ⟨v, shift⟩ block
    rw [readVarintBody]
    split <;> rfl
  · rintro ⟨v, shift⟩ block s' h
    rw [readVarintBody] at h ⊢
    split at h
    · exact block.isEmpty_consume_len
    · cases h

theorem usesUp_readBytesBody (result : List UInt8 → ρ) : UsesUp (readBytesBody result) := by
  constructor
  · rintro ⟨n, dst⟩ block
    rw [readBytesBody]
    split <;> rfl
  · rintro ⟨n, dst⟩ block s' h
    rw [readBytesBody] at h ⊢
    split at h
    · cases h
    · rename_i hlt
      rw [if_neg hlt]
      exact block.isEmpty_consume_len

theorem forBlocks_usesUp {body : σ → Block → Block × (σ ⊕ ρ)} (h : UsesUp body)
    (stop : σ → ρ) (s : σ) (blocks : List Block) :
    (forBlocks body stop s blocks).2.1.map Block.region = blocks.map Block.region ∧
      ∀ block ∈ (forBlocks body stop s blocks).2.1.take (forBlocks body stop s blocks).2.2,
        block.isEmpty = true := by
  induction blocks generalizing s with
  | nil => exact ⟨rfl, by simp [forBlocks]⟩
  | cons block rest ih =>
      rw [forBlocks]
      split
      · rename_i hempty
        obtain ⟨hregions, hpassed⟩ := ih s
        refine ⟨congrArg (List.cons _) hregions, ?_⟩
        exact List.forall_mem_cons.mpr ⟨hempty, hpassed⟩
      · have hregion := h.region s block
        split
        · rename_i block' result hbody
          rw [hbody] at hregion
          refine ⟨?_, by simp⟩
          rw [List.map_cons, List.map_cons, hregion]
        · rename_i block' s' hbody
          have hempty := h.empty s block s' (by rw [hbody])
          rw [hbody] at hregion hempty
          obtain ⟨hregions, hpassed⟩ := ih s'
          refine ⟨?_, List.forall_mem_cons.mpr ⟨hempty, hpassed⟩⟩
          rw [List.map_cons, List.map_cons, hregion, hregions]

theorem skipBlocks_passed (n skipped : Nat) (blocks : List Block) :
    (skipBlocks n skipped blocks).2.1.map Block.region = blocks.map Block.region ∧
      ∀ block ∈ (skipBlocks n skipped blocks).2.1.take (skipBlocks n skipped blocks).2.2,
        block.isEmpty = true := by
  induction blocks generalizing skipped with
  | nil => exact ⟨rfl, by simp [skipBlocks]⟩
  | cons block rest ih =>
      rw [skipBlocks]
      dsimp only
      split
      · exact ⟨rfl, by simp⟩
      · obtain ⟨hregions, hpassed⟩ := ih (skipped + block.len)
        refine ⟨congrArg (List.cons _) hregions, ?_⟩
        exact List.forall_mem_cons.mpr ⟨block.isEmpty_consume_len, hpassed⟩

namespace ByteBuf

/-- A call that moves no block, and hides no bytes. -/
structure Keeps (buf buf' : ByteBuf) : Prop where
  regions : buf'.regions = buf.regions
  clean : buf.Clean → buf'.Clean

variable {buf buf' : ByteBuf}

theorem keeps_refl (buf : ByteBuf) : Keeps buf buf := ⟨rfl, id⟩

theorem keeps_of_drop {blocks : List Block} {moved : Nat}
    (hblocks : buf'.blocks = buf.blocks.take buf.idx ++ blocks) (hidx : buf'.idx = buf.idx + moved)
    (hregions : blocks.map Block.region = (buf.blocks.drop buf.idx).map Block.region)
    (hpassed : ∀ block ∈ blocks.take moved, block.isEmpty = true) : Keeps buf buf' := by
  have hlen : (buf.blocks.take buf.idx).length = buf.idx := by
    rw [List.length_take, Nat.min_eq_left buf.idx_le]
  constructor
  · rw [ByteBuf.regions, ByteBuf.regions, hblocks, List.map_append, hregions, ← List.map_append,
      List.take_append_drop]
  · intro hclean block hmem
    rw [passed, hblocks, hidx, List.take_append, hlen, Nat.add_sub_cancel_left,
      List.take_of_length_le (by rw [hlen]; exact Nat.le_add_right _ _)] at hmem
    rcases List.mem_append.mp hmem with hmem | hmem
    · exact hclean block hmem
    · exact hpassed block hmem

theorem keeps_readWith {body : σ → Block → Block × (σ ⊕ ρ)} (h : UsesUp body) (stop : σ → ρ)
    (s : σ) (buf : ByteBuf) : Keeps buf (buf.readWith body stop s).2 := by
  obtain ⟨hregions, hpassed⟩ := forBlocks_usesUp h stop s (buf.blocks.drop buf.idx)
  exact keeps_of_drop rfl rfl hregions hpassed

theorem keeps_skip (buf : ByteBuf) (n : Nat) : Keeps buf (buf.skip n).2 := by
  obtain ⟨hregions, hpassed⟩ := skipBlocks_passed n 0 (buf.blocks.drop buf.idx)
  exact keeps_of_drop rfl rfl hregions hpassed

theorem keeps_codec_read (codec : Codec) (target : Endian) (buf : ByteBuf) :
    Keeps buf (codec.read target buf).2 := by
  rw [Codec.read]
  split
  · exact keeps_readWith usesUp_readByteBody _ _ _
  · exact keeps_readWith (usesUp_readBody _ _ _) _ _ _
  · exact keeps_readWith (usesUp_readVarintBody _) _ _ _

theorem keeps_readExact (n : Nat) (buf : ByteBuf) : Keeps buf (u8s.readExact n buf).2 := by
  rw [u8s.readExact]
  split
  · exact keeps_refl buf
  · exact keeps_readWith (usesUp_readBytesBody _) _ _ _

theorem keeps_reader_read (n : Nat) (buf : ByteBuf) : Keeps buf (Reader.read n buf).2 :=
  keeps_readWith (usesUp_readBytesBody _) _ _ _

theorem keeps_reader_next (buf : ByteBuf) : Keeps buf (Reader.next buf).2 := by
  refine keeps_of_drop (List.take_append_drop _ _).symm rfl rfl ?_
  exact fun _ => isEmpty_of_mem_emptyBlocks

theorem keeps_tryReserveInHead (buf : ByteBuf) (len : Nat) :
    Keeps buf (buf.tryReserveInHead len).2 := by
  rw [tryReserveInHead]
  split
  · exact keeps_refl buf
  · rename_i first hfirst
    obtain ⟨rest, hblocks⟩ := List.head?_eq_some_iff.mp hfirst
    split
    · constructor
      · simp only [ByteBuf.regions, hblocks, List.map_cons, Block.region_moveTo, List.tail_cons]
      · intro hclean block hmem
        simp only [passed, hblocks, List.tail_cons] at hmem
        rcases hidx : buf.idx with _ | k
        · rw [hidx] at hmem
          cases hmem
        · rw [hidx, List.take_succ_cons] at hmem
          rcases List.mem_cons.mp hmem with rfl | hmem
          · exact Block.isEmpty_moveTo _ _ _
          · refine hclean block ?_
            rw [passed, hblocks, hidx, List.take_succ_cons]
            exact List.mem_cons_of_mem _ hmem
    · exact keeps_refl buf

theorem clean_appendBlock {allocs : List Nat} (minCapacity : Nat) (h : buf.Clean) :
    (buf.appendBlock allocs minCapacity).1.Clean := by
  rw [Clean, passed, blocks_appendBlock]
  show ∀ block ∈ (buf.blocks ++ _).take buf.idx, _
  rw [List.take_append_of_le_length buf.idx_le]
  exact h

theorem clean_reserve {allocs : List Nat} (additional : Nat) (h : buf.Clean) :
    (buf.reserve allocs additional).1.Clean := by
  rw [reserve]
  split
  · exact clean_appendBlock _ h
  · exact h

theorem reshapes_reserve (buf : ByteBuf) (allocs : List Nat) (additional : Nat) :
    Base.Reshapes allocs buf.regions (buf.reserve allocs additional).2
      (buf.reserve allocs additional).1.regions := by
  rw [reserve]
  split
  · exact reshapes_appendBlock buf allocs _
  · exact .refl _ _

theorem compact_cases (buf : ByteBuf) :
    buf.compact = buf ∨ buf.compact.idx = 0 ∧ buf.compact.blocks.Sublist buf.blocks := by
  rw [compact]
  split
  · exact .inr ⟨rfl, List.drop_sublist _ _⟩
  · exact .inl rfl

end ByteBuf

end Ruyi.Buf
