import Ruyi.Buf.Codec

namespace Ruyi.Buf

variable {σ ρ : Type}

namespace ByteBuf

/-- `append_block`; `allocs` are the sizes of the allocations made so far. -/
def appendBlock (buf : ByteBuf) (allocs : List Nat) (minCapacity : Nat) : ByteBuf × List Nat :=
  let cap := if minCapacity ≤ buf.growth then buf.growth else minCapacity
  ({ buf with
      blocks := buf.blocks ++ [Block.withCapacity allocs.length cap]
      idx_le := by
        have := buf.idx_le
        rw [List.length_append]
        omega },
    allocs ++ [cap])

/-- What a caller of `last_mut` has made of the last block. -/
def setLast (buf : ByteBuf) (block : Block) : ByteBuf :=
  { buf with
    blocks := buf.blocks.dropLast ++ [block]
    idx_le := by
      have := buf.idx_le
      rw [List.length_append, List.length_dropLast, List.length_singleton]
      omega }

theorem blocks_appendBlock (buf : ByteBuf) (allocs : List Nat) (minCapacity : Nat) :
    (buf.appendBlock allocs minCapacity).1.blocks = buf.blocks ++ [Block.withCapacity allocs.length
      (if minCapacity ≤ buf.growth then buf.growth else minCapacity)] := rfl

theorem blocks_setLast {buf : ByteBuf} {init : List Block} {last : Block} (block : Block)
    (h : buf.blocks = init ++ [last]) : (buf.setLast block).blocks = init ++ [block] := by
  show buf.blocks.dropLast ++ [block] = init ++ [block]
  rw [h, List.dropLast_concat]

/-- The loop of `append` and of `Writer::write`: `body` is what is done with the last block, and
either returns or goes on with a new one. -/
def appendLoop (body : σ → Block → Block × (σ ⊕ ρ)) :
    Nat → σ → ByteBuf → List Nat → Option (ρ × ByteBuf × List Nat)
  | 0, _, _, _ => none
  | fuel + 1, s, buf, allocs =>
      match buf.blocks.getLast? with
      | none =>
          let r := buf.appendBlock allocs 0
          appendLoop body fuel s r.1 r.2
      | some block =>
          match body s block with
          | (block, .inr result) => some (result, buf.setLast block, allocs)
          | (block, .inl s) =>
              let r := (buf.setLast block).appendBlock allocs 0
              appendLoop body fuel s r.1 r.2

/-- The body of `u8s::append`, of the fixed-width codecs and of `Writer::write`; the state is
what is left of the bytes. -/
def appendBody (result : Nat) (bytes : List UInt8) (block : Block) :
    Block × (List UInt8 ⊕ Nat) :=
  if bytes.length ≤ block.appendable then (block.append bytes, .inr result)
  else (block.append (bytes.take block.appendable), .inl (bytes.drop block.appendable))

/-- The body of `u8s::append_fill`. -/
def appendFillBody (val : UInt8) (count n : Nat) (block : Block) : Block × (Nat ⊕ Nat) :=
  if n ≤ block.appendable then (block.append (List.replicate n val), .inr count)
  else
    (block.append (List.replicate block.appendable val), .inl (n - block.appendable))

/-- The body of `u8::append`. -/
def appendByteBody (v : UInt8) (_ : Unit) (block : Block) : Block × (Unit ⊕ Nat) :=
  if 0 < block.appendable then (block.append [v], .inr 1) else (block, .inl ())

/-- The loop over the positions of a block in `varint::append`: the bytes written, and what is
left of the number when there is no room for more. -/
def varintRun : (room : Nat) → (v : Nat) → List UInt8 × Option Nat
  | 0, v => ([], some v)
  | room + 1, v =>
      if v >>> 7 = 0 then ([UInt8.ofNat v], none)
      else
        let r := varintRun room (v >>> 7)
        (UInt8.ofNat (v ||| 0x80) :: r.1, r.2)

/-- The body of `varint::append`, which counts the bytes. -/
def appendVarintBody : Nat × Nat → Block → Block × ((Nat × Nat) ⊕ Nat)
  | (v, n), block =>
      let r := varintRun block.appendable v
      (block.append r.1,
        match r.2 with
        | none => .inr (n + r.1.length)
        | some v => .inl (v, n + r.1.length))

/-- `append_bytes`, for a vector whose elements are `bytes` and which has room for `spare`. -/
def appendVec (buf : ByteBuf) (allocs : List Nat) (bytes spare : List UInt8) :
    ByteBuf × List Nat :=
  let block := Block.ofVec allocs.length bytes spare
  let allocs := allocs ++ [bytes.length + spare.length]
  match buf.blocks.getLast? with
  | some last =>
      if spare.length + 512 ≤ last.appendable then
        let split := last.splitOff last.len (Nat.le_refl _)
        let kept := buf.setLast split.1
        ({ kept with
            blocks := kept.blocks ++ [block, split.2]
            idx_le := Nat.le_trans kept.idx_le (by simp) },
          allocs)
      else
        ({ buf with
            blocks := buf.blocks ++ [block]
            idx_le := Nat.le_trans buf.idx_le (by simp) },
          allocs)
  | none =>
      ({ buf with
          blocks := buf.blocks ++ [block]
          idx_le := Nat.le_trans buf.idx_le (by simp) },
        allocs)

/-- A body that writes the bytes `left s`, as many as fit, and returns when all are written. -/
structure WritesLeft (body : σ → Block → Block × (σ ⊕ ρ)) (left : σ → List UInt8)
    (result : σ → ρ) : Prop where
  fits : ∀ s block, (left s).length ≤ block.appendable →
    body s block = (block.append (left s), .inr (result s))
  spills : ∀ s block, block.appendable < (left s).length →
    ∃ s', body s block = (block.append (left s), .inl s') ∧
      left s' = (left s).drop block.appendable ∧ result s' = result s

theorem writesLeft_appendBody (result : Nat) :
    WritesLeft (appendBody result) id fun _ => result := by
  constructor
  · intro bytes block hfits
    exact if_pos hfits
  · intro bytes block hspills
    have hnot : ¬ bytes.length ≤ block.appendable := Nat.not_le.mpr hspills
    refine ⟨_, ?_, rfl, rfl⟩
    rw [appendBody, if_neg hnot, Block.append_take]
    rfl

theorem writesLeft_appendFillBody (val : UInt8) (count : Nat) :
    WritesLeft (appendFillBody val count) (List.replicate · val) fun _ => count := by
  constructor
  · intro n block hfits
    rw [List.length_replicate] at hfits
    exact if_pos hfits
  · intro n block hspills
    rw [List.length_replicate] at hspills
    refine ⟨n - block.appendable, ?_, ?_, rfl⟩
    · have htake : (List.replicate n val).take block.appendable =
          List.replicate block.appendable val := by
        rw [List.take_replicate, Nat.min_eq_left (Nat.le_of_lt hspills)]
      rw [appendFillBody, if_neg (Nat.not_le.mpr hspills), ← htake, Block.append_take]
    · rw [List.drop_replicate]

theorem writesLeft_appendByteBody (v : UInt8) :
    WritesLeft (appendByteBody v) (fun _ => [v]) fun _ => 1 := by
  constructor
  · intro s block hfits
    exact if_pos hfits
  · intro s block hspills
    have hfull : block.appendable = 0 := Nat.lt_one_iff.mp hspills
    refine ⟨(), ?_, ?_, rfl⟩
    · rw [appendByteBody, if_neg (Nat.not_lt.mpr (Nat.le_of_eq hfull)), Block.append_of_full hfull]
    · rw [hfull, List.drop_zero]

theorem varintRun_eq (room v : Nat) :
    (varintRun room v).1 = (varint v).take room ∧
      match (varintRun room v).2 with
      | none => (varint v).length ≤ room
      | some v' => room < (varint v).length ∧ varint v' = (varint v).drop room := by
  induction room generalizing v with
  | zero => exact ⟨rfl, List.length_pos_of_ne_nil (varint_ne_nil v), rfl⟩
  | succ room ih =>
      rw [varintRun]
      split
      · rename_i hzero
        rw [varint_of_zero hzero, List.take_succ_cons, List.take_nil]
        exact ⟨rfl, Nat.succ_le_succ (Nat.zero_le _)⟩
      · rename_i hne
        obtain ⟨htake, hleft⟩ := ih (v >>> 7)
        rw [varint_of_ne hne]
        dsimp only
        rw [htake, List.take_succ_cons]
        refine ⟨rfl, ?_⟩
        split
        · rename_i hnone
          rw [hnone] at hleft
          exact Nat.succ_le_succ hleft
        · rename_i v' hsome
          rw [hsome] at hleft
          exact ⟨Nat.succ_lt_succ hleft.1, hleft.2⟩

theorem writesLeft_appendVarintBody :
    WritesLeft appendVarintBody (fun s => varint s.1) fun s => s.2 + (varint s.1).length := by
  constructor
  · rintro ⟨v, n⟩ block hfits
    obtain ⟨htake, hleft⟩ := varintRun_eq block.appendable v
    rw [appendVarintBody, htake, Block.append_take]
    split at hleft
    · rw [List.take_of_length_le hfits]
    · exact absurd hleft.1 (Nat.not_lt.mpr hfits)
  · rintro ⟨v, n⟩ block hspills
    obtain ⟨htake, hleft⟩ := varintRun_eq block.appendable v
    rw [appendVarintBody, htake, Block.append_take]
    split at hleft
    · exact absurd hspills (Nat.not_lt.mpr hleft)
    · refine ⟨_, rfl, hleft.2, ?_⟩
      dsimp only at hspills ⊢
      rw [hleft.2, List.length_take, List.length_drop]
      omega

/-- All these loops do what the one over the bytes does. -/
theorem appendLoop_eq {body : σ → Block → Block × (σ ⊕ ρ)} {left : σ → List UInt8}
    {result : σ → ρ} (h : WritesLeft body left result) (fuel : Nat) (s : σ) (buf : ByteBuf)
    (allocs : List Nat) :
    appendLoop body fuel s buf allocs =
      (appendLoop (appendBody 0) fuel (left s) buf allocs).map fun r => (result s, r.2) := by
  induction fuel generalizing s buf allocs with
  | zero => rfl
  | succ fuel ih =>
      rw [appendLoop, appendLoop]
      split
      · exact ih s _ _
      · rename_i block _
        rcases Nat.lt_or_ge block.appendable (left s).length with hspills | hfits
        · obtain ⟨s', hbody, hleft, hresult⟩ := h.spills s block hspills
          obtain ⟨_, hcopy, rfl, -⟩ := (writesLeft_appendBody 0).spills (left s) block hspills
          rw [hbody, hcopy]
          dsimp only
          rw [ih, hleft, hresult]
          rfl
        · rw [h.fits s block hfits, (writesLeft_appendBody 0).fits (left s) block hfits]
          rfl

/-- The room behind the last byte written. -/
def room (blocks : List Block) : Nat :=
  match blocks.getLast? with
  | none => 0
  | some last => last.appendable

/-- The blocks after as many bytes are written as there is room for. -/
def fillLast (blocks : List Block) (bytes : List UInt8) : List Block :=
  match blocks.getLast? with
  | none => blocks
  | some last => blocks.dropLast ++ [last.append bytes]

theorem room_concat (init : List Block) (last : Block) :
    room (init ++ [last]) = last.appendable := by
  rw [room, List.getLast?_concat]

theorem fillLast_concat (init : List Block) (last : Block) (bytes : List UInt8) :
    fillLast (init ++ [last]) bytes = init ++ [last.append bytes] := by
  rw [fillLast, List.getLast?_concat]
  dsimp only
  rw [List.dropLast_concat]

theorem length_fillLast (blocks : List Block) (bytes : List UInt8) :
    (fillLast blocks bytes).length = blocks.length := by
  rcases List.eq_nil_or_concat blocks with rfl | ⟨init, last, rfl⟩
  · rfl
  · rw [List.concat_eq_append, fillLast_concat, List.length_append, List.length_append]
    rfl

theorem fillLast_appendBlock (buf : ByteBuf) (allocs : List Nat) (bytes : List UInt8) :
    ∃ block, fillLast (buf.appendBlock allocs 0).1.blocks bytes = buf.blocks ++ [block] ∧
      block.asBytes ++ bytes.drop (room (buf.appendBlock allocs 0).1.blocks) = bytes := by
  rw [blocks_appendBlock, fillLast_concat, room_concat]
  refine ⟨_, rfl, ?_⟩
  rw [Block.asBytes_append, Block.asBytes_withCapacity, List.nil_append]
  exact List.take_append_drop _ _

theorem appendLoop_some {fuel n result : Nat} {bytes : List UInt8} {buf buf' : ByteBuf}
    {allocs allocs' : List Nat}
    (h : appendLoop (appendBody result) fuel bytes buf allocs = some (n, buf', allocs')) :
    n = result ∧ buf'.idx = buf.idx ∧ buf'.growth = buf.growth ∧
      ∃ new, buf'.blocks = fillLast buf.blocks bytes ++ new ∧
        bytesOf new = bytes.drop (room buf.blocks) := by
  induction fuel generalizing bytes buf allocs with
  | zero => cases h
  | succ fuel ih =>
      rw [appendLoop] at h
      rcases List.eq_nil_or_concat buf.blocks with hnil | ⟨init, last, hconcat⟩
      · rw [hnil] at h ⊢
        obtain ⟨hn, hidx, hgrowth, new, hblocks, hnew⟩ := ih h
        obtain ⟨block, hfill, hbytes⟩ := fillLast_appendBlock buf allocs bytes
        refine ⟨hn, hidx, hgrowth, block :: new, ?_, ?_⟩
        · rw [hblocks, hfill, hnil]
          rfl
        · rw [bytesOf_cons, hnew, hbytes]
          rfl
      · rw [List.concat_eq_append] at hconcat
        rw [hconcat, List.getLast?_concat] at h
        rw [hconcat, room_concat, fillLast_concat]
        dsimp only at h
        rcases Nat.lt_or_ge last.appendable bytes.length with hspills | hfits
        · obtain ⟨_, hbody, rfl, -⟩ := (writesLeft_appendBody result).spills bytes last hspills
          rw [hbody] at h
          dsimp only [id] at h
          obtain ⟨hn, hidx, hgrowth, new, hblocks, hnew⟩ := ih h
          obtain ⟨block, hfill, hbytes⟩ := fillLast_appendBlock
            (buf.setLast (last.append bytes)) allocs (bytes.drop last.appendable)
          refine ⟨hn, hidx, hgrowth, block :: new, ?_, ?_⟩
          · rw [hblocks, hfill, blocks_setLast _ hconcat, List.append_assoc]
            rfl
          · rw [bytesOf_cons, hnew, hbytes]
        · rw [(writesLeft_appendBody result).fits bytes last hfits] at h
          cases h
          refine ⟨rfl, rfl, rfl, [], ?_, ?_⟩
          · rw [blocks_setLast _ hconcat, List.append_nil]
            rfl
          · rw [List.drop_of_length_le hfits]
            rfl

theorem exists_appendLoop {fuel result : Nat} {bytes : List UInt8} {buf : ByteBuf}
    {allocs : List Nat} (hgrowth : 0 < buf.growth)
    (hfuel : bytes.length + (if room buf.blocks = 0 then 2 else 1) ≤ fuel) :
    ∃ r, appendLoop (appendBody result) fuel bytes buf allocs = some r := by
  induction fuel generalizing bytes buf allocs with
  | zero => split at hfuel <;> omega
  | succ fuel ih =>
      have hroom : ∀ buf₁ : ByteBuf, buf₁.growth = buf.growth →
          room (buf₁.appendBlock allocs 0).1.blocks ≠ 0 := by
        intro buf₁ hsame
        rw [blocks_appendBlock, room_concat, if_pos (Nat.zero_le _), hsame]
        exact Nat.ne_of_gt hgrowth
      rw [appendLoop]
      rcases List.eq_nil_or_concat buf.blocks with hnil | ⟨init, last, hconcat⟩
      · rw [hnil] at hfuel ⊢
        refine ih hgrowth ?_
        rw [if_neg (hroom buf rfl)]
        exact Nat.le_of_succ_le_succ hfuel
      · rw [List.concat_eq_append] at hconcat
        rw [hconcat, room_concat] at hfuel
        rw [hconcat, List.getLast?_concat]
        dsimp only
        rcases Nat.lt_or_ge last.appendable bytes.length with hspills | hfits
        · obtain ⟨_, hbody, rfl, -⟩ := (writesLeft_appendBody result).spills bytes last hspills
          rw [hbody]
          refine ih hgrowth ?_
          rw [if_neg (hroom (buf.setLast _) rfl), id, List.length_drop]
          split at hfuel <;> omega
        · rw [(writesLeft_appendBody result).fits bytes last hfits]
          exact ⟨_, rfl⟩

end ByteBuf

end Ruyi.Buf
