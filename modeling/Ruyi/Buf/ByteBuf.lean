import Ruyi.Buf.Block

namespace Ruyi.Buf

/-- `buf::Error`. -/
inductive Error where
  | indexOutOfBounds
  | underflow
  deriving DecidableEq, Repr

/-- A chained buffer.  The blocks before `idx` are used up; reading starts at
`blocks[idx]`. -/
structure ByteBuf where
  blocks : List Block
  idx : Nat
  growth : Nat
  idx_le : idx ≤ blocks.length
  deriving DecidableEq

/-- The readable bytes of a chain of blocks. -/
def bytesOf (blocks : List Block) : List UInt8 := blocks.flatMap Block.asBytes

@[simp] theorem bytesOf_nil : bytesOf [] = [] := rfl

@[simp] theorem bytesOf_cons (b : Block) (bs : List Block) :
    bytesOf (b :: bs) = b.asBytes ++ bytesOf bs := by
  simp [bytesOf]

@[simp] theorem bytesOf_append (as bs : List Block) :
    bytesOf (as ++ bs) = bytesOf as ++ bytesOf bs := by
  simp [bytesOf]

theorem bytesOf_reverse_cons (block : Block) (rest : List Block) :
    bytesOf (block :: rest).reverse = bytesOf rest.reverse ++ block.asBytes := by
  rw [List.reverse_cons, bytesOf_append, bytesOf_cons, bytesOf_nil, List.append_nil]

/-- What `locate_idx` finds: a block and an offset into its readable bytes. -/
structure Position (blocks : List Block) where
  idx : Nat
  off : Nat
  idx_lt : idx < blocks.length
  off_le : off ≤ blocks[idx].len

def Position.block {blocks : List Block} (p : Position blocks) : Block :=
  blocks.get ⟨p.idx, p.idx_lt⟩

theorem Position.off_le_len {blocks : List Block} (p : Position blocks) : p.off ≤ p.block.len :=
  p.off_le

/-- The loop of `locate_idx`.  A failure carries what is left of the position
after all blocks have been passed. -/
def locate : (blocks : List Block) → (pos : Nat) → Except Nat (Position blocks)
  | [], pos => .error pos
  | block :: rest, pos =>
      if h : pos ≤ block.len then
        .ok ⟨0, pos, Nat.zero_lt_succ _, h⟩
      else
        match locate rest (pos - block.len) with
        | .error left => .error left
        | .ok p => .ok ⟨p.idx + 1, p.off, Nat.succ_lt_succ p.idx_lt, p.off_le⟩

namespace ByteBuf

def withGrowth (growth : Nat) : ByteBuf where
  blocks := []
  idx := 0
  growth := if growth < 8 then 8 * 1024 else growth
  idx_le := Nat.zero_le _

def new : ByteBuf := withGrowth 0

/-- `From<Vec<u8>>`. -/
def ofVec (shared : Nat) (bytes spare : List UInt8) : ByteBuf where
  blocks := [Block.ofVec shared bytes spare]
  idx := 0
  growth := 8 * 1024
  idx_le := Nat.zero_le _

/-- The unread bytes: those of `blocks[idx..]`. -/
def content (buf : ByteBuf) : List UInt8 := bytesOf (buf.blocks.drop buf.idx)

def len (buf : ByteBuf) : Nat :=
  (buf.blocks.drop buf.idx).foldl (fun len b => len + b.len) 0

def locateIdx (buf : ByteBuf) (pos : Nat) : Except Nat (Position buf.blocks) :=
  match locate (buf.blocks.drop buf.idx) pos with
  | .error left => .error left
  | .ok p =>
      .ok
        { idx := buf.idx + p.idx
          off := p.off
          idx_lt := by
            have := p.idx_lt
            rw [List.length_drop] at this
            omega
          off_le := by simpa using p.off_le }

def extend (buf other : ByteBuf) : ByteBuf where
  blocks := buf.blocks ++ other.blocks.drop other.idx
  idx := buf.idx
  growth := buf.growth
  idx_le := by
    have := buf.idx_le
    rw [List.length_append]
    omega

/-- `split_off`: `buf` keeps the bytes before `pos` and the new buffer, second
in the result, takes the others. -/
def splitOff (buf : ByteBuf) (pos : Nat) : Except Error (ByteBuf × ByteBuf) :=
  match buf.locateIdx pos with
  | .error _ => .error .indexOutOfBounds
  | .ok p =>
      let split := p.block.splitOff p.off p.off_le_len
      let kept := buf.blocks.take p.idx ++ [split.1]
      let rest := buf.blocks.drop (p.idx + 1)
      have hkept : p.idx < kept.length := by
        have := p.idx_lt
        simp only [kept, List.length_append, List.length_take, List.length_singleton]
        omega
      have hidx := buf.idx_le
      have hp := p.idx_lt
      let self : ByteBuf :=
        { blocks := kept
          idx := if p.idx < buf.idx then p.idx else buf.idx
          growth := buf.growth
          idx_le := by split <;> omega }
      if split.2.isEmpty = false ∨ 8 ≤ split.2.appendable then
        .ok (self,
          { blocks := split.2 :: rest
            idx := if p.idx < buf.idx then buf.idx - p.idx else 0
            growth := buf.growth
            idx_le := by
              simp only [rest, List.length_cons, List.length_drop]
              split <;> omega })
      else if hrest : 0 < rest.length then
        -- what is left of the block is dropped
        .ok (self,
          { blocks := rest
            idx := if p.idx < buf.idx then buf.idx - (p.idx + 1) else 0
            growth := buf.growth
            idx_le := by
              simp only [rest, List.length_drop]
              split <;> omega })
      else
        .ok
          ({ blocks := kept
             idx := buf.idx
             growth := buf.growth
             idx_le := by
                simp only [rest, List.length_drop] at hrest
                omega },
            withGrowth buf.growth)

/-- `drain_to`: the drained bytes are returned first, the second component is
what `self` has become. -/
def drainTo (buf : ByteBuf) (pos : Nat) : Except Error (ByteBuf × ByteBuf) :=
  buf.splitOff pos

@[simp] theorem content_withGrowth (growth : Nat) : (withGrowth growth).content = [] := rfl

@[simp] theorem content_new : new.content = [] := rfl

@[simp] theorem content_ofVec (shared : Nat) (bytes spare : List UInt8) :
    (ofVec shared bytes spare).content = bytes := by
  simp [ofVec, content]

theorem foldl_len (blocks : List Block) (start : Nat) :
    blocks.foldl (fun len b => len + b.len) start = start + (bytesOf blocks).length := by
  induction blocks generalizing start with
  | nil => rfl
  | cons b bs ih =>
      rw [List.foldl_cons, ih, bytesOf_cons, List.length_append, Block.length_asBytes]
      omega

theorem len_eq (buf : ByteBuf) : buf.len = buf.content.length := by
  rw [len, foldl_len, content, Nat.zero_add]

theorem content_extend (buf other : ByteBuf) :
    (buf.extend other).content = buf.content ++ other.content := by
  simp only [content, extend]
  rw [List.drop_append_of_le_length buf.idx_le, bytesOf_append]

end ByteBuf

theorem locate_ok {blocks : List Block} {pos : Nat} {p : Position blocks}
    (h : locate blocks pos = .ok p) :
    pos = (bytesOf (blocks.take p.idx)).length + p.off := by
  induction blocks generalizing pos with
  | nil => simp [locate] at h
  | cons block rest ih =>
      rw [locate] at h
      split at h
      · cases h
        simp
      · rename_i hpos
        split at h
        · cases h
        · rename_i q hq
          cases h
          have := ih hq
          simp only [List.take_succ_cons, bytesOf_cons, List.length_append,
            Block.length_asBytes]
          omega

theorem exists_locate {blocks : List Block} {pos : Nat} (hne : blocks ≠ [])
    (hpos : pos ≤ (bytesOf blocks).length) : ∃ p, locate blocks pos = .ok p := by
  induction blocks generalizing pos with
  | nil => exact absurd rfl hne
  | cons block rest ih =>
      rw [locate]
      split
      · exact ⟨_, rfl⟩
      · rename_i hlt
        have hrest : pos - block.len ≤ (bytesOf rest).length := by
          rw [bytesOf_cons, List.length_append, Block.length_asBytes] at hpos
          omega
        have hne' : rest ≠ [] := by
          rintro rfl
          simp only [bytesOf_nil, List.length_nil] at hrest
          omega
        obtain ⟨q, hq⟩ := ih hne' hrest
        rw [hq]
        exact ⟨_, rfl⟩

theorem bytesOf_split {blocks : List Block} (p : Position blocks) :
    bytesOf blocks =
      bytesOf (blocks.take p.idx) ++ p.block.asBytes ++
        bytesOf (blocks.drop (p.idx + 1)) := by
  conv_lhs => rw [← List.take_append_drop p.idx blocks,
    List.drop_eq_getElem_cons p.idx_lt]
  rw [bytesOf_append, bytesOf_cons, List.append_assoc, Position.block, List.get_eq_getElem]

namespace ByteBuf

theorem locateIdx_ok {buf : ByteBuf} {pos : Nat} {p : Position buf.blocks}
    (h : buf.locateIdx pos = .ok p) :
    buf.idx ≤ p.idx ∧
      pos = (bytesOf ((buf.blocks.take p.idx).drop buf.idx)).length + p.off ∧
      buf.content = bytesOf ((buf.blocks.take p.idx).drop buf.idx) ++
        p.block.asBytes ++ bytesOf (buf.blocks.drop (p.idx + 1)) := by
  rw [locateIdx] at h
  split at h
  · cases h
  · rename_i q hq
    cases h
    have htake : (buf.blocks.take (buf.idx + q.idx)).drop buf.idx =
        (buf.blocks.drop buf.idx).take q.idx := by
      rw [List.drop_take, Nat.add_sub_cancel_left]
    refine ⟨Nat.le_add_right _ _, ?_, ?_⟩
    · simpa only [htake] using locate_ok hq
    · have hsplit := bytesOf_split q
      simp only [Position.block, List.get_eq_getElem, List.getElem_drop, List.drop_drop] at hsplit
      rw [content, hsplit, htake]
      rfl

theorem exists_locateIdx {buf : ByteBuf} {pos : Nat} (hidx : buf.idx < buf.blocks.length)
    (hpos : pos ≤ buf.content.length) : ∃ p, buf.locateIdx pos = .ok p := by
  have hne : buf.blocks.drop buf.idx ≠ [] := by
    intro hnil
    have := congrArg List.length hnil
    rw [List.length_drop, List.length_nil] at this
    omega
  obtain ⟨q, hq⟩ := exists_locate hne hpos
  rw [locateIdx, hq]
  exact ⟨_, rfl⟩

/-- `split_off` cuts the content at `pos`, whichever of its three ways out it
takes. -/
theorem splitOff_ok {buf head tail : ByteBuf} {pos : Nat}
    (h : buf.splitOff pos = .ok (head, tail)) :
    pos ≤ buf.content.length ∧ head.content = buf.content.take pos ∧
      tail.content = buf.content.drop pos := by
  rw [splitOff] at h
  split at h
  · cases h
  · rename_i p hp
    obtain ⟨hle, hpos, hcontent⟩ := locateIdx_ok hp
    have hnot : ¬ p.idx < buf.idx := by omega
    have hoff : p.off ≤ p.block.asBytes.length := by
      rw [Block.length_asBytes]
      exact p.off_le_len
    have hkept : bytesOf ((buf.blocks.take p.idx ++ [(p.block.splitOff p.off p.off_le_len).1]).drop
        buf.idx) = buf.content.take pos := by
      have hlen : buf.idx ≤ (buf.blocks.take p.idx).length := by
        have := p.idx_lt
        rw [List.length_take]
        omega
      rw [List.drop_append_of_le_length hlen, bytesOf_append, bytesOf_cons, bytesOf_nil,
        List.append_nil, Block.asBytes_splitOff_fst, hcontent, hpos, List.append_assoc,
        List.take_length_add_append, List.take_append_of_le_length hoff]
    have hrest : (p.block.splitOff p.off p.off_le_len).2.asBytes ++
        bytesOf (buf.blocks.drop (p.idx + 1)) = buf.content.drop pos := by
      rw [Block.asBytes_splitOff_snd, hcontent, hpos, List.append_assoc,
        List.drop_length_add_append, List.drop_append_of_le_length hoff]
    have hle' : pos ≤ buf.content.length := by
      rw [hcontent, hpos]
      simp only [List.length_append]
      omega
    refine ⟨hle', ?_⟩
    simp only [hnot, if_false] at h
    split at h
    · cases h
      exact ⟨hkept, by simpa [content] using hrest⟩
    · rename_i hempty
      have hnil : (p.block.splitOff p.off p.off_le_len).2.asBytes = [] :=
        Block.asBytes_of_isEmpty (by
          rw [not_or] at hempty
          simpa using hempty.1)
      rw [hnil, List.nil_append] at hrest
      split at h
      · cases h
        exact ⟨hkept, by simpa [content] using hrest⟩
      · rename_i hlast
        have hdrop : buf.blocks.drop (p.idx + 1) = [] :=
          List.eq_nil_of_length_eq_zero (by omega)
        rw [hdrop, bytesOf_nil] at hrest
        cases h
        exact ⟨hkept, hrest⟩

theorem exists_splitOff {buf : ByteBuf} {pos : Nat} (hidx : buf.idx < buf.blocks.length)
    (hpos : pos ≤ buf.content.length) :
    ∃ head tail, buf.splitOff pos = .ok (head, tail) := by
  obtain ⟨p, hp⟩ := exists_locateIdx hidx hpos
  rw [splitOff, hp]
  simp only
  split
  · exact ⟨_, _, rfl⟩
  · split
    · exact ⟨_, _, rfl⟩
    · exact ⟨_, _, rfl⟩

theorem splitOff_error {buf : ByteBuf} {pos : Nat} (h : buf.content.length < pos) :
    buf.splitOff pos = .error .indexOutOfBounds := by
  rw [splitOff]
  split
  · rfl
  · rename_i p hp
    obtain ⟨-, hpos, hcontent⟩ := locateIdx_ok hp
    have hoff := p.off_le_len
    rw [hcontent] at h
    simp only [List.length_append, Block.length_asBytes] at h
    omega

end ByteBuf

end Ruyi.Buf
