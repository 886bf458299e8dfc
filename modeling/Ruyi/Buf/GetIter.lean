import Ruyi.Buf.Cursor
import Ruyi.Buf.Find

namespace Ruyi.Buf

variable {α : Type}

/-- What `GetIter` goes through: the blocks that have bytes to get, each with the offset of the
first of them. -/
def getBlocks : List Block → (initPos : Nat) → List (Block × Nat)
  | [], _ => []
  | block :: rest, initPos =>
      if 0 < initPos then
        if initPos < block.len then (block, initPos) :: getBlocks rest 0 else getBlocks rest 0
      else if block.isEmpty then getBlocks rest 0
      else (block, 0) :: getBlocks rest 0

namespace ByteBuf

/-- `ByteBuf::get`; an index out of bounds is a panic. -/
def get (buf : ByteBuf) (index : Nat) (get : List (Block × Nat) → α) : Except Fault α :=
  match buf.locateIdx index with
  | .error _ => .error .panic
  | .ok p => .ok (get (getBlocks (buf.blocks.drop p.idx) p.off))

def isEmpty (buf : ByteBuf) : Bool := (buf.blocks.drop buf.idx).all Block.isEmpty

end ByteBuf

theorem bytesOf_getBlocks (blocks : List Block) :
    ((getBlocks blocks 0).map fun b => b.1.asBytesFrom b.2).flatten = bytesOf blocks := by
  induction blocks with
  | nil => rfl
  | cons block rest ih =>
      rw [getBlocks, if_neg (Nat.lt_irrefl 0), bytesOf_cons]
      split
      · rename_i hempty
        rw [ih, Block.asBytes_of_isEmpty hempty, List.nil_append]
      · rw [List.map_cons, List.flatten_cons, ih, Block.asBytesFrom_eq, List.drop_zero]

theorem bytesOf_eq_nil_iff {blocks : List Block} :
    bytesOf blocks = [] ↔ blocks.all Block.isEmpty = true := by
  rw [bytesOf, List.flatMap_eq_nil_iff, List.all_eq_true]
  exact forall₂_congr fun block _ => block.asBytes_eq_nil_iff

theorem bytesOf_skipBlocks {n skipped : Nat} {blocks : List Block} (h : skipped ≤ n) :
    bytesOf ((skipBlocks n skipped blocks).2.1.drop (skipBlocks n skipped blocks).2.2) =
      (bytesOf blocks).drop (n - skipped) := by
  induction blocks generalizing skipped with
  | nil => exact List.drop_nil.symm
  | cons block rest ih =>
      have hlen := block.length_asBytes
      rw [skipBlocks, bytesOf_cons]
      dsimp only
      split
      · rename_i hn
        have hcount : block.len - (skipped + block.len - n) = n - skipped := by omega
        rw [List.drop_zero, bytesOf_cons, Block.asBytes_consume, hcount,
          List.drop_append_of_le_length (by omega)]
      · rename_i hn
        have hsub : n - skipped - block.asBytes.length = n - (skipped + block.len) := by omega
        have hnone : block.asBytes.drop (n - skipped) = [] := List.drop_of_length_le (by omega)
        rw [List.drop_succ_cons, ih (by omega), List.drop_append, hnone, List.nil_append, hsub]

theorem bytesOf_emptyBlocks (blocks : List Block) :
    bytesOf (blocks.drop (emptyBlocks blocks)) = bytesOf blocks := by
  conv_rhs => rw [← List.take_append_drop (emptyBlocks blocks) blocks, bytesOf_append]
  have hnil : bytesOf (blocks.take (emptyBlocks blocks)) = [] := by
    rw [bytesOf_eq_nil_iff, List.all_eq_true]
    exact fun block hblock => isEmpty_of_mem_emptyBlocks hblock
  rw [hnil, List.nil_append]

theorem locate_zero {blocks : List Block} {p : Position blocks} (h : locate blocks 0 = .ok p) :
    p.idx = 0 ∧ p.off = 0 := by
  cases blocks with
  | nil => cases h
  | cons block rest =>
      rw [locate, dif_pos (Nat.zero_le _)] at h
      cases h
      exact ⟨rfl, rfl⟩

namespace ByteBuf

variable {buf : ByteBuf}

theorem isEmpty_iff : buf.isEmpty = true ↔ buf.content = [] := bytesOf_eq_nil_iff.symm

theorem content_skip (buf : ByteBuf) (n : Nat) : (buf.skip n).2.content = buf.content.drop n := by
  have hlen : (buf.blocks.take buf.idx).length = buf.idx := by
    rw [List.length_take, Nat.min_eq_left buf.idx_le]
  have hskip : bytesOf ((skipBlocks n 0 (buf.blocks.drop buf.idx)).2.1.drop
      (skipBlocks n 0 (buf.blocks.drop buf.idx)).2.2) = buf.content.drop n :=
    bytesOf_skipBlocks (Nat.zero_le n)
  rw [content, skip, ← List.drop_drop, List.drop_append_of_le_length (Nat.le_of_eq hlen.symm),
    List.drop_of_length_le (Nat.le_of_eq hlen), List.nil_append]
  exact hskip

theorem content_compact (buf : ByteBuf) : buf.compact.content = buf.content := by
  have hdrop : bytesOf (buf.blocks.drop (buf.idx + emptyBlocks (buf.blocks.drop buf.idx))) =
      buf.content := by
    rw [← List.drop_drop, bytesOf_emptyBlocks]
    rfl
  rw [compact]
  split
  · exact hdrop
  · rfl

theorem get_zero (h : buf.content ≠ []) (f : List (Block × Nat) → α) :
    buf.get 0 f = .ok (f (getBlocks (buf.blocks.drop buf.idx) 0)) := by
  have hfound : ∃ p, buf.locateIdx 0 = .ok p ∧ p.idx = buf.idx ∧ p.off = 0 := by
    rw [locateIdx]
    split
    · rename_i left hleft
      have hne : buf.blocks.drop buf.idx ≠ [] := fun hnil => h (congrArg bytesOf hnil)
      obtain ⟨p, hp⟩ := exists_locate hne (Nat.zero_le _)
      rw [hp] at hleft
      cases hleft
    · rename_i p hp
      have hzero : p.idx = 0 ∧ p.off = 0 := locate_zero hp
      exact ⟨_, rfl, by dsimp only; rw [hzero.1, Nat.add_zero], hzero.2⟩
  obtain ⟨p, hp, hidx, hoff⟩ := hfound
  rw [get, hp]
  dsimp only
  rw [hidx, hoff]

end ByteBuf

end Ruyi.Buf
