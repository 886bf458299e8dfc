import Ruyi.Buf.ByteBuf

namespace Ruyi.Buf

variable {σ ρ : Type}

/-- The loop `for mut block in chain { .. }` of a read codec over the blocks
from `idx` on.  `ReadIter::next` passes over empty blocks; `body` either
returns from the loop or uses the block up and goes on, so that the following
`next` passes over this block too.  The last component of the result says by
how much `idx` has moved. -/
def forBlocks (body : σ → Block → Block × (σ ⊕ ρ)) (stop : σ → ρ) :
    σ → List Block → ρ × List Block × Nat
  | s, [] => (stop s, [], 0)
  | s, block :: rest =>
      if block.isEmpty then
        let r := forBlocks body stop s rest
        (r.1, block :: r.2.1, r.2.2 + 1)
      else
        match body s block with
        | (block', .inr result) => (result, block' :: rest, 0)
        | (block', .inl s') =>
            let r := forBlocks body stop s' rest
            (r.1, block' :: r.2.1, r.2.2 + 1)

theorem forBlocks_moved_le (body : σ → Block → Block × (σ ⊕ ρ)) (stop : σ → ρ) (s : σ)
    (blocks : List Block) :
    (forBlocks body stop s blocks).2.2 ≤ (forBlocks body stop s blocks).2.1.length := by
  induction blocks generalizing s with
  | nil => exact Nat.le_refl _
  | cons block rest ih =>
      rw [forBlocks]
      split
      · exact Nat.succ_le_succ (ih s)
      · split
        · exact Nat.zero_le _
        · exact Nat.succ_le_succ (ih _)

namespace ByteBuf

/-- `ByteBuf::read` with a codec whose loop has this body. -/
def readWith (buf : ByteBuf) (body : σ → Block → Block × (σ ⊕ ρ)) (stop : σ → ρ) (s : σ) :
    ρ × ByteBuf :=
  let r := forBlocks body stop s (buf.blocks.drop buf.idx)
  (r.1,
    { blocks := buf.blocks.take buf.idx ++ r.2.1
      idx := buf.idx + r.2.2
      growth := buf.growth
      idx_le := by
        have : r.2.2 ≤ r.2.1.length := forBlocks_moved_le body stop s _
        have := buf.idx_le
        simp only [List.length_append, List.length_take]
        omega })

theorem content_readWith (buf : ByteBuf) (body : σ → Block → Block × (σ ⊕ ρ))
    (stop : σ → ρ) (s : σ) :
    (buf.readWith body stop s).2.content =
      bytesOf ((forBlocks body stop s (buf.blocks.drop buf.idx)).2.1.drop
        (forBlocks body stop s (buf.blocks.drop buf.idx)).2.2) := by
  have hlen : (buf.blocks.take buf.idx).length = buf.idx := by
    rw [List.length_take, Nat.min_eq_left buf.idx_le]
  simp only [content, readWith]
  rw [← List.drop_drop, List.drop_append_of_le_length (Nat.le_of_eq hlen.symm),
    List.drop_of_length_le (Nat.le_of_eq hlen), List.nil_append]

end ByteBuf

end Ruyi.Buf
