import Ruyi.Buf.GetCodec
import Ruyi.Buf.RFind

namespace Ruyi.Buf

/-- `Cow<[u8]>`. -/
inductive Cow where
  | borrowed (bytes : List UInt8)
  | owned (bytes : List UInt8)
  deriving DecidableEq, Repr

def Cow.bytes : Cow → List UInt8
  | borrowed bytes => bytes
  | owned bytes => bytes

/-- The loop of `as_bytes`; `n` is the chain from the first block on that has bytes, once one has
been met. -/
def asBytesLoop (n : Option (List Block)) : List Block → Except Fault Cow
  | [] =>
      match n with
      | none => .ok (.borrowed [])
      | some [] => .error .freed
      | some (block :: _) => .ok (.borrowed block.asBytes)
  | block :: rest =>
      if block.isEmpty then asBytesLoop n rest
      else
        match n with
        | none => asBytesLoop (some (block :: rest)) rest
        | some chain => do
            match ← u8s.get ⟨chain, 0⟩ with
            | .ok bytes => .ok (.owned bytes)
            | .error _ => .error .panic

/-- The loop of `try_as_bytes`. -/
def tryAsBytesLoop (n : Option (List Block)) : List Block → Except Fault (Option (List UInt8))
  | [] =>
      match n with
      | none => .ok (some [])
      | some [] => .error .freed
      | some (block :: _) => .ok (some block.asBytes)
  | block :: rest =>
      if block.isEmpty then tryAsBytesLoop n rest
      else
        match n with
        | none => tryAsBytesLoop (some (block :: rest)) rest
        | some _ => .ok none

/-- The iterator over the bytes: the blocks to come, and what is left of the current one. -/
structure Bytes where
  iterInner : List Block
  iterU8 : Option (List UInt8)
  deriving DecidableEq

namespace Bytes

/-- The loop of `next`, as long as there is a current block. -/
def nextIn : List Block → List UInt8 → Option UInt8 × Bytes
  | inner, b :: bytes => (some b, ⟨inner, some bytes⟩)
  | [], [] => (none, ⟨[], none⟩)
  | block :: inner, [] => nextIn inner block.asBytes

def next (it : Bytes) : Option UInt8 × Bytes :=
  match it.iterU8 with
  | some bytes => nextIn it.iterInner bytes
  | none => (none, it)

/-- What so many calls of `next` return. -/
def nexts : Nat → Bytes → List (Option UInt8)
  | 0, _ => []
  | n + 1, it => it.next.1 :: nexts n it.next.2

end Bytes

namespace ByteBuf

def asBytes (buf : ByteBuf) : Except Fault Cow := asBytesLoop none (buf.blocks.drop buf.idx)

def tryAsBytes (buf : ByteBuf) : Except Fault (Option (List UInt8)) :=
  tryAsBytesLoop none (buf.blocks.drop buf.idx)

def bytes (buf : ByteBuf) : Bytes :=
  match buf.blocks.drop buf.idx with
  | [] => ⟨[], none⟩
  | inner :: rest => ⟨rest, some inner.asBytes⟩

def startsWithInternal (buf : ByteBuf) (needle : List UInt8) (pos : Nat) : Except Fault Bool :=
  if pos ≤ buf.blocks.length then .ok (startsWithBlocks needle (buf.blocks.drop pos))
  else .error .panic

def startsWith (buf : ByteBuf) (needle : List UInt8) : Except Fault Bool :=
  if needle.isEmpty then .ok true else buf.startsWithInternal needle buf.idx

def endsWith (buf : ByteBuf) (needle : List UInt8) : Except Fault Bool :=
  if needle.isEmpty then .ok true else buf.endsWithInternal needle buf.blocks.length

/-- The blocks that hold unread bytes. -/
def holding (buf : ByteBuf) : List Block :=
  (buf.blocks.drop buf.idx).filter fun block => !block.isEmpty

end ByteBuf

section

variable {block : Block} {rest : List Block}

theorem asBytesLoop_some (chain blocks : List Block)
    (hchain : bytesOf (block :: chain) = block.asBytes ++ bytesOf blocks) :
    ∃ cow, asBytesLoop (some (block :: chain)) blocks = .ok cow ∧
      cow.bytes = bytesOf (block :: chain) := by
  induction blocks with
  | nil =>
      refine ⟨_, rfl, ?_⟩
      rw [hchain, bytesOf_nil, List.append_nil]
      rfl
  | cons next rest ih =>
      rw [asBytesLoop]
      split
      · rename_i hempty
        rw [bytesOf_cons next, Block.asBytes_of_isEmpty hempty, List.nil_append] at hchain
        exact ih hchain
      · rw [u8s.get_all (List.cons_ne_nil _ _)]
        exact ⟨_, rfl, rfl⟩

theorem asBytesLoop_none (blocks : List Block) :
    ∃ cow, asBytesLoop none blocks = .ok cow ∧ cow.bytes = bytesOf blocks := by
  induction blocks with
  | nil => exact ⟨_, rfl, rfl⟩
  | cons block rest ih =>
      rw [asBytesLoop]
      split
      · rename_i hempty
        rw [bytesOf_cons, Block.asBytes_of_isEmpty hempty, List.nil_append]
        exact ih
      · exact asBytesLoop_some rest rest (bytesOf_cons block rest)

theorem tryAsBytesLoop_some (chain blocks : List Block) :
    tryAsBytesLoop (some (block :: chain)) blocks =
      .ok (if blocks.filter (fun b => !b.isEmpty) = [] then some block.asBytes else none) := by
  induction blocks with
  | nil => rfl
  | cons next rest ih =>
      rw [tryAsBytesLoop]
      split
      · rename_i hempty
        rw [ih, List.filter_cons_of_neg (by simp [hempty])]
      · rename_i hempty
        rw [List.filter_cons_of_pos (by simp [hempty]), if_neg (List.cons_ne_nil _ _)]

theorem bytesOf_filter (blocks : List Block) :
    bytesOf (blocks.filter fun b => !b.isEmpty) = bytesOf blocks := by
  induction blocks with
  | nil => rfl
  | cons block rest ih =>
      rw [bytesOf_cons]
      by_cases hempty : block.isEmpty = true
      · rw [List.filter_cons_of_neg (by simp [hempty]), ih, Block.asBytes_of_isEmpty hempty,
          List.nil_append]
      · rw [List.filter_cons_of_pos (by simp [hempty]), bytesOf_cons, ih]

theorem tryAsBytesLoop_none (blocks : List Block) :
    tryAsBytesLoop none blocks =
      .ok (if (blocks.filter fun b => !b.isEmpty).length ≤ 1 then some (bytesOf blocks)
        else none) := by
  induction blocks with
  | nil => rfl
  | cons block rest ih =>
      rw [tryAsBytesLoop]
      split
      · rename_i hempty
        rw [ih, List.filter_cons_of_neg (by simp [hempty]), bytesOf_cons,
          Block.asBytes_of_isEmpty hempty, List.nil_append]
      · rename_i hempty
        rw [tryAsBytesLoop_some, List.filter_cons_of_pos (by simp [hempty]), List.length_cons,
          bytesOf_cons, ← bytesOf_filter rest]
        by_cases hnil : rest.filter (fun b => !b.isEmpty) = []
        · rw [if_pos hnil, hnil, if_pos (by decide), bytesOf_nil, List.append_nil]
        · have hpos := List.length_pos_iff.mpr hnil
          rw [if_neg hnil, if_neg (by omega)]

end

namespace Bytes

/-- What is still to come. -/
def rest (it : Bytes) : List UInt8 :=
  match it.iterU8 with
  | some bytes => bytes ++ bytesOf it.iterInner
  | none => []

theorem nextIn_eq (inner : List Block) (bytes : List UInt8) :
    (nextIn inner bytes).1 = (bytes ++ bytesOf inner).head? ∧
      (nextIn inner bytes).2.rest = (bytes ++ bytesOf inner).tail := by
  induction inner generalizing bytes with
  | nil => cases bytes <;> exact ⟨rfl, rfl⟩
  | cons block inner ih =>
      cases bytes with
      | nil =>
          rw [nextIn, List.nil_append, bytesOf_cons]
          exact ih block.asBytes
      | cons b bytes => exact ⟨rfl, rfl⟩

theorem next_eq (it : Bytes) : it.next.1 = it.rest.head? ∧ it.next.2.rest = it.rest.tail := by
  obtain ⟨inner, iterU8⟩ := it
  cases iterU8 with
  | none => exact ⟨rfl, rfl⟩
  | some bytes => exact nextIn_eq inner bytes

theorem nexts_eq (n : Nat) (it : Bytes) :
    it.nexts n = (List.range n).map fun i => it.rest[i]? := by
  induction n generalizing it with
  | zero => rfl
  | succ n ih =>
      obtain ⟨hhead, htail⟩ := it.next_eq
      rw [nexts, ih, hhead, htail, List.range_succ_eq_map, List.map_cons, List.map_map,
        List.head?_eq_getElem?]
      congr 1
      refine List.map_congr_left fun i _ => ?_
      rw [List.getElem?_tail]
      rfl

theorem rest_bytes (buf : ByteBuf) : buf.bytes.rest = buf.content := by
  rw [ByteBuf.bytes, ByteBuf.content]
  split
  · rename_i hnil
    rw [hnil]
    rfl
  · rename_i inner rest hcons
    rw [hcons, bytesOf_cons]
    rfl

end Bytes

namespace ByteBuf

variable (buf : ByteBuf) (needle : List UInt8)

theorem startsWith_ok :
    ∃ r, buf.startsWith needle = .ok r ∧ (r = true ↔ needle <+: buf.content) := by
  rw [startsWith]
  split
  · rename_i hempty
    rw [List.isEmpty_iff.mp hempty]
    exact ⟨true, rfl, iff_of_true rfl (List.nil_prefix)⟩
  · rename_i hne
    rw [List.isEmpty_iff] at hne
    exact ⟨_, if_pos buf.idx_le, startsWithBlocks_iff hne⟩

theorem endsWith_ok :
    ∃ r, buf.endsWith needle = .ok r ∧ (r = true ↔ needle <:+ buf.content) := by
  rw [endsWith]
  split
  · rename_i hempty
    rw [List.isEmpty_iff.mp hempty]
    exact ⟨true, rfl, iff_of_true rfl (List.nil_suffix)⟩
  · rename_i hne
    rw [List.isEmpty_iff] at hne
    refine ⟨_, endsWithInternal_ok buf.idx_le (Nat.le_refl _), ?_⟩
    rw [endsWithBlocks_iff hne, List.reverse_reverse, List.take_length]
    rfl

/-- All the ways to look at a buffer show the same bytes, whatever the blocks. -/
theorem views_agree :
    buf.len = buf.content.length ∧ (buf.isEmpty = true ↔ buf.content = []) ∧
      (∃ cow, buf.asBytes = .ok cow ∧ cow.bytes = buf.content) ∧
      (∀ n, buf.bytes.nexts n = (List.range n).map fun i => buf.content[i]?) ∧
      buf.tryAsBytes = .ok (if buf.holding.length ≤ 1 then some buf.content else none) ∧
      (∀ needle, ∃ r, buf.startsWith needle = .ok r ∧ (r = true ↔ needle <+: buf.content)) ∧
      ∀ needle, ∃ r, buf.endsWith needle = .ok r ∧ (r = true ↔ needle <:+ buf.content) := by
  refine ⟨buf.len_eq, isEmpty_iff, asBytesLoop_none _, fun n => ?_, tryAsBytesLoop_none _,
    buf.startsWith_ok, buf.endsWith_ok⟩
  rw [Bytes.nexts_eq, Bytes.rest_bytes]

end ByteBuf

end Ruyi.Buf
