import Ruyi.Buf.GetCodec
import Ruyi.Buf.SetIter

namespace Ruyi.Buf

variable {σ ρ : Type}

section

variable {xs ys bytes : List UInt8} {off : Nat}

theorem overwrite_append_left (h : off + bytes.length ≤ xs.length) :
    overwrite (xs ++ ys) off bytes = overwrite xs off bytes ++ ys := by
  have hlong : off + bytes.length ≤ (xs ++ ys).length := by
    rw [List.length_append]
    omega
  rw [overwrite_of_le h, overwrite_of_le hlong, List.take_append_of_le_length (by omega),
    List.drop_append_of_le_length h, List.append_assoc, List.append_assoc]

theorem overwrite_append_right (xs ys : List UInt8) (off : Nat) (bytes : List UInt8) :
    overwrite (xs ++ ys) (xs.length + off) bytes = xs ++ overwrite ys off bytes := by
  rw [overwrite, overwrite, List.length_append, List.take_length_add_append, Nat.add_assoc,
    List.drop_length_add_append, Nat.add_sub_add_left]
  simp only [List.append_assoc]

theorem overwrite_append_across {n : Nat} (hoff : off + n = xs.length) (hn : n ≤ bytes.length) :
    overwrite (xs ++ ys) off bytes =
      overwrite xs off (bytes.take n) ++ overwrite ys 0 (bytes.drop n) := by
  have htake : (bytes.take n).length = n := by
    rw [List.length_take, Nat.min_eq_left hn]
  have hroom : (xs ++ ys).length - off = n + ys.length := by
    rw [List.length_append]
    omega
  have hbehind : off + bytes.length = xs.length + (bytes.drop n).length := by
    rw [List.length_drop]
    omega
  have hfront : xs.length - off = n := by omega
  rw [overwrite, overwrite, overwrite, hroom, List.take_add, hbehind,
    List.drop_length_add_append, List.take_append_of_le_length (by omega), htake, hoff, hfront,
    List.drop_length, List.take_take, Nat.min_self]
  simp only [List.append_nil, List.take_zero, List.nil_append, Nat.sub_zero, Nat.zero_add,
    List.append_assoc]

theorem overwrite_take (mem : List UInt8) (off : Nat) (bytes : List UInt8) :
    overwrite mem off (bytes.take (mem.length - off)) = overwrite mem off bytes := by
  rw [overwrite, overwrite, List.take_take, Nat.min_self]
  rcases Nat.le_total bytes.length (mem.length - off) with hle | hle
  · rw [List.take_of_length_le hle]
  · rw [List.drop_of_length_le (by rw [List.length_take]; omega),
      List.drop_of_length_le (by omega)]

end

namespace Block

/-- Two states of a block that differ in bytes that can be read, and in nothing else. -/
structure SameFrame (b b' : Block) : Prop where
  region : b'.region = b.region
  readPos : b'.readPos = b.readPos
  writePos : b'.writePos = b.writePos
  before : b'.mem.take b.readPos = b.mem.take b.readPos
  behind : b'.mem.drop b.writePos = b.mem.drop b.writePos

variable {b : Block} {off : Nat} {bytes : List UInt8}

theorem sameFrame_refl (b : Block) : SameFrame b b := ⟨rfl, rfl, rfl, rfl, rfl⟩

theorem asBytes_copyTo (h : off + bytes.length ≤ b.len) :
    (b.copyTo (b.readPos + off) bytes).asBytes = overwrite b.asBytes off bytes := by
  have hread := b.read_le
  have hwrite := b.write_le
  have hmem := b.mem_length
  have hbytes := b.length_asBytes
  simp only [len] at h hbytes
  have hmem' : b.mem = b.mem.take b.readPos ++ (b.asBytes ++ b.mem.drop b.writePos) := by
    have hbehind : (b.mem.drop b.readPos).drop b.len = b.mem.drop b.writePos := by
      rw [List.drop_drop, len, Nat.add_sub_cancel' hread]
    rw [asBytes, ← hbehind, List.take_append_drop, List.take_append_drop]
  have htake : (b.mem.take b.readPos).length = b.readPos := by
    rw [List.length_take, hmem, Nat.min_eq_left (Nat.le_trans hread hwrite)]
  have hover : overwrite b.mem (b.readPos + off) bytes =
      b.mem.take b.readPos ++ (overwrite b.asBytes off bytes ++ b.mem.drop b.writePos) := by
    calc
      _ = overwrite (b.mem.take b.readPos ++ (b.asBytes ++ b.mem.drop b.writePos))
          ((b.mem.take b.readPos).length + off) bytes := by rw [htake, ← hmem']
      _ = b.mem.take b.readPos ++ overwrite (b.asBytes ++ b.mem.drop b.writePos) off bytes :=
        overwrite_append_right _ _ _ _
      _ = _ := by rw [overwrite_append_left (by omega)]
  have hlen : (overwrite b.asBytes off bytes).length = b.len := by
    rw [length_overwrite, length_asBytes]
  show ((overwrite b.mem (b.readPos + off) bytes).drop b.readPos).take b.len = _
  rw [hover, List.drop_append_of_le_length (Nat.le_of_eq htake.symm),
    List.drop_of_length_le (Nat.le_of_eq htake), List.nil_append, ← hlen, List.take_left]

theorem sameFrame_copyTo (h : off + bytes.length ≤ b.len) :
    SameFrame b (b.copyTo (b.readPos + off) bytes) := by
  have hread := b.read_le
  have hwrite := b.write_le
  have hmem := b.mem_length
  simp only [len] at h
  have hfits : b.readPos + off + bytes.length ≤ b.mem.length := by omega
  have htake : (b.mem.take (b.readPos + off)).length = b.readPos + off := by
    rw [List.length_take, Nat.min_eq_left (by omega)]
  refine ⟨rfl, rfl, rfl, ?_, ?_⟩
  · show (overwrite b.mem (b.readPos + off) bytes).take b.readPos = _
    rw [overwrite_of_le hfits, List.take_append_of_le_length (by omega), List.take_take,
      Nat.min_eq_left (Nat.le_add_right _ _)]
  · show (overwrite b.mem (b.readPos + off) bytes).drop b.writePos = _
    have hall :
        (b.mem.take (b.readPos + off) ++ bytes).length = b.readPos + off + bytes.length := by
      rw [List.length_append, htake]
    rw [overwrite_of_le hfits, ← List.append_assoc, List.drop_append,
      List.drop_of_length_le (by omega), List.nil_append, List.drop_drop, hall]
    congr 1
    omega

end Block

/-- A body that sets the bytes `left s`, as many as there is room for, and returns when all are
set. -/
structure SetsLeft (body : σ → Block → Nat → Block × (σ ⊕ ρ)) (left : σ → List UInt8)
    (result : σ → ρ) : Prop where
  fits : ∀ s block setPos, left s ≠ [] → (left s).length ≤ block.writePos - setPos →
    body s block setPos = (block.copyTo setPos (left s), .inr (result s))
  spills : ∀ s block setPos, setPos < block.writePos →
    block.writePos - setPos < (left s).length →
      ∃ s', body s block setPos =
          (block.copyTo setPos ((left s).take (block.writePos - setPos)), .inl s') ∧
        left s' = (left s).drop (block.writePos - setPos) ∧ result s' = result s

theorem setsLeft_setBody (result : Nat) : SetsLeft (setBody result) id fun _ => .ok result := by
  constructor
  · intro bytes block setPos _ hfits
    exact if_pos hfits
  · intro bytes block setPos _ hspills
    exact ⟨_, if_neg (Nat.not_le.mpr hspills), rfl, rfl⟩

theorem setsLeft_setByteBody (v : UInt8) :
    SetsLeft (setByteBody v) (fun _ => [v]) fun _ => .ok 1 := by
  constructor
  · intro s block setPos _ _
    rfl
  · intro s block setPos hlt hspills
    rw [List.length_singleton] at hspills
    omega

theorem setsLeft_setVarintBody :
    SetsLeft setVarintBody (fun s => varint s.1) fun s => .ok (s.2 + (varint s.1).length) := by
  constructor
  · rintro ⟨v, n⟩ block setPos _ hfits
    obtain ⟨htake, hleft⟩ := ByteBuf.varintRun_eq (block.writePos - setPos) v
    rw [setVarintBody, htake, List.take_of_length_le hfits]
    cases hrun : (ByteBuf.varintRun (block.writePos - setPos) v).2 with
    | none => rfl
    | some v' =>
        rw [hrun] at hleft
        exact absurd hleft.1 (Nat.not_lt.mpr hfits)
  · rintro ⟨v, n⟩ block setPos _ hspills
    obtain ⟨htake, hleft⟩ := ByteBuf.varintRun_eq (block.writePos - setPos) v
    rw [setVarintBody, htake]
    cases hrun : (ByteBuf.varintRun (block.writePos - setPos) v).2 with
    | none =>
        rw [hrun] at hleft
        exact absurd hspills (Nat.not_lt.mpr hleft)
    | some v' =>
        rw [hrun] at hleft
        refine ⟨_, rfl, hleft.2, ?_⟩
        dsimp only at hspills ⊢
        rw [hleft.2, List.length_take, List.length_drop]
        congr 1
        omega

theorem len_of_passesOver {initPos : Nat} {block : Block} (h : initPos ≤ block.len) :
    passesOver initPos block = true ↔ block.len = initPos := by
  rw [passesOver]
  split
  · rw [decide_eq_true_eq]
    omega
  · rw [Block.isEmpty_iff]
    omega

theorem forSetBlocks_spec {body : σ → Block → Nat → Block × (σ ⊕ ρ)} {left : σ → List UInt8}
    {result : σ → ρ} (h : SetsLeft body left result) (stop : σ → ρ) {initPos : Nat} {s : σ}
    {blocks : List Block} (hne : left s ≠ []) (hoff : initPos ≤ headLen blocks) :
    bytesOf (forSetBlocks body stop initPos s blocks).2 =
        overwrite (bytesOf blocks) initPos (left s) ∧
      List.Forall₂ Block.SameFrame blocks (forSetBlocks body stop initPos s blocks).2 ∧
      (initPos + (left s).length ≤ (bytesOf blocks).length →
        (forSetBlocks body stop initPos s blocks).1 = result s) ∧
      ((bytesOf blocks).length < initPos + (left s).length →
        ∃ s', (forSetBlocks body stop initPos s blocks).1 = stop s') := by
  induction blocks generalizing initPos s with
  | nil =>
      have hpos := List.length_pos_iff.mpr hne
      refine ⟨?_, .nil, fun hfits => ?_, fun _ => ⟨s, rfl⟩⟩
      · refine (List.eq_nil_of_length_eq_zero ?_).symm
        rw [length_overwrite, bytesOf_nil, List.length_nil]
      · rw [bytesOf_nil, List.length_nil] at hfits
        omega
  | cons block rest ih =>
      have hread := block.read_le
      have hlen : block.len = block.writePos - block.readPos := rfl
      have hbytes := block.length_asBytes
      rw [headLen] at hoff
      rw [forSetBlocks, bytesOf_cons, List.length_append, hbytes]
      by_cases hpass : passesOver initPos block = true
      · have hinit := (len_of_passesOver hoff).mp hpass
        obtain ⟨hrest, hframe, hfits, hshort⟩ := ih hne (Nat.zero_le _)
        rw [if_pos hpass]
        refine ⟨?_, .cons (Block.sameFrame_refl block) hframe, fun hle => hfits (by omega),
          fun hlt => hshort (by omega)⟩
        have hover := overwrite_append_right block.asBytes (bytesOf rest) 0 (left s)
        rw [Nat.add_zero, hbytes, hinit] at hover
        rw [bytesOf_cons, hrest, hover]
      · have hinit : initPos < block.len :=
          Nat.lt_of_le_of_ne hoff fun heq => hpass ((len_of_passesOver hoff).mpr heq.symm)
        have hroom : block.writePos - (block.readPos + initPos) = block.len - initPos := by omega
        rw [if_neg hpass]
        rcases Nat.lt_or_ge (block.len - initPos) (left s).length with hspills | hle
        · obtain ⟨s', hbody, hleft, hresult⟩ :=
            h.spills s block (block.readPos + initPos) (by omega) (by omega)
          have htake : ((left s).take (block.len - initPos)).length = block.len - initPos := by
            rw [List.length_take, Nat.min_eq_left (Nat.le_of_lt hspills)]
          have hdrop : (left s').length = (left s).length - (block.len - initPos) := by
            rw [hleft, List.length_drop, hroom]
          obtain ⟨hrest, hframe, hfits, hshort⟩ := @ih 0 s'
            (by rw [← List.length_pos_iff]; omega) (Nat.zero_le _)
          rw [hroom] at hbody hleft
          rw [hbody]
          dsimp only
          refine ⟨?_, .cons (Block.sameFrame_copyTo (by omega)) hframe,
            fun hle => (hfits (by omega)).trans hresult, fun hlt => hshort (by omega)⟩
          rw [bytesOf_cons, hrest, Block.asBytes_copyTo (by omega), hleft]
          exact (overwrite_append_across (by omega) (Nat.le_of_lt hspills)).symm
        · rw [h.fits s block (block.readPos + initPos) hne (by omega)]
          dsimp only
          refine ⟨?_, .cons (Block.sameFrame_copyTo (by omega)) ?_, fun _ => rfl,
            fun hlt => by omega⟩
          · rw [bytesOf_cons, Block.asBytes_copyTo (by omega)]
            exact (overwrite_append_left (by omega)).symm
          · exact List.forall₂_same.mpr fun b _ => Block.sameFrame_refl b

namespace ByteBuf

/-- `bytes` were put at `index` over those that were there, and nothing else has changed. -/
structure Overwrites (buf buf' : ByteBuf) (index : Nat) (bytes : List UInt8) : Prop where
  content : buf'.content =
    buf.content.take index ++ (bytes ++ buf.content.drop (index + bytes.length))
  len : buf'.len = buf.len
  idx : buf'.idx = buf.idx
  growth : buf'.growth = buf.growth
  frame : List.Forall₂ Block.SameFrame buf.blocks buf'.blocks

theorem content_located {buf : ByteBuf} {index : Nat} {p : Position buf.blocks}
    (hp : buf.locateIdx index = .ok p) (blocks : List Block) :
    bytesOf ((buf.blocks.take p.idx ++ blocks).drop buf.idx) =
      bytesOf ((buf.blocks.take p.idx).drop buf.idx) ++ bytesOf blocks := by
  obtain ⟨hle, -, -⟩ := locateIdx_ok hp
  have hlen : buf.idx ≤ (buf.blocks.take p.idx).length := by
    rw [List.length_take, Nat.min_eq_left (Nat.le_of_lt p.idx_lt)]
    exact hle
  rw [List.drop_append_of_le_length hlen, bytesOf_append]

theorem setWith_spec {body : σ → Block → Nat → Block × (σ ⊕ ρ)} {left : σ → List UInt8}
    {result : σ → ρ} (h : SetsLeft body left result) (stop : σ → ρ) {s : σ} {buf : ByteBuf}
    {index : Nat} {p : Position buf.blocks} (hp : buf.locateIdx index = .ok p)
    (hne : left s ≠ []) :
    ∃ r buf', buf.setWith index body stop s = some (r, buf') ∧
      Overwrites buf buf' index ((left s).take (buf.len - index)) ∧
      (index + (left s).length ≤ buf.len → r = result s) ∧
      (buf.len < index + (left s).length → ∃ s', r = stop s') := by
  obtain ⟨-, hpos, -⟩ := locateIdx_ok hp
  obtain ⟨hindex, hoff, -⟩ := bytesOf_located hp
  obtain ⟨hset, hframe, hfits, hshort⟩ := forSetBlocks_spec h stop hne hoff
  have hsplit := content_located hp (buf.blocks.drop p.idx)
  rw [List.take_append_drop] at hsplit
  have hcontent : bytesOf ((buf.blocks.take p.idx ++
      (forSetBlocks body stop p.off s (buf.blocks.drop p.idx)).2).drop buf.idx) =
        overwrite buf.content index (left s) := by
    rw [content_located hp, hset, content, hsplit, hpos, overwrite_append_right]
  have hlen : buf.content.length = (bytesOf ((buf.blocks.take p.idx).drop buf.idx)).length +
      (bytesOf (buf.blocks.drop p.idx)).length := by
    rw [content, hsplit, List.length_append]
  rw [setWith, hp, buf.len_eq]
  refine ⟨_, _, rfl, ⟨?_, ?_, rfl, rfl, ?_⟩, fun hle => hfits (by omega),
    fun hlt => hshort (by omega)⟩
  · refine hcontent.trans ?_
    rw [← overwrite_take]
    exact overwrite_of_le (by rw [List.length_take]; omega)
  · rw [len_eq, len_eq, ← length_overwrite buf.content index (left s), ← hcontent]
    rfl
  · have hframes := List.rel_append
      (List.forall₂_same.mpr fun b (_ : b ∈ buf.blocks.take p.idx) => Block.sameFrame_refl b) hframe
    dsimp only at hframes
    rw [List.take_append_drop] at hframes
    exact hframes

theorem setWith_ok {body : σ → Block → Nat → Block × (σ ⊕ ρ)} {left : σ → List UInt8}
    {result : σ → ρ} (h : SetsLeft body left result) (stop : σ → ρ) {s : σ} {buf : ByteBuf}
    {index : Nat} {p : Position buf.blocks} (hp : buf.locateIdx index = .ok p)
    (hne : left s ≠ []) (hfits : index + (left s).length ≤ buf.content.length) :
    ∃ buf', buf.setWith index body stop s = some (result s, buf') ∧
      Overwrites buf buf' index (left s) := by
  obtain ⟨r, buf', hset, hover, hresult, -⟩ := setWith_spec h stop hp hne
  rw [← buf.len_eq] at hfits
  rw [hresult hfits] at hset
  rw [List.take_of_length_le (by omega)] at hover
  exact ⟨buf', hset, hover⟩

end ByteBuf

end Ruyi.Buf
