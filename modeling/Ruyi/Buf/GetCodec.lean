import Ruyi.Buf.Consuming
import Ruyi.Buf.Window

namespace Ruyi.Buf

open Base (scan scan_append scan_invariant scan_takeStep takeStep takeStep_pos)

variable {α σ ρ : Type}

/-- The loop `for block in chain { .. }` of a get codec; `body` is given the bytes of a block from
the offset of the first one on. -/
def forGetBlocks (body : σ → List UInt8 → σ ⊕ ρ) (stop : σ → ρ) : σ → List (Block × Nat) → ρ
  | s, [] => stop s
  | s, (block, pos) :: rest =>
      match body s (block.asBytesFrom pos) with
      | .inr result => result
      | .inl s => forGetBlocks body stop s rest

/-- The body of `u8::get`. -/
def getByteBody (_ : Unit) (bytes : List UInt8) : Unit ⊕ Except Error Nat :=
  .inr (.ok (bytes.headD 0).toNat)

/-- The body of `u8s::get_exact` and of the fixed-width codecs: `n` bytes are still missing from
`dst`. -/
def getBytesBody (result : List UInt8 → ρ) :
    Nat × List UInt8 → List UInt8 → (Nat × List UInt8) ⊕ ρ
  | (n, dst), bytes =>
      if n ≤ bytes.length then .inr (result (dst ++ bytes.take n))
      else .inl (n - bytes.length, dst ++ bytes)

/-- The body of `varint::get`. -/
def getVarintBody (bits : Nat) : Nat × Nat → List UInt8 → (Nat × Nat) ⊕ Except Error Nat
  | (v, shift), bytes =>
      match varintScan bits bytes v shift 0 with
      | .inl s => .inl s
      | .inr (v, _) => .inr (.ok v)

/-- The error of a fixed-width `get` that runs out of blocks; `u64::little_endian` has that of
`read` there. -/
def Codec.getError : Codec → Error
  | u64le | i64le => .underflow
  | _ => .indexOutOfBounds

/-- `get` of the module for a value. -/
def Codec.get (codec : Codec) (target : Endian) (chain : List (Block × Nat)) : Except Error Nat :=
  match codec.shape with
  | .byte => forGetBlocks getByteBody (fun _ => .error .indexOutOfBounds) () chain
  | .fixed size order =>
      let result (v : List UInt8) : Except Error Nat :=
        .ok (valueOf target (if order = target then v else reverse v size))
      forGetBlocks (getBytesBody result) (fun _ => .error codec.getError) (size, []) chain
  | .varint bits =>
      forGetBlocks (getVarintBody bits) (fun _ => .error .indexOutOfBounds) (0, 0) chain

def u8s.getExact (n : Nat) (chain : List (Block × Nat)) : Except Error (List UInt8) :=
  if n = 0 then .ok []
  else forGetBlocks (getBytesBody .ok) (fun _ => .error .indexOutOfBounds) (n, []) chain

/-- `GetIter` as it begins. -/
structure GetIter where
  blocks : List Block
  initPos : Nat

/-- `GetIter::len`, which takes it that there is a first block. -/
def GetIter.len (chain : GetIter) : Except Fault Nat :=
  match chain.blocks with
  | [] => .error .freed
  | block :: rest => do
      let initVal ← minus block.len chain.initPos
      .ok (rest.foldl (fun remaining b => remaining + b.len) 0 + initVal)

def u8s.get (chain : GetIter) : Except Fault (Except Error (List UInt8)) := do
  let len ← chain.len
  .ok (u8s.getExact len (getBlocks chain.blocks chain.initPos))

/-- `ByteBuf::get_exact`, which hands `len` on. -/
def ByteBuf.getExact (buf : ByteBuf) (index len : Nat)
    (getExact : Nat → List (Block × Nat) → α) : Except Fault α :=
  buf.get index (getExact len)

/-- A body that goes over bytes as a scan does, in the states its loop comes to. -/
structure ScansBytes (body : σ → List UInt8 → σ ⊕ ρ) (step : σ → UInt8 → σ ⊕ ρ)
    (live : σ → Prop) : Prop where
  live_step : ∀ {s x s'}, live s → step s x = .inl s' → live s'
  body_eq : ∀ {s bytes}, live s → bytes ≠ [] →
    body s bytes = (scan step s bytes).map id Prod.fst

theorem scansBytes_getBytesBody (result : List UInt8 → ρ) :
    ScansBytes (getBytesBody result) (takeStep result) fun s => 0 < s.1 := by
  refine ⟨fun _ h => takeStep_pos h, ?_⟩
  rintro ⟨n, dst⟩ bytes hn -
  rw [scan_takeStep result hn, getBytesBody]
  split <;> rfl

theorem scansBytes_getByteBody :
    ScansBytes getByteBody (fun _ x => .inr (.ok x.toNat)) fun _ => True := by
  refine ⟨fun _ _ => trivial, ?_⟩
  intro s bytes _ hne
  obtain ⟨x, xs, rfl⟩ := List.exists_cons_of_ne_nil hne
  rfl

section

variable {body : σ → List UInt8 → σ ⊕ ρ} {step : σ → UInt8 → σ ⊕ ρ} {live : σ → Prop}

theorem forGetBlocks_scan (h : ScansBytes body step live) (stop : σ → ρ) {s : σ} (hs : live s)
    {chain : List (Block × Nat)} (hchain : ∀ b ∈ chain, b.1.asBytesFrom b.2 ≠ []) :
    forGetBlocks body stop s chain =
      match scan step s (chain.map fun b => b.1.asBytesFrom b.2).flatten with
      | .inl s' => stop s'
      | .inr r => r.1 := by
  induction chain generalizing s with
  | nil => rfl
  | cons b rest ih =>
      obtain ⟨hb, hrest⟩ := List.forall_mem_cons.mp hchain
      rw [forGetBlocks, h.body_eq hs hb, List.map_cons, List.flatten_cons, scan_append]
      rcases hscan : scan step s (b.1.asBytesFrom b.2) with s' | r
      · exact ih (scan_invariant h.live_step hs hscan) hrest
      · rfl

end

theorem asBytesFrom_getBlocks {blocks : List Block} {initPos : Nat} :
    ∀ b ∈ getBlocks blocks initPos, b.1.asBytesFrom b.2 ≠ [] := by
  induction blocks generalizing initPos with
  | nil => exact fun b hb => absurd hb List.not_mem_nil
  | cons block rest ih =>
      have hlen := block.length_asBytes
      rw [getBlocks]
      split
      · split
        · rename_i hlt
          refine List.forall_mem_cons.mpr ⟨?_, ih⟩
          rw [Block.asBytesFrom_eq, ← List.length_pos_iff, List.length_drop, hlen]
          exact Nat.sub_pos_of_lt hlt
        · exact ih
      · split
        · exact ih
        · rename_i hempty
          refine List.forall_mem_cons.mpr ⟨?_, ih⟩
          rw [Block.asBytesFrom_eq, List.drop_zero, Ne, Block.asBytes_eq_nil_iff]
          exact hempty

theorem bytesOf_getBlocks_from {blocks : List Block} {initPos : Nat}
    (h : initPos ≤ headLen blocks) :
    ((getBlocks blocks initPos).map fun b => b.1.asBytesFrom b.2).flatten =
      (bytesOf blocks).drop initPos := by
  rcases Nat.eq_zero_or_pos initPos with rfl | hpos
  · rw [bytesOf_getBlocks, List.drop_zero]
  · rcases blocks with _ | ⟨block, rest⟩
    · exact List.drop_nil.symm
    · have hlen := block.length_asBytes
      rw [headLen] at h
      rw [getBlocks, if_pos hpos, bytesOf_cons, List.drop_append_of_le_length (by omega)]
      split
      · rw [List.map_cons, List.flatten_cons, bytesOf_getBlocks, Block.asBytesFrom_eq]
      · rw [bytesOf_getBlocks, List.drop_of_length_le (by omega), List.nil_append]

namespace ByteBuf

variable {buf : ByteBuf} {index : Nat} {p : Position buf.blocks}

theorem bytesOf_located (hp : buf.locateIdx index = .ok p) :
    index ≤ buf.content.length ∧ p.off ≤ headLen (buf.blocks.drop p.idx) ∧
      (bytesOf (buf.blocks.drop p.idx)).drop p.off = buf.content.drop index := by
  obtain ⟨-, hpos, hcontent⟩ := locateIdx_ok hp
  have hoff : p.off ≤ p.block.asBytes.length := by
    rw [Block.length_asBytes]
    exact p.off_le_len
  have hdrop : buf.blocks.drop p.idx = p.block :: buf.blocks.drop (p.idx + 1) :=
    List.drop_eq_getElem_cons p.idx_lt
  refine ⟨?_, ?_, ?_⟩
  · rw [hcontent, hpos]
    simp only [List.length_append]
    omega
  · rw [hdrop]
    exact p.off_le_len
  · rw [hdrop, bytesOf_cons, hcontent, hpos, List.append_assoc, List.drop_length_add_append]

theorem exists_located (h : buf.content.drop index ≠ []) : ∃ p, buf.locateIdx index = .ok p := by
  have hpos := List.length_pos_of_ne_nil h
  rw [List.length_drop] at hpos
  rcases hp : buf.locateIdx index with left | p
  · rcases locateIdx_error hp with hnil | hlt
    · rw [hnil, List.length_nil] at hpos
      omega
    · omega
  · exact ⟨p, rfl⟩

theorem get_scan {body : σ → List UInt8 → σ ⊕ ρ} {step : σ → UInt8 → σ ⊕ ρ} {live : σ → Prop}
    (h : ScansBytes body step live) (stop : σ → ρ) {s : σ} (hs : live s)
    (hp : buf.locateIdx index = .ok p) :
    buf.get index (forGetBlocks body stop s) =
      .ok (match scan step s (buf.content.drop index) with
        | .inl s' => stop s'
        | .inr r => r.1) := by
  obtain ⟨-, hoff, hbytes⟩ := bytesOf_located hp
  rw [get, hp]
  dsimp only
  rw [forGetBlocks_scan h stop hs asBytesFrom_getBlocks, bytesOf_getBlocks_from hoff, hbytes]

theorem getExact_u8s (hp : buf.locateIdx index = .ok p) (n : Nat) :
    buf.getExact index n u8s.getExact =
      .ok (if index + n ≤ buf.len then .ok ((buf.content.drop index).take n)
        else .error .indexOutOfBounds) := by
  have hle := (bytesOf_located hp).1
  rw [getExact, len_eq]
  rcases Nat.eq_zero_or_pos n with rfl | hpos
  · rw [get, hp, Nat.add_zero, if_pos hle]
    rfl
  · have hget : buf.get index (u8s.getExact n) =
        buf.get index (forGetBlocks (getBytesBody .ok) (fun _ => .error .indexOutOfBounds)
          (n, [])) := by
      congr 1
      funext chain
      exact if_neg (Nat.ne_of_gt hpos)
    have hfits : n ≤ (buf.content.drop index).length ↔ index + n ≤ buf.content.length := by
      rw [List.length_drop]
      omega
    rw [hget, get_scan (scansBytes_getBytesBody _) _ hpos hp, scan_takeStep _ hpos]
    by_cases hin : index + n ≤ buf.content.length
    · rw [if_pos (hfits.mpr hin), if_pos hin]
      rfl
    · rw [if_neg (mt hfits.mp hin), if_neg hin]

end ByteBuf

theorem u8s.get_all {blocks : List Block} (hne : blocks ≠ []) :
    u8s.get ⟨blocks, 0⟩ = .ok (.ok (bytesOf blocks)) := by
  have hflatten : ((getBlocks blocks 0).map fun b => b.1.asBytesFrom b.2).flatten =
      bytesOf blocks := bytesOf_getBlocks blocks
  have hlen : GetIter.len ⟨blocks, 0⟩ = .ok (bytesOf blocks).length := by
    obtain ⟨block, rest, rfl⟩ := List.exists_cons_of_ne_nil hne
    rw [GetIter.len]
    dsimp only
    rw [minus_ok (Nat.zero_le _), ByteBuf.foldl_len, bytesOf_cons, List.length_append,
      Block.length_asBytes]
    show Except.ok _ = _
    congr 1
    omega
  rw [u8s.get, hlen]
  show Except.ok (u8s.getExact _ _) = _
  rw [u8s.getExact]
  split
  · rename_i hzero
    rw [List.eq_nil_of_length_eq_zero hzero]
  · rename_i hpos
    have hpos' : 0 < (bytesOf blocks).length := Nat.pos_of_ne_zero hpos
    rw [forGetBlocks_scan (scansBytes_getBytesBody _) _ hpos' asBytesFrom_getBlocks, hflatten,
      scan_takeStep _ hpos', if_pos (Nat.le_refl _), List.take_length, List.nil_append]

end Ruyi.Buf
