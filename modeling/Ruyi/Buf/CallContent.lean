import Ruyi.Buf.BufferContent
import Ruyi.Buf.Failing

namespace Ruyi.Buf

open Base (orGroups scan scan_takeStep)

variable {σ ρ : Type}

namespace Codec

/-- The bytes that stand for a value. -/
def IsCode (codec : Codec) (code : List UInt8) : Prop :=
  match codec.shape with
  | .byte => code.length = 1
  | .fixed size _ => code.length = size
  | .varint _ => IsVarint code

/-- The value that they stand for. -/
def decode (codec : Codec) (code : List UInt8) : Nat :=
  match codec.shape with
  | .byte => valueOf .little code
  | .fixed _ order => valueOf order code
  | .varint bits => orGroups 7 bits 0 0 (varintGroups code)

variable {codec : Codec} {buf : ByteBuf} {code rest : List UInt8}

theorem read_code (h : codec.IsCode code) (target : Endian)
    (hcontent : buf.content = code ++ rest) :
    ((codec.read target buf).1, (codec.read target buf).2.content) =
      (.ok (codec.decode code), rest) := by
  rw [IsCode] at h
  rw [decode]
  rcases hshape : codec.shape with _ | ⟨size, order⟩ | bits
  · rw [hshape] at h
    obtain ⟨x, rfl⟩ := List.length_eq_one_iff.mp h
    simp only [Codec.read, hshape]
    rw [ByteBuf.readWith_scan scans_readByteBody _ trivial, hcontent]
    simp [scan, valueOf]
  · rw [hshape] at h
    have hsize := size_of_fixed hshape
    have hle : size ≤ (code ++ rest).length := by
      rw [List.length_append, h]
      exact Nat.le_add_right _ _
    simp only [Codec.read, hshape, readFixed, readBody_eq]
    rw [ByteBuf.readWith_scan (scans_readBytesBody _) _ (show 0 < size by omega), hcontent,
      scan_takeStep _ (by omega), if_pos hle, List.take_left' h, List.drop_left' h, List.nil_append,
      valueOf_target hsize h]
  · rw [hshape] at h
    exact read_varint hshape h target hcontent

theorem marked_of_no_varint {bytes : List UInt8} (h : ∀ code, IsVarint code → ¬ code <+: bytes) :
    ∀ b ∈ bytes, 0x80 ≤ b.toNat := by
  induction bytes with
  | nil => exact fun b hb => absurd hb List.not_mem_nil
  | cons b bytes ih =>
      have hb : 0x80 ≤ b.toNat := by
        refine Nat.le_of_not_lt fun hlt => h [b] ⟨[], b, rfl, ?_, hlt⟩ ⟨bytes, rfl⟩
        exact fun x hx => absurd hx List.not_mem_nil
      refine List.forall_mem_cons.mpr ⟨hb, ih fun code hcode hprefix => ?_⟩
      obtain ⟨init, last, rfl, hinit, hlast⟩ := hcode
      refine h (b :: (init ++ [last])) ⟨b :: init, last, rfl, ?_, hlast⟩ ?_
      · exact List.forall_mem_cons.mpr ⟨hb, hinit⟩
      · exact (List.prefix_cons_inj b).mpr hprefix

theorem scan_marked {bits : Nat} {bytes : List UInt8} (h : ∀ b ∈ bytes, 0x80 ≤ b.toNat)
    (s : Nat × Nat) : ∃ s', scan (varintStep bits) s bytes = .inl s' := by
  induction bytes generalizing s with
  | nil => exact ⟨s, rfl⟩
  | cons b bytes ih =>
      obtain ⟨hb, hrest⟩ := List.forall_mem_cons.mp h
      obtain ⟨v, shift⟩ := s
      have hne : ¬ b.toNat >>> 7 = 0 := by
        rw [Nat.shiftRight_eq_div_pow]
        omega
      rw [scan, varintStep, if_neg hne]
      exact ih hrest _

theorem read_no_code (h : ∀ code, codec.IsCode code → ¬ code <+: buf.content) (target : Endian) :
    ((codec.read target buf).1, (codec.read target buf).2.content) = (.error .underflow, []) := by
  simp only [IsCode] at h
  rcases hshape : codec.shape with _ | ⟨size, order⟩ | bits
  · simp only [hshape] at h
    simp only [Codec.read, hshape]
    rw [ByteBuf.readWith_scan scans_readByteBody _ trivial]
    rcases hcontent : buf.content with _ | ⟨x, rest⟩
    · rfl
    · refine absurd ?_ (h [x] rfl)
      rw [hcontent]
      exact ⟨rest, rfl⟩
  · simp only [hshape] at h
    have hsize := size_of_fixed hshape
    have hshort : buf.content.length < size := by
      refine Nat.lt_of_not_le fun hle => h (buf.content.take size) ?_ (List.take_prefix _ _)
      rw [List.length_take, Nat.min_eq_left hle]
    simp only [Codec.read, hshape, readFixed, readBody_eq]
    rw [ByteBuf.readWith_scan (scans_readBytesBody _) _ (show 0 < size by omega),
      scan_takeStep _ (by omega), if_neg (Nat.not_le.mpr hshort)]
  · simp only [hshape] at h
    obtain ⟨s, hscan⟩ := @scan_marked bits _ (marked_of_no_varint h) (0, 0)
    simp only [Codec.read, hshape]
    rw [ByteBuf.readWith_scan (scans_readVarintBody bits) _ trivial, hscan]

end Codec

theorem forSetBlocks_end {body : σ → Block → Nat → Block × (σ ⊕ ρ)} {stop : σ → ρ} {s : σ}
    {initPos : Nat} {blocks : List Block} (hoff : initPos ≤ headLen blocks)
    (hend : (bytesOf blocks).length = initPos) :
    (forSetBlocks body stop initPos s blocks).1 = stop s := by
  induction blocks generalizing initPos with
  | nil => rfl
  | cons block rest ih =>
      rw [headLen] at hoff
      rw [bytesOf_cons, List.length_append, block.length_asBytes] at hend
      have hpass : passesOver initPos block = true := (len_of_passesOver hoff).mpr (by omega)
      rw [forSetBlocks, if_pos hpass]
      exact ih (Nat.zero_le _) (by omega)

theorem ByteBuf.setWith_end {body : σ → Block → Nat → Block × (σ ⊕ ρ)} {stop : σ → ρ} {s : σ}
    {buf buf' : ByteBuf} {r : ρ} (hset : buf.setWith buf.len body stop s = some (r, buf')) :
    r = stop s := by
  rw [setWith] at hset
  split at hset
  · cases hset
  · rename_i p hp
    cases hset
    obtain ⟨-, hoff, hbytes⟩ := bytesOf_located hp
    refine forSetBlocks_end hoff ?_
    have hlen := congrArg List.length hbytes
    rw [List.length_drop, List.length_drop, ← buf.len_eq, Nat.sub_self] at hlen
    have hhead : headLen (buf.blocks.drop p.idx) ≤ (bytesOf (buf.blocks.drop p.idx)).length := by
      rcases buf.blocks.drop p.idx with _ | ⟨block, rest⟩
      · exact Nat.le_refl _
      · rw [headLen, bytesOf_cons, List.length_append, block.length_asBytes]
        exact Nat.le_add_right _ _
    omega

theorem result_eq {α : Type} (f : α → BufEvent) (r : Except Error α) (buf : ByteBuf) :
    result f (r, buf) =
      (match r with
        | .ok a => f a
        | .error e => .failed e, buf) := by
  cases r <;> rfl

namespace Setting

theorem run_cases (s : Setting) (target : Endian) :
    ∃ (σ : Type) (body : σ → Block → Nat → Block × (σ ⊕ Except Error Nat))
        (left : σ → List UInt8) (result : σ → Except Error Nat) (x : σ),
      SetsLeft body left result ∧ left x = s.bytes ∧ result x = .ok s.bytes.length ∧
        (s.bytes = [] → ∀ block setPos, body x block setPos = (block, .inr (result x))) ∧
        ∀ index buf, s.run target index buf =
          (buf.setWith index body (fun _ => .error .indexOutOfBounds) x).map
            (Buf.result .count) := by
  cases s with
  | value codec v =>
      have hne : (value codec v).bytes ≠ [] := codec.encode_ne_nil v
      simp only [run, bytes, Codec.set, Codec.encode] at hne ⊢
      rcases hshape : codec.shape with _ | ⟨size, order⟩ | bits
      · refine ⟨_, _, _, _, (), setsLeft_setByteBody _, rfl, rfl, ?_, fun _ _ => rfl⟩
        rintro ⟨⟩
      · have hmem := memoryOf_eq (Codec.size_of_fixed hshape) order target v
        simp only [hshape] at hne
        refine ⟨_, _, _, _, _, setsLeft_setBody size, hmem, ?_, fun hnil => absurd hnil hne,
          fun _ _ => rfl⟩
        exact congrArg Except.ok (length_bytesFor order size v).symm
      · refine ⟨_, _, _, _, (v, 0), setsLeft_setVarintBody, rfl, ?_,
          fun hnil => absurd hnil (varint_ne_nil v), fun _ _ => rfl⟩
        exact congrArg Except.ok (Nat.zero_add _)
  | u8s v =>
      refine ⟨_, _, _, _, v, setsLeft_setBody v.length, rfl, rfl, fun hnil block setPos => ?_,
        fun _ _ => rfl⟩
      rw [bytes] at hnil
      rw [hnil, setBody, List.length_nil, if_pos (Nat.zero_le _), Block.copyTo_nil]
  | u8sFill val count =>
      refine ⟨_, _, _, _, count, setsLeft_setFillBody val count, rfl, ?_,
        fun hnil block setPos => ?_, fun _ _ => rfl⟩
      · exact congrArg Except.ok List.length_replicate.symm
      · have hzero : count = 0 := (List.replicate_eq_nil_iff val).mp hnil
        rw [setFillBody, hzero, if_pos (Nat.zero_le _), List.replicate_zero, Block.copyTo_nil]

variable {s : Setting} {target : Endian} {index : Nat} {buf buf' : ByteBuf} {e : BufEvent}

theorem run_some (h : s.run target index buf = some (e, buf')) :
    index ≤ buf.content.length ∧ buf'.content = overwrite buf.content index s.bytes ∧
      e = if index < buf.content.length ∧ index + s.bytes.length ≤ buf.content.length then
          .count s.bytes.length
        else .failed .indexOutOfBounds := by
  obtain ⟨σ, body, left, result, x, hbody, hleft, hresult, hnil, hrun⟩ := s.run_cases target
  rw [hrun] at h
  obtain ⟨⟨r, b⟩, hset, heq⟩ := Option.map_eq_some_iff.mp h
  have hfound : ∃ p, buf.locateIdx index = .ok p := by
    rw [ByteBuf.setWith] at hset
    split at hset
    · cases hset
    · exact ⟨_, ‹_›⟩
  obtain ⟨p, hp⟩ := hfound
  have hindex := (ByteBuf.bytesOf_located hp).1
  refine ⟨hindex, ?_⟩
  rcases eq_or_ne s.bytes [] with hempty | hne
  · obtain ⟨r', hset', hr⟩ := ByteBuf.setWith_nil (hnil hempty)
      (fun _ => .error .indexOutOfBounds) hp
    rw [hset] at hset'
    cases hset'
    rw [result_eq] at heq
    cases heq
    rw [hempty, List.length_nil, Nat.add_zero]
    refine ⟨?_, ?_⟩
    · rw [overwrite_of_le (by rw [List.length_nil]; exact hindex), List.nil_append,
        List.length_nil, Nat.add_zero, List.take_append_drop]
    · rcases Nat.lt_or_eq_of_le hindex with hlt | rfl
      · rw [if_pos ⟨hlt, hindex⟩, hr.resolve_right (buf.len_eq ▸ Nat.not_le.mpr hlt), hresult,
          hempty]
        rfl
      · rw [if_neg fun h => Nat.lt_irrefl _ h.1]
        rw [← buf.len_eq] at hset
        rw [ByteBuf.setWith_end hset]
  · have hpos := List.length_pos_of_ne_nil hne
    rw [← hleft] at hne
    obtain ⟨r', b', hset', hover, hfits, hshort⟩ :=
      ByteBuf.setWith_spec hbody (fun _ => .error .indexOutOfBounds) hp hne
    rw [hset] at hset'
    cases hset'
    rw [result_eq] at heq
    cases heq
    rw [hleft, buf.len_eq] at hover hfits hshort
    refine ⟨?_, ?_⟩
    · rw [hover.content, ← overwrite_take, overwrite_of_le (by rw [List.length_take]; omega)]
    · rcases Nat.lt_or_ge buf.content.length (index + s.bytes.length) with hlt | hle
      · obtain ⟨s', rfl⟩ := hshort hlt
        rw [if_neg fun h => Nat.not_le.mpr hlt h.2]
      · rw [if_pos ⟨by omega, hle⟩, hfits hle, hresult]

end Setting

theorem Appending.run_some {a : Appending} {target : Endian} {fuel n : Nat} {buf buf' : ByteBuf}
    {allocs allocs' : List Nat} (hin : a.InSight buf)
    (h : a.run target fuel buf allocs = some (n, buf', allocs')) :
    n = a.bytes.length ∧ buf'.content = buf.content ++ a.bytes := by
  rcases a.run_cases target with ⟨σ, body, left, result, s, hbody, hleft, hresult, hshort, hrun⟩ |
    ⟨-, spare, hrun⟩
  · rw [hrun, ByteBuf.appendLoop_eq hbody, hleft, hresult] at h
    obtain ⟨⟨n', r⟩, hloop, heq⟩ := Option.map_eq_some_iff.mp h
    cases heq
    obtain ⟨-, hidx, -, new, hblocks, hnew⟩ := ByteBuf.appendLoop_some hloop
    refine ⟨rfl, ?_⟩
    rcases Nat.lt_or_ge buf.idx buf.blocks.length with hlt | hge
    · exact ByteBuf.content_fillLast hlt hblocks hnew hidx
    · have hpassed := Nat.le_antisymm buf.idx_le hge
      rw [ByteBuf.content_fillLast_of_passed hpassed hblocks hnew hidx, ByteBuf.content, hpassed,
        List.drop_length, bytesOf_nil, List.nil_append, ByteBuf.drop_eq_self_iff]
      rcases hin.resolve_right hshort with (hlt | hroom) | hnil
      · exact absurd hlt (Nat.not_lt.mpr hge)
      · exact .inl hroom
      · exact .inr hnil
  · rw [hrun] at h
    obtain ⟨rfl, heq⟩ := Prod.mk.inj (Option.some.inj h)
    have hcontent := ByteBuf.content_appendVec buf allocs a.bytes spare
    rw [heq] at hcontent
    exact ⟨rfl, hcontent⟩

theorem getElem_emptyBlocks {blocks : List Block} {block : Block}
    (h : blocks[emptyBlocks blocks]? = some block) :
    block.asBytes ≠ [] ∧ block.asBytes <+: bytesOf blocks := by
  induction blocks with
  | nil => cases h
  | cons first rest ih =>
      rw [emptyBlocks] at h
      split at h
      · rename_i hempty
        rw [List.getElem?_cons_succ] at h
        rw [bytesOf_cons, Block.asBytes_of_isEmpty hempty, List.nil_append]
        exact ih h
      · rename_i hempty
        cases h
        rw [bytesOf_cons, Ne, Block.asBytes_eq_nil_iff]
        exact ⟨hempty, List.prefix_append _ _⟩

namespace ByteBuf

variable (buf : ByteBuf)

theorem content_next : (Reader.next buf).2.content = buf.content := by
  show bytesOf (buf.blocks.drop (buf.idx + emptyBlocks (buf.blocks.drop buf.idx))) = _
  rw [← List.drop_drop, bytesOf_emptyBlocks]
  rfl

theorem next_cases :
    (Reader.next buf).1 = none ∧ buf.content = [] ∨
      ∃ block, (Reader.next buf).1 = some block ∧ block.asBytes ≠ [] ∧
        block.asBytes <+: buf.content := by
  have hget : (Reader.next buf).1 =
      (buf.blocks.drop buf.idx)[emptyBlocks (buf.blocks.drop buf.idx)]? := by
    rw [List.getElem?_drop]
    rfl
  rw [hget]
  cases hblock : (buf.blocks.drop buf.idx)[emptyBlocks (buf.blocks.drop buf.idx)]? with
  | none =>
      refine .inl ⟨rfl, ?_⟩
      rw [content, ← bytesOf_emptyBlocks,
        List.drop_of_length_le (List.getElem?_eq_none_iff.mp hblock)]
      rfl
  | some block => exact .inr ⟨block, rfl, getElem_emptyBlocks hblock⟩

theorem content_tryReserveInHead (len : Nat) :
    (buf.tryReserveInHead len).2.content = buf.content := by
  rw [tryReserveInHead]
  split
  · rfl
  · rename_i first hfirst
    obtain ⟨rest, hblocks⟩ := List.head?_eq_some_iff.mp hfirst
    split
    · rename_i hempty
      show bytesOf ((_ :: buf.blocks.tail).drop buf.idx) = _
      rw [content, hblocks]
      cases buf.idx with
      | zero =>
          rw [List.drop_zero, List.drop_zero, bytesOf_cons, bytesOf_cons,
            Block.asBytes_of_isEmpty hempty, Block.asBytes_of_isEmpty (Block.isEmpty_moveTo _ _ _)]
          rfl
      | succ k => rfl
    · rfl

theorem content_reserve (allocs : List Nat) (additional : Nat) :
    (buf.reserve allocs additional).1.content = buf.content := by
  rw [reserve]
  split
  · show bytesOf ((buf.blocks ++ [_]).drop buf.idx) = _
    rw [List.drop_append_of_le_length buf.idx_le, bytesOf_append, bytesOf_cons, bytesOf_nil,
      List.append_nil, Block.asBytes_withCapacity, List.append_nil]
    rfl
  · rfl

end ByteBuf

end Ruyi.Buf
