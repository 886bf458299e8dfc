import Ruyi.Buf.Buffers
import Ruyi.Buf.RoundTrip

namespace Ruyi.Buf

open Base (scan_result takeStep)

variable {σ ρ : Type}

theorem overwrite_eq_self_iff {mem bytes : List UInt8} {off : Nat} (hoff : off ≤ mem.length)
    (hshort : mem.length ≤ off + bytes.length) :
    overwrite mem off bytes = mem ↔ mem.drop off <+: bytes := by
  have hmem := List.take_append_drop off mem
  have htake : (mem.take off).length = off := by
    rw [List.length_take, Nat.min_eq_left hoff]
  have hover : overwrite mem off bytes = mem.take off ++ bytes.take (mem.length - off) := by
    rw [overwrite, List.drop_of_length_le hshort, List.append_nil]
  rw [hover, List.prefix_iff_eq_take, List.length_drop]
  conv_lhs => rhs; rw [← hmem]
  rw [List.append_cancel_left_eq]
  exact eq_comm

namespace Block

theorem copyTo_nil (b : Block) (off : Nat) : b.copyTo off [] = b := by
  simp [copyTo, overwrite]

end Block

theorem setsLeft_setFillBody (val : UInt8) (count : Nat) :
    SetsLeft (setFillBody val count) (fun n => List.replicate n val) fun _ => .ok count := by
  constructor
  · intro n block setPos _ hfits
    rw [List.length_replicate] at hfits
    exact if_pos hfits
  · intro n block setPos _ hspills
    rw [List.length_replicate] at hspills
    refine ⟨n - (block.writePos - setPos), ?_, ?_, rfl⟩
    · rw [setFillBody, if_neg (Nat.not_le.mpr hspills), List.take_replicate,
        Nat.min_eq_left (Nat.le_of_lt hspills)]
    · rw [List.drop_replicate]

/-- The bytes that a call of `set` is to put into the buffer. -/
def Setting.bytes : Setting → List UInt8
  | value codec v => codec.encode v
  | u8s v => v
  | u8sFill val count => List.replicate count val

theorem forSetBlocks_nil {body : σ → Block → Nat → Block × (σ ⊕ ρ)} {s : σ} {r : ρ}
    (h : ∀ block setPos, body s block setPos = (block, .inr r)) (stop : σ → ρ) {initPos : Nat}
    {blocks : List Block} (hoff : initPos ≤ headLen blocks) :
    (forSetBlocks body stop initPos s blocks).2 = blocks ∧
      ((forSetBlocks body stop initPos s blocks).1 = r ∨
        (bytesOf blocks).length ≤ initPos) := by
  induction blocks generalizing initPos with
  | nil => exact ⟨rfl, .inr (Nat.zero_le _)⟩
  | cons block rest ih =>
      rw [headLen] at hoff
      rw [forSetBlocks]
      by_cases hpass : passesOver initPos block = true
      · have hinit := (len_of_passesOver hoff).mp hpass
        obtain ⟨hrest, hresult⟩ := ih (Nat.zero_le _)
        rw [if_pos hpass, bytesOf_cons, List.length_append, block.length_asBytes]
        refine ⟨congrArg (List.cons block) hrest, hresult.imp_right fun hle => ?_⟩
        omega
      · rw [if_neg hpass, h]
        exact ⟨rfl, .inl rfl⟩

namespace ByteBuf

variable {buf : ByteBuf} {index : Nat}

theorem overwrites_nil (buf : ByteBuf) (index : Nat) : Overwrites buf buf index [] := by
  refine ⟨?_, rfl, rfl, rfl, List.forall₂_same.mpr fun b _ => Block.sameFrame_refl b⟩
  rw [List.nil_append, List.length_nil, Nat.add_zero, List.take_append_drop]

theorem setWith_nil {body : σ → Block → Nat → Block × (σ ⊕ ρ)} {s : σ} {r : ρ}
    (h : ∀ block setPos, body s block setPos = (block, .inr r)) (stop : σ → ρ)
    {p : Position buf.blocks} (hp : buf.locateIdx index = .ok p) :
    ∃ r', buf.setWith index body stop s = some (r', buf) ∧ (r' = r ∨ buf.len ≤ index) := by
  obtain ⟨-, hpos, -⟩ := locateIdx_ok hp
  obtain ⟨-, hoff, -⟩ := bytesOf_located hp
  obtain ⟨hblocks, hresult⟩ := forSetBlocks_nil h stop hoff
  have hsplit := content_located hp (buf.blocks.drop p.idx)
  rw [List.take_append_drop] at hsplit
  have hlen : buf.content.length = (bytesOf ((buf.blocks.take p.idx).drop buf.idx)).length +
      (bytesOf (buf.blocks.drop p.idx)).length := by
    rw [content, hsplit, List.length_append]
  rw [setWith, hp]
  dsimp only
  refine ⟨_, ?_, hresult.imp_right fun hle => ?_⟩
  · congr 2
    rw [ByteBuf.mk.injEq]
    refine ⟨?_, rfl, rfl⟩
    rw [hblocks, List.take_append_drop]
  · rw [buf.len_eq]
    omega

theorem setWith_fails {α : Type} {body : σ → Block → Nat → Block × (σ ⊕ Except Error α)}
    {left : σ → List UInt8} {result : σ → Except Error α} (h : SetsLeft body left result)
    (hok : ∀ s e, result s ≠ .error e)
    {s : σ} (hnil : left s = [] → ∀ block setPos, body s block setPos = (block, .inr (result s)))
    {stop : σ → Except Error α} {e : Error} {buf' : ByteBuf}
    (hset : buf.setWith index body stop s = some (.error e, buf')) :
    index ≤ buf.len ∧ buf.len ≤ index + (left s).length ∧
      Overwrites buf buf' index ((left s).take (buf.len - index)) := by
  have hfound : ∃ p, buf.locateIdx index = .ok p := by
    rw [setWith] at hset
    split at hset
    · cases hset
    · exact ⟨_, ‹_›⟩
  obtain ⟨p, hp⟩ := hfound
  have hindex : index ≤ buf.len := buf.len_eq ▸ (bytesOf_located hp).1
  by_cases hne : left s = []
  · obtain ⟨r, hset', hr⟩ := setWith_nil (hnil hne) stop hp
    rw [hset] at hset'
    cases hset'
    rw [hne, List.take_nil]
    exact ⟨hindex, hr.elim (fun h => absurd h.symm (hok s e)) id, overwrites_nil buf index⟩
  · obtain ⟨r, buf'', hset', hover, hresult, -⟩ := setWith_spec h stop hp hne
    rw [hset] at hset'
    cases hset'
    refine ⟨hindex, Nat.le_of_not_le fun hle => ?_, hover⟩
    exact hok s e (hresult hle).symm

theorem readWith_fails {α : Type} {body : σ → Block → Block × (σ ⊕ Except Error α)}
    {step : σ → UInt8 → σ ⊕ Except Error α} {live : σ → Prop} (h : Scans body step live)
    (hok : ∀ {s x r}, step s x = .inr r → ∀ e, r ≠ .error e) {stop : σ → Except Error α} {s : σ}
    (hs : live s) {e : Error} (hread : (buf.readWith body stop s).1 = .error e) :
    (buf.readWith body stop s).2.content = [] := by
  have hscan := buf.readWith_scan h stop hs
  split at hscan
  · exact (Prod.mk.inj hscan).2
  · rename_i r hr
    have hresult : (buf.readWith body stop s).1 = r.1 := congrArg Prod.fst hscan
    exact absurd (hresult.symm.trans hread) (scan_result hok hr e)

end ByteBuf

theorem takeStep_ok {α : Type} {f : List UInt8 → α} {s : Nat × List UInt8} {x : UInt8}
    {r : Except Error α} (h : takeStep (fun v => Except.ok (f v)) s x = .inr r) (e : Error) :
    r ≠ .error e := by
  obtain ⟨n, taken⟩ := s
  rw [takeStep] at h
  split at h
  · cases h
    exact fun h => by cases h
  · cases h

theorem varintStep_ok {bits : Nat} {s : Nat × Nat} {x : UInt8} {r : Except Error Nat}
    (h : varintStep bits s x = .inr r) (e : Error) : r ≠ .error e := by
  obtain ⟨v, shift⟩ := s
  rw [varintStep] at h
  split at h
  · cases h
    exact fun h => by cases h
  · cases h

theorem result_failed {α : Type} {f : α → BufEvent} (hf : ∀ a e, f a ≠ .failed e)
    {r : Except Error α × ByteBuf} {e : Error} {buf : ByteBuf} (h : result f r = (.failed e, buf)) :
    r = (.error e, buf) := by
  obtain ⟨value | value, buf'⟩ := r
  · cases h
    rfl
  · exact absurd (Prod.mk.inj h).1 (hf value e)

theorem Codec.read_fails {codec : Codec} {target : Endian} {buf buf' : ByteBuf} {e : Error}
    (h : codec.read target buf = (.error e, buf')) : buf'.content = [] := by
  have hread : (codec.read target buf).1 = .error e := by rw [h]
  have hbuf : (codec.read target buf).2 = buf' := by rw [h]
  rw [← hbuf]
  rw [Codec.read] at hread ⊢
  split at hread
  · rename_i hshape
    refine ByteBuf.readWith_fails scans_readByteBody (fun hr e => ?_) trivial hread
    cases hr
    exact fun h => by cases h
  · rename_i size order hshape
    have hsize := size_of_fixed hshape
    rw [readFixed, readBody_eq] at hread ⊢
    exact ByteBuf.readWith_fails (scans_readBytesBody _) takeStep_ok (by dsimp only; omega) hread
  · exact ByteBuf.readWith_fails (scans_readVarintBody _) varintStep_ok trivial hread

theorem u8s.readExact_fails {n : Nat} {buf buf' : ByteBuf} {e : Error}
    (h : u8s.readExact n buf = (.error e, buf')) : buf'.content = [] := by
  rcases Nat.lt_or_ge buf.content.length n with hlt | hle
  · have hread := (Prod.mk.inj (u8s.readExact_error hlt)).2
    rw [h] at hread
    exact hread
  · have hread := (Prod.mk.inj (u8s.readExact_ok hle)).1
    rw [h] at hread
    cases hread

theorem Reading.run_failed {r : Reading} {target : Endian} {buf buf' : ByteBuf} {e : Error}
    (h : r.run target buf = (.failed e, buf')) : buf'.content = [] := by
  cases r with
  | value codec => exact Codec.read_fails (result_failed (fun _ _ h => by cases h) h)
  | u8s => exact u8s.readExact_fails (result_failed (fun _ _ h => by cases h) h)
  | u8sExact n => exact u8s.readExact_fails (result_failed (fun _ _ h => by cases h) h)
  | reader n => cases h
  | next => cases h

theorem Setting.run_failed {s : Setting} {target : Endian} {index : Nat} {buf buf' : ByteBuf}
    {e : Error} (h : s.run target index buf = some (.failed e, buf')) :
    index ≤ buf.len ∧ buf.len ≤ index + s.bytes.length ∧
      ByteBuf.Overwrites buf buf' index (s.bytes.take (buf.len - index)) := by
  have hset : ∀ {r : Option (Except Error Nat × ByteBuf)},
      r.map (result .count) = some (.failed e, buf') → r = some (.error e, buf') := by
    intro r hr
    obtain ⟨r', hr', hresult⟩ := Option.map_eq_some_iff.mp hr
    rw [hr', result_failed (fun _ _ h => by cases h) hresult]
  have hok : ∀ (n : Nat) (e : Error), Except.ok n ≠ .error e := fun _ _ h => by cases h
  cases s with
  | value codec v =>
      have hcodec := hset h
      rw [bytes, Codec.encode]
      rcases hshape : codec.shape with _ | ⟨size, order⟩ | bits
      · simp only [Codec.set, hshape] at hcodec
        exact ByteBuf.setWith_fails (setsLeft_setByteBody _) (fun _ => hok _)
          (fun h => by cases h) hcodec
      · have hsize := Codec.size_of_fixed hshape
        simp only [Codec.set, hshape, memoryOf_eq hsize] at hcodec
        refine ByteBuf.setWith_fails (setsLeft_setBody size) (fun _ => hok _) (fun hnil => ?_)
          hcodec
        have hlen : (bytesFor order size v).length = 0 := congrArg List.length hnil
        rw [length_bytesFor] at hlen
        omega
      · simp only [Codec.set, hshape] at hcodec
        exact ByteBuf.setWith_fails setsLeft_setVarintBody (fun _ => hok _)
          (fun hnil => absurd hnil (varint_ne_nil v)) hcodec
  | u8s v =>
      refine ByteBuf.setWith_fails (setsLeft_setBody v.length) (fun _ => hok _)
        (fun hnil block setPos => ?_) (hset h)
      rw [id] at hnil
      rw [hnil, setBody, List.length_nil, if_pos (Nat.zero_le _), Block.copyTo_nil]
  | u8sFill val count =>
      refine ByteBuf.setWith_fails (setsLeft_setFillBody val count) (fun _ => hok _)
        (fun hnil block setPos => ?_) (hset h)
      have hzero : count = 0 := (List.replicate_eq_nil_iff val).mp hnil
      rw [setFillBody, hzero, if_pos (Nat.zero_le _), List.replicate_zero, Block.copyTo_nil]

/-- A read that fails has taken all the bytes there were, and a set that fails has put as many of
its bytes over those from the index on as these are. -/
theorem failing_codecs (target : Endian) (buf : ByteBuf) :
    (∀ (r : Reading) (buf' : ByteBuf), r.run target buf = (.failed .underflow, buf') →
      buf'.content = [] ∧ (buf'.content = buf.content ↔ buf.content = [])) ∧
    ∀ (s : Setting) (index : Nat) (buf' : ByteBuf),
      s.run target index buf = some (.failed .indexOutOfBounds, buf') →
        ByteBuf.Overwrites buf buf' index (s.bytes.take (buf.len - index)) ∧
          (buf'.content = buf.content ↔ buf.content.drop index <+: s.bytes) := by
  refine ⟨fun r buf' h => ?_, fun s index buf' h => ?_⟩
  · have hnil := Reading.run_failed h
    exact ⟨hnil, by rw [hnil]; exact eq_comm⟩
  · obtain ⟨hindex, hshort, hover⟩ := Setting.run_failed h
    refine ⟨hover, ?_⟩
    rw [buf.len_eq] at hindex hshort hover
    have hcontent : buf'.content = overwrite buf.content index s.bytes := by
      rw [hover.content, ← overwrite_take, overwrite_of_le (by rw [List.length_take]; omega)]
    rw [hcontent, overwrite_eq_self_iff hindex hshort]

/-- A read of four bytes takes the two that there are. -/
theorem short_read_empties :
    (u32be.read .little (ByteBuf.ofVec 0 [1, 2] [])).1 = .error .underflow ∧
      (ByteBuf.ofVec 0 [1, 2] []).content = [1, 2] ∧
        (u32be.read .little (ByteBuf.ofVec 0 [1, 2] [])).2.content = [] := by
  decide

theorem failing_codecs_of_three :
    ∃ buf', (Setting.value .u16be 0x0102).run .little 2 (ByteBuf.ofVec 0 [7, 8, 9] []) =
        some (.failed .indexOutOfBounds, buf') ∧ buf'.content = [7, 8, 1] := by
  refine ⟨_, rfl, ?_⟩
  exact (((failing_codecs .little (ByteBuf.ofVec 0 [7, 8, 9] [])).2 (.value .u16be 0x0102) 2 _
    rfl).1).content

end Ruyi.Buf
