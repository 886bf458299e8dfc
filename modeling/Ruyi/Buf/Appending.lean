import Ruyi.Buf.Append

namespace Ruyi.Buf

variable {σ ρ : Type}

namespace ByteBuf

/-- The addresses of the blocks of a buffer. -/
def regions (buf : ByteBuf) : List Base.Region := buf.blocks.map Block.region

/-- The blocks that readers have passed. -/
def passed (buf : ByteBuf) : List Block := buf.blocks.take buf.idx

/-- Nothing is left to read in the blocks that readers have passed. -/
def Clean (buf : ByteBuf) : Prop := ∀ block ∈ buf.passed, block.isEmpty = true

instance (buf : ByteBuf) : Decidable buf.Clean :=
  inferInstanceAs (Decidable (∀ block ∈ buf.passed, _))

/-- Bytes appended are not put into a block that readers have passed. -/
def AppendsInSight (buf : ByteBuf) : Prop := buf.idx < buf.blocks.length ∨ room buf.blocks = 0

instance (buf : ByteBuf) : Decidable buf.AppendsInSight :=
  inferInstanceAs (Decidable (_ ∨ _))

variable {buf buf' : ByteBuf} {allocs allocs' : List Nat} {bytes : List UInt8} {new : List Block}

theorem fillLast_of_not_spilling (h : room buf.blocks = 0 ∨ bytes = []) :
    fillLast buf.blocks bytes = buf.blocks := by
  rcases List.eq_nil_or_concat buf.blocks with hnil | ⟨init, last, hconcat⟩
  · rw [hnil]
    rfl
  · rw [List.concat_eq_append] at hconcat
    rw [hconcat] at h ⊢
    rw [fillLast_concat]
    rcases h with hfull | rfl
    · rw [room_concat] at hfull
      rw [Block.append_of_full hfull]
    · rw [Block.append_nil]

theorem drop_eq_self_iff {α : Type} {n : Nat} {xs : List α} :
    xs.drop n = xs ↔ n = 0 ∨ xs = [] := by
  constructor
  · intro h
    have hlen := congrArg List.length h
    rw [List.length_drop] at hlen
    rcases Nat.eq_zero_or_pos n with hzero | hpos
    · exact .inl hzero
    · exact .inr (List.eq_nil_of_length_eq_zero (by omega))
  · rintro (rfl | rfl)
    · exact List.drop_zero
    · exact List.drop_nil

theorem exists_concat_of_idx (hidx : buf.idx < buf.blocks.length) :
    ∃ init last, buf.blocks = init ++ [last] ∧ buf.idx ≤ init.length := by
  rcases List.eq_nil_or_concat buf.blocks with hnil | ⟨init, last, hconcat⟩
  · rw [hnil] at hidx
    exact absurd hidx (Nat.not_lt_zero _)
  · rw [List.concat_eq_append] at hconcat
    refine ⟨init, last, hconcat, ?_⟩
    rw [hconcat, List.length_append, List.length_singleton] at hidx
    exact Nat.le_of_lt_succ hidx

theorem content_fillLast (hidx : buf.idx < buf.blocks.length)
    (hblocks : buf'.blocks = fillLast buf.blocks bytes ++ new)
    (hnew : bytesOf new = bytes.drop (room buf.blocks)) (hsame : buf'.idx = buf.idx) :
    buf'.content = buf.content ++ bytes := by
  obtain ⟨init, last, hconcat, hle⟩ := exists_concat_of_idx hidx
  rw [content, content, hsame, hblocks, hconcat, fillLast_concat, List.append_assoc,
    List.drop_append_of_le_length hle, List.drop_append_of_le_length hle, bytesOf_append,
    bytesOf_append, bytesOf_append, bytesOf_cons, bytesOf_cons, bytesOf_nil,
    Block.asBytes_append, hnew, hconcat, room_concat]
  simp only [List.append_nil, List.append_assoc, List.take_append_drop]

theorem content_fillLast_of_passed (hidx : buf.idx = buf.blocks.length)
    (hblocks : buf'.blocks = fillLast buf.blocks bytes ++ new)
    (hnew : bytesOf new = bytes.drop (room buf.blocks)) (hsame : buf'.idx = buf.idx) :
    buf'.content = bytes.drop (room buf.blocks) := by
  have hlen : buf.idx = (fillLast buf.blocks bytes).length := by
    rw [length_fillLast, hidx]
  rw [content, hsame, hblocks, hlen, List.drop_left, hnew]

theorem passed_fillLast (h : buf.AppendsInSight ∨ bytes = [])
    (hblocks : buf'.blocks = fillLast buf.blocks bytes ++ new) (hsame : buf'.idx = buf.idx) :
    buf'.passed = buf.passed := by
  rcases Nat.lt_or_ge buf.idx buf.blocks.length with hidx | hidx
  · obtain ⟨init, last, hconcat, hle⟩ := exists_concat_of_idx hidx
    rw [passed, passed, hsame, hblocks, hconcat, fillLast_concat, List.append_assoc,
      List.take_append_of_le_length hle, List.take_append_of_le_length hle]
  · have hfull : room buf.blocks = 0 ∨ bytes = [] := by
      rcases h with (hlt | hroom) | hnil
      · exact absurd hlt (Nat.not_lt.mpr hidx)
      · exact .inl hroom
      · exact .inr hnil
    rw [passed, passed, hsame, hblocks, fillLast_of_not_spilling hfull,
      List.take_append_of_le_length buf.idx_le]

theorem WritesLeft.region {body : σ → Block → Block × (σ ⊕ ρ)} {left : σ → List UInt8}
    {result : σ → ρ} (h : WritesLeft body left result) (s : σ) (block : Block) :
    (body s block).1.region = block.region := by
  rcases Nat.lt_or_ge block.appendable (left s).length with hspills | hfits
  · obtain ⟨s', hbody, -⟩ := h.spills s block hspills
    rw [hbody, Block.region_append]
  · rw [h.fits s block hfits, Block.region_append]

theorem regions_setLast {block block' : Block} (hlast : buf.blocks.getLast? = some block)
    (hregion : block'.region = block.region) : (buf.setLast block').regions = buf.regions := by
  obtain ⟨init, hconcat⟩ := List.getLast?_eq_some_iff.mp hlast
  rw [regions, regions, blocks_setLast block' hconcat, hconcat, List.map_append, List.map_append,
    List.map_singleton, List.map_singleton, hregion]

theorem reshapes_concat {size : Nat} {block : Block} (hregion : block.region =
    ⟨allocs.length, 0, size⟩) (hblocks : buf'.blocks = buf.blocks ++ [block]) :
    Base.Reshapes allocs buf.regions (allocs ++ [size]) buf'.regions := by
  rw [regions, regions, hblocks, List.map_append, List.map_singleton, hregion]
  exact (Base.Reshapes.alloc size).trans (.of_perm (List.perm_append_singleton _ _).symm)

theorem reshapes_appendBlock (buf : ByteBuf) (allocs : List Nat) (minCapacity : Nat) :
    Base.Reshapes allocs buf.regions (buf.appendBlock allocs minCapacity).2
      (buf.appendBlock allocs minCapacity).1.regions :=
  reshapes_concat rfl (blocks_appendBlock buf allocs minCapacity)

theorem reshapes_appendLoop {body : σ → Block → Block × (σ ⊕ ρ)} {fuel : Nat} {s : σ} {r : ρ}
    (hbody : ∀ s block, (body s block).1.region = block.region)
    (h : appendLoop body fuel s buf allocs = some (r, buf', allocs')) :
    Base.Reshapes allocs buf.regions allocs' buf'.regions := by
  induction fuel generalizing s buf allocs with
  | zero => cases h
  | succ fuel ih =>
      rw [appendLoop] at h
      split at h
      · exact (reshapes_appendBlock buf allocs 0).trans (ih h)
      · rename_i block hlast
        have hregion := hbody s block
        split at h
        · rename_i block' result heq
          rw [heq] at hregion
          cases h
          exact .of_eq (regions_setLast hlast hregion).symm
        · rename_i block' s' heq
          rw [heq] at hregion
          refine Base.Reshapes.trans ?_ (ih h)
          rw [← regions_setLast hlast hregion]
          exact reshapes_appendBlock _ allocs 0

theorem appendVec_cases (buf : ByteBuf) (allocs : List Nat) (bytes spare : List UInt8) :
    (buf.appendVec allocs bytes spare).1.idx = buf.idx ∧
      (buf.appendVec allocs bytes spare).2 = allocs ++ [bytes.length + spare.length] ∧
      ((buf.appendVec allocs bytes spare).1.blocks =
          buf.blocks ++ [Block.ofVec allocs.length bytes spare] ∨
        ∃ init last, buf.blocks = init ++ [last] ∧
          (buf.appendVec allocs bytes spare).1.blocks =
            init ++ [(last.splitOff last.len (Nat.le_refl _)).1,
              Block.ofVec allocs.length bytes spare,
              (last.splitOff last.len (Nat.le_refl _)).2]) := by
  rw [appendVec]
  dsimp only
  split
  · rename_i last hlast
    split
    · obtain ⟨init, hconcat⟩ := List.getLast?_eq_some_iff.mp hlast
      refine ⟨rfl, rfl, .inr ⟨init, last, hconcat, ?_⟩⟩
      dsimp only
      rw [blocks_setLast _ hconcat, List.append_assoc]
      rfl
    · exact ⟨rfl, rfl, .inl rfl⟩
  · exact ⟨rfl, rfl, .inl rfl⟩

theorem asBytes_splitOff_len (block : Block) :
    (block.splitOff block.len (Nat.le_refl _)).1.asBytes = block.asBytes ∧
      (block.splitOff block.len (Nat.le_refl _)).2.asBytes = [] := by
  have hlen := Block.length_asBytes block
  rw [Block.asBytes_splitOff_fst, Block.asBytes_splitOff_snd]
  exact ⟨List.take_of_length_le (Nat.le_of_eq hlen), List.drop_of_length_le (Nat.le_of_eq hlen)⟩

theorem content_appendVec (buf : ByteBuf) (allocs : List Nat) (bytes spare : List UInt8) :
    (buf.appendVec allocs bytes spare).1.content = buf.content ++ bytes := by
  obtain ⟨hidx, -, hblocks | ⟨init, last, hconcat, hblocks⟩⟩ :=
    appendVec_cases buf allocs bytes spare
  · rw [content, content, hidx, hblocks, List.drop_append_of_le_length buf.idx_le, bytesOf_append,
      bytesOf_cons, bytesOf_nil, List.append_nil, Block.asBytes_ofVec]
  · obtain ⟨hkept, htail⟩ := asBytes_splitOff_len last
    have hle : buf.idx ≤ init.length ∨ buf.idx = init.length + 1 := by
      have := buf.idx_le
      rw [hconcat, List.length_append, List.length_singleton] at this
      omega
    rw [content, content, hidx, hblocks, hconcat]
    rcases hle with hle | heq
    · rw [List.drop_append_of_le_length hle, List.drop_append_of_le_length hle]
      simp only [bytesOf_append, bytesOf_cons, bytesOf_nil, hkept, htail, Block.asBytes_ofVec,
        List.append_nil, List.append_assoc]
    · rw [heq, List.drop_append, List.drop_append]
      simp [htail]

theorem clean_appendVec {spare : List UInt8} (h : buf.Clean) :
    (buf.appendVec allocs bytes spare).1.Clean := by
  obtain ⟨hidx, -, hblocks | ⟨init, last, hconcat, hblocks⟩⟩ :=
    appendVec_cases buf allocs bytes spare
  · rw [Clean, passed, hidx, hblocks, List.take_append_of_le_length buf.idx_le]
    exact h
  · have hle := buf.idx_le
    rw [Clean, passed, hconcat] at h
    rw [hconcat, List.length_append, List.length_singleton] at hle
    rw [Clean, passed, hidx, hblocks]
    intro block hmem
    rcases Nat.lt_or_ge init.length buf.idx with hlt | hle'
    · have heq : buf.idx = init.length + 1 := by omega
      rw [heq, List.take_append] at h hmem
      simp only [Nat.add_sub_cancel_left, List.take_succ_cons, List.take_zero] at h hmem
      rcases List.mem_append.mp hmem with hmem | hmem
      · exact h block (List.mem_append_left _ hmem)
      · rw [List.mem_singleton.mp hmem, ← Block.asBytes_eq_nil_iff, (asBytes_splitOff_len last).1,
          Block.asBytes_eq_nil_iff]
        exact h last (List.mem_append_right _ (List.mem_singleton.mpr rfl))
    · rw [List.take_append_of_le_length hle'] at h hmem
      exact h block hmem

theorem reshapes_splitOff (allocs : List Nat) (block : Block) (pos : Nat) (h : pos ≤ block.len) :
    Base.Reshapes allocs [block.region] allocs
      [(block.splitOff pos h).1.region, (block.splitOff pos h).2.region] := by
  obtain ⟨hleft, hright, hcut⟩ := block.region_splitOff pos h
  exact .split hleft hright hcut

theorem reshapes_appendVec (buf : ByteBuf) (allocs : List Nat) (bytes spare : List UInt8) :
    Base.Reshapes allocs buf.regions (buf.appendVec allocs bytes spare).2
      (buf.appendVec allocs bytes spare).1.regions := by
  obtain ⟨-, hallocs, hblocks | ⟨init, last, hconcat, hblocks⟩⟩ :=
    appendVec_cases buf allocs bytes spare
  · rw [hallocs]
    exact reshapes_concat rfl hblocks
  · rw [hallocs, regions, regions, hblocks, hconcat, List.map_append, List.map_append]
    refine Base.Reshapes.append_left ?_ _
    refine (reshapes_splitOff _ last last.len (Nat.le_refl _)).trans ?_
    refine (Base.Reshapes.alloc _).trans (.of_perm ?_)
    exact List.Perm.swap _ _ _

end ByteBuf

/-- `append` of the module for a value. -/
def Codec.append (codec : Codec) (target : Endian) (v fuel : Nat) (buf : ByteBuf)
    (allocs : List Nat) : Option (Nat × ByteBuf × List Nat) :=
  match codec.shape with
  | .byte => buf.appendLoop (ByteBuf.appendByteBody (UInt8.ofNat v)) fuel () allocs
  | .fixed size order =>
      buf.appendLoop (ByteBuf.appendBody size) fuel (memoryOf order target size v) allocs
  | .varint _ => buf.appendLoop ByteBuf.appendVarintBody fuel (v, 0) allocs

def u8s.append (v : List UInt8) (fuel : Nat) (buf : ByteBuf) (allocs : List Nat) :
    Option (Nat × ByteBuf × List Nat) :=
  buf.appendLoop (ByteBuf.appendBody v.length) fuel v allocs

/-- `u8s::append_bytes`, with a vector that has room for `spare` behind its elements `v`. -/
def u8s.appendBytes (v spare : List UInt8) (fuel : Nat) (buf : ByteBuf) (allocs : List Nat) :
    Option (Nat × ByteBuf × List Nat) :=
  if v.length < 6 * 1024 then u8s.append v fuel buf allocs
  else some (v.length, buf.appendVec allocs v spare)

def u8s.appendFill (val : UInt8) (count fuel : Nat) (buf : ByteBuf) (allocs : List Nat) :
    Option (Nat × ByteBuf × List Nat) :=
  buf.appendLoop (ByteBuf.appendFillBody val count) fuel count allocs

def Writer.write (v : List UInt8) (fuel : Nat) (buf : ByteBuf) (allocs : List Nat) :
    Option (Nat × ByteBuf × List Nat) :=
  buf.appendLoop (ByteBuf.appendBody v.length) fuel v allocs

/-- What is appended, and how. -/
inductive Appending where
  | value (codec : Codec) (v : Nat)
  | u8s (v : List UInt8)
  | u8sBytes (v spare : List UInt8)
  | u8sFill (val : UInt8) (count : Nat)
  | write (v : List UInt8)

namespace Appending

def bytes : Appending → List UInt8
  | value codec v => codec.encode v
  | u8s v => v
  | u8sBytes v _ => v
  | u8sFill val count => List.replicate count val
  | write v => v

def run (a : Appending) (target : Endian) (fuel : Nat) (buf : ByteBuf) (allocs : List Nat) :
    Option (Nat × ByteBuf × List Nat) :=
  match a with
  | value codec v => codec.append target v fuel buf allocs
  | u8s v => u8s.append v fuel buf allocs
  | u8sBytes v spare => u8s.appendBytes v spare fuel buf allocs
  | u8sFill val count => u8s.appendFill val count fuel buf allocs
  | write v => Writer.write v fuel buf allocs

/-- A vector that becomes a block of its own. -/
def IsLong : Appending → Prop
  | u8sBytes v _ => 6 * 1024 ≤ v.length
  | _ => False

instance (a : Appending) : Decidable a.IsLong := by
  cases a <;> unfold IsLong <;> infer_instance

/-- The bytes do not go where readers have passed. -/
def InSight (a : Appending) (buf : ByteBuf) : Prop :=
  (buf.AppendsInSight ∨ a.bytes = []) ∨ a.IsLong

instance (a : Appending) (buf : ByteBuf) : Decidable (a.InSight buf) :=
  inferInstanceAs (Decidable (_ ∨ _))

/-- Every way to append is one of the loops over the bytes, but for long vectors. -/
theorem run_cases (a : Appending) (target : Endian) :
    (∃ (σ : Type) (body : σ → Block → Block × (σ ⊕ Nat)) (left : σ → List UInt8)
        (result : σ → Nat) (s : σ), ByteBuf.WritesLeft body left result ∧ left s = a.bytes ∧
      result s = a.bytes.length ∧ ¬ a.IsLong ∧
      ∀ fuel buf allocs, a.run target fuel buf allocs = buf.appendLoop body fuel s allocs) ∨
    a.IsLong ∧ ∃ spare, ∀ fuel buf allocs,
      a.run target fuel buf allocs = some (a.bytes.length, buf.appendVec allocs a.bytes spare) := by
  cases a with
  | value codec v =>
      left
      simp only [run, bytes, Codec.append, Codec.encode]
      rcases hshape : codec.shape with _ | ⟨size, order⟩ | bits
      · exact ⟨_, _, _, _, (), ByteBuf.writesLeft_appendByteBody _, rfl, rfl, id, fun _ _ _ => rfl⟩
      · refine ⟨_, _, _, _, _, ByteBuf.writesLeft_appendBody _, ?_, ?_, id, fun _ _ _ => rfl⟩
        · exact memoryOf_eq (Codec.size_of_fixed hshape) order target v
        · exact (length_bytesFor order size v).symm
      · refine ⟨_, _, _, _, _, ByteBuf.writesLeft_appendVarintBody, rfl, ?_, id, fun _ _ _ => rfl⟩
        exact Nat.zero_add _
  | u8s v =>
      exact .inl ⟨_, _, _, _, v, ByteBuf.writesLeft_appendBody _, rfl, rfl, id, fun _ _ _ => rfl⟩
  | u8sBytes v spare =>
      rcases Nat.lt_or_ge v.length (6 * 1024) with hshort | hlong
      · refine .inl ⟨_, _, _, _, v, ByteBuf.writesLeft_appendBody _, rfl, rfl,
          Nat.not_le.mpr hshort, fun _ _ _ => ?_⟩
        exact if_pos hshort
      · exact .inr ⟨hlong, spare, fun _ _ _ => if_neg (Nat.not_lt.mpr hlong)⟩
  | u8sFill val count =>
      refine .inl ⟨_, _, _, _, count, ByteBuf.writesLeft_appendFillBody val count, rfl, ?_, id,
        fun _ _ _ => rfl⟩
      exact List.length_replicate.symm
  | write v =>
      exact .inl ⟨_, _, _, _, v, ByteBuf.writesLeft_appendBody _, rfl, rfl, id, fun _ _ _ => rfl⟩

variable {a : Appending} {target : Endian} {fuel n : Nat} {buf buf' : ByteBuf}
  {allocs allocs' : List Nat}

theorem run_ok (a : Appending) (target : Endian) (buf : ByteBuf) (allocs : List Nat)
    (hgrowth : 0 < buf.growth) (hfuel : a.bytes.length + 2 ≤ fuel) :
    ∃ buf' allocs', a.run target fuel buf allocs = some (a.bytes.length, buf', allocs') ∧
      (buf'.content = buf.content ++ a.bytes ↔ a.InSight buf) := by
  rcases a.run_cases target with ⟨σ, body, left, result, s, hbody, hleft, hresult, hshort, hrun⟩ |
    ⟨hlong, spare, hrun⟩
  · have hturns : a.bytes.length + (if ByteBuf.room buf.blocks = 0 then 2 else 1) ≤ fuel := by
      split <;> omega
    obtain ⟨⟨n, buf', allocs'⟩, hloop⟩ :=
      @ByteBuf.exists_appendLoop fuel 0 _ _ allocs hgrowth hturns
    obtain ⟨-, hidx, -, new, hblocks, hnew⟩ := ByteBuf.appendLoop_some hloop
    refine ⟨buf', allocs', ?_, ?_⟩
    · rw [hrun, ByteBuf.appendLoop_eq hbody, hleft, hloop, hresult]
      rfl
    · rcases Nat.lt_or_ge buf.idx buf.blocks.length with hin | hout
      · refine ⟨fun _ => .inl (.inl (.inl hin)), fun _ => ?_⟩
        exact ByteBuf.content_fillLast hin hblocks hnew hidx
      · have hpassed := Nat.le_antisymm buf.idx_le hout
        rw [ByteBuf.content_fillLast_of_passed hpassed hblocks hnew hidx, ByteBuf.content, hpassed,
          List.drop_length, bytesOf_nil, List.nil_append, ByteBuf.drop_eq_self_iff]
        constructor
        · rintro (hroom | hnil)
          · exact .inl (.inl (.inr hroom))
          · exact .inl (.inr hnil)
        · rintro (((hlt | hroom) | hnil) | hlong)
          · exact absurd hlt (Nat.not_lt.mpr hout)
          · exact .inl hroom
          · exact .inr hnil
          · exact absurd hlong hshort
  · refine ⟨_, _, hrun fuel buf allocs, fun _ => .inr hlong, fun _ => ?_⟩
    exact ByteBuf.content_appendVec buf allocs a.bytes spare

theorem reshapes_run (h : a.run target fuel buf allocs = some (n, buf', allocs')) :
    Base.Reshapes allocs buf.regions allocs' buf'.regions := by
  rcases a.run_cases target with ⟨σ, body, left, result, s, hbody, -, -, -, hrun⟩ |
    ⟨-, spare, hrun⟩
  · rw [hrun] at h
    exact ByteBuf.reshapes_appendLoop hbody.region h
  · rw [hrun] at h
    obtain ⟨-, heq⟩ := Prod.mk.inj (Option.some.inj h)
    have hvec := ByteBuf.reshapes_appendVec buf allocs a.bytes spare
    rw [heq] at hvec
    exact hvec

theorem clean_run (hclean : buf.Clean) (hin : a.InSight buf)
    (h : a.run target fuel buf allocs = some (n, buf', allocs')) : buf'.Clean := by
  rcases a.run_cases target with ⟨σ, body, left, result, s, hbody, hleft, -, hshort, hrun⟩ |
    ⟨-, spare, hrun⟩
  · rw [hrun, ByteBuf.appendLoop_eq hbody, hleft] at h
    obtain ⟨⟨n', r⟩, hloop, heq⟩ := Option.map_eq_some_iff.mp h
    cases heq
    obtain ⟨-, hidx, -, new, hblocks, -⟩ := ByteBuf.appendLoop_some hloop
    rw [ByteBuf.Clean, ByteBuf.passed_fillLast (hin.resolve_right hshort) hblocks hidx]
    exact hclean
  · rw [hrun] at h
    obtain ⟨-, heq⟩ := Prod.mk.inj (Option.some.inj h)
    have hvec : (buf.appendVec allocs a.bytes spare).1.Clean := ByteBuf.clean_appendVec hclean
    rw [heq] at hvec
    exact hvec

end Appending

end Ruyi.Buf
