import Ruyi.Buf.Prepend

namespace Ruyi.Buf

variable {σ ρ : Type}

namespace ByteBuf

variable {buf buf' : ByteBuf} {allocs allocs' : List Nat} {bytes : List UInt8}

theorem bytesOf_blocks (buf : ByteBuf) :
    bytesOf buf.blocks = bytesOf buf.passed ++ buf.content := by
  rw [passed, content, ← bytesOf_append, List.take_append_drop]

theorem clean_iff : buf.Clean ↔ bytesOf buf.passed = [] := by
  rw [Clean, bytesOf, List.flatMap_eq_nil_iff]
  exact forall₂_congr fun block _ => block.asBytes_eq_nil_iff.symm

theorem content_eq_iff_clean (hclean : buf.Clean)
    (hbytes : bytesOf buf'.blocks = bytes ++ bytesOf buf.blocks) :
    buf'.content = bytes ++ buf.content ↔ buf'.Clean := by
  rw [bytesOf_blocks, bytesOf_blocks buf, clean_iff.mp hclean, List.nil_append] at hbytes
  rw [clean_iff]
  constructor
  · intro hcontent
    have hlen := congrArg List.length hbytes
    rw [hcontent, List.length_append] at hlen
    exact List.eq_nil_of_length_eq_zero (by omega)
  · intro hnil
    rw [hnil, List.nil_append] at hbytes
    exact hbytes

theorem clean_of_idx (h : buf.idx = 0) : buf.Clean := by
  rw [Clean, passed, h, List.take_zero]
  simp

theorem not_clean_of_first {first : Block} {rest : List Block}
    (hblocks : buf.blocks = first :: rest) (hfirst : first.asBytes ≠ []) (hidx : 0 < buf.idx) :
    ¬ buf.Clean := by
  intro hclean
  refine hfirst (first.asBytes_eq_nil_iff.mpr (hclean first ?_))
  obtain ⟨k, hk⟩ := Nat.exists_eq_succ_of_ne_zero (Nat.ne_of_gt hidx)
  rw [passed, hblocks, hk, List.take_succ_cons]
  exact List.mem_cons_self

theorem WritesLeftDown.region {body : σ → Block → Block × (σ ⊕ ρ)} {left : σ → List UInt8}
    {result : σ → ρ} (h : WritesLeftDown body left result) (s : σ) (block : Block) :
    (body s block).1.region = block.region := by
  rcases Nat.lt_or_ge block.prependable (left s).length with hspills | hfits
  · obtain ⟨s', hbody, -⟩ := h.spills s block hspills
    rw [hbody, Block.region_prepend]
  · rw [h.fits s block hfits, Block.region_prepend]

theorem regions_setFirst {block block' : Block} (hfirst : buf.blocks.head? = some block)
    (hregion : block'.region = block.region) : (buf.setFirst block').regions = buf.regions := by
  obtain ⟨rest, hblocks⟩ := List.head?_eq_some_iff.mp hfirst
  rw [regions, regions, blocks_setFirst block' hblocks, hblocks, List.map_cons, List.map_cons,
    hregion]

theorem reshapes_cons {size : Nat} {block : Block} (hregion : block.region =
    ⟨allocs.length, 0, size⟩) (hblocks : buf'.blocks = block :: buf.blocks) :
    Base.Reshapes allocs buf.regions (allocs ++ [size]) buf'.regions := by
  rw [regions, regions, hblocks, List.map_cons, hregion]
  exact .alloc size

theorem reshapes_prependLoop {body : σ → Block → Block × (σ ⊕ ρ)} {fuel : Nat} {s : σ} {r : ρ}
    (hbody : ∀ s block, (body s block).1.region = block.region)
    (h : prependLoop body fuel s buf allocs = some (r, buf', allocs')) :
    Base.Reshapes allocs buf.regions allocs' buf'.regions := by
  induction fuel generalizing s buf allocs with
  | zero => cases h
  | succ fuel ih =>
      rw [prependLoop] at h
      split at h
      · exact (reshapes_cons rfl (blocks_prependBlock buf allocs 0)).trans (ih h)
      · rename_i block hfirst
        have hregion := hbody s block
        split at h
        · rename_i block' result heq
          rw [heq] at hregion
          cases h
          exact .of_eq (regions_setFirst hfirst hregion).symm
        · rename_i block' s' heq
          rw [heq] at hregion
          refine Base.Reshapes.trans ?_ (ih h)
          rw [← regions_setFirst hfirst hregion]
          exact reshapes_cons rfl (blocks_prependBlock _ allocs 0)

theorem prependVec_cases (buf : ByteBuf) (allocs : List Nat) (bytes spare : List UInt8) :
    (buf.prependVec allocs bytes spare).1.idx = buf.idx ∧
      (buf.prependVec allocs bytes spare).2 = allocs ++ [bytes.length + spare.length] ∧
      ((buf.prependVec allocs bytes spare).1.blocks =
          Block.ofVec allocs.length bytes spare :: buf.blocks ∧ headRoom buf.blocks < 512 ∨
        ∃ first rest, buf.blocks = first :: rest ∧ 512 ≤ headRoom buf.blocks ∧
          (buf.prependVec allocs bytes spare).1.blocks =
            (first.splitOff 0 (Nat.zero_le _)).1 :: Block.ofVec allocs.length bytes spare ::
              (first.splitOff 0 (Nat.zero_le _)).2 :: rest) := by
  rw [prependVec]
  dsimp only
  split
  · rename_i first hfirst
    obtain ⟨rest, hcons⟩ := List.head?_eq_some_iff.mp hfirst
    have hroom : headRoom buf.blocks = first.prependable := by
      rw [hcons]
      rfl
    split
    · rename_i hle
      refine ⟨rfl, rfl, .inr ⟨first, rest, hcons, hroom ▸ hle, ?_⟩⟩
      dsimp only
      rw [hcons]
      rfl
    · rename_i hlt
      rw [hroom]
      exact ⟨rfl, rfl, .inl ⟨rfl, Nat.lt_of_not_le hlt⟩⟩
  · rename_i hnone
    have hnil : buf.blocks = [] := List.head?_eq_none_iff.mp hnone
    refine ⟨rfl, rfl, .inl ⟨rfl, ?_⟩⟩
    rw [hnil]
    decide

theorem asBytes_splitOff_zero (block : Block) :
    (block.splitOff 0 (Nat.zero_le _)).1.asBytes = [] ∧
      (block.splitOff 0 (Nat.zero_le _)).2.asBytes = block.asBytes := by
  rw [Block.asBytes_splitOff_fst, Block.asBytes_splitOff_snd]
  exact ⟨List.take_zero, List.drop_zero⟩

theorem bytesOf_prependVec (buf : ByteBuf) (allocs : List Nat) (bytes spare : List UInt8) :
    bytesOf (buf.prependVec allocs bytes spare).1.blocks = bytes ++ bytesOf buf.blocks := by
  obtain ⟨-, -, ⟨hblocks, -⟩ | ⟨first, rest, hcons, -, hblocks⟩⟩ :=
    prependVec_cases buf allocs bytes spare
  · rw [hblocks, bytesOf_cons, Block.asBytes_ofVec]
  · obtain ⟨hkept, htail⟩ := asBytes_splitOff_zero first
    rw [hblocks, hcons, bytesOf_cons, bytesOf_cons, bytesOf_cons, bytesOf_cons, hkept, htail,
      Block.asBytes_ofVec]
    rfl

/-- A long vector is in sight when readers have passed no block, or only the first, behind the
free part of which it is put. -/
theorem clean_prependVec_iff {spare : List UInt8} (hne : bytes ≠ []) :
    (buf.prependVec allocs bytes spare).1.Clean ↔
      buf.idx = 0 ∨ buf.idx = 1 ∧ 512 ≤ headRoom buf.blocks := by
  have hvec : (Block.ofVec allocs.length bytes spare).asBytes ≠ [] := by
    rw [Block.asBytes_ofVec]
    exact hne
  obtain ⟨hidx, -, ⟨hblocks, hroom⟩ | ⟨first, rest, hcons, hroom, hblocks⟩⟩ :=
    prependVec_cases buf allocs bytes spare
  · constructor
    · intro hclean
      rcases Nat.eq_zero_or_pos buf.idx with hzero | hpos
      · exact .inl hzero
      · exact absurd hclean (not_clean_of_first hblocks hvec (hidx ▸ hpos))
    · rintro (hzero | ⟨-, hle⟩)
      · exact clean_of_idx (hidx.trans hzero)
      · exact absurd hroom (Nat.not_lt.mpr hle)
  · rw [clean_iff, passed, hidx, hblocks]
    rcases buf.idx with _ | _ | k
    · exact ⟨fun _ => .inl rfl, fun _ => rfl⟩
    · refine ⟨fun _ => .inr ⟨rfl, hroom⟩, fun _ => ?_⟩
      rw [List.take_succ_cons, List.take_zero, bytesOf_cons, (asBytes_splitOff_zero first).1]
      rfl
    · constructor
      · intro hnil
        rw [List.take_succ_cons, List.take_succ_cons, bytesOf_cons, bytesOf_cons,
          List.append_eq_nil_iff, List.append_eq_nil_iff] at hnil
        exact absurd hnil.2.1 hvec
      · rintro (hzero | ⟨hone, -⟩)
        · cases hzero
        · cases hone

theorem reshapes_prependVec (buf : ByteBuf) (allocs : List Nat) (bytes spare : List UInt8) :
    Base.Reshapes allocs buf.regions (buf.prependVec allocs bytes spare).2
      (buf.prependVec allocs bytes spare).1.regions := by
  obtain ⟨-, hallocs, ⟨hblocks, -⟩ | ⟨first, rest, hcons, -, hblocks⟩⟩ :=
    prependVec_cases buf allocs bytes spare
  · rw [hallocs]
    exact reshapes_cons rfl hblocks
  · rw [hallocs, regions, regions, hblocks, hcons]
    have hsplit := (reshapes_splitOff allocs first 0 (Nat.zero_le _)).append_right
      (rest.map Block.region)
    refine hsplit.trans ((Base.Reshapes.alloc _).trans (.of_perm ?_))
    exact List.Perm.swap _ _ _

end ByteBuf

/-- `prepend` of the module for a value. -/
def Codec.prepend (codec : Codec) (target : Endian) (v fuel : Nat) (buf : ByteBuf)
    (allocs : List Nat) : Option (Nat × ByteBuf × List Nat) :=
  match codec.shape with
  | .byte => buf.prependLoop (ByteBuf.prependByteBody (UInt8.ofNat v)) fuel () allocs
  | .fixed size order =>
      buf.prependLoop (ByteBuf.prependBody size) fuel (memoryOf order target size v) allocs
  | .varint _ =>
      buf.prependLoop (ByteBuf.prependVarintBody v) fuel ((ByteBuf.topShift v 0, 0), 0) allocs

def u8s.prepend (v : List UInt8) (fuel : Nat) (buf : ByteBuf) (allocs : List Nat) :
    Option (Nat × ByteBuf × List Nat) :=
  buf.prependLoop (ByteBuf.prependBody v.length) fuel v allocs

/-- `u8s::prepend_bytes`, with a vector that has room for `spare` behind its elements `v`. -/
def u8s.prependBytes (v spare : List UInt8) (fuel : Nat) (buf : ByteBuf) (allocs : List Nat) :
    Option (Nat × ByteBuf × List Nat) :=
  if v.length < 6 * 1024 then u8s.prepend v fuel buf allocs
  else some (v.length, buf.prependVec allocs v spare)

def u8s.prependFill (val : UInt8) (count fuel : Nat) (buf : ByteBuf) (allocs : List Nat) :
    Option (Nat × ByteBuf × List Nat) :=
  buf.prependLoop (ByteBuf.prependFillBody val count) fuel count allocs

/-- What is prepended, and how. -/
inductive Prepending where
  | value (codec : Codec) (v : Nat)
  | u8s (v : List UInt8)
  | u8sBytes (v spare : List UInt8)
  | u8sFill (val : UInt8) (count : Nat)

namespace Prepending

def bytes : Prepending → List UInt8
  | value codec v => codec.encode v
  | u8s v => v
  | u8sBytes v _ => v
  | u8sFill val count => List.replicate count val

def run (p : Prepending) (target : Endian) (fuel : Nat) (buf : ByteBuf) (allocs : List Nat) :
    Option (Nat × ByteBuf × List Nat) :=
  match p with
  | value codec v => codec.prepend target v fuel buf allocs
  | u8s v => u8s.prepend v fuel buf allocs
  | u8sBytes v spare => u8s.prependBytes v spare fuel buf allocs
  | u8sFill val count => u8s.prependFill val count fuel buf allocs

/-- A vector that becomes a block of its own. -/
def IsLong : Prepending → Prop
  | u8sBytes v _ => 6 * 1024 ≤ v.length
  | _ => False

instance (p : Prepending) : Decidable p.IsLong := by
  cases p <;> unfold IsLong <;> infer_instance

/-- The bytes do not go before where readers are, but for a long vector that is put behind the
free part of the only block that they have passed, which has nothing left to read. -/
def InSight (p : Prepending) (buf : ByteBuf) : Prop :=
  buf.idx = 0 ∨ p.bytes = [] ∨
    (p.IsLong ∧ buf.idx = 1 ∧ 512 ≤ ByteBuf.headRoom buf.blocks) ∧ buf.Clean

instance (p : Prepending) (buf : ByteBuf) : Decidable (p.InSight buf) :=
  inferInstanceAs (Decidable (_ ∨ _))

theorem run_cases (p : Prepending) (target : Endian) :
    (∃ (σ : Type) (body : σ → Block → Block × (σ ⊕ Nat)) (left : σ → List UInt8)
        (result : σ → Nat) (s : σ), ByteBuf.WritesLeftDown body left result ∧ left s = p.bytes ∧
      result s = p.bytes.length ∧ ¬ p.IsLong ∧
      ∀ fuel buf allocs, p.run target fuel buf allocs = buf.prependLoop body fuel s allocs) ∨
    p.IsLong ∧ ∃ spare, ∀ fuel buf allocs,
      p.run target fuel buf allocs =
        some (p.bytes.length, buf.prependVec allocs p.bytes spare) := by
  cases p with
  | value codec v =>
      left
      simp only [run, bytes, Codec.prepend, Codec.encode]
      rcases hshape : codec.shape with _ | ⟨size, order⟩ | bits
      · exact ⟨_, _, _, _, (), ByteBuf.writesLeftDown_prependByteBody _, rfl, rfl, id,
          fun _ _ _ => rfl⟩
      · refine ⟨_, _, _, _, _, ByteBuf.writesLeftDown_prependBody _, ?_, ?_, id, fun _ _ _ => rfl⟩
        · exact memoryOf_eq (Codec.size_of_fixed hshape) order target v
        · exact (length_bytesFor order size v).symm
      · refine ⟨_, _, _, _, _, ByteBuf.writesLeftDown_prependVarintBody v, ?_, ?_, id,
          fun _ _ _ => rfl⟩
        · exact (ByteBuf.varint_eq_down v).symm
        · rw [ByteBuf.varint_eq_down]
          exact Nat.zero_add _
  | u8s v =>
      exact .inl ⟨_, _, _, _, v, ByteBuf.writesLeftDown_prependBody _, rfl, rfl, id,
        fun _ _ _ => rfl⟩
  | u8sBytes v spare =>
      rcases Nat.lt_or_ge v.length (6 * 1024) with hshort | hlong
      · refine .inl ⟨_, _, _, _, v, ByteBuf.writesLeftDown_prependBody _, rfl, rfl,
          Nat.not_le.mpr hshort, fun _ _ _ => ?_⟩
        exact if_pos hshort
      · exact .inr ⟨hlong, spare, fun _ _ _ => if_neg (Nat.not_lt.mpr hlong)⟩
  | u8sFill val count =>
      refine .inl ⟨_, _, _, _, count, ByteBuf.writesLeftDown_prependFillBody val count, rfl, ?_, id,
        fun _ _ _ => rfl⟩
      exact List.length_replicate.symm

variable {p : Prepending} {target : Endian} {fuel n : Nat} {buf buf' : ByteBuf}
  {allocs allocs' : List Nat}

theorem bytes_ne_nil_of_long (h : p.IsLong) : p.bytes ≠ [] := by
  cases p with
  | u8sBytes v spare =>
      intro hnil
      have hlen : 6 * 1024 ≤ v.length := h
      rw [show v = [] from hnil] at hlen
      exact absurd hlen (by decide)
  | _ => exact h.elim

theorem run_some (h : p.run target fuel buf allocs = some (n, buf', allocs')) :
    n = p.bytes.length ∧ buf'.idx = buf.idx ∧
      bytesOf buf'.blocks = p.bytes ++ bytesOf buf.blocks := by
  rcases p.run_cases target with ⟨σ, body, left, result, s, hbody, hleft, hresult, -, hrun⟩ |
    ⟨-, spare, hrun⟩
  · rw [hrun, ByteBuf.prependLoop_eq hbody, hleft, hresult] at h
    obtain ⟨⟨n', r⟩, hloop, heq⟩ := Option.map_eq_some_iff.mp h
    cases heq
    obtain ⟨-, hidx, hbytes, -⟩ := ByteBuf.prependLoop_some hloop
    exact ⟨rfl, hidx, hbytes⟩
  · rw [hrun] at h
    obtain ⟨rfl, heq⟩ := Prod.mk.inj (Option.some.inj h)
    have hidx := (ByteBuf.prependVec_cases buf allocs p.bytes spare).1
    have hbytes := ByteBuf.bytesOf_prependVec buf allocs p.bytes spare
    rw [heq] at hidx hbytes
    exact ⟨rfl, hidx, hbytes⟩

theorem blocks_run_of_nil (hnil : p.bytes = []) (hpos : 0 < buf.idx)
    (h : p.run target fuel buf allocs = some (n, buf', allocs')) : buf'.blocks = buf.blocks := by
  rcases p.run_cases target with ⟨σ, body, left, result, s, hbody, hleft, -, -, hrun⟩ |
    ⟨hlong, -⟩
  · rw [hrun, ByteBuf.prependLoop_eq hbody, hleft, hnil] at h
    obtain ⟨⟨n', r⟩, hloop, heq⟩ := Option.map_eq_some_iff.mp h
    cases heq
    refine ByteBuf.prependLoop_nil ?_ hloop
    intro hblocks
    have hle := buf.idx_le
    rw [hblocks] at hle
    exact absurd hpos (Nat.not_lt.mpr hle)
  · exact absurd hnil (bytes_ne_nil_of_long hlong)

theorem clean_run_iff_of_ne_nil (hne : p.bytes ≠ [])
    (h : p.run target fuel buf allocs = some (n, buf', allocs')) :
    buf'.Clean ↔ buf.idx = 0 ∨ p.IsLong ∧ buf.idx = 1 ∧ 512 ≤ ByteBuf.headRoom buf.blocks := by
  have hidx := (run_some h).2.1
  rcases p.run_cases target with ⟨σ, body, left, result, s, hbody, hleft, -, hshort, hrun⟩ |
    ⟨hlong, spare, hrun⟩
  · rw [hrun, ByteBuf.prependLoop_eq hbody, hleft] at h
    obtain ⟨⟨n', r⟩, hloop, heq⟩ := Option.map_eq_some_iff.mp h
    cases heq
    obtain ⟨first, rest, hcons, hnonempty⟩ := (ByteBuf.prependLoop_some hloop).2.2.2 hne
    constructor
    · intro hclean
      rcases Nat.eq_zero_or_pos buf.idx with hzero | hpos
      · exact .inl hzero
      · exact absurd hclean (ByteBuf.not_clean_of_first hcons hnonempty (hidx ▸ hpos))
    · rintro (hzero | ⟨hlong, -⟩)
      · exact ByteBuf.clean_of_idx (hidx.trans hzero)
      · exact absurd hlong hshort
  · rw [hrun] at h
    obtain ⟨-, heq⟩ := Prod.mk.inj (Option.some.inj h)
    have hclean := @ByteBuf.clean_prependVec_iff buf allocs _ spare hne
    rw [heq] at hclean
    rw [hclean]
    exact or_congr_right (and_iff_right hlong).symm

theorem clean_run_iff (hclean : buf.Clean)
    (h : p.run target fuel buf allocs = some (n, buf', allocs')) :
    buf'.Clean ↔ p.InSight buf := by
  rcases eq_or_ne p.bytes [] with hnil | hne
  · refine iff_of_true ?_ (.inr (.inl hnil))
    have hidx := (run_some h).2.1
    rcases Nat.eq_zero_or_pos buf.idx with hzero | hpos
    · exact ByteBuf.clean_of_idx (hidx.trans hzero)
    · rw [ByteBuf.Clean, ByteBuf.passed, blocks_run_of_nil hnil hpos h, hidx]
      exact hclean
  · rw [clean_run_iff_of_ne_nil hne h]
    constructor
    · rintro (hzero | hlong)
      · exact .inl hzero
      · exact .inr (.inr ⟨hlong, hclean⟩)
    · rintro (hzero | hnil | ⟨hlong, -⟩)
      · exact .inl hzero
      · exact absurd hnil hne
      · exact .inr hlong

theorem content_run (hin : p.InSight buf)
    (h : p.run target fuel buf allocs = some (n, buf', allocs')) :
    buf'.content = p.bytes ++ buf.content := by
  obtain ⟨-, hidx, hbytes⟩ := run_some h
  have hclean : buf.Clean → buf'.content = p.bytes ++ buf.content := fun hclean =>
    (ByteBuf.content_eq_iff_clean hclean hbytes).mpr ((clean_run_iff hclean h).mpr hin)
  rcases hin with hzero | hnil | ⟨-, hlong⟩
  · exact hclean (ByteBuf.clean_of_idx hzero)
  · rcases Nat.eq_zero_or_pos buf.idx with hzero | hpos
    · exact hclean (ByteBuf.clean_of_idx hzero)
    · rw [ByteBuf.content, ByteBuf.content, blocks_run_of_nil hnil hpos h, hidx, hnil,
        List.nil_append]
  · exact hclean hlong

theorem content_run_iff (hclean : buf.Clean)
    (h : p.run target fuel buf allocs = some (n, buf', allocs')) :
    buf'.content = p.bytes ++ buf.content ↔ p.InSight buf :=
  (ByteBuf.content_eq_iff_clean hclean (run_some h).2.2).trans (clean_run_iff hclean h)

theorem exists_run (p : Prepending) (target : Endian) (buf : ByteBuf) (allocs : List Nat)
    (hgrowth : 0 < buf.growth) (hfuel : p.bytes.length + 2 ≤ fuel) :
    ∃ r, p.run target fuel buf allocs = some r := by
  rcases p.run_cases target with ⟨σ, body, left, result, s, hbody, hleft, -, -, hrun⟩ |
    ⟨-, spare, hrun⟩
  · have hturns : p.bytes.length + (if ByteBuf.headRoom buf.blocks = 0 then 2 else 1) ≤ fuel := by
      split <;> omega
    obtain ⟨r, hloop⟩ := @ByteBuf.exists_prependLoop fuel 0 _ _ allocs hgrowth hturns
    rw [hrun, ByteBuf.prependLoop_eq hbody, hleft, hloop]
    exact ⟨_, rfl⟩
  · exact ⟨_, hrun fuel buf allocs⟩

theorem reshapes_run (h : p.run target fuel buf allocs = some (n, buf', allocs')) :
    Base.Reshapes allocs buf.regions allocs' buf'.regions := by
  rcases p.run_cases target with ⟨σ, body, left, result, s, hbody, -, -, -, hrun⟩ |
    ⟨-, spare, hrun⟩
  · rw [hrun] at h
    exact ByteBuf.reshapes_prependLoop hbody.region h
  · rw [hrun] at h
    obtain ⟨-, heq⟩ := Prod.mk.inj (Option.some.inj h)
    have hvec := ByteBuf.reshapes_prependVec buf allocs p.bytes spare
    rw [heq] at hvec
    exact hvec

end Prepending

end Ruyi.Buf
