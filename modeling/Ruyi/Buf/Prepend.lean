import Ruyi.Buf.Appending

namespace Ruyi.Buf

variable {σ ρ : Type}

namespace ByteBuf

/-- `prepend_block`. -/
def prependBlock (buf : ByteBuf) (allocs : List Nat) (minCapacity : Nat) : ByteBuf × List Nat :=
  let cap := if minCapacity ≤ buf.growth then buf.growth else minCapacity
  ({ buf with
      blocks := Block.forPrependable allocs.length cap :: buf.blocks
      idx_le := Nat.le_succ_of_le buf.idx_le },
    allocs ++ [cap])

theorem idx_le_cons_tail (buf : ByteBuf) (block : Block) :
    buf.idx ≤ (block :: buf.blocks.tail).length := by
  have := buf.idx_le
  rw [List.length_cons, List.length_tail]
  omega

/-- What a caller of `first_mut` has made of the first block. -/
def setFirst (buf : ByteBuf) (block : Block) : ByteBuf :=
  { buf with
    blocks := block :: buf.blocks.tail
    idx_le := buf.idx_le_cons_tail block }

/-- The loop of `prepend`: `body` is what is done with the first block, and either returns or goes
on with a new one. -/
def prependLoop (body : σ → Block → Block × (σ ⊕ ρ)) :
    Nat → σ → ByteBuf → List Nat → Option (ρ × ByteBuf × List Nat)
  | 0, _, _, _ => none
  | fuel + 1, s, buf, allocs =>
      match buf.blocks.head? with
      | none =>
          let r := buf.prependBlock allocs 0
          prependLoop body fuel s r.1 r.2
      | some block =>
          match body s block with
          | (block, .inr result) => some (result, buf.setFirst block, allocs)
          | (block, .inl s) =>
              let r := (buf.setFirst block).prependBlock allocs 0
              prependLoop body fuel s r.1 r.2

/-- The body of `u8s::prepend` and of the fixed-width codecs; the state is what is left of the
bytes, of which the last go first. -/
def prependBody (result : Nat) (bytes : List UInt8) (block : Block) :
    Block × (List UInt8 ⊕ Nat) :=
  if bytes.length ≤ block.prependable then (block.prepend bytes, .inr result)
  else
    let n := bytes.length - block.prependable
    (block.prepend (bytes.drop n), .inl (bytes.take n))

/-- The body of `u8s::prepend_fill`. -/
def prependFillBody (val : UInt8) (count n : Nat) (block : Block) : Block × (Nat ⊕ Nat) :=
  if n ≤ block.prependable then (block.prepend (List.replicate n val), .inr count)
  else
    (block.prepend (List.replicate block.prependable val), .inl (n - block.prependable))

/-- The body of `u8::prepend`. -/
def prependByteBody (v : UInt8) (_ : Unit) (block : Block) : Block × (Unit ⊕ Nat) :=
  if 0 < block.prependable then (block.prepend [v], .inr 1) else (block, .inl ())

/-- The first loop of `varint::prepend`: where the last group of the number starts. -/
def topShift (v shift : Nat) : Nat :=
  if v >>> shift > 0x7F then topShift v (shift + 7) else shift
termination_by v >>> shift
decreasing_by
  rw [Nat.shiftRight_add, Nat.shiftRight_eq_div_pow _ 7]
  omega

/-- The loop over the positions of a block in `varint::prepend`, from the last one down: the bytes
written, in the order of memory, and the state when there is no room for more. -/
def prependRun (v : Nat) : (room : Nat) → (shift flag : Nat) → List UInt8 × Option (Nat × Nat)
  | 0, shift, flag => ([], some (shift, flag))
  | room + 1, shift, flag =>
      let b := UInt8.ofNat (v >>> shift ||| flag)
      if shift = 0 then ([b], none)
      else
        let r := prependRun v room (shift - 7) 0x80
        (r.1 ++ [b], r.2)

/-- The body of `varint::prepend`, which counts the bytes. -/
def prependVarintBody (v : Nat) : (Nat × Nat) × Nat → Block → Block × (((Nat × Nat) × Nat) ⊕ Nat)
  | ((shift, flag), n), block =>
      let r := prependRun v block.prependable shift flag
      (block.prepend r.1,
        match r.2 with
        | none => .inr (n + r.1.length)
        | some s => .inl (s, n + r.1.length))

/-- `prepend_bytes`, for a vector whose elements are `bytes` and which has room for `spare`. -/
def prependVec (buf : ByteBuf) (allocs : List Nat) (bytes spare : List UInt8) :
    ByteBuf × List Nat :=
  let block := Block.ofVec allocs.length bytes spare
  let allocs := allocs ++ [bytes.length + spare.length]
  match buf.blocks.head? with
  | some first =>
      if 512 ≤ first.prependable then
        let split := first.splitOff 0 (Nat.zero_le _)
        ({ buf with
            blocks := split.1 :: block :: split.2 :: buf.blocks.tail
            idx_le := Nat.le_trans (buf.idx_le_cons_tail split.2) (Nat.le_add_right _ 2) },
          allocs)
      else
        ({ buf with
            blocks := block :: buf.blocks
            idx_le := Nat.le_succ_of_le buf.idx_le },
          allocs)
  | none =>
      ({ buf with
          blocks := block :: buf.blocks
          idx_le := Nat.le_succ_of_le buf.idx_le },
        allocs)

theorem blocks_prependBlock (buf : ByteBuf) (allocs : List Nat) (minCapacity : Nat) :
    (buf.prependBlock allocs minCapacity).1.blocks = Block.forPrependable allocs.length
      (if minCapacity ≤ buf.growth then buf.growth else minCapacity) :: buf.blocks := rfl

theorem blocks_setFirst {buf : ByteBuf} {first : Block} {rest : List Block} (block : Block)
    (h : buf.blocks = first :: rest) : (buf.setFirst block).blocks = block :: rest := by
  show block :: buf.blocks.tail = block :: rest
  rw [h]
  rfl

/-- A body that writes the bytes `left s` from the last to the first, as many as fit, and returns
when all are written. -/
structure WritesLeftDown (body : σ → Block → Block × (σ ⊕ ρ)) (left : σ → List UInt8)
    (result : σ → ρ) : Prop where
  fits : ∀ s block, (left s).length ≤ block.prependable →
    body s block = (block.prepend (left s), .inr (result s))
  spills : ∀ s block, block.prependable < (left s).length →
    ∃ s', body s block = (block.prepend (left s), .inl s') ∧
      left s' = (left s).take ((left s).length - block.prependable) ∧ result s' = result s

theorem writesLeftDown_prependBody (result : Nat) :
    WritesLeftDown (prependBody result) id fun _ => result := by
  constructor
  · intro bytes block hfits
    exact if_pos hfits
  · intro bytes block hspills
    have hnot : ¬ bytes.length ≤ block.prependable := Nat.not_le.mpr hspills
    refine ⟨_, ?_, rfl, rfl⟩
    rw [prependBody, if_neg hnot]
    dsimp only
    rw [Block.prepend_drop]
    rfl

theorem writesLeftDown_prependFillBody (val : UInt8) (count : Nat) :
    WritesLeftDown (prependFillBody val count) (List.replicate · val) fun _ => count := by
  constructor
  · intro n block hfits
    rw [List.length_replicate] at hfits
    exact if_pos hfits
  · intro n block hspills
    rw [List.length_replicate] at hspills
    refine ⟨n - block.prependable, ?_, ?_, rfl⟩
    · have hdrop : (List.replicate n val).drop
          ((List.replicate n val).length - block.prependable) =
            List.replicate block.prependable val := by
        rw [List.drop_replicate, List.length_replicate, Nat.sub_sub_self (Nat.le_of_lt hspills)]
      rw [prependFillBody, if_neg (Nat.not_le.mpr hspills), ← hdrop, Block.prepend_drop]
    · rw [List.take_replicate, List.length_replicate, Nat.min_eq_left (Nat.sub_le _ _)]

theorem writesLeftDown_prependByteBody (v : UInt8) :
    WritesLeftDown (prependByteBody v) (fun _ => [v]) fun _ => 1 := by
  constructor
  · intro s block hfits
    exact if_pos hfits
  · intro s block hspills
    have hfull : block.prependable = 0 := Nat.lt_one_iff.mp hspills
    refine ⟨(), ?_, ?_, rfl⟩
    · rw [prependByteBody, if_neg (Nat.not_lt.mpr (Nat.le_of_eq hfull)),
        Block.prepend_of_full hfull]
    · rw [hfull]
      rfl

/-- The bytes from the last group of a number down, in the order of memory. -/
def varintDown (v shift flag : Nat) : List UInt8 :=
  let b := UInt8.ofNat (v >>> shift ||| flag)
  if _h : shift = 0 then [b] else varintDown v (shift - 7) 0x80 ++ [b]
termination_by shift
decreasing_by omega

theorem varintDown_zero (v flag : Nat) : varintDown v 0 flag = [UInt8.ofNat (v ||| flag)] := by
  rw [varintDown, dif_pos rfl, Nat.shiftRight_zero]

theorem varintDown_of_ne {v shift flag : Nat} (h : shift ≠ 0) :
    varintDown v shift flag =
      varintDown v (shift - 7) 0x80 ++ [UInt8.ofNat (v >>> shift ||| flag)] := by
  rw [varintDown, dif_neg h]

theorem varintDown_succ (v k flag : Nat) :
    varintDown v (7 * k + 7) flag =
      UInt8.ofNat (v ||| 0x80) :: varintDown (v >>> 7) (7 * k) flag := by
  induction k generalizing flag with
  | zero =>
      rw [varintDown_of_ne (by omega), Nat.mul_zero, Nat.zero_add, Nat.sub_self, varintDown_zero,
        varintDown_zero]
      rfl
  | succ k ih =>
      have hshift : v >>> (7 * (k + 1) + 7) = (v >>> 7) >>> (7 * (k + 1)) := by
        rw [← Nat.shiftRight_add, Nat.add_comm]
      rw [varintDown_of_ne (by omega), Nat.add_sub_cancel, Nat.mul_succ, ih, ← Nat.mul_succ, hshift,
        @varintDown_of_ne _ (7 * (k + 1)) _ (by omega), Nat.mul_succ, Nat.add_sub_cancel]
      rfl

theorem topShift_add (v shift : Nat) : topShift v (shift + 7) = topShift (v >>> 7) shift + 7 := by
  have hshift : ∀ s, v >>> (s + 7) = (v >>> 7) >>> s := by
    intro s
    rw [← Nat.shiftRight_add, Nat.add_comm]
  fun_induction topShift (v >>> 7) shift with
  | case1 shift hlt ih =>
      rw [topShift, hshift, if_pos hlt, ih]
  | case2 shift hle =>
      rw [topShift, hshift, if_neg hle]

/-- From its last group down, `prepend` writes what `append` writes. -/
theorem varint_eq_down (v : Nat) : varint v = varintDown v (topShift v 0) 0 := by
  have hgroups : ∃ k, topShift v 0 = 7 * k ∧ varint v = varintDown v (7 * k) 0 := by
    fun_induction varint v with
    | case1 v hzero =>
        have hle : ¬ v >>> 0 > 0x7F := by
          rw [Nat.shiftRight_zero]
          rw [Nat.shiftRight_eq_div_pow] at hzero
          omega
        refine ⟨0, ?_, ?_⟩
        · rw [topShift, if_neg hle]
        · rw [Nat.mul_zero, varintDown_zero, Nat.or_zero]
    | case2 v hne ih =>
        obtain ⟨k, htop, hvarint⟩ := ih
        have hlt : v >>> 0 > 0x7F := by
          rw [Nat.shiftRight_zero]
          rw [Nat.shiftRight_eq_div_pow] at hne
          omega
        refine ⟨k + 1, ?_, ?_⟩
        · rw [topShift, if_pos hlt, topShift_add, htop, Nat.mul_succ]
        · rw [hvarint, Nat.mul_succ, varintDown_succ]
  obtain ⟨k, htop, hvarint⟩ := hgroups
  rw [htop]
  exact hvarint

theorem prependRun_eq (v room shift flag : Nat) :
    (prependRun v room shift flag).1 =
        (varintDown v shift flag).drop ((varintDown v shift flag).length - room) ∧
      match (prependRun v room shift flag).2 with
      | none => (varintDown v shift flag).length ≤ room
      | some s => room < (varintDown v shift flag).length ∧ varintDown v s.1 s.2 =
          (varintDown v shift flag).take ((varintDown v shift flag).length - room) := by
  induction room generalizing shift flag with
  | zero =>
      have hpos : 0 < (varintDown v shift flag).length := by
        rw [varintDown]
        split <;> simp
      refine ⟨?_, hpos, ?_⟩
      · rw [Nat.sub_zero, List.drop_length]
        rfl
      · rw [Nat.sub_zero, List.take_length]
  | succ room ih =>
      rw [prependRun]
      dsimp only
      split
      · rename_i hzero
        rw [hzero, varintDown_zero, Nat.shiftRight_zero]
        refine ⟨?_, ?_⟩
        · rw [List.length_singleton, Nat.sub_eq_zero_of_le (by omega), List.drop_zero]
        · exact Nat.succ_le_succ (Nat.zero_le _)
      · rename_i hne
        obtain ⟨hdrop, hleft⟩ := ih (shift - 7) 0x80
        have hlen : (varintDown v (shift - 7) 0x80 ++ [UInt8.ofNat (v >>> shift ||| flag)]).length -
            (room + 1) = (varintDown v (shift - 7) 0x80).length - room := by
          rw [List.length_append, List.length_singleton]
          omega
        rw [varintDown_of_ne hne, hlen, List.drop_append_of_le_length (Nat.sub_le _ _),
          List.take_append_of_le_length (Nat.sub_le _ _), hdrop]
        refine ⟨rfl, ?_⟩
        rw [List.length_append, List.length_singleton]
        split
        · rename_i hnone
          rw [hnone] at hleft
          exact Nat.succ_le_succ hleft
        · rename_i s hsome
          rw [hsome] at hleft
          exact ⟨Nat.succ_lt_succ hleft.1, hleft.2⟩

theorem writesLeftDown_prependVarintBody (v : Nat) :
    WritesLeftDown (prependVarintBody v) (fun s => varintDown v s.1.1 s.1.2)
      fun s => s.2 + (varintDown v s.1.1 s.1.2).length := by
  constructor
  · rintro ⟨⟨shift, flag⟩, n⟩ block hfits
    obtain ⟨hdrop, hleft⟩ := prependRun_eq v block.prependable shift flag
    rw [prependVarintBody]
    dsimp only at hfits ⊢
    rw [hdrop, Block.prepend_drop, Nat.sub_eq_zero_of_le hfits, List.drop_zero]
    split at hleft
    · rfl
    · exact absurd hleft.1 (Nat.not_lt.mpr hfits)
  · rintro ⟨⟨shift, flag⟩, n⟩ block hspills
    obtain ⟨hdrop, hleft⟩ := prependRun_eq v block.prependable shift flag
    rw [prependVarintBody]
    dsimp only at hspills ⊢
    rw [hdrop, Block.prepend_drop]
    split at hleft
    · exact absurd hspills (Nat.not_lt.mpr hleft)
    · refine ⟨_, rfl, hleft.2, ?_⟩
      dsimp only
      rw [hleft.2, List.length_take, List.length_drop]
      omega

theorem prependLoop_eq {body : σ → Block → Block × (σ ⊕ ρ)} {left : σ → List UInt8}
    {result : σ → ρ} (h : WritesLeftDown body left result) (fuel : Nat) (s : σ) (buf : ByteBuf)
    (allocs : List Nat) :
    prependLoop body fuel s buf allocs =
      (prependLoop (prependBody 0) fuel (left s) buf allocs).map fun r => (result s, r.2) := by
  induction fuel generalizing s buf allocs with
  | zero => rfl
  | succ fuel ih =>
      rw [prependLoop, prependLoop]
      split
      · exact ih s _ _
      · rename_i block _
        rcases Nat.lt_or_ge block.prependable (left s).length with hspills | hfits
        · obtain ⟨s', hbody, hleft, hresult⟩ := h.spills s block hspills
          obtain ⟨_, hcopy, rfl, -⟩ := (writesLeftDown_prependBody 0).spills (left s) block hspills
          rw [hbody, hcopy]
          dsimp only
          rw [ih, hleft, hresult]
          rfl
        · rw [h.fits s block hfits, (writesLeftDown_prependBody 0).fits (left s) block hfits]
          rfl

/-- The room before the first byte. -/
def headRoom (blocks : List Block) : Nat :=
  match blocks with
  | [] => 0
  | first :: _ => first.prependable

theorem headRoom_prependBlock (buf : ByteBuf) (allocs : List Nat) :
    headRoom (buf.prependBlock allocs 0).1.blocks = buf.growth := by
  rw [blocks_prependBlock, if_pos (Nat.zero_le _)]
  rfl

theorem prependLoop_some {fuel n result : Nat} {bytes : List UInt8} {buf buf' : ByteBuf}
    {allocs allocs' : List Nat}
    (h : prependLoop (prependBody result) fuel bytes buf allocs = some (n, buf', allocs')) :
    n = result ∧ buf'.idx = buf.idx ∧ bytesOf buf'.blocks = bytes ++ bytesOf buf.blocks ∧
      (bytes ≠ [] → ∃ first rest, buf'.blocks = first :: rest ∧ first.asBytes ≠ []) := by
  induction fuel generalizing bytes buf allocs with
  | zero => cases h
  | succ fuel ih =>
      rw [prependLoop] at h
      rcases hblocks : buf.blocks with _ | ⟨first, rest⟩
      · rw [hblocks] at h
        obtain ⟨hn, hidx, hbytes, hfirst⟩ := ih h
        refine ⟨hn, hidx, ?_, hfirst⟩
        rw [hbytes, blocks_prependBlock, bytesOf_cons, Block.asBytes_forPrependable, hblocks]
        rfl
      · rw [hblocks] at h
        dsimp only [List.head?_cons] at h
        rcases Nat.lt_or_ge first.prependable bytes.length with hspills | hfits
        · obtain ⟨_, hbody, rfl, -⟩ :=
            (writesLeftDown_prependBody result).spills bytes first hspills
          rw [hbody] at h
          dsimp only [id] at h
          obtain ⟨hn, hidx, hbytes, hfirst⟩ := ih h
          refine ⟨hn, hidx, ?_, fun _ => hfirst ?_⟩
          · rw [hbytes, blocks_prependBlock, bytesOf_cons, Block.asBytes_forPrependable,
              blocks_setFirst _ hblocks, bytesOf_cons, bytesOf_cons, Block.asBytes_prepend,
              List.nil_append, List.append_assoc, ← List.append_assoc, List.take_append_drop]
          · intro hnil
            have hlen := congrArg List.length hnil
            rw [List.length_take, List.length_nil] at hlen
            omega
        · rw [(writesLeftDown_prependBody result).fits bytes first hfits] at h
          cases h
          have hall : (first.prepend bytes).asBytes = bytes ++ first.asBytes := by
            rw [Block.asBytes_prepend, Nat.sub_eq_zero_of_le hfits, List.drop_zero]
          refine ⟨rfl, rfl, ?_, fun hne => ⟨_, rest, blocks_setFirst _ hblocks, ?_⟩⟩
          · rw [blocks_setFirst _ hblocks, bytesOf_cons, bytesOf_cons, id, hall, List.append_assoc]
          · rw [id, hall]
            exact fun hnil => hne (List.append_eq_nil_iff.mp hnil).1

theorem exists_prependLoop {fuel result : Nat} {bytes : List UInt8} {buf : ByteBuf}
    {allocs : List Nat} (hgrowth : 0 < buf.growth)
    (hfuel : bytes.length + (if headRoom buf.blocks = 0 then 2 else 1) ≤ fuel) :
    ∃ r, prependLoop (prependBody result) fuel bytes buf allocs = some r := by
  induction fuel generalizing bytes buf allocs with
  | zero => split at hfuel <;> omega
  | succ fuel ih =>
      rw [prependLoop]
      rcases hblocks : buf.blocks with _ | ⟨first, rest⟩
      · rw [hblocks] at hfuel
        refine ih hgrowth ?_
        rw [headRoom_prependBlock, if_neg (Nat.ne_of_gt hgrowth)]
        exact Nat.le_of_succ_le_succ hfuel
      · have hroom : headRoom (first :: rest) = first.prependable := rfl
        rw [hblocks, hroom] at hfuel
        dsimp only [List.head?_cons]
        rcases Nat.lt_or_ge first.prependable bytes.length with hspills | hfits
        · obtain ⟨_, hbody, rfl, -⟩ :=
            (writesLeftDown_prependBody result).spills bytes first hspills
          rw [hbody]
          refine ih hgrowth ?_
          have hne : (buf.setFirst (first.prepend (id bytes))).growth ≠ 0 := Nat.ne_of_gt hgrowth
          rw [headRoom_prependBlock, if_neg hne, id, List.length_take]
          split at hfuel <;> omega
        · rw [(writesLeftDown_prependBody result).fits bytes first hfits]
          exact ⟨_, rfl⟩

theorem prependLoop_nil {fuel n result : Nat} {buf buf' : ByteBuf} {allocs allocs' : List Nat}
    (hne : buf.blocks ≠ [])
    (h : prependLoop (prependBody result) fuel [] buf allocs = some (n, buf', allocs')) :
    buf'.blocks = buf.blocks := by
  rcases hblocks : buf.blocks with _ | ⟨first, rest⟩
  · exact absurd hblocks hne
  · cases fuel with
    | zero => cases h
    | succ fuel =>
        rw [prependLoop, hblocks] at h
        dsimp only [List.head?_cons] at h
        rw [(writesLeftDown_prependBody result).fits [] first (Nat.zero_le _)] at h
        cases h
        rw [blocks_setFirst _ hblocks, id, Block.prepend_nil]

end ByteBuf

end Ruyi.Buf
