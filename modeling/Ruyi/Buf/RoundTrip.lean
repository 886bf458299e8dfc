import Ruyi.Buf.Prepending
import Ruyi.Buf.SetContent
import Ruyi.Buf.Varint

namespace Ruyi.Buf

open Base (scan scan_takeStep)

variable {α β : Type}

/-- The functions of a module of `codec`. -/
structure CodecModule (α : Type) where
  read : ByteBuf → Except Error α × ByteBuf
  get : List (Block × Nat) → Except Error α
  set : α → (index : Nat) → ByteBuf → Option (Except Error Nat × ByteBuf)
  append : α → (fuel : Nat) → ByteBuf → List Nat → Option (Nat × ByteBuf × List Nat)
  prepend : α → (fuel : Nat) → ByteBuf → List Nat → Option (Nat × ByteBuf × List Nat)

def Codec.functions (codec : Codec) (target : Endian) : CodecModule Nat where
  read := codec.read target
  get := codec.get target
  set := codec.set target
  append := codec.append target
  prepend := codec.prepend target

/-- The module of a signed type, whose functions are those of the unsigned one under casts. -/
def CodecModule.cast (m : CodecModule α) (f : α → β) (g : β → α) : CodecModule β where
  read buf := ((m.read buf).1.map f, (m.read buf).2)
  get chain := (m.get chain).map f
  set v := m.set (g v)
  append v := m.append (g v)
  prepend v := m.prepend (g v)

/-- The cast of `uN` to `iN`. -/
def asSigned (bits v : Nat) : Int := (BitVec.ofNat bits v).toInt

/-- The cast of `iN` to `uN`. -/
def asUnsigned (bits : Nat) (x : Int) : Nat := (BitVec.ofInt bits x).toNat

theorem asUnsigned_lt (bits : Nat) (x : Int) : asUnsigned bits x < 2 ^ bits := BitVec.isLt _

theorem asSigned_asUnsigned {bits : Nat} {x : Int} (hbits : 0 < bits) (hmin : -2 ^ (bits - 1) ≤ x)
    (hmax : x < 2 ^ (bits - 1)) : asSigned bits (asUnsigned bits x) = x := by
  rw [asSigned, asUnsigned, BitVec.ofNat_toNat, BitVec.setWidth_eq,
    BitVec.toInt_ofInt_eq_self hbits hmin hmax]

/-- Wherever these bytes are put for the value, the value is what they are decoded to. -/
structure CodecModule.RoundTrips (m : CodecModule α) (v : α) (bytes : List UInt8) : Prop where
  append : ∀ (buf : ByteBuf) (allocs : List Nat) (fuel : Nat), buf.idx = 0 → 0 < buf.growth →
    bytes.length + 2 ≤ fuel → ∃ buf' allocs',
      m.append v fuel buf allocs = some (bytes.length, buf', allocs') ∧
        buf'.content = buf.content ++ bytes ∧ buf'.get buf.len m.get = .ok (.ok v)
  prepend : ∀ (buf : ByteBuf) (allocs : List Nat) (fuel : Nat), buf.idx = 0 → 0 < buf.growth →
    bytes.length + 2 ≤ fuel → ∃ buf' allocs',
      m.prepend v fuel buf allocs = some (bytes.length, buf', allocs') ∧
        buf'.content = bytes ++ buf.content ∧
          ∃ buf'', m.read buf' = (.ok v, buf'') ∧ buf''.content = buf.content
  set : ∀ (buf : ByteBuf) (index : Nat), index + bytes.length ≤ buf.len →
    ∃ buf', m.set v index buf = some (.ok bytes.length, buf') ∧
      ByteBuf.Overwrites buf buf' index bytes
  read : ∀ (buf : ByteBuf) (rest : List UInt8), buf.content = bytes ++ rest →
    ∃ buf', m.read buf = (.ok v, buf') ∧ buf'.content = rest
  get : ∀ (buf : ByteBuf) (index : Nat) (rest : List UInt8),
    buf.content.drop index = bytes ++ rest → buf.get index m.get = .ok (.ok v)

theorem CodecModule.RoundTrips.cast {m : CodecModule α} {f : α → β} {g : β → α} {v : β}
    {bytes : List UInt8} (h : m.RoundTrips (g v) bytes) (hv : f (g v) = v) :
    (m.cast f g).RoundTrips v bytes := by
  have hread : ∀ {buf buf' : ByteBuf}, m.read buf = (.ok (g v), buf') →
      (m.cast f g).read buf = (.ok v, buf') := by
    intro buf buf' hrun
    show ((m.read buf).1.map f, (m.read buf).2) = _
    rw [hrun]
    exact congrArg (fun x => (Except.ok x, buf')) hv
  have hget : ∀ {buf : ByteBuf} {index : Nat}, buf.get index m.get = .ok (.ok (g v)) →
      buf.get index (m.cast f g).get = .ok (.ok v) := by
    intro buf index hrun
    rw [ByteBuf.get] at hrun ⊢
    split at hrun
    · cases hrun
    · show Except.ok ((m.get _).map f) = _
      rw [Except.ok.inj hrun]
      exact congrArg (fun x => Except.ok (Except.ok x)) hv
  refine ⟨?_, ?_, h.set, ?_, ?_⟩
  · intro buf allocs fuel hidx hgrowth hfuel
    obtain ⟨buf', allocs', hrun, hcontent, hback⟩ := h.append buf allocs fuel hidx hgrowth hfuel
    exact ⟨buf', allocs', hrun, hcontent, hget hback⟩
  · intro buf allocs fuel hidx hgrowth hfuel
    obtain ⟨buf', allocs', hrun, hcontent, buf'', hback, hrest⟩ :=
      h.prepend buf allocs fuel hidx hgrowth hfuel
    exact ⟨buf', allocs', hrun, hcontent, buf'', hread hback, hrest⟩
  · intro buf rest hcontent
    obtain ⟨buf', hrun, hrest⟩ := h.read buf rest hcontent
    exact ⟨buf', hread hrun, hrest⟩
  · intro buf index rest hcontent
    exact hget (h.get buf index rest hcontent)

namespace Codec

/-- The bits of the numbers that the module is for. -/
def bits (codec : Codec) : Nat :=
  match codec.shape with
  | .byte => 8
  | .fixed size _ => 8 * size
  | .varint bits => bits

theorem bits_pos (codec : Codec) : 0 < codec.bits := by
  cases codec <;> decide

variable {codec : Codec} {v : Nat} {buf : ByteBuf}

theorem encode_ne_nil (codec : Codec) (v : Nat) : codec.encode v ≠ [] := by
  rw [encode]
  rcases hshape : codec.shape with _ | ⟨size, order⟩ | bits
  · exact List.cons_ne_nil _ _
  · have hsize := size_of_fixed hshape
    refine List.ne_nil_of_length_pos ?_
    dsimp only
    rw [length_bytesFor]
    omega
  · exact varint_ne_nil v

theorem scan_cases (codec : Codec) (target : Endian) :
    ∃ (σ : Type) (readBody : σ → Block → Block × (σ ⊕ Except Error Nat))
        (getBody : σ → List UInt8 → σ ⊕ Except Error Nat)
        (step : σ → UInt8 → σ ⊕ Except Error Nat) (live : σ → Prop) (s : σ) (e : Error),
      Scans readBody step live ∧ ScansBytes getBody step live ∧ live s ∧
        (∀ buf, codec.read target buf = buf.readWith readBody (fun _ => .error .underflow) s) ∧
        codec.get target = forGetBlocks getBody (fun _ => .error e) s ∧
        ∀ v < 2 ^ codec.bits, ∀ rest,
          scan step s (codec.encode v ++ rest) = .inr (.ok v, rest) := by
  have hbits : 0 < codec.bits := codec.bits_pos
  rw [bits] at hbits ⊢
  rcases hshape : codec.shape with _ | ⟨size, order⟩ | bits
  · refine ⟨_, _, _, _, _, (), .indexOutOfBounds, scans_readByteBody, scansBytes_getByteBody,
      trivial, fun buf => ?_, ?_, fun v hv rest => ?_⟩
    · simp only [Codec.read, hshape]
    · funext chain
      simp only [Codec.get, hshape]
    · have hbyte : (UInt8.ofNat v).toNat = v := Nat.mod_eq_of_lt hv
      rw [encode, hshape]
      show Sum.inr (Except.ok (UInt8.ofNat v).toNat, rest) = _
      rw [hbyte]
  · have hsize := size_of_fixed hshape
    refine ⟨_, _, _, _, _, (size, []), codec.getError, scans_readBytesBody _,
      scansBytes_getBytesBody fun v =>
        .ok (valueOf target (if order = target then v else reverse v size)), ?_, fun buf => ?_, ?_,
      fun v hv rest => ?_⟩
    · dsimp only
      omega
    · simp only [Codec.read, hshape, readFixed, readBody_eq]
    · funext chain
      simp only [Codec.get, hshape]
    · have hlen := length_bytesFor order size v
      have hfits : v < 256 ^ size := by
        rw [Nat.pow_mul] at hv
        exact hv
      have hle : size ≤ (bytesFor order size v ++ rest).length := by
        rw [List.length_append, hlen]
        exact Nat.le_add_right _ _
      rw [encode, hshape]
      dsimp only
      rw [scan_takeStep _ (by omega), if_pos hle, List.take_left' hlen, List.drop_left' hlen,
        List.nil_append, valueOf_target hsize hlen, valueOf_bytesFor order hfits]
  · rw [hshape] at hbits
    refine ⟨_, _, _, _, _, (0, 0), .indexOutOfBounds, scans_readVarintBody bits,
      scansBytes_getVarintBody bits, trivial, fun buf => ?_, ?_, fun v hv rest => ?_⟩
    · simp only [Codec.read, hshape]
    · funext chain
      simp only [Codec.get, hshape]
    · rw [encode, hshape]
      dsimp only
      rw [scan_isVarint (bits_dvd hshape) (varint_groups v).1, orGroups_varint hbits hv]

theorem read_encode (target : Endian) (hv : v < 2 ^ codec.bits) {rest : List UInt8}
    (hcontent : buf.content = codec.encode v ++ rest) :
    ∃ buf', codec.read target buf = (.ok v, buf') ∧ buf'.content = rest := by
  obtain ⟨σ, readBody, -, step, live, s, -, hread, -, hlive, hrun, -, hscan⟩ :=
    codec.scan_cases target
  have hresult := ByteBuf.readWith_scan hread (fun _ => .error .underflow) hlive buf
  rw [hcontent, hscan v hv rest] at hresult
  obtain ⟨hvalue, hrest⟩ := Prod.mk.inj hresult
  rw [hrun]
  exact ⟨_, Prod.ext hvalue rfl, hrest⟩

theorem get_encode (target : Endian) (hv : v < 2 ^ codec.bits) {index : Nat} {rest : List UInt8}
    (hcontent : buf.content.drop index = codec.encode v ++ rest) :
    buf.get index (codec.get target) = .ok (.ok v) := by
  obtain ⟨σ, -, getBody, step, live, s, e, -, hget, hlive, -, hrun, hscan⟩ :=
    codec.scan_cases target
  have hne : buf.content.drop index ≠ [] := by
    rw [hcontent]
    exact List.append_ne_nil_of_left_ne_nil (codec.encode_ne_nil v) _
  obtain ⟨p, hp⟩ := ByteBuf.exists_located hne
  rw [hrun, ByteBuf.get_scan hget _ hlive hp, hcontent, hscan v hv rest]

theorem set_encode (target : Endian) {index : Nat}
    (hfits : index + (codec.encode v).length ≤ buf.len) :
    ∃ buf', codec.set target v index buf = some (.ok (codec.encode v).length, buf') ∧
      ByteBuf.Overwrites buf buf' index (codec.encode v) := by
  have hne := codec.encode_ne_nil v
  rw [buf.len_eq] at hfits
  have hbehind : buf.content.drop index ≠ [] := by
    have hpos := List.length_pos_of_ne_nil hne
    refine List.ne_nil_of_length_pos ?_
    rw [List.length_drop]
    omega
  obtain ⟨p, hp⟩ := ByteBuf.exists_located hbehind
  rw [encode] at hne hfits ⊢
  rcases hshape : codec.shape with _ | ⟨size, order⟩ | bits
  · rw [hshape] at hne hfits
    simp only [Codec.set, hshape]
    exact ByteBuf.setWith_ok (setsLeft_setByteBody _) _ hp hne hfits
  · rw [hshape] at hne hfits
    simp only [Codec.set, hshape, memoryOf_eq (size_of_fixed hshape), length_bytesFor]
    exact ByteBuf.setWith_ok (setsLeft_setBody size) _ hp hne hfits
  · rw [hshape] at hne hfits
    simp only [Codec.set, hshape]
    have hset := ByteBuf.setWith_ok setsLeft_setVarintBody (fun _ => .error .indexOutOfBounds) hp
      (s := (v, 0)) hne hfits
    rw [Nat.zero_add] at hset
    exact hset

theorem roundTrips_encode (codec : Codec) (target : Endian) (hv : v < 2 ^ codec.bits) :
    (codec.functions target).RoundTrips v (codec.encode v) := by
  refine ⟨?_, ?_, fun buf index => set_encode target, fun buf rest => read_encode target hv,
    fun buf index rest => get_encode target hv⟩
  · intro buf allocs fuel hidx hgrowth hfuel
    obtain ⟨buf', allocs', hrun, hcontent⟩ :=
      (Appending.value codec v).run_ok target buf allocs hgrowth hfuel
    have hinSight : (Appending.value codec v).InSight buf := by
      rcases hblocks : buf.blocks with _ | ⟨block, rest⟩
      · exact .inl (.inl (.inr (by rw [hblocks]; rfl)))
      · refine .inl (.inl (.inl ?_))
        rw [hidx, hblocks]
        exact Nat.zero_lt_succ _
    have happended := hcontent.mpr hinSight
    have hbehind : buf'.content.drop buf.len = codec.encode v ++ [] := by
      rw [happended, buf.len_eq, List.drop_left, List.append_nil]
      rfl
    exact ⟨buf', allocs', hrun, happended, get_encode target hv hbehind⟩
  · intro buf allocs fuel hidx hgrowth hfuel
    obtain ⟨⟨n, buf', allocs'⟩, hrun⟩ :=
      (Prepending.value codec v).exists_run target buf allocs hgrowth hfuel
    have hcontent := Prepending.content_run (.inl hidx) hrun
    obtain ⟨rfl, -⟩ := Prepending.run_some hrun
    exact ⟨buf', allocs', hrun, hcontent, read_encode target hv hcontent⟩

theorem roundTrips_signed (codec : Codec) (target : Endian) {x : Int}
    (hmin : -2 ^ (codec.bits - 1) ≤ x) (hmax : x < 2 ^ (codec.bits - 1)) :
    ((codec.functions target).cast (asSigned codec.bits) (asUnsigned codec.bits)).RoundTrips x
      (codec.encode (asUnsigned codec.bits x)) :=
  (codec.roundTrips_encode target (asUnsigned_lt _ x)).cast
    (asSigned_asUnsigned codec.bits_pos hmin hmax)

/-- The varint modules write numbers in their shortest form, and read them as they are written. -/
theorem varint_round_trips {bits : Nat} (hshape : codec.shape = .varint bits) (target : Endian) :
    (∀ v < 2 ^ bits, (codec.functions target).RoundTrips v (varint v)) ∧
      (∀ x : Int, -2 ^ (bits - 1) ≤ x → x < 2 ^ (bits - 1) →
        ((codec.functions target).cast (asSigned bits) (asUnsigned bits)).RoundTrips x
          (varint (asUnsigned bits x))) ∧
      ∀ v, IsVarint (varint v) ∧ varintValue (varint v) = v ∧
        (varint v).length = max 1 ((Nat.size v + 6) / 7) ∧
          ∀ bytes, IsVarint bytes → varintValue bytes = v →
            (varint v).length ≤ bytes.length := by
  have hbits : codec.bits = bits := by rw [Codec.bits, hshape]
  have hencode : ∀ v, codec.encode v = varint v := fun v => by rw [encode, hshape]
  refine ⟨fun v hv => ?_, fun x hmin hmax => ?_, fun v => ?_⟩
  · rw [← hencode]
    exact codec.roundTrips_encode target (hbits ▸ hv)
  · have hsigned := @roundTrips_signed codec target x (hbits ▸ hmin) (hbits ▸ hmax)
    rw [hbits, hencode] at hsigned
    exact hsigned
  · obtain ⟨hform, hvalue⟩ := varint_groups v
    refine ⟨hform, hvalue, length_varint v, ?_⟩
    rintro bytes hbytes rfl
    exact length_varint_le_of_value hbytes

theorem varint_round_trips_of_two :
    ∃ buf' allocs', u32varint.append .little 300 4 (ByteBuf.new.setGrowth 1) [] =
        some (2, buf', allocs') ∧
      buf'.content = [0xAC, 0x02] ∧ buf'.get 0 (u32varint.get .little) = .ok (.ok 300) := by
  have hbytes : varint 300 = [0xAC, 0x02] := by
    rw [varint_of_ne (by decide), varint_of_zero (by decide)]
    rfl
  have happend := ((@varint_round_trips u32varint 32 rfl .little).1 300 (by decide)).append
    (ByteBuf.new.setGrowth 1) [] 4 rfl (by decide) (by rw [hbytes]; decide)
  rw [hbytes] at happend
  exact happend

/-- The fixed-width modules write the bytes of numbers in their order, and read them as they are
written. -/
theorem fixed_round_trips {size : Nat} {order : Endian} (hshape : codec.shape = .fixed size order)
    (target : Endian) :
    (∀ v < 256 ^ size, (codec.functions target).RoundTrips v (bytesFor order size v)) ∧
      (∀ x : Int, -2 ^ (8 * size - 1) ≤ x → x < 2 ^ (8 * size - 1) →
        ((codec.functions target).cast (asSigned (8 * size)) (asUnsigned (8 * size))).RoundTrips x
          (bytesFor order size (asUnsigned (8 * size) x))) ∧
      ∀ v, (bytesFor order size v).length = size := by
  have hbits : codec.bits = 8 * size := by rw [Codec.bits, hshape]
  have hencode : ∀ v, codec.encode v = bytesFor order size v := fun v => by rw [encode, hshape]
  refine ⟨fun v hv => ?_, fun x hmin hmax => ?_, length_bytesFor order size⟩
  · rw [← hencode]
    refine codec.roundTrips_encode target ?_
    rw [hbits, Nat.pow_mul]
    exact hv
  · have hsigned := @roundTrips_signed codec target x (hbits ▸ hmin) (hbits ▸ hmax)
    rw [hbits, hencode] at hsigned
    exact hsigned

theorem fixed_round_trips_of_four :
    ∃ buf' allocs', u32be.prepend .little 0x01020304 6 ((ByteBuf.ofVec 0 [9] []).setGrowth 1) [] =
        some (4, buf', allocs') ∧ buf'.content = [1, 2, 3, 4, 9] ∧
      ∃ buf'', u32be.read .little buf' = (.ok 0x01020304, buf'') ∧ buf''.content = [9] :=
  ((@fixed_round_trips u32be 4 .big rfl .little).1 0x01020304 (by decide)).prepend
    ((ByteBuf.ofVec 0 [9] []).setGrowth 1) [] 6 rfl (by decide) (by decide)

end Codec

end Ruyi.Buf
