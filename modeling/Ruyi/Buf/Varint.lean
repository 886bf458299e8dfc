import Ruyi.Base.Groups
import Ruyi.Buf.Views

namespace Ruyi.Buf

open Base (NoAlias noAlias_of_length orGroups orGroups_eq_iff scan)

/-- What a varint codec does with one byte. -/
def varintStep (bits : Nat) : Nat × Nat → UInt8 → (Nat × Nat) ⊕ Except Error Nat
  | (v, shift), b =>
      let v := v ||| ((b.toNat &&& 0x7F) <<< (shift % bits)) % 2 ^ bits
      if b.toNat >>> 7 = 0 then .inr (.ok v) else .inl (v, (shift + 7) % 2 ^ 32)

/-- Every byte but the last one is marked. -/
def IsVarint (bytes : List UInt8) : Prop :=
  ∃ init last, bytes = init ++ [last] ∧ (∀ b ∈ init, 0x80 ≤ b.toNat) ∧ last.toNat < 0x80

/-- The groups of seven bits. -/
def varintGroups (bytes : List UInt8) : List Nat := bytes.map fun b => b.toNat % 128

/-- The number that the bytes stand for. -/
def varintValue (bytes : List UInt8) : Nat := Nat.ofDigits 128 (varintGroups bytes)

theorem IsVarint.ne_nil {bytes : List UInt8} (h : IsVarint bytes) : bytes ≠ [] := by
  obtain ⟨init, last, rfl, -⟩ := h
  exact List.append_ne_nil_of_right_ne_nil _ (List.cons_ne_nil _ _)

theorem varintGroups_lt {bytes : List UInt8} : ∀ g ∈ varintGroups bytes, g < 2 ^ 7 := by
  intro g hg
  obtain ⟨b, -, rfl⟩ := List.mem_map.mp hg
  exact Nat.mod_lt _ (by decide)

theorem varint_groups (v : Nat) : IsVarint (varint v) ∧ varintValue (varint v) = v := by
  have hmark : ∀ x < 256, 0x80 ≤ (x ||| 0x80) % 256 ∧ (x ||| 0x80) % 256 % 128 = x % 128 := by
    decide +kernel
  fun_induction varint v with
  | case1 v hzero =>
      have hlt : v < 128 := by
        rw [Nat.shiftRight_eq_div_pow] at hzero
        omega
      have hbyte : (UInt8.ofNat v).toNat = v := Nat.mod_eq_of_lt (Nat.lt_trans hlt (by decide))
      refine ⟨⟨[], _, rfl, fun _ hb => absurd hb List.not_mem_nil, hbyte.trans_lt hlt⟩, ?_⟩
      simp only [varintValue, varintGroups, List.map_cons, List.map_nil, hbyte,
        Nat.ofDigits_singleton, Nat.mod_eq_of_lt hlt]
  | case2 v hne ih =>
      obtain ⟨⟨init, last, hvarint, hinit, hlast⟩, hvalue⟩ := ih
      have hbyte : (UInt8.ofNat (v ||| 0x80)).toNat = (v % 256 ||| 0x80) % 256 := by
        show (v ||| 0x80) % 2 ^ 8 = (v % 2 ^ 8 ||| 0x80) % 2 ^ 8
        rw [Nat.or_mod_two_pow, Nat.or_mod_two_pow, Nat.mod_mod]
      obtain ⟨hmarked, hgroup⟩ := hmark (v % 256) (Nat.mod_lt v (by decide))
      refine ⟨⟨UInt8.ofNat (v ||| 0x80) :: init, last, by rw [hvarint, List.cons_append],
        List.forall_mem_cons.mpr ⟨hmarked.trans_eq hbyte.symm, hinit⟩, hlast⟩, ?_⟩
      rw [varintValue, varintGroups] at hvalue ⊢
      rw [List.map_cons, Nat.ofDigits_cons, hvalue, hbyte, hgroup,
        Nat.mod_mod_of_dvd v (by decide), Nat.shiftRight_eq_div_pow]
      exact Nat.mod_add_div v 128

theorem length_varint_le_iff (v : Nat) {k : Nat} (hk : 0 < k) :
    (varint v).length ≤ k ↔ v < 2 ^ (7 * k) := by
  fun_induction varint v generalizing k with
  | case1 v hzero =>
      have hlt : v < 2 ^ 7 := by
        rw [Nat.shiftRight_eq_div_pow] at hzero
        omega
      refine iff_of_true hk (Nat.lt_of_lt_of_le hlt ?_)
      exact Nat.pow_le_pow_right (by decide) (by omega)
  | case2 v hne ih =>
      rw [Nat.shiftRight_eq_div_pow] at hne ih
      obtain ⟨j, rfl⟩ : ∃ j, k = j + 1 := ⟨k - 1, by omega⟩
      rw [List.length_cons, Nat.add_le_add_iff_right, Nat.mul_succ, Nat.pow_add]
      rcases Nat.eq_zero_or_pos j with rfl | hj
      · have hpos := List.length_pos_of_ne_nil (varint_ne_nil (v >>> 7))
        refine iff_of_false (by omega) fun hlt => hne ?_
        exact Nat.div_eq_of_lt (by omega)
      · rw [Nat.shiftRight_eq_div_pow, ih hj, Nat.div_lt_iff_lt_mul (by decide)]

theorem length_varint (v : Nat) : (varint v).length = max 1 ((Nat.size v + 6) / 7) := by
  have hpos := List.length_pos_of_ne_nil (varint_ne_nil v)
  have hiff : ∀ k, 0 < k → ((varint v).length ≤ k ↔ max 1 ((Nat.size v + 6) / 7) ≤ k) := by
    intro k hk
    rw [length_varint_le_iff v hk, ← Nat.size_le]
    omega
  exact Nat.le_antisymm ((hiff _ (by omega)).mpr (Nat.le_refl _))
    ((hiff _ hpos).mp (Nat.le_refl _))

theorem length_varint_le_of_value {bytes : List UInt8} (h : IsVarint bytes) :
    (varint (varintValue bytes)).length ≤ bytes.length := by
  rw [length_varint_le_iff _ (List.length_pos_of_ne_nil h.ne_nil), Nat.pow_mul]
  have hlt : varintValue bytes < 128 ^ (varintGroups bytes).length :=
    Nat.ofDigits_lt_base_pow_length (by decide) varintGroups_lt
  rw [varintGroups, List.length_map] at hlt
  exact hlt

theorem orGroups_varint {bits v : Nat} (hbits : 0 < bits) (hv : v < 2 ^ bits) :
    orGroups 7 bits 0 0 (varintGroups (varint v)) = v := by
  have hlen : (varint v).length ≤ (bits + 6) / 7 := by
    rw [length_varint_le_iff v (by omega)]
    exact Nat.lt_of_lt_of_le hv (Nat.pow_le_pow_right (by decide) (by omega))
  have halias : NoAlias 7 bits (varintGroups (varint v)) := by
    refine noAlias_of_length ?_
    rw [varintGroups, List.length_map]
    omega
  have hvalue : Nat.ofDigits (2 ^ 7) (varintGroups (varint v)) = v := (varint_groups v).2
  rw [(orGroups_eq_iff (by decide) varintGroups_lt).mpr halias, hvalue, Nat.mod_eq_of_lt hv]

theorem Codec.bits_of_varint {codec : Codec} {bits : Nat} (h : codec.shape = .varint bits) :
    bits = 16 ∨ bits = 32 ∨ bits = 64 := by
  cases codec <;> cases h <;> decide

/-- The shift wraps around at a multiple of the width. -/
theorem Codec.bits_dvd {codec : Codec} {bits : Nat} (h : codec.shape = .varint bits) :
    bits ∣ 2 ^ 32 := by
  rcases bits_of_varint h with rfl | rfl | rfl <;> decide

theorem scan_varintStep (bits : Nat) (bytes : List UInt8) (v shift n : Nat) :
    (∃ s, varintScan bits bytes v shift n = .inl s ∧
        scan (varintStep bits) (v, shift) bytes = .inl s) ∨
      ∃ v' k, varintScan bits bytes v shift n = .inr (v', n + k) ∧
        scan (varintStep bits) (v, shift) bytes = .inr (.ok v', bytes.drop k) := by
  induction bytes generalizing v shift n with
  | nil => exact .inl ⟨_, rfl, rfl⟩
  | cons b rest ih =>
      rw [varintScan, scan, varintStep]
      by_cases hlast : b.toNat >>> 7 = 0
      · rw [if_pos hlast, if_pos hlast]
        exact .inr ⟨_, 1, rfl, rfl⟩
      · rw [if_neg hlast, if_neg hlast]
        obtain h | ⟨v', k, hrun, hscan⟩ :=
          ih (v ||| ((b.toNat &&& 0x7F) <<< (shift % bits)) % 2 ^ bits) ((shift + 7) % 2 ^ 32)
            (n + 1)
        · exact .inl h
        · refine .inr ⟨v', k + 1, ?_, hscan⟩
          rw [hrun, Nat.add_assoc, Nat.add_comm 1]

theorem scans_readVarintBody (bits : Nat) :
    Scans (readVarintBody bits) (varintStep bits) fun _ => True := by
  refine ⟨usesUp_readVarintBody bits, fun _ _ => trivial, ?_, ?_⟩
  · rintro ⟨v, shift⟩ block s' - - hscan
    rw [readVarintBody]
    obtain ⟨s, hrun, hscan'⟩ | ⟨v', k, -, hscan'⟩ :=
      scan_varintStep bits block.asBytes v shift 0
    · rw [hscan] at hscan'
      cases hscan'
      rw [hrun]
    · rw [hscan] at hscan'
      cases hscan'
  · rintro ⟨v, shift⟩ block r rest - - hscan
    rw [readVarintBody]
    obtain ⟨s, -, hscan'⟩ | ⟨v', k, hrun, hscan'⟩ :=
      scan_varintStep bits block.asBytes v shift 0
    · rw [hscan] at hscan'
      cases hscan'
    · rw [hscan] at hscan'
      cases hscan'
      rw [hrun]
      dsimp only
      rw [Nat.zero_add]
      exact ⟨rfl, block.asBytes_consume k⟩

theorem scansBytes_getVarintBody (bits : Nat) :
    ScansBytes (getVarintBody bits) (varintStep bits) fun _ => True := by
  refine ⟨fun _ _ => trivial, ?_⟩
  rintro ⟨v, shift⟩ bytes - -
  rw [getVarintBody]
  obtain ⟨s, hrun, hscan⟩ | ⟨v', k, hrun, hscan⟩ := scan_varintStep bits bytes v shift 0
  · rw [hrun, hscan]
    rfl
  · rw [hrun, hscan]
    rfl

/-- The shift counts the groups, though it wraps around. -/
theorem varintStep_eq {bits : Nat} (hbits : bits ∣ 2 ^ 32) (v k : Nat) (b : UInt8) :
    varintStep bits (v, 7 * k % 2 ^ 32) b =
      if b.toNat < 0x80 then
        .inr (.ok (v ||| ((b.toNat % 128) <<< (7 * k % bits)) % 2 ^ bits))
      else .inl (v ||| ((b.toNat % 128) <<< (7 * k % bits)) % 2 ^ bits, 7 * (k + 1) % 2 ^ 32) := by
  have hlast : b.toNat >>> 7 = 0 ↔ b.toNat < 0x80 := by
    rw [Nat.shiftRight_eq_div_pow, Nat.div_eq_zero_iff_lt (by decide)]
  have hgroup : b.toNat &&& 0x7F = b.toNat % 128 := Nat.and_two_pow_sub_one_eq_mod b.toNat 7
  have hshift : (7 * k % 2 ^ 32 + 7) % 2 ^ 32 = 7 * (k + 1) % 2 ^ 32 := by
    rw [Nat.mod_add_mod, Nat.mul_succ]
  rw [varintStep, hgroup, Nat.mod_mod_of_dvd _ hbits, hshift,
    ite_congr (propext hlast) (fun _ => rfl) (fun _ => rfl)]

theorem scan_isVarint {bits : Nat} (hbits : bits ∣ 2 ^ 32) {bytes : List UInt8}
    (h : IsVarint bytes) (rest : List UInt8) :
    scan (varintStep bits) (0, 0) (bytes ++ rest) =
      .inr (.ok (orGroups 7 bits 0 0 (varintGroups bytes)), rest) := by
  obtain ⟨init, last, rfl, hinit, hlast⟩ := h
  have hrun : ∀ k v, scan (varintStep bits) (v, 7 * k % 2 ^ 32) (init ++ [last] ++ rest) =
      .inr (.ok (orGroups 7 bits k v (varintGroups (init ++ [last]))), rest) := by
    induction init with
    | nil =>
        intro k v
        rw [List.nil_append, List.singleton_append, scan, varintStep_eq hbits, if_pos hlast]
        rfl
    | cons b init ih =>
        intro k v
        obtain ⟨hb, hinit⟩ := List.forall_mem_cons.mp hinit
        rw [List.cons_append, List.cons_append, scan, varintStep_eq hbits,
          if_neg (Nat.not_lt.mpr hb)]
        exact ih hinit (k + 1) _
  exact hrun 0 0

namespace Codec

variable {codec : Codec} {bits : Nat} {bytes rest : List UInt8} {buf : ByteBuf}

theorem read_varint (hshape : codec.shape = .varint bits) (h : IsVarint bytes) (target : Endian)
    (hcontent : buf.content = bytes ++ rest) :
    ((codec.read target buf).1, (codec.read target buf).2.content) =
      (.ok (orGroups 7 bits 0 0 (varintGroups bytes)), rest) := by
  simp only [Codec.read, hshape]
  rw [ByteBuf.readWith_scan (scans_readVarintBody bits) _ trivial, hcontent,
    scan_isVarint (bits_dvd hshape) h]

theorem get_varint (hshape : codec.shape = .varint bits) (h : IsVarint bytes) (target : Endian)
    {index : Nat} (hcontent : buf.content.drop index = bytes ++ rest) :
    buf.get index (codec.get target) =
      .ok (.ok (orGroups 7 bits 0 0 (varintGroups bytes))) := by
  have hne : buf.content.drop index ≠ [] := by
    rw [hcontent]
    exact List.append_ne_nil_of_left_ne_nil h.ne_nil _
  obtain ⟨p, hp⟩ := ByteBuf.exists_located hne
  have hget : codec.get target =
      forGetBlocks (getVarintBody bits) (fun _ => .error .indexOutOfBounds) (0, 0) := by
    funext chain
    simp only [Codec.get, hshape]
  rw [hget, ByteBuf.get_scan (scansBytes_getVarintBody bits) _ trivial hp, hcontent,
    scan_isVarint (bits_dvd hshape) h]

/-- The bytes of a varint are decoded to their number modulo the width exactly when no group above
the width is shifted onto a bit that is clear. -/
theorem varint_decodes_iff (hshape : codec.shape = .varint bits) (h : IsVarint bytes)
    (target : Endian) :
    (∀ (buf : ByteBuf) (rest : List UInt8), buf.content = bytes ++ rest →
        ((codec.read target buf).1 = .ok (varintValue bytes % 2 ^ bits) ↔
          NoAlias 7 bits (varintGroups bytes))) ∧
      ∀ (buf : ByteBuf) (index : Nat) (rest : List UInt8),
        buf.content.drop index = bytes ++ rest →
          (buf.get index (codec.get target) = .ok (.ok (varintValue bytes % 2 ^ bits)) ↔
            NoAlias 7 bits (varintGroups bytes)) := by
  have halias : orGroups 7 bits 0 0 (varintGroups bytes) = varintValue bytes % 2 ^ bits ↔
      NoAlias 7 bits (varintGroups bytes) := orGroups_eq_iff (by decide) varintGroups_lt
  refine ⟨fun buf rest hcontent => ?_, fun buf index rest hcontent => ?_⟩
  · rw [(Prod.mk.inj (read_varint hshape h target hcontent)).1, ← halias]
    exact ⟨fun heq => Except.ok.inj heq, congrArg Except.ok⟩
  · rw [get_varint hshape h target hcontent, ← halias]
    exact ⟨fun heq => Except.ok.inj (Except.ok.inj heq), fun heq => by rw [heq]⟩

theorem varint_decodes_iff_of_two :
    (u32varint.read .little (.ofVec 0 [0xAC, 0x02, 5] [])).1 = .ok 300 :=
  ((@varint_decodes_iff u32varint 32 [0xAC, 0x02] rfl
    ⟨[0xAC], 0x02, rfl, by decide +kernel, by decide⟩ .little).1
      (.ofVec 0 [0xAC, 0x02, 5] []) [5] (by decide)).mpr (by decide)

/-- The only bit of this number is bit 35, and what is read is 8. -/
theorem not_varint_decodes_of_six :
    ¬ ∀ (codec : Codec) (bits : Nat) (bytes rest : List UInt8) (target : Endian) (buf : ByteBuf),
      codec.shape = .varint bits → IsVarint bytes → buf.content = bytes ++ rest →
        (codec.read target buf).1 = .ok (varintValue bytes % 2 ^ bits) := by
  intro h
  have hread := h u32varint 32 [0x80, 0x80, 0x80, 0x80, 0x80, 0x01] [] .little
    (.ofVec 0 [0x80, 0x80, 0x80, 0x80, 0x80, 0x01] []) rfl
    ⟨[0x80, 0x80, 0x80, 0x80, 0x80], 0x01, rfl, by decide +kernel, by decide⟩ (by decide)
  exact absurd hread (by decide +kernel)

end Codec

end Ruyi.Buf
