import Ruyi.Base.Utf8
import Ruyi.Buf.HexDump

namespace Ruyi.Buf.HexDump

open Base

theorem isControl_iff {b : UInt8} :
    isControl b = true ↔ b.toNat < 0x20 ∨ 0x7F ≤ b.toNat ∧ b.toNat ≤ 0x9F := by
  simp [isControl, UInt8.lt_iff_toNat_lt, UInt8.le_iff_toNat_le]

theorem shown_le {b : UInt8} (hb : b.toNat < 0xA0) : (shown b).toNat ≤ 0x7F := by
  rw [shown]
  split
  · decide
  · rename_i hcontrol
    rw [isControl_iff] at hcontrol
    omega

theorem shown_of_le {b : UInt8} (hb : 0xA0 ≤ b.toNat) : shown b = b := by
  rw [shown, if_neg]
  rw [isControl_iff]
  omega

theorem of_shown {b c : UInt8} (hshown : shown b = c) (hc : 0x80 ≤ c.toNat) :
    b = c ∧ 0xA0 ≤ b.toNat := by
  have hb : 0xA0 ≤ b.toNat := by
    by_contra hlt
    have hle := shown_le (Nat.lt_of_not_le hlt)
    rw [hshown] at hle
    omega
  exact ⟨(shown_of_le hb).symm.trans hshown, hb⟩

/-- A byte of a character that no dot replaces. -/
def WholeTail (b : UInt8) : Prop := 0xA0 ≤ b.toNat ∧ b.toNat ≤ 0xBF

/-- The bytes of a row from 0xA0 on are characters, in full and with no byte replaced. -/
inductive Whole : List UInt8 → Prop where
  | nil : Whole []
  | one {a : UInt8} {row : List UInt8} (ha : a.toNat < 0xA0) (h : Whole row) : Whole (a :: row)
  | two {a b : UInt8} {row : List UInt8} (ha : 0xC2 ≤ a.toNat ∧ a.toNat ≤ 0xDF)
      (hb : WholeTail b) (h : Whole row) : Whole (a :: b :: row)
  | three {a b c : UInt8} {row : List UInt8} (ha : 0xE0 ≤ a.toNat ∧ a.toNat ≤ 0xEF)
      (hsurrogate : a.toNat ≠ 0xED) (hb : WholeTail b) (hc : WholeTail c) (h : Whole row) :
      Whole (a :: b :: c :: row)
  | four {a b c d : UInt8} {row : List UInt8} (ha : 0xF0 ≤ a.toNat ∧ a.toNat ≤ 0xF3)
      (hb : WholeTail b) (hc : WholeTail c) (hd : WholeTail d) (h : Whole row) :
      Whole (a :: b :: c :: d :: row)

theorem WholeTail.shown {b : UInt8} (h : WholeTail b) :
    shown b = b ∧ Utf8Tail b := by
  obtain ⟨hle, hlt⟩ := h
  exact ⟨shown_of_le hle, by omega, hlt⟩

theorem Utf8Tail.whole {b c : UInt8} (h : Utf8Tail c) (hshown : HexDump.shown b = c) :
    b = c ∧ WholeTail b := by
  obtain ⟨rfl, hle⟩ := of_shown hshown h.1
  exact ⟨rfl, hle, h.2⟩

theorem valid_of_whole {row : List UInt8} (h : Whole row) : ValidUtf8 (row.map shown) := by
  induction h with
  | nil => exact validUtf8_nil
  | one ha _ ih => exact ih.append_char (.one (shown_le ha))
  | two ha hb _ ih =>
      obtain ⟨hshown, htail⟩ := hb.shown
      have hchar := Utf8Char.two ha htail
      have hvalid := ih.append_char hchar
      rw [List.map_cons, List.map_cons, shown_of_le (by omega), hshown]
      exact hvalid
  | three ha hsurrogate hb hc _ ih =>
      obtain ⟨hshown, htail⟩ := hb.shown
      obtain ⟨hshown', htail'⟩ := hc.shown
      have hchar := Utf8Char.three ha htail htail' (fun _ => hb.1) fun heq => absurd heq hsurrogate
      have hvalid := ih.append_char hchar
      rw [List.map_cons, List.map_cons, List.map_cons, shown_of_le (by omega), hshown, hshown']
      exact hvalid
  | four ha hb hc hd _ ih =>
      obtain ⟨hshown, htail⟩ := hb.shown
      obtain ⟨hshown', htail'⟩ := hc.shown
      obtain ⟨hshown'', htail''⟩ := hd.shown
      have hlow := hb.1
      have hchar := Utf8Char.four ⟨ha.1, by omega⟩ htail htail' htail'' (by omega) (by omega)
      have hvalid := ih.append_char hchar
      rw [List.map_cons, List.map_cons, List.map_cons, List.map_cons, shown_of_le (by omega),
        hshown, hshown', hshown'']
      exact hvalid

theorem whole_of_valid {row : List UInt8} (h : ValidUtf8 (row.map shown)) : Whole row := by
  induction hn : row.length using Nat.strong_induction_on generalizing row with
  | _ n ih =>
      rcases h.cases with hnil | ⟨char, rest, heq, hchar, hrest⟩
      · obtain rfl := List.map_eq_nil_iff.mp hnil
        exact .nil
      · obtain ⟨start, row', rfl, hstart, rfl⟩ := List.map_eq_append_iff.mp heq
        have hpos := hchar.length_pos
        rw [← hstart, List.length_map] at hpos
        rw [List.length_append] at hn
        have hwhole := ih row'.length (by omega) hrest rfl
        cases hchar with
        | one ha =>
            obtain ⟨a, rfl, rfl⟩ := List.map_eq_singleton_iff.mp hstart
            refine .one ?_ hwhole
            by_contra hle
            rw [shown_of_le (Nat.le_of_not_lt hle)] at ha
            omega
        | two hlead hb =>
            obtain ⟨a, _, rfl, ha, hstart⟩ := List.map_eq_cons_iff.mp hstart
            obtain ⟨b, rfl, hshown⟩ := List.map_eq_singleton_iff.mp hstart
            obtain ⟨rfl, -⟩ := of_shown ha (by omega)
            obtain ⟨rfl, hwholeb⟩ := Utf8Tail.whole hb hshown
            exact .two hlead hwholeb hwhole
        | three hlead hb hc hshortest hsurrogate =>
            obtain ⟨a, _, rfl, ha, hstart⟩ := List.map_eq_cons_iff.mp hstart
            obtain ⟨b, _, rfl, hshown, hstart⟩ := List.map_eq_cons_iff.mp hstart
            obtain ⟨c, rfl, hshown'⟩ := List.map_eq_singleton_iff.mp hstart
            obtain ⟨rfl, -⟩ := of_shown ha (by omega)
            obtain ⟨rfl, hwholeb⟩ := Utf8Tail.whole hb hshown
            obtain ⟨rfl, hwholec⟩ := Utf8Tail.whole hc hshown'
            -- After 0xED only bytes that a dot replaces would do.
            refine .three hlead (fun heq => ?_) hwholeb hwholec hwhole
            exact absurd (Nat.le_trans hwholeb.1 (hsurrogate heq)) (by decide)
        | four hlead hb hc hd hshortest hlast =>
            obtain ⟨a, _, rfl, ha, hstart⟩ := List.map_eq_cons_iff.mp hstart
            obtain ⟨b, _, rfl, hshown, hstart⟩ := List.map_eq_cons_iff.mp hstart
            obtain ⟨c, _, rfl, hshown', hstart⟩ := List.map_eq_cons_iff.mp hstart
            obtain ⟨d, rfl, hshown''⟩ := List.map_eq_singleton_iff.mp hstart
            obtain ⟨rfl, -⟩ := of_shown ha (by omega)
            obtain ⟨rfl, hwholeb⟩ := Utf8Tail.whole hb hshown
            obtain ⟨rfl, hwholec⟩ := Utf8Tail.whole hc hshown'
            obtain ⟨rfl, hwholed⟩ := Utf8Tail.whole hd hshown''
            have hne : a.toNat ≠ 0xF4 := by
              intro heq
              exact absurd (Nat.le_trans hwholeb.1 (hlast heq)) (by decide)
            exact .four ⟨hlead.1, by omega⟩ hwholeb hwholec hwholed hwhole

theorem valid_iff_whole {row : List UInt8} : ValidUtf8 (row.map shown) ↔ Whole row :=
  ⟨whole_of_valid, valid_of_whole⟩

theorem text_eq_iff {row bytes : List UInt8} :
    row.map (fun b => some (shown b)) = bytes.map some ↔ row.map shown = bytes := by
  have hmap : row.map (fun b => some (shown b)) = (row.map shown).map some := List.map_map.symm
  rw [hmap]
  exact (List.map_injective_iff.mpr (Option.some_injective UInt8)).eq_iff

theorem text_mem_calls {content : List UInt8} {slice : List (Option UInt8)} :
    .text slice ∈ calls content ↔
      content ≠ [] ∧ ∃ k ≤ content.length / bytesPerRow,
        slice = (row content (bytesPerRow * k)).map fun b => some (shown b) := by
  rw [calls]
  split
  · rename_i hnil
    simp [hnil]
  · rename_i hne
    simp [rowCalls, hne]

theorem row_eq_nil {content : List UInt8} {k : Nat} (hk : content.length / bytesPerRow < k) :
    row content (bytesPerRow * k) = [] := by
  have hlt := (Nat.div_lt_iff_lt_mul (by decide)).mp hk
  rw [Nat.mul_comm] at hlt
  rw [row, List.drop_of_length_le (Nat.le_of_lt hlt)]
  rfl

/-- The dump makes a `str` of UTF-8 alone exactly of the buffers whose rows are whole. -/
theorem passes_utf8_iff (buf : ByteBuf) :
    (∀ (f : Formatter) (slice : List (Option UInt8)), .text slice ∈ f.passed buf →
      ∃ bytes, slice = bytes.map some ∧ ValidUtf8 bytes) ↔
      ∀ k, Whole (row buf.content (bytesPerRow * k)) := by
  constructor
  · intro hvalid k
    by_cases hnil : buf.content = []
    · rw [row, hnil, List.drop_nil]
      exact .nil
    · rcases Nat.lt_or_ge (buf.content.length / bytesPerRow) k with hk | hk
      · rw [row_eq_nil hk]
        exact .nil
      · have hmem := text_mem_calls.mpr ⟨hnil, k, hk, rfl⟩
        rw [← Formatter.passed_eq (f := fun _ _ => true) (fun _ _ => rfl)] at hmem
        obtain ⟨bytes, hbytes, hutf8⟩ := hvalid _ _ hmem
        rw [← valid_iff_whole, text_eq_iff.mp hbytes]
        exact hutf8
  · intro hwhole f slice hmem
    obtain ⟨-, k, -, rfl⟩ := text_mem_calls.mp ((f.passed_prefix buf).subset hmem)
    exact ⟨_, text_eq_iff.mpr rfl, valid_iff_whole.mpr (hwhole k)⟩

/-- A byte that starts no character is passed on as it is. -/
theorem passed_invalid :
    ¬ ∀ (buf : ByteBuf) (f : Formatter) (slice : List (Option UInt8)),
      .text slice ∈ f.passed buf → ∃ bytes, slice = bytes.map some ∧ ValidUtf8 bytes := by
  intro h
  obtain ⟨bytes, hbytes, hutf8⟩ :=
    h (ByteBuf.ofVec 0 [0xFF] []) (fun _ _ => true) [some 0xFF] (by decide +kernel)
  have hshown : [0xFF].map shown = bytes := text_eq_iff.mp hbytes
  rw [← hshown, valid_iff_whole] at hutf8
  cases hutf8 with
  | one ha _ => exact absurd ha (by decide)

end Ruyi.Buf.HexDump
