import Mathlib

namespace Ruyi.Base

/-- A byte that continues a character. -/
def Utf8Tail (b : UInt8) : Prop := 0x80 ≤ b.toNat ∧ b.toNat ≤ 0xBF

/-- The byte sequences of one character: shortest forms of scalar values. -/
inductive Utf8Char : List UInt8 → Prop where
  | one {a : UInt8} (ha : a.toNat ≤ 0x7F) : Utf8Char [a]
  | two {a b : UInt8} (hlead : 0xC2 ≤ a.toNat ∧ a.toNat ≤ 0xDF) (hb : Utf8Tail b) :
      Utf8Char [a, b]
  | three {a b c : UInt8} (hlead : 0xE0 ≤ a.toNat ∧ a.toNat ≤ 0xEF) (hb : Utf8Tail b)
      (hc : Utf8Tail c) (hshortest : a.toNat = 0xE0 → 0xA0 ≤ b.toNat)
      (hsurrogate : a.toNat = 0xED → b.toNat ≤ 0x9F) : Utf8Char [a, b, c]
  | four {a b c d : UInt8} (hlead : 0xF0 ≤ a.toNat ∧ a.toNat ≤ 0xF4) (hb : Utf8Tail b)
      (hc : Utf8Tail c) (hd : Utf8Tail d) (hshortest : a.toNat = 0xF0 → 0x90 ≤ b.toNat)
      (hlast : a.toNat = 0xF4 → b.toNat ≤ 0x8F) : Utf8Char [a, b, c, d]

/-- The encoding of a scalar value. -/
def utf8Bytes (n : Nat) : List UInt8 :=
  if n ≤ 0x7F then [.ofNat n]
  else if n ≤ 0x7FF then [.ofNat (n / 64 % 32 + 0xC0), .ofNat (n % 64 + 0x80)]
  else if n ≤ 0xFFFF then
    [.ofNat (n / 4096 % 16 + 0xE0), .ofNat (n / 64 % 64 + 0x80), .ofNat (n % 64 + 0x80)]
  else
    [.ofNat (n / 262144 % 8 + 0xF0), .ofNat (n / 4096 % 64 + 0x80), .ofNat (n / 64 % 64 + 0x80),
      .ofNat (n % 64 + 0x80)]

theorem utf8EncodeChar_eq (c : Char) : String.utf8EncodeChar c = utf8Bytes c.toNat := rfl

theorem toNat_ofNat_of_lt {n : Nat} (h : n < 256) : (UInt8.ofNat n).toNat = n := by
  rw [UInt8.toNat_ofNat']
  exact Nat.mod_eq_of_lt h

theorem ofNat_eq_iff {n : Nat} (h : n < 256) {b : UInt8} : UInt8.ofNat n = b ↔ n = b.toNat := by
  rw [← UInt8.toNat_inj, toNat_ofNat_of_lt h]

theorem utf8Char_utf8Bytes {n : Nat} (h : n.isValidChar) : Utf8Char (utf8Bytes n) := by
  have hvalid : n < 0xD800 ∨ 0xDFFF < n ∧ n < 0x110000 := h
  unfold utf8Bytes
  split
  · refine .one ?_
    rw [toNat_ofNat_of_lt (by omega)]
    omega
  · split
    · refine .two ?_ ?_
      · rw [toNat_ofNat_of_lt (by omega)]
        omega
      · rw [Utf8Tail, toNat_ofNat_of_lt (by omega)]
        omega
    · split
      · refine .three ?_ ?_ ?_ ?_ ?_
        all_goals
          try unfold Utf8Tail
          repeat rw [toNat_ofNat_of_lt (by omega)]
          omega
      · refine .four ?_ ?_ ?_ ?_ ?_ ?_
        all_goals
          try unfold Utf8Tail
          repeat rw [toNat_ofNat_of_lt (by omega)]
          omega

theorem exists_utf8Bytes {bytes : List UInt8} (h : Utf8Char bytes) :
    ∃ n, n.isValidChar ∧ utf8Bytes n = bytes := by
  cases h with
  | @one a ha =>
      refine ⟨a.toNat, .inl (by omega), ?_⟩
      rw [utf8Bytes, if_pos ha, UInt8.ofNat_toNat]
  | @two a b hlead hb =>
      obtain ⟨hb, hb'⟩ := hb
      refine ⟨(a.toNat - 0xC0) * 64 + (b.toNat - 0x80), .inl (by omega), ?_⟩
      rw [utf8Bytes, if_neg (by omega), if_pos (by omega)]
      simp only [List.cons.injEq, and_true]
      refine ⟨(ofNat_eq_iff ?_).mpr ?_, (ofNat_eq_iff ?_).mpr ?_⟩ <;> omega
  | @three a b c hlead hb hc hshortest hsurrogate =>
      obtain ⟨hb, hb'⟩ := hb
      obtain ⟨hc, hc'⟩ := hc
      refine ⟨(a.toNat - 0xE0) * 4096 + (b.toNat - 0x80) * 64 + (c.toNat - 0x80), ?_, ?_⟩
      · show _ < 0xD800 ∨ 0xDFFF < _ ∧ _ < 0x110000
        omega
      · rw [utf8Bytes, if_neg (by omega), if_neg (by omega), if_pos (by omega)]
        simp only [List.cons.injEq, and_true]
        refine ⟨(ofNat_eq_iff ?_).mpr ?_, (ofNat_eq_iff ?_).mpr ?_, (ofNat_eq_iff ?_).mpr ?_⟩ <;>
          omega
  | @four a b c d hlead hb hc hd hshortest hlast =>
      obtain ⟨hb, hb'⟩ := hb
      obtain ⟨hc, hc'⟩ := hc
      obtain ⟨hd, hd'⟩ := hd
      refine ⟨(a.toNat - 0xF0) * 262144 + (b.toNat - 0x80) * 4096 + (c.toNat - 0x80) * 64 +
        (d.toNat - 0x80), ?_, ?_⟩
      · show _ < 0xD800 ∨ 0xDFFF < _ ∧ _ < 0x110000
        omega
      · rw [utf8Bytes, if_neg (by omega), if_neg (by omega), if_neg (by omega)]
        simp only [List.cons.injEq, and_true]
        refine ⟨(ofNat_eq_iff ?_).mpr ?_, (ofNat_eq_iff ?_).mpr ?_, (ofNat_eq_iff ?_).mpr ?_,
          (ofNat_eq_iff ?_).mpr ?_⟩ <;> omega

theorem utf8Char_iff {bytes : List UInt8} :
    Utf8Char bytes ↔ ∃ c : Char, String.utf8EncodeChar c = bytes := by
  constructor
  · intro h
    obtain ⟨n, hvalid, hbytes⟩ := exists_utf8Bytes h
    refine ⟨Char.ofNat n, ?_⟩
    rw [utf8EncodeChar_eq, Char.toNat_ofNat, if_pos hvalid]
    exact hbytes
  · rintro ⟨c, rfl⟩
    exact utf8Char_utf8Bytes c.valid

/-- A text in UTF-8. -/
def utf8 (text : List Char) : List UInt8 := text.flatMap String.utf8EncodeChar

def ValidUtf8 (bytes : List UInt8) : Prop := ∃ text, utf8 text = bytes

theorem validUtf8_nil : ValidUtf8 [] := ⟨[], rfl⟩

theorem ValidUtf8.append_char {bytes rest : List UInt8} (hchar : Utf8Char bytes)
    (hrest : ValidUtf8 rest) : ValidUtf8 (bytes ++ rest) := by
  obtain ⟨c, rfl⟩ := utf8Char_iff.mp hchar
  obtain ⟨text, rfl⟩ := hrest
  exact ⟨c :: text, rfl⟩

theorem ValidUtf8.cases {bytes : List UInt8} (h : ValidUtf8 bytes) :
    bytes = [] ∨ ∃ char rest, bytes = char ++ rest ∧ Utf8Char char ∧ ValidUtf8 rest := by
  obtain ⟨text, rfl⟩ := h
  cases text with
  | nil => exact .inl rfl
  | cons c text => exact .inr ⟨_, utf8 text, rfl, utf8Char_iff.mpr ⟨c, rfl⟩, text, rfl⟩

theorem Utf8Char.length_pos {bytes : List UInt8} (h : Utf8Char bytes) : 0 < bytes.length := by
  cases h <;> exact Nat.succ_pos _

theorem length_le_utf8 (text : List Char) : text.length ≤ (utf8 text).length := by
  induction text with
  | nil => exact Nat.le_refl _
  | cons c text ih =>
      have hpos := (utf8Char_iff.mpr ⟨c, rfl⟩).length_pos
      rw [utf8, List.flatMap_cons, List.length_append, List.length_cons]
      rw [utf8] at ih
      omega

theorem lt_of_utf8_length {text : List Char} (h : (utf8 text).length = text.length) {b : UInt8}
    (hb : b ∈ utf8 text) : b.toNat ≤ 0x7F := by
  induction text with
  | nil => cases hb
  | cons c text ih =>
      have hchar := utf8Char_iff.mpr ⟨c, rfl⟩
      have hpos := hchar.length_pos
      have hle := length_le_utf8 text
      rw [utf8, List.flatMap_cons] at h hb
      rw [List.length_append, List.length_cons] at h
      rw [utf8] at hle ih
      rcases List.mem_append.mp hb with hb | hb
      · have hone : (String.utf8EncodeChar c).length = 1 := by omega
        generalize String.utf8EncodeChar c = bytes at *
        cases hchar with
        | one ha =>
            rw [List.mem_singleton.mp hb]
            exact ha
        | two | three | four => cases hone
      · exact ih (by omega) hb

theorem exists_utf8_of_le {bytes : List UInt8} (h : ∀ b ∈ bytes, b.toNat ≤ 0x7F) :
    ∃ text : List Char, text.length = bytes.length ∧ utf8 text = bytes := by
  induction bytes with
  | nil => exact ⟨[], rfl, rfl⟩
  | cons b bytes ih =>
      obtain ⟨text, hlength, htext⟩ := ih fun b' hb' => h b' (List.mem_cons_of_mem _ hb')
      obtain ⟨c, hc⟩ := utf8Char_iff.mp (.one (h b List.mem_cons_self))
      refine ⟨c :: text, ?_, ?_⟩
      · rw [List.length_cons, List.length_cons, hlength]
      · rw [utf8, List.flatMap_cons, hc]
        exact congrArg (b :: ·) htext

end Ruyi.Base
