import Ruyi.Buf.HexText

namespace Ruyi.Buf

open Base

/-- A digit of `{:X}`. -/
def hexDigit (d : Nat) : UInt8 := if d < 10 then .ofNat (0x30 + d) else .ofNat (0x37 + d)

/-- `{:0X}` with a width. -/
def upperHex (width n : Nat) : List UInt8 :=
  let digits := (Nat.digits 16 n).reverse.map hexDigit
  List.replicate (width - digits.length) 0x30 ++ digits

/-- The byte of a `str` that `write_str` copies. -/
def initialised : Option UInt8 → Except Fault UInt8
  | some b => .ok b
  | none => .error .uninit

/-- What is written for `"{:08X}h:"`, `" {:02X}"`, `"   "` and `"   {}\\n"`. -/
def Arguments.written : Arguments → Except Fault (List UInt8)
  | .address addr => .ok (upperHex 8 addr ++ [0x68, 0x3A])
  | .hex b => .ok (0x20 :: upperHex 2 b.toNat)
  | .blank => .ok [0x20, 0x20, 0x20]
  | .text slice => do
      let bytes ← slice.mapM initialised
      .ok ([0x20, 0x20, 0x20] ++ bytes ++ [0x0A])

namespace HexDump

/-- What is in a `String` after the dump. -/
def written (buf : ByteBuf) : Except Fault (List UInt8) := do
  let pieces ← (Formatter.passed (fun _ _ => true) buf).mapM Arguments.written
  .ok pieces.flatten

/-- The line of the row `k`, with the bytes of its text column. -/
def line (content : List UInt8) (k : Nat) (text : List UInt8) : List UInt8 :=
  upperHex 8 (bytesPerRow * k) ++ [0x68, 0x3A] ++
    (row content (bytesPerRow * k)).flatMap (fun b => 0x20 :: upperHex 2 b.toNat) ++
    (List.replicate (bytesPerRow - (row content (bytesPerRow * k)).length)
      [0x20, 0x20, 0x20]).flatten ++ [0x20, 0x20, 0x20] ++ text

/-- A line for each row, with a character for each byte of it. -/
def Listing (content out : List UInt8) : Prop :=
  ∃ lines : List (List UInt8), out = lines.flatMap (· ++ [0x0A]) ∧ (∀ l ∈ lines, 0x0A ∉ l) ∧
    lines.length = (content.length + (bytesPerRow - 1)) / bytesPerRow ∧
    ∀ k l, lines[k]? = some l → ∃ text : List Char,
      text.length = (row content (bytesPerRow * k)).length ∧ l = line content k (utf8 text)

/-- The lines that are written. -/
def lines (content : List UInt8) : List (List UInt8) :=
  if content = [] then []
  else
    (List.range (content.length / bytesPerRow + 1)).map fun k =>
      line content k ((row content (bytesPerRow * k)).map shown)

theorem hexDigit_ne {d : Nat} (hd : d < 16) : hexDigit d ≠ 0x0A := by
  intro heq
  have hval := congrArg UInt8.toNat heq
  rw [hexDigit] at hval
  split at hval <;> rw [toNat_ofNat_of_lt (by omega)] at hval <;> simp at hval <;> omega

theorem not_mem_upperHex (width n : Nat) : 0x0A ∉ upperHex width n := by
  intro hmem
  rcases List.mem_append.mp hmem with hmem | hmem
  · exact absurd (List.eq_of_mem_replicate hmem) (by decide)
  · obtain ⟨d, hd, heq⟩ := List.mem_map.mp hmem
    exact hexDigit_ne (Nat.digits_lt_base (by decide) (List.mem_reverse.mp hd)) heq

theorem shown_ne (b : UInt8) : shown b ≠ 0x0A := by
  rw [shown]
  split
  · decide
  · rintro rfl
    rename_i hcontrol
    exact hcontrol (by decide)

theorem not_mem_line (content : List UInt8) (k : Nat) {text : List UInt8} (htext : 0x0A ∉ text) :
    0x0A ∉ line content k text := by
  have hblank : (0x0A : UInt8) ∉ [0x20, 0x20, 0x20] := by decide
  simp only [line, List.mem_append, List.mem_flatMap, List.mem_flatten, not_or, not_exists, not_and]
  refine ⟨⟨⟨⟨⟨not_mem_upperHex _ _, by decide⟩, ?_⟩, ?_⟩, hblank⟩, htext⟩
  · intro b _ hmem
    rcases List.mem_cons.mp hmem with heq | hmem
    · exact absurd heq (by decide)
    · exact not_mem_upperHex _ _ hmem
  · intro piece hpiece hmem
    rw [List.eq_of_mem_replicate hpiece] at hmem
    exact hblank hmem

theorem not_mem_lines {content l : List UInt8} (hl : l ∈ lines content) : 0x0A ∉ l := by
  rw [lines] at hl
  split at hl
  · cases hl
  · obtain ⟨k, -, rfl⟩ := List.mem_map.mp hl
    refine not_mem_line content k fun hmem => ?_
    obtain ⟨b, -, heq⟩ := List.mem_map.mp hmem
    exact shown_ne b heq

theorem lines_inj {x : UInt8} {ls ls' : List (List UInt8)} (hls : ∀ l ∈ ls, x ∉ l)
    (hls' : ∀ l ∈ ls', x ∉ l) (h : ls.flatMap (· ++ [x]) = ls'.flatMap (· ++ [x])) :
    ls = ls' := by
  have htake : ∀ {l t : List UInt8}, x ∉ l → (l ++ [x] ++ t).takeWhile (· != x) = l := by
    intro l t hl
    rw [List.append_assoc, List.takeWhile_append_of_pos]
    · simp
    · intro b hb
      simp only [bne_iff_ne]
      rintro rfl
      exact hl hb
  induction ls generalizing ls' with
  | nil =>
      cases ls' with
      | nil => rfl
      | cons l' ls' => simp at h
  | cons l ls ih =>
      cases ls' with
      | nil => simp at h
      | cons l' ls' =>
          rw [List.flatMap_cons, List.flatMap_cons] at h
          obtain rfl : l = l' := by
            rw [← htake (hls l List.mem_cons_self) (t := ls.flatMap (· ++ [x])), h,
              htake (hls' l' List.mem_cons_self)]
          refine congrArg (l :: ·) (ih (fun l hl => hls l (List.mem_cons_of_mem _ hl))
            (fun l hl => hls' l (List.mem_cons_of_mem _ hl)) (List.append_cancel_left h))

theorem mapM_ok {α β : Type} {f : α → Except Fault β} {g : α → β} {l : List α}
    (h : ∀ a ∈ l, f a = .ok (g a)) : l.mapM f = .ok (l.map g) := by
  induction l with
  | nil => rfl
  | cons a l ih =>
      rw [List.mapM_cons, h a List.mem_cons_self, ih fun b hb => h b (List.mem_cons_of_mem _ hb)]
      rfl

/-- What the calls of a row write. -/
def piece : Arguments → List UInt8
  | .address addr => upperHex 8 addr ++ [0x68, 0x3A]
  | .hex b => 0x20 :: upperHex 2 b.toNat
  | .blank => [0x20, 0x20, 0x20]
  | .text slice => [0x20, 0x20, 0x20] ++ slice.filterMap id ++ [0x0A]

theorem filterMap_text (row : List UInt8) :
    (row.map fun b => some (shown b)).filterMap id = row.map shown := by
  rw [List.filterMap_map]
  exact congrFun List.filterMap_eq_map _

theorem written_piece {content : List UInt8} {args : Arguments} (h : args ∈ calls content) :
    args.written = .ok (piece args) := by
  cases args with
  | address | hex | blank => rfl
  | text slice =>
      obtain ⟨-, k, -, rfl⟩ := text_mem_calls.mp h
      have hbytes : ((row content (bytesPerRow * k)).map fun b => some (shown b)).mapM initialised =
          .ok ((row content (bytesPerRow * k)).map shown) := by
        rw [mapM_ok (g := fun b => b.getD 0)]
        · rw [List.map_map]
          rfl
        · intro b hb
          obtain ⟨b', -, rfl⟩ := List.mem_map.mp hb
          rfl
      rw [Arguments.written, hbytes, piece, filterMap_text]
      rfl

theorem flatMap_rowCalls (content : List UInt8) (k : Nat) :
    (rowCalls content (bytesPerRow * k)).flatMap piece =
      line content k ((row content (bytesPerRow * k)).map shown) ++ [0x0A] := by
  rw [rowCalls, line]
  have hblank : ∀ n, (List.replicate n Arguments.blank).flatMap piece =
      (List.replicate n [0x20, 0x20, 0x20]).flatten := by
    intro n
    rw [List.flatMap_def, List.map_replicate]
    rfl
  simp only [List.flatMap_append, List.flatMap_cons, List.flatMap_map, List.flatMap_nil, hblank,
    piece, filterMap_text, List.append_nil, List.append_assoc]

theorem written_eq (buf : ByteBuf) :
    written buf = .ok ((lines buf.content).flatMap (· ++ [0x0A])) := by
  have hpieces : (calls buf.content).flatMap piece = (lines buf.content).flatMap (· ++ [0x0A]) := by
    rw [calls, lines]
    split
    · rfl
    · rw [List.flatMap_assoc, List.flatMap_map]
      exact congrArg (List.flatMap · _) (funext fun k => flatMap_rowCalls _ k)
  rw [written, Formatter.passed_eq (fun _ _ => rfl), mapM_ok fun args h => written_piece h,
    ← hpieces]
  rfl

theorem getElem?_row (content : List UInt8) (i : Nat) :
    (row content (bytesPerRow * (i / bytesPerRow)))[i % bytesPerRow]? = content[i]? := by
  rw [row, List.getElem?_take_of_lt (Nat.mod_lt i (by decide)), List.getElem?_drop,
    Nat.div_add_mod]

theorem mem_row {content : List UInt8} {b : UInt8} (hb : b ∈ content) :
    ∃ k ≤ content.length / bytesPerRow, b ∈ row content (bytesPerRow * k) := by
  obtain ⟨i, hi⟩ := List.mem_iff_getElem?.mp hb
  obtain ⟨hlt, -⟩ := List.getElem?_eq_some_iff.mp hi
  refine ⟨i / bytesPerRow, Nat.div_le_div_right (Nat.le_of_lt hlt), ?_⟩
  exact List.mem_of_getElem? ((getElem?_row content i).trans hi)

theorem mem_of_mem_row {content : List UInt8} {addr : Nat} {b : UInt8}
    (hb : b ∈ row content addr) : b ∈ content :=
  List.mem_of_mem_drop (List.mem_of_mem_take hb)

theorem listing_iff {content : List UInt8} :
    Listing content ((lines content).flatMap (· ++ [0x0A])) ↔
      (lines content).length = (content.length + (bytesPerRow - 1)) / bytesPerRow ∧
        ∀ k l, (lines content)[k]? = some l → ∃ text : List Char,
          text.length = (row content (bytesPerRow * k)).length ∧
            l = line content k (utf8 text) := by
  constructor
  · rintro ⟨ls, hout, hls, hlength, htext⟩
    obtain rfl := lines_inj (fun l hl => not_mem_lines hl) hls hout
    exact ⟨hlength, htext⟩
  · rintro ⟨hlength, htext⟩
    exact ⟨_, rfl, fun l hl => not_mem_lines hl, hlength, htext⟩

theorem length_lines {content : List UInt8} (hne : content ≠ []) :
    (lines content).length = content.length / bytesPerRow + 1 := by
  rw [lines, if_neg hne, List.length_map, List.length_range]

theorem getElem?_lines {content : List UInt8} (hne : content ≠ []) {k : Nat}
    (hk : k ≤ content.length / bytesPerRow) :
    (lines content)[k]? = some (line content k ((row content (bytesPerRow * k)).map shown)) := by
  rw [lines, if_neg hne, List.getElem?_map, List.getElem?_range (Nat.lt_succ_of_le hk)]
  rfl

theorem text_iff {content : List UInt8} {k : Nat} :
    (∃ text : List Char, text.length = (row content (bytesPerRow * k)).length ∧
      line content k ((row content (bytesPerRow * k)).map shown) = line content k (utf8 text)) ↔
      ∀ b ∈ row content (bytesPerRow * k), b.toNat < 0xA0 := by
  constructor
  · rintro ⟨text, hlength, hline⟩ b hb
    have htext : (row content (bytesPerRow * k)).map shown = utf8 text :=
      List.append_cancel_left hline
    have hsame : (utf8 text).length = text.length := by
      rw [← htext, List.length_map, hlength]
    by_contra hge
    have hle := lt_of_utf8_length hsame (htext ▸ List.mem_map_of_mem hb)
    rw [shown_of_le (Nat.le_of_not_lt hge)] at hle
    omega
  · intro hall
    have hshown : ∀ c ∈ (row content (bytesPerRow * k)).map shown, c.toNat ≤ 0x7F := by
      intro c hc
      obtain ⟨b, hb, rfl⟩ := List.mem_map.mp hc
      exact shown_le (hall b hb)
    obtain ⟨text, hlength, htext⟩ := exists_utf8_of_le hshown
    refine ⟨text, ?_, ?_⟩
    · rw [hlength, List.length_map]
    · rw [htext]

/-- The dump lists the buffer exactly when its last row is not full and no byte is above 0x9F. -/
theorem dump_lists_iff (buf : ByteBuf) :
    (∃ out, written buf = .ok out ∧ Listing buf.content out) ↔
      (buf.len = 0 ∨ buf.len % bytesPerRow ≠ 0) ∧ ∀ b ∈ buf.content, b.toNat < 0xA0 := by
  have hlisting : (∃ out, written buf = .ok out ∧ Listing buf.content out) ↔
      Listing buf.content ((lines buf.content).flatMap (· ++ [0x0A])) := by
    rw [written_eq]
    constructor
    · rintro ⟨out, hout, h⟩
      cases hout
      exact h
    · exact fun h => ⟨_, rfl, h⟩
  rw [hlisting, listing_iff, buf.len_eq]
  by_cases hnil : buf.content = []
  · rw [hnil]
    refine iff_of_true ⟨rfl, ?_⟩ ⟨.inl rfl, fun b hb => absurd hb List.not_mem_nil⟩
    intro k l hl
    cases hl
  · have hpos := List.length_pos_iff.mpr hnil
    rw [length_lines hnil]
    refine and_congr ?_ ?_
    · rw [bytesPerRow]
      omega
    · constructor
      · intro htext b hb
        obtain ⟨k, hk, hmem⟩ := mem_row hb
        exact text_iff.mp (htext k _ (getElem?_lines hnil hk)) b hmem
      · intro hall k l hl
        obtain ⟨hlt, -⟩ := List.getElem?_eq_some_iff.mp hl
        rw [length_lines hnil] at hlt
        rw [getElem?_lines hnil (Nat.le_of_lt_succ hlt)] at hl
        cases hl
        exact text_iff.mpr fun b hb => hall b (mem_of_mem_row hb)

/-- After a full row there is a line of an address alone. -/
theorem dump_of_full_row :
    ¬ ∀ buf : ByteBuf, ∃ out, written buf = .ok out ∧ Listing buf.content out := by
  intro h
  obtain ⟨out, hout, hlisting⟩ := h (ByteBuf.ofVec 0 (List.replicate 16 0) [])
  rw [written_eq] at hout
  cases hout
  obtain ⟨hlength, -⟩ := listing_iff.mp hlisting
  rw [length_lines (by decide)] at hlength
  exact absurd hlength (by decide)

end HexDump

end Ruyi.Buf
