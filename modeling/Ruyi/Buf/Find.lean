import Ruyi.Base.Search
import Ruyi.Buf.ByteBuf
import Ruyi.Outcome

namespace Ruyi.Buf

open Base (First OccursAt position first_find first_position findM?_ok occursAt_append_across
  occursAt_append_left occursAt_append_right)

namespace Block

/-- `as_bytes_from`: the readable bytes from the offset `pos` on. -/
def asBytesFrom (b : Block) (pos : Nat) : List UInt8 :=
  (b.mem.drop (b.readPos + pos)).take (b.writePos - (b.readPos + pos))

def startsWith (b : Block) (needle : List UInt8) : Bool := needle.isPrefixOf b.asBytes

theorem asBytesFrom_eq (b : Block) (pos : Nat) : b.asBytesFrom pos = b.asBytes.drop pos := by
  simp only [asBytesFrom, asBytes, len, List.drop_take, List.drop_drop]
  congr 1
  omega

theorem startsWith_iff {b : Block} {needle : List UInt8} :
    b.startsWith needle = true ↔ needle <+: b.asBytes := List.isPrefixOf_iff_prefix

end Block

/-- `split_at` of a slice. -/
def splitAt (bytes : List UInt8) (mid : Nat) : Except Fault (List UInt8 × List UInt8) :=
  if mid ≤ bytes.length then .ok (bytes.take mid, bytes.drop mid) else .error .panic

/-- The loop of `starts_with_internal`. -/
def startsWithBlocks : (needle : List UInt8) → List Block → Bool
  | _, [] => false
  | needle, block :: rest =>
      if block.len < needle.length then
        if block.startsWith (needle.take block.len) then
          startsWithBlocks (needle.drop block.len) rest
        else false
      else block.startsWith needle

/-- The search of `find_from` in `bytes`, which begin at `pos`.  When it finds nothing, the last
bytes, in which the needle can still begin, are left. -/
def searchIn (needle : List UInt8) (pos : Nat) (bytes : List UInt8) :
    (Nat × List UInt8) ⊕ Nat :=
  if needle.length ≤ bytes.length then
    match position needle bytes with
    | some n => .inr (pos + n)
    | none =>
        let n := bytes.length - needle.length + 1
        .inl (pos + n, bytes.drop n)
  else .inl (pos, bytes)

/-- The inner loop of `find_from`: the needle begins in `bytes` and ends in the blocks that
follow. -/
def searchAcross (needle bytes : List UInt8) (rest : List Block) : Except Fault (Option Nat) :=
  (List.range bytes.length).findM? fun m => do
    let (left, right) ← splitAt needle (bytes.length - m)
    .ok (bytes.drop m == left && startsWithBlocks right rest)

/-- The loop of `find_from`; `bytes` begin at `pos`, and `rest` are the blocks after theirs. -/
def findLoop (needle : List UInt8) : List Block → (pos : Nat) → (bytes : List UInt8) →
    Except Fault (Option Nat)
  | rest, pos, bytes =>
      match searchIn needle pos bytes with
      | .inr n => .ok (some n)
      | .inl (pos, bytes) =>
          match rest with
          | [] => .ok none
          | block :: rest => do
              match ← searchAcross needle bytes (block :: rest) with
              | some m => .ok (some (pos + m))
              | none => findLoop needle rest (pos + bytes.length) block.asBytes

namespace ByteBuf

def findFrom (buf : ByteBuf) (needle : List UInt8) (pos : Nat) : Except Fault (Option Nat) :=
  match buf.locateIdx pos with
  | .error _ => .ok none
  | .ok p =>
      if needle.isEmpty then .ok (some pos)
      else findLoop needle (buf.blocks.drop (p.idx + 1)) pos (p.block.asBytesFrom p.off)

def find (buf : ByteBuf) (needle : List UInt8) : Except Fault (Option Nat) :=
  buf.findFrom needle 0

end ByteBuf

theorem splitAt_ok {bytes : List UInt8} {mid : Nat} (h : mid ≤ bytes.length) :
    splitAt bytes mid = .ok (bytes.take mid, bytes.drop mid) := if_pos h

theorem prefix_append_of_length_le {needle left right : List UInt8}
    (h : needle.length ≤ left.length) : needle <+: left ++ right ↔ needle <+: left := by
  rw [List.prefix_iff_eq_take, List.prefix_iff_eq_take, List.take_append_of_le_length h]

theorem startsWithBlocks_iff {needle : List UInt8} {blocks : List Block} (hne : needle ≠ []) :
    startsWithBlocks needle blocks = true ↔ needle <+: bytesOf blocks := by
  induction blocks generalizing needle with
  | nil =>
      rw [startsWithBlocks, bytesOf_nil, List.prefix_nil]
      exact ⟨fun h => absurd h Bool.false_ne_true, fun h => absurd h hne⟩
  | cons block rest ih =>
      rw [startsWithBlocks, bytesOf_cons]
      split
      · rename_i hlt
        have hrest : needle.drop block.len ≠ [] := by
          rw [← List.length_pos_iff, List.length_drop]
          exact Nat.sub_pos_of_lt hlt
        have htake : (needle.take block.len).length = block.asBytes.length := by
          rw [List.length_take, Block.length_asBytes]
          exact Nat.min_eq_left (Nat.le_of_lt hlt)
        conv_rhs => rw [← List.take_append_drop block.len needle]
        rw [List.prefix_append_inj_of_length_eq htake, ← ih hrest]
        split
        · rename_i hstarts
          have heq := (Block.startsWith_iff.mp hstarts).eq_of_length htake
          exact ⟨fun h => ⟨heq, h⟩, And.right⟩
        · rename_i hstarts
          refine ⟨fun h => absurd h Bool.false_ne_true, fun h => absurd ?_ hstarts⟩
          rw [Block.startsWith_iff, h.1]
      · rename_i hle
        rw [Block.startsWith_iff, prefix_append_of_length_le]
        rw [Block.length_asBytes]
        exact Nat.le_of_not_lt hle

theorem searchAcross_ok {needle bytes : List UInt8} (hlt : bytes.length < needle.length)
    (rest : List Block) :
    ∃ r, searchAcross needle bytes rest = .ok r ∧
      First (fun i => i < bytes.length ∧ OccursAt needle (bytes ++ bytesOf rest) i) r := by
  have htest : ∀ m ∈ List.range bytes.length,
      (do
        let (left, right) ← splitAt needle (bytes.length - m)
        Except.ok (bytes.drop m == left && startsWithBlocks right rest)) =
      Except.ok (bytes.drop m == needle.take (bytes.length - m) &&
        startsWithBlocks (needle.drop (bytes.length - m)) rest) := by
    intro m _
    rw [splitAt_ok (by omega)]
    rfl
  refine ⟨_, findM?_ok htest, (first_find _ _).congr fun i => ?_⟩
  refine and_congr_right fun hi => ?_
  have hright : needle.drop (bytes.length - i) ≠ [] := by
    rw [← List.length_pos_iff, List.length_drop]
    omega
  rw [Bool.and_eq_true, beq_iff_eq, startsWithBlocks_iff hright,
    occursAt_append_across (by omega) (by omega)]

section

variable {needle : List UInt8} (hne : needle ≠ [])
include hne

theorem searchIn_cases (pos : Nat) (bytes : List UInt8) :
    (∃ n, searchIn needle pos bytes = .inr (pos + n) ∧ First (OccursAt needle bytes) (some n)) ∨
      ∃ dropped left, searchIn needle pos bytes = .inl (pos + dropped.length, left) ∧
        bytes = dropped ++ left ∧ left.length < needle.length ∧
        (∀ i, bytes.length < i + needle.length → dropped.length ≤ i) ∧
        First (OccursAt needle bytes) none := by
  have hpos : 0 < needle.length := List.length_pos_iff.mpr hne
  rw [searchIn]
  split
  · rename_i hle
    have hfirst : First (OccursAt needle bytes) (position needle bytes) := first_position hne
    cases hposition : position needle bytes with
    | some n =>
        rw [hposition] at hfirst
        exact .inl ⟨n, rfl, hfirst⟩
    | none =>
        rw [hposition] at hfirst
        refine .inr ⟨bytes.take (bytes.length - needle.length + 1),
          bytes.drop (bytes.length - needle.length + 1), ?_, ?_, ?_, ?_, hfirst⟩
        · rw [List.length_take, Nat.min_eq_left (by omega)]
        · exact (List.take_append_drop _ _).symm
        · rw [List.length_drop]
          omega
        · intro i hi
          rw [List.length_take]
          omega
  · rename_i hlt
    refine .inr ⟨[], bytes, rfl, rfl, Nat.lt_of_not_le hlt, fun i _ => Nat.zero_le i, ?_⟩
    intro i hi
    have := hi.add_le hne
    omega

theorem occursAt_inside_or_over (bytes others : List UInt8) (j : Nat) :
    OccursAt needle (bytes ++ others) j ↔ OccursAt needle bytes j ∨
      bytes.length < j + needle.length ∧ OccursAt needle (bytes ++ others) j := by
  rcases Nat.lt_or_ge bytes.length (j + needle.length) with hlt | hle
  · have hnot : ¬ OccursAt needle bytes j := fun h => absurd (h.add_le hne) (Nat.not_le.mpr hlt)
    exact ⟨fun h => .inr ⟨hlt, h⟩, fun h => (h.resolve_left hnot).2⟩
  · rw [occursAt_append_left hle]
    exact ⟨.inl, fun h => h.elim id And.right⟩

theorem first_of_dropped {dropped left others : List UInt8} {o : Option Nat}
    (hdropped : ∀ j, (dropped ++ left).length < j + needle.length → dropped.length ≤ j)
    (hnone : First (OccursAt needle (dropped ++ left)) none)
    (h : First (OccursAt needle (left ++ others)) o) :
    First (OccursAt needle (dropped ++ left ++ others)) (o.map (dropped.length + ·)) := by
  refine h.shift ?_ fun j => ?_
  · intro j hj
    rcases (occursAt_inside_or_over hne _ _ j).mp hj with hj | hj
    · exact absurd hj (hnone j)
    · exact hdropped j hj.1
  · rw [List.append_assoc, occursAt_append_right]

theorem findLoop_ok (rest : List Block) (pos : Nat) (bytes : List UInt8) :
    ∃ r, findLoop needle rest pos bytes = .ok (r.map (pos + ·)) ∧
      First (OccursAt needle (bytes ++ bytesOf rest)) r := by
  induction rest generalizing pos bytes with
  | nil =>
      rw [findLoop, bytesOf_nil, List.append_nil]
      rcases searchIn_cases hne pos bytes with
        ⟨n, hsearch, hfirst⟩ | ⟨_, _, hsearch, -, -, -, hnone⟩
      · rw [hsearch]
        exact ⟨some n, rfl, hfirst⟩
      · rw [hsearch]
        exact ⟨none, rfl, hnone⟩
  | cons block rest ih =>
      rw [findLoop]
      rcases searchIn_cases hne pos bytes with
        ⟨n, hsearch, hfirst⟩ | ⟨dropped, left, hsearch, rfl, hleft, hdropped, hnone⟩
      · rw [hsearch]
        refine ⟨some n, rfl, hfirst.of_left (occursAt_inside_or_over hne _ _) ?_⟩
        intro j k hj hk
        have := hj.add_le hne
        omega
      · rw [hsearch]
        obtain ⟨r, hacross, hr⟩ := searchAcross_ok hleft (block :: rest)
        -- what begins in the bytes that are left, or behind them
        have hsplit : ∀ j, OccursAt needle (left ++ bytesOf (block :: rest)) j ↔
            (j < left.length ∧ OccursAt needle (left ++ bytesOf (block :: rest)) j) ∨
              left.length ≤ j ∧ OccursAt needle (left ++ bytesOf (block :: rest)) j := by
          intro j
          rw [← or_and_right, and_iff_right (Nat.lt_or_ge j left.length)]
        have hbehind : ∀ {o : Option Nat},
            First (OccursAt needle (left ++ bytesOf (block :: rest))) o → _ :=
          fun ho => first_of_dropped hne hdropped hnone ho
        dsimp only
        rw [hacross]
        cases r with
        | some m =>
            refine ⟨_, ?_, hbehind (hr.of_left hsplit fun j k hj hk => ?_)⟩
            · show Except.ok (some (pos + dropped.length + m)) = _
              rw [Nat.add_assoc]
              rfl
            · omega
        | none =>
            obtain ⟨o, hloop, ho⟩ := ih (pos + dropped.length + left.length) block.asBytes
            rw [← bytesOf_cons] at ho
            have hrest := ho.shift (n := left.length)
              (q := fun j => left.length ≤ j ∧
                OccursAt needle (left ++ bytesOf (block :: rest)) j)
              (fun j hj => hj.1)
              (fun j => ⟨fun hj => occursAt_append_right.mp hj.2,
                fun hj => ⟨Nat.le_add_right _ _, occursAt_append_right.mpr hj⟩⟩)
            refine ⟨_, ?_, hbehind (hr.of_right hsplit hrest)⟩
            show findLoop needle rest (pos + dropped.length + left.length) block.asBytes = _
            rw [hloop, Option.map_map, Option.map_map]
            congr 2
            funext k
            simp only [Function.comp_apply]
            omega

end

namespace ByteBuf

variable {buf : ByteBuf}

theorem locateIdx_error {pos left : Nat} (h : buf.locateIdx pos = .error left) :
    buf.content = [] ∨ buf.content.length < pos := by
  rcases Nat.lt_or_ge buf.idx buf.blocks.length with hidx | hidx
  · refine .inr (Nat.lt_of_not_le fun hle => ?_)
    obtain ⟨p, hp⟩ := exists_locateIdx hidx hle
    rw [hp] at h
    cases h
  · refine .inl ?_
    rw [content, List.drop_of_length_le hidx, bytesOf_nil]

theorem findFrom_located {needle : List UInt8} (hne : needle ≠ []) {pos : Nat}
    {p : Position buf.blocks} (hlocate : buf.locateIdx pos = .ok p) :
    ∃ r, buf.findFrom needle pos = .ok r ∧
      First (fun i => pos ≤ i ∧ OccursAt needle buf.content i) r := by
  obtain ⟨hidx, hat, hcontent⟩ := locateIdx_ok hlocate
  obtain ⟨r, hloop, hr⟩ := findLoop_ok hne (buf.blocks.drop (p.idx + 1)) pos
    (p.block.asBytesFrom p.off)
  have hempty : needle.isEmpty = false := by
    rw [List.isEmpty_eq_false_iff]
    exact hne
  have hle : pos ≤ buf.content.length := by
    have := p.off_le_len
    rw [hcontent, hat]
    simp only [List.length_append, Block.length_asBytes]
    omega
  have hdrop : buf.content.drop pos =
      p.block.asBytesFrom p.off ++ bytesOf (buf.blocks.drop (p.idx + 1)) := by
    rw [hcontent, hat, List.append_assoc, List.drop_length_add_append,
      List.drop_append_of_le_length (by rw [Block.length_asBytes]; exact p.off_le_len),
      Block.asBytesFrom_eq]
  refine ⟨_, ?_, hr.shift (fun i hi => hi.1) fun i => ?_⟩
  · rw [findFrom, hlocate]
    dsimp only
    rw [hempty]
    exact hloop
  · have htake : (buf.content.take pos).length = pos := by
      rw [List.length_take, Nat.min_eq_left hle]
    have hmove : OccursAt needle (buf.content.take pos ++ buf.content.drop pos)
        ((buf.content.take pos).length + i) ↔ OccursAt needle (buf.content.drop pos) i :=
      occursAt_append_right
    rw [List.take_append_drop, htake, hdrop] at hmove
    exact ⟨fun hi => hmove.mp hi.2, fun hi => ⟨Nat.le_add_right _ _, hmove.mpr hi⟩⟩

/-- A search finds the first place of the needle from `pos` on, whatever the blocks. -/
theorem find_from_first (buf : ByteBuf) {needle : List UInt8} (hne : needle ≠ []) (pos : Nat) :
    ∃ r, buf.findFrom needle pos = .ok r ∧
      First (fun i => pos ≤ i ∧ OccursAt needle buf.content i) r := by
  have hpos : 0 < needle.length := List.length_pos_iff.mpr hne
  cases hlocate : buf.locateIdx pos with
  | error left =>
      refine ⟨none, by rw [findFrom, hlocate], ?_⟩
      rintro i ⟨hi, hoccurs⟩
      have hle := hoccurs.add_le hne
      rcases locateIdx_error hlocate with hnil | hlt
      · rw [hnil, List.length_nil] at hle
        omega
      · omega
  | ok p => exact findFrom_located hne hlocate

theorem find_from_first_of_two :
    ∃ r, ((ByteBuf.ofVec 0 [1, 2] []).extend (.ofVec 1 [1] [])).findFrom [2, 1] 0 = .ok r ∧
      First (fun i => 0 ≤ i ∧
        OccursAt [2, 1] ((ByteBuf.ofVec 0 [1, 2] []).extend (.ofVec 1 [1] [])).content i) r :=
  find_from_first _ (by decide) 0

end ByteBuf

end Ruyi.Buf
