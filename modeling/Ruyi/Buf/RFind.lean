import Ruyi.Buf.Find
import Ruyi.Usize

namespace Ruyi.Buf

open Base (Last OccursAt Across rposition last_find_range' last_rposition findM?_ok
  occursAt_append_back occursAt_take last_append_of_right last_append_of_across last_append_of_left)

namespace Block

/-- `as_bytes_to`: the first `pos` readable bytes. -/
def asBytesTo (b : Block) (pos : Nat) : List UInt8 := (b.mem.drop b.readPos).take pos

def endsWith (b : Block) (needle : List UInt8) : Bool := needle.isSuffixOf b.asBytes

theorem asBytesTo_eq {b : Block} {pos : Nat} (h : pos ≤ b.len) :
    b.asBytesTo pos = b.asBytes.take pos := by
  rw [asBytesTo, asBytes, List.take_take, Nat.min_eq_left h]

theorem endsWith_iff {b : Block} {needle : List UInt8} :
    b.endsWith needle = true ↔ needle <:+ b.asBytes := List.isSuffixOf_iff_suffix

end Block

/-- The loop of `ends_with_internal`, over the blocks from the last one to the first. -/
def endsWithBlocks : (needle : List UInt8) → List Block → Bool
  | _, [] => false
  | needle, block :: rest =>
      if block.len < needle.length then
        if block.endsWith (needle.drop (needle.length - block.len)) then
          endsWithBlocks (needle.take (needle.length - block.len)) rest
        else false
      else block.endsWith needle

/-- The search of `rfind_from` in `bytes`, which begin at `rpos`.  When it finds nothing, the
first bytes, in which the needle can still end, are left. -/
def rsearchIn (needle : List UInt8) (rpos : Nat) (bytes : List UInt8) : List UInt8 ⊕ Nat :=
  if needle.length ≤ bytes.length then
    match rposition needle bytes with
    | some n => .inr (rpos + n)
    | none => .inl (bytes.take (needle.length - 1))
  else .inl bytes

namespace ByteBuf

def endsWithInternal (buf : ByteBuf) (needle : List UInt8) (rpos : Nat) : Except Fault Bool :=
  if buf.idx ≤ rpos ∧ rpos ≤ buf.blocks.length then
    .ok (endsWithBlocks needle ((buf.blocks.take rpos).drop buf.idx).reverse)
  else .error .panic

/-- The inner loop of `rfind_from`: `m` bytes of the needle are at the head of `bytes`, and the
others in the blocks before `idx`. -/
def rsearchAcross (buf : ByteBuf) (build : Build) (needle bytes : List UInt8) (idx : Nat) :
    Except Fault (Option Nat) :=
  (List.range' 1 bytes.length).reverse.findM? fun m => do
    let mid ← build.sub needle.length m
    let (left, right) ← splitAt needle mid
    if bytes.take m == right then buf.endsWithInternal left idx else .ok false

/-- The loop of `rfind_from`; `bytes` are those of the block `idx`, and begin at `rpos`. -/
def rfindLoop (buf : ByteBuf) (build : Build) (needle : List UInt8) :
    (idx : Nat) → (bytes : List UInt8) → (rpos : Nat) → Except Fault (Option Nat)
  | idx, bytes, rpos =>
      match rsearchIn needle rpos bytes with
      | .inr n => .ok (some n)
      | .inl bytes =>
          if idx = buf.idx then .ok none
          else do
            match ← buf.rsearchAcross build needle bytes idx with
            | some m => (build.sub (rpos + m) needle.length).map some
            | none =>
                match idx with
                -- `idx` falls below zero, and no block is there
                | 0 => .error (if build.overflowChecks then .panic else .freed)
                | idx + 1 =>
                    match buf.blocks[idx]? with
                    | none => .error .freed
                    | some block => do
                        let rpos ← build.sub rpos block.asBytes.length
                        buf.rfindLoop build needle idx block.asBytes rpos

/-- Where the loop of `rfind_from` begins when what it finds has to end at `rpos`, or at the end
of the buffer: a block, its bytes up to there, where they end and how many they are. -/
def rlocate (buf : ByteBuf) (build : Build) (rpos : Nat) :
    Except Fault (Nat × List UInt8 × Nat × Nat) :=
  match buf.locateIdx rpos with
  | .ok p => .ok (p.idx, p.block.asBytesTo p.off, rpos, p.off)
  | .error off => do
      let rpos ← build.sub rpos off
      match buf.blocks.getLast? with
      | some block => .ok (buf.blocks.length - 1, block.asBytes, rpos, block.len)
      | none => .ok (buf.idx, [], rpos, off)

def rfindFrom (buf : ByteBuf) (build : Build) (needle : List UInt8) (rpos : Nat) :
    Except Fault (Option Nat) := do
  let rpos ← build.add rpos needle.length
  let (idx, bytes, rpos, off) ← buf.rlocate build rpos
  if needle.isEmpty then .ok (some rpos)
  else
    let rpos ← build.sub rpos off
    buf.rfindLoop build needle idx bytes rpos

def rfind (buf : ByteBuf) (build : Build) (needle : List UInt8) : Except Fault (Option Nat) :=
  buf.rfindFrom build needle build.max

end ByteBuf

theorem endsWithBlocks_iff {needle : List UInt8} {blocks : List Block} (hne : needle ≠ []) :
    endsWithBlocks needle blocks = true ↔ needle <:+ bytesOf blocks.reverse := by
  induction blocks generalizing needle with
  | nil =>
      rw [endsWithBlocks, List.reverse_nil, bytesOf_nil, List.suffix_nil]
      exact ⟨fun h => absurd h Bool.false_ne_true, fun h => absurd h hne⟩
  | cons block rest ih =>
      rw [endsWithBlocks, bytesOf_reverse_cons]
      split
      · rename_i hlt
        have hrest : needle.take (needle.length - block.len) ≠ [] := by
          rw [← List.length_pos_iff, List.length_take]
          omega
        have hdrop : (needle.drop (needle.length - block.len)).length = block.asBytes.length := by
          rw [List.length_drop, Block.length_asBytes]
          omega
        conv_rhs => rw [← List.take_append_drop (needle.length - block.len) needle]
        rw [List.suffix_append_inj_of_length_eq hdrop, ← ih hrest]
        split
        · rename_i hends
          have heq := (Block.endsWith_iff.mp hends).eq_of_length hdrop
          exact ⟨fun h => ⟨h, heq⟩, And.left⟩
        · rename_i hends
          refine ⟨fun h => absurd h Bool.false_ne_true, fun h => absurd ?_ hends⟩
          rw [Block.endsWith_iff, h.2]
      · rename_i hle
        have hlen : needle.length ≤ block.asBytes.length := by
          rw [Block.length_asBytes]
          exact Nat.le_of_not_lt hle
        rw [Block.endsWith_iff, ← List.reverse_prefix, ← List.reverse_prefix, List.reverse_append,
          prefix_append_of_length_le]
        rw [List.length_reverse, List.length_reverse]
        exact hlen

theorem rsearchIn_cases {needle : List UInt8} (hne : needle ≠ []) (rpos : Nat)
    (bytes : List UInt8) :
    (∃ n, rsearchIn needle rpos bytes = .inr (rpos + n) ∧
        Last (OccursAt needle bytes) (some n)) ∨
      ∃ left dropped, rsearchIn needle rpos bytes = .inl left ∧ bytes = left ++ dropped ∧
        left.length < needle.length ∧ (dropped = [] ∨ left.length + 1 = needle.length) ∧
        Last (OccursAt needle bytes) none := by
  have hpos : 0 < needle.length := List.length_pos_iff.mpr hne
  rw [rsearchIn]
  split
  · rename_i hle
    have hlast : Last (OccursAt needle bytes) (rposition needle bytes) := last_rposition hne
    cases hrposition : rposition needle bytes with
    | some n =>
        rw [hrposition] at hlast
        exact .inl ⟨n, rfl, hlast⟩
    | none =>
        rw [hrposition] at hlast
        have hlen : (bytes.take (needle.length - 1)).length = needle.length - 1 := by
          rw [List.length_take]
          omega
        refine .inr ⟨bytes.take (needle.length - 1), bytes.drop (needle.length - 1), rfl, ?_, ?_,
          .inr ?_, hlast⟩
        · exact (List.take_append_drop _ _).symm
        · omega
        · omega
  · rename_i hlt
    refine .inr ⟨bytes, [], rfl, (List.append_nil _).symm, Nat.lt_of_not_le hlt, .inl rfl, ?_⟩
    intro i hi
    have := hi.add_le hne
    omega

namespace ByteBuf

/-- The unread bytes in the blocks before `idx`. -/
def ahead (buf : ByteBuf) (idx : Nat) : List UInt8 := bytesOf ((buf.blocks.take idx).drop buf.idx)

variable {buf : ByteBuf} {build : Build} {needle bytes : List UInt8} {idx : Nat}

theorem ahead_idx (buf : ByteBuf) : buf.ahead buf.idx = [] := by
  have hlen : (buf.blocks.take buf.idx).length ≤ buf.idx := by
    rw [List.length_take]
    exact Nat.min_le_left _ _
  rw [ahead, List.drop_of_length_le hlen, bytesOf_nil]

theorem ahead_succ (hle : buf.idx ≤ idx) (hlt : idx < buf.blocks.length) :
    buf.ahead (idx + 1) = buf.ahead idx ++ buf.blocks[idx].asBytes := by
  have hlen : buf.idx ≤ (buf.blocks.take idx).length := by
    rw [List.length_take]
    omega
  rw [ahead, ahead, List.take_succ_eq_append_getElem hlt, List.drop_append_of_le_length hlen,
    bytesOf_append, bytesOf_cons, bytesOf_nil, List.append_nil]

theorem ahead_length (buf : ByteBuf) : buf.ahead buf.blocks.length = buf.content := by
  rw [ahead, List.take_length, content]

theorem endsWithInternal_ok (hle : buf.idx ≤ idx) (hidx : idx ≤ buf.blocks.length) :
    buf.endsWithInternal needle idx =
      .ok (endsWithBlocks needle ((buf.blocks.take idx).drop buf.idx).reverse) :=
  if_pos ⟨hle, hidx⟩

variable (build) in
theorem rsearchAcross_test {m : Nat} (hm : m ≤ needle.length) :
    (do
      let mid ← build.sub needle.length m
      let (left, right) ← splitAt needle mid
      if bytes.take m == right then buf.endsWithInternal left idx else Except.ok false) =
      if bytes.take m == needle.drop (needle.length - m) then
        buf.endsWithInternal (needle.take (needle.length - m)) idx
      else .ok false := by
  rw [build.sub_ok hm]
  show (splitAt needle (needle.length - m) >>= _) = _
  rw [splitAt_ok (Nat.sub_le _ _)]
  rfl

variable (build) in
theorem rsearchAcross_ok (hlt : bytes.length < needle.length) (hle : buf.idx ≤ idx)
    (hidx : idx ≤ buf.blocks.length) :
    ∃ r, buf.rsearchAcross build needle bytes idx = .ok r ∧
      Last (Across needle (buf.ahead idx) bytes) r := by
  have htest : ∀ m ∈ (List.range' 1 bytes.length).reverse,
      (do
        let mid ← build.sub needle.length m
        let (left, right) ← splitAt needle mid
        if bytes.take m == right then buf.endsWithInternal left idx else Except.ok false) =
      Except.ok (bytes.take m == needle.drop (needle.length - m) &&
        endsWithBlocks (needle.take (needle.length - m))
          ((buf.blocks.take idx).drop buf.idx).reverse) := by
    intro m hm
    rw [List.mem_reverse, List.mem_range'_1] at hm
    rw [rsearchAcross_test build (by omega), endsWithInternal_ok hle hidx]
    cases bytes.take m == needle.drop (needle.length - m) <;> rfl
  refine ⟨_, findM?_ok htest, (last_find_range' 1 _ _).congr fun m => ?_⟩
  have htests : 1 ≤ m → m < 1 + bytes.length →
      ((bytes.take m == needle.drop (needle.length - m) &&
          endsWithBlocks (needle.take (needle.length - m))
            ((buf.blocks.take idx).drop buf.idx).reverse) = true ↔
        needle.length ≤ (buf.ahead idx).length + m ∧
          OccursAt needle (buf.ahead idx ++ bytes)
            ((buf.ahead idx).length + m - needle.length)) := by
    intro hpos hm
    have hleft : needle.take (needle.length - m) ≠ [] := by
      rw [← List.length_pos_iff, List.length_take]
      omega
    rw [Bool.and_eq_true, beq_iff_eq, endsWithBlocks_iff hleft, List.reverse_reverse,
      occursAt_append_back (by omega)]
    rfl
  constructor
  · rintro ⟨⟨hpos, hm⟩, hboth⟩
    obtain ⟨hfits, hoccurs⟩ := (htests hpos hm).mp hboth
    exact ⟨hpos, by omega, hfits, hoccurs⟩
  · rintro ⟨hpos, hm, hfits, hoccurs⟩
    have hm' : m < 1 + bytes.length := by omega
    exact ⟨⟨hpos, hm'⟩, (htests hpos hm').mpr ⟨hfits, hoccurs⟩⟩

variable (build) in
theorem rfindLoop_ok (hne : needle ≠ []) (hle : buf.idx ≤ idx) (hidx : idx < buf.blocks.length)
    (bytes : List UInt8) :
    ∃ r, buf.rfindLoop build needle idx bytes (buf.ahead idx).length = .ok r ∧
      Last (OccursAt needle (buf.ahead idx ++ bytes)) r := by
  induction idx generalizing bytes with
  | zero =>
      have hfirst : 0 = buf.idx := (Nat.le_zero.mp hle).symm
      rw [rfindLoop]
      rcases rsearchIn_cases hne (buf.ahead 0).length bytes with
        ⟨n, hsearch, hlast⟩ | ⟨left, dropped, hsearch, rfl, -, -, hnone⟩
      · rw [hsearch]
        exact ⟨_, rfl, last_append_of_right hlast⟩
      · rw [hsearch]
        refine ⟨none, if_pos hfirst, ?_⟩
        rw [hfirst, ahead_idx, List.nil_append]
        exact hnone
  | succ idx ih =>
      rw [rfindLoop]
      rcases rsearchIn_cases hne (buf.ahead (idx + 1)).length bytes with
        ⟨n, hsearch, hlast⟩ | ⟨left, dropped, hsearch, rfl, hleft, hdropped, hnone⟩
      · rw [hsearch]
        exact ⟨_, rfl, last_append_of_right hlast⟩
      · rw [hsearch]
        rcases Nat.eq_or_lt_of_le hle with hfirst | hlt
        · refine ⟨none, if_pos hfirst.symm, ?_⟩
          rw [← hfirst, ahead_idx, List.nil_append]
          exact hnone
        · obtain ⟨r, hacross, hr⟩ :=
            rsearchAcross_ok build hleft hle (Nat.le_of_lt hidx)
          dsimp only
          rw [if_neg (Nat.ne_of_gt hlt), hacross]
          cases r with
          | some m =>
              refine ⟨_, ?_, last_append_of_across hne hdropped hnone hr⟩
              show (build.sub ((buf.ahead (idx + 1)).length + m) needle.length).map some = _
              rw [build.sub_ok hr.1.fits]
              rfl
          | none =>
              have hbefore : buf.idx ≤ idx := Nat.le_of_lt_succ hlt
              have hblock : idx < buf.blocks.length := Nat.lt_of_succ_lt hidx
              have hahead := ahead_succ hbefore hblock
              obtain ⟨o, hloop, ho⟩ := ih hbefore hblock buf.blocks[idx].asBytes
              rw [← hahead] at ho
              refine ⟨o, ?_, last_append_of_left hne hdropped hnone hr ho⟩
              have hrpos : (buf.ahead (idx + 1)).length - buf.blocks[idx].asBytes.length =
                  (buf.ahead idx).length := by
                rw [hahead, List.length_append, Nat.add_sub_cancel]
              have hle' : buf.blocks[idx].asBytes.length ≤ (buf.ahead (idx + 1)).length := by
                rw [hahead, List.length_append]
                exact Nat.le_add_left _ _
              have hget := List.getElem?_eq_getElem hblock
              simp only [bind, Except.bind, hget, build.sub_ok hle', hrpos]
              exact hloop

theorem locate_error {blocks : List Block} {pos left : Nat}
    (h : locate blocks pos = .error left) : pos = (bytesOf blocks).length + left := by
  induction blocks generalizing pos with
  | nil =>
      cases h
      exact (Nat.zero_add _).symm
  | cons block rest ih =>
      rw [locate] at h
      split at h
      · cases h
      · rename_i hpos
        split at h
        · rename_i hrest
          cases h
          have := ih hrest
          rw [bytesOf_cons, List.length_append, Block.length_asBytes]
          omega
        · cases h

theorem locateIdx_error_eq {pos left : Nat} (h : buf.locateIdx pos = .error left) :
    pos = buf.content.length + left := by
  rw [locateIdx] at h
  split at h
  · rename_i hlocate
    cases h
    exact locate_error hlocate
  · cases h

theorem idx_lt_of_len (hlen : 0 < buf.len) : buf.idx < buf.blocks.length := by
  refine Nat.lt_of_not_le fun hle => ?_
  rw [len, List.drop_of_length_le hle] at hlen
  cases hlen

theorem rlocate_ok (build : Build) (rpos : Nat) (hidx : buf.idx < buf.blocks.length) :
    ∃ idx bytes start, buf.rlocate build rpos =
        .ok (idx, bytes, start + bytes.length, bytes.length) ∧
      buf.idx ≤ idx ∧ idx < buf.blocks.length ∧ start = (buf.ahead idx).length ∧
      buf.content.take rpos = buf.ahead idx ++ bytes := by
  rw [rlocate]
  cases hlocate : buf.locateIdx rpos with
  | ok p =>
      obtain ⟨hle, hpos, hcontent⟩ := locateIdx_ok hlocate
      have hbytes := Block.asBytesTo_eq p.off_le_len
      have hoff : (p.block.asBytesTo p.off).length = p.off := by
        rw [hbytes, List.length_take, Block.length_asBytes, Nat.min_eq_left p.off_le_len]
      refine ⟨p.idx, p.block.asBytesTo p.off, _, ?_, hle, p.idx_lt, rfl, ?_⟩
      · rw [hoff, ahead, ← hpos]
      · have hin : p.off ≤ p.block.asBytes.length := by
          rw [Block.length_asBytes]
          exact p.off_le_len
        rw [hcontent, hpos, hbytes, List.append_assoc, List.take_length_add_append,
          List.take_append_of_le_length hin]
        rfl
  | error off =>
      have hpos := locateIdx_error_eq hlocate
      have hne : buf.blocks ≠ [] := by
        rintro hnil
        rw [hnil] at hidx
        cases hidx
      have hlast : buf.blocks.length - 1 < buf.blocks.length := by omega
      have hget : buf.blocks.getLast? = some buf.blocks[buf.blocks.length - 1] := by
        rw [List.getLast?_eq_getElem?, List.getElem?_eq_getElem hlast]
      have hahead : buf.content =
          buf.ahead (buf.blocks.length - 1) ++ buf.blocks[buf.blocks.length - 1].asBytes := by
        rw [← ahead_succ (by omega) hlast, Nat.sub_add_cancel (by omega), ahead_length]
      refine ⟨buf.blocks.length - 1, buf.blocks[buf.blocks.length - 1].asBytes, _, ?_, by omega,
        hlast, rfl, ?_⟩
      · have hsub : rpos - off = buf.content.length := by omega
        dsimp only
        rw [build.sub_ok (by omega), hsub, hahead, List.length_append]
        simp only [bind, Except.bind, hget, Block.length_asBytes]
      · rw [List.take_of_length_le (by omega)]
        exact hahead

theorem rfindFrom_of_add {build : Build} {needle : List UInt8} {rpos last : Nat}
    (hidx : buf.idx < buf.blocks.length) (hne : needle ≠ [])
    (hadd : build.add rpos needle.length = .ok last) :
    ∃ r, buf.rfindFrom build needle rpos = .ok r ∧
      Last (fun i => i + needle.length ≤ last ∧ OccursAt needle buf.content i) r := by
  obtain ⟨idx, bytes, start, hlocate, hle, hlast, rfl, hcontent⟩ := rlocate_ok build last hidx
  obtain ⟨r, hloop, hr⟩ := rfindLoop_ok build hne hle hlast bytes
  have hempty : needle.isEmpty = false := List.isEmpty_eq_false_iff.mpr hne
  refine ⟨r, ?_, ?_⟩
  · rw [rfindFrom, hadd]
    simp only [bind, Except.bind, hlocate, hempty, Bool.false_eq_true, if_false,
      build.sub_ok (Nat.le_add_left _ _), Nat.add_sub_cancel]
    exact hloop
  · rw [← hcontent] at hr
    exact hr.congr fun i => occursAt_take hne

/-- A search finds the last place of the needle up to `rpos`, whatever the blocks. -/
theorem rfind_from_last (buf : ByteBuf) (hlen : 0 < buf.len) {needle : List UInt8}
    (hne : needle ≠ []) (build : Build) {rpos : Nat}
    (hfits : rpos + needle.length < 2 ^ build.bits) :
    ∃ r, buf.rfindFrom build needle rpos = .ok r ∧
      Last (fun i => i ≤ rpos ∧ OccursAt needle buf.content i) r := by
  obtain ⟨r, hrun, hr⟩ := rfindFrom_of_add (idx_lt_of_len hlen) hne (Build.add_ok hfits)
  refine ⟨r, hrun, hr.congr fun i => ?_⟩
  rw [Nat.add_le_add_iff_right]

theorem rfind_from_last_of_two :
    ∃ r, ((ByteBuf.ofVec 0 [1, 2] []).extend (.ofVec 1 [1] [])).rfindFrom ⟨64, false⟩ [2, 1] 5 =
        .ok r ∧
      Last (fun i => i ≤ 5 ∧
        OccursAt [2, 1] ((ByteBuf.ofVec 0 [1, 2] []).extend (.ofVec 1 [1] [])).content i) r :=
  rfind_from_last _ (by decide) (by decide) _ (by decide)

/-- `rfind` begins at the greatest position, and its sum with the length of the needle is out of
range: it panics, or finds nothing whatever there is. -/
theorem rfind_agrees_iff (buf : ByteBuf) (hlen : 0 < buf.len) {needle : List UInt8}
    (hne : needle ≠ []) (build : Build) (hfits : needle.length < 2 ^ build.bits) :
    (∃ r f, buf.rfind build needle = .ok r ∧ buf.find needle = .ok f ∧
        (r.isSome ↔ f.isSome) ∧
        ∀ i, r = some i → IsGreatest {j | OccursAt needle buf.content j} i) ↔
      build.overflowChecks = false ∧ ∀ i, ¬ OccursAt needle buf.content i := by
  have hpos : 0 < needle.length := List.length_pos_iff.mpr hne
  have hadd := build.add_max hpos hfits
  obtain ⟨p, hlocate⟩ := exists_locateIdx (idx_lt_of_len hlen) (Nat.zero_le _)
  obtain ⟨f, hfind, hf⟩ := findFrom_located hne hlocate
  cases hchecks : build.overflowChecks with
  | true =>
      rw [hchecks, if_pos rfl] at hadd
      have hpanic : buf.rfind build needle = .error .panic := by
        rw [rfind, rfindFrom, hadd]
        rfl
      constructor
      · rintro ⟨r, _, hr, -⟩
        rw [hpanic] at hr
        cases hr
      · rintro ⟨h, -⟩
        cases h
  | false =>
      rw [hchecks] at hadd
      obtain ⟨r, hrfind, hr⟩ := rfindFrom_of_add (idx_lt_of_len hlen) hne hadd
      have hnone : r = none := by
        cases r with
        | none => rfl
        | some i =>
            have := hr.1.1
            omega
      rw [rfind, hrfind, hnone]
      constructor
      · rintro ⟨r, f', hr, hf', hiff, -⟩
        cases hr
        cases hfind.symm.trans hf'
        refine ⟨rfl, fun i hi => ?_⟩
        cases f with
        | none => exact hf i ⟨Nat.zero_le i, hi⟩
        | some j => exact absurd (hiff.mpr rfl) Bool.false_ne_true
      · rintro ⟨-, habsent⟩
        have hnot : f = none := by
          cases f with
          | none => rfl
          | some j => exact absurd hf.1.2 (habsent j)
        refine ⟨none, none, rfl, hnot ▸ hfind, Iff.rfl, fun i hi => ?_⟩
        cases hi

theorem rfind_agrees_iff_of_absent :
    (∃ r f, (ByteBuf.ofVec 0 [1, 2] []).rfind ⟨64, false⟩ [3] = .ok r ∧
        (ByteBuf.ofVec 0 [1, 2] []).find [3] = .ok f ∧ (r.isSome ↔ f.isSome) ∧
        ∀ i, r = some i →
          IsGreatest {j | OccursAt [3] (ByteBuf.ofVec 0 [1, 2] []).content j} i) ↔
      false = false ∧ ∀ i, ¬ OccursAt [3] (ByteBuf.ofVec 0 [1, 2] []).content i :=
  rfind_agrees_iff _ (by decide) (by decide) ⟨64, false⟩ (by decide)

/-- Without overflow checks a byte that is there is not found. -/
theorem rfind_finds_nothing :
    ¬ ∀ (build : Build) (buf : ByteBuf) (needle : List UInt8), 0 < buf.len → needle ≠ [] →
      needle.length < 2 ^ build.bits →
        ∃ r f, buf.rfind build needle = .ok r ∧ buf.find needle = .ok f ∧
          (r.isSome ↔ f.isSome) ∧
          ∀ i, r = some i → IsGreatest {j | OccursAt needle buf.content j} i := by
  intro h
  obtain ⟨r, f, hr, hf, hiff, -⟩ :=
    h ⟨64, false⟩ (.ofVec 0 [1] []) [1] (by decide) (by decide) (by decide)
  have hrfind : (ByteBuf.ofVec 0 [1] []).rfind ⟨64, false⟩ [1] = .ok none := by decide +kernel
  have hfind : (ByteBuf.ofVec 0 [1] []).find [1] = .ok (some 0) := rfl
  cases hrfind.symm.trans hr
  cases hfind.symm.trans hf
  exact absurd (hiff.mpr rfl) Bool.false_ne_true

end ByteBuf

end Ruyi.Buf
