import Ruyi.Base.Scan
import Ruyi.Buf.GetIter

namespace Ruyi.Buf

open Base (scan scan_append scan_invariant scan_takeStep takeStep takeStep_pos)

variable {σ ρ : Type}

/-- A body that takes the bytes of a block as a scan does, in the states its loop comes to. -/
structure Scans (body : σ → Block → Block × (σ ⊕ ρ)) (step : σ → UInt8 → σ ⊕ ρ)
    (live : σ → Prop) : Prop where
  usesUp : UsesUp body
  live_step : ∀ {s x s'}, live s → step s x = .inl s' → live s'
  goes_on : ∀ {s block s'}, live s → block.isEmpty = false →
    scan step s block.asBytes = .inl s' → (body s block).2 = .inl s'
  returns : ∀ {s block r rest}, live s → block.isEmpty = false →
    scan step s block.asBytes = .inr (r, rest) →
      (body s block).2 = .inr r ∧ (body s block).1.asBytes = rest

section

variable {body : σ → Block → Block × (σ ⊕ ρ)} {step : σ → UInt8 → σ ⊕ ρ} {live : σ → Prop}

theorem forBlocks_scan (h : Scans body step live) (stop : σ → ρ) {s : σ} (hs : live s)
    (blocks : List Block) :
    ((forBlocks body stop s blocks).1, bytesOf ((forBlocks body stop s blocks).2.1.drop
        (forBlocks body stop s blocks).2.2)) =
      match scan step s (bytesOf blocks) with
      | .inl s' => (stop s', [])
      | .inr r => r := by
  induction blocks generalizing s with
  | nil => rfl
  | cons block rest ih =>
      rw [forBlocks, bytesOf_cons]
      split
      · rename_i hempty
        rw [Block.asBytes_of_isEmpty hempty, List.nil_append]
        exact ih hs
      · rename_i hempty
        have hnonempty : block.isEmpty = false := Bool.eq_false_iff.mpr hempty
        rw [scan_append]
        rcases hscan : scan step s block.asBytes with s' | ⟨r, left⟩
        · have hbody := h.goes_on hs hnonempty hscan
          have hlive : live s' := scan_invariant h.live_step hs hscan
          rw [← Prod.mk.eta (p := body s block), hbody]
          exact ih hlive
        · obtain ⟨hbody, hleft⟩ := h.returns hs hnonempty hscan
          rw [← Prod.mk.eta (p := body s block), hbody]
          dsimp only
          rw [List.drop_zero, bytesOf_cons, hleft]

theorem ByteBuf.readWith_scan (h : Scans body step live) (stop : σ → ρ) {s : σ} (hs : live s)
    (buf : ByteBuf) :
    ((buf.readWith body stop s).1, (buf.readWith body stop s).2.content) =
      match scan step s buf.content with
      | .inl s' => (stop s', [])
      | .inr r => r := by
  rw [content_readWith]
  exact forBlocks_scan h stop hs _

end

theorem scans_readBytesBody (result : List UInt8 → ρ) :
    Scans (readBytesBody result) (takeStep result) fun s => 0 < s.1 := by
  refine ⟨usesUp_readBytesBody result, fun _ h => takeStep_pos h, ?_, ?_⟩
  · rintro ⟨n, dst⟩ block s' hn - hscan
    rw [scan_takeStep result hn, Block.length_asBytes] at hscan
    rw [readBytesBody]
    split at hscan
    · cases hscan
    · rename_i hlt
      cases hscan
      rw [if_neg hlt]
  · rintro ⟨n, dst⟩ block r rest hn - hscan
    rw [scan_takeStep result hn, Block.length_asBytes] at hscan
    rw [readBytesBody]
    split at hscan
    · rename_i hle
      cases hscan
      rw [if_pos hle]
      exact ⟨rfl, block.asBytes_consume n⟩
    · cases hscan

theorem readBody_eq (size : Nat) (order target : Endian) :
    readBody size order target = readBytesBody fun v =>
      .ok (valueOf target (if order = target then v else reverse v size)) := by
  funext ⟨n, dst⟩ block
  have hread := block.read_le
  rw [readBody, readBytesBody]
  split
  · rename_i hle
    rw [Block.len] at hle
    have hpos : min (block.readPos + n) block.writePos = block.readPos + n :=
      Nat.min_eq_left (by omega)
    simp only [Block.consume, hpos]
  · have hpos : min (block.readPos + block.len) block.writePos = block.writePos := by
      rw [Block.len]
      omega
    simp only [Block.consume, hpos]

theorem scans_readByteBody :
    Scans readByteBody (fun _ x => .inr (.ok x.toNat)) fun _ => True := by
  refine ⟨usesUp_readByteBody, fun _ _ => trivial, ?_, ?_⟩
  · intro s block s' _ hnonempty hscan
    rcases hbytes : block.asBytes with _ | ⟨x, xs⟩
    · rw [Block.asBytes_eq_nil_iff, hnonempty] at hbytes
      cases hbytes
    · rw [hbytes] at hscan
      cases hscan
  · intro s block r rest _ hnonempty hscan
    rcases hbytes : block.asBytes with _ | ⟨x, xs⟩
    · rw [Block.asBytes_eq_nil_iff, hnonempty] at hbytes
      cases hbytes
    · rw [hbytes] at hscan
      cases hscan
      rw [readByteBody]
      dsimp only
      rw [block.asBytes_consume, hbytes]
      exact ⟨rfl, rfl⟩

/-- A read of no bytes ends at the first block that has some, and takes none of them. -/
theorem forBlocks_readBytesBody_zero (result : List UInt8 → ρ) (stop : Nat × List UInt8 → ρ)
    (dst : List UInt8) (blocks : List Block) :
    ((forBlocks (readBytesBody result) stop (0, dst) blocks).1 = result dst ∨
        (forBlocks (readBytesBody result) stop (0, dst) blocks).1 = stop (0, dst)) ∧
      bytesOf ((forBlocks (readBytesBody result) stop (0, dst) blocks).2.1.drop
        (forBlocks (readBytesBody result) stop (0, dst) blocks).2.2) = bytesOf blocks := by
  induction blocks with
  | nil => exact ⟨.inr rfl, rfl⟩
  | cons block rest ih =>
      rw [forBlocks]
      split
      · rename_i hempty
        rw [bytesOf_cons, Block.asBytes_of_isEmpty hempty, List.nil_append]
        exact ih
      · rw [readBytesBody, if_pos (Nat.zero_le _)]
        dsimp only
        rw [List.take_zero, List.append_nil, List.drop_zero, bytesOf_cons, bytesOf_cons,
          Block.asBytes_consume, List.drop_zero]
        exact ⟨.inl rfl, rfl⟩

theorem u8s.readExact_ok {n : Nat} {buf : ByteBuf} (h : n ≤ buf.content.length) :
    ((u8s.readExact n buf).1, (u8s.readExact n buf).2.content) =
      (.ok (buf.content.take n), buf.content.drop n) := by
  rw [readExact]
  split
  · rename_i hzero
    rw [hzero]
    rfl
  · rename_i hne
    have hpos : 0 < n := Nat.pos_of_ne_zero hne
    rw [ByteBuf.readWith_scan (scans_readBytesBody _) _ hpos, scan_takeStep _ hpos, if_pos h,
      List.nil_append]

theorem u8s.readExact_error {n : Nat} {buf : ByteBuf} (h : buf.content.length < n) :
    ((u8s.readExact n buf).1, (u8s.readExact n buf).2.content) = (.error .underflow, []) := by
  have hpos : 0 < n := Nat.zero_lt_of_lt h
  rw [readExact, if_neg (Nat.ne_of_gt hpos),
    ByteBuf.readWith_scan (scans_readBytesBody _) _ hpos, scan_takeStep _ hpos,
    if_neg (Nat.not_le.mpr h)]

theorem Reader.read_eq (n : Nat) (buf : ByteBuf) :
    ((Reader.read n buf).1, (Reader.read n buf).2.content) =
      (buf.content.take n, buf.content.drop n) := by
  rcases Nat.eq_zero_or_pos n with rfl | hpos
  · obtain ⟨hbytes, hrest⟩ := forBlocks_readBytesBody_zero id Prod.snd [] (buf.blocks.drop buf.idx)
    refine Prod.ext ?_ ?_
    · exact hbytes.elim id id
    · exact (ByteBuf.content_readWith _ _ _ _).trans hrest
  · rw [read, ByteBuf.readWith_scan (scans_readBytesBody id) _ hpos, scan_takeStep _ hpos]
    by_cases hle : n ≤ buf.content.length
    · rw [if_pos hle]
      rfl
    · have hall : buf.content.length ≤ n := Nat.le_of_not_le hle
      rw [if_neg hle, List.take_of_length_le hall, List.drop_of_length_le hall]
      rfl

theorem skipBlocks_count {n skipped : Nat} {blocks : List Block} (h : skipped ≤ n) :
    (skipBlocks n skipped blocks).1 = min n (skipped + (bytesOf blocks).length) := by
  induction blocks generalizing skipped with
  | nil => exact (Nat.min_eq_right h).symm
  | cons block rest ih =>
      have hlen := block.length_asBytes
      rw [skipBlocks, bytesOf_cons, List.length_append]
      dsimp only
      split
      · exact (Nat.min_eq_left (by omega)).symm
      · rw [ih (by omega)]
        congr 1
        omega

/-- The calls that take bytes from the front, and `compact`. -/
inductive Consuming where
  | skip (n : Nat)
  | readExact (n : Nat)
  | reader (n : Nat)
  | compact
  deriving DecidableEq

namespace Consuming

/-- The buffer after the call. -/
def run (c : Consuming) (buf : ByteBuf) : ByteBuf :=
  match c with
  | skip n => (buf.skip n).2
  | readExact n => (u8s.readExact n buf).2
  | reader n => (Reader.read n buf).2
  | compact => buf.compact

/-- How many bytes the call takes away. -/
def taken (c : Consuming) (buf : ByteBuf) : Nat := buf.len - (c.run buf).len

variable (c : Consuming) (buf : ByteBuf)

theorem exists_drop : ∃ n, (c.run buf).content = buf.content.drop n := by
  cases c with
  | skip n => exact ⟨n, buf.content_skip n⟩
  | readExact n =>
      rcases Nat.lt_or_ge buf.content.length n with hlt | hle
      · refine ⟨n, (Prod.mk.inj (u8s.readExact_error hlt)).2.trans ?_⟩
        rw [List.drop_of_length_le (Nat.le_of_lt hlt)]
      · exact ⟨n, (Prod.mk.inj (u8s.readExact_ok hle)).2⟩
  | reader n => exact ⟨n, (Prod.mk.inj (Reader.read_eq n buf)).2⟩
  | compact => exact ⟨0, buf.content_compact⟩

theorem content_run : (c.run buf).content = buf.content.drop (c.taken buf) := by
  obtain ⟨n, hdrop⟩ := c.exists_drop buf
  have hlen := congrArg List.length hdrop
  rw [List.length_drop] at hlen
  rw [taken, ByteBuf.len_eq, ByteBuf.len_eq, hlen]
  rcases Nat.le_total n buf.content.length with hle | hle
  · rw [Nat.sub_sub_self hle, hdrop]
  · rw [Nat.sub_eq_zero_of_le hle, Nat.sub_zero, List.drop_length, hdrop,
      List.drop_of_length_le hle]

end Consuming

/-- However bytes are taken from the front, a prefix goes and the rest stays. -/
theorem consuming_takes_prefix (buf : ByteBuf) :
    (∀ n, (buf.skip n).1 = min n buf.len ∧ (buf.skip n).2.content = buf.content.drop n) ∧
      (∀ n ≤ buf.len, ∃ buf', u8s.readExact n buf = (.ok (buf.content.take n), buf') ∧
        buf'.content = buf.content.drop n) ∧
      (∀ n, ∃ bytes buf', Reader.read n buf = (bytes, buf') ∧ bytes.length = min n buf.len ∧
        bytes = buf.content.take n ∧ buf'.content = buf.content.drop n) ∧
      buf.compact.content = buf.content ∧
      ∀ c c' : Consuming, c.taken buf = c'.taken buf →
        (c.run buf).content = (c'.run buf).content := by
  refine ⟨fun n => ⟨?_, buf.content_skip n⟩, fun n hn => ?_, fun n => ?_, buf.content_compact, ?_⟩
  · rw [buf.len_eq, ← Nat.zero_add buf.content.length]
    exact skipBlocks_count (Nat.zero_le n)
  · rw [buf.len_eq] at hn
    obtain ⟨hbytes, hrest⟩ := Prod.mk.inj (u8s.readExact_ok hn)
    exact ⟨_, Prod.ext hbytes rfl, hrest⟩
  · obtain ⟨hbytes, hrest⟩ := Prod.mk.inj (Reader.read_eq n buf)
    refine ⟨(Reader.read n buf).1, (Reader.read n buf).2, rfl, ?_, hbytes, hrest⟩
    rw [hbytes, List.length_take, buf.len_eq]
  · intro c c' hsame
    rw [c.content_run, c'.content_run, hsame]

end Ruyi.Buf
