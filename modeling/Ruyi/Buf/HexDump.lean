import Ruyi.Buf.Views

namespace Ruyi.Buf

/-- What a `write!` passes to `write_fmt`.  The last one is the end of a row, with the slice
that `from_utf8_unchecked` has made a `str`; a byte that has not been written is `none`. -/
inductive Arguments where
  | address (addr : Nat)
  | hex (b : UInt8)
  | blank
  | text (slice : List (Option UInt8))
  deriving DecidableEq

/-- `char::is_control`, of `b as char`. -/
def isControl (b : UInt8) : Bool := b < 0x20 || 0x7F ≤ b && b ≤ 0x9F

namespace HexDump

def bytesPerRow : Nat := 16

/-- The byte of the text column. -/
def shown (b : UInt8) : UInt8 := if isControl b then 0x2E else b

section

variable {m : Type → Type} [Monad m] (writeFmt : Arguments → m Unit)

/-- The inner loop from the column `i` on, `n` columns before the end of the row: the next
byte, the iterator and `asc` after the row, or `none` where it returns. -/
def dumpRow : (n i : Nat) → Option UInt8 → Bytes → List (Option UInt8) →
    m (Option (Option UInt8 × Bytes × List (Option UInt8)))
  | 0, _, next, bytes, asc => pure (some (next, bytes, asc))
  | n + 1, i, some b, bytes, asc => do
      writeFmt (.hex b)
      dumpRow n (i + 1) bytes.next.1 bytes.next.2 (asc.set i (some (shown b)))
  | n + 1, i, none, _, asc => do
      (List.replicate (n + 1) Arguments.blank).forM writeFmt
      writeFmt (.text (asc.take i))
      pure none

/-- The outer loop, for so many rows at most. -/
def dumpRows : (rows addr : Nat) → Option UInt8 → Bytes → List (Option UInt8) → m Unit
  | 0, _, _, _, _ => pure ()
  | rows + 1, addr, next, bytes, asc => do
      writeFmt (.address addr)
      match ← dumpRow writeFmt bytesPerRow 0 next bytes asc with
      | none => pure ()
      | some (next, bytes, asc) => do
          writeFmt (.text (asc.take bytesPerRow))
          dumpRows rows (addr + bytesPerRow) next bytes asc

/-- `Display::fmt`.  Every row but the last takes bytes, so that there are enough rows. -/
def fmt (buf : ByteBuf) : m Unit :=
  let (next, bytes) := buf.bytes.next
  if next.isNone then pure ()
  else dumpRows writeFmt (buf.len + 1) 0 next bytes (List.replicate bytesPerRow none)

end

/-- The row at the address `addr`. -/
def row (content : List UInt8) (addr : Nat) : List UInt8 :=
  (content.drop addr).take bytesPerRow

/-- What is written of a row. -/
def rowCalls (content : List UInt8) (addr : Nat) : List Arguments :=
  .address addr :: (row content addr).map .hex ++
    List.replicate (bytesPerRow - (row content addr).length) .blank ++
    [.text ((row content addr).map fun b => some (shown b))]

/-- What is written of a buffer: its rows, and one more after a row that is full. -/
def calls (content : List UInt8) : List Arguments :=
  if content = [] then []
  else
    (List.range (content.length / bytesPerRow + 1)).flatMap fun k =>
      rowCalls content (bytesPerRow * k)

section

variable {m : Type → Type} [Monad m] [LawfulMonad m] (writeFmt : Arguments → m Unit)

/-- The next byte and the iterator have what is left. -/
def Ahead (next : Option UInt8) (bytes : Bytes) (left : List UInt8) : Prop :=
  next = left.head? ∧ bytes.rest = left.tail

theorem Ahead.next {b : UInt8} {next : Option UInt8} {bytes : Bytes} {left : List UInt8}
    (h : Ahead next bytes (b :: left)) : Ahead bytes.next.1 bytes.next.2 left := by
  obtain ⟨hhead, htail⟩ := bytes.next_eq
  rw [h.2] at hhead htail
  exact ⟨hhead, htail⟩

theorem take_succ_set {asc : List (Option UInt8)} {i : Nat} (hi : i < asc.length)
    (b : Option UInt8) : (asc.set i b).take (i + 1) = asc.take i ++ [b] := by
  rw [List.take_add_one, List.take_set_of_le (Nat.le_refl i), List.getElem?_set_self hi]
  rfl

theorem dumpRow_last {n i : Nat} {next : Option UInt8} {bytes : Bytes}
    {asc : List (Option UInt8)} {left : List UInt8} (hahead : Ahead next bytes left)
    (hleft : left.length < n) (hasc : asc.length = i + n) :
    dumpRow writeFmt n i next bytes asc =
      forM (left.map .hex ++ List.replicate (n - left.length) .blank ++
        [.text (asc.take i ++ left.map fun b => some (shown b))]) writeFmt >>=
        fun _ => pure none := by
  induction n generalizing i next bytes asc left with
  | zero => cases hleft
  | succ n ih =>
      cases left with
      | nil =>
          obtain rfl : next = none := hahead.1
          simp only [dumpRow, List.forM_eq_forM, List.map_nil, List.nil_append, List.length_nil,
            Nat.sub_zero, List.append_nil, List.forM_append, List.forM_cons, List.forM_nil,
            bind_assoc, pure_bind]
      | cons b left =>
          obtain rfl : next = some b := hahead.1
          have hi : i < asc.length := by omega
          rw [dumpRow, ih hahead.next (Nat.lt_of_succ_lt_succ hleft)
            (by rw [List.length_set]; omega), take_succ_set hi]
          simp only [List.map_cons, List.cons_append, List.forM_cons, List.length_cons,
            Nat.add_sub_add_right, List.append_assoc, bind_assoc, List.nil_append]

theorem dumpRow_full {n i : Nat} {next : Option UInt8} {bytes : Bytes}
    {asc : List (Option UInt8)} {left : List UInt8} (hahead : Ahead next bytes left)
    (hleft : n ≤ left.length) (hasc : asc.length = i + n) :
    ∃ next' bytes' asc', Ahead next' bytes' (left.drop n) ∧ asc'.length = i + n ∧
      asc'.take (i + n) = asc.take i ++ (left.take n).map (fun b => some (shown b)) ∧
      dumpRow writeFmt n i next bytes asc =
        forM ((left.take n).map .hex) writeFmt >>= fun _ => pure (some (next', bytes', asc')) := by
  induction n generalizing i next bytes asc left with
  | zero =>
      refine ⟨next, bytes, asc, hahead, hasc, (List.append_nil _).symm, ?_⟩
      simp only [dumpRow, List.take_zero, List.map_nil, List.forM_nil, pure_bind]
  | succ n ih =>
      cases left with
      | nil => cases hleft
      | cons b left =>
          obtain rfl : next = some b := hahead.1
          have hi : i < asc.length := by omega
          have hset : (asc.set i (some (shown b))).length = i + 1 + n := by
            rw [List.length_set]
            omega
          obtain ⟨next', bytes', asc', hahead', hlength, htake, hrow⟩ :=
            ih hahead.next (Nat.le_of_succ_le_succ hleft) hset
          refine ⟨next', bytes', asc', hahead', by omega, ?_, ?_⟩
          · rw [take_succ_set hi] at htake
            rw [show i + (n + 1) = i + 1 + n by omega, htake, List.append_assoc]
            rfl
          · rw [dumpRow, hrow]
            simp only [List.take_succ_cons, List.map_cons, List.forM_cons, bind_assoc]

theorem dumpRows_eq {rows addr : Nat} {next : Option UInt8} {bytes : Bytes}
    {asc : List (Option UInt8)} {content : List UInt8}
    (hahead : Ahead next bytes (content.drop addr)) (hasc : asc.length = bytesPerRow)
    (hrows : (content.drop addr).length / bytesPerRow < rows) :
    dumpRows writeFmt rows addr next bytes asc =
      forM ((List.range ((content.drop addr).length / bytesPerRow + 1)).flatMap fun k =>
        rowCalls content (addr + bytesPerRow * k)) writeFmt := by
  induction rows generalizing addr next bytes asc with
  | zero => cases hrows
  | succ rows ih =>
      have hzero : asc.length = 0 + bytesPerRow := by rw [hasc, Nat.zero_add]
      by_cases hleft : (content.drop addr).length < bytesPerRow
      · have hrow : row content addr = content.drop addr := List.take_of_length_le (by omega)
        rw [dumpRows, dumpRow_last writeFmt hahead hleft hzero, Nat.div_eq_of_lt hleft,
          List.range_one, List.flatMap_singleton, Nat.mul_zero, Nat.add_zero, rowCalls, hrow]
        simp only [List.take_zero, List.nil_append, List.cons_append, List.forM_cons, bind_assoc,
          pure_bind, bind_pure_unit]
      · have hge : bytesPerRow ≤ (content.drop addr).length := Nat.le_of_not_lt hleft
        obtain ⟨next', bytes', asc', hahead', hlength, htake, hrow⟩ :=
          dumpRow_full writeFmt hahead hge hzero
        have hdrop : (content.drop addr).drop bytesPerRow = content.drop (addr + bytesPerRow) :=
          List.drop_drop
        have hrest : (content.drop addr).length =
            (content.drop (addr + bytesPerRow)).length + bytesPerRow := by
          rw [List.length_drop] at hge
          rw [List.length_drop, List.length_drop]
          omega
        have hdiv : (content.drop addr).length / bytesPerRow =
            (content.drop (addr + bytesPerRow)).length / bytesPerRow + 1 := by
          rw [hrest]
          exact Nat.add_div_right _ (by decide)
        rw [hdrop] at hahead'
        rw [Nat.zero_add] at hlength htake
        have hcalls : rowCalls content addr =
            .address addr :: ((content.drop addr).take bytesPerRow).map .hex ++
              [.text (((content.drop addr).take bytesPerRow).map fun b => some (shown b))] := by
          rw [rowCalls, row, List.length_take_of_le hge, Nat.sub_self, List.replicate_zero,
            List.append_nil]
        have hnext : ∀ k, rowCalls content (addr + bytesPerRow * (k + 1)) =
            rowCalls content (addr + bytesPerRow + bytesPerRow * k) := by
          intro k
          rw [Nat.mul_succ, Nat.add_comm (bytesPerRow * k), Nat.add_assoc]
        have hih := ih hahead' hlength (by omega)
        rw [dumpRows, hrow, hdiv, List.range_succ_eq_map, List.flatMap_cons, List.flatMap_map,
          List.forM_append, Nat.mul_zero, Nat.add_zero, hcalls]
        simp only [hnext, htake, hih, List.take_zero, List.nil_append, List.cons_append,
          List.forM_cons, List.forM_append, List.forM_nil, bind_assoc, pure_bind]

theorem fmt_eq (buf : ByteBuf) : fmt writeFmt buf = forM (calls buf.content) writeFmt := by
  obtain ⟨hhead, htail⟩ := buf.bytes.next_eq
  rw [Bytes.rest_bytes] at hhead htail
  rw [fmt, calls]
  simp only [hhead]
  cases hcontent : buf.content with
  | nil => rfl
  | cons b left =>
      have hlen : buf.len = (buf.content.drop 0).length := buf.len_eq
      have hahead : Ahead buf.content.head? buf.bytes.next.2 (buf.content.drop 0) := ⟨rfl, htail⟩
      have hasc : (List.replicate bytesPerRow (none : Option UInt8)).length = bytesPerRow :=
        List.length_replicate
      have hlt : (buf.content.drop 0).length / bytesPerRow < buf.len + 1 :=
        Nat.lt_succ_of_le (hlen ▸ Nat.div_le_self _ bytesPerRow)
      have hrows := dumpRows_eq writeFmt hahead hasc hlt
      simp only [Nat.zero_add, List.drop_zero, hcontent] at hrows
      rw [if_neg (List.cons_ne_nil _ _)]
      exact hrows

end

end HexDump

/-- `fmt::Error`. -/
inductive FmtError where
  | error
  deriving DecidableEq

/-- `fmt::Formatter`: whether a call of `write_fmt` succeeds, after the calls before it. -/
abbrev Formatter := List Arguments → Arguments → Bool

namespace Formatter

def writeFmt (f : Formatter) (args : Arguments) :
    ExceptT FmtError (StateM (List Arguments)) Unit := do
  let calls ← get
  set (calls ++ [args])
  if f calls args then pure () else throw .error

/-- What the dump of `buf` has passed to `f` when it returns. -/
def passed (f : Formatter) (buf : ByteBuf) : List Arguments :=
  ((HexDump.fmt f.writeFmt buf).run.run []).2

theorem forM_cons_run (f : Formatter) (a : Arguments) (args calls : List Arguments) :
    ((forM (a :: args) f.writeFmt).run.run calls).2 =
      if f calls a then ((forM args f.writeFmt).run.run (calls ++ [a])).2 else calls ++ [a] := by
  have hwrite : (f.writeFmt a).run.run calls =
      (if f calls a then Except.ok () else .error .error, calls ++ [a]) := by
    show ((if f calls a then pure () else throw .error : ExceptT FmtError
      (StateM (List Arguments)) Unit).run.run (calls ++ [a])) = _
    cases f calls a <;> rfl
  rw [List.forM_cons, ExceptT.run_bind, StateT.run_bind, hwrite]
  cases f calls a <;> rfl

theorem forM_run (f : Formatter) (args calls : List Arguments) :
    ∃ passed, passed <+: args ∧ ((forM args f.writeFmt).run.run calls).2 = calls ++ passed ∧
      ((∀ calls args, f calls args = true) → passed = args) := by
  induction args generalizing calls with
  | nil => exact ⟨[], List.prefix_refl _, (List.append_nil _).symm, fun _ => rfl⟩
  | cons a args ih =>
      rw [forM_cons_run]
      split
      · obtain ⟨passed, hprefix, hcalls, hall⟩ := ih (calls ++ [a])
        refine ⟨a :: passed, List.cons_prefix_cons.mpr ⟨rfl, hprefix⟩, ?_, ?_⟩
        · rw [hcalls, List.append_assoc]
          rfl
        · intro haccepts
          rw [hall haccepts]
      · rename_i hfails
        refine ⟨[a], List.cons_prefix_cons.mpr ⟨rfl, List.nil_prefix⟩, rfl, ?_⟩
        intro haccepts
        exact absurd (haccepts calls a) hfails

theorem passed_prefix (f : Formatter) (buf : ByteBuf) :
    f.passed buf <+: HexDump.calls buf.content := by
  obtain ⟨passed, hprefix, hcalls, -⟩ := f.forM_run (HexDump.calls buf.content) []
  rw [Formatter.passed, HexDump.fmt_eq, hcalls]
  exact hprefix

theorem passed_eq {f : Formatter} (haccepts : ∀ calls args, f calls args = true) (buf : ByteBuf) :
    f.passed buf = HexDump.calls buf.content := by
  obtain ⟨passed, -, hcalls, hall⟩ := f.forM_run (HexDump.calls buf.content) []
  rw [Formatter.passed, HexDump.fmt_eq, hcalls, hall haccepts]
  rfl

end Formatter

end Ruyi.Buf
