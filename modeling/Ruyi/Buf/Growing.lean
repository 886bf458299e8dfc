import Ruyi.Buf.BufferContent

namespace Ruyi.Buf

variable {σ ρ : Type}

namespace ByteBuf

variable {buf buf' : ByteBuf} {allocs allocs' : List Nat} {bytes : List UInt8}

theorem room_appendBlock (buf : ByteBuf) (allocs : List Nat) (minCapacity : Nat) :
    room (buf.appendBlock allocs minCapacity).1.blocks =
      if minCapacity ≤ buf.growth then buf.growth else minCapacity := by
  rw [blocks_appendBlock, room_concat, Block.appendable_withCapacity]

theorem length_appendBlock (buf : ByteBuf) (allocs : List Nat) (minCapacity : Nat) :
    (buf.appendBlock allocs minCapacity).1.blocks.length = buf.blocks.length + 1 := by
  rw [blocks_appendBlock, List.length_append, List.length_singleton]

theorem appendLoop_ne_nil {body : σ → Block → Block × (σ ⊕ ρ)} {fuel : Nat} {s : σ} {r : ρ}
    (h : appendLoop body fuel s buf allocs = some (r, buf', allocs')) : buf'.blocks ≠ [] := by
  induction fuel generalizing s buf allocs with
  | zero => cases h
  | succ fuel ih =>
      rw [appendLoop] at h
      split at h
      · exact ih h
      · split at h
        · cases h
          exact List.append_ne_nil_of_right_ne_nil _ (List.cons_ne_nil _ _)
        · exact ih h

theorem appendLoop_length_iff {result : Nat} :
    (∃ fuel n buf' allocs', appendLoop (appendBody result) fuel bytes buf allocs =
        some (n, buf', allocs') ∧ buf'.blocks.length = buf.blocks.length) ↔
      buf.blocks ≠ [] ∧ bytes.length ≤ room buf.blocks := by
  constructor
  · rintro ⟨fuel, n, buf', allocs', hrun, hlen⟩
    have hne : buf.blocks ≠ [] := by
      intro hnil
      rw [hnil, List.length_nil] at hlen
      exact appendLoop_ne_nil hrun (List.eq_nil_of_length_eq_zero hlen)
    obtain ⟨-, -, -, new, hblocks, hnew⟩ := appendLoop_some hrun
    rw [hblocks, List.length_append, length_fillLast, Nat.add_eq_left,
      List.length_eq_zero_iff] at hlen
    rw [hlen, bytesOf_nil] at hnew
    exact ⟨hne, List.drop_eq_nil_iff.mp hnew.symm⟩
  · rintro ⟨hne, hfits⟩
    obtain ⟨init, last, hconcat⟩ := (List.eq_nil_or_concat buf.blocks).resolve_left hne
    rw [List.concat_eq_append] at hconcat
    rw [hconcat, room_concat] at hfits
    refine ⟨1, result, buf.setLast (last.append bytes), allocs, ?_, ?_⟩
    · rw [appendLoop, hconcat, List.getLast?_concat]
      dsimp only
      rw [(writesLeft_appendBody result).fits bytes last hfits]
      rfl
    · rw [blocks_setLast _ hconcat, hconcat, List.length_append, List.length_append,
        List.length_singleton, List.length_singleton]

/-- A call that returns, and leaves as many blocks as there were. -/
def InPlace (run : Nat → ByteBuf → List Nat → Option (Nat × ByteBuf × List Nat)) (buf : ByteBuf)
    (allocs : List Nat) : Prop :=
  ∃ fuel n buf' allocs', run fuel buf allocs = some (n, buf', allocs') ∧
    buf'.blocks.length = buf.blocks.length

/-- There is room for as many bytes as were reserved, and nothing is left to reserve. -/
structure Reserves (buf : ByteBuf) (allocs : List Nat) (additional : Nat) : Prop where
  append : ∀ v : List UInt8, v.length ≤ additional →
    InPlace (u8s.append v) (buf.reserve allocs additional).1 (buf.reserve allocs additional).2
  write : ∀ v : List UInt8, v.length ≤ additional →
    InPlace (Writer.write v) (buf.reserve allocs additional).1 (buf.reserve allocs additional).2
  again : (buf.reserve allocs additional).1.reserve (buf.reserve allocs additional).2 additional =
    buf.reserve allocs additional

theorem reserve_eq_self_iff {additional : Nat} :
    buf.reserve allocs additional = (buf, allocs) ↔ additional ≤ room buf.blocks := by
  rw [reserve]
  split
  · rename_i hlt
    refine iff_of_false (fun heq => ?_) (Nat.not_le.mpr hlt)
    have hlen := length_appendBlock buf allocs (additional - room buf.blocks)
    rw [heq] at hlen
    exact absurd hlen (Nat.ne_of_lt (Nat.lt_succ_self _))
  · rename_i hge
    exact iff_of_true rfl (Nat.le_of_not_lt hge)

theorem reserves_iff_room {additional : Nat} :
    buf.Reserves allocs additional ↔ (buf.reserve allocs additional).1.blocks ≠ [] ∧
      additional ≤ room (buf.reserve allocs additional).1.blocks := by
  constructor
  · intro h
    have hfull := appendLoop_length_iff.mp (h.append (List.replicate additional 0)
      (Nat.le_of_eq List.length_replicate))
    rw [List.length_replicate] at hfull
    exact hfull
  · rintro ⟨hne, hroom⟩
    refine ⟨fun v hv => ?_, fun v hv => ?_, reserve_eq_self_iff.mpr hroom⟩
    · exact appendLoop_length_iff.mpr ⟨hne, Nat.le_trans hv hroom⟩
    · exact appendLoop_length_iff.mpr ⟨hne, Nat.le_trans hv hroom⟩

/-- What the last block has room for is taken off what is reserved, though nothing that goes into
a new block is put there: it is enough only where that block is as large all the same. -/
theorem reserves_iff (buf : ByteBuf) (allocs : List Nat) (additional : Nat) :
    buf.Reserves allocs additional ↔
      (additional ≤ room buf.blocks ∨ additional ≤ buf.growth ∨ room buf.blocks = 0) ∧
        (buf.blocks ≠ [] ∨ 0 < additional) := by
  rw [reserves_iff_room, reserve]
  split
  · rename_i hlt
    rw [room_appendBlock, blocks_appendBlock]
    have hne : ∀ last, buf.blocks ++ [last] ≠ [] := fun last =>
      List.append_ne_nil_of_right_ne_nil _ (List.cons_ne_nil _ _)
    rw [and_iff_right (hne _), and_iff_left (.inr (Nat.zero_lt_of_lt hlt))]
    split <;> omega
  · rename_i hge
    rcases List.eq_nil_or_concat buf.blocks with hnil | ⟨init, last, hconcat⟩
    · have hroom : room buf.blocks = 0 := by rw [hnil]; rfl
      have hzero : additional = 0 := by omega
      rw [hnil, hzero]
      exact iff_of_false (fun h => h.1 rfl) fun h => h.2.elim (fun h => h rfl) (Nat.lt_irrefl 0)
    · have hne : buf.blocks ≠ [] := by
        rw [hconcat, List.concat_eq_append]
        exact List.append_ne_nil_of_right_ne_nil _ (List.cons_ne_nil _ _)
      exact iff_of_true ⟨hne, Nat.le_of_not_lt hge⟩ ⟨.inl (Nat.le_of_not_lt hge), .inl hne⟩

/-- Fifteen bytes are free in a block of sixteen: for twenty more a block of sixteen is added, and
they are spread over it and a third one. -/
theorem reserved_too_little :
    ∃ buf allocs, u8s.append [1] 1 (withCapacity [] 16).1 (withCapacity [] 16).2 =
        some (1, buf, allocs) ∧
      (buf.reserve allocs 20).1.blocks.map Block.appendable = [15, 16] ∧
        ¬ buf.Reserves allocs 20 := by
  refine ⟨_, _, rfl, by decide, fun h => ?_⟩
  exact absurd (congrArg (fun r => r.1.blocks.length) h.again) (by decide)

theorem appendLoop_endless {result : Nat} (hgrowth : buf.growth = 0)
    (hroom : room buf.blocks < bytes.length) (fuel : Nat) :
    appendLoop (appendBody result) fuel bytes buf allocs = none := by
  induction fuel generalizing bytes buf allocs with
  | zero => rfl
  | succ fuel ih =>
      have hempty : ∀ buf₁ : ByteBuf, buf₁.growth = 0 →
          room (buf₁.appendBlock allocs 0).1.blocks = 0 := by
        intro buf₁ hsame
        rw [room_appendBlock, hsame, if_pos (Nat.le_refl 0)]
      rw [appendLoop]
      rcases List.eq_nil_or_concat buf.blocks with hnil | ⟨init, last, hconcat⟩
      · rw [hnil] at hroom ⊢
        refine ih hgrowth ?_
        rw [hempty buf hgrowth]
        exact Nat.zero_lt_of_lt hroom
      · rw [List.concat_eq_append] at hconcat
        rw [hconcat, room_concat] at hroom
        rw [hconcat, List.getLast?_concat]
        dsimp only
        obtain ⟨_, hbody, rfl, -⟩ := (writesLeft_appendBody result).spills bytes last hroom
        rw [hbody]
        refine ih hgrowth ?_
        rw [hempty (buf.setLast _) hgrowth, id, List.length_drop]
        exact Nat.sub_pos_of_lt hroom

theorem growth_prependLoop {body : σ → Block → Block × (σ ⊕ ρ)} {fuel : Nat} {s : σ} {r : ρ}
    (h : prependLoop body fuel s buf allocs = some (r, buf', allocs')) :
    buf'.growth = buf.growth := by
  induction fuel generalizing s buf allocs with
  | zero => cases h
  | succ fuel ih =>
      rw [prependLoop] at h
      split at h
      · exact (ih h).trans rfl
      · split at h
        · cases h
          rfl
        · exact (ih h).trans rfl

theorem growth_appendVec (buf : ByteBuf) (allocs : List Nat) (bytes spare : List UInt8) :
    (buf.appendVec allocs bytes spare).1.growth = buf.growth := by
  rw [appendVec]
  split
  · split <;> rfl
  · rfl

theorem growth_prependVec (buf : ByteBuf) (allocs : List Nat) (bytes spare : List UInt8) :
    (buf.prependVec allocs bytes spare).1.growth = buf.growth := by
  rw [prependVec]
  split
  · split <;> rfl
  · rfl

theorem growth_withGrowth (growth : Nat) : 0 < (withGrowth growth).growth := by
  show 0 < if growth < 8 then 8 * 1024 else growth
  split <;> omega

theorem growth_splitOff {pos : Nat} {head tail : ByteBuf}
    (h : buf.splitOff pos = .ok (head, tail)) :
    head.growth = buf.growth ∧ (tail.growth = buf.growth ∨ 0 < tail.growth) := by
  rw [splitOff] at h
  split at h
  · cases h
  · dsimp only at h
    split at h
    · cases h
      exact ⟨rfl, .inl rfl⟩
    · split at h
      · cases h
        exact ⟨rfl, .inl rfl⟩
      · cases h
        exact ⟨rfl, .inr (growth_withGrowth buf.growth)⟩

/-- Every call that appends or prepends returns. -/
structure Returns (buf : ByteBuf) (target : Endian) : Prop where
  append : ∀ (a : Appending) (allocs : List Nat), ∃ fuel r, a.run target fuel buf allocs = some r
  prepend : ∀ (p : Prepending) (allocs : List Nat), ∃ fuel r,
    p.run target fuel buf allocs = some r

theorem returns_iff (buf : ByteBuf) (target : Endian) : buf.Returns target ↔ 0 < buf.growth := by
  constructor
  · refine fun h => Nat.pos_of_ne_zero fun hgrowth => ?_
    -- one byte more than there is room for
    let bytes := List.replicate (room buf.blocks + 1) (0 : UInt8)
    obtain ⟨fuel, r, hrun⟩ := h.append (.u8s bytes) []
    have hroom : room buf.blocks < bytes.length := by
      rw [List.length_replicate]
      exact Nat.lt_succ_self _
    rw [Appending.run, u8s.append, appendLoop_endless hgrowth hroom] at hrun
    cases hrun
  · intro hgrowth
    refine ⟨fun a allocs => ⟨a.bytes.length + 2, ?_⟩, fun p allocs => ⟨p.bytes.length + 2, ?_⟩⟩
    · obtain ⟨buf', allocs', hrun, -⟩ := a.run_ok target buf allocs hgrowth (Nat.le_refl _)
      exact ⟨_, hrun⟩
    · exact p.exists_run target buf allocs hgrowth (Nat.le_refl _)

end ByteBuf

theorem Appending.growth_run {a : Appending} {target : Endian} {fuel n : Nat}
    {buf buf' : ByteBuf} {allocs allocs' : List Nat}
    (h : a.run target fuel buf allocs = some (n, buf', allocs')) : buf'.growth = buf.growth := by
  rcases a.run_cases target with ⟨σ, body, left, result, s, hbody, -, -, -, hrun⟩ |
    ⟨-, spare, hrun⟩
  · rw [hrun, ByteBuf.appendLoop_eq hbody] at h
    obtain ⟨⟨n', r⟩, hloop, heq⟩ := Option.map_eq_some_iff.mp h
    cases heq
    exact (ByteBuf.appendLoop_some hloop).2.2.1
  · rw [hrun] at h
    have hgrowth := ByteBuf.growth_appendVec buf allocs a.bytes spare
    rw [(Prod.mk.inj (Option.some.inj h)).2] at hgrowth
    exact hgrowth

theorem Prepending.growth_run {p : Prepending} {target : Endian} {fuel n : Nat}
    {buf buf' : ByteBuf} {allocs allocs' : List Nat}
    (h : p.run target fuel buf allocs = some (n, buf', allocs')) : buf'.growth = buf.growth := by
  rcases p.run_cases target with ⟨σ, body, left, result, s, -, -, -, -, hrun⟩ | ⟨-, spare, hrun⟩
  · rw [hrun] at h
    exact ByteBuf.growth_prependLoop h
  · rw [hrun] at h
    have hgrowth := ByteBuf.growth_prependVec buf allocs p.bytes spare
    rw [(Prod.mk.inj (Option.some.inj h)).2] at hgrowth
    exact hgrowth

theorem Reading.growth_run (r : Reading) (target : Endian) (buf : ByteBuf) :
    (r.run target buf).2.growth = buf.growth := by
  have hresult : ∀ {α : Type} {f : α → BufEvent} {r : Except Error α × ByteBuf},
      (result f r).2 = r.2 := by
    rintro α f ⟨e | a, buf⟩ <;> rfl
  cases r with
  | value codec =>
      rw [run, hresult, Codec.read]
      split <;> rfl
  | u8s =>
      rw [run, hresult, u8s.read, u8s.readExact]
      split <;> rfl
  | u8sExact n =>
      rw [run, hresult, u8s.readExact]
      split <;> rfl
  | reader n => rfl
  | next => rfl

theorem Setting.growth_run {s : Setting} {target : Endian} {index : Nat} {buf : ByteBuf}
    {r : BufEvent × ByteBuf} (h : s.run target index buf = some r) :
    r.2.growth = buf.growth := by
  have hset : ∀ {σ : Type} {body : σ → Block → Nat → Block × (σ ⊕ Except Error Nat)}
      {stop : σ → Except Error Nat} {s : σ},
      (buf.setWith index body stop s).map (result .count) = some r →
        r.2.growth = buf.growth := by
    intro σ body stop s hrun
    obtain ⟨r', hr', rfl⟩ := Option.map_eq_some_iff.mp hrun
    rw [ByteBuf.setWith] at hr'
    split at hr'
    · cases hr'
    · cases hr'
      cases (forSetBlocks body stop _ s _).1 <;> rfl
  cases s with
  | value codec v =>
      rw [run, Codec.set] at h
      split at h <;> exact hset h
  | u8s v => exact hset h
  | u8sFill val count => exact hset h

namespace BufOp

/-- The growth that a call sets. -/
def newGrowth : BufOp → Option Nat
  | setGrowth growth => some growth
  | _ => none

/-- The calls that do not take the growth away. -/
def Grows (op : BufOp) : Prop := op.newGrowth ≠ some 0

instance (op : BufOp) : Decidable op.Grows :=
  inferInstanceAs (Decidable (op.newGrowth ≠ some 0))

variable {op : BufOp} {target : Endian} {buf buf' : ByteBuf} {allocs allocs' : List Nat}
  {e : BufEvent}

theorem growth_run (hgrows : op.Grows) (hgrowth : 0 < buf.growth)
    (h : op.run target buf allocs = some (e, buf', allocs')) : 0 < buf'.growth := by
  cases op with
  | setGrowth growth =>
      cases h
      exact Nat.pos_of_ne_zero fun hzero => hgrows (congrArg some hzero)
  | append a fuel =>
      obtain ⟨⟨n, r⟩, hrun, heq⟩ := Option.map_eq_some_iff.mp h
      cases heq
      rw [Appending.growth_run hrun]
      exact hgrowth
  | prepend p fuel =>
      obtain ⟨⟨n, r⟩, hrun, heq⟩ := Option.map_eq_some_iff.mp h
      cases heq
      rw [Prepending.growth_run hrun]
      exact hgrowth
  | read r =>
      cases h
      rw [r.growth_run]
      exact hgrowth
  | skip n =>
      cases h
      exact hgrowth
  | set index s =>
      obtain ⟨r, hrun, heq⟩ := Option.map_eq_some_iff.mp h
      cases heq
      rw [Setting.growth_run hrun]
      exact hgrowth
  | reserve additional =>
      rw [run, ByteBuf.reserve] at h
      split at h
      · cases h
        exact hgrowth
      · cases h
        exact hgrowth
  | tryReserveInHead len =>
      cases h
      rw [ByteBuf.tryReserveInHead]
      split
      · exact hgrowth
      · split <;> exact hgrowth
  | compact =>
      cases h
      rw [ByteBuf.compact]
      split <;> exact hgrowth

end BufOp

/-- The calls that leave every buffer a growth. -/
def BufAction.Grows : BufAction → Prop
  | call _ op => op.Grows
  | _ => True

instance : ∀ a : BufAction, Decidable a.Grows
  | .call _ op => inferInstanceAs (Decidable op.Grows)
  | .make _ => isTrue trivial
  | .drop _ => isTrue trivial
  | .extend _ _ => isTrue trivial
  | .splitOff _ _ => isTrue trivial
  | .drainTo _ _ => isTrue trivial

theorem Making.growth_run (m : Making) (allocs : List Nat) : 0 < (m.run allocs).1.growth := by
  cases m with
  | new => exact ByteBuf.growth_withGrowth 0
  | withCapacity capacity =>
      show 0 < if capacity = 0 then 8 * 1024 else capacity
      split <;> omega
  | withGrowth growth => exact ByteBuf.growth_withGrowth growth
  | ofVec bytes spare => exact Nat.zero_lt_succ _

namespace Buffers

variable {target : Endian} {s s' : Buffers}

/-- Every buffer has a growth. -/
def Growing (s : Buffers) : Prop := ∀ buf ∈ s.bufs, 0 < buf.growth

theorem growing_step {a : BufAction} {e : BufEvent} (hgrowing : s.Growing) (hgrows : a.Grows)
    (h : s.step target a = some (.ok (e, s'))) : s'.Growing := by
  have hset : ∀ {bufs : List ByteBuf} {buf : ByteBuf} (i : Nat), (∀ old ∈ bufs, 0 < old.growth) →
      0 < buf.growth → ∀ new ∈ bufs.set i buf, 0 < new.growth := by
    intro bufs buf i hold hbuf new hmem
    rcases List.mem_or_eq_of_mem_set hmem with hmem | rfl
    · exact hold new hmem
    · exact hbuf
  have hsplit : ∀ {buf head tail : ByteBuf} {pos i : Nat}, s.bufs[i]? = some buf →
      buf.splitOff pos = .ok (head, tail) → 0 < head.growth ∧ 0 < tail.growth := by
    intro buf head tail pos i hbuf hcut
    have hold := hgrowing buf (List.mem_of_getElem? hbuf)
    obtain ⟨hhead, htail⟩ := ByteBuf.growth_splitOff hcut
    exact ⟨hhead ▸ hold, htail.elim (fun heq => heq ▸ hold) id⟩
  cases a with
  | make m =>
      cases h
      exact List.forall_mem_append.mpr
        ⟨hgrowing, List.forall_mem_singleton.mpr (m.growth_run s.allocs)⟩
  | drop i =>
      rw [step] at h
      split at h
      · cases h
        exact fun buf hmem => hgrowing buf (List.mem_of_mem_eraseIdx hmem)
      · cases h
  | call i op =>
      obtain ⟨buf, hbuf, h⟩ := Option.bind_eq_some_iff.mp h
      obtain ⟨⟨e', buf', allocs'⟩, hrun, h⟩ := Option.bind_eq_some_iff.mp h
      cases h
      have hold := hgrowing buf (List.mem_of_getElem? hbuf)
      exact hset i hgrowing (BufOp.growth_run hgrows hold hrun)
  | extend i j =>
      obtain ⟨buf, hbuf, h⟩ := Option.bind_eq_some_iff.mp h
      obtain ⟨other, hother, h⟩ := Option.bind_eq_some_iff.mp h
      dsimp only at h
      split at h
      · cases h
      · cases h
        have hold := hgrowing buf (List.mem_of_getElem? hbuf)
        refine hset _ ?_ hold
        exact fun buf hmem => hgrowing buf (List.mem_of_mem_eraseIdx hmem)
  | splitOff i pos =>
      obtain ⟨buf, hbuf, h⟩ := Option.bind_eq_some_iff.mp h
      split at h
      · cases h
        exact hgrowing
      · rename_i buf' other hcut
        cases h
        obtain ⟨hhead, htail⟩ := hsplit hbuf hcut
        exact List.forall_mem_append.mpr
          ⟨hset i hgrowing hhead, List.forall_mem_singleton.mpr htail⟩
  | drainTo i pos =>
      obtain ⟨buf, hbuf, h⟩ := Option.bind_eq_some_iff.mp h
      split at h
      · cases h
        exact hgrowing
      · rename_i drained buf' hcut
        cases h
        obtain ⟨hhead, htail⟩ := hsplit hbuf hcut
        exact List.forall_mem_append.mpr
          ⟨hset i hgrowing htail, List.forall_mem_singleton.mpr hhead⟩

end Buffers

/-- As long as no buffer has its growth set to 0, whatever is appended to one or prepended to it
is so in finitely many turns. -/
theorem buffers_return {target : Endian} {log : List BufEvent} {s : Buffers}
    (h : (buffersMachine target).Run (fun _ a => a.Grows) .init log s) :
    ∀ buf ∈ s.bufs, buf.Returns target := by
  have hgrowing : s.Growing := by
    refine h.invariant (I := fun _ s => s.Growing) (fun _ hmem => absurd hmem List.not_mem_nil) ?_
    exact fun hgrowing hgrows hstep => Buffers.growing_step hgrowing hgrows hstep
  exact fun buf hmem => (buf.returns_iff target).mpr (hgrowing buf hmem)

theorem buffers_return_of_three :
    ∃ (log : List BufEvent) (s : Buffers), s.bufs.map ByteBuf.growth = [3] ∧
      (buffersMachine .little).Run (fun _ a => a.Grows) .init log s ∧
        ∀ buf ∈ s.bufs, buf.Returns .little := by
  have hend : ((buffersMachine .little).exec (fun _ a => a.Grows)
      [.make .new, .call 0 (.setGrowth 3)] .init).map (fun r => r.2.bufs.map ByteBuf.growth) =
        some [3] := by
    decide
  obtain ⟨⟨log, s⟩, hexec, hgrowth⟩ := Option.map_eq_some_iff.mp hend
  have hrun := Base.Machine.Run.of_exec _ hexec
  exact ⟨log, s, hgrowth, hrun, buffers_return hrun⟩

/-- Once the growth is set to 0, a byte appended to an empty buffer never gets a place. -/
theorem growth_taken_away :
    ∃ (log : List BufEvent) (s : Buffers), s.bufs.map ByteBuf.growth = [0] ∧
      (buffersMachine .little).Run (fun _ _ => True) .init log s ∧
        ¬ ∀ buf ∈ s.bufs, buf.Returns .little := by
  have hend : ((buffersMachine .little).exec (fun _ _ => True)
      [.make .new, .call 0 (.setGrowth 0)] .init).map (fun r => r.2.bufs.map ByteBuf.growth) =
        some [0] := by
    decide
  obtain ⟨⟨log, s⟩, hexec, hgrowth⟩ := Option.map_eq_some_iff.mp hend
  obtain ⟨buf, hbufs, hzero⟩ := List.map_eq_singleton_iff.mp hgrowth
  refine ⟨log, s, hgrowth, .of_exec _ hexec, fun h => ?_⟩
  have hpos := (buf.returns_iff .little).mp (h buf (hbufs ▸ List.mem_singleton_self buf))
  exact absurd hzero (Nat.ne_of_gt hpos)

end Ruyi.Buf
