import Ruyi.Buf.BufferRegions

namespace Ruyi.Buf

namespace ByteBuf

variable {buf head tail : ByteBuf}

theorem clean_extend (other : ByteBuf) (h : buf.Clean) : (buf.extend other).Clean := by
  rw [Clean, passed, extend]
  dsimp only
  rw [List.take_append_of_le_length buf.idx_le]
  exact h

theorem clean_split {pos : Nat} (hclean : buf.Clean) (h : buf.splitOff pos = .ok (head, tail)) :
    head.Clean ∧ tail.Clean := by
  rw [splitOff] at h
  split at h
  · cases h
  · rename_i p hp
    have hle := (locateIdx_ok hp).1
    have hnot : ¬ p.idx < buf.idx := Nat.not_lt.mpr hle
    have hkept : ∀ block ∈ (buf.blocks.take p.idx ++
        [(p.block.splitOff p.off p.off_le_len).1]).take buf.idx, block.isEmpty = true := by
      have hlen : buf.idx ≤ (buf.blocks.take p.idx).length := by
        rw [List.length_take]
        exact Nat.le_min.mpr ⟨hle, Nat.le_of_lt (Nat.lt_of_le_of_lt hle p.idx_lt)⟩
      rw [List.take_append_of_le_length hlen, List.take_take, Nat.min_eq_left hle]
      exact hclean
    simp only [hnot, if_false] at h
    split at h
    · cases h
      exact ⟨hkept, clean_of_idx rfl⟩
    · split at h
      · cases h
        exact ⟨hkept, clean_of_idx rfl⟩
      · cases h
        exact ⟨hkept, clean_of_idx rfl⟩

end ByteBuf

namespace BufOp

variable {op : BufOp} {target : Endian} {buf buf' : ByteBuf} {allocs allocs' : List Nat}
  {e : BufEvent}

theorem clean_run (hclean : buf.Clean) (hin : op.InSight buf)
    (h : op.run target buf allocs = some (e, buf', allocs')) : buf'.Clean := by
  cases op with
  | setGrowth growth =>
      cases h
      exact hclean
  | append a fuel =>
      obtain ⟨⟨n, r⟩, hrun, heq⟩ := Option.map_eq_some_iff.mp h
      cases heq
      exact Appending.clean_run hclean hin hrun
  | prepend p fuel =>
      obtain ⟨⟨n, r⟩, hrun, heq⟩ := Option.map_eq_some_iff.mp h
      cases heq
      exact (Prepending.clean_run_iff hclean hrun).mpr hin
  | read r =>
      cases h
      exact (keeps_reading r target buf).clean hclean
  | skip n =>
      cases h
      exact (ByteBuf.keeps_skip buf n).clean hclean
  | set index s =>
      obtain ⟨r, hrun, heq⟩ := Option.map_eq_some_iff.mp h
      cases heq
      exact (keeps_setting hrun).clean hclean
  | reserve additional =>
      have hreserve : (buf.reserve allocs additional).1.Clean :=
        ByteBuf.clean_reserve additional hclean
      rw [(Prod.mk.inj (Option.some.inj h)).2] at hreserve
      exact hreserve
  | tryReserveInHead len =>
      cases h
      exact (ByteBuf.keeps_tryReserveInHead buf len).clean hclean
  | compact =>
      cases h
      rcases buf.compact_cases with heq | ⟨hidx, -⟩
      · rw [heq]
        exact hclean
      · exact ByteBuf.clean_of_idx hidx

end BufOp

namespace Buffers

variable {target : Endian} {s s' : Buffers} {log : List BufEvent}

/-- No buffer has bytes left to read in the blocks that readers have passed. -/
def Clean (s : Buffers) : Prop := ∀ buf ∈ s.bufs, buf.Clean

theorem Clean.set {bufs : List ByteBuf} {buf : ByteBuf} (h : ∀ old ∈ bufs, old.Clean)
    (hbuf : buf.Clean) (i : Nat) : ∀ new ∈ bufs.set i buf, new.Clean := by
  intro new hmem
  rcases List.mem_or_eq_of_mem_set hmem with hmem | rfl
  · exact h new hmem
  · exact hbuf

theorem Clean.concat {bufs : List ByteBuf} {buf : ByteBuf} (h : ∀ old ∈ bufs, old.Clean)
    (hbuf : buf.Clean) : ∀ new ∈ bufs ++ [buf], new.Clean := by
  intro new hmem
  rcases List.mem_append.mp hmem with hmem | hmem
  · exact h new hmem
  · rw [List.mem_singleton.mp hmem]
    exact hbuf

theorem clean_step {a : BufAction} {e : BufEvent} (hclean : s.Clean) (hin : a.InSight s)
    (h : s.step target a = some (.ok (e, s'))) : s'.Clean := by
  cases a with
  | make m =>
      cases h
      refine Clean.concat hclean (ByteBuf.clean_of_idx ?_)
      cases m <;> rfl
  | drop i =>
      rw [step] at h
      split at h
      · cases h
        exact fun buf hmem => hclean buf (List.mem_of_mem_eraseIdx hmem)
      · cases h
  | call i op =>
      obtain ⟨buf, hbuf, h⟩ := Option.bind_eq_some_iff.mp h
      obtain ⟨⟨e', buf', allocs'⟩, hrun, h⟩ := Option.bind_eq_some_iff.mp h
      cases h
      have hold := hclean buf (List.mem_of_getElem? hbuf)
      exact Clean.set hclean (BufOp.clean_run hold (hin buf hbuf) hrun) i
  | extend i j =>
      obtain ⟨buf, hbuf, h⟩ := Option.bind_eq_some_iff.mp h
      obtain ⟨other, hother, h⟩ := Option.bind_eq_some_iff.mp h
      dsimp only at h
      split at h
      · cases h
      · cases h
        have hold := hclean buf (List.mem_of_getElem? hbuf)
        refine Clean.set ?_ (ByteBuf.clean_extend other hold) _
        exact fun buf hmem => hclean buf (List.mem_of_mem_eraseIdx hmem)
  | splitOff i pos =>
      obtain ⟨buf, hbuf, h⟩ := Option.bind_eq_some_iff.mp h
      have hold := hclean buf (List.mem_of_getElem? hbuf)
      split at h
      · cases h
        exact hclean
      · rename_i buf' other hsplit
        cases h
        obtain ⟨hhead, htail⟩ := ByteBuf.clean_split hold hsplit
        exact Clean.concat (Clean.set hclean hhead i) htail
  | drainTo i pos =>
      obtain ⟨buf, hbuf, h⟩ := Option.bind_eq_some_iff.mp h
      have hold := hclean buf (List.mem_of_getElem? hbuf)
      split at h
      · cases h
        exact hclean
      · rename_i drained buf' hsplit
        cases h
        obtain ⟨hhead, htail⟩ := ByteBuf.clean_split hold hsplit
        exact Clean.concat (Clean.set hclean htail i) hhead

theorem clean_of_run {ok : Buffers → BufAction → Prop} (hok : ∀ s a, ok s a → a.InSight s)
    (h : (buffersMachine target).Run ok .init log s) : s.Clean := by
  refine h.invariant (I := fun _ s => s.Clean) (fun _ hmem => absurd hmem List.not_mem_nil) ?_
  exact fun hclean hallowed hstep => clean_step hclean (hok _ _ hallowed) hstep

theorem step_call {i : Nat} {buf buf' : ByteBuf} {op : BufOp} {e : BufEvent} {allocs' : List Nat}
    (hbuf : s.bufs[i]? = some buf) (hrun : op.run target buf s.allocs = some (e, buf', allocs')) :
    s.step target (.call i op) = some (.ok (e, ⟨s.bufs.set i buf', allocs'⟩)) := by
  rw [step, hbuf]
  show (op.run target buf s.allocs).bind _ = _
  rw [hrun]
  rfl

end Buffers

variable {target : Endian} {s : Buffers} {log : List BufEvent} {i fuel : Nat} {buf : ByteBuf}

/-- Bytes appended to a buffer are what readers come to after all others, unless they go into a
block that readers have passed. -/
theorem appended_in_sight (hbuf : s.bufs[i]? = some buf) (hgrowth : 0 < buf.growth)
    (a : Appending) (hfuel : a.bytes.length + 2 ≤ fuel) :
    ∃ buf' allocs', s.step target (.call i (.append a fuel)) =
        some (.ok (.count a.bytes.length, ⟨s.bufs.set i buf', allocs'⟩)) ∧
      (buf'.content = buf.content ++ a.bytes ↔ a.InSight buf) := by
  obtain ⟨buf', allocs', hrun, hcontent⟩ := a.run_ok target buf s.allocs hgrowth hfuel
  refine ⟨buf', allocs', Buffers.step_call hbuf ?_, hcontent⟩
  rw [BufOp.run, hrun]
  rfl

theorem appended_in_sight_of_one :
    ∃ (log : List BufEvent) (s : Buffers) (buf buf' : ByteBuf) (allocs' : List Nat),
      (buffersMachine .little).Run (fun _ _ => True) .init log s ∧ s.bufs[0]? = some buf ∧
        s.step .little (.call 0 (.append (.value .u8 3) 3)) =
          some (.ok (.count 1, ⟨s.bufs.set 0 buf', allocs'⟩)) ∧
        buf'.content = buf.content ++ [3] := by
  have hend : ((buffersMachine .little).exec (fun _ _ => True)
      [.make (.withCapacity 16), .call 0 (.append (.u8s [1, 2]) 9), .call 0 (.read (.value .u8))]
        .init).map (fun r => r.2.bufs.map fun buf => (buf.idx, buf.blocks.length, buf.growth)) =
          some [(0, 1, 16)] := by
    decide +kernel
  obtain ⟨⟨log, s⟩, hexec, heq⟩ := Option.map_eq_some_iff.mp hend
  obtain ⟨buf, hbufs, hbuf⟩ := List.map_eq_singleton_iff.mp heq
  obtain ⟨hidx, hlen, hgrowth⟩ := Prod.mk.inj hbuf |>.imp_right Prod.mk.inj
  have hfirst : s.bufs[0]? = some buf := by
    rw [hbufs]
    rfl
  obtain ⟨buf', allocs', hstep, hcontent⟩ :=
    @appended_in_sight .little s 0 3 buf hfirst (hgrowth ▸ by decide) (.value .u8 3) (by decide)
  refine ⟨log, s, buf, buf', allocs', .of_exec _ hexec, hfirst, hstep, hcontent.mpr ?_⟩
  refine .inl (.inl (.inl ?_))
  rw [hidx, hlen]
  exact Nat.one_pos

/-- A byte appended when readers have passed the only block goes into that block. -/
theorem appended_out_of_sight :
    ¬ ∀ (log : List BufEvent) (s : Buffers) (i fuel : Nat) (buf : ByteBuf) (a : Appending),
      (buffersMachine .little).Run (fun _ _ => True) .init log s → s.bufs[i]? = some buf →
        0 < buf.growth → a.bytes.length + 2 ≤ fuel →
          ∃ buf' allocs', s.step .little (.call i (.append a fuel)) =
              some (.ok (.count a.bytes.length, ⟨s.bufs.set i buf', allocs'⟩)) ∧
            buf'.content = buf.content ++ a.bytes := by
  intro h
  have hend : ((buffersMachine .little).exec (fun _ _ => True)
      [.make (.withCapacity 16), .call 0 (.append (.u8s [1, 2]) 9), .call 0 (.skip 3)] .init).map
        (fun r => (r.2.bufs.map ByteBuf.growth,
          (r.2.step .little (.call 0 (.append (.value .u8 3) 3))).map fun r =>
            r.toOption.map fun r => r.2.bufs.map ByteBuf.content)) =
          some ([16], some (some [[]])) := by
    decide +kernel
  obtain ⟨⟨log, s⟩, hexec, heq⟩ := Option.map_eq_some_iff.mp hend
  obtain ⟨hgrowths, hafter⟩ := Prod.mk.inj heq
  obtain ⟨buf, hbufs, hgrowth⟩ := List.map_eq_singleton_iff.mp hgrowths
  have hfirst : s.bufs[0]? = some buf := by
    rw [hbufs]
    rfl
  obtain ⟨buf', allocs', hstep, hcontent⟩ := h log s 0 3 buf (.value .u8 3) (.of_exec _ hexec)
    hfirst (hgrowth ▸ by decide) (by decide)
  rw [hstep, hbufs] at hafter
  have hnil : [buf'.content] = [[]] := Option.some.inj (Option.some.inj hafter)
  rw [(List.cons.inj hnil).1] at hcontent
  exact absurd hcontent.symm (List.append_ne_nil_of_right_ne_nil _ (by decide))

/-- Bytes prepended to a buffer are what readers come to next, unless they go before a block that
readers have passed. -/
theorem prepended_in_sight {ok : Buffers → BufAction → Prop}
    (h : (buffersMachine target).Run ok .init log s) (hbuf : s.bufs[i]? = some buf)
    (hgrowth : 0 < buf.growth) (p : Prepending) (hfuel : p.bytes.length + 2 ≤ fuel) :
    ∃ buf' allocs', s.step target (.call i (.prepend p fuel)) =
        some (.ok (.count p.bytes.length, ⟨s.bufs.set i buf', allocs'⟩)) ∧
      (p.InSight buf → buf'.content = p.bytes ++ buf.content) ∧
      ((∀ s a, ok s a → a.InSight s) → buf'.content = p.bytes ++ buf.content →
        p.InSight buf) := by
  obtain ⟨⟨n, buf', allocs'⟩, hrun⟩ := p.exists_run target buf s.allocs hgrowth hfuel
  obtain ⟨rfl, -, -⟩ := Prepending.run_some hrun
  refine ⟨buf', allocs', Buffers.step_call hbuf ?_, ?_, ?_⟩
  · rw [BufOp.run, hrun]
    rfl
  · exact fun hin => Prepending.content_run hin hrun
  · intro hok
    have hclean := Buffers.clean_of_run hok h buf (List.mem_of_getElem? hbuf)
    exact (Prepending.content_run_iff hclean hrun).mp

theorem prepended_in_sight_of_one :
    ∃ (log : List BufEvent) (s : Buffers) (buf buf' : ByteBuf) (allocs' : List Nat),
      (buffersMachine .little).Run (fun s a => a.InSight s) .init log s ∧
        s.bufs[0]? = some buf ∧
        s.step .little (.call 0 (.prepend (.value .u8 3) 3)) =
          some (.ok (.count 1, ⟨s.bufs.set 0 buf', allocs'⟩)) ∧
        buf'.content = 3 :: buf.content := by
  have hend : ((buffersMachine .little).exec (fun s a => a.InSight s)
      [.make (.withCapacity 16), .call 0 (.append (.u8s [1, 2]) 9), .call 0 (.read (.value .u8))]
        .init).map (fun r => r.2.bufs.map fun buf => (buf.idx, buf.growth)) = some [(0, 16)] := by
    decide +kernel
  obtain ⟨⟨log, s⟩, hexec, heq⟩ := Option.map_eq_some_iff.mp hend
  obtain ⟨buf, hbufs, hbuf⟩ := List.map_eq_singleton_iff.mp heq
  obtain ⟨hidx, hgrowth⟩ := Prod.mk.inj hbuf
  have hfirst : s.bufs[0]? = some buf := by
    rw [hbufs]
    rfl
  have hrun := Base.Machine.Run.of_exec _ hexec
  obtain ⟨buf', allocs', hstep, hcontent, -⟩ :=
    @prepended_in_sight .little s log 0 3 buf _ hrun hfirst (hgrowth ▸ by decide) (.value .u8 3)
      (by decide)
  exact ⟨log, s, buf, buf', allocs', hrun, hfirst, hstep, hcontent (.inl hidx)⟩

/-- A byte prepended when readers have passed the first block goes into that block. -/
theorem prepended_out_of_sight :
    ¬ ∀ (log : List BufEvent) (s : Buffers) (i fuel : Nat) (buf : ByteBuf) (p : Prepending),
      (buffersMachine .little).Run (fun _ _ => True) .init log s → s.bufs[i]? = some buf →
        0 < buf.growth → p.bytes.length + 2 ≤ fuel →
          ∃ buf' allocs', s.step .little (.call i (.prepend p fuel)) =
              some (.ok (.count p.bytes.length, ⟨s.bufs.set i buf', allocs'⟩)) ∧
            buf'.content = p.bytes ++ buf.content := by
  intro h
  have hend : ((buffersMachine .little).exec (fun _ _ => True)
      [.make (.withGrowth 8), .call 0 (.append (.u8s [1, 2, 3, 4, 5, 6, 7, 8, 9, 10]) 12),
        .call 0 (.skip 9)] .init).map
        (fun r => (r.2.bufs.map (fun buf => (buf.growth, buf.content)),
          (r.2.step .little (.call 0 (.prepend (.value .u8 3) 3))).map fun r =>
            r.toOption.map fun r => r.2.bufs.map ByteBuf.content)) =
          some ([(8, [10])], some (some [[10]])) := by
    decide +kernel
  obtain ⟨⟨log, s⟩, hexec, heq⟩ := Option.map_eq_some_iff.mp hend
  obtain ⟨hbefore, hafter⟩ := Prod.mk.inj heq
  obtain ⟨buf, hbufs, hbuf⟩ := List.map_eq_singleton_iff.mp hbefore
  obtain ⟨hgrowth, hunread⟩ := Prod.mk.inj hbuf
  have hfirst : s.bufs[0]? = some buf := by
    rw [hbufs]
    rfl
  obtain ⟨buf', allocs', hstep, hcontent⟩ := h log s 0 3 buf (.value .u8 3) (.of_exec _ hexec)
    hfirst (hgrowth ▸ by decide) (by decide)
  rw [hstep, hbufs] at hafter
  have hsame : [buf'.content] = [[10]] := Option.some.inj (Option.some.inj hafter)
  rw [(List.cons.inj hsame).1, hunread] at hcontent
  exact absurd hcontent (by decide)

end Ruyi.Buf
