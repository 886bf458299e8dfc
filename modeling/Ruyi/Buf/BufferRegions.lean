import Ruyi.Buf.Buffers

namespace Ruyi.Buf

namespace ByteBuf

variable {buf buf' head tail : ByteBuf} {allocs allocs' : List Nat}

theorem Keeps.reshapes (h : Keeps buf buf') (allocs : List Nat) :
    Base.Reshapes allocs buf.regions allocs buf'.regions := .of_eq h.regions.symm

theorem reshapes_split {pos : Nat} (h : buf.splitOff pos = .ok (head, tail)) :
    Base.Reshapes allocs buf.regions allocs (head.regions ++ tail.regions) := by
  rw [splitOff] at h
  split at h
  · cases h
  · rename_i p hp
    have hblocks : buf.regions = (buf.blocks.take p.idx).map Block.region ++
        ([p.block.region] ++ (buf.blocks.drop (p.idx + 1)).map Block.region) := by
      have hcut := List.take_append_drop p.idx buf.blocks
      rw [List.drop_eq_getElem_cons p.idx_lt] at hcut
      conv_lhs => rw [regions, ← hcut]
      rw [List.map_append, List.map_cons]
      rfl
    have hsplit := reshapes_splitOff allocs p.block p.off p.off_le_len
    have hwhole : Base.Reshapes allocs buf.regions allocs
        (((buf.blocks.take p.idx ++ [(p.block.splitOff p.off p.off_le_len).1]).map Block.region) ++
          (((p.block.splitOff p.off p.off_le_len).2 :: buf.blocks.drop (p.idx + 1)).map
            Block.region)) := by
      rw [hblocks, List.map_append, List.append_assoc]
      exact (hsplit.append_right _).append_left _
    -- the second part of the block is dropped in the other two cases
    have hkept : Base.Reshapes allocs buf.regions allocs
        (((buf.blocks.take p.idx ++ [(p.block.splitOff p.off p.off_le_len).1]).map Block.region) ++
          ((buf.blocks.drop (p.idx + 1)).map Block.region)) := by
      refine hwhole.trans (.of_sublist ?_)
      exact (List.Sublist.refl _).append (List.sublist_cons_self _ _)
    dsimp only at h
    split at h
    · cases h
      exact hwhole
    · split at h
      · cases h
        exact hkept
      · rename_i hlast
        cases h
        refine hkept.trans (.of_sublist ?_)
        exact (List.Sublist.refl _).append (List.nil_sublist _)

theorem reshapes_extend (allocs : List Nat) (buf other : ByteBuf) :
    Base.Reshapes allocs (buf.regions ++ other.regions) allocs (buf.extend other).regions := by
  rw [regions, regions, regions, extend, List.map_append]
  exact .of_sublist ((List.Sublist.refl _).append ((List.drop_sublist _ _).map _))

end ByteBuf

namespace BufOp

variable {op : BufOp} {target : Endian} {buf buf' : ByteBuf} {allocs allocs' : List Nat}
  {e : BufEvent}

theorem keeps_reading (r : Reading) (target : Endian) (buf : ByteBuf) :
    ByteBuf.Keeps buf (r.run target buf).2 := by
  have hresult : ∀ {α : Type} (f : α → BufEvent) (r : Except Error α × ByteBuf),
      (result f r).2 = r.2 := by
    rintro α f ⟨_ | _, _⟩
    · rfl
    · rfl
  cases r with
  | value codec =>
      rw [Reading.run, hresult]
      exact ByteBuf.keeps_codec_read codec target buf
  | u8s =>
      rw [Reading.run, hresult]
      exact ByteBuf.keeps_readExact _ buf
  | u8sExact n =>
      rw [Reading.run, hresult]
      exact ByteBuf.keeps_readExact n buf
  | reader n => exact ByteBuf.keeps_reader_read n buf
  | next => exact ByteBuf.keeps_reader_next buf

theorem keeps_setting {s : Setting} {index : Nat} {r : BufEvent × ByteBuf}
    (h : s.run target index buf = some r) : ByteBuf.Keeps buf r.2 := by
  have hresult : ∀ r : Except Error Nat × ByteBuf, (result .count r).2 = r.2 := by
    rintro ⟨_ | _, _⟩
    · rfl
    · rfl
  cases s with
  | value codec v =>
      obtain ⟨r', hset, rfl⟩ := Option.map_eq_some_iff.mp h
      rw [hresult]
      exact ByteBuf.keeps_codec_set hset
  | u8s v =>
      obtain ⟨r', hset, rfl⟩ := Option.map_eq_some_iff.mp h
      rw [hresult]
      exact ByteBuf.keeps_setWith (setsBytes_setBody _) hset
  | u8sFill val count =>
      obtain ⟨r', hset, rfl⟩ := Option.map_eq_some_iff.mp h
      rw [hresult]
      exact ByteBuf.keeps_setWith (setsBytes_setFillBody _ _) hset

theorem reshapes_run (h : op.run target buf allocs = some (e, buf', allocs')) :
    Base.Reshapes allocs buf.regions allocs' buf'.regions := by
  cases op with
  | setGrowth growth =>
      cases h
      exact .refl _ _
  | append a fuel =>
      obtain ⟨⟨n, r⟩, hrun, heq⟩ := Option.map_eq_some_iff.mp h
      cases heq
      exact Appending.reshapes_run hrun
  | prepend p fuel =>
      obtain ⟨⟨n, r⟩, hrun, heq⟩ := Option.map_eq_some_iff.mp h
      cases heq
      exact Prepending.reshapes_run hrun
  | read r =>
      cases h
      exact (keeps_reading r target buf).reshapes allocs
  | skip n =>
      cases h
      exact (ByteBuf.keeps_skip buf n).reshapes allocs
  | set index s =>
      obtain ⟨r, hrun, heq⟩ := Option.map_eq_some_iff.mp h
      cases heq
      exact (keeps_setting hrun).reshapes allocs
  | reserve additional =>
      have hreserve := ByteBuf.reshapes_reserve buf allocs additional
      rw [(Prod.mk.inj (Option.some.inj h)).2] at hreserve
      exact hreserve
  | tryReserveInHead len =>
      cases h
      exact (ByteBuf.keeps_tryReserveInHead buf len).reshapes allocs
  | compact =>
      cases h
      rcases buf.compact_cases with heq | ⟨-, hsub⟩
      · rw [heq]
        exact .refl _ _
      · exact .of_sublist (hsub.map _)

end BufOp

namespace Buffers

variable {target : Endian} {s s' : Buffers} {log : List BufEvent}

/-- The addresses of the blocks of all buffers. -/
def regions (s : Buffers) : List Base.Region := s.bufs.flatMap ByteBuf.regions

theorem regions_eq_map (s : Buffers) :
    s.regions = (s.bufs.flatMap ByteBuf.blocks).map Block.region := by
  rw [regions, List.map_flatMap]
  rfl

theorem regions_perm {bufs : List ByteBuf} {i : Nat} {buf : ByteBuf} (h : bufs[i]? = some buf) :
    (bufs.flatMap ByteBuf.regions).Perm
      (buf.regions ++ (bufs.eraseIdx i).flatMap ByteBuf.regions) := by
  obtain ⟨hlt, rfl⟩ := List.getElem?_eq_some_iff.mp h
  exact ((List.getElem_cons_eraseIdx_perm hlt).flatMap_right _).symm

theorem regions_set_perm {bufs : List ByteBuf} {i : Nat} {buf : ByteBuf} (h : bufs[i]? = some buf)
    (buf' : ByteBuf) :
    ((bufs.set i buf').flatMap ByteBuf.regions).Perm
      (buf'.regions ++ (bufs.eraseIdx i).flatMap ByteBuf.regions) := by
  obtain ⟨hlt, -⟩ := List.getElem?_eq_some_iff.mp h
  exact (List.set_perm_cons_eraseIdx hlt buf').flatMap_right _

theorem reshapes_set {bufs : List ByteBuf} {i : Nat} {buf buf' : ByteBuf}
    {allocs allocs' : List Nat} (h : bufs[i]? = some buf)
    (hreshapes : Base.Reshapes allocs buf.regions allocs' buf'.regions) :
    Base.Reshapes allocs (bufs.flatMap ByteBuf.regions) allocs'
      ((bufs.set i buf').flatMap ByteBuf.regions) :=
  (Base.Reshapes.of_perm (regions_perm h)).trans
    ((hreshapes.append_right _).trans (.of_perm (regions_set_perm h buf').symm))

theorem reshapes_set_concat {bufs : List ByteBuf} {i : Nat} {buf buf' other : ByteBuf}
    {allocs : List Nat} (h : bufs[i]? = some buf)
    (hreshapes : Base.Reshapes allocs buf.regions allocs (buf'.regions ++ other.regions)) :
    Base.Reshapes allocs (bufs.flatMap ByteBuf.regions) allocs
      ((bufs.set i buf' ++ [other]).flatMap ByteBuf.regions) := by
  refine (Base.Reshapes.of_perm (regions_perm h)).trans ((hreshapes.append_right _).trans ?_)
  refine .of_perm ?_
  rw [List.flatMap_append, List.flatMap_singleton, List.append_assoc]
  refine (List.perm_append_comm.append_left _).trans ?_
  rw [← List.append_assoc]
  exact ((regions_set_perm h buf').symm).append_right _

theorem reshapes_making (m : Making) (allocs : List Nat) :
    Base.Reshapes allocs [] (m.run allocs).2 (m.run allocs).1.regions := by
  cases m with
  | new => exact .refl _ _
  | withCapacity capacity => exact .alloc _
  | withGrowth growth => exact .refl _ _
  | ofVec bytes spare => exact .alloc _

theorem getElem?_place {bufs : List ByteBuf} {i j : Nat} {buf : ByteBuf} (h : bufs[i]? = some buf)
    (hne : ¬ i = j) : (bufs.eraseIdx j)[if j < i then i - 1 else i]? = some buf := by
  rw [List.getElem?_eraseIdx]
  rcases Nat.lt_or_gt_of_ne hne with hlt | hgt
  · rw [if_neg (Nat.lt_asymm hlt), if_pos hlt]
    exact h
  · rw [if_pos hgt, if_neg (by omega), Nat.sub_add_cancel (by omega)]
    exact h

theorem reshapes_step {a : BufAction} {e : BufEvent} (h : s.step target a = some (.ok (e, s'))) :
    Base.Reshapes s.allocs s.regions s'.allocs s'.regions := by
  cases a with
  | make m =>
      cases h
      have hmake := (reshapes_making m s.allocs).append_left s.regions
      rw [List.append_nil] at hmake
      rw [← List.flatMap_singleton (f := ByteBuf.regions), regions, ← List.flatMap_append] at hmake
      exact hmake
  | drop i =>
      rw [step] at h
      split at h
      · rename_i hlt
        cases h
        refine (Base.Reshapes.of_perm (regions_perm (List.getElem?_eq_getElem hlt))).trans ?_
        exact .of_sublist (List.sublist_append_right _ _)
      · cases h
  | call i op =>
      obtain ⟨buf, hbuf, h⟩ := Option.bind_eq_some_iff.mp h
      obtain ⟨⟨e', buf', allocs'⟩, hrun, h⟩ := Option.bind_eq_some_iff.mp h
      cases h
      exact reshapes_set hbuf (BufOp.reshapes_run hrun)
  | extend i j =>
      obtain ⟨buf, hbuf, h⟩ := Option.bind_eq_some_iff.mp h
      obtain ⟨other, hother, h⟩ := Option.bind_eq_some_iff.mp h
      dsimp only at h
      split at h
      · cases h
      · rename_i hne
        cases h
        have hplace := getElem?_place hbuf hne
        have hextend := ByteBuf.reshapes_extend s.allocs buf other
        refine (Base.Reshapes.of_perm (regions_perm hother)).trans ?_
        refine (Base.Reshapes.of_perm ((regions_perm hplace).append_left _)).trans ?_
        rw [← List.append_assoc]
        refine (Base.Reshapes.of_perm (List.perm_append_comm.append_right _)).trans ?_
        refine (hextend.append_right _).trans (.of_perm ?_)
        exact (regions_set_perm hplace _).symm
  | splitOff i pos =>
      obtain ⟨buf, hbuf, h⟩ := Option.bind_eq_some_iff.mp h
      split at h
      · cases h
        exact .refl _ _
      · rename_i buf' other hsplit
        cases h
        exact reshapes_set_concat hbuf (ByteBuf.reshapes_split hsplit)
  | drainTo i pos =>
      obtain ⟨buf, hbuf, h⟩ := Option.bind_eq_some_iff.mp h
      split at h
      · cases h
        exact .refl _ _
      · rename_i drained buf' hsplit
        cases h
        refine reshapes_set_concat hbuf ?_
        exact (ByteBuf.reshapes_split hsplit).trans (.of_perm List.perm_append_comm)

theorem laid_of_run {ok : Buffers → BufAction → Prop}
    (h : (buffersMachine target).Run ok .init log s) : Base.Laid s.allocs s.regions := by
  refine h.invariant (I := fun _ s => Base.Laid s.allocs s.regions) (Base.laid_nil _) ?_
  exact fun hlaid _ hstep => (reshapes_step hstep).laid hlaid

theorem holds_of_write {ok : Buffers → BufAction → Prop} (memory : Base.Memory UInt8)
    (h : (buffersMachine target).Run ok .init log s) {i : Nat} {block : Block}
    (hblock : (s.bufs.flatMap ByteBuf.blocks)[i]? = some block) (off : Nat) (bytes : List UInt8) :
    let written := memory.store block.region (block.copyTo off bytes).mem
    written.Holds (block.copyTo off bytes).region (block.copyTo off bytes).mem ∧
      ∀ j other, (s.bufs.flatMap ByteBuf.blocks)[j]? = some other → i ≠ j →
        memory.Holds other.region other.mem → written.Holds other.region other.mem := by
  have hsize : (block.copyTo off bytes).mem.length ≤ block.region.size :=
    Nat.le_of_eq (Block.mem_length _)
  refine ⟨memory.holds_store hsize, ?_⟩
  intro j other hother hne hholds
  have happart := (laid_of_run h).apart
  rw [regions_eq_map, List.pairwise_map, List.pairwise_iff_getElem] at happart
  obtain ⟨hi, rfl⟩ := List.getElem?_eq_some_iff.mp hblock
  obtain ⟨hj, rfl⟩ := List.getElem?_eq_some_iff.mp hother
  refine hholds.store ?_ hsize
  rcases Nat.lt_or_gt_of_ne hne with hlt | hgt
  · exact happart i j hi hj hlt
  · exact (happart j i hj hi hgt).symm

end Buffers

/-- No byte that a buffer may write is one of another block. -/
theorem blocks_apart {target : Endian} {log : List BufEvent} {s : Buffers}
    (h : (buffersMachine target).Run (fun _ _ => True) .init log s) :
    (∀ buf ∈ s.bufs, buf.idx ≤ buf.blocks.length ∧ ∀ block ∈ buf.blocks,
      block.readPos ≤ block.writePos ∧ block.writePos ≤ block.cap ∧
        ∃ size, s.allocs[block.shared]? = some size ∧ block.ptr + block.cap ≤ size) ∧
      (s.bufs.flatMap ByteBuf.blocks).Pairwise fun block other =>
        block.shared = other.shared →
          block.ptr + block.cap ≤ other.ptr ∨ other.ptr + other.cap ≤ block.ptr := by
  have hlaid := Buffers.laid_of_run h
  rw [Buffers.regions_eq_map] at hlaid
  constructor
  · intro buf hbuf
    refine ⟨buf.idx_le, fun block hblock => ⟨block.read_le, block.write_le, ?_⟩⟩
    refine hlaid.within block.region (List.mem_map_of_mem ?_)
    exact List.mem_flatMap.mpr ⟨buf, hbuf, hblock⟩
  · exact List.pairwise_map.mp hlaid.apart

theorem blocks_apart_of_split :
    ∃ (log : List BufEvent) (s : Buffers),
      (buffersMachine .little).Run (fun _ _ => True) .init log s ∧
        (s.bufs.flatMap ByteBuf.blocks).map
          (fun block => (block.shared, block.ptr, block.cap)) = [(0, 0, 2), (0, 2, 14)] ∧
        (s.bufs.flatMap ByteBuf.blocks).Pairwise fun block other =>
          block.shared = other.shared →
            block.ptr + block.cap ≤ other.ptr ∨ other.ptr + other.cap ≤ block.ptr := by
  have hend : ((buffersMachine .little).exec (fun _ _ => True)
      [.make (.withCapacity 16), .call 0 (.append (.u8s [1, 2, 3]) 9), .splitOff 0 2,
        .call 1 (.append (.write [4]) 9)] .init).map
      (fun r => (r.2.bufs.flatMap ByteBuf.blocks).map
        fun block => (block.shared, block.ptr, block.cap)) = some [(0, 0, 2), (0, 2, 14)] := by
    decide +kernel
  obtain ⟨⟨log, s⟩, hexec, heq⟩ := Option.map_eq_some_iff.mp hend
  have hrun := Base.Machine.Run.of_exec _ hexec
  exact ⟨log, s, hrun, heq, (blocks_apart hrun).2⟩

end Ruyi.Buf
