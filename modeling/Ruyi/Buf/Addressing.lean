import Ruyi.Buf.Buffers
import Ruyi.Buf.SetContent

namespace Ruyi.Buf

namespace ByteBuf

/-- The position is found, with as many unread bytes before it, and every call takes it. -/
structure Accepts (buf : ByteBuf) (pos : Nat) : Prop where
  located : ∃ p, buf.locateIdx pos = .ok p ∧ buf.idx ≤ p.idx ∧
    (bytesOf ((buf.blocks.take p.idx).drop buf.idx)).length + p.off = pos
  get : ∀ {α : Type} (get : List (Block × Nat) → α), ∃ a, buf.get pos get = .ok a
  getExact : ∀ {α : Type} (len : Nat) (getExact : Nat → List (Block × Nat) → α),
    ∃ a, buf.getExact pos len getExact = .ok a
  set : ∀ {σ ρ : Type} (body : σ → Block → Nat → Block × (σ ⊕ ρ)) (stop : σ → ρ) (s : σ),
    ∃ r, buf.setWith pos body stop s = some r
  splitOff : ∃ self other, buf.splitOff pos = .ok (self, other)
  drainTo : ∃ head self, buf.drainTo pos = .ok (head, self)

/-- The position is not found: `get` and `set` panic, and the calls that return an error change
nothing. -/
structure Rejects (buf : ByteBuf) (pos : Nat) : Prop where
  located : ∃ left, buf.locateIdx pos = .error left
  get : ∀ {α : Type} (get : List (Block × Nat) → α), buf.get pos get = .error .panic
  getExact : ∀ {α : Type} (len : Nat) (getExact : Nat → List (Block × Nat) → α),
    buf.getExact pos len getExact = .error .panic
  set : ∀ {σ ρ : Type} (body : σ → Block → Nat → Block × (σ ⊕ ρ)) (stop : σ → ρ) (s : σ),
    buf.setWith pos body stop s = none
  splitOff : ∀ (target : Endian) (s : Buffers) (i : Nat), s.bufs[i]? = some buf →
    s.step target (.splitOff i pos) = some (.ok (.failed .indexOutOfBounds, s))
  drainTo : ∀ (target : Endian) (s : Buffers) (i : Nat), s.bufs[i]? = some buf →
    s.step target (.drainTo i pos) = some (.ok (.failed .indexOutOfBounds, s))

/-- The positions of the content are the ones that the calls take. -/
structure Addressable (buf : ByteBuf) : Prop where
  accepts : ∀ pos ≤ buf.len, buf.Accepts pos
  rejects : ∀ pos, buf.len < pos → buf.Rejects pos

variable {buf : ByteBuf} {pos : Nat}

theorem accepts_of_located {p : Position buf.blocks} (hp : buf.locateIdx pos = .ok p) :
    buf.Accepts pos := by
  obtain ⟨hle, hpos, -⟩ := locateIdx_ok hp
  have hsplit : ∃ self other, buf.splitOff pos = .ok (self, other) := by
    have hidx : buf.idx < buf.blocks.length := Nat.lt_of_le_of_lt hle p.idx_lt
    exact exists_splitOff hidx (bytesOf_located hp).1
  have hget : ∀ {α : Type} (get : List (Block × Nat) → α), ∃ a, buf.get pos get = .ok a := by
    intro α f
    rw [get, hp]
    exact ⟨_, rfl⟩
  refine ⟨⟨p, hp, hle, hpos.symm⟩, hget, fun len f => hget (f len), ?_, hsplit, hsplit⟩
  intro σ ρ body stop s
  rw [setWith, hp]
  exact ⟨_, rfl⟩

theorem rejects_of_error {left : Nat} (hp : buf.locateIdx pos = .error left) :
    buf.Rejects pos := by
  have hget : ∀ {α : Type} (get : List (Block × Nat) → α), buf.get pos get = .error .panic := by
    intro α f
    rw [get, hp]
  have hsplit : buf.splitOff pos = .error .indexOutOfBounds := by
    rw [splitOff, hp]
  refine ⟨⟨left, hp⟩, hget, fun len f => hget (f len), ?_, ?_, ?_⟩
  · intro σ ρ body stop s
    rw [setWith, hp]
  · intro target s i hbuf
    simp only [Buffers.step, hbuf, hsplit, bind, Option.bind]
  · intro target s i hbuf
    simp only [Buffers.step, hbuf, drainTo, hsplit, bind, Option.bind]

theorem rejects_of_lt (h : buf.len < pos) : buf.Rejects pos := by
  cases hp : buf.locateIdx pos with
  | error left => exact rejects_of_error hp
  | ok p =>
      have hle := (bytesOf_located hp).1
      rw [len_eq] at h
      exact absurd hle (Nat.not_le.mpr h)

/-- The positions of the content are taken as long as there is a block that readers have not
passed; without one, not even the position 0 is. -/
theorem addressable_iff (buf : ByteBuf) : buf.Addressable ↔ buf.idx < buf.blocks.length := by
  constructor
  · intro h
    obtain ⟨p, -, hle, -⟩ := (h.accepts 0 (Nat.zero_le _)).located
    exact Nat.lt_of_le_of_lt hle p.idx_lt
  · intro hidx
    refine ⟨fun pos hpos => ?_, fun pos hpos => rejects_of_lt hpos⟩
    rw [len_eq] at hpos
    obtain ⟨p, hp⟩ := exists_locateIdx hidx hpos
    exact accepts_of_located hp

theorem not_addressable_new :
    ¬ ∀ (log : List BufEvent) (s : Buffers) (buf : ByteBuf),
      (buffersMachine .little).Run (fun _ _ => True) .init log s → buf ∈ s.bufs →
        buf.Addressable := by
  intro h
  have hstep : (buffersMachine .little).step .init (.make .new) =
      some (.ok (.done, ⟨[.new], []⟩)) := rfl
  have hnew := h _ _ .new (Base.Machine.Run.nil.snoc trivial hstep) (List.mem_singleton.mpr rfl)
  obtain ⟨p, hp, -⟩ := (hnew.accepts 0 (Nat.zero_le _)).located
  cases hp

/-- `split_off` and `drain_to` divide the content, `extend` puts it together again, and a call
that fails changes nothing. -/
theorem split_partitions (buf : ByteBuf) (pos : Nat) :
    (∀ self other, buf.splitOff pos = .ok (self, other) →
        pos ≤ buf.len ∧ self.content = buf.content.take pos ∧
          other.content = buf.content.drop pos ∧ (self.extend other).content = buf.content) ∧
      (∀ head self, buf.drainTo pos = .ok (head, self) →
        pos ≤ buf.len ∧ head.content = buf.content.take pos ∧
          self.content = buf.content.drop pos) ∧
      (∀ (target : Endian) (s s' : Buffers) (i : Nat) (e : Error), s.bufs[i]? = some buf →
        (s.step target (.splitOff i pos) = some (.ok (.failed e, s')) ∨
          s.step target (.drainTo i pos) = some (.ok (.failed e, s'))) → s' = s) ∧
      ∀ other, (buf.extend other).content = buf.content ++ other.content := by
  refine ⟨?_, ?_, ?_, buf.content_extend⟩
  · intro self other h
    obtain ⟨hpos, hself, hother⟩ := splitOff_ok h
    refine ⟨buf.len_eq ▸ hpos, hself, hother, ?_⟩
    rw [content_extend, hself, hother, List.take_append_drop]
  · intro head self h
    obtain ⟨hpos, hhead, hself⟩ := splitOff_ok h
    exact ⟨buf.len_eq ▸ hpos, hhead, hself⟩
  · rintro target s s' i e hbuf (h | h)
    · simp only [Buffers.step, hbuf, bind, Option.bind] at h
      split at h <;> cases h
      rfl
    · simp only [Buffers.step, hbuf, bind, Option.bind] at h
      split at h <;> cases h
      rfl

/-- At an index that is found the bytes addressed are got, or set with nothing else. -/
theorem indexed_access {index : Nat} {p : Position buf.blocks} (hp : buf.locateIdx index = .ok p) :
    (∀ n, buf.getExact index n u8s.getExact =
        .ok (if index + n ≤ buf.len then .ok ((buf.content.drop index).take n)
          else .error .indexOutOfBounds)) ∧
      ∀ v ≠ [], index + v.length ≤ buf.len →
        ∃ buf', u8s.set v index buf = some (.ok v.length, buf') ∧ Overwrites buf buf' index v := by
  refine ⟨buf.getExact_u8s hp, fun v hne hfits => ?_⟩
  rw [len_eq] at hfits
  exact setWith_ok (setsLeft_setBody v.length) _ hp hne hfits

theorem indexed_access_of_two :
    ∃ buf', u8s.set [7, 8] 1 ((ByteBuf.ofVec 0 [1, 2] []).extend (.ofVec 1 [3] [])) =
        some (.ok 2, buf') ∧
      Overwrites ((ByteBuf.ofVec 0 [1, 2] []).extend (.ofVec 1 [3] [])) buf' 1 [7, 8] :=
  (indexed_access (p := ⟨0, 1, by decide, by decide⟩) rfl).2 [7, 8] (by decide) (by decide)

end ByteBuf

end Ruyi.Buf
