import Mathlib

namespace Ruyi.Base

variable {ν : Type} {next prev next' prev' : ν → ν} {a b x : ν} {xs ys : List ν}

/-- The nodes `xs`, and no others, stand between `a` and `b` in a doubly linked
structure given by its two link functions. -/
def Segment (next prev : ν → ν) : ν → List ν → ν → Prop
  | a, [], b => next a = b ∧ prev b = a
  | a, x :: xs, b => next a = x ∧ prev x = a ∧ Segment next prev x xs b

/-- Following `next` from `a` passes exactly the nodes `xs` before `b`. -/
def Path (next : ν → ν) : ν → List ν → ν → Prop
  | a, [], b => next a = b
  | a, x :: xs, b => next a = x ∧ Path next x xs b

theorem path_append {y : ν} :
    Path next a (xs ++ y :: ys) b ↔ Path next a xs y ∧ Path next y ys b := by
  induction xs generalizing a with
  | nil => exact Iff.rfl
  | cons x xs ih =>
      simp only [List.cons_append, Path]
      rw [ih, and_assoc]

theorem Path.exists_pred (h : Path next a xs b) (hx : x ∈ xs) : ∃ y ∈ a :: xs, next y = x := by
  induction xs generalizing a with
  | nil => cases hx
  | cons z zs ih =>
      rcases List.mem_cons.mp hx with rfl | hx
      · exact ⟨a, List.mem_cons_self, h.1⟩
      · obtain ⟨y, hy, hyx⟩ := ih h.2 hx
        exact ⟨y, List.mem_cons_of_mem a hy, hyx⟩

theorem Path.unique {p : ν → Prop} {c : ν} (h : Path next a xs b) (h' : Path next a ys c)
    (hxs : ∀ x ∈ xs, ¬ p x) (hys : ∀ y ∈ ys, ¬ p y) (hb : p b) (hc : p c) : xs = ys ∧ b = c := by
  induction xs generalizing a ys with
  | nil =>
      rcases ys with - | ⟨y, ys⟩
      · exact ⟨rfl, h.symm.trans h'⟩
      · have hyb : y = b := h'.1.symm.trans h
        exact absurd (hyb ▸ hb) (hys y List.mem_cons_self)
  | cons x xs ih =>
      rcases ys with - | ⟨y, ys⟩
      · have hxc : x = c := h.1.symm.trans h'
        exact absurd (hxc ▸ hc) (hxs x List.mem_cons_self)
      · have hxy : x = y := h.1.symm.trans h'.1
        subst hxy
        obtain ⟨htail, hend⟩ := ih h.2 h'.2
          (fun z hz => hxs z (List.mem_cons_of_mem x hz))
          (fun z hz => hys z (List.mem_cons_of_mem x hz))
        exact ⟨congrArg _ htail, hend⟩

theorem segment_append {y : ν} :
    Segment next prev a (xs ++ y :: ys) b ↔
      Segment next prev a xs y ∧ Segment next prev y ys b := by
  induction xs generalizing a with
  | nil =>
      simp only [List.nil_append, Segment]
      rw [and_assoc]
  | cons x xs ih =>
      simp only [List.cons_append, Segment]
      rw [ih, and_assoc, and_assoc]

theorem Segment.path (h : Segment next prev a xs b) : Path next a xs b := by
  induction xs generalizing a with
  | nil => exact h.1
  | cons x xs ih => exact ⟨h.1, ih h.2.2⟩

theorem Segment.next_head (h : Segment next prev a xs b) :
    (xs ++ [b]).head? = some (next a) := by
  rcases xs with - | ⟨x, xs⟩
  · exact congrArg some h.1.symm
  · exact congrArg some h.1.symm

theorem Segment.prev_mem (h : Segment next prev a xs b) : prev b ∈ a :: xs := by
  induction xs generalizing a with
  | nil =>
      rw [h.2]
      exact List.mem_cons_self
  | cons x xs ih => exact List.mem_cons_of_mem _ (ih h.2.2)

/-- The links of a segment are `next` at its start and inside, `prev` inside and at
its end; nothing else matters. -/
theorem Segment.congr (h : Segment next prev a xs b)
    (hnext : ∀ y ∈ a :: xs, next' y = next y) (hprev : ∀ y ∈ xs ++ [b], prev' y = prev y) :
    Segment next' prev' a xs b := by
  induction xs generalizing a with
  | nil =>
      refine ⟨?_, ?_⟩
      · rw [hnext a List.mem_cons_self, h.1]
      · rw [hprev b (by simp), h.2]
  | cons x xs ih =>
      obtain ⟨hax, hxa, htail⟩ := h
      refine ⟨?_, ?_, ih htail ?_ ?_⟩
      · rw [hnext a List.mem_cons_self, hax]
      · rw [hprev x (by simp), hxa]
      · intro y hy
        exact hnext y (List.mem_cons_of_mem a hy)
      · intro y hy
        exact hprev y (List.mem_cons_of_mem x hy)

theorem Segment.redirect (h : Segment next prev a xs b) (hnodup : (a :: xs).Nodup)
    (hlast : next' (prev b) = x) (hback : prev' x = prev b)
    (hnext : ∀ y ∈ a :: xs, y ≠ prev b → next' y = next y) (hprev : ∀ y ∈ xs, prev' y = prev y) :
    Segment next' prev' a xs x := by
  induction xs generalizing a with
  | nil =>
      rw [h.2] at hlast hback
      exact ⟨hlast, hback⟩
  | cons z zs ih =>
      obtain ⟨haz, hza, htail⟩ := h
      rw [List.nodup_cons] at hnodup
      have hne : a ≠ prev b := by
        intro heq
        exact hnodup.1 (heq ▸ htail.prev_mem)
      refine ⟨?_, ?_, ih htail hnodup.2 ?_ ?_⟩
      · rw [hnext a List.mem_cons_self hne, haz]
      · rw [hprev z List.mem_cons_self, hza]
      · intro y hy
        exact hnext y (List.mem_cons_of_mem a hy)
      · intro y hy
        exact hprev y (List.mem_cons_of_mem z hy)

theorem Segment.push (h : Segment next prev a xs b) (hnodup : (a :: xs).Nodup)
    (hlast : next' (prev b) = x) (hback : prev' x = prev b) (hxb : next' x = b) (hbx : prev' b = x)
    (hnext : ∀ y ∈ a :: xs, y ≠ prev b → next' y = next y) (hprev : ∀ y ∈ xs, prev' y = prev y) :
    Segment next' prev' a (xs ++ [x]) b :=
  segment_append.mpr ⟨h.redirect hnodup hlast hback hnext hprev, hxb, hbx⟩

theorem Segment.unlink (h : Segment next prev a (xs ++ x :: ys) b)
    (hstart : (a :: (xs ++ x :: ys)).Nodup) (hstop : (xs ++ x :: ys ++ [b]).Nodup)
    (hlink : next' (prev x) = next x) (hback : prev' (next x) = prev x)
    (hnext : ∀ y ∈ a :: (xs ++ ys), y ≠ prev x → next' y = next y)
    (hprev : ∀ y ∈ xs ++ ys ++ [b], y ≠ next x → prev' y = prev y) :
    Segment next' prev' a (xs ++ ys) b := by
  obtain ⟨hhead, hrest⟩ := segment_append.mp h
  rw [← List.cons_append, List.nodup_append] at hstart
  rw [List.append_assoc, List.nodup_append] at hstop
  have hnew : Segment next' prev' a xs (next x) := by
    refine hhead.redirect hstart.1 hlink hback ?_ ?_
    · intro y hy hne
      apply hnext y _ hne
      rcases List.mem_cons.mp hy with rfl | hy
      · exact List.mem_cons_self
      · exact List.mem_cons_of_mem a (List.mem_append_left ys hy)
    · intro y hy
      have hnx : next x ∈ ys ++ [b] := List.mem_of_mem_head? (Option.mem_def.mpr hrest.next_head)
      apply hprev y
      · simp [hy]
      · exact hstop.2.2 y hy (next x) (List.mem_cons_of_mem x hnx)
  rcases ys with - | ⟨y, ys⟩
  · rw [List.append_nil, ← hrest.1]
    exact hnew
  · obtain ⟨hxy, -, hrest⟩ := hrest
    rw [hxy] at hnew hprev
    refine segment_append.mpr ⟨hnew, hrest.congr ?_ ?_⟩
    · intro z hz
      apply hnext z (List.mem_cons_of_mem a (List.mem_append_right xs hz))
      rintro rfl
      exact hstart.2.2 (prev x) hhead.prev_mem (prev x) (List.mem_cons_of_mem x hz) rfl
    · intro z hz
      apply hprev z
      · rcases List.mem_append.mp hz with hz | hz
        · simp [hz]
        · simp [List.mem_singleton.mp hz]
      · rintro rfl
        exact (List.nodup_cons.mp (List.nodup_cons.mp hstop.2.1).2).1 hz

end Ruyi.Base
