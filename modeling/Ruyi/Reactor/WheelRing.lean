import Ruyi.Base.Segment
import Ruyi.Reactor.WheelLinks

namespace Ruyi.Reactor.Wheel

open Ruyi.Base

theorem val_effectiveSlot (slot : Nat) : (effectiveSlot slot).val = slot % 128 :=
  Nat.and_two_pow_sub_one_eq_mod slot 7

theorem asSecs_fromSecs (secs : Nat) : asSecs (fromSecs secs) = secs :=
  Nat.mul_div_cancel secs (by decide)

/-- `Timer` deals in whole seconds only, which are not rounded. -/
theorem roundToSecs_fromSecs (secs : Nat) : roundToSecs (fromSecs secs) = secs := by
  have hsub : subsecNanos (fromSecs secs) = 0 := Nat.mul_mod_left secs _
  rw [roundToSecs, hsub, if_neg (by decide), asSecs_fromSecs]

/-- The slots before and after a slot on the ring. -/
def before (i : Fin numOfSlots) : Fin numOfSlots := effectiveSlot (wrappingSub i 1)

def after (i : Fin numOfSlots) : Fin numOfSlots := effectiveSlot (i + 1)

theorem after_before (i : Fin numOfSlots) : after (before i) = i := by
  have hi : i.val < 128 := i.isLt
  apply Fin.ext
  simp only [after, before, val_effectiveSlot, wrappingSub]
  omega

theorem before_after (i : Fin numOfSlots) : before (after i) = i := by
  have hi : i.val < 128 := i.isLt
  apply Fin.ext
  simp only [after, before, val_effectiveSlot, wrappingSub]
  omega

theorem before_inj {i j : Fin numOfSlots} (h : before i = before j) : i = j := by
  rw [← after_before i, h, after_before]

/-- The entries queued before each slot, in ring order. -/
abbrev Chains := Fin numOfSlots → List Nat

variable {τ : Type} {s s' : Inner τ} {busy : Option (Fin numOfSlots)} {chain : Chains}
  {id : Nat} {i j k : Fin numOfSlots} {ids : List Nat} {a y : Token} {xs ys : List Token}

/-- The nodes linked up before slot `i`.  While `tick` empties the slot, the first of its
remaining entries has lost what stood before it. -/
def span (busy : Option (Fin numOfSlots)) (i : Fin numOfSlots) (ids : List Nat) :
    Option (Token × List Token) :=
  if busy = some i then
    match ids with
    | [] => none
    | id :: ids => some (.entry id, ids.map .entry)
  else some (.slot (before i), ids.map .entry)

theorem span_of_ne (h : busy ≠ some i) (ids : List Nat) :
    span busy i ids = some (.slot (before i), ids.map .entry) := by
  unfold span
  rw [if_neg h]

theorem span_cases (h : span busy i ids = some (a, xs)) :
    (a = .slot (before i) ∧ xs = ids.map .entry) ∨
      ∃ id ids', ids = id :: ids' ∧ a = .entry id ∧ xs = ids'.map .entry := by
  unfold span at h
  split at h
  · rcases ids with - | ⟨id, ids⟩
    · cases h
    · cases h
      exact Or.inr ⟨id, ids, rfl, rfl, rfl⟩
  · cases h
    exact Or.inl ⟨rfl, rfl⟩

theorem mem_span (h : span busy i ids = some (a, xs)) (hy : y ∈ a :: xs) :
    y = .slot (before i) ∨ ∃ id ∈ ids, y = .entry id := by
  rcases span_cases h with ⟨rfl, rfl⟩ | ⟨id, ids, rfl, rfl, rfl⟩
  · rcases List.mem_cons.mp hy with rfl | hy
    · exact Or.inl rfl
    · obtain ⟨j, hj, rfl⟩ := List.mem_map.mp hy
      exact Or.inr ⟨j, hj, rfl⟩
  · rcases List.mem_cons.mp hy with rfl | hy
    · exact Or.inr ⟨id, List.mem_cons_self, rfl⟩
    · obtain ⟨j, hj, rfl⟩ := List.mem_map.mp hy
      exact Or.inr ⟨j, List.mem_cons_of_mem _ hj, rfl⟩

theorem mem_of_mem_span (h : span busy i ids = some (a, xs)) {j : Nat}
    (hy : Token.entry j ∈ a :: xs) : j ∈ ids := by
  rcases mem_span h hy with heq | ⟨j', hj', heq⟩
  · cases heq
  · cases heq
    exact hj'

theorem mem_span_tail (h : span busy i ids = some (a, xs)) (hy : y ∈ xs) :
    ∃ id ∈ ids, y = .entry id := by
  rcases span_cases h with ⟨rfl, rfl⟩ | ⟨id, ids, rfl, rfl, rfl⟩
  · obtain ⟨j, hj, rfl⟩ := List.mem_map.mp hy
    exact ⟨j, hj, rfl⟩
  · obtain ⟨j, hj, rfl⟩ := List.mem_map.mp hy
    exact ⟨j, List.mem_cons_of_mem _ hj, rfl⟩

theorem nodup_map_entry (h : ids.Nodup) : (ids.map Token.entry).Nodup :=
  h.map fun _ _ heq => Token.entry.inj heq

theorem nodup_span (h : span busy i ids = some (a, xs)) (hids : ids.Nodup) :
    (a :: xs).Nodup := by
  rcases span_cases h with ⟨rfl, rfl⟩ | ⟨id, ids, rfl, rfl, rfl⟩
  · refine List.nodup_cons.mpr ⟨?_, nodup_map_entry hids⟩
    intro hmem
    obtain ⟨j, -, hj⟩ := List.mem_map.mp hmem
    cases hj
  · exact nodup_map_entry hids

theorem span_append (h : span busy i ids = some (a, xs)) (id : Nat) :
    span busy i (ids ++ [id]) = some (a, xs ++ [.entry id]) := by
  unfold span at h ⊢
  split at h
  · rename_i hbusy
    rcases ids with - | ⟨j, ids⟩
    · cases h
    · cases h
      simp [hbusy]
  · rename_i hbusy
    cases h
    simp [hbusy]

theorem span_split (hmem : id ∈ ids) (hhead : busy = some i → ids.head? ≠ some id) :
    ∃ a xs ys, span busy i ids = some (a, xs ++ .entry id :: ys) ∧
      span busy i (ids.erase id) = some (a, xs ++ ys) := by
  have hsplit : ∀ {js : List Nat}, id ∈ js → ∃ xs ys,
      js.map Token.entry = xs ++ .entry id :: ys ∧
        (js.erase id).map Token.entry = xs ++ ys := by
    intro js hjs
    obtain ⟨before, after, hnot, rfl, herase⟩ := List.exists_erase_eq hjs
    exact ⟨before.map .entry, after.map .entry, by simp, by simp [herase]⟩
  by_cases hbusy : busy = some i
  · rcases ids with - | ⟨j, ids⟩
    · cases hmem
    · have hne : j ≠ id := by
        intro heq
        exact hhead hbusy (congrArg some heq)
      obtain ⟨xs, ys, hmap, herase⟩ := hsplit ((List.mem_cons.mp hmem).resolve_left (Ne.symm hne))
      refine ⟨.entry j, xs, ys, ?_, ?_⟩
      · simp [span, hbusy, hmap]
      · simp [span, hbusy, herase, List.erase_cons_tail, hne]
  · obtain ⟨xs, ys, hmap, herase⟩ := hsplit hmem
    refine ⟨.slot (before i), xs, ys, ?_, ?_⟩
    · simp [span, hbusy, hmap]
    · simp [span, hbusy, herase]

/-- Every entry on a chain is linked where the chain says. -/
structure Linked (s : Inner τ) (busy : Option (Fin numOfSlots)) (chain : Chains) : Prop where
  nodup : ∀ i, (chain i).Nodup
  disjoint : ∀ {i j id}, id ∈ chain i → id ∈ chain j → i = j
  used : ∀ {i id}, id ∈ chain i → (s.dataOf id).isSome
  queued : ∀ {i id}, id ∈ chain i → s.prevOf (.entry id) ≠ .nil
  segment : ∀ {i a xs}, span busy i (chain i) = some (a, xs) →
    Segment s.nextOf s.prevOf a xs (.slot i)

namespace Linked

theorem apart (h : Linked s busy chain) {b : Token} (hi : span busy i (chain i) = some (a, xs))
    (hj : span busy j (chain j) = some (b, ys)) (hyi : y ∈ a :: xs) (hyj : y ∈ b :: ys) :
    i = j := by
  rcases mem_span hi hyi with rfl | ⟨id, hid, rfl⟩
  · rcases mem_span hj hyj with heq | ⟨id, -, heq⟩
    · exact before_inj (Token.slot.inj heq)
    · cases heq
  · rcases mem_span hj hyj with heq | ⟨id', hid', heq⟩
    · cases heq
    · cases heq
      exact h.disjoint hid hid'

theorem valid_of_mem (h : Linked s busy chain) (hspan : span busy i (chain i) = some (a, xs))
    (hy : y ∈ a :: xs) : s.Valid y := by
  rcases mem_span hspan hy with rfl | ⟨id, hid, rfl⟩
  · trivial
  · exact h.used hid

theorem valid_prev (h : Linked s busy chain) (hspan : span busy k (chain k) = some (a, xs)) :
    s.Valid (s.prevOf (.slot k)) :=
  h.valid_of_mem hspan (h.segment hspan).prev_mem

theorem mem_pushed {j : Nat} (hj : j ∈ Function.update chain k (chain k ++ [id]) i) :
    (i = k ∧ j = id) ∨ j ∈ chain i := by
  by_cases hi : i = k
  · subst hi
    rw [Function.update_self] at hj
    rcases List.mem_append.mp hj with hj | hj
    · exact Or.inr hj
    · exact Or.inl ⟨rfl, List.mem_singleton.mp hj⟩
  · rw [Function.update_of_ne hi] at hj
    exact Or.inr hj

theorem nodup_pushed (h : Linked s busy chain) (hfree : ∀ i, id ∉ chain i)
    (i : Fin numOfSlots) : (Function.update chain k (chain k ++ [id]) i).Nodup := by
  by_cases hi : i = k
  · subst hi
    rw [Function.update_self]
    refine List.nodup_append.mpr ⟨h.nodup i, List.nodup_singleton id, ?_⟩
    rintro j hj j' hj' rfl
    rw [List.mem_singleton.mp hj'] at hj
    exact hfree i hj
  · rw [Function.update_of_ne hi]
    exact h.nodup i

theorem segment_pushed (h : Linked s busy chain) (hspan : span busy k (chain k) = some (a, xs))
    (hfree : ∀ i, id ∉ chain i) (hlinked : s.LinkedIn s' id k) :
    Segment s'.nextOf s'.prevOf a (xs ++ [.entry id]) (.slot k) := by
  have hsegment := h.segment hspan
  have hnot : Token.entry id ∉ a :: xs := fun hmem => hfree k (mem_of_mem_span hspan hmem)
  refine hsegment.push (nodup_span hspan (h.nodup k)) ?_ ?_ ?_ ?_ ?_ ?_
  · rw [hlinked.next, if_pos rfl]
  · rw [hlinked.prev, if_neg (by simp), if_pos rfl]
  · rw [hlinked.next, if_neg, if_pos rfl]
    intro heq
    exact hnot (heq ▸ hsegment.prev_mem)
  · rw [hlinked.prev, if_pos rfl]
  · intro y hy hne
    rw [hlinked.next, if_neg hne, if_neg]
    rintro rfl
    exact hnot hy
  · intro y hy
    obtain ⟨j, -, rfl⟩ := mem_span_tail hspan hy
    rw [hlinked.prev, if_neg (by simp), if_neg]
    intro heq
    exact hnot (heq ▸ List.mem_cons_of_mem a hy)

theorem segment_push_of_ne (h : Linked s busy chain) {b : Token}
    (hspan : span busy k (chain k) = some (a, xs)) (hfree : ∀ i, id ∉ chain i)
    (hlinked : s.LinkedIn s' id k) (hik : i ≠ k) (hi : span busy i (chain i) = some (b, ys)) :
    Segment s'.nextOf s'.prevOf b ys (.slot i) := by
  have hnot : Token.entry id ∉ b :: ys := fun hmem => hfree i (mem_of_mem_span hi hmem)
  refine (h.segment hi).congr ?_ ?_
  · intro y hy
    rw [hlinked.next, if_neg, if_neg]
    · rintro rfl
      exact hnot hy
    · rintro rfl
      exact hik (h.apart hi hspan hy (h.segment hspan).prev_mem)
  · intro y hy
    rw [hlinked.prev, if_neg, if_neg]
    · rintro rfl
      rcases List.mem_append.mp hy with hy | hy
      · exact hnot (List.mem_cons_of_mem _ hy)
      · simp at hy
    · rintro rfl
      rcases List.mem_append.mp hy with hy | hy
      · obtain ⟨j, -, heq⟩ := mem_span_tail hi hy
        cases heq
      · exact hik (Token.slot.inj (List.mem_singleton.mp hy)).symm

theorem push (h : Linked s busy chain) (hspan : span busy k (chain k) = some (a, xs))
    (hfree : ∀ i, id ∉ chain i) (hlinked : s.LinkedIn s' id k)
    (hused : ∀ {j}, j = id ∨ (s.dataOf j).isSome → (s'.dataOf j).isSome) :
    Linked s' busy (Function.update chain k (chain k ++ [id])) := by
  refine ⟨h.nodup_pushed hfree, ?_, ?_, ?_, ?_⟩
  · intro i i' j hi hi'
    rcases mem_pushed hi with ⟨rfl, rfl⟩ | hold
    · rcases mem_pushed hi' with ⟨rfl, -⟩ | hold'
      · rfl
      · exact absurd hold' (hfree i')
    · rcases mem_pushed hi' with ⟨rfl, rfl⟩ | hold'
      · exact absurd hold (hfree i)
      · exact h.disjoint hold hold'
  · intro i j hj
    rcases mem_pushed hj with ⟨-, rfl⟩ | hj
    · exact hused (Or.inl rfl)
    · exact hused (Or.inr (h.used hj))
  · intro i j hj
    rw [hlinked.prev, if_neg (by simp)]
    split
    · intro hnil
      have hvalid := h.valid_prev hspan
      rw [hnil] at hvalid
      exact hvalid
    · rename_i hne
      rcases mem_pushed hj with ⟨-, rfl⟩ | hj
      · exact absurd rfl hne
      · exact h.queued hj
  · intro i b ys hi
    by_cases hik : i = k
    · subst hik
      rw [Function.update_self, span_append hspan id] at hi
      cases hi
      exact h.segment_pushed hspan hfree hlinked
    · rw [Function.update_of_ne hik] at hi
      exact h.segment_push_of_ne hspan hfree hlinked hik hi

theorem neighbours (h : Linked s busy chain) (hmem : id ∈ chain k)
    (hhead : busy = some k → (chain k).head? ≠ some id) :
    s.Valid (s.prevOf (.entry id)) ∧ s.Valid (s.nextOf (.entry id)) ∧
      s.prevOf (.entry id) ≠ .entry id ∧ s.nextOf (.entry id) ≠ .entry id := by
  obtain ⟨a, xs, ys, hspan, -⟩ := span_split hmem hhead
  obtain ⟨hleft, hright⟩ := segment_append.mp (h.segment hspan)
  have hnodup := nodup_span hspan (h.nodup k)
  rw [← List.cons_append, List.nodup_append] at hnodup
  have hnext := List.mem_of_mem_head? (Option.mem_def.mpr hright.next_head)
  have hprevmem : s.prevOf (.entry id) ∈ a :: (xs ++ .entry id :: ys) := by
    rw [← List.cons_append]
    exact List.mem_append_left _ hleft.prev_mem
  refine ⟨h.valid_of_mem hspan hprevmem, ?_, ?_, ?_⟩
  · rcases List.mem_append.mp hnext with hnext | hnext
    · apply h.valid_of_mem hspan
      simp [hnext]
    · rw [List.mem_singleton.mp hnext]
      trivial
  · exact hnodup.2.2 _ hleft.prev_mem _ List.mem_cons_self
  · intro heq
    rw [heq] at hnext
    rcases List.mem_append.mp hnext with hnext | hnext
    · exact (List.nodup_cons.mp hnodup.2.1).1 hnext
    · simp at hnext

theorem mem_erased (h : Linked s busy chain) (hmem : id ∈ chain k) {j : Nat}
    (hj : j ∈ Function.update chain k ((chain k).erase id) i) : j ∈ chain i ∧ j ≠ id := by
  by_cases hi : i = k
  · subst hi
    rw [Function.update_self, (h.nodup i).mem_erase_iff] at hj
    exact ⟨hj.2, hj.1⟩
  · rw [Function.update_of_ne hi] at hj
    refine ⟨hj, ?_⟩
    rintro rfl
    exact hi (h.disjoint hj hmem)

theorem nodup_erased (h : Linked s busy chain) (i : Fin numOfSlots) :
    (Function.update chain k ((chain k).erase id) i).Nodup := by
  by_cases hi : i = k
  · subst hi
    rw [Function.update_self]
    exact (h.nodup i).erase id
  · rw [Function.update_of_ne hi]
    exact h.nodup i

theorem segment_unlinked (h : Linked s busy chain) (hmem : id ∈ chain k)
    (hhead : busy = some k → (chain k).head? ≠ some id) (hun : s.Unlinked s' id)
    (hspan : span busy k (chain k) = some (a, xs ++ .entry id :: ys)) :
    Segment s'.nextOf s'.prevOf a (xs ++ ys) (.slot k) := by
  have hstart := nodup_span hspan (h.nodup k)
  have hstop : (xs ++ Token.entry id :: ys ++ [Token.slot k]).Nodup := by
    refine List.nodup_append.mpr ⟨(List.nodup_cons.mp hstart).2, List.nodup_singleton _, ?_⟩
    rintro y hy z hz rfl
    obtain ⟨j, -, rfl⟩ := mem_span_tail hspan hy
    simp at hz
  have hinside : ∀ y ∈ xs ++ ys, y ≠ .entry id := by
    rintro y hy rfl
    exact (List.nodup_cons.mp (List.nodup_middle.mp (List.nodup_cons.mp hstart).2)).1 hy
  obtain ⟨-, -, hprev, hnext⟩ := h.neighbours hmem hhead
  refine (h.segment hspan).unlink hstart hstop ?_ ?_ ?_ ?_
  · rw [hun.next, if_pos rfl]
    exact hprev
  · rw [hun.prev, if_pos rfl]
    exact hnext
  · intro y hy hne
    rw [hun.next, if_neg hne]
    rcases List.mem_cons.mp hy with rfl | hy
    · rintro rfl
      exact (List.nodup_cons.mp hstart).1 (by simp)
    · exact hinside y hy
  · intro y hy hne
    rw [hun.prev, if_neg hne]
    rcases List.mem_append.mp hy with hy | hy
    · exact hinside y hy
    · rw [List.mem_singleton.mp hy]
      simp

theorem segment_unlink_of_ne (h : Linked s busy chain) {b : Token} {zs : List Token}
    (hun : s.Unlinked s' id)
    (hspan : span busy k (chain k) = some (a, xs ++ .entry id :: ys)) (hik : i ≠ k)
    (hi : span busy i (chain i) = some (b, zs)) : Segment s'.nextOf s'.prevOf b zs (.slot i) := by
  obtain ⟨hleft, hright⟩ := segment_append.mp (h.segment hspan)
  have hnot : ∀ y ∈ b :: zs, y ≠ .entry id := by
    rintro y hy rfl
    exact hik (h.apart hi hspan hy (by simp))
  refine (h.segment hi).congr ?_ ?_
  · intro y hy
    rw [hun.next y (hnot y hy), if_neg]
    rintro rfl
    refine hik (h.apart hi hspan hy ?_)
    rw [← List.cons_append]
    exact List.mem_append_left _ hleft.prev_mem
  · intro y hy
    rw [hun.prev, if_neg]
    · rintro rfl
      rcases List.mem_append.mp (List.mem_of_mem_head? (Option.mem_def.mpr hright.next_head))
        with hnextmem | hslot
      · rcases List.mem_append.mp hy with hy | hy
        · exact hik (h.apart hi hspan (List.mem_cons_of_mem _ hy) (by simp [hnextmem]))
        · obtain ⟨j, -, heq⟩ := mem_span_tail hspan (List.mem_append_right xs
            (List.mem_cons_of_mem _ hnextmem))
          rw [heq] at hy
          simp at hy
      · rw [List.mem_singleton.mp hslot] at hy
        rcases List.mem_append.mp hy with hy | hy
        · obtain ⟨j, -, heq⟩ := mem_span_tail hi hy
          cases heq
        · exact hik (Token.slot.inj (List.mem_singleton.mp hy)).symm
    · rcases List.mem_append.mp hy with hy | hy
      · exact hnot y (List.mem_cons_of_mem b hy)
      · rw [List.mem_singleton.mp hy]
        simp

theorem unlink (h : Linked s busy chain) (hmem : id ∈ chain k)
    (hhead : busy = some k → (chain k).head? ≠ some id) (hun : s.Unlinked s' id)
    (hused : ∀ {j}, j ≠ id → (s.dataOf j).isSome → (s'.dataOf j).isSome) :
    Linked s' busy (Function.update chain k ((chain k).erase id)) := by
  obtain ⟨a, xs, ys, hspan, herase⟩ := span_split hmem hhead
  refine ⟨h.nodup_erased, ?_, ?_, ?_, ?_⟩
  · intro i i' j hi hi'
    exact h.disjoint (h.mem_erased hmem hi).1 (h.mem_erased hmem hi').1
  · intro i j hj
    exact hused (h.mem_erased hmem hj).2 (h.used (h.mem_erased hmem hj).1)
  · intro i j hj
    obtain ⟨hj, hne⟩ := h.mem_erased hmem hj
    rw [hun.prev _ (by simpa using hne)]
    split
    · exact h.queued hmem
    · exact h.queued hj
  · intro i b zs hi
    by_cases hik : i = k
    · subst hik
      rw [Function.update_self, herase] at hi
      cases hi
      exact h.segment_unlinked hmem hhead hun hspan
    · rw [Function.update_of_ne hik] at hi
      exact h.segment_unlink_of_ne hun hspan hik hi

theorem shift (h : Linked s (some k) chain) (hchain : chain k = id :: ids)
    (hnext : ∀ z, z ≠ .entry id → s'.nextOf z = s.nextOf z)
    (hprev : ∀ z, z ≠ .entry id → s'.prevOf z = s.prevOf z)
    (hused : ∀ {j}, j ≠ id → (s.dataOf j).isSome → (s'.dataOf j).isSome) :
    Linked s' (some k) (Function.update chain k ids) := by
  have hmem : id ∈ chain k := by
    rw [hchain]
    exact List.mem_cons_self
  have herase : ids = (chain k).erase id := by
    rw [hchain, List.erase_cons_head]
  have hcases : ∀ {i j}, j ∈ Function.update chain k ids i → j ∈ chain i ∧ j ≠ id := by
    intro i j hj
    rw [herase] at hj
    exact h.mem_erased hmem hj
  refine ⟨?_, ?_, ?_, ?_, ?_⟩
  · rw [herase]
    exact h.nodup_erased
  · intro i i' j hi hi'
    exact h.disjoint (hcases hi).1 (hcases hi').1
  · intro i j hj
    exact hused (hcases hj).2 (h.used (hcases hj).1)
  · intro i j hj
    rw [hprev _ (by simpa using (hcases hj).2)]
    exact h.queued (hcases hj).1
  · intro i b zs hi
    have hmem : ∀ y ∈ b :: zs, y ≠ .entry id := by
      rintro y hy rfl
      exact (hcases (mem_of_mem_span hi hy)).2 rfl
    have hsegment : Segment s.nextOf s.prevOf b zs (.slot i) := by
      by_cases hik : i = k
      · subst hik
        rw [Function.update_self] at hi
        rcases ids with - | ⟨j, ids⟩
        · simp [span] at hi
        · have hspan : span (some i) i (chain i) =
              some (.entry id, .entry j :: ids.map .entry) := by
            simp [span, hchain]
          simp only [span, if_true, Option.some.injEq, Prod.mk.injEq] at hi
          obtain ⟨rfl, rfl⟩ := hi
          exact (h.segment hspan).2.2
      · rw [Function.update_of_ne hik] at hi
        exact h.segment hi
    refine hsegment.congr ?_ ?_
    · intro y hy
      exact hnext y (hmem y hy)
    · intro y hy
      rcases List.mem_append.mp hy with hy | hy
      · exact hprev y (hmem y (List.mem_cons_of_mem b hy))
      · rw [List.mem_singleton.mp hy]
        exact hprev _ (by simp)

theorem push_frame (h : Linked s busy chain) (hspan : span busy k (chain k) = some (a, xs))
    (hlinked : s.LinkedIn s' id k) {j : Nat} (hj : ∀ i, j ∉ chain i) (hne : j ≠ id) :
    s'.prevOf (.entry j) = s.prevOf (.entry j) ∧ s'.nextOf (.entry j) = s.nextOf (.entry j) := by
  have hne' : Token.entry j ≠ .entry id := by simpa using hne
  refine ⟨?_, ?_⟩
  · rw [hlinked.prev, if_neg (by simp), if_neg hne']
  · rw [hlinked.next, if_neg, if_neg hne']
    intro heq
    exact hj k (mem_of_mem_span hspan (heq ▸ (h.segment hspan).prev_mem))

theorem unlink_frame (h : Linked s busy chain) (hmem : id ∈ chain k)
    (hhead : busy = some k → (chain k).head? ≠ some id) (hun : s.Unlinked s' id) {j : Nat}
    (hj : ∀ i, j ∉ chain i) :
    s'.prevOf (.entry j) = s.prevOf (.entry j) ∧ s'.nextOf (.entry j) = s.nextOf (.entry j) := by
  obtain ⟨a, xs, ys, hspan, -⟩ := span_split hmem hhead
  obtain ⟨hleft, hright⟩ := segment_append.mp (h.segment hspan)
  have hnot : Token.entry j ∉ a :: (xs ++ .entry id :: ys) :=
    fun hy => hj k (mem_of_mem_span hspan hy)
  have hne : Token.entry j ≠ .entry id := by
    rintro heq
    cases heq
    exact hj k hmem
  refine ⟨?_, ?_⟩
  · rw [hun.prev _ hne, if_neg]
    intro heq
    have hnextmem := List.mem_of_mem_head? (Option.mem_def.mpr hright.next_head)
    rw [← heq] at hnextmem
    rcases List.mem_append.mp hnextmem with hnextmem | hnextmem
    · exact hnot (by simp [hnextmem])
    · simp at hnextmem
  · rw [hun.next _ hne, if_neg]
    intro heq
    apply hnot
    rw [heq, ← List.cons_append]
    exact List.mem_append_left _ hleft.prev_mem

end Linked

/-- The well-formed wheels: the chains are linked, and an entry off the chains has no
links.  `busy` is the slot that `tick` is emptying. -/
structure Ring (s : Inner τ) (busy : Option (Fin numOfSlots)) (chain : Chains) : Prop
    extends Linked s busy chain where
  idle : ∀ {id}, (∀ i, id ∉ chain i) →
    s.prevOf (.entry id) = .nil ∧ s.nextOf (.entry id) = .nil
  current : ∀ {k}, busy = some k → k = after s.currentSlot

theorem slotAfter_eq_after (s : Inner τ) (secs : Nat) :
    s.slotAfter secs = after s.currentSlot ↔ secs = 1 := by
  have hc : s.currentSlot.val < 128 := s.currentSlot.isLt
  have hmask : mask = 127 := rfl
  rw [← Fin.val_inj, Inner.slotAfter, after, val_effectiveSlot, val_effectiveSlot, wrappingAdd]
  rcases Nat.lt_or_ge mask secs with hsecs | hsecs
  · rw [if_pos hsecs]
    omega
  · rw [if_neg (Nat.not_lt_of_ge hsecs)]
    omega

theorem span_of_room (h : busy = some k → chain k ≠ []) :
    ∃ a xs, span busy k (chain k) = some (a, xs) := by
  unfold span
  split
  · rename_i hbusy
    rcases hk : chain k with - | ⟨id, ids⟩
    · exact absurd hk (h hbusy)
    · exact ⟨_, _, rfl⟩
  · exact ⟨_, _, rfl⟩

/-- The first node of a chain, or the slot behind it. -/
def firstToken (k : Fin numOfSlots) : List Nat → Token
  | [] => .slot k
  | id :: _ => .entry id

theorem next_start (h : Segment s.nextOf s.prevOf a (ids.map .entry) (.slot k)) :
    s.nextOf a = firstToken k ids := by
  rcases ids with - | ⟨id, ids⟩
  · exact h.1
  · exact h.1

namespace Ring

theorem new : Ring (Inner.new : Inner τ) none fun _ => [] := by
  have hempty : ∀ id, (Inner.new : Inner τ).entries.get id = none := Slab.get_empty
  refine ⟨⟨?_, ?_, ?_, ?_, ?_⟩, ?_, ?_⟩
  · intro i
    exact List.nodup_nil
  · intro i j id hid
    cases hid
  · intro i id hid
    cases hid
  · intro i id hid
    cases hid
  · intro i a xs hspan
    cases hspan
    exact ⟨congrArg Token.slot (after_before i), rfl⟩
  · intro id _
    simp [Inner.prevOf, Inner.nextOf, hempty]
  · intro k hk
    cases hk

theorem isExpired_of_mem (h : Ring s busy chain) (hmem : id ∈ chain i) :
    s.isExpired id = .ok false := by
  refine Inner.isExpired_iff.mpr ⟨h.used hmem, ?_⟩
  simp [h.queued hmem]

theorem exists_mem (h : Ring s busy chain) (hexpired : s.isExpired id = .ok false) :
    ∃ i, id ∈ chain i := by
  by_contra hnone
  have hprev := (h.idle fun i hi => hnone ⟨i, hi⟩).1
  exact absurd ((Inner.isExpired_iff.mp hexpired).2.mpr hprev) Bool.false_ne_true

theorem push (h : Ring s busy chain) (hroom : busy = some k → chain k ≠ [])
    (hfree : ∀ i, id ∉ chain i) (hlinked : s.LinkedIn s' id k)
    (hused : ∀ {j}, j = id ∨ (s.dataOf j).isSome → (s'.dataOf j).isSome) :
    Ring s' busy (Function.update chain k (chain k ++ [id])) := by
  obtain ⟨a, xs, hspan⟩ := span_of_room hroom
  refine ⟨h.toLinked.push hspan hfree hlinked hused, ?_, ?_⟩
  · intro j hj
    have hjk : j ∉ chain k ++ [id] := by
      have := hj k
      rwa [Function.update_self] at this
    have hj' : ∀ i, j ∉ chain i := by
      intro i
      by_cases hi : i = k
      · subst hi
        exact fun hmem => hjk (List.mem_append_left _ hmem)
      · have := hj i
        rwa [Function.update_of_ne hi] at this
    have hne : j ≠ id := by
      rintro rfl
      exact hjk (by simp)
    obtain ⟨hprev, hnext⟩ := h.push_frame hspan hlinked hj' hne
    rw [hprev, hnext]
    exact h.idle hj'
  · intro k' hbusy
    rw [hlinked.current]
    exact h.current hbusy

theorem schedule (h : Ring s busy chain) {now : Instant} {dur : Duration} (task : τ)
    (hfits : mask < asSecs dur → Fits now dur)
    (hroom : busy = some (s.slotAfter (asSecs dur)) → chain (s.slotAfter (asSecs dur)) ≠ []) :
    ∃ id s', s.schedule now dur task = .ok (id, s') ∧ s.dataOf id = none ∧
      Ring s' busy (Function.update chain (s.slotAfter (asSecs dur))
        (chain (s.slotAfter (asSecs dur)) ++ [id])) ∧
      s'.currentSlot = s.currentSlot ∧
      ∀ j, s'.dataOf j =
        if j = id then some (task, if mask < asSecs dur then some (now + dur) else none)
        else s.dataOf j := by
  obtain ⟨a, xs, hspan⟩ := span_of_room hroom
  obtain ⟨id, s', hok, hfresh, hlinked, hdata⟩ :=
    Inner.schedule_ok task hfits (h.valid_prev hspan)
  refine ⟨id, s', hok, hfresh, h.push hroom ?_ hlinked ?_, hlinked.current, hdata⟩
  · intro i hmem
    have := h.used hmem
    rw [hfresh] at this
    cases this
  · intro j hj
    rw [hdata]
    split
    · rfl
    · rename_i hne
      exact hj.resolve_left hne

theorem requeue (h : Ring s busy chain) {now : Instant} {dur : Duration} {exp : Option Instant}
    (hfits : exp = none → mask < roundToSecs dur → Fits now dur) {task : τ}
    {old : Option Instant} (hget : s.dataOf id = some (task, old))
    (hfree : ∀ i, id ∉ chain i)
    (hroom : busy = some (s.slotAfter (roundToSecs dur)) →
      chain (s.slotAfter (roundToSecs dur)) ≠ []) :
    ∃ s', s.rescheduleInternal now dur exp id = .ok s' ∧
      Ring s' busy (Function.update chain (s.slotAfter (roundToSecs dur))
        (chain (s.slotAfter (roundToSecs dur)) ++ [id])) ∧
      s'.currentSlot = s.currentSlot ∧
      ∀ j, s'.dataOf j =
        if j = id then some (task, Inner.parked now dur exp old) else s.dataOf j := by
  obtain ⟨a, xs, hspan⟩ := span_of_room hroom
  obtain ⟨s', hok, hlinked, hdata⟩ :=
    Inner.rescheduleInternal_ok hfits hget (h.valid_prev hspan)
  refine ⟨s', hok, h.push hroom hfree hlinked ?_, hlinked.current, hdata⟩
  intro j hj
  rw [hdata]
  split
  · rfl
  · rename_i hne
    exact hj.resolve_left hne

/-- The chains without an entry. -/
def without (chain : Chains) (id : Nat) : Chains := fun i => (chain i).erase id

theorem mem_without (h : Linked s busy chain) {j : Nat} :
    j ∈ without chain id i ↔ j ≠ id ∧ j ∈ chain i :=
  (h.nodup i).mem_erase_iff

theorem without_of_mem (h : Linked s busy chain) (hmem : id ∈ chain k) :
    without chain id = Function.update chain k ((chain k).erase id) := by
  funext i
  by_cases hi : i = k
  · subst hi
    rw [Function.update_self, without]
  · rw [Function.update_of_ne hi]
    apply List.erase_of_not_mem
    intro hid
    exact hi (h.disjoint hid hmem)

theorem without_of_not_mem (hfree : ∀ i, id ∉ chain i) : without chain id = chain := by
  funext i
  exact List.erase_of_not_mem (hfree i)

theorem cancel (h : Ring s busy chain) (hused : (s.dataOf id).isSome)
    (hhead : ∀ {k}, busy = some k → (chain k).head? ≠ some id) :
    ∃ s', s.cancel id = .ok s' ∧ Ring s' busy (without chain id) ∧
      s'.currentSlot = s.currentSlot ∧
      ∀ j, s'.dataOf j = if j = id then none else s.dataOf j := by
  obtain ⟨entry, hget⟩ := Inner.exists_entry hused
  by_cases hqueued : ∃ k, id ∈ chain k
  · obtain ⟨k, hmem⟩ := hqueued
    obtain ⟨hprev, hnext, hpne, hnne⟩ := h.neighbours hmem (fun hb => hhead hb)
    rw [Inner.prevOf_entry hget] at hprev hpne
    rw [Inner.nextOf_entry hget] at hnext hnne
    obtain ⟨s', hok, hun, hnextnil, hprevnil, hdata⟩ :=
      Inner.cancel_ok hget hprev hnext hpne hnne
    refine ⟨s', hok, ⟨?_, ?_, ?_⟩, hun.current, hdata⟩
    · rw [without_of_mem h.toLinked hmem]
      refine h.toLinked.unlink hmem (fun hb => hhead hb) hun ?_
      intro j hne hj
      rwa [hdata, if_neg hne]
    · intro j hj
      by_cases hne : j = id
      · subst hne
        exact ⟨hprevnil, hnextnil⟩
      · have hfree : ∀ i, j ∉ chain i :=
          fun i hi => hj i ((mem_without h.toLinked).mpr ⟨hne, hi⟩)
        obtain ⟨hprevj, hnextj⟩ := h.unlink_frame hmem (fun hb => hhead hb) hun hfree
        rw [hprevj, hnextj]
        exact h.idle hfree
    · intro k' hbusy
      rw [hun.current]
      exact h.current hbusy
  · have hfree : ∀ i, id ∉ chain i := fun i hi => hqueued ⟨i, hi⟩
    have hprev := (h.idle hfree).1
    rw [Inner.prevOf_entry hget] at hprev
    obtain ⟨s', hok, hcurrent, hnext', hprev', hdata⟩ := Inner.cancel_expired hget hprev
    -- nothing but the slab entry, whose links were nil, has changed
    have hsame : (∀ z, s'.nextOf z = s.nextOf z) ∧ ∀ z, s'.prevOf z = s.prevOf z := by
      refine ⟨?_, ?_⟩
      · intro z
        rw [hnext']
        split
        · rename_i hz
          rw [hz, (h.idle hfree).2]
        · rfl
      · intro z
        rw [hprev']
        split
        · rename_i hz
          rw [hz, (h.idle hfree).1]
        · rfl
    refine ⟨s', hok, ?_, hcurrent, hdata⟩
    rw [without_of_not_mem hfree]
    refine ⟨⟨h.nodup, h.disjoint, ?_, ?_, ?_⟩, ?_, ?_⟩
    · intro i j hj
      rw [hdata, if_neg]
      · exact h.used hj
      · rintro rfl
        exact hfree i hj
    · intro i j hj
      rw [hsame.2]
      exact h.queued hj
    · intro i a xs hspan
      exact (h.segment hspan).congr (fun y _ => hsame.1 y) fun y _ => hsame.2 y
    · intro j hj
      rw [hsame.1, hsame.2]
      exact h.idle hj
    · intro k' hbusy
      rw [hcurrent]
      exact h.current hbusy

theorem reschedule (h : Ring s busy chain) {now : Instant} {dur : Duration}
    (hfits : mask < roundToSecs dur → Fits now dur) (hmem : id ∈ chain i)
    (hhead : ∀ {k}, busy = some k → (chain k).head? ≠ some id)
    (hroom : busy = some (s.slotAfter (roundToSecs dur)) →
      without chain id (s.slotAfter (roundToSecs dur)) ≠ []) :
    ∃ task old s', s.dataOf id = some (task, old) ∧ s.reschedule now dur id = .ok s' ∧
      Ring s' busy (Function.update (without chain id) (s.slotAfter (roundToSecs dur))
        (without chain id (s.slotAfter (roundToSecs dur)) ++ [id])) ∧
      s'.currentSlot = s.currentSlot ∧
      ∀ j, s'.dataOf j =
        if j = id then some (task, Inner.parked now dur none old) else s.dataOf j := by
  obtain ⟨entry, hget⟩ := Inner.exists_entry (h.used hmem)
  obtain ⟨hprev, hnext, -, -⟩ := h.neighbours hmem (fun hb => hhead hb)
  rw [Inner.prevOf_entry hget] at hprev
  rw [Inner.nextOf_entry hget] at hnext
  obtain ⟨t, heq, hun, htdata⟩ := Inner.reschedule_eq now dur hget hprev hnext
  have hlinked : Linked t busy (without chain id) := by
    rw [without_of_mem h.toLinked hmem]
    refine h.toLinked.unlink hmem (fun hb => hhead hb) hun ?_
    intro j _ hj
    rwa [htdata]
  have hslot : t.slotAfter (roundToSecs dur) = s.slotAfter (roundToSecs dur) := by
    rw [Inner.slotAfter, hun.current, Inner.slotAfter]
  rw [← hslot] at hroom ⊢
  obtain ⟨a, xs, hspan⟩ := span_of_room hroom
  have hdata : t.dataOf id = some (entry.task, entry.expiration) := by
    rw [htdata, Inner.dataOf_entry hget]
  obtain ⟨s', hok, hlinkedIn, hdata'⟩ :=
    Inner.rescheduleInternal_ok (fun _ => hfits) hdata (hlinked.valid_prev hspan)
  have hfree : ∀ i, id ∉ without chain id i :=
    fun i hid => ((mem_without h.toLinked).mp hid).1 rfl
  refine ⟨_, _, s', Inner.dataOf_entry hget, heq.trans hok,
    ⟨hlinked.push hspan hfree hlinkedIn ?_, ?_, ?_⟩, hlinkedIn.current.trans hun.current, ?_⟩
  · intro j hj
    rw [hdata']
    split
    · rfl
    · rename_i hne
      exact hj.resolve_left hne
  · intro j hj
    have hne : j ≠ id := by
      rintro rfl
      have := hj (t.slotAfter (roundToSecs dur))
      rw [Function.update_self] at this
      exact this (by simp)
    have hold : ∀ i, j ∉ without chain id i := by
      intro i hi
      apply hj i
      by_cases hik : i = t.slotAfter (roundToSecs dur)
      · subst hik
        rw [Function.update_self]
        exact List.mem_append_left _ hi
      · rwa [Function.update_of_ne hik]
    have hold' : ∀ i, j ∉ chain i :=
      fun i hi => hold i ((mem_without h.toLinked).mpr ⟨hne, hi⟩)
    obtain ⟨hprev', hnext'⟩ := hlinked.push_frame hspan hlinkedIn hold hne
    obtain ⟨hprev, hnext⟩ := h.unlink_frame hmem (fun hb => hhead hb) hun hold'
    rw [hprev', hprev, hnext', hnext]
    exact h.idle hold'
  · intro k hbusy
    rw [hlinkedIn.current, hun.current]
    exact h.current hbusy
  · intro j
    rw [hdata', htdata]

theorem reschedule_panics (h : Ring s busy chain) {now : Instant} {dur : Duration}
    (hfits : ¬ (mask < roundToSecs dur → Fits now dur)) (hmem : id ∈ chain i)
    (hhead : ∀ {k}, busy = some k → (chain k).head? ≠ some id) :
    s.reschedule now dur id = .error .panic := by
  obtain ⟨entry, hget⟩ := Inner.exists_entry (h.used hmem)
  obtain ⟨hprev, hnext, -, -⟩ := h.neighbours hmem (fun hb => hhead hb)
  rw [Inner.prevOf_entry hget] at hprev
  rw [Inner.nextOf_entry hget] at hnext
  obtain ⟨t, heq, -, -⟩ := Inner.reschedule_eq now dur hget hprev hnext
  exact heq.trans (t.rescheduleInternal_panics id hfits)

/-- `tick` takes the first entry of the slot it empties off its links. -/
theorem detach (h : Ring s (some k) chain) (hchain : chain k = id :: ids) :
    ∃ task exp s', s.dataOf id = some (task, exp) ∧ s.nextOf (.entry id) = firstToken k ids ∧
      s.detach id = .ok (firstToken k ids, exp, task, s') ∧
      Ring s' (some k) (Function.update chain k ids) ∧ s'.currentSlot = s.currentSlot ∧
      ∀ j, s'.dataOf j = if j = id then some (task, none) else s.dataOf j := by
  have hmem : id ∈ chain k := by
    rw [hchain]
    exact List.mem_cons_self
  obtain ⟨entry, hget⟩ := Inner.exists_entry (h.used hmem)
  obtain ⟨s', hok, hcurrent, hnext, hprev, hdata⟩ := Inner.detach_ok hget
  have hspan : span (some k) k (chain k) = some (.entry id, ids.map .entry) := by
    simp [span, hchain]
  have hfirst := next_start (h.segment hspan)
  rw [← Inner.nextOf_entry hget, hfirst] at hok
  refine ⟨entry.task, entry.expiration, s', Inner.dataOf_entry hget, hfirst, hok, ?_, hcurrent,
    hdata⟩
  refine ⟨h.toLinked.shift hchain ?_ ?_ ?_, ?_, ?_⟩
  · intro z hz
    rw [hnext, if_neg hz]
  · intro z hz
    rw [hprev, if_neg hz]
  · intro j hne hj
    rwa [hdata, if_neg hne]
  · intro j hj
    rw [hnext, hprev]
    split
    · exact ⟨rfl, rfl⟩
    · rename_i hne
      apply h.idle
      intro i hi
      by_cases hik : i = k
      · subst hik
        rw [hchain] at hi
        have := hj i
        rw [Function.update_self] at this
        exact this ((List.mem_cons.mp hi).resolve_left (by simpa using hne))
      · have := hj i
        rw [Function.update_of_ne hik] at this
        exact this hi
  · intro k' hbusy
    rw [hcurrent]
    exact h.current hbusy

theorem next_current (h : Ring s none chain) :
    (s.slots s.currentSlot).next =
      firstToken (after s.currentSlot) (chain (after s.currentSlot)) := by
  have hspan : span none (after s.currentSlot) (chain (after s.currentSlot)) =
      some (.slot s.currentSlot, (chain (after s.currentSlot)).map .entry) := by
    rw [span_of_ne (by simp), before_after]
  exact next_start (h.segment hspan)

/-- `tick` starts on the slot after the current one. -/
theorem enter (h : Ring s none chain) (hk : k = after s.currentSlot) :
    Ring s (some k) chain := by
  refine ⟨⟨h.nodup, h.disjoint, h.used, h.queued, ?_⟩, h.idle, ?_⟩
  · intro i a xs hi
    by_cases hik : i = k
    · subst hik
      rcases hchain : chain i with - | ⟨id, ids⟩
      · simp [span, hchain] at hi
      · have hspan : span none i (chain i) =
            some (.slot (before i), .entry id :: ids.map .entry) := by
          simp [span, hchain]
        simp only [span, hchain, if_true, Option.some.injEq, Prod.mk.injEq] at hi
        obtain ⟨rfl, rfl⟩ := hi
        exact (h.segment hspan).2.2
    · apply h.segment
      rw [← hi, span_of_ne (by simp), span_of_ne]
      intro heq
      exact hik (Option.some.inj heq).symm
  · intro k' hbusy
    rw [← Option.some.inj hbusy, hk]

/-- An empty slot is passed by at once. -/
theorem pass (h : Ring s none chain) (idx : Fin numOfSlots) :
    Ring { s with currentSlot := idx } none chain := by
  have hnext : ∀ z, Inner.nextOf { s with currentSlot := idx } z = s.nextOf z := by
    rintro (id | i | -) <;> rfl
  have hprev : ∀ z, Inner.prevOf { s with currentSlot := idx } z = s.prevOf z := by
    rintro (id | i | -) <;> rfl
  refine ⟨⟨h.nodup, h.disjoint, fun hid => h.used hid, ?_, ?_⟩, ?_, ?_⟩
  · intro i id hid
    rw [hprev]
    exact h.queued hid
  · intro i a xs hspan
    exact (h.segment hspan).congr (fun y _ => hnext y) fun y _ => hprev y
  · intro id hid
    rw [hnext, hprev]
    exact h.idle hid
  · intro k hk
    cases hk

/-- `tick` ends by joining the slots around the emptied one. -/
theorem close (h : Ring s (some k) chain) (hchain : chain k = []) :
    Ring (s.closeSlot s.currentSlot k) none chain := by
  have hk := h.current rfl
  have hbefore : before k = s.currentSlot := by
    rw [hk, before_after]
  refine ⟨⟨h.nodup, h.disjoint, fun hid => h.used hid, ?_, ?_⟩, ?_, ?_⟩
  · intro i id hid
    rw [Inner.prevOf_closeSlot, if_neg (by simp)]
    exact h.queued hid
  · intro i a xs hi
    by_cases hik : i = k
    · subst hik
      rw [span_of_ne (by simp), hchain, hbefore] at hi
      cases hi
      refine ⟨?_, ?_⟩
      · rw [Inner.nextOf_closeSlot, if_pos rfl]
      · rw [Inner.prevOf_closeSlot, if_pos rfl]
    · have hspan : span (some k) i (chain i) = some (a, xs) := by
        rw [span_of_ne (by simp)] at hi
        rw [span_of_ne, hi]
        intro heq
        exact hik (Option.some.inj heq).symm
      refine (h.segment hspan).congr ?_ ?_
      · intro y hy
        rw [Inner.nextOf_closeSlot, if_neg]
        rintro rfl
        rcases mem_span hspan hy with heq | ⟨id, -, heq⟩
        · rw [← hbefore] at heq
          exact hik (before_inj (Token.slot.inj heq)).symm
        · cases heq
      · intro y hy
        rw [Inner.prevOf_closeSlot, if_neg]
        rintro rfl
        rcases List.mem_append.mp hy with hy | hy
        · obtain ⟨id, -, heq⟩ := mem_span_tail hspan hy
          cases heq
        · exact hik (Token.slot.inj (List.mem_singleton.mp hy)).symm
  · intro id hid
    rw [Inner.prevOf_closeSlot, Inner.nextOf_closeSlot, if_neg (by simp), if_neg (by simp)]
    exact h.idle hid
  · intro k' hbusy
    cases hbusy

end Ring

def Token.IsSlot : Token → Prop
  | .slot _ => True
  | _ => False

theorem Ring.eq_of_path (h : Ring s none chain) {idx : Fin numOfSlots}
    (hpath : Path s.nextOf (.slot (before i)) (ids.map .entry) (.slot idx)) : ids = chain i := by
  have hspan : span none i (chain i) = some (.slot (before i), (chain i).map .entry) :=
    span_of_ne (by simp) _
  have hentries : ∀ ids : List Nat, ∀ y ∈ ids.map Token.entry, ¬ y.IsSlot := by
    intro ids y hy
    obtain ⟨j, -, rfl⟩ := List.mem_map.mp hy
    exact fun h => h
  obtain ⟨hmap, -⟩ :=
    hpath.unique (h.segment hspan).path (hentries ids) (hentries _) trivial trivial
  exact List.map_injective_iff.mpr (fun _ _ heq => Token.entry.inj heq) hmap

/-- Following next links from slot 0, one passes every other slot and every entry whose
`prev` is not `Nil` once before slot 0 is met again. -/
def Inner.Complete (s : Inner τ) : Prop :=
  ∃ ring, Path s.nextOf (.slot ⟨0, numOfSlots_pos⟩) ring (.slot ⟨0, numOfSlots_pos⟩) ∧
    (.slot ⟨0, numOfSlots_pos⟩ :: ring).Nodup ∧ (∀ i, .slot i ∈ .slot ⟨0, numOfSlots_pos⟩ :: ring) ∧
    ∀ id, s.prevOf (.entry id) ≠ .nil → .entry id ∈ ring

/-- The slot `n` places ahead of a slot. -/
def ahead (i : Fin numOfSlots) (n : Nat) : Fin numOfSlots := effectiveSlot (i + n)

theorem ahead_zero (i : Fin numOfSlots) : ahead i 0 = i := by
  apply Fin.ext
  have hi : i.val < 128 := i.isLt
  simp only [ahead, val_effectiveSlot]
  omega

theorem before_ahead (i : Fin numOfSlots) (n : Nat) : before (ahead i (n + 1)) = ahead i n := by
  apply Fin.ext
  simp only [before, ahead, val_effectiveSlot, wrappingSub]
  omega

theorem slotAfter_eq_ahead (s : Inner τ) (secs : Nat) :
    s.slotAfter secs = ahead s.currentSlot (min secs mask) := by
  have hc : s.currentSlot.val < 128 := s.currentSlot.isLt
  have hmask : mask = 127 := rfl
  have hmin : (if mask < secs then mask else secs) = min secs mask := by
    split <;> omega
  apply Fin.ext
  rw [Inner.slotAfter, ahead, hmin, val_effectiveSlot, val_effectiveSlot, wrappingAdd]
  omega

theorem ahead_after (i : Fin numOfSlots) (n : Nat) : ahead (after i) n = ahead i (n + 1) := by
  apply Fin.ext
  simp only [ahead, after, val_effectiveSlot]
  omega

theorem ahead_inj {m n : Nat} (h : ahead i m = ahead i n) (hm : m < 128) (hn : n < 128) :
    m = n := by
  have := congrArg Fin.val h
  simp only [ahead, val_effectiveSlot] at this
  omega

/-- The nodes between slot `i` and the slot `n + 1` places ahead. -/
def lap (chain : Chains) (i : Fin numOfSlots) : Nat → List Token
  | 0 => (chain (ahead i 1)).map .entry
  | n + 1 => lap chain i n ++ .slot (ahead i (n + 1)) :: (chain (ahead i (n + 2))).map .entry

theorem slot_mem_lap {n : Nat} : .slot j ∈ lap chain i n ↔ ∃ m, m < n ∧ j = ahead i (m + 1) := by
  induction n with
  | zero => simp [lap]
  | succ n ih =>
      simp only [lap, List.mem_append, ih, List.mem_cons, Token.slot.injEq, List.mem_map,
        reduceCtorEq, and_false, exists_false, or_false]
      constructor
      · rintro (⟨m, hm, rfl⟩ | rfl)
        · exact ⟨m, by omega, rfl⟩
        · exact ⟨n, by omega, rfl⟩
      · rintro ⟨m, hm, rfl⟩
        rcases Nat.lt_succ_iff_lt_or_eq.mp hm with hm | rfl
        · exact Or.inl ⟨m, hm, rfl⟩
        · exact Or.inr rfl

theorem entry_mem_lap {n : Nat} :
    .entry id ∈ lap chain i n ↔ ∃ m, m ≤ n ∧ id ∈ chain (ahead i (m + 1)) := by
  induction n with
  | zero => simp [lap]
  | succ n ih =>
      simp only [lap, List.mem_append, ih, List.mem_cons, reduceCtorEq, List.mem_map,
        Token.entry.injEq, exists_eq_right, false_or]
      constructor
      · rintro (⟨m, hm, hid⟩ | hid)
        · exact ⟨m, by omega, hid⟩
        · exact ⟨n + 1, by omega, hid⟩
      · rintro ⟨m, hm, hid⟩
        rcases Nat.le_succ_iff.mp hm with hm | rfl
        · exact Or.inl ⟨m, hm, hid⟩
        · exact Or.inr hid

namespace Ring

theorem path_lap (h : Ring s none chain) (i : Fin numOfSlots) (n : Nat) :
    Path s.nextOf (.slot i) (lap chain i n) (.slot (ahead i (n + 1))) := by
  have hhop : ∀ m, Path s.nextOf (.slot (ahead i m)) ((chain (ahead i (m + 1))).map .entry)
      (.slot (ahead i (m + 1))) := by
    intro m
    have hspan : span none (ahead i (m + 1)) (chain (ahead i (m + 1))) =
        some (.slot (ahead i m), (chain (ahead i (m + 1))).map .entry) := by
      rw [span_of_ne (by simp), before_ahead]
    exact (h.segment hspan).path
  induction n with
  | zero =>
      have := hhop 0
      rwa [ahead_zero] at this
  | succ n ih => exact path_append.mpr ⟨ih, hhop (n + 1)⟩

theorem nodup_lap (h : Ring s none chain) (i : Fin numOfSlots) {n : Nat} (hn : n ≤ 127) :
    (lap chain i n).Nodup := by
  induction n with
  | zero => exact nodup_map_entry (h.nodup _)
  | succ n ih =>
      refine List.nodup_append.mpr ⟨ih (by omega), ?_, ?_⟩
      · refine List.nodup_cons.mpr ⟨?_, nodup_map_entry (h.nodup _)⟩
        simp
      · rintro y hy z hz rfl
        rcases List.mem_cons.mp hz with rfl | hz
        · obtain ⟨m, hm, heq⟩ := slot_mem_lap.mp hy
          have := ahead_inj heq (by omega) (by omega)
          omega
        · obtain ⟨id, hid, rfl⟩ := List.mem_map.mp hz
          obtain ⟨m, hm, hid'⟩ := entry_mem_lap.mp hy
          have hmod := congrArg Fin.val (h.disjoint hid hid')
          simp only [ahead, val_effectiveSlot] at hmod
          omega

theorem complete (h : Ring s none chain) : s.Complete := by
  have hslot : ∀ j, ∃ m, m < 128 ∧ j = ahead ⟨0, numOfSlots_pos⟩ (m + 1) := by
    intro j
    have hj : j.val < 128 := j.isLt
    refine ⟨(j.val + 127) % 128, by omega, Fin.ext ?_⟩
    simp only [ahead, val_effectiveSlot]
    omega
  -- `n` stays a variable, so that the lap is not unfolded
  obtain ⟨n, hn⟩ : ∃ n, n = 127 := ⟨127, rfl⟩
  have hback : ahead ⟨0, numOfSlots_pos⟩ (n + 1) = ⟨0, numOfSlots_pos⟩ := by
    apply Fin.ext
    simp only [ahead, val_effectiveSlot, hn]
  have hpath := h.path_lap ⟨0, numOfSlots_pos⟩ n
  rw [hback] at hpath
  refine ⟨lap chain ⟨0, numOfSlots_pos⟩ n, hpath, ?_, ?_, ?_⟩
  · refine List.nodup_cons.mpr ⟨?_, h.nodup_lap _ (by omega)⟩
    intro hmem
    obtain ⟨m, hm, heq⟩ := slot_mem_lap.mp hmem
    have hmod := congrArg Fin.val heq
    simp only [ahead, val_effectiveSlot] at hmod
    omega
  · intro j
    obtain ⟨m, hm, rfl⟩ := hslot j
    rcases Nat.lt_or_ge m n with hlt | hge
    · exact List.mem_cons_of_mem _ (slot_mem_lap.mpr ⟨m, hlt, rfl⟩)
    · obtain rfl : m = n := by omega
      rw [hback]
      exact List.mem_cons_self
  · intro id hid
    have hqueued : ∃ j, id ∈ chain j := by
      by_contra hnone
      exact hid (h.idle fun j hj => hnone ⟨j, hj⟩).1
    obtain ⟨j, hj⟩ := hqueued
    obtain ⟨m, hm, rfl⟩ := hslot j
    exact entry_mem_lap.mpr ⟨m, by omega, hj⟩

end Ring

end Ruyi.Reactor.Wheel
