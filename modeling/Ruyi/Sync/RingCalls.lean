import Ruyi.Sync.RingOrder
import Ruyi.Usize

namespace Ruyi.Sync

variable {w capacity : Nat} {α : Type}

namespace RingBuffer

/-- The comparison of `try_push` as a build makes it. -/
def isFull (checks : Bool) (b : RingBuffer w α) (rear : Nat) : Except Fault Bool :=
  (Build.add ⟨w, checks⟩ b.shadowFront b.cap).map fun limit => decide (limit ≤ rear)

def reloadFront (b : RingBuffer w α) : RingBuffer w α := { b with shadowFront := b.front }

def reloadRear (b : RingBuffer w α) : RingBuffer w α := { b with shadowRear := b.rear }

/-- The end of `try_push`, once there is room. -/
def put (b : RingBuffer w α) (t : α) : Except Fault (Option α × RingBuffer w α) := do
  let b ← b.writeSlot (b.effectiveIndex b.rear) (.holds t)
  .ok (none, { b with rear := wrap w (b.rear + 1) })

/-- `try_push`, when no other call has a part in it. -/
def tryPush (checks : Bool) (b : RingBuffer w α) (t : α) :
    Except Fault (Option α × RingBuffer w α) := do
  if ← b.isFull checks b.rear then
    if ← b.reloadFront.isFull checks b.rear then .ok (some t, b.reloadFront)
    else b.reloadFront.put t
  else b.put t

/-- The end of `try_pop`, once there is a value. -/
def take (b : RingBuffer w α) : Except Fault (Option α × RingBuffer w α) :=
  match b.slots[b.effectiveIndex b.front]? with
  | some (.holds v) =>
      .ok (some v,
        { b.setSlot (b.effectiveIndex b.front) .vacant with front := wrap w (b.front + 1) })
  | some _ => .error .uninit
  | none => .error .outOfBounds

/-- `try_pop`, when no other call has a part in it. -/
def tryPop (b : RingBuffer w α) : Except Fault (Option α × RingBuffer w α) :=
  if b.front = b.shadowRear then
    if b.front = b.reloadRear.shadowRear then .ok (none, b.reloadRear) else b.reloadRear.take
  else b.take

/-- A call of `try_push` computes no sum that overflows, and hands its value back when `cap`
values are stored. -/
structure RefusesWhenFull (b : RingBuffer w α) (t : α) (stored : Nat) : Prop where
  fits : b.tryPush true t ≠ .error .panic
  refused : ∀ checks r b', b.tryPush checks t = .ok (r, b') → (r = some t ↔ stored = b.cap)

/-- The sums of `try_push` fit: that for the copy of `front`, and that for `front` itself when
the copy shows no room. -/
def SumsFit (b : RingBuffer w α) : Prop :=
  b.shadowFront + b.cap < 2 ^ w ∧ (b.shadowFront + b.cap ≤ b.rear → b.front + b.cap < 2 ^ w)

variable {b : RingBuffer w α} {checks : Bool} {t : α}

theorem isFull_of_lt (checks : Bool) (h : b.shadowFront + b.cap < 2 ^ w) (rear : Nat) :
    b.isFull checks rear = .ok (decide (b.shadowFront + b.cap ≤ rear)) := by
  rw [isFull, Build.add_ok h]
  rfl

theorem isFull_of_le (h : 2 ^ w ≤ b.shadowFront + b.cap) (rear : Nat) :
    b.isFull true rear = .error .panic := by
  rw [isFull, Build.add, if_neg (Nat.not_lt_of_ge h)]
  rfl

theorem isFull_false (b : RingBuffer w α) (rear : Nat) :
    b.isFull false rear = .ok (b.full rear) := by
  rw [isFull, Build.add, full, wrap]
  split
  · rename_i h
    rw [Nat.mod_eq_of_lt h]
    rfl
  · rfl

theorem tryPush_of_room (h : b.isFull checks b.rear = .ok false) :
    b.tryPush checks t = b.put t := by
  rw [tryPush, h]
  rfl

theorem tryPush_of_reload (h : b.isFull checks b.rear = .ok true)
    (h' : b.reloadFront.isFull checks b.rear = .ok false) :
    b.tryPush checks t = b.reloadFront.put t := by
  rw [tryPush, h]
  dsimp only [bind, Except.bind, if_pos]
  rw [h']
  rfl

theorem tryPush_of_full (h : b.isFull checks b.rear = .ok true)
    (h' : b.reloadFront.isFull checks b.rear = .ok true) :
    b.tryPush checks t = .ok (some t, b.reloadFront) := by
  rw [tryPush, h]
  dsimp only [bind, Except.bind, if_pos]
  rw [h']
  rfl

theorem put_cases {r : Except Fault (Option α × RingBuffer w α)} (h : b.put t = r) :
    r = .error .outOfBounds ∧ b.slots.length ≤ b.effectiveIndex b.rear ∨
      b.effectiveIndex b.rear < b.slots.length ∧
        r = .ok (none,
          { b.setSlot (b.effectiveIndex b.rear) (.holds t) with rear := wrap w (b.rear + 1) }) := by
  subst h
  rw [put, writeSlot]
  split
  · rename_i hbound
    exact .inr ⟨hbound, rfl⟩
  · rename_i hbound
    exact .inl ⟨rfl, Nat.le_of_not_lt hbound⟩

theorem put_ne_panic (b : RingBuffer w α) (t : α) : b.put t ≠ .error .panic := by
  intro h
  rcases put_cases h with ⟨hfault, -⟩ | ⟨-, hok⟩
  · cases hfault
  · cases hok

theorem put_none {r : Option α} {b' : RingBuffer w α} (h : b.put t = .ok (r, b')) : r = none := by
  rcases put_cases h with ⟨hfault, -⟩ | ⟨-, hok⟩
  · cases hfault
  · cases hok
    rfl

theorem tryPush_fits_iff (b : RingBuffer w α) (t : α) :
    b.tryPush true t ≠ .error .panic ↔ b.SumsFit := by
  rcases Nat.lt_or_ge (b.shadowFront + b.cap) (2 ^ w) with hsum | hsum
  · have hfull := isFull_of_lt true hsum b.rear
    by_cases hrear : b.shadowFront + b.cap ≤ b.rear
    · rw [decide_eq_true hrear] at hfull
      rcases Nat.lt_or_ge (b.front + b.cap) (2 ^ w) with hsum' | hsum'
      · have hagain := isFull_of_lt (b := b.reloadFront) true hsum' b.rear
        refine iff_of_true ?_ ⟨hsum, fun _ => hsum'⟩
        cases hd : decide (b.front + b.cap ≤ b.rear) with
        | true =>
            rw [tryPush_of_full hfull (hagain.trans (congrArg Except.ok hd))]
            exact fun h => by cases h
        | false =>
            rw [tryPush_of_reload hfull (hagain.trans (congrArg Except.ok hd))]
            exact b.reloadFront.put_ne_panic t
      · have hagain := isFull_of_le (b := b.reloadFront) hsum' b.rear
        refine iff_of_false ?_ fun h => Nat.not_lt_of_ge hsum' (h.2 hrear)
        rw [tryPush, hfull]
        dsimp only [bind, Except.bind, if_pos]
        rw [hagain]
        simp
    · rw [decide_eq_false hrear] at hfull
      refine iff_of_true ?_ ⟨hsum, fun h => absurd h hrear⟩
      rw [tryPush_of_room hfull]
      exact b.put_ne_panic t
  · refine iff_of_false ?_ fun h => Nat.not_lt_of_ge hsum h.1
    rw [tryPush, isFull_of_le hsum]
    simp [bind, Except.bind]

theorem refused_iff (hfit : b.SumsFit) (hshadow : b.shadowFront ≤ b.front)
    (hroom : b.rear ≤ b.front + b.cap) {r : Option α} {b' : RingBuffer w α}
    (h : b.tryPush checks t = .ok (r, b')) : r = some t ↔ b.rear = b.front + b.cap := by
  have hfull := isFull_of_lt checks hfit.1 b.rear
  by_cases hrear : b.shadowFront + b.cap ≤ b.rear
  · rw [decide_eq_true hrear] at hfull
    have hagain := isFull_of_lt (b := b.reloadFront) checks (hfit.2 hrear) b.rear
    by_cases hrear' : b.front + b.cap ≤ b.rear
    · rw [tryPush_of_full hfull (hagain.trans (congrArg Except.ok (decide_eq_true hrear')))] at h
      cases h
      exact iff_of_true rfl (Nat.le_antisymm hroom hrear')
    · rw [tryPush_of_reload hfull (hagain.trans (congrArg Except.ok (decide_eq_false hrear')))] at h
      rw [put_none h]
      exact iff_of_false (by simp) fun heq => hrear' (Nat.le_of_eq heq.symm)
  · rw [decide_eq_false hrear] at hfull
    rw [tryPush_of_room hfull] at h
    rw [put_none h]
    exact iff_of_false (by simp) fun heq => hrear (by omega)

theorem tryPush_eq (hfit : b.SumsFit) (checks checks' : Bool) (t : α) :
    b.tryPush checks t = b.tryPush checks' t := by
  rw [tryPush, tryPush, isFull_of_lt checks hfit.1, isFull_of_lt checks' hfit.1]
  by_cases hrear : b.shadowFront + b.cap ≤ b.rear
  · rw [isFull_of_lt (b := b.reloadFront) checks (hfit.2 hrear),
      isFull_of_lt (b := b.reloadFront) checks' (hfit.2 hrear)]
  · rw [decide_eq_false hrear]
    rfl

theorem tryPush_false {r : Option α} {b' : RingBuffer w α} (h : b.tryPush checks t = .ok (r, b')) :
    b.tryPush false t = .ok (r, b') := by
  cases checks with
  | false => exact h
  | true =>
      have hfit : b.SumsFit := (tryPush_fits_iff b t).mp (by rw [h]; simp)
      rw [tryPush_eq hfit false true, h]

theorem put_of_lt (t : α) (hbound : b.effectiveIndex b.rear < b.slots.length) :
    ∃ b', b.put t = .ok (none, b') := by
  rw [put, writeSlot, if_pos hbound]
  exact ⟨_, rfl⟩

theorem exists_tryPush (t : α) (hbound : b.effectiveIndex b.rear < b.slots.length) :
    ∃ r b', b.tryPush false t = .ok (r, b') ∧ (r = none ∨ r = some t) := by
  have hfull := b.isFull_false b.rear
  have hagain := b.reloadFront.isFull_false b.rear
  cases hb : b.full b.rear with
  | false =>
      obtain ⟨b', hput⟩ := put_of_lt t hbound
      exact ⟨_, b', (tryPush_of_room (hb ▸ hfull)).trans hput, .inl rfl⟩
  | true =>
      cases hb' : b.reloadFront.full b.rear with
      | false =>
          obtain ⟨b', hput⟩ := put_of_lt (b := b.reloadFront) t hbound
          exact ⟨_, b', (tryPush_of_reload (hb ▸ hfull) (hb' ▸ hagain)).trans hput, .inl rfl⟩
      | true => exact ⟨_, _, tryPush_of_full (hb ▸ hfull) (hb' ▸ hagain), .inr rfl⟩

theorem take_of_holds {v : α} (h : b.slots[b.effectiveIndex b.front]? = some (.holds v)) :
    ∃ b', b.take = .ok (some v, b') := by
  rw [take, h]
  exact ⟨_, rfl⟩

theorem tryPop_of_holds {v : α} (h : b.slots[b.effectiveIndex b.front]? = some (.holds v))
    (hne : b.front ≠ b.rear) : ∃ b', b.tryPop = .ok (some v, b') := by
  rw [tryPop]
  split
  · have hne' : b.front ≠ b.reloadRear.shadowRear := hne
    rw [if_neg hne']
    exact take_of_holds (b := b.reloadRear) h
  · exact take_of_holds h

theorem setSlot_setSlot (b : RingBuffer w α) (i : Nat) (x y : Slot α) :
    (b.setSlot i x).setSlot i y = b.setSlot i y := by
  simp only [setSlot, List.set_set]

end RingBuffer

namespace Ring

open Base

theorem run_put {b b' : RingBuffer w α} {t : α} {r : Option α} (consumer : Consumer α)
    (h : b.put t = .ok (r, b')) :
    (ringMachine w α).Run (fun _ _ => True) ⟨b, .startWrite t b.rear, consumer⟩
      [.silent, .silent, .pushed t] ⟨b', .idle, consumer⟩ := by
  obtain ⟨hfault, -⟩ | ⟨hbound, hok⟩ := RingBuffer.put_cases h
  · cases hfault
  cases hok
  have hslot := b.setSlot_setSlot (b.effectiveIndex b.rear) .writing (.holds t)
  have hbound' : b.effectiveIndex b.rear <
      (b.setSlot (b.effectiveIndex b.rear) .writing).slots.length := by
    rwa [RingBuffer.length_setSlot]
  rw [← hslot]
  have hstart : (ringMachine w α).step ⟨b, .startWrite t b.rear, consumer⟩ .producer =
      some (.ok (.silent, ⟨b.setSlot (b.effectiveIndex b.rear) .writing, .endWrite t b.rear,
        consumer⟩)) :=
    congrArg some (bind_of_ok (RingBuffer.writeSlot_of_lt .writing hbound) rfl)
  have hend : (ringMachine w α).step
      ⟨b.setSlot (b.effectiveIndex b.rear) .writing, .endWrite t b.rear, consumer⟩ .producer =
      some (.ok (.silent, ⟨(b.setSlot (b.effectiveIndex b.rear) .writing).setSlot
        (b.effectiveIndex b.rear) (.holds t), .storeRear t b.rear, consumer⟩)) :=
    congrArg some (bind_of_ok (RingBuffer.writeSlot_of_lt (.holds t) hbound') rfl)
  exact ((Machine.Run.nil.snoc trivial hstart).snoc trivial hend).snoc (a := .producer) trivial rfl

theorem run_push {b b' : RingBuffer w α} {checks : Bool} {t : α} {r : Option α}
    (consumer : Consumer α) (h : b.tryPush checks t = .ok (r, b')) :
    ∃ log, (ringMachine w α).Run (fun _ _ => True) ⟨b, .idle, consumer⟩ log ⟨b', .idle, consumer⟩ ∧
      pushedOf log = (if r.isNone then [t] else []) ∧ poppedOf log = [] := by
  replace h := RingBuffer.tryPush_false h
  have hfull := b.isFull_false b.rear
  cases hb : b.full b.rear with
  | false =>
      rw [hb] at hfull
      rw [RingBuffer.tryPush_of_room hfull] at h
      obtain rfl := RingBuffer.put_none h
      have hstart : (ringMachine w α).Run (fun _ _ => True) ⟨b, .idle, consumer⟩
          [.called t, .silent, .silent] ⟨b, .startWrite t b.rear, consumer⟩ := by
        apply Machine.Run.of_exec [.push t, .producer, .producer]
        simp [Machine.exec, ringMachine, step, produce, hb]
      exact ⟨_, hstart.trans (run_put consumer h), rfl, rfl⟩
  | true =>
      rw [hb] at hfull
      have hagain := b.reloadFront.isFull_false b.rear
      have hstart : (ringMachine w α).Run (fun _ _ => True) ⟨b, .idle, consumer⟩
          [.called t, .silent, .silent, .silent] ⟨b.reloadFront, .recheck t b.rear, consumer⟩ := by
        apply Machine.Run.of_exec [.push t, .producer, .producer, .producer]
        simp [Machine.exec, ringMachine, step, produce, hb, RingBuffer.reloadFront]
      cases hb' : b.reloadFront.full b.rear with
      | false =>
          rw [hb'] at hagain
          rw [RingBuffer.tryPush_of_reload hfull hagain] at h
          obtain rfl := RingBuffer.put_none h
          have hgo : (ringMachine w α).Run (fun _ _ => True)
              ⟨b.reloadFront, .recheck t b.rear, consumer⟩ [.silent]
              ⟨b.reloadFront, .startWrite t b.rear, consumer⟩ := by
            apply Machine.Run.of_exec [.producer]
            simp [Machine.exec, ringMachine, step, produce, hb']
          exact ⟨_, (hstart.trans hgo).trans (run_put consumer h), rfl, rfl⟩
      | true =>
          rw [hb'] at hagain
          rw [RingBuffer.tryPush_of_full hfull hagain] at h
          cases h
          have hgo : (ringMachine w α).Run (fun _ _ => True)
              ⟨b.reloadFront, .recheck t b.rear, consumer⟩ [.refused t]
              ⟨b.reloadFront, .idle, consumer⟩ := by
            apply Machine.Run.of_exec [.producer]
            simp [Machine.exec, ringMachine, step, produce, hb']
          exact ⟨_, hstart.trans hgo, rfl, rfl⟩

theorem run_take {b b' : RingBuffer w α} {r : Option α} (producer : Producer α)
    (h : b.take = .ok (r, b')) :
    ∃ v, r = some v ∧ (ringMachine w α).Run (fun _ _ => True) ⟨b, producer, .read b.front⟩
      [.silent, .popped v] ⟨b', producer, .idle⟩ := by
  rw [RingBuffer.take] at h
  split at h
  · rename_i v hslot
    cases h
    refine ⟨v, rfl, ?_⟩
    apply Machine.Run.of_exec [.consumer, .consumer]
    simp [Machine.exec, ringMachine, step, consume, hslot, RingBuffer.setSlot]
  · cases h
  · cases h

theorem run_pop {b b' : RingBuffer w α} {r : Option α} (producer : Producer α)
    (h : b.tryPop = .ok (r, b')) :
    ∃ log, (ringMachine w α).Run (fun _ _ => True) ⟨b, producer, .idle⟩ log ⟨b', producer, .idle⟩ ∧
      pushedOf log = [] ∧ poppedOf log = r.toList := by
  rw [RingBuffer.tryPop] at h
  split at h
  · rename_i hshadow
    have hstart : (ringMachine w α).Run (fun _ _ => True) ⟨b, producer, .idle⟩
        [.silent, .silent, .silent, .silent] ⟨b.reloadRear, producer, .recheck b.front⟩ := by
      apply Machine.Run.of_exec [.pop, .consumer, .consumer, .consumer]
      simp [Machine.exec, ringMachine, step, consume, ← hshadow, RingBuffer.reloadRear]
    split at h
    · rename_i hempty
      cases h
      have hgo : (ringMachine w α).Run (fun _ _ => True)
          ⟨b.reloadRear, producer, .recheck b.front⟩ [.empty] ⟨b.reloadRear, producer, .idle⟩ := by
        apply Machine.Run.of_exec [.consumer]
        simp [Machine.exec, ringMachine, step, consume, ← hempty]
      exact ⟨_, hstart.trans hgo, rfl, rfl⟩
    · rename_i hne
      obtain ⟨v, rfl, htake⟩ := run_take producer h
      have hgo : (ringMachine w α).Run (fun _ _ => True)
          ⟨b.reloadRear, producer, .recheck b.front⟩ [.silent]
          ⟨b.reloadRear, producer, .read b.front⟩ := by
        apply Machine.Run.of_exec [.consumer]
        simp [Machine.exec, ringMachine, step, consume, hne]
      exact ⟨_, (hstart.trans hgo).trans htake, rfl, rfl⟩
  · rename_i hne
    obtain ⟨v, rfl, htake⟩ := run_take producer h
    have hstart : (ringMachine w α).Run (fun _ _ => True) ⟨b, producer, .idle⟩
        [.silent, .silent, .silent] ⟨b, producer, .read b.front⟩ := by
      apply Machine.Run.of_exec [.pop, .consumer, .consumer]
      simp [Machine.exec, ringMachine, step, consume, hne]
    exact ⟨_, hstart.trans htake, rfl, rfl⟩

end Ring

/-- The values that are stored after so many calls. -/
def storedOf (log : List (RingEvent α)) : Nat := (pushedOf log).length - (poppedOf log).length

/-- In every state that the two threads can reach, `try_push` refuses a value exactly when the
buffer is full, if and only if its sums fit. -/
theorem refuses_when_full_iff {log : List (RingEvent α)} {s : Ring w α}
    (hrun : (ringMachine w α).Run (fun _ _ => True) (Ring.init w α capacity) log s) (t : α) :
    s.buf.RefusesWhenFull t (storedOf log) ↔ s.buf.SumsFit := by
  have hinv := Ring.inv_of_run hrun
  have hfront := hinv.front
  have hrear := hinv.rear
  have hlength := hinv.length_le
  have hle := Nat.le_trans hinv.shadowRear_ge hinv.shadowRear_le
  have hcap := hinv.cap
  constructor
  · intro h
    exact (RingBuffer.tryPush_fits_iff s.buf t).mp h.fits
  · intro hfit
    refine ⟨(RingBuffer.tryPush_fits_iff s.buf t).mpr hfit, fun checks r b' hpush => ?_⟩
    rw [RingBuffer.refused_iff hfit (by rw [hfront]; exact hinv.shadowFront) (by omega) hpush,
      storedOf]
    omega

theorem refuses_when_full_of_one :
    ∃ (log : List (RingEvent Nat)) (s : Ring 64 Nat),
      (ringMachine 64 Nat).Run (fun _ _ => True) (Ring.init 64 Nat 1) log s ∧ storedOf log = 1 ∧
        s.buf.RefusesWhenFull 8 1 := by
  let as : List (RingAction Nat) :=
    [.push 7, .producer, .producer, .producer, .producer, .producer]
  obtain ⟨⟨log, s⟩, hexec, hstored, hshadow, hcap, hfront⟩ :
      ∃ r, (ringMachine 64 Nat).exec (fun _ _ => True) as (Ring.init 64 Nat 1) = some r ∧
        storedOf r.1 = 1 ∧ r.2.buf.shadowFront = 0 ∧ r.2.buf.cap = 1 ∧ r.2.buf.front = 0 :=
    ⟨_, rfl, rfl, rfl, rfl, rfl⟩
  have hrun := Base.Machine.Run.of_exec as hexec
  have hfit : s.buf.SumsFit := by
    refine ⟨?_, fun _ => ?_⟩
    · rw [hshadow, hcap]
      decide
    · rw [hfront, hcap]
      decide
  exact ⟨log, s, hrun, hstored, hstored ▸ (refuses_when_full_iff hrun 8).mpr hfit⟩

theorem Ring.exists_passed (t : α) (hw : 0 < w) {n : Nat} (hn : n < 2 ^ w) :
    ∃ log b, (ringMachine w α).Run (fun _ _ => True) (Ring.init w α 1) log ⟨b, .idle, .idle⟩ ∧
      (pushedOf log).length = n ∧ (poppedOf log).length = n := by
  induction n with
  | zero => exact ⟨[], _, .nil, rfl, rfl⟩
  | succ n ih =>
      obtain ⟨log, b, hrun, hpushed, hpopped⟩ := ih (by omega)
      have hinv := inv_of_run hrun
      have hcap : b.cap = 1 := hinv.cap
      have hfront : b.front = n := hinv.front.trans hpopped
      have hrear : b.rear = n := hinv.rear.trans hpushed
      have hshadow : b.shadowFront ≤ n := hpopped ▸ hinv.shadowFront
      have hbound : b.effectiveIndex b.rear < b.slots.length := by
        rw [hinv.effectiveIndex, hinv.length]
        exact RingBuffer.slotIndex_lt (Nat.one_le_two_pow) hw _
      obtain ⟨r, b', hpush, hr⟩ := RingBuffer.exists_tryPush t hbound
      have hfit : b.SumsFit := by
        rw [RingBuffer.SumsFit]
        omega
      have hrefused := RingBuffer.refused_iff hfit (by omega) (by omega) hpush
      obtain rfl : r = none := hr.resolve_right fun heq => by
        have := hrefused.mp heq
        omega
      obtain ⟨log', hrun', hpushed', hpopped'⟩ := run_push .idle hpush
      have hall := hrun.trans hrun'
      have hinv' := inv_of_run hall
      have hlength : (pushedOf (log ++ log')).length = n + 1 := by
        rw [pushedOf_append, hpushed', List.length_append, hpushed]
        rfl
      have hlength' : (poppedOf (log ++ log')).length = n := by
        rw [poppedOf_append, hpopped', List.append_nil, hpopped]
      have hfront' : b'.front = n := hinv'.front.trans hlength'
      have hlast : n < (pushedOf (log ++ log')).length := by omega
      have hslot : b'.slots[b'.effectiveIndex b'.front]? =
          some (.holds (pushedOf (log ++ log'))[n]) := by
        rw [hinv'.effectiveIndex, hfront']
        exact hinv'.held (Nat.le_of_eq hfront') (List.getElem?_eq_getElem hlast)
      obtain ⟨b'', hpop⟩ := RingBuffer.tryPop_of_holds hslot (by
        rw [hfront', hinv'.rear, hlength]
        omega)
      obtain ⟨log'', hrun'', hpushed'', hpopped''⟩ := run_pop .idle hpop
      refine ⟨_, b'', hall.trans hrun'', ?_, ?_⟩
      · rw [pushedOf_append, hpushed'', List.append_nil, hlength]
      · rw [poppedOf_append, hpopped'', List.length_append, hlength']
        rfl

/-- After `2 ^ 32 - 1` values through a buffer of one slot, an empty buffer takes no more. -/
theorem refused_when_empty :
    ∃ (log : List (RingEvent Nat)) (s : Ring 32 Nat),
      (ringMachine 32 Nat).Run (fun _ _ => True) (Ring.init 32 Nat 1) log s ∧
        s.producer = .idle ∧ storedOf log = 0 ∧ s.buf.tryPush true 7 = .error .panic ∧
        (∃ b', s.buf.tryPush false 7 = .ok (some 7, b')) ∧
        ¬ s.buf.RefusesWhenFull 7 (storedOf log) := by
  obtain ⟨log, b, hrun, hpushed, hpopped⟩ :=
    Ring.exists_passed (w := 32) 7 (by decide) (n := 2 ^ 32 - 1) (by decide)
  have hinv := Ring.inv_of_run hrun
  have hcap : b.cap = 1 := hinv.cap
  have hfront : b.front = 2 ^ 32 - 1 := hinv.front.trans hpopped
  have hrear : b.rear = 2 ^ 32 - 1 := hinv.rear.trans hpushed
  have hshadow : b.shadowFront ≤ 2 ^ 32 - 1 := hpopped ▸ hinv.shadowFront
  have hstored : storedOf log = 0 := by
    rw [storedOf, hpushed, hpopped, Nat.sub_self]
  have hfit : ¬ b.SumsFit := by
    rintro ⟨hsum, hsum'⟩
    omega
  have hfull : b.full b.rear = true := by
    rw [RingBuffer.full, wrap, decide_eq_true_eq]
    omega
  have hagain : b.reloadFront.full b.rear = true := by
    have hsum : wrap 32 (b.front + b.cap) = 0 := by rw [hfront, hcap]; rfl
    exact decide_eq_true (hsum ▸ Nat.zero_le _)
  have hpanic : b.tryPush true 7 = .error .panic := by
    by_contra hne
    exact hfit ((b.tryPush_fits_iff 7).mp hne)
  refine ⟨log, ⟨b, .idle, .idle⟩, hrun, rfl, hstored, hpanic, ⟨b.reloadFront, ?_⟩,
    fun h => h.fits hpanic⟩
  exact RingBuffer.tryPush_of_full (hfull ▸ b.isFull_false b.rear)
    (hagain ▸ b.reloadFront.isFull_false b.rear)

end Ruyi.Sync
