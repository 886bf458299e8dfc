import Ruyi.Reactor.TimerPoll

namespace Ruyi

open Reactor (Duration Instant asSecs subsecNanos wrappingAdd)

def wrappingMul (a b : Nat) : Nat := a * b % 2 ^ 64

def intoMillis (dur : Duration) : Nat :=
  let millis := (subsecNanos dur + 1000000 - 1) / 1000000
  wrappingAdd (wrappingMul (asSecs dur) 1000) millis

namespace Sys

/-- The cast of a `u64` to `libc::c_int`. -/
def asCInt (n : Nat) : Int := (BitVec.ofNat 32 n).toInt

/-- The time that `Poller::poll` lets `epoll_wait` wait; a negative one has no end. -/
def Poller.millis : Option Duration → Int
  | some dur => asCInt (intoMillis dur)
  | none => -1

/-- The duration in milliseconds, rounded up. -/
def ceilMillis (dur : Duration) : Nat := (dur + 999999) / 1000000

theorem intoMillis_mod (dur : Duration) : intoMillis dur % 2 ^ 32 = ceilMillis dur % 2 ^ 32 := by
  have hlarge : (2 : Nat) ^ 64 % 2 ^ 32 = 0 := by decide
  have hsum : asSecs dur * 1000 + (subsecNanos dur + 1000000 - 1) / 1000000 = ceilMillis dur := by
    rw [asSecs, subsecNanos, ceilMillis]
    omega
  rw [intoMillis, wrappingAdd, wrappingMul, Nat.mod_add_mod, hsum,
    Nat.mod_mod_of_dvd _ (Nat.dvd_of_mod_eq_zero hlarge)]

theorem asCInt_eq (n : Nat) :
    asCInt n = if n % 2 ^ 32 < 2 ^ 31 then ((n % 2 ^ 32 : Nat) : Int)
      else ((n % 2 ^ 32 : Nat) : Int) - 2 ^ 32 := by
  rw [asCInt, BitVec.toInt_eq_toNat_cond, BitVec.toNat_ofNat]
  split <;> split <;> omega

/-- The wait ends, not after the duration rounded up, and then if that can be said. -/
structure Poller.InTime (dur : Duration) : Prop where
  ends : 0 ≤ Poller.millis (some dur)
  no_later : Poller.millis (some dur) ≤ ceilMillis dur
  exact : ceilMillis dur < 2 ^ 31 → Poller.millis (some dur) = ceilMillis dur

theorem Poller.inTime_iff (dur : Duration) :
    Poller.InTime dur ↔ ceilMillis dur % 2 ^ 32 < 2 ^ 31 := by
  have hmillis : Poller.millis (some dur) =
      if ceilMillis dur % 2 ^ 32 < 2 ^ 31 then ((ceilMillis dur % 2 ^ 32 : Nat) : Int)
      else ((ceilMillis dur % 2 ^ 32 : Nat) : Int) - 2 ^ 32 := by
    rw [millis, asCInt_eq, intoMillis_mod]
  have hlt : ceilMillis dur % 2 ^ 32 < 2 ^ 32 := Nat.mod_lt _ (by decide)
  constructor
  · intro h
    by_contra hge
    have hends := h.ends
    rw [hmillis, if_neg hge] at hends
    omega
  · intro hsmall
    rw [if_pos hsmall] at hmillis
    refine ⟨?_, ?_, fun hfits => ?_⟩
    · rw [hmillis]
      exact Int.natCast_nonneg _
    · rw [hmillis]
      exact Int.ofNat_le.mpr (Nat.mod_le _ _)
    · rw [hmillis, Nat.mod_eq_of_lt (Nat.lt_trans hfits (by decide))]

end Sys

namespace Reactor.Timer

variable {τ : Type} {s s' : Timers τ} {now : Instant} {exp : Expiration} {dur : Duration}

theorem Timers.turn_timeout
    (h : s.step (.turn now exp) = some (.ok (.returned (some (some dur)), s'))) :
    0 < dur ∧ (∃ other ∈ s.queue.heap, other.inner = now + dur) ∧
      ∀ other ∈ s.queue.heap, now + dur ≤ other.inner := by
  rcases hpoll : s.poll with _ | _ | ⟨exp', resume⟩
  · simp only [Timers.step, hpoll] at h
    cases h
  · simp only [Timers.step, hpoll, turn] at h
    split at h
    · cases h
    · split at h
      · rename_i htop
        split at h
        · rename_i hlt
          have hsub : now + (exp.inner - now) = exp.inner :=
            Nat.add_sub_cancel' (Nat.le_of_lt hlt)
          cases h
          rw [hsub]
          exact ⟨Nat.sub_pos_of_lt hlt, ⟨exp, htop.1, rfl⟩, htop.2⟩
        · obtain ⟨⟨task, queue⟩, -, hnext⟩ := ok_of_bind_ok (Option.some.inj h)
          rcases task with _ | ⟨task, resume⟩
          · cases hnext
          · cases hnext
      · cases h
  · simp only [Timers.step, hpoll] at h
    cases h

/-- The poller sleeps until the earliest deadline and not longer, unless the milliseconds to it,
rounded up, come out as a negative `c_int`. -/
theorem sleep_until_deadline_iff
    (h : s.step (.turn now exp) = some (.ok (.returned (some (some dur)), s'))) :
    (0 < dur ∧ (∃ other ∈ s.queue.heap, other.inner = now + dur) ∧
        ∀ other ∈ s.queue.heap, now + dur ≤ other.inner) ∧
      (Sys.Poller.InTime dur ↔ Sys.ceilMillis dur % 2 ^ 32 < 2 ^ 31) :=
  ⟨Timers.turn_timeout h, Sys.Poller.inTime_iff dur⟩

theorem sleep_until_deadline_of_near :
    ∃ s s' : Timers Nat,
      s.step (.turn 0 ⟨1500000, 0, 0⟩) = some (.ok (.returned (some (some 1500000)), s')) ∧
        Sys.Poller.InTime 1500000 := by
  refine ⟨⟨⟨Slab.empty, [⟨1500000, 0, 0⟩], 0, 1⟩, [], .polling⟩, _, rfl, ?_⟩
  exact (@sleep_until_deadline_iff Nat ⟨⟨Slab.empty, [⟨1500000, 0, 0⟩], 0, 1⟩, [], .polling⟩ _ 0
    ⟨1500000, 0, 0⟩ 1500000 rfl).2.mpr (by decide)

/-- A timer that is due in 2 ^ 31 milliseconds lets the poller sleep for ever. -/
theorem far_deadline_never_awaited :
    ∃ (log : List (TimerEvent Nat)) (s s' : Timers Nat),
      (timersMachine Nat).Run Timers.Kept .init log s ∧
        s.step (.turn 0 ⟨2147483648000000, 0, 0⟩) =
          some (.ok (.returned (some (some 2147483648000000)), s')) ∧
        Sys.Poller.millis (some 2147483648000000) = -2147483648 ∧
          ¬ Sys.Poller.InTime 2147483648000000 := by
  have hend : ((timersMachine Nat).exec Timers.Kept [.add 2147483648000000 7, .poll] .init).map
      (fun r => (r.2.step (.turn 0 ⟨2147483648000000, 0, 0⟩)).map fun r =>
        match r with
        | .ok (e, _) => some e
        | .error _ => none) = some (some (some (.returned (some (some 2147483648000000))))) := by
    decide +kernel
  obtain ⟨⟨log, s⟩, hexec, heq⟩ := Option.map_eq_some_iff.mp hend
  obtain ⟨r, hstep, hr⟩ := Option.map_eq_some_iff.mp heq
  rcases r with fault | ⟨e, s'⟩
  · cases hr
  · cases Option.some.inj hr
    refine ⟨log, s, s', .of_exec _ hexec, hstep, by decide, fun h => ?_⟩
    exact absurd ((Sys.Poller.inTime_iff _).mp h) (by decide)

end Reactor.Timer

end Ruyi
