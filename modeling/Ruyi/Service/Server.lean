import Ruyi.Base.Machine
import Ruyi.Outcome

namespace Ruyi.Service

/-- `fetch_add(1)` of an atomic `usize` of `w` bits. -/
def fetchAdd (w count : Nat) : Nat := (count + 1) % 2 ^ w

/-- `fetch_sub(1)`. -/
def fetchSub (w count : Nat) : Nat := (count + (2 ^ w - 1)) % 2 ^ w

theorem fetchAdd_modEq (w count : Nat) : fetchAdd w count ≡ count + 1 [MOD 2 ^ w] :=
  Nat.mod_modEq _ _

theorem fetchSub_modEq (w count : Nat) : fetchSub w count + 1 ≡ count [MOD 2 ^ w] := by
  have hpos : 0 < 2 ^ w := Nat.two_pow_pos w
  have hsum : count + (2 ^ w - 1) + 1 = count + 2 ^ w := by omega
  calc
    fetchSub w count + 1 ≡ count + (2 ^ w - 1) + 1 [MOD 2 ^ w] := (Nat.mod_modEq _ _).add_right 1
    _ = count + 2 ^ w := hsum
    _ ≡ count [MOD 2 ^ w] := Nat.add_modEq_right

theorem fetchSub_modEq_of_succ {w count n : Nat} (h : count ≡ n + 1 [MOD 2 ^ w]) :
    fetchSub w count ≡ n [MOD 2 ^ w] :=
  ((fetchSub_modEq w count).trans h).add_right_cancel'

/-- `Inner` as `run_single` has it, with its `conn_count` and the `Session` values alive,
each as the number of its connection.  `accepted` counts the connections. -/
structure Server (w : Nat) where
  workerConns : Fin (2 ^ w)
  connCount : Nat
  sessions : List Nat
  accepted : Nat

inductive ServerAction where
  | accept
  | dropSession (conn : Nat)

/-- A connection has become a `Session`, or has been refused; a `Session` has ended. -/
inductive ServerEvent where
  | admitted (conn : Nat)
  | refused (conn : Nat)
  | ended (conn : Nat)
  deriving DecidableEq

def ServerEvent.isRefused : ServerEvent → Bool
  | .refused _ => true
  | _ => false

namespace Server

variable {w : Nat}

def init (workerConns : Fin (2 ^ w)) : Server w := ⟨workerConns, 0, [], 0⟩

/-- The closure of `run_single`. -/
def accept (s : Server w) : ServerEvent × Server w :=
  let n := s.connCount
  let s' := { s with connCount := fetchAdd w s.connCount, accepted := s.accepted + 1 }
  if n < s.workerConns then
    (.admitted s.accepted, { s' with sessions := s.accepted :: s.sessions })
  else (.refused s.accepted, s')

/-- The drop of a `Session`. -/
def dropSession (s : Server w) (conn : Nat) : ServerEvent × Server w :=
  (.ended conn,
    { s with connCount := fetchSub w s.connCount, sessions := s.sessions.erase conn })

def step (s : Server w) : ServerAction → Option (Except Fault (ServerEvent × Server w))
  | .accept => some (.ok s.accept)
  | .dropSession conn => if conn ∈ s.sessions then some (.ok (s.dropSession conn)) else none

end Server

def serverMachine (w : Nat) : Base.Machine (Server w) ServerAction ServerEvent Fault :=
  ⟨Server.step⟩

variable {w : Nat} {s s' : Server w} {log : List ServerEvent}

/-- The refused connections of a log. -/
def refusals (log : List ServerEvent) : Nat := log.countP ServerEvent.isRefused

theorem refusals_append (log : List ServerEvent) (e : ServerEvent) :
    refusals (log ++ [e]) = refusals log + if e.isRefused then 1 else 0 := by
  rw [refusals, List.countP_append, List.countP_singleton]
  rfl

namespace Server

/-- The counter is not lowered for a connection that is refused. -/
structure Counts (s : Server w) (log : List ServerEvent) : Prop where
  count : s.connCount ≡ s.sessions.length + refusals log [MOD 2 ^ w]
  lt : s.connCount < 2 ^ w
  sessions : refusals log = 0 → s.sessions.length ≤ s.workerConns

theorem Counts.eq (h : Counts s log) (hrefusals : refusals log = 0) :
    s.connCount = s.sessions.length := by
  have hcount := h.count
  rw [hrefusals] at hcount
  exact hcount.eq_of_lt_of_lt h.lt ((h.sessions hrefusals).trans_lt s.workerConns.isLt)

theorem counts_accept {e : ServerEvent} (h : Counts s log) (hstep : s.accept = (e, s')) :
    Counts s' (log ++ [e]) := by
  have hadd : fetchAdd w s.connCount ≡ s.sessions.length + refusals log + 1 [MOD 2 ^ w] :=
    (fetchAdd_modEq w s.connCount).trans (h.count.add_right 1)
  have hlt : fetchAdd w s.connCount < 2 ^ w := Nat.mod_lt _ (Nat.two_pow_pos w)
  rw [accept] at hstep
  dsimp only at hstep
  split at hstep
  · rename_i hroom
    cases hstep
    have hsame : refusals (log ++ [.admitted s.accepted]) = refusals log := refusals_append log _
    refine ⟨?_, hlt, ?_⟩
    · rw [hsame, List.length_cons, Nat.add_right_comm]
      exact hadd
    · rw [hsame]
      intro hrefusals
      rw [h.eq hrefusals] at hroom
      exact hroom
  · cases hstep
    have hmore : refusals (log ++ [.refused s.accepted]) = refusals log + 1 := refusals_append log _
    refine ⟨?_, hlt, ?_⟩
    · rw [hmore, ← Nat.add_assoc]
      exact hadd
    · intro hrefusals
      rw [hmore] at hrefusals
      cases hrefusals

theorem counts_dropSession {conn : Nat} (h : Counts s log) (hmem : conn ∈ s.sessions) :
    Counts (s.dropSession conn).2 (log ++ [.ended conn]) := by
  have hsame : refusals (log ++ [.ended conn]) = refusals log := refusals_append log _
  have hlength : (s.sessions.erase conn).length + 1 = s.sessions.length :=
    List.length_erase_add_one hmem
  refine ⟨?_, Nat.mod_lt _ (Nat.two_pow_pos w), ?_⟩
  · rw [hsame]
    refine fetchSub_modEq_of_succ ?_
    rw [Nat.add_right_comm]
    show s.connCount ≡ (s.sessions.erase conn).length + 1 + refusals log [MOD 2 ^ w]
    rw [hlength]
    exact h.count
  · rw [hsame]
    intro hrefusals
    exact (List.length_erase_le).trans (h.sessions hrefusals)

theorem counts_step {a : ServerAction} {e : ServerEvent} (h : Counts s log)
    (hstep : s.step a = some (.ok (e, s'))) : Counts s' (log ++ [e]) := by
  cases a with
  | accept =>
      exact counts_accept h (Except.ok.inj (Option.some.inj hstep))
  | dropSession conn =>
      rw [step] at hstep
      split at hstep
      · rename_i hmem
        cases hstep
        exact counts_dropSession h hmem
      · cases hstep

theorem counts_of_run {workerConns : Fin (2 ^ w)}
    (h : (serverMachine w).Run (fun _ _ => True) (init workerConns) log s) : Counts s log := by
  refine h.invariant (I := fun log s => Counts s log) ?_ ?_
  · exact ⟨Nat.ModEq.rfl, Nat.two_pow_pos w, fun _ => Nat.zero_le _⟩
  · exact fun hcounts _ hstep => counts_step hcounts hstep

end Server

/-- The counter is the number of the sessions alive, modulo the word, exactly when the
connections refused so far are a multiple of it; and while there are none, a connection
becomes a session exactly when there is room for it. -/
theorem counts_sessions_iff {workerConns : Fin (2 ^ w)}
    (h : (serverMachine w).Run (fun _ _ => True) (.init workerConns) log s) :
    (s.connCount ≡ s.sessions.length [MOD 2 ^ w] ↔ 2 ^ w ∣ refusals log) ∧
      (refusals log = 0 → s.connCount = s.sessions.length ∧
        (s.accept.1 = .admitted s.accepted ↔ s.sessions.length < s.workerConns)) := by
  have hcounts := Server.counts_of_run h
  constructor
  · have hrefusals : s.sessions.length + refusals log ≡ s.sessions.length + 0 [MOD 2 ^ w] ↔
        refusals log ≡ 0 [MOD 2 ^ w] :=
      ⟨fun h => h.add_left_cancel', fun h => h.add_left _⟩
    rw [Nat.modEq_zero_iff_dvd] at hrefusals
    rw [← hrefusals]
    exact ⟨fun h => hcounts.count.symm.trans h, fun h => hcounts.count.trans h⟩
  · intro hrefusals
    have hcount := hcounts.eq hrefusals
    refine ⟨hcount, ?_⟩
    rw [Server.accept, hcount]
    dsimp only
    split
    · rename_i hroom
      exact ⟨fun _ => hroom, fun _ => rfl⟩
    · rename_i hfull
      exact ⟨by simp, fun hroom => absurd hroom hfull⟩

theorem counts_sessions_iff_of_one :
    ∃ (log : List ServerEvent) (s : Server 64),
      (serverMachine 64).Run (fun _ _ => True) (.init 1) log s ∧ s.connCount = s.sessions.length ∧
        (s.accept.1 = .admitted s.accepted ↔ s.sessions.length < s.workerConns) := by
  have hend : ((serverMachine 64).exec (fun _ _ => True) [.accept, .dropSession 0]
      (.init 1)).map (fun r => r.1) = some [.admitted 0, .ended 0] := by
    decide +kernel
  obtain ⟨⟨log, s⟩, hexec, rfl⟩ := Option.map_eq_some_iff.mp hend
  have hrun := Base.Machine.Run.of_exec _ hexec
  exact ⟨_, s, hrun, (counts_sessions_iff hrun).2 rfl⟩

/-- A connection refused while the session is alive is counted for ever. -/
theorem refused_counted :
    ¬ ∀ (workerConns : Fin (2 ^ 64)) (log : List ServerEvent) (s : Server 64),
      (serverMachine 64).Run (fun _ _ => True) (.init workerConns) log s →
        s.connCount = s.sessions.length ∧
          (s.accept.1 = .admitted s.accepted ↔ s.sessions.length < s.workerConns) := by
  intro h
  have hend : ((serverMachine 64).exec (fun _ _ => True) [.accept, .accept, .dropSession 0]
      (.init 1)).map (fun r => (r.2.connCount, r.2.sessions)) = some (1, []) := by
    decide +kernel
  obtain ⟨⟨log, s⟩, hexec, heq⟩ := Option.map_eq_some_iff.mp hend
  obtain ⟨hcount, hsessions⟩ := Prod.mk.inj heq
  have hequal := (h 1 log s (.of_exec _ hexec)).1
  rw [hcount, hsessions] at hequal
  cases hequal

end Ruyi.Service
