import Ruyi.Base.Queues
import Ruyi.Service.Dispatcher

namespace Ruyi.Service

open Base (Queues)

/-- What has become of the connections: sent to a worker, made a `Session` by one, its session
dropped, refused, or lost in a `send` that found the receiver gone. -/
structure Deliveries where
  sent : Queues Nat Nat
  handled : Queues Nat Nat
  ended : Queues Nat Nat
  refused : List Nat
  lost : List Nat

/-- The connection that the accept loop has in hand. -/
def AcceptLoop.conn : AcceptLoop → Option Nat
  | .scan conn _ | .send conn _ => some conn
  | .waiting | .count _ => none

namespace Deliveries

variable {w : Nat}

def none : Deliveries := ⟨fun _ => [], fun _ => [], fun _ => [], [], []⟩

def record (s : Dispatcher w) (a : DispatchAction) (e : DispatchEvent) (d : Deliveries) :
    Deliveries :=
  match a, e, s.loop with
  | .read, .refused conn, _ => { d with refused := d.refused ++ [conn] }
  | .send .disconnected, _, .send conn _ => { d with lost := d.lost ++ [conn] }
  | .send _, _, .send conn idx => { d with sent := d.sent.push idx conn }
  | .receive idx, _, _ =>
      match (s.workers idx).queue with
      | [] => d
      | conn :: _ => { d with handled := d.handled.push idx conn }
  | .dropSession idx conn, _, _ => { d with ended := d.ended.push idx conn }
  | _, _, _ => d

/-- The connections that the accept loop is done with, or has in hand. -/
def all (d : Deliveries) (s : Dispatcher w) : List Nat :=
  d.refused ++ d.lost ++ (List.range (s.mask + 1)).flatMap d.sent ++ s.loop.conn.toList

end Deliveries

theorem perm_move {α : Type} (xs ys zs : List α) (a : α) :
    (xs ++ [a] ++ ys ++ zs ++ []).Perm (xs ++ ys ++ zs ++ [a]) := by
  simp only [List.append_nil, List.append_assoc]
  apply List.Perm.append_left
  have hswap : ([a] ++ (ys ++ zs)).Perm (ys ++ zs ++ [a]) := List.perm_append_comm
  rwa [List.append_assoc] at hswap

theorem perm_erase_append {α : Type} [DecidableEq α] {xs : List α} {a : α} (h : a ∈ xs)
    (ys : List α) : (xs.erase a ++ (ys ++ [a])).Perm (xs ++ ys) := by
  have hcons : (a :: (xs.erase a ++ ys)).Perm (xs ++ ys) :=
    (List.perm_cons_erase h).symm.append_right ys
  rw [← List.append_assoc]
  exact (List.perm_append_singleton a _).trans hcons

namespace Dispatcher

variable {w : Nat} {s s' : Dispatcher w} {d : Deliveries} {a : DispatchAction}
  {e : DispatchEvent}

theorem dropSession_workers (idx conn : Nat) :
    (s.dropSession idx conn).workers = Function.update s.workers idx
      { s.workers idx with
        connCount := fetchSub w (s.workers idx).connCount
        sessions := (s.workers idx).sessions.erase conn } := rfl

/-- Each connection is in one place, and each worker has its own in the order of the sends. -/
structure Accounted (s : Dispatcher w) (d : Deliveries) : Prop where
  order : ∀ idx, d.handled idx ++ (s.workers idx).queue = d.sent idx
  sessions : ∀ idx, ((s.workers idx).sessions ++ d.ended idx).Perm (d.handled idx)
  ascending : ∀ idx, (d.sent idx).Pairwise (· < ·)
  hand : ∀ conn, s.loop.conn = some conn → conn + 1 = s.accepted
  bound : ∀ conn idx, s.loop = .send conn idx → idx ≤ s.mask
  outside : ∀ idx, s.mask < idx → d.sent idx = []
  all : (d.all s).Perm (List.range s.accepted)

theorem accounted_init {mask : Nat} {workerConns : Fin (2 ^ w)} :
    Accounted (init mask workerConns) .none where
  order _ := rfl
  sessions _ := List.Perm.refl _
  ascending _ := List.Pairwise.nil
  hand := nofun
  bound := nofun
  outside _ _ := rfl
  all := by
    have hnone : (List.range (mask + 1)).flatMap (fun _ => ([] : List Nat)) = [] :=
      List.flatMap_eq_nil_iff.mpr fun _ _ => rfl
    rw [Deliveries.all, Deliveries.none, init]
    dsimp only
    rw [hnone]
    exact List.Perm.refl _

theorem Accounted.lt_of_sent (h : Accounted s d) {conn idx c : Nat}
    (hconn : s.loop.conn = some conn) (hc : c ∈ d.sent idx) : c < conn := by
  have hidx : idx < s.mask + 1 := by
    by_contra hnot
    rw [h.outside idx (Nat.lt_of_succ_le (Nat.le_of_not_lt hnot))] at hc
    cases hc
  have hsent : c ∈ (List.range (s.mask + 1)).flatMap d.sent :=
    List.mem_flatMap.mpr ⟨idx, List.mem_range.mpr hidx, hc⟩
  have hnodup : (d.all s).Nodup := h.all.nodup_iff.mpr List.nodup_range
  rw [Deliveries.all, hconn, Option.toList_some] at hnodup
  have hne : c ≠ conn := by
    rintro rfl
    have hdisjoint := (List.nodup_append.mp hnodup).2.2
    exact hdisjoint c (List.mem_append_right _ hsent) c List.mem_cons_self rfl
  have hmem : c ∈ List.range s.accepted := by
    apply h.all.mem_iff.mp
    exact List.mem_append_left _ (List.mem_append_right _ hsent)
  have hlt := List.mem_range.mp hmem
  have hhand := h.hand conn hconn
  omega

theorem Accounted.of_loop (h : Accounted s d) {d' : Deliveries}
    (hqueue : ∀ i, (s'.workers i).queue = (s.workers i).queue)
    (hsessions : ∀ i, (s'.workers i).sessions = (s.workers i).sessions) (hmask : s'.mask = s.mask)
    (hsent : d'.sent = d.sent) (hhandled : d'.handled = d.handled) (hended : d'.ended = d.ended)
    (hhand : ∀ conn, s'.loop.conn = some conn → conn + 1 = s'.accepted)
    (hbound : ∀ conn idx, s'.loop = .send conn idx → idx ≤ s.mask)
    (hall : (d'.all s').Perm (List.range s'.accepted)) : Accounted s' d' where
  order i := by
    rw [hqueue, hsent, hhandled]
    exact h.order i
  sessions i := by
    rw [hsessions, hhandled, hended]
    exact h.sessions i
  ascending := hsent ▸ h.ascending
  hand := hhand
  bound conn idx hloop := by
    rw [hmask]
    exact hbound conn idx hloop
  outside idx hlt := by
    rw [hmask] at hlt
    rw [hsent]
    exact h.outside idx hlt
  all := hall

theorem accounted_accept (h : Accounted s d) (hloop : s.loop = .waiting) :
    Accounted { s with accepted := s.accepted + 1, loop := .scan s.accepted s.idx } d := by
  refine h.of_loop (fun _ => rfl) (fun _ => rfl) rfl rfl rfl rfl ?_ (fun _ _ => nofun) ?_
  · rintro conn ⟨⟩
    rfl
  · have hall := h.all
    rw [Deliveries.all, hloop, AcceptLoop.conn, Option.toList_none, List.append_nil] at hall
    rw [List.range_succ]
    exact hall.append_right _

theorem accounted_read {conn idx : Nat} (h : Accounted s d) (hloop : s.loop = .scan conn idx)
    (hstep : s.read conn idx = .ok (e, s')) : Accounted s' (d.record s .read e) := by
  have hall := h.all
  have hhand := h.hand
  rw [Deliveries.all, hloop] at hall
  rw [hloop] at hhand
  rw [read] at hstep
  split at hstep
  · cases hstep
  · rename_i hidx
    dsimp only at hstep
    split at hstep
    · cases hstep
      refine h.of_loop (fun _ => rfl) (fun _ => rfl) rfl rfl rfl rfl hhand ?_ hall
      rintro conn' idx' ⟨⟩
      exact Nat.le_of_not_lt hidx
    · split at hstep
      · cases hstep
        refine h.of_loop (fun _ => rfl) (fun _ => rfl) rfl rfl rfl rfl
          (fun _ hnone => by cases hnone) (by simp) (List.Perm.trans ?_ hall)
        exact perm_move d.refused d.lost _ conn
      · cases hstep
        exact h.of_loop (fun _ => rfl) (fun _ => rfl) rfl rfl rfl rfl hhand (by simp) hall

theorem accounted_lost {conn idx : Nat} (h : Accounted s d) (hloop : s.loop = .send conn idx) :
    Accounted (s.send conn idx .disconnected) { d with lost := d.lost ++ [conn] } := by
  have hworkers : ∀ i, (s.send conn idx .disconnected).workers i = s.workers i := by
    intro i
    rw [send_workers, if_pos rfl, Function.update_eq_self]
  have hall := h.all
  rw [Deliveries.all, hloop] at hall
  refine h.of_loop (fun i => by rw [hworkers]) (fun i => by rw [hworkers]) rfl rfl rfl rfl
    (fun _ => nofun) (fun _ _ => nofun) (List.Perm.trans ?_ hall)
  have hmove := perm_move (d.refused ++ d.lost) [] ((List.range (s.mask + 1)).flatMap d.sent) conn
  rw [List.append_nil (d.refused ++ d.lost ++ [conn]), List.append_nil (d.refused ++ d.lost),
    List.append_assoc d.refused d.lost [conn]] at hmove
  exact hmove

theorem accounted_sent {conn idx : Nat} (h : Accounted s d) (hloop : s.loop = .send conn idx)
    {result : SendResult} (hsent : result ≠ .disconnected) :
    Accounted (s.send conn idx result) { d with sent := d.sent.push idx conn } := by
  have hself : (s.send conn idx result).workers idx =
      { s.workers idx with queue := (s.workers idx).queue ++ [conn] } := by
    rw [send_workers, if_neg hsent, Function.update_self]
  have hqueue : ((s.send conn idx result).workers idx).queue =
      (s.workers idx).queue ++ [conn] := by
    rw [hself]
  have hother : ∀ i, i ≠ idx → (s.send conn idx result).workers i = s.workers i :=
    fun i hi => Function.update_of_ne hi _ _
  have hsessions : ∀ i, ((s.send conn idx result).workers i).sessions =
      (s.workers i).sessions := by
    intro i
    by_cases hi : i = idx
    · rw [hi, hself]
    · rw [hother i hi]
  have hidx := h.bound conn idx hloop
  have hpush : d.sent.push idx conn idx = d.sent idx ++ [conn] := Function.update_self _ _ _
  have hkeep : ∀ i, i ≠ idx → d.sent.push idx conn i = d.sent i :=
    fun i hi => Function.update_of_ne hi _ _
  constructor
  all_goals try dsimp only
  · intro i
    by_cases hi : i = idx
    · rw [hi, hqueue, hpush, ← h.order idx, List.append_assoc]
    · rw [hother i hi, hkeep i hi]
      exact h.order i
  · intro i
    rw [hsessions]
    exact h.sessions i
  · intro i
    by_cases hi : i = idx
    · rw [hi, hpush]
      refine List.pairwise_append.mpr ⟨h.ascending idx, List.pairwise_singleton _ _, ?_⟩
      intro c hc conn' hconn'
      rw [List.mem_singleton.mp hconn']
      exact h.lt_of_sent (by rw [hloop]; rfl) hc
    · rw [hkeep i hi]
      exact h.ascending i
  · exact fun _ => nofun
  · exact fun _ _ => nofun
  · intro i hlt
    rw [hkeep i (Nat.ne_of_gt (hidx.trans_lt hlt))]
    exact h.outside i hlt
  · have hall := h.all
    rw [Deliveries.all, hloop] at hall
    have hmem : idx ∈ List.range (s.mask + 1) := List.mem_range.mpr (Nat.lt_succ_of_le hidx)
    have hperm := Queues.flatMap_push List.nodup_range hmem d.sent conn
    have hmore := hperm.append_left (d.refused ++ d.lost)
    rw [← List.append_assoc] at hmore
    rw [Deliveries.all, send]
    dsimp only [setWorker, AcceptLoop.conn, Option.toList_none]
    rw [List.append_nil]
    exact hmore.trans hall

theorem accounted_send {conn idx : Nat} (h : Accounted s d) (hloop : s.loop = .send conn idx)
    (result : SendResult) :
    Accounted (s.send conn idx result) (d.record s (.send result) .silent) := by
  cases result with
  | disconnected =>
      have hlost := accounted_lost h hloop
      simpa only [Deliveries.record, hloop] using hlost
  | ok =>
      have hconnected : SendResult.ok ≠ .disconnected := nofun
      have hsent := accounted_sent h hloop hconnected
      simpa only [Deliveries.record, hloop] using hsent
  | io =>
      have hconnected : SendResult.io ≠ .disconnected := nofun
      have hsent := accounted_sent h hloop hconnected
      simpa only [Deliveries.record, hloop] using hsent

theorem accounted_inc {idx : Nat} (h : Accounted s d) (hloop : s.loop = .count idx) :
    Accounted (s.inc idx) d := by
  have hworkers : ∀ i, ((s.inc idx).workers i).queue = (s.workers i).queue ∧
      ((s.inc idx).workers i).sessions = (s.workers i).sessions := by
    intro i
    by_cases hi : i = idx
    · subst hi
      rw [inc_workers, Function.update_self]
      exact ⟨rfl, rfl⟩
    · rw [inc_workers, Function.update_of_ne hi]
      exact ⟨rfl, rfl⟩
  have hall := h.all
  rw [Deliveries.all, hloop] at hall
  exact h.of_loop (fun i => (hworkers i).1) (fun i => (hworkers i).2) rfl rfl rfl rfl
    (fun _ => nofun) (fun _ _ => nofun) hall

theorem accounted_receive {idx : Nat} (h : Accounted s d) (hstep : s.receive idx = some s') :
    Accounted s' (d.record s (.receive idx) .silent) := by
  rw [receive] at hstep
  split at hstep
  · cases hstep
  · rename_i conn queue hqueue
    cases hstep
    have hpush : d.handled.push idx conn idx = d.handled idx ++ [conn] :=
      Function.update_self _ _ _
    have hkeep : ∀ i, i ≠ idx → d.handled.push idx conn i = d.handled i :=
      fun i hi => Function.update_of_ne hi _ _
    rw [Deliveries.record, hqueue]
    constructor <;> dsimp only [setWorker]
    · intro i
      have horder := h.order i
      by_cases hi : i = idx
      · rw [hi, hqueue] at horder
        rw [hi, Function.update_self, hpush, ← horder]
        exact (List.append_cons _ conn queue).symm
      · rw [Function.update_of_ne hi, hkeep i hi]
        exact horder
    · intro i
      have hsessions := h.sessions i
      by_cases hi : i = idx
      · rw [hi] at hsessions
        rw [hi, Function.update_self, hpush]
        exact (hsessions.cons conn).trans (List.perm_append_singleton conn _).symm
      · rw [Function.update_of_ne hi, hkeep i hi]
        exact hsessions
    · exact h.ascending
    · exact h.hand
    · exact h.bound
    · exact h.outside
    · exact h.all

theorem accounted_dropSession {idx conn : Nat} (h : Accounted s d)
    (hmem : conn ∈ (s.workers idx).sessions) :
    Accounted (s.dropSession idx conn) (d.record s (.dropSession idx conn) .silent) := by
  have hqueue : ∀ i, ((s.dropSession idx conn).workers i).queue = (s.workers i).queue := by
    intro i
    by_cases hi : i = idx
    · rw [hi, dropSession_workers, Function.update_self]
    · rw [dropSession_workers, Function.update_of_ne hi]
  rw [Deliveries.record]
  constructor
  all_goals try dsimp only
  · intro i
    rw [hqueue]
    exact h.order i
  · intro i
    have hsessions := h.sessions i
    by_cases hi : i = idx
    · have hpush : d.ended.push idx conn idx = d.ended idx ++ [conn] := Function.update_self _ _ _
      rw [hi] at hsessions
      rw [hi, hpush, dropSession_workers, Function.update_self]
      have hmoved := perm_erase_append hmem (d.ended idx)
      exact hmoved.trans hsessions
    · rw [Queues.push, Function.update_of_ne hi, dropSession_workers, Function.update_of_ne hi]
      exact hsessions
  · exact h.ascending
  · exact h.hand
  · exact h.bound
  · exact h.outside
  · exact h.all

theorem read_mask {conn idx : Nat} (hstep : s.read conn idx = .ok (e, s')) :
    s'.mask = s.mask := by
  rw [read] at hstep
  split at hstep
  · cases hstep
  · dsimp only at hstep
    split at hstep
    · cases hstep
      rfl
    · split at hstep <;> cases hstep
      · rfl
      · rfl

theorem step_mask (hstep : s.step a = some (.ok (e, s'))) : s'.mask = s.mask := by
  cases a with
  | read =>
      rw [step] at hstep
      split at hstep
      · exact read_mask (Option.some.inj hstep)
      · cases hstep
  | receive idx =>
      obtain ⟨t, hreceive, heq⟩ := Option.map_eq_some_iff.mp hstep
      cases heq
      rw [receive] at hreceive
      split at hreceive <;> cases hreceive
      rfl
  | _ =>
      rw [step] at hstep
      split at hstep <;> cases hstep
      rfl

theorem accounted_step (h : Accounted s d) (hstep : s.step a = some (.ok (e, s'))) :
    Accounted s' (d.record s a e) := by
  cases a with
  | accept =>
      rw [step] at hstep
      split at hstep
      · rename_i hloop
        cases hstep
        exact accounted_accept h hloop
      · cases hstep
  | read =>
      rw [step] at hstep
      split at hstep
      · rename_i conn idx hloop
        exact accounted_read h hloop (Option.some.inj hstep)
      · cases hstep
  | send result =>
      rw [step] at hstep
      split at hstep
      · rename_i conn idx hloop
        cases hstep
        exact accounted_send h hloop result
      · cases hstep
  | inc =>
      rw [step] at hstep
      split at hstep
      · rename_i idx hloop
        cases hstep
        exact accounted_inc h hloop
      · cases hstep
  | receive idx =>
      obtain ⟨t, hreceive, heq⟩ := Option.map_eq_some_iff.mp hstep
      cases heq
      exact accounted_receive h hreceive
  | dropSession idx conn =>
      rw [step] at hstep
      split at hstep
      · rename_i hmem
        cases hstep
        exact accounted_dropSession h hmem
      · cases hstep

end Dispatcher

variable {w mask : Nat} {s : Dispatcher w} {log : List DispatchEvent} {d : Deliveries}

/-- Each connection accepted is refused, lost in a `send` that failed, sent to one worker or
still in hand, and is so once; and each worker takes the connections sent to it out of its channel
in the order in which they came, and makes of each a `Session`, which is alive or dropped. -/
theorem each_connection_once {workerConns : Fin (2 ^ w)}
    (h : ((dispatchMachine w).withHistory Deliveries.record).Run (fun _ _ => True)
      (.init mask workerConns, .none) log (s, d)) :
    (d.refused ++ d.lost ++ (List.range (mask + 1)).flatMap d.sent ++ s.loop.conn.toList).Perm
      (List.range s.accepted) ∧
    ∀ idx, d.handled idx ++ (s.workers idx).queue = d.sent idx ∧
      (d.sent idx).Pairwise (· < ·) ∧
      ((s.workers idx).sessions ++ d.ended idx).Perm (d.handled idx) := by
  have haccounted : s.Accounted d := by
    refine h.invariant (I := fun _ p => p.1.Accounted p.2) Dispatcher.accounted_init ?_
    intro _ _ _ _ p hprev _ hstep
    obtain ⟨hnext, hd⟩ := Base.Machine.withHistory_step.mp hstep
    rw [hd]
    exact Dispatcher.accounted_step hprev hnext
  have hmask : s.mask = mask := by
    refine h.invariant (I := fun _ p => p.1.mask = mask) rfl ?_
    intro _ _ _ _ p hprev _ hstep
    rw [Dispatcher.step_mask (Base.Machine.withHistory_step.mp hstep).1]
    exact hprev
  have hall := haccounted.all
  rw [Deliveries.all, hmask] at hall
  exact ⟨hall, fun idx => ⟨haccounted.order idx, haccounted.ascending idx, haccounted.sessions idx⟩⟩

/-- Two workers of one connection each.  Of four connections the first is lost, the second has
had a session, the third has one and the fourth is refused. -/
def mixedFates : List DispatchAction :=
  [.accept, .read, .send .disconnected, .inc, .accept, .read, .send .io, .inc, .receive 1,
    .dropSession 1 1, .accept, .read, .read, .send .ok, .inc, .receive 1, .accept, .read, .read]

theorem each_connection_once_of_four :
    ∃ (log : List DispatchEvent) (s : Dispatcher 64) (d : Deliveries),
      ((dispatchMachine 64).withHistory Deliveries.record).Run (fun _ _ => True)
        (.init 1 1, .none) log (s, d) ∧
      (d.lost, d.ended 1, d.sent 1, d.refused) = ([0], [1], [1, 2], [3]) ∧
      (d.refused ++ d.lost ++ (List.range 2).flatMap d.sent ++ s.loop.conn.toList).Perm
        (List.range s.accepted) := by
  have hend : (((dispatchMachine 64).withHistory Deliveries.record).exec (fun _ _ => True)
      mixedFates (.init 1 1, .none)).map
        (fun r => (r.2.2.lost, r.2.2.ended 1, r.2.2.sent 1, r.2.2.refused)) =
      some ([0], [1], [1, 2], [3]) := by
    decide +kernel
  obtain ⟨⟨log, s, d⟩, hexec, hfates⟩ := Option.map_eq_some_iff.mp hend
  have hrun := Base.Machine.Run.of_exec _ hexec
  exact ⟨log, s, d, hrun, hfates, (each_connection_once hrun).1⟩

end Ruyi.Service
