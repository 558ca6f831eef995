import RedisServer.IdleList
import RedisServer.Replies

/-!
# How long the event loop sleeps

Before each `poll` the loop asks `next_timer_ms` for a timeout.  `process_timers` serves two kinds
of deadlines, those of the idle connections and those of the TTL heap (`Server.deadlines`).
`next_timer_ms` looks at the head of the idle list only.

For the idle connections that is enough: the list is in the order of `idle_start`, in every state
of every run.  A key that expires a millisecond or more before the first idle connection is
overslept.  `Server.sleep_meets_deadlines_iff` states both, `Server.ttl_is_overslept` is a run.
-/

set_option autoImplicit false

namespace RedisServer

open Runs

namespace Server

/-- The idle deadline of a connection, as `next_us` is computed. -/
def idleDeadline {σ : Type} (s : Server σ) (p : Ptr) : UInt64 := s.idleStart p + idleTimeoutMs * 1000

/-- The deadlines that `process_timers` serves: those of the connections in `order` and those of
the keys in the TTL heap. -/
def deadlines (s : Server Host) (order : List Ptr) : List Nat :=
  order.map (fun p => (s.idleStart p).toNat + idleTimeoutMs.toNat * 1000) ++
    s.data.data.heap.map fun item => item.val.toNat

/-- Whole milliseconds from `now` to `d`. -/
def msUntil (now d : UInt64) : Nat := (d.toNat - now.toNat) / 1000

/-- No key of the TTL heap expires a millisecond before the first connection in `order` becomes
idle; without connections, none expires within ten seconds. -/
def TtlBehindIdle (s : Server Host) (order : List Ptr) (now : UInt64) : Prop :=
  ∀ item ∈ s.data.data.heap,
    match order.head? with
    | some p => msUntil now (s.idleDeadline p) ≤ msUntil now item.val
    | none => 10000 ≤ msUntil now item.val

/-! ## next_timer_ms -/

section NextTimer

variable {σ : Type} {s : Server σ} {p q : Ptr} {order : List Ptr} {now : UInt64}

theorem idleDeadline_le (s : Server σ) (p : Ptr) :
    (s.idleDeadline p).toNat ≤ (s.idleStart p).toNat + idleTimeoutMs.toNat * 1000 := by
  have htimeout : (idleTimeoutMs * 1000).toNat = idleTimeoutMs.toNat * 1000 := by decide
  unfold idleDeadline
  rw [UInt64.toNat_add, htimeout]
  exact Nat.mod_le _ _

theorem nextTimerMs_nil (h : IdleList s []) : s.nextTimerMs now = .ok 10000 := by
  unfold nextTimerMs
  rw [dListEmpty_iff h]
  rfl

/-- With connections the timeout is what is left of the time of the first one.  It fits into 32
bits, since no connection has been active after `now`. -/
theorem nextTimerMs_cons (h : IdleList s (p :: order)) (hnow : s.clock ≤ now) :
    ∃ m, s.nextTimerMs now = .ok m ∧ m.toNat = msUntil now (s.idleDeadline p) := by
  obtain ⟨c, hc⟩ := Option.isSome_iff_exists.mp ((h.live p).mp List.mem_cons_self)
  have hnext : s.idleList.next = some (.conn p) := h.ring.next_cons
  have hunfold : s.nextTimerMs now =
      if s.idleDeadline p ≤ now then .ok 0
      else .ok ((s.idleDeadline p - now) / 1000).toUInt32 := by
    unfold nextTimerMs
    rw [dListEmpty_iff h]
    simp only [ok_bind, reduceCtorEq, decide_false, Bool.false_eq_true, if_false]
    rw [hnext, connOf, ok_bind, Store.read_of hc, ok_bind, idleDeadline, idleStart_of hc]
    rfl
  rw [hunfold]
  split
  · rename_i hpast
    refine ⟨0, rfl, ?_⟩
    have hle := UInt64.le_iff_toNat_le.mp hpast
    rw [msUntil, Nat.sub_eq_zero_of_le hle]
    rfl
  · rename_i hahead
    refine ⟨_, rfl, ?_⟩
    have hlt : now ≤ s.idleDeadline p := UInt64.le_of_lt (UInt64.not_le.mp hahead)
    have hstart := UInt64.le_iff_toNat_le.mp (UInt64.le_trans (h.past p) hnow)
    have hdeadline := idleDeadline_le s p
    have htimeout : idleTimeoutMs.toNat = 5000 := rfl
    rw [UInt64.toNat_toUInt32, UInt64.toNat_div, UInt64.toNat_sub_of_le _ _ hlt]
    show _ / 1000 % 2 ^ 32 = _
    rw [Nat.mod_eq_of_lt (by omega), msUntil]

/-- A sleep of whole milliseconds ends before the deadline it was computed from. -/
theorem sleep_le (now d : UInt64) : now.toNat + 1000 * msUntil now d ≤ max now.toNat d.toNat := by
  unfold msUntil
  omega

/-- A sleep of `k` milliseconds ends before a deadline exactly if that is so many ahead. -/
theorem sleep_le_iff {now d : UInt64} {k : Nat} :
    now.toNat + 1000 * k ≤ max now.toNat d.toNat ↔ k ≤ msUntil now d := by
  unfold msUntil
  omega

/-- **The first connection speaks for all.** -/
theorem sleep_le_idle (h : IdleList s (p :: order)) (hq : q ∈ p :: order) :
    now.toNat + 1000 * msUntil now (s.idleDeadline p) ≤
      max now.toNat ((s.idleStart q).toNat + idleTimeoutMs.toNat * 1000) := by
  have hfirst : (s.idleStart p).toNat ≤ (s.idleStart q).toNat := by
    rcases List.mem_cons.mp hq with rfl | hq
    · exact Nat.le_refl _
    · exact UInt64.le_iff_toNat_le.mp (List.rel_of_pairwise_cons h.sorted hq)
  have hdeadline := (idleDeadline_le s p).trans (Nat.add_le_add_right hfirst _)
  exact (sleep_le now (s.idleDeadline p)).trans (max_le_max_left _ hdeadline)

end NextTimer

/-! ## Both kinds of deadlines -/

variable {s : Server Host} {order : List Ptr} {now : UInt64}

/-- What a timeout of `k` milliseconds has to meet. -/
theorem deadlines_met_iff {k : Nat}
    (hidle : ∀ p ∈ order, now.toNat + 1000 * k ≤
      max now.toNat ((s.idleStart p).toNat + idleTimeoutMs.toNat * 1000)) :
    (∀ d ∈ s.deadlines order, now.toNat + 1000 * k ≤ max now.toNat d) ↔
      ∀ item ∈ s.data.data.heap, k ≤ msUntil now item.val := by
  constructor
  · intro h item hi
    exact sleep_le_iff.mp (h _ (List.mem_append_right _ (List.mem_map_of_mem hi)))
  · intro h d hd
    rcases List.mem_append.mp hd with hd | hd
    · obtain ⟨p, hp, rfl⟩ := List.mem_map.mp hd
      exact hidle p hp
    · obtain ⟨item, hi, rfl⟩ := List.mem_map.mp hd
      exact sleep_le_iff.mpr (h item hi)

theorem nextTimerMs_met_iff (h : IdleList s order) (hnow : s.clock ≤ now) :
    ∃ m, s.nextTimerMs now = .ok m ∧
      ((∀ d ∈ s.deadlines order, now.toNat + 1000 * m.toNat ≤ max now.toNat d) ↔
        s.TtlBehindIdle order now) := by
  cases order with
  | nil => exact ⟨10000, nextTimerMs_nil h, deadlines_met_iff nofun⟩
  | cons p order =>
    obtain ⟨m, hm, hms⟩ := nextTimerMs_cons h hnow
    refine ⟨m, hm, ?_⟩
    rw [hms]
    exact deadlines_met_iff fun q hq => sleep_le_idle h hq

/-- **When the loop sleeps past no deadline.** In every state that a run of the event loop reaches,
and at every later time, the timeout of `next_timer_ms` meets all deadlines that `process_timers`
serves exactly if no key expires a millisecond before the first idle connection. -/
theorem sleep_meets_deadlines_iff (lim : Limits) (data : Host) (events : List LoopEvent)
    (hadm : AllSteps (step (Host.serve lim) Host.expire) Admits (start data) events)
    (hrun : run (step (Host.serve lim) Host.expire) (start data) events = .ok s)
    (hnow : s.clock ≤ now) :
    ∃ order m, IdleList s order ∧ s.nextTimerMs now = .ok m ∧
      ((∀ d ∈ s.deadlines order, now.toNat + 1000 * m.toNat ≤ max now.toNat d) ↔
        s.TtlBehindIdle order now) := by
  obtain ⟨hok, -⟩ := run_spec (start_idleList data) (start_open data) hadm
  obtain ⟨order, h⟩ := hok s hrun
  obtain ⟨m, hm, hmet⟩ := nextTimerMs_met_iff h hnow
  exact ⟨order, m, h, hm, hmet⟩

/-- A connection sets a key and lets it expire after `ms` milliseconds. -/
def keyExpires (ms : String) : List LoopEvent :=
  [.accept (some 3) 10,
    .ready 3 ⟨frame ["set", "k", "v"] ++ frame ["expire", "k", ms], [.count 64], [.count 64]⟩ 20]

/-- A key that outlives the idle connection. -/
theorem sleep_meets_deadlines_iff_late : ∃ s order m,
    run (step (Host.serve ⟨64, 0⟩) Host.expire) (start { clock := [20, 20] }) (keyExpires "9000") =
      .ok s ∧ IdleList s order ∧ s.nextTimerMs 20 = .ok m ∧
      ((∀ d ∈ s.deadlines order, (20 : UInt64).toNat + 1000 * m.toNat ≤ max (20 : UInt64).toNat d) ↔
        s.TtlBehindIdle order 20) := by
  have hadm : AllSteps (step (Host.serve ⟨64, 0⟩) Host.expire) Admits (start { clock := [20, 20] })
      (keyExpires "9000") := by decide +kernel
  have hclock : (run (step (Host.serve ⟨64, 0⟩) Host.expire) (start { clock := [20, 20] })
      (keyExpires "9000")).toOption.map clock = some 20 := by decide +kernel
  obtain ⟨s, hrun, hclock⟩ := ok_of_map hclock
  have hnow : s.clock ≤ 20 := by
    rw [hclock]
    decide
  obtain ⟨order, m, h⟩ := sleep_meets_deadlines_iff ⟨64, 0⟩ _ _ hadm hrun hnow
  exact ⟨s, order, m, hrun, h⟩

/-- A key that expires after 1 ms: the loop goes to sleep for 5 s. -/
theorem ttl_is_overslept :
    AllSteps (step (Host.serve ⟨64, 0⟩) Host.expire) Admits (start { clock := [20, 20] })
      (keyExpires "1") ∧
    ∃ s order m, run (step (Host.serve ⟨64, 0⟩) Host.expire) (start { clock := [20, 20] })
        (keyExpires "1") = .ok s ∧ s.clock ≤ 20 ∧ IdleList s order ∧ s.nextTimerMs 20 = .ok m ∧
      ∃ d ∈ s.deadlines order, max 20 d < 20 + 1000 * m.toNat := by
  have hadm : AllSteps (step (Host.serve ⟨64, 0⟩) Host.expire) Admits (start { clock := [20, 20] })
      (keyExpires "1") := by decide +kernel
  have hafter : (run (step (Host.serve ⟨64, 0⟩) Host.expire) (start { clock := [20, 20] })
      (keyExpires "1")).toOption.map (fun s => (s.clock, s.data.data.heap,
        (s.nextTimerMs 20).toOption)) = some (20, [⟨1020, 0⟩], some 5000) := by decide +kernel
  obtain ⟨s, hrun, hafter⟩ := ok_of_map hafter
  simp only [Prod.mk.injEq] at hafter
  obtain ⟨hclock, hheap, htimer⟩ := hafter
  obtain ⟨hok, -⟩ := run_spec (start_idleList _) (start_open _) hadm
  obtain ⟨order, h⟩ := hok s hrun
  refine ⟨hadm, s, order, 5000, hrun, ?_, h, ?_, 1020, ?_, by decide⟩
  · rw [hclock]
    decide
  · exact ok_of_toOption htimer
  · apply List.mem_append_right
    rw [hheap]
    exact List.mem_singleton.mpr rfl

end Server

end RedisServer
