import RedisServer.Answers

/-!
# The backlog of the TTL loop

`process_timers` takes at most `k_max_works + 1` entries a call, so what is due may have to wait for
the next one.  It waits not long: no call and no request adds to the slots with a deadline before
`d`, once `d` has passed, and every call takes its share of them, the earliest first.

* `expireLoop_overdue`, `expireLoop_length` — what the loop takes away, and how much at most;
* `request_overdue` — a request whose own deadline is not before `d` adds nothing;
* `backlog_clears` — so enough calls, with any requests in between, leave no entry overdue; and if
  the requests are ones that the server is sure to answer, no call fails.
-/

set_option autoImplicit false

namespace RedisServer

open Runs GlobalData

variable {lim : Limits} {g g' : GlobalData} {F : Store Entry} {now d : UInt64} {cmd : List Bytes}

/-- The number of slots with a deadline before `d`. -/
def GlobalData.overdue (g : GlobalData) (d : UInt64) : Nat := g.heap.countP fun x => x.val < d

def Event.isTimers : Event → Bool
  | .request _ _ => false
  | .timers _ => true

/-- The deadline that an `expire` sets. -/
def newDeadline (now : UInt64) : List Bytes → Option UInt64
  | [c, _, s] =>
    if c = ascii "expire" then
      match str2int s with
      | none => none
      | some ttlMs => if ttlMs < 0 then none else some (now + UInt64.ofInt ttlMs * 1000)
    else none
  | _ => none

/-- The event comes after `d`: the TTL loop runs at `d` or later, and an `expire` sets no deadline
before `d`. -/
def Event.Late (d : UInt64) : Event → Prop
  | .request now cmd => ∀ d' ∈ newDeadline now cmd, d ≤ d'
  | .timers now => d ≤ now

/-- If the first slot is not overdue, none is. -/
theorem GlobalData.Backfill.none_overdue (b : g.Backfill F) {top : HeapItem} {rest : Heap}
    (hg : g.heap = top :: rest) (htop : d ≤ top.val) : g.overdue d = 0 := by
  refine List.countP_eq_zero.mpr ?_
  intro x hx hlt
  have hfirst : g.heap[0]? = some top := by rw [hg]; rfl
  have hle := b.first_le hfirst x hx
  exact UInt64.not_lt.mpr (UInt64.le_trans htop hle) (of_decide_eq_true hlt)

/-- **The loop** takes away up to `n` slots that are overdue. -/
theorem expireLoop_overdue (hd : d ≤ now) : ∀ {n : Nat} {g g' : GlobalData} {F : Store Entry},
    g.Backfill F → expireLoop now n g = .ok g' → g'.overdue d ≤ g.overdue d - n
  | 0, _, _, _, _, h => by
    cases h
    exact Nat.le_refl _
  | n + 1, g, g', F, b, h => by
    unfold expireLoop at h
    cases hg : g.heap with
    | nil =>
      rw [hg] at h
      cases h
      rw [overdue, hg]
      exact Nat.zero_le _
    | cons top rest =>
      rw [hg] at h
      dsimp only at h
      by_cases hdue : top.val < now
      · rw [if_pos hdue] at h
        obtain ⟨g₁, h₁, h⟩ := bind_ok.mp h
        obtain ⟨top', F', htop', b', hperm, -⟩ := b.expireTop h₁
        rw [hg] at htop'
        cases htop'
        have hrest := expireLoop_overdue hd b' h
        have hcount : g₁.overdue d + (if top.val < d then 1 else 0) = g.overdue d := by
          have := hperm.countP_eq fun x => decide (x.val < d)
          rw [List.countP_cons] at this
          simpa [overdue] using this
        by_cases hlt : top.val < d
        · rw [if_pos hlt] at hcount
          omega
        · have := b.none_overdue hg (UInt64.not_lt.mp hlt)
          omega
      · rw [if_neg hdue] at h
        cases h
        rw [b.none_overdue hg (UInt64.le_trans hd (UInt64.not_lt.mp hdue))]
        exact Nat.zero_le _

/-- **The loop** takes away at most `n` slots. -/
theorem expireLoop_length : ∀ {n : Nat} {g g' : GlobalData} {F : Store Entry}, g.Backfill F →
    expireLoop now n g = .ok g' → g.heap.length ≤ g'.heap.length + n
  | 0, _, _, _, _, h => by
    cases h
    exact Nat.le_refl _
  | n + 1, g, g', F, b, h => by
    unfold expireLoop at h
    cases hg : g.heap with
    | nil => exact Nat.zero_le _
    | cons top rest =>
      rw [hg] at h
      dsimp only at h
      split at h
      · obtain ⟨g₁, h₁, h⟩ := bind_ok.mp h
        obtain ⟨top', F', htop', b', hperm, -⟩ := b.expireTop h₁
        have hrest := expireLoop_length b' h
        have hlen := hperm.length_eq
        rw [hg] at hlen
        simp only [List.length_cons] at hlen ⊢
        omega
      · cases h
        rw [hg]
        exact Nat.le_add_right _ _

/-- The slot that an `expire` writes is not overdue, if its deadline is not. -/
theorem ttlSlot_overdue {key s : Bytes} {ttlMs : Int} (hint : str2int s = some ttlMs)
    (hlate : ∀ d' ∈ newDeadline now [ascii "expire", key, s], d ≤ d') (p : Ptr) :
    (ttlSlot p ttlMs now).countP (fun x => decide (x.val < d)) = 0 := by
  refine List.countP_eq_zero.mpr ?_
  unfold ttlSlot
  intro x hx hlt
  split at hx
  · cases hx
  · rename_i hpos
    obtain rfl := List.mem_singleton.mp hx
    have hset : newDeadline now [ascii "expire", key, s] =
        some (now + UInt64.ofInt ttlMs * 1000) := by
      rw [newDeadline, if_pos rfl, hint]
      exact if_neg hpos
    exact UInt64.not_lt.mpr (hlate _ hset) (of_decide_eq_true hlt)

/-- **A request** adds no slot that is overdue, if it sets no such deadline. -/
theorem request_overdue (w : g.Wf) (b : g.Backfill F) (hlate : ∀ d' ∈ newDeadline now cmd, d ≤ d')
    (h : Effect now g cmd g') : g'.overdue d ≤ g.overdue d := by
  cases h with
  | idle => exact Nat.le_refl _
  | looked _ hl =>
    rw [(lookupEntry_spec w hl).data]
    exact Nat.le_refl _
  | ranked z _ hl he _ =>
    have hheap := congrArg GlobalData.heap (lookupEntry_spec w hl).data
    exact Nat.le_of_eq (congrArg (List.countP _) hheap)
  | @timed key s ttlMs g₁ g' p hint hl ht =>
    have hl := lookupEntry_spec w hl
    have b₁ : g₁.Backfill F := b.congr (by rw [hl.data]) (by rw [hl.data]) (by rw [hl.data])
    obtain ⟨n, e, -, -, he, -⟩ := hl.some
    obtain ⟨F', b', hmore⟩ := b₁.timed he ht
    obtain ⟨g₂, h₂, -, hperm⟩ := @entrySetTtl_spec _ now b₁.ok p e (b₁.more p e he) ttlMs
    cases hmore.symm.trans h₂
    have hperm : g'.heap.Perm (ttlSlot p ttlMs now ++ otherSlots g₁.heap p) := hperm
    have hheap : g₁.heap = g.heap := by rw [hl.data]
    rw [overdue, hperm.countP_eq, List.countP_append, ttlSlot_overdue hint hlate p, Nat.zero_add, hheap]
    exact List.filter_sublist.countP_le
  | stored hi =>
    obtain ⟨-, m, hc⟩ := insertEntry_spec w hi
    rw [hc.data]
    exact Nat.le_refl _
  | @added key s name score g₁ g₂ p e z _ hl hi he =>
    have hl := lookupEntry_spec w hl
    obtain ⟨-, m, hc⟩ := insertEntry_spec hl.wf hi
    have h₁ : g₁.heap = g.heap := by rw [hl.data]
    have h₂ : g₂.heap = g₁.heap := by rw [hc.data]
    exact Nat.le_of_eq (congrArg (List.countP _) (h₂.trans h₁))
  | missed _ => exact Nat.le_refl _
  | deleted hd he =>
    obtain ⟨-, hheap, -⟩ := deleted_spec w hd he
    rw [overdue, hheap]
    exact Nat.le_refl _

/-- How many overdue slots an event takes away, if there are so many. -/
def Event.share : Event → Nat
  | .request _ _ => 0
  | .timers _ => maxWorks + 1

theorem serve_overdue {ev : Event} (hi : g.Wf ∧ ∃ F, g.Backfill F) (hlate : ev.Late d)
    (h : serve lim g ev = .ok g') :
    (g'.Wf ∧ ∃ F, g'.Backfill F) ∧ g'.overdue d ≤ g.overdue d - ev.share := by
  refine ⟨serve_backfill g ev g' hi h, ?_⟩
  obtain ⟨w, F, b⟩ := hi
  cases ev with
  | request now cmd =>
    obtain ⟨code, out, hreq⟩ := serve_request.mp h
    exact request_overdue w b hlate (doRequest_effect hreq)
  | timers now =>
    have hloop : expireLoop now (maxWorks + 1) g = .ok g' := h
    have hle := expireLoop_overdue hlate b hloop
    rwa [Event.share]

theorem sum_share (evs : List Event) :
    (evs.map Event.share).sum = (maxWorks + 1) * evs.countP Event.isTimers := by
  induction evs with
  | nil => rfl
  | cons ev evs ih =>
    rw [List.map_cons, List.sum_cons, ih]
    cases ev with
    | request now cmd =>
      rw [Event.share, Nat.zero_add, List.countP_cons_of_neg (by simp [Event.isTimers])]
    | timers now => rw [Event.share, List.countP_cons_of_pos rfl, Nat.mul_succ, Nat.add_comm]

/-- Each pass among the events has taken away 2001 slots with a deadline before `d`, as long as there
were any; and if the passes were enough for all of them, no entry is overdue. -/
structure GlobalData.Cleared (g g' : GlobalData) (d : UInt64) (evs : List Event) : Prop where
  fewer : g'.overdue d ≤ g.overdue d - (maxWorks + 1) * evs.countP Event.isTimers
  none : g.overdue d ≤ (maxWorks + 1) * evs.countP Event.isTimers →
    ∀ p e, g'.entries p = some e → ∀ d' ∈ g'.deadline e, d ≤ d'

theorem cleared_of_run {evs : List Event} (hi : g.Wf ∧ ∃ F, g.Backfill F)
    (hlate : ∀ ev ∈ evs, ev.Late d) (hrun : run (serve lim) g evs = .ok g') : Cleared g g' d evs := by
  obtain ⟨⟨-, F, b⟩, hle⟩ := run_drains (fun _ _ _ hi hc h => serve_overdue hi hc h) hi hlate hrun
  rw [sum_share] at hle
  refine ⟨hle, ?_⟩
  intro henough p e he d' hd'
  have hzero : g'.overdue d = 0 := by omega
  have hslot := (b.deadline_iff he).mp hd'
  by_contra hlt
  exact List.countP_eq_zero.mp hzero _ hslot (decide_eq_true (UInt64.not_le.mp hlt))

/-- **The backlog clears.**  From any reachable state, let requests and passes of the TTL loop
follow in any order, all of them after `d`.  A pass takes away 2001 slots at most, and as many with
a deadline before `d` as long as there are any; when the passes were enough for all of them, no entry
is overdue.  If the server is sure to answer the requests, and the passes take no node of ht2, all of
this is done: no request and no pass fails. -/
theorem backlog_clears (lim : Limits) (before evs : List Event) (d : UInt64)
    (hlate : ∀ ev ∈ evs, ev.Late d) :
    (∀ g now g', run (serve lim) {} before = .ok g → processTimers g now = .ok g' →
      g.heap.length ≤ g'.heap.length + (maxWorks + 1)) ∧
    (∀ g g', run (serve lim) {} before = .ok g → run (serve lim) g evs = .ok g' →
      Cleared g g' d evs) ∧
    (AllSteps (serve lim) (fun g ev => ev.Meets (Served lim) ChargedExpiry g) {} (before ++ evs) →
      ∃ g g', run (serve lim) {} before = .ok g ∧ run (serve lim) g evs = .ok g') := by
  have hreached : ∀ g, run (serve lim) {} before = .ok g → g.Wf ∧ ∃ F, g.Backfill F :=
    fun g hbefore => run_invariant_all serve_backfill ⟨.empty, _, .empty⟩ hbefore
  refine ⟨?_, fun g g' hbefore hrun => cleared_of_run (hreached g hbefore) hlate hrun, ?_⟩
  · intro g now g' hbefore hpass
    obtain ⟨-, F, b⟩ := hreached g hbefore
    exact expireLoop_length b hpass
  · intro hserved
    obtain ⟨g', -, hrun, -⟩ := history_served lim (before ++ evs) hserved
    obtain ⟨g, hbefore, hafter⟩ := run_append_ok.mp hrun
    exact ⟨g, g', hbefore, hafter⟩

/-- Two keys are due; a request comes between them and the pass. -/
def dueKeys : List Event :=
  [ask 0 ["set", "k", "v"], ask 1 ["expire", "k", "5"], ask 2 ["set", "j", "w"],
    ask 3 ["expire", "j", "4"]]

theorem backlog_clears_two : ∃ g g', run (serve ⟨64, 0⟩) {} dueKeys = .ok g ∧
    run (serve ⟨64, 0⟩) g [ask 7000 ["get", "k"], .timers 8000] = .ok g' ∧ g.overdue 6000 = 2 ∧
    g'.overdue 6000 = 0 ∧
    ∀ p e, g'.entries p = some e → ∀ d' ∈ g'.deadline e, (6000 : UInt64) ≤ d' := by
  have hlate : ∀ ev ∈ [ask 7000 ["get", "k"], .timers 8000], ev.Late 6000 := by
    intro ev hev
    cases hev with
    | head =>
      intro d' hd'
      cases hd'
    | tail _ hev =>
      obtain rfl := List.mem_singleton.mp hev
      exact (by decide : (6000 : UInt64) ≤ 8000)
  obtain ⟨-, hclears, hserved⟩ :=
    backlog_clears ⟨64, 0⟩ dueKeys [ask 7000 ["get", "k"], .timers 8000] 6000 hlate
  obtain ⟨g, g', hg, hg'⟩ := hserved (by decide +kernel)
  have htwo : (run (serve ⟨64, 0⟩) {} dueKeys).toOption.map (fun g => g.overdue 6000) = some 2 := by
    decide +kernel
  rw [hg] at htwo
  have htwo : g.overdue 6000 = 2 := Option.some.inj htwo
  obtain ⟨hfewer, hnone⟩ := hclears g g' hg hg'
  have hpasses : [ask 7000 ["get", "k"], .timers 8000].countP Event.isTimers = 1 := rfl
  rw [hpasses, Nat.mul_one, htwo] at hfewer hnone
  exact ⟨g, g', hg, hg', htwo, Nat.le_zero.mp hfewer, hnone (by decide)⟩

end RedisServer
