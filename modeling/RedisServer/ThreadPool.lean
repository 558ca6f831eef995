import RedisServer.Memory

/-!
# thread.cpp — the thread pool

A mutex-held section of `thread_pool_queue` or `worker` is one step.  A schedule is a list of
events: calls of `thread_pool_queue`, sections of workers that get the mutex, wake-ups of
`pthread_cond_wait` without a signal, and jobs that return.  `PoolRun` records what was queued and
which worker took what.

Results:
* `PoolRun.step_inv` — the step lemma: while a worker is blocked there are as many awake workers as
  queued jobs, so a job stolen by a faster worker costs no wake-up;
* `PoolRun.Inv.finishes` — from every state the workers can take all that is queued;
* `threadPool_delivers` — in every schedule the jobs taken and the jobs still queued are together
  the jobs queued, in order, a worker that gets the mutex takes the first one, and no wake-up is
  lost.
-/

set_option autoImplicit false

namespace RedisServer

open Runs

structure Work where
  f : Option Ptr := none
  arg : Option Ptr := none
  deriving DecidableEq, Repr

/-- Where a thread is in `worker`. -/
inductive Thread where
  | locking -- at `pthread_mutex_lock`
  | waiting -- blocked in `pthread_cond_wait`
  | woken -- in `pthread_cond_wait`, on its way to the mutex
  | working (w : Work) -- behind the mutex, at `w.f(w.arg)`
  deriving DecidableEq, Repr

def Thread.isWorking : Thread → Bool
  | .working _ => true
  | _ => false

structure ThreadPool where
  threads : List Thread := []
  queue : List Work := []
  deriving DecidableEq, Repr

/-- `thread_pool_init`; the threads it creates begin at `pthread_mutex_lock`. -/
def threadPoolInit (numThreads : Nat) : Res ThreadPool := do
  assert (decide (numThreads > 0))
  return { threads := List.replicate numThreads .locking }

/-- `queue.front()` and `queue.pop_front()` -/
def popFront : List Work → Res (Work × List Work)
  | [] => .error .outOfBounds
  | w :: queue => .ok (w, queue)

/-- `pthread_cond_signal`, when thread `i` is the one it picks among those that wait. -/
def condSignal (tp : ThreadPool) (i : Nat) : ThreadPool :=
  if tp.threads[i]? = some .waiting then { tp with threads := tp.threads.set i .woken } else tp

def threadPoolQueue (tp : ThreadPool) (f arg : Option Ptr) (i : Nat) : ThreadPool :=
  let w : Work := { f := f, arg := arg }
  condSignal { tp with queue := tp.queue ++ [w] } i

/-- The section of `worker` from the mutex to `pthread_cond_wait`, or to the unlock with a job. -/
def worker (tp : ThreadPool) (i : Nat) : Res (ThreadPool × Option Work) :=
  if tp.queue.isEmpty then return ({ tp with threads := tp.threads.set i .waiting }, none)
  else do
    let (w, queue) ← popFront tp.queue
    return ({ tp with threads := tp.threads.set i (.working w), queue := queue }, some w)

/-! ## Schedules -/

inductive PoolEvent where
  | queue (f arg : Option Ptr) (i : Nat) -- `thread_pool_queue`; the signal picks thread `i`
  | lock (i : Nat) -- thread `i` gets the mutex
  | spurious (i : Nat) -- `pthread_cond_wait` of thread `i` ends without a signal
  | done (i : Nat) -- the job of thread `i` returns

structure PoolRun where
  tp : ThreadPool
  queued : List Work := [] -- in the order of the calls
  taken : List (Nat × Work) := [] -- with the worker that took it

/-- What the mutex, the condition variable and the threads admit. -/
def PoolRun.Enabled (s : PoolRun) : PoolEvent → Prop
  | .queue _ _ i => .waiting ∈ s.tp.threads → s.tp.threads[i]? = some .waiting
  | .lock i => s.tp.threads[i]? = some .locking ∨ s.tp.threads[i]? = some .woken
  | .spurious i => s.tp.threads[i]? = some .waiting
  | .done i => s.tp.threads[i]?.any Thread.isWorking = true

instance (s : PoolRun) : ∀ e, Decidable (s.Enabled e)
  | .queue _ _ i => inferInstanceAs (Decidable (_ → s.tp.threads[i]? = some .waiting))
  | .lock i => inferInstanceAs (Decidable (s.tp.threads[i]? = some .locking ∨ _))
  | .spurious i => inferInstanceAs (Decidable (s.tp.threads[i]? = some .waiting))
  | .done i => inferInstanceAs (Decidable (s.tp.threads[i]?.any Thread.isWorking = true))

def PoolRun.step (s : PoolRun) : PoolEvent → Res PoolRun
  | .queue f arg i =>
    .ok { s with tp := threadPoolQueue s.tp f arg i, queued := s.queued ++ [⟨f, arg⟩] }
  | .lock i => do
    let (tp, w) ← worker s.tp i
    return { s with tp := tp, taken := s.taken ++ w.toList.map fun w => (i, w) }
  | .spurious i => .ok { s with tp := { s.tp with threads := s.tp.threads.set i .woken } }
  | .done i => .ok { s with tp := { s.tp with threads := s.tp.threads.set i .locking } }

/-! ## The invariant -/

/-- The thread will look at the queue before it does anything else. -/
def Thread.awake : Thread → Bool
  | .locking => true
  | .woken => true
  | _ => false

/-- While a worker is blocked, each queued job has an awake worker to itself. -/
structure PoolRun.Inv (s : PoolRun) : Prop where
  threads : s.tp.threads ≠ []
  once : s.queued = s.taken.map Prod.snd ++ s.tp.queue
  awake : .waiting ∈ s.tp.threads → s.tp.queue.length ≤ s.tp.threads.countP Thread.awake

variable {threads : List Thread} {i : Nat} {t u : Thread}

theorem countP_awake_set (h : threads[i]? = some t) :
    (threads.set i u).countP Thread.awake + (if t.awake then 1 else 0) =
      threads.countP Thread.awake + (if u.awake then 1 else 0) := by
  obtain ⟨hi, rfl⟩ := List.getElem?_eq_some_iff.mp h
  have hmem : threads[i].awake → 0 < threads.countP Thread.awake := fun ht =>
    List.countP_pos_iff.mpr ⟨_, List.getElem_mem hi, ht⟩
  rw [List.countP_set hi]
  split
  · have := hmem ‹_›
    omega
  · omega

theorem set_ne_nil (h : threads ≠ []) : threads.set i u ≠ [] := by
  intro h0
  have hlen := congrArg List.length h0
  rw [List.length_set] at hlen
  exact h (List.length_eq_zero_iff.mp hlen)

theorem waiting_mem_set (hu : u ≠ .waiting) (h : .waiting ∈ threads.set i u) :
    .waiting ∈ threads := by
  rcases List.mem_or_eq_of_mem_set h with h | h
  · exact h
  · exact absurd h.symm hu

variable {s : PoolRun}

theorem PoolRun.Inv.queue {f arg : Option Ptr} (h : s.Inv)
    (he : .waiting ∈ s.tp.threads → s.tp.threads[i]? = some .waiting) :
    PoolRun.Inv { s with
      tp := threadPoolQueue s.tp f arg i
      queued := s.queued ++ [⟨f, arg⟩] } := by
  unfold threadPoolQueue condSignal
  dsimp only
  split
  · -- a waiter is woken for the new job
    rename_i hi
    refine ⟨set_ne_nil h.threads, ?_, ?_⟩
    · rw [h.once, List.append_assoc]
    · intro _
      have hc := countP_awake_set (u := .woken) hi
      have hold := h.awake (List.mem_of_getElem? hi)
      show (s.tp.queue ++ [_]).length ≤ (s.tp.threads.set i .woken).countP Thread.awake
      rw [List.length_append, List.length_singleton]
      simp only [Thread.awake, if_true, Bool.false_eq_true, if_false] at hc
      omega
  · -- nobody waits
    rename_i hi
    exact ⟨h.threads, by rw [h.once, List.append_assoc], fun hw => absurd (he hw) hi⟩

/-- The section of `worker` takes the first job of the queue, or blocks while there is none. -/
def PoolRun.TakesFirst (s : PoolRun) (i : Nat) : Prop :=
  match s.tp.queue with
  | [] => s.step (.lock i) =
      .ok { s with tp := { s.tp with threads := s.tp.threads.set i .waiting } }
  | w :: queue => s.step (.lock i) = .ok { s with
      tp := { threads := s.tp.threads.set i (.working w), queue := queue }
      taken := s.taken ++ [(i, w)] }

theorem PoolRun.takesFirst (s : PoolRun) (i : Nat) : s.TakesFirst i := by
  unfold PoolRun.TakesFirst
  split
  · rename_i hq
    simp [PoolRun.step, worker, hq]
  · rename_i w queue hq
    simp [PoolRun.step, worker, popFront, hq]

/-- Taking the first job. -/
theorem PoolRun.Inv.take (h : s.Inv) (ht : s.tp.threads[i]? = some t) (hawake : t.awake = true)
    {w : Work} {queue : List Work} (hq : s.tp.queue = w :: queue) :
    PoolRun.Inv { s with
      tp := { threads := s.tp.threads.set i (.working w), queue := queue }
      taken := s.taken ++ [(i, w)] } := by
  refine ⟨set_ne_nil h.threads, ?_, ?_⟩
  · rw [h.once, hq, List.map_append, List.append_assoc]
    rfl
  · intro hw
    -- the worker is no longer awake, and the job is no longer queued
    have hold := h.awake (waiting_mem_set (u := .working w) nofun hw)
    rw [hq, List.length_cons] at hold
    have hc := countP_awake_set (u := .working w) ht
    have hworking : ¬(Thread.working w).awake = true := Bool.false_ne_true
    rw [if_pos hawake, if_neg hworking] at hc
    show queue.length ≤ (s.tp.threads.set i (.working w)).countP Thread.awake
    omega

theorem PoolRun.Inv.lock (h : s.Inv)
    (he : s.tp.threads[i]? = some .locking ∨ s.tp.threads[i]? = some .woken) :
    ∃ s', s.step (.lock i) = .ok s' ∧ s'.Inv := by
  obtain ⟨t, ht, hawake⟩ : ∃ t, s.tp.threads[i]? = some t ∧ t.awake = true := by
    rcases he with he | he
    · exact ⟨_, he, rfl⟩
    · exact ⟨_, he, rfl⟩
  have hstep := s.takesFirst i
  unfold PoolRun.TakesFirst at hstep
  split at hstep
  · rename_i hq
    refine ⟨_, hstep, set_ne_nil h.threads, h.once, ?_⟩
    intro _
    rw [hq]
    exact Nat.zero_le _
  · rename_i w queue hq
    exact ⟨_, hstep, h.take ht hawake hq⟩

/-- A thread that becomes awake without touching the queue. -/
theorem PoolRun.Inv.rouse (h : s.Inv) (ht : s.tp.threads[i]? = some t) (hu : u.awake = true) :
    PoolRun.Inv { s with tp := { s.tp with threads := s.tp.threads.set i u } } := by
  refine ⟨set_ne_nil h.threads, h.once, ?_⟩
  intro hw
  have hold := h.awake (waiting_mem_set (fun h0 => by rw [h0] at hu; cases hu) hw)
  have hc := countP_awake_set (u := u) ht
  rw [if_pos hu] at hc
  have hone : (if t.awake then 1 else 0) ≤ 1 := by split <;> decide
  show s.tp.queue.length ≤ (s.tp.threads.set i u).countP Thread.awake
  omega

/-- **The step lemma**: an enabled event neither fails nor breaks the invariant. -/
theorem PoolRun.step_inv (s : PoolRun) (e : PoolEvent) (h : s.Inv) (he : s.Enabled e) :
    ∃ s', s.step e = .ok s' ∧ s'.Inv := by
  cases e with
  | queue f arg i => exact ⟨_, rfl, h.queue he⟩
  | lock i => exact h.lock he
  | spurious i => exact ⟨_, rfl, h.rouse he rfl⟩
  | done i =>
    obtain ⟨t, ht, -⟩ := (Option.any_eq_true _ _).mp he
    exact ⟨_, rfl, h.rouse ht rfl⟩

theorem PoolRun.Inv.start {n : Nat} {tp : ThreadPool} (h : threadPoolInit n = .ok tp) :
    PoolRun.Inv { tp := tp } := by
  obtain ⟨u, hn, h⟩ := bind_ok.mp h
  have hn := of_decide_eq_true (assert_ok.mp hn)
  cases h
  refine ⟨?_, rfl, fun _ => Nat.zero_le _⟩
  intro h0
  have hlen := congrArg List.length h0
  rw [List.length_replicate, List.length_nil] at hlen
  omega

/-- While a job is queued, not all workers are blocked. -/
theorem PoolRun.Inv.notAllWaiting (h : s.Inv) (hq : s.tp.queue ≠ []) :
    ∃ t ∈ s.tp.threads, t ≠ .waiting := by
  by_contra hno
  push Not at hno
  obtain ⟨t, ht⟩ := List.exists_mem_of_ne_nil _ h.threads
  have hle := h.awake (hno t ht ▸ ht)
  have hpos := List.length_pos_iff.mpr hq
  obtain ⟨u, hu, hawake⟩ := List.countP_pos_iff.mp (Nat.lt_of_lt_of_le hpos hle)
  rw [hno u hu] at hawake
  cases hawake

/-- What an enabled event leaves to do. -/
theorem allSteps_step {s' : PoolRun} {e : PoolEvent} {events : List PoolEvent} (he : s.Enabled e)
    (hstep : s.step e = .ok s') (hs : AllSteps PoolRun.step PoolRun.Enabled s' events) :
    AllSteps PoolRun.step PoolRun.Enabled s (e :: events) := by
  refine allSteps_cons.mpr ⟨he, ?_⟩
  intro s'' h
  cases hstep.symm.trans h
  exact hs

/-- All jobs of the queue can be taken: at any time a worker that is not blocked may be the next to
get the mutex, when it has returned from the job it is at. -/
theorem PoolRun.Inv.finishes : ∀ {queue : List Work} {s : PoolRun}, s.Inv → s.tp.queue = queue →
    ∃ events s', AllSteps PoolRun.step PoolRun.Enabled s events ∧
      run PoolRun.step s events = .ok s' ∧ s'.tp.queue = [] ∧ s'.taken.map Prod.snd = s.queued
  | [], s, h, hq => by
    refine ⟨[], s, trivial, rfl, hq, ?_⟩
    rw [h.once, hq, List.append_nil]
  | w :: queue, s, h, hq => by
    -- a worker at the mutex takes the first job, and the others are left
    have htake : ∀ {s : PoolRun} {i : Nat} {t : Thread}, s.Inv → s.tp.queue = w :: queue →
        s.tp.threads[i]? = some t → t.awake = true → s.Enabled (.lock i) →
        ∃ events s', AllSteps PoolRun.step PoolRun.Enabled s events ∧
          run PoolRun.step s events = .ok s' ∧ s'.tp.queue = [] ∧
          s'.taken.map Prod.snd = s.queued := by
      intro s i t h hq ht hawake he
      have hstep := s.takesFirst i
      unfold PoolRun.TakesFirst at hstep
      rw [hq] at hstep
      obtain ⟨events, s', hs, hr, hempty, htaken⟩ := (h.take ht hawake hq).finishes rfl
      exact ⟨.lock i :: events, s', allSteps_step he hstep hs, run_cons_ok.mpr ⟨_, hstep, hr⟩,
        hempty, htaken⟩
    obtain ⟨t, ht, hne⟩ := h.notAllWaiting (by rw [hq]; exact List.cons_ne_nil _ _)
    obtain ⟨i, hi⟩ := List.mem_iff_getElem?.mp ht
    cases t with
    | waiting => exact absurd rfl hne
    | locking => exact htake h hq hi rfl (.inl hi)
    | woken => exact htake h hq hi rfl (.inr hi)
    | working v =>
      have he : s.Enabled (.done i) := by
        show s.tp.threads[i]?.any Thread.isWorking = true
        rw [hi]
        rfl
      have hlocking : (s.tp.threads.set i .locking)[i]? = some .locking := by
        rw [List.getElem?_set_self (List.getElem?_eq_some_iff.mp hi).1]
      obtain ⟨events, s', hs, hr, hrest⟩ :=
        htake (h.rouse (u := .locking) hi rfl) hq hlocking rfl (.inl hlocking)
      exact ⟨.done i :: events, s', allSteps_step he rfl hs, run_cons_ok.mpr ⟨_, rfl, hr⟩, hrest⟩

/-- **The thread pool delivers every job once.** Any number of workers, any schedule: `pop_front`
is never applied to an empty queue; the jobs taken, each by one worker, and the jobs still queued
are the jobs queued, in their order; a worker that gets the mutex takes the first job, and blocks
only when there is none, so the workers can always take all that is queued; the queue is not
non-empty while all workers are blocked, and as long as one is blocked there is an awake worker for
each job. -/
theorem threadPool_delivers {n : Nat} {tp : ThreadPool} (hinit : threadPoolInit n = .ok tp)
    {events : List PoolEvent} (hs : AllSteps PoolRun.step PoolRun.Enabled { tp := tp } events) :
    ∃ s, run PoolRun.step { tp := tp } events = .ok s ∧
      s.queued = s.taken.map Prod.snd ++ s.tp.queue ∧
      (∀ i, s.Enabled (.lock i) → s.TakesFirst i) ∧
      (∃ more s', AllSteps PoolRun.step PoolRun.Enabled s more ∧
        run PoolRun.step s more = .ok s' ∧ s'.tp.queue = [] ∧
        s'.taken.map Prod.snd = s.queued) ∧
      ¬(s.tp.queue ≠ [] ∧ ∀ t ∈ s.tp.threads, t = .waiting) ∧
      (.waiting ∈ s.tp.threads → s.tp.queue.length ≤ s.tp.threads.countP Thread.awake) := by
  obtain ⟨s, hr, hi⟩ := run_total PoolRun.step_inv (PoolRun.Inv.start hinit) hs
  refine ⟨s, hr, hi.once, fun i _ => s.takesFirst i, hi.finishes rfl, ?_, hi.awake⟩
  rintro ⟨hq, hall⟩
  obtain ⟨t, ht, hne⟩ := hi.notAllWaiting hq
  exact hne (hall t ht)

/-- A job is stolen: the signal for it woke thread 0, but thread 1 gets the mutex first.  The second
job is thread 0's. -/
theorem threadPool_delivers_stolen : ∃ s,
    run PoolRun.step { tp := { threads := [.locking, .locking] } }
      [.lock 0, .queue (some 7) none 0, .lock 1, .lock 0, .queue (some 8) none 0, .lock 0] = .ok s ∧
      s.taken = [(1, ⟨some 7, none⟩), (0, ⟨some 8, none⟩)] ∧
      s.queued = s.taken.map Prod.snd ++ s.tp.queue := by
  have hs : AllSteps PoolRun.step PoolRun.Enabled { tp := { threads := [.locking, .locking] } }
      [.lock 0, .queue (some 7) none 0, .lock 1, .lock 0, .queue (some 8) none 0, .lock 0] := by
    decide
  have hinit : threadPoolInit 2 = .ok { threads := [.locking, .locking] } := rfl
  obtain ⟨s, hr, honce, -⟩ := threadPool_delivers hinit hs
  have htaken : (run PoolRun.step { tp := { threads := [.locking, .locking] } }
      [.lock 0, .queue (some 7) none 0, .lock 1, .lock 0, .queue (some 8) none 0,
        .lock 0]).toOption.map PoolRun.taken =
      some [(1, ⟨some 7, none⟩), (0, ⟨some 8, none⟩)] := by decide
  rw [hr] at htaken
  exact ⟨s, hr, Option.some.inj htaken, honce⟩

end RedisServer
