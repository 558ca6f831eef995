import RedisServer.LoopSteps
import RedisServer.Timers

/-!
# Server.cpp — the loop of main

An iteration asks `next_timer_ms` how long `poll` may wait, polls the listening socket and every
connection, accepts at most one connection, serves the descriptors that `poll` reported in the
order of `poll_args`, and ends with `process_timers`.  `Report` is what the kernel answers: what
`poll` reports, and what the calls behind it return.  If `poll` fails the process dies.

Results, over every number of iterations:
* `Server.main_loop_is_run` — the loop does what a run of the events of its reports does, so that
  what holds of every run of events holds of `main`;
* `Server.polled_is_served` — a report reaches the connection it was made for, in the state it was
  polled in: no descriptor changes hands between `poll` and the call of `connection_io`.
-/

set_option autoImplicit false

namespace RedisServer

open Runs

/-! ## The model -/

/-- The event that is asked for besides `POLLERR`. -/
inductive PollEvents where
  | POLLIN
  | POLLOUT
  deriving DecidableEq, Repr

structure PollFd where
  fd : Nat
  events : PollEvents
  deriving DecidableEq, Repr

/-- The time at which an event is handled. -/
def LoopEvent.time : LoopEvent → UInt64
  | .accept _ now => now
  | .ready _ _ now => now
  | .timers now => now

def Conn.pollEvents (c : Conn) : PollEvents :=
  if c.state = .STATE_REQ then .POLLIN else .POLLOUT

namespace Server

/-- What the kernel answers in one iteration: the time at which `next_timer_ms` runs; whether `poll`
fails; if the listening socket is reported, the result of `accept` and the time behind it; for each
connection of `poll_args` that is reported, what its system calls return and the time at which it is
served; the time at which `process_timers` runs. -/
structure Report where
  polled : UInt64
  failed : Bool := false
  listener : Option (Option Nat × UInt64)
  clients : List (Option (IoScript × UInt64))
  timers : UInt64

variable {σ : Type}

/-- `poll_args` without its first element, the listening socket. -/
def pollArgs (s : Server σ) : Res (List PollFd) :=
  (s.fd2conn.filterMap id).mapM fun p => do
    let conn ← s.conns.read p
    return ⟨conn.fd, conn.conn.pollEvents⟩

/-- The listening socket. -/
def listen (s : Server σ) (r : Report) : Res (Server σ) :=
  match r.listener with
  | none => .ok s
  | some (newFd, now) => s.acceptNewConnection newFd now

variable (handle : σ → List Bytes → Res (σ × ResCode × Bytes)) (expire : UInt64 → σ → Res σ)

/-- The loop over the connections of `poll_args`. -/
def serveAll (s : Server σ) : List (PollFd × Option (IoScript × UInt64)) → Res (Server σ)
  | [] => .ok s
  | (_, none) :: rest => s.serveAll rest
  | (pfd, some (io, now)) :: rest => do
    let s ← s.clientReady handle pfd.fd io now
    s.serveAll rest

/-- One iteration of `while (true)`. -/
def iterate (s : Server σ) (r : Report) : Res (Server σ) := do
  let pollArgs ← s.pollArgs
  let _ ← s.nextTimerMs r.polled
  if r.failed then .error .died
  let s ← s.listen r
  let s ← s.serveAll handle (pollArgs.zip r.clients)
  s.processTimers expire r.timers

/-! ## The events of an iteration -/

def listenEvents (r : Report) : List LoopEvent :=
  match r.listener with
  | none => []
  | some (newFd, now) => [.accept newFd now]

def clientEvents : List (PollFd × Option (IoScript × UInt64)) → List LoopEvent
  | [] => []
  | (_, none) :: rest => clientEvents rest
  | (pfd, some (io, now)) :: rest => .ready pfd.fd io now :: clientEvents rest

/-- The times of an iteration, in the order in which they are taken. -/
def Report.times (r : Report) : List UInt64 :=
  r.polled :: (r.listener.toList.map Prod.snd ++ (r.clients.filterMap id).map Prod.snd ++ [r.timers])

/-- The clock does not go back, and `accept` returns no descriptor that is still open. -/
def Plausible (s : Server σ) (r : Report) : Prop :=
  (s.clock :: r.times).Pairwise (· ≤ ·) ∧ ∀ l ∈ r.listener, ∀ fd ∈ l.1, fd ∉ s.openFds

instance (s : Server σ) (r : Report) : Decidable (s.Plausible r) :=
  inferInstanceAs (Decidable (_ ∧ _))

/-! ## poll_args -/

variable {handle expire} {s s' s₁ : Server σ} {order : List Ptr} {p : Ptr} {r : Report} {now : UInt64}

/-- What is polled for the connection at `p`. -/
def pollOf (s : Server σ) (p : Ptr) : Option PollFd :=
  (s.held p).map fun c => ⟨c.1, c.2.pollEvents⟩

/-- The connections of `fd2conn`, in its order. -/
def stored (s : Server σ) : List Ptr := s.fd2conn.filterMap id

theorem mem_stored (h : IdleList s order) : p ∈ s.stored ↔ ∃ c, s.conns p = some c := by
  constructor
  · intro hp
    obtain ⟨o, ho, hp⟩ := List.mem_filterMap.mp hp
    obtain ⟨fd, hfd⟩ := List.mem_iff_getElem?.mp ho
    obtain ⟨c, hc, -⟩ := (h.stored fd p).mp (hfd.trans (congrArg some hp))
    exact ⟨c, hc⟩
  · rintro ⟨c, hc⟩
    exact List.mem_filterMap.mpr
      ⟨some p, List.mem_of_getElem? ((h.stored c.fd p).mpr ⟨c, hc, rfl⟩), rfl⟩

theorem stored_nodup (h : IdleList s order) : s.stored.Nodup := by
  apply List.pairwise_filterMap.mpr
  apply List.pairwise_iff_getElem.mpr
  intro i j hi hj hij p hp q hq hpq
  subst hpq
  have hp : s.fd2conn[i]? = some (some p) := (List.getElem?_eq_getElem hi).trans (congrArg some hp)
  have hq : s.fd2conn[j]? = some (some p) := (List.getElem?_eq_getElem hj).trans (congrArg some hq)
  obtain ⟨c, hc, hi⟩ := (h.stored i p).mp hp
  obtain ⟨d, hd, hj⟩ := (h.stored j p).mp hq
  cases hc.symm.trans hd
  omega

theorem mapM_ok {φ α β : Type} {f : α → Except φ β} {g : α → Option β} : ∀ {l : List α},
    (∀ a ∈ l, ∃ b, f a = .ok b ∧ g a = some b) → l.mapM f = .ok (l.filterMap g)
  | [], _ => rfl
  | a :: l, h => by
    obtain ⟨b, hf, hg⟩ := h a List.mem_cons_self
    rw [List.mapM_cons, hf, ok_bind, mapM_ok fun a ha => h a (List.mem_cons_of_mem _ ha),
      List.filterMap_cons_some hg]
    rfl

/-- `poll_args` is filled without following a dangling pointer. -/
theorem pollArgs_ok (h : IdleList s order) : s.pollArgs = .ok (s.stored.filterMap s.pollOf) := by
  apply mapM_ok
  intro p hp
  obtain ⟨c, hc⟩ := (mem_stored h).mp hp
  refine ⟨⟨c.fd, c.conn.pollEvents⟩, ?_, ?_⟩
  · rw [Store.read_of hc]
    rfl
  · rw [pollOf, held_of hc]
    rfl

/-- Every connection is polled, on its own descriptor and for what it waits for; nothing else is. -/
theorem mem_pollArgs (h : IdleList s order) {pfd : PollFd} :
    pfd ∈ s.stored.filterMap s.pollOf ↔
      ∃ p conn, s.held p = some (pfd.fd, conn) ∧ pfd.events = conn.pollEvents := by
  rw [List.mem_filterMap]
  constructor
  · rintro ⟨p, -, hp⟩
    obtain ⟨c, hc, rfl⟩ := Option.map_eq_some_iff.mp hp
    exact ⟨p, c.2, hc, rfl⟩
  · rintro ⟨p, conn, hp, he⟩
    obtain ⟨c, hc, -⟩ := Option.map_eq_some_iff.mp hp
    refine ⟨p, (mem_stored h).mpr ⟨c, hc⟩, ?_⟩
    rw [pollOf, hp]
    show some (PollFd.mk pfd.fd conn.pollEvents) = some pfd
    rw [← he]

/-- No descriptor is polled twice. -/
theorem pollArgs_nodup (h : IdleList s order) :
    ((s.stored.filterMap s.pollOf).map PollFd.fd).Nodup := by
  apply List.pairwise_map.mpr
  apply List.pairwise_filterMap.mpr
  apply (stored_nodup h).imp
  intro p q hpq a ha b hb hab
  obtain ⟨⟨fd, conn⟩, hc, rfl⟩ := Option.map_eq_some_iff.mp ha
  obtain ⟨⟨fd', conn'⟩, hd, rfl⟩ := Option.map_eq_some_iff.mp hb
  obtain ⟨c, hc, hfd⟩ := Option.map_eq_some_iff.mp hc
  obtain ⟨d, hd, hfd'⟩ := Option.map_eq_some_iff.mp hd
  apply hpq
  apply h.toKept.fd_inj hc hd
  have hfd : c.fd = fd := congrArg Prod.fst hfd
  have hfd' : d.fd = fd' := congrArg Prod.fst hfd'
  exact hfd.trans (hab.trans hfd'.symm)

/-! ## An iteration is a run -/

/-- What every event leaves of a server: its list, and no connection marked for deletion. -/
def Sound (s : Server σ) : Prop := (∃ order, IdleList s order) ∧ s.Open

theorem start_sound (data : σ) : Sound (start data) := ⟨⟨[], start_idleList data⟩, start_open data⟩

theorem step_sound {e : LoopEvent} (h : s.Sound) (ha : s.Admits e)
    (hs : s.step handle expire e = .ok s') : s'.Sound := by
  obtain ⟨⟨order, hlist⟩, ho⟩ := h
  rcases @step_spec σ s order handle expire e hlist ho ha with ⟨t, order', ht, hlist', ho'⟩ | ⟨f, hf, -⟩
  · cases hs.symm.trans ht
    exact ⟨⟨order', hlist'⟩, ho'⟩
  · cases hs.symm.trans hf

/-- The clock shows the time of the last event, if that event looked at it. -/
theorem step_clock {e : LoopEvent} (h : s.Sound) (ha : s.Admits e)
    (hs : s.step handle expire e = .ok s') : s'.clock = s.clock ∨ s'.clock = e.time := by
  obtain ⟨⟨order, hlist⟩, ho⟩ := h
  cases e with
  | accept newFd now =>
    cases newFd with
    | none => cases hs; exact .inl rfl
    | some fd => exact .inr (accept_exchange hs).2.2.1
  | ready clientFd io now =>
    have hs : s.clientReady handle clientFd io now = .ok s' := hs
    cases hses : s.session clientFd with
    | none =>
      rw [session_none hlist hses] at hs
      cases hs
      exact .inl rfl
    | some r =>
      have hx := ready_exchange handle io hlist ha hses
      split at hx
      · rw [hs] at hx
        cases hx
      · obtain ⟨t, ht, -, -, hclock, -⟩ := hx
        cases hs.symm.trans ht
        exact .inr hclock
  | timers now =>
    obtain ⟨t, -, hs⟩ := bind_ok.mp hs
    obtain ⟨d, -, hs⟩ := bind_ok.mp hs
    cases hs
    exact .inr rfl

/-- Events in the order of their times are admitted, if they accept nothing. -/
theorem allSteps_timed : ∀ {es : List LoopEvent} {s : Server σ}, s.Sound →
    (∀ e ∈ es, ∀ newFd now, e ≠ .accept newFd now) →
    (s.clock :: es.map LoopEvent.time).Pairwise (· ≤ ·) →
    AllSteps (step handle expire) Admits s es
  | [], _, _, _, _ => trivial
  | e :: es, s, h, hno, ht => by
    obtain ⟨hclock, htail⟩ := List.pairwise_cons.mp ht
    have hnow : s.clock ≤ e.time := hclock _ List.mem_cons_self
    have ha : s.Admits e := by
      cases e with
      | accept newFd now => exact absurd rfl (hno _ List.mem_cons_self newFd now)
      | ready clientFd io now => exact hnow
      | timers now => exact hnow
    refine allSteps_cons.mpr ⟨ha, ?_⟩
    intro s' hs'
    apply allSteps_timed (step_sound h ha hs') fun e he => hno e (List.mem_cons_of_mem _ he)
    obtain ⟨hlater, hrest⟩ := List.pairwise_cons.mp htail
    refine List.pairwise_cons.mpr ⟨?_, hrest⟩
    intro t htmem
    rcases step_clock h ha hs' with hc | hc <;> rw [hc]
    · exact hclock t (List.mem_cons_of_mem _ htmem)
    · exact hlater t htmem

theorem serveAll_eq : ∀ (zipped : List (PollFd × Option (IoScript × UInt64))) (s : Server σ),
    s.serveAll handle zipped = run (step handle expire) s (clientEvents zipped)
  | [], _ => rfl
  | (_, none) :: rest, s => serveAll_eq rest s
  | (pfd, some (io, now)) :: rest, s => by
    show (s.clientReady handle pfd.fd io now >>= fun s => s.serveAll handle rest) =
      (s.clientReady handle pfd.fd io now >>= _)
    congr 1
    funext t
    exact serveAll_eq rest t

theorem listen_eq (s : Server σ) (r : Report) :
    s.listen r = run (step handle expire) s (listenEvents r) := by
  unfold listen listenEvents
  rcases r.listener with _ | ⟨newFd, now⟩
  · rfl
  · exact (bind_pure _).symm

/-- What happens in an iteration whose `poll` returns. -/
def events (s : Server σ) (r : Report) : List LoopEvent :=
  listenEvents r ++ (clientEvents ((s.stored.filterMap s.pollOf).zip r.clients) ++ [.timers r.timers])

theorem nextTimerMs_total (h : IdleList s order) (hnow : s.clock ≤ now) :
    ∃ m, s.nextTimerMs now = .ok m := by
  cases order with
  | nil => exact ⟨10000, nextTimerMs_nil h⟩
  | cons p order =>
    obtain ⟨m, hm, -⟩ := nextTimerMs_cons h hnow
    exact ⟨m, hm⟩

theorem Plausible.polled (h : s.Plausible r) : s.clock ≤ r.polled :=
  (List.pairwise_cons.mp h.1).1 _ List.mem_cons_self

theorem iterate_failed (h : s.Sound) (hr : s.Plausible r) (hf : r.failed = true) :
    s.iterate handle expire r = .error .died := by
  obtain ⟨⟨order, hlist⟩, -⟩ := h
  obtain ⟨m, hm⟩ := nextTimerMs_total hlist hr.polled
  unfold iterate
  rw [pollArgs_ok hlist, ok_bind, hm, ok_bind, hf]
  rfl

theorem iterate_eq (h : s.Sound) (hr : s.Plausible r) (hf : r.failed = false) :
    s.iterate handle expire r = run (step handle expire) s (s.events r) := by
  obtain ⟨⟨order, hlist⟩, -⟩ := h
  obtain ⟨m, hm⟩ := nextTimerMs_total hlist hr.polled
  unfold iterate events
  rw [pollArgs_ok hlist, ok_bind, hm, ok_bind, run_append, hf, if_neg Bool.false_ne_true]
  dsimp only
  rw [listen_eq]
  congr 1
  funext t
  rw [run_append, ← serveAll_eq]
  congr 1
  funext t
  exact (bind_pure _).symm

theorem clientEvents_time : ∀ (pfds : List PollFd) (clients : List (Option (IoScript × UInt64))),
    ((clientEvents (pfds.zip clients)).map LoopEvent.time).Sublist
      ((clients.filterMap id).map Prod.snd)
  | [], _ => List.nil_sublist _
  | _ :: _, [] => List.nil_sublist _
  | _ :: pfds, none :: clients => clientEvents_time pfds clients
  | _ :: pfds, some (_, now) :: clients => (clientEvents_time pfds clients).cons_cons now

theorem clientEvents_ready : ∀ (zipped : List (PollFd × Option (IoScript × UInt64))),
    ∀ e ∈ clientEvents zipped, ∃ clientFd io now, e = .ready clientFd io now
  | [] => nofun
  | (_, none) :: rest => clientEvents_ready rest
  | (pfd, some (io, now)) :: rest =>
    List.forall_mem_cons.mpr ⟨⟨pfd.fd, io, now, rfl⟩, clientEvents_ready rest⟩

theorem clientEvents_append : ∀ (zs ts : List (PollFd × Option (IoScript × UInt64))),
    clientEvents (zs ++ ts) = clientEvents zs ++ clientEvents ts
  | [], _ => rfl
  | (_, none) :: zs, ts => clientEvents_append zs ts
  | (pfd, some (io, now)) :: zs, ts =>
    congrArg (LoopEvent.ready pfd.fd io now :: ·) (clientEvents_append zs ts)

/-- Behind the listening socket the events of an iteration accept nothing. -/
theorem tail_no_accept {pfds : List PollFd} {newFd : Option Nat} {e : LoopEvent}
    (he : e ∈ clientEvents (pfds.zip r.clients) ++ [.timers r.timers]) : e ≠ .accept newFd now := by
  rintro rfl
  rcases List.mem_append.mp he with he | he
  · obtain ⟨_, _, _, he⟩ := clientEvents_ready _ _ he
    cases he
  · cases List.mem_singleton.mp he

theorem tail_time (pfds : List PollFd) (r : Report) :
    ((clientEvents (pfds.zip r.clients) ++ [LoopEvent.timers r.timers]).map LoopEvent.time).Sublist
      ((r.clients.filterMap id).map Prod.snd ++ [r.timers]) := by
  rw [List.map_append]
  exact (clientEvents_time pfds r.clients).append (List.Sublist.refl _)

theorem listen_admitted (hr : s.Plausible r) :
    AllSteps (step handle expire) Admits s (listenEvents r) := by
  obtain ⟨htimes, hfds⟩ := hr
  unfold listenEvents
  split
  · trivial
  · rename_i newFd now hl
    refine allSteps_cons.mpr ⟨⟨?_, hfds _ hl⟩, fun _ _ => trivial⟩
    apply (List.pairwise_cons.mp htimes).1
    simp [Report.times, hl]

/-- Behind the listening socket the times still go up. -/
theorem listen_sound (h : s.Sound) (hr : s.Plausible r) (hl : s.listen r = .ok s₁) :
    s₁.Sound ∧
      (s₁.clock :: ((r.clients.filterMap id).map Prod.snd ++ [r.timers])).Pairwise (· ≤ ·) := by
  obtain ⟨htimes, hfds⟩ := hr
  unfold Report.times at htimes
  unfold listen at hl
  rcases hlis : r.listener with _ | ⟨newFd, now⟩ <;> rw [hlis] at htimes hl
  · cases hl
    exact ⟨h, htimes.sublist ((List.sublist_cons_self _ _).cons_cons _)⟩
  · -- the times before and behind the call of `accept`
    have hbefore := htimes.sublist ((List.sublist_cons_self _ _).cons_cons _)
    obtain ⟨hclock, hbehind⟩ := List.pairwise_cons.mp hbefore
    have ha : s.Admits (.accept newFd now) := ⟨hclock now List.mem_cons_self, hfds _ hlis⟩
    have hs : s.step (fun d _ => .ok (d, .RES_OK, [])) (fun _ d => .ok d) (.accept newFd now) =
      .ok s₁ := hl
    refine ⟨step_sound h ha hs, ?_⟩
    rcases step_clock h ha hs with hc | hc <;> rw [hc]
    · exact hbefore.sublist ((List.sublist_cons_self _ _).cons_cons _)
    · exact hbehind

/-- **A plausible report makes admitted events.** -/
theorem events_admitted (h : s.Sound) (hr : s.Plausible r) :
    AllSteps (step handle expire) Admits s (s.events r) := by
  refine allSteps_append.mpr ⟨listen_admitted hr, ?_⟩
  intro t ht
  rw [← listen_eq] at ht
  obtain ⟨hsound, htimes⟩ := listen_sound h hr ht
  exact allSteps_timed hsound (fun _ he _ _ => tail_no_accept he)
    (htimes.sublist ((tail_time _ r).cons_cons _))

theorem iterate_sound (h : s.Sound) (hr : s.Plausible r)
    (hs : s.iterate handle expire r = .ok s') : s'.Sound := by
  have hf : r.failed = false := by
    cases hf : r.failed with
    | false => rfl
    | true => cases (iterate_failed h hr hf).symm.trans hs
  rw [iterate_eq h hr hf] at hs
  exact run_invariant (C := Admits) (fun _ _ _ h ha hs => step_sound h ha hs) h
    (events_admitted h hr) hs

/-! ## Results -/

variable (handle expire) in
/-- The events of the iterations, up to the first `poll` that fails. -/
def runEvents : Server σ → List Report → List LoopEvent
  | _, [] => []
  | s, r :: reports =>
    if r.failed then []
    else s.events r ++
      match s.iterate handle expire r with
      | .ok s' => runEvents s' reports
      | .error _ => []

/-- What the loop makes of its state if not every `poll` returns. -/
def orDied (reports : List Report) (s : Server σ) : Res (Server σ) :=
  if reports.all fun r => !r.failed then .ok s else .error .died

/-- **The iterations are a run** of their events. -/
theorem iterations_run : ∀ {reports : List Report} {s : Server σ}, s.Sound →
    AllSteps (iterate handle expire) Plausible s reports →
    AllSteps (step handle expire) Admits s (runEvents handle expire s reports) ∧
      run (iterate handle expire) s reports =
        run (step handle expire) s (runEvents handle expire s reports) >>= orDied reports
  | [], _, _, _ => ⟨trivial, rfl⟩
  | r :: reports, s, h, hk => by
    obtain ⟨hr, hrest⟩ := allSteps_cons.mp hk
    rw [run, runEvents]
    cases hf : r.failed with
    | true =>
      refine ⟨trivial, ?_⟩
      rw [iterate_failed h hr hf]
      simp [orDied, hf]
    | false =>
      have hadm : AllSteps (step handle expire) Admits s (s.events r) := events_admitted h hr
      have hdied : orDied (σ := σ) (r :: reports) = orDied reports := by
        funext s'
        simp [orDied, hf]
      rw [if_neg Bool.false_ne_true, hdied]
      cases hs : s.iterate handle expire r with
      | error f =>
        rw [iterate_eq h hr hf] at hs
        refine ⟨by rw [List.append_nil]; exact hadm, ?_⟩
        rw [List.append_nil, hs]
        rfl
      | ok t =>
        obtain ⟨hevents, heq⟩ := iterations_run (iterate_sound h hr hs) (hrest t hs)
        rw [iterate_eq h hr hf] at hs
        refine ⟨allSteps_append.mpr ⟨hadm, ?_⟩, ?_⟩
        · intro t' ht'
          cases hs.symm.trans ht'
          exact hevents
        · rw [run_append, hs]
          exact heq

/-- **`main` is a run of the events that its reports make**, up to the first `poll` that fails, which
ends the process.  It polls what it should and reads no memory that is not there: besides that, only
what it calls, the state machine of a connection or the TTL loop, can fault. -/
theorem main_loop_is_run (handle : σ → List Bytes → Res (σ × ResCode × Bytes))
    (expire : UInt64 → σ → Res σ) (data : σ) (reports : List Report)
    (hk : AllSteps (iterate handle expire) Plausible (start data) reports) :
    AllSteps (step handle expire) Admits (start data)
      (runEvents handle expire (start data) reports) ∧
    run (iterate handle expire) (start data) reports =
      run (step handle expire) (start data) (runEvents handle expire (start data) reports) >>=
        orDied reports ∧
    ∀ f, run (iterate handle expire) (start data) reports = .error f →
      CalleeFaults handle expire f ∨ f = .died ∧ ∃ r ∈ reports, r.failed = true := by
  obtain ⟨hadm, heq⟩ := iterations_run (start_sound data) hk
  refine ⟨hadm, heq, ?_⟩
  intro f hf
  rw [heq] at hf
  rcases bind_error.mp hf with hf | ⟨s, -, hf⟩
  · exact .inl ((run_spec (start_idleList data) (start_open data) hadm).2 f hf)
  · unfold orDied at hf
    split at hf
    · cases hf
    · rename_i hall
      cases hf
      exact .inr ⟨rfl, by simpa using hall⟩

/-- Two iterations: a connection is accepted; it is served while the next one is accepted. -/
def twoIterations : List Report :=
  [⟨1, false, some (some 5, 2), [], 3⟩,
    ⟨4, false, some (some 6, 5), [some (⟨frame ["set", "k", "v"], [.count 100], [.count 100]⟩, 6)],
      7⟩]

/-- A third `poll` fails. -/
theorem main_loop_is_run_two : ∃ s : Server Host,
    run (step (Host.serve ⟨64, 0⟩) Host.expire) (start {})
      [.accept (some 5) 2, .timers 3, .accept (some 6) 5,
        .ready 5 ⟨frame ["set", "k", "v"], [.count 100], [.count 100]⟩ 6, .timers 7] = .ok s ∧
    s.fd2conn = [none, none, none, none, none, some 0, some 1] ∧ hmSize s.data.data.db = 1 ∧
    run (iterate (Host.serve ⟨64, 0⟩) Host.expire) (start {}) twoIterations = .ok s ∧
    run (iterate (Host.serve ⟨64, 0⟩) Host.expire) (start {})
      (twoIterations ++ [⟨8, true, none, [], 9⟩]) = .error .died := by
  have hevents : ∀ last ∈ [[], [⟨8, true, none, [], 9⟩]],
      runEvents (Host.serve ⟨64, 0⟩) Host.expire (start {}) (twoIterations ++ last) =
      [.accept (some 5) 2, .timers 3, .accept (some 6) 5,
        .ready 5 ⟨frame ["set", "k", "v"], [.count 100], [.count 100]⟩ 6, .timers 7] := by
    intro last hlast
    rcases List.mem_cons.mp hlast with rfl | hlast
    · rfl
    · obtain rfl := List.mem_singleton.mp hlast
      rfl
  have hfacts : (run (step (Host.serve ⟨64, 0⟩) Host.expire) (start {})
      [.accept (some 5) 2, .timers 3, .accept (some 6) 5,
        .ready 5 ⟨frame ["set", "k", "v"], [.count 100], [.count 100]⟩ 6,
        .timers 7]).toOption.map (fun s => (s.fd2conn, hmSize s.data.data.db)) =
      some ([none, none, none, none, none, some 0, some 1], 1) := by decide +kernel
  obtain ⟨s, hs, hfacts⟩ := ok_of_map hfacts
  obtain ⟨hfds, hsize⟩ := Prod.mk.inj hfacts
  obtain ⟨-, htwo, -⟩ :=
    main_loop_is_run (Host.serve ⟨64, 0⟩) Host.expire {} twoIterations (by decide +kernel)
  obtain ⟨-, hthree, -⟩ :=
    main_loop_is_run (Host.serve ⟨64, 0⟩) Host.expire {}
      (twoIterations ++ [⟨8, true, none, [], 9⟩]) (by decide +kernel)
  have htwoEvents := hevents [] (by simp)
  rw [List.append_nil] at htwoEvents
  rw [htwoEvents, hs, ok_bind] at htwo
  rw [hevents _ (by simp), hs, ok_bind] at hthree
  exact ⟨s, hs, hfds, hsize, htwo, hthree⟩

/-! ## From poll to connection_io -/

/-- The connections on these descriptors are in `s₁` what they are in `s`. -/
def Waiting (s s₁ : Server σ) (fds : List Nat) : Prop :=
  ∀ p fd conn, fd ∈ fds → s.held p = some (fd, conn) → s₁.held p = some (fd, conn)

theorem session_of_held (h : IdleList s order) {fd : Nat} {conn : Conn}
    (hp : s.held p = some (fd, conn)) : ∃ c, s.session fd = some (p, c) ∧ c.conn = conn := by
  obtain ⟨c, hc, hseat⟩ := Option.map_eq_some_iff.mp hp
  have hfd : c.fd = fd := congrArg Prod.fst hseat
  refine ⟨c, ?_, congrArg Prod.snd hseat⟩
  unfold session
  rw [(h.stored fd p).mpr ⟨c, hc, hfd⟩]
  simp [hc]

theorem listen_waiting (h : s.Sound) (hl : s.listen r = .ok s₁) (fds : List Nat) :
    Waiting s s₁ fds := by
  obtain ⟨⟨order, hlist⟩, -⟩ := h
  intro p fd conn _ hp
  unfold listen at hl
  split at hl
  · cases hl
    exact hp
  · rename_i newFd now _
    cases newFd with
    | none => cases hl; exact hp
    | some newFd =>
      have hne : p ≠ s.next := by
        rintro rfl
        rw [held, hlist.none_next] at hp
        cases hp
      rw [(accept_exchange hl).2.2.2 p, if_neg hne]
      exact hp

/-- Serving one descriptor leaves the connections on the others waiting. -/
theorem ready_waiting {fd : Nat} {fds : List Nat} {io : IoScript} (hw : Waiting s s₁ (fd :: fds))
    (hfd : fd ∉ fds) (h : s₁.Sound) (hnow : s₁.clock ≤ now)
    (hs : s₁.clientReady handle fd io now = .ok s') : Waiting s s' fds := by
  obtain ⟨⟨order, hlist⟩, -⟩ := h
  intro q fd' conn hmem hq
  have hq₁ := hw q fd' conn (List.mem_cons_of_mem _ hmem) hq
  cases hses : s₁.session fd with
  | none =>
    rw [session_none hlist hses] at hs
    cases hs
    exact hq₁
  | some r =>
    obtain ⟨p, c⟩ := r
    have hx := ready_exchange handle io hlist hnow hses
    split at hx
    · rw [hs] at hx
      cases hx
    · obtain ⟨t, ht, -, -, -, hheld⟩ := hx
      cases hs.symm.trans ht
      have hne : q ≠ p := by
        rintro rfl
        obtain ⟨hfd₁, hc⟩ := session_some hses
        obtain ⟨d, hd, hdfd⟩ := (hlist.stored fd q).mp hfd₁
        rw [held_of hd, hdfd] at hq₁
        cases hq₁
        exact hfd hmem
      rw [hheld q, if_neg hne]
      exact hq₁

/-- Serving the first descriptors leaves the connections on the later ones waiting. -/
theorem serveAll_waiting : ∀ {pre : List (PollFd × Option (IoScript × UInt64))} {s₁ : Server σ}
    {fds : List Nat}, Waiting s s₁ (pre.map (fun z => z.1.fd) ++ fds) →
    (pre.map (fun z => z.1.fd) ++ fds).Nodup → s₁.Sound →
    (s₁.clock :: (clientEvents pre).map LoopEvent.time).Pairwise (· ≤ ·) →
    s₁.serveAll handle pre = .ok s' → Waiting s s' fds ∧ s'.Sound
  | [], _, _, hw, _, h, _, hs => by
    cases hs
    exact ⟨hw, h⟩
  | (pfd, none) :: pre, s₁, fds, hw, hnd, h, ht, hs => by
    have hw' : Waiting s s₁ (pre.map (fun z => z.1.fd) ++ fds) := fun q fd conn hmem hq =>
      hw q fd conn (List.mem_cons_of_mem _ hmem) hq
    exact serveAll_waiting hw' (List.nodup_cons.mp hnd).2 h ht hs
  | (pfd, some (io, now)) :: pre, s₁, fds, hw, hnd, h, ht, hs => by
    obtain ⟨t, hready, hs⟩ := bind_ok.mp hs
    obtain ⟨hfd, hnd'⟩ := List.nodup_cons.mp hnd
    obtain ⟨hclock, hlater⟩ := List.pairwise_cons.mp ht
    have hnow : s₁.clock ≤ now := hclock now List.mem_cons_self
    have ha : s₁.Admits (.ready pfd.fd io now) := hnow
    have hready' : s₁.step handle (fun _ d => .ok d) (.ready pfd.fd io now) = .ok t := hready
    refine serveAll_waiting (ready_waiting hw hfd h hnow hready) hnd' (step_sound h ha hready') ?_ hs
    rcases step_clock h ha hready' with hc | hc <;> rw [hc]
    · exact ht.sublist ((List.sublist_cons_self _ _).cons_cons _)
    · exact hlater

theorem zip_fds : ∀ (pfds : List PollFd) (clients : List (Option (IoScript × UInt64))),
    ((pfds.zip clients).map fun z => z.1.fd).Sublist (pfds.map PollFd.fd)
  | [], _ => List.nil_sublist _
  | _ :: _, [] => List.nil_sublist _
  | pfd :: pfds, _ :: clients => (zip_fds pfds clients).cons_cons pfd.fd

/-- **A report reaches the connection it was made for.**  Whenever the loop comes to a descriptor
that `poll` reported, `fd2conn` still leads to the connection that was polled, and its state is the
one it was polled in: it was asked for `POLLIN` exactly if `connection_io` is about to read. -/
theorem polled_is_served (handle : σ → List Bytes → Res (σ × ResCode × Bytes))
    (expire : UInt64 → σ → Res σ) (data : σ) (reports : List Report)
    (hk : AllSteps (iterate handle expire) Plausible (start data) reports)
    (hrun : run (iterate handle expire) (start data) reports = .ok s) (hr : s.Plausible r)
    {pfds : List PollFd} {pre post : List (PollFd × Option (IoScript × UInt64))} {pfd : PollFd}
    {io : IoScript} {s₀ : Server σ} (hpoll : s.pollArgs = .ok pfds)
    (hzip : pfds.zip r.clients = pre ++ (pfd, some (io, now)) :: post) (hlisten : s.listen r = .ok s₀)
    (hpre : s₀.serveAll handle pre = .ok s₁) :
    ∃ p c c₁, s.session pfd.fd = some (p, c) ∧ s₁.session pfd.fd = some (p, c₁) ∧
      c₁.conn = c.conn ∧ pfd.events = c₁.conn.pollEvents := by
  have h : s.Sound := run_invariant (C := Plausible)
    (fun _ _ _ h hr hs => iterate_sound h hr hs) (start_sound data) hk hrun
  obtain ⟨order, hlist⟩ := h.1
  rw [pollArgs_ok hlist] at hpoll
  cases hpoll
  obtain ⟨hsound, htimes⟩ := listen_sound h hr hlisten
  -- the descriptors before this one, this one, and those behind it
  have hfds : ((s.stored.filterMap s.pollOf).zip r.clients).map (fun z => z.1.fd) =
      pre.map (fun z => z.1.fd) ++ pfd.fd :: post.map fun z => z.1.fd := by
    rw [hzip, List.map_append, List.map_cons]
  have hnd : (pre.map (fun z => z.1.fd) ++ pfd.fd :: post.map fun z => z.1.fd).Nodup :=
    hfds ▸ (pollArgs_nodup hlist).sublist (zip_fds _ _)
  have hpretimes : (s₀.clock :: (clientEvents pre).map LoopEvent.time).Pairwise (· ≤ ·) := by
    refine htimes.sublist (List.Sublist.cons_cons _ ?_)
    have hall := clientEvents_time (s.stored.filterMap s.pollOf) r.clients
    rw [hzip, clientEvents_append, List.map_append] at hall
    exact ((List.sublist_append_left _ _).trans hall).trans (List.sublist_append_left _ _)
  obtain ⟨hwait, hsound₁⟩ := serveAll_waiting (listen_waiting h hlisten _) hnd hsound hpretimes hpre
  have hmem : pfd ∈ s.stored.filterMap s.pollOf := by
    have hzipped : (pfd, some (io, now)) ∈ (s.stored.filterMap s.pollOf).zip r.clients := by
      rw [hzip]
      simp
    exact (List.of_mem_zip hzipped).1
  obtain ⟨p, conn, hp, hevents⟩ := (mem_pollArgs hlist).mp hmem
  obtain ⟨c, hc, hconn⟩ := session_of_held hlist hp
  obtain ⟨order₁, hlist₁⟩ := hsound₁.1
  obtain ⟨c₁, hc₁, hconn₁⟩ := session_of_held hlist₁ (hwait p pfd.fd conn List.mem_cons_self hp)
  exact ⟨p, c, c₁, hc, hc₁, hconn₁.trans hconn.symm, hconn₁.symm ▸ hevents⟩

/-- Both connections are reported; the first one is closed before the second one is served. -/
theorem polled_is_served_second : ∃ s s₁ : Server Host,
    run (iterate (Host.serve ⟨64, 0⟩) Host.expire) (start {}) twoIterations = .ok s ∧
      s.serveAll (Host.serve ⟨64, 0⟩) [(⟨5, .POLLIN⟩, some (⟨[], [.fail], []⟩, 9))] = .ok s₁ ∧
      s₁.fd2conn = [none, none, none, none, none, none, some 1] ∧
      ∃ p c c₁, s.session 6 = some (p, c) ∧ s₁.session 6 = some (p, c₁) ∧ c₁.conn = c.conn ∧
        PollEvents.POLLIN = c₁.conn.pollEvents := by
  let r : Report :=
    ⟨8, false, none, [some (⟨[], [.fail], []⟩, 9), some (⟨[], [], []⟩, 10)], 11⟩
  have hs : (run (iterate (Host.serve ⟨64, 0⟩) Host.expire) (start {}) twoIterations).toOption.map
      (fun s => (decide (s.Plausible r), s.pollArgs.toOption)) =
      some (true, some [⟨5, .POLLIN⟩, ⟨6, .POLLIN⟩]) := by decide +kernel
  have hs₁ : (run (iterate (Host.serve ⟨64, 0⟩) Host.expire) (start {}) twoIterations >>= fun s =>
      s.serveAll (Host.serve ⟨64, 0⟩) [(⟨5, .POLLIN⟩, some (⟨[], [.fail], []⟩, 9))]).toOption.map
      Server.fd2conn = some [none, none, none, none, none, none, some 1] := by decide +kernel
  obtain ⟨s, hrun, hs⟩ := ok_of_map hs
  simp only [Prod.mk.injEq] at hs
  obtain ⟨hr, hpoll⟩ := hs
  rw [hrun, ok_bind] at hs₁
  obtain ⟨s₁, hserve, hfds⟩ := ok_of_map hs₁
  refine ⟨s, s₁, hrun, hserve, hfds, ?_⟩
  exact polled_is_served (r := r) (Host.serve ⟨64, 0⟩) Host.expire {} twoIterations
    (by decide +kernel) hrun (of_decide_eq_true hr) (ok_of_toOption hpoll)
    rfl rfl hserve

end Server

end RedisServer
