import RedisServer.World

/-!
# The keyspace of the running server

The handlers were studied over histories of requests and TTL passes (`serve`).  The server that
runs executes such a history: the one that `World` records, with the clock values that
`get_monotonic_usec()` returned.

Results, over every run with any number of connections:
* `World.keyspace_of_history` — its keyspace is reached by a history, entry by entry the recorded
  one; so it is well formed and its entries keep their types;
* `World.crash_blame` — an exception or a NULL sorted set is the doing of the last request, and the
  client that sent it is known.
-/

set_option autoImplicit false

namespace RedisServer

open Runs Deframe

/-- The event of a history that an entry of the record stands for. -/
inductive Follows : Record → Event → Prop
  | request (p : Ptr) (call : Call) (now : UInt64) : Follows (.served p call) (.request now call.cmd)
  | timers (now : UInt64) : Follows (.expired now) (.timers now)

variable {lim : Limits} {host host' : Host} {f : Fault}

/-! ## The history behind a record -/

theorem serve_of_redo {r : Record}
    (h : World.redo (Host.serve lim) Host.expire host r = .ok host') :
    ∃ ev, Follows r ev ∧ serve lim host.data ev = .ok host'.data := by
  cases r with
  | served p call =>
    obtain ⟨⟨host₁, code, out⟩, hserve, h⟩ := bind_ok.mp h
    obtain ⟨-, -, h⟩ := bind_ok.mp h
    cases h
    obtain ⟨⟨g, code', out'⟩, hreq, hserve⟩ := bind_ok.mp hserve
    cases hserve
    exact ⟨_, .request p call _, serve_request.mpr ⟨code, out, hreq⟩⟩
  | expired now =>
    obtain ⟨g, hg, h⟩ := bind_ok.mp h
    cases h
    exact ⟨_, .timers now, hg⟩

theorem serves_of_redo : ∀ {history : List Record} {host : Host},
    run (World.redo (Host.serve lim) Host.expire) host history = .ok host' →
    ∃ evs, List.Forall₂ Follows history evs ∧ run (serve lim) host.data evs = .ok host'.data
  | [], host, h => by
    cases h
    exact ⟨[], .nil, rfl⟩
  | r :: history, host, h => by
    obtain ⟨host₁, hr, h⟩ := run_cons_ok.mp h
    obtain ⟨ev, hev, hserve⟩ := serve_of_redo hr
    obtain ⟨evs, hevs, hserves⟩ := serves_of_redo h
    exact ⟨ev :: evs, .cons hev hevs, run_cons_ok.mpr ⟨_, hserve, hserves⟩⟩

/-- A keyspace that requests and TTL passes have built from nothing. -/
theorem redone_typed {clock : List UInt64} {history : List Record}
    (h : run (World.redo (Host.serve lim) Host.expire) { clock := clock } history = .ok host') :
    host'.data.Wf ∧ host'.data.Typed := by
  obtain ⟨evs, -, hserves⟩ := serves_of_redo h
  exact run_invariant_all (I := fun g => g.Wf ∧ g.Typed) serve_typed
    ⟨.empty, fun p e he => nomatch he⟩ hserves

/-! ## Who ended the process -/

/-- The TTL loop neither throws nor meets a NULL sorted set. -/
theorem quiet_expireTop (g : GlobalData) : Quiet (expireTop g) := by
  unfold expireTop
  simp only [quiet_bind, quiet_itemAt, quiet_read, quiet_assert, true_and]
  intro item _ e _
  refine ⟨by simp, ?_⟩
  intro r _ _ _
  split
  · simp
  · simp

theorem quiet_expireLoop (now : UInt64) : ∀ (n : Nat) (g : GlobalData), Quiet (expireLoop now n g)
  | 0, g => quiet_ok g
  | n + 1, g => by
    unfold expireLoop
    split
    · exact quiet_ok g
    · rw [quiet_ite]
      refine ⟨fun _ => ?_, fun _ => quiet_ok g⟩
      exact quiet_bind.mpr ⟨quiet_expireTop g, fun g' _ => quiet_expireLoop now n g'⟩

theorem quiet_expire (now : UInt64) (host : Host) : Quiet (Host.expire now host) := by
  unfold Host.expire
  exact quiet_bind.mpr ⟨quiet_expireLoop now _ _, fun g _ => quiet_ok _⟩

theorem serve_error {cmd : List Bytes} (h : Host.serve lim host cmd = .error f) :
    doRequest lim (host.clock.headD 0) host.data cmd [] = .error f := by
  rcases bind_error.mp h with h | ⟨r, -, h⟩
  · exact h
  · cases h

namespace World

/-- **The keyspace of the running server** is reached by the history it has recorded. -/
theorem keyspace_of_history (lim : Limits) (clock : List UInt64) (events : List WorldEvent)
    (w : World Host)
    (hadm : AllSteps (step (Host.serve lim) Host.expire) Admits (start { clock := clock }) events)
    (hrun : run (step (Host.serve lim) Host.expire) (start { clock := clock }) events = .ok w) :
    (∃ evs, List.Forall₂ Follows w.history evs ∧
      run (serve lim) {} evs = .ok w.server.data.data) ∧
      w.server.data.data.Wf ∧ w.server.data.data.Typed := by
  have h := run_accounted hadm
  rw [hrun] at h
  obtain ⟨evs, hevs, hserves⟩ := serves_of_redo h.redone
  exact ⟨⟨evs, hevs, hserves⟩, redone_typed h.redone⟩

theorem keyspace_of_history_two : ∃ w,
    run (step (Host.serve ⟨64, 0⟩) Host.expire) (start {}) twoClients = .ok w ∧
      (∃ evs, List.Forall₂ Follows w.history evs ∧
        run (serve ⟨64, 0⟩) {} evs = .ok w.server.data.data) ∧
      hmSize w.server.data.data.db = 1 := by
  have hsize : (run (step (Host.serve ⟨64, 0⟩) Host.expire) (start {}) twoClients).toOption.map
      (fun w => hmSize w.server.data.data.db) = some 1 := by decide +kernel
  obtain ⟨w, hw, hsize⟩ := ok_of_map hsize
  exact ⟨w, hw, (keyspace_of_history ⟨64, 0⟩ [] twoClients w (by decide +kernel) hw).1, hsize⟩

/-- **An exception or a NULL sorted set has an author.**  If one ends the process, the last entry
of the record is a request of a client's own stream: a `zadd` whose score is unreadable, or one to
a key that held a string at that point. -/
theorem crash_blame (lim : Limits) (clock : List UInt64) (events : List WorldEvent) (f : Fault)
    (w : World Host)
    (hadm : AllSteps (step (Host.serve lim) Host.expire) Admits (start { clock := clock }) events)
    (hrun : run (step (Host.serve lim) Host.expire) (start { clock := clock }) events =
      .error (f, w)) (hf : f = .exception ∨ f = .nullZSet) :
    ∃ before p cmd host, w.history = before ++ [.served p ⟨cmd, none⟩] ∧
      run (redo (Host.serve lim) Host.expire) { clock := clock } before = .ok host ∧
      cmd ∈ requestFraming.items (w.peers p).stream ∧
      (f = .exception ∧ BadScore cmd ∨ f = .nullZSet ∧ AddsToString host.data cmd) := by
  have h := run_accounted hadm
  rw [hrun] at h
  obtain ⟨before, r, host, hhistory, hbefore, hbreaks⟩ := Crashed.broke h
  cases r with
  | expired now =>
    have hq := quiet_expire now host
    rcases hf with rfl | rfl
    · exact absurd hbreaks hq.1
    · exact absurd hbreaks hq.2
  | served p call =>
    obtain ⟨cmd, answer⟩ := call
    obtain ⟨rfl, hfault⟩ := hbreaks
    have hmem : cmd ∈ requestFraming.items (w.peers p).stream := by
      have hcall : (⟨cmd, none⟩ : Call) ∈ w.callsOf p := by
        refine List.mem_filterMap.mpr ⟨.served p ⟨cmd, none⟩, ?_, if_pos rfl⟩
        rw [hhistory]
        exact List.mem_concat_self
      exact (Crashed.observed h p).calls.subset (List.mem_map_of_mem (f := Call.cmd) hcall)
    have hlen : cmd.length ≤ maxArgs :=
      Framing.forall_items (P := fun cmd : List Bytes => cmd.length ≤ maxArgs)
        (fun hn => nextRequest_length hn) _ cmd hmem
    refine ⟨before, p, cmd, host, hhistory, hbefore, hmem, ?_⟩
    rcases hf with rfl | rfl
    · exact .inl ⟨rfl, (serve_exception hlen).mp hfault⟩
    · obtain ⟨hw, ht⟩ := redone_typed hbefore
      exact .inr ⟨rfl, (doRequest_nullZSet_iff hw ht cmd).mp (serve_error hfault)⟩

/-- A client stores a string and then adds a member to it. -/
def addsToString : List WorldEvent :=
  [.accept (some 5) 1, .arrive 0 (frame ["set", "k", "v"]), .ready 5 [.count 100] [.count 100] 2,
    .arrive 0 (frame ["zadd", "k", "1", "m"]), .ready 5 [.count 100] [] 3]

theorem crash_blame_adds : ∃ (w : World Host) (before : List Record) (p : Ptr) (cmd : List Bytes)
    (host : Host),
    run (step (Host.serve ⟨64, 0⟩) Host.expire) (start {}) addsToString = .error (.nullZSet, w) ∧
      w.history = before ++ [.served p ⟨cmd, none⟩] ∧
      cmd ∈ requestFraming.items (w.peers p).stream ∧ AddsToString host.data cmd := by
  have hfault : (match run (step (Host.serve ⟨64, 0⟩) Host.expire) (start {}) addsToString with
      | .ok _ => none | .error (f, _) => some f) = some .nullZSet := by decide +kernel
  split at hfault
  · cases hfault
  · rename_i f w hrun
    cases hfault
    obtain ⟨before, p, cmd, host, hhistory, -, hmem, hblame⟩ :=
      crash_blame ⟨64, 0⟩ [] addsToString .nullZSet w (by decide +kernel) hrun (.inr rfl)
    rcases hblame with ⟨h, -⟩ | ⟨-, hadds⟩
    · cases h
    · exact ⟨w, before, p, cmd, host, hrun, hhistory, hmem, hadds⟩

end World

end RedisServer
