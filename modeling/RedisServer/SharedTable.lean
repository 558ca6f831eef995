import RedisServer.Answers

/-!
# Clients that share a table

`history_served`, for the running server: as long as the calls in its record are of the kind that
the server is sure to answer, the process does not end, whatever the number of clients, the order
of their events and the pieces in which their bytes arrive; and all of them read and write one
table of texts and score maps.
-/

set_option autoImplicit false

namespace RedisServer

open Runs Traces Deframe GlobalData

namespace World

variable {lim : Limits} {host : Host} {f : Fault}

/-- The record of a run, also of one that a fault has ended. -/
def recordOf : Except (Fault × World Host) (World Host) → List Record
  | .ok w => w.history
  | .error (_, w) => w.history

/-- An entry of the record that the server is sure to answer. -/
def Harmless (lim : Limits) (host : Host) (r : Record) : Prop :=
  (eventOf host r).Meets (Served lim) ChargedExpiry host.data

instance (lim : Limits) (host : Host) (r : Record) : Decidable (Harmless lim host r) :=
  inferInstanceAs (Decidable (Event.Meets _ _ _ _))

/-- **A harmless entry** ends no process. -/
theorem harmless_survived {r : Record} (hi : host.data.Serving) (hc : Harmless lim host r) :
    ¬r.Breaks (Host.serve lim) Host.expire host f := by
  intro hbreaks
  obtain ⟨g', h, -⟩ := serve_served hi hc
  cases r with
  | served p call =>
    obtain ⟨-, hfault⟩ := hbreaks
    obtain ⟨code, out, hreq⟩ := serve_request.mp h
    cases (serve_error hfault).symm.trans hreq
  | expired now =>
    rcases bind_error.mp hbreaks with hfault | ⟨g, -, hok⟩
    · cases hfault.symm.trans h
    · cases hok

/-- The data stays as it should be along a harmless record. -/
theorem serving_of_record {history : List Record} {host host' : Host} (hi : host.data.Serving)
    (hc : AllSteps (redo (Host.serve lim) Host.expire) (Harmless lim) host history)
    (h : run (redo (Host.serve lim) Host.expire) host history = .ok host') : host'.data.Serving :=
  run_invariant (I := fun host => host.data.Serving)
    (fun _ _ _ hi hc h => by
      obtain ⟨a, -, hreplies⟩ := replies_of_redo h
      exact (served_step hi hc hreplies.serve).1) hi hc h

/-- **All clients share one table**, and none of them can end the server: if the calls in the
record are harmless, the process is still running, the record is a trace of one table, and each
client has received a prefix of the answers to its own requests. -/
theorem clients_share_table (lim : Limits) (clock : List UInt64) (events : List WorldEvent)
    (hadm : AllSteps (step (Host.serve lim) Host.expire) Admits (start { clock := clock }) events)
    (hharmless : AllSteps (redo (Host.serve lim) Host.expire) (Harmless lim) { clock := clock }
      (recordOf (run (step (Host.serve lim) Host.expire) (start { clock := clock }) events))) :
    ∃ w log, run (step (Host.serve lim) Host.expire) (start { clock := clock }) events = .ok w ∧
      List.Forall₂ Logged w.history log ∧
      Trace (Table.Step Table.Finds) Table.empty log w.server.data.data.asTable ∧
      ∀ p, (w.callsOf p).map Call.cmd <+: requestFraming.items (w.peers p).stream ∧
        (w.peers p).received <+: responses (w.callsOf p) := by
  have h := run_accounted hadm
  have hstart : ({ clock := clock } : Host).data.Serving := .empty
  cases hrun : run (step (Host.serve lim) Host.expire) (start { clock := clock }) events with
  | error c =>
    obtain ⟨f, w⟩ := c
    rw [hrun] at h hharmless
    obtain ⟨before, r, host, hhistory, hbefore, hbreaks⟩ := Crashed.broke h
    have hharmless : AllSteps (redo (Host.serve lim) Host.expire) (Harmless lim)
        { clock := clock } (before ++ [r]) := hhistory ▸ hharmless
    obtain ⟨hcs, hlast⟩ := allSteps_append.mp hharmless
    obtain ⟨hc, -⟩ := allSteps_cons.mp (hlast host hbefore)
    exact absurd hbreaks (harmless_survived (serving_of_record hstart hcs hbefore) hc)
  | ok w =>
    rw [hrun] at h hharmless
    have h : Consistent (Host.serve lim) Host.expire { clock := clock } w := h
    obtain ⟨log, hlog, htrace⟩ :=
      history_logged asTable (fun _ _ _ hi hc h => served_step hi hc h) hstart hharmless h.redone
    refine ⟨w, log, rfl, hlog, htrace, ?_⟩
    intro p
    have hobs := h.observed p
    exact ⟨hobs.calls, hobs.sent⟩

/-- The client of `set` and the client of `keys` have received their answers. -/
theorem clients_share_table_two : ∃ w log,
    run (step (Host.serve ⟨64, 0⟩) Host.expire) (start {}) twoClients = .ok w ∧
      List.Forall₂ Logged w.history log ∧
      Trace (Table.Step Table.Finds) Table.empty log w.server.data.data.asTable ∧
      (∀ p, (w.peers p).received <+: responses (w.callsOf p)) ∧
      (w.peers 0).received = [9, 0, 0, 0, 3, 0, 0, 0, 0, 0, 0, 0, 0] ∧
      (w.peers 1).received = [5, 0, 0, 0, 4, 0, 0, 0, 0] := by
  obtain ⟨w, log, hrun, hlog, htrace, hclients⟩ :=
    clients_share_table ⟨64, 0⟩ [] twoClients (by decide +kernel) (by decide +kernel)
  have hreceived : (run (step (Host.serve ⟨64, 0⟩) Host.expire) (start {}) twoClients).toOption.map
      (fun w => ((w.peers 0).received, (w.peers 1).received)) =
      some ([9, 0, 0, 0, 3, 0, 0, 0, 0, 0, 0, 0, 0], [5, 0, 0, 0, 4, 0, 0, 0, 0]) := by
    decide +kernel
  rw [hrun] at hreceived
  obtain ⟨hset, hkeys⟩ := Prod.mk.inj (Option.some.inj hreceived)
  exact ⟨w, log, hrun, hlog, htrace, fun p => (hclients p).2, hset, hkeys⟩

end World

end RedisServer
