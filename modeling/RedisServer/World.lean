import RedisServer.Exchange
import RedisServer.LoopSteps
import RedisServer.Replies

/-!
# The event loop and its clients

`World` puts the clients around the event loop: what each of them has sent, what of it the kernel
still holds, and what it was sent.  Any number of connections are accepted, polled, closed and
evicted in any order, while their bytes arrive in any pieces.  `history` records what is done to
the data, in the order in which it is done: the calls of `do_request`, with the connection that
made them, and the TTL loops.

The server's part of an event is `Server.step`; `observe` is the part an observer adds.

Results, over every run, also one that ends in a fault:
* `World.serialisable` — the data and all the answers are those of the history executed alone, one
  entry after the other;
* `World.sessions` — what each connection contributes to the history is the requests of its own
  stream, in order and each once, and what its client receives is their answers.
-/

set_option autoImplicit false

namespace RedisServer

open Runs Deframe

/-! ## The model -/

/-- A client: the bytes it has sent, those of them that `read` has not returned yet, and the bytes
it was sent. -/
structure Peer where
  stream : Bytes := []
  inbox : Bytes := []
  received : Bytes := []
  deriving DecidableEq, Repr

/-- What happens to the data. -/
inductive Record where
  | served (p : Ptr) (call : Call)
  | expired (now : UInt64)
  deriving DecidableEq, Repr

/-- The call, if it is one of the connection at `p`. -/
def Record.callOf (p : Ptr) : Record → Option Call
  | .served q call => if q = p then some call else none
  | .expired _ => none

/-- A connection is known by its address; no address is used twice. -/
structure World (σ : Type) where
  server : Server σ
  peers : Ptr → Peer := fun _ => {}
  history : List Record := []

/-- A `LoopEvent`, or bytes that arrive for a connection. -/
inductive WorldEvent where
  | accept (newFd : Option Nat) (now : UInt64)
  | arrive (p : Ptr) (bytes : Bytes)
  | ready (clientFd : Nat) (reads writes : List SysRes) (now : UInt64)
  | timers (now : UInt64)

namespace World

variable {σ : Type}

/-- `main` before its loop. -/
def start (data : σ) : World σ := { server := Server.start data }

/-- The calls of the connection at `p`. -/
def callsOf (w : World σ) (p : Ptr) : List Call := w.history.filterMap (Record.callOf p)

/-- The bytes that wait for the connection on a descriptor. -/
def inboxOf (w : World σ) (clientFd : Nat) : Bytes :=
  match w.server.session clientFd with
  | some (p, _) => (w.peers p).inbox
  | none => []

/-- What the event is for the server. -/
def loopEvent (w : World σ) : WorldEvent → Option LoopEvent
  | .accept newFd now => some (.accept newFd now)
  | .arrive _ _ => none
  | .ready clientFd reads writes now =>
    some (.ready clientFd ⟨w.inboxOf clientFd, reads, writes⟩ now)
  | .timers now => some (.timers now)

variable (handle : σ → List Bytes → Res (σ × ResCode × Bytes)) (expire : UInt64 → σ → Res σ)

/-- The record of a call of `connection_io`, also of one that faults. -/
def exchange (conn : Conn) (net : Net σ) : Net σ :=
  match connectionIo handle conn net with
  | .ok (_, net) => net
  | .error (_, net) => net

/-- What `connection_io` finds of the connection at `p`. -/
def offered (w : World σ) (p : Ptr) (reads writes : List SysRes) : Net σ :=
  { db := w.server.data, inbox := (w.peers p).inbox, reads := reads, writes := writes }

/-- The world with what a call of `connection_io` on `p` left behind. -/
def exchanged (w : World σ) (p : Ptr) (seen : Net σ) : World σ :=
  let peer := w.peers p
  let peer := { peer with inbox := seen.inbox, received := peer.received ++ seen.sent }
  { w with
    peers := Function.update w.peers p peer
    history := w.history ++ seen.calls.map (.served p) }

/-- What an observer sees of the event. -/
def observe (w : World σ) : WorldEvent → World σ
  | .accept _ _ => w
  | .arrive p bytes =>
    let peer := w.peers p
    let peer := { peer with stream := peer.stream ++ bytes, inbox := peer.inbox ++ bytes }
    { w with peers := Function.update w.peers p peer }
  | .ready clientFd reads writes _ =>
    match w.server.session clientFd with
    | none => w
    | some (p, c) => w.exchanged p (exchange handle c.conn (w.offered p reads writes))
  | .timers now => { w with history := w.history ++ [.expired now] }

/-- A fault ends the process; what the clients have seen survives in it. -/
def step (w : World σ) (e : WorldEvent) : Except (Fault × World σ) (World σ) :=
  match w.loopEvent e with
  | none => .ok (w.observe handle e)
  | some le =>
    match w.server.step handle expire le with
    | .ok s => .ok { w.observe handle e with server := s }
    | .error f => .error (f, w.observe handle e)

/-- What the kernel keeps to. -/
def Admits (w : World σ) (e : WorldEvent) : Prop := ∀ le ∈ w.loopEvent e, w.server.Admits le

instance (w : World σ) (e : WorldEvent) : Decidable (w.Admits e) :=
  inferInstanceAs (Decidable (∀ le ∈ w.loopEvent e, w.server.Admits le))

/-- An entry of the history, executed on its own. -/
def redo (db : σ) : Record → Res σ
  | .served _ call => call.redo handle db
  | .expired now => expire now db

end World

/-! ## Streams that grow -/

section Streams

variable {σ : Type} {S : Bytes} {conn : Conn} {net net' : Net σ}

theorem Observed.congr (h : Observed S net) (hs : net'.sent = net.sent)
    (hc : net'.calls = net.calls) : Observed S net' where
  calls := by
    rw [hc]
    exact h.calls
  sent := by
    rw [hs, hc]
    exact h.sent

/-- A connection fits its stream by what was read, executed and sent. -/
theorem Settled.congr (h : Settled S conn net) (hi : net'.inbox = net.inbox)
    (hs : net'.sent = net.sent) (hc : net'.calls = net.calls) : Settled S conn net' := by
  refine ⟨h.observed.congr hs hc, ?_⟩
  · intro hne
    obtain ⟨hl, hroom⟩ := h.live hne
    refine ⟨⟨?_, ?_, hl.sentLe, hl.idle⟩, hroom⟩
    · rw [hi, hc]; exact hl.read
    · rw [hs, hc]; exact hl.written

theorem Settled.arrive (h : Settled S conn net) (bytes : Bytes)
    (hi : net'.inbox = net.inbox ++ bytes) (hs : net'.sent = net.sent)
    (hc : net'.calls = net.calls) : Settled (S ++ bytes) conn net' := by
  have hobs : Observed (S ++ bytes) net :=
    ⟨h.observed.calls.trans (Framing.items_prefix S bytes), h.observed.sent⟩
  refine ⟨hobs.congr hs hc, ?_⟩
  intro hne
  obtain ⟨hl, hroom⟩ := h.live hne
  obtain ⟨c, hS, hcons⟩ := hl.read
  refine ⟨⟨⟨c, ?_, ?_⟩, ?_, hl.sentLe, hl.idle⟩, hroom⟩
  · rw [hi, hS]
    simp only [List.append_assoc]
  · rw [hc]
    exact hcons
  · rw [hs, hc]
    exact hl.written

end Streams

/-- The entry of the history that ended the process. -/
def Record.Breaks {σ : Type} (handle : σ → List Bytes → Res (σ × ResCode × Bytes))
    (expire : UInt64 → σ → Res σ) (db : σ) (f : Fault) : Record → Prop
  | .served _ call => call.answer = none ∧ handle db call.cmd = .error f
  | .expired now => expire now db = .error f

namespace World

variable {σ : Type} {handle : σ → List Bytes → Res (σ × ResCode × Bytes)}
  {expire : UInt64 → σ → Res σ} {data : σ} {w : World σ} {p : Ptr} {now : UInt64}
  {events : List WorldEvent}

/-! ## The invariant -/

/-- What has been seen of the connection at `p`. -/
def net (w : World σ) (p : Ptr) : Net σ :=
  { db := w.server.data
    inbox := (w.peers p).inbox
    sent := (w.peers p).received
    calls := w.callsOf p }

/-- The connection at `p`, as it is or as it was when it was closed, fits its stream. -/
def Session (w : World σ) (p : Ptr) : Prop :=
  ∃ conn, Settled (w.peers p).stream conn (w.net p) ∧
    (∀ fd c, w.server.held p = some (fd, c) → c = conn) ∧ (w.server.next ≤ p → conn = {})

variable (handle expire) in
structure Consistent (data : σ) (w : World σ) : Prop where
  list : ∃ order, Server.IdleList w.server order
  opened : w.server.Open
  redone : run (redo handle expire) data w.history = .ok w.server.data
  session : ∀ p, w.Session p

variable (handle expire) in
structure Crashed (data : σ) (f : Fault) (w : World σ) : Prop where
  broke : ∃ before r db, w.history = before ++ [r] ∧
    run (redo handle expire) data before = .ok db ∧ r.Breaks handle expire db f
  observed : ∀ p, Observed (w.peers p).stream (w.net p)

variable (handle expire) in
/-- What an event or a run leaves. -/
abbrev Accounted (data : σ) : Except (Fault × World σ) (World σ) → Prop :=
  Ends (Consistent handle expire data) fun (f, w) => Crashed handle expire data f w

theorem Consistent.observed (h : Consistent handle expire data w) (p : Ptr) :
    Observed (w.peers p).stream (w.net p) := by
  obtain ⟨conn, hset, -⟩ := h.session p
  exact hset.observed

theorem Consistent.start (data : σ) : Consistent handle expire data (start data) where
  list := ⟨[], Server.start_idleList data⟩
  opened := Server.start_open data
  redone := rfl
  session _ := ⟨{}, .start [] data, nofun, fun _ => rfl⟩

/-! ## Events -/

theorem accept_consistent {newFd : Option Nat} (h : Consistent handle expire data w)
    (ha : w.Admits (.accept newFd now)) :
    Accounted handle expire data (w.step handle expire (.accept newFd now)) := by
  have ha : w.server.Admits (.accept newFd now) := ha _ rfl
  cases newFd with
  | none => exact h
  | some fd =>
    obtain ⟨order, hlist⟩ := h.list
    obtain ⟨s', hs', hlist', hopen⟩ := Server.accept_spec hlist ha.1 (ha.2 fd rfl)
    obtain ⟨hdata, hnext, -, hq⟩ := Server.accept_exchange hs'
    have hstep : w.step handle expire (.accept (some fd) now) = .ok { w with server := s' } := by
      show (match w.server.acceptNewConnection (some fd) now with | .ok s => _ | .error f => _) = _
      rw [hs']
      rfl
    rw [hstep]
    refine ⟨⟨_, hlist'⟩, hopen h.opened, h.redone.trans (congrArg _ hdata.symm), ?_⟩
    intro p
    obtain ⟨conn, hset, hheld, hfresh⟩ := h.session p
    refine ⟨conn, hset.congr rfl rfl rfl, ?_, ?_⟩
    · intro d c hc
      have hc : s'.held p = some (d, c) := hc
      rw [hq p] at hc
      split at hc
      · rename_i hp
        cases hc
        exact (hfresh hp.ge).symm
      · exact hheld d c hc
    · intro hp
      exact hfresh ((Nat.le_succ _).trans (hnext.symm.trans_le hp))

theorem arrive_consistent {bytes : Bytes} (h : Consistent handle expire data w) :
    Accounted handle expire data (w.step handle expire (.arrive p bytes)) := by
  refine ⟨h.list, h.opened, h.redone, ?_⟩
  intro q
  obtain ⟨conn, hset, hheld, hfresh⟩ := h.session q
  refine ⟨conn, ?_, hheld, hfresh⟩
  by_cases hq : q = p
  · subst hq
    have hpeer : (w.observe handle (.arrive q bytes)).peers q =
        ⟨(w.peers q).stream ++ bytes, (w.peers q).inbox ++ bytes, (w.peers q).received⟩ :=
      Function.update_self _ _ _
    have hreceived : ((w.observe handle (.arrive q bytes)).peers q).received =
        (w.peers q).received := by rw [hpeer]
    rw [hpeer]
    exact hset.arrive bytes (congrArg Peer.inbox hpeer) hreceived rfl
  · have hpeer : (w.observe handle (.arrive p bytes)).peers q = w.peers q :=
      Function.update_of_ne hq _ _
    rw [hpeer]
    exact hset.congr (congrArg Peer.inbox hpeer) (congrArg Peer.received hpeer) rfl

theorem callsOf_append (h : List Record) (p q : Ptr) (calls : List Call) :
    (h ++ calls.map (Record.served p)).filterMap (Record.callOf q) =
      h.filterMap (Record.callOf q) ++ if q = p then calls else [] := by
  rw [List.filterMap_append, List.filterMap_map]
  congr 1
  by_cases hq : q = p
  · have hcall : Record.callOf q ∘ Record.served p = some := by
      funext call
      simp [Record.callOf, hq]
    rw [if_pos hq, hcall, List.filterMap_some]
  · have hcall : Record.callOf q ∘ Record.served p = fun _ => none := by
      funext call
      simp [Record.callOf, Ne.symm hq]
    rw [if_neg hq, hcall]
    simp

theorem callsOf_expired (h : List Record) (now : UInt64) (p : Ptr) :
    (h ++ [Record.expired now]).filterMap (Record.callOf p) = h.filterMap (Record.callOf p) := by
  rw [List.filterMap_append]
  exact List.append_nil _

/-- The calls of one connection, made again. -/
theorem redo_served (p : Ptr) (calls : List Call) (db : σ) :
    run (redo handle expire) db (calls.map (.served p)) = run (Call.redo handle) db calls :=
  run_map (Record.served p) calls db

/-- An entry that was executed did not fault. -/
theorem redone_mem : ∀ {history : List Record} {db db' : σ},
    run (redo handle expire) db history = .ok db' →
    ∀ r ∈ history, ∃ t t', redo handle expire t r = .ok t'
  | [], _, _, _ => nofun
  | r :: history, db, db', h => by
    obtain ⟨t, ht, h⟩ := run_cons_ok.mp h
    exact List.forall_mem_cons.mpr ⟨⟨db, t, ht⟩, redone_mem h⟩

theorem redone_answered {history : List Record} {db db' : σ}
    (h : run (redo handle expire) db history = .ok db') {cmd : List Bytes} :
    ⟨cmd, none⟩ ∉ history.filterMap (Record.callOf p) := by
  intro hm
  obtain ⟨r, hr, hcall⟩ := List.mem_filterMap.mp hm
  obtain ⟨t, t', hredo⟩ := redone_mem h r hr
  cases r with
  | served q call =>
    have hcall : (if q = p then some call else none) = some ⟨cmd, none⟩ := hcall
    split at hcall
    · cases hcall
      exact Call.redo_none t t' cmd hredo
    · cases hcall
  | expired now => cases hcall

theorem exchanged_peers (seen : Net σ) : (w.exchanged p seen).peers p =
    ⟨(w.peers p).stream, seen.inbox, (w.peers p).received ++ seen.sent⟩ :=
  Function.update_self _ _ _

theorem exchanged_other {q : Ptr} (hq : q ≠ p) (seen : Net σ) :
    (w.exchanged p seen).peers q = w.peers q :=
  Function.update_of_ne hq _ _

theorem exchanged_calls (seen : Net σ) (q : Ptr) :
    (w.exchanged p seen).callsOf q = w.callsOf q ++ if q = p then seen.calls else [] :=
  callsOf_append w.history p q seen.calls

/-- The others do not notice. -/
theorem Session.exchanged_other {q : Ptr} (hq : q ≠ p) (seen : Net σ) {s : Server σ}
    (h : w.Session q) (hheld : s.held q = w.server.held q) (hnext : s.next = w.server.next) :
    ({ w.exchanged p seen with server := s } : World σ).Session q := by
  obtain ⟨conn, hset, hc, hfresh⟩ := h
  have hpeer := w.exchanged_other hq seen
  have hcalls : (w.exchanged p seen).callsOf q = w.callsOf q := by
    rw [exchanged_calls, if_neg hq, List.append_nil]
  refine ⟨conn, ?_, fun d c h => hc d c (hheld.symm.trans h), fun h => hfresh (hnext.symm.trans_le h)⟩
  show Settled ((w.exchanged p seen).peers q).stream conn _
  rw [hpeer]
  exact hset.congr (congrArg Peer.inbox hpeer) (congrArg Peer.received hpeer) hcalls

theorem exchanged_other_observed {q : Ptr} (hq : q ≠ p) (seen : Net σ)
    (h : Observed (w.peers q).stream (w.net q)) :
    Observed ((w.exchanged p seen).peers q).stream ((w.exchanged p seen).net q) := by
  have hpeer := w.exchanged_other hq seen
  have hcalls : (w.exchanged p seen).callsOf q = w.callsOf q := by
    rw [exchanged_calls, if_neg hq, List.append_nil]
  rw [hpeer]
  exact h.congr (congrArg Peer.received hpeer) hcalls

/-- The connection itself has done what its call did, behind what was seen before. -/
theorem exchanged_settled {conn : Conn} {seen : Net σ} {s : Server σ}
    (h : Settled (w.peers p).stream conn (seen.after (w.net p).sent (w.net p).calls)) :
    Settled ((w.exchanged p seen).peers p).stream conn
      (({ w.exchanged p seen with server := s } : World σ).net p) := by
  have hpeer := w.exchanged_peers seen (p := p)
  have hcalls : (w.exchanged p seen).callsOf p = w.callsOf p ++ seen.calls := by
    rw [exchanged_calls, if_pos rfl]
  rw [hpeer]
  exact h.congr (congrArg Peer.inbox hpeer) (congrArg Peer.received hpeer) hcalls

theorem exchanged_observed {seen : Net σ}
    (h : Observed (w.peers p).stream (seen.after (w.net p).sent (w.net p).calls)) :
    Observed ((w.exchanged p seen).peers p).stream ((w.exchanged p seen).net p) := by
  have hpeer := w.exchanged_peers seen (p := p)
  have hcalls : (w.exchanged p seen).callsOf p = w.callsOf p ++ seen.calls := by
    rw [exchanged_calls, if_pos rfl]
  rw [hpeer]
  exact h.congr (congrArg Peer.received hpeer) hcalls

/-- A call of `connection_io` that ends the process. -/
theorem crashed_of {f : Fault} {seen : Net σ} {P : Conn × Net σ → Prop}
    (h : Consistent handle expire data w)
    (hout : Outcome handle (w.peers p).stream P
      (shift (putTwo (w.net p).sent (w.net p).calls) (w.net p).sent (w.net p).calls
        (.error (f, seen))))
    (hredo : run (Call.redo handle) w.server.data seen.calls = .ok seen.db ∨
      Broke handle w.server.data f seen.calls) :
    Crashed handle expire data f (w.exchanged p seen) := by
  obtain ⟨hobs, db, cmd, hlast, -⟩ := hout
  refine ⟨?_, ?_⟩
  · rcases hredo with hredo | ⟨before, cmd', db', hcalls, hbefore, hfault⟩
    · -- every call would have been answered, the last one too
      exfalso
      have hrun : run (redo handle expire) data (w.exchanged p seen).history = .ok seen.db :=
        run_append_ok.mpr ⟨_, h.redone, (redo_served p seen.calls _).trans hredo⟩
      apply redone_answered (p := p) hrun
      show (⟨cmd, none⟩ : Call) ∈ (w.exchanged p seen).callsOf p
      rw [exchanged_calls, if_pos rfl]
      exact List.mem_of_getLast? hlast
    · refine ⟨w.history ++ before.map (.served p), .served p ⟨cmd', none⟩, db', ?_, ?_, rfl, hfault⟩
      · show w.history ++ seen.calls.map (.served p) = _
        rw [hcalls, List.map_append, List.append_assoc]
        rfl
      · exact run_append_ok.mpr ⟨_, h.redone, (redo_served p before _).trans hbefore⟩
  · intro q
    by_cases hqp : q = p
    · subst hqp
      exact exchanged_observed hobs
    · exact exchanged_other_observed hqp seen (h.observed q)

theorem step_ready_none {clientFd : Nat} {reads writes : List SysRes} {order : List Ptr}
    (h : Server.IdleList w.server order) (hs : w.server.session clientFd = none) :
    w.step handle expire (.ready clientFd reads writes now) = .ok w := by
  simp only [step, loopEvent, observe, hs, Server.step, Server.session_none h hs]

theorem step_ready_some {clientFd : Nat} {reads writes : List SysRes} {c : LinkedConn}
    (hs : w.server.session clientFd = some (p, c)) :
    w.step handle expire (.ready clientFd reads writes now) =
      match w.server.clientReady handle clientFd ⟨(w.peers p).inbox, reads, writes⟩ now with
      | .ok s => .ok
        { w.exchanged p (exchange handle c.conn (w.offered p reads writes)) with server := s }
      | .error f => .error
        (f, w.exchanged p (exchange handle c.conn (w.offered p reads writes))) := by
  simp only [step, loopEvent, observe, inboxOf, hs, Server.step]

theorem ready_consistent {clientFd : Nat} {reads writes : List SysRes}
    (h : Consistent handle expire data w) (ha : w.Admits (.ready clientFd reads writes now)) :
    Accounted handle expire data (w.step handle expire (.ready clientFd reads writes now)) := by
  obtain ⟨order, hlist⟩ := h.list
  have hnow : w.server.clock ≤ now := ha _ rfl
  cases hs : w.server.session clientFd with
  | none =>
    rw [step_ready_none hlist hs]
    exact h
  | some r =>
    obtain ⟨p, c⟩ := r
    obtain ⟨hfd, hc⟩ := Server.session_some hs
    rw [step_ready_some hs]
    have hx := Server.ready_exchange handle ⟨(w.peers p).inbox, reads, writes⟩ hlist hnow hs
    have hoffer : (⟨w.server.data, (w.peers p).inbox, reads, writes, [], []⟩ : Net σ) =
        w.offered p reads writes := rfl
    dsimp only at hx
    rw [hoffer] at hx
    -- the connection, with what was seen of it before
    obtain ⟨conn, hset, hheld, -⟩ := h.session p
    have hconn : c.conn = conn := hheld c.fd c.conn (Server.held_of hc)
    subst hconn
    have hset' : Settled (w.peers p).stream c.conn
        ((w.offered p reads writes).after (w.net p).sent (w.net p).calls) :=
      hset.congr rfl (List.append_nil _) (List.append_nil _)
    have hout := @connectionIo_spec σ handle _ _ _ hset' (h.opened p c hc)
    rw [connectionIo_after] at hout
    have hredo := @connectionIo_redo σ handle c.conn (w.offered p reads writes) rfl
    unfold exchange
    cases hio : connectionIo handle c.conn (w.offered p reads writes) with
    | error e =>
      obtain ⟨f, net⟩ := e
      rw [hio] at hx hout hredo
      dsimp only at hx ⊢
      rw [hx]
      exact crashed_of h hout hredo
    | ok r =>
      obtain ⟨conn, net⟩ := r
      rw [hio] at hx hout hredo
      obtain ⟨s', hs', hdata, hnext, -, hq⟩ := hx
      dsimp only
      rw [hs']
      have hlive : ∃ order, Server.IdleList s' order ∧ s'.Open := by
        rcases @Server.ready_spec σ w.server p order now handle expire
          ⟨(w.peers p).inbox, reads, writes⟩ hlist h.opened hnow _ hfd with
          ⟨t, order', ht, hlist', hopen⟩ | ⟨f, hf, -⟩
        · cases hs'.symm.trans ht
          exact ⟨order', hlist', hopen⟩
        · cases hs'.symm.trans hf
      obtain ⟨order', hlist', hopen⟩ := hlive
      refine ⟨⟨order', hlist'⟩, hopen, ?_, ?_⟩
      · show run (redo handle expire) data (w.history ++ net.calls.map (.served p)) = .ok s'.data
        rw [hdata]
        exact run_append_ok.mpr ⟨_, h.redone, (redo_served p net.calls _).trans hredo⟩
      · intro q
        by_cases hqp : q = p
        · subst hqp
          refine ⟨conn, exchanged_settled hout, ?_, ?_⟩
          · intro d c' hd
            have hd : s'.held q = some (d, c') := hd
            rw [hq q, if_pos rfl] at hd
            split at hd
            · cases hd
            · cases hd
              rfl
          · intro hle
            have hlt := hlist.fresh q (by rw [hc]; rfl)
            exact absurd (hnext.symm.trans_le hle) (Nat.not_le.mpr hlt)
        · refine (h.session q).exchanged_other hqp net ?_ hnext
          rw [hq q, if_neg hqp]

theorem timers_consistent (h : Consistent handle expire data w) (ha : w.Admits (.timers now)) :
    Accounted handle expire data (w.step handle expire (.timers now)) := by
  obtain ⟨order, hlist⟩ := h.list
  have hnow : w.server.clock ≤ now := ha _ rfl
  obtain ⟨s', gone, left, hs', -, hlist', hclosed, -⟩ := Server.evictIdle_spec now hlist
  have hdata : s'.data = w.server.data := hclosed.rest.1
  have htimers : w.server.processTimers expire now =
      (expire now w.server.data).map fun d => { s' with data := d, clock := now } := by
    unfold Server.processTimers
    rw [hs', ok_bind, hdata]
    cases expire now w.server.data <;> rfl
  show Accounted handle expire data
    (match w.server.processTimers expire now with | .ok s => _ | .error f => _)
  rw [htimers]
  cases hd : expire now w.server.data with
  | error f =>
    refine ⟨⟨w.history, .expired now, w.server.data, rfl, h.redone, hd⟩, ?_⟩
    intro p
    exact (h.observed p).congr rfl (callsOf_expired w.history now p)
  | ok d =>
    refine ⟨⟨left, hlist'.setData d (hclosed.rest.2.2 ▸ hnow)⟩, ?_, ?_, ?_⟩
    · exact hclosed.open fun q _ => h.opened q
    · exact run_append_ok.mpr ⟨_, h.redone, run_cons_ok.mpr ⟨d, hd, rfl⟩⟩
    · intro p
      obtain ⟨conn, hset, hheld, hfresh⟩ := h.session p
      refine ⟨conn, hset.congr rfl rfl (callsOf_expired w.history now p), ?_,
        fun hp => hfresh (hclosed.rest.2.1.symm.trans_le hp)⟩
      intro d c hc
      have hc : s'.held p = some (d, c) := hc
      rw [hclosed.held] at hc
      split at hc
      · cases hc
      · exact hheld d c hc

/-- **One event** keeps the account, or ends the process with it. -/
theorem step_consistent (h : Consistent handle expire data w) {e : WorldEvent} (ha : w.Admits e) :
    Accounted handle expire data (w.step handle expire e) := by
  cases e with
  | accept newFd now => exact accept_consistent h ha
  | arrive p bytes => exact arrive_consistent h
  | ready clientFd reads writes now => exact ready_consistent h ha
  | timers now => exact timers_consistent h ha

theorem run_accounted (hadm : AllSteps (step handle expire) Admits (start data) events) :
    Accounted handle expire data (run (step handle expire) (start data) events) :=
  run_ends (fun _ _ h ha => step_consistent h ha) (Consistent.start data) hadm

/-! ## Results -/

/-- **The server is serialisable.**  Whatever connections are open and however their events are
interleaved, the server does to its data, and answers, what it would do if the entries of the
history were executed alone, one after the other; also if a call or a TTL loop faults. -/
theorem serialisable (handle : σ → List Bytes → Res (σ × ResCode × Bytes))
    (expire : UInt64 → σ → Res σ) (data : σ) (events : List WorldEvent)
    (hadm : AllSteps (step handle expire) Admits (start data) events) :
    match run (step handle expire) (start data) events with
    | .ok w => run (redo handle expire) data w.history = .ok w.server.data
    | .error (f, w) => ∃ before r db, w.history = before ++ [r] ∧
        run (redo handle expire) data before = .ok db ∧ r.Breaks handle expire db f := by
  have h := run_accounted hadm
  cases hrun : run (step handle expire) (start data) events with
  | ok w =>
    rw [hrun] at h
    exact h.redone
  | error c =>
    rw [hrun] at h
    exact h.broke

/-- Two clients; the request of the first arrives in two pieces, and the other one is served in
between. -/
def twoClients : List WorldEvent :=
  [.accept (some 5) 1, .accept (some 6) 2, .arrive 0 ((frame ["set", "k", "v"]).take 9),
    .ready 5 [.count 9] [] 3, .arrive 1 (frame ["keys"]), .ready 6 [.count 100] [.count 4] 4,
    .arrive 0 ((frame ["set", "k", "v"]).drop 9), .ready 5 [.count 100] [.count 100] 5,
    .ready 6 [] [.count 100] 6, .timers 5000003]

theorem serialisable_two : ∃ w,
    run (step (Host.serve ⟨64, 0⟩) Host.expire) (start {}) twoClients = .ok w ∧
      run (redo (Host.serve ⟨64, 0⟩) Host.expire) {} w.history = .ok w.server.data ∧
      w.history = [.served 1 ⟨[ascii "keys"], some (.RES_OK, outArr [] 0)⟩,
        .served 0 ⟨[ascii "set", ascii "k", ascii "v"], some (.RES_OK, outInt [] 0)⟩,
        .expired 5000003] := by
  have hhistory : (run (step (Host.serve ⟨64, 0⟩) Host.expire) (start {}) twoClients).toOption.map
      history = some [.served 1 ⟨[ascii "keys"], some (.RES_OK, outArr [] 0)⟩,
        .served 0 ⟨[ascii "set", ascii "k", ascii "v"], some (.RES_OK, outInt [] 0)⟩,
        .expired 5000003] := by decide +kernel
  obtain ⟨w, hw, hhistory⟩ := ok_of_map hhistory
  have h := serialisable (Host.serve ⟨64, 0⟩) Host.expire {} twoClients (by decide +kernel)
  rw [hw] at h
  exact ⟨w, hw, h, hhistory⟩

/-- **Sessions do not mix.**  Of each connection the history holds a prefix of the requests in the
stream of its own client, in order and each once, and the client has received a prefix of their
answers.  While the connection is open nothing is lost: the requests go on with what is buffered,
the answers with what waits to be written. -/
theorem sessions (handle : σ → List Bytes → Res (σ × ResCode × Bytes))
    (expire : UInt64 → σ → Res σ) (data : σ) (events : List WorldEvent)
    (hadm : AllSteps (step handle expire) Admits (start data) events) (p : Ptr) :
    match run (step handle expire) (start data) events with
    | .ok w =>
      (w.callsOf p).map Call.cmd <+: requestFraming.items (w.peers p).stream ∧
        (w.peers p).received <+: responses (w.callsOf p) ∧
        ∀ c, w.server.conns p = some c →
          requestFraming.items (w.peers p).stream = (w.callsOf p).map Call.cmd ++
            requestFraming.items (c.conn.rbuf ++ (w.peers p).inbox) ∧
          responses (w.callsOf p) = (w.peers p).received ++ c.conn.wbuf.drop c.conn.wbufSent
    | .error (_, w) =>
      (w.callsOf p).map Call.cmd <+: requestFraming.items (w.peers p).stream ∧
        (w.peers p).received <+: responses (w.callsOf p) := by
  have h := run_accounted hadm
  cases hrun : run (step handle expire) (start data) events with
  | ok w =>
    rw [hrun] at h
    have hobs := Consistent.observed h p
    refine ⟨hobs.calls, hobs.sent, ?_⟩
    intro c hc
    obtain ⟨conn, hset, hheld, -⟩ := h.session p
    have hconn : c.conn = conn := hheld c.fd c.conn (Server.held_of hc)
    subst hconn
    obtain ⟨hl, -⟩ := hset.live (h.opened p c hc)
    obtain ⟨t, hS, ht⟩ := hl.read
    exact ⟨by rw [hS]; exact ht.items _, hl.written⟩
  | error c =>
    rw [hrun] at h
    obtain ⟨f, w⟩ := c
    have hobs := Crashed.observed h p
    exact ⟨hobs.calls, hobs.sent⟩

theorem sessions_two : ∃ w,
    run (step (Host.serve ⟨64, 0⟩) Host.expire) (start {}) twoClients = .ok w ∧
      (w.callsOf 0).map Call.cmd <+: requestFraming.items (w.peers 0).stream ∧
      (w.peers 0).received = le32 9 ++ outInt [] 0 := by
  have hreceived : (run (step (Host.serve ⟨64, 0⟩) Host.expire) (start {}) twoClients).toOption.map
      (fun w => (w.peers 0).received) = some (le32 9 ++ outInt [] 0) := by decide +kernel
  obtain ⟨w, hw, hreceived⟩ := ok_of_map hreceived
  have h := sessions (Host.serve ⟨64, 0⟩) Host.expire {} twoClients (by decide +kernel) 0
  rw [hw] at h
  exact ⟨w, hw, h.1, hreceived⟩

end World

end RedisServer
