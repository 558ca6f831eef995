import RedisServer.IdleList

/-!
# What an event of the loop does to the connections

The idle list only moves links (`Server.unlinked`).  Up to these, accepting adds one connection,
evicting takes some away, and polling a descriptor replaces the state of the one connection on it
by what `connection_io` makes of it, or takes it away (`Server.ready_exchange`).
-/

set_option autoImplicit false

namespace RedisServer

open Runs Rings

/-- Descriptor and state of a connection. -/
def LinkedConn.seat (c : LinkedConn) : Nat × Conn := (c.fd, c.conn)

namespace Server

variable {σ : Type} {s s' : Server σ} {n : ListNode} {p : Ptr}

/-- The connection on a descriptor. -/
def session (s : Server σ) (clientFd : Nat) : Option (Ptr × LinkedConn) :=
  match s.fd2conn[clientFd]? with
  | some (some p) => (s.conns p).map fun c => (p, c)
  | _ => none

/-! ## Up to links -/

/-- The server, the links of the idle list aside. -/
def unlinked (s : Server σ) : Server σ := s.relink fun _ => {}

theorem setNode_unlinked {d : DList} (h : s.setNode n d = .ok s') : s'.unlinked = s.unlinked := by
  cases n with
  | head => cases h; rfl
  | conn p =>
    obtain ⟨conns, hm, h⟩ := bind_ok.mp h
    obtain ⟨c, hc, rfl⟩ := Store.modify_ok.mp hm
    cases h
    have hconns : ∀ q, ((s.conns.write p { c with idleList := d }) q).map LinkedConn.unlinked =
        (s.conns q).map LinkedConn.unlinked := by
      intro q
      by_cases hq : q = p
      · subst hq; simp [hc, LinkedConn.unlinked]
      · rw [Store.write_of_ne _ _ hq]
    unfold unlinked relink
    congr 1
    exact funext hconns

theorem setNext_unlinked {v : Option ListNode} (h : s.setNext n v = .ok s') :
    s'.unlinked = s.unlinked := by
  obtain ⟨d, -, h⟩ := bind_ok.mp h
  exact setNode_unlinked h

theorem setPrev_unlinked {v : Option ListNode} (h : s.setPrev n v = .ok s') :
    s'.unlinked = s.unlinked := by
  obtain ⟨d, -, h⟩ := bind_ok.mp h
  exact setNode_unlinked h

theorem dListInit_unlinked (h : s.dListInit n = .ok s') : s'.unlinked = s.unlinked := by
  obtain ⟨t, ht, h⟩ := bind_ok.mp h
  exact (setNext_unlinked h).trans (setPrev_unlinked ht)

theorem listInsertBefore_unlinked {target : ListNode} (h : s.listInsertBefore target n = .ok s') :
    s'.unlinked = s.unlinked := by
  obtain ⟨t, -, h⟩ := bind_ok.mp h
  obtain ⟨prev, -, h⟩ := bind_ok.mp h
  obtain ⟨s₁, h₁, h⟩ := bind_ok.mp h
  obtain ⟨s₂, h₂, h⟩ := bind_ok.mp h
  obtain ⟨s₃, h₃, h⟩ := bind_ok.mp h
  rw [setPrev_unlinked h, setNext_unlinked h₃, setPrev_unlinked h₂, setNext_unlinked h₁]

/-- Descriptor and state of the connection at `p`. -/
def held (s : Server σ) (p : Ptr) : Option (Nat × Conn) := (s.conns p).map LinkedConn.seat

theorem held_relink (s : Server σ) (L : ListNode → DList) (p : Ptr) :
    (s.relink L).held p = s.held p := by
  unfold held relink
  rw [Option.map_map]
  rfl

theorem held_unlinked (h : s'.unlinked = s.unlinked) (p : Ptr) : s'.held p = s.held p := by
  have hp : s'.unlinked.held p = s.unlinked.held p := by rw [h]
  rwa [unlinked, unlinked, held_relink, held_relink] at hp

theorem held_of {c : LinkedConn} (h : s.conns p = some c) : s.held p = some (c.fd, c.conn) := by
  rw [held, h]
  rfl

/-- **An accepted connection.** -/
theorem accept_exchange {fd : Nat} {now : UInt64}
    (h : s.acceptNewConnection (some fd) now = .ok s') :
    s'.data = s.data ∧ s'.next = s.next + 1 ∧ s'.clock = now ∧
      ∀ q, s'.held q = if q = s.next then some (fd, {}) else s.held q := by
  obtain ⟨s₁, h₁, h⟩ := bind_ok.mp h
  obtain ⟨s₂, h₂, h⟩ := bind_ok.mp h
  cases h
  have hu : s₂.unlinked = _ := (listInsertBefore_unlinked h₂).trans (dListInit_unlinked h₁)
  have hdata := congrArg Server.data hu
  have hnext := congrArg Server.next hu
  have hclock := congrArg Server.clock hu
  refine ⟨hdata, hnext, hclock, ?_⟩
  intro q
  refine (held_unlinked hu q).trans ?_
  split
  · rename_i hq
    rw [hq]
    exact congrArg (Option.map LinkedConn.seat) (Store.write_self _ _ _)
  · rename_i hq
    exact congrArg (Option.map LinkedConn.seat) (Store.write_of_ne _ _ hq)

theorem Closed.held {gone : List Ptr} (h : Closed s gone s') (p : Ptr) :
    s'.held p = if p ∈ gone then none else s.held p := by
  have hc := congrArg (Option.map LinkedConn.seat) (h.conns p)
  rw [Option.map_map] at hc
  refine Eq.trans hc ?_
  split
  · rfl
  · rw [Option.map_map]
    rfl

theorem session_some {clientFd : Nat} {c : LinkedConn} (h : s.session clientFd = some (p, c)) :
    s.fd2conn[clientFd]? = some (some p) ∧ s.conns p = some c := by
  unfold session at h
  split at h
  · rename_i q hq
    obtain ⟨d, hd, heq⟩ := Option.map_eq_some_iff.mp h
    cases heq
    exact ⟨hq, hd⟩
  · cases h

theorem session_none {order : List Ptr} (h : IdleList s order) {clientFd : Nat}
    (hs : s.session clientFd = none) (handle : σ → List Bytes → Res (σ × ResCode × Bytes))
    (io : IoScript) (now : UInt64) : s.clientReady handle clientFd io now = .ok s := by
  unfold session at hs
  unfold clientReady
  rcases hfd : s.fd2conn[clientFd]? with _ | _ | p
  · rfl
  · rfl
  · obtain ⟨c, hc, -⟩ := (h.stored clientFd p).mp hfd
    simp [hfd, hc] at hs

/-- **A polled connection.**  What becomes of it is what `connection_io` makes of it; the others
are left alone. -/
theorem ready_exchange (handle : σ → List Bytes → Res (σ × ResCode × Bytes)) {order : List Ptr}
    {now : UInt64} {clientFd : Nat} {c : LinkedConn} (io : IoScript) (h : IdleList s order)
    (hnow : s.clock ≤ now) (hs : s.session clientFd = some (p, c)) :
    match RedisServer.connectionIo handle c.conn
      { db := s.data, inbox := io.inbox, reads := io.reads, writes := io.writes } with
    | .error (f, _) => s.clientReady handle clientFd io now = .error f
    | .ok (conn, net) => ∃ s', s.clientReady handle clientFd io now = .ok s' ∧ s'.data = net.db ∧
        s'.next = s.next ∧ s'.clock = now ∧ ∀ q, s'.held q =
          if q = p then (if conn.state = .STATE_END then none else some (c.fd, conn))
          else s.held q := by
  obtain ⟨hfd, hc⟩ := session_some hs
  obtain ⟨xs, ys, rfl⟩ := List.append_of_mem ((h.live p).mpr (by rw [hc]; rfl))
  obtain ⟨t', L', hdetach, hinsert, hlist⟩ := move_spec h hc hnow
  unfold clientReady Server.connectionIo
  simp only [hfd]
  rw [Store.read_of hc, ok_bind, hdetach, ok_bind, hinsert, ok_bind]
  generalize ht : Server.relink _ L' = t at hlist
  have hdata : t.data = s.data := by rw [← ht]; rfl
  have hnext : t.next = s.next := by rw [← ht]; rfl
  have hclock : t.clock = now := by rw [← ht]; rfl
  have hp : t.conns p = some { c with idleStart := now, idleList := L' (.conn p) } := by
    rw [← ht]
    simp [Server.relink]
  have hother : ∀ q, q ≠ p → t.held q = s.held q := by
    intro q hq
    rw [← ht, held_relink]
    exact congrArg (Option.map LinkedConn.seat) (Store.write_of_ne _ _ hq)
  rw [hdata]
  cases hio : RedisServer.connectionIo handle c.conn
      { db := s.data, inbox := io.inbox, reads := io.reads, writes := io.writes } with
  | error e => rfl
  | ok r =>
    obtain ⟨conn, net⟩ := r
    dsimp only
    rw [Store.modify_of _ hp, ok_bind]
    -- the server after `connection_io`
    let c' : LinkedConn := { c with idleStart := now, idleList := L' (.conn p), conn := conn }
    let u : Server σ := { t with conns := t.conns.write p c', data := net.db }
    have hset : IdleList u (xs ++ ys ++ [p]) := hlist.setConn hp conn net.db
    have hup : u.conns p = some c' := Store.write_self _ _ _
    have huq : ∀ q, q ≠ p → u.held q = s.held q := by
      intro q hq
      rw [← hother q hq]
      exact congrArg (Option.map LinkedConn.seat) (Store.write_of_ne _ _ hq)
    show ∃ s', (u.conns.read p >>= fun c => if c.conn.state = .STATE_END then u.drop p else .ok u) =
      .ok s' ∧ _
    rw [Store.read_of hup, ok_bind]
    by_cases hend : conn.state = .STATE_END
    · obtain ⟨s', hs', -, hclosed⟩ := drop_spec hset
      refine ⟨s', (if_pos hend).trans hs', hclosed.rest.1, hclosed.rest.2.1.trans hnext,
        hclosed.rest.2.2.trans hclock, ?_⟩
      intro q
      rw [hclosed.held]
      by_cases hq : q = p
      · simp [hq, hend]
      · simp [hq, huq q hq]
    · refine ⟨u, if_neg hend, rfl, hnext, hclock, ?_⟩
      intro q
      by_cases hq : q = p
      · subst hq
        rw [held_of hup, if_pos rfl, if_neg hend]
      · simp [hq, huq q hq]

end Server

end RedisServer
