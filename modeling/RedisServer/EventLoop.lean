import RedisServer.Connection
import RedisServer.Lib.Rings

/-!
# DList.cpp, Server.cpp and timer.cpp — the event loop and its idle list

`Server` is what `main` works on: the connections with their links, `g_data.idle_list`, `fd2conn`
and the data behind the handlers.  `openFds` are the descriptors the kernel has handed out and not
got back, `clock` is the latest value of `get_monotonic_usec()`.

An event is something the loop reacts to; which events come, and in which order, is open.  A pass
over the poll results and the call of `process_timers` behind it are events in a row.

`handle` is `do_request`, `expire` the TTL loop of `process_timers`.
-/

set_option autoImplicit false

namespace RedisServer

/-- The address of a `DList`: `g_data.idle_list`, or the `idle_list` of a connection. -/
inductive ListNode where
  | head
  | conn (p : Ptr)
  deriving DecidableEq, Repr

abbrev DList := Rings.Link ListNode

/-- `k_idle_timeout_ms` -/
def idleTimeoutMs : UInt64 := 5 * 1000

/-- A `Conn` with the members that `connection_io` and the event loop use. -/
structure LinkedConn where
  fd : Nat
  conn : Conn := {}
  idleStart : UInt64
  idleList : DList := {}
  deriving DecidableEq, Repr

structure Server (σ : Type) where
  data : σ
  idleList : DList := {}
  conns : Store LinkedConn := Store.empty
  next : Ptr := 0
  fd2conn : List (Option Ptr) := []
  openFds : List Nat := []
  clock : UInt64 := 0

namespace Server

variable {σ : Type}

/-! ## DList.cpp -/

def node (s : Server σ) : ListNode → Res DList
  | .head => .ok s.idleList
  | .conn p => do return (← s.conns.read p).idleList

def setNode (s : Server σ) (n : ListNode) (d : DList) : Res (Server σ) :=
  match n with
  | .head => .ok { s with idleList := d }
  | .conn p => do
    let conns ← s.conns.modify p fun c => { c with idleList := d }
    return { s with conns := conns }

/-- `n->next = v` -/
def setNext (s : Server σ) (n : ListNode) (v : Option ListNode) : Res (Server σ) := do
  let d ← s.node n
  s.setNode n { d with next := v }

/-- `n->prev = v` -/
def setPrev (s : Server σ) (n : ListNode) (v : Option ListNode) : Res (Server σ) := do
  let d ← s.node n
  s.setNode n { d with prev := v }

/-- A `DList *` that is dereferenced. -/
def follow : Option ListNode → Res ListNode
  | some n => .ok n
  | none => .error .nullDeref

def dListInit (s : Server σ) (n : ListNode) : Res (Server σ) := do
  let s ← s.setPrev n (some n)
  s.setNext n (some n)

def dListEmpty (s : Server σ) (n : ListNode) : Res Bool := do
  let d ← s.node n
  return decide (d.next = some n ∨ d.next = none)

def dlistDetach (s : Server σ) (n : ListNode) : Res (Server σ) := do
  let d ← s.node n
  let prev ← follow d.prev
  let s ← s.setNext prev d.next
  let next ← follow d.next
  s.setPrev next d.prev

def listInsertBefore (s : Server σ) (target n : ListNode) : Res (Server σ) := do
  let t ← s.node target
  let prev ← follow t.prev
  let s ← s.setNext prev (some n)
  let s ← s.setPrev n t.prev
  let s ← s.setNext n (some target)
  s.setPrev target (some n)

/-! ## Accepting and closing -/

def connPut (fd2conn : List (Option Ptr)) (fd : Nat) (p : Ptr) : List (Option Ptr) :=
  let fd2conn :=
    if fd2conn.length ≤ fd then fd2conn ++ List.replicate (fd + 1 - fd2conn.length) none
    else fd2conn
  fd2conn.set fd (some p)

/-- `accept_new_connection`; `none` when `accept` or `malloc` fails. -/
def acceptNewConnection (s : Server σ) (newFd : Option Nat) (now : UInt64) : Res (Server σ) :=
  match newFd with
  | none => .ok s
  | some fd => do
    let p := s.next
    let s := { s with
      conns := s.conns.write p { fd := fd, idleStart := now }
      next := p + 1
      openFds := fd :: s.openFds
      clock := now }
    let s ← s.dListInit (.conn p)
    let s ← s.listInsertBefore .head (.conn p)
    return { s with fd2conn := connPut s.fd2conn fd p }

/-- The end of a connection, in `main` and in `process_timers`: `fd2conn[fd] = NULL`, `close`,
`dlist_detach` and `free`. -/
def drop (s : Server σ) (p : Ptr) : Res (Server σ) := do
  let c ← s.conns.read p
  if s.fd2conn.length ≤ c.fd then .error .outOfBounds
  let s := { s with fd2conn := s.fd2conn.set c.fd none, openFds := s.openFds.erase c.fd }
  let s ← s.dlistDetach (.conn p)
  return { s with conns := s.conns.free p }

/-! ## timer.cpp -/

/-- `container_of(n, Conn, idle_list)` -/
def connOf : Option ListNode → Res Ptr
  | some (.conn p) => .ok p
  | some .head => .error .typeConfusion
  | none => .error .nullDeref

/-- `next_timer_ms`: how long `main` lets `poll` wait. -/
def nextTimerMs (s : Server σ) (now : UInt64) : Res UInt32 := do
  if ← s.dListEmpty .head then return 10000
  let next ← connOf s.idleList.next
  let c ← s.conns.read next
  let nextUs := c.idleStart + idleTimeoutMs * 1000
  if nextUs ≤ now then return 0
  return ((nextUs - now) / 1000).toUInt32

/-- The loop over the idle connections; each iteration ends a connection of `fd2conn`. -/
def evictLoop (now : UInt64) : Nat → Server σ → Res (Server σ)
  | 0, _ => .error .outOfFuel
  | fuel + 1, s => do
    if ← s.dListEmpty .head then return s
    let next ← connOf s.idleList.next
    let c ← s.conns.read next
    let nextUs := c.idleStart + idleTimeoutMs * 1000
    if nextUs > now then return s
    let s ← s.drop next
    evictLoop now fuel s

def evictIdle (s : Server σ) (now : UInt64) : Res (Server σ) :=
  evictLoop now (s.fd2conn.length + 1) s

variable (handle : σ → List Bytes → Res (σ × ResCode × Bytes)) (expire : UInt64 → σ → Res σ)

def processTimers (s : Server σ) (now : UInt64) : Res (Server σ) := do
  let s ← s.evictIdle now
  let data ← expire now s.data
  return { s with data := data, clock := now }

/-! ## Events -/

/-- What a connection finds when it is polled: the bytes its peer has sent, and what its system
calls will return. -/
structure IoScript where
  inbox : Bytes
  reads : List SysRes
  writes : List SysRes

/-- `connection_io`: the move to the end of the idle list, and the state machine. -/
def connectionIo (s : Server σ) (p : Ptr) (io : IoScript) (now : UInt64) : Res (Server σ) := do
  let c ← s.conns.read p
  let s := { s with conns := s.conns.write p { c with idleStart := now }, clock := now }
  let s ← s.dlistDetach (.conn p)
  let s ← s.listInsertBefore .head (.conn p)
  match RedisServer.connectionIo handle c.conn
    { db := s.data, inbox := io.inbox, reads := io.reads, writes := io.writes } with
  | .error (f, _) => .error f
  | .ok (conn, net) =>
    let conns ← s.conns.modify p fun c => { c with conn := conn }
    return { s with conns := conns, data := net.db }

/-- What `main` does for a descriptor that `poll` reports. -/
def clientReady (s : Server σ) (clientFd : Nat) (io : IoScript) (now : UInt64) :
    Res (Server σ) :=
  match s.fd2conn[clientFd]? with
  | none => .ok s
  | some none => .ok s
  | some (some p) => do
    let s ← s.connectionIo handle p io now
    let c ← s.conns.read p
    if c.conn.state = .STATE_END then s.drop p else return s

end Server

/-- The TTL loop of `process_timers` on the host. -/
def Host.expire (now : UInt64) (host : Host) : Res Host := do
  let g ← RedisServer.processTimers host.data now
  return { host with data := g }

inductive LoopEvent where
  | accept (newFd : Option Nat) (now : UInt64)
  | ready (clientFd : Nat) (io : Server.IoScript) (now : UInt64)
  | timers (now : UInt64)

namespace Server

variable {σ : Type}

/-- `main` before its loop. -/
def start (data : σ) : Server σ := { data := data, idleList := ⟨some .head, some .head⟩ }

variable (handle : σ → List Bytes → Res (σ × ResCode × Bytes)) (expire : UInt64 → σ → Res σ)

def step (s : Server σ) : LoopEvent → Res (Server σ)
  | .accept newFd now => s.acceptNewConnection newFd now
  | .ready clientFd io now => s.clientReady handle clientFd io now
  | .timers now => s.processTimers expire now

/-- The clock does not go back, and `accept` returns no descriptor that is still open. -/
def Admits (s : Server σ) : LoopEvent → Prop
  | .accept newFd now => s.clock ≤ now ∧ ∀ fd ∈ newFd, fd ∉ s.openFds
  | .ready _ _ now => s.clock ≤ now
  | .timers now => s.clock ≤ now

instance (s : Server σ) : ∀ e, Decidable (s.Admits e)
  | .accept newFd now => inferInstanceAs (Decidable (s.clock ≤ now ∧ ∀ fd ∈ newFd, fd ∉ s.openFds))
  | .ready _ _ now => inferInstanceAs (Decidable (s.clock ≤ now))
  | .timers now => inferInstanceAs (Decidable (s.clock ≤ now))

end Server

end RedisServer
