import RedisServer.Commands

/-!
# utils.cpp — the connection state machine

A connection is driven by `connection_io`, which reads, executes and answers requests until a
system call would block.  `Net` is what surrounds the connection: the server's data, the bytes the
peer has sent and that are not read yet, and the results the coming `read` and `write` calls
return (`EAGAIN` when none is left).  A `read` or `write` moves at most the number of bytes asked
for.  `sent` and `calls` record what an observer sees: the bytes `write` accepted and the calls of
`do_request`.

`handle` is `do_request`.  When it faults, the process is gone; the fault carries the record.
-/

set_option autoImplicit false

namespace RedisServer

/-! ## parse_req -/

/-- `std::string(&data[pos], len)` -/
def readBytes (data : Bytes) (pos len : Nat) : Res Bytes :=
  if pos + len ≤ data.length then .ok ((data.drop pos).take len) else .error .outOfBounds

/-- The loop of `parse_req`: the position behind the last item and the arguments.  The item is
checked against `len` in `size_t`, and skipped by a `uint32_t`. -/
def parseItems (data : Bytes) : Nat → Nat → List Bytes → Res (Option (Nat × List Bytes))
  | 0, pos, cmd => .ok (some (pos, cmd))
  | n + 1, pos, cmd =>
    if pos + 4 > data.length then .ok none
    else do
      let argLen ← readU32 data pos
      if pos + 4 + argLen > data.length then return none
      let arg ← readBytes data (pos + 4) argLen
      parseItems data n (pos + (4 + argLen) % 2 ^ 32) (cmd ++ [arg])

/-- `parse_req`: `none` for -1. -/
def parseReq (data : Bytes) : Res (Option (List Bytes)) :=
  if data.length < 4 then .ok none
  else do
    let cmdLen ← readU32 data 0
    if cmdLen > maxArgs then return none
    match ← parseItems data cmdLen 4 [] with
    | none => return none
    | some (pos, cmd) => if pos ≠ data.length then return none else return some cmd

/-! ## The connection and its surroundings -/

/-- `sizeof(rbuf)` and `sizeof(wbuf)` -/
def bufSize : Nat := 4 + maxMsg

/-- `ERR_2BIG` -/
def err2Big : Nat := 1001

inductive ConnState where
  | STATE_REQ
  | STATE_RES
  | STATE_END
  deriving DecidableEq, Repr

structure Conn where
  state : ConnState := .STATE_REQ
  rbuf : Bytes := [] -- rbuf[0 .. rbuf_size)
  wbuf : Bytes := [] -- wbuf[0 .. wbuf_size)
  wbufSent : Nat := 0
  deriving DecidableEq, Repr

/-- The result of one system call that returns: a count (0 at the end of the stream) or an errno.  A
`write` to a socket that its peer has closed is none of these: it raises SIGPIPE, which ends the
process, and is left out. -/
inductive SysRes where
  | count (n : Nat)
  | eintr
  | eagain
  | fail
  deriving DecidableEq, Repr

/-- A call of `do_request`, with its result code and output if it returned. -/
structure Call where
  cmd : List Bytes
  answer : Option (ResCode × Bytes)
  deriving DecidableEq, Repr

structure Net (σ : Type) where
  db : σ
  inbox : Bytes := []
  reads : List SysRes := []
  writes : List SysRes := []
  sent : Bytes := []
  calls : List Call := []

/-- A fault ends the process; the record of the connection survives in it. -/
abbrev IoRes (σ α : Type) := Except (Fault × Net σ) α

/-- `do { rv = … } while (rv < 0 && errno == EINTR)`: the result and the results still to come. -/
def retry : List SysRes → SysRes × List SysRes
  | [] => (.eagain, [])
  | .eintr :: rs => retry rs
  | r :: rs => (r, rs)

/-- What `one_request` sends for `out`. -/
def payload (out : Bytes) : Bytes :=
  if 4 + out.length > maxMsg then outErr [] err2Big (ascii "response is too big") else out

/-- `one_request` from the copy into wbuf to the new state: the response behind its length, and
    the request of `len` bytes removed from rbuf. -/
def queueResponse (conn : Conn) (out : Bytes) (len : Nat) : Res Conn :=
  if 4 + out.length > bufSize then .error .outOfBounds
  else .ok { conn with
    state := .STATE_RES
    rbuf := conn.rbuf.drop (4 + len)
    wbuf := le32 out.length ++ out }

section Io

variable {σ : Type}

def faultIn {α : Type} (net : Net σ) : Res α → IoRes σ α
  | .ok a => .ok a
  | .error f => .error (f, net)

/-- `try_flush_buffer`: whether it should be called again. -/
def tryFlushBuffer (conn : Conn) (net : Net σ) : IoRes σ (Conn × Net σ × Bool) := do
  let remain := conn.wbuf.length - conn.wbufSent
  let (rv, writes) := retry net.writes
  let net := { net with writes := writes }
  match rv with
  | .eagain => return (conn, net, false)
  | .count n =>
    let rv := min n remain
    let net := { net with sent := net.sent ++ (conn.wbuf.drop conn.wbufSent).take rv }
    let wbufSent := conn.wbufSent + rv
    faultIn net (assert (decide (wbufSent ≤ conn.wbuf.length)))
    if wbufSent = conn.wbuf.length then
      return ({ conn with state := .STATE_REQ, wbuf := [], wbufSent := 0 }, net, false)
    else return ({ conn with wbufSent := wbufSent }, net, true)
  | _ => return ({ conn with state := .STATE_END }, net, false)

/-- `while (try_flush_buffer(conn)) {}`; a repeated call has used up a result in `writes`. -/
def flushLoop : Nat → Conn → Net σ → IoRes σ (Conn × Net σ)
  | 0, _, net => .error (.outOfFuel, net)
  | fuel + 1, conn, net => do
    let (conn, net, again) ← tryFlushBuffer conn net
    if again then flushLoop fuel conn net else return (conn, net)

def stateres (conn : Conn) (net : Net σ) : IoRes σ (Conn × Net σ) :=
  flushLoop (net.writes.length + 1) conn net

variable (handle : σ → List Bytes → Res (σ × ResCode × Bytes))

/-- `do_request(cmd, out)`, entered in the record. -/
def callHandler (net : Net σ) (cmd : List Bytes) : IoRes σ (Net σ × ResCode × Bytes) :=
  match handle net.db cmd with
  | .error f => .error (f, { net with calls := net.calls ++ [⟨cmd, none⟩] })
  | .ok (db, err, out) =>
    .ok ({ net with db := db, calls := net.calls ++ [⟨cmd, some (err, out)⟩] }, err, out)

/-- `one_request`: whether it should be called again. -/
def oneRequest (conn : Conn) (net : Net σ) : IoRes σ (Conn × Net σ × Bool) :=
  if conn.rbuf.length < 4 then .ok (conn, net, false)
  else do
    let len ← faultIn net (readU32 conn.rbuf 0)
    if len > maxMsg then return ({ conn with state := .STATE_END }, net, false)
    if 4 + len > conn.rbuf.length then return (conn, net, false)
    match ← faultIn net (parseReq ((conn.rbuf.drop 4).take len)) with
    | none => return ({ conn with state := .STATE_END }, net, false)
    | some cmd =>
      let (net, err, out) ← callHandler handle net cmd
      if err ≠ .RES_OK then return ({ conn with state := .STATE_END }, net, false)
      let conn ← faultIn net (queueResponse conn (payload out) len)
      let (conn, net) ← stateres conn net
      return (conn, net, conn.state = .STATE_REQ)

/-- `while (one_request(conn)) {}`; a repeated call has removed a request from rbuf. -/
def requestLoop : Nat → Conn → Net σ → IoRes σ (Conn × Net σ)
  | 0, _, net => .error (.outOfFuel, net)
  | fuel + 1, conn, net => do
    let (conn, net, again) ← oneRequest handle conn net
    if again then requestLoop fuel conn net else return (conn, net)

/-- `try_fill_buffer`: whether it should be called again. -/
def tryFillBuffer (conn : Conn) (net : Net σ) : IoRes σ (Conn × Net σ × Bool) := do
  faultIn net (assert (decide (conn.rbuf.length < bufSize)))
  let cap := bufSize - conn.rbuf.length
  let (rv, reads) := retry net.reads
  let net := { net with reads := reads }
  match rv with
  | .eagain => return (conn, net, false)
  | .count n =>
    let rv := min (min n cap) net.inbox.length
    if rv = 0 then return ({ conn with state := .STATE_END }, net, false)
    let conn := { conn with rbuf := conn.rbuf ++ net.inbox.take rv }
    let net := { net with inbox := net.inbox.drop rv }
    faultIn net (assert (decide (conn.rbuf.length ≤ bufSize)))
    let (conn, net) ← requestLoop handle (conn.rbuf.length + 1) conn net
    return (conn, net, conn.state = .STATE_REQ)
  | _ => return ({ conn with state := .STATE_END }, net, false)

/-- `while (try_fill_buffer(conn)) {}`; a repeated call has used up a result in `reads`. -/
def fillLoop : Nat → Conn → Net σ → IoRes σ (Conn × Net σ)
  | 0, _, net => .error (.outOfFuel, net)
  | fuel + 1, conn, net => do
    let (conn, net, again) ← tryFillBuffer handle conn net
    if again then fillLoop fuel conn net else return (conn, net)

def statereq (conn : Conn) (net : Net σ) : IoRes σ (Conn × Net σ) :=
  fillLoop handle (net.reads.length + 1) conn net

/-- `connection_io`, the idle list aside. -/
def connectionIo (conn : Conn) (net : Net σ) : IoRes σ (Conn × Net σ) :=
  match conn.state with
  | .STATE_REQ => statereq handle conn net
  | .STATE_RES => stateres conn net
  | .STATE_END => .error (.assertFailed, net)

/-- One call of `connection_io`: what it finds in the server's data, which other connections may
    have changed in between, and what its system calls will return. -/
structure IoCall (σ : Type) where
  db : σ
  reads : List SysRes
  writes : List SysRes

/-- The life of a connection; `main` closes it after a call that leaves it in `STATE_END`. -/
def connRun : Conn → Net σ → List (IoCall σ) → IoRes σ (Conn × Net σ)
  | conn, net, [] => .ok (conn, net)
  | conn, net, call :: calls =>
    if conn.state = .STATE_END then .ok (conn, net)
    else do
      let (conn, net) ← connectionIo handle conn
        { net with db := call.db, reads := call.reads, writes := call.writes }
      connRun conn net calls

end Io

/-- The server's data and the values `get_monotonic_usec()` is about to return. -/
structure Host where
  data : GlobalData := {}
  clock : List UInt64 := []

/-- `do_request` on the host. -/
def Host.serve (lim : Limits) (host : Host) (cmd : List Bytes) :
    Res (Host × ResCode × Bytes) := do
  let (g, err, out) ← doRequest lim (host.clock.headD 0) host.data cmd []
  return ({ data := g, clock := host.clock.tail }, err, out)

end RedisServer
