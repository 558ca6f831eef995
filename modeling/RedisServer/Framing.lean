import RedisServer.Connection
import RedisServer.Lib.Deframe

/-!
# Framing: what a connection executes and answers

`requestFraming` is the frame-by-frame parse of a byte stream.  `oneRequest_some` and
`oneRequest_none` say once what `one_request` does, by what this parse finds at the front of
`rbuf`.  From there the invariant `Live` is carried through the four loops of the connection.

Results:
* `connRun_framing` — however the bytes are cut by `read` and `write`, the requests executed are a
  prefix of the frame-by-frame parse, and the bytes written a prefix of their responses;
* the connection itself never faults: a fault in `connRun` is one of the handler.
-/

set_option autoImplicit false

namespace RedisServer

open Runs Deframe

/-! ## parse_req is total -/

theorem readBytes_of {data : Bytes} {pos len : Nat} (h : pos + len ≤ data.length) :
    readBytes data pos len = .ok ((data.drop pos).take len) := if_pos h

theorem parseItems_total (data : Bytes) :
    ∀ (n pos : Nat) (cmd : List Bytes), ∃ r, parseItems data n pos cmd = .ok r
  | 0, pos, cmd => ⟨_, rfl⟩
  | n + 1, pos, cmd => by
    unfold parseItems
    split
    · exact ⟨_, rfl⟩
    · obtain ⟨k, hk⟩ := readU32_ok_iff.mpr (by omega : pos + 4 ≤ data.length)
      rw [hk, ok_bind]
      split
      · exact ⟨_, rfl⟩
      · rw [readBytes_of (by omega), ok_bind]
        exact parseItems_total data n _ _

theorem parseReq_total (data : Bytes) : ∃ r, parseReq data = .ok r := by
  unfold parseReq
  split
  · exact ⟨_, rfl⟩
  · obtain ⟨k, hk⟩ := readU32_ok_iff.mpr (by omega : 0 + 4 ≤ data.length)
    rw [hk, ok_bind]
    split
    · exact ⟨_, rfl⟩
    · obtain ⟨r, hr⟩ := parseItems_total data k 4 []
      rw [hr, ok_bind]
      rcases r with _ | ⟨pos, cmd⟩
      · exact ⟨_, rfl⟩
      · dsimp only
        split <;> exact ⟨_, rfl⟩

/-- A request has at most `k_max_args` arguments. -/
theorem parseItems_length {data : Bytes} : ∀ {n pos pos' : Nat} {cmd cmd' : List Bytes},
    parseItems data n pos cmd = .ok (some (pos', cmd')) → cmd'.length = cmd.length + n
  | 0, _, _, _, _, h => by cases h; rfl
  | n + 1, pos, _, cmd, _, h => by
    unfold parseItems at h
    split at h
    · cases h
    · obtain ⟨k, -, h⟩ := bind_ok.mp h
      split at h
      · cases h
      · obtain ⟨arg, -, h⟩ := bind_ok.mp h
        rw [parseItems_length h, List.length_append, List.length_singleton]
        omega

theorem parseReq_length {data : Bytes} {cmd : List Bytes} (h : parseReq data = .ok (some cmd)) :
    cmd.length ≤ maxArgs := by
  unfold parseReq at h
  split at h
  · cases h
  · obtain ⟨n, -, h⟩ := bind_ok.mp h
    split at h
    · cases h
    · rename_i hn
      obtain ⟨r, hr, h⟩ := bind_ok.mp h
      rcases r with _ | ⟨pos, cmd'⟩
      · cases h
      · dsimp only at h
        split at h
        · cases h
        · cases h
          have hlen := parseItems_length hr
          simp only [List.length_nil, Nat.zero_add] at hlen
          omega

/-! ## The frame at the front of the buffer -/

/-- The request at the front of `s` and the number of bytes of its frame, if a whole frame is
there and `parse_req` accepts it. -/
def nextRequest (s : Bytes) : Option (List Bytes × Nat) :=
  match readU32 s 0 with
  | .error _ => none
  | .ok len =>
    if maxMsg < len ∨ s.length < 4 + len then none
    else
      match parseReq ((s.drop 4).take len) with
      | .ok (some cmd) => some (cmd, 4 + len)
      | _ => none

theorem nextRequest_some {s : Bytes} {cmd : List Bytes} {k : Nat} :
    nextRequest s = some (cmd, k) ↔ ∃ len, k = 4 + len ∧ readU32 s 0 = .ok len ∧ len ≤ maxMsg ∧
      4 + len ≤ s.length ∧ parseReq ((s.drop 4).take len) = .ok (some cmd) := by
  unfold nextRequest
  constructor
  · intro h
    split at h
    · cases h
    · rename_i len hlen
      split at h
      · cases h
      · rename_i hle
        split at h
        · rename_i hp
          cases h
          exact ⟨len, rfl, hlen, by omega, by omega, hp⟩
        · cases h
  · rintro ⟨len, rfl, hlen, hm, hl, hp⟩
    rw [hlen]
    dsimp only
    rw [if_neg (by omega), hp]

theorem readU32_take_append {s : Bytes} {k len : Nat} (hk : 4 ≤ k)
    (h : readU32 s 0 = .ok len) (t : Bytes) : readU32 (s.take k ++ t) 0 = .ok len := by
  unfold readU32 at h ⊢
  rw [List.drop_zero] at h ⊢
  split at h
  · obtain ⟨k, rfl⟩ := Nat.exists_eq_add_of_le' hk
    cases h
    rfl
  · cases h

theorem nextRequest_length {s : Bytes} {cmd : List Bytes} {k : Nat}
    (h : nextRequest s = some (cmd, k)) : cmd.length ≤ maxArgs := by
  obtain ⟨len, -, -, -, -, hp⟩ := nextRequest_some.mp h
  exact parseReq_length hp

/-- The frames of the protocol. -/
def requestFraming : Framing UInt8 (List Bytes) where
  next := nextRequest
  pos h := by
    obtain ⟨len, rfl, -⟩ := nextRequest_some.mp h
    omega
  le h := by
    obtain ⟨len, rfl, -, -, hl, -⟩ := nextRequest_some.mp h
    exact hl
  own {s cmd k} h t := by
    obtain ⟨len, rfl, hlen, hm, hl, hp⟩ := nextRequest_some.mp h
    have htake : (s.take (4 + len)).length = 4 + len := List.length_take_of_le hl
    refine nextRequest_some.mpr
      ⟨len, rfl, readU32_take_append (by omega) hlen t, hm, by simp [htake], ?_⟩
    rw [List.drop_append_of_le_length (by omega), List.drop_take, Nat.add_sub_cancel_left,
      List.take_append_of_le_length (by rw [List.length_take, List.length_drop]; omega),
      List.take_take, Nat.min_self]
    exact hp

/-! ## Responses -/

/-- A payload behind its length of four bytes. -/
def framed (body : Bytes) : Bytes := le32 body.length ++ body

/-- The error `ERR_2BIG` as it is serialised: the tag, the code 1001, the length of the text. -/
def tooBig : Bytes :=
  [1, 233, 3, 0, 0, 19, 0, 0, 0] ++ ascii "response is too big"

/-- The payload that answers a request: what its handler wrote to `out`, if that fits a message with
its length, and else the error. -/
def answerOf (out : Bytes) : Bytes := if out.length ≤ 4092 then out else tooBig

/-- What is to be sent for a call: the answer in a frame if it returned `RES_OK`. -/
def Call.response (c : Call) : Bytes :=
  match c.answer with
  | some (.RES_OK, out) => framed (answerOf out)
  | _ => []

/-- **The code** computes this answer. -/
theorem payload_eq (out : Bytes) : payload out = answerOf out := by
  have herr : outErr [] err2Big (ascii "response is too big") = tooBig := by decide +kernel
  unfold payload answerOf
  rw [herr]
  by_cases h : out.length ≤ 4092
  · rw [if_pos h, if_neg (by simp only [maxMsg]; omega)]
  · rw [if_neg h, if_pos (by simp only [maxMsg]; omega)]

/-- The responses of the calls, in order. -/
def responses (calls : List Call) : Bytes := (calls.map Call.response).flatten

theorem responses_concat (calls : List Call) (c : Call) :
    responses (calls ++ [c]) = responses calls ++ c.response := by simp [responses]

theorem answerOf_length (out : Bytes) : 4 + (answerOf out).length ≤ maxMsg := by
  unfold answerOf
  split
  · simp only [maxMsg]
    omega
  · decide +kernel

theorem bufSize_eq : bufSize = 4 + maxMsg := rfl

/-- The connection with the response to `out` queued and a frame of `k` bytes removed. -/
def Conn.queued (conn : Conn) (out : Bytes) (k : Nat) : Conn :=
  { conn with
    state := .STATE_RES
    rbuf := conn.rbuf.drop k
    wbuf := framed (answerOf out) }

theorem queueResponse_eq (conn : Conn) (out : Bytes) (len : Nat) :
    queueResponse conn (payload out) len = .ok (conn.queued out (4 + len)) := by
  have h := answerOf_length out
  unfold queueResponse
  rw [payload_eq, if_neg (by rw [bufSize_eq]; omega)]
  rfl

/-- The connection marked for deletion. -/
def Conn.closed (conn : Conn) : Conn := { conn with state := .STATE_END }

section Io

variable {σ : Type} {handle : σ → List Bytes → Res (σ × ResCode × Bytes)}

/-- Queue the response to `out`, remove the frame of `k` bytes, and begin to write. -/
def respond (conn : Conn) (net : Net σ) (out : Bytes) (k : Nat) : IoRes σ (Conn × Net σ × Bool) :=
  stateres (conn.queued out k) net >>= fun s => .ok (s.1, s.2, decide (s.1.state = .STATE_REQ))

variable (handle) in
/-- **`one_request` without a request in front**: nothing happens, or the connection is closed. -/
theorem oneRequest_none {conn : Conn} (net : Net σ) (h : nextRequest conn.rbuf = none) :
    oneRequest handle conn net = .ok (conn, net, false) ∧ conn.rbuf.length < bufSize ∨
      oneRequest handle conn net = .ok (conn.closed, net, false) := by
  unfold oneRequest
  by_cases h4 : conn.rbuf.length < 4
  · exact .inl ⟨by rw [if_pos h4], by rw [bufSize_eq]; omega⟩
  · obtain ⟨len, hlen⟩ := readU32_ok_iff.mpr (by omega : 0 + 4 ≤ conn.rbuf.length)
    rw [if_neg h4, hlen]
    simp only [faultIn, ok_bind]
    by_cases hm : len > maxMsg
    · exact .inr (by rw [if_pos hm]; rfl)
    rw [if_neg hm]
    by_cases hl : 4 + len > conn.rbuf.length
    · exact .inl ⟨by rw [if_pos hl]; rfl, by rw [bufSize_eq]; omega⟩
    rw [if_neg hl]
    obtain ⟨r, hr⟩ := parseReq_total ((conn.rbuf.drop 4).take len)
    rw [hr, ok_bind]
    cases r with
    | none => exact .inr rfl
    | some cmd =>
      rw [nextRequest_some.mpr ⟨len, rfl, hlen, by omega, by omega, hr⟩] at h
      cases h

variable (handle) in
/-- **`one_request` with a request in front**: it is executed; `RES_OK` queues the response. -/
theorem oneRequest_some {conn : Conn} (net : Net σ) {cmd : List Bytes} {k : Nat}
    (h : nextRequest conn.rbuf = some (cmd, k)) :
    oneRequest handle conn net = (callHandler handle net cmd >>= fun r =>
      if r.2.1 ≠ .RES_OK then .ok (conn.closed, r.1, false)
      else respond conn r.1 r.2.2 k) := by
  obtain ⟨len, rfl, hlen, hm, hl, hp⟩ := nextRequest_some.mp h
  unfold oneRequest
  rw [if_neg (by omega), hlen]
  simp only [faultIn, ok_bind]
  rw [if_neg (by omega), if_neg (by omega), hp, ok_bind]
  dsimp only
  congr 1
  funext ⟨net', err, out⟩
  by_cases herr : err = .RES_OK
  · simp [herr, queueResponse_eq, respond]
  · simp only [ne_eq, herr, not_false_eq_true, if_true]
    rfl

/-! ## The invariant of a connection -/

/-- What was executed and what was written fits the stream `S`. -/
structure Observed (S : Bytes) (net : Net σ) : Prop where
  calls : net.calls.map Call.cmd <+: requestFraming.items S
  sent : net.sent <+: responses net.calls

/-- Nothing is lost: the stream is what the executed requests took, `rbuf` and what is still to be
read; the responses are what was written and what waits in `wbuf`. -/
structure Live (S : Bytes) (conn : Conn) (net : Net σ) : Prop where
  read : ∃ c, S = c ++ (conn.rbuf ++ net.inbox) ∧
    requestFraming.Consumed c (net.calls.map Call.cmd)
  written : responses net.calls = net.sent ++ conn.wbuf.drop conn.wbufSent
  sentLe : conn.wbufSent ≤ conn.wbuf.length
  idle : conn.state = .STATE_REQ → conn.wbuf = [] ∧ conn.wbufSent = 0

/-- The invariant between two system calls: a connection that is not to be deleted is live and has
room to read. -/
structure Settled (S : Bytes) (conn : Conn) (net : Net σ) : Prop where
  observed : Observed S net
  live : conn.state ≠ .STATE_END → Live S conn net ∧ conn.rbuf.length < bufSize

theorem Live.observed {S : Bytes} {conn : Conn} {net : Net σ} (h : Live S conn net) :
    Observed S net where
  calls := by
    obtain ⟨c, rfl, hc⟩ := h.read
    exact hc.prefix _
  sent := ⟨_, h.written.symm⟩

theorem Live.settled {S : Bytes} {conn : Conn} {net : Net σ} (h : Live S conn net)
    (hroom : conn.rbuf.length < bufSize) : Settled S conn net :=
  ⟨h.observed, fun _ => ⟨h, hroom⟩⟩

theorem Observed.settled {S : Bytes} {conn : Conn} {net : Net σ} (h : Observed S net)
    (hs : conn.state = .STATE_END) : Settled S conn net :=
  ⟨h, fun hne => absurd hs hne⟩

variable (handle) in
/-- The result is one with `P`, or a fault of the handler in the last request executed. -/
def Outcome (S : Bytes) {α : Type} (P : α → Prop) : IoRes σ α → Prop
  | .ok a => P a
  | .error (f, net) => Observed S net ∧
    ∃ db cmd, net.calls.getLast? = some ⟨cmd, none⟩ ∧ handle db cmd = .error f

theorem Outcome.bind {S : Bytes} {α β : Type} {P : α → Prop} {Q : β → Prop} {x : IoRes σ α}
    {f : α → IoRes σ β} (hx : Outcome handle S P x)
    (hf : ∀ a, P a → Outcome handle S Q (f a)) : Outcome handle S Q (x >>= f) := by
  cases x with
  | ok a => exact hf a hx
  | error e => exact hx

theorem Outcome.mono {S : Bytes} {α : Type} {P Q : α → Prop} {x : IoRes σ α}
    (hx : Outcome handle S P x) (h : ∀ a, P a → Q a) : Outcome handle S Q x := by
  cases x with
  | ok a => exact h a hx
  | error e => exact hx

/-! ## Writing -/

/-- A call that moved bytes has used up a result. -/
theorem retry_count {rs : List SysRes} {n : Nat} (h : (retry rs).1 = .count n) :
    (retry rs).2.length < rs.length := by
  induction rs with
  | nil => cases h
  | cons r rs ih =>
    cases r with
    | eintr => exact (ih h).trans (Nat.lt_succ_self _)
    | count | eagain | fail => exact Nat.lt_succ_self _

variable {S : Bytes} {conn : Conn} {net : Net σ}

theorem tryFlushBuffer_spec (hl : Live S conn net) (hroom : conn.rbuf.length < bufSize)
    (hs : conn.state = .STATE_RES) :
    Outcome handle S (fun r => Settled S r.1 r.2.1 ∧
      (r.1.rbuf = conn.rbuf ∧ r.2.1.reads = net.reads) ∧
      (r.2.2 = true → r.1.state = .STATE_RES ∧ r.2.1.writes.length < net.writes.length))
      (tryFlushBuffer conn net) := by
  unfold tryFlushBuffer
  rcases hr : retry net.writes with ⟨rv, writes⟩
  have hl' : Live S conn { net with writes := writes } := ⟨hl.read, hl.written, hl.sentLe, hl.idle⟩
  dsimp only
  cases rv with
  | eagain => exact ⟨hl'.settled hroom, ⟨rfl, rfl⟩, nofun⟩
  | eintr => exact ⟨hl'.observed.settled rfl, ⟨rfl, rfl⟩, nofun⟩
  | fail => exact ⟨hl'.observed.settled rfl, ⟨rfl, rfl⟩, nofun⟩
  | count n =>
    have hlt : writes.length < net.writes.length := by
      have hcount : (retry net.writes).1 = .count n := by rw [hr]
      have hlt := retry_count hcount
      rwa [hr] at hlt
    have hle := hl.sentLe
    dsimp only
    generalize hk : min n (conn.wbuf.length - conn.wbufSent) = k
    have hkle : conn.wbufSent + k ≤ conn.wbuf.length := by omega
    have hwritten : responses net.calls =
        (net.sent ++ (conn.wbuf.drop conn.wbufSent).take k) ++
          conn.wbuf.drop (conn.wbufSent + k) := by
      rw [hl.written, List.append_assoc, ← List.drop_drop, List.take_append_drop]
    rw [decide_eq_true hkle, assert_true]
    simp only [faultIn, ok_bind]
    split
    · rename_i hfull
      rw [hfull, List.drop_length] at hwritten
      have hidle : Live S { conn with state := .STATE_REQ, wbuf := [], wbufSent := 0 }
          { net with
            writes := writes
            sent := net.sent ++ (conn.wbuf.drop conn.wbufSent).take k } :=
        ⟨hl.read, hwritten, Nat.le_refl 0, fun _ => ⟨rfl, rfl⟩⟩
      exact ⟨hidle.settled hroom, ⟨rfl, rfl⟩, nofun⟩
    · have hpart : Live S { conn with wbufSent := conn.wbufSent + k }
          { net with
            writes := writes
            sent := net.sent ++ (conn.wbuf.drop conn.wbufSent).take k } :=
        ⟨hl.read, hwritten, hkle, fun h => by simp only [hs] at h; cases h⟩
      exact ⟨hpart.settled hroom, ⟨rfl, rfl⟩, fun _ => ⟨hs, hlt⟩⟩

theorem flushLoop_spec : ∀ (fuel : Nat) {conn : Conn} {net : Net σ}, Live S conn net →
    conn.rbuf.length < bufSize → conn.state = .STATE_RES → net.writes.length < fuel →
    Outcome handle S (fun r => Settled S r.1 r.2 ∧ r.1.rbuf = conn.rbuf ∧ r.2.reads = net.reads)
      (flushLoop fuel conn net)
  | 0, _, _, _, _, _, hf => absurd hf (Nat.not_lt_zero _)
  | fuel + 1, conn, net, hl, hroom, hs, hf => by
    unfold flushLoop
    refine (tryFlushBuffer_spec hl hroom hs).bind ?_
    rintro ⟨conn', net', again⟩ ⟨hset, hsame, ha⟩
    cases again with
    | false => exact ⟨hset, hsame⟩
    | true =>
      obtain ⟨hs', hlt⟩ := ha rfl
      have hs' : conn'.state = .STATE_RES := hs'
      have hlt : net'.writes.length < net.writes.length := hlt
      obtain ⟨hl', hroom'⟩ := hset.live (by rw [hs']; decide)
      apply (flushLoop_spec fuel hl' hroom' hs' (by omega)).mono
      intro r h
      exact ⟨h.1, h.2.1.trans hsame.1, h.2.2.trans hsame.2⟩

theorem stateres_spec (hl : Live S conn net) (hroom : conn.rbuf.length < bufSize)
    (hs : conn.state = .STATE_RES) :
    Outcome handle S (fun r => Settled S r.1 r.2 ∧ r.1.rbuf = conn.rbuf ∧ r.2.reads = net.reads)
      (stateres conn net) :=
  flushLoop_spec _ hl hroom hs (Nat.lt_succ_self _)

/-! ## Executing -/

/-- Executing the request in front: its frame is consumed, its response is queued. -/
theorem callHandler_spec (hl : Live S conn net) (hs : conn.state = .STATE_REQ) {cmd : List Bytes}
    {k : Nat} (hn : nextRequest conn.rbuf = some (cmd, k)) :
    Outcome handle S (fun r => Observed S r.1 ∧ r.1.reads = net.reads ∧
      (r.2.1 = .RES_OK → Live S (conn.queued r.2.2 k) r.1)) (callHandler handle net cmd) := by
  obtain ⟨c, hS, hc⟩ := hl.read
  have hc' := hc.next (F := requestFraming) hn
  have hS' : S = (c ++ conn.rbuf.take k) ++ (conn.rbuf.drop k ++ net.inbox) := by
    rw [List.append_assoc, ← List.append_assoc (conn.rbuf.take k), List.take_append_drop, hS]
  obtain ⟨hwbuf, hsent⟩ := hl.idle hs
  have hwritten : responses net.calls = net.sent := by
    have := hl.written
    rwa [hwbuf, List.drop_nil, List.append_nil] at this
  have hobs : ∀ (a : Option (ResCode × Bytes)) (db : σ),
      Observed S { net with db := db, calls := net.calls ++ [⟨cmd, a⟩] } := by
    intro a db
    refine ⟨?_, ?_⟩
    · rw [hS', List.map_append]; exact hc'.prefix _
    · rw [responses_concat, hwritten]; exact List.prefix_append _ _
  unfold callHandler
  cases hh : handle net.db cmd with
  | error f => exact ⟨hobs none net.db, net.db, cmd, List.getLast?_concat, hh⟩
  | ok r =>
    obtain ⟨db, err, out⟩ := r
    refine ⟨hobs (some (err, out)) db, rfl, ?_⟩
    intro herr
    have herr : err = .RES_OK := herr
    subst herr
    refine ⟨⟨c ++ conn.rbuf.take k, hS', by rw [List.map_append]; exact hc'⟩, ?_, ?_, nofun⟩
    · show responses (net.calls ++ _) = net.sent ++ List.drop conn.wbufSent _
      rw [responses_concat, hwritten, hsent]
      rfl
    · show conn.wbufSent ≤ _
      rw [hsent]; exact Nat.zero_le _

theorem oneRequest_spec (hl : Live S conn net) (hs : conn.state = .STATE_REQ)
    (hroom : conn.rbuf.length ≤ bufSize) :
    Outcome handle S (fun r => Settled S r.1 r.2.1 ∧ r.2.1.reads = net.reads ∧
      (r.2.2 = true → r.1.state = .STATE_REQ ∧ r.1.rbuf.length < conn.rbuf.length))
      (oneRequest handle conn net) := by
  cases hn : nextRequest conn.rbuf with
  | none =>
    rcases oneRequest_none handle net hn with ⟨h, hlt⟩ | h <;> rw [h]
    · exact ⟨hl.settled hlt, rfl, nofun⟩
    · exact ⟨hl.observed.settled rfl, rfl, nofun⟩
  | some r =>
    obtain ⟨cmd, k⟩ := r
    rw [oneRequest_some handle net hn]
    have hk := requestFraming.pos hn
    have hkle := requestFraming.le hn
    refine (callHandler_spec hl hs hn).bind ?_
    rintro ⟨net₁, err, out⟩ ⟨hobs, hreads, hok⟩
    dsimp only at hobs hreads hok ⊢
    split
    · exact ⟨hobs.settled rfl, hreads, nofun⟩
    · rename_i herr
      have hl₁ := hok (not_not.mp herr)
      have hdrop : (conn.queued out k).rbuf.length = conn.rbuf.length - k := List.length_drop
      refine (stateres_spec hl₁ (by omega) rfl).bind ?_
      rintro ⟨conn₂, net₂⟩ ⟨hset, hrbuf, hr₂⟩
      refine ⟨hset, hr₂.trans hreads, fun hreq => ⟨of_decide_eq_true hreq, ?_⟩⟩
      have hrbuf : conn₂.rbuf = (conn.queued out k).rbuf := hrbuf
      show conn₂.rbuf.length < _
      rw [hrbuf]
      omega

theorem requestLoop_spec : ∀ (fuel : Nat) {conn : Conn} {net : Net σ}, Live S conn net →
    conn.state = .STATE_REQ → conn.rbuf.length ≤ bufSize → conn.rbuf.length < fuel →
    Outcome handle S (fun r => Settled S r.1 r.2 ∧ r.2.reads = net.reads)
      (requestLoop handle fuel conn net)
  | 0, _, _, _, _, _, hf => absurd hf (Nat.not_lt_zero _)
  | fuel + 1, conn, net, hl, hs, hroom, hf => by
    unfold requestLoop
    refine (oneRequest_spec hl hs hroom).bind ?_
    rintro ⟨conn', net', again⟩ ⟨hset, hreads, ha⟩
    cases again with
    | false => exact ⟨hset, hreads⟩
    | true =>
      obtain ⟨hs', hlt⟩ := ha rfl
      have hs' : conn'.state = .STATE_REQ := hs'
      have hlt : conn'.rbuf.length < conn.rbuf.length := hlt
      obtain ⟨hl', hroom'⟩ := hset.live (by rw [hs']; decide)
      apply (requestLoop_spec fuel hl' hs' (by omega) (by omega)).mono
      intro r h
      exact ⟨h.1, h.2.trans hreads⟩

/-! ## Reading -/

theorem tryFillBuffer_spec (hl : Live S conn net) (hs : conn.state = .STATE_REQ)
    (hroom : conn.rbuf.length < bufSize) :
    Outcome handle S (fun r => Settled S r.1 r.2.1 ∧
      (r.2.2 = true → r.1.state = .STATE_REQ ∧ r.2.1.reads.length < net.reads.length))
      (tryFillBuffer handle conn net) := by
  unfold tryFillBuffer
  rw [decide_eq_true hroom, assert_true]
  simp only [faultIn, ok_bind]
  rcases hr : retry net.reads with ⟨rv, reads⟩
  have hl' : Live S conn { net with reads := reads } := ⟨hl.read, hl.written, hl.sentLe, hl.idle⟩
  dsimp only
  cases rv with
  | eagain => exact ⟨hl'.settled hroom, nofun⟩
  | eintr => exact ⟨hl'.observed.settled rfl, nofun⟩
  | fail => exact ⟨hl'.observed.settled rfl, nofun⟩
  | count n =>
    have hlt : reads.length < net.reads.length := by
      have hcount : (retry net.reads).1 = .count n := by rw [hr]
      have hlt := retry_count hcount
      rwa [hr] at hlt
    dsimp only
    generalize hk : min (min n (bufSize - conn.rbuf.length)) net.inbox.length = k
    split
    · exact ⟨hl'.observed.settled rfl, nofun⟩
    · have hlen : (conn.rbuf ++ net.inbox.take k).length ≤ bufSize := by
        rw [List.length_append, List.length_take]; omega
      have hread : Live S { conn with rbuf := conn.rbuf ++ net.inbox.take k }
          { net with reads := reads, inbox := net.inbox.drop k } := by
        refine ⟨?_, hl.written, hl.sentLe, hl.idle⟩
        obtain ⟨c, hS, hc⟩ := hl.read
        refine ⟨c, ?_, hc⟩
        show S = c ++ (conn.rbuf ++ net.inbox.take k ++ net.inbox.drop k)
        rw [List.append_assoc, List.take_append_drop, hS]
      rw [decide_eq_true hlen, assert_true]
      simp only [ok_bind]
      refine (requestLoop_spec _ hread hs hlen (Nat.lt_succ_self _)).bind ?_
      rintro r ⟨hset, hrd⟩
      exact ⟨hset, fun hreq => ⟨of_decide_eq_true hreq, by rw [hrd]; exact hlt⟩⟩

theorem fillLoop_spec : ∀ (fuel : Nat) {conn : Conn} {net : Net σ}, Live S conn net →
    conn.state = .STATE_REQ → conn.rbuf.length < bufSize → net.reads.length < fuel →
    Outcome handle S (fun r => Settled S r.1 r.2) (fillLoop handle fuel conn net)
  | 0, _, _, _, _, _, hf => absurd hf (Nat.not_lt_zero _)
  | fuel + 1, conn, net, hl, hs, hroom, hf => by
    unfold fillLoop
    refine (tryFillBuffer_spec hl hs hroom).bind ?_
    rintro ⟨conn', net', again⟩ ⟨hset, ha⟩
    cases again with
    | false => exact hset
    | true =>
      obtain ⟨hs', hlt⟩ := ha rfl
      have hs' : conn'.state = .STATE_REQ := hs'
      have hlt : net'.reads.length < net.reads.length := hlt
      obtain ⟨hl', hroom'⟩ := hset.live (by rw [hs']; decide)
      exact fillLoop_spec fuel hl' hs' hroom' (by omega)

/-! ## The life of a connection -/

theorem connectionIo_spec (h : Settled S conn net) (hs : conn.state ≠ .STATE_END) :
    Outcome handle S (fun r => Settled S r.1 r.2) (connectionIo handle conn net) := by
  obtain ⟨hl, hroom⟩ := h.live hs
  unfold connectionIo
  split
  · rename_i hreq
    exact fillLoop_spec _ hl hreq hroom (Nat.lt_succ_self _)
  · rename_i hres
    exact (stateres_spec hl hroom hres).mono fun r hr => hr.1
  · rename_i hend; exact absurd hend hs

/-- A connection that was just accepted. -/
theorem Settled.start (S : Bytes) (db : σ) : Settled S {} ({ db := db, inbox := S } : Net σ) :=
  Live.settled ⟨⟨[], rfl, .nil⟩, rfl, Nat.le_refl 0, fun _ => ⟨rfl, rfl⟩⟩ (by decide)

theorem connRun_spec : ∀ (script : List (IoCall σ)) {conn : Conn} {net : Net σ},
    Settled S conn net → Outcome handle S (fun r => Settled S r.1 r.2) (connRun handle conn net script)
  | [], _, _, h => h
  | call :: calls, conn, net, h => by
    unfold connRun
    split
    · exact h
    · rename_i hs
      have h' : Settled S conn
          { net with db := call.db, reads := call.reads, writes := call.writes } :=
        ⟨⟨h.observed.calls, h.observed.sent⟩, fun hne =>
          let ⟨hl, hroom⟩ := h.live hne
          ⟨⟨hl.read, hl.written, hl.sentLe, hl.idle⟩, hroom⟩⟩
      exact (connectionIo_spec h' hs).bind fun r hr => connRun_spec calls hr

/-- **Framing does not depend on how the bytes are cut.** The peer sends `S`; the script fixes what
every `read` and `write` returns and what other connections do to the data.  The requests executed
are a prefix of the frame-by-frame parse of `S`, the bytes written a prefix of their responses.
While the connection is open nothing is lost: the parse goes on with `rbuf` and the bytes not yet
read, and the responses with what waits in `wbuf`.  Only the handler can end the process. -/
theorem connRun_framing (handle : σ → List Bytes → Res (σ × ResCode × Bytes)) (S : Bytes) (db : σ)
    (script : List (IoCall σ)) :
    match connRun handle {} { db := db, inbox := S } script with
    | .ok (conn, net) =>
      net.calls.map Call.cmd <+: requestFraming.items S ∧ net.sent <+: responses net.calls ∧
        (conn.state ≠ .STATE_END →
          requestFraming.items S =
            net.calls.map Call.cmd ++ requestFraming.items (conn.rbuf ++ net.inbox) ∧
          responses net.calls = net.sent ++ conn.wbuf.drop conn.wbufSent)
    | .error (f, net) =>
      net.calls.map Call.cmd <+: requestFraming.items S ∧ net.sent <+: responses net.calls ∧
        ∃ db cmd, net.calls.getLast? = some ⟨cmd, none⟩ ∧ handle db cmd = .error f := by
  have h : Outcome handle S (fun r => Settled S r.1 r.2)
      (connRun handle {} { db := db, inbox := S } script) := connRun_spec script (.start S db)
  cases hr : connRun handle {} { db := db, inbox := S } script with
  | error e =>
    rw [hr] at h
    obtain ⟨hobs, hf⟩ := h
    exact ⟨hobs.calls, hobs.sent, hf⟩
  | ok r =>
    rw [hr] at h
    refine ⟨h.observed.calls, h.observed.sent, ?_⟩
    intro hne
    obtain ⟨hl, -⟩ := h.live hne
    obtain ⟨c, hS, hc⟩ := hl.read
    exact ⟨by rw [hS, hc.items], hl.written⟩

end Io

end RedisServer
