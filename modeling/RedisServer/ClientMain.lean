import RedisServer.ResponseBounds
import RedisServer.Responses
import RedisServer.RunningServer

/-!
# client.cpp — one call to the running server

`clientMain` is `main` of the client behind `connect`: it sends one request, reads one response and
exits.  What arrives is what the server has sent to the connection so far, however `read` cuts it.

Results, over every run of the server with any other connections:
* `World.client_call` — a call is executed at most once; when the client has decoded an answer, it
  was executed exactly once, and the answer is the one of that execution;
* `World.client_exits_one` — the exit status says nothing of it: `main` takes the size that
  `on_response` returns for an error, and exits with 1 whatever the answer.
-/

set_option autoImplicit false

namespace RedisServer

open Runs Deframe

/-! ## The model -/

/-- What the client can read of its connection. -/
structure Incoming where
  inbox : Bytes
  reads : List SysRes
  deriving DecidableEq, Repr

/-- The loop of `read_full`: its result, and what it has put into the buffer. -/
def readFull : List SysRes → Bytes → Nat → Bytes → Res (Int × Bytes × Incoming)
  | reads, inbox, 0, buf => .ok (0, buf, ⟨inbox, reads⟩)
  | .count n :: reads, inbox, len + 1, buf =>
    let rv := min n (min (len + 1) inbox.length)
    if rv = 0 then .ok (-1, buf, ⟨inbox, reads⟩) -- end of the stream
    else do
      assert (decide (rv ≤ len + 1))
      readFull reads (inbox.drop rv) (len + 1 - rv) (buf ++ inbox.take rv)
  | .eintr :: reads, inbox, len + 1, buf => readFull reads inbox (len + 1) buf
  | reads, inbox, _ + 1, buf => .ok (-1, buf, ⟨inbox, reads⟩)

/-- `read_resp` -/
def readResp (conn : Incoming) : Res Int := do
  let (err, rbuf, conn) ← readFull conn.reads conn.inbox 4 []
  if err = -1 then return -1
  let len ← readU32 rbuf 0
  if len > maxMsg then return -1
  let (err, data, _) ← readFull conn.reads conn.inbox len []
  if err = -1 then return -1
  if len < 1 then return -1
  readResponse data

/-- `main` behind `connect`: the exit status, and what was sent. -/
def clientMain (cmd : List Bytes) (writes : List SysRes) (conn : Incoming) : Res (Nat × Bytes) := do
  let (err, sent) ← sendReq cmd writes
  if err ≠ 0 then return (1, sent)
  let err ← readResp conn
  if err ≠ 0 then return (1, sent)
  return (0, sent)

/-! ## Reading a response -/

/-- `read_full` fails, or puts the next `len` bytes behind `buf`. -/
theorem readFull_spec : ∀ (reads : List SysRes) (inbox : Bytes) (len : Nat) (buf : Bytes),
    (∃ got conn, readFull reads inbox len buf = .ok (-1, got, conn)) ∨
      len ≤ inbox.length ∧ ∃ rest, readFull reads inbox len buf =
        .ok (0, buf ++ inbox.take len, ⟨inbox.drop len, rest⟩)
  | reads, inbox, 0, buf => by
    refine .inr ⟨Nat.zero_le _, reads, ?_⟩
    rw [List.take_zero, List.append_nil, List.drop_zero]
    unfold readFull
    rfl
  | .count n :: reads, inbox, len + 1, buf => by
    unfold readFull
    dsimp only
    split
    · exact .inl ⟨_, _, rfl⟩
    · have hrv : min n (min (len + 1) inbox.length) ≤ len + 1 := by omega
      have hin : min n (min (len + 1) inbox.length) ≤ inbox.length := by omega
      rw [decide_eq_true hrv, assert_true, ok_bind]
      generalize min n (min (len + 1) inbox.length) = rv at hrv hin ⊢
      rcases readFull_spec reads (inbox.drop rv) (len + 1 - rv) (buf ++ inbox.take rv) with h | h
      · exact .inl h
      · obtain ⟨hlen, rest, h⟩ := h
        rw [List.length_drop] at hlen
        have hsum : rv + (len + 1 - rv) = len + 1 := by omega
        have htake : inbox.take rv ++ (inbox.drop rv).take (len + 1 - rv) = inbox.take (len + 1) := by
          rw [← List.take_add, hsum]
        rw [List.append_assoc, htake, List.drop_drop, hsum] at h
        exact .inr ⟨by omega, rest, h⟩
  | .eintr :: reads, inbox, len + 1, buf => by
    unfold readFull
    exact readFull_spec reads inbox (len + 1) buf
  | [], inbox, len + 1, buf => .inl ⟨_, _, by unfold readFull; rfl⟩
  | .eagain :: reads, inbox, len + 1, buf => .inl ⟨_, _, by unfold readFull; rfl⟩
  | .fail :: reads, inbox, len + 1, buf => .inl ⟨_, _, by unfold readFull; rfl⟩

/-- `read_resp` on what has arrived of a frame. -/
theorem readResp_frame {received body rest : Bytes} (reads : List SysRes)
    (hbody : body.length ≤ maxMsg) (h : received <+: le32 body.length ++ (body ++ rest)) :
    readResp ⟨received, reads⟩ = .ok (-1) ∨ readResp ⟨received, reads⟩ = readResponse body := by
  obtain ⟨tail, htail⟩ := h
  unfold readResp
  dsimp only
  rcases readFull_spec reads received 4 [] with ⟨got, conn, hread⟩ | ⟨hlen, rest₁, hread⟩
  · rw [hread]
    exact .inl rfl
  have hfield : received.take 4 = le32 body.length := by
    have htake := congrArg (List.take 4) htail
    rwa [List.take_append_of_le_length hlen,
      List.take_append_of_le_length (Nat.le_of_eq (le32_length _).symm),
      List.take_of_length_le (Nat.le_of_eq (le32_length _))] at htake
  have hdrop : received.drop 4 ++ tail = body ++ rest := by
    have hdrop := congrArg (List.drop 4) htail
    rwa [List.drop_append_of_le_length hlen,
      List.drop_append_of_le_length (Nat.le_of_eq (le32_length _).symm),
      List.drop_of_length_le (Nat.le_of_eq (le32_length _)), List.nil_append] at hdrop
  have hsize : readU32 (le32 body.length) 0 = .ok body.length := by
    have hread := readU32_le32 (Nat.lt_of_le_of_lt hbody (by decide)) []
    rwa [List.append_nil] at hread
  rw [hread, List.nil_append, hfield]
  simp only [ok_bind]
  rw [if_neg (by decide), hsize, ok_bind, if_neg (Nat.not_lt.mpr hbody)]
  rcases readFull_spec rest₁ (received.drop 4) body.length [] with ⟨got, conn, h⟩ | ⟨hle, r, h⟩
  · rw [h]
    exact .inl rfl
  have hgot : (received.drop 4).take body.length = body := by
    rw [← List.take_append_of_le_length hle, hdrop, List.take_left]
  rw [h, List.nil_append, hgot]
  simp only [ok_bind]
  rw [if_neg (by decide)]
  cases body with
  | nil => exact .inl rfl
  | cons b body => exact .inr (if_neg (by simp))

theorem readResp_nil (reads : List SysRes) : readResp ⟨[], reads⟩ = .ok (-1) := by
  unfold readResp
  rcases readFull_spec reads [] 4 [] with ⟨got, conn, h⟩ | ⟨hlen, -⟩
  · rw [h]
    rfl
  · exact absurd hlen (by decide)

theorem Call.response_cases (c : Call) : c.response = [] ∨
    ∃ out, c = ⟨c.cmd, some (.RES_OK, out)⟩ ∧ c.response = framed (answerOf out) := by
  obtain ⟨cmd, answer⟩ := c
  match answer with
  | none => exact .inl rfl
  | some (.RES_ERR, _) => exact .inl rfl
  | some (.RES_NX, _) => exact .inl rfl
  | some (.RES_OK, out) => exact .inr ⟨out, rfl, rfl⟩

/-- The first response of the calls. -/
theorem responses_first : ∀ (calls : List Call), responses calls = [] ∨
    ∃ cmd out rest, ⟨cmd, some (.RES_OK, out)⟩ ∈ calls ∧
      responses calls = framed (answerOf out) ++ rest
  | [] => .inl rfl
  | c :: calls => by
    have hcons : responses (c :: calls) = c.response ++ responses calls := List.flatten_cons
    rcases c.response_cases with hnone | ⟨out, hc, hresponse⟩
    · rw [hcons, hnone, List.nil_append]
      rcases responses_first calls with h | ⟨cmd, out, rest, hmem, h⟩
      · exact .inl h
      · exact .inr ⟨cmd, out, rest, List.mem_cons_of_mem _ hmem, h⟩
    · refine .inr ⟨c.cmd, out, responses calls, hc ▸ List.mem_cons_self, ?_⟩
      rw [hcons, hresponse]

/-- What `read_resp` makes of a prefix of the responses: an error, or the value of the first. -/
theorem readResp_received {received : Bytes} {calls : List Call} (reads : List SysRes)
    (h : received <+: responses calls) :
    readResp ⟨received, reads⟩ = .ok (-1) ∨ ∃ cmd out, ⟨cmd, some (.RES_OK, out)⟩ ∈ calls ∧
      readResp ⟨received, reads⟩ = readResponse (answerOf out) := by
  rcases responses_first calls with hnone | ⟨cmd, out, rest, hmem, hfirst⟩
  · rw [hnone] at h
    rw [List.prefix_nil.mp h]
    exact .inl (readResp_nil reads)
  · rw [hfirst, framed, List.append_assoc] at h
    have hlen := answerOf_length out
    exact (readResp_frame reads (by omega) h).imp id fun h => ⟨cmd, out, hmem, h⟩

/-! ## One request on the connection -/

/-- What `send_req` sends is one request, unless it has too many arguments. -/
theorem encodeReq_items {cmd : List Bytes} (hmax : 4 + (encodeArgs cmd).length ≤ maxMsg) :
    requestFraming.items (encodeReq cmd) = if cmd.length ≤ maxArgs then [cmd] else [] := by
  have hbody : (le32 cmd.length ++ encodeArgs cmd).length = 4 + (encodeArgs cmd).length := by
    rw [List.length_append, le32_length]
  have hlen : (encodeReq cmd).length = 4 + (4 + (encodeArgs cmd).length) := by
    rw [encodeReq, List.length_append, le32_length, hbody]
  have hfield : readU32 (encodeReq cmd) 0 = .ok (4 + (encodeArgs cmd).length) :=
    readU32_le32 (Nat.lt_of_le_of_lt hmax (by decide)) _
  have hdrop : (encodeReq cmd).drop 4 = le32 cmd.length ++ encodeArgs cmd :=
    List.drop_left' (le32_length _)
  have htake : ((encodeReq cmd).drop 4).take (4 + (encodeArgs cmd).length) =
      le32 cmd.length ++ encodeArgs cmd := by
    rw [hdrop, ← hbody, List.take_length]
  have hend : requestFraming.items [] = [] := Framing.items_none rfl
  split
  · rename_i hn
    have hshort : ∀ a ∈ cmd, 4 + a.length < 2 ^ 32 := fun a ha =>
      Nat.lt_of_le_of_lt ((mem_encodeArgs_length ha).trans (Nat.le_add_left _ 4))
        (Nat.lt_of_le_of_lt hmax (by decide))
    have hnext : requestFraming.next (encodeReq cmd) = some (cmd, (encodeReq cmd).length) :=
      nextRequest_some.mpr ⟨_, hlen, hfield, hmax, Nat.le_of_eq hlen.symm,
        htake ▸ parseReq_encodeReq hshort hn⟩
    rw [Framing.items_some hnext, List.drop_length, hend]
  · rename_i hn
    have hcount : cmd.length < 2 ^ 32 := by
      have := encodeArgs_length_ge cmd
      have hmax : 4 + (encodeArgs cmd).length ≤ 4096 := hmax
      omega
    have hreject : parseReq (le32 cmd.length ++ encodeArgs cmd) = .ok none := by
      unfold parseReq
      rw [if_neg (by simp), readU32_le32 hcount, ok_bind, if_pos (Nat.not_le.mp hn)]
      rfl
    apply Framing.items_none
    by_contra hsome
    obtain ⟨⟨cmd₁, k⟩, hnext⟩ := Option.ne_none_iff_exists'.mp hsome
    have hnext : nextRequest (encodeReq cmd) = some (cmd₁, k) := hnext
    obtain ⟨len, -, hread, -, -, hparse⟩ := nextRequest_some.mp hnext
    cases hread.symm.trans hfield
    rw [htake, hreject] at hparse
    cases hparse

namespace World

variable {σ : Type} {handle : σ → List Bytes → Res (σ × ResCode × Bytes)}
  {expire : UInt64 → σ → Res σ} {p : Ptr}

theorem mem_calls {history : List Record} {call : Call}
    (h : call ∈ history.filterMap (Record.callOf p)) :
    ∃ before after, history = before ++ Record.served p call :: after := by
  obtain ⟨r, hr, hcall⟩ := List.mem_filterMap.mp h
  cases r with
  | served q call' =>
    have hcall : (if q = p then some call' else none) = some call := hcall
    split at hcall
    · rename_i hq
      cases hcall
      rw [hq] at hr
      exact List.mem_iff_append.mp hr
    · cases hcall
  | expired now => cases hcall

/-- Where a call that was answered stands in the record, and what it found there. -/
theorem call_redone {history : List Record} {db db' : σ} {cmd : List Bytes} {code : ResCode}
    {out : Bytes} (h : run (redo handle expire) db history = .ok db')
    (hmem : ⟨cmd, some (code, out)⟩ ∈ history.filterMap (Record.callOf p)) :
    ∃ before after t t', history = before ++ .served p ⟨cmd, some (code, out)⟩ :: after ∧
      run (redo handle expire) db before = .ok t ∧ handle t cmd = .ok (t', code, out) ∧
      run (redo handle expire) t' after = .ok db' := by
  obtain ⟨before, after, hsplit⟩ := mem_calls hmem
  rw [hsplit] at h
  obtain ⟨t, hbefore, h⟩ := run_append_ok.mp h
  obtain ⟨t', hcall, hafter⟩ := run_cons_ok.mp h
  obtain ⟨⟨t₁, code₁, out₁⟩, hhandle, hcall⟩ := bind_ok.mp hcall
  obtain ⟨u, hanswer, hcall⟩ := bind_ok.mp hcall
  cases hcall
  rw [assert_ok, decide_eq_true_eq] at hanswer
  cases hanswer
  exact ⟨before, after, t, t', hsplit, hbefore, hhandle, hafter⟩

/-- **A call is executed at most once**, however it is cut and whatever the other clients do.  When
its client has decoded an answer, it was executed exactly once: at its place in the record it found
what the entries before it had left, and the answer is what it wrote there. -/
theorem client_call (handle : σ → List Bytes → Res (σ × ResCode × Bytes))
    (expire : UInt64 → σ → Res σ) (data : σ) (events : List WorldEvent) (w : World σ)
    (hadm : AllSteps (step handle expire) Admits (start data) events)
    (hrun : run (step handle expire) (start data) events = .ok w) (p : Ptr)
    {cmd : List Bytes} {writes : List SysRes} (hs : ∀ a ∈ cmd, a.length < 2 ^ 32)
    (hsend : sendReq cmd writes = .ok (0, (w.peers p).stream)) {reads : List SysRes} {r : Int}
    (hread : readResp ⟨(w.peers p).received, reads⟩ = .ok r) :
    (w.callsOf p).length ≤ 1 ∧ (0 ≤ r → ∃ before after db db' out,
      w.history = before ++ .served p ⟨cmd, some (.RES_OK, out)⟩ :: after ∧
      w.callsOf p = [⟨cmd, some (.RES_OK, out)⟩] ∧
      run (redo handle expire) data before = .ok db ∧ handle db cmd = .ok (db', .RES_OK, out) ∧
      run (redo handle expire) db' after = .ok w.server.data ∧
      readResponse (answerOf out) = .ok r) := by
  have h := run_accounted hadm
  rw [hrun] at h
  have hobs := Consistent.observed h p
  obtain ⟨hsent, hmax⟩ := sendReq_ok hs hsend
  have hcalls : (w.callsOf p).map Call.cmd <+: [cmd] := by
    have hcalls : (w.callsOf p).map Call.cmd <+: requestFraming.items (w.peers p).stream := hobs.calls
    rw [hsent, encodeReq_items hmax] at hcalls
    split at hcalls
    · exact hcalls
    · exact hcalls.trans List.nil_prefix
  have hlen : (w.callsOf p).length ≤ 1 := by
    have := hcalls.length_le
    rwa [List.length_map] at this
  refine ⟨hlen, ?_⟩
  intro hr
  rcases readResp_received reads hobs.sent with hfail | ⟨cmd₁, out, hmem, hvalue⟩
  · cases hread.symm.trans hfail
    exact absurd hr (by decide)
  have hmem : ⟨cmd₁, some (.RES_OK, out)⟩ ∈ w.callsOf p := hmem
  have honly : w.callsOf p = [⟨cmd₁, some (.RES_OK, out)⟩] := by
    obtain ⟨c, hc⟩ := List.length_eq_one_iff.mp
      (Nat.le_antisymm hlen (List.length_pos_of_mem hmem))
    rw [hc] at hmem ⊢
    rw [List.mem_singleton.mp hmem]
  rw [honly] at hcalls
  have hcmd : cmd₁ = cmd := (List.cons_prefix_cons.mp hcalls).1
  subst hcmd
  obtain ⟨before, after, db, db', hsplit, hbefore, hcall, hafter⟩ := call_redone h.redone hmem
  exact ⟨before, after, db, db', out, hsplit, honly, hbefore, hcall, hafter, hvalue ▸ hread⟩

/-- The answer arrives in pieces, while the other client has been served before. -/
theorem client_call_two : ∃ w, run (step (Host.serve ⟨64, 0⟩) Host.expire) (start {}) twoClients =
      .ok w ∧ ∃ before after db db' out,
      w.history = before ++
        .served 0 ⟨[ascii "set", ascii "k", ascii "v"], some (.RES_OK, out)⟩ :: after ∧
      Host.serve ⟨64, 0⟩ db [ascii "set", ascii "k", ascii "v"] = .ok (db', .RES_OK, out) ∧
      readResponse (answerOf out) = .ok 9 := by
  have hpeer : (run (step (Host.serve ⟨64, 0⟩) Host.expire) (start {}) twoClients).toOption.map
      (fun w => decide (sendReq [ascii "set", ascii "k", ascii "v"] [.count 7, .eintr, .count 100] =
          .ok (0, (w.peers 0).stream) ∧
        readResp ⟨(w.peers 0).received, [.count 3, .eintr, .count 4, .count 100]⟩ = .ok 9)) =
      some true := by decide +kernel
  obtain ⟨w, hw, hpeer⟩ := ok_of_map hpeer
  obtain ⟨hsend, hread⟩ := of_decide_eq_true hpeer
  have h := client_call (Host.serve ⟨64, 0⟩) Host.expire {} twoClients w (by decide +kernel) hw 0
    (by decide) hsend hread
  obtain ⟨before, after, db, db', out, hsplit, -, -, hcall, -, hvalue⟩ := h.2 (by decide)
  exact ⟨w, hw, before, after, db, db', out, hsplit, hcall, hvalue⟩

end World

/-! ## The exit status -/

theorem readResponse_pos {v : Value} (h : v.NoDouble) (hlt : v.serialise.length < 2 ^ 31) :
    ∃ i, readResponse v.serialise = .ok i ∧ i ≠ 0 := by
  have hpos := v.serialise_pos
  exact ⟨_, readResponse_serialise h hlt, by omega⟩

/-- What the client makes of an answer of the server is a number, and not 0. -/
theorem answered_read {g : GlobalData} {cmd : List Bytes} {out : Bytes} (h : Answered g cmd out) :
    ∃ i, readResponse (answerOf out) = .ok i ∧ i ≠ 0 := by
  have htooBig : tooBig = (Value.err err2Big (ascii "response is too big")).serialise := by
    decide +kernel
  unfold answerOf
  by_cases hfit : out.length ≤ 4092
  case neg =>
    rw [if_neg hfit, htooBig]
    exact readResponse_pos trivial (by decide)
  rw [if_pos hfit]
  have hlt : out.length < 2 ^ 31 := by omega
  cases h with
  | keys => exact readResponse_pos (allNoDouble_str _) hlt
  | value v _ _ _ hd _ => exact readResponse_pos hd hlt
  | score args d => exact ⟨_, readResponse_dbl d, by decide⟩
  | nothing args => exact ⟨-1, rfl, by decide⟩
  | members args name rest _ =>
    have hname : 5 + name.length < 2 ^ 31 := by
      simp only [outStr, List.length_append, List.length_cons, List.length_nil, le32_length] at hlt
      omega
    exact ⟨_, onResponse_str _ hname rest, by omega⟩

theorem writeAll_total : ∀ (writes : List SysRes) (buf sent : Bytes),
    ∃ r, writeAll writes buf sent = .ok r
  | writes, [], sent => ⟨_, by unfold writeAll; rfl⟩
  | .count n :: writes, b :: buf, sent => by
    unfold writeAll
    dsimp only
    split
    · exact ⟨_, rfl⟩
    · rw [decide_eq_true (Nat.min_le_right _ _), assert_true, ok_bind]
      exact writeAll_total writes _ _
  | .eintr :: writes, b :: buf, sent => by
    unfold writeAll
    exact writeAll_total writes _ _
  | [], b :: buf, sent => ⟨_, by unfold writeAll; rfl⟩
  | .eagain :: writes, b :: buf, sent => ⟨_, by unfold writeAll; rfl⟩
  | .fail :: writes, b :: buf, sent => ⟨_, by unfold writeAll; rfl⟩

/-- What `send_req` writes was stored in its buffer before. -/
theorem sendReq_total {cmd : List Bytes} (hs : ∀ a ∈ cmd, a.length < 2 ^ 32)
    (writes : List SysRes) : ∃ r, sendReq cmd writes = .ok r := by
  unfold sendReq
  split
  · exact ⟨_, rfl⟩
  rename_i len hlen
  split
  · exact ⟨_, rfl⟩
  split
  · exact ⟨_, rfl⟩
  rename_i wbuf hargs
  obtain ⟨hw, hle⟩ := sendArgs_ok hs hargs
  have hle := hle (by simp only [List.length_append, le32_length]; decide)
  have hsum : 8 + (encodeArgs cmd).length ≤ 4 + maxMsg := by
    rw [hw, bufSize_eq] at hle
    simpa only [List.length_append, le32_length] using hle
  have hlen' := sendLen_ok (by have : maxMsg = 4096 := rfl; omega) hlen
  rw [if_neg]
  · exact writeAll_total _ _ _
  · rw [hw, hlen']
    simp only [List.length_append, le32_length]
    omega

/-- `main` takes every number but 0 for an error. -/
theorem clientMain_one {cmd : List Bytes} (hs : ∀ a ∈ cmd, a.length < 2 ^ 32)
    (writes : List SysRes) {conn : Incoming} {r : Int} (h : readResp conn = .ok r) (hr : r ≠ 0) :
    ∃ sent, clientMain cmd writes conn = .ok (1, sent) := by
  obtain ⟨⟨err, sent⟩, hsend⟩ := sendReq_total hs writes
  refine ⟨sent, ?_⟩
  unfold clientMain
  rw [hsend]
  simp only [ok_bind]
  split
  · rfl
  · rw [h]
    simp only [ok_bind]
    rw [if_pos hr]
    rfl

namespace World

variable {σ : Type} {handle : σ → List Bytes → Res (σ × ResCode × Bytes)}
  {expire : UInt64 → σ → Res σ} {p : Ptr}

/-- The entry that ended the process was not answered. -/
theorem answered_before {before : List Record} {r : Record} {db : σ} {f : Fault} {cmd : List Bytes}
    {a : ResCode × Bytes} (h : r.Breaks handle expire db f)
    (hmem : ⟨cmd, some a⟩ ∈ (before ++ [r]).filterMap (Record.callOf p)) :
    ⟨cmd, some a⟩ ∈ before.filterMap (Record.callOf p) := by
  rw [List.filterMap_append, List.mem_append] at hmem
  apply hmem.resolve_right
  intro hlast
  obtain ⟨r', hr', hcall⟩ := List.mem_filterMap.mp hlast
  rw [List.mem_singleton.mp hr'] at hcall
  cases r with
  | served q call =>
    have hcall : (if q = p then some call else none) = some ⟨cmd, some a⟩ := hcall
    split at hcall
    · cases hcall
      cases h.1
    · cases hcall
  | expired now => cases hcall

/-- What was answered was a request to a keyspace that requests and TTL passes have built. -/
theorem call_answered {lim : Limits} {clock : List UInt64} {history : List Record} {host : Host}
    {cmd : List Bytes} {out : Bytes}
    (h : run (redo (Host.serve lim) Host.expire) { clock := clock } history = .ok host)
    (hmem : ⟨cmd, some (.RES_OK, out)⟩ ∈ history.filterMap (Record.callOf p)) :
    ∃ g, Answered g cmd out := by
  obtain ⟨before, after, db, db', -, hbefore, hcall, -⟩ := call_redone h hmem
  obtain ⟨evs, -, hserves⟩ := serves_of_redo hbefore
  have hi : db.data.Wf ∧ db.data.db.Scannable :=
    run_invariant_all serve_scannable ⟨.empty, .empty⟩ hserves
  obtain ⟨⟨g, code, out'⟩, hreq, hserve⟩ := bind_ok.mp hcall
  cases hserve
  exact ⟨db.data, doRequest_answered hi.1 hi.2 hreq⟩

/-- **The client exits with 1, whatever it is answered.**  `on_response` returns the size of what it
has read; `main` takes it for an error.  No answer of the server makes it return 0, and none leads
it outside the message. -/
theorem client_exits_one (lim : Limits) (clock : List UInt64) (events : List WorldEvent)
    (w : World Host)
    (hadm : AllSteps (step (Host.serve lim) Host.expire) Admits (start { clock := clock }) events)
    (hrun : run (step (Host.serve lim) Host.expire) (start { clock := clock }) events = .ok w ∨
      ∃ f, run (step (Host.serve lim) Host.expire) (start { clock := clock }) events = .error (f, w))
    (p : Ptr) {cmd : List Bytes} (hs : ∀ a ∈ cmd, a.length < 2 ^ 32)
    (writes reads : List SysRes) :
    ∃ sent, clientMain cmd writes ⟨(w.peers p).received, reads⟩ = .ok (1, sent) := by
  have h := run_accounted hadm
  have hseen : (w.peers p).received <+: responses (w.callsOf p) ∧ ∀ cmd out,
      ⟨cmd, some (.RES_OK, out)⟩ ∈ w.callsOf p → ∃ g, Answered g cmd out := by
    rcases hrun with hrun | ⟨f, hrun⟩
    · rw [hrun] at h
      exact ⟨(Consistent.observed h p).sent, fun _ _ hmem => call_answered h.redone hmem⟩
    · rw [hrun] at h
      obtain ⟨before, r, db, hsplit, hbefore, hbreaks⟩ := h.broke
      refine ⟨(h.observed p).sent, ?_⟩
      intro cmd out hmem
      rw [callsOf, hsplit] at hmem
      exact call_answered hbefore (answered_before hbreaks hmem)
  have hread : ∃ r, readResp ⟨(w.peers p).received, reads⟩ = .ok r ∧ r ≠ 0 := by
    rcases readResp_received reads hseen.1 with hfail | ⟨cmd₁, out, hmem, hvalue⟩
    · exact ⟨_, hfail, by decide⟩
    · obtain ⟨g, hans⟩ := hseen.2 cmd₁ out hmem
      rw [hvalue]
      exact answered_read hans
  obtain ⟨r, hr, hne⟩ := hread
  exact clientMain_one hs writes hr hne

theorem client_exits_one_two : ∃ w sent,
    run (step (Host.serve ⟨64, 0⟩) Host.expire) (start {}) twoClients = .ok w ∧
      clientMain [ascii "set", ascii "k", ascii "v"] [.count 100]
        ⟨(w.peers 0).received, [.count 100, .count 100]⟩ = .ok (1, sent) := by
  obtain ⟨w, hw, -⟩ := ok_of_map
    (show (run (step (Host.serve ⟨64, 0⟩) Host.expire) (start {}) twoClients).toOption.map
      (fun w => decide (w.server.next = 2)) = some true by decide +kernel)
  obtain ⟨sent, h⟩ := @client_exits_one ⟨64, 0⟩ [] twoClients w (by decide +kernel) (.inl hw) 0
    [ascii "set", ascii "k", ascii "v"] (by decide) [.count 100] [.count 100, .count 100]
  exact ⟨w, sent, hw, h⟩

end World

end RedisServer
