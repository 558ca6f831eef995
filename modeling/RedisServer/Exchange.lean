import RedisServer.Framing

/-!
# What one call of connection_io adds to the record

`connection_io` only appends to what an observer sees of a connection.  Two rules say so, and the
results about many connections rest on them:

* `connectionIo_after` — a call that starts with a record in front does the same and keeps it;
* `connectionIo_leaves` — what `do_request` preserves of the data and the calls, `connection_io`
  preserves.

`connectionIo_redo` is the second rule for one property: the calls, made again one after the other,
end in the same data.
-/

set_option autoImplicit false

namespace RedisServer

open Runs

section Io

variable {σ : Type} {handle : σ → List Bytes → Res (σ × ResCode × Bytes)}

/-! ## A record in front -/

/-- The record with `sent` and `calls` in front. -/
def Net.after (net : Net σ) (sent : Bytes) (calls : List Call) : Net σ :=
  { net with sent := sent ++ net.sent, calls := calls ++ net.calls }

/-- The result with `sent` and `calls` in front; `put` does it for a value. -/
def shift {α : Type} (put : α → α) (sent : Bytes) (calls : List Call) : IoRes σ α → IoRes σ α
  | .ok a => .ok (put a)
  | .error (f, net) => .error (f, net.after sent calls)

variable {sent : Bytes} {calls : List Call}

theorem shift_bind {α β : Type} {p : α → α} {q : β → β} {x y : IoRes σ α} {f g : α → IoRes σ β}
    (hx : y = shift p sent calls x) (hf : ∀ a, g (p a) = shift q sent calls (f a)) :
    (y >>= g) = shift q sent calls (x >>= f) := by
  subst hx
  cases x with
  | ok a => exact hf a
  | error e => rfl

theorem shift_faultIn {α : Type} (net : Net σ) (x : Res α) :
    faultIn (net.after sent calls) x = shift id sent calls (faultIn net x) := by
  cases x <;> rfl

variable (sent calls) in
/-- In front of a result `(conn, net)`. -/
def putTwo (r : Conn × Net σ) : Conn × Net σ := (r.1, r.2.after sent calls)

variable (sent calls) in
/-- In front of a result `(conn, net, again)`. -/
def putThree (r : Conn × Net σ × Bool) : Conn × Net σ × Bool := (r.1, r.2.1.after sent calls, r.2.2)

theorem tryFlushBuffer_after (conn : Conn) (net : Net σ) :
    tryFlushBuffer conn (net.after sent calls) =
      shift (putThree sent calls) sent calls (tryFlushBuffer conn net) := by
  unfold tryFlushBuffer
  rcases hr : retry net.writes with ⟨rv, writes⟩
  have hr' : retry (net.after sent calls).writes = (rv, writes) := hr
  rw [hr']
  cases rv with
  | eagain | eintr | fail => rfl
  | count n =>
    have hsent : ∀ b : Bytes, (net.after sent calls).sent ++ b = sent ++ (net.sent ++ b) :=
      fun b => List.append_assoc _ _ _
    dsimp only
    rw [hsent]
    refine shift_bind (shift_faultIn { net with writes := writes, sent := _ } _) ?_
    intro _
    split <;> rfl

theorem flushLoop_after : ∀ (fuel : Nat) (conn : Conn) (net : Net σ),
    flushLoop fuel conn (net.after sent calls) =
      shift (putTwo sent calls) sent calls (flushLoop fuel conn net)
  | 0, _, _ => rfl
  | fuel + 1, conn, net => by
    unfold flushLoop
    refine shift_bind (tryFlushBuffer_after conn net) ?_
    rintro ⟨conn', net', again⟩
    cases again with
    | false => rfl
    | true => exact flushLoop_after fuel conn' net'

theorem stateres_after (conn : Conn) (net : Net σ) :
    stateres conn (net.after sent calls) =
      shift (putTwo sent calls) sent calls (stateres conn net) :=
  flushLoop_after _ conn net

theorem callHandler_after (net : Net σ) (cmd : List Bytes) :
    callHandler handle (net.after sent calls) cmd =
      shift (fun r => (r.1.after sent calls, r.2)) sent calls (callHandler handle net cmd) := by
  unfold callHandler
  have hcalls : ∀ c : Call, (net.after sent calls).calls ++ [c] = calls ++ (net.calls ++ [c]) :=
    fun c => List.append_assoc _ _ _
  have hdb : (net.after sent calls).db = net.db := rfl
  simp only [hcalls, hdb]
  cases handle net.db cmd with
  | error f => rfl
  | ok r => rfl

/-- Without a request in front `one_request` does not look at the record. -/
theorem oneRequest_idle {conn : Conn} (h : nextRequest conn.rbuf = none) :
    ∃ conn', ∀ net : Net σ, oneRequest handle conn net = .ok (conn', net, false) := by
  unfold oneRequest
  by_cases h4 : conn.rbuf.length < 4
  · exact ⟨conn, fun net => by rw [if_pos h4]⟩
  obtain ⟨len, hlen⟩ := readU32_ok_iff.mpr (by omega : 0 + 4 ≤ conn.rbuf.length)
  simp only [if_neg h4, hlen, faultIn, ok_bind]
  by_cases hm : len > maxMsg
  · exact ⟨conn.closed, fun net => by rw [if_pos hm]; rfl⟩
  by_cases hl : 4 + len > conn.rbuf.length
  · exact ⟨conn, fun net => by rw [if_neg hm, if_pos hl]; rfl⟩
  obtain ⟨r, hr⟩ := parseReq_total ((conn.rbuf.drop 4).take len)
  simp only [if_neg hm, if_neg hl, hr, ok_bind]
  cases r with
  | none => exact ⟨conn.closed, fun net => rfl⟩
  | some cmd =>
    rw [nextRequest_some.mpr ⟨len, rfl, hlen, by omega, by omega, hr⟩] at h
    cases h

theorem oneRequest_after (conn : Conn) (net : Net σ) :
    oneRequest handle conn (net.after sent calls) =
      shift (putThree sent calls) sent calls (oneRequest handle conn net) := by
  cases hn : nextRequest conn.rbuf with
  | none =>
    obtain ⟨conn', h⟩ := @oneRequest_idle σ handle conn hn
    rw [h, h]
    rfl
  | some r =>
    obtain ⟨cmd, k⟩ := r
    rw [oneRequest_some handle _ hn, oneRequest_some handle _ hn]
    refine shift_bind (callHandler_after net cmd) ?_
    rintro ⟨net', err, out⟩
    dsimp only
    split
    · rfl
    · exact shift_bind (stateres_after _ _) fun _ => rfl

theorem requestLoop_after : ∀ (fuel : Nat) (conn : Conn) (net : Net σ),
    requestLoop handle fuel conn (net.after sent calls) =
      shift (putTwo sent calls) sent calls (requestLoop handle fuel conn net)
  | 0, _, _ => rfl
  | fuel + 1, conn, net => by
    unfold requestLoop
    refine shift_bind (oneRequest_after conn net) ?_
    rintro ⟨conn', net', again⟩
    cases again with
    | false => rfl
    | true => exact requestLoop_after fuel conn' net'

theorem tryFillBuffer_after (conn : Conn) (net : Net σ) :
    tryFillBuffer handle conn (net.after sent calls) =
      shift (putThree sent calls) sent calls (tryFillBuffer handle conn net) := by
  unfold tryFillBuffer
  refine shift_bind (shift_faultIn net _) ?_
  intro _
  rcases hr : retry net.reads with ⟨rv, reads⟩
  have hr' : retry (net.after sent calls).reads = (rv, reads) := hr
  rw [hr']
  cases rv with
  | eagain | eintr | fail => rfl
  | count n =>
    dsimp only
    have hinbox : (net.after sent calls).inbox = net.inbox := rfl
    rw [hinbox]
    split
    · rfl
    · refine shift_bind (shift_faultIn { net with reads := reads, inbox := _ } _) ?_
      intro _
      exact shift_bind (requestLoop_after _ _ { net with reads := reads, inbox := _ }) fun _ => rfl

theorem fillLoop_after : ∀ (fuel : Nat) (conn : Conn) (net : Net σ),
    fillLoop handle fuel conn (net.after sent calls) =
      shift (putTwo sent calls) sent calls (fillLoop handle fuel conn net)
  | 0, _, _ => rfl
  | fuel + 1, conn, net => by
    unfold fillLoop
    refine shift_bind (tryFillBuffer_after conn net) ?_
    rintro ⟨conn', net', again⟩
    cases again with
    | false => rfl
    | true => exact fillLoop_after fuel conn' net'

/-- **A call keeps the record it starts with.** -/
theorem connectionIo_after (conn : Conn) (net : Net σ) :
    connectionIo handle conn (net.after sent calls) =
      shift (putTwo sent calls) sent calls (connectionIo handle conn net) := by
  unfold connectionIo
  cases conn.state with
  | STATE_REQ => exact fillLoop_after _ conn net
  | STATE_RES => exact stateres_after conn net
  | STATE_END => rfl

/-! ## What the handler preserves -/

/-- What is left behind: `P` of the record of a result, `P` or `Q` of the record of a fault. -/
def Leaves {α : Type} (P : Net σ → Prop) (Q : Fault → Net σ → Prop) (netOf : α → Net σ) :
    IoRes σ α → Prop
  | .ok a => P (netOf a)
  | .error (f, net) => P net ∨ Q f net

theorem Leaves.bind {α β : Type} {P : Net σ → Prop} {Q : Fault → Net σ → Prop} {p : α → Net σ}
    {q : β → Net σ} {x : IoRes σ α} {f : α → IoRes σ β} (hx : Leaves P Q p x)
    (hf : ∀ a, P (p a) → Leaves P Q q (f a)) : Leaves P Q q (x >>= f) := by
  cases x with
  | ok a => exact hf a hx
  | error e => exact hx

theorem leaves_faultIn {α : Type} {P : Net σ → Prop} {Q : Fault → Net σ → Prop} {net : Net σ}
    (h : P net) (x : Res α) : Leaves P Q (fun _ => net) (faultIn net x) := by
  cases x with
  | ok a => exact h
  | error f => exact .inl h

section Leaves

variable {P : Net σ → Prop} {Q : Fault → Net σ → Prop}
  (hsys : ∀ {net net' : Net σ}, P net → net'.db = net.db → net'.calls = net.calls → P net')
  (hcall : ∀ {net : Net σ} (cmd : List Bytes), P net →
    Leaves P Q Prod.fst (callHandler handle net cmd))

include hsys in
theorem tryFlushBuffer_leaves {conn : Conn} {net : Net σ} (h : P net) :
    Leaves P Q (fun r => r.2.1) (tryFlushBuffer conn net) := by
  unfold tryFlushBuffer
  rcases retry net.writes with ⟨rv, writes⟩
  have h' : ∀ sent : Bytes, P { net with writes := writes, sent := sent } :=
    fun sent => hsys h rfl rfl
  cases rv with
  | eagain | eintr | fail => exact h' _
  | count n =>
    refine (leaves_faultIn (h' _) _).bind ?_
    intro _ _
    split <;> exact h' _

include hsys in
theorem flushLoop_leaves : ∀ (fuel : Nat) {conn : Conn} {net : Net σ}, P net →
    Leaves P Q Prod.snd (flushLoop fuel conn net)
  | 0, _, _, h => .inl h
  | fuel + 1, conn, net, h => by
    unfold flushLoop
    refine (tryFlushBuffer_leaves hsys h).bind ?_
    rintro ⟨conn', net', again⟩ h'
    cases again with
    | false => exact h'
    | true => exact flushLoop_leaves fuel h'

include hsys hcall in
theorem oneRequest_leaves {conn : Conn} {net : Net σ} (h : P net) :
    Leaves P Q (fun r => r.2.1) (oneRequest handle conn net) := by
  cases hn : nextRequest conn.rbuf with
  | none =>
    obtain ⟨conn', hidle⟩ := @oneRequest_idle σ handle conn hn
    rw [hidle]
    exact h
  | some r =>
    obtain ⟨cmd, k⟩ := r
    rw [oneRequest_some handle _ hn]
    refine (hcall cmd h).bind ?_
    rintro ⟨net', err, out⟩ h'
    dsimp only
    split
    · exact h'
    · exact (flushLoop_leaves hsys _ h').bind fun _ h'' => h''

include hsys hcall in
theorem requestLoop_leaves : ∀ (fuel : Nat) {conn : Conn} {net : Net σ}, P net →
    Leaves P Q Prod.snd (requestLoop handle fuel conn net)
  | 0, _, _, h => .inl h
  | fuel + 1, conn, net, h => by
    unfold requestLoop
    refine (oneRequest_leaves hsys hcall h).bind ?_
    rintro ⟨conn', net', again⟩ h'
    cases again with
    | false => exact h'
    | true => exact requestLoop_leaves fuel h'

include hsys hcall in
theorem tryFillBuffer_leaves {conn : Conn} {net : Net σ} (h : P net) :
    Leaves P Q (fun r => r.2.1) (tryFillBuffer handle conn net) := by
  unfold tryFillBuffer
  refine (leaves_faultIn h _).bind ?_
  intro _ _
  rcases retry net.reads with ⟨rv, reads⟩
  have h' : ∀ inbox : Bytes, P { net with reads := reads, inbox := inbox } :=
    fun inbox => hsys h rfl rfl
  cases rv with
  | eagain | eintr | fail => exact h' _
  | count n =>
    dsimp only
    split
    · exact h' _
    · refine (leaves_faultIn (h' _) _).bind ?_
      intro _ _
      exact (requestLoop_leaves hsys hcall _ (h' _)).bind fun _ h'' => h''

include hsys hcall in
theorem fillLoop_leaves : ∀ (fuel : Nat) {conn : Conn} {net : Net σ}, P net →
    Leaves P Q Prod.snd (fillLoop handle fuel conn net)
  | 0, _, _, h => .inl h
  | fuel + 1, conn, net, h => by
    unfold fillLoop
    refine (tryFillBuffer_leaves hsys hcall h).bind ?_
    rintro ⟨conn', net', again⟩ h'
    cases again with
    | false => exact h'
    | true => exact fillLoop_leaves fuel h'

include hsys hcall in
/-- **What system calls do not see and `do_request` preserves** is preserved by `connection_io`. -/
theorem connectionIo_leaves {conn : Conn} {net : Net σ} (h : P net) :
    Leaves P Q Prod.snd (connectionIo handle conn net) := by
  unfold connectionIo
  cases conn.state with
  | STATE_REQ => exact fillLoop_leaves hsys hcall _ h
  | STATE_RES => exact flushLoop_leaves hsys _ h
  | STATE_END => exact .inl h

end Leaves

/-! ## The calls, made again -/

variable (handle) in
/-- `do_request(cmd, out)` made again; it has to answer as it did. -/
def Call.redo (db : σ) (call : Call) : Res σ := do
  let (db, code, out) ← handle db call.cmd
  assert (decide (call.answer = some (code, out)))
  return db

theorem Call.redo_of {db db' : σ} {cmd : List Bytes} {code : ResCode} {out : Bytes}
    (h : handle db cmd = .ok (db', code, out)) :
    Call.redo handle db ⟨cmd, some (code, out)⟩ = .ok db' := by
  unfold Call.redo
  rw [h]
  simp

theorem Call.redo_none (db db' : σ) (cmd : List Bytes) :
    Call.redo handle db ⟨cmd, none⟩ ≠ .ok db' := by
  intro h
  obtain ⟨r, -, h⟩ := bind_ok.mp h
  obtain ⟨u, ha, -⟩ := bind_ok.mp h
  exact nomatch of_decide_eq_true (assert_ok.mp ha)

variable (handle) in
/-- The last call, made with the data the others end in, is the one that faults. -/
def Broke (db₀ : σ) (f : Fault) (calls : List Call) : Prop :=
  ∃ before cmd db, calls = before ++ [⟨cmd, none⟩] ∧
    run (Call.redo handle) db₀ before = .ok db ∧ handle db cmd = .error f

/-- **The calls account for the data.**  Made again one after the other they end in the data that
`connection_io` leaves; when it faults, the last of them is the call that faults, or the fault is
none of the handler's. -/
theorem connectionIo_redo (conn : Conn) (net : Net σ) (hcalls : net.calls = []) :
    Leaves (fun net' => run (Call.redo handle) net.db net'.calls = .ok net'.db)
      (fun f net' => Broke handle net.db f net'.calls) Prod.snd (connectionIo handle conn net) := by
  apply connectionIo_leaves
  · intro net₁ net₂ h hdb hc
    rw [hdb, hc]
    exact h
  · intro net₁ cmd h
    unfold callHandler
    cases hh : handle net₁.db cmd with
    | error f => exact .inr ⟨net₁.calls, cmd, net₁.db, rfl, h, hh⟩
    | ok r =>
      obtain ⟨db, code, out⟩ := r
      exact run_append_ok.mpr ⟨net₁.db, h, run_cons_ok.mpr ⟨db, Call.redo_of hh, rfl⟩⟩
  · rw [hcalls]
    rfl

end Io

end RedisServer
