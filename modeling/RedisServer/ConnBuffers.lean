import RedisServer.Framing

/-!
# The buffers of a connection, and what it waits for

`Framing` follows the bytes through a connection.  Here are the sizes of the two buffers, and the
frames that are left in `rbuf` when `connection_io` returns.

`stateres` only flushes: when the rest of a response goes out in a later call of `connection_io`,
the connection is back in `STATE_REQ` without a look at `rbuf`, and the event loop polls it for
input only.

Results:
* `connRun_buffers` — in every run both buffers stay within their sizes and nothing but the handler
  ends the process;
* `connRun_never_strands_iff` — a complete frame is left behind exactly if some call of
  `connection_io` finds it in `STATE_RES` and writes the whole rest of the response.
-/

set_option autoImplicit false

namespace RedisServer

open Runs

/-! ## Sizes -/

/-- `wbuf_sent <= wbuf_size <= sizeof(wbuf)`, and both are 0 in `STATE_REQ`. -/
structure Conn.Outgoing (conn : Conn) : Prop where
  sent : conn.wbufSent ≤ conn.wbuf.length
  wbuf : conn.wbuf.length ≤ bufSize
  idle : conn.state = .STATE_REQ → conn.wbuf = [] ∧ conn.wbufSent = 0

theorem Conn.Outgoing.start : Conn.Outgoing {} := ⟨Nat.le_refl 0, Nat.zero_le _, fun _ => ⟨rfl, rfl⟩⟩

theorem Conn.Outgoing.close {conn : Conn} (h : conn.Outgoing) : conn.closed.Outgoing :=
  ⟨h.sent, h.wbuf, nofun⟩

theorem Conn.Outgoing.queued {conn : Conn} (h : conn.wbufSent = 0) (out : Bytes) (k : Nat) :
    (conn.queued out k).Outgoing where
  sent := h ▸ Nat.zero_le _
  wbuf := by
    have := answerOf_length out
    simp only [Conn.queued, framed, List.length_append, bufSize_eq]
    show 4 + _ ≤ _
    omega
  idle := nofun

section Io

variable {σ : Type} {conn conn' : Conn} {net net' : Net σ} {again : Bool}

theorem faultIn_ok {α : Type} {x : Res α} {a : α} : faultIn net x = .ok a ↔ x = .ok a := by
  cases x <;> simp [faultIn]

theorem tryFlushBuffer_outgoing (h : conn.Outgoing)
    (hf : tryFlushBuffer conn net = .ok (conn', net', again)) : conn'.Outgoing := by
  unfold tryFlushBuffer at hf
  rcases hr : retry net.writes with ⟨rv, writes⟩
  rw [hr] at hf
  cases rv with
  | eagain => cases hf; exact h
  | eintr => cases hf; exact h.close
  | fail => cases hf; exact h.close
  | count n =>
    dsimp only at hf
    obtain ⟨u, hle, hf⟩ := bind_ok.mp hf
    have hle := of_decide_eq_true (assert_ok.mp (faultIn_ok.mp hle))
    split at hf
    · cases hf
      exact ⟨Nat.le_refl 0, Nat.zero_le _, fun _ => ⟨rfl, rfl⟩⟩
    · rename_i hfull
      cases hf
      refine ⟨hle, h.wbuf, ?_⟩
      intro hs
      obtain ⟨hw, h0⟩ := h.idle hs
      simp [hw, h0] at hfull

theorem flushLoop_outgoing : ∀ (fuel : Nat) {conn : Conn} {net : Net σ}, conn.Outgoing →
    flushLoop fuel conn net = .ok (conn', net') → conn'.Outgoing
  | 0, _, _, _, hf => by cases hf
  | fuel + 1, conn, net, h, hf => by
    obtain ⟨⟨conn₁, net₁, again⟩, h₁, hf⟩ := bind_ok.mp hf
    have h' := tryFlushBuffer_outgoing h h₁
    cases again with
    | true => exact flushLoop_outgoing fuel h' hf
    | false => cases hf; exact h'

variable {handle : σ → List Bytes → Res (σ × ResCode × Bytes)}

theorem oneRequest_outgoing (h : conn.Outgoing) (hs : conn.state = .STATE_REQ)
    (ho : oneRequest handle conn net = .ok (conn', net', again)) : conn'.Outgoing := by
  cases hn : nextRequest conn.rbuf with
  | none =>
    rcases oneRequest_none handle net hn with ⟨heq, -⟩ | heq
    · cases heq.symm.trans ho; exact h
    · cases heq.symm.trans ho; exact h.close
  | some r =>
    obtain ⟨cmd, k⟩ := r
    rw [oneRequest_some handle net hn] at ho
    obtain ⟨⟨net₁, err, out⟩, -, ho⟩ := bind_ok.mp ho
    split at ho
    · cases ho; exact h.close
    · obtain ⟨⟨conn₂, net₂⟩, hf, ho⟩ := bind_ok.mp ho
      cases ho
      exact flushLoop_outgoing _ (.queued (h.idle hs).2 out k) hf

/-- Another request is executed in `STATE_REQ` only. -/
theorem oneRequest_again (ho : oneRequest handle conn net = .ok (conn', net', true)) :
    conn'.state = .STATE_REQ := by
  cases hn : nextRequest conn.rbuf with
  | none =>
    rcases oneRequest_none handle net hn with ⟨heq, -⟩ | heq <;> cases heq.symm.trans ho
  | some r =>
    obtain ⟨cmd, k⟩ := r
    rw [oneRequest_some handle net hn] at ho
    obtain ⟨⟨net₁, err, out⟩, -, ho⟩ := bind_ok.mp ho
    split at ho
    · cases ho
    · obtain ⟨⟨conn₂, net₂⟩, -, ho⟩ := bind_ok.mp ho
      obtain ⟨rfl, h⟩ := Prod.mk.inj (Except.ok.inj ho)
      exact of_decide_eq_true (Prod.mk.inj h).2

theorem requestLoop_outgoing : ∀ (fuel : Nat) {conn : Conn} {net : Net σ}, conn.Outgoing →
    conn.state = .STATE_REQ → requestLoop handle fuel conn net = .ok (conn', net') →
    conn'.Outgoing
  | 0, _, _, _, _, hr => by cases hr
  | fuel + 1, conn, net, h, hs, hr => by
    obtain ⟨⟨conn₁, net₁, again⟩, h₁, hr⟩ := bind_ok.mp hr
    have h' := oneRequest_outgoing h hs h₁
    cases again with
    | true => exact requestLoop_outgoing fuel h' (oneRequest_again h₁) hr
    | false => cases hr; exact h'

theorem requestLoop_state : ∀ (fuel : Nat) {conn : Conn} {net : Net σ},
    requestLoop handle fuel conn net = .ok (conn', net') → conn'.state = .STATE_REQ →
    ∃ conn₁ net₁, oneRequest handle conn₁ net₁ = .ok (conn', net', false)
  | 0, _, _, hr, _ => by cases hr
  | fuel + 1, conn, net, hr, hs => by
    obtain ⟨⟨conn₁, net₁, again⟩, h₁, hr⟩ := bind_ok.mp hr
    cases again with
    | true => exact requestLoop_state fuel hr hs
    | false => cases hr; exact ⟨conn, net, h₁⟩

theorem tryFillBuffer_ok (hf : tryFillBuffer handle conn net = .ok (conn', net', again)) :
    again = false ∧ (conn' = conn ∨ conn' = conn.closed) ∨
      (again = true ↔ conn'.state = .STATE_REQ) ∧ ∃ rbuf net₁,
        requestLoop handle (rbuf.length + 1) { conn with rbuf := rbuf } net₁ = .ok (conn', net') := by
  unfold tryFillBuffer at hf
  obtain ⟨u, -, hf⟩ := bind_ok.mp hf
  rcases hr : retry net.reads with ⟨rv, reads⟩
  simp only [hr] at hf
  cases rv with
  | eagain => cases hf; exact .inl ⟨rfl, .inl rfl⟩
  | eintr => cases hf; exact .inl ⟨rfl, .inr rfl⟩
  | fail => cases hf; exact .inl ⟨rfl, .inr rfl⟩
  | count n =>
    dsimp only at hf
    split at hf
    · cases hf; exact .inl ⟨rfl, .inr rfl⟩
    · obtain ⟨u, -, hf⟩ := bind_ok.mp hf
      obtain ⟨⟨conn₁, net₁⟩, h₁, hf⟩ := bind_ok.mp hf
      obtain ⟨rfl, hpair⟩ := Prod.mk.inj (Except.ok.inj hf)
      obtain ⟨rfl, rfl⟩ := Prod.mk.inj hpair
      exact .inr ⟨decide_eq_true_iff, _, _, h₁⟩

theorem tryFillBuffer_outgoing (h : conn.Outgoing) (hs : conn.state = .STATE_REQ)
    (hf : tryFillBuffer handle conn net = .ok (conn', net', again)) :
    conn'.Outgoing ∧ (again = true → conn'.state = .STATE_REQ) := by
  rcases tryFillBuffer_ok hf with ⟨rfl, rfl | rfl⟩ | ⟨hagain, rbuf, net₁, hr⟩
  · exact ⟨h, nofun⟩
  · exact ⟨h.close, nofun⟩
  · have h' : Conn.Outgoing { conn with rbuf := rbuf } := ⟨h.sent, h.wbuf, h.idle⟩
    exact ⟨requestLoop_outgoing _ h' hs hr, hagain.mp⟩

theorem fillLoop_outgoing : ∀ (fuel : Nat) {conn : Conn} {net : Net σ}, conn.Outgoing →
    conn.state = .STATE_REQ → fillLoop handle fuel conn net = .ok (conn', net') → conn'.Outgoing
  | 0, _, _, _, _, hf => by cases hf
  | fuel + 1, conn, net, h, hs, hf => by
    obtain ⟨⟨conn₁, net₁, again⟩, h₁, hf⟩ := bind_ok.mp hf
    obtain ⟨h', hs'⟩ := tryFillBuffer_outgoing h hs h₁
    cases again with
    | true => exact fillLoop_outgoing fuel h' (hs' rfl) hf
    | false => cases hf; exact h'

theorem connectionIo_outgoing (h : conn.Outgoing)
    (hc : connectionIo handle conn net = .ok (conn', net')) : conn'.Outgoing := by
  unfold connectionIo at hc
  split at hc
  · rename_i hs
    exact fillLoop_outgoing _ h hs hc
  · exact flushLoop_outgoing _ h hc
  · cases hc

/-- What one call of `connection_io` preserves, the calls of a run preserve. -/
theorem connRun_invariant {I : Conn → Prop}
    (hstep : ∀ {conn conn' : Conn} {net net' : Net σ}, I conn →
      connectionIo handle conn net = .ok (conn', net') → I conn') :
    ∀ (script : List (IoCall σ)) {conn : Conn} {net : Net σ}, I conn →
      connRun handle conn net script = .ok (conn', net') → I conn'
  | [], _, _, h, hr => by cases hr; exact h
  | call :: calls, conn, net, h, hr => by
    unfold connRun at hr
    split at hr
    · cases hr; exact h
    · obtain ⟨⟨conn₁, net₁⟩, h₁, hr⟩ := bind_ok.mp hr
      exact connRun_invariant hstep calls (hstep h h₁) hr

/-- **The buffers.** The peer sends `S`; the script fixes what every `read` and `write` returns.
After every call of `connection_io` both buffers are within their sizes, and in `STATE_REQ` the
response is out and `rbuf` has room.  A run that ends early does so in the handler, whose call is
the last one entered: no access leaves a buffer, no assertion fails, nothing is read into a full
`rbuf`. -/
theorem connRun_buffers (handle : σ → List Bytes → Res (σ × ResCode × Bytes)) (S : Bytes) (db : σ)
    (script : List (IoCall σ)) :
    match connRun handle {} { db := db, inbox := S } script with
    | .ok (conn, _) =>
      (conn.wbufSent ≤ conn.wbuf.length ∧ conn.wbuf.length ≤ bufSize) ∧
        (conn.state = .STATE_REQ →
          (conn.wbuf.length = 0 ∧ conn.wbufSent = 0) ∧ conn.rbuf.length < bufSize)
    | .error (f, net) =>
      ∃ db cmd, net.calls.getLast? = some ⟨cmd, none⟩ ∧ handle db cmd = .error f := by
  have h : Outcome handle S (fun r => Settled S r.1 r.2)
      (connRun handle {} { db := db, inbox := S } script) := connRun_spec script (.start S db)
  cases hr : connRun handle {} { db := db, inbox := S } script with
  | error e =>
    rw [hr] at h
    exact h.2
  | ok r =>
    obtain ⟨conn, net⟩ := r
    rw [hr] at h
    have ho : conn.Outgoing := connRun_invariant connectionIo_outgoing script .start hr
    refine ⟨⟨ho.sent, ho.wbuf⟩, ?_⟩
    intro hs
    obtain ⟨hw, h0⟩ := ho.idle hs
    obtain ⟨-, hroom⟩ := h.live (by rw [hs]; decide)
    exact ⟨⟨congrArg List.length hw, h0⟩, hroom⟩

/-! ## Frames left in rbuf -/

/-- A complete frame is at the front: its length field and as many bytes. -/
def frameWaiting (rbuf : Bytes) : Bool :=
  match readU32 rbuf 0 with
  | .ok len => decide (4 + len ≤ rbuf.length)
  | .error _ => false

/-- A frame is complete, but only more input makes `connection_io` look at it. -/
def Conn.Stranded (conn : Conn) : Prop :=
  conn.state = .STATE_REQ ∧ frameWaiting conn.rbuf = true

instance (conn : Conn) : Decidable conn.Stranded := inferInstanceAs (Decidable (_ ∧ _))

/-- These results of `write` take all of `remain` bytes. -/
def drains : List SysRes → Nat → Bool
  | .eintr :: rs, remain => drains rs remain
  | .count n :: rs, remain => if remain ≤ n then true else drains rs (remain - n)
  | _, _ => false

/-- The call finishes a response in `STATE_RES` with a complete frame behind it. -/
def Strands (conn : Conn) (call : IoCall σ) : Prop :=
  conn.state = .STATE_RES ∧ frameWaiting conn.rbuf = true ∧
    drains call.writes (conn.wbuf.length - conn.wbufSent) = true

/-- `rbuf_size < 4` or `rbuf_size < 4 + len`. -/
theorem frameWaiting_false {rbuf : Bytes} :
    frameWaiting rbuf = false ↔
      rbuf.length < 4 ∨ ∃ len, readU32 rbuf 0 = .ok len ∧ rbuf.length < 4 + len := by
  unfold frameWaiting
  by_cases h4 : rbuf.length < 4
  · have herr : ∀ len, readU32 rbuf 0 ≠ .ok len := by
      intro len hlen
      have := readU32_ok_iff.mp ⟨len, hlen⟩
      omega
    cases hr : readU32 rbuf 0 with
    | ok len => exact absurd hr (herr len)
    | error e => simp [h4]
  · obtain ⟨len, hlen⟩ := readU32_ok_iff.mpr (by omega : 0 + 4 ≤ rbuf.length)
    simp [hlen, h4]

/-- `one_request` that returns false in `STATE_REQ` has found no complete frame. -/
theorem oneRequest_last (ho : oneRequest handle conn net = .ok (conn', net', false))
    (hs : conn'.state = .STATE_REQ) : frameWaiting conn'.rbuf = false := by
  unfold oneRequest at ho
  split at ho
  · rename_i h4
    cases ho
    exact frameWaiting_false.mpr (.inl h4)
  obtain ⟨len, hlen, ho⟩ := bind_ok.mp ho
  have hlen := faultIn_ok.mp hlen
  split at ho
  · cases ho; cases hs
  split at ho
  · rename_i hl
    cases ho
    exact frameWaiting_false.mpr (.inr ⟨len, hlen, hl⟩)
  obtain ⟨r, -, ho⟩ := bind_ok.mp ho
  cases r with
  | none => cases ho; cases hs
  | some cmd =>
    obtain ⟨⟨net₁, err, out⟩, -, ho⟩ := bind_ok.mp ho
    dsimp only at ho
    split at ho
    · cases ho; cases hs
    · obtain ⟨conn₁, -, ho⟩ := bind_ok.mp ho
      obtain ⟨⟨conn₂, net₂⟩, -, ho⟩ := bind_ok.mp ho
      obtain ⟨rfl, hpair⟩ := Prod.mk.inj (Except.ok.inj ho)
      exact absurd hs (of_decide_eq_false (Prod.mk.inj hpair).2)

/-- Reading strands nothing. -/
theorem tryFillBuffer_drained (hd : frameWaiting conn.rbuf = false)
    (hf : tryFillBuffer handle conn net = .ok (conn', net', again))
    (hs : conn'.state = .STATE_REQ) : frameWaiting conn'.rbuf = false := by
  rcases tryFillBuffer_ok hf with ⟨-, rfl | rfl⟩ | ⟨-, rbuf, net₁, hr⟩
  · exact hd
  · exact hd
  · obtain ⟨conn₁, net₁, ho⟩ := requestLoop_state _ hr hs
    exact oneRequest_last ho hs

theorem fillLoop_drained : ∀ (fuel : Nat) {conn : Conn} {net : Net σ},
    frameWaiting conn.rbuf = false → fillLoop handle fuel conn net = .ok (conn', net') →
    conn'.state = .STATE_REQ → frameWaiting conn'.rbuf = false
  | 0, _, _, _, hf, _ => by cases hf
  | fuel + 1, conn, net, hd, hf, hs => by
    obtain ⟨⟨conn₁, net₁, again⟩, h₁, hf⟩ := bind_ok.mp hf
    cases again with
    | false =>
      cases hf
      exact tryFillBuffer_drained hd h₁ hs
    | true =>
      have hreq : conn₁.state = .STATE_REQ := by
        rcases tryFillBuffer_ok h₁ with ⟨hfalse, -⟩ | ⟨hagain, -⟩
        · cases hfalse
        · exact hagain.mp rfl
      exact fillLoop_drained fuel (tryFillBuffer_drained hd h₁ hreq) hf hs

/-! ## Flushing in a later call -/

theorem drains_retry : ∀ (rs : List SysRes) (remain : Nat), drains rs remain =
    match retry rs with
    | (.count n, rs') => if remain ≤ n then true else drains rs' (remain - n)
    | _ => false
  | [], _ => rfl
  | .eintr :: rs, remain => drains_retry rs remain
  | .count _ :: _, _ => rfl
  | .eagain :: _, _ => rfl
  | .fail :: _, _ => rfl

theorem flushLoop_drains : ∀ (fuel : Nat) {conn : Conn} {net : Net σ},
    conn.state = .STATE_RES → conn.wbufSent ≤ conn.wbuf.length → net.writes.length < fuel →
    ∃ conn' net', flushLoop fuel conn net = .ok (conn', net') ∧ conn'.rbuf = conn.rbuf ∧
      (conn'.state = .STATE_REQ ↔
        drains net.writes (conn.wbuf.length - conn.wbufSent) = true)
  | 0, _, _, _, _, hf => absurd hf (Nat.not_lt_zero _)
  | fuel + 1, conn, net, hs, hle, hf => by
    rw [drains_retry]
    unfold flushLoop tryFlushBuffer
    rcases hr : retry net.writes with ⟨rv, writes⟩
    cases rv with
    | eagain => exact ⟨_, _, rfl, rfl, by simp [hs]⟩
    | eintr => exact ⟨_, _, rfl, rfl, by simp⟩
    | fail => exact ⟨_, _, rfl, rfl, by simp⟩
    | count n =>
      have hlt : writes.length < net.writes.length := by
        have hcount : (retry net.writes).1 = .count n := by rw [hr]
        have hlt := retry_count hcount
        rwa [hr] at hlt
      dsimp only
      generalize hk : min n (conn.wbuf.length - conn.wbufSent) = k
      have hkle : conn.wbufSent + k ≤ conn.wbuf.length := by omega
      rw [decide_eq_true hkle, assert_true]
      simp only [faultIn, ok_bind]
      by_cases hn : conn.wbuf.length - conn.wbufSent ≤ n
      · rw [if_pos (by omega), if_pos hn]
        exact ⟨_, _, rfl, rfl, by simp⟩
      · rw [if_neg (by omega), if_neg hn]
        -- a short write: the loop goes on behind the `n` bytes
        obtain ⟨conn', net', h', hrbuf, hiff⟩ :=
          @flushLoop_drains fuel { conn with wbufSent := conn.wbufSent + k }
            { net with
              writes := writes
              sent := net.sent ++ (conn.wbuf.drop conn.wbufSent).take k } hs hkle
            (Nat.lt_of_lt_of_le hlt (Nat.le_of_lt_succ hf))
        refine ⟨conn', net', h', hrbuf, hiff.trans ?_⟩
        have hrest : conn.wbuf.length - (conn.wbufSent + k) =
            conn.wbuf.length - conn.wbufSent - n := by omega
        show drains writes (conn.wbuf.length - (conn.wbufSent + k)) = true ↔ _
        rw [hrest]

/-! ## The life of a connection -/

theorem connRun_concat (call : IoCall σ) : ∀ (script : List (IoCall σ)) (conn : Conn) (net : Net σ),
    connRun handle conn net (script ++ [call]) = (connRun handle conn net script >>= fun r =>
      if r.1.state = .STATE_END then .ok r
      else connectionIo handle r.1
        { r.2 with db := call.db, reads := call.reads, writes := call.writes })
  | [], conn, net => by
    show connRun handle conn net [call] = if conn.state = .STATE_END then _ else _
    unfold connRun
    split
    · rfl
    · cases connectionIo handle conn _ <;> rfl
  | c :: script, conn, net => by
    show connRun handle conn net (c :: (script ++ [call])) = _
    unfold connRun
    split
    · rename_i hs
      show _ = if conn.state = .STATE_END then _ else _
      rw [if_pos hs]
    · cases hc : connectionIo handle conn _ with
      | error e => rfl
      | ok r => exact connRun_concat call script r.1 r.2

/-- A call that strands does return. -/
theorem Strands.stranded {call : IoCall σ} (handle : σ → List Bytes → Res (σ × ResCode × Bytes))
    (net : Net σ) (h : Strands conn call) (ho : conn.Outgoing) :
    ∃ conn' net', connectionIo handle conn
      { net with db := call.db, reads := call.reads, writes := call.writes } = .ok (conn', net') ∧
      conn'.Stranded := by
  obtain ⟨hs, hw, hd⟩ := h
  obtain ⟨conn', net', heq, hrbuf, hiff⟩ := @flushLoop_drains _ _ conn
    { net with db := call.db, reads := call.reads, writes := call.writes } hs ho.sent
    (Nat.lt_succ_self _)
  refine ⟨conn', net', ?_, hiff.mpr hd, hrbuf ▸ hw⟩
  unfold connectionIo
  rw [hs]
  exact heq

/-- Every other call leaves no complete frame behind. -/
theorem connectionIo_drained {call : IoCall σ} (h : ¬Strands conn call) (ho : conn.Outgoing)
    (hn : ¬conn.Stranded) (hc : connectionIo handle conn
      { net with db := call.db, reads := call.reads, writes := call.writes } = .ok (conn', net')) :
    ¬conn'.Stranded := by
  rintro ⟨hs', hw'⟩
  unfold connectionIo at hc
  split at hc
  · rename_i hs
    have hd : frameWaiting conn.rbuf = false := Bool.eq_false_iff.mpr fun hw => hn ⟨hs, hw⟩
    exact Bool.eq_false_iff.mp (fillLoop_drained _ hd hc hs') hw'
  · rename_i hs
    obtain ⟨conn₁, net₁, heq, hrbuf, hiff⟩ := @flushLoop_drains _ _ conn
      { net with db := call.db, reads := call.reads, writes := call.writes } hs ho.sent
      (Nat.lt_succ_self _)
    cases heq.symm.trans hc
    exact h ⟨hs, hrbuf ▸ hw', hiff.mp hs'⟩
  · cases hc

/-- **No request is stranded** in a run, after any of its calls of `connection_io`, if and only if
no call finishes a response in `STATE_RES` with a complete frame behind it. -/
theorem connRun_never_strands_iff (handle : σ → List Bytes → Res (σ × ResCode × Bytes)) (S : Bytes)
    (db : σ) (script : List (IoCall σ)) :
    (∀ pre conn net, pre <+: script →
        connRun handle {} { db := db, inbox := S } pre = .ok (conn, net) →
        conn.state = .STATE_REQ → frameWaiting conn.rbuf = false) ↔
      ∀ pre call conn net, pre ++ [call] <+: script →
        connRun handle {} { db := db, inbox := S } pre = .ok (conn, net) → ¬Strands conn call := by
  have ho : ∀ {pre conn net}, connRun handle {} { db := db, inbox := S } pre = .ok (conn, net) →
      conn.Outgoing := fun hr => connRun_invariant connectionIo_outgoing _ .start hr
  constructor
  · intro hnone pre call conn net hpre hr hstr
    obtain ⟨conn', net', hc, hs', hw'⟩ := hstr.stranded handle net (ho hr)
    have hr' : connRun handle {} { db := db, inbox := S } (pre ++ [call]) = .ok (conn', net') := by
      rw [connRun_concat, hr]
      show (if conn.state = .STATE_END then _ else _) = _
      rw [if_neg (by rw [hstr.1]; decide), hc]
    exact Bool.eq_false_iff.mp (hnone _ _ _ hpre hr' hs') hw'
  · intro hnever pre conn net hpre hr
    suffices hn : ¬conn.Stranded from fun hs => Bool.eq_false_iff.mpr fun hw => hn ⟨hs, hw⟩
    induction pre using List.reverseRecOn generalizing conn net with
    | nil =>
      cases hr
      decide
    | append_singleton pre call ih =>
      rw [connRun_concat] at hr
      obtain ⟨⟨conn₁, net₁⟩, h₁, hr⟩ := bind_ok.mp hr
      have hn₁ := ih _ _ ((List.prefix_append _ _).trans hpre) h₁
      split at hr
      · cases hr
        exact hn₁
      · exact connectionIo_drained (hnever _ _ _ _ hpre h₁) (ho h₁) hn₁ hr

/-- Two pipelined requests: both arrive with the first call of `connection_io`, the answer to the
first one goes out in the second call. -/
theorem second_request_is_stranded :
    (connRun (Host.serve ⟨9, 0⟩) {}
      { db := {}, inbox := le32 12 ++ (le32 1 ++ le32 4 ++ ascii "keys") ++
          (le32 12 ++ (le32 1 ++ le32 4 ++ ascii "keys")) }
      [⟨{}, [.count 4100], []⟩, ⟨{}, [], [.count 4100]⟩]).toOption.map
        (fun r => (r.1.state, frameWaiting r.1.rbuf)) = some (.STATE_REQ, true) := by
  decide +kernel

end Io

end RedisServer
