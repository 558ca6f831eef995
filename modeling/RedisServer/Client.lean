import RedisServer.Framing

/-!
# client.cpp — the client's side of the protocol

`sendReq` encodes a request and writes it; `onResponse` reads the value in a response and returns
how many bytes it took.  What `onResponse` prints is left out, but not the accesses printing makes.

Results:
* `sendReq_ok` — what `send_req` sends without error is one frame with exactly the arguments in it;
* `sendReq_delivered_iff` — the server's `parse_req` reads them back if and only if there are at
  most `k_max_args` of them.
-/

set_option autoImplicit false

namespace RedisServer

open Runs

/-- The loop of `write_all`: its result, and the bytes that were written. -/
def writeAll : List SysRes → Bytes → Bytes → Res (Int × Bytes)
  | _, [], sent => .ok (0, sent)
  | .count n :: writes, b :: buf, sent =>
    let rv := min n (b :: buf).length
    if rv = 0 then .ok (-1, sent)
    else do
      assert (decide (rv ≤ (b :: buf).length))
      writeAll writes ((b :: buf).drop rv) (sent ++ (b :: buf).take rv)
  | .eintr :: writes, buf, sent => writeAll writes buf sent
  | _, _, sent => .ok (-1, sent)

/-- The first loop of `send_req`; `len` is a `uint32_t`. -/
def sendLen : List Bytes → Nat → Option Nat
  | [], len => some len
  | arg :: cmd, len =>
    let len := (len + (4 + arg.length)) % 2 ^ 32
    if len > maxMsg then none else sendLen cmd len

/-- The second loop of `send_req`; `wbuf` is what lies before `cur`. -/
def sendArgs : List Bytes → Bytes → Option Bytes
  | [], wbuf => some wbuf
  | arg :: cmd, wbuf =>
    let arglen := arg.length % 2 ^ 32
    if wbuf.length + 4 + arglen > bufSize then none
    else sendArgs cmd (wbuf ++ le32 arglen ++ arg.take arglen)

/-- `send_req`: its result, and the bytes that were written. -/
def sendReq (cmd : List Bytes) (writes : List SysRes) : Res (Int × Bytes) :=
  match sendLen cmd 4 with
  | none => .ok (-1, [])
  | some len =>
    if len > maxMsg then .ok (-1, [])
    else
      match sendArgs cmd (le32 len ++ le32 cmd.length) with
      | none => .ok (-1, [])
      | some wbuf =>
        -- beyond `cur` nothing was stored in wbuf
        if 4 + len > wbuf.length then .error .outOfBounds
        else writeAll writes (wbuf.take (4 + len)) []

/-- A `uint32_t` or `size_t` returned as an `int32_t`. -/
def toInt32 (n : Nat) : Int :=
  if n % 2 ^ 32 < 2 ^ 31 then (n % 2 ^ 32 : Nat) else (n % 2 ^ 32 : Nat) - 2 ^ 32

/-- `printf("%.*s", prec, s)` reads `s` up to a NUL, and at most `prec` bytes of it unless `prec` is
negative as an `int`. -/
def printStr (s : Bytes) (prec : Nat) : Res Unit :=
  if 0 ∈ s ∨ prec < 2 ^ 31 ∧ prec ≤ s.length then .ok () else .error .outOfBounds

/-- The loop over the elements of an array, and the return behind it.  `size - arr_bytes` is a
`size_t`: when it underflows, it bounds nothing. -/
def onElements (onResponse : Bytes → Res Int) (data : Bytes) : Nat → Nat → Res Int
  | 0, arrBytes => .ok (toInt32 arrBytes)
  | n + 1, arrBytes =>
    if arrBytes > data.length then .error .outOfBounds
    else do
      let rv ← onResponse (data.drop arrBytes)
      if rv < 0 then return rv
      else onElements onResponse data n (arrBytes + rv.toNat)

/-- `on_response`; an array takes five bytes at least, so that the calls nest no deeper than there
are bytes.  `9 + len` and `5 + len` are of type `uint32_t`. -/
def onResponse : Nat → Bytes → Res Int
  | 0, _ => .error .outOfFuel
  | _ + 1, [] => .ok (-1)
  | fuel + 1, tag :: rest => do
    let data := tag :: rest
    if tag = SER_NIL then return 1
    else if tag = SER_ERR then
      if data.length < 9 then return -1
      let _code ← readU32 data 1
      let len ← readU32 data 5
      if data.length < (9 + len) % 2 ^ 32 then return -1
      printStr (data.drop 9) len
      return toInt32 (9 + len)
    else if tag = SER_ARR then
      if data.length < 5 then return -1
      let len ← readU32 data 1
      onElements (onResponse fuel) data len 5
    else if tag = SER_INT then
      if data.length < 9 then return -1
      return 9
    else if tag = SER_STR then
      if data.length < 5 then return -1
      let len ← readU32 data 1
      if data.length < (5 + len) % 2 ^ 32 then return -1
      -- std::string out(&data[5], len)
      if data.length < 5 + len then .error .outOfBounds
      return toInt32 (5 + len)
    else return -1

/-- `on_response(out.data(), out.size())` -/
def readResponse (out : Bytes) : Res Int := onResponse (out.length + 1) out

/-! ## What is sent -/

/-- The arguments of a request, each behind its length. -/
def encodeArgs : List Bytes → Bytes
  | [] => []
  | arg :: cmd => le32 arg.length ++ arg ++ encodeArgs cmd

/-- A request in its frame. -/
def encodeReq (cmd : List Bytes) : Bytes :=
  le32 (4 + (encodeArgs cmd).length) ++ (le32 cmd.length ++ encodeArgs cmd)

theorem encodeArgs_length_ge : ∀ (cmd : List Bytes), 4 * cmd.length ≤ (encodeArgs cmd).length
  | [] => Nat.le_refl 0
  | arg :: cmd => by
    have := encodeArgs_length_ge cmd
    simp only [encodeArgs, List.length_append, List.length_cons, le32_length]
    omega

theorem writeAll_ok : ∀ {writes : List SysRes} {buf sent sent' : Bytes},
    writeAll writes buf sent = .ok (0, sent') → sent' = sent ++ buf
  | writes, [], sent, sent', h => by
    unfold writeAll at h
    cases h
    rw [List.append_nil]
  | .count n :: writes, b :: buf, sent, sent', h => by
    unfold writeAll at h
    dsimp only at h
    split at h
    · cases h
    · obtain ⟨u, -, h⟩ := bind_ok.mp h
      rw [writeAll_ok h, List.append_assoc, List.take_append_drop]
  | .eintr :: writes, b :: buf, sent, sent', h => by
    unfold writeAll at h
    exact writeAll_ok h
  | [], b :: buf, sent, sent', h => by cases h
  | .eagain :: _, b :: buf, sent, sent', h => by cases h
  | .fail :: _, b :: buf, sent, sent', h => by cases h

theorem sendArgs_ok : ∀ {cmd : List Bytes} {wbuf wbuf' : Bytes}, (∀ a ∈ cmd, a.length < 2 ^ 32) →
    sendArgs cmd wbuf = some wbuf' →
    wbuf' = wbuf ++ encodeArgs cmd ∧ (wbuf.length ≤ bufSize → wbuf'.length ≤ bufSize)
  | [], wbuf, wbuf', _, h => by
    cases h
    exact ⟨(List.append_nil _).symm, id⟩
  | arg :: cmd, wbuf, wbuf', hs, h => by
    have harg : arg.length % 2 ^ 32 = arg.length := Nat.mod_eq_of_lt (hs arg List.mem_cons_self)
    unfold sendArgs at h
    simp only [harg, List.take_length] at h
    split at h
    · cases h
    · obtain ⟨heq, hle⟩ := sendArgs_ok (fun a ha => hs a (List.mem_cons_of_mem _ ha)) h
      refine ⟨?_, fun _ => hle ?_⟩
      · rw [heq, encodeArgs]
        simp only [List.append_assoc]
      · simp only [List.length_append, le32_length]
        omega

/-- The running total does not wrap around. -/
theorem sendLen_ok : ∀ {cmd : List Bytes} {len len' : Nat},
    len + (encodeArgs cmd).length < 2 ^ 32 → sendLen cmd len = some len' →
    len' = len + (encodeArgs cmd).length
  | [], len, len', _, h => by
    cases h
    rfl
  | arg :: cmd, len, len', hlt, h => by
    simp only [encodeArgs, List.length_append, le32_length] at hlt ⊢
    unfold sendLen at h
    have hmod : (len + (4 + arg.length)) % 2 ^ 32 = len + (4 + arg.length) :=
      Nat.mod_eq_of_lt (by omega)
    simp only [hmod] at h
    split at h
    · cases h
    · rw [sendLen_ok (by omega) h]
      omega

/-- **`send_req`** that returns 0 has written the request in one frame, and it fits a buffer. -/
theorem sendReq_ok {cmd : List Bytes} {writes : List SysRes} {sent : Bytes}
    (hs : ∀ a ∈ cmd, a.length < 2 ^ 32) (h : sendReq cmd writes = .ok (0, sent)) :
    sent = encodeReq cmd ∧ 4 + (encodeArgs cmd).length ≤ maxMsg := by
  unfold sendReq at h
  split at h
  · cases h
  rename_i len hlen
  split at h
  · cases h
  split at h
  · cases h
  rename_i wbuf hargs
  obtain ⟨hw, hle⟩ := sendArgs_ok hs hargs
  have hle := hle (by simp only [List.length_append, le32_length]; decide)
  have hsum : 8 + (encodeArgs cmd).length ≤ 4 + maxMsg := by
    rw [hw, bufSize_eq] at hle
    simpa only [List.length_append, le32_length] using hle
  have hlen' := sendLen_ok (by have : maxMsg = 4096 := rfl; omega) hlen
  split at h
  · cases h
  · have hfull : wbuf.length = 4 + len := by
      rw [hw, hlen']
      simp only [List.length_append, le32_length]
      omega
    rw [← hfull, List.take_length] at h
    refine ⟨?_, by omega⟩
    rw [writeAll_ok h, hw, hlen', List.nil_append, List.append_assoc]
    rfl

/-! ## What arrives -/

theorem readU32_append {pre : Bytes} {n : Nat} (h : n < 2 ^ 32) (rest : Bytes) :
    readU32 (pre ++ (le32 n ++ rest)) pre.length = .ok n := by
  have hread := readU32_le32 h rest
  unfold readU32 at hread ⊢
  rwa [List.drop_left]

/-- Every argument lies in the encoding, behind its length. -/
theorem mem_encodeArgs_length : ∀ {cmd : List Bytes} {a : Bytes}, a ∈ cmd →
    4 + a.length ≤ (encodeArgs cmd).length
  | arg :: cmd, a, ha => by
    simp only [encodeArgs, List.length_append, le32_length]
    rcases List.mem_cons.mp ha with rfl | ha
    · omega
    · have := mem_encodeArgs_length ha
      omega

/-- The loop of `parse_req` reads the arguments that follow `pre`. -/
theorem parseItems_encodeArgs : ∀ {cmd acc : List Bytes} {pre : Bytes},
    (∀ a ∈ cmd, 4 + a.length < 2 ^ 32) →
    parseItems (pre ++ encodeArgs cmd) cmd.length pre.length acc =
      .ok (some ((pre ++ encodeArgs cmd).length, acc ++ cmd))
  | [], acc, pre, _ => by simp [parseItems, encodeArgs]
  | arg :: cmd, acc, pre, hs => by
    have harg := hs arg List.mem_cons_self
    have hdata : pre ++ encodeArgs (arg :: cmd) =
        (pre ++ (le32 arg.length ++ arg)) ++ encodeArgs cmd := by
      simp only [encodeArgs, List.append_assoc]
    have hpre : (pre ++ (le32 arg.length ++ arg)).length = pre.length + 4 + arg.length := by
      simp only [List.length_append, le32_length]
      omega
    have hread : readU32 (pre ++ encodeArgs (arg :: cmd)) pre.length = .ok arg.length := by
      rw [encodeArgs, List.append_assoc]
      exact readU32_append (by omega) _
    have htake : ((pre ++ encodeArgs (arg :: cmd)).drop (pre.length + 4)).take arg.length = arg := by
      have hassoc : pre ++ encodeArgs (arg :: cmd) =
          (pre ++ le32 arg.length) ++ (arg ++ encodeArgs cmd) := by
        simp only [encodeArgs, List.append_assoc]
      have hlen : (pre ++ le32 arg.length).length = pre.length + 4 := by
        rw [List.length_append, le32_length]
      rw [hassoc, ← hlen, List.drop_left, List.take_left]
    have htotal : pre.length + 4 + arg.length ≤ (pre ++ encodeArgs (arg :: cmd)).length := by
      rw [hdata, List.length_append, hpre]
      omega
    show parseItems _ (cmd.length + 1) _ _ = _
    unfold parseItems
    rw [if_neg (by omega), hread, ok_bind, if_neg (by omega), readBytes_of (by omega), htake, ok_bind,
      Nat.mod_eq_of_lt harg, ← Nat.add_assoc, hdata, ← hpre,
      parseItems_encodeArgs fun a ha => hs a (List.mem_cons_of_mem _ ha), List.append_assoc acc]
    rfl

/-- `parse_req` reads a request of at most `k_max_args` arguments back. -/
theorem parseReq_encodeReq {cmd : List Bytes} (hs : ∀ a ∈ cmd, 4 + a.length < 2 ^ 32)
    (hn : cmd.length ≤ maxArgs) :
    parseReq (le32 cmd.length ++ encodeArgs cmd) = .ok (some cmd) := by
  have hlt : cmd.length < 2 ^ 32 := Nat.lt_of_le_of_lt hn (by decide)
  have hitems : parseItems (le32 cmd.length ++ encodeArgs cmd) cmd.length (le32 cmd.length).length [] =
      .ok (some ((le32 cmd.length ++ encodeArgs cmd).length, [] ++ cmd)) := parseItems_encodeArgs hs
  unfold parseReq
  rw [if_neg (by simp), readU32_le32 hlt, ok_bind, if_neg (Nat.not_lt.mpr hn)]
  rw [le32_length] at hitems
  rw [hitems, ok_bind, List.nil_append]
  simp

/-- The bytes are one frame that `one_request` takes off the buffer, and `parse_req` finds exactly
these arguments in it. -/
structure Delivered (cmd : List Bytes) (sent : Bytes) : Prop where
  len : readU32 sent 0 = .ok (sent.length - 4)
  whole : 4 ≤ sent.length
  max : sent.length - 4 ≤ maxMsg
  parsed : parseReq (sent.drop 4) = .ok (some cmd)

theorem Delivered.next {cmd : List Bytes} {sent : Bytes} (h : Delivered cmd sent) :
    nextRequest sent = some (cmd, sent.length) := by
  have hw := h.whole
  refine nextRequest_some.mpr ⟨sent.length - 4, by omega, h.len, h.max, by omega, ?_⟩
  rw [List.take_of_length_le (by rw [List.length_drop])]
  exact h.parsed

/-- **Requests arrive unchanged**: what `send_req` has sent without error is one frame that the
server accepts with exactly the arguments sent if and only if there are at most `k_max_args`. -/
theorem sendReq_delivered_iff {cmd : List Bytes} {writes : List SysRes} {sent : Bytes}
    (hs : ∀ a ∈ cmd, a.length < 2 ^ 32) (h : sendReq cmd writes = .ok (0, sent)) :
    Delivered cmd sent ↔ cmd.length ≤ maxArgs := by
  obtain ⟨rfl, hmax⟩ := sendReq_ok hs h
  constructor
  · intro hd
    exact parseReq_length hd.parsed
  · intro hn
    have hbody : (le32 cmd.length ++ encodeArgs cmd).length = 4 + (encodeArgs cmd).length := by
      rw [List.length_append, le32_length]
    have hlen : (encodeReq cmd).length = 4 + (4 + (encodeArgs cmd).length) := by
      rw [encodeReq, List.length_append, le32_length, hbody]
    have hfield : 4 + (encodeArgs cmd).length < 2 ^ 32 := Nat.lt_of_le_of_lt hmax (by decide)
    have hshort : ∀ a ∈ cmd, 4 + a.length < 2 ^ 32 := fun a ha =>
      Nat.lt_of_le_of_lt (mem_encodeArgs_length ha) (by omega)
    refine ⟨?_, by omega, by omega, parseReq_encodeReq hshort hn⟩
    rw [hlen, Nat.add_sub_cancel_left]
    exact readU32_le32 hfield _

theorem sendReq_delivered_zadd :
    Delivered [ascii "zadd", ascii "k", ascii "1", ascii "m"]
        (encodeReq [ascii "zadd", ascii "k", ascii "1", ascii "m"]) ↔
      [ascii "zadd", ascii "k", ascii "1", ascii "m"].length ≤ maxArgs :=
  @sendReq_delivered_iff _ [.count 4100] _ (by decide) (by decide +kernel)

/-- `do_query` wants six arguments, and `send_req` sends them. -/
theorem zquery_is_not_delivered :
    let cmd := [ascii "zquery", ascii "k", ascii "1", ascii "m", ascii "0", ascii "9"]
    sendReq cmd [.count 4100] = .ok (0, encodeReq cmd) ∧
      parseReq ((encodeReq cmd).drop 4) = .ok none ∧ ¬Delivered cmd (encodeReq cmd) := by
  refine ⟨by decide +kernel, by decide +kernel, ?_⟩
  intro hd
  have hlen := parseReq_length hd.parsed
  exact absurd hlen (by decide)

end RedisServer
