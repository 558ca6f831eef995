import RedisServer.Client

/-!
# What parse_req accepts

A request is a count and that many arguments, each behind its length (`IsRequest`).  `parse_req`
checks an item against the end of the buffer in `size_t`, but steps over it by `4 + arg_len`, a
`uint32_t`: the sum wraps around when the argument has `2 ^ 32 - 4` bytes or more.

Results:
* `parseReq_sound`, `parseReq_complete` — without such an item `parse_req` accepts the requests and
  nothing else;
* `parseReq_exact` — and a request with such an item it does not accept.
-/

set_option autoImplicit false

namespace RedisServer

open Runs

/-- A count `n ≤ k_max_args`, then `n` items with a length and that many bytes, then nothing. -/
def IsRequest (data : Bytes) (cmd : List Bytes) : Prop :=
  cmd.length ≤ maxArgs ∧ (∀ a ∈ cmd, a.length < 2 ^ 32) ∧
    data = le32 cmd.length ++ encodeArgs cmd

/-- How often the body of the loop over `n` items is entered. -/
def itemRounds (data : Bytes) : Nat → Nat → Nat
  | 0, _ => 0
  | n + 1, pos =>
    match readU32 data pos with
    | .error _ => 1
    | .ok argLen =>
      if pos + 4 + argLen > data.length then 1
      else 1 + itemRounds data n (pos + (4 + argLen) % 2 ^ 32)

/-- `parse_req` does what it is for: it reads inside the buffer only, in at most as many rounds as
the count announces, and accepts exactly the requests. -/
structure ParsesExactly (data : Bytes) : Prop where
  inside : ∃ r, parseReq data = .ok r
  rounds : ∀ n, readU32 data 0 = .ok n → itemRounds data n 4 ≤ n
  accepts : ∀ cmd, parseReq data = .ok (some cmd) ↔ IsRequest data cmd

/-- None of the next `n` items is one that fits the buffer and makes `4 + arg_len` wrap around. -/
def ShortItems (data : Bytes) : Nat → Nat → Prop
  | 0, _ => True
  | n + 1, pos => ∀ argLen, readU32 data pos = .ok argLen → pos + 4 + argLen ≤ data.length →
    4 + argLen < 2 ^ 32 ∧ ShortItems data n (pos + 4 + argLen)

/-- No such item is met in the whole buffer. -/
def NoLongItem (data : Bytes) : Prop :=
  ∀ n, readU32 data 0 = .ok n → n ≤ maxArgs → ShortItems data n 4

theorem itemRounds_le (data : Bytes) : ∀ (n pos : Nat), itemRounds data n pos ≤ n
  | 0, _ => Nat.le_refl 0
  | n + 1, pos => by
    rw [itemRounds]
    split
    · omega
    · split
      · omega
      · rename_i argLen _ _
        have := itemRounds_le data n (pos + (4 + argLen) % 2 ^ 32)
        omega

/-- The four bytes that were read. -/
theorem readU32_drop {data : Bytes} {pos n : Nat} (h : readU32 data pos = .ok n) :
    data.drop pos = le32 n ++ data.drop (pos + 4) := by
  rw [← List.drop_drop]
  unfold readU32 at h
  split at h
  · rename_i b₀ b₁ b₂ b₃ rest hd
    have h₀ := b₀.toNat_lt
    have h₁ := b₁.toNat_lt
    have h₂ := b₂.toNat_lt
    have h₃ := b₃.toNat_lt
    obtain rfl := Except.ok.inj h
    rw [hd]
    simp only [le32, List.drop_succ_cons, List.drop_zero, List.cons_append, List.nil_append,
      List.cons.injEq, ← UInt8.toNat_inj, UInt8.toNat_ofNat', and_true]
    omega
  · cases h

theorem readBytes_ok {data arg : Bytes} {pos len : Nat} (h : readBytes data pos len = .ok arg) :
    arg.length = len ∧ data.drop pos = arg ++ data.drop (pos + len) := by
  unfold readBytes at h
  split at h
  · obtain rfl := Except.ok.inj h
    refine ⟨?_, ?_⟩
    · rw [List.length_take, List.length_drop]
      omega
    · rw [← List.drop_drop, List.take_append_drop]
  · cases h

/-! ## Sound -/

theorem parseItems_sound {data : Bytes} : ∀ {n pos pos' : Nat} {acc cmd' : List Bytes},
    ShortItems data n pos → parseItems data n pos acc = .ok (some (pos', cmd')) →
    ∃ cmd, cmd' = acc ++ cmd ∧ cmd.length = n ∧ (∀ a ∈ cmd, a.length < 2 ^ 32) ∧
      data.drop pos = encodeArgs cmd ++ data.drop pos'
  | 0, pos, _, acc, _, _, h => by
    cases h
    exact ⟨[], (List.append_nil acc).symm, rfl, List.forall_mem_nil _, rfl⟩
  | n + 1, pos, pos', acc, cmd', hs, h => by
    rw [parseItems] at h
    split at h
    · cases h
    obtain ⟨argLen, hread, h⟩ := bind_ok.mp h
    split at h
    · cases h
    rename_i hfit
    obtain ⟨hshort, hs⟩ := hs argLen hread (Nat.not_lt.mp hfit)
    obtain ⟨arg, hcopy, h⟩ := bind_ok.mp h
    obtain ⟨hlen, hbytes⟩ := readBytes_ok hcopy
    rw [Nat.mod_eq_of_lt hshort, ← Nat.add_assoc] at h
    obtain ⟨cmd, rfl, hn, hargs, hrest⟩ := parseItems_sound hs h
    refine ⟨arg :: cmd, by rw [List.append_assoc]; rfl, by rw [List.length_cons, hn], ?_, ?_⟩
    · intro a ha
      rcases List.mem_cons.mp ha with rfl | ha
      · omega
      · exact hargs a ha
    · rw [readU32_drop hread, hbytes, hrest, encodeArgs, hlen, List.append_assoc, List.append_assoc]

/-- `parse_req` returns 0 when the items announced end where the buffer ends. -/
theorem parseReq_some_iff {data : Bytes} {cmd : List Bytes} : parseReq data = .ok (some cmd) ↔
    ∃ n, readU32 data 0 = .ok n ∧ n ≤ maxArgs ∧
      parseItems data n 4 [] = .ok (some (data.length, cmd)) := by
  unfold parseReq
  constructor
  · intro h
    split at h
    · cases h
    obtain ⟨n, hread, h⟩ := bind_ok.mp h
    split at h
    · cases h
    rename_i hn
    obtain ⟨r, hr, h⟩ := bind_ok.mp h
    cases r with
    | none => cases h
    | some r =>
      obtain ⟨pos, cmd'⟩ := r
      dsimp only at h
      split at h
      · cases h
      rename_i hpos
      cases h
      exact ⟨n, hread, Nat.not_lt.mp hn, Decidable.not_not.mp hpos ▸ hr⟩
  · rintro ⟨n, hread, hn, hr⟩
    have hlen := readU32_ok_iff.mp ⟨n, hread⟩
    rw [if_neg (by omega), hread, ok_bind, if_neg (Nat.not_lt.mpr hn), hr, ok_bind]
    exact if_neg (not_not.mpr rfl)

/-- **Only requests are accepted.** -/
theorem parseReq_sound {data : Bytes} {cmd : List Bytes} (hs : NoLongItem data)
    (h : parseReq data = .ok (some cmd)) : IsRequest data cmd := by
  obtain ⟨n, hread, hn, hr⟩ := parseReq_some_iff.mp h
  obtain ⟨cmd, rfl, hlen, hargs, hrest⟩ := parseItems_sound (hs n hread hn) hr
  refine ⟨hlen ▸ hn, hargs, ?_⟩
  have hdata := readU32_drop hread
  rw [List.drop_zero, Nat.zero_add, hrest, List.drop_length, List.append_nil] at hdata
  exact hlen ▸ hdata

/-! ## Complete -/

/-- The items of an encoded request are its arguments. -/
theorem shortItems_iff : ∀ {cmd : List Bytes} {pre : Bytes}, (∀ a ∈ cmd, a.length < 2 ^ 32) →
    (ShortItems (pre ++ encodeArgs cmd) cmd.length pre.length ↔ ∀ a ∈ cmd, 4 + a.length < 2 ^ 32)
  | [], _, _ => iff_of_true trivial (List.forall_mem_nil _)
  | arg :: cmd, pre, hs => by
    have harg := hs arg List.mem_cons_self
    have hdata : pre ++ encodeArgs (arg :: cmd) =
        (pre ++ (le32 arg.length ++ arg)) ++ encodeArgs cmd := by
      simp only [encodeArgs, List.append_assoc]
    have hpre : (pre ++ (le32 arg.length ++ arg)).length = pre.length + 4 + arg.length := by
      simp only [List.length_append, le32_length]
      omega
    have hread : readU32 (pre ++ encodeArgs (arg :: cmd)) pre.length = .ok arg.length := by
      rw [encodeArgs, List.append_assoc]
      exact readU32_append harg _
    have hfit : pre.length + 4 + arg.length ≤ (pre ++ encodeArgs (arg :: cmd)).length := by
      rw [hdata, List.length_append, hpre]
      omega
    have ih := @shortItems_iff cmd (pre ++ (le32 arg.length ++ arg))
      fun a ha => hs a (List.mem_cons_of_mem _ ha)
    rw [← hdata, hpre] at ih
    rw [List.forall_mem_cons, List.length_cons, ← ih]
    constructor
    · intro h
      exact h arg.length hread hfit
    · intro h n hn _
      cases hread.symm.trans hn
      exact h

theorem IsRequest.noLongItem_iff {data : Bytes} {cmd : List Bytes} (h : IsRequest data cmd) :
    NoLongItem data ↔ ∀ a ∈ cmd, 4 + a.length < 2 ^ 32 := by
  obtain ⟨hn, hs, rfl⟩ := h
  have hcount : readU32 (le32 cmd.length ++ encodeArgs cmd) 0 = .ok cmd.length :=
    readU32_le32 (Nat.lt_of_le_of_lt hn (by decide)) _
  have hitems := @shortItems_iff cmd (le32 cmd.length) hs
  rw [le32_length] at hitems
  rw [← hitems]
  constructor
  · intro h
    exact h _ hcount hn
  · intro h n hread _
    cases hcount.symm.trans hread
    exact h

/-- **Every request is accepted.** -/
theorem parseReq_complete {data : Bytes} {cmd : List Bytes} (hs : NoLongItem data)
    (h : IsRequest data cmd) : parseReq data = .ok (some cmd) := by
  have hshort := h.noLongItem_iff.mp hs
  obtain ⟨hn, -, rfl⟩ := h
  exact parseReq_encodeReq hshort hn

/-! ## Long items -/

theorem encodeArgs_length : ∀ (cmd : List Bytes),
    (encodeArgs cmd).length = (cmd.map fun a => 4 + a.length).sum
  | [] => rfl
  | arg :: cmd => by
    rw [encodeArgs, List.length_append, List.length_append, le32_length, encodeArgs_length cmd,
      List.map_cons, List.sum_cons]

/-- Where the loop ends, by the arguments it has read. -/
theorem parseItems_pos {data : Bytes} : ∀ {n pos pos' : Nat} {acc cmd' : List Bytes},
    parseItems data n pos acc = .ok (some (pos', cmd')) →
    ∃ cmd, cmd' = acc ++ cmd ∧ pos' = pos + (cmd.map fun a => (4 + a.length) % 2 ^ 32).sum
  | 0, pos, _, acc, _, h => by
    cases h
    exact ⟨[], (List.append_nil acc).symm, rfl⟩
  | n + 1, pos, pos', acc, cmd', h => by
    rw [parseItems] at h
    split at h
    · cases h
    obtain ⟨argLen, -, h⟩ := bind_ok.mp h
    split at h
    · cases h
    obtain ⟨arg, hcopy, h⟩ := bind_ok.mp h
    obtain ⟨cmd, rfl, hpos⟩ := parseItems_pos h
    refine ⟨arg :: cmd, by rw [List.append_assoc]; rfl, ?_⟩
    rw [hpos, List.map_cons, List.sum_cons, (readBytes_ok hcopy).1, Nat.add_assoc]

/-- Sums that agree although some terms were reduced: none was. -/
theorem short_of_sum : ∀ {cmd : List Bytes},
    (cmd.map fun a => 4 + a.length).sum ≤ (cmd.map fun a => (4 + a.length) % 2 ^ 32).sum →
    ∀ a ∈ cmd, 4 + a.length < 2 ^ 32
  | arg :: cmd, h, a, ha => by
    simp only [List.map_cons, List.sum_cons] at h
    have hle : (cmd.map fun a => (4 + a.length) % 2 ^ 32).sum ≤
        (cmd.map fun a => 4 + a.length).sum :=
      List.sum_le_sum fun a _ => Nat.mod_le _ _
    have hmod := Nat.mod_le (4 + arg.length) (2 ^ 32)
    rcases List.mem_cons.mp ha with rfl | ha
    · have := Nat.mod_lt (4 + a.length) (Nat.two_pow_pos 32)
      omega
    · exact short_of_sum (by omega) a ha

/-- A request with a long argument is not read as what it is. -/
theorem IsRequest.short {data : Bytes} {cmd : List Bytes} (h : IsRequest data cmd)
    (hp : parseReq data = .ok (some cmd)) : ∀ a ∈ cmd, 4 + a.length < 2 ^ 32 := by
  obtain ⟨-, -, hdata⟩ := h
  have hlen := congrArg List.length hdata
  rw [List.length_append, le32_length, encodeArgs_length] at hlen
  obtain ⟨n, -, -, hr⟩ := parseReq_some_iff.mp hp
  obtain ⟨cmd, rfl, hend⟩ := parseItems_pos hr
  exact short_of_sum (by omega)

/-- A buffer of fewer than `2 ^ 32` bytes has no long item. -/
theorem shortItems_of_length {data : Bytes} (hlen : data.length < 2 ^ 32) :
    ∀ (n pos : Nat), ShortItems data n pos
  | 0, _ => trivial
  | n + 1, pos => by
    intro argLen _ hfit
    exact ⟨by omega, shortItems_of_length hlen n _⟩

theorem NoLongItem.of_length {data : Bytes} (hlen : data.length < 2 ^ 32) : NoLongItem data :=
  fun n _ _ => shortItems_of_length hlen n 4

/-- **`parse_req` accepts exactly its grammar** when no item met on the way over the items fits the
buffer and has `2 ^ 32 - 4` bytes or more, as is the case in every buffer of fewer than `2 ^ 32`
bytes.  A request that has such an item it does not accept. -/
theorem parseReq_exact (data : Bytes) :
    (NoLongItem data → ParsesExactly data) ∧
      (∀ cmd, IsRequest data cmd → (ParsesExactly data ↔ NoLongItem data)) ∧
      (data.length < 2 ^ 32 → NoLongItem data) := by
  have henough : NoLongItem data → ParsesExactly data := fun hs =>
    ⟨parseReq_total data, fun n _ => itemRounds_le data n 4,
      fun _ => ⟨parseReq_sound hs, parseReq_complete hs⟩⟩
  refine ⟨henough, ?_, NoLongItem.of_length⟩
  intro cmd hreq
  refine ⟨?_, henough⟩
  intro hp
  exact hreq.noLongItem_iff.mpr (hreq.short ((hp.accepts cmd).mpr hreq))

/-- One argument of `2 ^ 32 - 4` bytes: the loop stays where it is, and the request is rejected. -/
theorem long_argument_is_rejected :
    let cmd := [List.replicate (2 ^ 32 - 4) (0 : UInt8)]
    IsRequest (le32 1 ++ encodeArgs cmd) cmd ∧
      parseReq (le32 1 ++ encodeArgs cmd) ≠ .ok (some cmd) ∧
      ¬ParsesExactly (le32 1 ++ encodeArgs cmd) := by
  intro cmd
  have hlen : ∀ a ∈ cmd, a.length = 2 ^ 32 - 4 := by
    intro a ha
    rw [List.mem_singleton.mp ha, List.length_replicate]
  have hreq : IsRequest (le32 1 ++ encodeArgs cmd) cmd :=
    ⟨by decide, fun a ha => by rw [hlen a ha]; decide, rfl⟩
  have hne : parseReq (le32 1 ++ encodeArgs cmd) ≠ .ok (some cmd) := by
    intro hp
    have := hreq.short hp _ List.mem_cons_self
    rw [hlen _ List.mem_cons_self] at this
    omega
  exact ⟨hreq, hne, fun hp => hne ((hp.accepts cmd).mpr hreq)⟩

end RedisServer
