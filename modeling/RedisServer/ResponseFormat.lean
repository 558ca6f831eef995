import RedisServer.Client

/-!
# The response format

`Value` is what the `out_*` functions can write.  `onResponse` reads back every value without a
double in it, and returns how many bytes it took; there is no case for `SER_DOUBLE`.

Results:
* `onResponse_serialise` — a value without doubles is read, whatever follows it;
* `onResponse_lt` — the result is an `int32_t`;
* `readResponse_dbl`, `readResponse_long` — what is not read.
-/

set_option autoImplicit false

namespace RedisServer

open Runs

/-- A response value. -/
inductive Value where
  | nil
  | err (code : Nat) (msg : Bytes)
  | str (s : Bytes)
  | int (i : Int)
  | dbl (d : Dbl)
  | arr (elements : List Value)

mutual

/-- A value as the `out_*` functions write it. -/
def Value.serialise : Value → Bytes
  | .nil => outNil []
  | .err code msg => outErr [] code msg
  | .str s => outStr [] s
  | .int i => outInt [] i
  | .dbl d => outDbl [] d
  | .arr vs => outArr [] vs.length ++ serialiseAll vs

def serialiseAll : List Value → Bytes
  | [] => []
  | v :: vs => v.serialise ++ serialiseAll vs

end

mutual

/-- There is no double in the value. -/
def Value.NoDouble : Value → Prop
  | .dbl _ => False
  | .arr vs => AllNoDouble vs
  | _ => True

def AllNoDouble : List Value → Prop
  | [] => True
  | v :: vs => v.NoDouble ∧ AllNoDouble vs

end

theorem toInt32_of_lt {n : Nat} (h : n < 2 ^ 31) : toInt32 n = n := by
  have hmod : n % 2 ^ 32 = n := Nat.mod_eq_of_lt (by omega)
  rw [toInt32, hmod, if_pos h]

theorem toInt32_lt (n : Nat) : toInt32 n < 2 ^ 31 := by
  unfold toInt32
  split <;> omega

theorem toInt32_le (n : Nat) : toInt32 n ≤ n := by
  have := Nat.mod_le n (2 ^ 32)
  unfold toInt32
  split <;> omega

@[simp] theorem be64_length (n : Nat) : (be64 n).length = 8 := rfl

/-- Every element takes a byte. -/
theorem Value.serialise_pos (v : Value) : 0 < v.serialise.length := by
  cases v <;> simp [Value.serialise, outNil, outErr, outStr, outInt, outDbl, outArr]

theorem length_le_serialiseAll : ∀ (vs : List Value), vs.length ≤ (serialiseAll vs).length
  | [] => Nat.zero_le _
  | v :: vs => by
    have := v.serialise_pos
    have := length_le_serialiseAll vs
    rw [serialiseAll, List.length_append, List.length_cons]
    omega

theorem readU32_cons {a : UInt8} {n : Nat} (h : n < 2 ^ 32) (rest : Bytes) :
    readU32 (a :: (le32 n ++ rest)) 1 = .ok n :=
  readU32_le32 h rest

/-! ## What is read -/

theorem onResponse_str {s : Bytes} (fuel : Nat) (hs : 5 + s.length < 2 ^ 31) (rest : Bytes) :
    onResponse (fuel + 1) (outStr [] s ++ rest) = .ok (5 + s.length : Nat) := by
  have hshape : outStr [] s ++ rest = SER_STR :: (le32 s.length ++ (s ++ rest)) := by
    simp [outStr]
  have hread : readU32 (SER_STR :: (le32 s.length ++ (s ++ rest))) 1 = .ok s.length :=
    readU32_cons (by omega) _
  have hlen : (SER_STR :: (le32 s.length ++ (s ++ rest))).length = 5 + s.length + rest.length := by
    simp only [List.length_cons, List.length_append, le32_length]
    omega
  have hmod : (5 + s.length) % 2 ^ 32 = 5 + s.length := Nat.mod_eq_of_lt (by omega)
  rw [hshape, onResponse]
  dsimp only
  rw [if_neg (by decide), if_neg (by decide), if_neg (by decide), if_neg (by decide),
    if_pos rfl, if_neg (by rw [hlen]; omega), hread]
  simp only [ok_bind, pure_ok]
  rw [hmod, if_neg (by rw [hlen]; omega), if_neg (by rw [hlen]; omega), toInt32_of_lt hs]

theorem onResponse_err {code : Nat} {msg : Bytes} (fuel : Nat) (hs : 9 + msg.length < 2 ^ 31)
    (rest : Bytes) :
    onResponse (fuel + 1) (outErr [] code msg ++ rest) = .ok (9 + msg.length : Nat) := by
  have hshape : outErr [] code msg ++ rest =
      (SER_ERR :: le32 code) ++ (le32 msg.length ++ (msg ++ rest)) := by
    simp [outErr]
  obtain ⟨c, hcode⟩ : ∃ c, readU32 (outErr [] code msg ++ rest) 1 = .ok c :=
    readU32_ok_iff.mpr (by rw [hshape]; simp)
  have hread : readU32 (outErr [] code msg ++ rest) 5 = .ok msg.length := by
    rw [hshape]
    exact @readU32_append (SER_ERR :: le32 code) msg.length (by omega) (msg ++ rest)
  have hlen : (outErr [] code msg ++ rest).length = 9 + msg.length + rest.length := by
    rw [hshape]
    simp only [List.length_cons, List.length_append, le32_length]
    omega
  have hdrop : (outErr [] code msg ++ rest).drop 9 = msg ++ rest := by
    rw [hshape, ← List.append_assoc]
    exact List.drop_left' (by simp)
  have hprint : printStr (msg ++ rest) msg.length = .ok () := by
    unfold printStr
    rw [if_pos (.inr ⟨by omega, by rw [List.length_append]; omega⟩)]
  have hmod : (9 + msg.length) % 2 ^ 32 = 9 + msg.length := Nat.mod_eq_of_lt (by omega)
  obtain ⟨tail, htail⟩ : ∃ tail, outErr [] code msg ++ rest = SER_ERR :: tail := ⟨_, rfl⟩
  rw [htail] at hcode hread hlen hdrop
  rw [htail, onResponse]
  dsimp only
  rw [if_neg (by decide), if_pos rfl, if_neg (by rw [hlen]; omega), hcode, hread]
  simp only [ok_bind, pure_ok]
  rw [hmod, if_neg (by rw [hlen]; omega), hdrop, hprint, toInt32_of_lt hs]
  rfl

mutual

/-- **A value without doubles is read.** -/
theorem onResponse_serialise : ∀ (v : Value) (fuel : Nat) (rest : Bytes), v.NoDouble →
    v.serialise.length < 2 ^ 31 → v.serialise.length ≤ fuel →
    onResponse (fuel + 1) (v.serialise ++ rest) = .ok (v.serialise.length : Nat)
  | .nil, fuel, rest, _, _, _ => rfl
  | .err code msg, fuel, rest, _, hlt, _ => by
    have hlen : (Value.err code msg).serialise.length = 9 + msg.length := by
      simp [Value.serialise, outErr]
      omega
    rw [hlen] at hlt ⊢
    exact onResponse_err fuel hlt rest
  | .str s, fuel, rest, _, hlt, _ => by
    have hlen : (Value.str s).serialise.length = 5 + s.length := by
      simp [Value.serialise, outStr]
      omega
    rw [hlen] at hlt ⊢
    exact onResponse_str fuel hlt rest
  | .int i, fuel, rest, _, _, _ => by
    show onResponse (fuel + 1) (SER_INT :: (be64 _ ++ rest)) = .ok 9
    rw [onResponse]
    dsimp only
    rw [if_neg (by decide), if_neg (by decide), if_neg (by decide), if_pos rfl,
      if_neg (by simp [be64])]
    rfl
  | .dbl d, fuel, rest, h, _, _ => h.elim
  | .arr vs, fuel, rest, h, hlt, hf => by
    have hlen : (Value.arr vs).serialise.length = 5 + (serialiseAll vs).length := by
      simp [Value.serialise, outArr]
      omega
    have hshape : (Value.arr vs).serialise ++ rest =
        SER_ARR :: (le32 vs.length ++ (serialiseAll vs ++ rest)) := by
      simp [Value.serialise, outArr]
    have hcount := length_le_serialiseAll vs
    rw [hlen] at hlt hf ⊢
    obtain ⟨fuel, rfl⟩ : ∃ k, fuel = k + 1 := ⟨fuel - 1, by omega⟩
    have hread : readU32 (SER_ARR :: (le32 vs.length ++ (serialiseAll vs ++ rest))) 1 =
        .ok vs.length := readU32_cons (by omega) _
    have hloop := onElements_serialise vs fuel (SER_ARR :: le32 vs.length) rest h
      (by simp only [List.length_cons, le32_length]; omega) (by omega)
    rw [hshape, onResponse]
    dsimp only
    rw [if_neg (by decide), if_neg (by decide), if_pos rfl, if_neg (by simp), hread]
    exact hloop

/-- The loop reads the elements that follow `pre`. -/
theorem onElements_serialise : ∀ (vs : List Value) (fuel : Nat) (pre rest : Bytes), AllNoDouble vs →
    pre.length + (serialiseAll vs).length < 2 ^ 31 → (serialiseAll vs).length ≤ fuel →
    onElements (onResponse (fuel + 1)) (pre ++ (serialiseAll vs ++ rest)) vs.length pre.length =
      .ok (pre.length + (serialiseAll vs).length : Nat)
  | [], fuel, pre, rest, _, hlt, _ => by
    show Except.ok (toInt32 pre.length) = _
    rw [toInt32_of_lt (Nat.lt_of_le_of_lt (Nat.le_add_right _ _) hlt)]
    rfl
  | v :: vs, fuel, pre, rest, h, hlt, hf => by
    rw [serialiseAll, List.length_append] at hlt hf
    have hv := onResponse_serialise v fuel (serialiseAll vs ++ rest) h.1 (by omega) (by omega)
    have hpre : (pre ++ v.serialise).length = pre.length + v.serialise.length := List.length_append
    have hvs := onElements_serialise vs fuel (pre ++ v.serialise) rest h.2 (by omega) (by omega)
    rw [hpre, List.append_assoc] at hvs
    rw [List.length_cons, onElements, if_neg (by rw [List.length_append]; omega), serialiseAll,
      List.append_assoc, List.drop_left, hv, ok_bind,
      if_neg (Int.not_lt.mpr (Int.natCast_nonneg _)), Int.toNat_natCast, hvs, List.length_append,
      Nat.add_assoc]

end

/-- `on_response` takes the whole of a value without doubles that is shorter than `2 ^ 31`. -/
theorem readResponse_serialise {v : Value} (h : v.NoDouble) (hlt : v.serialise.length < 2 ^ 31) :
    readResponse v.serialise = .ok (v.serialise.length : Nat) := by
  have hread := onResponse_serialise v _ [] h hlt (Nat.le_refl _)
  rwa [List.append_nil] at hread

/-! ## What is not read -/

theorem readResponse_dbl (d : Dbl) : readResponse (outDbl [] d) = .ok (-1) := by
  show onResponse (_ + 1) (SER_DOUBLE :: _) = _
  rw [onResponse]
  dsimp only
  rw [if_neg (by decide), if_neg (by decide), if_neg (by decide), if_neg (by decide),
    if_neg (by decide)]
  rfl

theorem onElements_lt {f : Bytes → Res Int} (hf : ∀ data r, f data = .ok r → r < 2 ^ 31)
    {data : Bytes} : ∀ {n arrBytes : Nat} {r : Int}, onElements f data n arrBytes = .ok r →
    r < 2 ^ 31
  | 0, arrBytes, r, h => by
    cases h
    exact toInt32_lt _
  | n + 1, arrBytes, r, h => by
    rw [onElements] at h
    split at h
    · cases h
    obtain ⟨rv, hrv, h⟩ := bind_ok.mp h
    split at h
    · cases h
      exact hf _ _ hrv
    · exact onElements_lt hf h

/-- The result is an `int32_t`. -/
theorem onResponse_lt : ∀ (fuel : Nat) (data : Bytes) (r : Int),
    onResponse fuel data = .ok r → r < 2 ^ 31
  | 0, _, _, h => by cases h
  | fuel + 1, [], _, h => by cases h; decide
  | fuel + 1, tag :: rest, r, h => by
    rw [onResponse] at h
    dsimp only at h
    split at h
    · cases h; decide
    split at h
    · split at h
      · cases h; decide
      obtain ⟨c, -, h⟩ := bind_ok.mp h
      obtain ⟨len, -, h⟩ := bind_ok.mp h
      split at h
      · cases h; decide
      obtain ⟨u, -, h⟩ := bind_ok.mp h
      cases h
      exact toInt32_lt _
    split at h
    · split at h
      · cases h; decide
      obtain ⟨len, -, h⟩ := bind_ok.mp h
      exact onElements_lt (onResponse_lt fuel) h
    split at h
    · split at h <;> · cases h; decide
    split at h
    · split at h
      · cases h; decide
      obtain ⟨len, -, h⟩ := bind_ok.mp h
      split at h
      · cases h; decide
      split at h
      · cases h
      · cases h
        exact toInt32_lt _
    · cases h; decide

theorem readResponse_long {out : Bytes} (h : 2 ^ 31 ≤ out.length) :
    readResponse out ≠ .ok (out.length : Nat) := by
  intro hr
  have := onResponse_lt _ _ _ hr
  omega

/-- The field of a longer string holds its length modulo `2 ^ 32`. -/
theorem readU32_le32_mod (n : Nat) (rest : Bytes) : readU32 (le32 n ++ rest) 0 = .ok (n % 2 ^ 32) := by
  simp only [readU32, le32, List.drop_zero, List.cons_append, List.nil_append, UInt8.toNat_ofNat']
  congr 1
  omega

/-- A string with something behind it is not all there is. -/
theorem readResponse_str_append (s : Bytes) {rest : Bytes} (hrest : rest ≠ []) :
    readResponse (outStr [] s ++ rest) ≠ .ok ((outStr [] s ++ rest).length : Nat) := by
  intro hr
  have hpos := List.length_pos_iff.mpr hrest
  have hmod := Nat.mod_le s.length (2 ^ 32)
  have hshape : outStr [] s ++ rest = SER_STR :: (le32 s.length ++ (s ++ rest)) := by
    simp [outStr]
  have hread : readU32 (SER_STR :: (le32 s.length ++ (s ++ rest))) 1 = .ok (s.length % 2 ^ 32) :=
    readU32_le32_mod s.length (s ++ rest)
  have hlen : (SER_STR :: (le32 s.length ++ (s ++ rest))).length = 5 + s.length + rest.length := by
    simp only [List.length_cons, List.length_append, le32_length]
    omega
  rw [hshape, readResponse, onResponse] at hr
  dsimp only at hr
  rw [if_neg (by decide), if_neg (by decide), if_neg (by decide), if_neg (by decide),
    if_pos rfl, if_neg (by rw [hlen]; omega), hread] at hr
  simp only [ok_bind, pure_ok] at hr
  split at hr
  · have := Except.ok.inj hr
    omega
  split at hr
  · cases hr
  · have hle := toInt32_le (5 + s.length % 2 ^ 32)
    have := Except.ok.inj hr
    rw [hlen] at this
    omega

end RedisServer
