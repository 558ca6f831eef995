import RedisServer.ResponseFormat

/-!
# on_response and the end of the message

`on_response` compares the size with `5 + len` and `9 + len`, which are of type `uint32_t`: when a
length field makes them wrap around, the check says nothing about the bytes that are read next.

`element` is what stands at the head of a message.  A message is `Harmless` when the elements that
are announced are read, up to the first one that is cut off, without such a field.

Results:
* `onResponse_le` — what is returned is no more than the size;
* `readResponse_inside` — `on_response` stays inside the message when it is harmless, and then only.
-/

set_option autoImplicit false

namespace RedisServer

open Runs

/-- What `on_response` finds at the head of a message. -/
inductive Element where
  | stop -- it is cut off, or of no known kind
  | takes (n : Nat)
  | opens (len : Nat)
  | overlong -- its length is not checked, and reading it leads past the end
  deriving DecidableEq, Repr

def element : Bytes → Element
  | [] => .stop
  | tag :: rest =>
    let data := tag :: rest
    if tag = SER_NIL then .takes 1
    else if tag = SER_ERR then
      match readU32 data 5 with
      | .error _ => .stop
      | .ok len =>
        if data.length < (9 + len) % 2 ^ 32 then .stop
        -- the text of a wrong length is printed up to its NUL
        else if 9 + len < 2 ^ 32 ∨ 0 ∈ data.drop 9 then .takes ((9 + len) % 2 ^ 32)
        else .overlong
    else if tag = SER_ARR then
      match readU32 data 1 with
      | .error _ => .stop
      | .ok len => .opens len
    else if tag = SER_INT then
      if data.length < 9 then .stop else .takes 9
    else if tag = SER_STR then
      match readU32 data 1 with
      | .error _ => .stop
      | .ok len =>
        if data.length < (5 + len) % 2 ^ 32 then .stop
        else if 5 + len < 2 ^ 32 then .takes (5 + len)
        else .overlong
    else .stop

/-- With `k` elements still to be read, none is overlong before one is cut off. -/
inductive Harmless : Nat → Bytes → Prop
  | done (data : Bytes) : Harmless 0 data
  | stop {k : Nat} {data : Bytes} : element data = .stop → Harmless (k + 1) data
  | takes {k n : Nat} {data : Bytes} : element data = .takes n → Harmless k (data.drop n) →
    Harmless (k + 1) data
  | opens {k len : Nat} {data : Bytes} : element data = .opens len →
    Harmless (len + k) (data.drop 5) → Harmless (k + 1) data

/-- `on_response` ends without an access outside the message or an underflow of
`size - arr_bytes`, and returns an error or a size between 1 and the size of the message. -/
def StaysInside (data : Bytes) : Prop :=
  ∃ v, readResponse data = .ok v ∧ (v < 0 ∨ 1 ≤ v ∧ v ≤ data.length)

/-! ## One element -/

/-- What becomes of the head of the message. -/
def Element.outcome (fuel : Nat) (data : Bytes) : Element → Res Int
  | .stop => .ok (-1)
  | .takes n => .ok n
  | .opens len => onElements (onResponse fuel) data len 5
  | .overlong => .error .outOfBounds

theorem readU32_short {data : Bytes} {pos : Nat} (h : data.length < pos + 4) :
    ∃ e, readU32 data pos = .error e := by
  cases hr : readU32 data pos with
  | error e => exact ⟨e, rfl⟩
  | ok n =>
    have := readU32_ok_iff.mp ⟨n, hr⟩
    omega

theorem element_takes_le {data : Bytes} {n : Nat} (h : element data = .takes n) :
    n ≤ data.length := by
  unfold element at h
  split at h
  · cases h
  rename_i tag rest
  dsimp only at h
  split at h
  · cases h
    exact Nat.succ_le_succ (Nat.zero_le _)
  split at h
  · split at h
    · cases h
    split at h
    · cases h
    split at h
    · cases h
      omega
    · cases h
  split at h
  · split at h <;> cases h
  split at h
  · split at h
    · cases h
    · cases h
      omega
  split at h
  · split at h
    · cases h
    split at h
    · cases h
    split at h
    · rename_i hlt
      cases h
      rw [Nat.mod_eq_of_lt hlt] at *
      omega
    · cases h
  · cases h

theorem element_opens_le {data : Bytes} {len : Nat} (h : element data = .opens len) :
    5 ≤ data.length := by
  unfold element at h
  split at h
  · cases h
  dsimp only at h
  split at h
  · cases h
  split at h
  · split at h
    · cases h
    split at h
    · cases h
    split at h <;> cases h
  split at h
  · split at h
    · cases h
    · rename_i hread
      exact readU32_ok_iff.mp ⟨_, hread⟩
  split at h
  · split at h <;> cases h
  split at h
  · split at h
    · cases h
    split at h
    · cases h
    split at h <;> cases h
  · cases h

/-- The error case: the text is printed up to a NUL when its length wraps around. -/
theorem printErr_eq {data : Bytes} {len : Nat} (h : data.length < 2 ^ 31) (hlen : len < 2 ^ 32)
    (h9 : 9 ≤ data.length) (hfit : (9 + len) % 2 ^ 32 ≤ data.length) :
    printStr (data.drop 9) len =
      if 9 + len < 2 ^ 32 ∨ 0 ∈ data.drop 9 then .ok () else .error .outOfBounds := by
  unfold printStr
  rw [List.length_drop]
  congr 1
  rw [eq_iff_iff, or_comm]
  refine or_congr_left ⟨?_, ?_⟩
  · intro hlt
    omega
  · intro hlt
    rw [Nat.mod_eq_of_lt hlt] at hfit
    omega

/-- **`on_response` goes by the head of the message.** -/
theorem onResponse_element {data : Bytes} (fuel : Nat) (h : data.length < 2 ^ 31) :
    onResponse (fuel + 1) data = (element data).outcome fuel data := by
  cases data with
  | nil => rfl
  | cons tag rest =>
    have hint : ∀ n, n % 2 ^ 32 ≤ (tag :: rest).length → toInt32 n = (n % 2 ^ 32 : Nat) :=
      fun n hn => by rw [toInt32, if_pos (by omega)]
    rw [onResponse, element]
    dsimp only
    split
    · rfl
    split
    · by_cases h9 : (tag :: rest).length < 9
      · obtain ⟨e, he⟩ := readU32_short (show (tag :: rest).length < 5 + 4 from h9)
        rw [if_pos h9, he]
        rfl
      obtain ⟨c, hc⟩ := readU32_ok_iff.mpr (show 1 + 4 ≤ (tag :: rest).length by omega)
      obtain ⟨len, hread⟩ := readU32_ok_iff.mpr (show 5 + 4 ≤ (tag :: rest).length by omega)
      rw [if_neg h9, hc, ok_bind, hread, ok_bind]
      dsimp only
      split
      · rfl
      rename_i hfit
      rw [printErr_eq h (readU32_lt hread) (Nat.not_lt.mp h9) (Nat.not_lt.mp hfit)]
      split
      · exact congrArg Except.ok (hint _ (Nat.not_lt.mp hfit))
      · rfl
    split
    · by_cases h5 : (tag :: rest).length < 5
      · obtain ⟨e, he⟩ := readU32_short (show (tag :: rest).length < 1 + 4 from h5)
        rw [if_pos h5, he]
        rfl
      obtain ⟨len, hread⟩ := readU32_ok_iff.mpr (show 1 + 4 ≤ (tag :: rest).length by omega)
      rw [if_neg h5, hread]
      rfl
    split
    · split <;> rfl
    split
    · by_cases h5 : (tag :: rest).length < 5
      · obtain ⟨e, he⟩ := readU32_short (show (tag :: rest).length < 1 + 4 from h5)
        rw [if_pos h5, he]
        rfl
      obtain ⟨len, hread⟩ := readU32_ok_iff.mpr (show 1 + 4 ≤ (tag :: rest).length by omega)
      have hlen := readU32_lt hread
      rw [if_neg h5, hread, ok_bind]
      dsimp only
      split
      · rfl
      rename_i hfit
      by_cases hlt : 5 + len < 2 ^ 32
      · rw [Nat.mod_eq_of_lt hlt] at hfit
        rw [if_neg hfit, if_pos hlt, toInt32_of_lt (by omega)]
        rfl
      · rw [if_pos (by omega), if_neg hlt]
        rfl
    · rfl

/-! ## Bounds of the result -/

theorem onElements_bounds {f : Bytes → Res Int} {data : Bytes} (hlt : data.length < 2 ^ 31)
    (hf : ∀ rest v, rest.length ≤ data.length → f rest = .ok v → v ≤ rest.length) :
    ∀ {n arrBytes : Nat} {v : Int}, arrBytes ≤ data.length → onElements f data n arrBytes = .ok v →
      v ≤ data.length ∧ (v < 0 ∨ arrBytes ≤ v)
  | 0, arrBytes, v, hle, h => by
    cases h
    rw [toInt32_of_lt (Nat.lt_of_le_of_lt hle hlt)]
    omega
  | n + 1, arrBytes, v, hle, h => by
    rw [onElements, if_neg (Nat.not_lt.mpr hle)] at h
    obtain ⟨rv, hrv, h⟩ := bind_ok.mp h
    have hrest := hf _ rv (by simp) hrv
    rw [List.length_drop] at hrest
    split at h
    · cases h
      omega
    · have hbounds := onElements_bounds hlt hf (by omega) h
      omega

/-- **What is returned is no more than the size.** -/
theorem onResponse_le : ∀ {fuel : Nat} {data : Bytes} {v : Int}, data.length < 2 ^ 31 →
    onResponse fuel data = .ok v → v ≤ data.length
  | 0, _, _, _, h => by cases h
  | fuel + 1, data, v, hlt, h => by
    rw [onResponse_element fuel hlt] at h
    cases he : element data with
    | stop =>
      rw [he] at h
      cases h
      omega
    | takes n =>
      rw [he] at h
      cases h
      exact_mod_cast element_takes_le he
    | opens len =>
      rw [he] at h
      have hf : ∀ rest v, rest.length ≤ data.length → onResponse fuel rest = .ok v →
          v ≤ rest.length := fun rest v hle => onResponse_le (Nat.lt_of_le_of_lt hle hlt)
      exact (onElements_bounds hlt hf (element_opens_le he) h).1
    | overlong =>
      rw [he] at h
      cases h

/-- Only an element that takes no byte gives 0. -/
theorem onResponse_zero {fuel : Nat} {data : Bytes} (hlt : data.length < 2 ^ 31) :
    onResponse (fuel + 1) data = .ok 0 ↔ element data = .takes 0 := by
  rw [onResponse_element fuel hlt]
  cases he : element data with
  | stop => exact iff_of_false (fun h => by cases h) (fun h => by cases h)
  | takes n =>
    constructor
    · intro h
      have hn := Except.ok.inj h
      rw [Int.natCast_eq_zero.mp hn]
    · intro h
      cases h
      rfl
  | opens len =>
    refine iff_of_false ?_ (fun h => by cases h)
    intro h
    have hf : ∀ rest v, rest.length ≤ data.length → onResponse fuel rest = .ok v →
        v ≤ rest.length := fun rest v hle => onResponse_le (Nat.lt_of_le_of_lt hle hlt)
    have hge := (onElements_bounds hlt hf (element_opens_le he) h).2
    omega
  | overlong => exact iff_of_false (fun h => by cases h) (fun h => by cases h)

/-! ## The whole message -/

/-- What has to be harmless behind the head. -/
def Element.Rest (k : Nat) (data : Bytes) : Element → Prop
  | .stop => True
  | .takes n => Harmless k (data.drop n)
  | .opens len => Harmless (len + k) (data.drop 5)
  | .overlong => False

theorem harmless_succ {k : Nat} {data : Bytes} :
    Harmless (k + 1) data ↔ (element data).Rest k data := by
  constructor
  · intro h
    cases h with
    | stop he =>
      rw [he]
      trivial
    | takes he hr => rwa [he]
    | opens he hr => rwa [he]
  · intro h
    cases he : element data with
    | stop => exact .stop he
    | takes n =>
      rw [he] at h
      exact .takes he h
    | opens len =>
      rw [he] at h
      exact .opens he h
    | overlong =>
      rw [he] at h
      exact h.elim

/-- The loop over `n` elements gets by the harmless ones. -/
theorem onElements_harmless {f : Bytes → Res Int} {data : Bytes} (hlt : data.length < 2 ^ 31)
    (hle : ∀ rest v, rest.length ≤ data.length → f rest = .ok v → v ≤ rest.length)
    (hf : ∀ pos k, 5 ≤ pos → pos ≤ data.length → (Harmless (k + 1) (data.drop pos) ↔
      ∃ v, f (data.drop pos) = .ok v ∧ (v < 0 ∨ Harmless k ((data.drop pos).drop v.toNat)))) :
    ∀ (n k pos : Nat), 5 ≤ pos → pos ≤ data.length → (Harmless (n + k) (data.drop pos) ↔
      ∃ v, onElements f data n pos = .ok v ∧ (v < 0 ∨ Harmless k (data.drop v.toNat)))
  | 0, k, pos, _, hpos => by
    rw [onElements, toInt32_of_lt (Nat.lt_of_le_of_lt hpos hlt), Nat.zero_add]
    constructor
    · intro h
      exact ⟨pos, rfl, .inr h⟩
    · rintro ⟨v, hv, h⟩
      cases hv
      exact h.resolve_left (by omega)
  | n + 1, k, pos, h5, hpos => by
    have hstep : ∀ v, f (data.drop pos) = .ok v → ¬v < 0 → pos + v.toNat ≤ data.length ∧
        (Harmless (n + k) ((data.drop pos).drop v.toNat) ↔
          ∃ w, onElements f data n (pos + v.toNat) = .ok w ∧
            (w < 0 ∨ Harmless k (data.drop w.toNat))) := by
      intro v hv hneg
      have hrest := hle _ v (by simp) hv
      rw [List.length_drop] at hrest
      have hend : pos + v.toNat ≤ data.length := by omega
      rw [List.drop_drop]
      exact ⟨hend, onElements_harmless hlt hle hf n k _ (by omega) hend⟩
    rw [Nat.add_right_comm, hf pos (n + k) h5 hpos, onElements, if_neg (Nat.not_lt.mpr hpos)]
    constructor
    · rintro ⟨v, hv, h⟩
      rw [hv, ok_bind]
      by_cases hneg : v < 0
      · exact ⟨v, if_pos hneg, .inl hneg⟩
      · rw [if_neg hneg]
        exact (hstep v hv hneg).2.mp (h.resolve_left hneg)
    · rintro ⟨w, hw, h⟩
      obtain ⟨v, hv, hw⟩ := bind_ok.mp hw
      refine ⟨v, hv, ?_⟩
      by_cases hneg : v < 0
      · exact .inl hneg
      · rw [if_neg hneg] at hw
        exact .inr ((hstep v hv hneg).2.mpr ⟨w, hw, h⟩)

/-- **The first of the elements is read when all of them are harmless**, and leaves the rest so. -/
theorem onResponse_harmless : ∀ (fuel k : Nat) (data : Bytes), data.length < fuel →
    data.length < 2 ^ 31 → (Harmless (k + 1) data ↔
      ∃ v, onResponse fuel data = .ok v ∧ (v < 0 ∨ Harmless k (data.drop v.toNat)))
  | 0, _, _, hf, _ => absurd hf (Nat.not_lt_zero _)
  | fuel + 1, k, data, hfuel, hlt => by
    rw [harmless_succ, onResponse_element fuel hlt]
    cases he : element data with
    | stop => exact iff_of_true trivial ⟨-1, rfl, .inl (by decide)⟩
    | takes n =>
      constructor
      · intro h
        exact ⟨n, rfl, .inr h⟩
      · rintro ⟨v, hv, h⟩
        cases hv
        exact h.resolve_left (by omega)
    | opens len =>
      have h5 := element_opens_le he
      refine onElements_harmless hlt
        (fun rest v hrest => onResponse_le (Nat.lt_of_le_of_lt hrest hlt))
        ?_ len k 5 (Nat.le_refl 5) h5
      intro pos k hpos hend
      have hdrop : (data.drop pos).length < fuel := by
        rw [List.length_drop]
        omega
      exact onResponse_harmless fuel k _ hdrop (by simp; omega)
    | overlong =>
      apply iff_of_false id
      rintro ⟨v, hv, -⟩
      cases hv

/-- **`on_response` stays inside a message when it is harmless**, and is not an error whose length
field makes `9 + len` zero; and then only. -/
theorem readResponse_inside {data : Bytes} (h : data.length ≤ maxMsg) :
    StaysInside data ↔ Harmless 1 data ∧ element data ≠ .takes 0 := by
  have hlt : data.length < 2 ^ 31 := Nat.lt_of_le_of_lt h (by decide)
  rw [onResponse_harmless _ 0 data (Nat.lt_succ_self _) hlt, ne_eq,
    ← @onResponse_zero data.length data hlt]
  constructor
  · rintro ⟨v, hv, hrange⟩
    refine ⟨⟨v, hv, .inr (.done _)⟩, ?_⟩
    intro hzero
    cases hv.symm.trans hzero
    omega
  · rintro ⟨⟨v, hv, -⟩, hzero⟩
    have hle := onResponse_le hlt hv
    have hne : v ≠ 0 := fun h0 => hzero (h0 ▸ hv)
    exact ⟨v, hv, by omega⟩

theorem readResponse_inside_array :
    [SER_ARR, 2, 0, 0, 0, SER_NIL, SER_NIL].length ≤ maxMsg ∧
      StaysInside [SER_ARR, 2, 0, 0, 0, SER_NIL, SER_NIL] := by
  refine ⟨by decide, (readResponse_inside (by decide)).mpr ⟨?_, by decide⟩⟩
  have hnil : ∀ rest, element (SER_NIL :: rest) = .takes 1 := fun _ => rfl
  exact .opens (show element _ = .opens 2 from rfl)
    (.takes (hnil [SER_NIL]) (.takes (hnil []) (.done [])))

/-- A string whose length field holds `2 ^ 32 - 1` passes the check. -/
theorem wrapped_length_leaves_message :
    readResponse [SER_STR, 255, 255, 255, 255] = .error .outOfBounds ∧
      ¬StaysInside [SER_STR, 255, 255, 255, 255] := by
  have hread : readResponse [SER_STR, 255, 255, 255, 255] = .error .outOfBounds := by decide
  refine ⟨hread, ?_⟩
  rintro ⟨v, hv, -⟩
  cases hread.symm.trans hv

end RedisServer
