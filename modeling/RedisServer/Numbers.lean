import RedisServer.Memory

/-!
# Doubles and number texts

* `Dbl` — a C++ `double` by its IEEE 754 bits, with the comparisons `==` and `<`.  Away from NaN
  they are those of an integer, `Dbl.key` (sign and magnitude), which is what the order lemmas use.
* `toDouble` — an integer rounded to a double; `compare_toDouble` is how small integers compare
  with one.
* `strtoll`, `str2int`, `stoll`, `stod` — the three routes by which the handlers read numbers.
  `str2int` is the server's own; the others follow ISO C / libstdc++ (C locale): `stoll` and
  `stod` throw `std::invalid_argument` when nothing is converted and `std::out_of_range` on
  ERANGE, and ignore text behind the number.
-/

set_option autoImplicit false

namespace RedisServer

/-! ## Doubles -/

structure Dbl where
  bits : UInt64
  deriving DecidableEq, Repr

namespace Dbl

/-- Magnitude bits of an infinity; larger magnitudes are NaN. -/
def infMag : Nat := 0x7FF0000000000000

/-- The magnitude bits of the quiet NaN without a payload. -/
def nanMag : Nat := 0x7FF8000000000000

def mag (x : Dbl) : Nat := x.bits.toNat % 2 ^ 63

def neg (x : Dbl) : Bool := decide (2 ^ 63 ≤ x.bits.toNat)

def isNaN (x : Dbl) : Bool := decide (infMag < x.mag)

/-- An integer with the order of the non-NaN doubles; both zeros have key 0. -/
def key (x : Dbl) : Int := if x.neg then -(x.mag : Int) else x.mag

/-- `a == b`. -/
def eq (a b : Dbl) : Bool := !a.isNaN && !b.isNaN && decide (a.key = b.key)

/-- `a < b`. -/
def lt (a b : Dbl) : Bool := !a.isNaN && !b.isNaN && decide (a.key < b.key)

/-- A double from its sign and magnitude bits. -/
def ofMag (neg : Bool) (mag : Nat) : Dbl := ⟨UInt64.ofNat (if neg then 2 ^ 63 + mag else mag)⟩

theorem eq_iff {a b : Dbl} (ha : a.isNaN = false) (hb : b.isNaN = false) :
    a.eq b = true ↔ a.key = b.key := by simp [eq, ha, hb]

theorem lt_iff {a b : Dbl} (ha : a.isNaN = false) (hb : b.isNaN = false) :
    a.lt b = true ↔ a.key < b.key := by simp [lt, ha, hb]

end Dbl

/-- The integer a 64-bit integer becomes when it is converted to `double` (nearest, ties to even),
    again as an integer. -/
def toDouble (i : Int) : Int :=
  let n := i.natAbs
  let s := Nat.log2 n - 52
  let m := n / 2 ^ s
  let r := n % 2 ^ s
  let m' := if 2 * r > 2 ^ s ∨ (2 * r = 2 ^ s ∧ s ≠ 0 ∧ m % 2 = 1) then m + 1 else m
  if i < 0 then -((m' * 2 ^ s : Nat) : Int) else (m' * 2 ^ s : Nat)

/-- Integers below `2 ^ 53` in magnitude are doubles. -/
theorem toDouble_exact {i : Int} (h : i.natAbs < 2 ^ 53) : toDouble i = i := by
  have hs : Nat.log2 i.natAbs - 52 = 0 := by
    by_cases h₀ : i.natAbs = 0
    · rw [h₀]
      rfl
    · have := (Nat.log2_lt h₀).mpr h
      omega
  have hround : ¬(2 * (i.natAbs % 1) > 1 ∨
      2 * (i.natAbs % 1) = 1 ∧ (0 : Nat) ≠ 0 ∧ i.natAbs % 2 = 1) := by
    simp [Nat.mod_one]
  simp only [toDouble, hs, Nat.pow_zero, Nat.div_one, Nat.mul_one]
  rw [if_neg hround]
  split <;> omega

/-- Larger integers stay large. -/
theorem toDouble_large {i : Int} (h : 2 ^ 53 ≤ i.natAbs) :
    (0 ≤ i → 2 ^ 53 ≤ toDouble i) ∧ (i < 0 → toDouble i ≤ -2 ^ 53) := by
  have h₀ : i.natAbs ≠ 0 := by omega
  have hlog : 53 ≤ Nat.log2 i.natAbs := (Nat.le_log2 h₀).mpr h
  obtain ⟨s, hs⟩ : ∃ s, s = Nat.log2 i.natAbs - 52 := ⟨_, rfl⟩
  have hm : 2 ^ 52 ≤ i.natAbs / 2 ^ s := by
    rw [Nat.le_div_iff_mul_le (Nat.two_pow_pos s), ← Nat.pow_add]
    have : 52 + s = Nat.log2 i.natAbs := by omega
    rw [this]
    exact Nat.log2_self_le h₀
  have hpow : 2 ^ 1 ≤ 2 ^ s := Nat.pow_le_pow_right (by omega) (by omega)
  have hbig : ∀ m, i.natAbs / 2 ^ s ≤ m → 2 ^ 53 ≤ m * 2 ^ s := fun m hm' =>
    calc 2 ^ 53 = 2 ^ 52 * 2 ^ 1 := by norm_num
      _ ≤ m * 2 ^ s := Nat.mul_le_mul (hm.trans hm') hpow
  simp only [toDouble, ← hs]
  generalize hm' : (if 2 * (i.natAbs % 2 ^ s) > 2 ^ s ∨
    2 * (i.natAbs % 2 ^ s) = 2 ^ s ∧ s ≠ 0 ∧ i.natAbs / 2 ^ s % 2 = 1 then
      i.natAbs / 2 ^ s + 1 else i.natAbs / 2 ^ s) = m'
  have hle : i.natAbs / 2 ^ s ≤ m' := by rw [← hm']; split <;> omega
  have hfin := hbig m' hle
  constructor
  · intro hi
    rw [if_neg (by omega)]
    exact_mod_cast hfin
  · intro hi
    rw [if_pos hi]
    have : ((2 ^ 53 : Nat) : Int) ≤ ((m' * 2 ^ s : Nat) : Int) := by exact_mod_cast hfin
    omega

/-- A small integer compares with a rounded one as with the integer itself. -/
theorem compare_toDouble {c d : Int} (hc : c.natAbs < 2 ^ 53) :
    (c = toDouble d ↔ c = d) ∧ (c < toDouble d ↔ c < d) ∧ (toDouble d < c ↔ d < c) := by
  by_cases hd : d.natAbs < 2 ^ 53
  · rw [toDouble_exact hd]
    exact ⟨Iff.rfl, Iff.rfl, Iff.rfl⟩
  · obtain ⟨hpos, hneg⟩ := toDouble_large (Nat.le_of_not_lt hd)
    by_cases h : 0 ≤ d
    · have := hpos h
      omega
    · have := hneg (by omega)
      omega
/-! ## Integer texts -/

/-- `s.c_str()` as a C string: up to the first NUL. -/
def cStr (s : Bytes) : Bytes := s.takeWhile (· ≠ 0)

def isSpace (b : UInt8) : Bool := b = 32 || (9 ≤ b && b ≤ 13)

def isDigit (b : UInt8) : Bool := 48 ≤ b && b ≤ 57

def digitVal (b : UInt8) : Nat := b.toNat - 48

def decimal (ds : Bytes) : Nat := ds.foldl (fun n d => 10 * n + digitVal d) 0

/-- An optional sign: whether it was a minus, and how many bytes it took. -/
def sign : Bytes → Bool × Nat
  | 45 :: _ => (true, 1)
  | 43 :: _ => (false, 1)
  | _ => (false, 0)

/-- `strtoll(s, &end, 10)`: the value, `end - s` and whether errno became ERANGE. -/
structure Strtoll where
  val : Int
  stop : Nat
  erange : Bool
  deriving DecidableEq, Repr

def strtoll (s : Bytes) : Strtoll :=
  let c := cStr s
  let ws := (c.takeWhile isSpace).length
  let sg := sign (c.drop ws)
  let ds := (c.drop (ws + sg.2)).takeWhile isDigit
  if ds = [] then ⟨0, 0, false⟩
  else
    let v : Int := if sg.1 then -(decimal ds : Int) else decimal ds
    let stop := ws + sg.2 + ds.length
    if v < -2 ^ 63 then ⟨-2 ^ 63, stop, true⟩
    else if 2 ^ 63 ≤ v then ⟨2 ^ 63 - 1, stop, true⟩
    else ⟨v, stop, false⟩

/-- `str2int`: the whole `std::string` has to be consumed. -/
def str2int (s : Bytes) : Option Int :=
  let r := strtoll s
  if r.erange || r.stop ≠ s.length then none else some r.val

/-- `std::stoll(s)`. -/
def stoll (s : Bytes) : Res Int :=
  let r := strtoll s
  if r.stop = 0 || r.erange then .error .exception else .ok r.val

/-! ## Floating-point texts -/

/-- `num / den` rounded to nearest even, as magnitude bits, and whether ERANGE is set: on
    overflow, and on a result that is inexact and smaller than every normal number. -/
def roundMag (num den : Nat) : Nat × Bool :=
  if num = 0 then (0, false)
  else
    let e₀ : Int := (Nat.log2 num : Int) - Nat.log2 den
    -- 2 ^ e ≤ num / den < 2 ^ (e + 1)
    let e : Int := if num * 2 ^ (-e₀).toNat < den * 2 ^ e₀.toNat then e₀ - 1 else e₀
    let s : Int := max (e - 52) (-1074)
    let n := num * 2 ^ (-s).toNat
    let d := den * 2 ^ s.toNat
    let m := n / d
    let r := n % d
    let m' := if 2 * r > d ∨ (2 * r = d ∧ m % 2 = 1) then m + 1 else m
    let mag := (s + 1074).toNat * 2 ^ 52 + m'
    if Dbl.infMag ≤ mag then (Dbl.infMag, true)
    else (mag, r ≠ 0 && num * 2 ^ 1076 < den * (2 ^ 54 - 1))

/-- `m * 10 ^ e`; exponents that overflow or vanish for any `m` are not expanded. -/
def scaleDecimal (m : Nat) (digits : Nat) (e : Int) : Nat × Bool :=
  if m = 0 then (0, false)
  else if e > 400 then (Dbl.infMag, true)
  else if e + digits < -400 then (0, true)
  else roundMag (m * 10 ^ e.toNat) (10 ^ (-e).toNat)

/-- `m * 2 ^ e` for a hexadecimal significand of `digits` digits. -/
def scaleBinary (m : Nat) (digits : Nat) (e : Int) : Nat × Bool :=
  if m = 0 then (0, false)
  else if e > 1200 then (Dbl.infMag, true)
  else if e + 4 * digits < -1200 then (0, true)
  else roundMag (m * 2 ^ e.toNat) (2 ^ (-e).toNat)

def lower (b : UInt8) : UInt8 := if 65 ≤ b && b ≤ 90 then b + 32 else b

/-- Case-insensitive prefix test, `word` in lower case. -/
def startsWith (word s : Bytes) : Bool := (s.take word.length).map lower = word

def isHex (b : UInt8) : Bool := isDigit b || (97 ≤ lower b && lower b ≤ 102)

def hexVal (b : UInt8) : Nat := if isDigit b then b.toNat - 48 else (lower b).toNat - 87

/-- `[point digits]` behind the integer digits. -/
def fraction (isD : UInt8 → Bool) : Bytes → Bytes
  | 46 :: s => s.takeWhile isD
  | _ => []

/-- The exponent part introduced by `mark`, 0 when there is none or it has no digits. -/
def exponentPart (mark : UInt8) : Bytes → Int
  | b :: s =>
    if lower b = mark then
      let sg := sign s
      let e := decimal ((s.drop sg.2).takeWhile isDigit)
      if sg.1 then -(e : Int) else e
    else 0
  | [] => 0

/-- Integer digits, fraction digits and the text behind them. -/
def mantissa (isD : UInt8 → Bool) (s : Bytes) : Bytes × Bytes × Bytes :=
  let ip := s.takeWhile isD
  let rest := s.drop ip.length
  let fp := fraction isD rest
  -- a lone point is only part of the number when a digit stands before or behind it
  let point := if rest.head? = some 46 && !(ip.isEmpty && fp.isEmpty) then 1 else 0
  (ip, fp, rest.drop (point + fp.length))

def isOctal (b : UInt8) : Bool := 48 ≤ b && b ≤ 55

/-- The number that `strtoull(s, &end, 0)` reads: its base, the length of its prefix, its digits. -/
def baseDigits (s : Bytes) : Nat × Nat × Bytes :=
  let hex := (s.drop 2).takeWhile isHex
  if startsWith (ascii "0x") s && !hex.isEmpty then (16, 2, hex)
  else if s.head? = some 48 then (8, 0, s.takeWhile isOctal)
  else (10, 0, s.takeWhile isDigit)

/-- A byte of the `n-char-sequence` in `nan(n-char-sequence)`. -/
def isNanChar (b : UInt8) : Bool := isDigit b || (97 ≤ lower b && lower b ≤ 122) || b = 95

/-- Magnitude and ERANGE of a NaN, from the text behind `nan`: when the sequence in the brackets is
    a number, its low 51 bits are the payload. -/
def nanText : Bytes → Nat × Bool
  | 40 :: s =>
    let chars := s.takeWhile isNanChar
    let (base, start, ds) := baseDigits chars
    let v := ds.foldl (fun n d => base * n + hexVal d) 0
    if (s.drop chars.length).head? ≠ some 41 then (Dbl.nanMag, false)
    else if start + ds.length ≠ chars.length then (Dbl.nanMag, 2 ^ 64 ≤ v)
    else if 2 ^ 64 ≤ v then (Dbl.nanMag + (2 ^ 51 - 1), true)
    else (Dbl.nanMag + v % 2 ^ 51, false)
  | _ => (Dbl.nanMag, false)

/-- Magnitude and ERANGE of the number text at the start of `s` (sign removed), `none` when there
    is none. -/
def unsignedText (s : Bytes) : Option (Nat × Bool) :=
  if startsWith (ascii "inf") s then some (Dbl.infMag, false)
  else if startsWith (ascii "nan") s then some (nanText (s.drop 3))
  else
    let hex := mantissa isHex (s.drop 2)
    if startsWith (ascii "0x") s && !(hex.1.isEmpty && hex.2.1.isEmpty) then
      let ds := hex.1 ++ hex.2.1
      some (scaleBinary (ds.foldl (fun n d => 16 * n + hexVal d) 0) ds.length
        (exponentPart 112 hex.2.2 - 4 * hex.2.1.length))
    else
      let dec := mantissa isDigit s
      if dec.1.isEmpty && dec.2.1.isEmpty then none
      else
        let ds := dec.1 ++ dec.2.1
        some (scaleDecimal (decimal ds) ds.length (exponentPart 101 dec.2.2 - dec.2.1.length))

/-- `std::stod(s)`. -/
def stod (s : Bytes) : Res Dbl :=
  let c := cStr s
  let t := c.dropWhile isSpace
  let sg := sign t
  match unsignedText (t.drop sg.2) with
  | none => .error .exception
  | some (mag, erange) => if erange then .error .exception else .ok (Dbl.ofMag sg.1 mag)

example : stod (ascii "1.5") = .ok ⟨0x3FF8000000000000⟩ := by decide +kernel
example : stod (ascii "-nan(0x1F)") = .ok ⟨0xFFF800000000001F⟩ := by decide +kernel
example : stod (ascii "notanumber") = .error .exception := by decide +kernel
example : stoll (ascii " -42x") = .ok (-42) := by decide +kernel

end RedisServer
