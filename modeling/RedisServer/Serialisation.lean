import RedisServer.Numbers

/-!
# serialisation.cpp — the response encoding

Every `out_*` function appends to the string it is given.  Integers of the protocol headers are
written by `memcpy` on a little-endian host, payload integers and doubles in big-endian order.
-/

set_option autoImplicit false

namespace RedisServer

def SER_NIL : UInt8 := 0
def SER_ERR : UInt8 := 1
def SER_STR : UInt8 := 2
def SER_INT : UInt8 := 3
def SER_ARR : UInt8 := 4
def SER_DOUBLE : UInt8 := 5

/-- The four bytes of a `uint32_t` in memory (`n` is taken modulo `2 ^ 32`). -/
def le32 (n : Nat) : Bytes :=
  [UInt8.ofNat n, UInt8.ofNat (n / 2 ^ 8), UInt8.ofNat (n / 2 ^ 16), UInt8.ofNat (n / 2 ^ 24)]

/-- The eight bytes of a 64-bit word after `htobe64`. -/
def be64 (n : Nat) : Bytes :=
  [UInt8.ofNat (n / 2 ^ 56), UInt8.ofNat (n / 2 ^ 48), UInt8.ofNat (n / 2 ^ 40),
   UInt8.ofNat (n / 2 ^ 32), UInt8.ofNat (n / 2 ^ 24), UInt8.ofNat (n / 2 ^ 16),
   UInt8.ofNat (n / 2 ^ 8), UInt8.ofNat n]

/-- `memcpy(&v, &data[pos], 4)` into a `uint32_t`. -/
def readU32 (data : Bytes) (pos : Nat) : Res Nat :=
  match data.drop pos with
  | b₀ :: b₁ :: b₂ :: b₃ :: _ =>
    .ok (b₀.toNat + 2 ^ 8 * b₁.toNat + 2 ^ 16 * b₂.toNat + 2 ^ 24 * b₃.toNat)
  | _ => .error .outOfBounds

def outNil (out : Bytes) : Bytes := out ++ [SER_NIL]

def outStr (out val : Bytes) : Bytes := out ++ SER_STR :: le32 val.length ++ val

/-- `val` as an `int64_t`. -/
def outInt (out : Bytes) (val : Int) : Bytes := out ++ SER_INT :: be64 (val % 2 ^ 64).toNat

def outDbl (out : Bytes) (val : Dbl) : Bytes := out ++ SER_DOUBLE :: be64 val.bits.toNat

def outErr (out : Bytes) (code : Nat) (msg : Bytes) : Bytes :=
  out ++ SER_ERR :: le32 code ++ le32 msg.length ++ msg

def outArr (out : Bytes) (n : Nat) : Bytes := out ++ SER_ARR :: le32 n

@[simp] theorem le32_length (n : Nat) : (le32 n).length = 4 := rfl

/-- A length that fits the field is read back. -/
theorem readU32_le32 {n : Nat} (h : n < 2 ^ 32) (rest : Bytes) :
    readU32 (le32 n ++ rest) 0 = .ok n := by
  simp only [readU32, le32, List.drop_zero, List.cons_append, List.nil_append, UInt8.toNat_ofNat']
  congr 1
  omega

theorem be64_inj {m n : Nat} (hm : m < 2 ^ 64) (hn : n < 2 ^ 64) (h : be64 m = be64 n) :
    m = n := by
  simp only [be64, List.cons.injEq, ← UInt8.toNat_inj, UInt8.toNat_ofNat', and_true] at h
  omega

/-- The bytes of an answer tell the number. -/
theorem outInt_inj {out : Bytes} {m n : Nat} (hm : m < 2 ^ 63) (hn : n < 2 ^ 63)
    (h : outInt out m = outInt out n) : m = n := by
  unfold outInt at h
  have hbytes := List.cons_inj_right _ |>.mp (List.append_cancel_left h)
  have := be64_inj (by omega) (by omega) hbytes
  omega

theorem readU32_lt {data : Bytes} {pos n : Nat} (h : readU32 data pos = .ok n) : n < 2 ^ 32 := by
  unfold readU32 at h
  split at h
  · rename_i b₀ b₁ b₂ b₃ _ _
    cases h
    have := b₀.toNat_lt; have := b₁.toNat_lt; have := b₂.toNat_lt; have := b₃.toNat_lt
    omega
  · cases h

/-- The read needs four bytes. -/
theorem readU32_ok_iff {data : Bytes} {pos : Nat} :
    (∃ n, readU32 data pos = .ok n) ↔ pos + 4 ≤ data.length := by
  have hlen : (data.drop pos).length = data.length - pos := List.length_drop
  unfold readU32
  constructor
  · rintro ⟨n, h⟩
    split at h
    · rename_i b₀ b₁ b₂ b₃ rest hd
      rw [hd] at hlen
      simp only [List.length_cons] at hlen
      omega
    · cases h
  · intro h
    match hd : data.drop pos with
    | _ :: _ :: _ :: _ :: _ => exact ⟨_, rfl⟩
    | [] | [_] | [_, _] | [_, _, _] => rw [hd] at hlen; simp at hlen; omega

end RedisServer
