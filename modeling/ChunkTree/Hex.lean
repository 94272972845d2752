import ChunkTree.Bytes

/-!
# Hexadecimal text

Bytes written with two digits each, the high half first.  Writing uses lower-case letters; reading
takes both cases, and takes nothing but pairs of digits.
-/

namespace ChunkTree.Hex

/-- The character of a digit below sixteen. -/
def digit (value : Nat) : Char :=
  if value < 10 then Char.ofNat (48 + value) else Char.ofNat (87 + value)

/-- The value of a digit, in either case. -/
def value? (c : Char) : Option Nat :=
  if '0' ≤ c ∧ c ≤ '9' then some (c.toNat - 48)
  else if 'a' ≤ c ∧ c ≤ 'f' then some (c.toNat - 87)
  else if 'A' ≤ c ∧ c ≤ 'F' then some (c.toNat - 55)
  else none

/-- The two digits of a byte. -/
def ofByte (byte : UInt8) : List Char := [digit (byte.toNat / 16), digit (byte.toNat % 16)]

/-- Bytes as digits. -/
def encode (bytes : List UInt8) : List Char := bytes.flatMap ofByte

/-- The bytes that pairs of digits stand for; nothing if a character is no digit or one is left
over. -/
def decode? : List Char → Option (List UInt8)
  | [] => some []
  | [_] => none
  | high :: low :: rest => do
    let high ← value? high
    let low ← value? low
    let rest ← decode? rest
    return UInt8.ofNat (16 * high + low) :: rest

/-- Each of the sixteen digits reads back. -/
theorem value?_digit {value : Nat} (small : value < 16) : value? (digit value) = some value := by
  have each : ∀ value : Fin 16, value? (digit value.val) = some value.val := by decide
  exact each ⟨value, small⟩

@[simp]
theorem length_encode (bytes : List UInt8) : (encode bytes).length = 2 * bytes.length := by
  induction bytes with
  | nil => rfl
  | cons byte rest ih =>
    simp only [encode, List.flatMap_cons, List.length_append, List.length_cons] at ih ⊢
    simp only [ofByte, List.length_cons, List.length_nil]
    omega

/-- Reading the digits of bytes gives the bytes back. -/
@[simp]
theorem decode?_encode (bytes : List UInt8) : decode? (encode bytes) = some bytes := by
  induction bytes with
  | nil => rfl
  | cons byte rest ih =>
    have bound := byte.toNat_lt
    have high : byte.toNat / 16 < 16 := by omega
    have low : byte.toNat % 16 < 16 := by omega
    have halves : 16 * (byte.toNat / 16) + byte.toNat % 16 = byte.toNat := by omega
    have together : UInt8.ofNat (16 * (byte.toNat / 16) + byte.toNat % 16) = byte := by
      rw [halves, UInt8.ofNat_toNat]
    have split : encode (byte :: rest)
        = digit (byte.toNat / 16) :: digit (byte.toNat % 16) :: encode rest := rfl
    rw [split, decode?, value?_digit high, value?_digit low, ih]
    simp only [Option.bind_eq_bind, Option.bind_some, Option.pure_def, together]

end ChunkTree.Hex
