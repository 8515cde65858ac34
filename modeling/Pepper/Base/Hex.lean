import Pepper.Base.Bytes

/-!
# Hexadecimal Text

Byte strings as hexadecimal text. Writing uses lower-case digits; reading takes
both cases, so a byte string has one written form and several readable ones.
Lengths and positions count characters: a text with a character outside of
ASCII is refused in either count, only not always with the same error.

## Main definitions

* `Hex.encode`, `Hex.decode`: The two directions.
* `Hex.Error`: Why a text is not hexadecimal, with the words it is reported in.

## Theorems

* `decode_encode`: What was written is read back.
-/

namespace Pepper

namespace Hex

open List

inductive Error where
  | oddLength
  | invalidHexCharacter (c : Char) (index : Nat)
deriving DecidableEq, Repr

def Error.text : Error → String
  | .oddLength => "Odd number of digits"
  | .invalidHexCharacter c index =>
    "Invalid character '" ++ c.toString ++ "' at position " ++ toString index

/-- The digit of a number below sixteen. -/
def digit (n : Nat) : Char :=
  if n < 10 then Char.ofNat (48 + n) else Char.ofNat (87 + n)

def encode (bytes : Bytes) : String :=
  String.ofList (bytes.flatMap fun b => [digit (b.toNat / 16), digit (b.toNat % 16)])

/-- The number a digit of either case stands for. -/
def value (c : Char) : Option Nat :=
  if '0' ≤ c ∧ c ≤ '9' then some (c.toNat - 48)
  else if 'a' ≤ c ∧ c ≤ 'f' then some (c.toNat - 87)
  else if 'A' ≤ c ∧ c ≤ 'F' then some (c.toNat - 55)
  else none

/-- Read a digit, naming its position if it is none. -/
def read (c : Char) (index : Nat) : Except Error Nat :=
  match value c with
  | some n => .ok n
  | none => .error (.invalidHexCharacter c index)

def decodeFrom (index : Nat) : List Char → Except Error Bytes
  | high :: low :: rest => do
      let h ← read high index
      let l ← read low (index + 1)
      let bytes ← decodeFrom (index + 2) rest
      return UInt8.ofNat (16 * h + l) :: bytes
  | _ => .ok []

def decode (text : String) : Except Error Bytes :=
  if text.toList.length % 2 ≠ 0 then .error .oddLength else decodeFrom 0 text.toList

theorem read_digit {n : Nat} (h : n < 16) (index : Nat) : read (digit n) index = .ok n := by
  have hvalue : ∀ m : Fin 16, value (digit m) = some m.val := by decide
  rw [read, hvalue ⟨n, h⟩]

theorem decodeFrom_flatMap (bytes : Bytes) (index : Nat) :
    decodeFrom index (bytes.flatMap fun b => [digit (b.toNat / 16), digit (b.toNat % 16)]) =
      .ok bytes := by
  induction bytes generalizing index with
  | nil => rfl
  | cons b bytes ih =>
    have hb : b.toNat < 256 := b.toNat_lt
    have hbyte : UInt8.ofNat (16 * (b.toNat / 16) + b.toNat % 16) = b := by
      rw [Nat.div_add_mod, UInt8.ofNat_toNat]
    simp only [flatMap_cons, cons_append, nil_append, decodeFrom,
      read_digit (show b.toNat / 16 < 16 by omega), read_digit (show b.toNat % 16 < 16 by omega),
      ih]
    show Except.ok (UInt8.ofNat (16 * (b.toNat / 16) + b.toNat % 16) :: bytes) = _
    rw [hbyte]

/-- What was written is read back. -/
theorem decode_encode (bytes : Bytes) : decode (encode bytes) = .ok bytes := by
  have hlen : (encode bytes).toList.length = bytes.length * 2 := by
    rw [encode, String.toList_ofList]
    induction bytes with
    | nil => rfl
    | cons b bytes ih => rw [flatMap_cons, length_append, ih, length_cons,
        length_cons, length_cons, length_nil]; omega
  rw [decode, if_neg (by omega), encode, String.toList_ofList, decodeFrom_flatMap]

end Hex

namespace Keys

/-- The last digits of a number, the most significant one first. -/
def digits : Nat → Nat → List Char
  | 0, _ => []
  | width + 1, n => digits width (n / 16) ++ [Hex.digit (n % 16)]

/-- A number in a key, with a fixed number of digits so that the order of the
    texts is the order of the numbers. -/
def padded (width n : Nat) : String :=
  String.ofList (digits width n)

end Keys

end Pepper
