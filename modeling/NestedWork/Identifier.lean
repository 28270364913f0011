/-!
# Identifiers

Sortable 128-bit identifiers and their text of 26 characters, and the local identifiers of
transactions.

## Implementation notes

The text is the number in base 32, most significant digit first, in an alphabet without the
letters I, L, O and U. The first 48 bits are the milliseconds of the moment and the rest is
drawn at random.
-/

namespace NestedWork

/-- An identifier of 128 bits. -/
structure Ulid where
  bits : BitVec 128
deriving DecidableEq

namespace Ulid

/-- The identifier of a moment, in milliseconds, and 80 random bits. -/
def ofParts (millis : BitVec 48) (random : BitVec 80) : Ulid := ⟨millis ++ random⟩

/-- The digits of base 32. -/
def alphabet : List Char := "0123456789ABCDEFGHJKMNPQRSTVWXYZ".toList

/-- The least significant digits of a number, most significant first. -/
def digits (n : Nat) : Nat → List Char
  | 0 => []
  | count + 1 => digits (n / 32) count ++ [alphabet.getD (n % 32) '0']

/-- The text of an identifier. -/
def text (u : Ulid) : String := String.ofList (digits u.bits.toNat 26)

/-- The text of an identifier in lower case. -/
def lowerText (u : Ulid) : String := String.ofList ((digits u.bits.toNat 26).map Char.toLower)

/-- A character of the lower-case alphabet. -/
def isLowerDigit (c : Char) : Bool := (alphabet.map Char.toLower).contains c

/-- The identifiers drawn in a row from one moment on, each with the random bits after those
of the one before. -/
def sequence (millis : BitVec 48) (random : BitVec 80) : Nat → List Ulid
  | 0 => []
  | count + 1 => ofParts millis random :: sequence millis (random + 1) count

end Ulid

/-- The local identifier of a transaction: the text of its identifier, a colon and its place
among all transactions. -/
def localIdentifier (u : Ulid) (sequence : Nat) : String :=
  u.lowerText ++ ":" ++ toString sequence

end NestedWork
