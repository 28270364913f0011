import NestedWork.Json.Fault

/-!
# Numbers

Reading JSON numbers as 64-bit integers, and passing over them.

## Implementation notes

A number with a fraction or an exponent is never an integer, and neither is one beyond 64
bits or a negative zero. All of these are binary fractions, and one too large for a double is
malformed. Largeness is judged on the leading digits that fit 64 bits, rounded to a double,
times a rounded power of ten.

A number that is only passed over is malformed if the text stops inside it.
-/

namespace NestedWork.Json

/-- What a number is worth to a field that takes integers. -/
inductive Number where
  /-- An integer of 64 bits, signed if negative. -/
  | integer (value : Int)
  /-- A binary fraction. -/
  | fraction
deriving DecidableEq, Repr

/-! ## Doubles -/

/-- A natural number rounded to the 53 bits of a double, halves to the even neighbour. -/
def roundToDouble (n : Nat) : Nat :=
  let size := n.log2 + 1
  if size ≤ 53 then n
  else
    let unit := Nat.pow 2 (size - 53)
    let low := n / unit
    let twice := 2 * (n % unit)
    if twice < unit ∨ (twice = unit ∧ low % 2 = 0) then low * unit else (low + 1) * unit

/-- The least real that a double rounds to infinity. -/
def doubleLimit : Nat := Nat.pow 2 1024 - Nat.pow 2 970

/-- A significand times a power of ten is beyond every double. -/
def overflows (significand : Nat) (exponent : Int) : Bool :=
  0 < significand && 0 ≤ exponent &&
    (308 < exponent ||
      doubleLimit ≤ roundToDouble significand * roundToDouble (Nat.pow 10 exponent.toNat))

/-- A binary fraction, unless it is beyond every double. -/
def fractionOf (significand : Nat) (exponent : Int) (rest : List Char) :
    Except Fault (Number × List Char) :=
  if overflows significand exponent then .error .malformed else .ok (.fraction, rest)

/-! ## Reading -/

/-- The largest natural number of 64 bits. -/
def wordMax : Nat := 18446744073709551615

/-- The largest exponent that is kept. -/
def exponentMax : Nat := 2147483647

/-- The number that one more digit makes. -/
def appendDigit (n : Nat) (c : Char) : Nat := n * 10 + (c.toNat - '0'.toNat)

/-- The leading digits that fit 64 bits, and the digits after them. -/
def significandOf : Nat → List Char → Nat × List Char
  | n, [] => (n, [])
  | n, c :: cs =>
    if appendDigit n c ≤ wordMax then significandOf (appendDigit n c) cs else (n, c :: cs)

/-- The digits of an exponent as a number, or nothing once it is beyond what is kept. -/
def exponentOf : Nat → List Char → Option Nat
  | n, [] => some n
  | n, c :: cs =>
    if appendDigit n c ≤ exponentMax then exponentOf (appendDigit n c) cs else none

/-- The digits at the front of a text. -/
def digitRun (cs : List Char) : List Char := cs.takeWhile isDigit

/-- What follows the digits at the front of a text. -/
def afterDigits (cs : List Char) : List Char := cs.dropWhile isDigit

/-- A number whose text stops, or goes on with the wrong character, where a digit is needed. -/
def missingDigit {α : Type} : List Char → Except Fault α
  | [] => .error .ended
  | _ :: _ => .error .malformed

/-- The sign of an exponent, true for a positive one, and what follows it. -/
def exponentSign : List Char → Bool × List Char
  | '+' :: cs => (true, cs)
  | '-' :: cs => (false, cs)
  | cs => (true, cs)

/-- The rest of a number after the letter of its exponent. -/
def readExponent (significand : Nat) (scale : Int) (cs : List Char) :
    Except Fault (Number × List Char) :=
  let (positive, cs) := exponentSign cs
  let digits := digitRun cs
  if digits.isEmpty then missingDigit cs
  else match exponentOf 0 digits with
    | some e =>
      fractionOf significand (if positive then scale + e else scale - e) (afterDigits cs)
    | none =>
      if 0 < significand ∧ positive then .error .malformed
      else .ok (.fraction, afterDigits cs)

/-- The rest of a number after its fraction. -/
def readTail (significand : Nat) (scale : Int) : List Char → Except Fault (Number × List Char)
  | 'e' :: cs | 'E' :: cs => readExponent significand scale cs
  | cs => fractionOf significand scale cs

/-- The rest of a number after the point of its fraction. -/
def readFraction (significand : Nat) (scale : Int) (cs : List Char) :
    Except Fault (Number × List Char) :=
  let digits := digitRun cs
  if digits.isEmpty then missingDigit cs
  else
    let (value, unread) := significandOf significand digits
    readTail value (scale - (digits.length - unread.length : Nat)) (afterDigits cs)

/-- A whole number of the given sign, if it is an integer of 64 bits. -/
def integerOf (positive : Bool) (value : Nat) : Number :=
  if positive then .integer value
  else if 0 < value ∧ value ≤ 9223372036854775808 then .integer (-value)
  else .fraction

/-- The rest of a number after its whole digits. -/
def readWhole (positive : Bool) (digits rest : List Char) : Except Fault (Number × List Char) :=
  let (value, unread) := significandOf 0 digits
  match rest with
  | '.' :: cs => readFraction value unread.length cs
  | 'e' :: cs | 'E' :: cs => readExponent value unread.length cs
  | cs =>
    if unread.isEmpty then .ok (integerOf positive value, cs)
    else fractionOf value unread.length cs

/-- A number after its sign. A leading zero stands alone. -/
def readUnsigned (positive : Bool) (cs : List Char) : Except Fault (Number × List Char) :=
  match cs with
  | '0' :: rest =>
    if (digitRun rest).isEmpty then readWhole positive ['0'] rest else .error .malformed
  | _ =>
    let digits := digitRun cs
    if digits.isEmpty then missingDigit cs else readWhole positive digits (afterDigits cs)

/-- A number from its first character on. -/
def readNumber : Reader Number
  | '-' :: cs => readUnsigned false cs
  | cs => readUnsigned true cs

/-! ## Passing over -/

/-- What follows the digits at the front of a text, of which there must be one. -/
def passDigits (cs : List Char) : Except Fault (List Char) :=
  if (digitRun cs).isEmpty then .error .malformed else .ok (afterDigits cs)

/-- What follows an optional exponent. -/
def passExponent : List Char → Except Fault (List Char)
  | 'e' :: cs | 'E' :: cs => passDigits (exponentSign cs).2
  | cs => .ok cs

/-- What follows an optional fraction and an optional exponent. -/
def passFraction : List Char → Except Fault (List Char)
  | '.' :: cs => do passExponent (← passDigits cs)
  | cs => passExponent cs

/-- What follows a number after its sign. -/
def passUnsigned (cs : List Char) : Except Fault (List Char) :=
  match cs with
  | '0' :: rest => if (digitRun rest).isEmpty then passFraction rest else .error .malformed
  | _ => do passFraction (← passDigits cs)

/-- What follows a number from its first character on. -/
def passNumber : List Char → Except Fault (List Char)
  | '-' :: cs => passUnsigned cs
  | cs => passUnsigned cs

end NestedWork.Json
