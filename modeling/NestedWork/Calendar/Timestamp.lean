import NestedWork.Calendar.Date
import NestedWork.Duration

/-!
# Timestamps

Points in universal time and their internet text form: date, `T`, time of day, fraction and
offset.

## Implementation notes

A leap second keeps the whole second before it and counts on beyond a full second of
nanoseconds. An offset shifts whole minutes, so it never moves the seconds or the fraction.
A fraction is read to nine digits and digits beyond are dropped. It is written with no, three,
six or nine digits, the fewest that lose nothing.

The reader is strict. Every number but the fraction has its full width, and nothing stands between
the parts but what the form has there. A looser reader would also take numbers of fewer digits,
years with a sign, further white space, or `UTC` for the offset. Such texts are not read here.
-/

namespace NestedWork.Calendar

/-- A point in universal time: whole seconds from 1970 and nanoseconds within the second.
One second or more of nanoseconds marks a leap second. -/
structure Timestamp where
  seconds : Int
  nanos : Nat
deriving DecidableEq, Repr, Inhabited

namespace Timestamp

/-- The timestamp of a clock that read the given one at its zero. -/
def add (t : Timestamp) (i : Instant) : Timestamp :=
  let total := t.nanos + i.nanos
  ⟨t.seconds + total / 1000000000, total % 1000000000⟩

/-! ## Reading -/

/-- The value of a decimal digit. -/
def digit? (c : Char) : Option Nat :=
  if '0' ≤ c ∧ c ≤ '9' then some (c.toNat - '0'.toNat) else none

/-- A number of exactly the given count of digits, and what follows it. -/
def digits? : Nat → Nat → List Char → Option (Nat × List Char)
  | 0, value, cs => some (value, cs)
  | _ + 1, _, [] => none
  | count + 1, value, c :: cs => do
    let d ← digit? c
    digits? count (value * 10 + d) cs

/-- What follows one of the given characters. -/
def skip? (allowed : List Char) : List Char → Option (List Char)
  | [] => none
  | c :: cs => if allowed.contains c then some cs else none

/-- The digits of a fraction as nanoseconds: the first nine, short fractions filled up. -/
def nanosOfDigits (digits : List Char) : Nat :=
  ((digits ++ List.replicate 9 '0').take 9).foldl
    (fun value c => value * 10 + ((digit? c).getD 0)) 0

/-- An optional fraction, as nanoseconds, and what follows it. -/
def fraction? (cs : List Char) : Option (Nat × List Char) :=
  match cs with
  | '.' :: rest =>
    let digits := rest.takeWhile fun c => (digit? c).isSome
    if digits.isEmpty then none
    else some (nanosOfDigits digits, rest.drop digits.length)
  | _ => some (0, cs)

/-- The hours and minutes of a signed offset, in seconds. -/
def signedOffset? (sign : Int) (cs : List Char) : Option (Int × List Char) := do
  let (hours, cs) ← digits? 2 0 cs
  let cs := match cs with
    | ':' :: rest => rest
    | _ => cs
  let (minutes, cs) ← digits? 2 0 cs
  if 60 ≤ minutes ∨ 24 ≤ hours then none
  else some (sign * (hours * 3600 + minutes * 60 : Nat), cs)

/-- The offset from universal time, in seconds, and what follows it. -/
def offset? : List Char → Option (Int × List Char)
  | 'Z' :: cs | 'z' :: cs => some (0, cs)
  | '+' :: cs => signedOffset? 1 cs
  | '-' :: cs | '−' :: cs => signedOffset? (-1) cs
  | _ => none

/-- The timestamp of a local date, time of day and offset, if they exist. -/
def ofLocal? (date : Date) (hour minute second nanos : Nat) (offset : Int) :
    Option Timestamp :=
  if date.isValid ∧ hour < 24 ∧ minute < 60 ∧ second ≤ 60 then
    let (second, nanos) := if second = 60 then (59, nanos + 1000000000) else (second, nanos)
    some ⟨date.toDays * 86400 + (hour * 3600 + minute * 60 + second : Nat) - offset, nanos⟩
  else none

/-- The timestamp a text writes in the strict form. -/
def parse? (text : List Char) : Option Timestamp := do
  let (year, cs) ← digits? 4 0 text
  let cs ← skip? ['-'] cs
  let (month, cs) ← digits? 2 0 cs
  let cs ← skip? ['-'] cs
  let (day, cs) ← digits? 2 0 cs
  let cs ← skip? ['T', 't', ' '] cs
  let (hour, cs) ← digits? 2 0 cs
  let cs ← skip? [':'] cs
  let (minute, cs) ← digits? 2 0 cs
  let cs ← skip? [':'] cs
  let (second, cs) ← digits? 2 0 cs
  let (nanos, cs) ← fraction? cs
  let (offset, cs) ← offset? cs
  if cs.isEmpty then ofLocal? ⟨year, month, day⟩ hour minute second nanos offset else none

/-! ## Writing -/

/-- A number with leading zeros up to the given width. -/
def padded (width n : Nat) : List Char :=
  let digits := Nat.toDigits 10 n
  List.replicate (width - digits.length) '0' ++ digits

/-- A year of four digits, with a sign outside the years 0 to 9999. -/
def yearText (year : Int) : List Char :=
  if year < 0 then '-' :: padded 4 year.natAbs
  else if 9999 < year then '+' :: padded 4 year.natAbs
  else padded 4 year.natAbs

/-- The shortest exact fraction of no, three, six or nine digits. -/
def fractionText (nanos : Nat) : List Char :=
  if nanos = 0 then []
  else if nanos % 1000000 = 0 then '.' :: padded 3 (nanos / 1000000)
  else if nanos % 1000 = 0 then '.' :: padded 6 (nanos / 1000)
  else '.' :: padded 9 nanos

/-- The text of a timestamp in universal time. -/
def text (t : Timestamp) : List Char :=
  let date := Date.ofDays (t.seconds.fdiv 86400)
  let second := (t.seconds.fmod 86400).toNat
  let (leap, nanos) :=
    if 1000000000 ≤ t.nanos then (1, t.nanos - 1000000000) else (0, t.nanos)
  yearText date.year ++ ['-'] ++ padded 2 date.month ++ ['-'] ++ padded 2 date.day ++ ['T'] ++
    padded 2 (second / 3600) ++ [':'] ++ padded 2 (second / 60 % 60) ++ [':'] ++
    padded 2 (second % 60 + leap) ++ fractionText nanos ++ ['Z']

end Timestamp

end NestedWork.Calendar
