import NestedWork.Duration
import NestedWork.Options
import NestedWork.Text.Visible

/-!
# Diagnostic texts

The layout in which values are shown to developers: a name with fields in braces, or with
arguments in parentheses, and texts in quotes.
-/

namespace NestedWork.Diagnostic

/-- A character by its number, in hexadecimal. -/
def byNumber (c : Char) : String :=
  "\\u\x7b" ++ String.ofList (Nat.toDigits 16 c.toNat) ++ "\x7d"

/-- How a quoted text shows one character. -/
def showChar (c : Char) : String :=
  match c with
  | '"' => "\\\""
  | '\\' => "\\\\"
  | '\n' => "\\n"
  | '\r' => "\\r"
  | '\t' => "\\t"
  | '\x00' => "\\0"
  | c => if Text.isVisible c then c.toString else byNumber c

/-- A text in quotes. -/
def quoted (s : String) : String :=
  "\"" ++ String.join (s.toList.map showChar) ++ "\""

/-- A name with named fields. -/
def record (name : String) (fields : List (String × String)) : String :=
  name ++ " \x7b " ++ String.intercalate ", " (fields.map fun f => f.1 ++ ": " ++ f.2) ++ " \x7d"

/-- A name with one argument. -/
def applied (name argument : String) : String := name ++ "(" ++ argument ++ ")"

/-- A truth value. -/
def flag (b : Bool) : String := if b then "true" else "false"

/-- A span of time by its seconds and nanoseconds. -/
def duration (d : Duration) : String :=
  record "TimeDelta" [("secs", toString d.secondsPart), ("nanos", toString d.nanosPart)]

/-- Transaction options. -/
def options (o : TransactionOptions) : String :=
  record "TransactionOptions"
    [("isolation_level", o.isolation.label), ("timeout", duration o.timeout),
      ("max_degree_of_parallelism", toString o.parallelism)]

end NestedWork.Diagnostic
