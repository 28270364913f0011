import NestedWork.Json.Fault

/-!
# String literals

Reading, passing over and writing JSON string literals.

## Implementation notes

A literal that is read for its text must pair its surrogate escapes. A literal that is only
passed over may hold lone ones, since its text is never needed. Four hexadecimal digits are
looked for in the next four bytes, so a text with fewer bytes left has ended.
-/

namespace NestedWork.Json

/-- The value of a hexadecimal digit. -/
def hexDigit? (c : Char) : Option Nat :=
  if '0' ≤ c ∧ c ≤ '9' then some (c.toNat - '0'.toNat)
  else if 'a' ≤ c ∧ c ≤ 'f' then some (c.toNat - 'a'.toNat + 10)
  else if 'A' ≤ c ∧ c ≤ 'F' then some (c.toNat - 'A'.toNat + 10)
  else none

/-- The unit that four hexadecimal digits write. -/
def hexUnit? (a b c d : Char) : Option Nat := do
  return (← hexDigit? a) * 4096 + (← hexDigit? b) * 256 + (← hexDigit? c) * 16 +
    (← hexDigit? d)

/-- At least this many bytes are left in a text. -/
def hasBytes : Nat → List Char → Bool
  | 0, _ => true
  | _ + 1, [] => false
  | n + 1, c :: cs => hasBytes (n + 1 - c.utf8Size) cs

/-- The character that follows a backslash in an escape of one letter. -/
def escaped? : Char → Option Char
  | '"' => some '"'
  | '\\' => some '\\'
  | '/' => some '/'
  | 'b' => some '\x08'
  | 'f' => some '\x0c'
  | 'n' => some '\n'
  | 'r' => some '\r'
  | 't' => some '\t'
  | _ => none

/-- The first unit of a surrogate pair. -/
def isLead (n : Nat) : Bool := 0xD800 ≤ n && n ≤ 0xDBFF

/-- The second unit of a surrogate pair. -/
def isTrail (n : Nat) : Bool := 0xDC00 ≤ n && n ≤ 0xDFFF

/-- The character that a surrogate pair writes. -/
def joinPair (lead trail : Nat) : Char :=
  Char.ofNat ((lead - 0xD800) * 1024 + (trail - 0xDC00) + 0x10000)

/-- The text of a literal, reading from just after its opening quote. The characters read so
far are held in reverse. -/
def textBody : List Char → List Char → Except Fault (List Char × List Char)
  | _, [] => .error .ended
  | seen, '"' :: rest => .ok (seen.reverse, rest)
  | _, ['\\'] => .error .ended
  | seen, '\\' :: 'u' :: rest =>
    match rest with
    | a :: b :: c :: d :: rest =>
      match hexUnit? a b c d with
      | none => .error .malformed
      | some unit =>
        if isTrail unit then .error .malformed
        else if isLead unit then
          match rest with
          | [] => .error .ended
          | ['\\'] => .error .ended
          | '\\' :: 'u' :: e :: f :: g :: h :: rest =>
            match hexUnit? e f g h with
            | none => .error .malformed
            | some second =>
              if isTrail second then textBody (joinPair unit second :: seen) rest
              else .error .malformed
          | '\\' :: 'u' :: rest =>
            if hasBytes 4 rest then .error .malformed else .error .ended
          | _ => .error .malformed
        else textBody (Char.ofNat unit :: seen) rest
    | rest => if hasBytes 4 rest then .error .malformed else .error .ended
  | seen, '\\' :: c :: rest =>
    match escaped? c with
    | some e => textBody (e :: seen) rest
    | none => .error .malformed
  | seen, c :: rest =>
    if c.toNat < 0x20 then .error .malformed else textBody (c :: seen) rest

/-- The text of a literal whose opening quote has been read. -/
def text : Reader (List Char) := textBody []

/-- What follows a literal whose opening quote has been read, its text left unread. -/
def passText : List Char → Except Fault (List Char)
  | [] => .error .ended
  | '"' :: rest => .ok rest
  | ['\\'] => .error .ended
  | '\\' :: 'u' :: rest =>
    match rest with
    | a :: b :: c :: d :: rest =>
      match hexUnit? a b c d with
      | none => .error .malformed
      | some _ => passText rest
    | rest => if hasBytes 4 rest then .error .malformed else .error .ended
  | '\\' :: c :: rest =>
    match escaped? c with
    | some _ => passText rest
    | none => .error .malformed
  | c :: rest => if c.toNat < 0x20 then .error .malformed else passText rest

/-- A hexadecimal digit in lower case. -/
def hexChar (n : Nat) : Char :=
  if n < 10 then Char.ofNat ('0'.toNat + n) else Char.ofNat ('a'.toNat + (n - 10))

/-- How a literal writes one character. Control characters without a letter of their own are
written in hexadecimal, and all other characters stand for themselves. -/
def writeChar (c : Char) : List Char :=
  match c with
  | '"' => ['\\', '"']
  | '\\' => ['\\', '\\']
  | '\x08' => ['\\', 'b']
  | '\x0c' => ['\\', 'f']
  | '\n' => ['\\', 'n']
  | '\r' => ['\\', 'r']
  | '\t' => ['\\', 't']
  | c =>
    if c.toNat < 0x20 then
      ['\\', 'u', '0', '0', hexChar (c.toNat / 16), hexChar (c.toNat % 16)]
    else [c]

/-- The literal that writes a text. -/
def quote (cs : List Char) : List Char := '"' :: cs.flatMap writeChar ++ ['"']

end NestedWork.Json
