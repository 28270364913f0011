/-!
# Upper case

Upper-casing as far as it ends in ASCII letters.

## Implementation notes

Full upper-casing maps a few letters outside ASCII to ASCII letters: dotless i, long s,
sharp s and the Latin ligatures. Every other character outside ASCII keeps at least one
character outside ASCII, and is left as it is here. A text made of ASCII characters is
therefore reached by this map exactly when it is reached by the full one.
-/

namespace NestedWork.Text

/-- The upper-case form of a character, exact wherever that form is made of ASCII letters. -/
def upper (c : Char) : List Char :=
  match c.toNat with
  | 0x131 => ['I']
  | 0x17F => ['S']
  | 0xDF => ['S', 'S']
  | 0xFB00 => ['F', 'F']
  | 0xFB01 => ['F', 'I']
  | 0xFB02 => ['F', 'L']
  | 0xFB03 => ['F', 'F', 'I']
  | 0xFB04 => ['F', 'F', 'L']
  | 0xFB05 => ['S', 'T']
  | 0xFB06 => ['S', 'T']
  | _ => [c.toUpper]

/-- The upper-case form of a text. -/
def upperText (cs : List Char) : List Char := cs.flatMap upper

end NestedWork.Text
