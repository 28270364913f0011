import Mathlib.Tactic.IntervalCases
import NestedWork.Json.Literal

/-!
# The spellings of a text

A text can be written as a string literal in many ways: a character may stand for itself, be escaped
by a letter, or be escaped by the hexadecimal digits of its units of sixteen bits, in either case.
Every spelling of a text is read as that text, and the writer of literals is one way to spell it.
What is only passed over need not spell any text, since it may escape units that are no characters.

## Implementation notes

The spellings are given from the text to the literal, so that a pair of units is computed from the
character that it writes. The reader goes the other way.
-/

namespace NestedWork.Json

variable {n : Nat} {c : Char} {body digits rest text : List Char}

/-! ## Hexadecimal digits -/

/-- A hexadecimal digit of a value, in either case. -/
def HexDigit (n : Nat) (c : Char) : Prop := n < 16 ∧ (c = hexChar n ∨ c = (hexChar n).toUpper)

instance : Decidable (HexDigit n c) := inferInstanceAs (Decidable (_ ∧ _))

/-- Four hexadecimal digits of a unit. -/
inductive HexUnit (n : Nat) : List Char → Prop
  | digits {a b c d : Char} (first : HexDigit (n / 4096) a) (second : HexDigit (n / 256 % 16) b)
      (third : HexDigit (n / 16 % 16) c) (fourth : HexDigit (n % 16) d) : HexUnit n [a, b, c, d]

theorem hexDigit?_of (writes : HexDigit n c) : hexDigit? c = some n := by
  obtain ⟨small, writes⟩ := writes
  interval_cases n <;> rcases writes with rfl | rfl <;> rfl

/-- The digits of a unit are read as that unit. -/
theorem HexUnit.exists_eq (writes : HexUnit n digits) :
    ∃ a b c d, digits = [a, b, c, d] ∧ hexUnit? a b c d = some n := by
  obtain ⟨first, second, third, fourth⟩ := writes
  refine ⟨_, _, _, _, rfl, ?_⟩
  have sum : n / 4096 * 4096 + n / 256 % 16 * 256 + n / 16 % 16 * 16 + n % 16 = n := by omega
  simp [hexUnit?, hexDigit?_of first, hexDigit?_of second, hexDigit?_of third,
    hexDigit?_of fourth, sum]

/-! ## Spellings -/

/-- The letters of the short escapes, and what they stand for. -/
def shortEscapes : List (Char × Char) :=
  [('"', '"'), ('\\', '\\'), ('/', '/'), ('b', '\x08'), ('f', '\x0c'), ('n', '\n'), ('r', '\r'),
    ('t', '\t')]

/-- A character may stand for itself in a literal. -/
def IsPlain (c : Char) : Prop := 0x20 ≤ c.toNat ∧ c ≠ '"' ∧ c ≠ '\\'

instance : Decidable (IsPlain c) := inferInstanceAs (Decidable (_ ∧ _ ∧ _))

/-- The inside of a literal spells a text. -/
inductive Spells : List Char → List Char → Prop
  | nil : Spells [] []
  | plain {c : Char} {body text : List Char} (plain : IsPlain c) (more : Spells body text) :
      Spells (c :: body) (c :: text)
  | short {letter c : Char} {body text : List Char} (escape : (letter, c) ∈ shortEscapes)
      (more : Spells body text) : Spells ('\\' :: letter :: body) (c :: text)
  | unit {c : Char} {digits body text : List Char} (unit : HexUnit c.toNat digits)
      (more : Spells body text) : Spells ('\\' :: 'u' :: (digits ++ body)) (c :: text)
  /-- A character beyond sixteen bits, by the two units that share what it is beyond them. -/
  | pair {c : Char} {digits digits' body text : List Char} (beyond : 0x10000 ≤ c.toNat)
      (lead : HexUnit (0xD800 + (c.toNat - 0x10000) / 1024) digits)
      (trail : HexUnit (0xDC00 + (c.toNat - 0x10000) % 1024) digits')
      (more : Spells body text) :
      Spells ('\\' :: 'u' :: (digits ++ '\\' :: 'u' :: (digits' ++ body))) (c :: text)

/-- The inside of a literal, whatever units it escapes. -/
inductive IsLiteral : List Char → Prop
  | nil : IsLiteral []
  | plain {c : Char} {body : List Char} (plain : IsPlain c) (more : IsLiteral body) :
      IsLiteral (c :: body)
  | short {letter c : Char} {body : List Char} (escape : (letter, c) ∈ shortEscapes)
      (more : IsLiteral body) : IsLiteral ('\\' :: letter :: body)
  | unit {n : Nat} {digits body : List Char} (unit : HexUnit n digits) (more : IsLiteral body) :
      IsLiteral ('\\' :: 'u' :: (digits ++ body))

/-- A short escape is known to the reader, and is none by hexadecimal digits. -/
theorem escaped?_of_mem {letter c : Char} (escape : (letter, c) ∈ shortEscapes) :
    escaped? letter = some c ∧ letter ≠ 'u' := by
  have all : ∀ p ∈ shortEscapes, escaped? p.1 = some p.2 ∧ p.1 ≠ 'u' := by decide
  exact all _ escape

/-- A character is no unit of a surrogate pair. -/
theorem isLead_toNat (c : Char) : isLead c.toNat = false ∧ isTrail c.toNat = false := by
  have valid : c.toNat < 0xD800 ∨ 0xDFFF < c.toNat ∧ c.toNat < 0x110000 := c.valid
  simp only [isLead, isTrail, Bool.and_eq_false_iff, decide_eq_false_iff_not]
  omega

/-- The two units of a character beyond sixteen bits are joined to it. -/
theorem joinPair_split (beyond : 0x10000 ≤ c.toNat) :
    joinPair (0xD800 + (c.toNat - 0x10000) / 1024) (0xDC00 + (c.toNat - 0x10000) % 1024) = c := by
  have sum : (0xD800 + (c.toNat - 0x10000) / 1024 - 0xD800) * 1024 +
      (0xDC00 + (c.toNat - 0x10000) % 1024 - 0xDC00) + 0x10000 = c.toNat := by omega
  rw [joinPair, sum, Char.ofNat_toNat]

/-! ## Reading -/

/-- Every spelling of a text is read as that text. -/
theorem textBody_of_spells (spells : Spells body text) (seen rest : List Char) :
    textBody seen (body ++ '"' :: rest) = .ok (seen.reverse ++ text, rest) := by
  induction spells generalizing seen with
  | nil => simp [textBody]
  | @plain c body text plain more ih =>
      obtain ⟨visible, quote, backslash⟩ := plain
      simp [textBody, backslash, ih, Nat.not_lt.mpr visible]
  | short escape more ih =>
      obtain ⟨known, other⟩ := escaped?_of_mem escape
      simp [textBody, known, ih]
  | @unit c digits body text unit more ih =>
      obtain ⟨a, b, c', d, rfl, value⟩ := unit.exists_eq
      obtain ⟨lead, trail⟩ := isLead_toNat c
      simp [textBody, value, lead, trail, ih, Char.ofNat_toNat]
  | @pair c digits digits' body text beyond lead trail more ih =>
      obtain ⟨a, b, c', d, rfl, value⟩ := lead.exists_eq
      obtain ⟨e, f, g, h, rfl, value'⟩ := trail.exists_eq
      have valid : c.toNat < 0xD800 ∨ 0xDFFF < c.toNat ∧ c.toNat < 0x110000 := c.valid
      have isLead : isLead (0xD800 + (c.toNat - 0x10000) / 1024) = true := by
        simp only [Json.isLead, Bool.and_eq_true, decide_eq_true_eq]
        omega
      have notTrail : isTrail (0xD800 + (c.toNat - 0x10000) / 1024) = false := by
        simp only [isTrail, Bool.and_eq_false_iff, decide_eq_false_iff_not]
        omega
      have isTrail : isTrail (0xDC00 + (c.toNat - 0x10000) % 1024) = true := by
        simp only [Json.isTrail, Bool.and_eq_true, decide_eq_true_eq]
        omega
      simp [textBody, value, value', isLead, notTrail, isTrail, joinPair_split beyond, ih]

theorem text_of_spells (spells : Spells body text) (rest : List Char) :
    Json.text (body ++ '"' :: rest) = .ok (text, rest) :=
  textBody_of_spells spells [] rest

/-- Every literal is passed over. -/
theorem passText_of_isLiteral (literal : IsLiteral body) (rest : List Char) :
    passText (body ++ '"' :: rest) = .ok rest := by
  induction literal with
  | nil => simp [passText]
  | plain plain more ih =>
      obtain ⟨visible, quote, backslash⟩ := plain
      simp [passText, backslash, ih, Nat.not_lt.mpr visible]
  | short escape more ih =>
      obtain ⟨known, other⟩ := escaped?_of_mem escape
      simp [passText, known, ih]
  | unit unit more ih =>
      obtain ⟨a, b, c, d, rfl, value⟩ := unit.exists_eq
      simp [passText, value, ih]

/-! ## Writing -/

theorem hexDigit_hexChar (small : n < 16) : HexDigit n (hexChar n) := ⟨small, .inl rfl⟩

/-- What is written for a character spells it. -/
theorem Spells.writeChar (more : Spells body text) (c : Char) :
    Spells (writeChar c ++ body) (c :: text) := by
  unfold Json.writeChar
  split
  case h_1 | h_2 | h_3 | h_4 | h_5 | h_6 | h_7 => exact .short (by decide) more
  case h_8 quote backslash _ _ _ _ _ =>
    split
    next control =>
      have unit : HexUnit c.toNat
          ['0', '0', hexChar (c.toNat / 16), hexChar (c.toNat % 16)] := by
        have high : c.toNat / 4096 = 0 := by omega
        have middle : c.toNat / 256 % 16 = 0 := by omega
        have low : c.toNat / 16 % 16 = c.toNat / 16 := by omega
        have third := hexDigit_hexChar (n := c.toNat / 16) (by omega)
        exact .digits (high ▸ hexDigit_hexChar (by decide)) (middle ▸ hexDigit_hexChar (by decide))
          (low.symm ▸ third) (hexDigit_hexChar (by omega))
      exact .unit unit more
    next visible => exact .plain ⟨Nat.le_of_not_lt visible, quote, backslash⟩ more

/-- What is written for a text spells it. -/
theorem spells_flatMap_writeChar (text : List Char) : Spells (text.flatMap writeChar) text := by
  induction text with
  | nil => exact .nil
  | cons c text ih => exact ih.writeChar c

end NestedWork.Json
