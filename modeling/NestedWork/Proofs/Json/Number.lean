import Mathlib.Data.List.Basic
import NestedWork.Json.Number

/-!
# The numbers of a text

What a number looks like, and what it is read as. Every number is passed over, up to what stands
after it, and the decimal digits of an integer of 64 bits are read as that integer.

## Implementation notes

A number has no closing character, so all of this depends on what stands after it. After a value of
a JSON text there is nothing, or one of seven characters.
-/

namespace NestedWork.Json

variable {digits rest whole fraction exponent sign number : List Char}

/-! ## What stands after a value -/

/-- The characters that may stand right after a value. -/
def stops : List Char := [' ', '\n', '\t', '\r', ',', ']', '}']

/-- A value may end before this text. -/
def Delimited (rest : List Char) : Prop := ∀ c ∈ rest.head?, c ∈ stops

theorem delimited_cons {c : Char} (stop : c ∈ stops) (rest : List Char) : Delimited (c :: rest) :=
  fun _ mem => Option.mem_some.mp mem ▸ stop

/-- No digit stands at the front of a text. -/
def Undigited (rest : List Char) : Prop := ∀ c ∈ rest.head?, isDigit c = false

theorem Delimited.undigited (delimited : Delimited rest) : Undigited rest := by
  have all : ∀ c ∈ stops, isDigit c = false := by simp [stops, isDigit]
  exact fun c mem => all c (delimited c mem)

/-! ## Runs of digits -/

/-- One or more decimal digits. -/
def IsDigits (digits : List Char) : Prop := digits ≠ [] ∧ ∀ c ∈ digits, isDigit c = true

instance : Decidable (IsDigits digits) :=
  @instDecidableAnd _ _ inferInstance (List.decidableBAll _ _)

/-- A digit stands at the front of a text, unless the text is empty. -/
def Digited (rest : List Char) : Prop := ∀ c ∈ rest.head?, isDigit c = true

theorem IsDigits.digited (isDigits : IsDigits digits) (rest : List Char) :
    Digited (digits ++ rest) := by
  obtain ⟨nonempty, all⟩ := isDigits
  obtain ⟨c, more, rfl⟩ := List.exists_cons_of_ne_nil nonempty
  exact fun c mem => Option.mem_some.mp mem ▸ all _ List.mem_cons_self

theorem digitRun_eq_nil (undigited : Undigited rest) : digitRun rest = [] := by
  cases rest with
  | nil => rfl
  | cons c rest => simp [digitRun, undigited c rfl]

theorem afterDigits_eq_self (undigited : Undigited rest) : afterDigits rest = rest := by
  cases rest with
  | nil => rfl
  | cons c rest => simp [afterDigits, undigited c rfl]

theorem digitRun_append (all : ∀ c ∈ digits, isDigit c = true) (undigited : Undigited rest) :
    digitRun (digits ++ rest) = digits := by
  have stop := digitRun_eq_nil undigited
  rw [digitRun] at stop ⊢
  rw [List.takeWhile_append_of_pos all, stop, List.append_nil]

theorem afterDigits_append (all : ∀ c ∈ digits, isDigit c = true) (undigited : Undigited rest) :
    afterDigits (digits ++ rest) = rest := by
  have stop := afterDigits_eq_self undigited
  rw [afterDigits] at stop ⊢
  rw [List.dropWhile_append_of_pos all, stop]

/-! ## Passing over -/

/-- The digits before the point: a zero alone, or digits that do not start with a zero. -/
def IsWhole (whole : List Char) : Prop := whole = ['0'] ∨ IsDigits whole ∧ whole.head? ≠ some '0'

/-- An optional point and the digits after it. -/
def IsFraction (fraction : List Char) : Prop :=
  fraction = [] ∨ ∃ digits, IsDigits digits ∧ fraction = '.' :: digits

/-- An optional exponent. -/
def IsExponent (exponent : List Char) : Prop :=
  exponent = [] ∨ ∃ letter ∈ ['e', 'E'], ∃ sign ∈ [[], ['+'], ['-']], ∃ digits,
    IsDigits digits ∧ exponent = letter :: (sign ++ digits)

/-- A number. -/
def IsNumber (number : List Char) : Prop :=
  ∃ sign ∈ [[], ['-']], ∃ whole fraction exponent, IsWhole whole ∧ IsFraction fraction ∧
    IsExponent exponent ∧ number = sign ++ (whole ++ (fraction ++ exponent))

theorem IsWhole.isDigits (isWhole : IsWhole whole) : IsDigits whole := by
  rcases isWhole with rfl | ⟨isDigits, -⟩
  · decide
  · exact isDigits

theorem passDigits_append (isDigits : IsDigits digits) (undigited : Undigited rest) :
    passDigits (digits ++ rest) = .ok rest := by
  obtain ⟨nonempty, all⟩ := isDigits
  simp [passDigits, digitRun_append all undigited, afterDigits_append all undigited, nonempty]

/-- A digit is no sign. -/
theorem exponentSign_of_digited (digited : Digited rest) : (exponentSign rest).2 = rest := by
  fun_cases exponentSign rest with
  | case1 => exact absurd (digited '+' rfl) (by decide)
  | case2 => exact absurd (digited '-' rfl) (by decide)
  | case3 => rfl

theorem exponentSign_append (isSign : sign ∈ [[], ['+'], ['-']]) (isDigits : IsDigits digits) :
    (exponentSign (sign ++ (digits ++ rest))).2 = digits ++ rest := by
  simp only [List.mem_cons, List.not_mem_nil, or_false] at isSign
  rcases isSign with rfl | rfl | rfl
  · exact exponentSign_of_digited (isDigits.digited rest)
  · rfl
  · rfl

theorem passExponent_of_delimited (delimited : Delimited rest) : passExponent rest = .ok rest := by
  fun_cases passExponent rest with
  | case1 => exact absurd (delimited 'e' rfl) (by decide)
  | case2 => exact absurd (delimited 'E' rfl) (by decide)
  | case3 => rfl

theorem passExponent_append (isExponent : IsExponent exponent) (delimited : Delimited rest) :
    passExponent (exponent ++ rest) = .ok rest := by
  rcases isExponent with rfl | ⟨letter, isLetter, sign, isSign, digits, isDigits, rfl⟩
  · exact passExponent_of_delimited delimited
  · have signed : (exponentSign (sign ++ (digits ++ rest))).2 = digits ++ rest :=
      exponentSign_append isSign isDigits
    have passed := passDigits_append isDigits delimited.undigited
    simp only [List.mem_cons, List.not_mem_nil, or_false] at isLetter
    rcases isLetter with rfl | rfl <;> simp [passExponent, signed, passed]

/-- What may stand right after the digits of a number. -/
theorem head?_exponent (isExponent : IsExponent exponent) (delimited : Delimited rest) :
    ∀ c ∈ (exponent ++ rest).head?, c ∈ 'e' :: 'E' :: stops := by
  rcases isExponent with rfl | ⟨letter, isLetter, sign, isSign, digits, isDigits, rfl⟩
  · exact fun c mem => List.mem_append_right ['e', 'E'] (delimited c mem)
  · exact fun c mem => Option.mem_some.mp mem ▸ List.mem_append_left stops isLetter

theorem passFraction_append (isFraction : IsFraction fraction) (isExponent : IsExponent exponent)
    (delimited : Delimited rest) : passFraction (fraction ++ (exponent ++ rest)) = .ok rest := by
  have ended := passExponent_append isExponent delimited
  have head := head?_exponent isExponent delimited
  generalize exponent ++ rest = tail at *
  rcases isFraction with rfl | ⟨digits, isDigits, rfl⟩
  · fun_cases passFraction tail with
    | case1 => exact absurd (head '.' rfl) (by decide)
    | case2 => exact ended
  · have undigited : Undigited tail := by
      have all : ∀ c ∈ 'e' :: 'E' :: stops, isDigit c = false := by simp [stops, isDigit]
      exact fun c mem => all c (head c mem)
    simp [passFraction, passDigits_append isDigits undigited, ended, bind, Except.bind]

theorem passUnsigned_of_head? (zero : rest.head? ≠ some '0') :
    passUnsigned rest = passDigits rest >>= passFraction := by
  fun_cases passUnsigned rest with
  | case1 | case2 => exact absurd rfl zero
  | case3 => rfl

theorem passUnsigned_append (isWhole : IsWhole whole) (isFraction : IsFraction fraction)
    (isExponent : IsExponent exponent) (delimited : Delimited rest) :
    passUnsigned (whole ++ (fraction ++ (exponent ++ rest))) = .ok rest := by
  have ended := passFraction_append isFraction isExponent delimited
  have undigited : Undigited (fraction ++ (exponent ++ rest)) := by
    have all : ∀ c ∈ 'e' :: 'E' :: stops, isDigit c = false := by simp [stops, isDigit]
    rcases isFraction with rfl | ⟨digits, isDigits, rfl⟩
    · exact fun c mem => all c (head?_exponent isExponent delimited c mem)
    · exact fun c mem => Option.mem_some.mp mem ▸ rfl
  generalize fraction ++ (exponent ++ rest) = tail at *
  rcases isWhole with rfl | ⟨isDigits, zero⟩
  · simp [passUnsigned, digitRun_eq_nil undigited, ended]
  · have passed := passDigits_append isDigits undigited
    have head : (whole ++ tail).head? ≠ some '0' := by
      rwa [List.head?_append_of_ne_nil _ isDigits.1]
    rw [passUnsigned_of_head? head, passed]
    exact ended

theorem passNumber_of_digited (digited : Digited rest) :
    passNumber rest = passUnsigned rest := by
  fun_cases passNumber rest with
  | case1 => exact absurd (digited '-' rfl) (by decide)
  | case2 => rfl

/-- Every number is passed over. -/
theorem passNumber_append (isNumber : IsNumber number) (delimited : Delimited rest) :
    passNumber (number ++ rest) = .ok rest := by
  obtain ⟨sign, isSign, whole, fraction, exponent, isWhole, isFraction, isExponent, rfl⟩ := isNumber
  have passed := passUnsigned_append isWhole isFraction isExponent delimited
  simp only [List.mem_cons, List.not_mem_nil, or_false] at isSign
  simp only [List.append_assoc]
  rcases isSign with rfl | rfl
  · exact (passNumber_of_digited (isWhole.isDigits.digited _)).trans passed
  · exact passed

/-! ## Integers -/

theorem le_foldl_appendDigit (digits : List Char) (n : Nat) : n ≤ digits.foldl appendDigit n := by
  induction digits generalizing n with
  | nil => exact Nat.le_refl n
  | cons c digits ih =>
    have grows : n ≤ appendDigit n c := by simp only [appendDigit]; omega
    exact Nat.le_trans grows (ih _)

/-- Digits that make a number of 64 bits are all read. -/
theorem significandOf_eq {n : Nat} (fits : digits.foldl appendDigit n ≤ wordMax) :
    significandOf n digits = (digits.foldl appendDigit n, []) := by
  induction digits generalizing n with
  | nil => rfl
  | cons c digits ih =>
    have first := Nat.le_trans (le_foldl_appendDigit digits (appendDigit n c)) fits
    rw [significandOf, if_pos first, ih fits, List.foldl_cons]

theorem foldl_appendDigit_toDigits (n : Nat) : (Nat.toDigits 10 n).foldl appendDigit 0 = n := by
  have same : appendDigit = fun value c => 10 * value + (c.toNat - '0'.toNat) := by
    funext value c
    rw [appendDigit, Nat.mul_comm]
  rw [same]
  exact Nat.ofDigitChars_ten_toDigits

theorem isDigits_toDigits (n : Nat) : IsDigits (Nat.toDigits 10 n) := by
  refine ⟨Nat.toDigits_ne_nil, fun c mem => ?_⟩
  have digit : c.isDigit = true := Nat.isDigit_of_mem_toDigits (by decide) (by decide) mem
  exact digit

/-- No number but zero is written with a zero in front. -/
theorem head?_toDigits {n : Nat} (pos : 0 < n) : (Nat.toDigits 10 n).head? ≠ some '0' := by
  induction n using Nat.strongRecOn with
  | ind n ih =>
    by_cases small : n < 10
    · simpa [Nat.toDigits_of_lt_base small] using Nat.ne_of_gt pos
    · rw [Nat.toDigits_of_base_le (by decide) (Nat.le_of_not_lt small),
        List.head?_append_of_ne_nil _ Nat.toDigits_ne_nil]
      exact ih _ (by omega) (by omega)

theorem isWhole_toDigits (n : Nat) : IsWhole (Nat.toDigits 10 n) := by
  rcases Nat.eq_zero_or_pos n with rfl | pos
  · exact .inl rfl
  · exact .inr ⟨isDigits_toDigits n, head?_toDigits pos⟩

/-- Whole digits that make a number of 64 bits are that number, if neither a fraction nor an
exponent follows. -/
theorem readWhole_of_delimited (positive : Bool) (fits : digits.foldl appendDigit 0 ≤ wordMax)
    (delimited : Delimited rest) : readWhole positive digits rest =
      .ok (integerOf positive (digits.foldl appendDigit 0), rest) := by
  simp only [readWhole, significandOf_eq fits]
  split
  next => exact absurd (delimited '.' rfl) (by decide)
  next => exact absurd (delimited 'e' rfl) (by decide)
  next => exact absurd (delimited 'E' rfl) (by decide)
  next => rfl

theorem readUnsigned_of_head? (positive : Bool) (zero : rest.head? ≠ some '0')
    (digited : digitRun rest ≠ []) : readUnsigned positive rest =
      readWhole positive (digitRun rest) (afterDigits rest) := by
  unfold readUnsigned
  split
  next => exact absurd rfl zero
  next => simp [digited]

theorem readUnsigned_append (positive : Bool) (isWhole : IsWhole whole)
    (fits : whole.foldl appendDigit 0 ≤ wordMax) (delimited : Delimited rest) :
    readUnsigned positive (whole ++ rest) =
      .ok (integerOf positive (whole.foldl appendDigit 0), rest) := by
  rw [← readWhole_of_delimited positive fits delimited]
  rcases isWhole with rfl | ⟨⟨nonempty, all⟩, zero⟩
  · simp [readUnsigned, digitRun_eq_nil delimited.undigited]
  · have run := digitRun_append all delimited.undigited
    have head : (whole ++ rest).head? ≠ some '0' := by
      rwa [List.head?_append_of_ne_nil _ nonempty]
    rw [readUnsigned_of_head? positive head (by rwa [run]), run,
      afterDigits_append all delimited.undigited]

theorem readNumber_of_digited (digited : Digited rest) :
    readNumber rest = readUnsigned true rest := by
  fun_cases readNumber rest with
  | case1 => exact absurd (digited '-' rfl) (by decide)
  | case2 => rfl

/-- The decimal text of an integer of 64 bits is read as that integer. -/
theorem readNumber_toString {n : Int} (least : -9223372036854775808 ≤ n)
    (greatest : n ≤ 18446744073709551615) (delimited : Delimited rest) :
    readNumber ((toString n).toList ++ rest) = .ok (.integer n, rest) := by
  have read (k : Nat) (fits : k ≤ wordMax) (positive : Bool) :
      readUnsigned positive (Nat.toDigits 10 k ++ rest) = .ok (integerOf positive k, rest) := by
    rw [readUnsigned_append positive (isWhole_toDigits k) _ delimited]
    · rw [foldl_appendDigit_toDigits]
    · rwa [foldl_appendDigit_toDigits]
  rw [Int.toString_eq_repr, Int.repr_eq_if]
  split
  next positive =>
    rw [Nat.toList_repr, readNumber_of_digited ((isDigits_toDigits _).digited _),
      read n.toNat (by simp only [wordMax]; omega), integerOf, if_pos rfl,
      Int.toNat_of_nonneg positive]
  next negative =>
    have value : -((-n).toNat : Int) = n := by omega
    rw [String.toList_append, Nat.toList_repr]
    change readUnsigned false (Nat.toDigits 10 (-n).toNat ++ rest) = _
    rw [read _ (by simp only [wordMax]; omega), integerOf, if_neg Bool.false_ne_true,
      if_pos (by omega), value]

/-- The decimal text of an integer is a number. -/
theorem isNumber_toString (n : Int) : IsNumber (toString n).toList := by
  have whole (k : Nat) : Nat.toDigits 10 k = Nat.toDigits 10 k ++ ([] ++ []) := by simp
  rw [Int.toString_eq_repr, Int.repr_eq_if]
  split
  next =>
    exact ⟨[], by decide, _, [], [], isWhole_toDigits _, .inl rfl, .inl rfl,
      Nat.toList_repr.trans (whole _)⟩
  next =>
    refine ⟨['-'], by decide, _, [], [], isWhole_toDigits (-n).toNat, .inl rfl, .inl rfl, ?_⟩
    rw [String.toList_append, Nat.toList_repr, ← whole]
    rfl

end NestedWork.Json
