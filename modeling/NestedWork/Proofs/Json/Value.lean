import NestedWork.Json.Value
import NestedWork.Proofs.Json.Literal
import NestedWork.Proofs.Json.Number

/-!
# The values of a text

What a JSON value looks like, with white space between all of its tokens. Every value is passed
over, whatever it is nested in, and within the turns that are allowed for its length.

## Implementation notes

An object differs from an array only in the label that stands before each entry, so the two are one
case here. The reader keeps a stack of open brackets and no results, so a value is passed over with
any stack below it, and then what holds the value goes on.
-/

namespace NestedWork.Json

variable {blank blank' rest cs body text value label entries : List Char}

/-! ## White space -/

/-- White space. -/
def Blank (blank : List Char) : Prop := ∀ c ∈ blank, isSpace c = true

instance : Decidable (Blank blank) := List.decidableBAll _ _

theorem blank_nil : Blank [] := fun _ mem => nomatch mem

theorem skipSpace_append (isBlank : Blank blank) (cs : List Char) :
    skipSpace (blank ++ cs) = skipSpace cs :=
  List.dropWhile_append_of_pos isBlank

theorem skipSpace_cons {c : Char} (visible : isSpace c = false) (cs : List Char) :
    skipSpace (c :: cs) = c :: cs := by
  simp [skipSpace, visible]

theorem skipSpace_append_cons {c : Char} (isBlank : Blank blank) (visible : isSpace c = false)
    (cs : List Char) : skipSpace (blank ++ c :: cs) = c :: cs := by
  rw [skipSpace_append isBlank, skipSpace_cons visible]

theorem delimited_append (isBlank : Blank blank) (delimited : Delimited rest) :
    Delimited (blank ++ rest) := by
  cases blank with
  | nil => exact delimited
  | cons c blank =>
    have space : isSpace c = true := isBlank c List.mem_cons_self
    have stop : c ∈ stops := by
      simp only [isSpace, Bool.or_eq_true, beq_iff_eq] at space
      rcases space with ((rfl | rfl) | rfl) | rfl <;> decide
    exact delimited_cons stop _

/-! ## Well-formed values -/

/-- The character that opens a bracket. -/
def Bracket.opening : Bracket → Char
  | .array => '['
  | .object => '{'

/-- What stands before an entry: nothing in an array, and a name and a colon in an object. -/
inductive IsLabel : Bracket → List Char → Prop
  | none : IsLabel .array []
  | name {blank body blank' : List Char} (before : Blank blank) (literal : IsLiteral body)
      (after : Blank blank') : IsLabel .object (blank ++ '"' :: (body ++ '"' :: (blank' ++ [':'])))

/-- The parts of a value that hold other values. -/
inductive Part where
  | value
  /-- What stands between two brackets, if anything does. -/
  | entries (bracket : Bracket)

/-- A text is a value of any shape, or the inside of one. -/
inductive IsJson : Part → List Char → Prop
  | word {word : List Char} (mem : word ∈ ["null".toList, "true".toList, "false".toList]) :
      IsJson .value word
  | number {number : List Char} (isNumber : IsNumber number) : IsJson .value number
  | string {body : List Char} (literal : IsLiteral body) : IsJson .value ('"' :: (body ++ ['"']))
  | empty {blank : List Char} (bracket : Bracket) (inside : Blank blank) :
      IsJson .value (bracket.opening :: (blank ++ [bracket.closing]))
  | bracket {bracket : Bracket} {entries : List Char} (inside : IsJson (.entries bracket) entries) :
      IsJson .value (bracket.opening :: (entries ++ [bracket.closing]))
  | last {bracket : Bracket} {label blank value blank' : List Char}
      (isLabel : IsLabel bracket label) (before : Blank blank) (isValue : IsJson .value value)
      (after : Blank blank') :
      IsJson (.entries bracket) (label ++ (blank ++ (value ++ blank')))
  | entry {bracket : Bracket} {label blank value blank' entries : List Char}
      (isLabel : IsLabel bracket label) (before : Blank blank) (isValue : IsJson .value value)
      (after : Blank blank') (more : IsJson (.entries bracket) entries) :
      IsJson (.entries bracket) (label ++ (blank ++ (value ++ (blank' ++ ',' :: entries))))

/-! ## One turn -/

/-- What follows the label of an entry. -/
def passLabel : Bracket → List Char → Except Fault (List Char)
  | .array => .ok
  | .object => passName

/-- What happens to the text after a value that stands in the given brackets. -/
def resume (turns : Nat) : List Bracket → List Char → Except Fault (List Char)
  | [] => .ok
  | opened => passFrom turns opened .commaOrEnd

theorem colon_append (isBlank : Blank blank) (rest : List Char) :
    colon (blank ++ ':' :: rest) = .ok rest := by
  rw [colon, skipSpace_append_cons isBlank (by decide)]
  rfl

theorem passLabel_append {bracket : Bracket} (isLabel : IsLabel bracket label) (rest : List Char) :
    passLabel bracket (label ++ rest) = .ok rest := by
  cases isLabel with
  | none => rfl
  | name before literal after =>
    simp only [List.append_assoc, List.cons_append, List.nil_append, passLabel, passName]
    rw [skipSpace_append_cons before (by decide)]
    simp [passText_of_isLiteral literal, colon_append after, bind, Except.bind]

theorem Bracket.isSpace_closing (bracket : Bracket) : isSpace bracket.closing = false := by
  cases bracket <;> rfl

/-- A value is looked for after white space. -/
theorem passFrom_value_append (isBlank : Blank blank) (turns : Nat) (opened : List Bracket)
    (cs : List Char) : passFrom turns opened .value (blank ++ cs) =
      passFrom turns opened .value cs := by
  cases turns with
  | zero => rfl
  | succ turns => simp only [passFrom, skipSpace_append isBlank]

/-- A value that is no array and no object takes one turn. -/
theorem passFrom_scalar {c : Char} (visible : isSpace c = false) (array : c ≠ '[')
    (object : c ≠ '{') (passed : passScalar (c :: cs) = .ok rest) (turns : Nat)
    (opened : List Bracket) :
    passFrom (turns + 1) opened .value (c :: cs) = resume turns opened rest := by
  simp only [passFrom]
  rw [skipSpace_cons visible]
  cases opened <;> simp [array, object, passed, resume, bind, Except.bind]

/-- An opening bracket takes one turn. -/
theorem passFrom_opening (turns : Nat) (bracket : Bracket) (opened : List Bracket)
    (cs : List Char) : passFrom (turns + 1) opened .value (bracket.opening :: cs) =
      passFrom turns (bracket :: opened) .entryOrEnd cs := by
  cases bracket <;> rfl

/-- A closing bracket takes one turn, and makes a value of what it closes. -/
theorem passFrom_closing (isBlank : Blank blank) (turns : Nat) (bracket : Bracket)
    (outer : List Bracket) (awaited : Awaited) (inside : awaited ≠ .value) (rest : List Char) :
    passFrom (turns + 1) (bracket :: outer) awaited (blank ++ bracket.closing :: rest) =
      resume turns outer rest := by
  cases awaited with
  | value => exact absurd rfl inside
  | entryOrEnd | commaOrEnd =>
    simp only [passFrom, skipSpace_append_cons isBlank bracket.isSpace_closing]
    cases outer <;> simp [resume]

/-- The first entry of a bracket takes one turn more. -/
theorem passFrom_entry {bracket : Bracket} {c : Char} (isBlank : Blank blank)
    (visible : isSpace c = false) (more : c ≠ bracket.closing) (turns : Nat)
    (outer : List Bracket) (rest : List Char) :
    passFrom (turns + 1) (bracket :: outer) .entryOrEnd (blank ++ c :: rest) =
      passLabel bracket (blank ++ c :: rest) >>= passFrom turns (bracket :: outer) .value := by
  simp only [passFrom, skipSpace_append_cons isBlank visible, more]
  cases bracket with
  | array => simp [passLabel, passFrom_value_append isBlank, bind, Except.bind]
  | object =>
    simp [passLabel, passName, skipSpace_append_cons isBlank visible, skipSpace_cons visible]

/-- A comma takes one turn. -/
theorem passFrom_comma (isBlank : Blank blank) (turns : Nat) (bracket : Bracket)
    (outer : List Bracket) (rest : List Char) :
    passFrom (turns + 1) (bracket :: outer) .commaOrEnd (blank ++ ',' :: rest) =
      passLabel bracket rest >>= passFrom turns (bracket :: outer) .value := by
  simp only [passFrom]
  rw [skipSpace_append_cons isBlank (by decide)]
  cases bracket <;> rfl

/-! ## Passing over -/

/-- A part is passed over in at most two turns for each of its characters. -/
def Passes : Part → List Char → Prop
  | .value, value => ∃ spent ≤ 2 * value.length, ∀ turns opened rest, Delimited rest →
      passFrom (turns + spent) opened .value (value ++ rest) = resume turns opened rest
  | .entries bracket, entries => ∃ spent ≤ 2 * entries.length + 1, ∀ turns outer rest,
      passLabel bracket (entries ++ bracket.closing :: rest) >>=
        passFrom (turns + spent) (bracket :: outer) .value = resume turns outer rest

theorem passes_word {word : List Char}
    (mem : word ∈ ["null".toList, "true".toList, "false".toList]) : Passes .value word := by
  simp only [List.mem_cons, List.not_mem_nil, or_false] at mem
  rcases mem with rfl | rfl | rfl
  all_goals
    refine ⟨1, by decide, fun turns opened rest _ => ?_⟩
    exact passFrom_scalar (by decide) (by decide) (by decide) rfl turns opened

/-- A number starts with a sign or a digit. -/
theorem IsNumber.exists_cons {number : List Char} (isNumber : IsNumber number) :
    ∃ c cs, number = c :: cs ∧ (c = '-' ∨ isDigit c = true) := by
  obtain ⟨sign, isSign, whole, fraction, exponent, isWhole, -, -, rfl⟩ := isNumber
  obtain ⟨nonempty, all⟩ := isWhole.isDigits
  obtain ⟨c, cs, rfl⟩ := List.exists_cons_of_ne_nil nonempty
  simp only [List.mem_cons, List.not_mem_nil, or_false] at isSign
  rcases isSign with rfl | rfl
  · exact ⟨c, _, rfl, .inr (all c List.mem_cons_self)⟩
  · exact ⟨'-', _, rfl, .inl rfl⟩

theorem ne_of_first {c d : Char} (first : c = '-' ∨ isDigit c = true)
    (other : ¬ (d = '-' ∨ isDigit d = true)) : c ≠ d :=
  fun same => other (same ▸ first)

theorem isSpace_of_first {c : Char} (first : c = '-' ∨ isDigit c = true) : isSpace c = false := by
  have space := ne_of_first (d := ' ') first (by decide)
  have line := ne_of_first (d := '\n') first (by decide)
  have tab := ne_of_first (d := '\t') first (by decide)
  have back := ne_of_first (d := '\r') first (by decide)
  simp [isSpace, space, line, tab, back]

theorem passScalar_of_first {c : Char} (first : c = '-' ∨ isDigit c = true) (cs : List Char) :
    passScalar (c :: cs) = passNumber (c :: cs) := by
  unfold passScalar
  split
  case h_1 impossible => exact nomatch impossible
  case h_2 same | h_3 same | h_4 same | h_5 same =>
    exact absurd (List.cons.inj same).1 (ne_of_first first (by decide))
  case h_6 same =>
    obtain ⟨rfl, rfl⟩ := List.cons.inj same
    exact if_pos first

theorem passes_number {number : List Char} (isNumber : IsNumber number) :
    Passes .value number := by
  obtain ⟨c, cs, rfl, first⟩ := isNumber.exists_cons
  refine ⟨1, by simp only [List.length_cons]; omega, fun turns opened rest delimited => ?_⟩
  have passed : passScalar (c :: (cs ++ rest)) = .ok rest :=
    (passScalar_of_first first _).trans (passNumber_append isNumber delimited)
  exact passFrom_scalar (isSpace_of_first first) (ne_of_first first (by decide))
    (ne_of_first first (by decide)) passed turns opened

theorem passes_string (literal : IsLiteral body) : Passes .value ('"' :: (body ++ ['"'])) := by
  refine ⟨1, by simp only [List.length_cons]; omega, fun turns opened rest _ => ?_⟩
  have passed : passScalar ('"' :: (body ++ ['"'] ++ rest)) = .ok rest := by
    simp [passScalar, passText_of_isLiteral literal]
  exact passFrom_scalar (by decide) (by decide) (by decide) passed turns opened

theorem passes_empty (bracket : Bracket) (inside : Blank blank) :
    Passes .value (bracket.opening :: (blank ++ [bracket.closing])) := by
  refine ⟨2, by simp, fun turns opened rest _ => ?_⟩
  have opens := passFrom_opening (turns + 1) bracket opened (blank ++ bracket.closing :: rest)
  have closes := passFrom_closing inside turns bracket opened .entryOrEnd nofun rest
  simpa using opens.trans closes

/-- A value starts with a character that closes no bracket. -/
theorem IsJson.exists_cons (isValue : IsJson .value value) :
    ∃ c cs, value = c :: cs ∧ isSpace c = false ∧ ∀ bracket : Bracket, c ≠ bracket.closing := by
  have closing : ∀ {c : Char}, c ≠ ']' → c ≠ '}' → ∀ bracket : Bracket, c ≠ bracket.closing := by
    rintro c array object (_ | _)
    exacts [array, object]
  cases isValue with
  | word mem =>
    simp only [List.mem_cons, List.not_mem_nil, or_false] at mem
    rcases mem with rfl | rfl | rfl <;>
      exact ⟨_, _, rfl, by decide, closing (by decide) (by decide)⟩
  | number isNumber =>
    obtain ⟨c, cs, rfl, first⟩ := isNumber.exists_cons
    exact ⟨c, cs, rfl, isSpace_of_first first,
      closing (ne_of_first first (by decide)) (ne_of_first first (by decide))⟩
  | string literal => exact ⟨_, _, rfl, by decide, closing (by decide) (by decide)⟩
  | empty bracket inside =>
    cases bracket <;> exact ⟨_, _, rfl, by decide, closing (by decide) (by decide)⟩
  | @bracket bracket entries inside =>
    cases bracket <;> exact ⟨_, _, rfl, by decide, closing (by decide) (by decide)⟩

/-- The entries of a bracket do not start with its end. -/
theorem passFrom_entries {bracket : Bracket} (inside : IsJson (.entries bracket) entries)
    (turns : Nat) (outer : List Bracket) (rest : List Char) :
    passFrom (turns + 1) (bracket :: outer) .entryOrEnd (entries ++ rest) =
      passLabel bracket (entries ++ rest) >>= passFrom turns (bracket :: outer) .value := by
  have first {label blank value : List Char} (isLabel : IsLabel bracket label)
      (before : Blank blank) (isValue : IsJson .value value) (rest : List Char) :
      passFrom (turns + 1) (bracket :: outer) .entryOrEnd (label ++ (blank ++ (value ++ rest))) =
        passLabel bracket (label ++ (blank ++ (value ++ rest))) >>=
          passFrom turns (bracket :: outer) .value := by
    cases isLabel with
    | none =>
      obtain ⟨c, cs, rfl, visible, closing⟩ := isValue.exists_cons
      exact passFrom_entry before visible (closing .array) turns outer (cs ++ rest)
    | name margin literal after =>
      simp only [List.append_assoc, List.cons_append]
      exact passFrom_entry margin (by decide) (by decide) turns outer _
  cases inside with
  | last isLabel before isValue after =>
    simpa only [List.append_assoc] using first isLabel before isValue _
  | entry isLabel before isValue after more =>
    simpa only [List.append_assoc] using first isLabel before isValue _

/-- An entry is passed over up to what stands after its value. -/
theorem passLabel_passFrom {bracket : Bracket} {spent : Nat} (isLabel : IsLabel bracket label)
    (before : Blank blank)
    (run : ∀ turns opened rest, Delimited rest →
      passFrom (turns + spent) opened .value (value ++ rest) = resume turns opened rest)
    (turns : Nat) (outer : List Bracket) (delimited : Delimited rest) :
    passLabel bracket (label ++ (blank ++ (value ++ rest))) >>=
        passFrom (turns + spent) (bracket :: outer) .value =
      passFrom turns (bracket :: outer) .commaOrEnd rest := by
  rw [passLabel_append isLabel]
  exact (passFrom_value_append before _ _ _).trans (run turns (bracket :: outer) rest delimited)

/-- Every value is passed over, and so is what it holds. -/
theorem passes {part : Part} (json : IsJson part cs) : Passes part cs := by
  induction json with
  | word mem => exact passes_word mem
  | number isNumber => exact passes_number isNumber
  | string literal => exact passes_string literal
  | empty bracket inside => exact passes_empty bracket inside
  | @bracket bracket entries inside ih =>
    obtain ⟨spent, bound, run⟩ := ih
    refine ⟨spent + 2, by simp only [List.length_cons, List.length_append]; omega,
      fun turns opened rest _ => ?_⟩
    calc passFrom (turns + spent + 2) opened .value
          (bracket.opening :: (entries ++ [bracket.closing]) ++ rest)
      _ = passFrom (turns + spent + 1) (bracket :: opened) .entryOrEnd
            (entries ++ bracket.closing :: rest) := by
          simp [passFrom_opening]
      _ = passLabel bracket (entries ++ bracket.closing :: rest) >>=
            passFrom (turns + spent) (bracket :: opened) .value :=
          passFrom_entries inside _ _ _
      _ = resume turns opened rest := run turns opened rest
  | @last bracket label blank value blank' isLabel before isValue after ih =>
    obtain ⟨spent, bound, run⟩ := ih
    refine ⟨1 + spent, by simp only [List.length_append]; omega, fun turns outer rest => ?_⟩
    have stop : bracket.closing ∈ stops := by cases bracket <;> decide
    have delimited := delimited_append after (delimited_cons stop rest)
    simp only [List.append_assoc, ← Nat.add_assoc]
    rw [passLabel_passFrom isLabel before run (turns + 1) outer delimited]
    exact passFrom_closing after turns bracket outer .commaOrEnd nofun rest
  | @entry bracket label blank value blank' entries isLabel before isValue after more ih ih' =>
    obtain ⟨spent, bound, run⟩ := ih
    obtain ⟨spent', bound', run'⟩ := ih'
    refine ⟨spent' + 1 + spent, by simp only [List.length_append, List.length_cons]; omega,
      fun turns outer rest => ?_⟩
    have stop : ',' ∈ stops := by decide
    have delimited := delimited_append after
      (delimited_cons stop (entries ++ bracket.closing :: rest))
    simp only [List.append_assoc, List.cons_append, ← Nat.add_assoc]
    rw [passLabel_passFrom isLabel before run (turns + spent' + 1) outer delimited,
      passFrom_comma after]
    exact run' turns outer rest

/-- A well-formed value is passed over up to what stands after it. -/
theorem pass_append (isBlank : Blank blank) (isValue : IsJson .value value)
    (delimited : Delimited rest) : pass (blank ++ (value ++ rest)) = .ok rest := by
  obtain ⟨spent, bound, run⟩ := passes isValue
  have enough : 2 * (blank ++ (value ++ rest)).length + 1 =
      2 * (blank ++ (value ++ rest)).length + 1 - spent + spent := by
    simp only [List.length_append]
    omega
  rw [pass, passFrom_value_append isBlank, enough]
  exact run _ [] rest delimited

/-! ## Reading -/

variable {α : Type} {read : Reader α} {result : α}

/-- A value is read as a result, whatever white space stands before it and whatever stands
after it. -/
def Reads (read : Reader α) (value : List Char) (result : α) : Prop :=
  ∀ blank rest, Blank blank → Delimited rest →
    read (blank ++ (value ++ rest)) = .ok (result, rest)

/-- What is made of a result is read wherever the result is. -/
theorem Reads.map {β : Type} (reads : Reads read value result) (make : α → β) :
    Reads (fun cs => do let (a, rest) ← read cs; return (make a, rest)) value (make result) := by
  intro blank rest isBlank delimited
  simp [reads blank rest isBlank delimited, bind, Except.bind, pure, Except.pure]

/-- A value is a string that spells a text. -/
def Quotes (value text : List Char) : Prop :=
  ∃ body, Spells body text ∧ value = '"' :: (body ++ ['"'])

theorem quotes_quote (text : List Char) : Quotes (quote text) text :=
  ⟨_, spells_flatMap_writeChar text, rfl⟩

/-- A string is read as the text that it spells. -/
theorem Quotes.reads (quotes : Quotes value text) : Reads readText value text := by
  obtain ⟨body, spells, rfl⟩ := quotes
  intro blank rest isBlank _
  simp only [List.cons_append, List.append_assoc, List.nil_append]
  rw [readText, skipSpace_append_cons isBlank (by decide)]
  exact text_of_spells spells rest

/-- An integer of 64 bits in decimal digits is read between any bounds that it meets. -/
theorem reads_readInteger {n least greatest : Int} (wide : -9223372036854775808 ≤ least)
    (narrow : greatest ≤ 18446744073709551615) (bounds : least ≤ n ∧ n ≤ greatest) :
    Reads (readInteger least greatest) (toString n).toList n := by
  intro blank rest isBlank delimited
  have read := readNumber_toString (n := n) (by omega) (by omega) delimited
  obtain ⟨c, cs, split, first⟩ := (isNumber_toString n).exists_cons
  rw [split, List.cons_append] at read ⊢
  rw [readInteger, skipSpace_append_cons isBlank (isSpace_of_first first)]
  simp [first, read, bounds, bind, Except.bind]

theorem reads_readOptional_null (read : Reader α) :
    Reads (readOptional read) "null".toList none := by
  intro blank rest isBlank _
  have front : skipSpace (blank ++ ("null".toList ++ rest)) = 'n' :: 'u' :: 'l' :: 'l' :: rest :=
    skipSpace_append_cons isBlank (by decide) _
  rw [readOptional, front]
  rfl

/-- What does not start as `null` does is read as by the reader itself. -/
theorem Reads.optional {c : Char} (reads : Reads read (c :: cs) result)
    (visible : isSpace c = false) (word : c ≠ 'n') :
    Reads (readOptional read) (c :: cs) (some result) := by
  intro blank rest isBlank delimited
  have itself := reads [] rest blank_nil delimited
  simp only [List.nil_append, List.cons_append] at itself ⊢
  unfold readOptional
  rw [skipSpace_append_cons isBlank visible]
  split
  next same => exact absurd (List.cons.inj same).1 word
  next => simp [itself, bind, Except.bind, pure, Except.pure]

end NestedWork.Json
