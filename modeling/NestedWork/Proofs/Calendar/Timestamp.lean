import Mathlib.Algebra.Group.Nat.Defs
import NestedWork.Calendar.Timestamp
import NestedWork.Proofs.Calendar.Date
import NestedWork.Proofs.Json.Number

/-!
# The texts of timestamps

A point in time can be written at any offset from universal time and with more digits of the
fraction than it needs. Each of these texts is read as that point. A timestamp of a year of four
digits is written as one of them.

## Implementation notes

All numbers of a text but the fraction have a fixed width, so a reader needs no character to stop
at. A fraction has no width of its own and ends at the offset.
-/

namespace NestedWork.Calendar.Timestamp

open Json (isDigit appendDigit IsDigits)

variable {t : Timestamp} {cs digits rest fraction zone : List Char} {width n nanos : Nat}
variable {offset : Int}

/-! ## Numbers of a fixed width -/

theorem digit?_of_isDigit {c : Char} (digit : isDigit c = true) :
    digit? c = some (c.toNat - '0'.toNat) := by
  simp only [isDigit, Bool.and_eq_true, decide_eq_true_eq] at digit
  exact if_pos digit

theorem isSome_digit? (c : Char) : (digit? c).isSome = isDigit c := by
  by_cases digit : '0' ≤ c ∧ c ≤ '9'
  · simp [digit?, isDigit, digit]
  · have other : isDigit c = false := by simpa [isDigit] using digit
    rw [digit?, if_neg digit, other, Option.isSome_none]

theorem digits?_append (all : ∀ c ∈ digits, isDigit c = true) (value : Nat) (rest : List Char) :
    digits? digits.length value (digits ++ rest) = some (digits.foldl appendDigit value, rest) := by
  induction digits generalizing value with
  | nil => rfl
  | cons c digits ih =>
    obtain ⟨first, others⟩ := List.forall_mem_cons.mp all
    simp only [List.length_cons, List.cons_append, digits?, digit?_of_isDigit first,
      List.foldl_cons]
    exact ih others _

theorem isDigit_padded (width n : Nat) : ∀ c ∈ padded width n, isDigit c = true := by
  intro c mem
  rcases List.mem_append.mp mem with zero | digit
  · rw [List.eq_of_mem_replicate zero]
    rfl
  · exact (Json.isDigits_toDigits n).2 c digit

theorem length_padded (pos : 0 < width) (fits : n < 10 ^ width) :
    (padded width n).length = width := by
  have short := (Nat.length_toDigits_le_iff (by decide) pos).mpr fits
  simp only [padded, List.length_append, List.length_replicate]
  omega

theorem foldl_appendDigit_zeros (count value : Nat) :
    (List.replicate count '0').foldl appendDigit value = value * 10 ^ count := by
  induction count generalizing value with
  | zero => simp
  | succ count ih =>
    have zero : appendDigit value '0' = value * 10 := rfl
    rw [List.replicate_succ, List.foldl_cons, ih, zero, Nat.pow_succ', Nat.mul_assoc]

theorem foldl_appendDigit_padded (width n : Nat) : (padded width n).foldl appendDigit 0 = n := by
  rw [padded, List.foldl_append, foldl_appendDigit_zeros, Nat.zero_mul,
    Json.foldl_appendDigit_toDigits]

/-- A number of a fixed width is read whatever follows it. -/
theorem digits?_padded (pos : 0 < width) (fits : n < 10 ^ width) (rest : List Char) :
    digits? width 0 (padded width n ++ rest) = some (n, rest) := by
  have read := digits?_append (isDigit_padded width n) 0 rest
  rwa [length_padded pos fits, foldl_appendDigit_padded] at read

/-! ## Fractions -/

/-- A fraction of up to nine digits that is worth a number of nanoseconds. -/
inductive WritesFraction (nanos : Nat) : List Char → Prop
  | none (zero : nanos = 0) : WritesFraction nanos []
  | digits {width value : Nat} (pos : 1 ≤ width) (most : width ≤ 9) (fits : value < 10 ^ width)
      (worth : value * 10 ^ (9 - width) = nanos) :
      WritesFraction nanos ('.' :: padded width value)

theorem nanosOfDigits_padded (pos : 0 < width) (most : width ≤ 9) (fits : n < 10 ^ width) :
    nanosOfDigits (padded width n) = n * 10 ^ (9 - width) := by
  have filled : (padded width n ++ List.replicate 9 '0').take 9 =
      padded width n ++ List.replicate (9 - width) '0' := by
    rw [List.take_append, length_padded pos fits, List.take_replicate,
      List.take_of_length_le (by rw [length_padded pos fits]; exact most),
      Nat.min_eq_left (by omega)]
  have digits : ∀ c ∈ padded width n ++ List.replicate (9 - width) '0', isDigit c = true := by
    intro c mem
    rcases List.mem_append.mp mem with digit | zero
    · exact isDigit_padded width n c digit
    · rw [List.eq_of_mem_replicate zero]
      rfl
  have same : nanosOfDigits (padded width n) =
      (padded width n ++ List.replicate (9 - width) '0').foldl appendDigit 0 := by
    rw [nanosOfDigits, filled]
    exact List.foldl_ext _ _ 0 fun value c mem => by rw [digit?_of_isDigit (digits c mem)]; rfl
  rw [same, List.foldl_append, foldl_appendDigit_padded, foldl_appendDigit_zeros]

/-! ## Offsets -/

/-- An offset of whole minutes from universal time, in seconds. -/
inductive WritesZone : Int → List Char → Prop
  | universal : WritesZone 0 ['Z']
  | ahead {hours minutes : Nat} (day : hours < 24) (hour : minutes < 60) :
      WritesZone (hours * 3600 + minutes * 60 : Nat)
        ('+' :: (padded 2 hours ++ ':' :: padded 2 minutes))
  | behind {hours minutes : Nat} (day : hours < 24) (hour : minutes < 60) :
      WritesZone (-(hours * 3600 + minutes * 60 : Nat))
        ('-' :: (padded 2 hours ++ ':' :: padded 2 minutes))

theorem signedOffset?_padded {hours minutes : Nat} (sign : Int) (day : hours < 24)
    (hour : minutes < 60) :
    signedOffset? sign (padded 2 hours ++ ':' :: padded 2 minutes) =
      some (sign * (hours * 3600 + minutes * 60 : Nat), []) := by
  have first : digits? 2 0 (padded 2 hours ++ ':' :: padded 2 minutes) =
      some (hours, ':' :: padded 2 minutes) := digits?_padded (by decide) (by omega) _
  have second := digits?_padded Nat.zero_lt_two (show minutes < 10 ^ 2 by omega) []
  rw [List.append_nil] at second
  simp [signedOffset?, first, second, Nat.not_le.mpr day, Nat.not_le.mpr hour]

theorem offset?_of_writesZone (writes : WritesZone offset zone) :
    offset? zone = some (offset, []) := by
  cases writes with
  | universal => rfl
  | ahead day hour => simpa [offset?] using signedOffset?_padded 1 day hour
  | behind day hour => simpa [offset?] using signedOffset?_padded (-1) day hour

/-- A fraction is read as what it is worth, up to the offset. -/
theorem fraction?_append (writes : WritesFraction nanos fraction)
    (isZone : WritesZone offset zone) : fraction? (fraction ++ zone) = some (nanos, zone) := by
  cases writes with
  | none zero => subst zero; cases isZone <;> rfl
  | @digits width value pos most fits worth =>
    have undigited : Json.Undigited zone := by
      cases isZone <;> exact fun c mem => Option.mem_some.mp mem ▸ rfl
    have run : (padded width value ++ zone).takeWhile (fun c => (digit? c).isSome) =
        padded width value := by
      simp only [isSome_digit?]
      exact Json.digitRun_append (isDigit_padded width value) undigited
    have nonempty : padded width value ≠ [] := by
      rw [← List.length_pos_iff, length_padded pos fits]
      exact pos
    simp [fraction?, run, nonempty, nanosOfDigits_padded pos most fits, worth]

/-! ## Timestamps -/

/-- A text writes a timestamp: a date of a year of four digits, a time of day, a fraction and
the offset at which they are meant. -/
inductive Writes (t : Timestamp) : List Char → Prop
  | text {date : Date} {hour minute second : Nat} {offset : Int} {fraction zone : List Char}
      (valid : date.isValid = true) (year : 0 ≤ date.year ∧ date.year ≤ 9999) (day : hour < 24)
      (hours : minute < 60) (minutes : second < 60) (isFraction : WritesFraction t.nanos fraction)
      (isZone : WritesZone offset zone)
      (same : t.seconds =
        date.toDays * 86400 + (hour * 3600 + minute * 60 + second : Nat) - offset) :
      Writes t (padded 4 date.year.toNat ++ '-' :: (padded 2 date.month ++ '-' ::
        (padded 2 date.day ++ 'T' :: (padded 2 hour ++ ':' :: (padded 2 minute ++ ':' ::
          (padded 2 second ++ (fraction ++ zone)))))))

/-- A text that writes a timestamp is read as that timestamp. -/
theorem parse?_of_writes (writes : t.Writes cs) : parse? cs = some t := by
  obtain @⟨⟨year, month, day⟩, hour, minute, second, offset, fraction, zone, valid,
    ⟨least, most⟩, hours, minutes, seconds, isFraction, isZone, same⟩ := writes
  obtain ⟨year, rfl⟩ := Int.eq_ofNat_of_zero_le least
  obtain ⟨twoMonth, twoDay⟩ := Date.lt_of_isValid valid
  have two {n : Nat} (fits : n < 100) (rest : List Char) :
      digits? 2 0 (padded 2 n ++ rest) = some (n, rest) := digits?_padded (by decide) fits rest
  have four (rest : List Char) : digits? 4 0 (padded 4 year ++ rest) = some (year, rest) :=
    digits?_padded (by decide) (by simp only at most; omega) rest
  have found : ofLocal? ⟨year, month, day⟩ hour minute second t.nanos offset = some t := by
    have leap : second ≠ 60 := by omega
    have sixty : second ≤ 60 := by omega
    simp only [ofLocal?, valid, hours, minutes, sixty, leap, and_self, if_true, if_false, ← same]
  have twoHour : hour < 100 := by omega
  have twoMinute : minute < 100 := by omega
  have twoSecond : second < 100 := by omega
  have dash (rest : List Char) : skip? ['-'] ('-' :: rest) = some rest := rfl
  have letter (rest : List Char) : skip? ['T', 't', ' '] ('T' :: rest) = some rest := rfl
  have colon (rest : List Char) : skip? [':'] (':' :: rest) = some rest := rfl
  -- One step for each part of the text. Rewriting the whole reader at once would visit what is left
  -- of it again at each part.
  rw [parse?]
  refine Option.bind_eq_some_iff.mpr ⟨_, four _, ?_⟩
  refine Option.bind_eq_some_iff.mpr ⟨_, dash _, ?_⟩
  refine Option.bind_eq_some_iff.mpr ⟨_, two twoMonth _, ?_⟩
  refine Option.bind_eq_some_iff.mpr ⟨_, dash _, ?_⟩
  refine Option.bind_eq_some_iff.mpr ⟨_, two twoDay _, ?_⟩
  refine Option.bind_eq_some_iff.mpr ⟨_, letter _, ?_⟩
  refine Option.bind_eq_some_iff.mpr ⟨_, two twoHour _, ?_⟩
  refine Option.bind_eq_some_iff.mpr ⟨_, colon _, ?_⟩
  refine Option.bind_eq_some_iff.mpr ⟨_, two twoMinute _, ?_⟩
  refine Option.bind_eq_some_iff.mpr ⟨_, colon _, ?_⟩
  refine Option.bind_eq_some_iff.mpr ⟨_, two twoSecond _, ?_⟩
  refine Option.bind_eq_some_iff.mpr ⟨_, fraction?_append isFraction isZone, ?_⟩
  refine Option.bind_eq_some_iff.mpr ⟨_, offset?_of_writesZone isZone, ?_⟩
  exact found

/-! ## Writing -/

theorem writesFraction_fractionText (fits : nanos < 1000000000) :
    WritesFraction nanos (fractionText nanos) := by
  unfold fractionText
  split
  next zero => exact .none zero
  next =>
    split
    next => exact .digits (by decide) (by decide) (by omega) (by omega)
    next =>
      split
      next => exact .digits (by decide) (by decide) (by omega) (by omega)
      next => exact .digits (by decide) (by decide) (by omega) (by omega)

/-- A timestamp outside leap seconds, of a year of four digits, is written as a text that writes
it. -/
theorem writes_text (least : 0 ≤ (Date.ofDays (t.seconds.fdiv 86400)).year)
    (most : (Date.ofDays (t.seconds.fdiv 86400)).year ≤ 9999) (fits : t.nanos < 1000000000) :
    t.Writes t.text := by
  obtain ⟨valid, days⟩ := Date.ofDays_spec (t.seconds.fdiv 86400)
  have year : yearText (Date.ofDays (t.seconds.fdiv 86400)).year =
      padded 4 (Date.ofDays (t.seconds.fdiv 86400)).year.toNat := by
    rw [yearText, if_neg (Int.not_lt.mpr least), if_neg (Int.not_lt.mpr most)]
    congr 1
    omega
  have sum : t.seconds.fdiv 86400 * 86400 + (t.seconds.fmod 86400).toNat = t.seconds := by
    rw [Int.fdiv_eq_ediv_of_nonneg _ (by decide), Int.fmod_eq_emod_of_nonneg _ (by decide)]
    omega
  have short : (t.seconds.fmod 86400).toNat < 86400 := by
    rw [Int.fmod_eq_emod_of_nonneg _ (by decide)]
    omega
  simp only [text, Nat.not_le.mpr fits, year, if_false, Nat.add_zero]
  generalize (t.seconds.fmod 86400).toNat = second at sum short
  have hours : second / 3600 < 24 := by omega
  have minutes : second / 60 % 60 < 60 := by omega
  have seconds : second % 60 < 60 := by omega
  have parts : second / 3600 * 3600 + second / 60 % 60 * 60 + second % 60 = second := by omega
  have writes : t.Writes _ := .text valid ⟨least, most⟩ hours minutes seconds
    (writesFraction_fractionText fits) .universal (by rw [days, parts, sum, Int.sub_zero])
  simpa using writes

end NestedWork.Calendar.Timestamp
