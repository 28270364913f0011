import NestedWork.Calendar.Date

/-!
# The dates of days

A day counted from 1970-01-01 is one date, which is valid and is counted as that day again.

## Implementation notes

A year has the days up to the next year, and a year is found for a day by that alone. A month is
found in a list of lengths, whatever these are.
-/

namespace NestedWork.Calendar

variable {n year : Int}

/-! ## Years -/

/-- The days of a year. -/
def daysOfYear (leap : Bool) : Nat := if leap then 366 else 365

theorem isLeap_iff : isLeap year = true ↔ year % 4 = 0 ∧ (year % 100 ≠ 0 ∨ year % 400 = 0) := by
  simp [isLeap, Int.fmod_eq_emod_of_nonneg]

theorem daysBeforeYear_eq (year : Int) : daysBeforeYear year =
    365 * (year - 1) + (year - 1) / 4 - (year - 1) / 100 + (year - 1) / 400 - 719162 := by
  simp [daysBeforeYear, Int.fdiv_eq_ediv_of_nonneg]

/-- A year is followed by the next one. -/
theorem daysBeforeYear_succ (year : Int) :
    daysBeforeYear (year + 1) = daysBeforeYear year + daysOfYear (isLeap year) := by
  rw [daysBeforeYear_eq, daysBeforeYear_eq, daysOfYear]
  split
  next leap =>
    have leap := isLeap_iff.mp leap
    omega
  next common =>
    have common := mt isLeap_iff.mpr common
    omega

/-- The estimate of a year is off by at most one. -/
theorem estimate_bounds (n : Int) :
    daysBeforeYear (1970 + n * 400 / 146097 - 1) ≤ n ∧
      n < daysBeforeYear (1970 + n * 400 / 146097 + 1 + 1) := by
  rw [daysBeforeYear_eq, daysBeforeYear_eq]
  omega

/-- A day falls in its year. -/
theorem Date.yearOfDay_bounds (n : Int) :
    daysBeforeYear (yearOfDay n) ≤ n ∧ n < daysBeforeYear (yearOfDay n + 1) := by
  obtain ⟨low, high⟩ := estimate_bounds n
  simp only [yearOfDay, Int.fdiv_eq_ediv_of_nonneg (n * 400) (b := 146097) (by decide)]
  generalize 1970 + n * 400 / 146097 = guess at low high ⊢
  split
  next early => exact ⟨low, by rwa [Int.sub_add_cancel]⟩
  next late =>
    split
    next early => exact ⟨early, high⟩
    next within => exact ⟨Int.not_lt.mp late, Int.not_le.mp within⟩

/-! ## Months -/

/-- The days of all the given months. -/
def totalDays (lengths : List Nat) : Nat := lengths.foldl Nat.add 0

theorem totalDays_nil : totalDays [] = 0 := rfl

theorem totalDays_cons (length : Nat) (rest : List Nat) :
    totalDays (length :: rest) = length + totalDays rest := by
  have shift (rest : List Nat) (n : Nat) : rest.foldl Nat.add n = n + rest.foldl Nat.add 0 := by
    induction rest generalizing n with
    | nil => rfl
    | cons length rest ih =>
      simp only [List.foldl_cons, Nat.add_eq, Nat.zero_add]
      rw [ih (n + length), ih length, Nat.add_assoc]
  simpa [totalDays] using shift rest length

theorem totalDays_monthLengths (leap : Bool) :
    totalDays (monthLengths leap) = daysOfYear leap := by
  cases leap <;> rfl

namespace Date

/-- The month and the day of a valid date have two digits. -/
theorem lt_of_isValid {d : Date} (valid : d.isValid = true) : d.month < 100 ∧ d.day < 100 := by
  have lengths : ∀ length ∈ monthLengths (isLeap d.year), length < 100 := by
    cases isLeap d.year <;> decide
  simp only [isValid, Bool.and_eq_true, decide_eq_true_eq] at valid
  obtain ⟨-, within⟩ := valid
  split at within
  next length found =>
    have bound := lengths length (List.mem_of_getElem? found)
    have month := (List.getElem?_eq_some_iff.mp found).1
    have twelve : (monthLengths (isLeap d.year)).length = 12 := rfl
    have day : d.day ≤ length := by simpa using within
    omega
  next => exact absurd within Bool.false_ne_true

/-- A day within the given months falls in one of them. -/
theorem splitDay_bounds {lengths : List Nat} {day : Nat} (within : day < totalDays lengths)
    (month : Nat) : ∃ k length d, lengths[k]? = some length ∧ d < length ∧
      totalDays (lengths.take k) + d = day ∧ splitDay lengths month day = (month + k, d + 1) := by
  induction lengths generalizing month day with
  | nil => exact absurd within (Nat.not_lt_zero day)
  | cons length rest ih =>
    by_cases first : day < length
    · exact ⟨0, length, day, rfl, first, by simp [totalDays_nil], by simp [splitDay, first]⟩
    · rw [totalDays_cons] at within
      have later : day - length < totalDays rest := by omega
      obtain ⟨k, length', d, found, bound, sum, split⟩ := ih later (month + 1)
      refine ⟨k + 1, length', d, found, bound, ?_, ?_⟩
      · rw [List.take_succ_cons, totalDays_cons]
        omega
      · rw [splitDay, if_neg first, split, Nat.add_assoc, Nat.add_comm 1 k]

/-- The date of a day is valid and is counted as that day. -/
theorem ofDays_spec (n : Int) : (ofDays n).isValid = true ∧ (ofDays n).toDays = n := by
  obtain ⟨low, high⟩ := yearOfDay_bounds n
  rw [daysBeforeYear_succ] at high
  have within : (n - daysBeforeYear (yearOfDay n)).toNat <
      totalDays (monthLengths (isLeap (yearOfDay n))) := by
    rw [totalDays_monthLengths]
    omega
  obtain ⟨k, length, d, found, bound, sum, split⟩ := splitDay_bounds within 1
  have date : ofDays n = ⟨yearOfDay n, 1 + k, d + 1⟩ := by
    simp only [ofDays, split]
  rw [date]
  constructor
  · simp [isValid, found]
    omega
  · have month : daysBeforeMonth (isLeap (yearOfDay n)) (1 + k) =
        totalDays ((monthLengths (isLeap (yearOfDay n))).take k) := by
      rw [daysBeforeMonth, Nat.add_sub_cancel_left, totalDays]
    simp only [toDays, month]
    omega

end Date

end NestedWork.Calendar
