import Mathlib.Data.List.Forall2
import Mathlib.Data.List.TakeWhile
import NestedWork.Text.Blank
import NestedWork.Text.Upper

/-!
# The style of a text

Two texts differ in style alone if one becomes the other by ASCII letters that change their case and
by white space that comes or goes at the ends. Such texts are the same once they are trimmed and
upper-cased.

## Implementation notes

Upper-casing may make several letters of one character, so what is compared is the whole text and
not its characters in turn. Trimming comes first, and no letter is white space in either case.
-/

namespace NestedWork.Text

variable {c : Char} {text text' before core after : List Char}

/-- One text is the other with some ASCII letters in another case and with other margins. Two
characters that are lower-cased to one are the same but for the case of an ASCII letter. -/
inductive Restyles : List Char → List Char → Prop
  | style {before before' core core' after after' : List Char}
      (margins : ∀ c ∈ before ++ after, isBlank c = true)
      (margins' : ∀ c ∈ before' ++ after', isBlank c = true)
      (letters : List.Forall₂ (fun c d => c.toLower = d.toLower) core core') :
      Restyles (before ++ core ++ after) (before' ++ core' ++ after')

/-! ## Letters -/

/-- Lower-casing takes a capital of ASCII 32 further on and changes no other character. -/
theorem toNat_toLower (c : Char) : c.toLower.toNat =
    if 0x41 ≤ c.toNat ∧ c.toNat ≤ 0x5A then c.toNat + 32 else c.toNat := by
  delta Char.toLower
  simp only [← Char.toNat_val, ge_iff_le, UInt32.le_iff_toNat_le, Char.reduceVal,
    UInt32.reduceToNat]
  split
  · simp only [UInt32.toNat_add, UInt32.reduceSub, UInt32.reduceToNat]
    omega
  · rfl

/-- Upper-casing takes a small letter of ASCII 32 back and changes no other character. -/
theorem toNat_toUpper (c : Char) : c.toUpper.toNat =
    if 0x61 ≤ c.toNat ∧ c.toNat ≤ 0x7A then c.toNat - 32 else c.toNat := by
  delta Char.toUpper
  simp only [← Char.toNat_val, UInt32.le_iff_toNat_le, Char.reduceVal, UInt32.reduceToNat]
  split
  · simp only [UInt32.toNat_add, UInt32.reduceSub, UInt32.reduceToNat]
    omega
  · rfl

theorem toUpper_toLower (c : Char) : c.toLower.toUpper = c.toUpper := by
  apply Char.toNat_inj.mp
  rw [toNat_toUpper, toNat_toUpper, toNat_toLower]
  grind

theorem toLower_eq_of_not_capital (other : ¬ (0x41 ≤ c.toNat ∧ c.toNat ≤ 0x5A)) :
    c.toLower = c := by
  apply Char.toNat_inj.mp
  rw [toNat_toLower, if_neg other]

theorem isBlank_of_letter (least : 0x41 ≤ c.toNat) (most : c.toNat ≤ 0x7A) :
    isBlank c = false := by
  simp only [isBlank]
  grind

/-- White space is white space in either case. -/
theorem isBlank_toLower (c : Char) : isBlank c.toLower = isBlank c := by
  by_cases capital : 0x41 ≤ c.toNat ∧ c.toNat ≤ 0x5A
  · have lower := toNat_toLower c
    rw [if_pos capital] at lower
    rw [isBlank_of_letter (by omega) (by omega), isBlank_of_letter (by omega) (by omega)]
  · rw [toLower_eq_of_not_capital capital]

/-- An ASCII character is upper-cased to one character. -/
theorem upper_of_lt (ascii : c.toNat < 0x80) : upper c = [c.toUpper] := by
  unfold upper
  split <;> first | rfl | omega

/-- A character has one upper-case form in either case. -/
theorem upper_toLower (c : Char) : upper c.toLower = upper c := by
  by_cases capital : 0x41 ≤ c.toNat ∧ c.toNat ≤ 0x5A
  · have lower := toNat_toLower c
    rw [if_pos capital] at lower
    rw [upper_of_lt (by omega), upper_of_lt (by omega), toUpper_toLower]
  · rw [toLower_eq_of_not_capital capital]

theorem upperText_map_toLower (cs : List Char) :
    upperText (cs.map Char.toLower) = upperText cs := by
  simp only [upperText, List.flatMap_map, upper_toLower]

/-! ## Margins -/

theorem trim_map_toLower (cs : List Char) :
    trim (cs.map Char.toLower) = (trim cs).map Char.toLower := by
  have same : isBlank ∘ Char.toLower = isBlank := funext isBlank_toLower
  simp only [trim, List.dropWhile_map, ← List.map_reverse, same]

/-- A text is trimmed to what its core is trimmed to. -/
theorem trim_append (margins : ∀ c ∈ before ++ after, isBlank c = true) (core : List Char) :
    trim (before ++ core ++ after) = trim core := by
  have front : ∀ c ∈ before, isBlank c = true := fun c mem =>
    margins c (List.mem_append_left _ mem)
  have back : ∀ c ∈ after, isBlank c = true := fun c mem =>
    margins c (List.mem_append_right _ mem)
  rw [trim, List.append_assoc, List.dropWhile_append_of_pos front, List.dropWhile_append]
  split
  next empty =>
    rw [trim, List.isEmpty_iff.mp empty, List.dropWhile_eq_nil_iff.mpr back]
  next =>
    rw [trim, List.reverse_append,
      List.dropWhile_append_of_pos fun c mem => back c (List.mem_reverse.mp mem)]

/-- Texts that differ in style alone are the same once trimmed and upper-cased. -/
theorem Restyles.upperText_trim (restyles : Restyles text text') :
    upperText (trim text) = upperText (trim text') := by
  cases restyles with
  | @style before before' core core' after after' margins margins' letters =>
    have lower : core.map Char.toLower = core'.map Char.toLower := by
      rw [← List.forall₂_eq_eq_eq, List.forall₂_map_left_iff, List.forall₂_map_right_iff]
      exact letters
    calc upperText (trim (before ++ core ++ after))
      _ = upperText (trim (core.map Char.toLower)) := by
        rw [trim_append margins, trim_map_toLower, upperText_map_toLower]
      _ = upperText (trim (before' ++ core' ++ after')) := by
        rw [lower, trim_append margins', trim_map_toLower, upperText_map_toLower]

end NestedWork.Text
