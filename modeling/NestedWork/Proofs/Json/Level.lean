import NestedWork.Json.Level
import NestedWork.Proofs.Json.Value

/-!
# The levels and statuses of a text

A level is read from every spelling of it, in any case and with any margins, and a status from its
identifier. Both may be escaped in the string that holds them.
-/

namespace NestedWork

namespace IsolationLevel

variable {l l' : IsolationLevel} {name : List Char}

/-- A text spells a level, whatever its case and its margins. -/
def IsSpelled (l : IsolationLevel) (name : List Char) : Prop :=
  Text.upperText (Text.trim name) ∈ l.spellings

instance : Decidable (l.IsSpelled name) := inferInstanceAs (Decidable (_ ∈ _))

/-- The name of a level spells it. -/
theorem isSpelled_name (l : IsolationLevel) : l.IsSpelled l.name.toList := by
  cases l <;> decide

/-- No spelling is shared by two levels. -/
theorem eq_of_mem_spellings {spelling : List Char} (mem : spelling ∈ l.spellings)
    (mem' : spelling ∈ l'.spellings) : l = l' := by
  have apart : ∀ l ∈ all, ∀ l' ∈ all, ∀ spelling ∈ l.spellings, spelling ∈ l'.spellings →
      l = l' := by decide
  exact apart l (by cases l <;> decide) l' (by cases l' <;> decide) spelling mem mem'

/-- A level is found from each of its spellings. -/
theorem parse?_of_isSpelled (spelled : l.IsSpelled name) : parse? name = some l := by
  cases found : parse? name with
  | none =>
    have missing := List.find?_eq_none.mp found l (by cases l <;> decide)
    exact absurd (List.contains_iff_mem.mpr spelled) missing
  | some l' =>
    have mem := List.find?_some found
    rw [eq_of_mem_spellings (List.contains_iff_mem.mp mem) spelled]

end IsolationLevel

/-- A status is found from its identifier. -/
theorem Status.ofLabel?_label (s : Status) : ofLabel? s.label = some s := by
  cases s <;> decide

namespace Json

variable {value : List Char}

/-- A string writes a level by any of its spellings. -/
def WritesLevel (l : IsolationLevel) (value : List Char) : Prop :=
  ∃ name, Quotes value name ∧ l.IsSpelled name

theorem writesLevel_writeLevel (l : IsolationLevel) : WritesLevel l (writeLevel l) :=
  ⟨_, quotes_quote _, l.isSpelled_name⟩

theorem WritesLevel.reads {l : IsolationLevel} (writes : WritesLevel l value) :
    Reads readLevel value l := by
  obtain ⟨name, quotes, spelled⟩ := writes
  intro blank rest isBlank delimited
  simp [readLevel, quotes.reads blank rest isBlank delimited,
    IsolationLevel.parse?_of_isSpelled spelled, bind, Except.bind]

/-- A string that spells the identifier of a status is read as that status. -/
theorem reads_readStatus {s : Status} (quotes : Quotes value s.label.toList) :
    Reads readStatus value s := by
  have reads := quotes.reads
  obtain ⟨body, spells, rfl⟩ := quotes
  intro blank rest isBlank delimited
  have label := reads [] rest blank_nil delimited
  simp only [List.cons_append, List.nil_append, List.append_assoc] at label ⊢
  rw [readStatus, skipSpace_append_cons isBlank (by decide)]
  simp [readStatusLabel, label, Status.ofLabel?_label, bind, Except.bind]

end Json

end NestedWork
