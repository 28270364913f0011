import Mathlib.Data.List.TakeWhile
import NestedWork.Json.Record
import NestedWork.Proofs.Json.Value

/-!
# The records of a text

The objects that write a record, with the members in any order. An object gives a record its fields
if each member is either one of them, given once by a value that the field reads, or has another
name and any value at all.

## Implementation notes

A reader sees the members one by one, so what is left to read has to be told from what has been
read. A field that is set must not come again, and a field that is not set may still come once.
-/

namespace NestedWork.Json

variable {σ : Type} {fields : List (RecordField σ)} {s s' : σ} {m : Member} {ms : List Member}
variable {blank body rest cs : List Char}

/-! ## Objects -/

/-- A member of an object: its name, and its value as it is written. -/
structure Member where
  name : List Char
  value : List Char

/-- A text writes a member. -/
inductive WritesMember (m : Member) : List Char → Prop
  | member {margin body before inside after : List Char} (isMargin : Blank margin)
      (spells : Spells body m.name) (isBefore : Blank before) (isInside : Blank inside)
      (isAfter : Blank after) : WritesMember m
        (margin ++ '"' :: (body ++ '"' :: (before ++ ':' :: (inside ++ (m.value ++ after)))))

/-- A text writes one or more members, with commas between. -/
inductive WritesMembers : List Member → List Char → Prop
  | last {m : Member} {cs : List Char} (writes : WritesMember m cs) : WritesMembers [m] cs
  | more {m : Member} {cs : List Char} {ms : List Member} {rest : List Char}
      (writes : WritesMember m cs) (more : WritesMembers ms rest) :
      WritesMembers (m :: ms) (cs ++ ',' :: rest)

/-- A text writes an object. -/
inductive WritesObject : List Member → List Char → Prop
  | empty {before inside after : List Char} (isBefore : Blank before) (isInside : Blank inside)
      (isAfter : Blank after) : WritesObject [] (before ++ '{' :: (inside ++ '}' :: after))
  | members {before inside after : List Char} {ms : List Member} (isBefore : Blank before)
      (writes : WritesMembers ms inside) (isAfter : Blank after) :
      WritesObject ms (before ++ '{' :: (inside ++ '}' :: after))

/-- Members with nothing between their tokens. -/
def writeMembers : List Member → List Char
  | [] => []
  | [m] => quote m.name ++ ':' :: m.value
  | m :: ms => quote m.name ++ ':' :: m.value ++ ',' :: writeMembers ms

theorem writesMember_quote (m : Member) : WritesMember m (quote m.name ++ ':' :: m.value) := by
  have writes : WritesMember m _ := .member blank_nil (spells_flatMap_writeChar m.name) blank_nil
    blank_nil blank_nil
  simpa [quote] using writes

theorem writesMembers_writeMembers (ms : List Member) (nonempty : ms ≠ []) :
    WritesMembers ms (writeMembers ms) := by
  fun_induction writeMembers ms with
  | case1 => exact absurd rfl nonempty
  | case2 m => exact .last (writesMember_quote m)
  | case3 m ms more ih => exact .more (writesMember_quote m) (ih more)

/-- Members between braces write an object. -/
theorem writesObject_writeMembers (ms : List Member) :
    WritesObject ms (['{'] ++ writeMembers ms ++ ['}']) := by
  cases ms with
  | nil => exact .empty blank_nil blank_nil blank_nil
  | cons m ms =>
    have writes := WritesObject.members blank_nil
      (writesMembers_writeMembers (m :: ms) (List.cons_ne_nil m ms)) blank_nil
    simpa using writes

/-! ## What a member does -/

/-- A member sets a field that was not set, or has no field and is passed over. -/
inductive Takes (fields : List (RecordField σ)) (s : σ) (m : Member) : σ → Prop
  | field {f : RecordField σ} {s' : σ}
      (known : (fields.find? fun f => f.name.toList == m.name) = some f)
      (fresh : f.isSet s = false) (reads : Reads (f.read s) m.value s') : Takes fields s m s'
  | other (unknown : (fields.find? fun f => f.name.toList == m.name) = none)
      (isValue : IsJson .value m.value) : Takes fields s m s

/-- What members do one after another. -/
inductive TakesAll (fields : List (RecordField σ)) : σ → List Member → σ → Prop
  | nil {s : σ} : TakesAll fields s [] s
  | cons {s s' s'' : σ} {m : Member} {ms : List Member} (first : Takes fields s m s')
      (more : TakesAll fields s' ms s'') : TakesAll fields s (m :: ms) s''

/-! ## Reading -/

/-- A member is read up to what stands after its value. -/
theorem readMember_append {before inside : List Char} (takes : Takes fields s m s')
    (spells : Spells body m.name) (isBefore : Blank before) (isInside : Blank inside)
    (delimited : Delimited rest) :
    readMember fields s (body ++ '"' :: (before ++ ':' :: (inside ++ (m.value ++ rest)))) =
      .ok (s', rest) := by
  cases takes with
  | field known fresh reads =>
    simp [readMember, text_of_spells spells, known, fresh, colon_append isBefore,
      reads inside rest isInside delimited, bind, Except.bind]
  | other unknown isValue =>
    simp [readMember, text_of_spells spells, unknown, colon_append isBefore,
      pass_append isInside isValue delimited, bind, Except.bind, pure, Except.pure]

/-- The first member starts with its name. -/
theorem readMembers_quote (isBlank : Blank blank) (turns : Nat) (cs : List Char) :
    readMembers fields (turns + 1) true s (blank ++ '"' :: cs) =
      readMember fields s cs >>= fun p => readMembers fields turns false p.1 p.2 := by
  rw [readMembers, skipSpace_append_cons isBlank (by decide)]
  rfl

/-- A further member starts with a comma. -/
theorem readMembers_comma {margin : List Char} (isBlank : Blank blank) (isMargin : Blank margin)
    (turns : Nat) (cs : List Char) :
    readMembers fields (turns + 1) false s (blank ++ ',' :: (margin ++ '"' :: cs)) =
      readMember fields s cs >>= fun p => readMembers fields turns false p.1 p.2 := by
  rw [readMembers, skipSpace_append_cons isBlank (by decide)]
  simp only [Bool.false_eq_true, if_false]
  rw [skipSpace_append_cons isMargin (by decide)]
  rfl

theorem readMembers_closing (isBlank : Blank blank) (turns : Nat) (first : Bool)
    (rest : List Char) :
    readMembers fields (turns + 1) first s (blank ++ '}' :: rest) = .ok (s, rest) := by
  rw [readMembers, skipSpace_append_cons isBlank (by decide)]
  rfl

/-- Members are read one after another, each in one turn. -/
theorem readMembers_append (writes : WritesMembers ms cs) (takes : TakesAll fields s ms s') :
    ∃ margin cs', Blank margin ∧ cs = margin ++ '"' :: cs' ∧ ∀ turns rest, ms.length ≤ turns →
      (readMember fields s (cs' ++ '}' :: rest) >>= fun p =>
        readMembers fields turns false p.1 p.2) = .ok (s', rest) := by
  induction writes generalizing s with
  | last writes =>
    obtain ⟨isMargin, spells, isBefore, isInside, isAfter⟩ := writes
    obtain - | ⟨first, ⟨⟩⟩ := takes
    refine ⟨_, _, isMargin, rfl, fun turns rest enough => ?_⟩
    obtain ⟨turns, rfl⟩ := Nat.exists_eq_add_one_of_ne_zero (Nat.ne_of_gt enough)
    have stop : '}' ∈ stops := by decide
    have delimited := delimited_append isAfter (delimited_cons stop rest)
    simp only [List.append_assoc, List.cons_append]
    rw [readMember_append first spells isBefore isInside delimited]
    exact readMembers_closing isAfter turns false rest
  | more writes more ih =>
    obtain ⟨isMargin, spells, isBefore, isInside, isAfter⟩ := writes
    obtain - | ⟨first, others⟩ := takes
    obtain ⟨margin, cs', isMargin', rfl, run⟩ := ih others
    refine ⟨_, _, isMargin, by simp only [List.append_assoc, List.cons_append]; rfl,
      fun turns rest enough => ?_⟩
    obtain ⟨turns, rfl⟩ := Nat.exists_eq_add_one_of_ne_zero (Nat.ne_of_gt (Nat.lt_of_lt_of_le
      (Nat.succ_pos _) enough))
    have stop : ',' ∈ stops := by decide
    have delimited := delimited_append isAfter
      (delimited_cons stop (margin ++ '"' :: (cs' ++ '}' :: rest)))
    simp only [List.append_assoc, List.cons_append]
    rw [readMember_append first spells isBefore isInside delimited]
    exact (readMembers_comma isAfter isMargin' turns _).trans
      (run turns rest (Nat.le_of_succ_le_succ enough))

theorem WritesMembers.length_le (writes : WritesMembers ms cs) : ms.length ≤ cs.length := by
  induction writes with
  | last writes =>
    obtain ⟨-, -, -, -, -⟩ := writes
    simp only [List.length_append, List.length_cons, List.length_nil]
    omega
  | more writes more ih =>
    simp only [List.length_append, List.length_cons]
    omega

/-- An object is read as the record that its members lead to. -/
theorem readRecord_of_writes {short : Bool} {complete : σ → Bool} (writes : WritesObject ms cs)
    (takes : TakesAll fields s ms s') (completes : complete s' = true) :
    ∃ rest, Blank rest ∧ readRecord fields short s complete cs = .ok (s', rest) := by
  cases writes with
  | @empty before inside after isBefore isInside isAfter =>
    obtain ⟨⟩ := takes
    refine ⟨after, isAfter, ?_⟩
    rw [readRecord, skipSpace_append_cons isBefore (by decide)]
    simp [readMembers_closing isInside, completes, bind, Except.bind]
  | @members before inside after ms isBefore writes isAfter =>
    obtain ⟨margin, cs, isMargin, rfl, run⟩ := readMembers_append writes takes
    refine ⟨after, isAfter, ?_⟩
    have enough := writes.length_le
    simp only [List.length_append, List.length_cons] at enough
    have read : readMembers fields ((margin ++ '"' :: (cs ++ '}' :: after)).length + 1) true s
        (margin ++ '"' :: (cs ++ '}' :: after)) = .ok (s', after) := by
      rw [readMembers_quote isMargin]
      exact run _ after (by simp only [List.length_append, List.length_cons]; omega)
    rw [readRecord, skipSpace_append_cons isBefore (by decide)]
    simp only [List.append_assoc, List.cons_append, Nat.succ_eq_add_one, read]
    simp [completes, bind, Except.bind]

/-! ## Giving a record -/

/-- A name is given once, by a value that a predicate holds of, or not at all if it may be
left out. -/
def Gives (ms : List Member) (name : String) (writes : List Char → Prop) (omitted : Prop) : Prop :=
  match ms.filter fun m => m.name == name.toList with
  | [] => omitted
  | [m] => writes m.value
  | _ => False

theorem gives_cons_of_ne {name : String} {writes : List Char → Prop} {omitted : Prop}
    (other : m.name ≠ name.toList) :
    Gives (m :: ms) name writes omitted ↔ Gives ms name writes omitted := by
  simp [Gives, other]

/-- A name that is given first is not given again. -/
theorem gives_cons_of_eq {name : String} {writes : List Char → Prop} {omitted : Prop}
    (same : m.name = name.toList) (gives : Gives (m :: ms) name writes omitted) :
    writes m.value ∧ ∀ m' ∈ ms, m'.name ≠ name.toList := by
  simp only [Gives, List.filter_cons, same, BEq.rfl, if_true] at gives
  split at gives
  next none => exact nomatch none
  next once =>
    obtain ⟨rfl, none⟩ := List.cons.inj once
    exact ⟨gives, by simpa using none⟩
  next => exact gives.elim

/-- A text gives a record: an object with each field once or left out, and with any members of
other names. -/
def WritesRecord (fields : List (RecordField σ)) (writes : String → List Char → Prop)
    (omitted : String → Prop) (cs : List Char) : Prop :=
  ∃ ms, WritesObject ms cs ∧
    (∀ f ∈ fields, Gives ms f.name (writes f.name) (omitted f.name)) ∧
    ∀ m ∈ ms, (∀ f ∈ fields, m.name ≠ f.name.toList) → IsJson .value m.value

/-- Every field reads what is written for it, sets itself alone, and keeps what holds of the
record that is being read. -/
def Fills (fields : List (RecordField σ)) (Holds : σ → Prop)
    (writes : String → List Char → Prop) : Prop :=
  ∀ f ∈ fields, ∀ s value, Holds s → f.isSet s = false → writes f.name value →
    ∃ s', Reads (f.read s) value s' ∧ Holds s' ∧
      ∀ g ∈ fields, g.isSet s' = (g.isSet s || g.name == f.name)

/-- What is left of a field: no member at all once it is set, and what gives it until then. -/
def Left (ms : List Member) (s : σ) (f : RecordField σ) (writes : List Char → Prop)
    (omitted : Prop) : Prop :=
  if f.isSet s then ∀ m ∈ ms, m.name ≠ f.name.toList else Gives ms f.name writes omitted

theorem Left.of_cons {f : RecordField σ} {writes : List Char → Prop} {omitted : Prop}
    (other : m.name ≠ f.name.toList) (left : Left (m :: ms) s f writes omitted) :
    Left ms s f writes omitted := by
  unfold Left at left ⊢
  split at left
  next set => exact if_pos set ▸ fun m' mem' => left m' (List.mem_cons_of_mem _ mem')
  next fresh => exact if_neg fresh ▸ (gives_cons_of_ne other).mp left

/-- A field that is given next is not set yet, and is not given again. -/
theorem Left.next {f : RecordField σ} {writes : List Char → Prop} {omitted : Prop}
    (same : m.name = f.name.toList) (left : Left (m :: ms) s f writes omitted) :
    f.isSet s = false ∧ writes m.value ∧ ∀ m' ∈ ms, m'.name ≠ f.name.toList := by
  unfold Left at left
  split at left
  next => exact absurd same (left m List.mem_cons_self)
  next fresh => exact ⟨Bool.eq_false_of_not_eq_true fresh, gives_cons_of_eq same left⟩

/-- Members that give every field lead to a record whose fields are right, each set or left
out. -/
theorem Fills.exists_takesAll {Holds : σ → Prop} {writes : String → List Char → Prop}
    {omitted : String → Prop} (fills : Fills fields Holds writes) (holds : Holds s)
    (left : ∀ f ∈ fields, Left ms s f (writes f.name) (omitted f.name))
    (others : ∀ m ∈ ms, (∀ f ∈ fields, m.name ≠ f.name.toList) → IsJson .value m.value) :
    ∃ s', TakesAll fields s ms s' ∧ Holds s' ∧
      ∀ f ∈ fields, f.isSet s' = true ∨ omitted f.name := by
  induction ms generalizing s with
  | nil =>
    refine ⟨s, .nil, holds, fun f mem => ?_⟩
    have left := left f mem
    unfold Left at left
    split at left
    next set => exact .inl set
    next => exact .inr left
  | cons m ms ih =>
    cases known : fields.find? fun f => f.name.toList == m.name with
    | none =>
      have unknown : ∀ f ∈ fields, m.name ≠ f.name.toList := by
        intro f mem same
        have differs := List.find?_eq_none.mp known f mem
        exact differs (by simp [same])
      have isValue := others m List.mem_cons_self unknown
      obtain ⟨s', takes, ends⟩ := ih holds (fun f mem => (left f mem).of_cons (unknown f mem))
        fun m' mem' => others m' (List.mem_cons_of_mem _ mem')
      exact ⟨s', .cons (.other known isValue) takes, ends⟩
    | some f =>
      have mem := List.mem_of_find?_eq_some known
      have found := List.find?_some known
      have same : m.name = f.name.toList := (beq_iff_eq.mp found).symm
      obtain ⟨fresh, written, once⟩ := (left f mem).next same
      obtain ⟨s₁, reads, holds₁, sets⟩ := fills f mem s m.value holds fresh written
      have left₁ : ∀ g ∈ fields, Left ms s₁ g (writes g.name) (omitted g.name) := by
        intro g mem'
        by_cases again : g.name = f.name
        · rw [Left, sets g mem', again]
          simpa using once
        · have other : m.name ≠ g.name.toList := by
            rw [same]
            exact fun equal => again (String.toList_inj.mp equal).symm
          have left := (left g mem').of_cons other
          rw [Left] at left ⊢
          simpa [sets g mem', again] using left
      obtain ⟨s', takes, ends⟩ := ih holds₁ left₁
        fun m' mem' => others m' (List.mem_cons_of_mem _ mem')
      exact ⟨s', .cons (.field known fresh reads) takes, ends⟩

/-- A text that gives a record is read as a record whose fields are right, each set or left
out, if that is complete. -/
theorem Fills.readRecord {Holds : σ → Prop} {writes : String → List Char → Prop}
    {omitted : String → Prop} (fills : Fills fields Holds writes) (holds : Holds s)
    (fresh : ∀ f ∈ fields, f.isSet s = false) (written : WritesRecord fields writes omitted cs) :
    ∃ s', Holds s' ∧ (∀ f ∈ fields, f.isSet s' = true ∨ omitted f.name) ∧
      ∀ short complete, complete s' = true →
        ∃ rest, Blank rest ∧ readRecord fields short s complete cs = .ok (s', rest) := by
  obtain ⟨ms, object, gives, others⟩ := written
  have left : ∀ f ∈ fields, Left ms s f (writes f.name) (omitted f.name) := by
    intro f mem
    rw [Left, fresh f mem]
    exact gives f mem
  obtain ⟨s', takes, holds', ends⟩ := fills.exists_takesAll holds left others
  exact ⟨s', holds', ends, fun short complete completes =>
    readRecord_of_writes object takes completes⟩

/-- What is read before the white space at the end of a text is the value of the text. -/
theorem readAll_of {α : Type} {read : Reader α} {value : α} (isBlank : Blank rest)
    (reads : read cs = .ok (value, rest)) : readAll read cs = .ok value := by
  have none : skipSpace rest = [] := List.dropWhile_eq_nil_iff.mpr isBlank
  simp [readAll, reads, none, bind, Except.bind]

end NestedWork.Json
