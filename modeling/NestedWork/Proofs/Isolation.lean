import NestedWork.Proofs.Json.Level
import NestedWork.Proofs.Json.Record
import NestedWork.Proofs.Text.Style

/-!
# The style of a level

A level is named by its spellings in any style: in any case and with any margins. A text in another
style names the same level, or is refused in its own words. A string literal names what its text
names, however the text is escaped in it.
-/

namespace NestedWork.IsolationLevel

variable {l : IsolationLevel} {s : String} {value blank blank' text text' : List Char}

/-- Texts that differ in style alone name the same level, or name none. -/
theorem parse?_eq_of_restyles (restyles : Text.Restyles text text') :
    parse? text = parse? text' := by
  simp only [parse?, restyles.upperText_trim]

theorem parse_eq_ok (named : parse? s.toList = some l) : parse s = .ok l := by
  rw [parse, named]

theorem parse_eq_error (unnamed : parse? s.toList = none) :
    parse s = .error ("unknown isolation level: " ++ s) := by
  rw [parse, unnamed]
  rfl

/-- A string literal names what its text names, and is refused for its text if that names none. -/
theorem readAll_readLevel (quotes : Json.Quotes value s.toList) (before : Json.Blank blank)
    (after : Json.Blank blank') :
    Json.readAll Json.readLevel (blank ++ (value ++ blank')) =
      (parse s).mapError fun _ => .unknownLevel s := by
  have none : Json.Delimited [] := nofun
  have delimited : Json.Delimited blank' := by
    simpa using Json.delimited_append after none
  have reads := quotes.reads blank blank' before delimited
  cases named : parse? s.toList with
  | none =>
    rw [parse_eq_error named]
    simp [Json.readAll, Json.readLevel, reads, named, bind, Except.bind, Except.mapError]
  | some l =>
    rw [parse_eq_ok named]
    refine Json.readAll_of after ?_
    simp [Json.readLevel, reads, named, bind, Except.bind]

/-- The style of a text is immaterial to the level that it names.

A text in another style names the same level, or both are refused, each with the text as it was
given. The name of a level in any style names the level. A string literal in JSON text that spells
the text, in whatever way, is read as the level or refused as the text is. -/
theorem parse_in_any_style (s : String) :
    (∀ s' : String, Text.Restyles s.toList s'.toList →
      (∃ l, parse s = .ok l ∧ parse s' = .ok l) ∨
        parse s = .error ("unknown isolation level: " ++ s) ∧
          parse s' = .error ("unknown isolation level: " ++ s')) ∧
      (∀ l : IsolationLevel, Text.Restyles l.name.toList s.toList → parse s = .ok l) ∧
      ∀ value blank blank', Json.Quotes value s.toList → Json.Blank blank → Json.Blank blank' →
        (∀ l, parse s = .ok l → Json.readAll Json.readLevel (blank ++ (value ++ blank')) = .ok l) ∧
        ∀ message, parse s = .error message → message = unknown s ∧
          Json.readAll Json.readLevel (blank ++ (value ++ blank')) = .error (.unknownLevel s) := by
  refine ⟨?_, ?_, ?_⟩
  · intro s' restyles
    have same := parse?_eq_of_restyles restyles
    cases named : parse? s.toList with
    | some l => exact .inl ⟨l, parse_eq_ok named, parse_eq_ok (same ▸ named)⟩
    | none => exact .inr ⟨parse_eq_error named, parse_eq_error (same ▸ named)⟩
  · intro l restyles
    have named : parse? l.name.toList = some l := parse?_of_isSpelled l.isSpelled_name
    exact parse_eq_ok (parse?_eq_of_restyles restyles ▸ named)
  · intro value blank blank' quotes before after
    rw [readAll_readLevel quotes before after]
    constructor
    · intro l named
      rw [named]
      rfl
    · intro message refused
      refine ⟨?_, by rw [refused]; rfl⟩
      unfold parse at refused
      split at refused
      next => cases refused
      next => exact (Except.error.inj refused).symm

/-- A name between an ideographic space and a line feed, a text that names no level in any style,
and literals with a margin and a letter escaped. -/
theorem parse_in_any_style_escaped :
    parse "\u3000rEAD committed\n" = .ok .readCommitted ∧
      parse " dirty\u0085" = .error ("unknown isolation level: " ++ " dirty\u0085") ∧
      Json.readAll Json.readLevel " \"\\u2003C\\u006Aaos\"".toList =
        .error (.unknownLevel "\u2003Cjaos") ∧
      Json.readAll Json.readLevel " \"\\u2003C\\u0068aos\"".toList = .ok .chaos := by
  have name : Text.Restyles readCommitted.name.toList "\u3000rEAD committed\n".toList :=
    @Text.Restyles.style [] ['\u3000'] "READ COMMITTED".toList "rEAD committed".toList [] ['\n']
      (by simp) (by simp [Text.isBlank]) (by decide)
  have other : Text.Restyles "Dirty".toList " dirty\u0085".toList :=
    @Text.Restyles.style [] [' '] "Dirty".toList "dirty".toList [] ['\u0085']
      (by simp) (by simp [Text.isBlank]) (by decide)
  have space : Json.HexUnit '\u2003'.toNat ['2', '0', '0', '3'] :=
    .digits (by decide) (by decide) (by decide) (by decide)
  have wrong : Json.HexUnit 'j'.toNat ['0', '0', '6', 'A'] :=
    .digits (by decide) (by decide) (by decide) (by decide)
  have right : Json.HexUnit 'h'.toNat ['0', '0', '6', '8'] :=
    .digits (by decide) (by decide) (by decide) (by decide)
  have tail : Json.Spells "aos".toList "aos".toList := Json.spells_flatMap_writeChar "aos".toList
  have misspelled : Json.Quotes "\"\\u2003C\\u006Aaos\"".toList "\u2003Cjaos".toList :=
    ⟨_, .unit space (.plain (by decide) (.unit wrong tail)), rfl⟩
  have spelled : Json.Quotes "\"\\u2003C\\u0068aos\"".toList "\u2003Chaos".toList :=
    ⟨_, .unit space (.plain (by decide) (.unit right tail)), rfl⟩
  refine ⟨(parse_in_any_style _).2.1 .readCommitted name, ?_, ?_, ?_⟩
  · rcases (parse_in_any_style "Dirty").1 " dirty\u0085" other with ⟨l, named, -⟩ | ⟨-, refused⟩
    · have unnamed : parse? "Dirty".toList = none := by decide
      simp [parse_eq_error unnamed] at named
    · exact refused
  · have unnamed : parse? "\u2003Cjaos".toList = none := by decide
    exact (((parse_in_any_style _).2.2 _ [' '] [] misspelled (by decide) (by decide)).2 _
      (parse_eq_error unnamed)).2
  · have named : parse? "\u2003Chaos".toList = some .chaos := by decide
    exact ((parse_in_any_style _).2.2 _ [' '] [] spelled (by decide) (by decide)).1 _
      (parse_eq_ok named)

end NestedWork.IsolationLevel
