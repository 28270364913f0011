import NestedWork.Proofs.Json.Level
import NestedWork.Proofs.Json.Record
import NestedWork.Settings.Json

/-!
# The texts of settings

Settings can be written in many ways: with the members in any order, with white space between all
tokens, with escapes in names and in the level, with what is not set as `null` or left out, and with
members of other names. Each of these texts is read as the settings, and refused exactly if the
settings cannot be used. The text that settings are written as is one of them.
-/

namespace NestedWork.Settings

open Json

variable {s : Settings} {cs value : List Char}

/-! ## What writes settings -/

/-- A value writes a field of settings. -/
def WritesField (s : Settings) (name : String) (value : List Char) : Prop :=
  match name with
  | "transactionTimeoutMs" => value = writeOptional (s.timeout.map Int64.toInt)
  | "maxDegreeOfParallelism" => value = writeOptional (s.parallelism.map fun n => (n.toNat : Int))
  | "isolationLevel" => WritesLevel s.isolation value
  | _ => False

/-- A field of settings may be left out. -/
def Omits (s : Settings) (name : String) : Prop :=
  match name with
  | "transactionTimeoutMs" => s.timeout = none
  | "maxDegreeOfParallelism" => s.parallelism = none
  | "isolationLevel" => s.isolation = IsolationLevel.default
  | _ => False

/-- A text writes settings. -/
def Writes (s : Settings) (cs : List Char) : Prop := WritesRecord fields s.WritesField s.Omits cs

/-- The members that settings are written as. -/
def members (s : Settings) : List Member :=
  [⟨"transactionTimeoutMs".toList, writeOptional (s.timeout.map Int64.toInt)⟩,
    ⟨"maxDegreeOfParallelism".toList, writeOptional (s.parallelism.map fun n => (n.toNat : Int))⟩,
    ⟨"isolationLevel".toList, writeLevel s.isolation⟩]

theorem text_eq (s : Settings) : s.text = ['{'] ++ writeMembers s.members ++ ['}'] := by
  simp only [text, members, writeMembers, List.append_assoc, List.cons_append]
  rfl

/-- Settings are written as a text that writes them. -/
theorem writes_text (s : Settings) : s.Writes s.text := by
  refine ⟨s.members, s.text_eq ▸ writesObject_writeMembers s.members, ?_, ?_⟩
  · simp [fields, members, Gives, WritesField, writesLevel_writeLevel]
  · simp [fields, members]

/-! ## Reading -/

theorem reads_readSigned (n : Int64) : Reads readSigned (toString n.toInt).toList n := by
  have reads : Reads readSigned (toString n.toInt).toList (Int64.ofInt n.toInt) :=
    (reads_readInteger (by decide) (by decide) ⟨n.le_toInt, n.toInt_le⟩).map Int64.ofInt
  rwa [Int64.ofInt_toInt] at reads

theorem reads_readUnsigned (n : UInt64) :
    Reads readUnsigned (toString (n.toNat : Int)).toList n := by
  have bound := n.toNat_lt
  have reads : Reads readUnsigned (toString (n.toNat : Int)).toList
      (UInt64.ofNat (n.toNat : Int).toNat) :=
    (reads_readInteger (by decide) (by decide) (by omega)).map fun n => UInt64.ofNat n.toNat
  rwa [Int.toNat_natCast, UInt64.ofNat_toNat] at reads

/-- An optional integer is read as it is written, if the integers are. -/
theorem reads_writeOptional {α : Type} {read : Reader α} {integer : α → Int}
    (reads : ∀ a, Reads read (toString (integer a)).toList a) (o : Option α) :
    Reads (readOptional read) (writeOptional (o.map integer)) o := by
  cases o with
  | none => exact reads_readOptional_null read
  | some a =>
    obtain ⟨c, cs, split, first⟩ := (isNumber_toString (integer a)).exists_cons
    have reads := reads a
    simp only [Option.map_some, writeOptional, split] at reads ⊢
    exact reads.optional (isSpace_of_first first) (ne_of_first first (by decide))

/-- What has been read of settings is what is written. -/
def Agrees (s : Settings) (p : Partial) : Prop :=
  (∀ timeout ∈ p.timeout, timeout = s.timeout) ∧
    (∀ parallelism ∈ p.parallelism, parallelism = s.parallelism) ∧
    ∀ isolation ∈ p.isolation, isolation = s.isolation

/-- Every field of settings reads what writes it. -/
theorem fills (s : Settings) : Fills fields s.Agrees s.WritesField := by
  intro f mem p value agrees fresh writes
  simp only [fields, List.mem_cons, List.not_mem_nil, or_false] at mem
  rcases mem with rfl | rfl | rfl <;> simp only [WritesField] at writes
  · subst writes
    exact ⟨{ p with timeout := some s.timeout },
      (reads_writeOptional reads_readSigned s.timeout).map fun v => { p with timeout := some v },
      ⟨by simp, agrees.2⟩, by simp [fields]⟩
  · subst writes
    exact ⟨{ p with parallelism := some s.parallelism },
      (reads_writeOptional reads_readUnsigned s.parallelism).map
        fun v => { p with parallelism := some v },
      ⟨agrees.1, by simp, agrees.2.2⟩, by simp [fields]⟩
  · exact ⟨{ p with isolation := some s.isolation },
      writes.reads.map fun v => { p with isolation := some v },
      ⟨agrees.1, agrees.2.1, by simp⟩, by simp [fields]⟩

/-- Settings of which every field was met or has its default are all that was written. -/
theorem Agrees.settings_eq {p : Partial} (agrees : s.Agrees p)
    (ends : ∀ f ∈ fields, f.isSet p = true ∨ s.Omits f.name) : p.settings = s := by
  obtain ⟨timeout, parallelism, isolation⟩ := p
  obtain ⟨sameTimeout, sameParallelism, sameIsolation⟩ := agrees
  simp only [fields, List.forall_mem_cons, Omits] at ends
  obtain ⟨givenTimeout, givenParallelism, givenIsolation, -⟩ := ends
  have timeout : timeout.getD none = s.timeout := by
    cases timeout <;> simp_all
  have parallelism : parallelism.getD none = s.parallelism := by
    cases parallelism <;> simp_all
  have isolation : isolation.getD IsolationLevel.default = s.isolation := by
    cases isolation <;> simp_all
  simp [Partial.settings, timeout, parallelism, isolation]

/-- A text that writes settings is read as those settings. -/
theorem read_of_writes (writes : s.Writes cs) : readAll read cs = .ok s := by
  have start : s.Agrees ⟨none, none, none⟩ := ⟨nofun, nofun, nofun⟩
  obtain ⟨p, agrees, ends, reads⟩ := (fills s).readRecord start (by decide) writes
  obtain ⟨rest, isBlank, reads⟩ := reads true (fun _ => true) rfl
  refine readAll_of isBlank ?_
  simp [read, reads, agrees.settings_eq ends, bind, Except.bind, pure, Except.pure]

/-- Settings survive being written.

Settings are written as one of the texts that write them. Each of these texts is read as the same
settings. It is refused with the timeout if that is negative, refused for a lack of workers if there
are none and the timeout is not negative, and otherwise accepted. -/
theorem parse_of_writes (s : Settings) :
    s.Writes s.text ∧ ∀ cs, s.Writes cs →
      (∀ ms, s.timeout = some ms → ms < 0 →
        parse cs = .error (.unusable (.negativeTimeout ms.toInt))) ∧
      ((∀ ms, s.timeout = some ms → 0 ≤ ms) →
        (s.parallelism = some 0 → parse cs = .error (.unusable .noParallelism)) ∧
        (s.parallelism ≠ some 0 → parse cs = .ok s)) := by
  refine ⟨s.writes_text, fun cs writes => ?_⟩
  have reads := read_of_writes writes
  constructor
  · intro ms given negative
    have negative : ms.toInt < 0 := Int64.lt_iff_toInt_lt.mp negative
    simp [parse, reads, validate, negativeTimeout?, given, negative]
  · intro nonnegative
    have accepted : s.negativeTimeout? = none := by
      cases given : s.timeout with
      | none => simp [negativeTimeout?, given]
      | some ms =>
        have bound : 0 ≤ ms.toInt := Int64.le_iff_toInt_le.mp (nonnegative ms given)
        simp [negativeTimeout?, given, bound]
    constructor
    · intro idle
      simp [parse, reads, validate, accepted, idle]
    · intro busy
      simp [parse, reads, validate, accepted, busy]

/-- A text with the members in another order, escapes in a name and in the level, a nested member of
another name, and no workers given. -/
theorem parse_of_writes_reordered :
    let s : Settings := ⟨some 1500, none, .readCommitted⟩
    let negative : Settings := ⟨some (-5), some 0, .chaos⟩
    let idle : Settings := ⟨none, some 0, .chaos⟩
    let cs := ("\x7b \"\\u0069solationLevel\" : \"\\u0052EAD COMMITTED\"," ++
      " \"x\": [\x7b\"\\ud800\": -1.5e3\x7d], \"transactionTimeoutMs\":1500\n\x7d").toList
    (s.Writes cs ∧ parse cs = .ok s) ∧
      parse negative.text = .error (.unusable (.negativeTimeout (-5))) ∧
      parse idle.text = .error (.unusable .noParallelism) := by
  intro s negative idle cs
  have blank : Blank [' '] := by decide
  have line : Blank ['\n'] := by decide
  have i : HexUnit 'i'.toNat ['0', '0', '6', '9'] :=
    .digits (by decide) (by decide) (by decide) (by decide)
  have r : HexUnit 'R'.toNat ['0', '0', '5', '2'] :=
    .digits (by decide) (by decide) (by decide) (by decide)
  have lone : HexUnit 0xD800 ['d', '8', '0', '0'] :=
    .digits (by decide) (by decide) (by decide) (by decide)
  have level : WritesLevel .readCommitted "\"\\u0052EAD COMMITTED\"".toList :=
    ⟨"READ COMMITTED".toList, ⟨_, .unit r (spells_flatMap_writeChar "EAD COMMITTED".toList), rfl⟩,
      by decide⟩
  have number : IsJson .value "-1.5e3".toList :=
    .number ⟨['-'], by decide, ['1'], ['.', '5'], ['e', '3'], .inr (by decide),
      .inr ⟨['5'], by decide, rfl⟩,
      .inr ⟨'e', by decide, [], by decide, ['3'], by decide, rfl⟩, rfl⟩
  have label : IsLabel .object "\"\\ud800\":".toList := .name blank_nil (.unit lone .nil) blank_nil
  have nested : IsJson .value "[\x7b\"\\ud800\": -1.5e3\x7d]".toList :=
    .bracket (.last .none blank_nil (.bracket (.last label blank number blank_nil)) blank_nil)
  have first : WritesMember ⟨"isolationLevel".toList, "\"\\u0052EAD COMMITTED\"".toList⟩
      " \"\\u0069solationLevel\" : \"\\u0052EAD COMMITTED\"".toList :=
    .member (m := ⟨_, _⟩) blank (.unit i (spells_flatMap_writeChar "solationLevel".toList)) blank
      blank blank_nil
  have second : WritesMember ⟨"x".toList, "[\x7b\"\\ud800\": -1.5e3\x7d]".toList⟩
      " \"x\": [\x7b\"\\ud800\": -1.5e3\x7d]".toList :=
    .member (m := ⟨_, _⟩) blank (spells_flatMap_writeChar "x".toList) blank_nil blank blank_nil
  have third : WritesMember ⟨"transactionTimeoutMs".toList, "1500".toList⟩
      " \"transactionTimeoutMs\":1500\n".toList :=
    .member (m := ⟨_, _⟩) blank (spells_flatMap_writeChar "transactionTimeoutMs".toList) blank_nil
      blank_nil line
  have object := WritesObject.members blank_nil (.more first (.more second (.last third))) blank_nil
  have writes : s.Writes cs := by
    refine ⟨_, object, ?_, ?_⟩
    · simp only [fields, List.forall_mem_cons]
      exact ⟨rfl, rfl, level, nofun⟩
    · simp only [fields, List.forall_mem_cons]
      exact ⟨fun known => absurd rfl known.2.2.1, fun _ => nested, fun known => absurd rfl known.1,
        nofun⟩
  have accepted := ((parse_of_writes s).2 cs writes).2
  have refused := (parse_of_writes negative).2 negative.text negative.writes_text
  have unmanned := ((parse_of_writes idle).2 idle.text idle.writes_text).2
  exact ⟨⟨writes, (accepted (by simp [s])).2 (by simp [s])⟩, refused.1 (-5) rfl (by decide),
    (unmanned nofun).1 rfl⟩

end NestedWork.Settings
