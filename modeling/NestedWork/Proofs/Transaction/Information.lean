import NestedWork.Proofs.Calendar.Timestamp
import NestedWork.Proofs.Json.Level
import NestedWork.Proofs.Json.Record
import NestedWork.Transaction.Information

/-!
# The texts of information

Information on a transaction can be written in many ways: with the members in any order, with white
space between all tokens, with escapes in all strings, with the time at any offset from universal
time, and with members of other names. Each of these texts is read as the same information, and the
text that information is written as is one of them.

## Implementation notes

Unlike settings, information has no defaults, so no field may be left out.
-/

namespace NestedWork.Information

open Json

variable {i : Information} {cs value : List Char}

/-! ## What writes information -/

/-- A string writes a timestamp. -/
def WritesTimestamp (t : Calendar.Timestamp) (value : List Char) : Prop :=
  ∃ written, Quotes value written ∧ t.Writes written

/-- A value writes a field of information. -/
def WritesField (i : Information) (name : String) (value : List Char) : Prop :=
  match name with
  | "localIdentifier" => Quotes value i.localId.toList
  | "creationTime" => WritesTimestamp i.createdAt value
  | "status" => Quotes value i.status.label.toList
  | "isolationLevel" => WritesLevel i.isolation value
  | _ => False

/-- A text writes information. -/
def Writes (i : Information) (cs : List Char) : Prop :=
  WritesRecord fields i.WritesField (fun _ => False) cs

/-- The members that information is written as. -/
def members (i : Information) : List Member :=
  [⟨"localIdentifier".toList, quote i.localId.toList⟩,
    ⟨"creationTime".toList, quote i.createdAt.text⟩,
    ⟨"status".toList, writeStatus i.status⟩,
    ⟨"isolationLevel".toList, writeLevel i.isolation⟩]

theorem text_eq (i : Information) : i.text = ['{'] ++ writeMembers i.members ++ ['}'] := by
  simp only [text, members, writeMembers, List.append_assoc, List.cons_append]
  rfl

/-- Information is written as a text that writes it, if the time is. -/
theorem writes_text (writes : i.createdAt.Writes i.createdAt.text) : i.Writes i.text := by
  refine ⟨i.members, i.text_eq ▸ writesObject_writeMembers i.members, ?_, ?_⟩
  · have time : WritesTimestamp i.createdAt (quote i.createdAt.text) :=
      ⟨_, quotes_quote _, writes⟩
    simp [fields, members, Gives, WritesField, quotes_quote, time, writesLevel_writeLevel,
      writeStatus]
  · simp [fields, members]

/-! ## Reading -/

theorem WritesTimestamp.reads {t : Calendar.Timestamp} (writes : WritesTimestamp t value) :
    Reads readTimestamp value t := by
  obtain ⟨written, quotes, writes⟩ := writes
  intro blank rest isBlank delimited
  simp [readTimestamp, quotes.reads blank rest isBlank delimited,
    Calendar.Timestamp.parse?_of_writes writes, bind, Except.bind]

/-- What has been read of information is what is written. -/
def Agrees (i : Information) (p : Partial) : Prop :=
  (∀ localId ∈ p.localId, localId = i.localId) ∧
    (∀ createdAt ∈ p.createdAt, createdAt = i.createdAt) ∧
    (∀ status ∈ p.status, status = i.status) ∧
    ∀ isolation ∈ p.isolation, isolation = i.isolation

/-- Every field of information reads what writes it. -/
theorem fills (i : Information) : Fills fields i.Agrees i.WritesField := by
  intro f mem p value agrees fresh writes
  simp only [fields, List.mem_cons, List.not_mem_nil, or_false] at mem
  rcases mem with rfl | rfl | rfl | rfl <;> simp only [WritesField] at writes
  · have reads := writes.reads.map fun v => { p with localId := some (String.ofList v) }
    exact ⟨_, reads, ⟨by simp, agrees.2⟩, by simp [fields]⟩
  · exact ⟨{ p with createdAt := some i.createdAt },
      writes.reads.map fun v => { p with createdAt := some v },
      ⟨agrees.1, by simp, agrees.2.2⟩, by simp [fields]⟩
  · exact ⟨{ p with status := some i.status },
      (reads_readStatus writes).map fun v => { p with status := some v },
      ⟨agrees.1, agrees.2.1, by simp, agrees.2.2.2⟩, by simp [fields]⟩
  · exact ⟨{ p with isolation := some i.isolation },
      writes.reads.map fun v => { p with isolation := some v },
      ⟨agrees.1, agrees.2.1, agrees.2.2.1, by simp⟩, by simp [fields]⟩

/-- Information of which every field was met is all that was written. -/
theorem Agrees.information?_eq {p : Partial} (agrees : i.Agrees p)
    (ends : ∀ f ∈ fields, f.isSet p = true ∨ False) : p.information? = some i := by
  obtain ⟨localId, createdAt, status, isolation⟩ := p
  obtain ⟨sameId, sameTime, sameStatus, sameLevel⟩ := agrees
  simp only [fields, List.forall_mem_cons, or_false, Option.isSome_iff_exists] at ends
  obtain ⟨⟨localId, rfl⟩, ⟨createdAt, rfl⟩, ⟨status, rfl⟩, ⟨isolation, rfl⟩, -⟩ := ends
  simp [Partial.information?, sameId localId rfl, sameTime createdAt rfl, sameStatus status rfl,
    sameLevel isolation rfl]

/-- Information survives being written.

Information with a time outside leap seconds and in a year of four digits is written as one of the
texts that write it. Every text that writes information, at whatever offset the time is written, is
read as that information. -/
theorem information_survives (i : Information) :
    (0 ≤ (Calendar.Date.ofDays (i.createdAt.seconds.fdiv 86400)).year →
        (Calendar.Date.ofDays (i.createdAt.seconds.fdiv 86400)).year ≤ 9999 →
        i.createdAt.nanos < 1000000000 → i.Writes i.text ∧ parse i.text = .ok i) ∧
      ∀ cs, i.Writes cs → parse cs = .ok i := by
  have parses (cs : List Char) (writes : i.Writes cs) : parse cs = .ok i := by
    have start : i.Agrees ⟨none, none, none, none⟩ := ⟨nofun, nofun, nofun, nofun⟩
    obtain ⟨p, agrees, ends, reads⟩ := (fills i).readRecord start (by decide) writes
    have complete := agrees.information?_eq ends
    obtain ⟨rest, isBlank, reads⟩ :=
      reads false (fun p => p.information?.isSome) (complete ▸ rfl)
    refine readAll_of isBlank ?_
    simp [read, reads, complete, bind, Except.bind]
  refine ⟨fun least most fits => ?_, parses⟩
  have writes := writes_text (Calendar.Timestamp.writes_text least most fits)
  exact ⟨writes, parses i.text writes⟩

set_option maxRecDepth 1000 in
/-- A text with the members in another order, a local time ahead of universal time on the next day,
zeros at the end of the fraction, escapes, and a member of another name. -/
theorem information_survives_offset :
    let i : Information := ⟨"a\"\x01", ⟨1709251199, 120000000⟩, .active, .chaos⟩
    let cs := ("\x7b\"status\" : \"\\u0041ctive\",\"isolationLevel\":\"CHAOS\"," ++
      "\"creationTime\":\"2024-03-01T01:29:59.1200+01:30\",\"x\":null," ++
      "\"localIdentifier\":\"a\\\"\\u0001\"\x7d").toList
    parse i.text = .ok i ∧ i.Writes cs ∧ parse cs = .ok i := by
  intro i cs
  have blank : Blank [' '] := by decide
  have capital : HexUnit 'A'.toNat ['0', '0', '4', '1'] :=
    .digits (by decide) (by decide) (by decide) (by decide)
  have control : HexUnit '\x01'.toNat ['0', '0', '0', '1'] :=
    .digits (by decide) (by decide) (by decide) (by decide)
  have zone : Calendar.Timestamp.WritesZone (1 * 3600 + 30 * 60 : Nat) "+01:30".toList :=
    .ahead (by decide) (by decide)
  have fraction : Calendar.Timestamp.WritesFraction 120000000 ".1200".toList :=
    @Calendar.Timestamp.WritesFraction.digits 120000000 4 1200 (by decide) (by decide) (by decide)
      (by decide)
  have written : i.createdAt.Writes "2024-03-01T01:29:59.1200+01:30".toList :=
    @Calendar.Timestamp.Writes.text i.createdAt ⟨2024, 3, 1⟩ 1 29 59 _ _ _ (by decide) (by decide)
      (by decide) (by decide) (by decide) fraction zone (by decide)
  have time : WritesTimestamp i.createdAt "\"2024-03-01T01:29:59.1200+01:30\"".toList :=
    ⟨_, ⟨_, spells_flatMap_writeChar _, rfl⟩, written⟩
  have status : Quotes "\"\\u0041ctive\"".toList Status.active.label.toList :=
    ⟨_, .unit capital (spells_flatMap_writeChar "ctive".toList), rfl⟩
  have level : WritesLevel .chaos "\"CHAOS\"".toList :=
    writesLevel_writeLevel .chaos
  have localId : Quotes "\"a\\\"\\u0001\"".toList "a\"\x01".toList :=
    ⟨_, .plain (by decide) (.short (by decide) (.unit control .nil)), rfl⟩
  have first : WritesMember ⟨"status".toList, "\"\\u0041ctive\"".toList⟩
      "\"status\" : \"\\u0041ctive\"".toList :=
    .member (m := ⟨_, _⟩) blank_nil (spells_flatMap_writeChar "status".toList) blank blank blank_nil
  have others := writesMembers_writeMembers
    [⟨"isolationLevel".toList, "\"CHAOS\"".toList⟩,
      ⟨"creationTime".toList, "\"2024-03-01T01:29:59.1200+01:30\"".toList⟩,
      ⟨"x".toList, "null".toList⟩,
      ⟨"localIdentifier".toList, "\"a\\\"\\u0001\"".toList⟩] (List.cons_ne_nil _ _)
  have object := WritesObject.members blank_nil (.more first others) blank_nil
  have writes : i.Writes cs := by
    refine ⟨_, object, ?_, ?_⟩
    · simp only [fields, List.forall_mem_cons]
      exact ⟨localId, time, status, level, nofun⟩
    · simp only [fields, List.forall_mem_cons]
      exact ⟨fun known => absurd rfl known.2.2.1, fun known => absurd rfl known.2.2.2.1,
        fun known => absurd rfl known.2.1, fun _ => .word (by decide),
        fun known => absurd rfl known.1, nofun⟩
  have survives := information_survives i
  exact ⟨(survives.1 (by decide) (by decide) (by decide)).2, writes, survives.2 cs writes⟩

end NestedWork.Information
