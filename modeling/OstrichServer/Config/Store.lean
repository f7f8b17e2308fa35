import OstrichServer.Config.Lines
import OstrichServer.Dictionary.FirstTable

/-!
# When the configuration store serves a text

Of records whose names share a bucket only the first is stored, and the names of the others, which
may differ from it in no more than their case, are then not found.
-/

namespace OstrichServer
namespace Config

open Dictionary

variable {F : Type} {atof : CString → F} {text : ConfigText} {lines : List Line} {table : Table F}

/-- `config_parse_file` goes through the text, and then `get_config_record` gives the record of each
line with one, and `NULL` for all other names. -/
def Served (atof : CString → F) (text : ConfigText) : Prop :=
  ∃ table, configParseFile atof text.bytes = some (.throughText, table) ∧
    (∀ line ∈ text.records,
      getConfigRecord table line.name.string = some (some (line.record atof))) ∧
    ∀ name, (∀ line ∈ text.records, line.name.string ≠ name) →
      getConfigRecord table name = some none

/-- The bucket of a name among the 100 of the table. -/
abbrev nameBucket (name : CString) : Nat := firstBucket stringKeys name

/-- There is a line, blank lines are empty, no number but -1 has a sign, and no two names share a
bucket. -/
structure ConfigText.Loads (text : ConfigText) : Prop where
  nonempty : text.lines ≠ []
  plain : ∀ line ∈ text.lines, line.Plain
  readable : ∀ line ∈ text.records, line.value.Readable
  apart : text.records.Pairwise fun line line' =>
    nameBucket line.name.string ≠ nameBucket line'.name.string

/-! ## Lists -/

section Find

variable {α β : Type} [DecidableEq β] {f : α → β} {l : List α}

theorem find?_of_pairwise (apart : l.Pairwise fun a b => f a ≠ f b) {a : α} (member : a ∈ l) :
    l.find? (fun b => f b = f a) = some a := by
  induction l with
  | nil => cases member
  | cons b l induction =>
      obtain ⟨first, others⟩ := List.pairwise_cons.mp apart
      rw [List.find?_cons]
      rcases List.mem_cons.mp member with rfl | later
      · rw [decide_eq_true rfl]
      · rw [decide_eq_false (first a later)]
        exact induction others later

theorem pairwise_of_find? (nodup : l.Nodup)
    (found : ∀ a ∈ l, l.find? (fun b => f b = f a) = some a) :
    l.Pairwise fun a b => f a ≠ f b := by
  induction l with
  | nil => exact List.Pairwise.nil
  | cons b l induction =>
      obtain ⟨fresh, nodup'⟩ := List.nodup_cons.mp nodup
      have first : ∀ a ∈ l, f b ≠ f a := by
        intro a member same
        have here := found a (List.mem_cons_of_mem _ member)
        rw [List.find?_cons, decide_eq_true same] at here
        exact fresh (Option.some.inj here ▸ member)
      refine List.pairwise_cons.mpr ⟨first, induction nodup' fun a member => ?_⟩
      have here := found a (List.mem_cons_of_mem _ member)
      rwa [List.find?_cons, decide_eq_false (first a member)] at here

end Find

/-! ## Lookups -/

/-- The entries that the lines add. -/
def entries (atof : CString → F) (lines : List RecordLine) : List (DictEntry CString (Record F)) :=
  lines.map fun line => { key := line.name.string, val := line.made atof }

theorem plain_of_readLines {table' : Table F} (result : readLines atof lines table = some table') :
    ∀ line ∈ lines, line.Plain := by
  induction lines generalizing table with
  | nil => exact List.forall_mem_nil _
  | cons line lines induction =>
      obtain ⟨middle, first, others⟩ := Option.bind_eq_some_iff.mp result
      refine List.forall_mem_cons.mpr ⟨?_, induction others⟩
      cases line with
      | comment | record => trivial
      | blank bytes blank =>
          by_contra filled
          change ¬ bytes = [] at filled
          rw [lineResult, if_neg filled] at first
          cases first

theorem readLines_plain (plain : ∀ line ∈ lines, line.Plain) :
    readLines atof lines table =
      dictAddAll stringKeys (entries atof (lines.filterMap Line.record?)) table := by
  induction lines generalizing table with
  | nil => rfl
  | cons line lines induction =>
      obtain ⟨first, others⟩ := List.forall_mem_cons.mp plain
      rw [readLines]
      cases line with
      | comment rest clear =>
          rw [lineResult, Option.bind_some, induction others]
          rfl
      | blank bytes blank =>
          change bytes = [] at first
          rw [lineResult, if_pos first, Option.bind_some, induction others]
          rfl
      | record line =>
          rw [lineResult]
          change _ = dictAddAll stringKeys (_ :: entries atof (lines.filterMap Line.record?)) table
          rw [dictAddAll]
          cases dictAdd stringKeys table line.name.string (line.made atof) with
          | none => rfl
          | some added => exact induction others

/-- The first line whose name has the bucket of a name. -/
def ConfigText.firstLine (text : ConfigText) (name : CString) : Option RecordLine :=
  text.records.find? fun line => nameBucket line.name.string = nameBucket name

/-- Different names. -/
theorem ConfigText.name_injective {line line' : RecordLine} (member : line ∈ text.records)
    (member' : line' ∈ text.records) (same : line.name.string = line'.name.string) :
    line = line' := by
  by_contra other
  have symmetric : Std.Symm fun line line' : RecordLine => line.name.string ≠ line'.name.string :=
    ⟨fun _ _ differ => differ.symm⟩
  exact text.distinct.forall member member' other same

/-- What `get_config_record` gives after a text with lines that are not blank or empty. -/
theorem exists_lookups (atof : CString → F) (nonempty : text.lines ≠ [])
    (plain : ∀ line ∈ text.lines, line.Plain) :
    ∃ table, configParseFile atof text.bytes = some (.throughText, table) ∧
      ∀ name, getConfigRecord table name =
        some (((text.firstLine name).filter fun line => line.name.string = name).map
          (RecordLine.made atof)) := by
  have different : (entries atof text.records).Pairwise fun entry other =>
      stringKeys.keyCmp other.key entry.key ≠ 0 := by
    rw [entries, List.pairwise_map]
    apply text.distinct.imp
    intro line line' differ same
    exact differ ((dictStringKeyCompare_eq_zero_iff _ _).mp same).symm
  obtain ⟨table, added, collects⟩ := exists_dictAddAll different
  refine ⟨table, ?_, fun name => ?_⟩
  · rw [configParseFile_of_lines text nonempty, readLines_plain plain]
    exact congrArg (Option.map _) added
  · have found : firstIn stringKeys (entries atof text.records) (nameBucket name) =
        (text.firstLine name).map fun line =>
          { key := line.name.string, val := line.made atof } := by
      rw [firstIn, entries, List.find?_map]
      rfl
    rw [getConfigRecord, collects.dictFind, found]
    cases text.firstLine name with
    | none => rfl
    | some line =>
        have compare : stringKeys.keyCmp name line.name.string = 0 ↔ line.name.string = name :=
          (dictStringKeyCompare_eq_zero_iff _ _).trans eq_comm
        simp only [Option.map_some, Option.filter, compare]
        split <;> rfl

/-- A text is served exactly if it loads. -/
theorem config_served_iff (atof : CString → F) (text : ConfigText) :
    Served atof text ↔ text.Loads := by
  constructor
  · rintro ⟨table, parsed, records, -⟩
    have nonempty : text.lines ≠ [] := by
      intro none
      rw [configParseFile_of_nil text none] at parsed
      cases parsed
    have plain : ∀ line ∈ text.lines, line.Plain := by
      rw [configParseFile_of_lines text nonempty] at parsed
      obtain ⟨table', result, -⟩ := Option.map_eq_some_iff.mp parsed
      exact plain_of_readLines result
    obtain ⟨table', parsed', lookups⟩ := exists_lookups atof nonempty plain
    obtain rfl : table = table' := by
      rw [parsed] at parsed'
      exact (Prod.mk.inj (Option.some.inj parsed')).2
    have own : ∀ line ∈ text.records,
        text.firstLine line.name.string = some line ∧ line.made atof = line.record atof := by
      intro line member
      have found := records line member
      rw [lookups] at found
      obtain ⟨line', kept, made⟩ := Option.map_eq_some_iff.mp (Option.some.inj found)
      obtain ⟨first, named⟩ := Option.filter_eq_some_iff.mp kept
      obtain rfl := ConfigText.name_injective (List.mem_of_find?_eq_some first) member
        (of_decide_eq_true named)
      exact ⟨first, made⟩
    refine ⟨nonempty, plain, fun line member => ?_, ?_⟩
    · apply (line.value.read_eq_data_iff atof).mp
      exact congrArg Record.data (own line member).2
    · have nodup : text.records.Nodup := text.distinct.imp fun differ same => differ (by rw [same])
      exact pairwise_of_find? nodup fun line member => (own line member).1
  · rintro ⟨nonempty, plain, readable, apart⟩
    obtain ⟨table, parsed, lookups⟩ := exists_lookups atof nonempty plain
    refine ⟨table, parsed, fun line member => ?_, fun name unused => ?_⟩
    · have first : text.firstLine line.name.string = some line := find?_of_pairwise apart member
      have made : line.made atof = line.record atof := by
        rw [RecordLine.made, (line.value.read_eq_data_iff atof).mpr (readable line member)]
        rfl
      rw [lookups, first]
      simp [Option.filter, made]
    · rw [lookups]
      cases first : text.firstLine name with
      | none => rfl
      | some line =>
          have other := unused line (List.mem_of_find?_eq_some first)
          simp [Option.filter, other]

/-- The file `record.config`. -/
example : ((configParseFile (fun _ => (0 : Nat))
    ("net.tcp.listen INT 80\n\n\nnet.tcp.connection INT 8000\n".toList.map ascii)).bind
      fun result => getConfigRecord result.2 ⟨"net.tcp.connection".toList.map ascii, by decide⟩).map
        (Option.map Record.data) = some (some (.configInt 8000)) := by
  decide +kernel

/-! ## Names that differ in their case -/

theorem space_blank : ∀ c ∈ [32], c ∈ blanks :=
  List.forall_mem_singleton.mpr List.mem_cons_self

/-- The line of an integer with one digit. -/
def digitLine (name digit : UInt8) (letter : 64 < name)
    (decimal : ascii '0' ≤ digit ∧ digit ≤ ascii '9') :
    RecordLine where
  name :=
    { bytes := [name]
      nonempty := List.cons_ne_nil _ _
      clear := List.forall_mem_singleton.mpr (fieldByte_of_lt (UInt8.lt_trans (by decide) letter)) }
  notComment := by
    rintro comment
    rw [Option.some.inj comment] at letter
    exact absurd letter (by decide)
  gap := { bytes := [32], nonempty := List.cons_ne_nil _ _, blank := space_blank }
  value := .int
    { sign := none
      digits := [digit]
      nonempty := List.cons_ne_nil _ _
      decimal := List.forall_mem_singleton.mpr decimal
      inRange := by
        have small := digit.toNat_lt
        have value : magnitude [digit] = digit.toNat - 48 := Nat.ofDigits_singleton
        change -2 ^ 31 ≤ (magnitude [digit] : Int) ∧ (magnitude [digit] : Int) < 2 ^ 31
        omega }
  gap' := { bytes := [32], nonempty := List.cons_ne_nil _ _, blank := space_blank }

/-- `a INT 1` -/
def smallLine : RecordLine := digitLine (ascii 'a') (ascii '1') (by decide) (by decide)

/-- `A INT 2` -/
def capitalLine : RecordLine := digitLine (ascii 'A') (ascii '2') (by decide) (by decide)

/-- Two lines whose names differ in their case. -/
def caseText : ConfigText where
  lines := [.record smallLine, .record capitalLine]
  closed := true
  first := by rintro line ⟨⟩ ⟨⟩
  last := by rintro line ⟨⟩ ⟨⟩
  distinct := by
    have differ : smallLine.name.string ≠ capitalLine.name.string := by decide
    exact List.pairwise_pair.mpr differ

/-- The second of two names that differ in their case is not found. -/
theorem config_not_served :
    caseText.bytes = "a INT 1\nA INT 2\n".toList.map ascii ∧
      ¬ Served (fun _ => (0 : Nat)) caseText := by
  refine ⟨rfl, ?_⟩
  rintro ⟨table, parsed, records, -⟩
  have missing : (configParseFile (fun _ => (0 : Nat)) caseText.bytes).bind
      (fun result => getConfigRecord result.2 capitalLine.name.string) = some none := by
    decide +kernel
  have found := records capitalLine (List.mem_cons_of_mem _ List.mem_cons_self)
  rw [parsed, Option.bind_some, found] at missing
  cases missing

end Config
end OstrichServer
