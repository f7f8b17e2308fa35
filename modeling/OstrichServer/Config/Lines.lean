import OstrichServer.Config.AnyText
import OstrichServer.Config.Text

/-!
# The lines of a configuration text, one by one

What the lines of comments, records and blanks do to the table, and that the rounds of
`config_parse_file` go through those that are not empty.
-/

namespace OstrichServer
namespace Config

open Dictionary Loop StringTokens

variable {F : Type} {atof : CString → F} {closed : Bool} {lines : List Line} {table : Table F}

/-! ## Lines -/

theorem present_of_blank {c : UInt8} (blank : c ∈ blanks) : c ≠ 0 := by
  rintro rfl
  exact absurd blank (by decide)

theorem Line.clear (line : Line) : ∀ c ∈ line.bytes, c ≠ 0 ∧ c ∉ [lf] := by
  have other : ∀ {c : UInt8}, c ≠ 0 ∧ c ≠ lf → c ≠ 0 ∧ c ∉ [lf] :=
    fun clear => ⟨clear.1, List.mem_singleton.not.mpr clear.2⟩
  have field : ∀ {c : UInt8}, FieldByte c → c ≠ 0 ∧ c ≠ lf := fun clear => ⟨clear.1, clear.2.1⟩
  have gap : ∀ {c : UInt8}, c ∈ blanks → c ≠ 0 ∧ c ≠ lf := by
    intro c blank
    refine ⟨present_of_blank blank, ?_⟩
    rintro rfl
    exact absurd blank (by decide)
  intro c member
  apply other
  cases line with
  | comment rest clear =>
      rcases List.mem_cons.mp member with rfl | later
      · decide
      · exact clear c later
  | blank bytes blank => exact gap (blank c member)
  | record line =>
      simp only [Line.bytes, RecordLine.bytes, List.mem_append] at member
      rcases member with name | between | type | between' | value
      · exact field (line.name.clear c name)
      · exact gap (line.gap.blank c between)
      · exact field (line.value.type_clear c type)
      · exact gap (line.gap'.blank c between')
      · exact field (line.value.field.clear c value)

/-- An empty line. -/
def Line.IsEmpty (line : Line) : Prop := line.IsBlank ∧ line.bytes = []

theorem Line.isEmpty_of_bytes {line : Line} (empty : line.bytes = []) : line.IsEmpty := by
  cases line with
  | comment rest clear => cases empty
  | blank bytes blank => exact ⟨trivial, empty⟩
  | record line => exact (line.name.nonempty (List.append_eq_nil_iff.mp empty).1).elim

/-- The fields of a record. -/
theorem fields_record (line : RecordLine) :
    fields line.bytes = [line.name.bytes, line.value.type.val, line.value.field.bytes] ∧
      leftOver line.bytes = [] := by
  obtain ⟨g, gs, gap⟩ := List.exists_cons_of_ne_nil line.gap.nonempty
  obtain ⟨g', gs', gap'⟩ := List.exists_cons_of_ne_nil line.gap'.nonempty
  have skips := line.gap.blank
  have skips' := line.gap'.blank
  rw [gap, List.forall_mem_cons] at skips
  rw [gap', List.forall_mem_cons] at skips'
  have value : Parts blanks (gs' ++ line.value.field.bytes) gs' line.value.field.bytes [] :=
    .last skips'.2 line.value.field.nonempty fun c member => (line.value.field.clear c member).2.2
  have type : Parts blanks (gs ++ (line.value.type.val ++ g' :: (gs' ++ line.value.field.bytes))) gs
      line.value.type.val _ :=
    .delimited skips.2 line.value.type_nonempty
      (fun c member => (line.value.type_clear c member).2.2) skips'.1
  have name : Parts blanks ([] ++ (line.name.bytes ++ g :: (gs ++ (line.value.type.val ++
      g' :: (gs' ++ line.value.field.bytes))))) [] line.name.bytes _ :=
    .delimited (List.forall_mem_nil _) line.name.nonempty
      (fun c member => (line.name.clear c member).2.2) skips.1
  have bytes : line.bytes = [] ++ (line.name.bytes ++ g :: (gs ++ (line.value.type.val ++
      g' :: (gs' ++ line.value.field.bytes)))) := by
    rw [RecordLine.bytes, gap, gap']
    rfl
  constructor
  · rw [fields, bytes, name.tokens_eq, type.tokens_eq, value.tokens_eq, if_neg line.name.nonempty,
      if_neg line.value.type_nonempty, if_neg line.value.field.nonempty]
    rfl
  · rw [leftOver, bytes, name.afterToken_eq, type.afterToken_eq, value.afterToken_eq]

theorem RecordLine.not_comment (line : RecordLine) : ¬ IsComment line.bytes := by
  rw [IsComment, RecordLine.bytes, List.head?_append_of_ne_nil _ line.name.nonempty]
  exact line.notComment

/-- What a line makes of the table. -/
def lineResult (atof : CString → F) : Line → Table F → Option (Table F)
  | .comment _ _, table => some table
  | .blank bytes _, table => if bytes = [] then some table else none
  | .record line, table =>
      (dictAdd stringKeys table line.name.string (line.made atof)).map Prod.snd

/-- A line that is not empty does what it makes of the table. -/
theorem lineStep_line {line : Line} (filled : line.bytes ≠ []) (table : Table F) :
    lineStep atof line.bytes table =
      match lineResult atof line table with
      | some table => .next table
      | none => .stop none := by
  cases line with
  | comment rest clear => exact if_pos rfl
  | blank bytes blank =>
      change bytes ≠ [] at filled
      have record : ¬ IsComment bytes := by
        intro hash
        exact absurd (blank _ (List.mem_of_mem_head? hash)) (by decide)
      have none : fields bytes = [] := tokens_eq_nil_iff.mpr blank
      rw [lineResult, if_neg filled]
      change lineStep atof bytes table = _
      rw [lineStep, if_neg record, none]
      rfl
  | record line =>
      obtain ⟨listed, nothing⟩ := fields_record line
      have made := recordMake_eq atof line.name.string line.value
      have name : byteString line.name.bytes = line.name.string :=
        byteString_string line.name.string
      have value : byteString line.value.field.bytes = line.value.field.string :=
        byteString_string line.value.field.string
      change lineStep atof line.bytes table = _
      rw [lineStep, if_neg line.not_comment, listed]
      simp only [List.getElem?_cons_zero, List.getElem?_cons_succ, Option.map_some, name, value,
        byteString_string, made]
      rw [lineResult, RecordLine.made]
      cases dictAdd stringKeys table line.name.string
          { data := line.value.read atof, name := line.name.string } with
      | none => rfl
      | some added => simp [nothing]

/-! ## Texts -/

/-- What the lines make of the table. -/
def readLines (atof : CString → F) : List Line → Table F → Option (Table F)
  | [], table => some table
  | line :: lines, table => (lineResult atof line table).bind (readLines atof lines)

/-- An empty line in front makes no round of its own. -/
theorem Rounds.cons_newline {text : List UInt8} {lines : List (List UInt8)}
    (rounds : Rounds text lines) (some : text ≠ []) : Rounds (lf :: text) lines := by
  cases rounds with
  | done => exact (some rfl).elim
  | round parts _ later =>
      exact .round (parts.cons List.mem_cons_self) (List.cons_ne_nil _ _) later

theorem linesBytes_ne_nil (nonempty : lines ≠ []) (last : ∀ line ∈ lines.getLast?, ¬ line.IsBlank) :
    linesBytes closed lines ≠ [] := by
  obtain ⟨line, rest, rfl⟩ := List.exists_cons_of_ne_nil nonempty
  rw [linesBytes]
  split
  · rename_i final
    obtain rfl := List.isEmpty_iff.mp final.1
    rw [List.append_nil]
    intro empty
    exact last line rfl (Line.isEmpty_of_bytes empty).1
  · exact List.append_ne_nil_of_right_ne_nil _ (List.cons_ne_nil _ _)

/-- The rounds go through the lines that are not empty. -/
theorem rounds_lines (last : ∀ line ∈ lines.getLast?, ¬ line.IsBlank) :
    Rounds (linesBytes closed lines)
      ((lines.filter fun line => line.bytes ≠ []).map Line.bytes) := by
  induction lines with
  | nil => exact .done
  | cons line lines induction =>
      have last' : ∀ line ∈ lines.getLast?, ¬ line.IsBlank := by
        intro line' final
        apply last line'
        rw [List.getLast?_cons, Option.mem_def.mp final]
        rfl
      by_cases empty : line.bytes = []
      · have more : lines ≠ [] := by
          rintro rfl
          exact last line rfl (Line.isEmpty_of_bytes empty).1
        have bytes : linesBytes closed (line :: lines) = lf :: linesBytes closed lines := by
          rw [linesBytes, empty, if_neg (by simp [more]), List.nil_append]
        rw [bytes, List.filter_cons_of_neg (by simp [empty])]
        exact (induction last').cons_newline (linesBytes_ne_nil more last')
      · rw [List.filter_cons_of_pos (by simp [empty]), List.map_cons, linesBytes]
        have passed : ∀ c ∈ line.bytes, c ∉ [lf] := fun c member => (line.clear c member).2
        split
        · rename_i final
          obtain rfl := List.isEmpty_iff.mp final.1
          have parts : Parts [lf] ([] ++ line.bytes) [] line.bytes [] :=
            .last (List.forall_mem_nil _) empty passed
          rw [List.append_nil]
          exact .round parts empty .done
        · have parts :
              Parts [lf] ([] ++ (line.bytes ++ lf :: linesBytes closed lines)) [] line.bytes
              (linesBytes closed lines) :=
            .delimited (List.forall_mem_nil _) empty passed List.mem_cons_self
          exact .round parts (List.append_ne_nil_of_left_ne_nil empty _) (induction last')

/-- What the rounds make of the table. -/
theorem readRounds_lines (lines : List Line) (table : Table F) :
    readRounds atof ((lines.filter fun line => line.bytes ≠ []).map Line.bytes) table =
      (readLines atof lines table).map fun table => (.throughText, table) := by
  induction lines generalizing table with
  | nil => rfl
  | cons line lines induction =>
      rw [readLines]
      by_cases empty : line.bytes = []
      · have skipped : lineResult atof line table = some table := by
          cases line with
          | blank bytes blank => exact if_pos empty
          | comment | record => exact (Line.isEmpty_of_bytes empty).1.elim
        rw [List.filter_cons_of_neg (by simp [empty]), skipped, induction]
        rfl
      · rw [List.filter_cons_of_pos (by simp [empty]), List.map_cons, readRounds,
          lineStep_line empty]
        cases lineResult atof line table with
        | none => rfl
        | some next => exact induction next

theorem zero_notMem_linesBytes (lines : List Line) : 0 ∉ linesBytes closed lines := by
  induction lines with
  | nil => exact List.not_mem_nil
  | cons line lines induction =>
      rw [linesBytes, List.mem_append]
      rintro (here | later)
      · exact (line.clear 0 here).1 rfl
      · split at later
        · cases later
        · rcases List.mem_cons.mp later with newline | later
          · exact absurd newline (by decide)
          · exact induction later

/-- A text without lines. -/
theorem configParseFile_of_nil (text : ConfigText) (none : text.lines = []) :
    configParseFile atof text.bytes = Option.none := by
  rw [ConfigText.bytes, none]
  rfl


/-- A text with lines. -/
theorem configParseFile_of_lines (text : ConfigText) (some : text.lines ≠ []) :
    configParseFile atof text.bytes =
      (readLines atof text.lines dictCreate).map fun table => (.throughText, table) := by
  have rounds : Rounds text.bytes _ := rounds_lines text.last
  have filled : tokens [lf] text.bytes ≠ [] := by
    intro newlines
    obtain ⟨line, rest, lines⟩ := List.exists_cons_of_ne_nil some
    have first : line.bytes ≠ [] := by
      intro empty
      apply text.first line
      · rw [lines]
        rfl
      · exact (Line.isEmpty_of_bytes empty).1
    obtain ⟨c, others, starts⟩ := List.exists_cons_of_ne_nil first
    have here : c ∈ line.bytes := by
      rw [starts]
      exact List.mem_cons_self
    have member : c ∈ text.bytes := by
      rw [ConfigText.bytes, lines, linesBytes]
      exact List.mem_append_left _ here
    exact (line.clear c here).2 (tokens_eq_nil_iff.mp newlines c member)
  have noNul : 0 ∉ text.bytes := zero_notMem_linesBytes text.lines
  rw [configParseFile_eq atof noNul rounds, if_neg filled, readRounds_lines]

end Config
end OstrichServer
