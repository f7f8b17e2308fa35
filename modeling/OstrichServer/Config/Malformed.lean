import OstrichServer.Config.AnyText
import OstrichServer.Dictionary.Load

/-!
# Malformed texts

Which texts `config_parse_file` survives.  It takes each of its three fields for a string without a
look, and a text for one that has a line and does not end in an empty one, so a text is safe only as
far as its lines are whole, or up to the first line that is rejected before a field is missed.
-/

namespace OstrichServer
namespace Config

open Dictionary Loop StringTokens

variable {F : Type} {atof : CString → F} {line text gap rest : List UInt8}
  {lines : List (List UInt8)} {table : Table F} {state : ParseState F}

/-! ## Lines -/

/-- The type is one of the three that `record_make` knows. -/
abbrev KnownType (type : List UInt8) : Prop := byteString type ∈ [stringWord, intWord, floatWord]

/-- A comment, or a record of a known type with at most one blank behind its value. -/
inductive Passes (line : List UInt8) : Prop
  | comment (hash : IsComment line)
  | record {name type value : List UInt8} (three : fields line = [name, type, value])
      (known : KnownType type) (nothing : leftOver line = [])

/-- A record of an unknown type, or one with a value and more than a blank behind it. -/
structure Rejected (line : List UInt8) : Prop where
  record : ¬ IsComment line
  reason : ∃ name type others, fields line = name :: type :: others ∧
    (¬ KnownType type ∨ others ≠ [] ∧ leftOver line ≠ [])

/-- Neither blank nor a comment, and without three fields. -/
structure Malformed (line : List UInt8) : Prop where
  filled : fields line ≠ []
  record : ¬ IsComment line
  count : (fields line).length ≠ 3

/-- The lines of a text that are not empty. -/
def filledLines (text : List UInt8) : List (List UInt8) := tokens [lf] text

/-- The first line that is not empty, and the others. -/
theorem exists_first_filled (filled : filledLines text ≠ []) :
    ∃ gap line rest, Parts [lf] text gap line rest ∧ line ≠ [] ∧
      filledLines text = line :: filledLines rest := by
  obtain ⟨gap, line, rest, parts⟩ := exists_parts [lf] text
  have nonempty : line ≠ [] := mt parts.tokens_eq_nil_iff.mpr filled
  refine ⟨gap, line, rest, parts, nonempty, ?_⟩
  exact parts.tokens_eq.trans (if_neg nonempty)

theorem Malformed.not_passes (malformed : Malformed line) : ¬ Passes line := by
  rintro (hash | ⟨three, -, -⟩)
  · exact malformed.record hash
  · exact malformed.count (congrArg List.length three)

/-- A line of a text that is not blank is not empty. -/
theorem Malformed.mem_filledLines (malformed : Malformed line) (member : line ∈ text.splitOn lf) :
    line ∈ filledLines text := by
  have nonempty : line ≠ [] := by
    rintro rfl
    exact malformed.filled rfl
  have same : (fun c => c == lf) = fun c => decide (c ∈ [lf]) := by
    funext c
    rw [Bool.eq_iff_iff, beq_iff_eq, decide_eq_true_iff, List.mem_singleton]
  rw [List.splitOn_eq_splitOnP, same] at member
  exact List.mem_filter.mpr ⟨member, decide_eq_true nonempty⟩

/-! ## What the lines do -/

/-- The table as `config_parse_file` makes it. -/
structure Ready (table : Table F) : Prop where
  wellFormed : table.WellFormed stringKeys
  stage : Stage table

theorem ready_create : Ready (dictCreate : Table F) := ⟨Dict.wellFormed_create, stage_create⟩

theorem Ready.exists_dictAdd (ready : Ready table) (name : CString) (rc : Record F) :
    ∃ status table', dictAdd stringKeys table name rc = some (status, table') ∧ Ready table' := by
  obtain ⟨status, table', added, wellFormed, stage⟩ :=
    ready.stage.exists_dictAdd ready.wellFormed name rc
  exact ⟨status, table', added, wellFormed, stage⟩

/-- `record_make` with a type that it knows. -/
theorem recordMake_of_known (atof : CString → F) (name : CString) {type : CString}
    (known : type ∈ [stringWord, intWord, floatWord]) :
    recordMake atof (some name) (some type) none = none ∧
      ∀ value, ∃ data, recordMake atof (some name) (some type) (some value) =
        some (some { data, name }) := by
  simp only [List.mem_cons, List.not_mem_nil, or_false] at known
  rcases known with rfl | rfl | rfl
  · exact ⟨rfl, fun value => ⟨_, rfl⟩⟩
  · exact ⟨rfl, fun value => ⟨_, rfl⟩⟩
  · exact ⟨rfl, fun value => ⟨_, rfl⟩⟩

theorem recordMake_of_unknown (atof : CString → F) (name : CString) {type : CString}
    (unknown : type ∉ [stringWord, intWord, floatWord]) (value : Option CString) :
    recordMake atof (some name) (some type) value = some none := by
  simp only [List.mem_cons, List.not_mem_nil, or_false, not_or] at unknown
  obtain ⟨string, int, float⟩ := unknown
  simp [recordMake, string, int, float]

theorem lineStep_comment (hash : IsComment line) : lineStep atof line table = .next table :=
  if_pos hash

/-- A record whose type is not known. -/
theorem lineStep_of_unknown {name type : List UInt8} {others : List (List UInt8)}
    (record : ¬ IsComment line) (listed : fields line = name :: type :: others)
    (unknown : ¬ KnownType type) : lineStep atof line table = .stop (some (.osErr, table)) := by
  have made := recordMake_of_unknown atof (byteString name) unknown (others[0]?.map byteString)
  rw [lineStep, if_neg record, listed]
  simp [made]

/-- A record that is made and added, or refused. -/
theorem lineStep_of_made {name type value : List UInt8} {others : List (List UInt8)}
    {rc : Record F} {status : Status} {table' : Table F} (record : ¬ IsComment line)
    (listed : fields line = name :: type :: value :: others)
    (made : recordMake atof (some (byteString name)) (some (byteString type))
      (some (byteString value)) = some (some rc))
    (added : dictAdd stringKeys table rc.name rc = some (status, table')) :
    lineStep atof line table =
      if leftOver line ≠ [] then .stop (some (.osErr, table')) else .next table' := by
  rw [lineStep, if_neg record, listed]
  simp [made, added]

/-- A record of a known type, with a value. -/
theorem Ready.lineStep_of_known (ready : Ready table) (atof : CString → F)
    {name type value : List UInt8} {others : List (List UInt8)} (record : ¬ IsComment line)
    (listed : fields line = name :: type :: value :: others) (known : KnownType type) :
    ∃ table', Ready table' ∧ lineStep atof line table =
      if leftOver line ≠ [] then .stop (some (.osErr, table')) else .next table' := by
  obtain ⟨-, makes⟩ := recordMake_of_known atof (byteString name) known
  obtain ⟨data, made⟩ := makes (byteString value)
  obtain ⟨status, table', added, ready'⟩ :=
    ready.exists_dictAdd (byteString name) { data, name := byteString name }
  exact ⟨table', ready', lineStep_of_made record listed made added⟩

theorem Ready.lineStep_of_passes (ready : Ready table) (atof : CString → F) (passes : Passes line) :
    ∃ table', lineStep atof line table = .next table' ∧ Ready table' := by
  by_cases hash : IsComment line
  · exact ⟨table, lineStep_comment hash, ready⟩
  · cases passes with
    | comment hash' => exact (hash hash').elim
    | record three known nothing =>
        obtain ⟨table', ready', step⟩ := ready.lineStep_of_known atof hash three known
        rw [if_neg (not_not.mpr nothing)] at step
        exact ⟨table', step, ready'⟩

theorem Ready.lineStep_of_rejected (ready : Ready table) (atof : CString → F)
    (rejected : Rejected line) :
    ∃ table', lineStep atof line table = .stop (some (.osErr, table')) := by
  obtain ⟨name, type, others, listed, reason⟩ := rejected.reason
  by_cases known : KnownType type
  · obtain ⟨some, more⟩ := reason.resolve_left (not_not.mpr known)
    obtain ⟨value, others', rfl⟩ := List.exists_cons_of_ne_nil some
    obtain ⟨table', -, step⟩ := ready.lineStep_of_known atof rejected.record listed known
    rw [if_pos more] at step
    exact ⟨table', step⟩
  · exact ⟨table, lineStep_of_unknown rejected.record listed known⟩

/-- The third field and what is behind it. -/
theorem fields_leftOver {name type value : List UInt8} {others : List (List UInt8)}
    (listed : fields line = name :: type :: value :: others) : fields (leftOver line) = others :=
  tokens_afterToken (tokens_afterToken (tokens_afterToken listed))

/-- All other lines make the parser crash. -/
theorem lineStep_of_neither (not_passes : ¬ Passes line) (not_rejected : ¬ Rejected line) :
    lineStep atof line table = .stop none := by
  have record : ¬ IsComment line := fun hash => not_passes (.comment hash)
  rw [lineStep, if_neg record]
  cases listed : fields line with
  | nil => rfl
  | cons name others =>
      cases others with
      | nil => rfl
      | cons type others =>
          have known : KnownType type := by
            by_contra unknown
            exact not_rejected ⟨record, name, type, others, listed, Or.inl unknown⟩
          cases others with
          | nil =>
              obtain ⟨missed, -⟩ := recordMake_of_known atof (byteString name) known
              simp [missed]
          | cons value others =>
              have nothing : leftOver line = [] := by
                by_contra more
                exact not_rejected ⟨record, name, type, _, listed,
                  Or.inr ⟨List.cons_ne_nil _ _, more⟩⟩
              have last := fields_leftOver listed
              rw [nothing] at last
              obtain rfl : [] = others := last
              exact (not_passes (.record listed known nothing)).elim

/-! ## States of a run -/

/-- The rounds of `config_parse_file` on a text. -/
def parseRuns (atof : CString → F) (text : CString) : TransitionSystem (ParseState F) where
  initial state := parseStart text.val = some state
  step state next := lineRound atof state = .next next

/-- The line that a round handles. -/
def currentLine (state : ParseState F) : List UInt8 :=
  stringAt state.pbuf (state.line + strspn state.pbuf state.line [lf])

/-- The state stands at a line, and the table is as the parser makes it. -/
structure Parsing (state : ParseState F) : Prop where
  at_round : ∃ gap line rest, AtRound state gap line rest
  ready : Ready state.table

theorem AtRound.currentLine_eq (at_round : AtRound state gap line rest) :
    currentLine state = line := by
  obtain ⟨more, here⟩ := at_round.here
  rw [currentLine, at_round.start]
  exact stringAt_of_drop (drop_add here) at_round.noNul

theorem Ready.passes_of_next (ready : Ready table) {table' : Table F}
    (step : lineStep atof line table = .next table') : Passes line := by
  by_contra not_passes
  by_cases rejected : Rejected line
  · obtain ⟨final, step'⟩ := ready.lineStep_of_rejected atof rejected
    rw [step] at step'
    cases step'
  · rw [lineStep_of_neither not_passes rejected] at step
    cases step

theorem Ready.of_lineStep (ready : Ready table) {table' : Table F}
    (step : lineStep atof line table = .next table') : Ready table' := by
  obtain ⟨next, step', ready'⟩ := ready.lineStep_of_passes atof (ready.passes_of_next step)
  rw [step] at step'
  cases step'
  exact ready'

theorem parsing_of_reachable {text : CString} (reachable : (parseRuns atof text).Reachable state) :
    Parsing state := by
  have invariant : (parseRuns atof text).IsInvariant (Parsing : ParseState F → Prop) := by
    constructor
    · intro state start
      obtain ⟨gap, line, rest, parts⟩ := exists_parts [lf] text.val
      by_cases empty : line = []
      · subst empty
        have none := parseStart_of_newlines (F := F) text.property parts
        rw [show parseStart text.val = some state from start] at none
        cases none
      · obtain ⟨state', start', at_round, table⟩ :=
          exists_parseStart (F := F) text.property parts empty
        obtain rfl : state = state' := Option.some.inj (start.symm.trans start')
        exact ⟨⟨[], line, rest, at_round⟩, table ▸ ready_create⟩
    · rintro state next ⟨⟨gap, line, rest, at_round⟩, ready⟩ round
      change lineRound atof state = .next next at round
      by_cases empty : gap ++ line = []
      · obtain ⟨rfl, rfl⟩ := List.append_eq_nil_iff.mp empty
        rw [at_round.through] at round
        cases round
      · obtain ⟨pbuf, unread, round'⟩ := at_round.lineRound_eq atof empty
        rw [round] at round'
        cases step : lineStep atof line state.table with
        | stop out =>
            rw [step] at round'
            cases round'
        | next table =>
            rw [step] at round'
            cases round'
            obtain ⟨gap', line', rest', parts⟩ := exists_parts [lf] rest
            have unread' : Unread { state with pbuf, table } rest := ⟨unread.noNul, unread.behind⟩
            exact ⟨⟨gap', line', rest', unread'.atRound parts⟩, ready.of_lineStep step⟩
  exact invariant.of_reachable reachable

/-- The rounds come to every line before which all pass. -/
theorem exists_reachable_of_passes {text : CString} {before after : List (List UInt8)}
    (split : filledLines text.val = before ++ line :: after) (passes : ∀ l ∈ before, Passes l) :
    ∃ state, (parseRuns atof text).Reachable state ∧ currentLine state = line := by
  have onward : ∀ {state : ParseState F} {gap first rest : List UInt8},
      (parseRuns atof text).Reachable state → AtRound state gap first rest → first ≠ [] →
        first :: filledLines rest = before ++ line :: after →
          ∃ state, (parseRuns atof text).Reachable state ∧ currentLine state = line := by
    clear split
    induction before with
    | nil =>
        intro state gap first rest reachable at_round _ split
        obtain ⟨rfl, -⟩ := List.cons.inj split
        exact ⟨state, reachable, at_round.currentLine_eq⟩
    | cons _ before induction =>
        intro state gap first rest reachable at_round filled split
        obtain ⟨rfl, split'⟩ := List.cons.inj split
        obtain ⟨passed, others⟩ := List.forall_mem_cons.mp passes
        have ready := (parsing_of_reachable reachable).ready
        obtain ⟨table, step, -⟩ := ready.lineStep_of_passes atof passed
        obtain ⟨pbuf, unread, round⟩ := at_round.lineRound_eq atof
          (List.append_ne_nil_of_right_ne_nil gap filled)
        rw [step] at round
        have unread' : Unread { state with pbuf, table } rest := ⟨unread.noNul, unread.behind⟩
        have more : filledLines rest ≠ [] := by
          rw [split']
          exact List.append_ne_nil_of_right_ne_nil _ (List.cons_ne_nil _ _)
        obtain ⟨gap', first', rest', parts, filled', listed⟩ := exists_first_filled more
        exact induction others (reachable.step round) (unread'.atRound parts) filled'
          (listed.symm.trans split')
  have some : filledLines text.val ≠ [] := by
    rw [split]
    exact List.append_ne_nil_of_right_ne_nil _ (List.cons_ne_nil _ _)
  obtain ⟨gap, first, rest, parts, filled, listed⟩ := exists_first_filled some
  obtain ⟨state, start, at_round, -⟩ := exists_parseStart (F := F) text.property parts filled
  exact onward (TransitionSystem.reachable_of_initial start) at_round filled
    (listed.symm.trans split)

/-- The lines of the rounds that are left. -/
inductive LinesLeft : ParseState F → List (List UInt8) → Prop
  | done {state : ParseState F} {rest : List UInt8} (at_round : AtRound state [] [] rest) :
      LinesLeft state []
  | line {state : ParseState F} {gap line rest : List UInt8} {lines : List (List UInt8)}
      (at_round : AtRound state gap line rest) (nonempty : gap ++ line ≠ [])
      (later : Rounds rest lines) : LinesLeft state (line :: lines)

/-- In a run the lines before the one at hand have passed. -/
theorem exists_linesLeft_of_reachable {text : CString} (rounds : Rounds text.val lines)
    (reachable : (parseRuns atof text).Reachable state) :
    ∃ before after, lines = before ++ after ∧ (∀ l ∈ before, Passes l) ∧ LinesLeft state after := by
  have invariant : (parseRuns atof text).IsInvariant fun state => Ready state.table ∧
      ∃ before after, lines = before ++ after ∧ (∀ l ∈ before, Passes l) ∧
        LinesLeft state after := by
    constructor
    · intro state start
      change parseStart text.val = some state at start
      generalize source : text.val = bytes at rounds start
      have noNul : 0 ∉ bytes := source ▸ text.property
      cases rounds with
      | done => cases start
      | round parts some later =>
          rename_i gap line rest lines
          by_cases empty : line = []
          · subst empty
            rw [parseStart_of_newlines noNul parts] at start
            cases start
          · obtain ⟨state', start', at_round, table⟩ :=
              exists_parseStart (F := F) noNul parts empty
            obtain rfl : state = state' := Option.some.inj (start.symm.trans start')
            exact ⟨table ▸ ready_create, [], _, rfl, List.forall_mem_nil _,
              .line at_round empty later⟩
    · rintro state next ⟨ready, before, after, split, passes, left⟩ round
      change lineRound atof state = .next next at round
      cases left with
      | done at_round =>
          rw [at_round.through] at round
          cases round
      | line at_round nonempty later =>
          rename_i gap line rest lines'
          obtain ⟨pbuf, unread, round'⟩ := at_round.lineRound_eq atof nonempty
          rw [round] at round'
          cases step : lineStep atof line state.table with
          | stop out =>
              rw [step] at round'
              cases round'
          | next table =>
              rw [step] at round'
              cases round'
              have unread' : Unread { state with pbuf, table } rest :=
                ⟨unread.noNul, unread.behind⟩
              refine ⟨ready.of_lineStep step, before ++ [line], lines', ?_, ?_, ?_⟩
              · rw [split, List.append_assoc, List.singleton_append]
              · intro l member
                rcases List.mem_append.mp member with earlier | last
                · exact passes l earlier
                · exact List.mem_singleton.mp last ▸ ready.passes_of_next step
              · cases later with
                | done => exact .done (unread'.atRound (.gap (List.forall_mem_nil _)))
                | round parts some later =>
                    exact .line (unread'.atRound parts) (parts.front_ne_nil some) later
  exact (invariant.of_reachable reachable).2

/-! ## Texts -/

/-- Lines that pass are read one after the other. -/
theorem Ready.readRounds_append (ready : Ready table) (atof : CString → F)
    (passes : ∀ line ∈ lines, Passes line) (more : List (List UInt8)) :
    ∃ table', readRounds atof (lines ++ more) table = readRounds atof more table' ∧
      Ready table' := by
  induction lines generalizing table with
  | nil => exact ⟨table, rfl, ready⟩
  | cons line lines induction =>
      obtain ⟨first, others⟩ := List.forall_mem_cons.mp passes
      obtain ⟨next, step, ready'⟩ := ready.lineStep_of_passes atof first
      obtain ⟨table', read, ready''⟩ := induction ready' others
      refine ⟨table', ?_, ready''⟩
      rw [List.cons_append, readRounds, step]
      exact read

theorem exists_first_not {α : Type} {p : α → Prop} {l : List α} (not_all : ¬ ∀ a ∈ l, p a) :
    ∃ before a after, l = before ++ a :: after ∧ (∀ b ∈ before, p b) ∧ ¬ p a := by
  induction l with
  | nil => exact (not_all (List.forall_mem_nil _)).elim
  | cons a l induction =>
      by_cases first : p a
      · obtain ⟨before, b, after, rfl, passed, fails⟩ :=
          induction fun all => not_all (List.forall_mem_cons.mpr ⟨first, all⟩)
        exact ⟨a :: before, b, after, rfl, List.forall_mem_cons.mpr ⟨first, passed⟩, fails⟩
      · exact ⟨[], a, l, rfl, List.forall_mem_nil _, first⟩

theorem pair_suffix_append_iff {front rest : List UInt8} {c : UInt8} (nonempty : rest ≠ [])
    (longer : rest ≠ [c]) : [c, c] <:+ front ++ rest ↔ [c, c] <:+ rest := by
  induction front with
  | nil => rfl
  | cons d front induction =>
      rw [List.cons_append, List.suffix_cons_iff, induction]
      apply or_iff_right
      intro whole
      have tail : [c] = front ++ rest := (List.cons.inj whole).2
      rcases List.append_eq_singleton_iff.mp tail.symm with ⟨-, only⟩ | ⟨-, none⟩
      · exact longer only
      · exact nonempty none

theorem not_pair_suffix {line : List UInt8} (clear : lf ∉ line) : ¬ [lf, lf] <:+ line := fun ends =>
  clear (ends.subset List.mem_cons_self)

/-- Behind a line there are two newlines exactly if the text goes on after the first. -/
theorem pair_suffix_newlines_iff {line rest : List UInt8} (clear : lf ∉ line) (nonempty : line ≠ [])
    (newlines : ∀ c ∈ rest, c = lf) (gap : List UInt8) :
    [lf, lf] <:+ gap ++ (line ++ lf :: rest) ↔ rest ≠ [] := by
  constructor
  · rintro closed rfl
    have single : line ++ [lf] ≠ [lf] := by simp [nonempty]
    rw [pair_suffix_append_iff (by simp) single] at closed
    obtain ⟨front, ends⟩ := closed
    have last : (front ++ [lf]) ++ [lf] = line ++ [lf] := by
      rw [List.append_assoc]
      exact ends
    rw [← List.append_cancel_right last] at clear
    exact clear (List.mem_append_right _ List.mem_cons_self)
  · intro more
    have repeated : rest = List.replicate rest.length lf :=
      List.eq_replicate_iff.mpr ⟨rfl, newlines⟩
    obtain ⟨n, size⟩ := Nat.exists_eq_succ_of_ne_zero (List.length_pos_iff.mpr more).ne'
    refine ⟨gap ++ (line ++ List.replicate n lf), ?_⟩
    rw [repeated, size, ← List.replicate_succ, List.append_assoc, List.append_assoc]
    change gap ++ (line ++ (List.replicate n lf ++ List.replicate 2 lf)) = _
    rw [List.replicate_append_replicate]

/-- With another line behind it a line does not count. -/
theorem pair_suffix_filled_iff {rest : List UInt8} (filled : filledLines rest ≠ [])
    (gap line : List UInt8) : [lf, lf] <:+ gap ++ (line ++ lf :: rest) ↔ [lf, lf] <:+ rest := by
  have some : rest ≠ [] := by
    rintro rfl
    exact filled rfl
  have more : rest ≠ [lf] := by
    rintro rfl
    exact filled rfl
  rw [List.append_cons, ← List.append_assoc]
  exact pair_suffix_append_iff some more

/-- Newlines make one round, on an empty line. -/
theorem Rounds.eq_of_newlines (rounds : Rounds text lines) (newlines : filledLines text = []) :
    lines = if text = [] then [] else [[]] := by
  cases rounds with
  | done => rfl
  | round parts some later =>
      obtain rfl := parts.tokens_eq_nil_iff.mp newlines
      obtain rfl := parts.rest_of_nil
      rw [if_neg some]
      cases later with
      | done => rfl
      | round _ some' => exact (some' rfl).elim

/-- The rounds go through the lines that are not empty, and then through one more line if the text
ends in an empty one. -/
theorem Rounds.eq_filledLines (rounds : Rounds text lines) (filled : filledLines text ≠ []) :
    lines = filledLines text ++ if [lf, lf] <:+ text then [[]] else [] := by
  induction rounds with
  | done => exact (filled rfl).elim
  | round parts some later induction =>
      rename_i text gap line rest lines
      have listed : filledLines text = _ := parts.tokens_eq
      have nonempty : line ≠ [] := mt parts.tokens_eq_nil_iff.mpr filled
      rw [if_neg nonempty] at listed
      rw [listed, List.cons_append]
      congr 1
      have single : line ≠ [lf] := by
        rintro rfl
        exact (line_clear parts).2 List.mem_cons_self
      cases parts with
      | gap => exact (nonempty rfl).elim
      | last _ _ passed =>
          have clear : lf ∉ line := fun member => passed lf member List.mem_cons_self
          have open_end : ¬ [lf, lf] <:+ gap ++ line :=
            mt (pair_suffix_append_iff nonempty single).mp (not_pair_suffix clear)
          rw [if_neg open_end, later.eq_of_newlines rfl]
          rfl
      | delimited _ _ passed newline =>
          rename_i c
          obtain rfl := List.mem_singleton.mp newline
          have clear : lf ∉ line := fun member => passed lf member List.mem_cons_self
          by_cases last : filledLines rest = []
          · have newlines : ∀ c ∈ rest, c = lf := fun c member =>
              List.mem_singleton.mp (tokens_eq_nil_iff.mp last c member)
            rw [later.eq_of_newlines last]
            change _ = filledLines rest ++ _
            simp only [last, pair_suffix_newlines_iff clear nonempty newlines, ne_eq, ite_not,
              List.nil_append]
          · rw [induction last]
            simp only [pair_suffix_filled_iff last]
            rfl

/-- A text with lines that are not empty, all of which pass, the last one with at most one newline
behind it, or with one before which all pass and which is rejected with three fields or more. -/
def Survives (text : List UInt8) : Prop :=
  (∃ before line after, filledLines text = before ++ line :: after ∧ (∀ l ∈ before, Passes l) ∧
    Rejected line ∧ 3 ≤ (fields line).length) ∨
  filledLines text ≠ [] ∧ (∀ line ∈ filledLines text, Passes line) ∧ ¬ [lf, lf] <:+ text

/-- No argument is `NULL`. -/
structure RecordArguments.Complete (arguments : RecordArguments) : Prop where
  name : arguments.name ≠ none
  type : arguments.type ≠ none
  value : arguments.value ≠ none

/-- `config_parse_file` goes through its loop, returns `OS_ERR` if a line is malformed, and never
calls `record_make` with `NULL`. -/
structure Handled (atof : CString → F) (text : CString) : Prop where
  returns : ∃ ends table, configParseFile atof text.val = some (ends, table) ∧
    ((∃ line ∈ text.val.splitOn lf, Malformed line) → ends = .osErr)
  complete : ∀ state arguments, (parseRuns atof text).Reachable state →
    recordMakeCall state = some arguments → arguments.Complete

theorem lineStep_empty (atof : CString → F) (table : Table F) :
    lineStep atof [] table = .stop none := rfl

theorem Rejected.not_passes (rejected : Rejected line) : ¬ Passes line := by
  obtain ⟨name, type, others, listed, reason⟩ := rejected.reason
  rintro (hash | ⟨three, known, nothing⟩)
  · exact rejected.record hash
  · rw [listed] at three
    obtain ⟨-, three⟩ := List.cons.inj three
    obtain ⟨rfl, -⟩ := List.cons.inj three
    rcases reason with unknown | ⟨-, more⟩
    · exact unknown known
    · exact more nothing

/-- The arguments of `record_make` for a line are complete exactly if it has three fields. -/
theorem complete_iff (line : List UInt8) :
    RecordArguments.Complete
        { name := (fields line)[0]?.map byteString
          type := (fields line)[1]?.map byteString
          value := (fields line)[2]?.map byteString } ↔ 3 ≤ (fields line).length := by
  constructor
  · rintro ⟨-, -, value⟩
    by_contra fewer
    have missing : (fields line)[2]? = none := List.getElem?_eq_none (by omega)
    exact value (by rw [missing]; rfl)
  · intro three
    have present : ∀ i < 3, (fields line)[i]?.map byteString ≠ none := fun i less => by
      rw [List.getElem?_eq_getElem (less.trans_le three)]
      exact Option.some_ne_none _
    exact ⟨present 0 (by decide), present 1 (by decide), present 2 (by decide)⟩

theorem Passes.three (passes : Passes line) (record : ¬ IsComment line) :
    3 ≤ (fields line).length := by
  rcases passes with hash | ⟨three, -, -⟩
  · exact (record hash).elim
  · rw [three]
    exact le_rfl

/-- In a text whose rounds never call `record_make` with `NULL`, a line which the rounds come to has
three fields, unless it is a comment. -/
theorem three_of_complete {text : CString} {before after : List (List UInt8)}
    (split : filledLines text.val = before ++ line :: after) (passes : ∀ l ∈ before, Passes l)
    (record : ¬ IsComment line) (complete : ∀ state arguments,
      (parseRuns atof text).Reachable state → recordMakeCall state = some arguments →
        arguments.Complete) : 3 ≤ (fields line).length := by
  obtain ⟨state, reachable, here⟩ : ∃ state, (parseRuns atof text).Reachable state ∧
      currentLine state = line := exists_reachable_of_passes split passes
  obtain ⟨gap, line', rest, at_round⟩ := (parsing_of_reachable reachable).at_round
  obtain rfl : line' = line := at_round.currentLine_eq.symm.trans here
  have filled : line' ≠ [] := by
    rintro rfl
    have member : [] ∈ filledLines text.val := by
      rw [split]
      exact List.mem_append_right _ List.mem_cons_self
    exact absurd rfl (of_decide_eq_true (List.mem_filter.mp member).2)
  have called := at_round.recordMakeCall_eq (List.append_ne_nil_of_right_ne_nil gap filled)
  rw [if_neg record] at called
  exact (complete_iff line').mp (complete state _ reachable called)

/-- A text that goes through its rounds to a line which passes, or is rejected, with three fields
calls `record_make` with complete arguments. -/
theorem complete_of_rounds {text : CString} (rounds : Rounds text.val lines)
    (three : ∀ before line after, lines = before ++ line :: after → (∀ l ∈ before, Passes l) →
      ¬ IsComment line → 3 ≤ (fields line).length) (state : ParseState F)
    (arguments : RecordArguments) (reachable : (parseRuns atof text).Reachable state)
    (called : recordMakeCall state = some arguments) : arguments.Complete := by
  obtain ⟨before, after, split, passes, left⟩ := exists_linesLeft_of_reachable rounds reachable
  cases left with
  | done at_round =>
      rw [at_round.recordMakeCall_end] at called
      cases called
  | line at_round nonempty later =>
      rename_i gap line rest lines'
      rw [at_round.recordMakeCall_eq nonempty] at called
      split at called
      · cases called
      · next record =>
          cases called
          exact (complete_iff line).mpr (three before line lines' split passes record)

/-- A text is handled exactly if it survives. -/
theorem configParseFile_handled_iff (atof : CString → F) (text : CString) :
    Handled atof text ↔ Survives text.val := by
  obtain ⟨lines, rounds⟩ := exists_rounds text.val
  have parsed := configParseFile_eq atof text.property rounds
  change _ = if filledLines text.val = [] then none else _ at parsed
  constructor
  · rintro ⟨⟨ends, table, result, -⟩, complete⟩
    have filled : filledLines text.val ≠ [] := by
      intro none
      rw [parsed, if_pos none] at result
      cases result
    rw [parsed, if_neg filled, rounds.eq_filledLines filled] at result
    by_cases all : ∀ line ∈ filledLines text.val, Passes line
    · refine Or.inr ⟨filled, all, fun closed => ?_⟩
      obtain ⟨table', read, -⟩ := ready_create.readRounds_append atof all [[]]
      rw [if_pos closed, read, readRounds, lineStep_empty] at result
      cases result
    · obtain ⟨before, line, after, split, passes, stops⟩ := exists_first_not all
      have rejected : Rejected line := by
        by_contra not_rejected
        obtain ⟨table', read, -⟩ := ready_create.readRounds_append atof passes
          (line :: (after ++ if [lf, lf] <:+ text.val then [[]] else []))
        rw [split, List.append_assoc, List.cons_append, read, readRounds,
          lineStep_of_neither stops not_rejected] at result
        cases result
      exact Or.inl ⟨before, line, after, split, passes, rejected,
        three_of_complete split passes rejected.record complete⟩
  · rintro (⟨before, line, after, split, passes, rejected, three⟩ | ⟨filled, all, closed⟩)
    · have filled : filledLines text.val ≠ [] := by
        rw [split]
        exact List.append_ne_nil_of_right_ne_nil _ (List.cons_ne_nil _ _)
      have listed := rounds.eq_filledLines filled
      rw [split, List.append_assoc, List.cons_append] at listed
      obtain ⟨table', read, ready⟩ := ready_create.readRounds_append atof passes
        (line :: (after ++ if [lf, lf] <:+ text.val then [[]] else []))
      obtain ⟨final, step⟩ := ready.lineStep_of_rejected atof rejected
      refine ⟨⟨.osErr, final, ?_, fun _ => rfl⟩, complete_of_rounds rounds ?_⟩
      · rw [parsed, if_neg filled, listed, read, readRounds, step]
      · intro before' line' after' split' passes' record
        rw [listed] at split'
        -- the rounds do not go past the rejected line
        rcases List.append_eq_append_iff.mp split' with ⟨middle, rfl, rest⟩ | ⟨middle, rfl, rest⟩
        · cases middle with
          | nil => exact (List.cons.inj rest).1 ▸ three
          | cons l middle =>
              obtain rfl := (List.cons.inj rest).1
              exact (rejected.not_passes
                (passes' _ (List.mem_append_right _ List.mem_cons_self))).elim
        · cases middle with
          | nil => exact (List.cons.inj rest).1 ▸ three
          | cons l middle =>
              obtain rfl := (List.cons.inj rest).1
              exact (passes _ (List.mem_append_right _ List.mem_cons_self)).three record
    · have listed := rounds.eq_filledLines filled
      rw [if_neg closed, List.append_nil] at listed
      obtain ⟨table', read, -⟩ := ready_create.readRounds_append atof all []
      rw [List.append_nil] at read
      refine ⟨⟨.throughText, table', ?_, ?_⟩, complete_of_rounds rounds ?_⟩
      · rw [parsed, if_neg filled, listed, read]
        rfl
      · rintro ⟨line, member, malformed⟩
        exact (malformed.not_passes (all line (malformed.mem_filledLines member))).elim
      · intro before line after split _ record
        refine (all line ?_).three record
        rw [← listed, split]
        exact List.mem_append_right _ List.mem_cons_self

/-- The empty file. -/
theorem empty_text_not_handled : ¬ ∀ text : CString, Handled (fun _ => (0 : Nat)) text := by
  intro handled
  obtain ⟨ends, table, parsed, -⟩ := (handled ⟨[], List.not_mem_nil⟩).returns
  have crashes : configParseFile (fun _ => (0 : Nat)) [] = none := rfl
  rw [crashes] at parsed
  cases parsed

end Config
end OstrichServer
