import OstrichServer.Config.Malformed

/-!
# What rejected lines leave behind

`config_parse_file` adds the record of a line before it looks behind the value, and takes the error
code of `os_atoi` for a number.  So a line can be rejected with its record in the table, and a value
that is no `int` can be stored.
-/

namespace OstrichServer
namespace Config

open Dictionary Loop StringTokens

variable {F : Type} {atof : CString → F} {text : CString} {line gap rest : List UInt8}
  {table : Table F} {state : ParseState F}

/-- The table after a round. -/
def tableAfter : Round (ParseState F) (Option (ParseEnd × Table F)) → Option (Table F)
  | .next state => some state.table
  | .stop out => out.map Prod.snd

/-- A decimal number that fits an `int`. -/
def FitsInt (value : List UInt8) : Prop := Decimal value ∧ magnitude value < 2 ^ 31

/-- The entry for an integer. -/
def intEntry (name value : List UInt8) : DictEntry CString (Record F) where
  key := byteString name
  val := { data := .configInt (magnitude value), name := byteString name }

/-- If the round of a line returns `OS_ERR`, the table holds what it held before; and the line of an
integer adds a record only if the value fits, with that value, and else returns `OS_ERR`. -/
structure RejectsCleanly (atof : CString → F) (state : ParseState F) : Prop where
  rejected : ∀ table, lineRound atof state = .stop (some (.osErr, table)) →
    table.entries = state.table.entries
  adds : ∀ name value, ¬ IsComment (currentLine state) →
    fields (currentLine state) = [name, intWord.val, value] →
      ∀ table, tableAfter (lineRound atof state) = some table →
        table.entries = state.table.entries ∨
          FitsInt value ∧ table.entries = intEntry name value ::ₘ state.table.entries
  rejects : ∀ name value, ¬ IsComment (currentLine state) →
    fields (currentLine state) = [name, intWord.val, value] → ¬ FitsInt value →
      ∃ table, lineRound atof state = .stop (some (.osErr, table))

/-- The condition on a record of a known type: if there is more than a blank behind the value, the
table refuses the name; and if not, an integer fits. -/
def Accountable (state : ParseState F) : Prop :=
  ∀ name type value others, ¬ IsComment (currentLine state) →
    fields (currentLine state) = name :: type :: value :: others → KnownType type →
      (leftOver (currentLine state) ≠ [] →
        state.table.RefusesKey stringKeys (byteString name)) ∧
      (leftOver (currentLine state) = [] → type = intWord.val → FitsInt value)

/-! ## Records -/

/-- Insertion of a record: none if the name is refused, and one if not. -/
theorem Ready.dictAdd_entries (ready : Ready table) (name : CString) (rc : Record F) :
    ∃ status table', dictAdd stringKeys table name rc = some (status, table') ∧
      (table.RefusesKey stringKeys name → table'.entries = table.entries) ∧
      (¬ table.RefusesKey stringKeys name →
        table'.entries = { key := name, val := rc } ::ₘ table.entries) := by
  have grown := (grown_grown ready.wellFormed).entries
  by_cases refused : table.RefusesKey stringKeys name
  · exact ⟨_, _, dictAdd_of_refusesKey ready.wellFormed refused, fun _ => grown,
      fun accepted => (accepted refused).elim⟩
  · obtain ⟨status, table', added, -⟩ := ready.exists_dictAdd name rc
    refine ⟨status, table', added, fun refused' => (refused refused').elim, fun _ => ?_⟩
    rcases dictAdd_cases ready.wellFormed added with ⟨-, -, scan | last⟩ | ⟨-, -, -, inserted⟩
    · rw [refuses_eq_false refused] at scan
      cases scan
    · exact (refused (Or.inr last)).elim
    · rw [inserted.entries, grown]

theorem FitsInt.intOf_osAtoi {value : List UInt8} (fits : FitsInt value) :
    intOf (osAtoi (byteString value)) = magnitude value := by
  obtain ⟨decimal, small⟩ := fits
  have noNul : 0 ∉ value := by
    intro nul
    have digit := (decimal.2 0 nul).1
    exact absurd digit (by decide)
  rw [osAtoi, byteString_val noNul, osNatoi_of_decimal decimal, accumulated_of_lt (by omega), intOf]
  apply Int.bmod_eq_of_le <;> omega

/-- A line without the three fields of a record of a known type. -/
def Unrecorded (line : List UInt8) : Prop :=
  ∀ name type value others, ¬ IsComment line → fields line = name :: type :: value :: others →
    ¬ KnownType type

/-- Such a line does not change the table. -/
theorem lineStep_of_unrecorded (atof : CString → F) (table : Table F)
    (unrecorded : Unrecorded line) :
    lineStep atof line table = .next table ∨ lineStep atof line table = .stop none ∨
      lineStep atof line table = .stop (some (.osErr, table)) := by
  by_cases hash : IsComment line
  · exact Or.inl (lineStep_comment hash)
  · right
    by_cases rejected : Rejected line
    · obtain ⟨name, type, others, listed, reason⟩ := rejected.reason
      right
      apply lineStep_of_unknown hash listed
      rcases reason with unknown | ⟨some, -⟩
      · exact unknown
      · obtain ⟨value, others', rfl⟩ := List.exists_cons_of_ne_nil some
        exact unrecorded name type value others' hash listed
    · left
      apply lineStep_of_neither _ rejected
      rintro (hash' | ⟨three, known, -⟩)
      · exact hash hash'
      · exact unrecorded _ _ _ _ hash three known

/-! ## Exactness -/

section Lines

variable {name type value : List UInt8} {others : List (List UInt8)} {table' : Table F}
  {rc : Record F}

/-- A line without such a record. -/
theorem rejectsCleanly_of_unrecorded (atof : CString → F)
    (at_round : AtRound state gap line rest) (unrecorded : Unrecorded line) :
    RejectsCleanly atof state ∧ Accountable state := by
  have known : KnownType intWord.val := by
    rw [KnownType, byteString_string]
    decide
  rw [← at_round.currentLine_eq] at unrecorded
  constructor
  · constructor
    case rejected =>
      intro table round
      by_cases empty : gap ++ line = []
      · obtain ⟨rfl, rfl⟩ := List.append_eq_nil_iff.mp empty
        rw [at_round.through] at round
        cases round
      · obtain ⟨pbuf, -, round'⟩ := at_round.lineRound_eq atof empty
        rw [round] at round'
        rw [at_round.currentLine_eq] at unrecorded
        rcases lineStep_of_unrecorded atof state.table unrecorded with step | step | step
        · rw [step] at round'
          cases round'
        · rw [step] at round'
          cases round'
        · rw [step] at round'
          cases round'
          rfl
    case adds =>
      intro name value record listed
      exact (unrecorded _ _ _ _ record listed known).elim
    case rejects =>
      intro name value record listed
      exact (unrecorded _ _ _ _ record listed known).elim
  · intro name type value others record listed known'
    exact (unrecorded _ _ _ _ record listed known').elim

theorem same_fields {name' type' value' : List UInt8} {others' : List (List UInt8)}
    (same : name :: type :: value :: others = name' :: type' :: value' :: others') :
    name = name' ∧ type = type' ∧ value = value' ∧ others = others' := by
  simpa only [List.cons.injEq] using same

/-- A record with more than a blank behind its value. -/
theorem rejectsCleanly_iff_of_more (record : ¬ IsComment (currentLine state))
    (listed : fields (currentLine state) = name :: type :: value :: others) (known : KnownType type)
    (more : leftOver (currentLine state) ≠ [])
    (round : lineRound atof state = .stop (some (.osErr, table')))
    (refused : state.table.RefusesKey stringKeys (byteString name) →
      table'.entries = state.table.entries)
    (accepted : ¬ state.table.RefusesKey stringKeys (byteString name) →
      table'.entries = { key := byteString name, val := rc } ::ₘ state.table.entries) :
    RejectsCleanly atof state ↔ Accountable state := by
  constructor
  · intro cleanly name' type' value' others' _ listed' _
    obtain ⟨rfl, -⟩ := same_fields (listed.symm.trans listed')
    refine ⟨fun _ => ?_, fun nothing => (more nothing).elim⟩
    by_contra taken
    have grew := accepted taken
    rw [cleanly.rejected table' round] at grew
    have card := congrArg Multiset.card grew
    rw [Multiset.card_cons] at card
    omega
  · intro accountable
    have same := refused ((accountable name type value others record listed known).1 more)
    constructor
    case rejected =>
      intro table round'
      rw [round] at round'
      cases round'
      exact same
    case adds =>
      intro _ _ _ _ table after
      rw [round] at after
      cases after
      exact Or.inl same
    case rejects => exact fun _ _ _ _ _ => ⟨table', round⟩

/-- A record with at most a blank behind its value. -/
theorem rejectsCleanly_iff_of_nothing (record : ¬ IsComment (currentLine state))
    (listed : fields (currentLine state) = name :: type :: value :: others) (known : KnownType type)
    (nothing : leftOver (currentLine state) = []) {next : ParseState F}
    (round : lineRound atof state = .next next)
    (made : recordMake atof (some (byteString name)) (some (byteString type))
      (some (byteString value)) = some (some rc))
    (refused : state.table.RefusesKey stringKeys (byteString name) →
      next.table.entries = state.table.entries)
    (accepted : ¬ state.table.RefusesKey stringKeys (byteString name) →
      next.table.entries = { key := byteString name, val := rc } ::ₘ state.table.entries) :
    RejectsCleanly atof state ↔ Accountable state := by
  constructor
  · intro cleanly name' type' value' others' _ listed' _
    refine ⟨fun more => (more nothing).elim, ?_⟩
    rintro - rfl
    have last := fields_leftOver listed'
    rw [nothing] at last
    obtain rfl : [] = others' := last
    by_contra misfit
    obtain ⟨table, stops⟩ := cleanly.rejects name' value' record listed' misfit
    rw [round] at stops
    cases stops
  · intro accountable
    have fits := (accountable name type value others record listed known).2 nothing
    constructor
    case rejected =>
      intro table stops
      rw [round] at stops
      cases stops
    case adds =>
      intro name' value' _ listed' table after
      obtain ⟨rfl, rfl, rfl, -⟩ := same_fields (listed.symm.trans listed')
      rw [round] at after
      obtain rfl : next.table = table := Option.some.inj after
      by_cases taken : state.table.RefusesKey stringKeys (byteString name)
      · exact Or.inl (refused taken)
      · right
        refine ⟨fits rfl, ?_⟩
        rw [accepted taken]
        rw [byteString_string] at made
        obtain rfl := Option.some.inj (Option.some.inj made)
        rw [intEntry, ← (fits rfl).intOf_osAtoi]
    case rejects =>
      intro name' value' _ listed' misfit
      obtain ⟨rfl, rfl, rfl, -⟩ := same_fields (listed.symm.trans listed')
      exact (misfit (fits rfl)).elim

end Lines

/-- A round rejects cleanly exactly if its line is accountable. -/
theorem Parsing.rejectsCleanly_iff (parsing : Parsing state) :
    RejectsCleanly atof state ↔ Accountable state := by
  obtain ⟨⟨gap, line, rest, at_round⟩, ready⟩ := parsing
  have here := at_round.currentLine_eq
  by_cases unrecorded : Unrecorded line
  · obtain ⟨cleanly, accountable⟩ := rejectsCleanly_of_unrecorded atof at_round unrecorded
    exact ⟨fun _ => accountable, fun _ => cleanly⟩
  · unfold Unrecorded at unrecorded
    push Not at unrecorded
    obtain ⟨name, type, value, others, record, listed, known⟩ := unrecorded
    have nonempty : gap ++ line ≠ [] := by
      intro empty
      obtain ⟨rfl, rfl⟩ := List.append_eq_nil_iff.mp empty
      cases listed
    obtain ⟨-, makes⟩ := recordMake_of_known atof (byteString name) known
    obtain ⟨data, made⟩ := makes (byteString value)
    obtain ⟨status, table', added, refused, accepted⟩ :=
      ready.dictAdd_entries (byteString name) { data, name := byteString name }
    obtain ⟨pbuf, -, round⟩ := at_round.lineRound_eq atof nonempty
    have step := lineStep_of_made record listed made added
    rw [← here] at record listed step
    rw [← here, step] at round
    by_cases nothing : leftOver (currentLine state) = []
    · rw [if_neg (not_not.mpr nothing)] at round
      exact rejectsCleanly_iff_of_nothing record listed known nothing round made refused accepted
    · rw [if_pos nothing] at round
      exact rejectsCleanly_iff_of_more record listed known nothing round refused accepted

/-- The rounds on a text all reject cleanly exactly if all lines they come to are accountable. -/
theorem configParseFile_rejectsCleanly_iff (atof : CString → F) (text : CString) :
    (∀ state, (parseRuns atof text).Reachable state → RejectsCleanly atof state) ↔
      ∀ state, (parseRuns atof text).Reachable state → Accountable state := by
  apply forall_congr'
  intro state
  apply imp_congr_right
  intro reachable
  exact (parsing_of_reachable reachable).rejectsCleanly_iff

/-- A line with four fields, `a INT 5 b`. -/
def orphanText : CString := ⟨"a INT 5 b\n".toList.map ascii, by decide⟩

/-- The line is rejected with its record in the table. -/
theorem orphanText_not_rejectsCleanly :
    (∀ line ∈ filledLines orphanText.val, 3 ≤ (fields line).length) ∧
      ¬ ∀ state, (parseRuns (fun _ => (0 : Nat)) orphanText).Reachable state →
        RejectsCleanly (fun _ => 0) state := by
  refine ⟨by decide, fun cleanly => ?_⟩
  have start : ∃ state : ParseState Nat, parseStart orphanText.val = some state ∧
      state.table = dictCreate ∧ currentLine state = "a INT 5 b".toList.map ascii :=
    ⟨_, rfl, rfl, by decide⟩
  obtain ⟨state, initial, table, here⟩ := start
  have reachable : (parseRuns (fun _ => (0 : Nat)) orphanText).Reachable state :=
    TransitionSystem.reachable_of_initial initial
  have accountable :=
    (parsing_of_reachable reachable).rejectsCleanly_iff.mp (cleanly state reachable)
  have listed := accountable [ascii 'a'] intWord.val [ascii '5'] [[ascii 'b']]
  rw [here, table] at listed
  obtain ⟨entry, member, -⟩ | last := (listed (by decide) (by decide) (by decide)).1 (by decide)
  · rw [Dict.chains, DictHt.chain_of_size_zero rfl, DictHt.chain_of_size_zero rfl] at member
    cases member
  · have ready : Ready (dictCreate : Table Nat) := ready_create
    have small := ready.stage.insertIndex_lt ready.wellFormed
      (stringKeys.hash (byteString [ascii 'a']))
    omega

end Config
end OstrichServer
