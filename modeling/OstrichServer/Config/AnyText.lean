import OstrichServer.Config.ParseFile
import OstrichServer.Foundations.TokenLists

/-!
# Texts of any bytes

What `config_parse_file` does with any text, line by line.  Each round of its loop handles the next
line that is not empty; newlines behind the last such line make one more round, on an empty line.
-/

namespace OstrichServer
namespace Config

open Dictionary Loop StringTokens

variable {F : Type} {atof : CString → F} {memory more line rest gap token text : List UInt8}
  {p : Nat}

/-! ## What a line does -/

/-- The fields of a line. -/
def fields (line : List UInt8) : List (List UInt8) := tokens blanks line

/-- The first byte is a `'#'`. -/
abbrev IsComment (line : List UInt8) : Prop := line.head? = some (ascii '#')

/-- The string that some bytes start with. -/
def byteString (bytes : List UInt8) : CString := ⟨stringAt bytes 0, zero_notMem_stringAt bytes 0⟩

/-- What is behind the third field of a line and the blank after it. -/
def leftOver (line : List UInt8) : List UInt8 :=
  afterToken blanks (afterToken blanks (afterToken blanks line))

/-- What a line does to the table, and whether the function goes on. -/
def lineStep (atof : CString → F) (line : List UInt8) (table : Table F) :
    Round (Table F) (Option (ParseEnd × Table F)) :=
  if IsComment line then .next table
  else
    match recordMake atof ((fields line)[0]?.map byteString) ((fields line)[1]?.map byteString)
        ((fields line)[2]?.map byteString) with
    | none => .stop none
    | some none => .stop (some (.osErr, table))
    | some (some rc) =>
        match dictAdd stringKeys table rc.name rc with
        | none => .stop none
        | some (_, table) =>
            if leftOver line ≠ [] then .stop (some (.osErr, table)) else .next table

theorem byteString_val {bytes : List UInt8} (noNul : 0 ∉ bytes) :
    (byteString bytes).val = bytes := by
  have all : ∀ c ∈ bytes, decide (c ≠ 0) = true :=
    fun c member => decide_eq_true (ne_of_mem_of_not_mem member noNul)
  exact List.takeWhile_eq_self_iff.mpr all

theorem byteString_string (string : CString) : byteString string.val = string :=
  Subtype.ext (byteString_val string.property)

theorem cString_eq_byteString (string : memory.drop p = token ++ 0 :: more) (noNul : 0 ∉ token) :
    cString memory (some p) = some (byteString token) := by
  apply congrArg some
  apply Subtype.ext
  rw [byteString_val noNul]
  exact stringAt_of_drop string noNul

/-! ## The fields in memory -/

/-- The call of `strtok_r` for the name. -/
def nameCut (memory : List UInt8) (p : Nat) : Cut := strtokR memory p blanks

/-- The call of `strtok_r` for the type. -/
def typeCut (memory : List UInt8) (p : Nat) : Cut :=
  strtokR (nameCut memory p).memory (nameCut memory p).save blanks

/-- The call of `strtok_r` for the value. -/
def valueCut (memory : List UInt8) (p : Nat) : Cut :=
  strtokR (typeCut memory p).memory (typeCut memory p).save blanks

/-- What the three calls for the fields leave of a line. -/
structure FieldReads (memory : List UInt8) (p : Nat) (line : List UInt8) : Prop where
  name : cString (valueCut memory p).memory (nameCut memory p).token =
    (fields line)[0]?.map byteString
  type : cString (valueCut memory p).memory (typeCut memory p).token =
    (fields line)[1]?.map byteString
  value : cString (valueCut memory p).memory (valueCut memory p).token =
    (fields line)[2]?.map byteString
  save : (valueCut memory p).memory.getD (valueCut memory p).save 0 = 0 ↔ leftOver line = []
  later : ∀ n, p + line.length ≤ n → (valueCut memory p).memory.drop n = memory.drop n

/-- The token of a call, after later ones. -/
theorem cString_of_takes {cut : Cut} {memory' s : List UInt8}
    (takes : Takes memory p s more gap token rest cut) (noNul : 0 ∉ token)
    (kept : ∀ q string rest, cut.memory.drop q = string ++ 0 :: rest →
      q + string.length ≤ cut.save → ∃ rest', memory'.drop q = string ++ 0 :: rest') :
    cString memory' cut.token = if token = [] then none else some (byteString token) := by
  rw [takes.start]
  split
  · rfl
  · obtain ⟨more', whole⟩ := takes.whole
    obtain ⟨more'', string⟩ := kept _ _ _ (drop_add whole) takes.past
    exact cString_eq_byteString string noNul

theorem fieldReads (noNul : 0 ∉ line) (behind : memory.drop p = line ++ 0 :: more) :
    FieldReads memory p line := by
  obtain ⟨gap₁, name, rest₁, parts₁⟩ := exists_parts blanks line
  obtain ⟨gap₂, type, rest₂, parts₂⟩ := exists_parts blanks rest₁
  obtain ⟨gap₃, value, rest₃, parts₃⟩ := exists_parts blanks rest₂
  obtain ⟨clear₁, noNul₁⟩ := parts₁.notMem noNul
  obtain ⟨clear₂, noNul₂⟩ := parts₂.notMem noNul₁
  obtain ⟨clear₃, noNul₃⟩ := parts₃.notMem noNul₂
  have takes₁ : Takes memory p line _ _ _ _ (nameCut memory p) := parts₁.takes noNul behind
  have takes₂ : Takes _ _ rest₁ _ _ _ _ (typeCut memory p) := parts₂.takes noNul₁ takes₁.saved
  have takes₃ : Takes _ _ rest₂ _ _ _ _ (valueCut memory p) := parts₃.takes noNul₂ takes₂.saved
  have past₂ := takes₂.past
  have listed : (fields line)[0]? = (if name = [] then none else some name) ∧
      (fields line)[1]? = (if type = [] then none else some type) ∧
      (fields line)[2]? = if value = [] then none else some value := by
    rw [fields, parts₁.tokens_zero, parts₁.tokens_succ, parts₂.tokens_zero, parts₁.tokens_succ,
      parts₂.tokens_succ, parts₃.tokens_zero]
    exact ⟨rfl, rfl, rfl⟩
  obtain ⟨first, second, third⟩ := listed
  constructor
  case name =>
    rw [first, cString_of_takes takes₁ clear₁ fun q string rest here before => ?_]
    · split <;> rfl
    · obtain ⟨rest', here'⟩ := takes₂.earlier q string rest here before
      exact takes₃.earlier q string rest' here' (by omega)
  case type =>
    rw [second, cString_of_takes takes₂ clear₂ takes₃.earlier]
    split <;> rfl
  case value =>
    rw [third, cString_of_takes takes₃ clear₃ fun q string rest here _ => ⟨rest, here⟩]
    split <;> rfl
  case save =>
    have left : leftOver line = rest₃ := by
      rw [leftOver, parts₁.afterToken_eq, parts₂.afterToken_eq, parts₃.afterToken_eq]
    rw [left]
    have saved := takes₃.saved
    cases rest₃ with
    | nil => exact ⟨fun _ => rfl, fun _ => getD_of_drop saved⟩
    | cons c others =>
        rw [getD_of_drop saved]
        constructor
        · rintro rfl
          exact (noNul₃ List.mem_cons_self).elim
        · intro none
          cases none
  case later =>
    intro n reached
    have inside₁ := takes₁.inside
    have inside₂ := takes₂.inside
    have inside₃ := takes₃.inside
    rw [takes₃.later n (by omega), takes₂.later n (by omega), takes₁.later n (by omega)]

/-- What `record_make` is called with are the first three fields, or `NULL` for a field that is
missing. -/
theorem recordArguments_eq (noNul : 0 ∉ line) (behind : memory.drop p = line ++ 0 :: more) :
    recordArguments memory p =
      { name := (fields line)[0]?.map byteString
        type := (fields line)[1]?.map byteString
        value := (fields line)[2]?.map byteString } := by
  have reads := fieldReads noNul behind
  rw [← reads.name, ← reads.type, ← reads.value]
  rfl

/-! ## Rounds -/

variable {state : ParseState F}

/-- `nextln` leads to this text. -/
structure Unread (state : ParseState F) (text : List UInt8) : Prop where
  noNul : 0 ∉ text
  behind : ∃ more, state.pbuf.drop state.nextln = text ++ 0 :: more

/-- `line` leads to a line that is a string, perhaps behind newlines, and `nextln` to the rest. -/
structure AtRound (state : ParseState F) (gap line rest : List UInt8) : Prop where
  newlines : ∀ c ∈ gap, c = lf
  noNewline : lf ∉ line
  noNul : 0 ∉ line
  here : ∃ more, state.pbuf.drop state.line = gap ++ (line ++ 0 :: more)
  past : state.line + gap.length + line.length ≤ state.nextln
  unread : Unread state rest

theorem line_clear (parts : Parts [lf] text gap line rest) :
    (∀ c ∈ gap, c = lf) ∧ lf ∉ line := by
  have clear : ∀ {l : List UInt8}, (∀ d ∈ l, d ∉ [lf]) → lf ∉ l :=
    fun passed member => passed lf member List.mem_cons_self
  cases parts with
  | gap skipped =>
      exact ⟨fun c member => List.mem_singleton.mp (skipped c member), List.not_mem_nil⟩
  | last skipped _ passed =>
      exact ⟨fun c member => List.mem_singleton.mp (skipped c member), clear passed⟩
  | delimited skipped _ passed =>
      exact ⟨fun c member => List.mem_singleton.mp (skipped c member), clear passed⟩

/-- `iter_to_next_line` goes on to the first line of the text that is not read. -/
theorem Unread.atRound (unread : Unread state text) (parts : Parts [lf] text gap line rest) :
    AtRound (iterToNextLine state) gap line rest := by
  obtain ⟨more, behind⟩ := unread.behind
  obtain ⟨newlines, noNewline⟩ := line_clear parts
  obtain ⟨noNul, noNul'⟩ := parts.notMem unread.noNul
  have takes := parts.takes unread.noNul behind
  exact ⟨newlines, noNewline, noNul, takes.whole, takes.past, noNul', more, takes.saved⟩

/-- Where the line starts behind the newlines. -/
theorem AtRound.start (at_round : AtRound state gap line rest) :
    state.line + strspn state.pbuf state.line [lf] = state.line + gap.length := by
  obtain ⟨more, here⟩ := at_round.here
  have skips : ∀ c ∈ gap, c ≠ 0 ∧ c ∈ [lf] := by
    intro c member
    rw [at_round.newlines c member]
    decide
  congr 1
  cases line with
  | nil => exact strspn_of_drop here skips (Or.inl rfl)
  | cons c line =>
      have other : c ∉ [lf] := by
        intro newline
        rw [List.mem_singleton.mp newline] at at_round
        exact at_round.noNewline List.mem_cons_self
      exact strspn_of_drop here skips (Or.inr other)

/-- Behind the last line that is not empty the loop ends, if there is no newline left. -/
theorem AtRound.through (at_round : AtRound state [] [] rest) :
    lineRound atof state = .stop (some (.throughText, state.table)) := by
  obtain ⟨more, here⟩ := at_round.here
  have ends : state.pbuf.getD state.line 0 = 0 := getD_of_drop here
  rw [lineRound, if_pos ends]

/-- The three calls and what follows them do what the line does. -/
theorem recordRound_eq (noNul : 0 ∉ line) (here : state.pbuf.drop state.line = line ++ 0 :: more)
    (record : ¬ IsComment line) :
    recordRound atof state =
      match lineStep atof line state.table with
      | .next table =>
          .next (iterToNextLine
            { state with pbuf := (valueCut state.pbuf state.line).memory, table })
      | .stop out => .stop out := by
  have reads := fieldReads noNul here
  have save := reads.save
  rw [lineStep, if_neg record]
  rw [valueCut, typeCut, nameCut] at save ⊢
  simp only [recordRound_eq_recordMake, recordArguments_eq noNul here]
  cases recordMake atof ((fields line)[0]?.map byteString) ((fields line)[1]?.map byteString)
      ((fields line)[2]?.map byteString) with
  | none => rfl
  | some result =>
      cases result with
      | none => rfl
      | some rc =>
          simp only
          cases dictAdd stringKeys state.table rc.name rc with
          | none => rfl
          | some added =>
              simp only [ne_eq, save]
              split <;> rfl

/-- There is something at `line`. -/
theorem AtRound.present (at_round : AtRound state gap line rest) (nonempty : gap ++ line ≠ []) :
    state.pbuf.getD state.line 0 ≠ 0 := by
  obtain ⟨more, here⟩ := at_round.here
  rw [← List.append_assoc] at here
  obtain ⟨c, others, first⟩ := List.exists_cons_of_ne_nil nonempty
  have member : c ∈ gap ++ line := by
    rw [first]
    exact List.mem_cons_self
  rw [first] at here
  rw [getD_of_drop here]
  rintro rfl
  rcases List.mem_append.mp member with newline | letter
  · exact absurd (at_round.newlines 0 newline) (by decide)
  · exact at_round.noNul letter

theorem AtRound.hash_iff (at_round : AtRound state gap line rest) :
    state.pbuf.getD (state.line + gap.length) 0 = ascii '#' ↔ IsComment line := by
  obtain ⟨more, here⟩ := at_round.here
  have string := drop_add here
  cases line with
  | nil =>
      rw [getD_of_drop string]
      exact ⟨fun none => absurd none (by decide), fun none => nomatch none⟩
  | cons c line =>
      rw [getD_of_drop string, IsComment, List.head?_cons, Option.some_inj]

/-- A round calls `record_make` with the fields of its line, unless the line is a comment. -/
theorem AtRound.recordMakeCall_eq (at_round : AtRound state gap line rest)
    (nonempty : gap ++ line ≠ []) :
    recordMakeCall state =
      if IsComment line then none
      else some
        { name := (fields line)[0]?.map byteString
          type := (fields line)[1]?.map byteString
          value := (fields line)[2]?.map byteString } := by
  obtain ⟨more, here⟩ := at_round.here
  rw [recordMakeCall, if_neg (at_round.present nonempty)]
  simp only [at_round.start, at_round.hash_iff,
    recordArguments_eq at_round.noNul (drop_add here)]

/-- Behind the last line that is not empty a round calls nothing. -/
theorem AtRound.recordMakeCall_end (at_round : AtRound state [] [] rest) :
    recordMakeCall state = none := by
  obtain ⟨more, here⟩ := at_round.here
  exact if_pos (getD_of_drop here)

/-- A round does what its line does. -/
theorem AtRound.lineRound_eq (at_round : AtRound state gap line rest) (atof : CString → F)
    (nonempty : gap ++ line ≠ []) :
    ∃ pbuf, Unread { state with pbuf } rest ∧
      lineRound atof state =
        match lineStep atof line state.table with
        | .next table => .next (iterToNextLine { state with pbuf, table })
        | .stop out => .stop out := by
  obtain ⟨more, here⟩ := at_round.here
  have string := drop_add here
  have round : lineRound atof state =
      if IsComment line then .next (iterToNextLine state)
      else recordRound atof { state with line := state.line + gap.length } := by
    rw [lineRound, if_neg (at_round.present nonempty)]
    simp only [at_round.start, at_round.hash_iff]
    rfl
  by_cases comment : IsComment line
  · refine ⟨state.pbuf, at_round.unread, ?_⟩
    rw [round, lineStep, if_pos comment, if_pos comment]
  · have reads := fieldReads at_round.noNul string
    obtain ⟨noNul, more', behind⟩ := at_round.unread
    refine ⟨(valueCut state.pbuf (state.line + gap.length)).memory, ⟨noNul, more', ?_⟩, ?_⟩
    · exact (reads.later state.nextln at_round.past).trans behind
    · rw [round, if_neg comment, recordRound_eq at_round.noNul string comment]
      rfl

/-! ## Runs -/

/-- The lines of the rounds that read a text. -/
inductive Rounds : List UInt8 → List (List UInt8) → Prop
  | done : Rounds [] []
  | round {text gap line rest : List UInt8} {lines : List (List UInt8)}
      (parts : Parts [lf] text gap line rest) (some : text ≠ []) (later : Rounds rest lines) :
      Rounds text (line :: lines)

theorem exists_rounds (text : List UInt8) : ∃ lines, Rounds text lines := by
  induction size : text.length using Nat.strongRecOn generalizing text with
  | ind size' induction =>
      subst size
      by_cases empty : text = []
      · subst empty
        exact ⟨[], .done⟩
      · obtain ⟨gap, line, rest, parts⟩ := exists_parts [lf] text
        obtain ⟨lines, later⟩ := induction rest.length (parts.length_rest empty) rest rfl
        exact ⟨line :: lines, .round parts empty later⟩

theorem Rounds.length_le {lines : List (List UInt8)} (rounds : Rounds text lines) :
    lines.length ≤ text.length := by
  induction rounds with
  | done => exact le_rfl
  | round parts some later induction =>
      exact Nat.succ_le_of_lt (induction.trans_lt (parts.length_rest some))

/-- What the lines of the rounds do to the table. -/
def readRounds (atof : CString → F) : List (List UInt8) → Table F → Option (ParseEnd × Table F)
  | [], table => some (.throughText, table)
  | line :: lines, table =>
      match lineStep atof line table with
      | .next table => readRounds atof lines table
      | .stop out => out

/-- A round at a line, and the rounds that follow it. -/
theorem AtRound.run_lineRound {lines : List (List UInt8)} {fuel : Nat}
    (at_round : AtRound state gap line rest) (atof : CString → F) (nonempty : gap ++ line ≠ [])
    (later : ∀ state' : ParseState F, Unread state' rest →
      run (lineRound atof) fuel (iterToNextLine state') =
        some (readRounds atof lines state'.table)) :
    run (lineRound atof) (fuel + 1) state = some (readRounds atof (line :: lines) state.table) := by
  obtain ⟨pbuf, unread, round⟩ := at_round.lineRound_eq atof nonempty
  rw [readRounds]
  cases step : lineStep atof line state.table with
  | next table =>
      rw [step] at round
      rw [run_of_next round]
      exact later { state with pbuf, table } ⟨unread.noNul, unread.behind⟩
  | stop out =>
      rw [step] at round
      exact run_of_stop round

/-- The loop reads the rest of the text. -/
theorem Rounds.run_lineRound {lines : List (List UInt8)} {fuel : Nat} (rounds : Rounds text lines)
    (unread : Unread state text) (enough : lines.length < fuel) :
    run (lineRound atof) fuel (iterToNextLine state) =
      some (readRounds atof lines state.table) := by
  induction rounds generalizing fuel state with
  | done =>
      obtain ⟨fuel, rfl⟩ := Nat.exists_eq_succ_of_ne_zero (Nat.ne_zero_of_lt enough)
      have at_round := unread.atRound (.gap (List.forall_mem_nil _))
      exact run_of_stop at_round.through
  | round parts some later induction =>
      obtain ⟨fuel, rfl⟩ := Nat.exists_eq_succ_of_ne_zero (Nat.ne_zero_of_lt enough)
      have at_round := unread.atRound parts
      exact at_round.run_lineRound atof (parts.front_ne_nil some) fun state' unread' =>
        induction unread' (Nat.lt_of_succ_lt_succ enough)

/-- The state in which the loop starts, unless the first `strtok_r` returns `NULL`. -/
def parseStart (text : List UInt8) : Option (ParseState F) :=
  let cut := strtokR (text ++ [0]) 0 [lf]
  cut.token.map fun line =>
    { pbuf := cut.memory, line, nextln := cut.save, table := dictCreate }

theorem configParseFile_eq_run (atof : CString → F) (text : List UInt8) :
    configParseFile atof text =
      (parseStart text).bind fun state => (run (lineRound atof) (text.length + 1) state).join := by
  rw [configParseFile, parseStart, Option.bind_map]
  rfl

/-- A text that starts with a line, perhaps behind newlines. -/
theorem exists_parseStart (noNul : 0 ∉ text) (parts : Parts [lf] text gap line rest)
    (nonempty : line ≠ []) :
    ∃ state : ParseState F, parseStart text = some state ∧ AtRound state [] line rest ∧
      state.table = dictCreate := by
  have takes := parts.takes (p := 0) noNul (rfl : (text ++ [0]).drop 0 = text ++ [0])
  obtain ⟨more, whole⟩ := takes.whole
  obtain ⟨noNul₁, noNul₂⟩ := parts.notMem noNul
  have start := takes.start
  rw [if_neg nonempty] at start
  have string := drop_add whole
  refine ⟨_, by rw [parseStart, start, Option.map_some], ?_, rfl⟩
  constructor
  case newlines => exact List.forall_mem_nil _
  case noNewline => exact (line_clear parts).2
  case noNul => exact noNul₁
  case here => exact ⟨more, string⟩
  case past => exact takes.past
  case unread => exact ⟨noNul₂, [], takes.saved⟩

/-- A text of newlines. -/
theorem parseStart_of_newlines (noNul : 0 ∉ text) (parts : Parts [lf] text gap [] rest) :
    (parseStart text : Option (ParseState F)) = none := by
  have takes := parts.takes (p := 0) noNul (rfl : (text ++ [0]).drop 0 = text ++ [0])
  rw [parseStart, takes.start, if_pos rfl, Option.map_none]

/-- `config_parse_file` reads the lines of its rounds, unless there is no line to start with. -/
theorem configParseFile_eq (atof : CString → F) (noNul : 0 ∉ text) {lines : List (List UInt8)}
    (rounds : Rounds text lines) :
    configParseFile atof text =
      if tokens [lf] text = [] then none else readRounds atof lines dictCreate := by
  have fewer := rounds.length_le
  rw [configParseFile_eq_run]
  cases rounds with
  | done => rfl
  | round parts some later =>
      rename_i gap line rest lines
      by_cases empty : line = []
      · subst empty
        rw [parseStart_of_newlines noNul parts, if_pos (parts.tokens_eq_nil_iff.mpr rfl)]
        rfl
      · obtain ⟨state, start, at_round, table⟩ := exists_parseStart (F := F) noNul parts empty
        have result := at_round.run_lineRound atof empty fun state' unread =>
          later.run_lineRound unread (Nat.lt_of_succ_le fewer)
        rw [start, Option.bind_some, result, if_neg (mt parts.tokens_eq_nil_iff.mp empty), table]
        rfl

end Config
end OstrichServer
