import OstrichServer.Http.HeaderLines

/-!
# What header lines leave in `headers_in`

A line changes only the words of its own field.  Fields that keep their first line do so over all
sequences of lines, and arrays collect all of theirs; a handler for a header that occurs once writes
over the line before, so that all is well exactly when no such header comes twice and an `int` can
count the cookies.
-/

namespace OstrichServer
namespace Http

/-! ## One line -/

@[simp] theorem load_store (r : HeadersIn) (offset : Nat) (word : HeaderWord) :
    (r.store offset word).load offset = word :=
  Function.update_self ..

theorem load_store_of_ne (r : HeadersIn) {offset other : Nat} (ne : other / 8 ≠ offset / 8)
    (word : HeaderWord) : (r.store offset word).load other = r.load other :=
  Function.update_of_ne ne ..

section OneLine

variable {build : Build} (r : HeadersIn) (line : HeaderLine build)

/-- The offset that a line is handed over with. -/
def HeaderLine.offset : Nat := offsetof build line.entry.field

theorem processLine_uniqueHeaderLine (parser : line.entry.headerParser = .uniqueHeaderLine) :
    processLine r line = (r.store line.offset (.header line.header), osOk) := by
  rw [processLine, parser]
  rfl

/-- Both handlers that keep the first line leave the field's word alone when it is not zero. -/
theorem processLine_first_of_ne
    (parser : line.entry.headerParser = .headerLine ∨ line.entry.headerParser = .userAgent)
    (taken : r.load line.offset ≠ .zero) : (processLine r line).1 = r := by
  rw [processLine]
  rcases parser with parser | parser
  · rw [parser]
    exact congrArg Prod.fst (if_neg taken)
  · rw [HeaderLine.offset, field_of_userAgent line.listed parser] at taken
    rw [parser]
    exact congrArg Prod.fst (if_pos taken)

/-- Both handlers that keep the first line set the field's word when it is zero. -/
theorem processLine_first_of_eq
    (parser : line.entry.headerParser = .headerLine ∨ line.entry.headerParser = .userAgent)
    (free : r.load line.offset = .zero) :
    (processLine r line).1.words = (r.store line.offset (.header line.header)).words := by
  rw [processLine]
  rcases parser with parser | parser
  · rw [parser]
    exact congrArg (fun out : HeadersIn × Int => out.1.words) (if_pos free)
  · rw [HeaderLine.offset, field_of_userAgent line.listed parser] at free ⊢
    rw [parser]
    exact congrArg (fun out : HeadersIn × Int => out.1.words) (if_neg (not_not.mpr free))

/-- `Connection` leaves its field unset. -/
theorem processLine_connection (parser : line.entry.headerParser = .connection) :
    (processLine r line).1.words = r.words ∧ (processLine r line).1.browser = r.browser := by
  have same : processLine r line = httpProcessConnection r line.header := by
    rw [processLine, parser]
    rfl
  rw [same, httpProcessConnection]
  split
  · exact ⟨rfl, rfl⟩
  · split <;> exact ⟨rfl, rfl⟩

/-- The words of an array for the lines that were appended. -/
def arrayWords (lines : List HttpHeader) : HeaderWord × HeaderWord :=
  if lines = [] then (.zero, .zero) else (.nelts (Int32.ofNat lines.length), .elts lines)

theorem arrayWords_concat (lines : List HttpHeader) (h : HttpHeader) :
    arrayWords (lines ++ [h]) =
      (.nelts (Int32.ofNat lines.length + 1), .elts (lines ++ [h])) := by
  rw [arrayWords, if_neg (List.append_ne_nil_of_right_ne_nil lines (List.cons_ne_nil h [])),
    List.length_append, List.length_singleton, Int32.ofNat_add]
  rfl

theorem processLine_multi_eq (parser : line.entry.headerParser = .multiHeaderLines) :
    (processLine r line).1 = tabAppend
      (if r.load (line.offset + 8) = .zero then tabInit r line.offset else r)
      line.header line.offset := by
  rw [processLine, parser]
  rfl

/-- An array handler appends its line. -/
theorem processLine_multiHeaderLines (parser : line.entry.headerParser = .multiHeaderLines)
    {lines : List HttpHeader} (few : lines.length < 2 ^ 31)
    (nelts : r.load line.offset = (arrayWords lines).1)
    (elts : r.load (line.offset + 8) = (arrayWords lines).2) :
    (processLine r line).1.load line.offset = (arrayWords (lines ++ [line.header])).1 ∧
      (processLine r line).1.load (line.offset + 8) = (arrayWords (lines ++ [line.header])).2 := by
  have apart : (line.offset + 8) / 8 ≠ line.offset / 8 := by omega
  rw [processLine_multi_eq r line parser, arrayWords_concat]
  by_cases empty : lines = []
  · subst empty
    have unset : r.load (line.offset + 8) = .zero := elts
    rw [if_pos unset, tabAppend, tabInit, load_store, load_store_of_ne _ apart, load_store,
      load_store_of_ne _ apart.symm, load_store]
    exact ⟨rfl, rfl⟩
  · rw [arrayWords, if_neg empty] at nelts elts
    have positive : 0 < Int32.ofNat lines.length :=
      (Int32.ofNat_lt_iff_lt (by decide) few).mpr (List.length_pos_of_ne_nil empty)
    rw [if_neg (by rw [elts]; exact HeaderWord.noConfusion), tabAppend, load_store,
      load_store_of_ne _ apart, load_store, nelts, elts]
    simp [HeaderWord.count, HeaderWord.lines, positive, Int32.toNatClampNeg_ofNat_of_lt few]

/-- A line leaves all words outside its field as they are. -/
theorem processLine_words_of_outside {i : Nat}
    (outside : i < line.offset / 8 ∨ line.offset / 8 + line.entry.field.size ≤ i) :
    (processLine r line).1.words i = r.words i := by
  have positive : 1 ≤ line.entry.field.size := by
    cases line.entry.field <;> decide
  have apart : i ≠ line.offset / 8 := by omega
  have stored (word : HeaderWord) (r : HeadersIn) :
      (r.store line.offset word).words i = r.words i :=
    Function.update_of_ne apart ..
  cases parser : line.entry.headerParser with
  | uniqueHeaderLine =>
      rw [processLine_uniqueHeaderLine r line parser]
      exact stored _ r
  | connection => rw [(processLine_connection r line parser).1]
  | userAgent =>
      by_cases taken : r.load line.offset = .zero
      · rw [processLine_first_of_eq r line (.inr parser) taken]
        exact stored _ r
      · rw [processLine_first_of_ne r line (.inr parser) taken]
  | headerLine =>
      by_cases taken : r.load line.offset = .zero
      · rw [processLine_first_of_eq r line (.inl parser) taken]
        exact stored _ r
      · rw [processLine_first_of_ne r line (.inl parser) taken]
  | multiHeaderLines =>
      have two := (size_eq_two_iff line.listed).mp parser
      have apart' : i ≠ (line.offset + 8) / 8 := by omega
      have stored' (word : HeaderWord) (r : HeadersIn) :
          (r.store (line.offset + 8) word).words i = r.words i :=
        Function.update_of_ne apart' ..
      rw [processLine_multi_eq r line parser, tabAppend, stored, stored']
      split
      · rw [tabInit, stored', stored]
      · rfl

/-- A line leaves the words of other fields as they are. -/
theorem processLine_words_of_other {other : HeaderMeta} (listed : other ∈ httpHeaders build)
    (ne : other ≠ line.entry) {i : Nat} (inside : i < other.field.size) :
    (processLine r line).1.words (offsetof build other.field / 8 + i) =
      r.words (offsetof build other.field / 8 + i) := by
  have apart := RecordLayout.offset_disjoint HeaderField.size (field_mem listed)
    (field_mem line.listed) (mt (field_inj listed line.listed).mp ne)
  apply processLine_words_of_outside
  rw [HeaderLine.offset, offsetof, offsetof]
  omega

/-- Only `Connection` changes `connection_type`, and only `User-Agent` the bits of the browser. -/
theorem processLine_bits :
    (line.entry.headerParser ≠ .connection →
      (processLine r line).1.connectionType = r.connectionType) ∧
    (line.entry.headerParser ≠ .userAgent → (processLine r line).1.browser = r.browser) := by
  cases parser : line.entry.headerParser with
  | uniqueHeaderLine =>
      rw [processLine_uniqueHeaderLine r line parser]
      exact ⟨fun _ => rfl, fun _ => rfl⟩
  | connection =>
      exact ⟨fun other => (other rfl).elim, fun _ => (processLine_connection r line parser).2⟩
  | userAgent =>
      refine ⟨fun _ => ?_, fun other => (other rfl).elim⟩
      rw [processLine, parser]
      change (httpProcessUserAgent build r line.header).1.connectionType = r.connectionType
      rw [httpProcessUserAgent]
      split <;> rfl
  | headerLine =>
      rw [processLine, parser, HeaderParser.run, httpProcessHeaderLine]
      split <;> exact ⟨fun _ => rfl, fun _ => rfl⟩
  | multiHeaderLines =>
      rw [processLine_multi_eq r line parser]
      split <;> exact ⟨fun _ => rfl, fun _ => rfl⟩

end OneLine

/-! ## Sequences of lines -/

/-- The row of `http_headers` for `Cookie`. -/
def cookieMeta : HeaderMeta := ⟨"Cookie", .cookies, .multiHeaderLines⟩

section Sequences

variable {build : Build}

/-- The headers of the lines with a name, in the order they arrived. -/
def linesOf (entry : HeaderMeta) (lines : List (HeaderLine build)) : List HttpHeader :=
  (lines.filter fun line => line.entry.name = entry.name).map HeaderLine.header

/-- The word of a pointer to a header, or of `NULL`. -/
def pointerTo : Option HttpHeader → HeaderWord
  | none => .zero
  | some h => .header h

/-- The words of a field. -/
def fieldWords (build : Build) (r : HeadersIn) (entry : HeaderMeta) : List HeaderWord :=
  (List.range entry.field.size).map fun i => r.words (offsetof build entry.field / 8 + i)

/-- Header lines are recorded without loss or overwrite. -/
structure Recorded (lines : List (HeaderLine build)) : Prop where
  first : ∀ entry ∈ httpHeaders build,
    entry.headerParser = .uniqueHeaderLine ∨ entry.headerParser = .headerLine ∨
      entry.headerParser = .userAgent →
    (processLines lines).load (offsetof build entry.field) = pointerTo (linesOf entry lines).head?
  refused : ∀ before line after, lines = before ++ line :: after →
    line.entry.headerParser = .uniqueHeaderLine →
    (∃ earlier ∈ before, earlier.entry.name = line.entry.name) →
    (processLine (processLines before) line).2 ≠ osOk
  cookies : ((processLines lines).load (offsetof build .cookies)).count.toInt =
      (linesOf cookieMeta lines).length ∧
    ((processLines lines).load (offsetof build .cookies + 8)).lines = linesOf cookieMeta lines
  others : ∀ before line after, lines = before ++ line :: after →
    ∀ other ∈ httpHeaders build, other.name ≠ line.entry.name →
    fieldWords build (processLine (processLines before) line).1 other =
      fieldWords build (processLines before) other

variable {entry : HeaderMeta} {lines : List (HeaderLine build)} {line : HeaderLine build}

theorem processLines_concat (lines : List (HeaderLine build)) (line : HeaderLine build) :
    processLines (lines ++ [line]) = (processLine (processLines lines) line).1 :=
  List.foldl_concat ..

theorem linesOf_concat_of_eq (same : line.entry.name = entry.name) :
    linesOf entry (lines ++ [line]) = linesOf entry lines ++ [line.header] := by
  rw [linesOf, List.filter_append, List.map_append, List.filter_singleton, linesOf]
  simp [same]

theorem linesOf_concat_of_ne (ne : line.entry.name ≠ entry.name) :
    linesOf entry (lines ++ [line]) = linesOf entry lines := by
  rw [linesOf, List.filter_append, List.map_append, List.filter_singleton, linesOf]
  simp [ne]

/-- A line of another name leaves the words of a field as they are. -/
theorem load_of_other_name (r : HeadersIn) (listed : entry ∈ httpHeaders build)
    (ne : line.entry.name ≠ entry.name) {i : Nat} (inside : i < entry.field.size) :
    (processLine r line).1.load (offsetof build entry.field + 8 * i) =
      r.load (offsetof build entry.field + 8 * i) := by
  have other : entry ≠ line.entry := fun same => ne (congrArg HeaderMeta.name same).symm
  have slot : (offsetof build entry.field + 8 * i) / 8 = offsetof build entry.field / 8 + i := by
    omega
  rw [HeadersIn.load, HeadersIn.load, slot]
  exact processLine_words_of_other r line listed other inside

/-- `http_process_header_line` and `http_process_user_agent` keep the first line. -/
theorem load_headerLine (lines : List (HeaderLine build)) (listed : entry ∈ httpHeaders build)
    (parser : entry.headerParser = .headerLine ∨ entry.headerParser = .userAgent) :
    (processLines lines).load (offsetof build entry.field) =
      pointerTo (linesOf entry lines).head? := by
  induction lines using List.reverseRecOn with
  | nil => rfl
  | append_singleton lines line induction =>
      rw [processLines_concat]
      by_cases same : line.entry.name = entry.name
      · obtain rfl := (name_inj line.listed listed).mp same
        rw [linesOf_concat_of_eq rfl]
        cases earlier : linesOf line.entry lines with
        | nil =>
            rw [earlier] at induction
            rw [HeadersIn.load, processLine_first_of_eq _ line parser induction]
            exact load_store ..
        | cons h rest =>
            rw [earlier] at induction
            have taken : (processLines lines).load line.offset ≠ .zero := by
              rw [HeaderLine.offset, induction]
              exact HeaderWord.noConfusion
            rw [processLine_first_of_ne _ line parser taken, induction]
            rfl
      · rw [linesOf_concat_of_ne same, ← induction]
        exact load_of_other_name (i := 0) _ listed same (by cases entry.field <;> decide)

/-- `http_process_unique_header_line` keeps the last line. -/
theorem load_uniqueHeaderLine (lines : List (HeaderLine build)) (listed : entry ∈ httpHeaders build)
    (parser : entry.headerParser = .uniqueHeaderLine) :
    (processLines lines).load (offsetof build entry.field) =
      pointerTo (linesOf entry lines).getLast? := by
  induction lines using List.reverseRecOn with
  | nil => rfl
  | append_singleton lines line induction =>
      rw [processLines_concat]
      by_cases same : line.entry.name = entry.name
      · obtain rfl := (name_inj line.listed listed).mp same
        rw [linesOf_concat_of_eq rfl, List.getLast?_concat,
          processLine_uniqueHeaderLine _ line parser]
        exact load_store ..
      · rw [linesOf_concat_of_ne same, ← induction]
        exact load_of_other_name (i := 0) _ listed same (by cases entry.field <;> decide)

/-- `http_process_multi_header_lines` keeps all lines that it can count. -/
theorem load_multiHeaderLines (lines : List (HeaderLine build)) (listed : entry ∈ httpHeaders build)
    (parser : entry.headerParser = .multiHeaderLines)
    (few : (linesOf entry lines).length < 2 ^ 31) :
    (processLines lines).load (offsetof build entry.field) = (arrayWords (linesOf entry lines)).1 ∧
      (processLines lines).load (offsetof build entry.field + 8) =
        (arrayWords (linesOf entry lines)).2 := by
  induction lines using List.reverseRecOn with
  | nil => exact ⟨rfl, rfl⟩
  | append_singleton lines line induction =>
      rw [processLines_concat]
      by_cases same : line.entry.name = entry.name
      · obtain rfl := (name_inj line.listed listed).mp same
        rw [linesOf_concat_of_eq rfl] at few ⊢
        rw [List.length_append] at few
        have fewer := (Nat.le_add_right _ _).trans_lt few
        obtain ⟨nelts, elts⟩ := induction fewer
        exact processLine_multiHeaderLines _ line parser fewer nelts elts
      · have two := (size_eq_two_iff listed).mp parser
        rw [linesOf_concat_of_ne same] at few ⊢
        obtain ⟨nelts, elts⟩ := induction few
        rw [← nelts, ← elts]
        exact ⟨load_of_other_name (i := 0) _ listed same (by omega),
          load_of_other_name (i := 1) _ listed same (by omega)⟩

theorem cookieMeta_mem (build : Build) : cookieMeta ∈ httpHeaders build := by
  simp [httpHeaders, cookieMeta]

/-- Of two lines of one name, one comes after the other. -/
theorem exists_repeated (two : 2 ≤ (linesOf entry lines).length) :
    ∃ before line after, lines = before ++ line :: after ∧ line.entry.name = entry.name ∧
      ∃ earlier ∈ before, earlier.entry.name = entry.name := by
  induction lines using List.reverseRecOn with
  | nil => exact (Nat.not_succ_le_zero 1 two).elim
  | append_singleton lines line induction =>
      by_cases same : line.entry.name = entry.name
      · rw [linesOf_concat_of_eq same, List.length_append, List.length_singleton] at two
        have some_line : lines.filter (fun line => line.entry.name = entry.name) ≠ [] := by
          intro empty
          rw [linesOf, empty] at two
          exact Nat.not_succ_le_self 1 two
        obtain ⟨earlier, member⟩ := List.exists_mem_of_ne_nil _ some_line
        rw [List.mem_filter, decide_eq_true_iff] at member
        exact ⟨lines, line, [], rfl, same, earlier, member.1, member.2⟩
      · rw [linesOf_concat_of_ne same] at two
        obtain ⟨before, line', after, rfl, same', earlier⟩ := induction two
        exact ⟨before, line', after ++ [line], by simp, same', earlier⟩

theorem two_le_linesOf {before after : List (HeaderLine build)} {line earlier : HeaderLine build}
    (member : earlier ∈ before) (same : earlier.entry.name = line.entry.name) :
    2 ≤ (linesOf line.entry (before ++ line :: after)).length := by
  have early : earlier ∈ before.filter fun other => other.entry.name = line.entry.name :=
    List.mem_filter.mpr ⟨member, decide_eq_true same⟩
  have late : line ∈ (line :: after).filter fun other => other.entry.name = line.entry.name :=
    List.mem_filter.mpr ⟨List.mem_cons_self, decide_eq_true rfl⟩
  rw [linesOf, List.length_map, List.filter_append, List.length_append]
  exact Nat.add_le_add (List.length_pos_of_mem early) (List.length_pos_of_mem late)

theorem getLast?_eq_head? {α : Type} {list : List α} (short : list.length ≤ 1) :
    list.getLast? = list.head? := by
  cases list with
  | nil => rfl
  | cons a rest =>
      rw [List.eq_nil_of_length_eq_zero (Nat.le_zero.mp (Nat.le_of_succ_le_succ short))]
      rfl

theorem arrayWords_read {lines : List HttpHeader} (few : lines.length < 2 ^ 31) :
    (arrayWords lines).1.count.toInt = lines.length ∧ (arrayWords lines).2.lines = lines := by
  rw [arrayWords]
  split
  · next empty =>
      rw [empty]
      exact ⟨rfl, rfl⟩
  · exact ⟨Int32.toInt_ofNat_of_lt few, rfl⟩

/-- Lines are recorded exactly when no header with the handler for unique ones comes twice and an
`int` can count the cookies. -/
theorem recorded_iff (lines : List (HeaderLine build)) :
    Recorded lines ↔ (∀ entry ∈ httpHeaders build, entry.headerParser = .uniqueHeaderLine →
      (linesOf entry lines).length ≤ 1) ∧ (linesOf cookieMeta lines).length < 2 ^ 31 := by
  constructor
  · intro recorded
    refine ⟨fun entry listed parser => ?_, ?_⟩
    · by_contra more
      obtain ⟨before, line, after, rfl, same, earlier⟩ := exists_repeated (Nat.lt_of_not_le more)
      obtain rfl := (name_inj line.listed listed).mp same
      apply recorded.refused before line after rfl parser earlier
      rw [processLine_uniqueHeaderLine _ line parser]
    · have counted := Int32.toInt_lt ((processLines lines).load (offsetof build .cookies)).count
      rw [recorded.cookies.1] at counted
      exact Int.ofNat_lt.mp counted
  · rintro ⟨single, few⟩
    constructor
    · intro entry listed parser
      rcases parser with parser | parser
      · rw [load_uniqueHeaderLine lines listed parser,
          getLast?_eq_head? (single entry listed parser)]
      · exact load_headerLine lines listed parser
    · intro before line after split parser earlier
      obtain ⟨earlier, member, same⟩ := earlier
      have short := single line.entry line.listed parser
      rw [split] at short
      exact absurd (two_le_linesOf member same) (Nat.not_le_of_lt (Nat.lt_succ_of_le short))
    · obtain ⟨nelts, elts⟩ := load_multiHeaderLines lines (cookieMeta_mem build) rfl few
      have field : cookieMeta.field = .cookies := rfl
      rw [field] at nelts elts
      rw [nelts, elts]
      exact arrayWords_read few
    · intro before line after _ other listed ne
      have differ : other ≠ line.entry := fun same => ne (congrArg HeaderMeta.name same)
      apply List.map_congr_left
      intro i inside
      exact processLine_words_of_other _ line listed differ (List.mem_range.mp inside)

end Sequences

/-- The build without any of the macros, which nothing in the repository defines. -/
def plainBuild : Build := ⟨false, false, false, false, false⟩

/-- A `Host` line with its header at an address. -/
def hostLine (address : UInt64) (value : List UInt8) : HeaderLine plainBuild where
  entry := ⟨"Host", .host, .uniqueHeaderLine⟩
  listed := List.mem_cons_self
  header := ⟨address, value⟩

/-- The second of two `Host` lines is accepted and replaces the first. -/
theorem not_recorded_two_hosts :
    (processLine (processLines [hostLine 1 [97]]) (hostLine 2 [98])).2 = osOk ∧
    (processLines [hostLine 1 [97], hostLine 2 [98]]).load (offsetof plainBuild .host) =
      .header ⟨2, [98]⟩ ∧
    ¬ Recorded [hostLine 1 [97], hostLine 2 [98]] := by
  have accepted : (processLine (processLines [hostLine 1 [97]]) (hostLine 2 [98])).2 = osOk := rfl
  refine ⟨accepted, rfl, fun recorded => ?_⟩
  exact recorded.refused [hostLine 1 [97]] (hostLine 2 [98]) [] rfl rfl
    ⟨hostLine 1 [97], List.mem_cons_self, rfl⟩ accepted

end Http
end OstrichServer
