import OstrichServer.Http.HeaderRecord

/-!
# What the headers say about the client

`http_process_user_agent` names the browser by the words of the first `User-Agent` line, and
`http_process_connection` goes by the last `Connection` line that says something it knows.  Other
lines have no part in either.
-/

namespace OstrichServer
namespace Http

open Occurrences Strings

/-! ## Words -/

/-- The text of a value, which ends at its first NUL. -/
def textOf (value : List UInt8) : List UInt8 := value.takeWhile (· ≠ 0)

/-- The word stands at the position and nowhere before it. -/
def FirstAt (value : List UInt8) (word : String) (position : Nat) : Prop :=
  IsFirst (OccursAt id (word.toList.map chr) (textOf value)) (some position)

/-- The text has the word in it. -/
def Says (value : List UInt8) (word : String) : Prop :=
  ∃ position, OccursAt id (word.toList.map chr) (textOf value) position

/-- The text has the word in it, in capital or small letters. -/
def SaysAnyCase (value : List UInt8) (word : String) : Prop :=
  ∃ position, OccursAt asciiLower (word.toList.map chr) (textOf value) position

section Search

variable {word : String} {first : Nat}

theorem textOf_split (value : List UInt8) :
    0 ∉ textOf value ∧ ∃ beyond, value ++ [0] = textOf value ++ 0 :: beyond := by
  induction value with
  | nil => exact ⟨List.not_mem_nil, [], rfl⟩
  | cons c value induction =>
      obtain ⟨noNul, beyond, split⟩ := induction
      by_cases nul : c = 0
      · have empty : textOf (c :: value) = [] := List.takeWhile_cons_of_neg (by simp [nul])
        rw [empty, nul]
        exact ⟨List.not_mem_nil, value ++ [0], rfl⟩
      · have more : textOf (c :: value) = c :: textOf value :=
          List.takeWhile_cons_of_pos (decide_eq_true nul)
        rw [more]
        refine ⟨?_, beyond, by rw [List.cons_append, split, List.cons_append]⟩
        rw [List.mem_cons, not_or]
        exact ⟨Ne.symm nul, noNul⟩

/-- `os_strstrn` finds the first place of a word in the text. -/
theorem valueSearch_isFirst (value : List UInt8) (plain : 0 ∉ word.toList.map chr)
    (nonempty : word.toList.map chr ≠ []) :
    IsFirst (OccursAt id (word.toList.map chr) (textOf value)) (valueSearch value word) := by
  obtain ⟨noNul, beyond, split⟩ := textOf_split value
  obtain ⟨answer, found, isFirst⟩ := osStrstrn_spec noNul plain nonempty beyond
  have search := osStrstrn_value value plain nonempty
  rw [← String.length_toList, ← List.length_map chr, split, found] at search
  rwa [← Option.some.inj search]

/-- `os_strcasestrn` finds the first place of a word in the text, up to letter case. -/
theorem valueCaseSearch_isFirst (value : List UInt8) (plain : 0 ∉ word.toList.map chr)
    (nonempty : word.toList.map chr ≠ []) (ascii : ∀ c ∈ word.toList.map chr, c < 128) :
    IsFirst (OccursAt asciiLower (word.toList.map chr) (textOf value))
      (valueCaseSearch value word) := by
  obtain ⟨noNul, beyond, split⟩ := textOf_split value
  obtain ⟨answer, found, isFirst⟩ := osStrcasestrn_spec noNul plain nonempty ascii beyond
  have search := osStrcasestrn_value value plain nonempty ascii
  rw [← String.length_toList, ← List.length_map chr, split, found] at search
  rwa [← Option.some.inj search]

/-- A search that tells where the first place is tells whether there is one. -/
theorem isSome_iff_of_isFirst {holds : Nat → Prop} {answer : Option Nat}
    (isFirst : IsFirst holds answer) : answer.isSome = true ↔ ∃ position, holds position := by
  cases answer with
  | none => exact iff_of_false Bool.false_ne_true fun ⟨position, here⟩ => isFirst position here
  | some position => exact iff_of_true rfl ⟨position, isFirst.1⟩

theorem eq_some_iff_of_isFirst {holds : Nat → Prop} {answer : Option Nat}
    (isFirst : IsFirst holds answer) : answer = some first ↔ IsFirst holds (some first) := by
  constructor
  · rintro rfl
    exact isFirst
  · intro here
    cases answer with
    | none => exact (isFirst first here.1).elim
    | some position =>
        rcases lt_trichotomy position first with before | rfl | after
        · exact (here.2 position before isFirst.1).elim
        · rfl
        · exact (isFirst.2 first after here.1).elim

end Search

/-! ## Browsers -/

/-- The words that `http_process_user_agent` looks for. -/
def browserWords : List String :=
  ["MSIE ", "SV1", "Opera", "Gecko/", "Chrome/", "Safari/", "Mac OS X", "Konqueror"]

private theorem browserWords_plain : ∀ word ∈ browserWords,
    0 ∉ word.toList.map chr ∧ word.toList.map chr ≠ [] := by
  decide +kernel

theorem valueSearch_isSome {word : String} (listed : word ∈ browserWords) (value : List UInt8) :
    (valueSearch value word).isSome = true ↔ Says value word := by
  obtain ⟨plain, nonempty⟩ := browserWords_plain word listed
  exact isSome_iff_of_isFirst (valueSearch_isFirst value plain nonempty)

/-- A version of Internet Explorer may follow, at the position. -/
def MsieAt (value : List UInt8) (position : Nat) : Prop :=
  FirstAt value "MSIE " position ∧ position + 7 < value.length

/-- The version is 4 or 5, or 6 without the service pack that "SV1" stands for. -/
def OldMsie (value : List UInt8) (position : Nat) : Prop :=
  value[position + 6]? = some (chr '.') ∧
    (value[position + 5]? = some (chr '4') ∨ value[position + 5]? = some (chr '5') ∨
      value[position + 5]? = some (chr '6') ∧ ¬Says (value.drop (position + 8)) "SV1")

/-- The browser that a value of `User-Agent` names. -/
structure Names (value : List UInt8) (b : Browser) : Prop where
  opera : b.opera = true ↔ Says value "Opera"
  msie : b.msie = true ↔ ¬Says value "Opera" ∧ ∃ position, MsieAt value position
  msie6 : b.msie6 = true ↔
    ¬Says value "Opera" ∧ ∃ position, MsieAt value position ∧ OldMsie value position
  gecko : b.gecko = true ↔ b.msie = false ∧ b.opera = false ∧ Says value "Gecko/"
  chrome : b.chrome = true ↔
    b.msie = false ∧ b.opera = false ∧ ¬Says value "Gecko/" ∧ Says value "Chrome/"
  safari : b.safari = true ↔ b.msie = false ∧ b.opera = false ∧ ¬Says value "Gecko/" ∧
    ¬Says value "Chrome/" ∧ Says value "Safari/" ∧ Says value "Mac OS X"
  konqueror : b.konqueror = true ↔ b.msie = false ∧ b.opera = false ∧ ¬Says value "Gecko/" ∧
    ¬Says value "Chrome/" ∧ ¬(Says value "Safari/" ∧ Says value "Mac OS X") ∧
    Says value "Konqueror"

/-- The bits before any line. -/
def noBrowser : Browser := HeadersIn.zeroed.browser

/-- No bit but those of Internet Explorer is set. -/
structure OnlyMsie (b : Browser) : Prop where
  opera : b.opera = false
  gecko : b.gecko = false
  chrome : b.chrome = false
  safari : b.safari = false
  konqueror : b.konqueror = false

theorem setMsie_spec {value : List UInt8} {position : Nat} (inside : position + 7 < value.length) :
    OnlyMsie (setMsie value position noBrowser) ∧ (setMsie value position noBrowser).msie = true ∧
      ((setMsie value position noBrowser).msie6 = true ↔ OldMsie value position) := by
  have dot : (value ++ [0])[position + 6]? = value[position + 6]? :=
    List.getElem?_append_left (by omega)
  have version : (value ++ [0])[position + 5]? = value[position + 5]? :=
    List.getElem?_append_left (by omega)
  have pack := valueSearch_isSome (show "SV1" ∈ browserWords by decide) (value.drop (position + 8))
  have others : ∀ b : Bool, OnlyMsie { noBrowser with msie := true, msie6 := b } := fun _ =>
    ⟨rfl, rfl, rfl, rfl, rfl⟩
  have bits : setMsie value position noBrowser = { noBrowser with
      msie := true
      msie6 := decide (value[position + 6]? = some (chr '.') ∧
        (value[position + 5]? = some (chr '4') ∨ value[position + 5]? = some (chr '5') ∨
          value[position + 5]? = some (chr '6') ∧
            valueSearch (value.drop (position + 8)) "SV1" = none)) } := by
    simp only [setMsie, dot, version]
    split_ifs with is_dot old six none_found
    · simp only [is_dot, ← or_assoc, old, true_or, and_self, decide_true]
    · simp only [is_dot, six, none_found, and_self, or_true, decide_true]
    · have absent := not_or.mp old
      simp only [absent.1, absent.2, none_found, and_false, or_self, decide_false]
      rfl
    · have absent := not_or.mp old
      simp only [absent.1, absent.2, six, false_and, or_self, and_false, decide_false]
      rfl
    · simp only [is_dot, false_and, decide_false]
      rfl
  have lacks : valueSearch (value.drop (position + 8)) "SV1" = none ↔
      ¬Says (value.drop (position + 8)) "SV1" := by
    rw [← pack, Option.isSome_iff_ne_none, not_not]
  rw [bits]
  refine ⟨others _, rfl, ?_⟩
  rw [decide_eq_true_iff, lacks, OldMsie]

/-- The bits of Internet Explorer, before the other words are looked for. -/
def msieBits (value : List UInt8) : Browser :=
  match valueSearch value "MSIE " with
  | none => noBrowser
  | some msie => if msie + 7 < value.length then setMsie value msie noBrowser else noBrowser

theorem msieBits_spec (value : List UInt8) :
    OnlyMsie (msieBits value) ∧ ((msieBits value).msie = true ↔ ∃ position, MsieAt value position) ∧
      ((msieBits value).msie6 = true ↔
        ∃ position, MsieAt value position ∧ OldMsie value position) := by
  obtain ⟨plain, nonempty⟩ := browserWords_plain "MSIE " (by decide)
  have isFirst := valueSearch_isFirst value plain nonempty
  have at_iff : ∀ position, MsieAt value position ↔
      valueSearch value "MSIE " = some position ∧ position + 7 < value.length := fun position =>
    and_congr_left fun _ => (eq_some_iff_of_isFirst isFirst).symm
  have nothing : OnlyMsie noBrowser := ⟨rfl, rfl, rfl, rfl, rfl⟩
  have neither : (∀ position, ¬MsieAt value position) → msieBits value = noBrowser →
      OnlyMsie (msieBits value) ∧
        ((msieBits value).msie = true ↔ ∃ position, MsieAt value position) ∧
        ((msieBits value).msie6 = true ↔
          ∃ position, MsieAt value position ∧ OldMsie value position) := by
    intro absent same
    rw [same]
    exact ⟨nothing, iff_of_false Bool.false_ne_true fun ⟨position, here⟩ => absent position here,
      iff_of_false Bool.false_ne_true fun ⟨position, here, _⟩ => absent position here⟩
  cases found : valueSearch value "MSIE " with
  | none =>
      refine neither (fun position here => ?_) (by rw [msieBits, found])
      rw [at_iff, found] at here
      cases here.1
  | some first =>
      by_cases inside : first + 7 < value.length
      · have same : msieBits value = setMsie value first noBrowser := by
          rw [msieBits, found]
          exact if_pos inside
        have here : MsieAt value first := (at_iff first).mpr ⟨found, inside⟩
        have only : ∀ position, MsieAt value position → position = first := fun position there =>
          Option.some.inj (((at_iff position).mp there).1.symm.trans found)
        obtain ⟨others, msie, old⟩ := setMsie_spec inside
        rw [same]
        refine ⟨others, iff_of_true msie ⟨first, here⟩,
          old.trans ⟨fun old => ⟨first, here, old⟩, ?_⟩⟩
        rintro ⟨position, there, old⟩
        rwa [only position there] at old
      · refine neither (fun position here => ?_) ?_
        · obtain ⟨there, more⟩ := (at_iff position).mp here
          rw [found] at there
          cases there
          exact inside more
        · rw [msieBits, found]
          exact if_neg inside

/-- The bits that are set for a value are those of the browser it names. -/
theorem setBrowser_names (value : List UInt8) : Names value (setBrowser value noBrowser) := by
  obtain ⟨others, msie, msie6⟩ := msieBits_spec value
  have opera := valueSearch_isSome (show "Opera" ∈ browserWords by decide) value
  have gecko := valueSearch_isSome (show "Gecko/" ∈ browserWords by decide) value
  have chrome := valueSearch_isSome (show "Chrome/" ∈ browserWords by decide) value
  have safari := valueSearch_isSome (show "Safari/" ∈ browserWords by decide) value
  have mac := valueSearch_isSome (show "Mac OS X" ∈ browserWords by decide) value
  have konqueror := valueSearch_isSome (show "Konqueror" ∈ browserWords by decide) value
  change Names value (
    let b := msieBits value
    let b :=
      if (valueSearch value "Opera").isSome then
        { b with opera := true, msie := false, msie6 := false }
      else b
    if b.msie = false ∧ b.opera = false then
      if (valueSearch value "Gecko/").isSome then { b with gecko := true }
      else if (valueSearch value "Chrome/").isSome then { b with chrome := true }
      else if (valueSearch value "Safari/").isSome ∧
          (valueSearch value "Mac OS X").isSome then
        { b with safari := true }
      else if (valueSearch value "Konqueror").isSome then { b with konqueror := true }
      else b
    else b)
  generalize msieBits value = b at others msie msie6 ⊢
  obtain ⟨opera_off, gecko_off, chrome_off, safari_off, konqueror_off⟩ := others
  dsimp only
  rw [← Bool.not_eq_true] at opera_off gecko_off chrome_off safari_off konqueror_off
  split_ifs <;> constructor <;> grind

/-- At most one browser is named, and the old versions of Internet Explorer are some of its own. -/
theorem Names.exclusive {value : List UInt8} {b : Browser} (names : Names value b) :
    [b.msie, b.opera, b.gecko, b.chrome, b.safari, b.konqueror].count true ≤ 1 ∧
      (b.msie6 = true → b.msie = true) := by
  obtain ⟨opera, msie, msie6, gecko, chrome, safari, konqueror⟩ := names
  constructor
  · cases one : b.msie <;> cases two : b.opera <;> cases three : b.gecko <;>
      cases four : b.chrome <;> cases five : b.safari <;> cases six : b.konqueror <;>
      first | decide | grind
  · intro old
    obtain ⟨other, position, here, -⟩ := msie6.mp old
    exact msie.mpr ⟨other, position, here⟩

/-! ## Lines -/

/-- The row of `http_headers` for `User-Agent`. -/
def userAgentMeta : HeaderMeta := ⟨"User-Agent", .userAgent, .userAgent⟩

/-- The row of `http_headers` for `Connection`. -/
def connectionMeta : HeaderMeta := ⟨"Connection", .connection, .connection⟩

private theorem connectionWords_plain : ∀ word ∈ ["close", "keep-alive"],
    0 ∉ word.toList.map chr ∧ word.toList.map chr ≠ [] ∧ ∀ c ∈ word.toList.map chr, c < 128 := by
  decide +kernel

theorem valueCaseSearch_isSome {word : String} (listed : word = "close" ∨ word = "keep-alive")
    (value : List UInt8) :
    (valueCaseSearch value word).isSome = true ↔ SaysAnyCase value word := by
  obtain ⟨plain, nonempty, ascii⟩ := connectionWords_plain word (by simpa using listed)
  exact isSome_iff_of_isFirst (valueCaseSearch_isFirst value plain nonempty ascii)

/-- The connection type that `Connection` lines lead to. -/
inductive Asks : List HttpHeader → ConnectionType → Prop
  | nothing : Asks [] .unset
  | close {lines : List HttpHeader} {h : HttpHeader} (close : SaysAnyCase h.value "close") :
      Asks (lines ++ [h]) .close
  | keepAlive {lines : List HttpHeader} {h : HttpHeader} (not_close : ¬SaysAnyCase h.value "close")
      (keepAlive : SaysAnyCase h.value "keep-alive") : Asks (lines ++ [h]) .keepAlive
  | unknown {lines : List HttpHeader} {h : HttpHeader} {earlier : ConnectionType}
      (before : Asks lines earlier) (not_close : ¬SaysAnyCase h.value "close")
      (not_keepAlive : ¬SaysAnyCase h.value "keep-alive") : Asks (lines ++ [h]) earlier

/-- The browser that `User-Agent` lines lead to: the first of them decides. -/
def NamedBy (lines : List HttpHeader) (b : Browser) : Prop :=
  match lines with
  | [] => b = noBrowser
  | h :: _ => Names h.value b

section Lines

variable {build : Build}

theorem userAgentMeta_mem (build : Build) : userAgentMeta ∈ httpHeaders build := by
  simp [httpHeaders, userAgentMeta]

theorem connectionMeta_mem (build : Build) : connectionMeta ∈ httpHeaders build := by
  simp [httpHeaders, connectionMeta]

private theorem connection_rows : ∀ gzip xForwardedFor realip headers dav : Bool,
    ∀ entry ∈ httpHeaders ⟨gzip, xForwardedFor, realip, headers, dav⟩,
      entry.headerParser = .connection → entry = connectionMeta := by
  decide +kernel

/-- The rows with the two handlers. -/
theorem entry_of_known (line : HeaderLine build) :
    (line.entry.headerParser = .userAgent → line.entry = userAgentMeta) ∧
      (line.entry.headerParser = .connection → line.entry = connectionMeta) := by
  constructor
  · intro parser
    exact (field_inj line.listed (userAgentMeta_mem build)).mp
      (field_of_userAgent line.listed parser)
  · exact connection_rows _ _ _ _ _ line.entry line.listed

/-- `Connection` lines. -/
theorem asks_processLines (lines : List (HeaderLine build)) :
    Asks (linesOf connectionMeta lines) (processLines lines).connectionType := by
  induction lines using List.reverseRecOn with
  | nil => exact .nothing
  | append_singleton lines line induction =>
      rw [processLines_concat]
      by_cases same : line.entry.name = connectionMeta.name
      · rw [linesOf_concat_of_eq same]
        have parser : line.entry = connectionMeta :=
          (name_inj line.listed (connectionMeta_mem build)).mp same
        have handled : processLine (processLines lines) line =
            httpProcessConnection (processLines lines) line.header := by
          rw [processLine, parser]
          rfl
        have close := valueCaseSearch_isSome (Or.inl rfl) line.header.value
        have keepAlive := valueCaseSearch_isSome (Or.inr rfl) line.header.value
        rw [handled, httpProcessConnection]
        split_ifs with closes keeps
        · exact .close (close.mp closes)
        · exact .keepAlive (mt close.mpr closes) (keepAlive.mp keeps)
        · exact .unknown induction (mt close.mpr closes) (mt keepAlive.mpr keeps)
      · have other : line.entry.headerParser ≠ .connection := fun parser =>
          same (congrArg HeaderMeta.name ((entry_of_known line).2 parser))
        rw [linesOf_concat_of_ne same, (processLine_bits _ line).1 other]
        exact induction

/-- `User-Agent` lines. -/
theorem namedBy_processLines (lines : List (HeaderLine build)) :
    NamedBy (linesOf userAgentMeta lines) (processLines lines).browser := by
  induction lines using List.reverseRecOn with
  | nil => rfl
  | append_singleton lines line induction =>
      rw [processLines_concat]
      by_cases same : line.entry.name = userAgentMeta.name
      · rw [linesOf_concat_of_eq same]
        have parser : line.entry = userAgentMeta :=
          (name_inj line.listed (userAgentMeta_mem build)).mp same
        have handled : processLine (processLines lines) line =
            httpProcessUserAgent build (processLines lines) line.header := by
          rw [processLine, parser]
          rfl
        have first := load_headerLine lines (userAgentMeta_mem build) (Or.inr rfl)
        rw [handled, httpProcessUserAgent]
        cases earlier : linesOf userAgentMeta lines with
        | nil =>
            rw [earlier] at induction first
            have fresh : (processLines lines).browser = noBrowser := induction
            have free : ¬(processLines lines).load (offsetof build .userAgent) ≠ .zero :=
              not_not.mpr first
            rw [if_neg free]
            change Names line.header.value
              (setBrowser line.header.value (processLines lines).browser)
            rw [fresh]
            exact setBrowser_names line.header.value
        | cons h rest =>
            rw [earlier] at induction first
            have taken : (processLines lines).load (offsetof build .userAgent) ≠ .zero := by
              intro zero
              exact HeaderWord.noConfusion (first.symm.trans zero)
            rw [if_pos taken]
            exact induction
      · have other : line.entry.headerParser ≠ .userAgent := fun parser =>
          same (congrArg HeaderMeta.name ((entry_of_known line).1 parser))
        rw [linesOf_concat_of_ne same, (processLine_bits _ line).2 other]
        exact induction

/-- After any header lines, the browser is the one that the first `User-Agent` line names, at most
one of them, and the connection type is what the last `Connection` line says that says anything. -/
theorem client_classified (lines : List (HeaderLine build)) :
    NamedBy (linesOf userAgentMeta lines) (processLines lines).browser ∧
      [(processLines lines).browser.msie, (processLines lines).browser.opera,
        (processLines lines).browser.gecko, (processLines lines).browser.chrome,
        (processLines lines).browser.safari,
        (processLines lines).browser.konqueror].count true ≤ 1 ∧
      ((processLines lines).browser.msie6 = true → (processLines lines).browser.msie = true) ∧
      Asks (linesOf connectionMeta lines) (processLines lines).connectionType := by
  have named := namedBy_processLines lines
  have exclusive : [(processLines lines).browser.msie, (processLines lines).browser.opera,
      (processLines lines).browser.gecko, (processLines lines).browser.chrome,
      (processLines lines).browser.safari, (processLines lines).browser.konqueror].count true ≤ 1 ∧
      ((processLines lines).browser.msie6 = true → (processLines lines).browser.msie = true) := by
    cases sent : linesOf userAgentMeta lines with
    | nil =>
        rw [sent] at named
        have fresh : (processLines lines).browser = noBrowser := named
        rw [fresh]
        decide
    | cons h rest =>
        rw [sent] at named
        exact Names.exclusive named
  exact ⟨named, exclusive.1, exclusive.2, asks_processLines lines⟩

end Lines

end Http
end OstrichServer
