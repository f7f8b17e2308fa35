import OstrichServer.Foundations.StringTokens

/-!
# All tokens of a string

The tokens of a string are the pieces between delimiters that are not empty.  Any string falls into
a gap, a first token and a rest; a call of the tokenizer takes the token, makes a string of it and
saves where the rest starts, whatever the string.
-/

namespace StringTokens

variable {memory more s gap token rest left right delim : List UInt8} {p : Nat} {c : UInt8}

/-- The pieces of a string between delimiters, without the empty ones. -/
def tokens (delim s : List UInt8) : List (List UInt8) :=
  (s.splitOnP fun c => c ∈ delim).filter fun piece => piece ≠ []

/-- What is behind the first token of a string and the delimiter after it. -/
def afterToken (delim s : List UInt8) : List UInt8 :=
  ((s.dropWhile fun c => c ∈ delim).dropWhile fun c => c ∉ delim).tail

/-- How a string falls into a gap, a token and a rest.  The token is empty when there is none. -/
inductive Parts (delim : List UInt8) :
    (s : List UInt8) → (gap token rest : List UInt8) → Prop
  | gap {gap : List UInt8} (skipped : ∀ d ∈ gap, d ∈ delim) : Parts delim gap gap [] []
  | last {gap token : List UInt8} (skipped : ∀ d ∈ gap, d ∈ delim) (nonempty : token ≠ [])
      (passed : ∀ d ∈ token, d ∉ delim) : Parts delim (gap ++ token) gap token []
  | delimited {gap token : List UInt8} {c : UInt8} {rest : List UInt8}
      (skipped : ∀ d ∈ gap, d ∈ delim) (nonempty : token ≠ []) (passed : ∀ d ∈ token, d ∉ delim)
      (delimiter : c ∈ delim) : Parts delim (gap ++ (token ++ c :: rest)) gap token rest

/-- Every string has parts. -/
theorem exists_parts (delim s : List UInt8) : ∃ gap token rest, Parts delim s gap token rest := by
  have gap_eq := List.takeWhile_append_dropWhile (p := fun c => decide (c ∈ delim)) (l := s)
  have skipped : ∀ d ∈ s.takeWhile fun c => c ∈ delim, d ∈ delim := by
    intro d member
    simpa using List.mem_takeWhile_imp member
  generalize s.takeWhile (fun c => c ∈ delim) = gap at gap_eq skipped
  cases behind : s.dropWhile fun c => c ∈ delim with
  | nil =>
      rw [behind, List.append_nil] at gap_eq
      rw [← gap_eq]
      exact ⟨gap, [], [], .gap skipped⟩
  | cons first others =>
      have starts : first ∉ delim := by
        have head := List.head?_dropWhile_not (fun c => decide (c ∈ delim)) s
        rw [behind] at head
        simpa using head
      have token_eq := List.takeWhile_append_dropWhile (p := fun c => decide (c ∉ delim))
        (l := first :: others)
      have passed : ∀ d ∈ (first :: others).takeWhile fun c => c ∉ delim, d ∉ delim := by
        intro d member
        simpa using List.mem_takeWhile_imp member
      have nonempty : (first :: others).takeWhile (fun c => c ∉ delim) ≠ [] := by
        rw [List.takeWhile_cons, if_pos (decide_eq_true starts)]
        exact List.cons_ne_nil _ _
      generalize (first :: others).takeWhile (fun c => c ∉ delim) = token
        at token_eq passed nonempty
      rw [behind] at gap_eq
      cases ending : (first :: others).dropWhile fun c => c ∉ delim with
      | nil =>
          rw [ending, List.append_nil] at token_eq
          rw [← gap_eq, ← token_eq]
          exact ⟨gap, token, [], .last skipped nonempty passed⟩
      | cons c rest =>
          have delimiter : c ∈ delim := by
            have head := List.head?_dropWhile_not (fun c => decide (c ∉ delim)) (first :: others)
            rw [ending] at head
            simpa using head
          rw [ending] at token_eq
          rw [← gap_eq, ← token_eq]
          exact ⟨gap, token, rest, .delimited skipped nonempty passed delimiter⟩

theorem Parts.notMem (parts : Parts delim s gap token rest) (missing : c ∉ s) :
    c ∉ token ∧ c ∉ rest := by
  cases parts with
  | gap => exact ⟨List.not_mem_nil, List.not_mem_nil⟩
  | last => exact ⟨fun here => missing (List.mem_append_right _ here), List.not_mem_nil⟩
  | delimited =>
      exact ⟨fun here => missing (List.mem_append_right _ (List.mem_append_left _ here)),
        fun here => missing (List.mem_append_right _
          (List.mem_append_right _ (List.mem_cons_of_mem _ here)))⟩

/-- A delimiter in front. -/
theorem Parts.cons (parts : Parts delim s gap token rest) (delimiter : c ∈ delim) :
    Parts delim (c :: s) (c :: gap) token rest := by
  cases parts with
  | gap skipped => exact .gap (List.forall_mem_cons.mpr ⟨delimiter, skipped⟩)
  | last skipped nonempty passed =>
      exact .last (List.forall_mem_cons.mpr ⟨delimiter, skipped⟩) nonempty passed
  | delimited skipped nonempty passed ends =>
      exact .delimited (List.forall_mem_cons.mpr ⟨delimiter, skipped⟩) nonempty passed ends

/-! ## The list of tokens -/

theorem tokens_append (delimiter : c ∈ delim) (left right : List UInt8) :
    tokens delim (left ++ c :: right) = tokens delim left ++ tokens delim right := by
  have cut := List.splitOnP_append_cons (p := fun c => decide (c ∈ delim)) left right
    (decide_eq_true delimiter)
  rw [tokens, cut, List.filter_append]
  rfl

theorem tokens_of_passed (passed : ∀ d ∈ s, d ∉ delim) :
    tokens delim s = if s = [] then [] else [s] := by
  rw [tokens, List.splitOnP_eq_singleton fun d member => decide_eq_false (passed d member)]
  split
  · rename_i empty
    rw [empty]
    rfl
  · rename_i some
    simp [some]

theorem tokens_gap (skipped : ∀ d ∈ gap, d ∈ delim) (s : List UInt8) :
    tokens delim (gap ++ s) = tokens delim s := by
  induction gap with
  | nil => rfl
  | cons d gap induction =>
      obtain ⟨first, others⟩ := List.forall_mem_cons.mp skipped
      have start := tokens_append first [] (gap ++ s)
      rw [List.nil_append] at start
      rw [List.cons_append, start, induction others]
      rfl

/-- The first token and the tokens of the rest. -/
theorem Parts.tokens_eq (parts : Parts delim s gap token rest) :
    tokens delim s = if token = [] then [] else token :: tokens delim rest := by
  cases parts with
  | gap skipped =>
      have all := tokens_gap skipped []
      rw [List.append_nil] at all
      rw [all, if_pos rfl]
      rfl
  | last skipped nonempty passed =>
      rw [tokens_gap skipped, tokens_of_passed passed, if_neg nonempty, if_neg nonempty]
      rfl
  | delimited skipped nonempty passed delimiter =>
      rw [tokens_gap skipped, tokens_append delimiter, tokens_of_passed passed, if_neg nonempty,
        if_neg nonempty]
      rfl

theorem Parts.tokens_eq_nil_iff (parts : Parts delim s gap token rest) :
    tokens delim s = [] ↔ token = [] := by
  rw [parts.tokens_eq]
  split
  · rename_i empty
    exact ⟨fun _ => empty, fun _ => rfl⟩
  · rename_i some
    exact ⟨fun none => (List.cons_ne_nil _ _ none).elim, fun empty => (some empty).elim⟩

/-- A string without tokens. -/
theorem tokens_eq_nil_iff : tokens delim s = [] ↔ ∀ d ∈ s, d ∈ delim := by
  constructor
  · intro none
    obtain ⟨gap, token, rest, parts⟩ := exists_parts delim s
    have empty := parts.tokens_eq_nil_iff.mp none
    cases parts with
    | gap skipped => exact skipped
    | last _ nonempty => exact (nonempty empty).elim
    | delimited _ nonempty => exact (nonempty empty).elim
  · intro skipped
    exact (Parts.gap skipped).tokens_eq

/-- Without a token there is no rest. -/
theorem Parts.rest_of_nil (parts : Parts delim s gap [] rest) : rest = [] := by
  cases parts with
  | gap => rfl
  | last _ nonempty => rfl
  | delimited _ nonempty => exact (nonempty rfl).elim

/-- The first token, as an entry of the list. -/
theorem Parts.tokens_zero (parts : Parts delim s gap token rest) :
    (tokens delim s)[0]? = if token = [] then none else some token := by
  rw [parts.tokens_eq]
  split <;> rfl

/-- The later tokens are those of the rest. -/
theorem Parts.tokens_succ (parts : Parts delim s gap token rest) (n : Nat) :
    (tokens delim s)[n + 1]? = (tokens delim rest)[n]? := by
  rw [parts.tokens_eq]
  split
  · rename_i empty
    subst empty
    rw [parts.rest_of_nil]
    rfl
  · rfl

theorem dropWhile_cut {keep : UInt8 → Bool} {front : List UInt8} (kept : ∀ d ∈ front, keep d = true)
    (stops : ∀ d ∈ rest.head?, keep d = false) : (front ++ rest).dropWhile keep = rest := by
  rw [List.dropWhile_append_of_pos kept]
  cases rest with
  | nil => rfl
  | cons d rest => exact List.dropWhile_cons_of_neg (by rw [stops d rfl]; exact Bool.false_ne_true)

theorem Parts.afterToken_eq (parts : Parts delim s gap token rest) : afterToken delim s = rest := by
  have starts : token ≠ [] → (∀ d ∈ token, d ∉ delim) → ∀ more : List UInt8,
      ∀ d ∈ (token ++ more).head?, decide (d ∈ delim) = false := by
    intro nonempty passed more d first
    rw [List.head?_append_of_ne_nil _ nonempty] at first
    exact decide_eq_false (passed d (List.mem_of_mem_head? first))
  cases parts with
  | gap skipped =>
      have all : s.dropWhile (fun c => c ∈ delim) = [] :=
        List.dropWhile_eq_nil_iff.mpr fun d member => decide_eq_true (skipped d member)
      rw [afterToken, all]
      rfl
  | last skipped nonempty passed =>
      have first := starts nonempty passed []
      rw [List.append_nil] at first
      have all : token.dropWhile (fun c => c ∉ delim) = [] :=
        List.dropWhile_eq_nil_iff.mpr fun d member => decide_eq_true (passed d member)
      rw [afterToken, dropWhile_cut (fun d member => decide_eq_true (skipped d member)) first, all]
      rfl
  | delimited skipped nonempty passed delimiter =>
      rename_i c
      have stops : ∀ d ∈ (c :: rest).head?, decide (d ∉ delim) = false := by
        intro d first
        obtain rfl : c = d := Option.some.inj first
        exact decide_eq_false (not_not.mpr delimiter)
      rw [afterToken, dropWhile_cut (fun d member => decide_eq_true (skipped d member))
        (starts nonempty passed _),
        dropWhile_cut (fun d member => decide_eq_true (passed d member)) stops]
      rfl

/-- The tokens behind the first one. -/
theorem tokens_afterToken {others : List (List UInt8)} (listed : tokens delim s = token :: others) :
    tokens delim (afterToken delim s) = others := by
  obtain ⟨gap, token', rest, parts⟩ := exists_parts delim s
  rw [parts.tokens_eq] at listed
  rw [parts.afterToken_eq]
  split at listed
  · cases listed
  · exact (List.cons.inj listed).2

theorem Parts.front_ne_nil (parts : Parts delim s gap token rest) (nonempty : s ≠ []) :
    gap ++ token ≠ [] := by
  cases parts with
  | gap => simpa using nonempty
  | last => exact nonempty
  | delimited _ some => simp [some]

theorem Parts.length_rest (parts : Parts delim s gap token rest) (nonempty : s ≠ []) :
    rest.length < s.length := by
  have positive := List.length_pos_iff.mpr nonempty
  cases parts with
  | gap => exact positive
  | last => exact positive
  | delimited =>
      simp only [List.length_append, List.length_cons]
      omega

/-! ## Calls of the tokenizer -/

/-- What a call leaves when it is made on a string with these parts. -/
structure Takes (memory : List UInt8) (p : Nat) (s more gap token rest : List UInt8) (cut : Cut) :
    Prop where
  start : cut.token = if token = [] then none else some (p + gap.length)
  whole : ∃ more', cut.memory.drop p = gap ++ (token ++ 0 :: more')
  saved : cut.memory.drop cut.save = rest ++ 0 :: more
  past : p + gap.length + token.length ≤ cut.save
  inside : cut.save + rest.length ≤ p + s.length
  later : ∀ n, cut.save ≤ n → cut.memory.drop n = memory.drop n
  earlier : ∀ q string rest, memory.drop q = string ++ 0 :: rest → q + string.length ≤ p →
    ∃ rest', cut.memory.drop q = string ++ 0 :: rest'

theorem Parts.takes (parts : Parts delim s gap token rest) (noNul : 0 ∉ s)
    (behind : memory.drop p = s ++ 0 :: more) :
    Takes memory p s more gap token rest (strtokR memory p delim) := by
  have present : ∀ d ∈ s, d ≠ 0 := fun d member => ne_of_mem_of_not_mem member noNul
  cases parts with
  | gap skipped =>
      rw [strtokR_of_gap behind fun d member => ⟨present d member, skipped d member⟩]
      exact ⟨rfl, ⟨more, behind⟩, drop_add behind, le_rfl, le_rfl, fun _ _ => rfl,
        fun q string rest here _ => ⟨rest, here⟩⟩
  | last skipped nonempty passed =>
      have gaps : ∀ d ∈ gap, d ≠ 0 ∧ d ∈ delim :=
        fun d member => ⟨present d (List.mem_append_left _ member), skipped d member⟩
      have letters : ∀ d ∈ token, d ≠ 0 ∧ d ∉ delim :=
        fun d member => ⟨present d (List.mem_append_right _ member), passed d member⟩
      rw [List.append_assoc] at behind
      rw [strtokR_of_end gaps nonempty letters behind]
      refine ⟨(if_neg nonempty).symm, ⟨more, behind⟩, drop_add (drop_add behind), le_rfl, ?_,
        fun _ _ => rfl, fun q string rest here _ => ⟨rest, here⟩⟩
      simp only [List.length_append, List.length_nil]
      omega
  | delimited skipped nonempty passed delimiter =>
      rename_i c
      have gaps : ∀ d ∈ gap, d ≠ 0 ∧ d ∈ delim :=
        fun d member => ⟨present d (List.mem_append_left _ member), skipped d member⟩
      have letters : ∀ d ∈ token, d ≠ 0 ∧ d ∉ delim := fun d member =>
        ⟨present d (List.mem_append_right _ (List.mem_append_left _ member)), passed d member⟩
      have cut_present : c ≠ 0 :=
        present c (List.mem_append_right _ (List.mem_append_right _ List.mem_cons_self))
      simp only [List.append_assoc, List.cons_append] at behind
      have cuts := cuts_of_delimiter gaps nonempty letters behind cut_present delimiter
      have save := cuts.save
      have positive := List.length_pos_iff.mpr nonempty
      refine ⟨cuts.start.trans (if_neg nonempty).symm, ⟨_, cuts.whole⟩, cuts.saved, by omega, ?_,
        fun n reached => cuts.later n (by omega),
        fun q string rest here before => cuts.earlier q string rest here (by omega)⟩
      simp only [List.length_append, List.length_cons]
      omega

end StringTokens
