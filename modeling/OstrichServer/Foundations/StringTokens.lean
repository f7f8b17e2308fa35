import Mathlib.Data.List.TakeWhile
import Mathlib.Tactic

/-!
# Tokens of strings in memory

Memory is a list of bytes, a pointer is a position in it, and a string goes up to the next NUL.  The
tokenizer of the C library overwrites the delimiter after a token by a NUL, so that the token
becomes a string of its own; the lemmas say what it returns and what it leaves in memory.
-/

namespace StringTokens

/-- The string that a pointer leads to. -/
def stringAt (memory : List UInt8) (p : Nat) : List UInt8 := (memory.drop p).takeWhile (· ≠ 0)

/-- `strspn` -/
def strspn (memory : List UInt8) (p : Nat) (accept : List UInt8) : Nat :=
  ((memory.drop p).takeWhile fun c => c ≠ 0 ∧ c ∈ accept).length

/-- `strcspn` -/
def strcspn (memory : List UInt8) (p : Nat) (reject : List UInt8) : Nat :=
  ((memory.drop p).takeWhile fun c => c ≠ 0 ∧ c ∉ reject).length

/-- What a call of `strtok_r` leaves: the memory, the token it returns and the saved pointer. -/
structure Cut where
  memory : List UInt8
  token : Option Nat
  save : Nat

/-- `strtok_r`, from its first argument or, if that is `NULL`, from the saved pointer. -/
def strtokR (memory : List UInt8) (s : Nat) (delim : List UInt8) : Cut :=
  let start := s + strspn memory s delim
  if memory.getD start 0 = 0 then { memory, token := none, save := start }
  else
    let stop := start + strcspn memory start delim
    if memory.getD stop 0 = 0 then { memory, token := some start, save := stop }
    else { memory := memory.set stop 0, token := some start, save := stop + 1 }

variable {memory front rest gap token delim : List UInt8} {p s n : Nat} {c : UInt8}

/-! ## Memory behind a pointer -/

theorem zero_notMem_stringAt (memory : List UInt8) (p : Nat) : 0 ∉ stringAt memory p := by
  intro member
  simpa using List.mem_takeWhile_imp member

theorem drop_add (behind : memory.drop p = front ++ rest) :
    memory.drop (p + front.length) = rest := by
  rw [← List.drop_drop, behind, List.drop_left]

theorem getD_of_drop (behind : memory.drop p = c :: rest) : memory.getD p 0 = c := by
  have first : (memory.drop p).head? = some c := by rw [behind, List.head?_cons]
  rw [List.head?_drop] at first
  rw [List.getD_eq_getElem?_getD, first, Option.getD_some]

/-- Overwriting a byte behind a pointer. -/
theorem drop_set (behind : memory.drop p = front ++ c :: rest) (d : UInt8) :
    (memory.set (p + front.length) d).drop p = front ++ d :: rest := by
  have later : ¬ p + front.length < p := Nat.not_lt.mpr (Nat.le_add_right p _)
  rw [List.drop_set, if_neg later, behind, Nat.add_sub_cancel_left,
    List.set_append_right _ _ le_rfl,
    Nat.sub_self, List.set_cons_zero]

/-- Overwriting a byte behind a string. -/
theorem exists_drop_set (behind : memory.drop p = front ++ 0 :: rest) (later : p + front.length < n)
    (d : UInt8) : ∃ rest', (memory.set n d).drop p = front ++ 0 :: rest' := by
  obtain ⟨k, rfl⟩ := Nat.exists_eq_add_of_lt later
  have inside : ¬ p + front.length + k + 1 < p := by omega
  have index : p + front.length + k + 1 - p - front.length = k + 1 := by omega
  have passed : front.length ≤ p + front.length + k + 1 - p := by omega
  rw [List.drop_set, if_neg inside, behind, List.set_append_right _ _ passed, index,
    List.set_cons_succ]
  exact ⟨_, rfl⟩

/-- Overwriting a byte before a pointer. -/
theorem drop_set_of_lt (before : n < p) (d : UInt8) : (memory.set n d).drop p = memory.drop p := by
  rw [List.drop_set, if_pos before]

theorem takeWhile_cut {keep : UInt8 → Bool} (kept : ∀ d ∈ front, keep d = true)
    (dropped : keep c = false) : (front ++ c :: rest).takeWhile keep = front := by
  rw [List.takeWhile_append_of_pos kept, List.takeWhile_cons_of_neg (by rw [dropped]; simp),
    List.append_nil]

theorem stringAt_of_drop (behind : memory.drop p = front ++ 0 :: rest) (noNul : 0 ∉ front) :
    stringAt memory p = front := by
  have kept : ∀ d ∈ front, decide (d ≠ 0) = true := by
    intro d member
    exact decide_eq_true (ne_of_mem_of_not_mem member noNul)
  rw [stringAt, behind, takeWhile_cut kept rfl]

/-! ## Tokens -/

theorem strspn_of_drop (behind : memory.drop p = front ++ c :: rest)
    (accepted : ∀ d ∈ front, d ≠ 0 ∧ d ∈ delim) (stops : c = 0 ∨ c ∉ delim) :
    strspn memory p delim = front.length := by
  have kept : ∀ d ∈ front, decide (d ≠ 0 ∧ d ∈ delim) = true :=
    fun d member => decide_eq_true (accepted d member)
  have dropped : decide (c ≠ 0 ∧ c ∈ delim) = false := by
    apply decide_eq_false
    rintro ⟨present, listed⟩
    exact stops.elim present (· listed)
  rw [strspn, behind, takeWhile_cut kept dropped]

theorem strcspn_of_drop (behind : memory.drop p = front ++ c :: rest)
    (passed : ∀ d ∈ front, d ≠ 0 ∧ d ∉ delim) (stops : c = 0 ∨ c ∈ delim) :
    strcspn memory p delim = front.length := by
  have kept : ∀ d ∈ front, decide (d ≠ 0 ∧ d ∉ delim) = true :=
    fun d member => decide_eq_true (passed d member)
  have dropped : decide (c ≠ 0 ∧ c ∉ delim) = false := by
    apply decide_eq_false
    rintro ⟨present, missing⟩
    exact stops.elim present missing
  rw [strcspn, behind, takeWhile_cut kept dropped]

/-- Nothing but delimiters is left. -/
theorem strtokR_of_gap (behind : memory.drop s = gap ++ 0 :: rest)
    (skipped : ∀ d ∈ gap, d ≠ 0 ∧ d ∈ delim) :
    strtokR memory s delim = { memory, token := none, save := s + gap.length } := by
  have start := strspn_of_drop behind skipped (Or.inl rfl)
  have nul := getD_of_drop (drop_add behind)
  simp only [strtokR, start, nul, if_true]

/-- A token was made a string, the saved pointer leads to the rest, and nothing else changed. -/
structure Cuts (memory : List UInt8) (s : Nat) (gap token rest : List UInt8) (cut : Cut) :
    Prop where
  start : cut.token = some (s + gap.length)
  save : cut.save = s + gap.length + token.length + 1
  whole : cut.memory.drop s = gap ++ (token ++ 0 :: rest)
  saved : cut.memory.drop cut.save = rest
  later : ∀ n, s + gap.length + token.length < n → cut.memory.drop n = memory.drop n
  earlier : ∀ p string rest, memory.drop p = string ++ 0 :: rest →
    p + string.length < s + gap.length + token.length →
    ∃ rest', cut.memory.drop p = string ++ 0 :: rest'

theorem Cuts.string {cut : Cut} (cuts : Cuts memory s gap token rest cut) :
    cut.memory.drop (s + gap.length) = token ++ 0 :: rest :=
  drop_add cuts.whole

section Token

variable (skipped : ∀ d ∈ gap, d ≠ 0 ∧ d ∈ delim) (nonempty : token ≠ [])
  (passed : ∀ d ∈ token, d ≠ 0 ∧ d ∉ delim)
include skipped nonempty passed

/-- Where a token starts and how far it goes. -/
theorem token_bounds (behind : memory.drop s = gap ++ (token ++ c :: rest))
    (stops : c = 0 ∨ c ∈ delim) :
    strspn memory s delim = gap.length ∧ memory.getD (s + gap.length) 0 ≠ 0 ∧
      strcspn memory (s + gap.length) delim = token.length ∧
      memory.getD (s + gap.length + token.length) 0 = c := by
  obtain ⟨first, others, rfl⟩ := List.exists_cons_of_ne_nil nonempty
  have after := drop_add behind
  obtain ⟨present, other⟩ := passed first List.mem_cons_self
  refine ⟨?_, ?_, strcspn_of_drop after passed stops, getD_of_drop (drop_add after)⟩
  · rw [List.cons_append] at behind
    exact strspn_of_drop behind skipped (Or.inr other)
  · rw [List.cons_append] at after
    rw [getD_of_drop after]
    exact present

/-- A token before a delimiter, which is overwritten. -/
theorem strtokR_of_delimiter (behind : memory.drop s = gap ++ (token ++ c :: rest))
    (present : c ≠ 0) (delimiter : c ∈ delim) :
    strtokR memory s delim =
      { memory := memory.set (s + gap.length + token.length) 0
        token := some (s + gap.length)
        save := s + gap.length + token.length + 1 } := by
  obtain ⟨start, first, stop, last⟩ :=
    token_bounds skipped nonempty passed behind (Or.inr delimiter)
  simp only [strtokR, start, first, stop, last, present, if_false]

/-- What is left of a token before a delimiter. -/
theorem cuts_of_delimiter (behind : memory.drop s = gap ++ (token ++ c :: rest))
    (present : c ≠ 0) (delimiter : c ∈ delim) :
    Cuts memory s gap token rest (strtokR memory s delim) := by
  have after := drop_add behind
  rw [strtokR_of_delimiter skipped nonempty passed behind present delimiter]
  have next : memory.drop (s + gap.length + token.length + 1) = rest := by
    rw [← List.singleton_append, ← List.append_assoc] at after
    have past := drop_add after
    rwa [List.length_append, List.length_singleton, ← Nat.add_assoc] at past
  refine ⟨rfl, rfl, ?_, ?_, fun n later => drop_set_of_lt later 0,
    fun p string rest' here before => exists_drop_set here before 0⟩
  · rw [← List.append_assoc] at behind
    have changed := drop_set behind 0
    rwa [List.length_append, ← Nat.add_assoc, List.append_assoc] at changed
  · change (memory.set _ 0).drop (s + gap.length + token.length + 1) = rest
    rw [drop_set_of_lt (Nat.lt_succ_self _), next]

/-- A token that goes up to the NUL. -/
theorem strtokR_of_end (behind : memory.drop s = gap ++ (token ++ 0 :: rest)) :
    strtokR memory s delim =
      { memory
        token := some (s + gap.length)
        save := s + gap.length + token.length } := by
  obtain ⟨start, first, stop, last⟩ := token_bounds skipped nonempty passed behind (Or.inl rfl)
  simp only [strtokR, start, first, stop, last, if_false, if_true]

end Token

end StringTokens
