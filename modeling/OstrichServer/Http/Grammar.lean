import OstrichServer.Foundations.SymbolLanguage
import OstrichServer.Http.ParseLine

/-!
# The request-line grammar

The language of request lines, stated without the parser, and what its parts say about the first
byte of a word.
-/

namespace OstrichServer
namespace Http

open Computability Language

/-! ## Classes of bytes -/

/-- `[A-Za-z]` -/
def Letter (c : UInt8) : Prop := (chr 'A' ≤ c ∧ c ≤ chr 'Z') ∨ (chr 'a' ≤ c ∧ c ≤ chr 'z')

/-- `[0-9]` -/
def Digit (c : UInt8) : Prop := chr '0' ≤ c ∧ c ≤ chr '9'

/-- `[1-9]` -/
def LeadingDigit (c : UInt8) : Prop := chr '1' ≤ c ∧ c ≤ chr '9'

/-- `[A-Z_]` -/
def MethodByte (c : UInt8) : Prop := (chr 'A' ≤ c ∧ c ≤ chr 'Z') ∨ c = chr '_'

/-- `[A-Za-z0-9.-]` -/
def HostByte (c : UInt8) : Prop := Letter c ∨ Digit c ∨ c = chr '.' ∨ c = chr '-'

/-- Letters, digits and `:-._~!$&'()*+,;=`. -/
def LiteralByte (c : UInt8) : Prop :=
  Letter c ∨ Digit c ∨
    c ∈ [chr ':', chr '-', chr '.', chr '_', chr '~', chr '!', chr '$', chr '&', chr '\'', chr '(',
      chr ')', chr '*', chr '+', chr ',', chr ';', chr '=']

/-- A carriage return or a line feed. -/
def LineBreak (c : UInt8) : Prop := c = cr ∨ c = lf

instance : DecidablePred Letter := fun _ => inferInstanceAs (Decidable (_ ∨ _))
instance : DecidablePred Digit := fun _ => inferInstanceAs (Decidable (_ ∧ _))
instance : DecidablePred LeadingDigit := fun _ => inferInstanceAs (Decidable (_ ∧ _))
instance : DecidablePred MethodByte := fun _ => inferInstanceAs (Decidable (_ ∨ _))
instance : DecidablePred HostByte := fun _ => inferInstanceAs (Decidable (_ ∨ _))
instance : DecidablePred LiteralByte := fun _ => inferInstanceAs (Decidable (_ ∨ _))
instance : DecidablePred LineBreak := fun _ => inferInstanceAs (Decidable (_ ∨ _))

theorem isLetter_iff : ∀ c, isLetter c = true ↔ Letter c := by decide +kernel

theorem isDigit_iff : ∀ c, isDigit c = true ↔ Digit c := by decide +kernel

theorem isMethodByte_iff : ∀ c, isMethodByte c = true ↔ MethodByte c := by decide +kernel

theorem isLiteralMark_iff : ∀ c, LiteralByte c ↔ isDigit c ∨ isLetter c ∨ isLiteralMark c := by
  decide +kernel

/-- The bit table and the character switches of the URI states single out the same bytes. -/
theorem isUsual_iff : ∀ c, isUsual c = false ↔
    c ∈ [0, lf, cr, sp, chr '#', chr '%', chr '+', chr '.', chr '/', chr '?'] := by
  decide +kernel

/-! ## The language -/

/-- The one-symbol words `c`. -/
abbrev byteOf (c : UInt8) : Language UInt8 := symbols (· = c)

/-- `SP*` -/
def spaces : Language UInt8 := (byteOf sp)∗

/-- `CR LF | LF` -/
def lineEnd : Language UInt8 := byteOf cr * byteOf lf + byteOf lf

/-- `'HTTP/' [1-9][0-9]* '.' [0-9]+` -/
def httpVersion : Language UInt8 :=
  byteOf (chr 'H') * byteOf (chr 'T') * byteOf (chr 'T') * byteOf (chr 'P') * byteOf (chr '/') *
    symbols LeadingDigit * (symbols Digit)∗ * byteOf (chr '.') * symbols Digit * (symbols Digit)∗

/-- `SP* (CR LF | LF)` or `SP+ 'HTTP/' [1-9][0-9]* '.' [0-9]+ SP* (CR LF | LF)` -/
def tail : Language UInt8 :=
  spaces * lineEnd + byteOf sp * spaces * httpVersion * spaces * lineEnd

/-- A tail that starts with a space, as it must after an authority with no path. -/
def spacedTail : Language UInt8 :=
  byteOf sp * spaces * lineEnd + byteOf sp * spaces * httpVersion * spaces * lineEnd

/-- Bytes other than NUL, CR and LF in which a run of spaces is never followed by 'H'. -/
def pathBytes : Language UInt8 :=
  {word | (∀ c ∈ word, c ≠ 0 ∧ c ≠ cr ∧ c ≠ lf) ∧ ¬ [sp, chr 'H'] <:+: word}

/-- A target in origin form. -/
def path : Language UInt8 := byteOf (chr '/') * pathBytes

/-- `[A-Za-z0-9.-]*` or an address literal in brackets. -/
def host : Language UInt8 :=
  (symbols HostByte)∗ + byteOf (chr '[') * (symbols LiteralByte)∗ * byteOf (chr ']')

/-- `[':' digits*]` -/
def port : Language UInt8 := 1 + byteOf (chr ':') * (symbols Digit)∗

/-- `letters+ '://' host [':' digits*]` -/
def authority : Language UInt8 :=
  symbols Letter * (symbols Letter)∗ * byteOf (chr ':') * byteOf (chr '/') * byteOf (chr '/') *
    host * port

/-- `{CR|LF}* method SP+ target tail` -/
def requestLine : Language UInt8 :=
  (symbols LineBreak)∗ * (symbols MethodByte * (symbols MethodByte)∗) * (byteOf sp * spaces) *
    (path * tail + authority * (path * tail + spacedTail))

/-! ## Tails -/

/-- What follows the first space of a spaced tail. -/
def afterSpace : Language UInt8 := spaces * (lineEnd + httpVersion * (spaces * lineEnd))

theorem spacedTail_eq : spacedTail = byteOf sp * afterSpace := by
  simp only [spacedTail, afterSpace, mul_add, mul_assoc]

theorem tail_eq : tail = lineEnd + byteOf sp * afterSpace := by
  have unrolled : spaces * lineEnd = byteOf sp * (spaces * lineEnd) + lineEnd := kstar_mul_eq
  calc
    tail = (byteOf sp * (spaces * lineEnd) + lineEnd) +
        byteOf sp * (spaces * (httpVersion * (spaces * lineEnd))) := by
      simp only [tail, mul_assoc, ← unrolled]
    _ = lineEnd + byteOf sp * afterSpace := by
      simp only [afterSpace, mul_add]
      abel

@[simp]
theorem cons_mem_lineEnd {c : UInt8} {word : List UInt8} :
    c :: word ∈ lineEnd ↔ c = cr ∧ word = [lf] ∨ c = lf ∧ word = [] := by
  rw [lineEnd, mem_add, cons_mem_symbols_mul, cons_mem_symbols]
  cases word with
  | nil => simp
  | cons d word => simp

@[simp]
theorem nil_notMem_lineEnd : [] ∉ lineEnd := by
  rw [lineEnd, mem_add]
  simp

@[simp]
theorem cons_mem_spaces_mul {c : UInt8} {word : List UInt8} {l : Language UInt8} :
    c :: word ∈ spaces * l ↔ c = sp ∧ word ∈ spaces * l ∨ c :: word ∈ l :=
  cons_mem_kstar_symbols_mul

@[simp]
theorem nil_mem_spaces_mul {l : Language UInt8} : [] ∈ spaces * l ↔ [] ∈ l :=
  nil_mem_kstar_symbols_mul

/-- The version with its line end, which only an 'H' starts. -/
def versionLine : Language UInt8 := httpVersion * (spaces * lineEnd)

theorem versionLine_eq : versionLine =
    byteOf (chr 'H') * (byteOf (chr 'T') * (byteOf (chr 'T') * (byteOf (chr 'P') *
      (byteOf (chr '/') * (symbols LeadingDigit * ((symbols Digit)∗ * (byteOf (chr '.') *
        (symbols Digit * ((symbols Digit)∗ * (spaces * lineEnd)))))))))) := by
  simp only [versionLine, httpVersion, mul_assoc]

theorem cons_mem_versionLine {c : UInt8} {word : List UInt8} (member : c :: word ∈ versionLine) :
    c = chr 'H' := by
  rw [versionLine_eq, cons_mem_symbols_mul] at member
  exact member.1

@[simp]
theorem nil_notMem_versionLine : [] ∉ versionLine := by
  rw [versionLine_eq]
  exact nil_notMem_symbols_mul

theorem cons_mem_afterSpace {c : UInt8} {word : List UInt8} :
    c :: word ∈ afterSpace ↔
      c = sp ∧ word ∈ afterSpace ∨ c :: word ∈ lineEnd ∨ c :: word ∈ versionLine := by
  change c :: word ∈ spaces * (lineEnd + versionLine) ↔ _
  rw [cons_mem_spaces_mul, mem_add]
  rfl

@[simp]
theorem nil_notMem_afterSpace : [] ∉ afterSpace := by
  change [] ∉ spaces * (lineEnd + versionLine)
  rw [nil_mem_spaces_mul, mem_add]
  simp

theorem cons_mem_tail {c : UInt8} {word : List UInt8} :
    c :: word ∈ tail ↔ c :: word ∈ lineEnd ∨ c = sp ∧ word ∈ afterSpace := by
  rw [tail_eq, mem_add, cons_mem_symbols_mul]

@[simp]
theorem nil_notMem_tail : [] ∉ tail := by
  rw [tail_eq, mem_add]
  simp

/-! ## Paths with their tails -/

/-- What follows the first '/' of a target. -/
def pathTail : Language UInt8 := pathBytes * tail

theorem nil_mem_pathBytes : [] ∈ pathBytes := by
  refine ⟨by simp, ?_⟩
  rintro ⟨left, right, same⟩
  simp at same

theorem cons_mem_pathBytes {c : UInt8} {word : List UInt8} :
    c :: word ∈ pathBytes ↔
      (c ≠ 0 ∧ c ≠ cr ∧ c ≠ lf) ∧ ¬ (c = sp ∧ word.head? = some (chr 'H')) ∧
        word ∈ pathBytes := by
  have infixes : [sp, chr 'H'] <:+: c :: word ↔
      (c = sp ∧ word.head? = some (chr 'H')) ∨ [sp, chr 'H'] <:+: word := by
    rw [List.infix_cons_iff, List.cons_prefix_cons]
    cases word with
    | nil => simp
    | cons d word => simp [eq_comm]
  change ((∀ d ∈ c :: word, _) ∧ _) ↔ _ ∧ _ ∧ ((∀ d ∈ word, _) ∧ _)
  rw [infixes, List.forall_mem_cons]
  tauto

@[simp]
theorem nil_notMem_pathTail : [] ∉ pathTail := by
  rw [pathTail, mem_mul]
  rintro ⟨front, -, back, member, same⟩
  obtain ⟨rfl, rfl⟩ := List.append_eq_nil_iff.mp same
  exact nil_notMem_tail member

theorem mem_pathTail_of_mem_tail {word : List UInt8} (member : word ∈ tail) :
    word ∈ pathTail :=
  append_mem_mul nil_mem_pathBytes member

/-- A word of `pathTail` ends at once or spends its first byte on the path. -/
theorem cons_mem_pathTail {c : UInt8} {word : List UInt8} :
    c :: word ∈ pathTail ↔
      c :: word ∈ tail ∨
        ∃ front ∈ pathBytes, ∃ back ∈ tail,
          front ++ back = word ∧ c :: front ∈ pathBytes := by
  rw [pathTail, mem_mul]
  constructor
  · rintro ⟨front, front_mem, back, back_mem, same⟩
    cases front with
    | nil => exact Or.inl (by simpa [← same] using back_mem)
    | cons d front =>
        obtain ⟨rfl, rfl⟩ : d = c ∧ front ++ back = word := by simpa using same
        exact Or.inr ⟨front, (cons_mem_pathBytes.mp front_mem).2.2, back, back_mem, rfl, front_mem⟩
  · rintro (member | ⟨front, -, back, back_mem, rfl, front_mem⟩)
    · exact ⟨[], nil_mem_pathBytes, _, member, rfl⟩
    · exact ⟨c :: front, front_mem, back, back_mem, rfl⟩

/-- A byte other than a space, a line break and NUL belongs to the path. -/
theorem plain_cons_mem_pathTail {c : UInt8} {word : List UInt8}
    (plain : c ≠ 0 ∧ c ≠ cr ∧ c ≠ lf) (not_space : c ≠ sp) :
    c :: word ∈ pathTail ↔ word ∈ pathTail := by
  have not_tail : c :: word ∉ tail := by
    simp [cons_mem_tail, plain, not_space]
  rw [cons_mem_pathTail, or_iff_right not_tail]
  constructor
  · rintro ⟨front, front_mem, back, back_mem, rfl, -⟩
    exact append_mem_mul front_mem back_mem
  · rw [pathTail, mem_mul]
    rintro ⟨front, front_mem, back, back_mem, rfl⟩
    exact ⟨front, front_mem, back, back_mem, rfl,
      cons_mem_pathBytes.mpr ⟨plain, by simp [not_space], front_mem⟩⟩

theorem nul_cons_notMem_pathTail {word : List UInt8} : 0 :: word ∉ pathTail := by
  rw [cons_mem_pathTail]
  simp +decide [cons_mem_tail, cons_mem_pathBytes]

/-- A line break ends the path. -/
theorem break_cons_mem_pathTail {c : UInt8} {word : List UInt8} (ends : LineBreak c) :
    c :: word ∈ pathTail ↔ c :: word ∈ lineEnd := by
  have not_path : ∀ front, c :: front ∉ pathBytes := by
    intro front member
    obtain ⟨plain, -⟩ := cons_mem_pathBytes.mp member
    rcases ends with rfl | rfl <;> simp at plain
  have not_space : c ≠ sp := by
    rcases ends with rfl | rfl <;> decide
  rw [cons_mem_pathTail, cons_mem_tail]
  simp [not_path, not_space]

/-- After a space only an 'H' tells the tail from more path. -/
theorem space_cons_mem_pathTail {c : UInt8} {word : List UInt8} (not_h : c ≠ chr 'H') :
    sp :: c :: word ∈ pathTail ↔ c :: word ∈ pathTail := by
  have not_version : c :: word ∉ versionLine := fun member => not_h (cons_mem_versionLine member)
  constructor
  · rw [cons_mem_pathTail, cons_mem_tail]
    rintro ((ends | ⟨-, rest⟩) | ⟨front, front_mem, back, back_mem, same, -⟩)
    · simp +decide at ends
    · rw [cons_mem_afterSpace] at rest
      apply mem_pathTail_of_mem_tail
      rw [cons_mem_tail]
      rcases rest with spaced | ends | version
      · exact Or.inr spaced
      · exact Or.inl ends
      · exact (not_version version).elim
    · exact same ▸ append_mem_mul front_mem back_mem
  · rw [pathTail, mem_mul]
    rintro ⟨front, front_mem, back, back_mem, same⟩
    by_cases empty : front = []
    · -- the whole of `c :: word` is a tail, and a tail may start with one more space
      subst empty
      obtain rfl : back = c :: word := by simpa using same
      refine mem_pathTail_of_mem_tail (?_ : sp :: c :: word ∈ tail)
      rw [cons_mem_tail] at back_mem ⊢
      refine Or.inr ⟨rfl, ?_⟩
      rw [cons_mem_afterSpace]
      rcases back_mem with ends | spaced
      · exact Or.inr (Or.inl ends)
      · exact Or.inl spaced
    · have front_head : front.head? = some c := by
        cases front with
        | nil => exact (empty rfl).elim
        | cons d front =>
            obtain ⟨rfl, -⟩ : d = c ∧ front ++ back = word := by simpa using same
            rfl
      rw [← same, ← List.cons_append]
      refine append_mem_mul (a := sp :: front)
        (cons_mem_pathBytes.mpr ⟨by decide, ?_, front_mem⟩) back_mem
      simp only [front_head, Option.some.injEq, not_and]
      exact fun _ => not_h

/-- After a space an 'H' starts the version. -/
theorem space_h_mem_pathTail {word : List UInt8} :
    sp :: chr 'H' :: word ∈ pathTail ↔ chr 'H' :: word ∈ versionLine := by
  have not_end : chr 'H' :: word ∉ lineEnd := by simp +decide
  constructor
  · rw [cons_mem_pathTail, cons_mem_tail]
    rintro ((ends | ⟨-, rest⟩) | ⟨front, -, back, back_mem, same, front_mem⟩)
    · simp +decide at ends
    · rw [cons_mem_afterSpace] at rest
      rcases rest with ⟨same, -⟩ | ends | version
      · exact absurd same (by decide)
      · exact (not_end ends).elim
      · exact version
    · -- the path cannot go on with 'H', so the tail would have to start with it
      cases front with
      | nil =>
          obtain rfl : back = chr 'H' :: word := by simpa using same
          rw [cons_mem_tail] at back_mem
          simp +decide at back_mem
      | cons d front =>
          obtain ⟨rfl, -⟩ : d = chr 'H' ∧ front ++ back = word := by
            simpa only [List.cons_append, List.cons.injEq] using same
          exact ((cons_mem_pathBytes.mp front_mem).2.1 ⟨rfl, rfl⟩).elim
  · intro version
    apply mem_pathTail_of_mem_tail
    rw [cons_mem_tail]
    exact Or.inr ⟨rfl, cons_mem_afterSpace.mpr (Or.inr (Or.inr version))⟩

end Http
end OstrichServer
