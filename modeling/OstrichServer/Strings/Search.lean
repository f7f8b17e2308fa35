import OstrichServer.Foundations.Occurrences
import Mathlib.Data.UInt

/-!
# Substring search in `osstring.c`

`os_strstrn` and `os_strcasestrn` over the bytes that may be read from their arguments: a read past
them is `none`.  Given a string up to its NUL, both find the first occurrence of their pattern.
-/

namespace OstrichServer
namespace Strings

open Occurrences

/-! ## Comparing two strings -/

/-- `strncmp` -/
def strncmp : List UInt8 → List UInt8 → Nat → Option Int
  | _, _, 0 => some 0
  | c1 :: s1, c2 :: s2, n + 1 =>
      if c1 ≠ c2 then some ((c1.toNat : Int) - c2.toNat)
      else if c1 = 0 then some 0
      else strncmp s1 s2 n
  | _, _, _ + 1 => none

/-- `(c >= 'A' && c <= 'Z') ? (c | 0x20) : c` for an `os_uint_t`. -/
def lowcase (c : UInt32) : UInt32 := if 65 ≤ c ∧ c ≤ 90 then c ||| 0x20 else c

/-- `os_strncasecmp` -/
def osStrncasecmp : List UInt8 → List UInt8 → Nat → Option UInt32
  | _, _, 0 => some 0
  | b1 :: s1, b2 :: s2, n + 1 =>
      let c1 := lowcase b1.toUInt32
      let c2 := lowcase b2.toUInt32
      if c1 = c2 then
        if c1 ≠ 0 then osStrncasecmp s1 s2 n else some 0
      else some (c1 - c2)
  | _, _, _ + 1 => none

/-! ## The search loops -/

/-- The two `do` loops, from position `s1`, with the bytes from there on: `first` is the comparison
with `c2` and `rest` the one with the bytes after it. -/
def searchLoop (first : UInt8 → Bool) (rest : List UInt8 → Option Bool) :
    Nat → List UInt8 → Option (Option Nat)
  | _, [] => none
  | s1, c1 :: more =>
      if c1 = 0 then some none
      -- either `while` goes on with the next byte, which is one after the byte just read
      else if first c1 = false then searchLoop first rest (s1 + 1) more
      else
        match rest more with
        | none => none
        | some false => searchLoop first rest (s1 + 1) more
        | some true => some (some s1)

/-- `os_strstrn`; the result is a position in `s1`, or `none` for `NULL`. -/
def osStrstrn (s1 s2 : List UInt8) (n : Nat) : Option (Option Nat) :=
  match s2 with
  | [] => none
  | c2 :: s2 =>
      searchLoop (fun c1 => c1 = c2) (fun s1 => (strncmp s1 s2 n).map fun order => order = 0) 0 s1

/-- `(os_uint_t) *s2` for a `char *s2`, which is signed. -/
def ofChar (c : UInt8) : UInt32 := c.toInt8.toInt32.toUInt32

/-- `os_strcasestrn`; the result is a position in `s1`, or `none` for `NULL`. -/
def osStrcasestrn (s1 s2 : List UInt8) (n : Nat) : Option (Option Nat) :=
  match s2 with
  | [] => none
  | c2 :: s2 =>
      searchLoop (fun c1 => lowcase c1.toUInt32 = lowcase (ofChar c2))
        (fun s1 => (osStrncasecmp s1 s2 n).map fun order => order = 0) 0 s1

/-! ## The comparisons on C strings -/

/-- A letter in lower case, any other byte as it is. -/
def asciiLower (c : UInt8) : UInt8 := if 65 ≤ c ∧ c ≤ 90 then c + 32 else c

/-- A property of bytes that holds of the 256 numbers. -/
private theorem forall_byte (holds : UInt8 → Prop) (each : ∀ k : Fin 256, holds (UInt8.ofFin k))
    (c : UInt8) : holds c := by
  have same : UInt8.ofFin c.toFin = c := rfl
  rw [← same]
  exact each c.toFin

/-- Setting bit `0x20` turns capital letters into small ones. -/
theorem lowcase_toUInt32 (c : UInt8) : lowcase c.toUInt32 = (asciiLower c).toUInt32 :=
  forall_byte (fun c => lowcase c.toUInt32 = (asciiLower c).toUInt32) (by decide +kernel) c

theorem asciiLower_eq_zero {c : UInt8} : asciiLower c = 0 ↔ c = 0 :=
  forall_byte (fun c => asciiLower c = 0 ↔ c = 0) (by decide +kernel) c

/-- A `char` below 128 keeps its value. -/
theorem ofChar_of_ascii {c : UInt8} : c < 128 → ofChar c = c.toUInt32 :=
  forall_byte (fun c => c < 128 → ofChar c = c.toUInt32) (by decide +kernel) c

theorem toUInt32_inj {c d : UInt8} : c.toUInt32 = d.toUInt32 ↔ c = d :=
  ⟨fun same => by simpa using congrArg UInt32.toUInt8 same, congrArg UInt8.toUInt32⟩

theorem lowcase_inj (c d : UInt8) :
    lowcase c.toUInt32 = lowcase d.toUInt32 ↔ asciiLower c = asciiLower d := by
  rw [lowcase_toUInt32, lowcase_toUInt32, toUInt32_inj]

/-- Up to the NUL of either string, `strncmp` finds out whether one begins with the other. -/
theorem strncmp_spec {s2 : List UInt8} (noNul : 0 ∉ s2) (s1 beyond : List UInt8) :
    ∃ order, strncmp (s1 ++ 0 :: beyond) (s2 ++ [0]) s2.length = some order ∧
      (order = 0 ↔ OccursAt id s2 s1 0) := by
  induction s2 generalizing s1 with
  | nil => exact ⟨0, by rw [List.length_nil, strncmp], by simp⟩
  | cons c2 s2 induction =>
      rw [List.mem_cons, not_or] at noNul
      have differ : ∀ {c1 : UInt8}, c1 ≠ c2 → (c1.toNat : Int) - c2.toNat ≠ 0 := by
        intro c1 differ zero
        exact differ (UInt8.toNat_inj.mp (by omega))
      cases s1 with
      | nil =>
          refine ⟨_, if_pos noNul.1, ?_⟩
          exact iff_of_false (differ noNul.1) not_occursAt_text_nil
      | cons c1 s1 =>
          by_cases same : c1 = c2
          · obtain ⟨order, compared, occurs_iff⟩ := induction noNul.2 s1
            refine ⟨order, ?_, ?_⟩
            · rw [List.cons_append, List.cons_append, List.length_cons, strncmp,
                if_neg (not_not.mpr same), if_neg (same ▸ Ne.symm noNul.1), compared]
            · rw [occurs_iff, occursAt_cons_zero]
              exact ⟨fun occurs => ⟨same.symm, occurs⟩, And.right⟩
          · refine ⟨_, if_pos same, iff_of_false (differ same) ?_⟩
            rw [occursAt_cons_zero]
            exact fun occurs => same occurs.1.symm

/-- Up to the NUL of either string, `os_strncasecmp` finds out whether one begins with the other up
to letter case. -/
theorem osStrncasecmp_spec {s2 : List UInt8} (noNul : 0 ∉ s2) (s1 beyond : List UInt8) :
    ∃ order, osStrncasecmp (s1 ++ 0 :: beyond) (s2 ++ [0]) s2.length = some order ∧
      (order = 0 ↔ OccursAt asciiLower s2 s1 0) := by
  induction s2 generalizing s1 with
  | nil => exact ⟨0, by rw [List.length_nil, osStrncasecmp], by simp⟩
  | cons c2 s2 induction =>
      rw [List.mem_cons, not_or] at noNul
      cases s1 with
      | nil =>
          have differ : ¬ asciiLower 0 = asciiLower c2 := fun same =>
            noNul.1 (asciiLower_eq_zero.mp same.symm).symm
          refine ⟨_, if_neg (mt (lowcase_inj 0 c2).mp differ), ?_⟩
          exact iff_of_false (mt sub_eq_zero.mp (mt (lowcase_inj 0 c2).mp differ))
            not_occursAt_text_nil
      | cons c1 s1 =>
          by_cases same : asciiLower c1 = asciiLower c2
          · obtain ⟨order, compared, occurs_iff⟩ := induction noNul.2 s1
            have more : lowcase c1.toUInt32 ≠ 0 := by
              rw [lowcase_toUInt32, same]
              exact fun zero => noNul.1 (asciiLower_eq_zero.mp (toUInt32_inj.mp zero)).symm
            refine ⟨order, ?_, ?_⟩
            · rw [List.cons_append, List.cons_append, List.length_cons, osStrncasecmp]
              simp only [if_pos ((lowcase_inj c1 c2).mpr same), if_pos more, compared]
            · rw [occurs_iff, occursAt_cons_zero]
              exact ⟨fun occurs => ⟨same.symm, occurs⟩, And.right⟩
          · have differ := mt (lowcase_inj c1 c2).mp same
            refine ⟨_, if_neg differ, iff_of_false (mt sub_eq_zero.mp differ) ?_⟩
            rw [occursAt_cons_zero]
            exact fun occurs => same occurs.1.symm

/-! ## The searches -/

private theorem searchLoop_from {view : UInt8 → UInt8} {first : UInt8 → Bool}
    {rest : List UInt8 → Option Bool} {c : UInt8} {pattern beyond : List UInt8}
    (firstExact : ∀ d, first d = true ↔ view c = view d)
    (restExact : ∀ text, ∃ same, rest (text ++ 0 :: beyond) = some same ∧
      (same = true ↔ OccursAt view pattern text 0))
    (s1 : Nat) {text : List UInt8} (noNul : 0 ∉ text) :
    ∃ answer : Option Nat,
      searchLoop first rest s1 (text ++ 0 :: beyond) = some (answer.map (· + s1)) ∧
      IsFirst (OccursAt view (c :: pattern) text) answer := by
  induction text generalizing s1 with
  | nil => exact ⟨none, rfl, fun position => not_occursAt_text_nil⟩
  | cons d text induction =>
      rw [List.mem_cons, not_or] at noNul
      obtain ⟨answer, later, isFirst⟩ := induction (s1 + 1) noNul.2
      obtain ⟨same, compared, same_iff⟩ := restExact text
      have goes : (answer.map (· + 1)).map (· + s1) = answer.map (· + (s1 + 1)) := by
        rw [Option.map_map]
        congr 1
        funext position
        exact Nat.add_right_comm position 1 s1
      rw [List.cons_append, searchLoop, if_neg (Ne.symm noNul.1)]
      by_cases head : first d = true
      · rw [if_neg (by rw [head]; exact Bool.noConfusion), compared]
        cases same with
        | true =>
            refine ⟨some 0, by simp, isFirst_of_zero ?_⟩
            exact occursAt_cons_zero.mpr ⟨(firstExact d).mp head, same_iff.mp rfl⟩
        | false =>
            refine ⟨answer.map (· + 1), goes ▸ later, isFirst_of_succ ?_ isFirst⟩
            rw [occursAt_cons_zero]
            exact fun occurs => Bool.noConfusion (same_iff.mpr occurs.2)
      · refine ⟨answer.map (· + 1), ?_, isFirst_of_succ ?_ isFirst⟩
        · rw [if_pos (Bool.eq_false_of_not_eq_true head), goes, later]
        · rw [occursAt_cons_zero]
          exact fun occurs => head ((firstExact d).mpr occurs.1)

/-- With exact comparisons the loops stop in the string, at the first occurrence of the pattern. -/
theorem searchLoop_spec {view : UInt8 → UInt8} {first : UInt8 → Bool}
    {rest : List UInt8 → Option Bool} {c : UInt8} {pattern text beyond : List UInt8}
    (noNul : 0 ∉ text)
    (firstExact : ∀ d, first d = true ↔ view c = view d)
    (restExact : ∀ text, ∃ same, rest (text ++ 0 :: beyond) = some same ∧
      (same = true ↔ OccursAt view pattern text 0)) :
    ∃ answer : Option Nat, searchLoop first rest 0 (text ++ 0 :: beyond) = some answer ∧
      IsFirst (OccursAt view (c :: pattern) text) answer := by
  obtain ⟨answer, found, isFirst⟩ := searchLoop_from firstExact restExact 0 noNul
  refine ⟨answer, found.trans ?_, isFirst⟩
  cases answer <;> rfl

section Searches

variable {s1 s2 : List UInt8}

theorem osStrstrn_spec (terminated : 0 ∉ s1) (pattern : 0 ∉ s2) (nonempty : s2 ≠ [])
    (beyond : List UInt8) :
    ∃ answer, osStrstrn (s1 ++ 0 :: beyond) (s2 ++ [0]) (s2.length - 1) = some answer ∧
      IsFirst (OccursAt id s2 s1) answer := by
  obtain ⟨c2, s2, rfl⟩ := List.exists_cons_of_ne_nil nonempty
  apply searchLoop_spec terminated
  · intro d
    rw [decide_eq_true_iff, id, id, eq_comm]
  · intro text
    obtain ⟨order, compared, occurs_iff⟩ :=
      strncmp_spec (List.not_mem_of_not_mem_cons pattern) text beyond
    refine ⟨order = 0, ?_, by rw [decide_eq_true_iff, occurs_iff]⟩
    exact congrArg (Option.map fun order => decide (order = 0)) compared

theorem osStrcasestrn_spec (terminated : 0 ∉ s1) (pattern : 0 ∉ s2) (nonempty : s2 ≠ [])
    (ascii : ∀ c ∈ s2, c < 128) (beyond : List UInt8) :
    ∃ answer, osStrcasestrn (s1 ++ 0 :: beyond) (s2 ++ [0]) (s2.length - 1) = some answer ∧
      IsFirst (OccursAt asciiLower s2 s1) answer := by
  obtain ⟨c2, s2, rfl⟩ := List.exists_cons_of_ne_nil nonempty
  apply searchLoop_spec terminated
  · intro d
    rw [decide_eq_true_iff, ofChar_of_ascii (ascii c2 List.mem_cons_self), lowcase_inj, eq_comm]
  · intro text
    obtain ⟨order, compared, occurs_iff⟩ :=
      osStrncasecmp_spec (List.not_mem_of_not_mem_cons pattern) text beyond
    refine ⟨order = 0, ?_, by rw [decide_eq_true_iff, occurs_iff]⟩
    exact congrArg (Option.map fun order => decide (order = 0)) compared

/-- A search in bytes with a NUL stays within them. -/
theorem exists_osStrstrn (terminated : 0 ∈ s1) (pattern : 0 ∉ s2) (nonempty : s2 ≠ []) :
    ∃ answer, osStrstrn s1 (s2 ++ [0]) (s2.length - 1) = some answer := by
  obtain ⟨text, beyond, rfl, noNul⟩ := List.eq_append_cons_of_mem terminated
  obtain ⟨answer, found, _⟩ := osStrstrn_spec noNul pattern nonempty beyond
  exact ⟨answer, found⟩

theorem exists_osStrcasestrn (terminated : 0 ∈ s1) (pattern : 0 ∉ s2) (nonempty : s2 ≠ [])
    (ascii : ∀ c ∈ s2, c < 128) :
    ∃ answer, osStrcasestrn s1 (s2 ++ [0]) (s2.length - 1) = some answer := by
  obtain ⟨text, beyond, rfl, noNul⟩ := List.eq_append_cons_of_mem terminated
  obtain ⟨answer, found, _⟩ := osStrcasestrn_spec noNul pattern nonempty ascii beyond
  exact ⟨answer, found⟩

/-- Both searches stay within the string and its NUL and return the first occurrence of the pattern,
for `os_strcasestrn` up to letter case, or `NULL` when there is none. -/
theorem search_firstOccurrence (terminated : 0 ∉ s1) (pattern : 0 ∉ s2) (nonempty : s2 ≠ [])
    (ascii : ∀ c ∈ s2, c < 128) :
    (∃ answer, osStrstrn (s1 ++ [0]) (s2 ++ [0]) (s2.length - 1) = some answer ∧
      IsFirst (OccursAt id s2 s1) answer) ∧
    ∃ answer, osStrcasestrn (s1 ++ [0]) (s2 ++ [0]) (s2.length - 1) = some answer ∧
      IsFirst (OccursAt asciiLower s2 s1) answer :=
  ⟨osStrstrn_spec terminated pattern nonempty [],
    osStrcasestrn_spec terminated pattern nonempty ascii []⟩

/-- `"aab"` in `"xaAab"`, where the search has to go back to the second of three letters. -/
theorem search_firstOccurrence_overlap :
    (∃ answer, osStrstrn ([120, 97, 65, 97, 98] ++ [0]) ([97, 97, 98] ++ [0]) 2 = some answer ∧
      IsFirst (OccursAt id ([97, 97, 98] : List UInt8) [120, 97, 65, 97, 98]) answer) ∧
    ∃ answer, osStrcasestrn ([120, 97, 65, 97, 98] ++ [0]) ([97, 97, 98] ++ [0]) 2 = some answer ∧
      IsFirst (OccursAt asciiLower [97, 97, 98] [120, 97, 65, 97, 98]) answer :=
  search_firstOccurrence (by decide) (by decide) (by decide) (by simp)

example : osStrcasestrn [120, 97, 65, 97, 98, 0] [97, 97, 98, 0] 2 = some (some 2) := by decide

end Searches

end Strings
end OstrichServer
