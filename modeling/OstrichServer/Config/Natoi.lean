import OstrichServer.Dictionary.StringKeys
import Mathlib.Data.Nat.Digits.Lemmas

/-!
# Decimal numbers of `osstring.c`

`os_natoi` on any bytes.  It looks for an overflow once, in the sign of what the wrapping
accumulator ends with, so it gives the remainder of some numbers that are too large.
-/

namespace OstrichServer
namespace Config

open Dictionary

/-- The byte of an ASCII character. -/
abbrev ascii (c : Char) : UInt8 := c.toUInt8

/-- `OS_ERR` as a number. -/
abbrev osErr : Int := -1

/-- The loop of `os_natoi` and what follows it; `value` is an `ssize_t`, which wraps around. -/
def natoiLoop : Int → List UInt8 → Int
  | value, [] => if value < 0 then osErr else value
  | value, c :: line =>
      if c < ascii '0' ∨ ascii '9' < c then osErr
      else natoiLoop ((value * 10 + ((c.toNat : Int) - 48)).bmod (2 ^ 64)) line

/-- `os_natoi` -/
def osNatoi (line : List UInt8) : Int :=
  if line.length = 0 then osErr else natoiLoop 0 line

/-- `os_atoi` -/
def osAtoi (line : CString) : Int := osNatoi line.val

/-! ## Digits -/

/-- The number that digits denote. -/
def magnitude (digits : List UInt8) : Nat :=
  Nat.ofDigits 10 (digits.reverse.map fun c => c.toNat - 48)

theorem magnitude_cons (c : UInt8) (digits : List UInt8) :
    magnitude (c :: digits) = (c.toNat - 48) * 10 ^ digits.length + magnitude digits := by
  rw [magnitude, List.reverse_cons, List.map_append, Nat.ofDigits_append, List.length_map,
    List.length_reverse, List.map_singleton, Nat.ofDigits_singleton, Nat.mul_comm, Nat.add_comm]
  rfl

/-- One decimal digit or more. -/
def Decimal (line : List UInt8) : Prop := line ≠ [] ∧ ∀ c ∈ line, ascii '0' ≤ c ∧ c ≤ ascii '9'

/-- What `os_natoi` makes of the number it has accumulated. -/
def accumulated (number : Int) : Int :=
  if number.bmod (2 ^ 64) < 0 then osErr else number.bmod (2 ^ 64)

/-- The loop over digits. -/
theorem natoiLoop_digits {digits : List UInt8}
    (decimal : ∀ c ∈ digits, ascii '0' ≤ c ∧ c ≤ ascii '9') (value : Int) :
    natoiLoop (value.bmod (2 ^ 64)) digits =
      accumulated (value * 10 ^ digits.length + magnitude digits) := by
  induction digits generalizing value with
  | nil =>
      have nothing : value * 10 ^ ([] : List UInt8).length + magnitude [] = value := by
        simp [magnitude]
      rw [nothing]
      rfl
  | cons c digits induction =>
      obtain ⟨low, high⟩ := decimal c List.mem_cons_self
      have digit : ¬ (c < ascii '0' ∨ ascii '9' < c) :=
        not_or.mpr ⟨UInt8.not_lt.mpr low, UInt8.not_lt.mpr high⟩
      have floor : 48 ≤ c.toNat := UInt8.le_iff_toNat_le.mp low
      have step : (value.bmod (2 ^ 64) * 10 + ((c.toNat : Int) - 48)).bmod (2 ^ 64) =
          (value * 10 + ((c.toNat : Int) - 48)).bmod (2 ^ 64) := by
        rw [← Int.bmod_add_bmod, Int.bmod_mul_bmod, Int.bmod_add_bmod]
      have same : value * 10 ^ (c :: digits).length + magnitude (c :: digits) =
          (value * 10 + ((c.toNat : Int) - 48)) * 10 ^ digits.length + magnitude digits := by
        rw [magnitude_cons, List.length_cons, pow_succ]
        push_cast [Nat.cast_sub floor]
        ring
      rw [natoiLoop, if_neg digit, step, same,
        induction fun d member => decimal d (List.mem_cons_of_mem _ member)]

/-- The loop over bytes of which one is not a digit. -/
theorem natoiLoop_other {line : List UInt8} (other : ∃ c ∈ line, c < ascii '0' ∨ ascii '9' < c)
    (value : Int) : natoiLoop value line = osErr := by
  induction line generalizing value with
  | nil =>
      obtain ⟨c, member, -⟩ := other
      cases member
  | cons c line induction =>
      rw [natoiLoop]
      split
      · rfl
      · rename_i digit
        obtain ⟨d, member, outside⟩ := other
        rcases List.mem_cons.mp member with rfl | later
        · exact (digit outside).elim
        · exact induction ⟨d, later, outside⟩ _

variable {line : List UInt8}

theorem not_decimal_iff :
    ¬ Decimal line ↔ line = [] ∨ ∃ c ∈ line, c < ascii '0' ∨ ascii '9' < c := by
  rw [Decimal, not_and_or, not_not]
  refine or_congr_right ?_
  push Not
  refine exists_congr fun c => and_congr_right fun _ => ?_
  rw [← UInt8.not_le, ← UInt8.not_le, imp_iff_not_or]

theorem osNatoi_of_decimal (decimal : Decimal line) :
    osNatoi line = accumulated (magnitude line) := by
  have nonempty : ¬ line.length = 0 := mt List.eq_nil_of_length_eq_zero decimal.1
  have loop := natoiLoop_digits decimal.2 0
  rw [zero_mul, zero_add] at loop
  rw [osNatoi, if_neg nonempty]
  exact loop

theorem osNatoi_of_not_decimal (other : ¬ Decimal line) : osNatoi line = osErr := by
  rw [osNatoi]
  split
  · rfl
  · rename_i nonempty
    have filled : line ≠ [] := fun nil => nonempty (by rw [nil, List.length_nil])
    exact natoiLoop_other ((not_decimal_iff.mp other).resolve_left filled) 0

theorem accumulated_of_lt {number : Nat} (fits : number < 2 ^ 63) :
    accumulated number = number := by
  have whole : (number : Int).bmod (2 ^ 64) = number := by
    apply Int.bmod_eq_of_le <;> omega
  rw [accumulated, whole, if_neg (by omega)]

/-! ## Exactness -/

/-- `os_natoi` returns `OS_ERR` exactly if there is nothing, a byte is not a digit or the number
does not fit an `ssize_t`, and the number otherwise. -/
structure ExactOrFails (line : List UInt8) : Prop where
  fails_iff : osNatoi line = osErr ↔
    line = [] ∨ (∃ c ∈ line, c < ascii '0' ∨ ascii '9' < c) ∨ 2 ^ 63 ≤ magnitude line
  exact : line ≠ [] → (∀ c ∈ line, ascii '0' ≤ c ∧ c ≤ ascii '9') → magnitude line < 2 ^ 63 →
    osNatoi line = magnitude line

/-- A number that does not fit fails exactly if its remainder does not fit either. -/
theorem osNatoi_exactOrFails_iff (line : List UInt8) :
    ExactOrFails line ↔
      ¬ (Decimal line ∧ 2 ^ 63 ≤ magnitude line ∧ magnitude line % 2 ^ 64 < 2 ^ 63) := by
  have exact (nonempty : line ≠ []) (digits : ∀ c ∈ line, ascii '0' ≤ c ∧ c ≤ ascii '9')
      (fits : magnitude line < 2 ^ 63) : osNatoi line = magnitude line := by
    rw [osNatoi_of_decimal ⟨nonempty, digits⟩, accumulated_of_lt fits]
  rcases Classical.em (Decimal line) with decimal | other
  · have reads := osNatoi_of_decimal decimal
    have digits : ¬ (line = [] ∨ ∃ c ∈ line, c < ascii '0' ∨ ascii '9' < c) :=
      fun none => not_decimal_iff.mpr none decimal
    have fails : osNatoi line = osErr ↔ 2 ^ 63 ≤ magnitude line % 2 ^ 64 := by
      rw [reads, accumulated, Int.bmod_def, osErr]
      split <;> omega
    constructor
    · intro whole
      have large := whole.fails_iff
      rw [← or_assoc, or_iff_right digits, fails] at large
      omega
    · intro whole
      refine ⟨?_, exact⟩
      rw [← or_assoc, or_iff_right digits, fails]
      have : 2 ^ 63 ≤ magnitude line → ¬ magnitude line % 2 ^ 64 < 2 ^ 63 :=
        fun large small => whole ⟨decimal, large, small⟩
      omega
  · refine ⟨fun _ some => other some.1, fun _ => ⟨?_, exact⟩⟩
    rw [← or_assoc]
    exact ⟨fun _ => Or.inl (not_decimal_iff.mp other), fun _ => osNatoi_of_not_decimal other⟩

/-- `os_natoi` makes zero of `2 ^ 64`. -/
theorem osNatoi_not_exact :
    osNatoi ("18446744073709551616".toList.map ascii) = 0 ∧
      ¬ ExactOrFails ("18446744073709551616".toList.map ascii) := by
  have zero : osNatoi ("18446744073709551616".toList.map ascii) = 0 := by decide +kernel
  refine ⟨zero, fun whole => ?_⟩
  have large : 2 ^ 63 ≤ magnitude ("18446744073709551616".toList.map ascii) := by decide +kernel
  have error := whole.fails_iff.mpr (Or.inr (Or.inr large))
  rw [zero] at error
  cases error

end Config
end OstrichServer
