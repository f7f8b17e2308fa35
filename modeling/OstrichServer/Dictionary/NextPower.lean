import OstrichServer.Dictionary.MaskedIndex

/-!
# `_dict_next_power` in machine words

The search for the size of a table with `unsigned long` numbers, whose doubling wraps.  It never
does so before the loop returns, and the result is the size that the operations on tables go by.
-/

namespace OstrichServer
namespace Dictionary

open Loop

/-- `LONG_MAX` as an `unsigned long`. -/
def longMaxWord : UInt64 := 0x7FFFFFFFFFFFFFFF

/-- A round of `for (;;)` in `_dict_next_power`, with `i *= 2` modulo `2 ^ 64`. -/
def nextPowerWordRound (size i : UInt64) : Round UInt64 UInt64 :=
  if i ≥ size then .stop i else .next (i * 2)

/-- `_dict_next_power` with a bound on the rounds of its loop. -/
def dictNextPowerWord (fuel : Nat) (size : UInt64) : Option UInt64 :=
  if size ≥ longMaxWord then some longMaxWord else run (nextPowerWordRound size) fuel 100

section Rounds

variable {size i : UInt64}

theorem ge_longMaxWord_iff (size : UInt64) : size ≥ longMaxWord ↔ longMax ≤ size.toNat := by
  rw [ge_iff_le, UInt64.le_iff_toNat_le]
  rfl

/-- A number that the loop doubles is less than `2 ^ 63`. -/
theorem toNat_double_of_next (small : size.toNat < longMax) {i' : UInt64}
    (goes : nextPowerWordRound size i = .next i') : i'.toNat = i.toNat * 2 := by
  rw [nextPowerWordRound] at goes
  split at goes
  · cases goes
  · next less =>
      obtain rfl := Round.next.inj goes
      rw [ge_iff_le, UInt64.le_iff_toNat_le, Nat.not_le] at less
      have fits : i.toNat * 2 < 2 ^ 64 := by
        have bound : longMax = 2 ^ 63 - 1 := rfl
        omega
      rw [UInt64.toNat_mul, show (2 : UInt64).toNat = 2 from rfl, Nat.mod_eq_of_lt fits]

/-- The loop in words goes the way of the loop in numbers. -/
theorem toNat_run_nextPowerWordRound (small : size.toNat < longMax) (fuel : Nat) (i : UInt64) :
    (run (nextPowerWordRound size) fuel i).map UInt64.toNat =
      run (nextPowerRound size.toNat) fuel i.toNat := by
  induction fuel generalizing i with
  | zero => rfl
  | succ fuel induction =>
      by_cases reached : size.toNat ≤ i.toNat
      · have stops : nextPowerWordRound size i = .stop i :=
          if_pos (UInt64.le_iff_toNat_le.mpr reached)
        have stops' : nextPowerRound size.toNat i.toNat = .stop i.toNat := if_pos reached
        rw [run_of_stop stops, run_of_stop stops']
        rfl
      · have goes : nextPowerWordRound size i = .next (i * 2) :=
          if_neg (mt UInt64.le_iff_toNat_le.mp reached)
        have goes' : nextPowerRound size.toNat i.toNat = .next (i.toNat * 2) := if_neg reached
        rw [run_of_next goes, run_of_next goes', induction, toNat_double_of_next small goes]

end Rounds

/-- Within 58 rounds the loop finds the first double of `DICT_HT_SIZE` that is enough. -/
theorem run_nextPowerWordRound {size : UInt64} (small : size.toNat < longMax) :
    ∃ out, run (nextPowerWordRound size) 58 100 = some out ∧
      ∃ k, out.toNat = dictHtSize * 2 ^ k ∧ size.toNat ≤ dictHtSize * 2 ^ k ∧
        ∀ j < k, dictHtSize * 2 ^ j < size.toNat := by
  have enough : size.toNat ≤ dictHtSize * 2 ^ 57 := small.le.trans (by decide)
  obtain ⟨k, result, large, least⟩ := run_nextPowerRound_least enough
  have words := toNat_run_nextPowerWordRound small 58 100
  rw [show (100 : UInt64).toNat = dictHtSize from rfl, result] at words
  obtain ⟨out, found, equal⟩ := Option.map_eq_some_iff.mp words
  exact ⟨out, found, k, equal, large, least⟩

/-- The tables have the sizes that `_dict_next_power` finds in words. -/
theorem toNat_dictNextPowerWord (size : UInt64) :
    (dictNextPowerWord 58 size).map UInt64.toNat = some (dictNextPower size.toNat) := by
  rw [dictNextPowerWord, dictNextPower]
  by_cases large : size ≥ longMaxWord
  · rw [if_pos large, if_pos ((ge_longMaxWord_iff size).mp large)]
    rfl
  · have small : size.toNat < longMax := Nat.not_le.mp (mt (ge_longMaxWord_iff size).mpr large)
    obtain ⟨out, found, _⟩ := run_nextPowerWordRound small
    have words := toNat_run_nextPowerWordRound small 58 100
    rw [found, show (100 : UInt64).toNat = dictHtSize from rfl] at words
    rw [if_neg large, if_neg (Nat.not_le.mpr small), ← words, found]
    rfl

/-- `_dict_next_power` returns within 58 rounds and doubles without a wrap; the result is the least
double of `DICT_HT_SIZE` that is enough, or `LONG_MAX`. -/
theorem dictNextPowerWord_spec (size : UInt64) :
    ∃ out, dictNextPowerWord 58 size = some out ∧
      (size < longMaxWord →
        IsLeast {m | (∃ k, m = dictHtSize * 2 ^ k) ∧ size.toNat ≤ m} out.toNat ∧
        ∀ i i', nextPowerWordRound size i = .next i' → i'.toNat = i.toNat * 2) ∧
      (¬ size < longMaxWord → out = longMaxWord) := by
  by_cases large : size ≥ longMaxWord
  · refine ⟨longMaxWord, if_pos large, fun less => ?_, fun _ => rfl⟩
    exact absurd less (UInt64.not_lt.mpr large)
  · have small : size.toNat < longMax := Nat.not_le.mp (mt (ge_longMaxWord_iff size).mpr large)
    obtain ⟨out, found, k, power, enough, least⟩ := run_nextPowerWordRound small
    refine ⟨out, (if_neg large).trans found, fun _ => ⟨⟨⟨⟨k, power⟩, ?_⟩, ?_⟩, ?_⟩, ?_⟩
    · rw [power]
      exact enough
    · rintro m ⟨⟨j, rfl⟩, enough'⟩
      rw [power]
      have far : k ≤ j := by
        by_contra before
        exact absurd (least j (Nat.not_le.mp before)) (Nat.not_lt.mpr enough')
      exact Nat.mul_le_mul_left _ (Nat.pow_le_pow_right Nat.two_pos far)
    · intro i i' goes
      exact toNat_double_of_next small goes
    · intro not_less
      exact absurd (UInt64.not_lt.mp not_less) large

end Dictionary
end OstrichServer
