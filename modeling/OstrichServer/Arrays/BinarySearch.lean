import Mathlib.Data.Nat.Size
import OstrichServer.Dictionary.Operations
import OstrichServer.Foundations.Blocks
import OstrichServer.Foundations.Loop

/-!
# The search of `BSEARCH`

The loop keeps two `int`s around the range where the key can be, and halves that range with each
round.  Entries that are not sorted can hide the key from it, and do no other harm.
-/

namespace OstrichServer
namespace Arrays

open Dictionary (intMax)

variable {ε κ : Type*} [LinearOrder κ]

/-- A round of the `while` loop, from `low` and `high`, with `none` for a sum that does not fit and
for an entry outside of the block. -/
def bsearchRound (entries : Block ε) (elem : ε → κ) (key : κ) :
    Int × Int → Loop.Round (Int × Int) (Option Int)
  | (low, high) =>
      if low ≤ high then
        if low + high ≤ intMax then
          let mid := (low + high).tdiv 2
          match entries.read mid.toNat with
          | none => .stop none
          | some entry =>
              if elem entry < key then .next (mid + 1, high)
              else if elem entry > key then .next (low, mid - 1)
              else .stop (some mid)
        else .stop none
      else .stop (some (-1))

/-- `BSEARCH`, with at most `fuel` rounds. -/
def bsearch (entries : Block ε) (count : Int) (elem : ε → κ) (key : κ) (fuel : Nat) :
    Option (Option Int) :=
  Loop.run (bsearchRound entries elem key) fuel (0, count - 1)

/-- The keys of the first `count` entries do not decrease. -/
def SortedBy (elem : ε → κ) (entries : Block ε) (count : Nat) : Prop :=
  ∀ i j, i ≤ j → j < count → elem (entries.cells i) ≤ elem (entries.cells j)

variable (entries : Block ε) (elem : ε → κ) (key : κ) (count : Nat)

/-- The range lies in the entries, `n` halvings empty it, and the key is in no other place. -/
structure SearchRange (n : Nat) (range : Int × Int) : Prop where
  low_nonneg : 0 ≤ range.1
  high_lt : range.2 < count
  narrow : range.2 + 1 - range.1 < 2 ^ n
  below : SortedBy elem entries count → ∀ i : Nat, i < count → i < range.1 →
    elem (entries.cells i) < key
  above : SortedBy elem entries count → ∀ i : Nat, i < count → range.2 < i →
    key < elem (entries.cells i)

/-- What the search may answer. -/
def Answers (answer : Option Int) : Prop :=
  (answer = some (-1) ∧
    (SortedBy elem entries count → ∀ i < count, elem (entries.cells i) ≠ key)) ∨
  ∃ i < count, answer = some (i : Int) ∧ elem (entries.cells i) = key

variable {entries elem key count} (fits : count ≤ entries.room) (small : count ≤ 2 ^ 30)

/-- The midpoint, which the code computes without an overflow and reads inside of the entries. -/
theorem midpoint {n : Nat} {low high : Int}
    (here : SearchRange entries elem key count n (low, high)) (order : low ≤ high) :
    ∃ mid : Nat, (low + high).tdiv 2 = mid ∧ low ≤ mid ∧ mid ≤ high ∧ mid < count ∧
      2 * (mid : Int) ≤ low + high ∧ low + high ≤ 2 * mid + 1 := by
  have positive : 0 ≤ low := here.low_nonneg
  have bound : high < count := here.high_lt
  refine ⟨((low + high) / 2).toNat, ?_, ?_, ?_, ?_, ?_, ?_⟩
  · rw [Int.tdiv_eq_ediv_of_nonneg (by omega), Int.toNat_of_nonneg (by omega)]
  all_goals omega

include fits small in
/-- The ways a round can go. -/
theorem bsearchRound_cases {n : Nat} {low high : Int}
    (here : SearchRange entries elem key count n (low, high)) :
    (high < low ∧ bsearchRound entries elem key (low, high) = .stop (some (-1))) ∨
    ∃ mid : Nat, low ≤ mid ∧ mid ≤ high ∧ mid < count ∧ 2 * (mid : Int) ≤ low + high ∧
      low + high ≤ 2 * mid + 1 ∧
      ((elem (entries.cells mid) < key ∧
          bsearchRound entries elem key (low, high) = .next ((mid : Int) + 1, high)) ∨
        (key < elem (entries.cells mid) ∧
          bsearchRound entries elem key (low, high) = .next (low, (mid : Int) - 1)) ∨
        (elem (entries.cells mid) = key ∧
          bsearchRound entries elem key (low, high) = .stop (some (mid : Int)))) := by
  rcases lt_or_ge high low with past | order
  · exact Or.inl ⟨past, by rw [bsearchRound, if_neg past.not_ge]⟩
  obtain ⟨mid, midpoint, low_le, le_high, inside, twice, twice'⟩ := midpoint here order
  have bound : high < count := here.high_lt
  have fitting : low + high ≤ intMax := by
    unfold intMax
    omega
  have read : entries.read mid = some (entries.cells mid) := if_pos (inside.trans_le fits)
  refine Or.inr ⟨mid, low_le, le_high, inside, twice, twice', ?_⟩
  unfold bsearchRound
  simp only [if_pos order, if_pos fitting, midpoint, Int.toNat_natCast, read]
  rcases lt_trichotomy (elem (entries.cells mid)) key with less | equal | greater
  · exact Or.inl ⟨less, if_pos less⟩
  · exact Or.inr (Or.inr ⟨equal, by simp [equal]⟩)
  · exact Or.inr (Or.inl ⟨greater, by simp [greater, greater.not_gt]⟩)

include fits small in
theorem SearchRange.next {n : Nat} {range range' : Int × Int}
    (here : SearchRange entries elem key count n range)
    (goes : bsearchRound entries elem key range = .next range') :
    ∃ m, n = m + 1 ∧ SearchRange entries elem key count m range' := by
  obtain ⟨low, high⟩ := range
  have positive : 0 ≤ low := here.low_nonneg
  have bound : high < count := here.high_lt
  have narrow : high + 1 - low < 2 ^ n := here.narrow
  obtain ⟨-, stops⟩ | ⟨mid, low_le, le_high, inside, twice, twice', ways⟩ :=
    bsearchRound_cases fits small here
  · cases goes.symm.trans stops
  obtain ⟨m, rfl⟩ : ∃ m, n = m + 1 := by
    refine Nat.exists_eq_succ_of_ne_zero fun zero => ?_
    rw [zero, pow_zero] at narrow
    omega
  rw [pow_succ] at narrow
  refine ⟨m, rfl, ?_⟩
  obtain ⟨less, right⟩ | ⟨greater, left⟩ | ⟨-, stops⟩ := ways
  · cases goes.symm.trans right
    refine ⟨by dsimp only; omega, bound, by dsimp only; omega, ?_, here.above⟩
    intro sorted i within before
    exact (sorted i mid (by dsimp only at before; omega) inside).trans_lt less
  · cases goes.symm.trans left
    refine ⟨positive, by dsimp only; omega, by dsimp only; omega, here.below, ?_⟩
    intro sorted i within after
    exact greater.trans_le (sorted mid i (by dsimp only at after; omega) within)
  · cases goes.symm.trans stops

include fits small in
theorem SearchRange.stop {n : Nat} {range : Int × Int} {answer : Option Int}
    (here : SearchRange entries elem key count n range)
    (stops : bsearchRound entries elem key range = .stop answer) :
    Answers entries elem key count answer := by
  obtain ⟨low, high⟩ := range
  obtain ⟨past, none_left⟩ | ⟨mid, -, -, inside, -, -, ways⟩ := bsearchRound_cases fits small here
  · cases stops.symm.trans none_left
    refine Or.inl ⟨rfl, fun sorted i within => ?_⟩
    rcases lt_or_ge (i : Int) low with before | after
    · exact (here.below sorted i within before).ne
    · exact (here.above sorted i within (past.trans_le after)).ne'
  obtain ⟨-, goes⟩ | ⟨-, goes⟩ | ⟨equal, found⟩ := ways
  · cases goes.symm.trans stops
  · cases goes.symm.trans stops
  · cases stops.symm.trans found
    exact Or.inr ⟨mid, inside, rfl, equal⟩

/-- Over at most `2 ^ 30` entries the search ends after as many rounds as their number has binary
digits, without an overflow and inside of the entries.  It answers with a place of the key or `-1`,
and `-1` means for sorted entries that the key is not there. -/
theorem bsearch_spec (fits : count ≤ entries.room) (small : count ≤ 2 ^ 30) :
    ∃ answer, bsearch entries count elem key (Nat.size count + 1) = some answer ∧
      Answers entries elem key count answer := by
  have start : SearchRange entries elem key count (Nat.size count) (0, (count : Int) - 1) := by
    refine ⟨le_rfl, by dsimp only; omega, ?_, ?_, ?_⟩
    · have := Nat.lt_size_self count
      push_cast [← Int.ofNat_lt] at this
      dsimp only
      omega
    · intro _ i _ before
      dsimp only at before
      omega
    · intro _ i within after
      dsimp only at after
      omega
  exact Loop.exists_run_of_invariant (SearchRange entries elem key count)
    (fun here goes => here.next fits small goes)
    (fun here stops => here.stop fits small stops) start

theorem bsearch_spec_three :
    ∃ answer, bsearch (⟨fun i => 2 * i, 3⟩ : Block Nat) (3 : Nat) id 4 (Nat.size 3 + 1) =
      some answer ∧ Answers ⟨fun i => 2 * i, 3⟩ id 4 3 answer :=
  bsearch_spec (Nat.le_refl 3) (by norm_num)

end Arrays
end OstrichServer
