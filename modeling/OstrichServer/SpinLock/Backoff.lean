import Mathlib.Data.Nat.Init
import Mathlib.Logic.Function.Iterate
import Mathlib.Tactic

/-!
# The back-off of `spin_lock`

The places of a thread in `spin_lock`, and how it moves between them while the lock is held by
another one.  The bound of the doubling loop is `pid` as an unsigned number; the doubled number has
one bit or none, so that it never reaches a bound above `2 ^ 31`.
-/

namespace OstrichServer
namespace SpinLock

/-- Where a thread is in `spin_lock`. -/
inductive Place
  /-- At the first `if` of the endless loop. -/
  | top
  /-- At the test `n < pid`. -/
  | doubling (n : UInt32)
  /-- At the test `i < n`. -/
  | pausing (n i : UInt32)
  | schedYield
  /-- Returned with the lock. -/
  | acquired
  deriving DecidableEq

section Steps

variable (cpuNum pid : Int32)

/-- A step of the thread; `free` is the result of `*lock == 0 && atomic_cas(lock, 0, value)` where
the step makes that test. -/
def step (free : Bool) : Place → Place
  | .top =>
      if free then .acquired
      else if cpuNum > 1 then .doubling 1
      else .schedYield
  -- pid is converted to unsigned in the comparison
  | .doubling n => if n < pid.toUInt32 then .pausing n 0 else .schedYield
  | .pausing n i =>
      if i < n then .pausing n (i + 1)
      else if free then .acquired
      else .doubling (n <<< 1)
  | .schedYield => .top
  | .acquired => .acquired

/-- The place of a thread that has called `spin_lock`, with the results of its tests of the lock. -/
def place (free : Nat → Bool) : Nat → Place
  | 0 => .top
  | t + 1 => step cpuNum pid (free t) (place free t)

/-- Every test finds the lock held. -/
def held : Nat → Bool := fun _ => false

/-- Held up, the thread calls `sched_yield` again and again. -/
def AlwaysYields : Prop := ∀ t, ∃ t' ≥ t, place cpuNum pid held t' = .schedYield

end Steps

/-! ## Leading from one place to another -/

section Leads

variable {cpuNum pid : Int32} {a b c : Place}

/-- A thread that is held up comes from one place to the other. -/
def Leads (cpuNum pid : Int32) (a b : Place) : Prop := ∃ k, (step cpuNum pid false)^[k] a = b

theorem Leads.refl (a : Place) : Leads cpuNum pid a a := ⟨0, rfl⟩

theorem Leads.head (rest : Leads cpuNum pid (step cpuNum pid false a) b) :
    Leads cpuNum pid a b := by
  obtain ⟨k, rest⟩ := rest
  exact ⟨k + 1, rest⟩

theorem place_add (t k : Nat) :
    place cpuNum pid held (t + k) = (step cpuNum pid false)^[k] (place cpuNum pid held t) := by
  induction k with
  | zero => rfl
  | succ k induction =>
      rw [Function.iterate_succ_apply', ← induction]
      rfl

/-- A thread that comes from the top to `sched_yield` does so always. -/
theorem alwaysYields_of_leads (yields : Leads cpuNum pid .top .schedYield) :
    AlwaysYields cpuNum pid := by
  obtain ⟨k, yields⟩ := yields
  intro t
  induction t with
  | zero =>
      refine ⟨0 + k, Nat.zero_le _, ?_⟩
      rw [place_add]
      exact yields
  | succ t induction =>
      obtain ⟨t', later, yielded⟩ := induction
      refine ⟨t' + 1 + k, by omega, ?_⟩
      have top : place cpuNum pid held (t' + 1) = .top := by
        rw [place, yielded]
        rfl
      rw [place_add, top]
      exact yields

end Leads

/-! ## The loops -/

theorem toNat_double (n : UInt32) : (n <<< 1).toNat = 2 * n.toNat % 2 ^ 32 := by
  rw [UInt32.toNat_shiftLeft, show (1 : UInt32).toNat % 32 = 1 from rfl, Nat.shiftLeft_eq, pow_one,
    Nat.mul_comm]

section Loops

variable {cpuNum pid : Int32}

/-- The pauses end, and the number is doubled. -/
theorem leads_of_pausing {n : UInt32} {b : Place}
    (rest : Leads cpuNum pid (.doubling (n <<< 1)) b) (left : Nat) (i : UInt32)
    (count : i.toNat + left = n.toNat) : Leads cpuNum pid (.pausing n i) b := by
  apply Leads.head
  have fits := UInt32.toNat_lt n
  induction left generalizing i with
  | zero =>
      have done : ¬ i < n := by
        rw [UInt32.lt_iff_toNat_lt]
        omega
      rw [step, if_neg done, if_neg Bool.false_ne_true]
      exact rest
  | succ left induction =>
      have more : i < n := by
        rw [UInt32.lt_iff_toNat_lt]
        omega
      rw [step, if_pos more]
      apply Leads.head
      apply induction
      rw [UInt32.toNat_add, show (1 : UInt32).toNat = 1 from rfl]
      omega

/-- Up to `2 ^ 31` the bound is met, with `k` doublings left. -/
theorem leads_of_small (small : pid.toUInt32.toNat ≤ 2 ^ 31) (k : Nat) (bound : k ≤ 31) (n : UInt32)
    (power : n.toNat = 2 ^ (31 - k)) : Leads cpuNum pid (.doubling n) .schedYield := by
  induction k generalizing n with
  | zero =>
      have met : ¬ n < pid.toUInt32 := by
        rw [UInt32.lt_iff_toNat_lt, power]
        omega
      apply Leads.head
      rw [step, if_neg met]
      exact .refl _
  | succ k induction =>
      apply Leads.head
      rw [step]
      split
      · apply leads_of_pausing _ n.toNat 0 (Nat.zero_add _)
        apply induction (Nat.le_of_succ_le bound)
        have doubled : 2 * 2 ^ (31 - (k + 1)) = 2 ^ (31 - k) := by
          rw [← pow_succ']
          congr 1
          omega
        have fits : 2 ^ (31 - k) < 2 ^ 32 := Nat.pow_lt_pow_right one_lt_two (by omega)
        rw [toNat_double, power, doubled, Nat.mod_eq_of_lt fits]
      · exact .refl _

/-- With a small bound, or one processor, a thread that is held up yields. -/
theorem leads_top (small : cpuNum ≤ 1 ∨ pid.toUInt32.toNat ≤ 2 ^ 31) :
    Leads cpuNum pid .top .schedYield := by
  apply Leads.head
  rw [step, if_neg Bool.false_ne_true]
  by_cases many : cpuNum > 1
  · rw [if_pos many]
    rcases small with few | small
    · exact absurd many (Int32.not_lt.mpr few)
    · exact leads_of_small small 31 (Nat.le_refl 31) 1 rfl
  · rw [if_neg many]
    exact .refl _

/-- The numbers of the doubling loop: a power of two that still fits, and then 0. -/
def IsDoubled (n : UInt32) : Prop := ∃ k, n.toNat = 2 ^ k % 2 ^ 32

theorem isDoubled_double {n : UInt32} (doubled : IsDoubled n) : IsDoubled (n <<< 1) := by
  obtain ⟨k, equal⟩ := doubled
  refine ⟨k + 1, ?_⟩
  rw [toNat_double, equal, Nat.mul_mod_mod, pow_succ' 2 k]

theorem IsDoubled.le {n : UInt32} (doubled : IsDoubled n) : n.toNat ≤ 2 ^ 31 := by
  obtain ⟨k, equal⟩ := doubled
  rw [equal]
  by_cases fits : k ≤ 31
  · exact (Nat.mod_le _ _).trans (Nat.pow_le_pow_right Nat.two_pos fits)
  · have none_left : 2 ^ k % 2 ^ 32 = 0 :=
      Nat.mod_eq_zero_of_dvd (Nat.pow_dvd_pow 2 (by omega))
    rw [none_left]
    exact Nat.zero_le _

/-- At the top or in the doubling loop. -/
def Spinning : Place → Prop
  | .top => True
  | .doubling n => IsDoubled n
  | .pausing n _ => IsDoubled n
  | .schedYield => False
  | .acquired => False

/-- Beyond `2 ^ 31` no number of the loop meets the bound. -/
theorem spinning_step (many : 1 < cpuNum) (large : 2 ^ 31 < pid.toUInt32.toNat) {a : Place}
    (spinning : Spinning a) : Spinning (step cpuNum pid false a) := by
  cases a with
  | top =>
      rw [step, if_neg Bool.false_ne_true, if_pos many]
      exact ⟨0, rfl⟩
  | doubling n =>
      have doubled : IsDoubled n := spinning
      have below : n < pid.toUInt32 := by
        rw [UInt32.lt_iff_toNat_lt]
        exact doubled.le.trans_lt large
      rw [step, if_pos below]
      exact doubled
  | pausing n i =>
      have doubled : IsDoubled n := spinning
      rw [step]
      split
      · exact doubled
      · exact isDoubled_double doubled
  | schedYield => exact spinning.elim
  | acquired => exact spinning.elim

/-- A thread with a bound beyond `2 ^ 31` stays in the loop as long as the lock is held. -/
theorem spinning_place (many : 1 < cpuNum) (large : 2 ^ 31 < pid.toUInt32.toNat) (t : Nat) :
    Spinning (place cpuNum pid held t) := by
  induction t with
  | zero => trivial
  | succ t induction => exact spinning_step many large induction

end Loops

/-- As unsigned numbers, up to `2 ^ 31` there are the non-negative ones and the least one. -/
theorem toUInt32_le_iff (pid : Int32) :
    pid.toUInt32.toNat ≤ 2 ^ 31 ↔ 0 ≤ pid ∨ pid = Int32.minValue := by
  have bits : pid.toInt = if 2 * pid.toUInt32.toNat < 2 ^ 32 then (pid.toUInt32.toNat : Int)
      else (pid.toUInt32.toNat : Int) - (2 ^ 32 : Nat) := BitVec.toInt_eq_toNat_cond pid.toBitVec
  have fits := UInt32.toNat_lt pid.toUInt32
  rw [Int32.le_iff_toInt_le, Int32.toInt_zero, ← Int32.toInt_inj, Int32.toInt_minValue, bits]
  split <;> omega

/-- While the lock is held a thread yields again and again exactly when there is one processor, or
`pid` is not negative or the least `int`. -/
theorem alwaysYields_iff (cpuNum pid : Int32) :
    AlwaysYields cpuNum pid ↔ cpuNum ≤ 1 ∨ 0 ≤ pid ∨ pid = Int32.minValue := by
  rw [← toUInt32_le_iff]
  constructor
  · intro yields
    by_contra neither
    push Not at neither
    obtain ⟨many, large⟩ := neither
    obtain ⟨t, _, yielded⟩ := yields 0
    have spinning := spinning_place (Int32.not_le.mp many) large t
    rw [yielded] at spinning
    exact spinning
  · intro small
    exact alwaysYields_of_leads (leads_top small)

/-- With the values of `main.c`, four processors and a `pid` of -1, a thread that is held up never
yields. -/
theorem not_alwaysYields_initial :
    (∀ t, place 4 (-1) held t ≠ .schedYield) ∧ ¬ AlwaysYields 4 (-1) := by
  have never (t : Nat) : place 4 (-1) held t ≠ .schedYield := by
    intro yielded
    have spinning : Spinning (place 4 (-1) held t) := spinning_place (by decide) (by decide) t
    rw [yielded] at spinning
    exact spinning
  refine ⟨never, fun yields => ?_⟩
  obtain ⟨t, _, yielded⟩ := yields 0
  exact never t yielded

end SpinLock
end OstrichServer
