import Mathlib.Data.LawfulXor.Basic
import Mathlib.Data.Nat.Bitwise
import Mathlib.Tactic

/-!
# Masks for remainders

Keys below `2 ^ width` masked with `size - 1`, where the size is `2 ^ shift * odd`.  For an odd part
above one the mask stands for the remainder exactly when the width is not above the shift.
-/

namespace BitMasks

variable {width shift odd size key : Nat}

/-- The mask of a multiple of a power of two ends in ones. -/
theorem pred_split {part : Nat} (positive : 0 < part) :
    2 ^ width * part - 1 = 2 ^ width * (part - 1) + (2 ^ width - 1) := by
  obtain ⟨part, rfl⟩ := Nat.exists_eq_succ_of_ne_zero positive.ne'
  have ones := Nat.two_pow_pos width
  rw [Nat.succ_eq_add_one, Nat.add_sub_cancel, mul_add_one]
  omega

/-- A mask of ones over the whole width keeps the key. -/
theorem and_pred_of_dvd (divides : 2 ^ width ∣ size) (positive : 0 < size)
    (inside : key < 2 ^ width) : key &&& (size - 1) = key := by
  obtain ⟨part, rfl⟩ := divides
  have masked : (key &&& (2 ^ width * part - 1)) % 2 ^ width = key := by
    rw [Nat.and_mod_two_pow, pred_split (Nat.pos_of_mul_pos_left positive), Nat.mul_add_mod,
      Nat.mod_eq_of_lt inside, Nat.mod_eq_of_lt (Nat.sub_one_lt (Nat.two_pow_pos width).ne'),
      Nat.and_two_pow_sub_one_eq_mod, Nat.mod_eq_of_lt inside]
  rwa [Nat.mod_eq_of_lt (Nat.and_le_left.trans_lt inside)] at masked

/-- The mask has no bit where the odd part begins. -/
theorem testBit_pred (is_odd : odd % 2 = 1) : (2 ^ shift * odd - 1).testBit shift = false := by
  have ones := Nat.two_pow_pos shift
  have positive : 0 < odd := by omega
  rw [Nat.testBit_eq_decide_div_mod_eq, pred_split positive, Nat.mul_add_div ones,
    Nat.div_eq_of_lt (Nat.sub_one_lt ones.ne'), add_zero, decide_eq_false_iff_not]
  omega

/-- No key is masked to where the odd part begins. -/
theorem and_pred_ne (is_odd : odd % 2 = 1) (key : Nat) :
    key &&& (2 ^ shift * odd - 1) ≠ 2 ^ shift := by
  intro same
  have bit := congrArg (Nat.testBit · shift) same
  simp only [Nat.testBit_and, testBit_pred is_odd, Bool.and_false, Nat.testBit_two_pow_self] at bit
  cases bit

private theorem shift_lt_size (above_one : 1 < odd) : 2 ^ shift < 2 ^ shift * odd :=
  lt_mul_of_one_lt_right (Nat.two_pow_pos shift) above_one

/-- The masked key is the remainder. -/
theorem and_pred_eq_mod_iff (is_odd : odd % 2 = 1) (above_one : 1 < odd) :
    (∀ key < 2 ^ width, key &&& (2 ^ shift * odd - 1) = key % (2 ^ shift * odd)) ↔
      width ≤ shift := by
  constructor
  · intro masks
    by_contra narrow
    have inside : 2 ^ shift < 2 ^ width :=
      Nat.pow_lt_pow_right Nat.one_lt_two (Nat.lt_of_not_le narrow)
    apply and_pred_ne is_odd (2 ^ shift)
    rw [masks _ inside, Nat.mod_eq_of_lt (shift_lt_size above_one)]
  · intro wide key inside
    have divides : 2 ^ width ∣ 2 ^ shift * odd := (pow_dvd_pow 2 wide).mul_right odd
    have positive : 0 < 2 ^ shift * odd := (Nat.two_pow_pos shift).trans (shift_lt_size above_one)
    rw [and_pred_of_dvd divides positive inside,
      Nat.mod_eq_of_lt (inside.trans_le (Nat.le_of_dvd positive divides))]

/-- Every remainder a key can have is a masked key. -/
theorem and_pred_onto_iff (is_odd : odd % 2 = 1) (above_one : 1 < odd) :
    (∀ index < min (2 ^ shift * odd) (2 ^ width),
      ∃ key < 2 ^ width, key &&& (2 ^ shift * odd - 1) = index) ↔ width ≤ shift := by
  constructor
  · intro onto
    by_contra narrow
    have inside : 2 ^ shift < 2 ^ width :=
      Nat.pow_lt_pow_right Nat.one_lt_two (Nat.lt_of_not_le narrow)
    obtain ⟨key, -, same⟩ := onto _ (lt_min (shift_lt_size above_one) inside)
    exact and_pred_ne is_odd key same
  · intro wide index below
    have divides : 2 ^ width ∣ 2 ^ shift * odd := (pow_dvd_pow 2 wide).mul_right odd
    have positive : 0 < 2 ^ shift * odd := (Nat.two_pow_pos shift).trans (shift_lt_size above_one)
    have inside : index < 2 ^ width := below.trans_le (min_le_right _ _)
    exact ⟨index, inside, and_pred_of_dvd divides positive inside⟩

/-- The highest bit in which two numbers differ. -/
theorem two_pow_le_xor_iff (left right bit : Nat) :
    2 ^ bit ≤ left ^^^ right ↔ left / 2 ^ bit ≠ right / 2 ^ bit := by
  have zero : (left ^^^ right) / 2 ^ bit = 0 ↔ left / 2 ^ bit = right / 2 ^ bit := by
    rw [Nat.xor_div_two_pow, xor_eq_zero_iff]
  rw [Ne, ← zero, Nat.div_eq_zero_iff_lt (Nat.two_pow_pos bit), Nat.not_lt]

end BitMasks
