import Mathlib.Data.BitVec
import Mathlib.RingTheory.Nilpotent.Basic
import Mathlib.Tactic

/-!
# Mixing words

Hash functions mix a word by steps that lose nothing: adding a shifted word or its complement,
exclusive or with a shifted word, and multiplying by an odd constant.  A fold of steps that lose
nothing tells apart two inputs that differ in one place.
-/

namespace WordMixing

open Function

variable {w k : Nat}

/-! ## Steps -/

/-- A power of two is nilpotent. -/
theorem isNilpotent_twoPow (positive : 0 < k) : IsNilpotent (BitVec.twoPow w k) := by
  refine ⟨w, ?_⟩
  have cast : BitVec.twoPow w k = ((2 ^ k : Nat) : BitVec w) := by
    apply BitVec.eq_of_toNat_eq
    rw [BitVec.toNat_twoPow]
    rfl
  rw [cast, ← Nat.cast_pow, ← pow_mul]
  apply BitVec.eq_of_toNat_eq
  change 2 ^ (k * w) % 2 ^ w = 0 % 2 ^ w
  rw [Nat.zero_mod]
  exact Nat.mod_eq_zero_of_dvd (pow_dvd_pow 2 (Nat.le_mul_of_pos_left w positive))

theorem add_shiftLeft_injective (positive : 0 < k) : Injective fun x : BitVec w => x + x <<< k := by
  have unit : IsUnit (1 + BitVec.twoPow w k) := (isNilpotent_twoPow positive).isUnit_one_add
  intro x y same
  refine unit.mul_left_injective ?_
  dsimp only at same ⊢
  rwa [mul_add, mul_add, mul_one, mul_one, BitVec.mul_twoPow_eq_shiftLeft,
    BitVec.mul_twoPow_eq_shiftLeft]

theorem add_not_shiftLeft_injective (positive : 0 < k) :
    Injective fun x : BitVec w => x + ~~~(x <<< k) := by
  have unit : IsUnit (1 - BitVec.twoPow w k) := (isNilpotent_twoPow positive).isUnit_one_sub
  have multiple : ∀ x : BitVec w, x + ~~~(x <<< k) = x * (1 - BitVec.twoPow w k) - 1 := by
    intro x
    rw [BitVec.not_eq_neg_add, mul_sub, mul_one, BitVec.mul_twoPow_eq_shiftLeft]
    change x + (-(x <<< k) - 1) = _
    ring
  intro x y same
  dsimp only at same
  rw [multiple, multiple] at same
  exact unit.mul_left_injective (sub_left_injective same)

theorem xor_ushiftRight_injective (positive : 0 < k) :
    Injective fun x : BitVec w => x ^^^ x >>> k := by
  intro x y same
  -- the difference is its own shift
  have shift : x ^^^ y = (x ^^^ y) >>> k := by
    have same : x ^^^ x >>> k = y ^^^ y >>> k := same
    rw [BitVec.ushiftRight_xor_distrib]
    calc x ^^^ y = x ^^^ x >>> k ^^^ x >>> k ^^^ y := by
          rw [BitVec.xor_assoc x, BitVec.xor_self, BitVec.xor_zero]
      _ = y ^^^ y >>> k ^^^ x >>> k ^^^ y := by rw [same]
      _ = x >>> k ^^^ y >>> k := by
          rw [BitVec.xor_comm _ y, BitVec.xor_assoc y, ← BitVec.xor_assoc y, BitVec.xor_self,
            BitVec.zero_xor, BitVec.xor_comm]
  have nothing : (x ^^^ y).toNat = 0 := by
    have smaller := congrArg BitVec.toNat shift
    rw [BitVec.toNat_ushiftRight, Nat.shiftRight_eq_div_pow] at smaller
    by_contra nonzero
    exact (Nat.div_lt_self (Nat.pos_of_ne_zero nonzero)
      (Nat.one_lt_two_pow positive.ne')).ne smaller.symm
  exact BitVec.xor_eq_zero_iff.mp (BitVec.eq_of_toNat_eq nothing)

theorem mul_injective {m inverse : BitVec w} (unit : m * inverse = 1) :
    Injective fun x : BitVec w => x * m :=
  (IsUnit.of_mul_eq_one inverse unit).mul_left_injective

theorem xor_left_injective (y : BitVec w) : Injective fun x : BitVec w => x ^^^ y := fun _ _ =>
  (BitVec.xor_left_inj y).mp

/-! ## Folds -/

variable {σ α : Type*} {f : σ → α → σ}

theorem foldl_injective (step : ∀ a, Injective fun s => f s a) (items : List α) :
    Injective fun s => items.foldl f s := by
  induction items with
  | nil => exact injective_id
  | cons a items induction => exact induction.comp (step a)

/-- Lists that differ in one place have the same items before and after it. -/
theorem exists_split_of_ne {items items' : List α} {i : Nat} (length : items.length = items'.length)
    (differ : items ≠ items') (only : ∀ j, items[j]? ≠ items'[j]? → j = i) :
    ∃ front a b back, items = front ++ a :: back ∧ items' = front ++ b :: back ∧ a ≠ b := by
  induction items generalizing items' i with
  | nil => exact (differ (List.eq_nil_of_length_eq_zero length.symm).symm).elim
  | cons a items induction =>
      cases items' with
      | nil => cases length
      | cons b items' =>
          by_cases same : a = b
          · subst same
            obtain ⟨front, c, d, back, rfl, rfl, distinct⟩ := induction (i := i - 1)
              (Nat.succ.inj length) (fun equal => differ (by rw [equal])) fun j other => by
                have place := only (j + 1) other
                omega
            exact ⟨a :: front, c, d, back, rfl, rfl, distinct⟩
          · refine ⟨[], a, b, items, rfl, ?_, same⟩
            have first : 0 = i := only 0 fun equal => same (Option.some.inj equal)
            have rest : items = items' := by
              refine List.ext_getElem? fun j => ?_
              by_contra other
              have place := only (j + 1) other
              omega
            rw [rest]
            rfl

/-- One item exchanged for another changes the result, if it changes the state after it. -/
theorem foldl_ne (step : ∀ a, Injective fun s => f s a) {a b : α} {s : σ} (front back : List α)
    (differ : f (front.foldl f s) a ≠ f (front.foldl f s) b) :
    (front ++ a :: back).foldl f s ≠ (front ++ b :: back).foldl f s := by
  rw [List.foldl_append, List.foldl_append, List.foldl_cons, List.foldl_cons]
  exact (foldl_injective step back).ne differ

end WordMixing
