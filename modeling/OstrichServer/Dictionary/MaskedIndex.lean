import OstrichServer.Dictionary.Operations
import OstrichServer.Foundations.BitMasks

/-!
# The masked index of a bucket

The tables of `dict_expand` have `DICT_HT_SIZE * 2 ^ k` buckets.  `h & ht->sizemask` is the hash
modulo the number of buckets only when `k` is so large that the mask keeps every bit of the hash.
-/

namespace OstrichServer
namespace Dictionary

open BitMasks Loop

variable {κ υ : Type}

/-- The masked index of every hash is the hash modulo the size, and every bucket which is such a
remainder is the bucket of some hash. -/
structure DictHt.IndexIsModulo (ht : DictHt κ υ) : Prop where
  index_eq : ∀ h : UInt32, ht.index h = h.toNat % ht.size
  onto : ∀ i < min ht.size (2 ^ 32), ∃ h : UInt32, ht.index h = i

/-- The table `dict_expand` has made: the first one of the dict, or the one a rehash will fill. -/
def createdTable (d expanded : Dict κ υ) : DictHt κ υ :=
  if d.ht0.size = 0 then expanded.ht0 else expanded.ht1

/-! ## The sizes -/

/-- The loop of `_dict_next_power` stops at the first double that is large enough. -/
theorem run_nextPowerRound_least {size fuel i : Nat} (enough : size ≤ i * 2 ^ fuel) :
    ∃ k, run (nextPowerRound size) (fuel + 1) i = some (i * 2 ^ k) ∧ size ≤ i * 2 ^ k ∧
      ∀ j < k, i * 2 ^ j < size := by
  induction fuel generalizing i with
  | zero =>
      have stops : nextPowerRound size i = .stop i := if_pos (by omega)
      refine ⟨0, ?_, enough, fun j before => (Nat.not_lt_zero j before).elim⟩
      rw [pow_zero, mul_one]
      exact run_of_stop stops
  | succ fuel induction =>
      rcases Nat.lt_or_ge i size with less | reached
      · have goes : nextPowerRound size i = .next (i * 2) := if_neg (Nat.not_le.mpr less)
        have double (j : Nat) : i * 2 * 2 ^ j = i * 2 ^ (j + 1) := by rw [pow_succ', mul_assoc]
        rw [← double] at enough
        obtain ⟨k, result, large, least⟩ := induction enough
        rw [double] at result large
        refine ⟨k + 1, (run_of_next goes).trans result, large, fun j before => ?_⟩
        cases j with
        | zero => rwa [pow_zero, mul_one]
        | succ j =>
            rw [← double]
            exact least j (Nat.lt_of_succ_lt_succ before)
      · have stops : nextPowerRound size i = .stop i := if_pos reached
        refine ⟨0, ?_, ?_, fun j before => (Nat.not_lt_zero j before).elim⟩
        · rw [pow_zero, mul_one]
          exact run_of_stop stops
        · rwa [pow_zero, mul_one]

theorem dictNextPower_least {size : Nat} (less : size < longMax) :
    ∃ k, dictNextPower size = dictHtSize * 2 ^ k ∧ size ≤ dictHtSize * 2 ^ k ∧
      ∀ j < k, dictHtSize * 2 ^ j < size := by
  have enough : size ≤ dictHtSize * 2 ^ 57 := less.le.trans (by decide)
  obtain ⟨k, result, large, least⟩ := run_nextPowerRound_least enough
  refine ⟨k, ?_, large, least⟩
  rw [dictNextPower, if_neg (Nat.not_le.mpr less), result, Option.getD_some]

/-- The table `dict_expand` has made has as many buckets as `_dict_next_power` says. -/
theorem createdTable_size {d : Dict κ υ} {size : Nat} (expands : (dictExpand d size).1 = .osOk) :
    (createdTable d (dictExpand d size).2).size = dictNextPower size ∧
      (createdTable d (dictExpand d size).2).sizemask = dictNextPower size - 1 := by
  have free : ¬ (d.isRehashing ∨ size < d.ht0.used) := by
    intro refused
    rw [dictExpand, if_pos refused] at expands
    cases expands
  rw [createdTable, dictExpand]
  simp only [if_neg free]
  split <;> exact ⟨rfl, rfl⟩

/-! ## The indexes -/

namespace DictHt

variable {ht : DictHt κ υ} {k : Nat}

private theorem dictHtSize_mul (k : Nat) : dictHtSize * 2 ^ k = 2 ^ (k + 2) * 25 := by
  rw [pow_add, mul_assoc, mul_comm]
  rfl

theorem index_eq_iff (size : ht.size = dictHtSize * 2 ^ k) (mask : ht.sizemask = ht.size - 1) :
    (∀ h : UInt32, ht.index h = h.toNat % ht.size) ↔ 30 ≤ k := by
  have masks := @and_pred_eq_mod_iff 32 (k + 2) 25 rfl (by decide)
  rw [size, dictHtSize_mul] at mask
  rw [size, dictHtSize_mul, ← Nat.add_le_add_iff_right (n := 2), ← masks]
  unfold index
  rw [mask]
  constructor
  · intro all key inside
    have masked := all (UInt32.ofNat key)
    rwa [UInt32.toNat_ofNat_of_lt' inside] at masked
  · intro all h
    exact all h.toNat h.toNat_lt

theorem onto_iff (size : ht.size = dictHtSize * 2 ^ k) (mask : ht.sizemask = ht.size - 1) :
    (∀ i < min ht.size (2 ^ 32), ∃ h : UInt32, ht.index h = i) ↔ 30 ≤ k := by
  have onto := @and_pred_onto_iff 32 (k + 2) 25 rfl (by decide)
  rw [size, dictHtSize_mul] at mask
  rw [size, dictHtSize_mul, ← Nat.add_le_add_iff_right (n := 2), ← onto]
  unfold index
  rw [mask]
  constructor
  · intro all i below
    obtain ⟨h, here⟩ := all i below
    exact ⟨h.toNat, h.toNat_lt, here⟩
  · intro all i below
    obtain ⟨key, inside, here⟩ := all i below
    refine ⟨UInt32.ofNat key, ?_⟩
    rwa [UInt32.toNat_ofNat_of_lt' inside]

end DictHt

/-- The masked index is the hash modulo the size exactly in tables asked for with more than
`DICT_HT_SIZE * 2 ^ 29` buckets. -/
theorem indexIsModulo_iff {d : Dict κ υ} {size : Nat} (small : size < 2 ^ 60)
    (expands : (dictExpand d size).1 = .osOk) :
    (createdTable d (dictExpand d size).2).IndexIsModulo ↔ dictHtSize * 2 ^ 29 < size := by
  obtain ⟨buckets, mask⟩ := createdTable_size expands
  obtain ⟨k, power, large, least⟩ := dictNextPower_least (small.trans (by decide))
  rw [← buckets] at mask
  rw [power] at buckets
  have above : 30 ≤ k ↔ dictHtSize * 2 ^ 29 < size := by
    constructor
    · intro high
      exact least 29 high
    · intro more
      by_contra low
      have few : dictHtSize * 2 ^ k ≤ dictHtSize * 2 ^ 29 :=
        Nat.mul_le_mul_left _ (Nat.pow_le_pow_right Nat.two_pos (by omega))
      omega
  rw [← above]
  constructor
  · intro modulo
    exact (DictHt.index_eq_iff buckets mask).mp modulo.index_eq
  · intro high
    exact ⟨(DictHt.index_eq_iff buckets mask).mpr high, (DictHt.onto_iff buckets mask).mpr high⟩

theorem first_table_indexIsModulo_iff :
    (100 < 2 ^ 60 ∧ (dictExpand (dictCreate : Dict Unit Unit) 100).1 = .osOk) ∧
      ((createdTable dictCreate (dictExpand (dictCreate : Dict Unit Unit) 100).2).IndexIsModulo ↔
        dictHtSize * 2 ^ 29 < 100) :=
  ⟨by decide, indexIsModulo_iff (by decide) (by decide)⟩

/-- In the first table of a dict no hash has bucket 4, and the hash 4 has bucket 0. -/
theorem first_table_masks_four :
    (dictExpand (dictCreate : Dict Unit Unit) dictHtSize).1 = .osOk ∧
      (createdTable dictCreate
        (dictExpand (dictCreate : Dict Unit Unit) dictHtSize).2).index 4 = 0 ∧
      ¬ (createdTable dictCreate
        (dictExpand (dictCreate : Dict Unit Unit) dictHtSize).2).IndexIsModulo := by
  refine ⟨by decide, by decide, fun modulo => ?_⟩
  have four := modulo.index_eq 4
  revert four
  decide

end Dictionary
end OstrichServer
