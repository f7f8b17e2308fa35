import Mathlib.Algebra.BigOperators.Group.Finset.Basic
import Mathlib.Tactic

/-!
# Chained buckets

The elements in the chains of a table of buckets, as a multiset, and what changing one chain does to
them.
-/

namespace Buckets

variable {α : Type*}

/-- All elements of the first `size` chains. -/
def contents (size : Nat) (chains : Nat → List α) : Multiset α :=
  ∑ i ∈ Finset.range size, (chains i : Multiset α)

variable {size i : Nat} {chains : Nat → List α}

theorem mem_contents {a : α} : a ∈ contents size chains ↔ ∃ i < size, a ∈ chains i := by
  simp [contents, Multiset.mem_sum]

theorem contents_eq_zero (empty : ∀ i < size, chains i = []) : contents size chains = 0 := by
  refine Finset.sum_eq_zero fun i inside => ?_
  rw [empty i (Finset.mem_range.mp inside)]
  rfl

/-- The chains one after another. -/
theorem contents_eq_flatMap (size : Nat) (chains : Nat → List α) :
    contents size chains = ((List.range size).flatMap chains : List α) := by
  induction size with
  | zero => rfl
  | succ size induction =>
      rw [contents, Finset.sum_range_succ, ← contents, induction, List.range_succ,
        List.flatMap_append, List.flatMap_singleton, Multiset.coe_add]

/-- The first chain and the others. -/
theorem contents_succ (size : Nat) (chains : Nat → List α) :
    contents (size + 1) chains =
      (chains 0 : Multiset α) + contents size fun i => chains (i + 1) := by
  rw [contents, contents, Finset.sum_range_succ', add_comm]

theorem exists_chain_of_contents (more : contents size chains ≠ 0) : ∃ i < size, chains i ≠ [] := by
  by_contra none
  push Not at none
  exact more (contents_eq_zero none)

/-- Exchanging one chain. -/
theorem contents_update (inside : i < size) (chain : List α) :
    contents size (Function.update chains i chain) + (chains i : Multiset α) =
      contents size chains + (chain : Multiset α) := by
  have member : i ∈ Finset.range size := Finset.mem_range.mpr inside
  have others : ∑ j ∈ (Finset.range size).erase i,
      (Function.update chains i chain j : Multiset α) =
        ∑ j ∈ (Finset.range size).erase i, (chains j : Multiset α) := by
    refine Finset.sum_congr rfl fun j other => ?_
    rw [Function.update_of_ne (Finset.ne_of_mem_erase other)]
  rw [contents, contents, ← Finset.add_sum_erase _ _ member, ← Finset.add_sum_erase _ _ member,
    others, Function.update_self]
  abel

/-- An element put in front of a chain. -/
theorem contents_push (inside : i < size) (a : α) :
    contents size (Function.update chains i (a :: chains i)) = a ::ₘ contents size chains := by
  have exchanged : contents size (Function.update chains i (a :: chains i)) + _ = _ :=
    contents_update inside (a :: chains i)
  rw [← Multiset.cons_coe, Multiset.add_cons, ← Multiset.cons_add] at exchanged
  exact add_right_cancel exchanged

/-- A chain taken out. -/
theorem contents_clear (inside : i < size) :
    contents size (Function.update chains i []) + (chains i : Multiset α) =
      contents size chains := by
  rw [contents_update inside, Multiset.coe_nil, add_zero]

end Buckets
