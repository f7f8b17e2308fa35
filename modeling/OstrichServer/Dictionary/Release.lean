import OstrichServer.Dictionary.FiniteMap
import OstrichServer.Dictionary.Usage

/-!
# What the invariant of the dict is for

In every state that a dict can be brought to, `dict_rehash` returns, enough of its rounds end the
rehash, new entries do not go into the table that is being emptied, and `dict_release` frees each
entry once.
-/

namespace OstrichServer
namespace Dictionary

open Buckets

variable {κ υ : Type} {type : DictType κ} {d d' : Dict κ υ}

/-! ## Releasing -/

theorem clearChain_eq {chain : List (DictEntry κ υ)} (used : Nat) :
    clearChain chain used = (chain, used - chain.length) := by
  induction chain generalizing used with
  | nil => rfl
  | cons he henext induction =>
      rw [clearChain, induction, List.length_cons, Nat.sub_sub, Nat.add_comm 1]

/-- The loop over the buckets that are left frees what they hold, when `used` counts it. -/
theorem clearBuckets_eq (ht : DictHt κ υ) (rest i used : Nat)
    (counted : used = Multiset.card (contents rest fun j => ht.table (i + j))) :
    (clearBuckets ht rest i used : Multiset (DictEntry κ υ)) =
      contents rest fun j => ht.table (i + j) := by
  induction rest generalizing i used with
  | zero => rfl
  | succ rest induction =>
      rw [clearBuckets]
      split
      · rename_i none
        exact (Multiset.card_eq_zero.mp (counted.symm.trans none)).symm
      · have shift : (fun j => ht.table (i + (j + 1))) = fun j => ht.table (i + 1 + j) := by
          funext j
          rw [Nat.add_right_comm, Nat.add_assoc]
        rw [contents_succ, shift, Nat.add_zero] at counted ⊢
        rw [Multiset.card_add, Multiset.coe_card] at counted
        have left : used - (ht.table i).length =
            Multiset.card (contents rest fun j => ht.table (i + 1 + j)) := by
          omega
        simp only [clearChain_eq]
        rw [← Multiset.coe_add, induction _ _ left]
        rfl

theorem dictClear_eq {ht : DictHt κ υ} (wellFormed : ht.WellFormed type) :
    ((dictClear ht).1 : Multiset (DictEntry κ υ)) = ht.entries := by
  have whole : (fun j => ht.table (0 + j)) = ht.table := by
    funext j
    rw [Nat.zero_add]
  have freed := clearBuckets_eq ht ht.size 0 ht.used
  rw [whole] at freed
  exact freed wellFormed.used

/-- The entries that `dict_release` frees are those of the dict. -/
theorem dictRelease_eq (wellFormed : d.WellFormed type) :
    (dictRelease d : Multiset (DictEntry κ υ)) = d.entries := by
  rw [dictRelease, ← Multiset.coe_add, dictClear_eq wellFormed.ht0, dictClear_eq wellFormed.ht1]
  rfl

/-! ## Ending a rehash -/

theorem Dict.Sized.near (sized : d.Sized) : d.Near := by
  intro i far inside
  exact absurd (far.trans_lt inside) (Nat.not_lt.mpr sized.1)

theorem Rounds.near {k : Nat} (rounds : Rounds type d k d') (wellFormed : d.WellFormed type)
    (rehashing : d.rehashidx ≠ -1) (near : d.Near) : d'.Near :=
  (rounds.keeps (fun wellFormed rehashing moves near => moves.near wellFormed rehashing near)
    wellFormed rehashing near).2.2.2

/-- Every round takes an entry out of the first table. -/
theorem Rounds.used_add_le {k : Nat} (rounds : Rounds type d k d') (wellFormed : d.WellFormed type)
    (rehashing : d.rehashidx ≠ -1) : d'.ht0.used + k ≤ d.ht0.used := by
  induction rounds with
  | none d => exact le_rfl
  | more used moves rest induction =>
      obtain ⟨wellFormed', rehashing', -⟩ := moves.spec wellFormed rehashing
      have fewer := moves.used_lt wellFormed rehashing
      have others := induction wellFormed' rehashing'
      omega

/-- Calls of `dict_rehash` with these numbers of rounds. -/
def rehashAll (type : DictType κ) : Dict κ υ → List Nat → Option (Dict κ υ)
  | d, [] => some d
  | d, n :: counts => do
      let (_, d) ← dictRehash type d n
      rehashAll type d counts

theorem rehashAll_of_resting (resting : d.rehashidx = -1) (counts : List Nat) :
    rehashAll type d counts = some d := by
  induction counts with
  | nil => rfl
  | cons n counts induction =>
      have still : ¬ d.isRehashing = true := by
        rw [Dict.isRehashing_iff]
        exact not_not.mpr resting
      rw [rehashAll, dictRehash, if_neg still]
      exact induction

/-- A number of rounds larger than the number of entries in the first table ends the rehash. -/
theorem rehashAll_spec {counts : List Nat} (wellFormed : d.WellFormed type) (near : d.Near)
    (enough : d.ht0.used < counts.sum) :
    ∃ d', rehashAll type d counts = some d' ∧ d'.rehashidx = -1 := by
  induction counts generalizing d with
  | nil => exact absurd enough (Nat.not_lt_zero _)
  | cons n counts induction =>
      have fit : RoundsFit d.bucketsInUse n := Or.inl (Int.natCast_nonneg n)
      obtain ⟨out, final, result⟩ := exists_dictRehash wellFormed fun _ => ⟨near, fit⟩
      rw [List.sum_cons] at enough
      rw [rehashAll, result]
      change ∃ d', rehashAll type final counts = some d' ∧ d'.rehashidx = -1
      rcases dictRehash_cases result with ⟨resting, -, rfl⟩ | ⟨rehashing, k, d', rounds, ending⟩
      · exact ⟨final, rehashAll_of_resting resting counts, resting⟩
      · rcases ending with ⟨-, counted, rfl⟩ | ⟨-, -, -, -, rfl⟩
        · have moved := rounds.used_add_le wellFormed rehashing
          exact induction (dictRehash_keeps wellFormed result).1
            (rounds.near wellFormed rehashing near) (by omega)
        · exact ⟨d'.swapped, rehashAll_of_resting rfl counts, rfl⟩

/-! ## Inserting during a rehash -/

/-- An entry that is inserted during a rehash goes into the second table. -/
theorem dictAdd_rehashing (wellFormed : d.WellFormed type) {key : κ} {val : υ}
    (result : dictAdd type d key val = some (.osOk, d')) (rehash : d'.isRehashing = true) :
    d'.ht0 = d.ht0 ∧ d'.ht1.entries = { key, val } ::ₘ d.ht1.entries := by
  rcases dictAdd_cases wellFormed result with ⟨impossible, -⟩ | ⟨-, -, -, inserted⟩
  · cases impossible
  · have grown := grown_grown wellFormed
    have before : d.grown.isRehashing = true := by
      rw [Dict.isRehashing_iff] at rehash ⊢
      rw [← inserted.rehashidx]
      exact rehash
    obtain ⟨first, -, more⟩ := inserted.rehashing before
    have kept := grown.rehashing before
    refine ⟨first.trans kept, ?_⟩
    rw [more]
    congr 1
    have same := grown.entries
    rw [Dict.entries, Dict.entries, kept] at same
    exact add_left_cancel same

theorem dictAddRaw_entry {key : κ} {memory : υ} {entry : DictEntry κ υ}
    (result : dictAddRaw type d key memory = some (some entry, d')) :
    entry = { key, val := memory } := by
  rw [dictAddRaw] at result
  obtain ⟨⟨index, grown⟩, -, result⟩ := Option.bind_eq_some_iff.mp result
  simp only at result
  split at result
  · cases result
  · split at result
    · cases result
    · split at result
      · obtain ⟨ht1, -, result⟩ := Option.bind_eq_some_iff.mp result
        cases result
        rfl
      · obtain ⟨ht0, -, result⟩ := Option.bind_eq_some_iff.mp result
        cases result
        rfl

/-! ## Runs -/

/-- The representation of the dict in every run whose tables have indices that are `int`s. -/
theorem dict_representation
    (reachable : (usage type fun _ d' => d'.Sized).Reachable d) :
    d.WellFormed type ∧
      (∀ n : Nat, ∃ out d', dictRehash type d n = some (out, d')) ∧
      (∀ counts : List Nat, d.ht0.used < counts.sum →
        ∃ d', rehashAll type d counts = some d' ∧ d'.rehashidx = -1) ∧
      (∀ key memory entry d', dictAddRaw type d key memory = some (some entry, d') →
        d'.isRehashing = true → d'.ht0 = d.ht0 ∧ d'.ht1.entries = entry ::ₘ d.ht1.entries) ∧
      (dictRelease d : Multiset (DictEntry κ υ)) = d.entries := by
  have wellFormed := wellFormed_of_reachable reachable
  have near := (sized_of_reachable id reachable).near
  refine ⟨wellFormed, fun n => ?_, fun counts enough => rehashAll_spec wellFormed near enough,
    fun key memory entry d' result rehash => ?_, dictRelease_eq wellFormed⟩
  · exact exists_dictRehash wellFormed fun _ => ⟨near, Or.inl (Int.natCast_nonneg n)⟩
  · rw [dictAddRaw_entry result]
    exact dictAdd_rehashing wellFormed (dictAdd_of_addRaw result) rehash

/-- The run with a rehash is one of all operations that the predicate allows. -/
theorem dictRehashed_usage {allowed : Operation CString Nat → Dict CString Nat → Prop}
    (grows : ∀ operation d', operation.Grows → d'.Sized → allowed operation d') :
    (usage stringKeys allowed).Reachable dictWithThree ∧
      (usage stringKeys allowed).Reachable dictRehashed := by
  have start : (usage stringKeys allowed).Reachable dictCreate :=
    TransitionSystem.reachable_of_initial rfl
  have first : (usage stringKeys allowed).Reachable dictWithBC :=
    start.step ⟨.add keyBC 1, rfl, grows _ _ trivial (by decide)⟩
  have second : (usage stringKeys allowed).Reachable dictWithPair :=
    first.step ⟨.add keyCB 2, rfl, grows _ _ trivial (by decide)⟩
  have growing : (usage stringKeys allowed).Reachable dictGrowing :=
    second.step ⟨.expand 150, rfl, grows _ _ trivial (by decide)⟩
  have moving : (usage stringKeys allowed).Reachable dictMoving :=
    growing.step ⟨.rehash 1, rfl, grows _ _ trivial (by decide)⟩
  have third : (usage stringKeys allowed).Reachable dictWithThree :=
    moving.step ⟨.add letterM 3, rfl, grows _ _ trivial (by decide)⟩
  exact ⟨third, third.step ⟨.rehash 5, rfl, grows _ _ trivial (by decide)⟩⟩

/-- During a rehash with entries in both tables. -/
theorem dict_representation_three :
    dictWithThree.WellFormed stringKeys ∧
      (∃ d', rehashAll stringKeys dictWithThree [1, 1] = some d' ∧ d'.rehashidx = -1) ∧
      (∃ out d', dictRehash stringKeys dictWithThree 1 = some (out, d')) ∧
      (dictRelease dictWithThree : Multiset (DictEntry CString Nat)) = dictWithThree.entries := by
  obtain ⟨wellFormed, returns, ends, -, frees⟩ := dict_representation
    (dictRehashed_usage fun _ _ _ (sized : Dict.Sized _) => sized).1
  exact ⟨wellFormed, ends [1, 1] (by decide), returns 1, frees⟩

end Dictionary
end OstrichServer
