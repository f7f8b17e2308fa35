import OstrichServer.ChainedDictionary.Values

/-!
# Membership and counting

The number of entries follows the insertions and the removals that find their key, through rebuilds.
`dictionary_has_key` looks at the bucket of a key and not at the keys in it, so that it agrees with
lookup exactly for keys that are stored or share their bucket with no stored key.
-/

namespace OstrichServer
namespace ChainedDictionary

open Dictionary KeyedLists

variable {υ : Type} {d : DictionaryT υ} {key : CString} {value : υ}

/-- How many calls are insertions. -/
def inserts : List (Call υ) → Nat
  | [] => 0
  | .insert _ _ :: calls => inserts calls + 1
  | .remove _ :: calls => inserts calls

/-- How many removals of a run find their key. -/
def removesFound : DictionaryT υ → List (Call υ) → Nat
  | _, [] => 0
  | d, .insert key value :: calls => removesFound (call true d (.insert key value)) calls
  | d, .remove key :: calls =>
      (if (dictionaryValueForKey d key).isSome then 1 else 0) +
        removesFound (call true d (.remove key)) calls

/-! ## Counting -/

/-- A counter of type `int` that has counted one more. -/
theorem ofNat_succ (n : Nat) : Int32.ofNat (n + 1) = Int32.ofNat n + 1 := Int32.ofNat_add n 1

private theorem count_chain (chain : List (DictionaryEntry υ)) (count : Nat) :
    chain.foldl (fun count _ => count + 1) (Int32.ofNat count) =
      Int32.ofNat (count + chain.length) := by
  induction chain generalizing count with
  | nil => rfl
  | cons entry chain induction =>
      rw [List.foldl_cons, ← ofNat_succ, induction, List.length_cons, Nat.add_assoc, Nat.add_comm 1]

private theorem count_chains (chains : Nat → List (DictionaryEntry υ)) (size : Nat) :
    (List.range size).foldl (fun count i => (chains i).foldl (fun count _ => count + 1) count) 0 =
      Int32.ofNat ((List.range size).flatMap chains).length := by
  induction size with
  | zero => rfl
  | succ size induction =>
      rw [List.range_succ, List.foldl_append, induction, List.flatMap_append, List.length_append,
        List.foldl_cons, List.foldl_nil, count_chain, List.flatMap_singleton]

/-- `dictionary_keys_count` counts the entries. -/
theorem keysCount_eq (d : DictionaryT υ) :
    dictionaryKeysCount d = Int32.ofNat d.entries.length := by
  rw [dictionaryKeysCount, DictionaryT.entries]
  cases d.pEntries with
  | none => rfl
  | some chains => exact count_chains chains d.iSize.toNatClampNeg

theorem entries_init (size : Int32) : (dictionaryInit υ size).entries = [] := by
  by_cases positive : 0 < size
  · rw [init_of_pos positive]
    exact List.flatMap_eq_nil_iff.mpr fun _ _ => rfl
  · rw [init_of_not_pos positive]
    rfl

theorem entries_withEntries (d : DictionaryT υ) : d.withEntries.entries = d.entries := by
  rw [DictionaryT.withEntries]
  split
  · next unset => rw [entries_init, DictionaryT.entries, unset]
  · rfl

/-- Exchanging the chain of a key. -/
theorem length_entries_setChain (wellPlaced : WellPlaced d) (set : d.pEntries.isSome)
    (key : CString) (change : List (DictionaryEntry υ) → List (DictionaryEntry υ)) :
    (d.setChain key change).entries.length + (d.chain key).length =
      d.entries.length + (change (d.chain key)).length := by
  have inside := dictHash_lt key (wellPlaced.size_pos set)
  obtain ⟨chains, set⟩ := Option.isSome_iff_exists.mp set
  have exchanged : (Buckets.contents d.iSize.toNatClampNeg
      (Function.update chains (d.iPos key) (change (chains (d.iPos key)))) +
        (chains (d.iPos key) : Multiset (DictionaryEntry υ))).card = _ :=
    congrArg Multiset.card (Buckets.contents_update inside (change (chains (d.iPos key))))
  rw [Multiset.card_add, Multiset.card_add, Buckets.contents_eq_flatMap,
    Buckets.contents_eq_flatMap] at exchanged
  rw [DictionaryT.entries, DictionaryT.setChain, DictionaryT.entries, DictionaryT.chain, set]
  exact exchanged

theorem length_entries_linkEntry (wellPlaced : WellPlaced d) (key : CString) (value : υ) :
    (linkEntry d key value).entries.length = d.entries.length + 1 := by
  obtain ⟨chains, set⟩ := exists_withEntries d
  have exchanged := length_entries_setChain (wellPlaced_withEntries wellPlaced)
    (by rw [set]; rfl) key (⟨key, value⟩ :: ·)
  rw [entries_withEntries, List.length_cons, ← linkEntry_eq] at exchanged
  omega

theorem length_entries_rebuilt (d : DictionaryT υ) :
    (rebuilt d).entries.length = d.entries.length := by
  have linked (entries : List (DictionaryEntry υ)) {d : DictionaryT υ} (placed : WellPlaced d) :
      (entries.foldl (fun d entry => linkEntry d entry.pszKey entry.pValue) d).entries.length =
        d.entries.length + entries.length := by
    induction entries generalizing d with
    | nil => rfl
    | cons entry entries induction =>
        rw [List.foldl_cons,
          induction (wellPlaced_linkEntry placed entry.pszKey entry.pValue),
          length_entries_linkEntry placed, List.length_cons]
        omega
  rw [rebuilt, linked _ (wellPlaced_init υ (newSize d.iSize)), entries_init, List.length_nil,
    Nat.zero_add]

theorem length_entries_insert (wellPlaced : WellPlaced d) (key : CString) (value : υ) :
    (dictionaryInsertRebuild d key value true).entries.length = d.entries.length + 1 := by
  by_cases rebuilds : d.Rebuilds key
  · rw [insert_of_rebuilds rebuilds, length_entries_rebuilt, length_entries_linkEntry wellPlaced]
  · rw [insert_of_not_rebuilds rebuilds, length_entries_linkEntry wellPlaced]

/-- A removal takes one entry when its key is found, and none otherwise. -/
theorem length_entries_remove (wellPlaced : WellPlaced d) (key : CString) :
    (dictionaryRemoveValueForKey d key).entries.length +
      (if (dictionaryValueForKey d key).isSome then 1 else 0) = d.entries.length := by
  have found : (dictionaryValueForKey d key).isSome ↔
      withKey DictionaryEntry.pszKey key (d.chain key) ≠ [] := by
    rw [valueForKey_eq_head?, List.isSome_head?, DictionaryT.values]
    simp
  have erased : (eraseKey DictionaryEntry.pszKey key (d.chain key)).length +
      (if withKey DictionaryEntry.pszKey key (d.chain key) = [] then 0 else 1) =
        (d.chain key).length := length_eraseKey key (d.chain key)
  have counted : (if (dictionaryValueForKey d key).isSome then 1 else 0) =
      if withKey DictionaryEntry.pszKey key (d.chain key) = [] then 0 else 1 := by
    by_cases unset : withKey DictionaryEntry.pszKey key (d.chain key) = []
    · rw [if_pos unset, if_neg (fun isSome => found.mp isSome unset)]
    · rw [if_neg unset, if_pos (found.mpr unset)]
  rw [counted, remove_eq]
  cases set : d.pEntries with
  | none =>
      rw [DictionaryT.entries, DictionaryT.setChain, DictionaryT.entries, DictionaryT.chain, set]
      rfl
  | some chains =>
      have exchanged := length_entries_setChain wellPlaced (by rw [set]; rfl) key
        (eraseKey DictionaryEntry.pszKey key)
      omega

/-- There are as many entries as insertions without the removals that found their key. -/
theorem length_entries_callAll (wellPlaced : WellPlaced d) (calls : List (Call υ)) :
    (callAll true d calls).entries.length + removesFound d calls =
      d.entries.length + inserts calls := by
  induction calls generalizing d with
  | nil => rfl
  | cons c calls induction =>
      have later := induction (wellPlaced_call wellPlaced true c)
      cases c with
      | insert key value =>
          rw [call, length_entries_insert wellPlaced] at later
          rw [removesFound, inserts]
          exact later.trans (by omega)
      | remove key =>
          have removed := length_entries_remove wellPlaced key
          rw [call] at later
          rw [removesFound, inserts]
          change (callAll true (call true d (.remove key)) calls).entries.length + _ = _
          rw [call]
          omega

/-! ## Membership -/

theorem hasKey_ne_zero_iff (d : DictionaryT υ) (key : CString) :
    dictionaryHasKey d key ≠ 0 ↔ d.chain key ≠ [] := by
  rw [dictionaryHasKey, DictionaryT.chain]
  cases d.pEntries with
  | none => exact iff_of_false (not_not.mpr rfl) (not_not.mpr rfl)
  | some chains => simp

theorem valueForKey_ne_none_iff (d : DictionaryT υ) (key : CString) :
    dictionaryValueForKey d key ≠ none ↔ withKey DictionaryEntry.pszKey key (d.chain key) ≠ [] := by
  rw [valueForKey_eq_head?, Ne, List.head?_eq_none_iff, DictionaryT.values, List.map_eq_nil_iff]

/-- The entries of a dictionary are those found in the chains of their keys. -/
theorem mem_entries_iff (wellPlaced : WellPlaced d) {entry : DictionaryEntry υ} :
    entry ∈ d.entries ↔ entry ∈ d.chain entry.pszKey := by
  obtain ⟨size_pos, placed⟩ := wellPlaced
  rw [DictionaryT.entries, DictionaryT.chain]
  cases set : d.pEntries with
  | none => exact Iff.rfl
  | some chains =>
      constructor
      · intro member
        obtain ⟨i, _, inside⟩ := List.mem_flatMap.mp member
        rw [placed chains set i entry inside]
        exact inside
      · intro member
        have less := dictHash_lt entry.pszKey (size_pos (by rw [set]; rfl))
        exact List.mem_flatMap.mpr ⟨_, List.mem_range.mpr less, member⟩

theorem exists_entry_iff (wellPlaced : WellPlaced d) (key : CString) :
    (∃ entry ∈ d.entries, entry.pszKey = key) ↔
      withKey DictionaryEntry.pszKey key (d.chain key) ≠ [] := by
  rw [← withKey_entries wellPlaced, withKey, Ne, List.filter_eq_nil_iff]
  push Not
  simp

theorem chain_eq_nil_iff (wellPlaced : WellPlaced d) (key : CString) :
    d.chain key = [] ↔ ∀ entry ∈ d.entries, d.iPos entry.pszKey ≠ d.iPos key := by
  have chain_congr {key' : CString} (same : d.iPos key' = d.iPos key) :
      d.chain key' = d.chain key := by
    rw [DictionaryT.chain, DictionaryT.chain, same]
  constructor
  · intro empty entry member bucket
    rw [mem_entries_iff wellPlaced, chain_congr bucket, empty] at member
    cases member
  · intro elsewhere
    by_contra more
    obtain ⟨entry, member⟩ := List.exists_mem_of_ne_nil _ more
    have bucket : d.iPos entry.pszKey = d.iPos key := by
      rw [DictionaryT.chain] at member
      cases set : d.pEntries with
      | none =>
          rw [set] at member
          cases member
      | some chains =>
          rw [set] at member
          exact wellPlaced.placed chains set _ entry member
    apply elsewhere entry _ bucket
    rw [mem_entries_iff wellPlaced, chain_congr bucket]
    exact member

/-- The dictionary that calls on a fresh one lead to. -/
def reached (size : Int32) (calls : List (Call υ)) : DictionaryT υ :=
  callAll true (dictionaryInit υ size) calls

/-- Membership, lookup and counting agree about a key after calls on a fresh dictionary. -/
structure Agree (size : Int32) (calls : List (Call υ)) (key : CString) : Prop where
  membership : dictionaryHasKey (reached size calls) key ≠ 0 ↔
    dictionaryValueForKey (reached size calls) key ≠ none
  placed : ∀ chains, (reached size calls).pEntries = some chains → ∀ i, ∀ entry ∈ chains i,
    (dictHash entry.pszKey (reached size calls).iSize).toNat = i
  count : (dictionaryKeysCount (reached size calls)).toInt +
    removesFound (dictionaryInit υ size) calls = inserts calls

/-- They agree exactly about keys that are stored, or have no stored key in their bucket, when an
`int` can count the entries. -/
theorem agree_iff (size : Int32) (calls : List (Call υ)) (key : CString) :
    Agree size calls key ↔
      (reached size calls).entries.length < 2 ^ 31 ∧
      ((∃ entry ∈ (reached size calls).entries, entry.pszKey = key) ∨
        ∀ entry ∈ (reached size calls).entries,
          (reached size calls).iPos entry.pszKey ≠ (reached size calls).iPos key) := by
  have fresh := wellPlaced_init υ size
  have wellPlaced : WellPlaced (reached size calls) := wellPlaced_callAll fresh true calls
  have counted := length_entries_callAll fresh calls
  rw [entries_init, List.length_nil, Nat.zero_add] at counted
  change (reached size calls).entries.length + _ = _ at counted
  rw [exists_entry_iff wellPlaced, ← chain_eq_nil_iff wellPlaced]
  constructor
  · intro agree
    have few : (reached size calls).entries.length < 2 ^ 31 := by
      have count := agree.count
      have below := Int32.toInt_lt (dictionaryKeysCount (reached size calls))
      omega
    refine ⟨few, ?_⟩
    by_contra neither
    push Not at neither
    obtain ⟨absent, shared⟩ := neither
    have present := agree.membership.mp ((hasKey_ne_zero_iff _ key).mpr shared)
    exact (valueForKey_ne_none_iff _ key).mp present absent
  · rintro ⟨few, condition⟩
    refine ⟨?_, wellPlaced.placed, ?_⟩
    · rw [hasKey_ne_zero_iff, valueForKey_ne_none_iff]
      rcases condition with stored | unshared
      · refine iff_of_true (fun empty => stored ?_) stored
        rw [empty]
        rfl
      · rw [unshared]
        exact iff_of_false (not_not.mpr rfl) (not_not.mpr rfl)
    · rw [keysCount_eq, Int32.toInt_ofNat_of_lt few]
      exact_mod_cast counted

/-- A dictionary with `"a"` has one bucket, which it takes for the one of `"b"`. -/
theorem not_agree_absent :
    dictionaryHasKey (reached 0 [Call.insert ⟨[97], by decide⟩ 1]) ⟨[98], by decide⟩ = 1 ∧
    dictionaryValueForKey (reached 0 [Call.insert ⟨[97], by decide⟩ 1]) ⟨[98], by decide⟩ = none ∧
    ¬ Agree 0 [Call.insert ⟨[97], by decide⟩ 1] ⟨[98], by decide⟩ := by
  have has :
      dictionaryHasKey (reached 0 [Call.insert ⟨[97], by decide⟩ 1]) ⟨[98], by decide⟩ = 1 := by
    decide +kernel
  have absent : dictionaryValueForKey (reached 0 [Call.insert ⟨[97], by decide⟩ 1])
      ⟨[98], by decide⟩ = none := by
    decide +kernel
  refine ⟨has, absent, fun agree => ?_⟩
  apply agree.membership.mp _ absent
  rw [has]
  exact one_ne_zero

end ChainedDictionary
end OstrichServer
