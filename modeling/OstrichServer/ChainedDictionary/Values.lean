import OstrichServer.ChainedDictionary.Operations
import OstrichServer.Foundations.KeyedLists

/-!
# The values of a key

A chained dictionary keeps the values of each key in the order of their insertions, the newest
first. Linking an entry puts its value in front, removal takes the first value away, and a rebuild
turns the values of every key around.
-/

namespace OstrichServer
namespace ChainedDictionary

open Dictionary KeyedLists

variable {υ : Type} {d : DictionaryT υ} {key key' : CString} {value : υ}

/-- The values stored for a key, in the order of its chain. -/
def DictionaryT.values (d : DictionaryT υ) (key : CString) : List υ :=
  (withKey DictionaryEntry.pszKey key (d.chain key)).map DictionaryEntry.pValue

/-- There are buckets for the hashes, and every entry is in the bucket of its key. -/
structure WellPlaced (d : DictionaryT υ) : Prop where
  size_pos : d.pEntries.isSome → 0 < d.iSize
  placed : ∀ chains, d.pEntries = some chains → ∀ i, ∀ entry ∈ chains i, d.iPos entry.pszKey = i

/-! ## Hashes -/

/-- `DictHash` gives the index of a bucket. -/
theorem dictHash_lt (key : CString) {size : Int32} (positive : 0 < size) :
    (dictHash key size).toNat < size.toNatClampNeg := by
  rw [Int32.lt_iff_toInt_lt, Int32.toInt_zero] at positive
  have nonneg : 0 ≤ size.toInt64 := by
    rw [Int64.le_iff_toInt_le, Int32.toInt_toInt64, Int64.toInt_zero]
    exact positive.le
  have positive' : 0 < size.toNatClampNeg := Int.lt_toNat.mpr positive
  rw [dictHash, UInt64.toNat_mod, Int64.toNat_toUInt64_of_le nonneg, Int32.toNatClampNeg_toInt64]
  exact Nat.mod_lt _ positive'

/-! ## Lookup -/

theorem valueForKey_eq_head? (d : DictionaryT υ) (key : CString) :
    dictionaryValueForKey d key = (d.values key).head? := by
  rw [dictionaryValueForKey, DictionaryT.values, DictionaryT.chain]
  cases d.pEntries with
  | none => rfl
  | some chains => rw [List.head?_map, withKey, List.head?_filter]

/-! ## Fresh dictionaries -/

theorem init_of_pos {size : Int32} (positive : 0 < size) :
    dictionaryInit υ size = ⟨size, some fun _ => []⟩ := by
  rw [dictionaryInit, if_pos positive]

theorem init_of_not_pos {size : Int32} (not_positive : ¬ 0 < size) :
    dictionaryInit υ size = ⟨size, none⟩ := by
  rw [dictionaryInit, if_neg not_positive]

theorem chain_init (size : Int32) (key : CString) : (dictionaryInit υ size).chain key = [] := by
  by_cases positive : 0 < size
  · rw [init_of_pos positive]
    rfl
  · rw [init_of_not_pos positive]
    rfl

theorem values_init (size : Int32) (key : CString) : (dictionaryInit υ size).values key = [] := by
  rw [DictionaryT.values, chain_init]
  rfl

theorem wellPlaced_init (υ : Type) (size : Int32) : WellPlaced (dictionaryInit υ size) := by
  by_cases positive : 0 < size
  · rw [init_of_pos positive]
    refine ⟨fun _ => positive, fun chains set i entry member => ?_⟩
    obtain rfl := Option.some.inj set
    cases member
  · rw [init_of_not_pos positive]
    constructor
    · intro set
      cases set
    · intro chains set
      cases set

theorem chain_withEntries (d : DictionaryT υ) (key : CString) :
    d.withEntries.chain key = d.chain key := by
  rw [DictionaryT.withEntries]
  split
  · next unset =>
      rw [chain_init, DictionaryT.chain, unset]
  · rfl

theorem wellPlaced_withEntries (wellPlaced : WellPlaced d) : WellPlaced d.withEntries := by
  rw [DictionaryT.withEntries]
  split
  · exact wellPlaced_init υ 1
  · exact wellPlaced

theorem exists_withEntries (d : DictionaryT υ) :
    ∃ chains, d.withEntries.pEntries = some chains := by
  rw [DictionaryT.withEntries]
  split
  · rw [init_of_pos (by decide)]
    exact ⟨_, rfl⟩
  · next chains set => exact ⟨chains, set⟩

/-! ## Changing the chain of a key -/

/-- A dictionary with another chain for a key. -/
def DictionaryT.setChain (d : DictionaryT υ) (key : CString)
    (change : List (DictionaryEntry υ) → List (DictionaryEntry υ)) : DictionaryT υ :=
  { d with
    pEntries := d.pEntries.map fun chains =>
      Function.update chains (d.iPos key) (change (chains (d.iPos key))) }

section SetChain

variable {change : List (DictionaryEntry υ) → List (DictionaryEntry υ)}

theorem chain_setChain_of_eq (set : d.pEntries.isSome) (same : d.iPos key' = d.iPos key) :
    (d.setChain key change).chain key' = change (d.chain key') := by
  obtain ⟨chains, set⟩ := Option.isSome_iff_exists.mp set
  rw [DictionaryT.chain, DictionaryT.setChain, DictionaryT.chain, set]
  change Function.update chains (d.iPos key) (change (chains (d.iPos key))) (d.iPos key') = _
  rw [same, Function.update_self]

theorem chain_setChain_of_ne (other : d.iPos key' ≠ d.iPos key) :
    (d.setChain key change).chain key' = d.chain key' := by
  rw [DictionaryT.chain, DictionaryT.setChain, DictionaryT.chain]
  cases d.pEntries with
  | none => rfl
  | some chains => exact Function.update_of_ne other ..

theorem wellPlaced_setChain (wellPlaced : WellPlaced d)
    (old : ∀ chain, ∀ entry ∈ change chain, entry ∈ chain ∨ entry.pszKey = key) :
    WellPlaced (d.setChain key change) := by
  obtain ⟨size_pos, placed⟩ := wellPlaced
  constructor
  · intro set
    rw [DictionaryT.setChain, Option.isSome_map] at set
    exact size_pos set
  · intro chains set i entry member
    rw [DictionaryT.setChain, Option.map_eq_some_iff] at set
    obtain ⟨chains', set, rfl⟩ := set
    change d.iPos entry.pszKey = i
    by_cases here : i = d.iPos key
    · subst here
      rw [Function.update_self] at member
      rcases old _ entry member with before | same
      · exact placed chains' set _ entry before
      · rw [same]
    · rw [Function.update_of_ne here] at member
      exact placed chains' set i entry member

end SetChain

/-! ## Linking and unlinking -/

theorem linkEntry_eq (d : DictionaryT υ) (key : CString) (value : υ) :
    linkEntry d key value = d.withEntries.setChain key (⟨key, value⟩ :: ·) := rfl

theorem remove_eq (d : DictionaryT υ) (key : CString) :
    dictionaryRemoveValueForKey d key =
      d.setChain key (eraseKey DictionaryEntry.pszKey key) := rfl

theorem wellPlaced_linkEntry (wellPlaced : WellPlaced d) (key : CString) (value : υ) :
    WellPlaced (linkEntry d key value) := by
  apply wellPlaced_setChain (wellPlaced_withEntries wellPlaced)
  intro chain entry member
  rcases List.mem_cons.mp member with rfl | before
  · exact .inr rfl
  · exact .inl before

theorem wellPlaced_remove (wellPlaced : WellPlaced d) (key : CString) :
    WellPlaced (dictionaryRemoveValueForKey d key) :=
  wellPlaced_setChain wellPlaced fun _ _ member => .inl (List.mem_of_mem_eraseP member)

/-- The values of all keys after an insertion of one: the new value comes first. -/
def DictionaryT.pushed (d : DictionaryT υ) (key : CString) (value : υ) (key' : CString) : List υ :=
  if key' = key then value :: d.values key' else d.values key'

theorem values_linkEntry (d : DictionaryT υ) (key : CString) (value : υ) (key' : CString) :
    (linkEntry d key value).values key' = d.pushed key value key' := by
  obtain ⟨chains, set⟩ := exists_withEntries d
  have isSome : d.withEntries.pEntries.isSome := by rw [set]; rfl
  rw [DictionaryT.pushed, linkEntry_eq, DictionaryT.values, DictionaryT.values,
    ← chain_withEntries d key']
  by_cases bucket : d.withEntries.iPos key' = d.withEntries.iPos key
  · rw [chain_setChain_of_eq isSome bucket]
    by_cases same : key' = key
    · rw [if_pos same, withKey_cons_of_eq same.symm, List.map_cons]
    · rw [if_neg same, withKey_cons_of_ne (Ne.symm same)]
  · have differ : key' ≠ key := fun same => bucket (by rw [same])
    rw [chain_setChain_of_ne bucket, if_neg differ]

/-- The values of all keys after a removal of one: its first value is gone. -/
def DictionaryT.popped (d : DictionaryT υ) (key key' : CString) : List υ :=
  if key' = key then (d.values key').tail else d.values key'

theorem values_remove (d : DictionaryT υ) (key key' : CString) :
    (dictionaryRemoveValueForKey d key).values key' = d.popped key key' := by
  rw [DictionaryT.popped, remove_eq, DictionaryT.values, DictionaryT.values]
  by_cases bucket : d.iPos key' = d.iPos key
  · cases set : d.pEntries with
    | none =>
        rw [DictionaryT.chain, DictionaryT.chain, DictionaryT.setChain, set]
        change ([] : List υ) = if key' = key then [] else []
        rw [ite_self]
    | some chains =>
        have isSome : d.pEntries.isSome := by rw [set]; rfl
        rw [chain_setChain_of_eq isSome bucket]
        by_cases same : key' = key
        · rw [if_pos same, same, withKey_eraseKey, List.map_tail]
        · rw [if_neg same, withKey_eraseKey_of_ne same]
  · have differ : key' ≠ key := fun same => bucket (by rw [same])
    rw [chain_setChain_of_ne bucket, if_neg differ]

/-! ## Rebuilding -/

/-- The entries with a key are those in its chain. -/
theorem withKey_entries (wellPlaced : WellPlaced d) (key : CString) :
    withKey DictionaryEntry.pszKey key d.entries =
      withKey DictionaryEntry.pszKey key (d.chain key) := by
  obtain ⟨size_pos, placed⟩ := wellPlaced
  rw [DictionaryT.entries, DictionaryT.chain]
  cases set : d.pEntries with
  | none => rfl
  | some chains =>
      apply withKey_flatMap_range (dictHash_lt key (size_pos (by rw [set]; rfl)))
      intro i elsewhere entry member same
      apply elsewhere
      rw [← placed chains set i entry member, same]
      rfl

/-- Linking entries one after another puts the values of each key in front in the opposite order. -/
theorem values_foldl_linkEntry (entries : List (DictionaryEntry υ)) (d : DictionaryT υ)
    (key : CString) :
    (entries.foldl (fun d entry => linkEntry d entry.pszKey entry.pValue) d).values key =
      ((withKey DictionaryEntry.pszKey key entries).map DictionaryEntry.pValue).reverse ++
        d.values key := by
  induction entries generalizing d with
  | nil => rfl
  | cons entry entries induction =>
      rw [List.foldl_cons, induction, values_linkEntry, DictionaryT.pushed]
      by_cases same : key = entry.pszKey
      · rw [if_pos same, withKey_cons_of_eq same.symm, List.map_cons, List.reverse_cons,
          List.append_assoc, same]
        rfl
      · rw [if_neg same, withKey_cons_of_ne (Ne.symm same)]

theorem wellPlaced_foldl_linkEntry (entries : List (DictionaryEntry υ))
    (wellPlaced : WellPlaced d) :
    WellPlaced (entries.foldl (fun d entry => linkEntry d entry.pszKey entry.pValue) d) := by
  induction entries generalizing d with
  | nil => exact wellPlaced
  | cons entry entries induction =>
      exact induction (wellPlaced_linkEntry wellPlaced entry.pszKey entry.pValue)

/-- A rebuild turns the values of every key around. -/
theorem values_rebuilt (wellPlaced : WellPlaced d) (key : CString) :
    (rebuilt d).values key = (d.values key).reverse := by
  rw [rebuilt, values_foldl_linkEntry, values_init, List.append_nil, withKey_entries wellPlaced]
  rfl

theorem wellPlaced_rebuilt (d : DictionaryT υ) : WellPlaced (rebuilt d) :=
  wellPlaced_foldl_linkEntry d.entries (wellPlaced_init υ (newSize d.iSize))

/-! ## Insertion -/

/-- An insertion rebuilds when there are three entries in the chain of its key. -/
def DictionaryT.Rebuilds (d : DictionaryT υ) (key : CString) : Prop := 3 ≤ (d.chain key).length

theorem chain_linkEntry (d : DictionaryT υ) (key : CString) (value : υ) :
    (linkEntry d key value).chain key = ⟨key, value⟩ :: d.chain key := by
  obtain ⟨chains, set⟩ := exists_withEntries d
  rw [linkEntry_eq, chain_setChain_of_eq (by rw [set]; rfl) rfl, chain_withEntries]

theorem rebuilds_iff (d : DictionaryT υ) (key : CString) (value : υ) :
    3 < ((linkEntry d key value).chain key).length ↔ d.Rebuilds key := by
  rw [chain_linkEntry, List.length_cons, DictionaryT.Rebuilds, Nat.lt_succ_iff]

theorem insert_of_rebuilds (rebuilds : d.Rebuilds key) (value : υ) :
    dictionaryInsertRebuild d key value true = rebuilt (linkEntry d key value) :=
  if_pos ⟨rfl, (rebuilds_iff d key value).mpr rebuilds⟩

theorem insert_of_not_rebuilds (not_rebuilds : ¬ d.Rebuilds key) (value : υ) :
    dictionaryInsertRebuild d key value true = linkEntry d key value :=
  if_neg fun grown => not_rebuilds ((rebuilds_iff d key value).mp grown.2)

theorem insert_without_rebuild (d : DictionaryT υ) (key : CString) (value : υ) :
    dictionaryInsertRebuild d key value false = linkEntry d key value := by
  simp [dictionaryInsertRebuild]

theorem wellPlaced_call (wellPlaced : WellPlaced d) (rebuild : Bool) (c : Call υ) :
    WellPlaced (call rebuild d c) := by
  cases c with
  | insert key value =>
      rw [call, dictionaryInsertRebuild]
      split
      · exact wellPlaced_rebuilt _
      · exact wellPlaced_linkEntry wellPlaced key value
  | remove key => exact wellPlaced_remove wellPlaced key

/-- Every dictionary that calls lead to is well placed. -/
theorem wellPlaced_callAll (wellPlaced : WellPlaced d) (rebuild : Bool) (calls : List (Call υ)) :
    WellPlaced (callAll rebuild d calls) := by
  induction calls generalizing d with
  | nil => exact wellPlaced
  | cons c calls induction => exact induction (wellPlaced_call wellPlaced rebuild c)

end ChainedDictionary
end OstrichServer
