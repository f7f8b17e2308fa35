import OstrichServer.Dictionary.FiniteMap
import OstrichServer.Dictionary.LookupOrder
import OstrichServer.Dictionary.Load

/-!
# Different keys added to a new dict

A key whose bucket holds another one is refused, so of different keys added one after the other only
the first of each bucket is stored.  A table with one entry in a bucket is never full enough to
grow.
-/

namespace OstrichServer
namespace Dictionary

variable {κ υ : Type} {type : DictType κ} {entries : List (DictEntry κ υ)} {d : Dict κ υ}

/-- The bucket of a key in the first table. -/
def firstBucket (type : DictType κ) (key : κ) : Nat := (type.hash key).toNat &&& 99

/-- `dict_add` for one entry after the other, whatever it returns. -/
def dictAddAll (type : DictType κ) : List (DictEntry κ υ) → Dict κ υ → Option (Dict κ υ)
  | [], d => some d
  | entry :: entries, d => do
      let (_, d) ← dictAdd type d entry.key entry.val
      dictAddAll type entries d

/-- The first entry in a bucket. -/
def firstIn (type : DictType κ) (entries : List (DictEntry κ υ)) (idx : Nat) :
    Option (DictEntry κ υ) :=
  entries.find? fun entry => firstBucket type entry.key = idx

/-- The dict has its first table, which holds the first entry of each bucket. -/
structure Shelved (type : DictType κ) (entries : List (DictEntry κ υ)) (d : Dict κ υ) : Prop where
  rehashidx : d.rehashidx = -1
  size : d.ht0.size = 100
  sizemask : d.ht0.sizemask = 99
  table : ∀ idx, d.ht0.table idx = (firstIn type entries idx).toList
  used : d.ht0.used = (entries.map fun entry => firstBucket type entry.key).toFinset.card

theorem firstBucket_lt (key : κ) : firstBucket type key < 100 :=
  Nat.lt_succ_of_le Nat.and_le_right

theorem Shelved.used_le (shelved : Shelved type entries d) : d.ht0.used ≤ 100 := by
  rw [shelved.used]
  calc
    _ ≤ (Finset.range 100).card := by
      apply Finset.card_le_card
      intro idx member
      obtain ⟨entry, -, rfl⟩ := List.mem_map.mp (List.mem_toFinset.mp member)
      exact Finset.mem_range.mpr (firstBucket_lt entry.key)
    _ = 100 := Finset.card_range 100

theorem Shelved.not_rehashing (shelved : Shelved type entries d) : d.isRehashing = false :=
  Dict.isRehashing_eq_false_iff.mpr shelved.rehashidx

theorem Shelved.index (shelved : Shelved type entries d) (key : κ) :
    d.ht0.index (type.hash key) = firstBucket type key := by
  rw [DictHt.index, shelved.sizemask]
  rfl

theorem Shelved.bucket (shelved : Shelved type entries d) (key : κ) :
    d.ht0.bucket (d.ht0.index (type.hash key)) =
      some (firstIn type entries (firstBucket type key)).toList := by
  rw [shelved.index, DictHt.bucket, shelved.size, if_pos (firstBucket_lt key), shelved.table]

/-- A dict with few entries does not grow. -/
theorem Shelved.dictExpandIfNeeded (shelved : Shelved type entries d) :
    dictExpandIfNeeded d = (.osOk, d) := by
  have some_buckets : ¬ d.ht0.size = 0 := by rw [shelved.size]; decide
  have light : ¬ (d.ht0.size ≤ d.ht0.used ∧ dictResizeRatio < d.ht0.used / d.ht0.size) := by
    have few := shelved.used_le
    rw [shelved.size]
    simp only [dictResizeRatio]
    omega
  rw [Dictionary.dictExpandIfNeeded, shelved.not_rehashing, if_neg Bool.false_ne_true,
    if_neg some_buckets, if_neg light]

/-- A new dict grows to its first table. -/
theorem exists_dictExpandIfNeeded_create :
    ∃ d : Dict κ υ, dictExpandIfNeeded dictCreate = (.osOk, d) ∧ Shelved type [] d := by
  refine ⟨_, rfl, rfl, dictNextPower_first, ?_, fun _ => rfl, rfl⟩
  change dictNextPower dictHtSize - 1 = 99
  rw [dictNextPower_first]

/-- A dict in which keys were added to a new one. -/
def Collects (type : DictType κ) (entries : List (DictEntry κ υ)) (d : Dict κ υ) : Prop :=
  d = dictCreate ∧ entries = [] ∨ Shelved type entries d

theorem Collects.exists_dictExpandIfNeeded (collects : Collects type entries d) :
    ∃ d', Dictionary.dictExpandIfNeeded d = (.osOk, d') ∧ Shelved type entries d' := by
  rcases collects with ⟨rfl, rfl⟩ | shelved
  · exact exists_dictExpandIfNeeded_create
  · exact ⟨d, shelved.dictExpandIfNeeded, shelved⟩

theorem firstIn_concat (entry : DictEntry κ υ) (idx : Nat) :
    firstIn type (entries ++ [entry]) idx =
      (firstIn type entries idx).or
        (if firstBucket type entry.key = idx then some entry else none) := by
  rw [firstIn, List.find?_append, List.find?_singleton]
  simp only [decide_eq_true_eq]
  rfl

/-- The bucket of the new key is taken. -/
theorem Shelved.concat_of_taken (shelved : Shelved type entries d) {entry first : DictEntry κ υ}
    (taken : firstIn type entries (firstBucket type entry.key) = some first) :
    Shelved type (entries ++ [entry]) d := by
  refine ⟨shelved.rehashidx, shelved.size, shelved.sizemask, fun idx => ?_, ?_⟩
  · rw [firstIn_concat, shelved.table]
    split
    · rename_i same
      rw [← same, taken]
      rfl
    · rw [Option.or_none]
  · have listed : firstBucket type entry.key ∈
        (entries.map fun entry => firstBucket type entry.key).toFinset := by
      have here : firstBucket type first.key = firstBucket type entry.key := by
        simpa using List.find?_some taken
      rw [List.mem_toFinset, ← here]
      exact List.mem_map_of_mem (List.mem_of_find?_eq_some taken)
    rw [shelved.used, List.map_append, List.toFinset_append, List.map_singleton,
      List.toFinset_cons, List.toFinset_nil, insert_empty_eq, Finset.union_singleton,
      Finset.insert_eq_of_mem listed]

/-- The bucket of the new key is empty. -/
theorem Shelved.concat_of_free (shelved : Shelved type entries d) {entry : DictEntry κ υ}
    (free : firstIn type entries (firstBucket type entry.key) = none) :
    ∃ ht0, d.ht0.push (firstBucket type entry.key) entry = some ht0 ∧
      Shelved type (entries ++ [entry]) { d with ht0 } := by
  have inside : firstBucket type entry.key < d.ht0.size := by
    rw [shelved.size]
    exact firstBucket_lt entry.key
  refine ⟨_, if_pos inside, shelved.rehashidx, shelved.size, shelved.sizemask, fun idx => ?_, ?_⟩
  · rw [firstIn_concat]
    change Function.update d.ht0.table _ _ idx = _
    by_cases here : firstBucket type entry.key = idx
    · rw [← here, Function.update_self, shelved.table, free, if_pos rfl]
      rfl
    · rw [Function.update_of_ne (Ne.symm here), shelved.table, if_neg here, Option.or_none]
  · have fresh : firstBucket type entry.key ∉
        (entries.map fun entry => firstBucket type entry.key).toFinset := by
      rw [List.mem_toFinset, List.mem_map]
      rintro ⟨other, member, same⟩
      exact absurd same
        (of_decide_eq_false (by simpa using List.find?_eq_none.mp free other member))
    change d.ht0.used + 1 = _
    rw [shelved.used, List.map_append, List.toFinset_append, List.map_singleton,
      List.toFinset_cons, List.toFinset_nil, insert_empty_eq, Finset.union_singleton,
      Finset.card_insert_of_notMem fresh]

/-- `dict_add` of a key that differs from those before it. -/
theorem Collects.dictAdd (collects : Collects type entries d) (entry : DictEntry κ υ)
    (differs : ∀ other ∈ entries, type.keyCmp entry.key other.key ≠ 0) :
    ∃ status d', Dictionary.dictAdd type d entry.key entry.val = some (status, d') ∧
      Collects type (entries ++ [entry]) d' := by
  obtain ⟨grown, expanded, shelved⟩ := collects.exists_dictExpandIfNeeded
  cases found : firstIn type entries (firstBucket type entry.key) with
  | some first =>
      have refused : refuses type entry.key [first] = true := by
        have other := differs first (List.mem_of_find?_eq_some found)
        simp [refuses, other]
      have index : dictKeyIndex type d entry.key = some (-1, grown) := by
        rw [dictKeyIndex, expanded]
        simp [shelved.bucket, found, refused]
      refine ⟨.osErr, grown, ?_, Or.inr (shelved.concat_of_taken found)⟩
      rw [Dictionary.dictAdd, index]
      rfl
  | none =>
      obtain ⟨ht0, pushed, stored⟩ := shelved.concat_of_free found
      have small : firstBucket type entry.key ≤ intMax :=
        (firstBucket_lt entry.key).le.trans (by decide)
      have index : dictKeyIndex type d entry.key =
          some ((firstBucket type entry.key : Int), grown) := by
        have empty := shelved.bucket entry.key
        rw [shelved.index, found, Option.toList_none] at empty
        rw [dictKeyIndex, expanded]
        simp [empty, refuses, shelved.not_rehashing, shelved.index, toInt_of_le small]
      refine ⟨.osOk, { grown with ht0 }, ?_, Or.inr stored⟩
      have valid : ¬ (firstBucket type entry.key : Int) = -1 := by omega
      rw [Dictionary.dictAdd, index]
      simp [valid, shelved.not_rehashing, pushed]

/-- `dict_find` gives the first entry of the bucket, if that has the key. -/
theorem Collects.dictFind (collects : Collects type entries d) (key : κ) :
    Dictionary.dictFind type d key =
      some ((firstIn type entries (firstBucket type key)).filter fun entry =>
        type.keyCmp key entry.key = 0) := by
  rcases collects with ⟨rfl, rfl⟩ | shelved
  · rfl
  · have some_buckets : ¬ d.ht0.size = 0 := by rw [shelved.size]; decide
    rw [Dictionary.dictFind, if_neg some_buckets]
    simp only [shelved.bucket, shelved.not_rehashing]
    cases firstIn type entries (firstBucket type key) with
    | none => rfl
    | some entry =>
        by_cases same : type.keyCmp key entry.key = 0 <;> simp [findIn, same, Option.filter]

/-- Different keys added to a new dict. -/
theorem exists_dictAddAll (different : entries.Pairwise fun entry other =>
      type.keyCmp other.key entry.key ≠ 0) :
    ∃ d, dictAddAll type entries dictCreate = some d ∧ Collects type entries d := by
  have adds : ∀ before d, Collects type before d →
      (before ++ entries).Pairwise (fun entry other => type.keyCmp other.key entry.key ≠ 0) →
      ∃ d', dictAddAll type entries d = some d' ∧ Collects type (before ++ entries) d' := by
    clear different
    induction entries with
    | nil =>
        intro before d collects _
        rw [List.append_nil]
        exact ⟨d, rfl, collects⟩
    | cons entry entries induction =>
        intro before d collects different
        have differs : ∀ other ∈ before, type.keyCmp entry.key other.key ≠ 0 := by
          intro other member
          exact (List.pairwise_append.mp different).2.2 other member entry List.mem_cons_self
        obtain ⟨status, d', added, more⟩ := collects.dictAdd entry differs
        rw [List.append_cons] at different ⊢
        obtain ⟨d'', rest, all⟩ := induction _ _ more different
        refine ⟨d'', ?_, all⟩
        rw [dictAddAll, added]
        exact rest
  exact adds [] dictCreate (Or.inl ⟨rfl, rfl⟩) different

end Dictionary
end OstrichServer
