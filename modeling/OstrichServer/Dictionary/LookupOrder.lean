import OstrichServer.Dictionary.Release

/-!
# When rehashing is invisible to lookups

Lookup takes the first entry with a key, in the chain of the first table and then in that of the
second.  A round of `dict_rehash` puts the entries of a chain in front of the chains they go to, one
by one, and so in reverse.
-/

namespace OstrichServer
namespace Dictionary

variable {κ υ : Type} {type : DictType κ} {d d' : Dict κ υ}

/-- The value that `dict_find` leads to. -/
def lookup (type : DictType κ) (d : Dict κ υ) (key : κ) : Option (Option υ) :=
  (dictFind type d key).map (Option.map DictEntry.val)

/-- The values of the entries with a key in a chain. -/
def valuesIn (type : DictType κ) (key : κ) (chain : List (DictEntry κ υ)) : List υ :=
  (chain.filter fun he => type.keyCmp key he.key = 0).map DictEntry.val

/-- The values that the first table holds for a key, in the order of its chain. -/
def Dict.held (type : DictType κ) (d : Dict κ υ) (key : κ) : List υ :=
  valuesIn type key (d.ht0.chain (type.hash key))

/-- The values that the second table holds for a key. -/
def Dict.moved (type : DictType κ) (d : Dict κ υ) (key : κ) : List υ :=
  valuesIn type key (d.ht1.chain (type.hash key))

theorem valuesIn_append (key : κ) (chain chain' : List (DictEntry κ υ)) :
    valuesIn type key (chain ++ chain') = valuesIn type key chain ++ valuesIn type key chain' := by
  rw [valuesIn, List.filter_append, List.map_append]
  rfl

theorem valuesIn_reverse (key : κ) (chain : List (DictEntry κ υ)) :
    valuesIn type key chain.reverse = (valuesIn type key chain).reverse := by
  rw [valuesIn, List.filter_reverse, List.map_reverse]
  rfl

/-- Lookup gives the first value that is held for the key. -/
theorem lookup_eq (wellFormed : d.WellFormed type) (key : κ) :
    lookup type d key = some ((d.held type key).head?.or (d.moved type key).head?) := by
  have first : ∀ chain : List (DictEntry κ υ),
      (findIn type key chain).map DictEntry.val = (valuesIn type key chain).head? := by
    intro chain
    rw [valuesIn, List.head?_map, List.head?_filter]
    rfl
  rw [lookup, dictFind_eq wellFormed, Option.map_some, first, Dict.chains, valuesIn_append,
    List.head?_append]
  rfl

theorem lookup_dictExpand (wellFormed : d.WellFormed type) (size : Nat) (key : κ) :
    lookup type (dictExpand d size).2 key = lookup type d key := by
  have grown := dictExpand_grown wellFormed size
  rw [lookup, lookup, dictFind_eq wellFormed, dictFind_eq grown.wellFormed, grown.chains]

/-! ## What rounds do to the values of a key -/

/-- A key whose hash leads to another bucket is not held in the chain. -/
theorem valuesIn_other_bucket (lawful : type.Lawful) {ht : DictHt κ υ}
    (wellFormed : ht.WellFormed type) {idx : Nat} (inside : idx < ht.size) {key : κ}
    (other : idx ≠ ht.index (type.hash key)) : valuesIn type key (ht.table idx) = [] := by
  rw [valuesIn, List.map_eq_nil_iff, List.filter_eq_nil_iff]
  intro he member
  rw [decide_eq_true_eq]
  intro same
  apply other
  rw [lawful.hash same, wellFormed.placed idx inside he member]

/-- The moved entries with a key all come to its chain in the second table, in reverse. -/
theorem MovesBucket.moved_eq (lawful : type.Lawful) {idx : Nat} (moves : MovesBucket type d d' idx)
    (wellFormed : d.WellFormed type) (rehashing : d.rehashidx ≠ -1) (key : κ) :
    d'.moved type key =
      (valuesIn type key (d.ht0.table idx)).reverse ++ d.moved type key := by
  obtain ⟨-, -, -, -, chains⟩ := moves.spec wellFormed rehashing
  rw [Dict.moved, chains, valuesIn_append, valuesIn_reverse]
  congr 2
  rw [valuesIn, valuesIn, List.filter_filter]
  congr 1
  apply List.filter_congr
  intro he _
  by_cases same : type.keyCmp key he.key = 0
  · rw [lawful.hash same]
    simp [same]
  · simp [same]

theorem MovesBucket.held_eq (lawful : type.Lawful) {idx : Nat} (moves : MovesBucket type d d' idx)
    (wellFormed : d.WellFormed type) (rehashing : d.rehashidx ≠ -1) (key : κ) :
    idx = d.ht0.index (type.hash key) ∧ d.held type key = valuesIn type key (d.ht0.table idx) ∧
        d'.held type key = [] ∨
      valuesIn type key (d.ht0.table idx) = [] ∧ d'.held type key = d.held type key := by
  obtain ⟨-, -, -, first, -⟩ := moves.spec wellFormed rehashing
  have buckets := Nat.zero_lt_of_lt moves.inside
  have chain : d'.ht0.chain (type.hash key) =
      Function.update d.ht0.table idx [] (d.ht0.index (type.hash key)) := by
    rw [first, DictHt.chain, if_pos buckets]
    rfl
  rw [Dict.held, Dict.held, chain, DictHt.chain, if_pos buckets]
  by_cases here : idx = d.ht0.index (type.hash key)
  · rw [← here, Function.update_self]
    exact Or.inl ⟨rfl, rfl, rfl⟩
  · rw [Function.update_of_ne (Ne.symm here)]
    exact Or.inr ⟨valuesIn_other_bucket lawful wellFormed.ht0 moves.inside here, rfl⟩

/-- The values of a key stay where they were, or are all in the second table, those from the first
table in reverse. -/
def Reversed (type : DictType κ) (key : κ) (d d' : Dict κ υ) : Prop :=
  d'.held type key = d.held type key ∧ d'.moved type key = d.moved type key ∨
    d'.held type key = [] ∧ d'.moved type key = (d.held type key).reverse ++ d.moved type key

theorem Rounds.reversed (lawful : type.Lawful) {k : Nat} (rounds : Rounds type d k d')
    (wellFormed : d.WellFormed type) (rehashing : d.rehashidx ≠ -1) (key : κ) :
    Reversed type key d d' := by
  refine (rounds.keeps (fun {d₁ d₂ idx} wellFormed rehashing moves before => ?_) wellFormed
    rehashing (Or.inl ⟨rfl, rfl⟩)).2.2.2
  rw [Reversed, moves.moved_eq lawful wellFormed rehashing key]
  rcases moves.held_eq lawful wellFormed rehashing key with ⟨-, bucket, none⟩ | ⟨other, same⟩
  · rw [none, ← bucket]
    rcases before with ⟨held, moved⟩ | ⟨held, moved⟩
    · rw [held, moved]
      exact Or.inr ⟨rfl, rfl⟩
    · rw [held, moved]
      exact Or.inr ⟨rfl, rfl⟩
  · rw [other, same]
    exact before

theorem held_eq_nil (wellFormed : d.WellFormed type) (unused : d.ht0.used = 0) (key : κ) :
    d.held type key = [] := by
  have none : d.ht0.entries = 0 := by
    rw [← Multiset.card_eq_zero, ← wellFormed.ht0.used, unused]
  have empty : d.ht0.chain (type.hash key) = [] := by
    apply List.eq_nil_iff_forall_not_mem.mpr
    intro he member
    have listed := wellFormed.ht0.mem_entries_of_mem_chain member
    rw [none] at listed
    exact Multiset.notMem_zero he listed
  rw [Dict.held, empty]
  rfl

/-- After `dict_rehash` lookup gives what it gave, or as if the values of the first table were
reversed. -/
theorem lookup_dictRehash (lawful : type.Lawful) (wellFormed : d.WellFormed type) {n out : Int}
    (result : dictRehash type d n = some (out, d')) (key : κ) :
    lookup type d' key = lookup type d key ∨
      d.rehashidx ≠ -1 ∧ lookup type d' key =
        some ((d.held type key).getLast?.or (d.moved type key).head?) := by
  rw [lookup_eq (dictRehash_keeps wellFormed result).1, lookup_eq wellFormed]
  rcases dictRehash_cases result with ⟨-, -, rfl⟩ | ⟨rehashing, k, d₁, rounds, ending⟩
  · exact Or.inl rfl
  · have reversed := rounds.reversed lawful wellFormed rehashing key
    rcases ending with ⟨-, -, rfl⟩ | ⟨-, -, -, unused, rfl⟩
    · rcases reversed with ⟨held, moved⟩ | ⟨held, moved⟩
      · rw [held, moved]
        exact Or.inl rfl
      · rw [held, moved, List.head?_append, List.head?_reverse]
        exact Or.inr ⟨rehashing, rfl⟩
    · have kept := (rounds.keeps (fun _ _ _ _ => trivial) wellFormed rehashing trivial).1
      have none := held_eq_nil kept unused key
      have swapped : d₁.swapped.held type key = d₁.moved type key := rfl
      have reset : d₁.swapped.moved type key = [] := rfl
      rw [swapped, reset]
      rcases reversed with ⟨held, moved⟩ | ⟨held, moved⟩
      · rw [moved, ← held, none]
        exact Or.inl (by cases (d.moved type key).head? <;> rfl)
      · rw [moved, List.head?_append, List.head?_reverse]
        refine Or.inr ⟨rehashing, ?_⟩
        cases (d.held type key).getLast?.or (d.moved type key).head? <;> rfl

/-- Rounds enough to end the rehash leave the values of the first table in reverse. -/
theorem lookup_after_rehash (lawful : type.Lawful) (wellFormed : d.WellFormed type)
    (rehashing : d.rehashidx ≠ -1) {out : Int}
    (result : dictRehash type d (d.ht0.used + 1 : Nat) = some (out, d')) (key : κ) :
    lookup type d' key =
      some ((d.held type key).getLast?.or (d.moved type key).head?) := by
  rw [lookup_eq (dictRehash_keeps wellFormed result).1]
  rcases dictRehash_cases result with ⟨resting, -⟩ | ⟨-, k, d₁, rounds, ending⟩
  · exact (rehashing resting).elim
  · rcases ending with ⟨-, counted, -⟩ | ⟨-, -, -, unused, rfl⟩
    · have moved := rounds.used_add_le wellFormed rehashing
      omega
    · have kept := (rounds.keeps (fun _ _ _ _ => trivial) wellFormed rehashing trivial).1
      have none := held_eq_nil kept unused key
      have swapped : d₁.swapped.held type key = d₁.moved type key := rfl
      have reset : d₁.swapped.moved type key = [] := rfl
      have all : d₁.moved type key = (d.held type key).reverse ++ d.moved type key := by
        rcases rounds.reversed lawful wellFormed rehashing key with ⟨held, moved⟩ | ⟨-, moved⟩
        · rw [moved, ← held, none]
          rfl
        · exact moved
      rw [swapped, reset, all, List.head?_append, List.head?_reverse]
      cases (d.held type key).getLast?.or (d.moved type key).head? <;> rfl

/-! ## Runs -/

/-- Rehashing is invisible to the lookup of a key exactly if no rehash goes on or the first and the
last value that the first table holds for it are the same; growth always is. -/
theorem rehash_invisible_iff (lawful : type.Lawful)
    (reachable : (usage type fun operation d' => operation.Grows ∧ d'.Sized).Reachable d)
    (key : κ) :
    ((∀ n, RoundsFit d.bucketsInUse n → ∃ out d', dictRehash type d n = some (out, d') ∧
          lookup type d' key = lookup type d key) ↔
        (d.isRehashing = true → (d.held type key).head? = (d.held type key).getLast?)) ∧
      ∀ size, lookup type (dictExpand d size).2 key = lookup type d key := by
  have wellFormed := wellFormed_of_reachable reachable
  have near := (sized_of_reachable And.right reachable).near
  refine ⟨⟨fun invisible rehash => ?_, fun same n fit => ?_⟩,
    fun size => lookup_dictExpand wellFormed size key⟩
  · have rehashing := Dict.isRehashing_iff.mp rehash
    obtain ⟨out, d', result, kept⟩ := invisible (d.ht0.used + 1 : Nat) (Or.inl (by omega))
    rw [lookup_after_rehash lawful wellFormed rehashing result, lookup_eq wellFormed] at kept
    cases first : (d.held type key).head? with
    | none => rw [List.head?_eq_none_iff.mp first, List.getLast?_nil]
    | some val =>
        have nonempty : d.held type key ≠ [] := by
          intro none
          rw [none] at first
          cases first
        rw [first, List.getLast?_eq_some_getLast nonempty] at kept
        rw [List.getLast?_eq_some_getLast nonempty]
        exact (Option.some.inj kept).symm
  · obtain ⟨out, d', result⟩ := exists_dictRehash wellFormed fun _ => ⟨near, fit⟩
    refine ⟨out, d', result, ?_⟩
    rcases lookup_dictRehash lawful wellFormed result key with kept | ⟨rehashing, turned⟩
    · exact kept
    · rw [turned, lookup_eq wellFormed, same (Dict.isRehashing_iff.mpr rehashing)]

/-- The dict after `k` was added twice and `dict_expand` started a rehash. -/
def dictWithTwoK : Dict CString Nat :=
  (dictExpand ((dictAdd stringKeys dictWithK letterK 2).get rfl).2 100).2

theorem dictWithTwoK_reachable :
    (usage stringKeys fun operation d' => operation.Grows ∧ d'.Sized).Reachable dictWithTwoK := by
  have added : (usage stringKeys fun operation d' => operation.Grows ∧ d'.Sized).Reachable
      dictWithK := by
    apply TransitionSystem.Reachable.step (TransitionSystem.reachable_of_initial rfl)
    exact ⟨.add letterK 1, rfl, trivial, by decide, by decide⟩
  have twice := added.step ⟨.add letterK 2, rfl, trivial, by decide, by decide⟩
  exact twice.step ⟨.expand 100, rfl, trivial, by decide, by decide⟩

/-- A state in which the first and the last value differ. -/
theorem rehash_invisible_iff_twoK :
    ¬ ∀ n, RoundsFit dictWithTwoK.bucketsInUse n → ∃ out d',
      dictRehash stringKeys dictWithTwoK n = some (out, d') ∧
        lookup stringKeys d' letterK = lookup stringKeys dictWithTwoK letterK := by
  rw [(rehash_invisible_iff stringKeys_lawful dictWithTwoK_reachable letterK).1]
  decide

/-- A round of rehashing changes what the lookup of `k` gives. -/
theorem rehash_not_invisible :
    stringKeys.Lawful ∧
      (usage stringKeys fun operation d' => operation.Grows ∧ d'.Sized).Reachable dictWithTwoK ∧
      lookup stringKeys dictWithTwoK letterK = some (some 2) ∧
      (dictRehash stringKeys dictWithTwoK 1).map
        (fun result => lookup stringKeys result.2 letterK) =
        some (some (some 1)) :=
  ⟨stringKeys_lawful, dictWithTwoK_reachable, by decide, by decide⟩

end Dictionary
end OstrichServer
