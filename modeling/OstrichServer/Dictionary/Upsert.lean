import OstrichServer.Dictionary.LookupOrder

/-!
# When replacing is an upsert

`dict_replace` first calls `dict_add` and sets the value of the entry that `dict_find` gives when
that failed.  It inserts a key again that is stored alone in its chain, and it dereferences `NULL`
for a new key that shares its chain.
-/

namespace OstrichServer
namespace Dictionary

variable {κ υ : Type} {type : DictType κ} {d d' : Dict κ υ}

/-! ## Setting a value -/

theorem findIn_cons (key : κ) (he : DictEntry κ υ) (next : List (DictEntry κ υ)) :
    findIn type key (he :: next) =
      if type.keyCmp key he.key = 0 then some he else findIn type key next := by
  rw [findIn, List.find?_cons]
  by_cases same : type.keyCmp key he.key = 0
  · rw [if_pos same, decide_eq_true same]
  · rw [if_neg same, decide_eq_false same]
    rfl

theorem findIn_setFirst (key : κ) (val : υ) (chain : List (DictEntry κ υ)) :
    findIn type key (setFirst type key val chain) =
      (findIn type key chain).map fun he => { he with val } := by
  induction chain with
  | nil => rfl
  | cons he next induction =>
      rw [setFirst, findIn_cons]
      split
      · rename_i same
        rw [findIn_cons, if_pos same]
        rfl
      · rename_i other
        rw [findIn_cons, if_neg other]
        exact induction

theorem findIn_setFirst_of_ne (lawful : type.Lawful) {key other : κ}
    (differ : type.keyCmp key other ≠ 0) (val : υ) (chain : List (DictEntry κ υ)) :
    findIn type other (setFirst type key val chain) = findIn type other chain := by
  induction chain with
  | nil => rfl
  | cons he next induction =>
      rw [setFirst, findIn_cons]
      split
      · rename_i same
        have passed : type.keyCmp other he.key ≠ 0 :=
          fun equal => differ (lawful.equal.trans same (lawful.equal.symm equal))
        rw [findIn_cons, if_neg passed, if_neg passed]
      · rw [findIn_cons, induction]

theorem DictHt.chain_setVal (ht : DictHt κ υ) (key : κ) (val : υ) (h : UInt32) :
    (ht.setVal type key val).chain h =
      if ht.index h = ht.index (type.hash key) then setFirst type key val (ht.chain h)
      else ht.chain h := by
  rw [chain, chain]
  change (if 0 < ht.size then Function.update ht.table _ _ (ht.index h) else []) = _
  by_cases buckets : 0 < ht.size
  · rw [if_pos buckets, if_pos buckets]
    by_cases here : ht.index h = ht.index (type.hash key)
    · rw [if_pos here, here, Function.update_self]
    · rw [if_neg here, Function.update_of_ne here]
  · rw [if_neg buckets, if_neg buckets]
    split <;> rfl

theorem findIn_chain_setVal_of_ne (lawful : type.Lawful) {key other : κ}
    (differ : type.keyCmp key other ≠ 0) (ht : DictHt κ υ) (val : υ) (h : UInt32) :
    findIn type other ((ht.setVal type key val).chain h) = findIn type other (ht.chain h) := by
  rw [DictHt.chain_setVal]
  split
  · exact findIn_setFirst_of_ne lawful differ val _
  · rfl

theorem findIn_chains (d : Dict κ υ) (key : κ) (h : UInt32) :
    findIn type key (d.chains h) =
      (findIn type key (d.ht0.chain h)).or (findIn type key (d.ht1.chain h)) :=
  List.find?_append

/-- The entry that `dict_find` gives has the value that was set. -/
theorem findIn_setVal (d : Dict κ υ) (key : κ) (val : υ) :
    findIn type key ((d.setVal type key val).chains (type.hash key)) =
      (findIn type key (d.chains (type.hash key))).map fun he => { he with val } := by
  rw [findIn_chains, findIn_chains, Dict.setVal]
  cases found : findIn type key (d.ht0.chain (type.hash key)) with
  | some he =>
      rw [Option.isSome_some, if_pos rfl, DictHt.chain_setVal, if_pos rfl, findIn_setFirst, found]
      rfl
  | none =>
      rw [Option.isSome_none, if_neg Bool.false_ne_true, found, DictHt.chain_setVal, if_pos rfl,
        findIn_setFirst]
      rfl

theorem findIn_setVal_of_ne (lawful : type.Lawful) {key other : κ}
    (differ : type.keyCmp key other ≠ 0) (d : Dict κ υ) (val : υ) (h : UInt32) :
    findIn type other ((d.setVal type key val).chains h) = findIn type other (d.chains h) := by
  rw [findIn_chains, findIn_chains, Dict.setVal]
  split
  · rw [findIn_chain_setVal_of_ne lawful differ]
  · rw [findIn_chain_setVal_of_ne lawful differ]

theorem card_entries_setVal (wellFormed : d.WellFormed type) (key : κ) (val : υ) :
    Multiset.card (d.setVal type key val).entries = Multiset.card d.entries := by
  rw [(wellFormed.setVal key val).card_entries, wellFormed.card_entries, Dict.setVal]
  split <;> rfl

/-! ## Replacing -/

/-- Some entry has the key. -/
def Dict.Stores (type : DictType κ) (d : Dict κ υ) (key : κ) : Prop :=
  ∃ entry ∈ d.entries, type.keyCmp key entry.key = 0

/-- What `dict_replace` should do: a key that is not stored gets an entry; for one that is stored
the value that lookup gave is handed to `val_free`; lookup then gives the new value, and for other
keys what it gave. -/
def Upserts (type : DictType κ) (d : Dict κ υ) (key : κ) (val : υ) : Prop :=
  ∃ out freed d', dictReplace type d key val = some (out, freed, d') ∧
    (¬ d.Stores type key ∧ out = 1 ∧ freed = [] ∧
        Multiset.card d'.entries = Multiset.card d.entries + 1 ∨
      d.Stores type key ∧ out = 0 ∧
        (∃ old, lookup type d key = some (some old) ∧ freed = [old]) ∧
        Multiset.card d'.entries = Multiset.card d.entries) ∧
    lookup type d' key = some (some val) ∧
    ∀ other, type.keyCmp key other ≠ 0 → lookup type d' other = lookup type d other

section Lawful

variable (lawful : type.Lawful)
include lawful

theorem exists_findIn_iff (wellFormed : d.WellFormed type) (key : κ) :
    (∃ entry, findIn type key (d.chains (type.hash key)) = some entry) ↔ d.Stores type key := by
  constructor
  · rintro ⟨entry, found⟩
    have same : type.keyCmp key entry.key = 0 := by simpa using List.find?_some found
    exact ⟨entry, wellFormed.mem_entries_of_mem_chains (List.mem_of_find?_eq_some found), same⟩
  · rintro ⟨entry, member, same⟩
    apply Option.isSome_iff_exists.mp
    rw [findIn, List.find?_isSome]
    exact ⟨entry, wellFormed.mem_chains lawful member same, decide_eq_true same⟩

omit lawful in
/-- Nothing but the key is in its chains if it is not refused. -/
theorem chains_eq_nil (wellFormed : d.WellFormed type) {key : κ}
    (accepted : refuses type key (d.chains (type.hash key)) = false)
    (absent : ¬ d.Stores type key) : d.chains (type.hash key) = [] := by
  apply List.eq_nil_iff_forall_not_mem.mpr
  intro entry member
  have alike := List.any_eq_false.mp accepted entry member
  rw [decide_eq_true_eq, not_not] at alike
  exact absent ⟨entry, wellFormed.mem_entries_of_mem_chains member, alike⟩

/-- A new key inserted. -/
theorem lookup_inserted (wellFormed : d.WellFormed type) {key : κ} {val : υ}
    (absent : ¬ d.Stores type key) (inserted : Inserted type d d' { key, val }) :
    lookup type d' key = some (some val) ∧
      ∀ other, type.keyCmp key other ≠ 0 → lookup type d' other = lookup type d other := by
  constructor
  · have stored : d'.Stores type key := by
      refine ⟨{ key, val }, ?_, lawful.equal.refl key⟩
      rw [inserted.entries]
      exact Multiset.mem_cons_self _ _
    obtain ⟨entry, found⟩ := (exists_findIn_iff lawful inserted.wellFormed key).mpr stored
    have same : type.keyCmp key entry.key = 0 := by simpa using List.find?_some found
    have member := inserted.wellFormed.mem_entries_of_mem_chains (List.mem_of_find?_eq_some found)
    rw [inserted.entries, Multiset.mem_cons] at member
    rcases member with rfl | old
    · rw [lookup, dictFind_eq inserted.wellFormed, found]
      rfl
    · exact (absent ⟨entry, old, same⟩).elim
  · intro other differ
    have dropped : decide (type.keyCmp other key = 0) = false := by
      rw [decide_eq_false_iff_not]
      exact fun same => differ (lawful.equal.symm same)
    have kept := inserted.chains (type.hash other) (fun he => type.keyCmp other he.key = 0) dropped
    have firsts := congrArg List.head? kept
    rw [List.head?_filter, List.head?_filter] at firsts
    rw [lookup, lookup, dictFind_eq inserted.wellFormed, dictFind_eq wellFormed]
    exact congrArg (fun he => some (he.map DictEntry.val)) firsts

/-- A key that `dict_add` refused is replaced exactly if it is stored. -/
theorem upserts_of_refused (wellFormed : d.WellFormed type) {key : κ} {val : υ}
    (refused : dictAdd type d key val = some (.osErr, d.grown)) :
    Upserts type d key val ↔ d.Stores type key := by
  have grown := grown_grown wellFormed
  have same : ∀ key', dictFind type d.grown key' = dictFind type d key' := by
    intro key'
    rw [dictFind_eq grown.wellFormed, dictFind_eq wellFormed, grown.chains]
  have result : dictReplace type d key val =
      (findIn type key (d.chains (type.hash key))).map fun auxentry =>
        (0, [auxentry.val], d.grown.setVal type key val) := by
    rw [dictReplace, refused]
    simp only [Option.bind_eq_bind, Option.bind_some, same, dictFind_eq wellFormed]
    cases findIn type key (d.chains (type.hash key)) <;> rfl
  constructor
  · rintro ⟨out, freed, d', replaced, -⟩
    rw [result] at replaced
    obtain ⟨entry, found, -⟩ := Option.map_eq_some_iff.mp replaced
    exact (exists_findIn_iff lawful wellFormed key).mp ⟨entry, found⟩
  · intro stored
    obtain ⟨entry, found⟩ := (exists_findIn_iff lawful wellFormed key).mpr stored
    rw [found] at result
    have set := grown.wellFormed.setVal key val
    refine ⟨0, [entry.val], _, result, Or.inr ⟨stored, rfl, ⟨entry.val, ?_, rfl⟩, ?_⟩, ?_, ?_⟩
    · rw [lookup, dictFind_eq wellFormed, found]
      rfl
    · rw [card_entries_setVal grown.wellFormed, grown.entries]
    · rw [lookup, dictFind_eq set, findIn_setVal, grown.chains, found]
      rfl
    · intro other differ
      rw [lookup, lookup, dictFind_eq set, dictFind_eq wellFormed,
        findIn_setVal_of_ne lawful differ, grown.chains]

/-- A key that `dict_add` inserted is replaced exactly if it was not stored. -/
theorem upserts_of_accepted (wellFormed : d.WellFormed type) {key : κ} {val : υ}
    (added : dictAdd type d key val = some (.osOk, d'))
    (inserted : Inserted type d.grown d' { key, val }) :
    Upserts type d key val ↔ ¬ d.Stores type key := by
  have grown := grown_grown wellFormed
  have result : dictReplace type d key val = some (1, [], d') := by
    rw [dictReplace, added]
    rfl
  constructor
  · rintro ⟨out, freed, final, replaced, ⟨absent, -⟩ | ⟨-, zero, -⟩, -⟩
    · exact absent
    · rw [result] at replaced
      cases replaced
      cases zero
  · intro absent
    have absent' : ¬ d.grown.Stores type key := by
      rw [Dict.Stores, grown.entries]
      exact absent
    obtain ⟨value, others⟩ := lookup_inserted lawful grown.wellFormed absent' inserted
    refine ⟨1, [], d', result, Or.inl ⟨absent, rfl, rfl, ?_⟩, value, fun other differ => ?_⟩
    · rw [inserted.entries, Multiset.card_cons, grown.entries]
    · rw [others other differ, lookup, lookup, dictFind_eq grown.wellFormed,
        dictFind_eq wellFormed, grown.chains]

theorem upserts_iff (wellFormed : d.WellFormed type) (key : κ) (val : υ) :
    Upserts type d key val ↔ (Call.add key val).Fits type d := by
  rw [Call.Fits]
  change _ ↔ d.Stores type key ∧ _ ∨ _
  cases refused : refuses type key (d.chains (type.hash key)) with
  | true =>
      obtain ⟨entry, member, other⟩ := List.any_eq_true.mp refused
      rw [upserts_of_refused lawful wellFormed (dictAdd_of_refuses wellFormed val refused)]
      constructor
      · intro stored
        exact Or.inl ⟨stored, Or.inl ⟨entry, member, of_decide_eq_true other⟩⟩
      · rintro (⟨stored, -⟩ | ⟨empty, -⟩)
        · exact stored
        · rw [empty] at member
          cases member
  | false =>
      have alike : ¬ ∃ entry ∈ d.chains (type.hash key), type.keyCmp key entry.key ≠ 0 := by
        rintro ⟨entry, member, other⟩
        exact List.any_eq_false.mp refused entry member (decide_eq_true other)
      have alone : d.chains (type.hash key) = [] ↔ ¬ d.Stores type key := by
        constructor
        · rintro empty ⟨entry, member, same⟩
          have chained := wellFormed.mem_chains lawful member same
          rw [empty] at chained
          cases chained
        · exact chains_eq_nil wellFormed refused
      rw [alone]
      by_cases small : d.insertIndex (type.hash key) ≤ intMax
      · obtain ⟨d', added, inserted⟩ := dictAdd_of_accepts wellFormed val refused small
        rw [upserts_of_accepted lawful wellFormed added inserted]
        constructor
        · intro absent
          exact Or.inr ⟨absent, small⟩
        · rintro (⟨-, other | last⟩ | ⟨absent, -⟩)
          · exact (alike other).elim
          · rw [last] at small
            exact absurd small (by decide)
          · exact absent
      · have added := dictAdd_of_intMax_lt wellFormed val refused (Nat.not_le.mp small)
        by_cases last : d.insertIndex (type.hash key) = 2 ^ 32 - 1
        · rw [if_pos last] at added
          rw [upserts_of_refused lawful wellFormed added]
          constructor
          · intro stored
            exact Or.inl ⟨stored, Or.inr last⟩
          · rintro (⟨stored, -⟩ | ⟨-, held⟩)
            · exact stored
            · exact (small held).elim
        · rw [if_neg last] at added
          constructor
          · rintro ⟨out, freed, d', replaced, -⟩
            rw [dictReplace, added] at replaced
            cases replaced
          · rintro (⟨-, other | index⟩ | ⟨-, held⟩)
            · exact (alike other).elim
            · exact (last index).elim
            · exact (small held).elim

end Lawful

/-! ## Runs -/

/-- Insertion, replacing, growth and rehashing. -/
def Operation.Updates : Operation κ υ → Prop
  | add _ _ => True
  | replace _ _ => True
  | expand _ => True
  | rehash _ => True
  | _ => False

/-- In every state that calls lead to, `dict_replace` is an upsert exactly under the condition for
`dict_add`. -/
theorem dict_replace_upserts_iff (lawful : type.Lawful)
    (reachable : (usage type fun operation _ => operation.Updates).Reachable d) (key : κ)
    (val : υ) :
    Upserts type d key val ↔ (Call.add key val).Fits type d :=
  upserts_iff lawful (wellFormed_of_reachable reachable) key val

/-- After a rehash that brought `bc` and `cb` into one bucket, replacing `bc` is an upsert, and so
is replacing a new key with a bucket of its own, but not replacing `m`. -/
theorem dict_replace_upserts_iff_rehashed :
    Upserts stringKeys dictRehashed keyBC 4 ∧ Upserts stringKeys dictRehashed letterK 4 ∧
      ¬ Upserts stringKeys dictRehashed letterM 4 := by
  have reachable : (usage stringKeys fun operation _ => operation.Updates).Reachable
      dictRehashed := by
    refine (dictRehashed_usage fun operation _ grows _ => ?_).2
    cases operation <;> first | exact trivial | exact grows.elim
  have condition := fun key => dict_replace_upserts_iff stringKeys_lawful reachable key 4
  have stored : dictRehashed.Stores stringKeys keyBC :=
    (exists_findIn_iff stringKeys_lawful (wellFormed_of_reachable reachable) keyBC).mp ⟨_, rfl⟩
  rw [condition, condition, condition]
  refine ⟨Or.inl ⟨stored, Or.inl (by decide)⟩, Or.inr ⟨rfl, by decide⟩, ?_⟩
  rintro (⟨-, other | last⟩ | ⟨empty, -⟩)
  · exact absurd other (by decide)
  · exact absurd last (by decide)
  · exact absurd empty (by decide)

/-- A key that is stored alone in its chain is inserted again by `dict_replace`. -/
theorem dict_replace_not_upserts :
    stringKeys.Lawful ∧
      (usage stringKeys fun operation _ => operation.Updates).Reachable dictWithK ∧
      lookup stringKeys dictWithK letterK = some (some 1) ∧
      (dictReplace stringKeys dictWithK letterK 2).map Prod.fst = some 1 ∧
      ¬ Upserts stringKeys dictWithK letterK 2 := by
  have reachable :
      (usage stringKeys fun operation _ => operation.Updates).Reachable dictWithK := by
    apply TransitionSystem.Reachable.step (TransitionSystem.reachable_of_initial rfl)
    exact ⟨.add letterK 1, rfl, trivial⟩
  have stored : dictWithK.Stores stringKeys letterK :=
    (exists_findIn_iff stringKeys_lawful (wellFormed_of_reachable reachable) letterK).mp ⟨_, rfl⟩
  refine ⟨stringKeys_lawful, reachable, by decide, by decide, ?_⟩
  rintro ⟨out, freed, d', replaced, ⟨absent, -⟩ | ⟨-, zero, -⟩, -⟩
  · exact absent stored
  · cases replaced
    cases zero

end Dictionary
end OstrichServer
