import OstrichServer.Dictionary.Rehash
import OstrichServer.Foundations.TransitionSystem

/-!
# Runs of the operations of the dict

The operations besides insertion, lookup, growth and rehashing, and the states that a dict can be
brought to.
-/

namespace OstrichServer
namespace Dictionary

variable {κ υ : Type} (type : DictType κ)

/-! ## The other operations -/

/-- `dict_add_raw`: the new entry, if it was not refused, and the dict.  The value in a new entry is
what the memory for it held. -/
def dictAddRaw (d : Dict κ υ) (key : κ) (memory : υ) :
    Option (Option (DictEntry κ υ) × Dict κ υ) := do
  let (index, d) ← dictKeyIndex type d key
  if index = -1 then return (none, d)
  if index < 0 then none
  let entry := { key, val := memory }
  if d.isRehashing then
    let ht1 ← d.ht1.push index.toNat entry
    return (some entry, { d with ht1 })
  else
    let ht0 ← d.ht0.push index.toNat entry
    return (some entry, { d with ht0 })

/-- `dict_replace_raw` -/
def dictReplaceRaw (d : Dict κ υ) (key : κ) (memory : υ) :
    Option (Option (DictEntry κ υ) × Dict κ υ) := do
  match ← dictFind type d key with
  | some entry => return (some entry, d)
  | none => dictAddRaw type d key memory

/-- A chain after the value of the entry that `dict_find` stops at has been set. -/
def setFirst (key : κ) (val : υ) : List (DictEntry κ υ) → List (DictEntry κ υ)
  | [] => []
  | he :: next =>
      if type.keyCmp key he.key = 0 then { he with val } :: next else he :: setFirst key val next

/-- A table after `entry->v.val = val` for an entry in the bucket for a key. -/
def DictHt.setVal (ht : DictHt κ υ) (key : κ) (val : υ) : DictHt κ υ :=
  let idx := ht.index (type.hash key)
  { ht with table := Function.update ht.table idx (setFirst type key val (ht.table idx)) }

/-- `entry->v.val = val` for the entry that `dict_find` gives. -/
def Dict.setVal (d : Dict κ υ) (key : κ) (val : υ) : Dict κ υ :=
  if (findIn type key (d.ht0.chain (type.hash key))).isSome then
    { d with ht0 := d.ht0.setVal type key val }
  else { d with ht1 := d.ht1.setVal type key val }

/-- `dict_replace`: what it returns, the values it hands to `val_free`, and the dict.  When
`dict_find` gives `NULL` it is dereferenced. -/
def dictReplace (d : Dict κ υ) (key : κ) (val : υ) : Option (Int × List υ × Dict κ υ) := do
  let (status, d) ← dictAdd type d key val
  if status = .osOk then return (1, [], d)
  match ← dictFind type d key with
  | none => none
  | some auxentry => return (0, [auxentry.val], d.setVal type key val)

/-- `while (he)` in `_dict_clear`: the entries that are freed, and `ht->used`. -/
def clearChain : List (DictEntry κ υ) → Nat → List (DictEntry κ υ) × Nat
  | [], used => ([], used)
  | he :: henext, used =>
      let (freed, used) := clearChain henext (used - 1)
      (he :: freed, used)

/-- `for (i = 0; i < ht->size && ht->used > 0; i++)` with the buckets that are left: the entries
that are freed. -/
def clearBuckets (ht : DictHt κ υ) : Nat → Nat → Nat → List (DictEntry κ υ)
  | 0, _, _ => []
  | rest + 1, i, used =>
      if used = 0 then []
      else
        let (freed, used) := clearChain (ht.table i) used
        freed ++ clearBuckets ht rest (i + 1) used

/-- `_dict_clear`: the entries that are freed, and the table. -/
def dictClear (ht : DictHt κ υ) : List (DictEntry κ υ) × DictHt κ υ :=
  (clearBuckets ht ht.size 0 ht.used, dictReset)

/-- `dict_release`: the entries that are freed. -/
def dictRelease (d : Dict κ υ) : List (DictEntry κ υ) := (dictClear d.ht0).1 ++ (dictClear d.ht1).1

/-! ## Runs -/

/-- A call of an operation that leaves a dict. -/
inductive Operation (κ υ : Type)
  | add (key : κ) (val : υ)
  | addRaw (key : κ) (memory : υ)
  | replace (key : κ) (val : υ)
  | replaceRaw (key : κ) (memory : υ)
  | find (key : κ)
  | expand (size : Nat)
  | rehash (n : Int)

/-- The dict after the call. -/
def Operation.apply (d : Dict κ υ) : Operation κ υ → Option (Dict κ υ)
  | add key val => (dictAdd type d key val).map Prod.snd
  | addRaw key memory => (dictAddRaw type d key memory).map Prod.snd
  | replace key val => (dictReplace type d key val).map fun result => result.2.2
  | replaceRaw key memory => (dictReplaceRaw type d key memory).map Prod.snd
  | find key => (dictFind type d key).map fun _ => d
  | expand size => some (dictExpand d size).2
  | rehash n => (dictRehash type d n).map Prod.snd

/-- Insertion, growth and rehashing. -/
def Operation.Grows : Operation κ υ → Prop
  | add _ _ => True
  | expand _ => True
  | rehash _ => True
  | _ => False

/-- `int`s can hold the indices of the buckets, and one more. -/
def Dict.Sized (d : Dict κ υ) : Prop := d.ht0.size ≤ intMax ∧ d.ht1.size ≤ intMax

instance (d : Dict κ υ) : Decidable d.Sized := inferInstanceAs (Decidable (_ ∧ _))

/-- The dicts that calls lead to from `dict_create`, when a call and the dict it leaves are allowed.
-/
def usage (allowed : Operation κ υ → Dict κ υ → Prop) : TransitionSystem (Dict κ υ) where
  initial d := d = dictCreate
  step d d' := ∃ operation, operation.apply type d = some d' ∧ allowed operation d'

/-! ## The invariant in every run -/

variable {type} {d d' : Dict κ υ}

theorem dictAdd_eq_addRaw (d : Dict κ υ) (key : κ) (val : υ) :
    dictAdd type d key val =
      (dictAddRaw type d key val).map fun (entry, d') =>
        (if entry.isSome then .osOk else .osErr, d') := by
  rw [dictAdd, dictAddRaw]
  cases dictKeyIndex type d key with
  | none => rfl
  | some found =>
      obtain ⟨index, grown⟩ := found
      simp only [Option.bind_eq_bind, Option.bind_some]
      split
      · rfl
      · split
        · rfl
        · split
          · cases grown.ht1.push index.toNat { key, val } <;> rfl
          · cases grown.ht0.push index.toNat { key, val } <;> rfl

/-- `dict_add_raw` is `dict_add` with the value that the memory held. -/
theorem dictAdd_of_addRaw {key : κ} {memory : υ} {entry : Option (DictEntry κ υ)}
    (result : dictAddRaw type d key memory = some (entry, d')) :
    dictAdd type d key memory = some (if entry.isSome then .osOk else .osErr, d') := by
  rw [dictAdd_eq_addRaw, result]
  rfl

theorem dictAddRaw_wellFormed (wellFormed : d.WellFormed type) {key : κ} {memory : υ}
    {entry : Option (DictEntry κ υ)} (result : dictAddRaw type d key memory = some (entry, d')) :
    d'.WellFormed type :=
  dictAdd_wellFormed wellFormed (dictAdd_of_addRaw result)

theorem setFirst_keys (key : κ) (val : υ) (chain : List (DictEntry κ υ)) :
    (setFirst type key val chain).map DictEntry.key = chain.map DictEntry.key := by
  induction chain with
  | nil => rfl
  | cons he next induction =>
      rw [setFirst]
      split
      · rfl
      · rw [List.map_cons, induction, List.map_cons]

/-- Setting a value moves no entry. -/
theorem DictHt.WellFormed.setVal {ht : DictHt κ υ} (wellFormed : ht.WellFormed type) (key : κ)
    (val : υ) : (ht.setVal type key val).WellFormed type := by
  have keys : ∀ i, ((ht.setVal type key val).table i).map DictEntry.key =
      (ht.table i).map DictEntry.key := by
    intro i
    change (Function.update ht.table _ _ i).map DictEntry.key = _
    by_cases here : i = ht.index (type.hash key)
    · rw [here, Function.update_self, setFirst_keys]
    · rw [Function.update_of_ne here]
  refine ⟨wellFormed.sizemask, ?_, fun i inside entry member => ?_⟩
  · have used : ht.used = Multiset.card ht.entries := wellFormed.used
    change ht.used = _
    rw [used, entries, entries, Buckets.contents, Buckets.contents, Multiset.card_sum,
      Multiset.card_sum]
    apply Finset.sum_congr rfl
    intro i _
    have lengths := congrArg List.length (keys i)
    rw [List.length_map, List.length_map] at lengths
    rw [Multiset.coe_card, Multiset.coe_card, lengths]
  · have listed := List.mem_map_of_mem (f := DictEntry.key) member
    rw [keys] at listed
    obtain ⟨old, there, same⟩ := List.mem_map.mp listed
    rw [← same]
    exact wellFormed.placed i inside old there

theorem Dict.WellFormed.setVal (wellFormed : d.WellFormed type) (key : κ) (val : υ) :
    (d.setVal type key val).WellFormed type := by
  rw [Dict.setVal]
  split
  · refine ⟨wellFormed.ht0.setVal key val, wellFormed.ht1, wellFormed.resting, fun rehashing => ?_⟩
    obtain ⟨r, place, some, room, before⟩ := wellFormed.rehashing rehashing
    refine ⟨r, place, some, room, fun i early inside => ?_⟩
    change Function.update d.ht0.table _ _ i = []
    by_cases here : i = d.ht0.index (type.hash key)
    · subst here
      rw [Function.update_self, before _ early inside]
      rfl
    · rw [Function.update_of_ne here]
      exact before i early inside
  · exact ⟨wellFormed.ht0, wellFormed.ht1.setVal key val, wellFormed.resting, wellFormed.rehashing⟩

/-- What `dict_replace` did when it returned. -/
theorem dictReplace_cases {key : κ} {val : υ} {out : Int} {freed : List υ}
    (result : dictReplace type d key val = some (out, freed, d')) :
    dictAdd type d key val = some (.osOk, d') ∧ out = 1 ∧ freed = [] ∨
      ∃ grown entry, dictAdd type d key val = some (.osErr, grown) ∧
        dictFind type grown key = some (some entry) ∧ out = 0 ∧ freed = [entry.val] ∧
        d' = grown.setVal type key val := by
  rw [dictReplace] at result
  obtain ⟨⟨status, grown⟩, added, result⟩ := Option.bind_eq_some_iff.mp result
  simp only at result
  split at result
  · rename_i accepted
    cases result
    exact Or.inl ⟨accepted ▸ added, rfl, rfl⟩
  · rename_i refused
    obtain ⟨found, looked, result⟩ := Option.bind_eq_some_iff.mp result
    cases found with
    | none => cases result
    | some entry =>
        cases result
        cases status with
        | osOk => exact (refused rfl).elim
        | osErr => exact Or.inr ⟨grown, entry, added, looked, rfl, rfl, rfl⟩

/-- Every call that returns keeps the invariant. -/
theorem Operation.apply_wellFormed (wellFormed : d.WellFormed type) {operation : Operation κ υ}
    (result : operation.apply type d = some d') : d'.WellFormed type := by
  cases operation with
  | add key val =>
      obtain ⟨⟨status, final⟩, added, rfl⟩ := Option.map_eq_some_iff.mp result
      exact dictAdd_wellFormed wellFormed added
  | addRaw key memory =>
      obtain ⟨⟨entry, final⟩, added, rfl⟩ := Option.map_eq_some_iff.mp result
      exact dictAddRaw_wellFormed wellFormed added
  | replace key val =>
      obtain ⟨⟨out, freed, final⟩, replaced, rfl⟩ := Option.map_eq_some_iff.mp result
      rcases dictReplace_cases replaced with ⟨added, -⟩ | ⟨grown, entry, added, -, -, -, set⟩
      · exact dictAdd_wellFormed wellFormed added
      · rw [set]
        exact (dictAdd_wellFormed wellFormed added).setVal key val
  | replaceRaw key memory =>
      obtain ⟨⟨entry, final⟩, replaced, rfl⟩ := Option.map_eq_some_iff.mp result
      rw [dictReplaceRaw] at replaced
      obtain ⟨found, looked, replaced⟩ := Option.bind_eq_some_iff.mp replaced
      cases found with
      | some entry =>
          cases replaced
          exact wellFormed
      | none => exact dictAddRaw_wellFormed wellFormed replaced
  | find key =>
      obtain ⟨found, looked, rfl⟩ := Option.map_eq_some_iff.mp result
      exact wellFormed
  | expand size =>
      cases result
      exact (dictExpand_grown wellFormed size).wellFormed
  | rehash n =>
      obtain ⟨⟨out, final⟩, rehashed, rfl⟩ := Option.map_eq_some_iff.mp result
      exact (dictRehash_keeps wellFormed rehashed).1

theorem wellFormed_of_reachable {allowed : Operation κ υ → Dict κ υ → Prop}
    (reachable : (usage type allowed).Reachable d) : d.WellFormed type := by
  have invariant : (usage type allowed).IsInvariant fun d => d.WellFormed type :=
    { initial := fun d start => start ▸ Dict.wellFormed_create
      step := fun wellFormed ⟨operation, result, _⟩ =>
        operation.apply_wellFormed wellFormed result }
  exact invariant.of_reachable reachable

theorem sized_of_reachable {allowed : Operation κ υ → Dict κ υ → Prop}
    (small : ∀ {operation d}, allowed operation d → d.Sized)
    (reachable : (usage type allowed).Reachable d) : d.Sized := by
  have invariant : (usage type allowed).IsInvariant fun d => d.Sized :=
    { initial := fun d start => start ▸ ⟨Nat.zero_le _, Nat.zero_le _⟩
      step := fun _ ⟨_, _, fine⟩ => small fine }
  exact invariant.of_reachable reachable

end Dictionary
end OstrichServer
