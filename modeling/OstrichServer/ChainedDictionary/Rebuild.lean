import OstrichServer.ChainedDictionary.Values

/-!
# What rebuilds do to lookups

With the rebuild step off, a chained dictionary is a stack of values for each key.  A rebuild turns
these stacks over, so that lookups stay the same exactly when every stack reads the same from both
ends whenever an insertion rebuilds.
-/

namespace OstrichServer
namespace ChainedDictionary

open Dictionary

variable {υ : Type} {d d' : DictionaryT υ} {key : CString}

/-- What calls do to the stack of a key. -/
def stackCalls (key : CString) : List (Call υ) → List (Stacks.Call υ)
  | [] => []
  | .insert key' value :: calls =>
      if key = key' then .push value :: stackCalls key calls else stackCalls key calls
  | .remove key' :: calls =>
      if key = key' then .pop :: stackCalls key calls else stackCalls key calls

/-- The values inserted for a key and not yet removed, the most recent first. -/
def notYetRemoved (calls : List (Call υ)) (key : CString) : List υ :=
  Stacks.after (stackCalls key calls) []

/-- Lookups after the calls are those without rebuilds, and give the most recent value. -/
def MeaningKept (size : Int32) (calls : List (Call υ)) : Prop :=
  ∀ key, dictionaryValueForKey (callAll true (dictionaryInit υ size) calls) key =
      dictionaryValueForKey (callAll false (dictionaryInit υ size) calls) key ∧
    dictionaryValueForKey (callAll false (dictionaryInit υ size) calls) key =
      (notYetRemoved calls key).head?

/-- Where the call rebuilds, the values of every key read the same from both ends. -/
def Unturned (d : DictionaryT υ) : Call υ → Prop
  | .insert key value => d.Rebuilds key →
      ∀ key', (d.pushed key value key').reverse = d.pushed key value key'
  | .remove _ => True

/-- No call of a run turns values around. -/
def UnturnedAll : DictionaryT υ → List (Call υ) → Prop
  | _, [] => True
  | d, c :: calls => Unturned d c ∧ UnturnedAll (call true d c) calls

/-! ## Without rebuilds -/

/-- Without rebuilds a dictionary is a stack of values for each key. -/
theorem values_callAll_false (d : DictionaryT υ) (calls : List (Call υ)) (key : CString) :
    (callAll false d calls).values key = Stacks.after (stackCalls key calls) (d.values key) := by
  induction calls generalizing d with
  | nil => rfl
  | cons c calls induction =>
      refine (induction (call false d c)).trans ?_
      cases c with
      | insert key' value =>
          rw [call, insert_without_rebuild, values_linkEntry, DictionaryT.pushed, stackCalls]
          by_cases same : key = key'
          · rw [if_pos same, if_pos same, same]
            rfl
          · rw [if_neg same, if_neg same]
      | remove key' =>
          rw [call, values_remove, DictionaryT.popped, stackCalls]
          by_cases same : key = key'
          · rw [if_pos same, if_pos same]
            rfl
          · rw [if_neg same, if_neg same]

/-! ## With rebuilds -/

section Steps

variable (same : ∀ key, d.values key = d'.values key)
include same

theorem pushed_congr (key : CString) (value : υ) (key' : CString) :
    d.pushed key value key' = d'.pushed key value key' := by
  rw [DictionaryT.pushed, DictionaryT.pushed, same key']

/-- A call that does not turn values around changes them as it does without rebuilds. -/
theorem values_call (wellPlaced : WellPlaced d) {c : Call υ} (unturned : Unturned d c)
    (key : CString) : (call true d c).values key = (call false d' c).values key := by
  cases c with
  | insert key' value =>
      rw [call, call, insert_without_rebuild, values_linkEntry, ← pushed_congr same]
      by_cases rebuilds : d.Rebuilds key'
      · rw [insert_of_rebuilds rebuilds,
          values_rebuilt (wellPlaced_linkEntry wellPlaced key' value),
          values_linkEntry, unturned rebuilds]
      · rw [insert_of_not_rebuilds rebuilds, values_linkEntry]
  | remove key' =>
      rw [call, call, values_remove, values_remove, DictionaryT.popped, DictionaryT.popped,
        same key]

/-- A run that does not turn values around leaves those that it leaves without rebuilds. -/
theorem values_callAll (wellPlaced : WellPlaced d) {calls : List (Call υ)}
    (unturned : UnturnedAll d calls) (key : CString) :
    (callAll true d calls).values key = (callAll false d' calls).values key := by
  induction calls generalizing d d' with
  | nil => exact same key
  | cons c calls induction =>
      exact induction (values_call same wellPlaced unturned.1)
        (wellPlaced_call wellPlaced true c) unturned.2

end Steps

theorem meaningKept_of_unturnedAll {size : Int32} {calls : List (Call υ)}
    (unturned : UnturnedAll (dictionaryInit υ size) calls) : MeaningKept size calls := by
  intro key
  rw [valueForKey_eq_head?, valueForKey_eq_head?,
    values_callAll (fun _ => rfl) (wellPlaced_init υ size) unturned, values_callAll_false,
    values_init]
  exact ⟨rfl, rfl⟩

/-! ## Where a rebuild shows -/

theorem callAll_append (rebuild : Bool) (d : DictionaryT υ) (calls calls' : List (Call υ)) :
    callAll rebuild d (calls ++ calls') = callAll rebuild (callAll rebuild d calls) calls' :=
  List.foldl_append ..

theorem unturnedAll_append {calls calls' : List (Call υ)} :
    UnturnedAll d (calls ++ calls') ↔
      UnturnedAll d calls ∧ UnturnedAll (callAll true d calls) calls' := by
  induction calls generalizing d with
  | nil => exact ⟨fun unturned => ⟨trivial, unturned⟩, And.right⟩
  | cons c calls induction =>
      rw [List.cons_append, UnturnedAll, induction, UnturnedAll, and_assoc]
      rfl

/-- Calls that remove keys. -/
def removes (υ : Type) (keys : List CString) : List (Call υ) := keys.map .remove

theorem unturnedAll_removes (d : DictionaryT υ) (keys : List CString) :
    UnturnedAll d (removes υ keys) := by
  induction keys generalizing d with
  | nil => trivial
  | cons key keys induction => exact ⟨trivial, induction _⟩

/-- Removing a key some times drops so many of its values. -/
theorem values_removes (rebuild : Bool) (d : DictionaryT υ) (n : Nat) (key : CString) :
    (callAll rebuild d (removes υ (List.replicate n key))).values key = (d.values key).drop n := by
  induction n generalizing d with
  | zero => rfl
  | succ n induction =>
      refine (induction (call rebuild d (.remove key))).trans ?_
      rw [call, values_remove, DictionaryT.popped, if_pos rfl, List.drop_tail]

/-- A call that turns values around shows in a lookup once enough of them have been removed. -/
theorem exists_removes_of_turned {size : Int32} {calls : List (Call υ)} {c : Call υ}
    (unturned : UnturnedAll (dictionaryInit υ size) calls)
    (turned : ¬ Unturned (callAll true (dictionaryInit υ size) calls) c) :
    ∃ keys, ¬ MeaningKept size (calls ++ [c] ++ removes υ keys) := by
  have same : ∀ key, (callAll true (dictionaryInit υ size) calls).values key =
      (callAll false (dictionaryInit υ size) calls).values key :=
    values_callAll (fun _ => rfl) (wellPlaced_init υ size) unturned
  have wellPlaced := wellPlaced_callAll (wellPlaced_init υ size) true calls
  cases c with
  | remove key => exact (turned trivial).elim
  | insert key value =>
      rw [Unturned] at turned
      push Not at turned
      obtain ⟨rebuilds, key', turned⟩ := turned
      obtain ⟨n, differ⟩ : ∃ n : Nat, _ ≠ _ := by
        by_contra equal
        push Not at equal
        exact turned (List.ext_getElem? equal)
      refine ⟨List.replicate n key', fun kept => differ ?_⟩
      obtain ⟨lookup, _⟩ := kept key'
      rw [valueForKey_eq_head?, valueForKey_eq_head?, callAll_append, callAll_append,
        callAll_append false, callAll_append false, values_removes, values_removes,
        List.head?_drop, List.head?_drop] at lookup
      change ((call true _ (.insert key value)).values key')[n]? =
        ((call false _ (.insert key value)).values key')[n]? at lookup
      rw [call, call, insert_of_rebuilds rebuilds,
        values_rebuilt (wellPlaced_linkEntry wellPlaced key value), insert_without_rebuild,
        values_linkEntry, values_linkEntry, ← pushed_congr same] at lookup
      exact lookup

/-- Lookups are those without rebuilds, at every point of a run and after removing any keys there,
exactly when no call of the run turns values around. -/
theorem unturnedAll_iff (size : Int32) (calls : List (Call υ)) :
    UnturnedAll (dictionaryInit υ size) calls ↔
      ∀ before, before <+: calls → ∀ keys, MeaningKept size (before ++ removes υ keys) := by
  constructor
  · rintro unturned before ⟨after, rfl⟩ keys
    apply meaningKept_of_unturnedAll
    rw [unturnedAll_append] at unturned ⊢
    exact ⟨unturned.1, unturnedAll_removes _ keys⟩
  · intro kept
    induction calls using List.reverseRecOn with
    | nil => trivial
    | append_singleton calls c induction =>
        have unturned : UnturnedAll (dictionaryInit υ size) calls :=
          induction fun before isPrefix =>
            kept before (isPrefix.trans (List.prefix_append calls [c]))
        rw [unturnedAll_append]
        refine ⟨unturned, ?_, trivial⟩
        by_contra turned
        obtain ⟨keys, lost⟩ := exists_removes_of_turned unturned turned
        exact lost (kept (calls ++ [c]) (List.prefix_refl _) keys)

/-- The key `"a"` inserted four times with the values 1 to 4. -/
def fourInserts : List (Call Nat) :=
  [.insert ⟨[97], by decide⟩ 1, .insert ⟨[97], by decide⟩ 2, .insert ⟨[97], by decide⟩ 3,
    .insert ⟨[97], by decide⟩ 4]

/-- The fourth insertion rebuilds, and the lookup goes back to the first value. -/
theorem not_meaningKept_fourInserts :
    dictionaryValueForKey (callAll true (dictionaryInit Nat 0) fourInserts) ⟨[97], by decide⟩ =
      some 1 ∧
    dictionaryValueForKey (callAll false (dictionaryInit Nat 0) fourInserts) ⟨[97], by decide⟩ =
      some 4 ∧
    ¬ MeaningKept 0 fourInserts := by
  have turned : dictionaryValueForKey (callAll true (dictionaryInit Nat 0) fourInserts)
      ⟨[97], by decide⟩ = some 1 := by decide +kernel
  have plain : dictionaryValueForKey (callAll false (dictionaryInit Nat 0) fourInserts)
      ⟨[97], by decide⟩ = some 4 := by decide +kernel
  refine ⟨turned, plain, fun kept => ?_⟩
  have same := (kept ⟨[97], by decide⟩).1
  rw [turned, plain] at same
  exact absurd same (by decide)

end ChainedDictionary
end OstrichServer
