import OstrichServer.Arrays.Growable

/-!
# The pointer arrays of `arrays.h`

The `TAB_*` macros and `array_t` allocate one cell more for each element and free the block with the
last one.  They find an element by its pointer, and can remove it.
-/

namespace OstrichServer
namespace Arrays

open Dictionary (intMax)

variable {α : Type}

/-- `os_realloc` or, for the first element, `os_malloc`. -/
def tabAlloc (garbage : Nat → α) (a : DynArray α) : DynArray α :=
  if 0 < a.size then { a with elems := a.elems.realloc garbage (a.size + 1) }
  else { a with elems := ⟨garbage, 1⟩ }

/-- `TAB_APPEND` -/
def tabAppend (garbage : Nat → α) (p : α) (a : DynArray α) : Option (DynArray α) := do
  let room := tabAlloc garbage a
  let written ← room.elems.write a.size p
  some ⟨written, a.size + 1⟩

/-- `TAB_INSERT`, `array_insert` -/
def tabInsert (garbage : Nat → α) (p : α) (index : Nat) (a : DynArray α) : Option (DynArray α) :=
  (tabAlloc garbage a).insertAt p index

/-- The loop of `TAB_FIND` from a position on. -/
def tabFindFrom [DecidableEq α] (p : α) (elems : Block α) : Nat → Nat → Option Int
  | 0, _ => some (-1)
  | left + 1, i => do
      let elem ← elems.read i
      if elem = p then some i else tabFindFrom p elems left (i + 1)

/-- `TAB_FIND`, `array_index_of_item` -/
def tabFind [DecidableEq α] (p : α) (a : DynArray α) : Option Int := tabFindFrom p a.elems a.size 0

/-- Without elements the block is freed. -/
def tabFree (a : DynArray α) : DynArray α :=
  if a.size = 0 then { a with elems := { a.elems with room := 0 } } else a

/-- `array_remove`; it does not look at the index of an only element, and the count of an empty
array would get negative. -/
def tabRemoveIndex (index : Int) (a : DynArray α) : Option (DynArray α) :=
  if 0 ≤ index then do
    if a.size = 0 then none
    let moved ←
      if 1 < a.size then
        if a.size ≤ index.toNat then none
        else a.elems.memmove index.toNat (index.toNat + 1) (a.size - index.toNat - 1)
      else some a.elems
    some (tabFree ⟨moved, a.size - 1⟩)
  else some a

/-- `TAB_REMOVE` -/
def tabRemove [DecidableEq α] (p : α) (a : DynArray α) : Option (DynArray α) := do
  let index ← tabFind p a
  tabRemoveIndex index a

/-- `TAB_CLEAN`, `array_clear` -/
def tabClean (a : DynArray α) : DynArray α where
  elems := { a.elems with room := 0 }
  size := 0

/-- `array_item_at_index` -/
def arrayItemAtIndex (a : DynArray α) (index : Int) : Option α :=
  if 0 ≤ index then a.elems.read index.toNat else none

/-- A use of one of the macros or functions. -/
inductive TabCall (α : Type)
  | append (p : α)
  | insert (p : α) (index : Nat)
  | remove (p : α)
  | removeIndex (index : Int)
  | clean

/-- A call, with what the cells contain that it allocates. -/
def TabCall.run [DecidableEq α] (a : DynArray α) : TabCall α × (Nat → α) → Option (DynArray α)
  | (.append p, garbage) => tabAppend garbage p a
  | (.insert p index, garbage) => tabInsert garbage p index a
  | (.remove p, _) => tabRemove p a
  | (.removeIndex index, _) => tabRemoveIndex index a
  | (.clean, _) => some (tabClean a)

/-- What a call does to the list of elements.  Any index removes an only element, and a negative one
none at all. -/
def TabCall.onList [DecidableEq α] (list : List α) : TabCall α → Option (List α)
  | .append p => if list.length < intMax then some (list ++ [p]) else none
  | .insert p index =>
      if index ≤ list.length ∧ list.length < intMax then some (list.insertIdx index p) else none
  | .remove p => some (list.erase p)
  | .removeIndex index =>
      if index < 0 then some list
      else if index < list.length then some (list.eraseIdx index.toNat)
      else if list.length = 1 then some []
      else none
  | .clean => some []

/-! ## Reading -/

theorem DynArray.Holds.read {a : DynArray α} {list : List α} (holds : a.Holds list) {i : Nat}
    (inside : i < list.length) : a.elems.read i = some list[i] := by
  rw [Block.read_of_lt (holds.size_eq ▸ inside) holds.fits, holds.contents_eq]
  exact List.getElem?_eq_getElem inside

theorem tabFindFrom_spec [DecidableEq α] (p : α) {a : DynArray α} {list : List α}
    (holds : a.Holds list) {left i : Nat} (rest : i + left = list.length) :
    tabFindFrom p a.elems left i =
      some (if p ∈ list.drop i then ((i + (list.drop i).idxOf p : Nat) : Int) else -1) := by
  induction left generalizing i with
  | zero =>
      have past : list.drop i = [] := List.drop_eq_nil_of_le (by omega)
      simp [tabFindFrom, past]
  | succ left induction =>
      have inside : i < list.length := by omega
      rw [tabFindFrom, holds.read inside, Option.bind_eq_bind, Option.bind_some,
        List.drop_eq_getElem_cons inside]
      by_cases found : list[i] = p
      · simp [found]
      · rw [if_neg found, induction (by omega), List.idxOf_cons_ne _ found]
        have other : p ≠ list[i] := fun equal => found equal.symm
        simp only [List.mem_cons, other, false_or]
        congr 2
        push_cast
        ring

theorem tabFind_spec [DecidableEq α] (p : α) {a : DynArray α} {list : List α}
    (holds : a.Holds list) :
    tabFind p a = some (if p ∈ list then (list.idxOf p : Int) else -1) := by
  have found := tabFindFrom_spec p holds (Nat.zero_add list.length)
  rw [List.drop_zero, Nat.zero_add] at found
  rw [tabFind, holds.size_eq, found]

/-- Every element is at its index. -/
theorem arrayItemAtIndex_spec {a : DynArray α} {list : List α} (holds : a.Holds list) {i : Nat}
    (inside : i < list.length) : arrayItemAtIndex a i = some list[i] := by
  rw [arrayItemAtIndex, if_pos (Int.natCast_nonneg i), Int.toNat_natCast]
  exact holds.read inside

/-! ## The calls -/

/-- The block is there as long as there are elements. -/
def Freed (a : DynArray α) : Prop := a.size = 0 → a.elems.room = 0

theorem DynArray.Holds.tabAlloc {a : DynArray α} {list : List α} (holds : a.Holds list)
    (garbage : Nat → α) : (Arrays.tabAlloc garbage a).Holds list ∧
      list.length < (Arrays.tabAlloc garbage a).elems.room ∧
      (Arrays.tabAlloc garbage a).size = a.size := by
  have size := holds.size_eq
  unfold Arrays.tabAlloc
  split
  next more =>
    exact ⟨holds.realloc garbage (by omega), by simp [size], rfl⟩
  next first =>
    have empty : list = [] := List.length_eq_zero_iff.mp (by omega)
    have none_yet : a.size = 0 := by omega
    subst empty
    exact ⟨⟨none_yet, by simp [none_yet], by simp [none_yet, Block.contents]⟩, by simp, rfl⟩

theorem DynArray.Holds.tabFree {a : DynArray α} {list : List α} (holds : a.Holds list) :
    (Arrays.tabFree a).Holds list ∧ Freed (Arrays.tabFree a) := by
  unfold Arrays.tabFree
  split
  next none_left => exact ⟨⟨holds.size_eq, none_left.le, holds.contents_eq⟩, fun _ => rfl⟩
  next some_left => exact ⟨holds, fun none_left => (some_left none_left).elim⟩

theorem DynArray.Holds.freed_of_pos {a : DynArray α} {list : List α} (holds : a.Holds list)
    (some_left : 0 < list.length) : Freed a :=
  fun none_left => absurd (holds.size_eq.symm.trans none_left) some_left.ne'

/-- `array_remove` at an index of the array. -/
theorem DynArray.Holds.tabRemoveIndex {a : DynArray α} {list : List α} (holds : a.Holds list)
    {index : Int} (inside : 0 ≤ index ∧ index < list.length) :
    ∃ a', Arrays.tabRemoveIndex index a = some a' ∧ a'.Holds (list.eraseIdx index.toNat) ∧
      Freed a' := by
  have size := holds.size_eq
  have below : index.toNat < list.length := by omega
  unfold Arrays.tabRemoveIndex
  rw [if_pos inside.1, if_neg (by omega)]
  by_cases several : 1 < a.size
  · obtain ⟨block, moved, -, there⟩ := holds.memmove below
    have allowed : ¬a.size ≤ index.toNat := by omega
    obtain ⟨final, freed⟩ := there.tabFree
    exact ⟨_, by simp [several, allowed, moved], final, freed⟩
  · have last : index.toNat + 1 = list.length := by omega
    obtain ⟨final, freed⟩ := (holds.erase_last last).tabFree
    exact ⟨_, by simp [several], final, freed⟩

/-- `array_remove` at an index past an only element. -/
theorem DynArray.Holds.tabRemoveIndex_only {a : DynArray α} {list : List α} (holds : a.Holds list)
    {index : Int} (positive : 0 ≤ index) (only : list.length = 1) :
    ∃ a', Arrays.tabRemoveIndex index a = some a' ∧ a'.Holds [] ∧ Freed a' := by
  have size := holds.size_eq
  have single : ¬1 < a.size := by omega
  have some_left : a.size ≠ 0 := by omega
  obtain ⟨elem, rfl⟩ := List.length_eq_one_iff.mp only
  obtain ⟨final, freed⟩ := (holds.erase_last (Nat.zero_add 1)).tabFree
  exact ⟨_, by simp [Arrays.tabRemoveIndex, positive, single, some_left], final, freed⟩

/-- Each call does to the elements what it does to the list. -/
theorem TabCall.run_spec [DecidableEq α] {a : DynArray α} {list list' : List α}
    (call : TabCall α × (Nat → α)) (holds : a.Holds list ∧ Freed a)
    (allowed : call.1.onList list = some list') :
    ∃ a', TabCall.run a call = some a' ∧ a'.Holds list' ∧ Freed a' := by
  obtain ⟨call, garbage⟩ := call
  obtain ⟨holds, freed⟩ := holds
  cases call with
  | append p =>
      simp only [onList, Option.ite_none_right_eq_some, Option.some.injEq] at allowed
      obtain ⟨-, rfl⟩ := allowed
      obtain ⟨there, space, size⟩ := holds.tabAlloc garbage
      obtain ⟨block, written, -, final⟩ := there.write_end p space
      rw [size] at written final
      exact ⟨_, by simp [run, tabAppend, written], final, final.freed_of_pos (by simp)⟩
  | insert p index =>
      simp only [onList, Option.ite_none_right_eq_some, Option.some.injEq] at allowed
      obtain ⟨⟨inside, -⟩, rfl⟩ := allowed
      obtain ⟨there, space, -⟩ := holds.tabAlloc garbage
      obtain ⟨a', inserted, -, final⟩ := there.insertAt p inside space
      have some_left : 0 < (list.insertIdx index p).length := by
        rw [List.length_insertIdx_of_le_length inside]
        exact Nat.succ_pos _
      exact ⟨a', inserted, final, final.freed_of_pos some_left⟩
  | remove p =>
      obtain rfl : list.erase p = list' := Option.some.inj allowed
      have found := tabFind_spec p holds
      rw [run, tabRemove, found, Option.bind_eq_bind, Option.bind_some]
      by_cases member : p ∈ list
      · have inside := List.idxOf_lt_length_iff.mpr member
        rw [if_pos member, List.erase_eq_eraseIdx_of_idxOf rfl]
        exact holds.tabRemoveIndex ⟨Int.natCast_nonneg _, Int.ofNat_lt.mpr inside⟩
      · rw [if_neg member, List.erase_of_not_mem member]
        exact ⟨a, rfl, holds, freed⟩
  | removeIndex index =>
      rw [onList] at allowed
      rcases lt_or_ge index 0 with negative | positive
      · rw [if_pos negative] at allowed
        cases allowed
        exact ⟨a, if_neg negative.not_ge, holds, freed⟩
      · rw [if_neg positive.not_gt] at allowed
        split at allowed
        next inside =>
          cases allowed
          exact holds.tabRemoveIndex ⟨positive, inside⟩
        next outside =>
          split at allowed
          next only =>
            cases allowed
            exact holds.tabRemoveIndex_only positive only
          next => cases allowed
  | clean =>
      cases allowed
      exact ⟨tabClean a, rfl, ⟨rfl, Nat.le_refl 0, rfl⟩, fun _ => rfl⟩

/-- A run of calls that stay in their list stays in the block, whose elements are then that list; a
search gives the first index of a pointer, or `-1`; every element is at its index; and no block is
kept for an empty array. -/
theorem tab_calls_hold [DecidableEq α] (garbage : Nat → α)
    (calls : List (TabCall α × (Nat → α))) {list : List α}
    (allowed : (calls.map Prod.fst).foldlM TabCall.onList [] = some list) :
    ∃ a, calls.foldlM TabCall.run (nullArray garbage) = some a ∧ a.Holds list ∧ Freed a ∧
      (∀ p, tabFind p a = some (if p ∈ list then (list.idxOf p : Int) else -1)) ∧
      ∀ i (inside : i < list.length), arrayItemAtIndex a i = some list[i] := by
  rw [List.foldlM_map] at allowed
  have start : (nullArray garbage).Holds [] ∧ Freed (nullArray garbage) :=
    ⟨DynArray.nullArray_holds garbage, fun _ => rfl⟩
  obtain ⟨a, run, holds, freed⟩ := Refinement.foldlM_of_foldlM
    (fun call holds allowed => TabCall.run_spec call holds allowed) start allowed
  exact ⟨a, run, holds, freed, fun p => tabFind_spec p holds,
    fun i inside => arrayItemAtIndex_spec holds inside⟩

/-- The array is filled, emptied and filled again. -/
theorem tab_calls_hold_refilled :
    ∃ a, [(.append 5, fun _ => 0), (.insert 4 0, fun _ => 0), (.removeIndex 1, fun _ => 0),
        (.clean, fun _ => 0), (.append 6, fun _ => 0), (.append 7, fun _ => 0),
        (.remove 6, fun _ => 0)].foldlM TabCall.run (nullArray fun _ => 0) = some a ∧
      a.Holds [7] ∧ Freed a ∧
      (∀ p, tabFind p a = some (if p ∈ [7] then (([7].idxOf p : Nat) : Int) else -1)) ∧
      ∀ i (inside : i < [7].length), arrayItemAtIndex a i = some [7][i] :=
  tab_calls_hold (fun _ => 0)
    [(.append 5, fun _ => 0), (.insert 4 0, fun _ => 0), (.removeIndex 1, fun _ => 0),
      (.clean, fun _ => 0), (.append 6, fun _ => 0), (.append 7, fun _ => 0),
      (.remove 6, fun _ => 0)] (by decide)

end Arrays
end OstrichServer
