import Mathlib.Data.List.InsertIdx
import OstrichServer.Dictionary.Operations
import OstrichServer.Foundations.Blocks
import OstrichServer.Foundations.Refinement

/-!
# The growing arrays of `arrays.h`

The `ARRAY_*` macros keep spare cells behind the elements; the `TAB_*` macros and `array_t` make
room for one element at a time.  The elements of either are a list, and the calls are the operations
of lists as long as every position they are given lies in it.
-/

namespace OstrichServer
namespace Arrays

open Dictionary (intMax)

/-- `p_elems` with the cells allocated for it (for `DECL_ARRAY`, `i_alloc` of them), and `i_size` or
`i_count`. -/
structure DynArray (α : Type*) where
  elems : Block α
  size : Nat

variable {α : Type*}

/-- The array after `ARRAY_INIT`, `TAB_INIT` or `array_init`. -/
def nullArray (garbage : Nat → α) : DynArray α where
  elems := ⟨garbage, 0⟩
  size := 0

namespace DynArray

/-- `memmove` where elements follow the position, the write and the new size. -/
def insertAt (x : α) (pos : Nat) (a : DynArray α) : Option (DynArray α) := do
  if a.size < pos then none
  let moved ←
    if a.size - pos ≠ 0 then a.elems.memmove (pos + 1) pos (a.size - pos) else some a.elems
  let written ← moved.write pos x
  some ⟨written, a.size + 1⟩

/-- `memmove` where elements follow the one at the position. -/
def moveDown (pos : Nat) (a : DynArray α) : Option (Block α) :=
  if a.size ≤ pos then none
  else if a.size - pos - 1 ≠ 0 then a.elems.memmove pos (pos + 1) (a.size - pos - 1)
  else some a.elems

/-- The elements of an array are a list, and lie in its block. -/
structure Holds (a : DynArray α) (list : List α) : Prop where
  size_eq : a.size = list.length
  fits : a.size ≤ a.elems.room
  contents_eq : a.elems.contents a.size = list

variable {a : DynArray α} {list : List α}

theorem nullArray_holds (garbage : Nat → α) : (nullArray garbage).Holds [] :=
  ⟨rfl, Nat.le_refl 0, rfl⟩

namespace Holds

theorem realloc (holds : a.Holds list) (garbage : Nat → α) {room : Nat}
    (enough : list.length ≤ room) :
    DynArray.Holds { a with elems := a.elems.realloc garbage room } list where
  size_eq := holds.size_eq
  fits := holds.size_eq.trans_le enough
  contents_eq := (Block.contents_realloc garbage room holds.fits).trans holds.contents_eq

theorem write_end (holds : a.Holds list) (x : α) (space : list.length < a.elems.room) :
    ∃ block, a.elems.write a.size x = some block ∧ block.room = a.elems.room ∧
      DynArray.Holds ⟨block, a.size + 1⟩ (list ++ [x]) := by
  have fits : a.size < a.elems.room := holds.size_eq.trans_lt space
  obtain ⟨block, written, room, contents⟩ := Block.write_end x fits
  refine ⟨block, written, room, ?_, ?_, ?_⟩
  · simp [holds.size_eq]
  · exact room ▸ fits
  · rw [contents, holds.contents_eq]

theorem insertAt (holds : a.Holds list) (x : α) {pos : Nat} (inside : pos ≤ list.length)
    (space : list.length < a.elems.room) :
    ∃ a', a.insertAt x pos = some a' ∧ a'.elems.room = a.elems.room ∧
      a'.Holds (list.insertIdx pos x) := by
  rw [← holds.size_eq] at inside
  unfold DynArray.insertAt
  rw [if_neg inside.not_gt]
  rcases inside.eq_or_lt with rfl | before
  · obtain ⟨block, written, room, there⟩ := holds.write_end x space
    have last : list.insertIdx a.size x = list ++ [x] := by
      rw [holds.size_eq, List.insertIdx_length_self]
    exact ⟨⟨block, a.size + 1⟩, by simp [written], room, last ▸ there⟩
  · obtain ⟨moved, block, shifted, written, room, contents⟩ :=
      Block.insert_spec x inside (holds.size_eq.trans_lt space)
    have later : a.size - pos ≠ 0 := by omega
    have result : DynArray.Holds ⟨block, a.size + 1⟩ (list.insertIdx pos x) := by
      refine ⟨?_, room ▸ holds.size_eq.trans_lt space, ?_⟩
      · rw [List.length_insertIdx_of_le_length (holds.size_eq ▸ inside), holds.size_eq]
      · rw [contents, holds.contents_eq]
    exact ⟨⟨block, a.size + 1⟩, by simp [later, shifted, written], room, result⟩

theorem memmove (holds : a.Holds list) {pos : Nat} (inside : pos < list.length) :
    ∃ block, a.elems.memmove pos (pos + 1) (a.size - pos - 1) = some block ∧
      block.room = a.elems.room ∧ DynArray.Holds ⟨block, a.size - 1⟩ (list.eraseIdx pos) := by
  rw [← holds.size_eq] at inside
  obtain ⟨block, moved, room, contents⟩ := Block.erase_spec inside holds.fits
  refine ⟨block, moved, room, ?_, ?_, ?_⟩
  · rw [List.length_eraseIdx_of_lt (holds.size_eq ▸ inside), holds.size_eq]
  · exact room ▸ (Nat.sub_le _ _).trans holds.fits
  · rw [contents, holds.contents_eq]

/-- Without the last element nothing has to move. -/
theorem erase_last (holds : a.Holds list) {pos : Nat} (last : pos + 1 = list.length) :
    DynArray.Holds ⟨a.elems, a.size - 1⟩ (list.eraseIdx pos) := by
  obtain ⟨block, moved, room, there⟩ := holds.memmove (Nat.lt_of_succ_le last.le)
  have none_after : a.size - pos - 1 = 0 := by
    have := holds.size_eq
    omega
  refine ⟨there.size_eq, (Nat.sub_le _ _).trans holds.fits, ?_⟩
  rw [← there.contents_eq]
  refine List.map_congr_left fun i below => ?_
  rw [none_after, Block.memmove] at moved
  split at moved
  · cases moved
    have outside : ¬(pos ≤ i ∧ i < pos + 0) := by omega
    exact (if_neg outside).symm
  · cases moved

theorem moveDown (holds : a.Holds list) {pos : Nat} (inside : pos < list.length) :
    ∃ block, a.moveDown pos = some block ∧ block.room = a.elems.room ∧
      DynArray.Holds ⟨block, a.size - 1⟩ (list.eraseIdx pos) := by
  have size := holds.size_eq
  unfold DynArray.moveDown
  rw [if_neg (by omega)]
  split
  next => exact holds.memmove inside
  next last => exact ⟨a.elems, rfl, rfl, holds.erase_last (by omega)⟩

end Holds
end DynArray

open DynArray

/-! ## `ARRAY_*` -/

/-- `_ARRAY_ALLOC` -/
def arrayAlloc (garbage : Nat → α) (newsize : Nat) (a : DynArray α) : DynArray α :=
  { a with elems := a.elems.realloc garbage newsize }

/-- `_ARRAY_GROW1`; the conversion of `i_alloc * 1.5` to `int` is not defined past `INT_MAX`. -/
def arrayGrow1 (garbage : Nat → α) (a : DynArray α) : Option (DynArray α) :=
  if a.elems.room < 10 then some (arrayAlloc garbage 10 a)
  else if a.elems.room = a.size then
    if a.elems.room * 3 / 2 ≤ intMax then
      some (arrayAlloc garbage (a.elems.room * 3 / 2) a)
    else none
  else some a

/-- `ARRAY_APPEND` -/
def arrayAppend (garbage : Nat → α) (elem : α) (a : DynArray α) : Option (DynArray α) := do
  let grown ← arrayGrow1 garbage a
  let written ← grown.elems.write grown.size elem
  some ⟨written, grown.size + 1⟩

/-- `ARRAY_INSERT` -/
def arrayInsert (garbage : Nat → α) (elem : α) (pos : Nat) (a : DynArray α) :
    Option (DynArray α) := do
  let grown ← arrayGrow1 garbage a
  grown.insertAt elem pos

/-- `_ARRAY_SHRINK`; rounding the quotient `i_alloc / 1.5` cannot take it to the next integer. -/
def arrayShrink (garbage : Nat → α) (a : DynArray α) : DynArray α :=
  if 10 < a.size ∧ a.size < a.elems.room * 2 / 3 then arrayAlloc garbage (a.size + 5) a else a

/-- `ARRAY_REMOVE` -/
def arrayRemove (garbage : Nat → α) (pos : Nat) (a : DynArray α) : Option (DynArray α) := do
  let moved ← a.moveDown pos
  some (arrayShrink garbage ⟨moved, a.size - 1⟩)

/-- A use of one of the macros. -/
inductive ArrayCall (α : Type*)
  | append (elem : α)
  | insert (elem : α) (pos : Nat)
  | remove (pos : Nat)

/-- A call, with what the cells contain that it allocates. -/
def ArrayCall.run (a : DynArray α) : ArrayCall α × (Nat → α) → Option (DynArray α)
  | (.append elem, garbage) => arrayAppend garbage elem a
  | (.insert elem pos, garbage) => arrayInsert garbage elem pos a
  | (.remove pos, garbage) => arrayRemove garbage pos a

/-- The last size that `_ARRAY_GROW1` gets to from a room that it can enlarge. -/
def arrayLimit : Nat := 1431655766

/-- What a call does to the list of elements; positions outside of it are not allowed. -/
def ArrayCall.onList (list : List α) : ArrayCall α → Option (List α)
  | .append elem => if list.length < arrayLimit then some (list ++ [elem]) else none
  | .insert elem pos =>
      if pos ≤ list.length ∧ list.length < arrayLimit then some (list.insertIdx pos elem) else none
  | .remove pos => if pos < list.length then some (list.eraseIdx pos) else none

/-- The cells allocated are none or at least ten, and not many more than the elements. -/
structure Roomy (a : DynArray α) : Prop where
  start : a.elems.room = 0 ∨ 10 ≤ a.elems.room
  spare : 2 * a.elems.room ≤ max 34 (3 * a.size + 2)

theorem DynArray.Holds.arrayGrow1 {a : DynArray α} {list : List α} (holds : a.Holds list)
    (roomy : Roomy a)
    (garbage : Nat → α) (small : list.length < arrayLimit) :
    ∃ grown, Arrays.arrayGrow1 garbage a = some grown ∧ grown.Holds list ∧
      list.length < grown.elems.room ∧ 10 ≤ grown.elems.room ∧
      2 * grown.elems.room ≤ max 34 (3 * list.length + 2) := by
  have size := holds.size_eq
  have fits := holds.fits
  have spare := roomy.spare
  unfold Arrays.arrayGrow1
  split
  next first =>
    exact ⟨_, rfl, holds.realloc garbage (by omega), by simp [arrayAlloc]; omega,
      by simp [arrayAlloc], by simp [arrayAlloc]⟩
  next other =>
    split
    next full =>
      have below : a.elems.room * 3 / 2 ≤ intMax := by
        unfold arrayLimit at small
        unfold intMax
        omega
      rw [if_pos below]
      refine ⟨_, rfl, holds.realloc garbage (by omega), ?_, ?_, ?_⟩ <;>
        dsimp only [arrayAlloc, Block.realloc] <;> omega
    next => exact ⟨a, rfl, holds, by omega, by omega, by omega⟩

theorem DynArray.Holds.arrayShrink {a : DynArray α} {list : List α} (holds : a.Holds list)
    (garbage : Nat → α) (start : a.elems.room = 0 ∨ 10 ≤ a.elems.room)
    (spare : 2 * a.elems.room ≤ max 34 (3 * a.size + 5)) :
    (Arrays.arrayShrink garbage a).Holds list ∧ Roomy (Arrays.arrayShrink garbage a) := by
  have size := holds.size_eq
  unfold Arrays.arrayShrink
  split
  next loose =>
    refine ⟨holds.realloc garbage (by omega), ?_, ?_⟩ <;>
      dsimp only [arrayAlloc, Block.realloc] <;> omega
  next tight =>
    refine ⟨holds, start, ?_⟩
    omega

/-- Each call does to the elements what it does to the list. -/
theorem ArrayCall.run_spec {a : DynArray α} {list list' : List α}
    (call : ArrayCall α × (Nat → α)) (holds : a.Holds list ∧ Roomy a)
    (allowed : call.1.onList list = some list') :
    ∃ a', ArrayCall.run a call = some a' ∧ a'.Holds list' ∧ Roomy a' := by
  obtain ⟨call, garbage⟩ := call
  obtain ⟨holds, roomy⟩ := holds
  cases call with
  | append elem =>
      simp only [onList, Option.ite_none_right_eq_some, Option.some.injEq] at allowed
      obtain ⟨small, rfl⟩ := allowed
      obtain ⟨grown, grows, there, space, ten, spare⟩ := holds.arrayGrow1 roomy garbage small
      obtain ⟨block, written, room, final⟩ := there.write_end elem space
      refine ⟨_, by simp [run, arrayAppend, grows, written], final, Or.inr ?_, ?_⟩
      · exact room.symm ▸ ten
      · have size := there.size_eq
        simp only [room]
        omega
  | insert elem pos =>
      simp only [onList, Option.ite_none_right_eq_some, Option.some.injEq] at allowed
      obtain ⟨⟨inside, small⟩, rfl⟩ := allowed
      obtain ⟨grown, grows, there, space, ten, spare⟩ := holds.arrayGrow1 roomy garbage small
      obtain ⟨a', inserted, room, final⟩ := there.insertAt elem inside space
      refine ⟨a', by simp [run, arrayInsert, grows, inserted], final, Or.inr ?_, ?_⟩
      · exact room.symm ▸ ten
      · have size := final.size_eq
        rw [List.length_insertIdx_of_le_length inside] at size
        rw [room]
        omega
  | remove pos =>
      simp only [onList, Option.ite_none_right_eq_some, Option.some.injEq] at allowed
      obtain ⟨inside, rfl⟩ := allowed
      have size := holds.size_eq
      have spare := roomy.spare
      obtain ⟨block, moved, room, final⟩ := holds.moveDown inside
      obtain ⟨final', roomy'⟩ := final.arrayShrink garbage (by simpa only [room] using roomy.start)
        (by simp only [room]; omega)
      exact ⟨_, by simp [run, arrayRemove, moved], final', roomy'⟩

/-- A run of `ARRAY_*` calls that stay in their list stays in the block, whose elements are then
that list, and its room is about half as much again as they need at most. -/
theorem array_calls_hold (garbage : Nat → α) (calls : List (ArrayCall α × (Nat → α)))
    {list : List α} (allowed : (calls.map Prod.fst).foldlM ArrayCall.onList [] = some list) :
    ∃ a, calls.foldlM ArrayCall.run (nullArray garbage) = some a ∧ a.Holds list ∧ Roomy a := by
  rw [List.foldlM_map] at allowed
  have start : (nullArray garbage).Holds [] ∧ Roomy (nullArray garbage) :=
    ⟨nullArray_holds garbage, Or.inl rfl, by simp [nullArray]⟩
  exact Refinement.foldlM_of_foldlM
    (fun call holds allowed => ArrayCall.run_spec call holds allowed)
    start allowed

theorem array_calls_hold_three :
    ∃ a, [(.append 5, fun _ => 0), (.insert 4 0, fun _ => 0), (.remove 1, fun _ => 0)].foldlM
        ArrayCall.run (nullArray fun _ => 0) = some a ∧ a.Holds [4] ∧ Roomy a :=
  array_calls_hold (fun _ => 0)
    [(.append 5, fun _ => 0), (.insert 4 0, fun _ => 0), (.remove 1, fun _ => 0)] (by decide)

end Arrays
end OstrichServer
