import Mathlib.Data.List.InsertIdx
import Mathlib.Logic.Function.Basic
import Mathlib.Tactic

/-!
# Blocks of cells

A block of memory has room for a number of cells, and an access past its end gives nothing.  Its
first cells hold a list, which moving cells and writing one changes by an insertion or an erasure.
-/

/-- A block of memory; what lies past its room is not part of it. -/
structure Block (α : Type*) where
  cells : Nat → α
  room : Nat

namespace Block

variable {α : Type*}

/-- Give the block another room; new cells have any contents. -/
def realloc (garbage : Nat → α) (room : Nat) (block : Block α) : Block α where
  cells i := if i < block.room then block.cells i else garbage i
  room := room

/-- Copy `count` cells from `src` on to `dst` on, which may overlap them. -/
def memmove (dst src count : Nat) (block : Block α) : Option (Block α) :=
  if dst + count ≤ block.room ∧ src + count ≤ block.room then
    some { block with
      cells := fun i =>
        if dst ≤ i ∧ i < dst + count then block.cells (src + (i - dst)) else block.cells i }
  else none

def write (i : Nat) (x : α) (block : Block α) : Option (Block α) :=
  if i < block.room then some { block with cells := Function.update block.cells i x } else none

def read (block : Block α) (i : Nat) : Option α :=
  if i < block.room then some (block.cells i) else none

/-- The first cells. -/
def contents (block : Block α) (count : Nat) : List α := (List.range count).map block.cells

@[simp]
theorem length_contents (block : Block α) (count : Nat) :
    (block.contents count).length = count := by
  simp [contents]

@[simp]
theorem getElem_contents (block : Block α) (count : Nat) {i : Nat}
    (inside : i < (block.contents count).length) : (block.contents count)[i] = block.cells i := by
  simp [contents]

@[simp]
theorem realloc_room (garbage : Nat → α) (room : Nat) (block : Block α) :
    (block.realloc garbage room).room = room :=
  rfl

/-- The cells that a block keeps are not changed. -/
theorem contents_realloc (garbage : Nat → α) (room : Nat) {block : Block α} {count : Nat}
    (fits : count ≤ block.room) : (block.realloc garbage room).contents count =
      block.contents count := by
  refine List.map_congr_left fun i inside => ?_
  have below := List.mem_range.mp inside
  simp [realloc, below.trans_le fits]

/-- A read inside the list gives its item. -/
theorem read_of_lt {block : Block α} {count i : Nat} (inside : i < count)
    (fits : count ≤ block.room) : block.read i = (block.contents count)[i]? := by
  rw [read, if_pos (inside.trans_le fits), List.getElem?_eq_getElem (by simpa using inside),
    getElem_contents]

/-- Writing after the list appends to it. -/
theorem write_end {block : Block α} {count : Nat} (x : α) (fits : count < block.room) :
    ∃ block', block.write count x = some block' ∧ block'.room = block.room ∧
      block'.contents (count + 1) = block.contents count ++ [x] := by
  refine ⟨_, if_pos fits, rfl, ?_⟩
  rw [contents, List.range_succ, List.map_append, List.map_singleton]
  dsimp only
  rw [Function.update_self]
  congr 1
  refine List.map_congr_left fun i inside => ?_
  exact Function.update_of_ne (List.mem_range.mp inside).ne _ _

/-- Moving the cells from a position on up by one and writing there inserts into the list. -/
theorem insert_spec {block : Block α} {pos count : Nat} (x : α) (order : pos ≤ count)
    (fits : count < block.room) :
    ∃ moved block', block.memmove (pos + 1) pos (count - pos) = some moved ∧
      moved.write pos x = some block' ∧ block'.room = block.room ∧
      block'.contents (count + 1) = (block.contents count).insertIdx pos x := by
  have inner : pos + 1 + (count - pos) ≤ block.room ∧ pos + (count - pos) ≤ block.room := by omega
  refine ⟨_, _, if_pos inner, if_pos (order.trans_lt fits), rfl, ?_⟩
  refine List.ext_getElem (by simp [List.length_insertIdx, order]) fun i inside inside' => ?_
  rw [length_contents] at inside
  rw [getElem_contents, List.getElem_insertIdx]
  simp only [getElem_contents]
  rcases lt_trichotomy i pos with before | rfl | after
  · rw [Function.update_of_ne before.ne, dif_pos before, if_neg (by omega)]
  · rw [Function.update_self, dif_neg (lt_irrefl i), dif_pos rfl]
  · have moved : pos + 1 ≤ i ∧ i < pos + 1 + (count - pos) := by omega
    rw [Function.update_of_ne after.ne', dif_neg after.not_gt, dif_neg after.ne', if_pos moved]
    congr 1
    omega

/-- Moving the cells after a position down by one erases from the list. -/
theorem erase_spec {block : Block α} {pos count : Nat} (inside : pos < count)
    (fits : count ≤ block.room) :
    ∃ block', block.memmove pos (pos + 1) (count - pos - 1) = some block' ∧
      block'.room = block.room ∧
      block'.contents (count - 1) = (block.contents count).eraseIdx pos := by
  have inner : pos + (count - pos - 1) ≤ block.room ∧ pos + 1 + (count - pos - 1) ≤ block.room := by
    omega
  refine ⟨_, if_pos inner, rfl, ?_⟩
  refine List.ext_getElem (by simp [List.length_eraseIdx, inside]) fun i below below' => ?_
  rw [length_contents] at below
  rw [getElem_contents, List.getElem_eraseIdx]
  simp only [getElem_contents]
  rcases lt_or_ge i pos with before | after
  · rw [dif_pos before, if_neg (by omega)]
  · have moved : pos ≤ i ∧ i < pos + (count - pos - 1) := by omega
    rw [dif_neg after.not_gt, if_pos moved]
    congr 1
    omega

end Block
