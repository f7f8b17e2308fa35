import Mathlib.Data.List.Basic

/-!
# Read trees

Computations that read the cells of a memory one after another, where the values read so far decide
which cell comes next.  Such a computation depends on the cells it reads and on no others.
-/

/-- A computation with its reads: a result, or a cell to read and how to go on from its value. -/
inductive ReadTree (ι α β : Type*)
  | result (value : β)
  | read (cell : ι) (next : α → ReadTree ι α β)

namespace ReadTree

variable {ι α β : Type*}

/-- The result over a memory. -/
def eval (memory : ι → α) : ReadTree ι α β → β
  | .result value => value
  | .read cell next => (next (memory cell)).eval memory

/-- The cells read over a memory, in order. -/
def reads (memory : ι → α) : ReadTree ι α β → List ι
  | .result _ => []
  | .read cell next => cell :: (next (memory cell)).reads memory

/-- Memories that agree on the cells read give the same result. -/
theorem eval_congr {memory memory' : ι → α} (tree : ReadTree ι α β)
    (same : ∀ cell ∈ tree.reads memory, memory cell = memory' cell) :
    tree.eval memory = tree.eval memory' := by
  induction tree with
  | result value => rfl
  | read cell next induction =>
      have here : memory cell = memory' cell := same cell List.mem_cons_self
      have later := induction (memory cell) fun cell' member =>
        same cell' (List.mem_cons_of_mem _ member)
      rw [eval, eval, ← here]
      exact later

/-! ## Where a tree reads -/

/-- Over any memory, only these cells are read. -/
inductive Within (allowed : ι → Prop) : ReadTree ι α β → Prop
  | result (value : β) : Within allowed (.result value)
  | read {cell : ι} {next : α → ReadTree ι α β} (here : allowed cell)
      (later : ∀ value, Within allowed (next value)) : Within allowed (.read cell next)

theorem Within.of_mem_reads {allowed : ι → Prop} {tree : ReadTree ι α β}
    (within : tree.Within allowed) {memory : ι → α} {cell : ι}
    (member : cell ∈ tree.reads memory) : allowed cell := by
  induction within with
  | result value => cases member
  | @read cell' next here later induction =>
      rcases List.mem_cons.mp member with rfl | after
      · exact here
      · exact induction (memory cell') after

/-! ## Tests in a row -/

section Tests

variable [DecidableEq α] {yes no : ReadTree ι α β}

/-- Test whether some cells hold given values, from left to right up to the first that does not. -/
def tests (expected : List (ι × α)) (yes no : ReadTree ι α β) : ReadTree ι α β :=
  match expected with
  | [] => yes
  | (cell, value) :: expected =>
      .read cell fun found => if found = value then tests expected yes no else no

theorem eval_tests (memory : ι → α) (expected : List (ι × α)) :
    (tests expected yes no).eval memory =
      if ∀ test ∈ expected, memory test.1 = test.2 then yes.eval memory else no.eval memory := by
  induction expected with
  | nil => simp [tests]
  | cons test expected induction =>
      obtain ⟨cell, value⟩ := test
      by_cases equal : memory cell = value
      · simp only [tests, eval, equal, if_true, induction, List.forall_mem_cons, true_and]
      · simp only [tests, eval, equal, if_false, List.forall_mem_cons, false_and]

theorem Within.tests {allowed : ι → Prop} {expected : List (ι × α)}
    (inside : ∀ test ∈ expected, allowed test.1) (whenAll : yes.Within allowed)
    (otherwise : no.Within allowed) : (ReadTree.tests expected yes no).Within allowed := by
  induction expected with
  | nil => exact whenAll
  | cons test expected induction =>
      obtain ⟨here, later⟩ := List.forall_mem_cons.mp inside
      apply Within.read here
      intro found
      split
      · exact induction later
      · exact otherwise

end Tests

end ReadTree
