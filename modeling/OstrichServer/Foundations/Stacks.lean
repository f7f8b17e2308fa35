import Mathlib.Data.List.Perm.Basic
import Mathlib.Data.List.ReduceOption
import Mathlib.Tactic

/-!
# Histories of a stack

Sequences of calls that push and pop, what the pops give, and what is left.
-/

namespace Stacks

variable {α : Type*}

inductive Call (α : Type*)
  | push (item : α)
  | pop
  deriving DecidableEq

/-- The stack after the calls, its last item first. -/
def after : List (Call α) → List α → List α
  | [], stack => stack
  | .push item :: calls, stack => after calls (item :: stack)
  | .pop :: calls, stack => after calls stack.tail

/-- What each pop gives. -/
def popped : List (Call α) → List α → List (Option α)
  | [], _ => []
  | .push item :: calls, stack => popped calls (item :: stack)
  | .pop :: calls, stack => stack.head? :: popped calls stack.tail

/-- The items that are pushed. -/
def pushed : List (Call α) → List α
  | [] => []
  | .push item :: calls => item :: pushed calls
  | .pop :: calls => pushed calls

/-- Each item that is pushed is not on the stack. -/
def Fresh : List (Call α) → List α → Prop
  | [], _ => True
  | .push item :: calls, stack => item ∉ stack ∧ Fresh calls (item :: stack)
  | .pop :: calls, stack => Fresh calls stack.tail

/-- Each item is pushed when the stack is empty. -/
def PushesAlone : List (Call α) → List α → Prop
  | [], _ => True
  | .push item :: calls, stack => stack = [] ∧ PushesAlone calls (item :: stack)
  | .pop :: calls, stack => PushesAlone calls stack.tail

/-- Every item is popped once or left. -/
theorem popped_append_after (calls : List (Call α)) (stack : List α) :
    ((popped calls stack).reduceOption ++ after calls stack).Perm (pushed calls ++ stack) := by
  induction calls generalizing stack with
  | nil => exact List.Perm.refl _
  | cons call calls induction =>
      cases call with
      | push item =>
          refine (induction (item :: stack)).trans ?_
          exact List.perm_middle
      | pop =>
          cases stack with
          | nil => exact induction []
          | cons item stack =>
              have moved := (induction stack).cons item
              exact moved.trans List.perm_middle.symm

end Stacks
