import Mathlib.Data.List.Infix
import Mathlib.Tactic

/-!
# Occurrences of a pattern in a text

Where a pattern stands in a text when symbols are compared through a view of them, and which of its
positions is the first.
-/

namespace Occurrences

variable {α β : Type*}

/-- The pattern stands at this position of the text, as far as the view shows. -/
def OccursAt (view : α → β) (pattern text : List α) (position : Nat) : Prop :=
  pattern.map view <+: (text.map view).drop position

/-- The least position with a property, or `none` when no position has it. -/
def IsFirst (holds : Nat → Prop) : Option Nat → Prop
  | none => ∀ position, ¬ holds position
  | some first => holds first ∧ ∀ position < first, ¬ holds position

section Patterns

variable {view : α → β} {c d : α} {pattern text : List α} {position : Nat}

@[simp] theorem occursAt_cons_zero :
    OccursAt view (c :: pattern) (d :: text) 0 ↔
      view c = view d ∧ OccursAt view pattern text 0 := by
  rw [OccursAt, List.map_cons, List.map_cons, List.drop_zero, List.cons_prefix_cons, OccursAt,
    List.drop_zero]

@[simp] theorem occursAt_nil : OccursAt view [] text position := List.nil_prefix

theorem not_occursAt_text_nil : ¬ OccursAt view (c :: pattern) [] position := by
  intro occurs
  rw [OccursAt, List.map_nil, List.drop_nil] at occurs
  exact List.cons_ne_nil _ _ (List.prefix_nil.mp occurs)

end Patterns

section First

variable {holds : Nat → Prop} {answer : Option Nat}

theorem isFirst_of_zero (here : holds 0) : IsFirst holds (some 0) :=
  ⟨here, fun position before => (Nat.not_lt_zero position before).elim⟩

/-- Where the first position is not one, the search goes on with the positions after it. -/
theorem isFirst_of_succ (skip : ¬ holds 0)
    (later : IsFirst (fun position => holds (position + 1)) answer) :
    IsFirst holds (answer.map (· + 1)) := by
  cases answer with
  | none =>
      intro position
      cases position with
      | zero => exact skip
      | succ position => exact later position
  | some first =>
      refine ⟨later.1, fun position before => ?_⟩
      cases position with
      | zero => exact skip
      | succ position => exact later.2 position (Nat.lt_of_succ_lt_succ before)

end First

end Occurrences
