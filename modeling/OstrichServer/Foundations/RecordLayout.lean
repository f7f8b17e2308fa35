import Mathlib.Tactic

/-!
# Records laid out in memory

The offsets of fields that lie one after another, and that the ranges of two fields are disjoint.
-/

namespace RecordLayout

variable {F : Type*} [DecidableEq F] {size : F → Nat} {f g : F} {fields : List F}

/-- The offset of a field: the sizes of the fields before it. -/
def offset (size : F → Nat) (f : F) : List F → Nat
  | [] => 0
  | g :: fields => if g = f then 0 else size g + offset size f fields

/-- One of two fields ends before the other begins. -/
theorem offset_disjoint (size : F → Nat) (left : f ∈ fields) (right : g ∈ fields) (ne : f ≠ g) :
    offset size f fields + size f ≤ offset size g fields ∨
      offset size g fields + size g ≤ offset size f fields := by
  induction fields with
  | nil => cases left
  | cons h fields induction =>
      rw [offset, offset]
      by_cases first : h = f
      · subst first
        rw [if_pos rfl, if_neg ne]
        exact .inl (by omega)
      · by_cases second : h = g
        · subst second
          rw [if_neg first, if_pos rfl]
          exact .inr (by omega)
        · have disjoint := induction (List.mem_of_ne_of_mem (Ne.symm first) left)
            (List.mem_of_ne_of_mem (Ne.symm second) right)
          rw [if_neg first, if_neg second]
          omega

end RecordLayout
