import Mathlib.Data.List.Basic

/-!
# Refinement of partial operations

When each operation on concrete states does what an operation on abstract states does, wherever that
one is defined, then so does a run of them.
-/

namespace Refinement

variable {σ τ κ : Type*}

/-- A run is defined and related to the abstract run, whenever that one is defined. -/
theorem foldlM_of_foldlM {operation : σ → κ → Option σ} {abstract : τ → κ → Option τ}
    {related : σ → τ → Prop}
    (follows : ∀ {state abs abs'} (call : κ), related state abs → abstract abs call = some abs' →
      ∃ state', operation state call = some state' ∧ related state' abs')
    {calls : List κ} {state : σ} {abs abs' : τ} (here : related state abs)
    (run : calls.foldlM abstract abs = some abs') :
    ∃ state', calls.foldlM operation state = some state' ∧ related state' abs' := by
  induction calls generalizing state abs with
  | nil =>
      cases run
      exact ⟨state, rfl, here⟩
  | cons call calls induction =>
      obtain ⟨middle, first, rest⟩ := Option.bind_eq_some_iff.mp run
      obtain ⟨state', step, there⟩ := follows call here first
      obtain ⟨final, run', related'⟩ := induction there rest
      exact ⟨final, by rw [List.foldlM_cons, step]; exact run', related'⟩

end Refinement
