import Mathlib.Logic.Relation

/-!
# Transition systems

Reachable states, and invariants by induction over runs.
-/

/-- Initial states and steps. -/
structure TransitionSystem (σ : Type*) where
  initial : σ → Prop
  step : σ → σ → Prop

namespace TransitionSystem

variable {σ : Type*} (system : TransitionSystem σ)

/-- The states runs lead to. -/
def Reachable (state : σ) : Prop :=
  ∃ start, system.initial start ∧ Relation.ReflTransGen system.step start state

/-- A property that holds at the start and which every step keeps. -/
structure IsInvariant (holds : σ → Prop) : Prop where
  initial : ∀ state, system.initial state → holds state
  step : ∀ {state next}, holds state → system.step state next → holds next

variable {system}

theorem Reachable.step {state next : σ} (reachable : system.Reachable state)
    (step : system.step state next) : system.Reachable next := by
  obtain ⟨start, initial, run⟩ := reachable
  exact ⟨start, initial, run.tail step⟩

theorem reachable_of_initial {state : σ} (initial : system.initial state) :
    system.Reachable state :=
  ⟨state, initial, .refl⟩

/-- Invariants hold in every reachable state. -/
theorem IsInvariant.of_reachable {holds : σ → Prop} (invariant : system.IsInvariant holds)
    {state : σ} (reachable : system.Reachable state) : holds state := by
  obtain ⟨start, initial, run⟩ := reachable
  induction run with
  | refl => exact invariant.initial start initial
  | tail _ step induction => exact invariant.step induction step

end TransitionSystem
