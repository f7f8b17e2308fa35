import Mathlib.Logic.Relation

/-!
# Labelled transition systems

Steps that show a label or none, the traces of runs, and simulations, which carry the traces of one
system over to another.
-/

/-- Initial states, and steps with the label they show. -/
structure LabelledSystem (σ τ : Type*) where
  initial : σ → Prop
  step : σ → Option τ → σ → Prop

namespace LabelledSystem

variable {σ σ' τ : Type*}

/-- A run, with the labels it shows. -/
inductive Run (system : LabelledSystem σ τ) : σ → List τ → σ → Prop
  | refl (state : σ) : Run system state [] state
  | tail {start state next : σ} {labels : List τ} {label : Option τ}
      (run : Run system start labels state) (step : system.step state label next) :
      Run system start (labels ++ label.toList) next

/-- The labels that a run from an initial state can show. -/
def Trace (system : LabelledSystem σ τ) (labels : List τ) : Prop :=
  ∃ start state, system.initial start ∧ system.Run start labels state

variable {system : LabelledSystem σ τ}

theorem Run.trans {start state next : σ} {labels labels' : List τ}
    (run : system.Run start labels state) (run' : system.Run state labels' next) :
    system.Run start (labels ++ labels') next := by
  induction run' with
  | refl => rwa [List.append_nil]
  | tail _ step induction =>
      rw [← List.append_assoc]
      exact induction.tail step

theorem Run.thenSilent {start state next : σ} {labels : List τ}
    (run : system.Run start labels state) (step : system.step state none next) :
    system.Run start labels next := by
  simpa using run.tail step

theorem Run.thenVisible {start state next : σ} {labels : List τ} {label : τ}
    (run : system.Run start labels state) (step : system.step state (some label) next) :
    system.Run start (labels ++ [label]) next :=
  run.tail step

theorem Run.single {state next : σ} {label : Option τ} (step : system.step state label next) :
    system.Run state label.toList next :=
  (Run.refl state).tail step

theorem Run.silent {state next : σ} (step : system.step state none next) :
    system.Run state [] next :=
  Run.single step

theorem Run.visible {state next : σ} {label : τ} (step : system.step state (some label) next) :
    system.Run state [label] next :=
  Run.single step

/-- Each step of one system is a run of another one that shows the same. -/
structure Simulation (system : LabelledSystem σ τ) (abstract : LabelledSystem σ' τ)
    (related : σ → σ' → Prop) : Prop where
  initial : ∀ state, system.initial state → ∃ state', abstract.initial state' ∧
    related state state'
  step : ∀ {state state' label next}, related state state' → system.step state label next →
    ∃ next', abstract.Run state' label.toList next' ∧ related next next'

namespace Simulation

variable {abstract : LabelledSystem σ' τ} {related : σ → σ' → Prop}
  (simulation : Simulation system abstract related)
include simulation

theorem run {start state : σ} {start' : σ'} {labels : List τ} (here : related start start')
    (run : system.Run start labels state) :
    ∃ state', abstract.Run start' labels state' ∧ related state state' := by
  induction run with
  | refl => exact ⟨start', .refl start', here⟩
  | tail _ step induction =>
      obtain ⟨state', run', there⟩ := induction
      obtain ⟨next', more, related'⟩ := simulation.step there step
      exact ⟨next', run'.trans more, related'⟩

/-- Whatever one system shows, the other one can show. -/
theorem trace {labels : List τ} (trace : system.Trace labels) : abstract.Trace labels := by
  obtain ⟨start, state, initial, run⟩ := trace
  obtain ⟨start', initial', here⟩ := simulation.initial start initial
  obtain ⟨state', run', -⟩ := simulation.run here run
  exact ⟨start', state', initial', run'⟩

end Simulation

end LabelledSystem
