import Mathlib.Logic.Function.Basic
import OstrichServer.Foundations.LabelledSystem

/-!
# Objects whose calls take effect at once

A sequential object says what a call returns and how it changes the object.  Threads that share one
call it, and each call takes effect at one moment between its beginning and its end.  A concurrent
implementation is linearizable when it shows only what these threads can show.
-/

/-- What each call does to the object and what it returns. -/
structure SequentialObject (σ γ ρ : Type*) where
  start : σ
  apply : σ → γ → ρ × σ

namespace AtomicObject

variable {ι σ γ ρ : Type*}

/-- What is seen of a thread. -/
inductive Event (ι γ ρ : Type*)
  | invoke (i : ι) (call : γ)
  | respond (i : ι) (answer : ρ)
  deriving DecidableEq

/-- Where a thread is in its call. -/
inductive Status (γ ρ : Type*)
  | idle
  /-- The call has begun and has had no effect. -/
  | invoked (call : γ)
  /-- The call took effect and has not returned. -/
  | answered (answer : ρ)
  deriving DecidableEq

/-- The object and its callers. -/
structure State (ι σ γ ρ : Type*) where
  object : σ
  status : ι → Status γ ρ

variable [DecidableEq ι]

/-- The thread's call has had its effect. -/
def State.afterEffect (object : SequentialObject σ γ ρ) (s : State ι σ γ ρ) (i : ι) (call : γ) :
    State ι σ γ ρ where
  object := (object.apply s.object call).2
  status := Function.update s.status i (.answered (object.apply s.object call).1)

/-- A step of a thread. -/
inductive Step (object : SequentialObject σ γ ρ) :
    State ι σ γ ρ → Option (Event ι γ ρ) → State ι σ γ ρ → Prop
  | invoke {s : State ι σ γ ρ} (i : ι) (call : γ) (here : s.status i = .idle) :
      Step object s (some (.invoke i call))
        { s with status := Function.update s.status i (.invoked call) }
  | effect {s : State ι σ γ ρ} (i : ι) (call : γ) (here : s.status i = .invoked call) :
      Step object s none (s.afterEffect object i call)
  | respond {s : State ι σ γ ρ} (i : ι) (answer : ρ) (here : s.status i = .answered answer) :
      Step object s (some (.respond i answer))
        { s with status := Function.update s.status i .idle }

/-- The threads on an object nobody has called. -/
def callers (object : SequentialObject σ γ ρ) :
    LabelledSystem (State ι σ γ ρ) (Event ι γ ρ) where
  initial s := s = ⟨object.start, fun _ => .idle⟩
  step := Step object

/-- The calls can be put in an order, each between its beginning and its end, in which the object
answers them as seen. -/
def Linearizable (object : SequentialObject σ γ ρ) (events : List (Event ι γ ρ)) : Prop :=
  (callers object).Trace events

/-- A call that takes effect and returns at once. -/
theorem run_finish (object : SequentialObject σ γ ρ) {s : State ι σ γ ρ} {i : ι} {call : γ}
    (here : s.status i = .invoked call) :
    (callers object).Run s [.respond i (object.apply s.object call).1]
      { object := (object.apply s.object call).2
        status := Function.update s.status i .idle } := by
  have effect : (callers object).Run s [] (s.afterEffect object i call) :=
    .silent (.effect i call here)
  have answered : (s.afterEffect object i call).status i =
      .answered (object.apply s.object call).1 := Function.update_self ..
  have respond : (callers object).Run (s.afterEffect object i call) [_] _ :=
    .visible (.respond i _ answered)
  simp only [State.afterEffect, Function.update_idem] at effect respond
  exact effect.trans respond

end AtomicObject
