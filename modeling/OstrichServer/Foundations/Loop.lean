import Mathlib.Logic.Function.Iterate
import Mathlib.Tactic

/-!
# Loops

A loop repeats a round on its state until one stops with a result.  Run with a bound on the number
of rounds, it gives the result or nothing.  When the rounds that go on all change the state in one
way, the states of the loop are the iterates of that change.
-/

namespace Loop

variable {σ β : Type*}

/-- What a round does: go on with a new state, or stop with a result. -/
inductive Round (σ β : Type*)
  | next (state : σ)
  | stop (out : β)

/-- At most `fuel` rounds. -/
def run (round : σ → Round σ β) : Nat → σ → Option β
  | 0, _ => none
  | fuel + 1, state =>
      match round state with
      | .next state => run round fuel state
      | .stop out => some out

variable {round : σ → Round σ β} {fuel : Nat} {state : σ} {out : β}

theorem run_of_next {next : σ} (step : round state = .next next) :
    run round (fuel + 1) state = run round fuel next := by
  rw [run, step]

theorem run_of_stop (step : round state = .stop out) : run round (fuel + 1) state = some out := by
  rw [run, step]

/-- More fuel gives the same result. -/
theorem run_add (result : run round fuel state = some out) (more : Nat) :
    run round (fuel + more) state = some out := by
  induction fuel generalizing state with
  | zero => cases result
  | succ fuel induction =>
      rw [Nat.succ_add]
      cases step : round state with
      | stop out' =>
          rw [run_of_stop step] at result ⊢
          exact result
      | next state' =>
          rw [run_of_next step] at result ⊢
          exact induction result

/-- A loop has one result. -/
theorem run_unique {fuel' : Nat} {out' : β} (result : run round fuel state = some out)
    (result' : run round fuel' state = some out') : out = out' := by
  have left := run_add result fuel'
  have right := run_add result' fuel
  rw [Nat.add_comm, left] at right
  exact Option.some.inj right

/-- A loop that goes along a path to a round that stops gives that round's result. -/
theorem run_of_path (path : Nat → σ) (k : Nat)
    (going : ∀ j < k, round (path j) = .next (path (j + 1)))
    (stops : round (path k) = .stop out) (enough : k < fuel) :
    run round fuel (path 0) = some out := by
  induction k generalizing path fuel with
  | zero =>
      obtain ⟨fuel, rfl⟩ := Nat.exists_eq_succ_of_ne_zero enough.ne'
      exact run_of_stop stops
  | succ k induction =>
      obtain ⟨fuel, rfl⟩ := Nat.exists_eq_succ_of_ne_zero (Nat.ne_zero_of_lt enough)
      rw [run_of_next (going 0 (Nat.succ_pos k))]
      exact induction (fun j => path (j + 1)) (fun j less => going (j + 1) (Nat.succ_lt_succ less))
        stops (Nat.lt_of_succ_lt_succ enough)

/-- Total correctness, by an invariant that knows how many rounds can follow. -/
theorem exists_run_of_invariant (invariant : Nat → σ → Prop) {post : β → Prop}
    (step : ∀ {n state state'}, invariant n state → round state = .next state' →
      ∃ m, n = m + 1 ∧ invariant m state')
    (stop : ∀ {n state out}, invariant n state → round state = .stop out → post out)
    {n : Nat} (here : invariant n state) :
    ∃ out, run round (n + 1) state = some out ∧ post out := by
  induction n generalizing state with
  | zero =>
      cases does : round state with
      | stop out => exact ⟨out, run_of_stop does, stop here does⟩
      | next state' =>
          obtain ⟨m, more, -⟩ := step here does
          exact (Nat.succ_ne_zero m more.symm).elim
  | succ n induction =>
      cases does : round state with
      | stop out => exact ⟨out, run_of_stop does, stop here does⟩
      | next state' =>
          obtain ⟨m, more, there⟩ := step here does
          obtain rfl := Nat.succ.inj more
          obtain ⟨out, result, holds⟩ := induction there
          exact ⟨out, (run_of_next does).trans result, holds⟩

/-- A loop that gives a result went along the iterates of the change its rounds make. -/
theorem exists_iterate_of_run (next : σ → σ)
    (follows : ∀ {state state'}, round state = .next state' → state' = next state)
    (result : run round fuel state = some out) :
    ∃ k < fuel, (∀ j < k, round (next^[j] state) = .next (next^[j + 1] state)) ∧
      round (next^[k] state) = .stop out := by
  induction fuel generalizing state with
  | zero => cases result
  | succ fuel induction =>
      cases step : round state with
      | stop out' =>
          rw [run_of_stop step] at result
          cases result
          exact ⟨0, Nat.succ_pos fuel, fun j none => (Nat.not_lt_zero j none).elim, step⟩
      | next state' =>
          obtain rfl := follows step
          rw [run_of_next step] at result
          obtain ⟨k, less, going, stops⟩ := induction result
          refine ⟨k + 1, Nat.succ_lt_succ less, fun j before => ?_, stops⟩
          cases j with
          | zero => exact step
          | succ j => exact going j (Nat.lt_of_succ_lt_succ before)

end Loop
