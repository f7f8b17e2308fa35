import Mathlib.Tactic
import Mathlib.Computability.Language

/-!
# Readers that stop

A reader consumes a word symbol by symbol and may stop with a result before the word ends.  This
file composes runs over concatenated words, transports them along maps of states, and
characterises the words on which a reader stops by one residual language for each of its states.
-/

namespace StoppingReader

/-- What a reader does with one symbol: go on in a state, or stop with a result. -/
inductive Move (σ β : Type*)
  | go (next : σ)
  | stop (out : β)
  deriving DecidableEq

/-- The end of a run: the word is used up, or the reader stopped before the remaining word. -/
inductive Outcome (α σ β : Type*)
  | pending (state : σ)
  | stopped (out : β) (rest : List α)
  deriving DecidableEq

namespace Move

/-- Rename the states and the results of a move. -/
def map {σ τ β γ : Type*} (f : σ → τ) (g : β → γ) : Move σ β → Move τ γ
  | .go next => .go (f next)
  | .stop out => .stop (g out)

end Move

namespace Outcome

/-- Rename the states and the results of an outcome. -/
def map {α σ τ β γ : Type*} (f : σ → τ) (g : β → γ) : Outcome α σ β → Outcome α τ γ
  | .pending state => .pending (f state)
  | .stopped out rest => .stopped (g out) rest

end Outcome

section Run

variable {α σ τ β γ : Type*} (move : σ → α → Move σ β)

/-- Read a word from a state. -/
def run : σ → List α → Outcome α σ β
  | state, [] => .pending state
  | state, symbol :: word =>
      match move state symbol with
      | .go next => run next word
      | .stop out => .stopped out word

@[simp]
theorem run_nil (state : σ) : run move state [] = .pending state := rfl

theorem run_cons_go {state next : σ} {symbol : α} (word : List α)
    (step : move state symbol = .go next) :
    run move state (symbol :: word) = run move next word := by
  simp [run, step]

theorem run_cons_stop {state : σ} {symbol : α} {out : β} (word : List α)
    (step : move state symbol = .stop out) :
    run move state (symbol :: word) = .stopped out word := by
  simp [run, step]

/-- A run that used up its word goes on with whatever follows. -/
theorem run_append_of_pending {state next : σ} {left : List α} (right : List α)
    (pending : run move state left = .pending next) :
    run move state (left ++ right) = run move next right := by
  induction left generalizing state with
  | nil =>
      obtain rfl : state = next := by simpa using pending
      rfl
  | cons symbol left induction =>
      cases step : move state symbol with
      | go middle =>
          rw [run_cons_go move left step] at pending
          rw [List.cons_append, run_cons_go move _ step]
          exact induction pending
      | stop out => simp [run_cons_stop move left step] at pending

/-- A run that stopped never looks at what follows. -/
theorem run_append_of_stopped {state : σ} {left rest : List α} {out : β} (right : List α)
    (stopped : run move state left = .stopped out rest) :
    run move state (left ++ right) = .stopped out (rest ++ right) := by
  induction left generalizing state with
  | nil => simp at stopped
  | cons symbol left induction =>
      cases step : move state symbol with
      | go middle =>
          rw [run_cons_go move left step] at stopped
          rw [List.cons_append, run_cons_go move _ step]
          exact induction stopped
      | stop out' =>
          rw [run_cons_stop move left step] at stopped
          rw [List.cons_append, run_cons_stop move _ step]
          obtain ⟨rfl, rfl⟩ : out' = out ∧ left = rest := by simpa using stopped
          rfl

/-- A stopped run splits at the symbol it stopped on. -/
theorem exists_of_stopped {state : σ} {word rest : List α} {out : β}
    (stopped : run move state word = .stopped out rest) :
    ∃ front symbol middle,
      word = front ++ symbol :: rest ∧
        run move state front = .pending middle ∧ move middle symbol = .stop out := by
  induction word generalizing state with
  | nil => simp at stopped
  | cons symbol word induction =>
      cases step : move state symbol with
      | go next =>
          rw [run_cons_go move word step] at stopped
          obtain ⟨front, last, middle, rfl, reach, halt⟩ := induction stopped
          exact ⟨symbol :: front, last, middle, rfl, by rwa [run_cons_go move front step], halt⟩
      | stop out' =>
          rw [run_cons_stop move word step] at stopped
          obtain ⟨rfl, rfl⟩ : out' = out ∧ word = rest := by simpa using stopped
          exact ⟨[], symbol, state, rfl, rfl, step⟩

/-- A run that uses up two words uses up the first. -/
theorem exists_pending_of_pending {state final : σ} {left right : List α}
    (pending : run move state (left ++ right) = .pending final) :
    ∃ middle, run move state left = .pending middle ∧ run move middle right = .pending final := by
  cases reach : run move state left with
  | pending middle =>
      rw [run_append_of_pending move right reach] at pending
      exact ⟨middle, rfl, pending⟩
  | stopped out rest =>
      rw [run_append_of_stopped move right reach] at pending
      cases pending

/-- A run that uses up one symbol makes one move. -/
theorem go_of_pending_singleton {state final : σ} {symbol : α}
    (pending : run move state [symbol] = .pending final) : move state symbol = .go final := by
  cases step : move state symbol with
  | go next =>
      rw [run_cons_go move [] step] at pending
      rw [Outcome.pending.inj pending]
  | stop out =>
      rw [run_cons_stop move [] step] at pending
      cases pending

/-- A run that stops in the second part of its word goes through the first. -/
theorem exists_pending_of_stopped {state : σ} {left right rest : List α} {out : β}
    (stopped : run move state (left ++ right) = .stopped out rest)
    (short : rest.length < right.length) :
    ∃ middle, run move state left = .pending middle ∧
      run move middle right = .stopped out rest := by
  cases reach : run move state left with
  | pending middle =>
      rw [run_append_of_pending move right reach] at stopped
      exact ⟨middle, rfl, stopped⟩
  | stopped out' rest' =>
      rw [run_append_of_stopped move right reach] at stopped
      obtain ⟨-, rfl⟩ : out' = out ∧ rest' ++ right = rest := by simpa using stopped
      rw [List.length_append] at short
      omega

/-- A property of the word read so far which every move keeps holds when the word is used up. -/
theorem pending_induction (holds : List α → σ → Prop) {start final : σ} {word : List α}
    (initial : holds [] start)
    (keep : ∀ {front state symbol next},
      holds front state → move state symbol = .go next → holds (front ++ [symbol]) next)
    (pending : run move start word = .pending final) :
    holds word final := by
  induction word using List.reverseRecOn generalizing final with
  | nil =>
      obtain rfl : start = final := by simpa using pending
      exact initial
  | append_singleton word symbol induction =>
      cases reach : run move start word with
      | stopped out rest =>
          rw [run_append_of_stopped move _ reach] at pending
          cases pending
      | pending middle =>
          rw [run_append_of_pending move _ reach] at pending
          cases step : move middle symbol with
          | stop out => simp [run_cons_stop move [] step] at pending
          | go next =>
              rw [run_cons_go move [] step] at pending
              obtain rfl : next = final := by simpa using pending
              exact keep (induction reach) step

/-- Runs commute with a map of states and results that commutes with every move. -/
theorem run_map {move' : τ → α → Move τ γ} (f : σ → τ) (g : β → γ)
    (commutes : ∀ state symbol, move' (f state) symbol = (move state symbol).map f g)
    (state : σ) (word : List α) :
    run move' (f state) word = (run move state word).map f g := by
  induction word generalizing state with
  | nil => rfl
  | cons symbol word induction =>
      have step := commutes state symbol
      cases moved : move state symbol with
      | go next =>
          rw [moved] at step
          rw [run_cons_go move word moved, run_cons_go move' word step]
          exact induction next
      | stop out =>
          rw [moved] at step
          rw [run_cons_stop move word moved, run_cons_stop move' word step]
          rfl

end Run

/-- `residual` assigns to each state the words that lead from it to an accepting stop. -/
structure IsResidual {α σ β : Type*} (move : σ → α → Move σ β) (accepts : β → Prop)
    (residual : σ → Language α) : Prop where
  go : ∀ {state symbol next}, move state symbol = .go next →
    ∀ word, symbol :: word ∈ residual state ↔ word ∈ residual next
  accept : ∀ {state symbol out}, move state symbol = .stop out → accepts out →
    ∀ word, symbol :: word ∈ residual state ↔ word = []
  reject : ∀ {state symbol out}, move state symbol = .stop out → ¬ accepts out →
    ∀ word, symbol :: word ∉ residual state
  nil : ∀ state, [] ∉ residual state
  live : ∀ state, ∃ word, word ∈ residual state

namespace IsResidual

variable {α σ β : Type*} {move : σ → α → Move σ β} {accepts : β → Prop}
  {residual : σ → Language α} (system : IsResidual move accepts residual)
include system

theorem append_mem_iff {state next : σ} {front : List α}
    (pending : run move state front = .pending next) (word : List α) :
    front ++ word ∈ residual state ↔ word ∈ residual next := by
  induction front generalizing state with
  | nil =>
      obtain rfl : state = next := by simpa using pending
      rfl
  | cons symbol front induction =>
      cases step : move state symbol with
      | go middle =>
          rw [run_cons_go move front step] at pending
          rw [List.cons_append, system.go step]
          exact induction pending
      | stop out => simp [run_cons_stop move front step] at pending

/-- A word of the residual language is read to an accepting stop at its last symbol. -/
theorem run_of_mem {state : σ} {front : List α} (member : front ∈ residual state)
    (rest : List α) :
    ∃ out, accepts out ∧ run move state (front ++ rest) = .stopped out rest := by
  induction front generalizing state with
  | nil => exact (system.nil state member).elim
  | cons symbol front induction =>
      cases step : move state symbol with
      | go next =>
          rw [List.cons_append, run_cons_go move _ step]
          exact induction ((system.go step front).mp member)
      | stop out =>
          by_cases accepted : accepts out
          · obtain rfl := (system.accept step accepted front).mp member
            exact ⟨out, accepted, run_cons_stop move rest step⟩
          · exact (system.reject step accepted front member).elim

/-- An accepting stop leaves exactly the word behind a word of the residual language. -/
theorem mem_of_run {state : σ} {word rest : List α} {out : β} (accepted : accepts out)
    (stopped : run move state word = .stopped out rest) :
    ∃ front ∈ residual state, word = front ++ rest := by
  obtain ⟨front, symbol, middle, rfl, reach, halt⟩ := exists_of_stopped move stopped
  refine ⟨front ++ [symbol], ?_, by simp⟩
  rw [system.append_mem_iff reach, system.accept halt accepted]

/-- The reader stops accepting exactly on the words with a prefix in the residual language. -/
theorem accepts_iff (state : σ) (word rest : List α) :
    (∃ out, accepts out ∧ run move state word = .stopped out rest) ↔
      ∃ front ∈ residual state, word = front ++ rest := by
  constructor
  · rintro ⟨out, accepted, stopped⟩
    exact system.mem_of_run accepted stopped
  · rintro ⟨front, member, rfl⟩
    exact system.run_of_mem member rest

/-- The reader uses up exactly the words that hold no member but can be extended to one. -/
theorem pending_iff (state : σ) (word : List α) :
    (∃ next, run move state word = .pending next) ↔
      (∀ front ∈ residual state, ¬ front <+: word) ∧ ∃ rest, word ++ rest ∈ residual state := by
  constructor
  · rintro ⟨next, pending⟩
    constructor
    · rintro front member ⟨rest, rfl⟩
      obtain ⟨out, -, stopped⟩ := system.run_of_mem member rest
      rw [stopped] at pending
      cases pending
    · obtain ⟨rest, member⟩ := system.live next
      exact ⟨rest, (system.append_mem_iff pending rest).mpr member⟩
  · rintro ⟨incomplete, rest, member⟩
    cases reach : run move state word with
    | pending next => exact ⟨next, rfl⟩
    | stopped out tail =>
        obtain ⟨accepted, full⟩ :
            accepts out ∧ run move state (word ++ rest) = .stopped out [] := by
          obtain ⟨out', accepted, full⟩ := system.run_of_mem member []
          rw [List.append_nil, run_append_of_stopped move rest reach] at full
          obtain ⟨rfl, empty⟩ : out = out' ∧ tail ++ rest = [] := by simpa using full
          exact ⟨accepted, by rw [run_append_of_stopped move rest reach, empty]⟩
        obtain ⟨front, front_mem, split⟩ := system.mem_of_run accepted reach
        exact (incomplete front front_mem ⟨tail, split.symm⟩).elim

/-- The reader stops rejecting exactly on the words no extension of which holds a member. -/
theorem rejects_iff (state : σ) (word : List α) :
    (∃ out rest, ¬ accepts out ∧ run move state word = .stopped out rest) ↔
      ∀ extension, ∀ front ∈ residual state, ¬ front <+: word ++ extension := by
  constructor
  · rintro ⟨out, rest, rejected, stopped⟩ extension front member ⟨tail, split⟩
    obtain ⟨out', accepted, stopped'⟩ := system.run_of_mem member tail
    rw [split, run_append_of_stopped move extension stopped] at stopped'
    obtain ⟨rfl, -⟩ : out = out' ∧ rest ++ extension = tail := by simpa using stopped'
    exact rejected accepted
  · intro dead
    cases reach : run move state word with
    | pending next =>
        obtain ⟨rest, member⟩ := system.live next
        exact (dead rest _ ((system.append_mem_iff reach rest).mpr member)
          (List.prefix_refl _)).elim
    | stopped out rest =>
        refine ⟨out, rest, fun accepted => ?_, rfl⟩
        obtain ⟨front, member, rfl⟩ := system.mem_of_run accepted reach
        exact dead [] front member (by simp)

end IsResidual

end StoppingReader
