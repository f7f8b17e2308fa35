import Mathlib.Tactic

/-!
# The event processor of `processor.c`

`event_schedule` gives a new event to the thread that `event_assign_thread` chooses with a counter
of all calls.  The counter is an `int` which wraps around, and `%` takes its sign, so the threads
are chosen in turn only until it has become negative.
-/

namespace OstrichServer
namespace Processor

/-- The fields of `_eventprocessor` that choose a thread; both are an `int`. -/
structure EventProcessor where
  nThreads : Int
  nextThread : Int

/-- An `event` as it is put on the external queue of `eventthread[thread]`. -/
structure ScheduledEvent (C : Type) where
  type : Int
  cont : C
  thread : Int

/-- `eventprocessor_init` -/
def eventprocessorInit (nThreads : Int) : EventProcessor where
  nThreads := nThreads
  nextThread := 0

/-- `event_assign_thread`, with the index into `eventthread`. -/
def eventAssignThread (evp : EventProcessor) : Int × EventProcessor :=
  (evp.nextThread.tmod evp.nThreads, { evp with nextThread := (evp.nextThread + 1).bmod (2 ^ 32) })

variable {C : Type}

/-- `event_schedule` -/
def eventSchedule (evp : EventProcessor) (cont : C) (eventtype : Int) :
    ScheduledEvent C × EventProcessor :=
  let (thread, evp) := eventAssignThread evp
  ({ type := eventtype, cont, thread }, evp)

/-- The events of a run of calls of `event_schedule`, each with its continuation and type. -/
def scheduleAll : EventProcessor → List (C × Int) → List (ScheduledEvent C)
  | _, [] => []
  | evp, (cont, eventtype) :: calls =>
      let (ev, evp) := eventSchedule evp cont eventtype
      ev :: scheduleAll evp calls

/-- Every index is in range, and any `n_threads` calls in a row choose each thread once. -/
structure RoundRobin (nThreads : Int) (events : List (ScheduledEvent C)) : Prop where
  inRange : ∀ ev ∈ events, 0 ≤ ev.thread ∧ ev.thread < nThreads
  inTurn : ∀ start, start + nThreads.toNat ≤ events.length → ∀ thread, 0 ≤ thread →
    thread < nThreads → ∃! k, k < nThreads.toNat ∧
      (events[start + k]?).map ScheduledEvent.thread = some thread

/-! ## The counter -/

/-- The index that the call with this number is given. -/
def assigned (nThreads : Int) (call : Nat) : Int := ((call : Int).bmod (2 ^ 32)).tmod nThreads

private theorem scheduleAll_get (evp : EventProcessor) (calls : List (C × Int))
    (before k : Nat) (counter : evp.nextThread = (before : Int).bmod (2 ^ 32)) :
    ((scheduleAll evp calls)[k]?).map ScheduledEvent.thread =
      (calls[k]?).map fun _ => assigned evp.nThreads (before + k) := by
  induction calls generalizing evp before k with
  | nil => rfl
  | cons call calls induction =>
      cases k with
      | zero =>
          unfold assigned
          rw [Nat.add_zero, ← counter]
          rfl
      | succ k =>
          have next : (eventAssignThread evp).2.nextThread =
              ((before + 1 : Nat) : Int).bmod (2 ^ 32) := by
            change (evp.nextThread + 1).bmod (2 ^ 32) = _
            rw [counter, Int.bmod_add_bmod, Nat.cast_add, Nat.cast_one]
          rw [← Nat.add_assoc, Nat.add_right_comm]
          exact induction _ _ _ next

/-- The threads of a run that starts with `eventprocessor_init`. -/
theorem scheduleAll_thread (nThreads : Int) (calls : List (C × Int)) (k : Nat) :
    ((scheduleAll (eventprocessorInit nThreads) calls)[k]?).map ScheduledEvent.thread =
      (calls[k]?).map fun _ => assigned nThreads k := by
  have start := scheduleAll_get (eventprocessorInit nThreads) calls 0 k rfl
  rwa [Nat.zero_add] at start

theorem scheduleAll_length (evp : EventProcessor) (calls : List (C × Int)) :
    (scheduleAll evp calls).length = calls.length := by
  induction calls generalizing evp with
  | nil => rfl
  | cons call calls induction => exact congrArg (· + 1) (induction _)

variable {nThreads : Int} {call : Nat}

/-- The index of one of the first `2 ^ 31` calls. -/
theorem assigned_of_lt (early : call < 2 ^ 31) : assigned nThreads call = call % nThreads := by
  have positive : (call : Int).bmod (2 ^ 32) = call := by
    apply Int.bmod_eq_of_le <;> omega
  unfold assigned
  rw [positive, Int.tmod_eq_emod_of_nonneg (Int.natCast_nonneg call)]

/-- With the next call the counter has wrapped around. -/
theorem assigned_wrapped : assigned nThreads (2 ^ 31) = -((2 ^ 31 : Int).tmod nThreads) := by
  have wrapped : ((2 ^ 31 : Nat) : Int).bmod (2 ^ 32) = -2 ^ 31 := by decide
  unfold assigned
  rw [wrapped, Int.neg_tmod]

theorem assigned_wrapped_succ :
    assigned nThreads (2 ^ 31 + 1) = -((2 ^ 31 - 1 : Int).tmod nThreads) := by
  have wrapped : ((2 ^ 31 + 1 : Nat) : Int).bmod (2 ^ 32) = -(2 ^ 31 - 1) := by decide
  unfold assigned
  rw [wrapped, Int.neg_tmod]

/-- A negative remainder that is in range is zero. -/
private theorem dvd_of_neg_tmod_nonneg {number : Int} (positive : 0 ≤ number)
    (inRange : 0 ≤ -(number.tmod nThreads)) : nThreads ∣ number := by
  have remainder := Int.tmod_nonneg nThreads positive
  apply Int.dvd_of_tmod_eq_zero
  omega

/-! ## Round robin -/

/-- How many calls go well: all of them with one thread, and otherwise those before the counter is
negative, with one more if the number of threads divides `2 ^ 31`. -/
def GoesWell (nThreads : Int) (calls : Nat) : Prop :=
  nThreads = 1 ∨ calls ≤ 2 ^ 31 ∨ (calls = 2 ^ 31 + 1 ∧ nThreads ∣ 2 ^ 31)

theorem assigned_eq_of_goesWell {calls : Nat} (well : GoesWell nThreads calls)
    (before : call < calls) :
    assigned nThreads call = call % nThreads := by
  rcases well with rfl | few | ⟨one_more, divides⟩
  · unfold assigned
    rw [Int.tmod_one, Int.emod_one]
  · exact assigned_of_lt (before.trans_le few)
  · rcases Nat.lt_or_ge call (2 ^ 31) with early | late
    · exact assigned_of_lt early
    · obtain rfl : call = 2 ^ 31 := by omega
      have zero : ((2 ^ 31 : Nat) : Int) % nThreads = 0 := Int.emod_eq_zero_of_dvd divides
      rw [assigned_wrapped, Int.tmod_eq_zero_of_dvd divides, zero, neg_zero]

/-- Of the numbers in a row, exactly one has this remainder. -/
private theorem existsUnique_emod (threads : 1 ≤ nThreads) (start : Nat) {thread : Int}
    (low : 0 ≤ thread) (high : thread < nThreads) :
    ∃! k : Nat, k < nThreads.toNat ∧ ((start + k : Nat) : Int) % nThreads = thread := by
  have offset_low := Int.emod_nonneg (thread - start) (by omega : nThreads ≠ 0)
  have offset_high := Int.emod_lt_of_pos (thread - start) (by omega : 0 < nThreads)
  have here : ((start : Int) + (thread - start) % nThreads) % nThreads = thread := by
    rw [Int.add_emod_emod, add_sub_cancel, Int.emod_eq_of_lt low high]
  refine ⟨((thread - start) % nThreads).toNat, ⟨by omega, ?_⟩, ?_⟩
  · rwa [Nat.cast_add, Int.toNat_of_nonneg offset_low]
  · rintro k ⟨inside, same⟩
    have difference : (((start + k : Nat) : Int) -
        ((start : Int) + (thread - start) % nThreads)) % nThreads = 0 :=
      Int.emod_eq_emod_iff_emod_sub_eq_zero.mp (same.trans here.symm)
    obtain ⟨turns, equal⟩ := Int.dvd_of_emod_eq_zero difference
    have none : turns = 0 := by
      rcases lt_trichotomy turns 0 with less | zero | more
      · have : nThreads * turns ≤ -nThreads := by nlinarith
        omega
      · exact zero
      · have : nThreads ≤ nThreads * turns := by nlinarith
        omega
    rw [none, mul_zero] at equal
    omega

/-- The threads are chosen in turn, and in range, exactly as long as the counter goes well. -/
theorem roundRobin_iff (threads : 1 ≤ nThreads) (calls : List (C × Int)) :
    RoundRobin nThreads (scheduleAll (eventprocessorInit nThreads) calls) ↔
      GoesWell nThreads calls.length := by
  have inside {k : Nat} (before : k < calls.length) :
      ((scheduleAll (eventprocessorInit nThreads) calls)[k]?).map ScheduledEvent.thread =
        some (assigned nThreads k) := by
    rw [scheduleAll_thread, List.getElem?_eq_getElem before, Option.map_some]
  constructor
  · intro fair
    have nonneg {k : Nat} (before : k < calls.length) : 0 ≤ assigned nThreads k := by
      obtain ⟨ev, found, thread⟩ := Option.map_eq_some_iff.mp (inside before)
      rw [← thread]
      exact (fair.inRange ev (List.mem_of_getElem? found)).1
    by_contra bad
    obtain ⟨several, many, bound⟩ := not_or.mp bad |>.imp_right not_or.mp
    have divides : nThreads ∣ 2 ^ 31 := by
      apply dvd_of_neg_tmod_nonneg (by decide)
      rw [← assigned_wrapped]
      exact nonneg (by omega)
    have divides_succ : nThreads ∣ 2 ^ 31 - 1 := by
      apply dvd_of_neg_tmod_nonneg (by decide)
      rw [← assigned_wrapped_succ]
      exact nonneg (by omega)
    have one := Int.dvd_sub divides divides_succ
    exact several (Int.eq_one_of_dvd_one (by omega) one)
  · intro well
    constructor
    · intro ev member
      obtain ⟨k, found⟩ := List.mem_iff_getElem?.mp member
      have before : k < calls.length := by
        rw [← scheduleAll_length (eventprocessorInit nThreads)]
        exact (List.getElem?_eq_some_iff.mp found).1
      have thread := inside before
      rw [found, Option.map_some, assigned_eq_of_goesWell well before] at thread
      rw [Option.some.inj thread]
      exact ⟨Int.emod_nonneg _ (by omega), Int.emod_lt_of_pos _ (by omega)⟩
    · intro start within thread low high
      rw [scheduleAll_length] at within
      obtain ⟨k, ⟨below, same⟩, unique⟩ := existsUnique_emod threads start low high
      have turn {j : Nat} (less : j < nThreads.toNat) :
          ((scheduleAll (eventprocessorInit nThreads) calls)[start + j]?).map
            ScheduledEvent.thread = some (((start + j : Nat) : Int) % nThreads) := by
        rw [inside (by omega), assigned_eq_of_goesWell well (by omega)]
      refine ⟨k, ⟨below, by rw [turn below, same]⟩, ?_⟩
      rintro j ⟨less, chosen⟩
      rw [turn less] at chosen
      exact unique j ⟨less, Option.some.inj chosen⟩

theorem two_threads_roundRobin_iff :
    1 ≤ (2 : Int) ∧
      (RoundRobin 2 (scheduleAll (eventprocessorInit 2) [((), 0), ((), 0), ((), 0)]) ↔
        GoesWell 2 3) :=
  ⟨by decide, roundRobin_iff (by decide) [((), 0), ((), 0), ((), 0)]⟩

/-- With three threads the call after the first `2 ^ 31` gets the index -2. -/
theorem three_threads_index_negative :
    ((scheduleAll (eventprocessorInit 3) (List.replicate (2 ^ 31 + 1) ((), 0)))[2 ^ 31]?).map
        ScheduledEvent.thread = some (-2) ∧
      ¬ RoundRobin 3
        (scheduleAll (eventprocessorInit 3) (List.replicate (2 ^ 31 + 1) ((), 0))) := by
  have index : ((scheduleAll (eventprocessorInit 3) (List.replicate (2 ^ 31 + 1)
      ((), 0)))[2 ^ 31]?).map ScheduledEvent.thread = some (-2) := by
    rw [scheduleAll_thread, List.getElem?_replicate, if_pos (Nat.lt_succ_self _), Option.map_some]
    decide
  refine ⟨index, fun fair => ?_⟩
  obtain ⟨ev, found, thread⟩ := Option.map_eq_some_iff.mp index
  have low := (fair.inRange ev (List.mem_of_getElem? found)).1
  rw [thread] at low
  revert low
  decide

end Processor
end OstrichServer
