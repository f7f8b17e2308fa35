import OstrichServer.EventThread.ReadyTimers

/-!
# Idle events over the iterations of the event loop

An idle event with `redo` set goes from the collect queue to the postponed queue and, once it is
processed, back: every iteration processes it once.  One without `redo` is processed once and gone.
-/

namespace OstrichServer
namespace EventThread

open AtomicList LinkedList Loop Timers LocalQueue

/-- The events that the timer queue leads to. -/
def LoopState.timedEvents (s : LoopState) : Set Word :=
  {e | ∃ i, Meets 0 s.timers.next (s.timers.buckets i) e}

/-- The event is on none of the queues of the thread. -/
structure LoopState.Fresh (s : LoopState) (e : Word) : Prop where
  not_null : e ≠ 0
  not_collected : ¬ Meets 0 s.timers.next s.collect e
  not_postponed : ¬ Meets 0 s.timers.next s.postponed e
  not_timed : e ∉ s.timedEvents

/-- The states at the start of an iteration, after iterations with these readings of the clock and
these batches.  An event that is done may arrive again. -/
inductive LoopRun (kind : Word → EventKind) (handler : Handler) (poll : Word) (next : Word → Word) :
    List (Int × List Word) → LoopState → Prop
  | init : LoopRun kind handler poll next [] (threadInit kind poll next)
  | iterate {inputs : List (Int × List Word)} {s s₁ s' : LoopState} {msec : Int}
      {batch : List Word} {fuel fuel' : Nat} (run : LoopRun kind handler poll next inputs s)
      (nodup : batch.Nodup) (fresh : ∀ e ∈ batch, s.Fresh e)
      (gets : localPart kind handler msec batch fuel s = some s₁)
      (ends : timersPart kind handler msec fuel' s₁ = .completed s') :
      LoopRun kind handler poll next (inputs ++ [(msec, batch)]) s'

/-- The events of the thread so far, as often as they arrived. -/
def arrived (poll : Word) (inputs : List (Int × List Word)) : List Word :=
  poll :: inputs.flatMap Prod.snd

/-- The event is once in the collect queue and not in the postponed queue. -/
def LoopState.OnlyCollected (s : LoopState) (e : Word) : Prop :=
  ∃ collected postponed, s.collectqueue.Holds collected ∧ s.postponedqueue.Holds postponed ∧
    collected.count e = 1 ∧ e ∉ postponed

/-- The event is in neither of the local queues. -/
def LoopState.NotLocal (s : LoopState) (e : Word) : Prop :=
  ∃ collected postponed, s.collectqueue.Holds collected ∧ s.postponedqueue.Holds postponed ∧
    e ∉ collected ∧ e ∉ postponed

/-- What an iteration that starts with these events in the local queues does to idle events. -/
structure IdleOnce (kind : Word → EventKind) (seen collected postponed batch : List Word)
    (s s' : LoopState) : Prop where
  survive : ∀ e ∈ seen, (kind e).idle = true → (kind e).redo = true → e ∈ collected ++ postponed
  redone : ∀ e ∈ collected ++ postponed, (kind e).idle = true → (kind e).redo = true →
    s'.handled.count e = s.handled.count e + 1 ∧ s'.OnlyCollected e
  finished : ∀ e ∈ collected ++ postponed, (kind e).idle = true → (kind e).redo = false →
    s.handled.count e + 1 = seen.count e ∧ s'.handled.count e = seen.count e ∧ s'.NotLocal e
  past : ∀ e, (kind e).idle = true → (kind e).redo = false → e ∉ collected ++ postponed →
    s.handled.count e = seen.count e ∧ s'.handled.count e = seen.count e ∧
      (e ∉ batch → s'.NotLocal e)

variable {kind : Word → EventKind} {handler : Handler} {poll : Word} {next : Word → Word}
  {inputs : List (Int × List Word)} {s : LoopState} {e : Word}
  {collected postponed batch seen : List Word} {timed : Set Word}

/-! ## Which events are processed, and which come back -/

/-- An idle event is processed as often as it is in the local queues. -/
theorem count_handedOver (idle : (kind e).idle = true) :
    (handedOver kind collected postponed).count e = (collected ++ postponed).count e := by
  have none : (collected.filter fun e => (kind e).Now).count e = 0 := by
    rw [List.count_eq_zero, List.mem_filter, not_and]
    intro _ now
    rw [(of_decide_eq_true now).1] at idle
    cases idle
  rw [handedOver, List.count_append, none, Nat.zero_add, List.count_append, List.count_reverse,
    List.count_filter (p := fun e => (kind e).idle) idle, List.count_append]

theorem mem_of_mem_handedOver (member : e ∈ handedOver kind collected postponed) :
    e ∈ collected ++ postponed := by
  rw [handedOver, List.mem_append, List.mem_append, List.mem_reverse] at member
  rw [List.mem_append]
  rcases member with now | idle | later
  · exact Or.inl (List.mem_of_mem_filter now)
  · exact Or.inl (List.mem_of_mem_filter idle)
  · exact Or.inr later

theorem mem_putBack (idle : (kind e).idle = true) :
    e ∈ putBack kind collected postponed batch ↔
      e ∈ collected ++ postponed ∧ (kind e).redo = true ∨ e ∈ batch := by
  simp only [putBack, List.mem_append, List.mem_reverse, List.mem_filter, idle, and_true]

/-- An event without `redo` is only put back when it arrives. -/
theorem count_putBack (finishes : (kind e).redo = false) :
    (putBack kind collected postponed batch).count e = batch.count e := by
  have none : e ∉ ((collected.filter fun e => (kind e).idle).reverse ++ postponed).filter
      fun e => (kind e).redo := by
    rw [List.mem_filter, finishes]
    exact fun again => Bool.false_ne_true again.2
  rw [putBack, List.count_append, List.count_reverse, List.count_reverse,
    List.count_eq_zero_of_not_mem none, Nat.zero_add]

/-! ## The events of the timer queue -/

/-- The timer queue leads to no event from outside of a set that is closed under its links. -/
theorem Queued.timedEvents_subset (queued : Queued s collected postponed timed) :
    s.timedEvents ⊆ timed := by
  rintro e ⟨i, meets⟩
  exact meets.mem_of_closed (queued.buckets i) queued.links

theorem Queued.onlyTimed (queued : Queued s collected postponed timed) :
    Queued s collected postponed s.timedEvents where
  collects := queued.collects
  postpones := queued.postpones
  apart := queued.apart
  buckets i some := ⟨i, .here some⟩
  links := by
    rintro e ⟨i, meets⟩ more
    exact ⟨i, meets.onward more⟩
  not_timed e inside := queued.not_timed e (queued.timedEvents_subset inside)

/-- The two ways to say that an event is on no queue. -/
theorem Queued.fresh_iff (queued : Queued s collected postponed s.timedEvents) :
    s.Fresh e ↔ Unqueued e collected postponed s.timedEvents := by
  constructor
  · rintro ⟨not_null, not_collected, not_postponed, not_timed⟩
    exact ⟨not_null, mt (Chain.meets_iff queued.collects).mpr not_collected,
      mt (Chain.meets_iff queued.postpones).mpr not_postponed, not_timed⟩
  · rintro ⟨not_null, not_collected, not_postponed, not_timed⟩
    exact ⟨not_null, mt (Chain.meets_iff queued.collects).mp not_collected,
      mt (Chain.meets_iff queued.postpones).mp not_postponed, not_timed⟩

/-! ## The invariant -/

/-- What is known of the events at the start of an iteration. -/
structure Circulating (kind : Word → EventKind) (seen collected postponed : List Word)
    (s : LoopState) : Prop where
  queued : Queued s collected postponed s.timedEvents
  not_idle : ∀ e ∈ s.timedEvents, (kind e).idle = false
  local_seen : ∀ e ∈ collected ++ postponed, e ∈ seen
  timed_seen : ∀ e ∈ s.timedEvents, e ∈ seen
  survive : ∀ e ∈ seen, (kind e).idle = true → (kind e).redo = true → e ∈ collected ++ postponed
  counted : ∀ e, (kind e).idle = true → (kind e).redo = false →
    s.handled.count e + (collected ++ postponed).count e = seen.count e

theorem Circulating.init (poll_event : kind poll = ⟨true, 0, true⟩) (not_null : poll ≠ 0)
    (next : Word → Word) : Circulating kind [poll] [] [poll] (threadInit kind poll next) := by
  have start : threadInit kind poll next =
      { collect := 0, postponed := poll, handled := []
        timers := { priorityQueueInit next with next := Function.update next poll 0 } } := by
    unfold threadInit
    simp only [poll_event, lt_irrefl, if_false]
    rfl
  have untimed : ∀ {e}, e ∉ (threadInit kind poll next).timedEvents := by
    rintro e ⟨i, meets⟩
    rw [start] at meets
    exact meets.ne_of_null rfl
  have linked : Function.update next poll 0 poll = 0 := Function.update_self ..
  constructor
  case queued =>
    have alone : Chain 0 (Function.update next poll 0) (Function.update next poll 0 poll) [] := by
      rw [linked]
      exact .nil
    have queued : Queued (threadInit kind poll next) [] [poll] ∅ := by
      rw [start]
      exact
        { collects := .nil
          postpones := .cons not_null alone
          apart := fun e none => (List.not_mem_nil none).elim
          buckets := fun i some => (some rfl).elim
          links := fun e none => none.elim
          not_timed := fun e none => none.elim }
    exact queued.onlyTimed
  case not_idle => exact fun e inside => (untimed inside).elim
  case local_seen => exact fun e member => member
  case timed_seen => exact fun e inside => (untimed inside).elim
  case survive => exact fun e member _ _ => member
  case counted =>
    intro e _ _
    rw [start, List.count_nil, Nat.zero_add, List.nil_append]

/-- What has not arrived yet is on no queue. -/
theorem Circulating.fresh (circulating : Circulating kind seen collected postponed s)
    (not_null : e ≠ 0) (unseen : e ∉ seen) : s.Fresh e :=
  circulating.queued.fresh_iff.mpr
    { not_null
      not_collected := fun inside =>
        unseen (circulating.local_seen e (List.mem_append_left _ inside))
      not_postponed := fun inside =>
        unseen (circulating.local_seen e (List.mem_append_right _ inside))
      not_timed := fun inside => unseen (circulating.timed_seen e inside) }

/-! ## One iteration -/

/-- The state an iteration leaves that started with these events in the local queues, however far it
got with its timers. -/
structure Iterated (kind : Word → EventKind) (collected postponed batch : List Word)
    (s s' : LoopState) : Prop where
  queued : Queued s' (putBack kind collected postponed batch) []
    (s.timedEvents ∪ {e | e ∈ collected ∧ (kind e).Timed})
  handled : ∃ fired, s'.handled = s.handled ++ handedOver kind collected postponed ++ fired ∧
    ∀ e ∈ fired, e ∈ s.timedEvents ∪ {e | e ∈ collected ∧ (kind e).Timed}

/-- No event in the timer queue after an iteration is idle. -/
theorem Circulating.timed_not_idle (circulating : Circulating kind seen collected postponed s) :
    ∀ e ∈ s.timedEvents ∪ {e | e ∈ collected ∧ (kind e).Timed}, (kind e).idle = false := by
  rintro e (old | ⟨-, timer⟩)
  · exact circulating.not_idle e old
  · exact timer.1

theorem Circulating.timed_after_seen (circulating : Circulating kind seen collected postponed s) :
    ∀ e ∈ s.timedEvents ∪ {e | e ∈ collected ∧ (kind e).Timed}, e ∈ seen := by
  rintro e (old | ⟨inside, -⟩)
  · exact circulating.timed_seen e old
  · exact circulating.local_seen e (List.mem_append_left _ inside)

theorem Circulating.nodup (circulating : Circulating kind seen collected postponed s) :
    (collected ++ postponed).Nodup :=
  (Chain.nodup circulating.queued.collects).append (Chain.nodup circulating.queued.postpones)
    circulating.queued.apart

/-- Every iteration comes to its timers. -/
theorem Circulating.exists_iterated (leaves : LeavesQueues handler)
    (redo_idle : ∀ e, (kind e).redo = true → (kind e).idle = true)
    (circulating : Circulating kind seen collected postponed s) (nodup : batch.Nodup)
    (fresh : ∀ e ∈ batch, s.Fresh e) (msec : Int) :
    ∃ fuel s₁, localPart kind handler msec batch fuel s = some s₁ ∧ ∀ fuel',
      Iterated kind collected postponed batch s (timersPart kind handler msec fuel' s₁).state := by
  have once : ∀ e ∈ collected, ¬ (kind e).Again := by
    rintro e - ⟨⟨busy, -⟩, again⟩
    rw [redo_idle e again] at busy
    cases busy
  obtain ⟨fuel, s₁, gets, queued₁, handled₁⟩ :=
    localPart_spec msec leaves circulating.queued once nodup fun e member =>
      circulating.queued.fresh_iff.mp (fresh e member)
  have no_redo : ∀ e ∈ s.timedEvents ∪ {e | e ∈ collected ∧ (kind e).Timed},
      (kind e).redo = false := by
    intro e inside
    by_contra again
    rw [Bool.not_eq_false] at again
    have busy := circulating.timed_not_idle e inside
    rw [redo_idle e again] at busy
    cases busy
  refine ⟨fuel, s₁, gets, fun fuel' => ?_⟩
  obtain ⟨queued, fired, handled, all⟩ := timersPart_queued leaves queued₁ no_redo msec fuel'
  rw [handled₁] at handled
  exact ⟨queued, fired, handled, all⟩

section Iterated

variable {s' : LoopState} (circulating : Circulating kind seen collected postponed s)
  (iterated : Iterated kind collected postponed batch s s')
include circulating iterated

/-- How often an iteration processes an idle event. -/
theorem Iterated.count (idle : (kind e).idle = true) :
    s'.handled.count e = s.handled.count e + (collected ++ postponed).count e := by
  obtain ⟨fired, handled, all⟩ := iterated.handled
  have none : fired.count e = 0 := by
    rw [List.count_eq_zero]
    intro member
    rw [circulating.timed_not_idle e (all e member)] at idle
    cases idle
  rw [handled, List.count_append, List.count_append, none, Nat.add_zero, count_handedOver idle]

/-- The iteration keeps the invariant. -/
theorem Iterated.invariant :
    Circulating kind (seen ++ batch) (putBack kind collected postponed batch) [] s' where
  queued := iterated.queued.onlyTimed
  not_idle e inside := circulating.timed_not_idle e (iterated.queued.timedEvents_subset inside)
  local_seen := by
    intro e member
    rw [List.append_nil, putBack, List.mem_append, List.mem_reverse, List.mem_reverse,
      List.mem_filter] at member
    rw [List.mem_append]
    refine member.imp_left fun back => circulating.local_seen e ?_
    rw [List.mem_append, List.mem_reverse, List.mem_filter] at back
    rw [List.mem_append]
    exact back.1.imp_left And.left
  timed_seen e inside := List.mem_append_left _
    (circulating.timed_after_seen e (iterated.queued.timedEvents_subset inside))
  survive := by
    intro e member idle redo
    rw [List.append_nil, mem_putBack idle]
    exact (List.mem_append.mp member).imp_left fun inside =>
      ⟨circulating.survive e inside idle redo, redo⟩
  counted := by
    intro e idle finishes
    rw [iterated.count circulating idle, circulating.counted e idle finishes, List.append_nil,
      count_putBack finishes, List.count_append]

omit circulating in
theorem Iterated.notLocal (outside : e ∉ putBack kind collected postponed batch) : s'.NotLocal e :=
  ⟨_, _, iterated.queued.collects, iterated.queued.postpones, outside, List.not_mem_nil⟩

/-- Every idle event goes as it should. -/
theorem Iterated.idleOnce (fresh : ∀ e ∈ batch, s.Fresh e) :
    IdleOnce kind seen collected postponed batch s s' where
  survive := circulating.survive
  redone := by
    intro e member idle redo
    have back : e ∈ putBack kind collected postponed batch :=
      (mem_putBack idle).mpr (Or.inl ⟨member, redo⟩)
    refine ⟨?_, _, _, iterated.queued.collects, iterated.queued.postpones, ?_, List.not_mem_nil⟩
    · rw [iterated.count circulating idle, List.count_eq_one_of_mem circulating.nodup member]
    · exact List.count_eq_one_of_mem (Chain.nodup iterated.queued.collects) back
  finished := by
    intro e member idle finishes
    have total := circulating.counted e idle finishes
    refine ⟨?_, (iterated.count circulating idle).trans total, iterated.notLocal ?_⟩
    · rw [← total, List.count_eq_one_of_mem circulating.nodup member]
    · rw [mem_putBack idle, finishes]
      intro back
      have later := back.resolve_left fun redone => Bool.false_ne_true redone.2
      have unqueued := circulating.queued.fresh_iff.mp (fresh e later)
      exact (List.mem_append.mp member).elim unqueued.not_collected unqueued.not_postponed
  past := by
    intro e idle finishes outside
    have total := circulating.counted e idle finishes
    refine ⟨?_, (iterated.count circulating idle).trans total, fun absent => iterated.notLocal ?_⟩
    · rw [← total, List.count_eq_zero_of_not_mem outside, Nat.add_zero]
    · rw [mem_putBack idle]
      exact fun back => absent (back.resolve_left fun redone => outside redone.1)

end Iterated

/-- One iteration, however far it gets with its timers. -/
theorem Circulating.iterate (leaves : LeavesQueues handler)
    (redo_idle : ∀ e, (kind e).redo = true → (kind e).idle = true)
    (circulating : Circulating kind seen collected postponed s) (nodup : batch.Nodup)
    (fresh : ∀ e ∈ batch, s.Fresh e) (msec : Int) :
    ∃ fuel s₁, localPart kind handler msec batch fuel s = some s₁ ∧ ∀ fuel',
      Circulating kind (seen ++ batch) (putBack kind collected postponed batch) []
          (timersPart kind handler msec fuel' s₁).state ∧
        IdleOnce kind seen collected postponed batch s
          (timersPart kind handler msec fuel' s₁).state := by
  obtain ⟨fuel, s₁, gets, ends⟩ :=
    circulating.exists_iterated leaves redo_idle nodup fresh msec
  exact ⟨fuel, s₁, gets, fun fuel' => ⟨(ends fuel').invariant circulating,
    (ends fuel').idleOnce circulating fresh⟩⟩

/-! ## Whole runs -/

theorem localPart_unique {msec : Int} {fuel fuel' : Nat} {s₁ s₂ : LoopState}
    (result : localPart kind handler msec batch fuel s = some s₁)
    (result' : localPart kind handler msec batch fuel' s = some s₂) : s₁ = s₂ := by
  obtain ⟨drained, drains, ends⟩ := Option.bind_eq_some_iff.mp result
  obtain ⟨drained', drains', ends'⟩ := Option.bind_eq_some_iff.mp result'
  obtain rfl := run_unique drains drains'
  exact run_unique ends ends'

section Runs

variable (leaves : LeavesQueues handler)
  (redo_idle : ∀ e, (kind e).redo = true → (kind e).idle = true)
  (poll_event : kind poll = ⟨true, 0, true⟩) (poll_some : poll ≠ 0)
  (run : LoopRun kind handler poll next inputs s)
include leaves redo_idle poll_event poll_some run

/-- The invariant holds after every run. -/
theorem LoopRun.circulating :
    ∃ collected postponed, Circulating kind (arrived poll inputs) collected postponed s := by
  induction run with
  | init => exact ⟨_, _, Circulating.init poll_event poll_some next⟩
  | @iterate inputs s s₁ s' msec batch fuel fuel' run nodup fresh gets ends induction =>
      have more : arrived poll (inputs ++ [(msec, batch)]) = arrived poll inputs ++ batch := by
        simp [arrived]
      obtain ⟨collected, postponed, circulating⟩ := induction
      obtain ⟨enough, s₂, gets', spec⟩ := circulating.iterate leaves redo_idle nodup fresh msec
      obtain rfl := localPart_unique gets gets'
      obtain ⟨after, -⟩ := spec fuel'
      rw [ends] at after
      rw [more]
      exact ⟨_, _, after⟩

/-- Events that arrive for the first time are always fresh. -/
theorem LoopRun.fresh (not_null : e ≠ 0) (unseen : e ∉ arrived poll inputs) : s.Fresh e := by
  obtain ⟨collected, postponed, circulating⟩ :=
    run.circulating leaves redo_idle poll_event poll_some
  exact circulating.fresh not_null unseen

/-- In every iteration of every run an idle event with `redo` set is processed once and is then once
in the collect queue; an idle event without it is processed once for each time it arrives. -/
theorem idle_events_circulate (nodup : batch.Nodup) (fresh : ∀ e ∈ batch, s.Fresh e) (msec : Int) :
    ∃ collected postponed, s.collectqueue.Holds collected ∧ s.postponedqueue.Holds postponed ∧
      ∃ fuel s₁, localPart kind handler msec batch fuel s = some s₁ ∧ ∀ fuel',
        IdleOnce kind (arrived poll inputs) collected postponed batch s
          (timersPart kind handler msec fuel' s₁).state := by
  obtain ⟨collected, postponed, circulating⟩ :=
    run.circulating leaves redo_idle poll_event poll_some
  obtain ⟨fuel, s₁, gets, spec⟩ := circulating.iterate leaves redo_idle nodup fresh msec
  exact ⟨collected, postponed, circulating.queued.collects, circulating.queued.postpones, fuel, s₁,
    gets, fun fuel' => (spec fuel').2⟩

end Runs

/-- All events are idle, and only the poll event `8` has `redo` set. -/
def pollAgain : Word → EventKind := fun e => ⟨true, 0, decide (e = 8)⟩

/-- Where the first iteration comes to its timers, with `16` from the external queue. -/
def firstLocal : LoopState :=
  (localPart pollAgain (fun _ s => s) 1000 [16] 5 (threadInit pollAgain 8 fun _ => 0)).get rfl

/-- The end of the first iteration. -/
def firstEnd : LoopState := (timersPart pollAgain (fun _ s => s) 1000 5 firstLocal).state

/-- Where the second iteration comes to its timers, with `24` from the external queue. -/
def secondLocal : LoopState :=
  (localPart pollAgain (fun _ s => s) 2000 [24] 5 firstEnd).get rfl

/-- The end of the second iteration, which is done with `16`. -/
def secondEnd : LoopState := (timersPart pollAgain (fun _ s => s) 2000 5 secondLocal).state

theorem run_secondEnd :
    LoopRun pollAgain (fun _ s => s) 8 (fun _ => 0) [(1000, [16]), (2000, [24])] secondEnd := by
  have leaves : LeavesQueues fun _ s => s := .of_eq fun _ _ => rfl
  have first : LoopRun pollAgain (fun _ s => s) 8 (fun _ => 0) [(1000, [16])] firstEnd := by
    refine LoopRun.init.iterate (List.nodup_singleton 16) ?_
      (show localPart _ _ _ _ 5 _ = some firstLocal from rfl)
      (show timersPart _ _ _ 5 _ = .completed firstEnd from rfl)
    rw [List.forall_mem_singleton]
    exact LoopRun.init.fresh leaves (fun _ _ => rfl) rfl (by decide) (by decide) (by decide)
  refine first.iterate (List.nodup_singleton 24) ?_
    (show localPart _ _ _ _ 5 _ = some secondLocal from rfl)
    (show timersPart _ _ _ 5 _ = .completed secondEnd from rfl)
  rw [List.forall_mem_singleton]
  exact first.fresh leaves (fun _ _ => rfl) rfl (by decide) (by decide) (by decide)

theorem holds_secondEnd :
    secondEnd.collectqueue.Holds [8, 24] ∧ secondEnd.postponedqueue.Holds [] :=
  ⟨.cons (by decide) (.cons (by decide) .nil), .nil⟩

/-- Event 16 may arrive again, since it is on no queue. -/
theorem fresh_secondEnd : secondEnd.Fresh 16 where
  not_null := by decide
  not_collected := mt holds_secondEnd.1.meets_iff.mp (by decide)
  not_postponed := mt holds_secondEnd.2.meets_iff.mp List.not_mem_nil
  not_timed := by
    rintro ⟨i, meets⟩
    have empty : ∀ i, secondEnd.timers.buckets i = 0 := by decide
    exact meets.ne_of_null (empty i)

/-- The third iteration, which has both kinds of events in the collect queue and meets an event that
is done again. -/
theorem idle_events_circulate_again :
    secondEnd.handled = [8, 16, 8] ∧ secondEnd.NotLocal 16 ∧
      ∃ collected postponed, secondEnd.collectqueue.Holds collected ∧
        secondEnd.postponedqueue.Holds postponed ∧
        ∃ fuel s₁, localPart pollAgain (fun _ s => s) 3000 [16] fuel secondEnd = some s₁ ∧
          ∀ fuel', IdleOnce pollAgain (arrived 8 [(1000, [16]), (2000, [24])]) collected postponed
            [16] secondEnd (timersPart pollAgain (fun _ s => s) 3000 fuel' s₁).state :=
  ⟨rfl, ⟨_, _, holds_secondEnd.1, holds_secondEnd.2, by decide, List.not_mem_nil⟩,
    idle_events_circulate (.of_eq fun _ _ => rfl) (fun _ _ => rfl) rfl (by decide) run_secondEnd
      (List.nodup_singleton 16) (List.forall_mem_singleton.mpr fresh_secondEnd) 3000⟩

end EventThread
end OstrichServer
