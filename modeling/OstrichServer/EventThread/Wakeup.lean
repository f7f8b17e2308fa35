import OstrichServer.EventThread.ExternalQueue

/-!
# No wake-up is lost

Pushes happen outside the mutex and only the push that found the list empty signals.  Whenever the
event thread waits on a list that is not empty, that push is still on its way to the signal.
-/

namespace OstrichServer
namespace EventThread

open AtomicList

variable {ι : Type} [DecidableEq ι]

/-- The producer is between its push and its signal. -/
def ProducerPc.Signalling (pc : ProducerPc) : Prop := pc = .acquire ∨ pc = .signal

/-- The producer holds the mutex. -/
def ProducerPc.Locking (pc : ProducerPc) : Prop := pc = .signal ∨ pc = .release

/-- The event thread holds the mutex. -/
def ConsumerPc.Locking (pc : ConsumerPc) : Prop := pc = .test ∨ pc = .wait ∨ pc = .release

/-- The event thread is about to sleep or asleep. -/
def ConsumerPc.Waiting (pc : ConsumerPc) : Prop := pc = .wait ∨ pc = .asleep

/-- The mutex is held by the thread whose program says so. -/
structure LockHeld (s : State ι) : Prop where
  producer : ∀ i, (s.producer i).Locking → s.lock = some (.producer i)
  consumer : s.consumer.Locking → s.lock = some .consumer

/-- A waiting event thread that has events is going to be signalled. -/
def SignalPending (s : State ι) : Prop :=
  s.consumer.Waiting → alPointer s.mem.head ≠ 0 → ∃ i, (s.producer i).Signalling

omit [DecidableEq ι] in
/-- What a step inside `thread_main_event_loop` but outside `thread_event_dequeue` does to the
threads: the event thread goes to a program point at which it neither waits nor holds the mutex. -/
theorem LoopStep.shared {kind : Word → EventKind} {s s' : State ι} (step : LoopStep kind s s') :
    s'.producer = s.producer ∧ s'.lock = s.lock ∧ s'.mem.head = s.mem.head ∧
      ¬ s'.consumer.Locking ∧ ¬ s'.consumer.Waiting := by
  have drain : ¬ ConsumerPc.drain.Locking ∧ ¬ ConsumerPc.drain.Waiting := by
    simp [ConsumerPc.Locking, ConsumerPc.Waiting]
  cases step with
  | drained | postponedDone => simp [ConsumerPc.Locking, ConsumerPc.Waiting]
  | check =>
      cases atomicListEmpty s.mem <;> simp [ConsumerPc.Locking, ConsumerPc.Waiting]
  | idle here | timed here => exact ⟨rfl, rfl, rfl, here ▸ drain.1, here ▸ drain.2⟩
  | process scheduled here =>
      have same := sameShared_process kind s.collectqueueDequeue s.collect scheduled
      have consumer : _ = ConsumerPc.drain := same.consumer.trans here
      exact ⟨same.producer, same.lock, same.head, consumer ▸ drain.1, consumer ▸ drain.2⟩
  | postponed scheduled here =>
      have same := sameShared_process kind s.localqDequeue s.postponed scheduled
      have consumer : _ = ConsumerPc.postponed := same.consumer.trans here
      refine ⟨same.producer, same.lock, same.head, ?_, ?_⟩ <;>
        simp [consumer, ConsumerPc.Locking, ConsumerPc.Waiting]

/-! ## The mutex -/

theorem ProducerStep.lockHeld {i : ι} {s s' : State ι} (step : ProducerStep i s s')
    (held : LockHeld s) : LockHeld s' := by
  have other : ∀ {pc j}, ¬ pc.Locking → (Function.update s.producer i pc j).Locking →
      j ≠ i ∧ (s.producer j).Locking := by
    intro pc j unlocked locking
    by_cases same : j = i
    · subst same
      rw [Function.update_self] at locking
      exact (unlocked locking).elim
    · rw [Function.update_of_ne same] at locking
      exact ⟨same, locking⟩
  cases step with
  | begin e =>
      refine ⟨fun j locking => held.producer j ?_, held.consumer⟩
      exact (other (by simp [ProducerPc.Locking]) locking).2
  | @push e pc here =>
      rcases atomicListPush e s.mem pc with ⟨m, pc' | h⟩
      · refine ⟨fun j locking => held.producer j ?_, held.consumer⟩
        exact (other (by simp [ProducerPc.Locking]) locking).2
      · refine ⟨fun j locking => held.producer j ?_, held.consumer⟩
        refine (other ?_ locking).2
        split <;> simp [ProducerPc.Locking]
  | acquire here free =>
      refine ⟨fun j locking => ?_, fun locking => ?_⟩
      · by_cases same : j = i
        · rw [same]
        · simp only [Function.update_of_ne same] at locking
          cases (held.producer j locking).symm.trans free
      · cases (held.consumer locking).symm.trans free
  | signal here =>
      have mine : s.lock = some (.producer i) := held.producer i (Or.inl here)
      refine ⟨fun j locking => ?_, fun locking => held.consumer ?_⟩
      · by_cases same : j = i
        · rw [same]
          exact mine
        · simp only [Function.update_of_ne same] at locking
          exact held.producer j locking
      · by_cases asleep : s.consumer = .asleep
        · simp [asleep, ConsumerPc.Locking] at locking
        · simpa [asleep] using locking
  | release here =>
      have mine : s.lock = some (.producer i) := held.producer i (Or.inr here)
      refine ⟨fun j locking => ?_, fun locking => ?_⟩
      · obtain ⟨distinct, locking⟩ := other (by simp [ProducerPc.Locking]) locking
        cases (held.producer j locking).symm.trans mine
        exact (distinct rfl).elim
      · cases (held.consumer locking).symm.trans mine

omit [DecidableEq ι] in
theorem DequeueStep.lockHeld {caller : Caller} {s s' : State ι} (step : DequeueStep caller s s')
    (held : LockHeld s) : LockHeld s' := by
  have leave : s.consumer.Locking → ∀ j, ¬ (s.producer j).Locking := by
    intro mine j locking
    cases (held.consumer mine).symm.trans (held.producer j locking)
  cases step with
  | acquire here free | reacquire here free =>
      refine ⟨fun j locking => ?_, fun _ => rfl⟩
      cases (held.producer j locking).symm.trans free
  | test here =>
      exact ⟨held.producer, fun _ => held.consumer (Or.inl here)⟩
  | sleep here =>
      refine ⟨fun j locking => (leave (Or.inr (Or.inl here)) j locking).elim, fun locking => ?_⟩
      simp [ConsumerPc.Locking] at locking
  | release here =>
      refine ⟨fun j locking => (leave (Or.inr (Or.inr here)) j locking).elim, fun locking => ?_⟩
      simp [ConsumerPc.Locking] at locking
  | wake here =>
      refine ⟨held.producer, fun locking => ?_⟩
      simp [ConsumerPc.Locking] at locking
  | @popall pc here =>
      rcases atomicListPopall s.mem pc with ⟨m, pc' | e⟩ <;>
        refine ⟨held.producer, fun locking => ?_⟩ <;>
        simp [State.afterPopall, ConsumerPc.Locking] at locking
  | transfer here more =>
      refine ⟨held.producer, fun locking => ?_⟩
      simp [ConsumerPc.Locking] at locking
  | done here =>
      refine ⟨held.producer, fun locking => ?_⟩
      cases caller <;> simp [Caller.return, ConsumerPc.Locking] at locking

theorem lockHeld_step {kind : Word → EventKind} {caller : Caller} {s s' : State ι}
    (step : Step kind caller s s') (held : LockHeld s) : LockHeld s' := by
  cases step with
  | producer i step => exact step.lockHeld held
  | dequeue step => exact step.lockHeld held
  | loop step =>
      obtain ⟨producer, lock, -, unlocked, -⟩ := step.shared
      refine ⟨fun j locking => ?_, fun locking => (unlocked locking).elim⟩
      rw [producer] at locking
      rw [lock]
      exact held.producer j locking

/-! ## The signal -/

theorem ProducerStep.signalPending {i : ι} {s s' : State ι} (step : ProducerStep i s s')
    (held : LockHeld s) (pending : SignalPending s) : SignalPending s' := by
  have keep : ∀ {pc}, ¬ (s.producer i).Signalling → (∃ j, (s.producer j).Signalling) →
      ∃ j, (Function.update s.producer i pc j).Signalling := by
    rintro pc quiet ⟨j, signalling⟩
    have distinct : j ≠ i := fun same => quiet (same ▸ signalling)
    exact ⟨j, by rwa [Function.update_of_ne distinct]⟩
  cases step with
  | begin e here =>
      intro waiting more
      exact keep (by simp [here, ProducerPc.Signalling]) (pending waiting more)
  | @push e pc here =>
      have quiet : ¬ (s.producer i).Signalling := by simp [here, ProducerPc.Signalling]
      intro waiting more
      cases pc with
      | load => exact keep quiet (pending waiting more)
      | link head => exact keep quiet (pending waiting more)
      | swap head =>
          by_cases hit : s.mem.head = head
          · simp only [atomicListPush, if_pos hit, State.afterPush] at waiting ⊢
            by_cases empty : alPointer head = 0
            · exact ⟨i, by simp [empty, ProducerPc.Signalling]⟩
            · exact keep quiet (pending waiting (hit ▸ empty))
          · simp only [atomicListPush, if_neg hit, State.afterPush] at waiting more ⊢
            exact keep quiet (pending waiting more)
  | acquire here free => exact fun _ _ => ⟨i, by simp [ProducerPc.Signalling]⟩
  | signal here =>
      -- the event thread cannot be at `wait`, where it holds the mutex
      intro waiting
      have mine : s.lock = some (.producer i) := held.producer i (Or.inl here)
      by_cases asleep : s.consumer = .asleep
      · simp [asleep, ConsumerPc.Waiting] at waiting
      · have wait : s.consumer = .wait := by simpa [asleep, ConsumerPc.Waiting] using waiting
        cases (held.consumer (Or.inr (Or.inl wait))).symm.trans mine
  | release here =>
      intro waiting more
      exact keep (by simp [here, ProducerPc.Signalling]) (pending waiting more)

omit [DecidableEq ι] in
theorem DequeueStep.signalPending {caller : Caller} {s s' : State ι}
    (step : DequeueStep caller s s') (pending : SignalPending s) : SignalPending s' := by
  cases step with
  | sleep here => exact fun _ more => pending (Or.inl here) more
  | test here =>
      intro waiting more
      by_cases empty : atomicListEmpty s.mem = true
      · exact (more (by simpa [atomicListEmpty] using empty)).elim
      · simp [empty, ConsumerPc.Waiting] at waiting
  | @popall pc here =>
      intro waiting
      rcases outcome : atomicListPopall s.mem pc with ⟨m, pc' | e⟩ <;>
        simp [outcome, State.afterPopall, ConsumerPc.Waiting] at waiting
  | done here =>
      intro waiting
      cases caller <;> simp [Caller.return, ConsumerPc.Waiting] at waiting
  | acquire | reacquire | wake | release | transfer =>
      intro waiting
      simp [ConsumerPc.Waiting] at waiting

theorem signalPending_isInvariant (kind : Word → EventKind) (caller : Caller) :
    (system kind caller).IsInvariant fun s : State ι => LockHeld s ∧ SignalPending s where
  initial := by
    rintro s ⟨next, poll, -, -, rfl⟩
    have same := sameShared_localSchedule kind (emptyState caller next : State ι) poll
    have consumer : _ = caller.start := same.consumer
    refine ⟨⟨fun i locking => ?_, fun locking => ?_⟩, fun waiting => ?_⟩
    · rw [same.producer] at locking
      simp [emptyState, ProducerPc.Locking] at locking
    · rw [consumer] at locking
      cases caller <;> simp [Caller.start, ConsumerPc.Locking] at locking
    · rw [consumer] at waiting
      cases caller <;> simp [Caller.start, ConsumerPc.Waiting] at waiting
  step := by
    rintro s s' ⟨held, pending⟩ step
    refine ⟨lockHeld_step step held, ?_⟩
    cases step with
    | producer i step => exact step.signalPending held pending
    | dequeue step => exact step.signalPending pending
    | loop step => exact fun waiting => (step.shared.2.2.2.2 waiting).elim

/-- No reachable state has the event thread asleep with no wake-up delivered, events in the
external list, and no producer between its push and its signal. -/
theorem no_lost_wakeup (kind : Word → EventKind) (caller : Caller) (s : State ι)
    (reachable : (system kind caller).Reachable s) :
    ¬ (s.consumer = .asleep ∧ alPointer s.mem.head ≠ 0 ∧ ∀ i, ¬ (s.producer i).Signalling) := by
  rintro ⟨asleep, more, quiet⟩
  obtain ⟨i, signalling⟩ :=
    ((signalPending_isInvariant kind caller).of_reachable reachable).2 (Or.inr asleep) more
  exact quiet i signalling

/-- The event thread sleeps, one producer has pushed the first event and is about to signal, and
another one has pushed an event behind its back. -/
theorem no_lost_wakeup_asleep :
    let kind : Word → EventKind := fun e => ⟨decide (e = 1), 0, false⟩
    ∃ s : State (Fin 2), (system kind .dequeueLoop).Reachable s ∧ s.pushed = [16, 32] ∧
      s.consumer = .asleep ∧ alPointer s.mem.head = 32 ∧ s.producer 0 = .acquire ∧
      s.producer 1 = .idle ∧
      ¬ (s.consumer = .asleep ∧ alPointer s.mem.head ≠ 0 ∧ ∀ i, ¬ (s.producer i).Signalling) := by
  intro kind
  have canonical : Canonical 16#64 := canonical_of_lt (by decide)
  have canonical' : Canonical 32#64 := canonical_of_lt (by decide)
  let start : State (Fin 2) := (emptyState .dequeueLoop fun _ => 0).localSchedule kind 1
  have started : (system kind .dequeueLoop).Reachable start :=
    TransitionSystem.reachable_of_initial ⟨fun _ => 0, 1, by decide, by decide, rfl⟩
  have free : start.Free 32 := free_start kind .dequeueLoop _ (by decide)
  have begun := reachable_begin started (i := 0) (e := 16) rfl (by decide) canonical
    (by decide) (free_start kind .dequeueLoop _ (by decide))
  have begun' := reachable_begin begun (i := 1) (e := 32) rfl (by decide) canonical'
    (by decide) (free.begin (by decide))
  -- the event thread finds the list empty and goes to sleep
  have acquired := begun'.step (.dequeue (.acquire rfl rfl))
  have tested := acquired.step (.dequeue (.test rfl))
  have empty : alPointer start.mem.head = 0 := alPointer_init _
  have slept := tested.step (.dequeue (.sleep (by simp [atomicListEmpty, empty])))
  have pushed := reachable_of_runsOn slept (runsOn_pushedBy (i := 0) (e := 16) (by simp))
  have pushed' := reachable_of_runsOn pushed
    (runsOn_pushedBy (i := 1) (e := 32) (by simp [State.pushedBy]))
  refine ⟨_, pushed', rfl, rfl, ?_, ?_, ?_, no_lost_wakeup kind .dequeueLoop _ pushed'⟩
  · simp [State.pushedBy, canonical']
  · simp [State.pushedBy, empty]
  · simp [State.pushedBy, canonical]

end EventThread
end OstrichServer
