import OstrichServer.EventThread.LocalQueue
import OstrichServer.Foundations.TransitionSystem

/-!
# An event thread and its producers

`thread_event_enqueue` of any number of producer threads against the loop of one event thread of
`thread.c`: `thread_event_dequeue` with its mutex and condition variable, and the local queues.
The accesses to the external list and to the mutex interleave; what the event thread does to its
own queues is one step for each event.  An event handed to `event_priority_enqueue` leaves the
model.
-/

namespace OstrichServer
namespace EventThread

open AtomicList LinkedList

/-- The fields of an `event` which choose its way through the loop. -/
structure EventKind where
  /-- `type & EVENT_IDLE` -/
  idle : Bool
  timeout : Int
  redo : Bool
  deriving DecidableEq

/-- No IDLE flag, `timeout <= 0` and `redo == 0`. -/
def EventKind.Immediate (k : EventKind) : Prop := k.idle = false ∧ k.timeout ≤ 0 ∧ k.redo = false

instance : DecidablePred EventKind.Immediate := fun _ => inferInstanceAs (Decidable (_ ∧ _))

/-- Where a producer is in `thread_event_enqueue`. -/
inductive ProducerPc
  | idle
  /-- `atomic_list_push(&queue->al, e)` -/
  | push (e : Word) (pc : PushPc)
  /-- `mutex_acquire` in `thread_event_wakeup` -/
  | acquire
  /-- `cond_signal` -/
  | signal
  /-- `mutex_release` -/
  | release
  deriving DecidableEq

/-- Where the event thread is. -/
inductive ConsumerPc
  /-- `while (e = collectqueue.dequeue())` -/
  | drain
  /-- `if (!atomic_list_empty(&queue->al))` -/
  | check
  /-- `mutex_acquire` in `thread_event_dequeue` -/
  | acquire
  /-- `while (atomic_list_empty(&queue->al))` -/
  | test
  /-- `cond_timewait`, before it releases the mutex -/
  | wait
  /-- Inside `cond_timewait`, with no wake-up delivered. -/
  | asleep
  /-- Inside `cond_timewait`, about to get the mutex back. -/
  | woken
  /-- `mutex_release` -/
  | release
  /-- `atomic_list_popall(&queue->al)` -/
  | popall (pc : PopallPc)
  /-- `while (e)` over the chain that was taken -/
  | transfer (e : Word)
  /-- `while (localevent = postponedqueue.dequeue())` -/
  | postponed
  deriving DecidableEq

/-- The holder of `queue->lock`. -/
inductive Owner (ι : Type)
  | producer (i : ι)
  | consumer

/-- The event thread, its producers, and the history of the events. -/
structure State (ι : Type) where
  mem : Memory
  producer : ι → ProducerPc
  consumer : ConsumerPc
  lock : Option (Owner ι)
  /-- `collectqueue.link` -/
  collect : Word
  /-- `postponedqueue.link` -/
  postponed : Word
  /-- The events whose push has begun. -/
  begun : List Word
  /-- The events pushed, in the order in which their pushes took effect. -/
  pushed : List Word
  /-- The events given to `process_event`, in order. -/
  handled : List Word

namespace State

variable {ι : Type}

def collectqueue (s : State ι) : LocalQueue := { link := s.collect, next := s.mem.next }

def postponedqueue (s : State ι) : LocalQueue := { link := s.postponed, next := s.mem.next }

def setCollectqueue (s : State ι) (q : LocalQueue) : State ι :=
  { s with collect := q.link, mem := { s.mem with next := q.next } }

def setPostponedqueue (s : State ι) (q : LocalQueue) : State ι :=
  { s with postponed := q.link, mem := { s.mem with next := q.next } }

/-- `collectqueue_enqueue` -/
def collectqueueEnqueue (s : State ι) (e : Word) : State ι :=
  s.setCollectqueue (s.collectqueue.collectqueueEnqueue e)

/-- `localq_enqueue` -/
def localqEnqueue (s : State ι) (e : Word) : State ι :=
  s.setPostponedqueue (s.postponedqueue.localqEnqueue e)

/-- What `collectqueue_dequeue` does to the queue. -/
def collectqueueDequeue (s : State ι) : State ι :=
  s.setCollectqueue s.collectqueue.collectqueueDequeue.2

/-- What `localq_dequeue` does to the queue. -/
def localqDequeue (s : State ι) : State ι :=
  s.setPostponedqueue s.postponedqueue.localqDequeue.2

theorem collectqueueEnqueue_eq (s : State ι) (e : Word) :
    s.collectqueueEnqueue e =
      { s with
        collect := e
        mem := { s.mem with next := Function.update s.mem.next e s.collect } } :=
  rfl

theorem localqEnqueue_eq (s : State ι) (e : Word) :
    s.localqEnqueue e =
      { s with
        postponed := e
        mem := { s.mem with next := Function.update s.mem.next e s.postponed } } :=
  rfl

/-- An event is taken off a queue that is not empty. -/
theorem collectqueueDequeue_of_ne {s : State ι} (more : s.collect ≠ 0) :
    s.collectqueueDequeue =
      { s with
        collect := s.mem.next s.collect
        mem := { s.mem with next := Function.update s.mem.next s.collect 0 } } := by
  have taken : s.collectqueue.collectqueueDequeue = _ := LocalQueue.take_of_ne more
  rw [collectqueueDequeue, taken]
  rfl

theorem localqDequeue_of_ne {s : State ι} (more : s.postponed ≠ 0) :
    s.localqDequeue =
      { s with
        postponed := s.mem.next s.postponed
        mem := { s.mem with next := Function.update s.mem.next s.postponed 0 } } := by
  have taken : s.postponedqueue.localqDequeue = _ := LocalQueue.take_of_ne more
  rw [localqDequeue, taken]
  rfl

/-- `local_schedule` -/
def localSchedule (kind : Word → EventKind) (s : State ι) (e : Word) : State ι :=
  if 0 < (kind e).timeout then s else s.localqEnqueue e

/-- `thread_event_process`, whose handler calls `local_schedule` on the events in `scheduled`. -/
def threadEventProcess (kind : Word → EventKind) (s : State ι) (e : Word) (scheduled : List Word) :
    State ι :=
  let s := scheduled.foldl (localSchedule kind) { s with handled := s.handled ++ [e] }
  if (kind e).redo then s.collectqueueEnqueue e else s

/-- The links from which the event thread and the producers reach queued events. -/
inductive QueueName
  | external
  | transferred
  | collect
  | postponed
  deriving DecidableEq

/-- The first event of a queue. -/
def first (s : State ι) : QueueName → Word
  | .external => alPointer s.mem.head
  | .transferred =>
      match s.consumer with
      | .transfer e => e
      | _ => 0
  | .collect => s.collect
  | .postponed => s.postponed

/-- The event is on no queue and no producer is pushing it. -/
def Free (s : State ι) (e : Word) : Prop :=
  (∀ k nodes, Chain 0 s.mem.next (s.first k) nodes → e ∉ nodes) ∧
    ∀ i pc, s.producer i ≠ .push e pc

/-- What a handler may give to `local_schedule`: events of its own, none of them immediate. -/
structure MaySchedule (kind : Word → EventKind) (s : State ι) (e : Word) (scheduled : List Word) :
    Prop where
  nodup : scheduled.Nodup
  local_event : ∀ l ∈ scheduled, l ≠ 0 ∧ s.Free l ∧ ¬ (kind l).Immediate
  not_redone : (kind e).redo = true → e ∉ scheduled

variable [DecidableEq ι]

/-- After one access of `atomic_list_push` by a producer. -/
def afterPush (s : State ι) (i : ι) (e : Word) : Memory × Progress PushPc → State ι
  | (m, .running pc) => { s with mem := m, producer := Function.update s.producer i (.push e pc) }
  | (m, .returned h) =>
      { s with
        mem := m
        producer := Function.update s.producer i (if h = 0 then .acquire else .idle)
        pushed := s.pushed ++ [e] }

/-- After one access of `atomic_list_popall`. -/
def afterPopall (s : State ι) : Memory × Progress PopallPc → State ι
  | (m, .running pc) => { s with mem := m, consumer := .popall pc }
  | (m, .returned e) => { s with mem := m, consumer := .transfer e }

end State

/-- Who calls `thread_event_dequeue`: `thread_main_event_loop`, or a loop of nothing else. -/
inductive Caller
  | mainLoop
  | dequeueLoop
  deriving DecidableEq

/-- The first thing the event thread does. -/
def Caller.start : Caller → ConsumerPc
  | .mainLoop => .drain
  | .dequeueLoop => .acquire

/-- Where `thread_event_dequeue` returns to. -/
def Caller.return : Caller → ConsumerPc
  | .mainLoop => .postponed
  | .dequeueLoop => .acquire

section Steps

variable {ι : Type} [DecidableEq ι]

open State

/-- One step of a producer. -/
inductive ProducerStep (i : ι) : State ι → State ι → Prop
  | begin {s : State ι} (e : Word) (here : s.producer i = .idle) (not_null : e ≠ 0)
      (canonical : Canonical e) (once : e ∉ s.begun) (free : s.Free e) :
      ProducerStep i s
        { s with producer := Function.update s.producer i (.push e .load), begun := e :: s.begun }
  | push {s : State ι} {e : Word} {pc : PushPc} (here : s.producer i = .push e pc) :
      ProducerStep i s (s.afterPush i e (atomicListPush e s.mem pc))
  | acquire {s : State ι} (here : s.producer i = .acquire) (free : s.lock = none) :
      ProducerStep i s
        { s with producer := Function.update s.producer i .signal, lock := some (.producer i) }
  | signal {s : State ι} (here : s.producer i = .signal) :
      ProducerStep i s
        { s with
          producer := Function.update s.producer i .release
          consumer := if s.consumer = .asleep then .woken else s.consumer }
  | release {s : State ι} (here : s.producer i = .release) :
      ProducerStep i s
        { s with producer := Function.update s.producer i .idle, lock := none }

/-- One step of the event thread inside `thread_event_dequeue`. -/
inductive DequeueStep (caller : Caller) : State ι → State ι → Prop
  | acquire {s : State ι} (here : s.consumer = .acquire) (free : s.lock = none) :
      DequeueStep caller s { s with consumer := .test, lock := some .consumer }
  | test {s : State ι} (here : s.consumer = .test) :
      DequeueStep caller s
        { s with consumer := if atomicListEmpty s.mem then .wait else .release }
  | sleep {s : State ι} (here : s.consumer = .wait) :
      DequeueStep caller s { s with consumer := .asleep, lock := none }
  /-- A spurious or timed wake-up. -/
  | wake {s : State ι} (here : s.consumer = .asleep) :
      DequeueStep caller s { s with consumer := .woken }
  | reacquire {s : State ι} (here : s.consumer = .woken) (free : s.lock = none) :
      DequeueStep caller s { s with consumer := .test, lock := some .consumer }
  | release {s : State ι} (here : s.consumer = .release) :
      DequeueStep caller s { s with consumer := .popall .load, lock := none }
  | popall {s : State ι} {pc : PopallPc} (here : s.consumer = .popall pc) :
      DequeueStep caller s (s.afterPopall (atomicListPopall s.mem pc))
  | transfer {s : State ι} {e : Word} (here : s.consumer = .transfer e) (more : e ≠ 0) :
      DequeueStep caller s
        { s.collectqueueEnqueue e with consumer := .transfer (s.mem.next e) }
  | done {s : State ι} (here : s.consumer = .transfer 0) :
      DequeueStep caller s { s with consumer := caller.return }

/-- One step of the event thread in the rest of `thread_main_event_loop`. -/
inductive LoopStep (kind : Word → EventKind) : State ι → State ι → Prop
  | drained {s : State ι} (here : s.consumer = .drain) (empty : s.collect = 0) :
      LoopStep kind s { s with consumer := .check }
  | idle {s : State ι} (here : s.consumer = .drain) (more : s.collect ≠ 0)
      (idle : (kind s.collect).idle = true) :
      LoopStep kind s (s.collectqueueDequeue.localqEnqueue s.collect)
  | timed {s : State ι} (here : s.consumer = .drain) (more : s.collect ≠ 0)
      (not_idle : (kind s.collect).idle = false) (timed : 0 < (kind s.collect).timeout) :
      LoopStep kind s s.collectqueueDequeue
  | process {s : State ι} (scheduled : List Word) (here : s.consumer = .drain)
      (more : s.collect ≠ 0) (not_idle : (kind s.collect).idle = false)
      (not_timed : ¬ 0 < (kind s.collect).timeout)
      (may : s.collectqueueDequeue.MaySchedule kind s.collect scheduled) :
      LoopStep kind s (s.collectqueueDequeue.threadEventProcess kind s.collect scheduled)
  | check {s : State ι} (here : s.consumer = .check) :
      LoopStep kind s
        { s with consumer := if atomicListEmpty s.mem then .postponed else .acquire }
  | postponedDone {s : State ι} (here : s.consumer = .postponed) (empty : s.postponed = 0) :
      LoopStep kind s { s with consumer := .drain }
  | postponed {s : State ι} (scheduled : List Word) (here : s.consumer = .postponed)
      (more : s.postponed ≠ 0)
      (may : s.localqDequeue.MaySchedule kind s.postponed scheduled) :
      LoopStep kind s (s.localqDequeue.threadEventProcess kind s.postponed scheduled)

/-- One step of any thread. -/
inductive Step (kind : Word → EventKind) (caller : Caller) (s s' : State ι) : Prop
  | producer (i : ι) (step : ProducerStep i s s')
  | dequeue (step : DequeueStep caller s s')
  | loop (step : LoopStep kind s s')

/-! ## What the local queues leave alone -/

/-- Equal in what the threads share. -/
structure SameShared (s s' : State ι) : Prop where
  head : s'.mem.head = s.mem.head
  producer : s'.producer = s.producer
  consumer : s'.consumer = s.consumer
  lock : s'.lock = s.lock
  begun : s'.begun = s.begun
  pushed : s'.pushed = s.pushed

omit [DecidableEq ι] in
theorem SameShared.trans {s s' s'' : State ι} (left : SameShared s s') (right : SameShared s' s'') :
    SameShared s s'' :=
  ⟨right.head.trans left.head, right.producer.trans left.producer,
    right.consumer.trans left.consumer, right.lock.trans left.lock, right.begun.trans left.begun,
    right.pushed.trans left.pushed⟩

omit [DecidableEq ι] in
theorem sameShared_localSchedule (kind : Word → EventKind) (s : State ι) (e : Word) :
    SameShared s (s.localSchedule kind e) := by
  unfold localSchedule
  split <;> exact ⟨rfl, rfl, rfl, rfl, rfl, rfl⟩

omit [DecidableEq ι] in
theorem sameShared_schedule (kind : Word → EventKind) (s : State ι) (scheduled : List Word) :
    SameShared s (scheduled.foldl (localSchedule kind) s) := by
  induction scheduled generalizing s with
  | nil => exact ⟨rfl, rfl, rfl, rfl, rfl, rfl⟩
  | cons e scheduled induction => exact (sameShared_localSchedule kind s e).trans (induction _)

omit [DecidableEq ι] in
theorem sameShared_process (kind : Word → EventKind) (s : State ι) (e : Word)
    (scheduled : List Word) : SameShared s (s.threadEventProcess kind e scheduled) := by
  have schedule := sameShared_schedule kind { s with handled := s.handled ++ [e] } scheduled
  have before : SameShared s { s with handled := s.handled ++ [e] } :=
    ⟨rfl, rfl, rfl, rfl, rfl, rfl⟩
  unfold threadEventProcess
  simp only
  split
  · exact (before.trans schedule).trans ⟨rfl, rfl, rfl, rfl, rfl, rfl⟩
  · exact before.trans schedule

/-- Nothing has been pushed, the queues are empty and nobody holds the mutex. -/
def emptyState (caller : Caller) (next : Word → Word) : State ι where
  mem := atomicListInit next
  producer := fun _ => .idle
  consumer := caller.start
  lock := none
  collect := 0
  postponed := 0
  begun := []
  pushed := []
  handled := []

/-- The threads over any interleaving of their steps, from the poll event of `thread_init` on. -/
def system (kind : Word → EventKind) (caller : Caller) : TransitionSystem (State ι) where
  initial s := ∃ next poll, poll ≠ 0 ∧ ¬ (kind poll).Immediate ∧
    s = (emptyState caller next).localSchedule kind poll
  step := Step kind caller

/-! ## Calls that nothing interrupts -/

/-- After a whole call of `atomic_list_push` by a producer. -/
def State.pushedBy (s : State ι) (i : ι) (e : Word) : State ι :=
  { s with
    mem :=
      { head := setPointerVersion e (alVersion s.mem.head)
        next := Function.update s.mem.next e (alPointer s.mem.head) }
    producer := Function.update s.producer i
      (if alPointer s.mem.head = 0 then .acquire else .idle)
    pushed := s.pushed ++ [e] }

/-- After a whole call of `atomic_list_popall` by the event thread. -/
def State.takenAll (s : State ι) : State ι :=
  { s with
    mem := { s.mem with head := setPointerVersion 0 (alVersion s.mem.head + 1) }
    consumer := .transfer (alPointer s.mem.head)
    lock := none }

variable {kind : Word → EventKind} {caller : Caller} {s : State ι} {i : ι}

theorem reachable_begin (reachable : (system kind caller).Reachable s)
    (idle : s.producer i = .idle) {e : Word} (not_null : e ≠ 0) (canonical : Canonical e)
    (once : e ∉ s.begun) (free : s.Free e) :
    (system kind caller).Reachable
      { s with producer := Function.update s.producer i (.push e .load), begun := e :: s.begun } :=
  reachable.step (.producer i (.begin e idle not_null canonical once free))

omit [DecidableEq ι] in
/-- At the start only the poll event is on a queue. -/
theorem free_start (kind : Word → EventKind) (caller : Caller) (next : Word → Word) {poll e : Word}
    (other : e ≠ poll) :
    ((emptyState caller next : State ι).localSchedule kind poll).Free e := by
  have empty : ∀ {links : Word → Word} {first : Word} {nodes : List Word},
      Chain 0 links first nodes → first = 0 → e ∉ nodes := by
    rintro links first nodes chain rfl
    rw [chain.eq_nil]
    exact List.not_mem_nil
  have same := sameShared_localSchedule kind (emptyState caller next : State ι) poll
  refine ⟨fun k nodes chain => ?_, fun i pc => by rw [same.producer]; simp [emptyState]⟩
  cases k with
  | external => exact empty chain (by rw [State.first, same.head]; exact alPointer_init next)
  | transferred =>
      refine empty chain ?_
      rw [State.first, same.consumer]
      cases caller <;> rfl
  | collect =>
      refine empty chain ?_
      unfold localSchedule
      split <;> rfl
  | postponed =>
      unfold localSchedule at chain
      split at chain
      · exact empty chain rfl
      · intro member
        cases chain with
        | nil => cases member
        | cons _ tail =>
            have tail_empty := empty tail (Function.update_self ..)
            rcases List.mem_cons.mp member with first | later
            · exact other first
            · exact tail_empty later

/-- An event stays free while another one is being pushed. -/
theorem State.Free.begin {e e' : Word} (free : s.Free e) (other : e' ≠ e) :
    State.Free
      { s with producer := Function.update s.producer i (.push e' .load), begun := e' :: s.begun }
      e := by
  refine ⟨fun k nodes chain => free.1 k nodes (by cases k <;> exact chain), fun j pc => ?_⟩
  by_cases same : j = i
  · subst same
    simp [other]
  · simpa [same] using free.2 j pc

/-- Steps in which no producer calls `thread_event_enqueue`. -/
def RunsOn (kind : Word → EventKind) (caller : Caller) : State ι → State ι → Prop :=
  Relation.ReflTransGen fun s s' => Step kind caller s s' ∧ s'.begun = s.begun

theorem reachable_of_runsOn {s' : State ι} (reachable : (system kind caller).Reachable s)
    (runs : RunsOn kind caller s s') : (system kind caller).Reachable s' := by
  induction runs with
  | refl => exact reachable
  | tail _ last induction => exact induction.step last.1

theorem runsOn_pushedBy {e : Word} (here : s.producer i = .push e .load) :
    RunsOn kind caller s (s.pushedBy i e) := by
  have loaded : RunsOn kind caller s _ := .single ⟨.producer i (.push here), rfl⟩
  have linked : RunsOn kind caller s _ :=
    loaded.tail ⟨.producer i (.push (Function.update_self ..)), rfl⟩
  have swapped : RunsOn kind caller s _ :=
    linked.tail ⟨.producer i (.push (Function.update_self ..)), by
      simp [afterPush, atomicListPush]⟩
  simpa [afterPush, atomicListPush, pushedBy] using swapped

/-- A producer that found the list empty signals. -/
theorem runsOn_signalled (here : s.producer i = .acquire) (free : s.lock = none)
    (awake : s.consumer ≠ .asleep) :
    RunsOn kind caller s { s with producer := Function.update s.producer i .idle } := by
  have acquired : RunsOn kind caller s _ := .single ⟨.producer i (.acquire here free), rfl⟩
  have signalled : RunsOn kind caller s _ :=
    acquired.tail ⟨.producer i (.signal (Function.update_self ..)), rfl⟩
  have released : RunsOn kind caller s _ :=
    signalled.tail ⟨.producer i (.release (Function.update_self ..)), rfl⟩
  simpa [awake, ← free] using released

/-- The event thread finds events in the list and takes them. -/
theorem reachable_takenAll (reachable : (system kind caller).Reachable s)
    (here : s.consumer = .acquire) (free : s.lock = none) (more : alPointer s.mem.head ≠ 0) :
    (system kind caller).Reachable s.takenAll := by
  have acquired := reachable.step (.dequeue (.acquire here free))
  have tested := acquired.step (.dequeue (.test rfl))
  have not_empty : atomicListEmpty s.mem = false := by simpa [atomicListEmpty] using more
  simp only [not_empty] at tested
  have released := tested.step (.dequeue (.release rfl))
  have loaded := released.step (.dequeue (.popall rfl))
  simp only [atomicListPopall, if_neg more, afterPopall] at loaded
  have swapped := loaded.step (.dequeue (.popall rfl))
  simpa [atomicListPopall, afterPopall, takenAll] using swapped

end Steps

end EventThread
end OstrichServer
