import OstrichServer.EventThread.Delivery
import OstrichServer.Processor.AssignThread

/-!
# From the accept loop to the event threads

`accept_block_loop` hands each connection to `event_schedule`, which makes an event for it and puts
it on the external queue of the thread it assigns.  The one accept thread is the producer of every
event thread.  Its pushes and the loops of the event threads interleave.
-/

namespace OstrichServer
namespace Processor

open AtomicList EventThread EventThread.State LinkedList

/-- `EVENT_IMM` -/
def eventImm : Int := 0

/-- The fields of an event that `os_calloc` zeroed and that was given a type. -/
def eventKind (eventtype : Int) : EventKind where
  idle := eventtype % 2 = 1
  timeout := 0
  redo := false

/-- The event processor, the event threads with the accept thread as their producer, and the events
made so far. -/
structure Server (C : Type) where
  evp : EventProcessor
  /-- `eventthread[k]` -/
  thread : Int → EventThread.State Unit
  /-- The events of the calls of `event_schedule`, each with its address. -/
  accepted : List (ScheduledEvent C × Word)

variable {C : Type}

/-- The addresses of the events made for a thread. -/
def Server.eventsOf (s : Server C) (k : Int) : List Word :=
  (s.accepted.filter fun ev => ev.1.thread = k).map Prod.snd

/-- The producer has called `thread_event_enqueue` and is about to push. -/
def beginEnqueue (t : EventThread.State Unit) (e : Word) : EventThread.State Unit :=
  { t with producer := Function.update t.producer () (.push e .load), begun := e :: t.begun }

/-- A step of the accept thread or of an event thread. -/
inductive Server.Step (kind : Word → EventKind) : Server C → Server C → Prop
  /-- `evprocessor.schedule(c, EVENT_IMM)`, with the event that `os_calloc` returned. -/
  | schedule {s : Server C} (c : C) (e : Word)
      (idle : ∀ k, (s.thread k).producer () = .idle) (not_null : e ≠ 0) (canonical : Canonical e)
      (fresh : ∀ k, e ∉ (s.thread k).begun)
      (free : (s.thread (eventSchedule s.evp c eventImm).1.thread).Free e)
      (fields : kind e = eventKind (eventSchedule s.evp c eventImm).1.type) :
      Step kind s
        { evp := (eventSchedule s.evp c eventImm).2
          thread := Function.update s.thread (eventSchedule s.evp c eventImm).1.thread
            (beginEnqueue (s.thread (eventSchedule s.evp c eventImm).1.thread) e)
          accepted := s.accepted ++ [((eventSchedule s.evp c eventImm).1, e)] }
  /-- The accept thread goes on in `thread_event_enqueue`, or an event thread in its loop. -/
  | run {s : Server C} (k : Int) {t : EventThread.State Unit}
      (step : EventThread.Step kind .mainLoop (s.thread k) t)
      (no_begin : t.begun = (s.thread k).begun) :
      Step kind s { s with thread := Function.update s.thread k t }

/-- The server after `eventprocessor_init` and `thread_init` of its threads. -/
def server (C : Type) (kind : Word → EventKind) (nThreads : Int) : TransitionSystem (Server C) where
  initial s := s.evp = eventprocessorInit nThreads ∧ s.accepted = [] ∧
    ∀ k, (system kind .mainLoop).initial (s.thread k)
  step := Server.Step kind

/-! ## The pushes on one thread -/

/-- The event that the producer is pushing. -/
def pushing (t : EventThread.State Unit) : List Word :=
  match t.producer () with
  | .push e _ => [e]
  | _ => []

theorem pushing_idle {t : EventThread.State Unit} (idle : t.producer () = .idle) :
    pushing t = [] := by
  rw [pushing, idle]

theorem pushing_congr {t t' : EventThread.State Unit} (producer : t'.producer = t.producer) :
    pushing t' = pushing t := by
  rw [pushing, pushing, producer]

section Pushes

variable {kind : Word → EventKind} {t t' : EventThread.State Unit}

/-- A push that goes on or takes effect. -/
theorem pushed_afterPush {e : Word} {pc : PushPc} (here : t.producer () = .push e pc)
    (m : Memory) (progress : Progress PushPc) :
    (t.afterPush () e (m, progress)).pushed ++ pushing (t.afterPush () e (m, progress)) =
      t.pushed ++ pushing t := by
  have before : pushing t = [e] := by rw [pushing, here]
  cases progress with
  | running pc' =>
      rw [before]
      simp [State.afterPush, pushing]
  | returned h =>
      rw [before]
      by_cases null : h = 0#64 <;> simp [State.afterPush, pushing, null]

theorem pushed_of_producerStep {i : Unit} (step : ProducerStep i t t')
    (no_begin : t'.begun = t.begun) : t'.pushed ++ pushing t' = t.pushed ++ pushing t := by
  cases step with
  | begin e =>
      have longer := congrArg List.length no_begin
      simp at longer
  | @push e pc here => exact pushed_afterPush here _ _
  | acquire here | signal here | release here => simp [pushing, here]

theorem pushed_of_dequeueStep {caller : Caller} (step : DequeueStep caller t t') :
    t'.pushed ++ pushing t' = t.pushed ++ pushing t := by
  cases step with
  | @popall pc =>
      cases atomicListPopall t.mem pc with
      | mk m progress => cases progress <;> rfl
  | acquire | test | sleep | wake | reacquire | release | transfer | done => rfl

theorem pushed_of_loopStep (step : LoopStep kind t t') :
    t'.pushed ++ pushing t' = t.pushed ++ pushing t := by
  have keep : ∀ {s : EventThread.State Unit}, SameShared t s →
      s.pushed ++ pushing s = t.pushed ++ pushing t := by
    intro s same
    rw [same.pushed, pushing_congr same.producer]
  have dequeued : SameShared t t.collectqueueDequeue := ⟨rfl, rfl, rfl, rfl, rfl, rfl⟩
  have dequeued' : SameShared t t.localqDequeue := ⟨rfl, rfl, rfl, rfl, rfl, rfl⟩
  cases step with
  | drained | check | postponedDone | idle | timed => rfl
  | process scheduled => exact keep (dequeued.trans (sameShared_process kind _ _ scheduled))
  | postponed scheduled => exact keep (dequeued'.trans (sameShared_process kind _ _ scheduled))

/-- A step that begins no push leaves the events pushed or being pushed as they are. -/
theorem pushed_of_step (step : EventThread.Step kind .mainLoop t t')
    (no_begin : t'.begun = t.begun) : t'.pushed ++ pushing t' = t.pushed ++ pushing t := by
  cases step with
  | producer i step => exact pushed_of_producerStep step no_begin
  | dequeue step => exact pushed_of_dequeueStep step
  | loop step => exact pushed_of_loopStep step

end Pushes

/-! ## The server -/

/-- What holds in every state: the counter has counted the calls, each event went to the thread that
its number gives, and the pushes on a thread are those of its events. -/
structure Dispatching (kind : Word → EventKind) (nThreads : Int) (s : Server C) : Prop where
  reachable : ∀ k, (system kind .mainLoop).Reachable (s.thread k)
  evp : s.evp = { nThreads, nextThread := (s.accepted.length : Int).bmod (2 ^ 32) }
  turn : ∀ j ev, s.accepted[j]? = some ev → ev.1.thread = assigned nThreads j
  order : ∀ k, s.eventsOf k = (s.thread k).pushed ++ pushing (s.thread k)
  immediate : ∀ ev ∈ s.accepted, (kind ev.2).Immediate
  distinct : (s.accepted.map Prod.snd).Nodup
  begun : ∀ ev ∈ s.accepted, ∃ k, ev.2 ∈ (s.thread k).begun

section Invariant

variable {kind : Word → EventKind} {nThreads : Int} {s s' : Server C}

theorem eventKind_immediate : (eventKind eventImm).Immediate :=
  ⟨rfl, le_rfl, rfl⟩

/-- What `event_assign_thread` takes from the counter. -/
theorem eventSchedule_thread (evp : EventProcessor) (c : C) :
    (eventSchedule evp c eventImm).1.thread = evp.nextThread.tmod evp.nThreads :=
  rfl

theorem eventSchedule_counted (evp : EventProcessor) (c : C) :
    (eventSchedule evp c eventImm).2 =
      { evp with nextThread := (evp.nextThread + 1).bmod (2 ^ 32) } :=
  rfl

/-- The events of a thread after one more call. -/
theorem eventsOf_append (accepted : List (ScheduledEvent C × Word)) (ev : ScheduledEvent C × Word)
    (evp evp' : EventProcessor) (thread thread' : Int → EventThread.State Unit) (k : Int) :
    Server.eventsOf { evp := evp', thread := thread', accepted := accepted ++ [ev] } k =
      Server.eventsOf { evp, thread, accepted } k ++ if ev.1.thread = k then [ev.2] else [] := by
  by_cases here : ev.1.thread = k <;> simp [Server.eventsOf, here]

theorem Dispatching.schedule (dispatching : Dispatching kind nThreads s) (c : C) (e : Word)
    (idle : ∀ k, (s.thread k).producer () = .idle) (not_null : e ≠ 0) (canonical : Canonical e)
    (fresh : ∀ k, e ∉ (s.thread k).begun)
    (free : (s.thread (eventSchedule s.evp c eventImm).1.thread).Free e)
    (fields : kind e = eventKind (eventSchedule s.evp c eventImm).1.type) :
    Dispatching kind nThreads
      { evp := (eventSchedule s.evp c eventImm).2
        thread := Function.update s.thread (eventSchedule s.evp c eventImm).1.thread
          (beginEnqueue (s.thread (eventSchedule s.evp c eventImm).1.thread) e)
        accepted := s.accepted ++ [((eventSchedule s.evp c eventImm).1, e)] } := by
  have turn : (eventSchedule s.evp c eventImm).1.thread = assigned nThreads s.accepted.length := by
    rw [eventSchedule_thread, dispatching.evp]
    unfold assigned
    dsimp only
  have counted := eventSchedule_counted s.evp c
  have type : (eventSchedule s.evp c eventImm).1.type = eventImm := rfl
  generalize (eventSchedule s.evp c eventImm).1 = ev at turn free fields type ⊢
  constructor
  case reachable =>
    intro k
    dsimp only
    by_cases same : k = ev.thread
    · subst same
      rw [Function.update_self]
      exact (dispatching.reachable _).step
        (.producer () (.begin e (idle _) not_null canonical (fresh _) free))
    · rw [Function.update_of_ne same]
      exact dispatching.reachable k
  case evp =>
    rw [counted, dispatching.evp, List.length_append, List.length_singleton, Nat.cast_add,
      Nat.cast_one, Int.bmod_add_bmod]
  case turn =>
    intro j ev' found
    rcases lt_or_ge j s.accepted.length with old | new
    · rw [List.getElem?_append_left old] at found
      exact dispatching.turn j ev' found
    · rw [List.getElem?_append_right new, List.getElem?_singleton] at found
      obtain ⟨last, rfl⟩ : j - s.accepted.length = 0 ∧ (ev, e) = ev' := by simpa using found
      obtain rfl : j = s.accepted.length := by omega
      exact turn
  case order =>
    intro k
    dsimp only
    rw [eventsOf_append _ _ s.evp _ s.thread, dispatching.order k]
    by_cases same : k = ev.thread
    · subst same
      rw [if_pos rfl, pushing_idle (idle _)]
      simp [beginEnqueue, pushing]
    · rw [if_neg (Ne.symm same), Function.update_of_ne same, List.append_nil]
  case immediate =>
    intro ev' member
    rcases List.mem_append.mp member with old | new
    · exact dispatching.immediate ev' old
    · rw [List.mem_singleton.mp new, fields, type]
      exact eventKind_immediate
  case distinct =>
    rw [List.map_append, List.map_singleton]
    refine List.nodup_append.mpr ⟨dispatching.distinct, List.nodup_singleton e, ?_⟩
    rintro x member y single rfl
    obtain ⟨ev', member', address⟩ := List.mem_map.mp member
    obtain ⟨k, begun⟩ := dispatching.begun ev' member'
    rw [address, List.mem_singleton.mp single] at begun
    exact fresh k begun
  case begun =>
    intro ev' member
    rcases List.mem_append.mp member with old | new
    · obtain ⟨k, begun⟩ := dispatching.begun ev' old
      refine ⟨k, ?_⟩
      dsimp only
      by_cases same : k = ev.thread
      · subst same
        rw [Function.update_self]
        exact List.mem_cons_of_mem _ begun
      · rw [Function.update_of_ne same]
        exact begun
    · refine ⟨ev.thread, ?_⟩
      dsimp only
      rw [Function.update_self, List.mem_singleton.mp new]
      exact List.mem_cons_self

theorem Dispatching.run (dispatching : Dispatching kind nThreads s) (k : Int)
    {t : EventThread.State Unit} (step : EventThread.Step kind .mainLoop (s.thread k) t)
    (no_begin : t.begun = (s.thread k).begun) :
    Dispatching kind nThreads { s with thread := Function.update s.thread k t } := by
  constructor
  case reachable =>
    intro k'
    dsimp only
    by_cases same : k' = k
    · subst same
      rw [Function.update_self]
      exact (dispatching.reachable k').step step
    · rw [Function.update_of_ne same]
      exact dispatching.reachable k'
  case evp => exact dispatching.evp
  case turn => exact dispatching.turn
  case order =>
    intro k'
    dsimp only
    by_cases same : k' = k
    · subst same
      rw [Function.update_self, pushed_of_step step no_begin]
      exact dispatching.order k'
    · rw [Function.update_of_ne same]
      exact dispatching.order k'
  case immediate => exact dispatching.immediate
  case distinct => exact dispatching.distinct
  case begun =>
    intro ev member
    obtain ⟨k', begun⟩ := dispatching.begun ev member
    refine ⟨k', ?_⟩
    dsimp only
    by_cases same : k' = k
    · subst same
      rw [Function.update_self, no_begin]
      exact begun
    · rw [Function.update_of_ne same]
      exact begun

theorem dispatching_isInvariant (kind : Word → EventKind) (nThreads : Int) :
    (server C kind nThreads).IsInvariant (Dispatching kind nThreads) where
  initial := by
    rintro s ⟨evp, accepted, start⟩
    constructor
    case reachable => exact fun k => TransitionSystem.reachable_of_initial (start k)
    case evp =>
      rw [evp, accepted, eventprocessorInit, List.length_nil, Nat.cast_zero, Int.zero_bmod]
    case turn => simp [accepted]
    case order =>
      intro k
      obtain ⟨next, poll, -, -, here⟩ := start k
      have shared :=
        sameShared_localSchedule kind (emptyState .mainLoop next : EventThread.State Unit) poll
      rw [here, shared.pushed, pushing_congr shared.producer]
      simp [Server.eventsOf, accepted, emptyState, pushing]
    case immediate => simp [accepted]
    case distinct => simp [accepted]
    case begun => simp [accepted]
  step := by
    rintro s s' dispatching
      (⟨c, e, idle, not_null, canonical, fresh, free, fields⟩ | ⟨k, step, no_begin⟩)
    · exact dispatching.schedule c e idle not_null canonical fresh free fields
    · exact dispatching.run k step no_begin

end Invariant

/-- While the counter has not wrapped around, the connections go to the threads in turn, and on each
thread the events made for it are those its handlers have run, in the order of the connections,
then those waiting on its queues, then the one being pushed. -/
theorem connections_dispatched (C : Type) (kind : Word → EventKind) (nThreads : Int)
    (s : Server C) (reachable : (server C kind nThreads).Reachable s)
    (early : s.accepted.length ≤ 2 ^ 31) :
    (∀ (j : Nat) ev, s.accepted[j]? = some ev → ev.1.thread = j % nThreads) ∧
      (s.accepted.map Prod.snd).Nodup ∧
      ∀ k, ∃ nodes : QueueName → List Word,
        (∀ queue, Chain 0 (s.thread k).mem.next ((s.thread k).first queue) (nodes queue)) ∧
        s.eventsOf k = immediate kind (s.thread k).handled ++ immediate kind (inTransit nodes) ++
          pushing (s.thread k) := by
  have dispatching := (dispatching_isInvariant kind nThreads).of_reachable reachable
  refine ⟨fun j ev found => ?_, dispatching.distinct, fun k => ?_⟩
  · obtain ⟨inside, -⟩ := List.getElem?_eq_some_iff.mp found
    rw [dispatching.turn j ev found, assigned_of_lt (inside.trans_le early)]
  · obtain ⟨nodes, linked, accounted⟩ :=
      (delivering_isInvariant kind).of_reachable (dispatching.reachable k)
    have all_immediate : ∀ e ∈ s.eventsOf k, (kind e).Immediate := by
      intro e member
      obtain ⟨ev, inside, rfl⟩ := List.mem_map.mp member
      exact dispatching.immediate ev (List.mem_of_mem_filter inside)
    have kept : ∀ {events : List Word}, (∀ e ∈ events, e ∈ s.eventsOf k) →
        immediate kind events = events := by
      intro events inside
      exact List.filter_eq_self.mpr fun e member =>
        decide_eq_true (all_immediate e (inside e member))
    have order := dispatching.order k
    have pushed_inside : ∀ e ∈ (s.thread k).pushed, e ∈ s.eventsOf k := fun e member => by
      rw [order]
      exact List.mem_append_left _ member
    refine ⟨nodes, linked.chains.chain, ?_⟩
    rw [order, ← immediate_append, ← accounted.order, kept pushed_inside]

/-! ## A run -/

section Alone

variable {kind : Word → EventKind} {nThreads : Int} {s : Server C} {k : Int} {e : Word}

/-- The accept thread goes on in its call, or the event thread in its loop. -/
theorem reachable_run {t : EventThread.State Unit}
    (reachable : (server C kind nThreads).Reachable s)
    (runs : RunsOn kind .mainLoop (s.thread k) t) :
    (server C kind nThreads).Reachable { s with thread := Function.update s.thread k t } := by
  induction runs with
  | refl => simpa using reachable
  | tail _ last induction =>
      have next := induction.step (.run k (by simpa using last.1) (by simpa using last.2))
      simpa using next

/-- A thread after a whole call of `thread_event_enqueue`. -/
def enqueued (t : EventThread.State Unit) (e : Word) : EventThread.State Unit :=
  { (beginEnqueue t e).pushedBy () e with producer := fun _ => .idle }

/-- A call of `event_schedule` that nothing interrupts. -/
theorem reachable_enqueued (reachable : (server C kind nThreads).Reachable s) (c : C)
    (idle : ∀ k, (s.thread k).producer () = .idle) (not_null : e ≠ 0) (canonical : Canonical e)
    (fresh : ∀ k, e ∉ (s.thread k).begun)
    (assigned : (eventSchedule s.evp c eventImm).1.thread = k) (free : (s.thread k).Free e)
    (fields : kind e = eventKind eventImm) (unlocked : (s.thread k).lock = none)
    (awake : (s.thread k).consumer ≠ .asleep) :
    (server C kind nThreads).Reachable
      { evp := (eventSchedule s.evp c eventImm).2
        thread := Function.update s.thread k (enqueued (s.thread k) e)
        accepted := s.accepted ++ [((eventSchedule s.evp c eventImm).1, e)] } := by
  subst assigned
  have begun := reachable.step (.schedule c e idle not_null canonical fresh free fields)
  have pushed := reachable_run begun (k := (eventSchedule s.evp c eventImm).1.thread)
    (runsOn_pushedBy (i := ()) (e := e) (by simp [beginEnqueue]))
  have alone : ∀ (f : Unit → ProducerPc) (pc : ProducerPc),
      Function.update f () pc = fun _ => pc := fun f pc => funext fun _ => rfl
  by_cases empty : alPointer (s.thread (eventSchedule s.evp c eventImm).1.thread).mem.head = 0
  · have signalled := reachable_run pushed (k := (eventSchedule s.evp c eventImm).1.thread)
      (runsOn_signalled (i := ()) (by simp [pushedBy, beginEnqueue, empty])
        (by simpa [pushedBy, beginEnqueue] using unlocked)
        (by simpa [pushedBy, beginEnqueue] using awake))
    simpa [enqueued, alone] using signalled
  · have more : ¬ alPointer (s.thread (eventSchedule s.evp c eventImm).1.thread).mem.head = 0#64 :=
      empty
    simpa [enqueued, pushedBy, beginEnqueue, more, alone] using pushed

end Alone

/-- Of two threads the first has the event of the first connection in its queue and that of the
third is being pushed to it, and the second has that of the second. -/
theorem connections_dispatched_third :
    let kind : Word → EventKind := fun e => if e = 32 then ⟨true, 1, true⟩ else eventKind eventImm
    ∃ s : Server Unit, (server Unit kind 2).Reachable s ∧
      s.eventsOf 0 = [16, 64] ∧ s.eventsOf 1 = [48] ∧ pushing (s.thread 0) = [64] ∧
      (∀ (j : Nat) ev, s.accepted[j]? = some ev → ev.1.thread = j % 2) ∧
      (s.accepted.map Prod.snd).Nodup ∧
      ∀ k, ∃ nodes : QueueName → List Word,
        (∀ queue, Chain 0 (s.thread k).mem.next ((s.thread k).first queue) (nodes queue)) ∧
        s.eventsOf k = immediate kind (s.thread k).handled ++ immediate kind (inTransit nodes) ++
          pushing (s.thread k) := by
  intro kind
  let thread : EventThread.State Unit := emptyState .mainLoop fun _ => 0
  let start : Server Unit :=
    { evp := eventprocessorInit 2, thread := fun _ => thread, accepted := [] }
  have begun : (server Unit kind 2).Reachable start :=
    TransitionSystem.reachable_of_initial
      ⟨rfl, rfl, fun _ => ⟨fun _ => 0, 32, by decide, by decide, rfl⟩⟩
  have canonical₁ : Canonical 16#64 := canonical_of_lt (by decide)
  have canonical₂ : Canonical 48#64 := canonical_of_lt (by decide)
  have canonical₃ : Canonical 64#64 := canonical_of_lt (by decide)
  have nothing (queue : QueueName) : thread.first queue = 0 := by
    cases queue with
    | external => exact alPointer_init _
    | transferred | collect | postponed => rfl
  have free (e : Word) : thread.Free e := by
    refine ⟨fun queue nodes chain => ?_, fun _ _ => by simp [thread, emptyState]⟩
    rw [chain.eq_null_iff.mp (nothing queue)]
    exact List.not_mem_nil
  have free₃ : (enqueued thread 16).Free 64 := by
    refine ⟨fun queue nodes chain => ?_, fun _ _ => by simp [enqueued]⟩
    have head : (enqueued thread 16).first .external = 16 := by
      simp [enqueued, beginEnqueue, pushedBy, State.first, canonical₁]
    cases queue with
    | external =>
        rw [head] at chain
        cases chain with
        | cons _ tail =>
            have last : (enqueued thread 16).mem.next 16 = 0 := nothing .external
            rw [tail.eq_null_iff.mp last]
            decide
    | transferred | collect | postponed =>
        rw [chain.eq_null_iff.mp rfl]
        exact List.not_mem_nil
  have first := reachable_enqueued begun () (k := 0) (e := 16) (fun _ => rfl) (by decide)
    canonical₁ (fun _ => List.not_mem_nil) rfl (free 16) rfl rfl (by decide)
  have everywhere (holds : EventThread.State Unit → Prop) {threads : Int → EventThread.State Unit}
      {k : Int} {t : EventThread.State Unit} (here : holds t) (others : ∀ k, holds (threads k)) :
      ∀ k', holds (Function.update threads k t k') :=
    (Function.forall_update_iff threads fun _ => holds).mpr ⟨here, fun k' _ => others k'⟩
  have second := reachable_enqueued first () (k := 1) (e := 48)
    (everywhere (fun t => t.producer () = .idle) rfl fun _ => rfl) (by decide) canonical₂
    (everywhere (fun t => 48 ∉ t.begun) (by decide) fun _ => List.not_mem_nil) rfl (free 48) rfl rfl
    (by decide)
  have third := second.step (.schedule () 64
    (everywhere (fun t => t.producer () = .idle) rfl
      (everywhere (fun t => t.producer () = .idle) rfl fun _ => rfl)) (by decide) canonical₃
    (everywhere (fun t => 64 ∉ t.begun) (by decide)
      (everywhere (fun t => 64 ∉ t.begun) (by decide) fun _ => List.not_mem_nil)) free₃ rfl)
  exact ⟨_, third, by decide, by decide, rfl,
    connections_dispatched Unit kind 2 _ third (by decide)⟩

end Processor
end OstrichServer
