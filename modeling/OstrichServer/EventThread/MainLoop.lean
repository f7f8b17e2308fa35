import OstrichServer.EventThread.ExternalQueue
import OstrichServer.Foundations.Loop
import OstrichServer.Timers.PriorityQueue

/-!
# An iteration of the event loop

`thread_main_event_loop` of one thread between two readings of the clock, with what the external
queue hands over as a batch of events.  The links of all events are those of the timer queue.  What
a handler does to the queues is a parameter.
-/

namespace OstrichServer
namespace EventThread

open AtomicList LinkedList Loop Timers

/-- The queues of a thread, and the events given to `process_event`, in order. -/
structure LoopState where
  /-- `collectqueue.link` -/
  collect : Word
  /-- `postponedqueue.link` -/
  postponed : Word
  timers : PriorityQueue
  handled : List Word

namespace LoopState

def collectqueue (s : LoopState) : LocalQueue := { link := s.collect, next := s.timers.next }

def postponedqueue (s : LoopState) : LocalQueue := { link := s.postponed, next := s.timers.next }

def setCollectqueue (s : LoopState) (q : LocalQueue) : LoopState :=
  { s with collect := q.link, timers := { s.timers with next := q.next } }

def setPostponedqueue (s : LoopState) (q : LocalQueue) : LoopState :=
  { s with postponed := q.link, timers := { s.timers with next := q.next } }

/-- `e->ln.next = NULL` -/
def unlink (s : LoopState) (e : Word) : LoopState := { s with timers := s.timers.setNext e 0 }

end LoopState

open LocalQueue

/-- What the handler of an event does to the queues of its thread. -/
abbrev Handler : Type := Word → LoopState → LoopState

variable (kind : Word → EventKind) (handler : Handler)

/-- `thread_event_process` -/
def threadEventProcess (e : Word) (s : LoopState) : LoopState :=
  let s := handler e { s with handled := s.handled ++ [e] }
  if (kind e).redo then s.setCollectqueue (s.collectqueue.collectqueueEnqueue e) else s

/-- A round of `while (e = collectqueue.dequeue())`. -/
def drainRound (msec : Int) (s : LoopState) : Round LoopState LoopState :=
  let (e, q) := s.collectqueue.collectqueueDequeue
  if e = 0 then .stop s
  else
    let s := s.setCollectqueue q
    if (kind e).idle then .next (s.setPostponedqueue (s.postponedqueue.localqEnqueue e))
    else if 0 < (kind e).timeout then
      .next { s with
        timers := eventPriorityEnqueue (fun e => (kind e).timeout) e msec s.timers }
    else .next (threadEventProcess kind handler e s)

/-- What `queue->dequeueall()` does to the collect queue with an event it got. -/
def collectEvent (s : LoopState) (e : Word) : LoopState :=
  let s := s.unlink e
  s.setCollectqueue (s.collectqueue.collectqueueEnqueue e)

/-- `queue->dequeueall()`, which gets these events in this order. -/
def dequeueall (batch : List Word) (s : LoopState) : LoopState := batch.foldl collectEvent s

/-- A round of `while (localevent = postponedqueue.dequeue())`. -/
def postponedRound (s : LoopState) : Round LoopState LoopState :=
  let (localevent, q) := s.postponedqueue.localqDequeue
  if localevent = 0 then .stop s
  else .next
    (threadEventProcess kind handler localevent ((s.setPostponedqueue q).unlink localevent))

/-- The iteration up to `priority_queue_check`; the batch is empty if the external queue is. -/
def localPart (msec : Int) (batch : List Word) (fuel : Nat) (s : LoopState) : Option LoopState := do
  let s ← run (drainRound kind handler msec) fuel s
  run (postponedRound kind handler) fuel (dequeueall batch s)

/-- How the part of an iteration that deals with timers goes, and what it led to. -/
inductive TimersEnd
  | completed (s : LoopState)
  /-- It has dereferenced `NULL`. -/
  | crashed (s : LoopState)
  /-- It is not at its end yet. -/
  | running (s : LoopState)

def TimersEnd.state : TimersEnd → LoopState
  | completed s => s
  | crashed s => s
  | running s => s

/-- `while (e)` of `priority_queue_process_ready`. -/
def processReadyLoop : Nat → Word → LoopState → TimersEnd
  | 0, _, s => .running s
  | fuel + 1, e, s =>
      if e = 0 then .completed s
      else
        let e := s.timers.next e
        if e = 0 then .crashed s
        else processReadyLoop fuel e (threadEventProcess kind handler e s)

/-- The bucket of the events that are ready. -/
abbrev readyBucket : Fin nPqList := ⟨0, Nat.succ_pos 9⟩

/-- `priority_queue_process_ready` -/
def priorityQueueProcessReady (fuel : Nat) (s : LoopState) : TimersEnd :=
  processReadyLoop kind handler fuel (s.timers.buckets readyBucket) s

/-- The rest of the iteration. -/
def timersPart (msec : Int) (fuel : Nat) (s : LoopState) : TimersEnd :=
  match priorityQueueCheck (fun e => (kind e).timeout) msec fuel s.timers with
  | .done timers => priorityQueueProcessReady kind handler fuel { s with timers }
  | .nullDereference => .crashed s
  | .running => .running s

/-- `thread_init`, which schedules the poll event. -/
def threadInit (poll : Word) (next : Word → Word) : LoopState :=
  let s : LoopState :=
    { collect := 0, postponed := 0, timers := priorityQueueInit next, handled := [] }
  -- `local_schedule`
  if 0 < (kind poll).timeout then s
  else s.setPostponedqueue (s.postponedqueue.localqEnqueue poll)

/-! ## Where the events are -/

/-- The local queues hold these events, each once, and the timer queue leads to others only. -/
structure Queued (s : LoopState) (collected postponed : List Word) (timed : Set Word) : Prop where
  collects : s.collectqueue.Holds collected
  postpones : s.postponedqueue.Holds postponed
  apart : ∀ e ∈ collected, e ∉ postponed
  buckets : ∀ i, s.timers.buckets i ≠ 0 → s.timers.buckets i ∈ timed
  links : ∀ e ∈ timed, s.timers.next e ≠ 0 → s.timers.next e ∈ timed
  not_timed : ∀ e ∈ timed, e ∉ collected ∧ e ∉ postponed

/-- Handlers that leave the queues alone: afterwards the local queues hold the same events, and the
timer queue leads to no others. -/
structure LeavesQueues (handler : Handler) : Prop where
  queued : ∀ {e s collected postponed timed}, Queued s collected postponed timed →
    Queued (handler e s) collected postponed timed
  handled : ∀ e s, (handler e s).handled = s.handled

theorem LeavesQueues.of_eq {handler : Handler} (same : ∀ e s, handler e s = s) :
    LeavesQueues handler where
  queued queued := (same _ _).symm ▸ queued
  handled e s := by rw [same]

/-- An event that `thread_main_event_loop` processes as soon as it finds it in the collect queue. -/
def EventKind.Now (k : EventKind) : Prop := k.idle = false ∧ ¬ 0 < k.timeout

instance : DecidablePred EventKind.Now := fun _ => inferInstanceAs (Decidable (_ ∧ _))

/-- An event that is put back into the collect queue while this is drained. -/
def EventKind.Again (k : EventKind) : Prop := k.Now ∧ k.redo = true

instance : DecidablePred EventKind.Again := fun _ => inferInstanceAs (Decidable (_ ∧ _))

/-- An event that waits for its time. -/
def EventKind.Timed (k : EventKind) : Prop := k.idle = false ∧ 0 < k.timeout

instance : DecidablePred EventKind.Timed := fun _ => inferInstanceAs (Decidable (_ ∧ _))

/-- An event on none of the queues. -/
structure Unqueued (e : Word) (collected postponed : List Word) (timed : Set Word) : Prop where
  not_null : e ≠ 0
  not_collected : e ∉ collected
  not_postponed : e ∉ postponed
  not_timed : e ∉ timed

namespace Queued

variable {s : LoopState} {e : Word} {collected postponed : List Word} {timed : Set Word}

/-- Links of the timer queue do not change when another event is linked. -/
theorem links_update (queued : Queued s collected postponed timed) (outside : e ∉ timed)
    (link : Word) (other : Word) (member : other ∈ timed) :
    Function.update s.timers.next e link other ≠ 0 →
      Function.update s.timers.next e link other ∈ timed := by
  have distinct : other ≠ e := fun same => outside (same ▸ member)
  rw [Function.update_of_ne distinct]
  exact queued.links other member

/-- The link of an event on no queue is written. -/
theorem write (queued : Queued s collected postponed timed)
    (unqueued : Unqueued e collected postponed timed) (link : Word) :
    Queued { s with timers := s.timers.setNext e link } collected postponed timed where
  collects := Chain.update_of_notMem queued.collects unqueued.not_collected link
  postpones := Chain.update_of_notMem queued.postpones unqueued.not_postponed link
  apart := queued.apart
  buckets := queued.buckets
  links := queued.links_update unqueued.not_timed link
  not_timed := queued.not_timed

/-! ### Dequeueing -/

theorem first_collected (queued : Queued s (e :: collected) postponed timed) :
    Unqueued e collected postponed timed where
  not_null := Chain.ne_null queued.collects List.mem_cons_self
  not_collected := (List.nodup_cons.mp (Chain.nodup queued.collects)).1
  not_postponed := queued.apart e List.mem_cons_self
  not_timed member := (queued.not_timed e member).1 List.mem_cons_self

theorem first_postponed (queued : Queued s collected (e :: postponed) timed) :
    Unqueued e collected postponed timed where
  not_null := Chain.ne_null queued.postpones List.mem_cons_self
  not_collected member := queued.apart e member List.mem_cons_self
  not_postponed := (List.nodup_cons.mp (Chain.nodup queued.postpones)).1
  not_timed member := (queued.not_timed e member).2 List.mem_cons_self

/-- The first event leaves the collect queue. -/
theorem leaveCollect (queued : Queued s (e :: collected) postponed timed) :
    Queued (s.setCollectqueue s.collectqueue.take.2) collected postponed timed where
  collects := (queued.collects.take).2.1
  postpones := by
    rw [queued.collects.take_cons]
    exact Chain.update_of_notMem queued.postpones queued.first_collected.not_postponed 0
  apart other member := queued.apart other (List.mem_cons_of_mem e member)
  buckets := queued.buckets
  links := by
    rw [queued.collects.take_cons]
    exact queued.links_update queued.first_collected.not_timed 0
  not_timed other member :=
    (queued.not_timed other member).imp_left fun outside => mt (List.mem_cons_of_mem e) outside

/-- The first event leaves the postponed queue. -/
theorem leavePostponed (queued : Queued s collected (e :: postponed) timed) :
    Queued (s.setPostponedqueue s.postponedqueue.take.2) collected postponed timed where
  collects := by
    rw [queued.postpones.take_cons]
    exact Chain.update_of_notMem queued.collects queued.first_postponed.not_collected 0
  postpones := (queued.postpones.take).2.1
  apart other member later := queued.apart other member (List.mem_cons_of_mem e later)
  buckets := queued.buckets
  links := by
    rw [queued.postpones.take_cons]
    exact queued.links_update queued.first_postponed.not_timed 0
  not_timed other member :=
    (queued.not_timed other member).imp_right fun outside => mt (List.mem_cons_of_mem e) outside

/-! ### Enqueueing -/

theorem enterCollect (queued : Queued s collected postponed timed)
    (unqueued : Unqueued e collected postponed timed) :
    Queued (s.setCollectqueue (s.collectqueue.collectqueueEnqueue e)) (e :: collected) postponed
      timed where
  collects := queued.collects.put unqueued.not_null unqueued.not_collected
  postpones := Chain.update_of_notMem queued.postpones unqueued.not_postponed _
  apart other member := by
    rcases List.mem_cons.mp member with rfl | later
    · exact unqueued.not_postponed
    · exact queued.apart other later
  buckets := queued.buckets
  links := queued.links_update unqueued.not_timed _
  not_timed other member := by
    obtain ⟨outside, away⟩ := queued.not_timed other member
    have distinct : other ≠ e := fun same => unqueued.not_timed (same ▸ member)
    exact ⟨List.not_mem_cons_of_ne_of_not_mem distinct outside, away⟩

theorem enterPostponed (queued : Queued s collected postponed timed)
    (unqueued : Unqueued e collected postponed timed) :
    Queued (s.setPostponedqueue (s.postponedqueue.localqEnqueue e)) collected (e :: postponed)
      timed where
  collects := Chain.update_of_notMem queued.collects unqueued.not_collected _
  postpones := queued.postpones.put unqueued.not_null unqueued.not_postponed
  apart other member := by
    have distinct : other ≠ e := fun same => unqueued.not_collected (same ▸ member)
    exact List.not_mem_cons_of_ne_of_not_mem distinct (queued.apart other member)
  buckets := queued.buckets
  links := queued.links_update unqueued.not_timed _
  not_timed other member := by
    obtain ⟨outside, away⟩ := queued.not_timed other member
    have distinct : other ≠ e := fun same => unqueued.not_timed (same ▸ member)
    exact ⟨outside, List.not_mem_cons_of_ne_of_not_mem distinct away⟩

/-- The timer queue may lead to one more event. -/
theorem moreTimed (queued : Queued s collected postponed timed)
    (unqueued : Unqueued e collected postponed timed)
    (linked : s.timers.next e ≠ 0 → s.timers.next e ∈ insert e timed) :
    Queued s collected postponed (insert e timed) where
  collects := queued.collects
  postpones := queued.postpones
  apart := queued.apart
  buckets i some := Set.mem_insert_of_mem e (queued.buckets i some)
  links other member some := by
    rcases Set.mem_insert_iff.mp member with rfl | old
    · exact linked some
    · exact Set.mem_insert_of_mem e (queued.links other old some)
  not_timed other member := by
    rcases Set.mem_insert_iff.mp member with rfl | old
    · exact ⟨unqueued.not_collected, unqueued.not_postponed⟩
    · exact queued.not_timed other old

/-- A link of the timer queue is changed within it. -/
theorem writeTimed (queued : Queued s collected postponed timed) (inside : e ∈ timed) {link : Word}
    (within : link ∈ timed) :
    Queued { s with timers := s.timers.setNext e link } collected postponed timed where
  collects := Chain.update_of_notMem queued.collects (queued.not_timed e inside).1 link
  postpones := Chain.update_of_notMem queued.postpones (queued.not_timed e inside).2 link
  apart := queued.apart
  buckets := queued.buckets
  links other member some := by
    change Function.update s.timers.next e link other ∈ timed
    rw [Function.update_apply]
    split
    · exact within
    · rename_i distinct
      change Function.update s.timers.next e link other ≠ 0 at some
      rw [Function.update_of_ne distinct] at some
      exact queued.links other member some
  not_timed := queued.not_timed

/-- A bucket of the timer queue gets an event it leads to, or none. -/
theorem writeBucket (queued : Queued s collected postponed timed) (inside : e ≠ 0 → e ∈ timed)
    (i : Fin nPqList) :
    Queued { s with timers := s.timers.setBucket i e } collected postponed timed where
  collects := queued.collects
  postpones := queued.postpones
  apart := queued.apart
  buckets j some := by
    change Function.update s.timers.buckets i e j ∈ timed
    change Function.update s.timers.buckets i e j ≠ 0 at some
    rw [Function.update_apply] at some ⊢
    split at some
    · rename_i here
      rw [if_pos here]
      exact inside some
    · rename_i other
      rw [if_neg other]
      exact queued.buckets j some
  links := queued.links
  not_timed := queued.not_timed

/-- An event is put into the timer queue. -/
theorem enterTimers (queued : Queued s collected postponed timed)
    (unqueued : Unqueued e collected postponed timed) (unlinked : s.timers.next e = 0)
    (timeout : Word → Int) (msec : Int) :
    Queued { s with timers := eventPriorityEnqueue timeout e msec s.timers } collected postponed
      (insert e timed) := by
  unfold eventPriorityEnqueue
  generalize enqueueIndex (timeLeft (timeout e) msec) = i
  have here : e ∈ insert e timed := Set.mem_insert e timed
  simp only
  split
  · rename_i occupied
    have head : s.timers.buckets i ∈ insert e timed :=
      Set.mem_insert_of_mem e (queued.buckets i occupied)
    have linked := (queued.write unqueued (s.timers.buckets i)).moreTimed unqueued (by
      change Function.update s.timers.next e (s.timers.buckets i) e ≠ 0 →
        Function.update s.timers.next e (s.timers.buckets i) e ∈ insert e timed
      rw [Function.update_self]
      exact fun _ => head)
    exact linked.writeTimed head here
  · have more := queued.moreTimed unqueued (fun some => (some unlinked).elim)
    exact more.writeBucket (fun _ => here) i

end Queued

end EventThread
end OstrichServer
