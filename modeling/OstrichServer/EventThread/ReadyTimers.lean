import OstrichServer.EventThread.LocalLoops

/-!
# The timers of an iteration

`priority_queue_process_ready` goes on to the next event before it processes one, so it passes over
the first event of the bucket and comes to `NULL`, and it leaves the bucket as it is.  The local
queues are not touched by timers.
-/

namespace OstrichServer
namespace EventThread

open AtomicList LinkedList Loop Timers LocalQueue

variable {kind : Word → EventKind} {handler : Handler} {s : LoopState} {e : Word}

/-! ## What is ready -/

/-- Every event of bucket 0 is given to `process_event` once and nothing else is, and the bucket is
empty then. -/
def FiresOnce (kind : Word → EventKind) (handler : Handler) (s : LoopState) (nodes : List Word) :
    Prop :=
  ∃ fuel s' order, priorityQueueProcessReady kind handler fuel s = .completed s' ∧
    order.Perm nodes ∧ s'.handled = s.handled ++ order ∧ s'.timers.buckets readyBucket = 0

theorem threadEventProcess_buckets
    (leaves : ∀ e s, (handler e s).timers.buckets = s.timers.buckets) (e : Word) (s : LoopState) :
    (threadEventProcess kind handler e s).timers.buckets = s.timers.buckets := by
  unfold threadEventProcess
  simp only
  split
  · exact leaves e _
  · exact leaves e _

/-- `priority_queue_process_ready` writes no bucket. -/
theorem processReadyLoop_buckets (kind : Word → EventKind)
    (leaves : ∀ e s, (handler e s).timers.buckets = s.timers.buckets) (fuel : Nat) (e : Word)
    (s : LoopState) :
    (processReadyLoop kind handler fuel e s).state.timers.buckets = s.timers.buckets := by
  induction fuel generalizing e s with
  | zero => rfl
  | succ fuel induction =>
      rw [processReadyLoop]
      split
      · rfl
      · simp only
        split
        · rfl
        · rw [induction, threadEventProcess_buckets leaves]

/-- The ready events fire once exactly if there are none. -/
theorem firesOnce_iff (leaves : ∀ e s, (handler e s).timers.buckets = s.timers.buckets)
    {nodes : List Word} (bucket : Chain 0 s.timers.next (s.timers.buckets readyBucket) nodes) :
    FiresOnce kind handler s nodes ↔ nodes = [] := by
  rw [← bucket.eq_null_iff]
  constructor
  · rintro ⟨fuel, s', order, completed, -, -, cleared⟩
    have kept := processReadyLoop_buckets kind leaves fuel (s.timers.buckets readyBucket) s
    rw [priorityQueueProcessReady] at completed
    rw [completed] at kept
    rw [← kept]
    exact cleared
  · intro empty
    refine ⟨1, s, [], ?_, ?_, (List.append_nil _).symm, empty⟩
    · rw [priorityQueueProcessReady, processReadyLoop, if_pos empty]
    · rw [bucket.eq_null_iff.mp empty]

theorem processReadyLoop_crashes (leaves : ∀ e s, handler e s = s) {nodes : List Word}
    (once : ∀ x ∈ nodes, (kind x).redo = false) (first : e ≠ 0)
    (tail : Chain 0 s.timers.next (s.timers.next e) nodes) :
    ∃ s', processReadyLoop kind handler (nodes.length + 1) e s = .crashed s' ∧
      s'.handled = s.handled ++ nodes := by
  induction nodes generalizing e s with
  | nil =>
      have last : s.timers.next e = 0 := tail.eq_null_iff.mpr rfl
      refine ⟨s, ?_, (List.append_nil _).symm⟩
      rw [processReadyLoop, if_neg first]
      exact if_pos last
  | cons node nodes induction =>
      obtain ⟨here, rest⟩ := tail.of_cons
      have second : node ≠ 0 := tail.ne_null List.mem_cons_self
      have processed : threadEventProcess kind handler node s =
          { s with handled := s.handled ++ [node] } := by
        unfold threadEventProcess
        simp only [leaves node, once node List.mem_cons_self, Bool.false_eq_true, if_false]
      obtain ⟨s', crashes, handled⟩ := induction (s := { s with handled := s.handled ++ [node] })
        (fun x later => once x (List.mem_cons_of_mem node later)) second rest
      refine ⟨s', ?_, ?_⟩
      · rw [processReadyLoop, if_neg first]
        simp only [here, if_neg second, processed]
        exact crashes
      · rw [handled, List.append_assoc, List.singleton_append]

/-- What happens with events that are not put back: all but the first are processed, then `NULL`. -/
theorem processReady_crashes (leaves : ∀ e s, handler e s = s) {first : Word} {nodes : List Word}
    (bucket : Chain 0 s.timers.next (s.timers.buckets readyBucket) (first :: nodes))
    (once : ∀ x ∈ nodes, (kind x).redo = false) :
    ∃ fuel s', priorityQueueProcessReady kind handler fuel s = .crashed s' ∧
      s'.handled = s.handled ++ nodes := by
  obtain ⟨here, tail⟩ := bucket.of_cons
  rw [← here] at tail
  have some : s.timers.buckets readyBucket ≠ 0 := here ▸ bucket.ne_null List.mem_cons_self
  exact ⟨_, processReadyLoop_crashes leaves once some tail⟩

/-- A state with one event in bucket 0. -/
def oneReady : LoopState where
  collect := 0
  postponed := 0
  timers := (priorityQueueInit fun _ => 0).setBucket readyBucket 8
  handled := []

theorem chain_oneReady : Chain 0 oneReady.timers.next (oneReady.timers.buckets readyBucket) [8] :=
  .cons (by decide) .nil

theorem oneReady_firesOnce_iff :
    FiresOnce (fun _ => ⟨false, 5, false⟩) (fun _ s => s) oneReady [8] ↔ [(8 : Word)] = [] :=
  firesOnce_iff (fun _ _ => rfl) chain_oneReady

/-- A single ready event is passed over: `process_event(NULL)` is called at once. -/
theorem oneReady_crashes :
    priorityQueueProcessReady (fun _ => ⟨false, 5, false⟩) (fun _ s => s) 1 oneReady =
        .crashed oneReady ∧
      ¬ FiresOnce (fun _ => ⟨false, 5, false⟩) (fun _ s => s) oneReady [8] := by
  refine ⟨rfl, ?_⟩
  rintro ⟨fuel, s', order, completed, -, -, cleared⟩
  have kept := processReadyLoop_buckets (fun _ => ⟨false, 5, false⟩) (fun _ _ => rfl) fuel
    (oneReady.timers.buckets readyBucket) oneReady
  rw [priorityQueueProcessReady] at completed
  rw [completed] at kept
  change s'.timers.buckets = oneReady.timers.buckets at kept
  rw [kept] at cleared
  revert cleared
  decide

/-! ## What timers leave alone -/

variable {collected postponed : List Word} {timed : Set Word}

/-- Only events of the timer queue have been processed meanwhile. -/
def Fired (timed : Set Word) (s s' : LoopState) : Prop :=
  ∃ fired, s'.handled = s.handled ++ fired ∧ ∀ x ∈ fired, x ∈ timed

theorem Fired.refl (timed : Set Word) (s : LoopState) : Fired timed s s :=
  ⟨[], (List.append_nil _).symm, fun x none => by cases none⟩

theorem checkBucket_queued {timeout : Word → Int} {now : Int} {i : Fin nPqList} {fuel : Nat}
    {q q' : PriorityQueue} (queued : Queued { s with timers := q } collected postponed timed)
    (inside : e ≠ 0 → e ∈ timed) (ends : checkBucket timeout now i fuel e q = .done q') :
    Queued { s with timers := q' } collected postponed timed := by
  induction fuel generalizing e q with
  | zero => cases ends
  | succ fuel induction =>
      rw [checkBucket] at ends
      split at ends
      · cases ends
        exact queued
      · rename_i some
        have here := inside some
        simp only at ends
        split at ends
        · rename_i occupied
          have linked := queued.writeTimed here (queued.buckets _ occupied)
          split at ends
          · cases ends
          · rename_i more
            have back := linked.writeTimed (linked.buckets i more) here
            exact induction back (back.links e here) ends
        · have put := queued.writeBucket (fun _ => here) (destination timeout now i e)
          exact induction put (put.links e here) ends

theorem checkAll_queued {timeout : Word → Int} {now : Int} {fuel : Nat}
    {checked : List (Fin nPqList)} {q q' : PriorityQueue}
    (queued : Queued { s with timers := q } collected postponed timed)
    (ends : checkAll timeout now fuel checked q = .done q') :
    Queued { s with timers := q' } collected postponed timed := by
  induction checked generalizing q with
  | nil =>
      cases ends
      exact queued
  | cons i rest induction =>
      rw [checkAll] at ends
      split at ends
      · rename_i q₁ checks
        have emptied : Queued { s with timers := q.setBucket i 0 } collected postponed timed :=
          queued.writeBucket (fun some => (some rfl).elim) i
        exact induction (checkBucket_queued emptied (queued.buckets i) checks) ends
      · cases ends
      · cases ends

/-- Events that are not put back are processed with no effect on the queues. -/
theorem processReadyLoop_queued (leaves : LeavesQueues handler)
    (queued : Queued s collected postponed timed) (once : ∀ x ∈ timed, (kind x).redo = false)
    (fuel : Nat) (inside : e ≠ 0 → e ∈ timed) :
    Queued (processReadyLoop kind handler fuel e s).state collected postponed timed ∧
      Fired timed s (processReadyLoop kind handler fuel e s).state := by
  induction fuel generalizing e s with
  | zero => exact ⟨queued, Fired.refl timed s⟩
  | succ fuel induction =>
      rw [processReadyLoop]
      split
      · exact ⟨queued, Fired.refl timed s⟩
      · rename_i some
        simp only
        split
        · exact ⟨queued, Fired.refl timed s⟩
        · rename_i more
          have next := queued.links e (inside some) more
          obtain ⟨processed, noted⟩ := queued.processOnce leaves (once _ next)
          obtain ⟨kept, fired, handled, all⟩ := induction processed fun _ => next
          refine ⟨kept, s.timers.next e :: fired, ?_, List.forall_mem_cons.mpr ⟨next, all⟩⟩
          rw [handled, noted, List.append_assoc, List.singleton_append]

/-- The timers of an iteration, however far it gets, leave the local queues as they are. -/
theorem timersPart_queued (leaves : LeavesQueues handler)
    (queued : Queued s collected postponed timed) (once : ∀ x ∈ timed, (kind x).redo = false)
    (msec : Int) (fuel : Nat) :
    Queued (timersPart kind handler msec fuel s).state collected postponed timed ∧
      Fired timed s (timersPart kind handler msec fuel s).state := by
  unfold timersPart
  split
  · rename_i timers checks
    have noted : Queued { s with
        timers := { s.timers with
          lastCheckTime := BitVec.ofInt 32 msec, lastCheckIndex := checkBuckets msec } }
        collected postponed timed :=
      ⟨queued.collects, queued.postpones, queued.apart, queued.buckets, queued.links,
        queued.not_timed⟩
    have checked := checkAll_queued (s := s) noted checks
    exact processReadyLoop_queued leaves checked once fuel (checked.buckets readyBucket)
  · exact ⟨queued, Fired.refl timed s⟩
  · exact ⟨queued, Fired.refl timed s⟩

end EventThread
end OstrichServer
