import OstrichServer.AtomicList.Operations
import OstrichServer.Foundations.LinkedList
import OstrichServer.Foundations.Stacks

/-!
# The local queues of a thread

The three pairs of functions of `thread.c` that keep a queue of events on one link, each against a
stack.  `thread_localq_enqueue` forgets what was on the queue.
-/

namespace OstrichServer
namespace EventThread

open AtomicList LinkedList Stacks

/-- A `localq`, and the link field of every event. -/
structure LocalQueue where
  link : Word
  next : Word → Word

namespace LocalQueue

/-- `e->ln.next = lnk` and `link = e`. -/
def put (q : LocalQueue) (e lnk : Word) : LocalQueue where
  link := e
  next := Function.update q.next e lnk

/-- The first event, which is unlinked, or `NULL`. -/
def take (q : LocalQueue) : Word × LocalQueue :=
  if q.link = 0 then (0, q)
  else (q.link, { link := q.next q.link, next := Function.update q.next q.link 0 })

/-- `collectqueue_enqueue` -/
def collectqueueEnqueue (q : LocalQueue) (e : Word) : LocalQueue := q.put e q.link

/-- `collectqueue_dequeue` -/
def collectqueueDequeue (q : LocalQueue) : Word × LocalQueue := q.take

/-- `localq_enqueue` -/
def localqEnqueue (q : LocalQueue) (e : Word) : LocalQueue := q.put e q.link

/-- `localq_dequeue` -/
def localqDequeue (q : LocalQueue) : Word × LocalQueue := q.take

/-- `thread_localq_enqueue`, in which `postponedqueue.link` is not assigned to `lnk`. -/
def threadLocalqEnqueue (q : LocalQueue) (e : Word) : LocalQueue := q.put e 0

/-- `thread_localq_dequeue` -/
def threadLocalqDequeue (q : LocalQueue) : Word × LocalQueue := q.take

variable {q : LocalQueue} {stack : List Word}

theorem take_of_ne (more : q.link ≠ 0) :
    q.take = (q.link, { link := q.next q.link, next := Function.update q.next q.link 0 }) :=
  if_neg more

/-- The events of a queue, the first one first. -/
def Holds (q : LocalQueue) (stack : List Word) : Prop := Chain 0 q.next q.link stack

theorem Holds.put (holds : q.Holds stack) {e : Word} (not_null : e ≠ 0) (outside : e ∉ stack) :
    (q.put e q.link).Holds (e :: stack) :=
  holds.push not_null outside

/-- `thread_localq_enqueue` leaves the new event alone on the queue. -/
theorem threadLocalqEnqueue_holds (q : LocalQueue) {e : Word} (not_null : e ≠ 0) :
    (q.threadLocalqEnqueue e).Holds [e] := by
  refine .cons not_null ?_
  change Chain 0 _ (Function.update q.next e 0 e) []
  rw [Function.update_self]
  exact .nil

theorem Holds.take_cons {e : Word} (holds : q.Holds (e :: stack)) :
    q.take = (e, { link := q.next e, next := Function.update q.next e 0 }) := by
  have here : q.link = e := (Chain.of_cons holds).1
  have not_null : q.link ≠ 0 := here ▸ holds.ne_null List.mem_cons_self
  rw [take_of_ne not_null, here]

/-- Dequeueing gives the first event, with its link cleared. -/
theorem Holds.take (holds : q.Holds stack) :
    q.take.1 = stack.head?.getD 0 ∧ q.take.2.Holds stack.tail ∧
      (q.take.1 ≠ 0 → q.take.2.next q.take.1 = 0) := by
  unfold LocalQueue.take
  split
  · rename_i empty
    obtain rfl := holds.eq_null_iff.mp empty
    exact ⟨rfl, holds, fun some => (some rfl).elim⟩
  · rename_i more
    obtain ⟨rest, rfl, tail⟩ := holds.exists_cons more
    exact ⟨rfl, tail.update_of_notMem (List.nodup_cons.mp holds.nodup).1 0,
      fun _ => Function.update_self _ _ _⟩

end LocalQueue

/-! ## Histories -/

/-- A function that enqueues and the one that dequeues. -/
inductive QueuePair
  | localq
  | collectqueue
  | threadLocalq

namespace QueuePair

open LocalQueue

def enqueue : QueuePair → LocalQueue → Word → LocalQueue
  | localq => LocalQueue.localqEnqueue
  | collectqueue => LocalQueue.collectqueueEnqueue
  | threadLocalq => LocalQueue.threadLocalqEnqueue

def dequeue : QueuePair → LocalQueue → Word × LocalQueue
  | localq => LocalQueue.localqDequeue
  | collectqueue => LocalQueue.collectqueueDequeue
  | threadLocalq => LocalQueue.threadLocalqDequeue

variable (pair : QueuePair)

/-- What each dequeue of a history returns, with the queue right after it, and the last queue. -/
def history : List (Call Word) → LocalQueue → List (Word × LocalQueue) × LocalQueue
  | [], q => ([], q)
  | .push e :: calls, q => history calls (pair.enqueue q e)
  | .pop :: calls, q =>
      let taken := pair.dequeue q
      let rest := history calls taken.2
      (taken :: rest.1, rest.2)

/-- The pair is a stack in this history from the empty queue. -/
structure ActsAsStack (next : Word → Word) (calls : List (Call Word)) : Prop where
  returned : (pair.history calls ⟨0, next⟩).1.map Prod.fst =
    (popped calls []).map fun e => e.getD 0
  /-- A dequeued event is linked to nothing. -/
  unlinked : ∀ taken ∈ (pair.history calls ⟨0, next⟩).1,
    taken.1 ≠ 0 → taken.2.next taken.1 = 0
  /-- What was not dequeued is still there. -/
  kept : (pair.history calls ⟨0, next⟩).2.Holds (after calls [])
  /-- No event is dequeued twice or lost. -/
  once : (((pair.history calls ⟨0, next⟩).1.map Prod.fst).filter (· ≠ 0) ++ after calls []).Perm
    (pushed calls)

theorem dequeue_eq (q : LocalQueue) : pair.dequeue q = q.take := by
  cases pair with
  | localq | collectqueue | threadLocalq => rfl

variable {pair} {q : LocalQueue} {stack : List Word} {calls : List (Call Word)}

/-- An enqueue that keeps the queue: all but those of `thread_localq_enqueue` on a queue with
events. -/
theorem enqueue_eq (holds : q.Holds stack) (e : Word) (alone : pair = .threadLocalq → stack = []) :
    pair.enqueue q e = q.put e q.link := by
  cases pair with
  | localq | collectqueue => rfl
  | threadLocalq =>
      have empty : q.link = 0 := holds.eq_null_iff.mpr (alone rfl)
      rw [empty]
      rfl

/-- A history of enqueues that keep the queue. -/
theorem history_spec (holds : q.Holds stack) (not_null : 0 ∉ pushed calls)
    (fresh : Fresh calls stack) (alone : pair = .threadLocalq → PushesAlone calls stack) :
    (pair.history calls q).1.map Prod.fst = (popped calls stack).map (fun e => e.getD 0) ∧
      (∀ taken ∈ (pair.history calls q).1, taken.1 ≠ 0 → taken.2.next taken.1 = 0) ∧
      (pair.history calls q).2.Holds (after calls stack) := by
  induction calls generalizing q stack with
  | nil =>
      refine ⟨rfl, fun taken member => ?_, holds⟩
      cases member
  | cons call calls induction =>
      cases call with
      | push e =>
          rw [history, enqueue_eq holds e fun same => (alone same).1]
          rw [pushed, List.mem_cons, not_or] at not_null
          exact induction (holds.put (Ne.symm not_null.1) fresh.1) not_null.2 fresh.2
            fun same => (alone same).2
      | pop =>
          obtain ⟨first, tail, unlinked⟩ := holds.take
          rw [← dequeue_eq pair] at first tail unlinked
          obtain ⟨returned, later, kept⟩ := induction tail not_null fresh alone
          refine ⟨?_, ?_, kept⟩
          · rw [history, List.map_cons, popped, List.map_cons, first, returned]
          · intro taken member
            rcases List.mem_cons.mp member with rfl | rest
            · exact unlinked
            · exact later taken rest

/-- A stack's events, without `NULL`. -/
theorem filter_returned (not_null : 0 ∉ pushed calls) (inside : 0 ∉ stack) :
    ((popped calls stack).map fun e => e.getD 0).filter (· ≠ 0) =
      (popped calls stack).reduceOption := by
  induction calls generalizing stack with
  | nil => rfl
  | cons call calls induction =>
      cases call with
      | push e =>
          rw [pushed, List.mem_cons, not_or] at not_null
          exact induction not_null.2 (List.not_mem_cons_of_ne_of_not_mem not_null.1 inside)
      | pop =>
          cases stack with
          | nil => exact induction not_null inside
          | cons e stack =>
              rw [List.mem_cons, not_or] at inside
              rw [popped, List.map_cons, List.head?_cons, Option.getD_some, List.tail_cons,
                List.filter_cons_of_pos (by simpa using Ne.symm inside.1),
                induction not_null inside.2, List.reduceOption_cons_of_some]

/-- Once `thread_localq_enqueue` has forgotten events, the history shows it: a dequeue gives another
event, or the last queue is too short. -/
theorem history_ne {nodes : List Word} (holds : q.Holds nodes)
    (shorter : nodes.length < stack.length)
    (not_null : 0 ∉ pushed calls) (inside : 0 ∉ stack)
    (returned : (threadLocalq.history calls q).1.map Prod.fst =
      (popped calls stack).map fun e => e.getD 0) :
    ¬ (threadLocalq.history calls q).2.Holds (after calls stack) := by
  induction calls generalizing q stack nodes with
  | nil =>
      intro kept
      have same : stack = nodes := kept.unique holds
      rw [same] at shorter
      exact shorter.ne rfl
  | cons call calls induction =>
      cases call with
      | push e =>
          rw [pushed, List.mem_cons, not_or] at not_null
          have alone := threadLocalqEnqueue_holds q (Ne.symm not_null.1)
          refine induction alone ?_ not_null.2
            (List.not_mem_cons_of_ne_of_not_mem not_null.1 inside) returned
          rw [List.length_singleton, List.length_cons]
          omega
      | pop =>
          obtain ⟨first, tail, -⟩ := holds.take
          rw [history, List.map_cons, popped, List.map_cons, List.cons.injEq] at returned
          obtain ⟨same, returned⟩ := returned
          cases stack with
          | nil => exact (Nat.not_lt_zero _ shorter).elim
          | cons e stack =>
              rw [List.mem_cons, not_or] at inside
              refine induction tail ?_ not_null inside.2 returned
              cases nodes with
              | nil =>
                  rw [dequeue_eq, first] at same
                  exact (inside.1 same).elim
              | cons node nodes =>
                  rw [List.length_cons, List.length_cons] at shorter
                  exact Nat.lt_of_succ_lt_succ shorter

/-- The history shows whether `thread_localq_enqueue` met a queue with events. -/
theorem pushesAlone_of_history (holds : q.Holds stack) (not_null : 0 ∉ pushed calls)
    (fresh : Fresh calls stack)
    (returned : (threadLocalq.history calls q).1.map Prod.fst =
      (popped calls stack).map fun e => e.getD 0)
    (kept : (threadLocalq.history calls q).2.Holds (after calls stack)) :
    PushesAlone calls stack := by
  induction calls generalizing q stack with
  | nil => trivial
  | cons call calls induction =>
      cases call with
      | push e =>
          rw [pushed, List.mem_cons, not_or] at not_null
          have alone := threadLocalqEnqueue_holds q (Ne.symm not_null.1)
          cases stack with
          | nil => exact ⟨rfl, induction alone not_null.2 fresh.2 returned kept⟩
          | cons node stack =>
              have inside : 0 ∉ e :: node :: stack :=
                List.not_mem_cons_of_ne_of_not_mem not_null.1 fun null => holds.ne_null null rfl
              refine (history_ne alone ?_ not_null.2 inside returned kept).elim
              rw [List.length_singleton, List.length_cons, List.length_cons]
              omega
      | pop =>
          obtain ⟨-, tail, -⟩ := holds.take
          rw [history, List.map_cons, popped, List.map_cons, List.cons.injEq] at returned
          exact induction tail not_null fresh returned.2 kept

end QueuePair

open QueuePair

variable {calls : List (Call Word)}

theorem actsAsStack_of_alone {pair : QueuePair} (next : Word → Word) (not_null : 0 ∉ pushed calls)
    (fresh : Fresh calls []) (alone : pair = .threadLocalq → PushesAlone calls []) :
    pair.ActsAsStack next calls := by
  obtain ⟨returned, unlinked, kept⟩ :=
    history_spec (q := ⟨0, next⟩) Chain.nil not_null fresh alone
  refine ⟨returned, unlinked, kept, ?_⟩
  rw [returned, filter_returned not_null List.not_mem_nil]
  have all := popped_append_after calls ([] : List Word)
  rwa [List.append_nil] at all

/-- Two of the pairs are a stack in every history. -/
theorem actsAsStack_of_ne {pair : QueuePair} (other : pair ≠ .threadLocalq) (next : Word → Word)
    (not_null : 0 ∉ pushed calls) (fresh : Fresh calls []) : pair.ActsAsStack next calls :=
  actsAsStack_of_alone next not_null fresh fun same => (other same).elim

/-- The three pairs agree on a stack in exactly those histories in which every event is enqueued
into an empty queue. -/
theorem pairs_agree_iff (next : Word → Word) (not_null : 0 ∉ pushed calls)
    (fresh : Fresh calls []) :
    (∀ pair : QueuePair, pair.ActsAsStack next calls) ↔ PushesAlone calls [] := by
  constructor
  · intro agree
    exact pushesAlone_of_history (q := ⟨0, next⟩) Chain.nil not_null fresh
      (agree .threadLocalq).returned (agree .threadLocalq).kept
  · intro alone pair
    exact actsAsStack_of_alone next not_null fresh fun _ => alone

/-- One event at a time. -/
theorem pairs_agree_one_by_one :
    (0 ∉ pushed [.push (8 : Word), .pop, .push 16, .pop] ∧
        Fresh [.push (8 : Word), .pop, .push 16, .pop] []) ∧
      ((∀ pair : QueuePair, pair.ActsAsStack (fun _ => 0) [.push 8, .pop, .push 16, .pop]) ↔
        PushesAlone [.push (8 : Word), .pop, .push 16, .pop] []) :=
  ⟨⟨by simp [pushed], by simp [Fresh]⟩,
    pairs_agree_iff _ (by simp [pushed]) (by simp [Fresh])⟩

/-- `thread_localq_enqueue` of two events drops the first one. -/
theorem threadLocalq_drops :
    (QueuePair.threadLocalq.history [.push 8, .push 16, .pop, .pop]
      ⟨0, fun _ => 0⟩).1.map Prod.fst =
        [16, 0] ∧
      (popped [.push (8 : Word), .push 16, .pop, .pop] []).map (fun e => e.getD 0) = [16, 8] ∧
      ¬ ∀ pair : QueuePair, pair.ActsAsStack (fun _ => 0) [.push 8, .push 16, .pop, .pop] := by
  refine ⟨rfl, rfl, fun agree => ?_⟩
  have same := (agree .threadLocalq).returned
  revert same
  decide

end EventThread
end OstrichServer
