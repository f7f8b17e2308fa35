import Mathlib.Tactic

/-!
# The timer queue of `queue.c`

`event_priority_enqueue` and `priority_queue_check` on the ten buckets of a thread's
`event_priority_queue`, with the link fields of the events.  The timeouts of the events do not
change while they are queued.  A call ends, follows a `NULL` pointer, or is still running when its
fuel is used up.
-/

namespace OstrichServer
namespace Timers

/-- An `event *`; zero is `NULL`. -/
abbrev Event := BitVec 64

/-- `N_PQ_LIST` -/
abbrev nPqList : Nat := 10

/-- `IDX_TIME(t)`, which is `5 << t`. -/
def idxTime (t : Nat) : Int := 5 * 2 ^ t

/-- `e->timeout - now` in a `time_t`. -/
def timeLeft (timeout now : Int) : Int := (timeout - now).bmod (2 ^ 64)

/-- `event_priority_queue` and the link field of every event. -/
structure PriorityQueue where
  lastCheckIndex : BitVec 32
  lastCheckTime : BitVec 32
  buckets : Fin nPqList → Event
  next : Event → Event

/-- How a call goes. -/
inductive Outcome (α : Type)
  | done (a : α)
  | nullDereference
  | running

/-- `priority_queue_init` -/
def priorityQueueInit (next : Event → Event) : PriorityQueue where
  lastCheckIndex := 0
  lastCheckTime := 0
  buckets := fun _ => 0
  next := next

namespace PriorityQueue

/-- `e->ln.next = link` -/
def setNext (q : PriorityQueue) (e link : Event) : PriorityQueue :=
  { q with next := Function.update q.next e link }

/-- `buckets[i] = e` -/
def setBucket (q : PriorityQueue) (i : Fin nPqList) (e : Event) : PriorityQueue :=
  { q with buckets := Function.update q.buckets i e }

@[simp]
theorem buckets_setNext (q : PriorityQueue) (e link : Event) :
    (q.setNext e link).buckets = q.buckets :=
  rfl

@[simp]
theorem next_setNext (q : PriorityQueue) (e link : Event) :
    (q.setNext e link).next = Function.update q.next e link :=
  rfl

@[simp]
theorem buckets_setBucket (q : PriorityQueue) (i : Fin nPqList) (e : Event) :
    (q.setBucket i e).buckets = Function.update q.buckets i e :=
  rfl

@[simp]
theorem next_setBucket (q : PriorityQueue) (i : Fin nPqList) (e : Event) :
    (q.setBucket i e).next = q.next :=
  rfl

end PriorityQueue

/-- The bucket `event_priority_enqueue` chooses for the time left. -/
def enqueueIndex (t : Int) : Fin nPqList :=
  if t ≤ idxTime 3 then
    if t ≤ idxTime 1 then
      if t ≤ idxTime 0 then 0 else 1
    else
      if t ≤ idxTime 2 then 2 else 3
  else
    if t ≤ idxTime 7 then
      if t ≤ idxTime 5 then
        if t ≤ idxTime 4 then 4 else 5
      else
        if t ≤ idxTime 6 then 6 else 7
    else
      if t ≤ idxTime 8 then 8 else 9

/-- `event_priority_enqueue` -/
def eventPriorityEnqueue (timeout : Event → Int) (e : Event) (now : Int) (q : PriorityQueue) :
    PriorityQueue :=
  let i := enqueueIndex (timeLeft (timeout e) now)
  let head := q.buckets i
  if head ≠ 0 then
    let q := q.setNext e head
    q.setNext (q.buckets i) e
  else
    q.setBucket i e

/-- `check_buckets` -/
def checkBuckets (now : Int) : BitVec 32 := BitVec.ofInt 32 (now.tdiv (idxTime 0))

/-- `todo_buckets`, masked to nine bits. -/
def todoBuckets (now : Int) (q : PriorityQueue) : BitVec 32 :=
  (checkBuckets now ^^^ q.lastCheckIndex) &&& ((1 <<< (nPqList - 1)) - 1)

/-- `while (todo_buckets) { k++; todo_buckets >>= 1; }`, which ends within 32 rounds. -/
def countShifts : Nat → BitVec 32 → Nat
  | 0, _ => 0
  | rounds + 1, todo => if todo = 0 then 0 else countShifts rounds (todo >>> 1) + 1

/-- `for (j = i; j > 0 && tt <= IDX_TIME(j - 1);) j--;` -/
def sinkIndex (tt : Int) : (i : Nat) → i < nPqList → Fin nPqList
  | 0, inside => ⟨0, inside⟩
  | i + 1, inside =>
      if tt ≤ idxTime i then sinkIndex tt i (Nat.lt_of_succ_lt inside) else ⟨i + 1, inside⟩

/-- The bucket for which the check of bucket `i` means an event. -/
def destination (timeout : Event → Int) (now : Int) (i : Fin nPqList) (e : Event) : Fin nPqList :=
  sinkIndex (timeLeft (timeout e) now) i i.isLt

/-- `while (e != NULL)` over what bucket `i` held. -/
def checkBucket (timeout : Event → Int) (now : Int) (i : Fin nPqList) :
    Nat → Event → PriorityQueue → Outcome PriorityQueue
  | 0, _, _ => .running
  | fuel + 1, e, q =>
      if e = 0 then .done q
      else
        let j := destination timeout now i e
        let head := q.buckets j
        if head ≠ 0 then
          let q := q.setNext e head
          if q.buckets i = 0 then .nullDereference
          else
            let q := q.setNext (q.buckets i) e
            checkBucket timeout now i fuel (q.next e) q
        else
          let q := q.setBucket j e
          checkBucket timeout now i fuel (q.next e) q

/-- The loop of `priority_queue_check` over some buckets. -/
def checkAll (timeout : Event → Int) (now : Int) (fuel : Nat) :
    List (Fin nPqList) → PriorityQueue → Outcome PriorityQueue
  | [], q => .done q
  | i :: rest, q =>
      match checkBucket timeout now i fuel (q.buckets i) (q.setBucket i 0) with
      | .done q => checkAll timeout now fuel rest q
      | .nullDereference => .nullDereference
      | .running => .running

/-- `for (i = 1; i <= k; i++)` -/
def bucketsFromOne (k : Nat) : List (Fin nPqList) :=
  (List.finRange nPqList).filter fun i => 1 ≤ i.val ∧ i.val ≤ k

/-- The buckets `priority_queue_check` goes through. -/
def checkedBuckets (now : Int) (q : PriorityQueue) : List (Fin nPqList) :=
  bucketsFromOne (countShifts 32 (todoBuckets now q))

/-- `priority_queue_check` -/
def priorityQueueCheck (timeout : Event → Int) (now : Int) (fuel : Nat) (q : PriorityQueue) :
    Outcome PriorityQueue :=
  checkAll timeout now fuel (checkedBuckets now q)
    { q with lastCheckTime := BitVec.ofInt 32 now, lastCheckIndex := checkBuckets now }

/-! ## The indexes -/

/-- An event never moves to a higher bucket. -/
theorem sinkIndex_le (tt : Int) (i : Nat) (inside : i < nPqList) :
    (sinkIndex tt i inside).val ≤ i := by
  induction i with
  | zero => exact le_rfl
  | succ i induction =>
      unfold sinkIndex
      split
      · exact (induction _).trans (Nat.le_succ i)
      · exact le_rfl

theorem destination_le (timeout : Event → Int) (now : Int) (i : Fin nPqList) (e : Event) :
    destination timeout now i e ≤ i :=
  sinkIndex_le _ _ _

theorem countShifts_le {rounds n : Nat} {todo : BitVec 32} (small : todo.toNat < 2 ^ n) :
    countShifts rounds todo ≤ n := by
  induction rounds generalizing n todo with
  | zero => exact Nat.zero_le n
  | succ rounds induction =>
      unfold countShifts
      split
      · exact Nat.zero_le n
      · rename_i nonzero
        have positive : 0 < todo.toNat := by
          rw [Nat.pos_iff_ne_zero]
          exact fun zero => nonzero (BitVec.eq_of_toNat_eq zero)
        obtain ⟨n, rfl⟩ : ∃ m, n = m + 1 := ⟨n - 1, by
          rcases n with _ | n
          · omega
          · rfl⟩
        have half : (todo >>> 1).toNat < 2 ^ n := by
          rw [BitVec.toNat_ushiftRight, Nat.shiftRight_eq_div_pow]
          omega
        exact Nat.succ_le_succ (induction half)

/-- The loop over the buckets stays inside the array. -/
theorem countShifts_todoBuckets_lt (now : Int) (q : PriorityQueue) :
    countShifts 32 (todoBuckets now q) < nPqList := by
  refine Nat.lt_succ_of_le (countShifts_le ?_)
  rw [todoBuckets, BitVec.toNat_and]
  exact Nat.and_lt_two_pow _ (by decide)

/-- The buckets are checked in ascending order. -/
theorem bucketsFromOne_sorted (k : Nat) : (bucketsFromOne k).Pairwise (· < ·) :=
  (List.pairwise_lt_finRange nPqList).filter _

end Timers
end OstrichServer
