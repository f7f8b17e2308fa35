import OstrichServer.AtomicList.Operations
import OstrichServer.Foundations.LinkedList
import OstrichServer.Foundations.TransitionSystem

/-!
# Threads that push and remove

Any number of threads call `atomic_list_push`, `atomic_list_pop` and `atomic_list_popall` on one
list, and their accesses to the shared memory interleave.  A node that is off the list belongs to
whoever removed it, who may write its link and push it again.
-/

namespace OstrichServer
namespace AtomicList

open LinkedList

/-- What a thread is doing. -/
inductive ThreadPc
  | idle
  | push (e : Word) (pc : PushPc)
  | pop (pc : PopPc)
  | popall (pc : PopallPc)
  deriving DecidableEq

/-- What happened to a node. -/
inductive Record
  | pushed
  | removed
  deriving DecidableEq

/-- The shared memory, the threads, and the history of the nodes. -/
structure Machine (ι : Type) where
  mem : Memory
  thread : ι → ThreadPc
  /-- The pushes and removals of each node that took effect, the latest first. -/
  records : Word → List Record
  /-- How many calls of `atomic_list_pop` and `atomic_list_popall` took effect. -/
  removals : Nat
  /-- What `removals` was when the thread last read the head in `atomic_list_pop`. -/
  loaded : ι → Nat

/-- The node is in the hands of a call: it is being pushed, or was removed and not yet returned. -/
def ThreadPc.Holds (e : Word) : ThreadPc → Prop
  | .push e' _ => e' = e
  | .pop (.clear temp) => alPointer temp = e
  | _ => False

namespace Machine

variable {ι : Type}

/-- The node's push took effect and no removal of it has since. -/
def Present (s : Machine ι) (e : Word) : Prop := (s.records e).head? = some .pushed

/-- The node is off the list and in no thread's hands. -/
def Free (s : Machine ι) (e : Word) : Prop := ¬ s.Present e ∧ ∀ i, ¬ (s.thread i).Holds e

/-- Note a record of a node. -/
def note (s : Machine ι) (e : Word) (r : Record) : Machine ι :=
  { s with records := Function.update s.records e (r :: s.records e) }

variable [DecidableEq ι]

/-- After one access of `atomic_list_push`. -/
def afterPush (s : Machine ι) (i : ι) (e : Word) : Memory × Progress PushPc → Machine ι
  | (m, .running pc) => { s with mem := m, thread := Function.update s.thread i (.push e pc) }
  | (m, .returned _) => { s with mem := m, thread := Function.update s.thread i .idle }

/-- After one access of `atomic_list_pop`. -/
def afterPop (s : Machine ι) (i : ι) : Memory × Progress PopPc → Machine ι
  | (m, .running pc) => { s with mem := m, thread := Function.update s.thread i (.pop pc) }
  | (m, .returned _) => { s with mem := m, thread := Function.update s.thread i .idle }

/-- After one access of `atomic_list_popall`. -/
def afterPopall (s : Machine ι) (i : ι) : Memory × Progress PopallPc → Machine ι
  | (m, .running pc) => { s with mem := m, thread := Function.update s.thread i (.popall pc) }
  | (m, .returned _) => { s with mem := m, thread := Function.update s.thread i .idle }

end Machine

section Steps

variable {ι : Type} [DecidableEq ι]

open Machine

/-- One step of a thread. -/
inductive ThreadStep (i : ι) : Machine ι → Machine ι → Prop
  | beginPush {s : Machine ι} (e : Word) (here : s.thread i = .idle) (not_null : e ≠ 0)
      (canonical : Canonical e) (free : s.Free e) :
      ThreadStep i s { s with thread := Function.update s.thread i (.push e .load) }
  | beginPop {s : Machine ι} (here : s.thread i = .idle) :
      ThreadStep i s { s with thread := Function.update s.thread i (.pop .load) }
  | beginPopall {s : Machine ι} (here : s.thread i = .idle) :
      ThreadStep i s { s with thread := Function.update s.thread i (.popall .load) }
  /-- The owner of a node writes its link. -/
  | own {s : Machine ι} (e link : Word) (here : s.thread i = .idle) (free : s.Free e) :
      ThreadStep i s
        { s with mem := { s.mem with next := Function.update s.mem.next e link } }
  | pushLoad {s : Machine ι} {e : Word} (here : s.thread i = .push e .load) :
      ThreadStep i s (s.afterPush i e (atomicListPush e s.mem .load))
  | pushLink {s : Machine ι} {e head : Word} (here : s.thread i = .push e (.link head)) :
      ThreadStep i s (s.afterPush i e (atomicListPush e s.mem (.link head)))
  | pushSwap {s : Machine ι} {e head : Word} (here : s.thread i = .push e (.swap head))
      (hit : s.mem.head = head) :
      ThreadStep i s
        ((s.note e .pushed).afterPush i e (atomicListPush e s.mem (.swap head)))
  | pushRetry {s : Machine ι} {e head : Word} (here : s.thread i = .push e (.swap head))
      (miss : s.mem.head ≠ head) :
      ThreadStep i s (s.afterPush i e (atomicListPush e s.mem (.swap head)))
  | popLoad {s : Machine ι} (here : s.thread i = .pop .load) :
      ThreadStep i s
        (afterPop { s with loaded := Function.update s.loaded i s.removals } i
          (atomicListPop s.mem .load))
  | popFollow {s : Machine ι} {temp : Word} (here : s.thread i = .pop (.follow temp)) :
      ThreadStep i s (s.afterPop i (atomicListPop s.mem (.follow temp)))
  | popSwap {s : Machine ι} {temp next : Word} (here : s.thread i = .pop (.swap temp next))
      (hit : s.mem.head = temp) :
      ThreadStep i s
        (afterPop { s.note (alPointer temp) .removed with removals := s.removals + 1 } i
          (atomicListPop s.mem (.swap temp next)))
  | popRetry {s : Machine ι} {temp next : Word} (here : s.thread i = .pop (.swap temp next))
      (miss : s.mem.head ≠ temp) :
      ThreadStep i s (s.afterPop i (atomicListPop s.mem (.swap temp next)))
  | popClear {s : Machine ι} {temp : Word} (here : s.thread i = .pop (.clear temp)) :
      ThreadStep i s (s.afterPop i (atomicListPop s.mem (.clear temp)))
  | popallLoad {s : Machine ι} (here : s.thread i = .popall .load) :
      ThreadStep i s (s.afterPopall i (atomicListPopall s.mem .load))
  /-- Every node on the list is removed. -/
  | popallSwap {s : Machine ι} {temp : Word} (records : Word → List Record)
      (here : s.thread i = .popall (.swap temp)) (hit : s.mem.head = temp)
      (taken : ∀ e, Meets 0 s.mem.next (alPointer temp) e → records e = .removed :: s.records e)
      (left : ∀ e, ¬ Meets 0 s.mem.next (alPointer temp) e → records e = s.records e) :
      ThreadStep i s
        (afterPopall { s with records := records, removals := s.removals + 1 } i
          (atomicListPopall s.mem (.swap temp)))
  | popallRetry {s : Machine ι} {temp : Word} (here : s.thread i = .popall (.swap temp))
      (miss : s.mem.head ≠ temp) :
      ThreadStep i s (s.afterPopall i (atomicListPopall s.mem (.swap temp)))

/-- The list is empty and nothing has happened yet. -/
def emptyList (next : Word → Word) : Machine ι where
  mem := atomicListInit next
  thread := fun _ => .idle
  records := fun _ => []
  removals := 0
  loaded := fun _ => 0

/-- The threads over any interleaving of the steps which a condition on the stepping thread
allows. -/
def threads (allowed : ι → Machine ι → Prop) : TransitionSystem (Machine ι) where
  initial s := ∃ next, s = emptyList next
  step s s' := ∃ i, allowed i s ∧ ThreadStep i s s'

/-- No restriction on the interleaving. -/
def anyTime (_ : ι) (_ : Machine ι) : Prop := True

/-- The thread is not at a compare-and-swap of `atomic_list_pop` that succeeds after a positive
multiple of 2^16 removals since it read the head. -/
def Timely (i : ι) (s : Machine ι) : Prop :=
  ∀ temp next, s.thread i = .pop (.swap temp next) → s.mem.head = temp →
    s.removals ≠ s.loaded i → ¬ s.removals ≡ s.loaded i [MOD 2 ^ 16]

/-- A condition that stops no thread but one whose pop swaps after other removals. -/
def Lenient (allowed : ι → Machine ι → Prop) : Prop :=
  ∀ i s, (∀ temp next, s.thread i = .pop (.swap temp next) → s.removals = s.loaded i) →
    allowed i s

omit [DecidableEq ι] in
theorem lenient_anyTime : Lenient fun (i : ι) s => anyTime i s := fun _ _ _ => trivial

omit [DecidableEq ι] in
theorem lenient_timely : Lenient fun (i : ι) s => Timely i s :=
  fun _ _ prompt temp next here _ stale => (stale (prompt temp next here)).elim

/-! ## Calls that nothing interrupts -/

/-- After a whole call of `atomic_list_push`. -/
def Machine.pushed (s : Machine ι) (e : Word) : Machine ι :=
  { s.note e .pushed with
    mem :=
      { head := setPointerVersion e (alVersion s.mem.head)
        next := Function.update s.mem.next e (alPointer s.mem.head) } }

/-- After `atomic_list_pop` up to its compare-and-swap. -/
def Machine.poised (s : Machine ι) (i : ι) : Machine ι :=
  { s with
    thread := Function.update s.thread i (.pop (.swap s.mem.head
      (setPointerVersion (s.mem.next (alPointer s.mem.head)) (alVersion s.mem.head + 1))))
    loaded := Function.update s.loaded i s.removals }

/-- After a whole call of `atomic_list_pop` on a list that is not empty. -/
def Machine.popped (s : Machine ι) (i : ι) : Machine ι :=
  { s.note (alPointer s.mem.head) .removed with
    mem :=
      { head := setPointerVersion (s.mem.next (alPointer s.mem.head)) (alVersion s.mem.head + 1)
        next := Function.update s.mem.next (alPointer s.mem.head) 0 }
    removals := s.removals + 1
    loaded := Function.update s.loaded i s.removals }

variable {i : ι} {s : Machine ι} {allowed : ι → Machine ι → Prop}

theorem reachable_pushed (lenient : Lenient allowed) (reachable : (threads allowed).Reachable s)
    (idle : s.thread i = .idle) {e : Word} (not_null : e ≠ 0) (canonical : Canonical e)
    (free : s.Free e) : (threads allowed).Reachable (s.pushed e) := by
  have begun := reachable.step
    ⟨i, lenient i _ (by simp [idle]), .beginPush e idle not_null canonical free⟩
  have loaded := begun.step ⟨i, lenient i _ (by simp), .pushLoad (Function.update_self ..)⟩
  have linked := loaded.step
    ⟨i, lenient i _ (by simp [afterPush, atomicListPush]), .pushLink (Function.update_self ..)⟩
  have swapped := linked.step
    ⟨i, lenient i _ (by simp [afterPush, atomicListPush]), .pushSwap (Function.update_self ..) rfl⟩
  have back : Function.update s.thread i .idle = s.thread := by
    rw [← idle, Function.update_eq_self]
  simpa [afterPush, atomicListPush, note, pushed, back] using swapped

theorem reachable_poised (lenient : Lenient allowed) (reachable : (threads allowed).Reachable s)
    (idle : s.thread i = .idle) (more : alPointer s.mem.head ≠ 0) :
    (threads allowed).Reachable (s.poised i) := by
  have begun := reachable.step ⟨i, lenient i _ (by simp [idle]), .beginPop idle⟩
  have loaded := begun.step ⟨i, lenient i _ (by simp), .popLoad (Function.update_self ..)⟩
  rw [atomicListPop, if_neg more] at loaded
  have followed := loaded.step
    ⟨i, lenient i _ (by simp [afterPop]), .popFollow (Function.update_self ..)⟩
  simpa [afterPop, atomicListPop, poised] using followed

theorem reachable_popped (lenient : Lenient allowed) (reachable : (threads allowed).Reachable s)
    (idle : s.thread i = .idle) (more : alPointer s.mem.head ≠ 0) :
    (threads allowed).Reachable (s.popped i) := by
  have poised := reachable_poised lenient reachable idle more
  have swapped := poised.step
    ⟨i, lenient i _ (by simp [Machine.poised]), .popSwap (Function.update_self ..) rfl⟩
  simp only [afterPop, atomicListPop, Machine.poised, if_true] at swapped
  have cleared := swapped.step ⟨i, lenient i _ (by simp), .popClear (Function.update_self ..)⟩
  have back : Function.update s.thread i .idle = s.thread := by
    rw [← idle, Function.update_eq_self]
  simpa [afterPop, atomicListPop, note, popped, back] using cleared

end Steps

end AtomicList
end OstrichServer
