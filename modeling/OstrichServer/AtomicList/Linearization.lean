import OstrichServer.AtomicList.Removal
import OstrichServer.Foundations.AtomicObject

/-!
# The list is a stack

Whatever order the accesses of the threads come in, the calls return what they would return if each
had taken effect at once on a stack: a push or a removal takes effect when it swaps the head, and a
removal from an empty list when it reads the head.
-/

namespace OstrichServer
namespace AtomicList

open AtomicObject LinkedList Machine

/-- The calls on a list. -/
inductive Call
  | push (e : Word)
  | pop
  | popall
  deriving DecidableEq

/-- What a call returns. -/
inductive Answer
  /-- The pointer that `atomic_list_push` or `atomic_list_pop` returns. -/
  | link (p : Word)
  /-- The nodes found from the pointer that `atomic_list_popall` returns. -/
  | chain (nodes : List Word)
  deriving DecidableEq

/-- A stack: a push returns the node that was first and a removal returns what it removes. -/
def stack : SequentialObject (List Word) Call Answer where
  start := []
  apply
    | nodes, .push e => (.link (nodes.headD 0), e :: nodes)
    | nodes, .pop => (.link (nodes.headD 0), nodes.tail)
    | nodes, .popall => (.chain nodes, [])

/-- The pointer returned, when the call is over. -/
def Progress.result {κ : Type} : Progress κ → Option Word
  | .running _ => none
  | .returned p => some p

/-- The call that a thread is in. -/
def ThreadPc.call : ThreadPc → Option Call
  | .idle => none
  | .push e _ => some (.push e)
  | .pop _ => some .pop
  | .popall _ => some .popall

variable {ι : Type}

/-- What the step of a thread shows: the call it begins, or what its call returns. -/
def Shows (i : ι) (s s' : Machine ι) (label : Option (Event ι Call Answer)) : Prop :=
  match s.thread i with
  | .idle => label = (s'.thread i).call.map (.invoke i)
  | .push e pc =>
      label = (atomicListPush e s.mem pc).2.result.map fun p => .respond i (.link p)
  | .pop pc => label = (atomicListPop s.mem pc).2.result.map fun p => .respond i (.link p)
  | .popall pc =>
      match (atomicListPopall s.mem pc).2 with
      | .running _ => label = none
      | .returned p =>
          ∃ nodes, Chain 0 (atomicListPopall s.mem pc).1.next p nodes ∧
            label = some (.respond i (.chain nodes))

variable [DecidableEq ι]

/-- The threads with what their steps show. -/
def calls (allowed : ι → Machine ι → Prop) : LabelledSystem (Machine ι) (Event ι Call Answer) where
  initial s := ∃ next, s = emptyList next
  step s label s' := ∃ i, allowed i s ∧ ThreadStep i s s' ∧ Shows i s s' label

/-! ## The stack behind the list -/

/-- How far the call of a thread is. -/
def ThreadPc.status : ThreadPc → Status Call Answer
  | .idle => .idle
  | .push e _ => .invoked (.push e)
  | .pop (.clear temp) => .answered (.link (alPointer temp))
  | .pop .load | .pop (.follow _) | .pop (.swap _ _) => .invoked .pop
  | .popall _ => .invoked .popall

/-- The stack holds the nodes of the list, and its callers are as far as the threads. -/
structure Stands (s : Machine ι) (a : State ι (List Word) Call Answer) : Prop where
  invariant : Invariant s a.object
  status : a.status = fun i => (s.thread i).status

section Steps

variable {s s' : Machine ι} {nodes nodes' : List Word} {i : ι} {next : ThreadPc}
  {a : State ι (List Word) Call Answer} {label : Option (Event ι Call Answer)}

omit [DecidableEq ι] in
/-- The list holds the same nodes while its head and their links stay. -/
theorem ListHolds.unchanged (list : ListHolds s nodes) (list' : ListHolds s' nodes')
    (head : s'.mem.head = s.mem.head) (links : ∀ e ∈ nodes, s'.mem.next e = s.mem.next e) :
    nodes' = nodes := by
  have chain := list'.chain
  rw [head] at chain
  exact chain.unique (list.chain.congr fun e member => (links e member).symm)

omit [DecidableEq ι] in
/-- No node is on a list whose head has no pointer. -/
theorem ListHolds.eq_nil (list : ListHolds s nodes) (empty : alPointer s.mem.head = 0) :
    nodes = [] :=
  list.chain.eq_null_iff.mp empty

omit [DecidableEq ι] in
/-- The head points to the first node. -/
theorem ListHolds.first_eq (list : ListHolds s nodes) : alPointer s.mem.head = nodes.headD 0 := by
  cases nodes with
  | nil => exact list.chain.eq_null_iff.mpr rfl
  | cons first rest => exact list.chain.of_cons.1

omit [DecidableEq ι] in
/-- The link of the first node is a pointer. -/
theorem ListHolds.canonical_next (list : ListHolds s nodes) {first : Word} {rest : List Word}
    (split : nodes = first :: rest) (tail : Chain 0 s.mem.next (s.mem.next first) rest) :
    Canonical (s.mem.next first) := by
  rcases tail.eq_null_or_mem with null | member
  · rw [null]
    exact canonical_zero
  · exact list.canonical _ (split ▸ List.mem_cons_of_mem _ member)

theorem Stands.status_update (stands : Stands s a)
    (thread : s'.thread = Function.update s.thread i next) :
    (fun j => (s'.thread j).status) = Function.update a.status i next.status := by
  rw [thread, stands.status]
  exact Function.comp_update ThreadPc.status s.thread i next

/-- A thread goes on with its call. -/
theorem Stands.goOn (stands : Stands s a) (thread : s'.thread = Function.update s.thread i next)
    (status : next.status = (s.thread i).status) (invariant : Invariant s' a.object) :
    ∃ a', (callers stack).Run a [] a' ∧ Stands s' a' := by
  refine ⟨a, .refl a, invariant, ?_⟩
  rw [stands.status_update thread, status, stands.status, Function.update_eq_self]

/-- A thread begins a call. -/
theorem Stands.begin (stands : Stands s a) {call : Call} (here : s.thread i = .idle)
    (thread : s'.thread = Function.update s.thread i next) (status : next.status = .invoked call)
    (invariant : Invariant s' a.object) :
    ∃ a', (callers stack).Run a [.invoke i call] a' ∧ Stands s' a' := by
  have idle : a.status i = .idle :=
    (congrFun stands.status i).trans (congrArg ThreadPc.status here)
  refine ⟨_, .visible (.invoke i call idle), invariant, ?_⟩
  rw [stands.status_update thread, status]

/-- A call that took effect returns. -/
theorem Stands.answer (stands : Stands s a) {answer : Answer}
    (here : (s.thread i).status = .answered answer)
    (thread : s'.thread = Function.update s.thread i .idle) (invariant : Invariant s' a.object) :
    ∃ a', (callers stack).Run a [.respond i answer] a' ∧ Stands s' a' := by
  have answered : a.status i = .answered answer := (congrFun stands.status i).trans here
  exact ⟨_, .visible (.respond i answer answered), invariant, (stands.status_update thread).symm⟩

/-- A call takes effect and will return later. -/
theorem Stands.effect (stands : Stands s a) (call : Call)
    (here : (s.thread i).status = .invoked call)
    (thread : s'.thread = Function.update s.thread i next)
    (status : next.status = .answered (stack.apply a.object call).1)
    (invariant : Invariant s' (stack.apply a.object call).2) :
    ∃ a', (callers stack).Run a [] a' ∧ Stands s' a' := by
  have invoked : a.status i = .invoked call := (congrFun stands.status i).trans here
  refine ⟨_, .silent (.effect i call invoked), invariant, ?_⟩
  rw [stands.status_update thread, status]
  rfl

/-- A call takes effect as it returns. -/
theorem Stands.finish (stands : Stands s a) (call : Call)
    (here : (s.thread i).status = .invoked call)
    (thread : s'.thread = Function.update s.thread i .idle)
    (invariant : Invariant s' (stack.apply a.object call).2) :
    ∃ a', (callers stack).Run a [.respond i (stack.apply a.object call).1] a' ∧ Stands s' a' := by
  have invoked : a.status i = .invoked call := (congrFun stands.status i).trans here
  refine ⟨_, run_finish stack invoked, invariant, ?_⟩
  rw [stands.status_update thread]
  rfl

omit [DecidableEq ι] in
/-- A step that leaves the head and the links of the nodes alone leaves the nodes on the list. -/
theorem Stands.keep (stands : Stands s a) (invariant : Invariant s' nodes')
    (head : s'.mem.head = s.mem.head) (links : ∀ e ∈ a.object, s'.mem.next e = s.mem.next e) :
    Invariant s' a.object :=
  stands.invariant.list.unchanged invariant.list head links ▸ invariant

/-- Each step of a thread is matched by steps of a caller of the stack that show the same. -/
theorem ThreadStep.stands (step : ThreadStep i s s') (timely : Timely i s)
    (shows : Shows i s s' label) (stands : Stands s a) :
    ∃ a', (callers stack).Run a label.toList a' ∧ Stands s' a' := by
  obtain ⟨nodes', invariant'⟩ := step.invariant timely stands.invariant
  have list := stands.invariant.list
  have ok := stands.invariant.thread i
  have apart : ∀ {e : Word}, e ∉ a.object → ∀ (link : Word), ∀ e' ∈ a.object,
      Function.update s.mem.next e link e' = s.mem.next e' := by
    intro e outside link e' member
    refine Function.update_of_ne ?_ _ _
    rintro rfl
    exact outside member
  cases step with
  | beginPush e here not_null canonical free =>
      obtain rfl : label = some (.invoke i (.push e)) := by
        simpa [Shows, here, ThreadPc.call] using shows
      exact stands.begin here rfl rfl (stands.keep invariant' rfl fun _ _ => rfl)
  | beginPop here =>
      obtain rfl : label = some (.invoke i .pop) := by
        simpa [Shows, here, ThreadPc.call] using shows
      exact stands.begin here rfl rfl (stands.keep invariant' rfl fun _ _ => rfl)
  | beginPopall here =>
      obtain rfl : label = some (.invoke i .popall) := by
        simpa [Shows, here, ThreadPc.call] using shows
      exact stands.begin here rfl rfl (stands.keep invariant' rfl fun _ _ => rfl)
  | own e link here free =>
      obtain rfl : label = none := by
        simpa [Shows, here, ThreadPc.call] using shows
      have outside : e ∉ a.object := fun member => free.1 ((list.present e).mpr member)
      have still : s.thread = Function.update s.thread i .idle := by
        rw [← here, Function.update_eq_self]
      exact stands.goOn still (by rw [here]) (stands.keep invariant' rfl (apart outside link))
  | @pushLoad e here =>
      obtain rfl : label = none := by
        simpa [Shows, here, atomicListPush, Progress.result] using shows
      exact stands.goOn rfl (by rw [here]; rfl) (stands.keep invariant' rfl fun _ _ => rfl)
  | @pushLink e head here =>
      obtain rfl : label = none := by
        simpa [Shows, here, atomicListPush, Progress.result] using shows
      rw [here] at ok
      exact stands.goOn rfl (by rw [here]; rfl) (stands.keep invariant' rfl (apart ok.2.2.1 _))
  | @pushSwap e head here hit =>
      subst hit
      obtain rfl : label = some (.respond i (.link (a.object.headD 0))) := by
        simpa [Shows, here, atomicListPush, Progress.result, list.first_eq] using shows
      simp only [atomicListPush, if_true, afterPush]
      exact stands.finish (.push e) (by rw [here]; rfl) rfl (stands.invariant.pushed here)
  | @pushRetry e head here miss =>
      simp only [Shows, here, atomicListPush, if_neg miss] at shows
      obtain rfl : label = none := shows
      simp only [atomicListPush, if_neg miss, afterPush] at invariant' ⊢
      exact stands.goOn rfl (by rw [here]; rfl) (stands.keep invariant' rfl fun _ _ => rfl)
  | @popLoad here =>
      by_cases empty : alPointer s.mem.head = 0
      · have none_left := list.eq_nil empty
        simp only [Shows, here, atomicListPop, if_pos empty] at shows
        obtain rfl : label = some (.respond i (stack.apply a.object .pop).1) := by
          rw [none_left]
          exact shows
        simp only [atomicListPop, if_pos empty, afterPop] at invariant' ⊢
        refine stands.finish .pop (by rw [here]; rfl) rfl ?_
        have unchanged : (stack.apply a.object .pop).2 = a.object := by rw [none_left]; rfl
        rw [unchanged]
        exact stands.keep invariant' rfl fun _ _ => rfl
      · simp only [Shows, here, atomicListPop, if_neg empty] at shows
        obtain rfl : label = none := shows
        simp only [atomicListPop, if_neg empty, afterPop] at invariant' ⊢
        exact stands.goOn rfl (by rw [here]; rfl) (stands.keep invariant' rfl fun _ _ => rfl)
  | @popFollow temp here =>
      obtain rfl : label = none := by
        simpa [Shows, here, atomicListPop, Progress.result] using shows
      exact stands.goOn rfl (by rw [here]; rfl) (stands.keep invariant' rfl fun _ _ => rfl)
  | @popSwap temp next here hit =>
      have fresh := stands.invariant.fresh here hit timely
      rw [here] at ok
      obtain ⟨read, link, rfl, linked⟩ := ok
      obtain rfl : link = s.mem.next (alPointer temp) := linked fresh
      subst hit
      obtain ⟨rest, split, tail⟩ := list.chain.exists_cons (list.chain.ne_null (read.member fresh))
      simp only [Shows, here, atomicListPop, if_true] at shows
      obtain rfl : label = none := shows
      simp only [atomicListPop, if_true, afterPop] at invariant' ⊢
      have chain := invariant'.list.chain
      rw [alPointer_setPointerVersion (list.canonical_next split tail)] at chain
      obtain rfl := chain.unique tail
      refine stands.effect .pop (by rw [here]; rfl) rfl ?_ ?_
      · rw [split]
        rfl
      · rw [split]
        exact invariant'
  | @popRetry temp next here miss =>
      simp only [Shows, here, atomicListPop, if_neg miss] at shows
      obtain rfl : label = none := shows
      simp only [atomicListPop, if_neg miss, afterPop] at invariant' ⊢
      exact stands.goOn rfl (by rw [here]; rfl) (stands.keep invariant' rfl fun _ _ => rfl)
  | @popClear temp here =>
      obtain rfl : label = some (.respond i (.link (alPointer temp))) := by
        simpa [Shows, here, atomicListPop, Progress.result] using shows
      rw [here] at ok
      exact stands.answer (by rw [here]; rfl) rfl (stands.keep invariant' rfl (apart ok _))
  | @popallLoad here =>
      by_cases empty : alPointer s.mem.head = 0
      · have none_left := list.eq_nil empty
        simp only [Shows, here, atomicListPopall, if_pos empty] at shows
        obtain ⟨nodes, chain, rfl⟩ := shows
        obtain rfl := chain.eq_nil
        simp only [atomicListPopall, if_pos empty, afterPopall] at invariant' ⊢
        have unchanged : stack.apply a.object .popall = (.chain [], a.object) := by
          rw [none_left]; rfl
        have invariant := stands.keep invariant' rfl fun _ _ => rfl
        have finished := stands.finish .popall (by rw [here]; rfl) rfl
          (by rw [unchanged]; exact invariant)
        rwa [unchanged] at finished
      · simp only [Shows, here, atomicListPopall, if_neg empty] at shows
        obtain rfl : label = none := shows
        simp only [atomicListPopall, if_neg empty, afterPopall] at invariant' ⊢
        exact stands.goOn rfl (by rw [here]; rfl) (stands.keep invariant' rfl fun _ _ => rfl)
  | @popallSwap temp records here hit taken left =>
      subst hit
      simp only [Shows, here, atomicListPopall, if_true] at shows
      obtain ⟨nodes, chain, rfl⟩ := shows
      obtain rfl := list.chain.unique chain
      simp only [atomicListPopall, if_true, afterPopall] at invariant' ⊢
      obtain rfl : nodes' = [] := invariant'.list.eq_nil (alPointer_null _)
      exact stands.finish .popall (by rw [here]; rfl) rfl invariant'
  | @popallRetry temp here miss =>
      simp only [Shows, here, atomicListPopall, if_neg miss] at shows
      obtain rfl : label = none := shows
      simp only [atomicListPopall, if_neg miss, afterPopall] at invariant' ⊢
      exact stands.goOn rfl (by rw [here]; rfl) (stands.keep invariant' rfl fun _ _ => rfl)

end Steps

/-- The stack answers every run of the threads. -/
theorem calls_simulation :
    (calls Timely).Simulation (callers stack) fun (s : Machine ι) a => Stands s a where
  initial := by
    rintro s ⟨next, rfl⟩
    exact ⟨_, rfl, invariant_emptyList next, rfl⟩
  step := by
    rintro s a label s' stands ⟨i, timely, step, shows⟩
    exact step.stands timely shows stands

omit [DecidableEq ι] in
/-- Every step shows something. -/
theorem exists_shows {s : Machine ι} {nodes : List Word} (list : ListHolds s nodes) (i : ι)
    (s' : Machine ι) : ∃ label, Shows i s s' label := by
  unfold Shows
  cases s.thread i with
  | idle | push | pop => exact ⟨_, rfl⟩
  | popall pc =>
      cases pc with
      | load =>
          by_cases empty : alPointer s.mem.head = 0
          · simp only [atomicListPopall, if_pos empty]
            exact ⟨_, [], .nil, rfl⟩
          · simp only [atomicListPopall, if_neg empty]
            exact ⟨_, rfl⟩
      | swap temp =>
          by_cases hit : s.mem.head = temp
          · simp only [atomicListPopall, if_pos hit]
            exact ⟨_, nodes, hit ▸ list.chain, rfl⟩
          · simp only [atomicListPopall, if_neg hit]
            exact ⟨_, rfl⟩

/-- Every state is reached by a run that shows something at each step. -/
theorem exists_run {s : Machine ι} (reachable : (threads Timely).Reachable s) :
    ∃ start events, (calls Timely).initial start ∧ (calls Timely).Run start events s := by
  obtain ⟨start, initial, run⟩ := reachable
  refine ⟨start, ?_⟩
  induction run with
  | refl => exact ⟨[], initial, .refl start⟩
  | @tail state next run step induction =>
      obtain ⟨events, initial, shown⟩ := induction
      obtain ⟨nodes, invariant⟩ := invariant_isInvariant.of_reachable ⟨start, initial, run⟩
      obtain ⟨i, timely, step⟩ := step
      obtain ⟨label, shows⟩ := exists_shows invariant.list i next
      exact ⟨_, initial, shown.tail ⟨i, timely, step, shows⟩⟩

/-- As long as no pop swaps the head after a positive multiple of 2^16 removals since it read it,
what the threads show could have been seen of a stack whose calls take effect at once; and every
run shows something at each of its steps. -/
theorem calls_linearizable :
    (∀ s : Machine ι, (threads Timely).Reachable s →
      ∃ start events, (calls Timely).initial start ∧ (calls Timely).Run start events s) ∧
    ∀ events : List (Event ι Call Answer), (calls Timely).Trace events →
      Linearizable stack events :=
  ⟨fun _ reachable => exists_run reachable, fun _ trace => calls_simulation.trace trace⟩

section Uninterrupted

variable {allowed : ι → Machine ι → Prop} {s start : Machine ι} {i : ι}
  {events : List (Event ι Call Answer)}

/-- A push begun earlier runs to its end. -/
theorem run_push (lenient : Lenient allowed) (run : (calls allowed).Run start events s) {e : Word}
    (here : s.thread i = .push e .load) :
    (calls allowed).Run start (events ++ [.respond i (.link (alPointer s.mem.head))])
      { s.pushed e with thread := Function.update s.thread i .idle } := by
  have loaded := run.thenSilent ⟨i, lenient i _ (by simp [here]), .pushLoad here,
    by simp [Shows, here, atomicListPush, Progress.result]⟩
  have linked := loaded.thenSilent ⟨i, lenient i _ (by simp [afterPush, atomicListPush]),
    .pushLink (Function.update_self ..),
    by simp [Shows, afterPush, atomicListPush, Progress.result]⟩
  have swapped := linked.thenVisible ⟨i, lenient i _ (by simp [afterPush, atomicListPush]),
    .pushSwap (Function.update_self ..) rfl,
    by simp [Shows, afterPush, atomicListPush, Progress.result]; rfl⟩
  simpa [afterPush, atomicListPush, note, pushed] using swapped

/-- A removal begun earlier runs to its end on a list that is not empty. -/
theorem run_pop (lenient : Lenient allowed) (run : (calls allowed).Run start events s)
    (here : s.thread i = .pop .load) (more : alPointer s.mem.head ≠ 0) :
    (calls allowed).Run start (events ++ [.respond i (.link (alPointer s.mem.head))])
      { s.popped i with thread := Function.update s.thread i .idle } := by
  have shows : (atomicListPop s.mem .load).2.result = none := by
    rw [atomicListPop, if_neg more]
    rfl
  have loaded := run.thenSilent ⟨i, lenient i _ (by simp [here]), .popLoad here,
    by simp [Shows, here, shows]⟩
  rw [atomicListPop, if_neg more] at loaded
  have followed := loaded.thenSilent ⟨i, lenient i _ (by simp [afterPop]),
    .popFollow (Function.update_self ..),
    by simp [Shows, afterPop, atomicListPop, Progress.result]⟩
  have swapped := followed.thenSilent
    ⟨i, lenient i _ (by simp [afterPop, atomicListPop]), .popSwap (Function.update_self ..) rfl,
      by simp [Shows, afterPop, atomicListPop, Progress.result]⟩
  simp only [afterPop, atomicListPop, if_true] at swapped
  have cleared := swapped.thenVisible ⟨i, lenient i _ (by simp),
    .popClear (Function.update_self ..), by simp [Shows, atomicListPop, Progress.result]; rfl⟩
  simpa [afterPop, atomicListPop, note, popped] using cleared

end Uninterrupted

/-- The removal of thread 1 begins before the push of thread 0 has returned and takes its node. -/
theorem calls_linearizable_overlapping :
    Linearizable stack [.invoke (0 : Fin 2) (.push 16), .invoke 1 .pop, .respond 0 (.link 0),
      .respond 1 (.link 16)] := by
  let start : Machine (Fin 2) := emptyList fun _ => 0
  have canonical : Canonical 16#64 := canonical_of_lt (by decide)
  have pushing : (calls Timely).Run start [.invoke 0 (.push 16)] _ := .visible
    ⟨0, by simp [Timely, start, emptyList],
      .beginPush 16 rfl (by decide) canonical ⟨by simp [Present, start, emptyList], fun _ => id⟩,
      by simp [Shows, start, emptyList, ThreadPc.call]⟩
  have popping : (calls Timely).Run start [.invoke 0 (.push 16), .invoke 1 .pop] _ :=
    pushing.thenVisible ⟨1, by simp [Timely, start, emptyList],
      .beginPop (by simp [start, emptyList]), by simp [Shows, start, emptyList, ThreadPc.call]⟩
  have pushed := run_push lenient_timely popping (i := 0) (e := 16) (by simp)
  have popped := run_pop lenient_timely pushed (i := 1) (by simp)
    (by simp [Machine.pushed, canonical])
  simpa [Machine.pushed, canonical, start, emptyList] using
    calls_linearizable.2 _ ⟨start, _, ⟨_, rfl⟩, popped⟩

end AtomicList
end OstrichServer
