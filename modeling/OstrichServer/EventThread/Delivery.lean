import OstrichServer.EventThread.Links

/-!
# Delivery is exactly once and first in, first out

The external list is taken as a whole, newest event first, and turned around into the collect queue,
which is empty at that moment.  So the events pushed are at all times the events handled, followed
by those on their way to the handlers, oldest first.
-/

namespace OstrichServer
namespace EventThread

open AtomicList LinkedList State

/-- The events of immediate type in a list. -/
def immediate (kind : Word → EventKind) (events : List Word) : List Word :=
  events.filter fun e => decide (kind e).Immediate

@[simp]
theorem immediate_append (kind : Word → EventKind) (front back : List Word) :
    immediate kind (front ++ back) = immediate kind front ++ immediate kind back :=
  List.filter_append front back

theorem immediate_cons_of_other {kind : Word → EventKind} {e : Word}
    (other : ¬ (kind e).Immediate) (rest : List Word) :
    immediate kind (e :: rest) = immediate kind rest := by
  simp [immediate, other]

/-- The events between the producers and the handlers, oldest first. -/
def inTransit (nodes : QueueName → List Word) : List Word :=
  (nodes .transferred).reverse ++ nodes .collect ++ (nodes .external).reverse

/-- The collect queue was drained and nothing has been put there since. -/
def ConsumerPc.Drained : ConsumerPc → Prop
  | .drain | .transfer _ | .postponed => False
  | .check | .acquire | .test | .wait | .asleep | .woken | .release | .popall _ => True

variable {ι : Type} {kind : Word → EventKind} {s s' : State ι} {nodes : QueueName → List Word}

/-- Every event pushed is accounted for. -/
structure Accounted (kind : Word → EventKind) (s : State ι) (nodes : QueueName → List Word) :
    Prop where
  order : immediate kind s.pushed = immediate kind (s.handled ++ inTransit nodes)
  drained : s.consumer.Drained → nodes .collect = []
  postponed : ∀ e ∈ nodes .postponed, ¬ (kind e).Immediate
  nodup : s.pushed.Nodup
  begun : ∀ e ∈ s.pushed, e ∈ s.begun
  pushing : ∀ {i e pc}, s.producer i = .push e pc → e ∈ s.begun ∧ e ∉ s.pushed

/-! ## The handlers -/

variable (kind) in
/-- The events a handler gives to `local_schedule` go to the postponed queue. -/
theorem Linked.schedule (linked : Linked s nodes) (scheduled : List Word)
    (nodup : scheduled.Nodup)
    (free : ∀ l ∈ scheduled, l ≠ 0 ∧ Quiet s l ∧ ∀ k, l ∉ nodes k) :
    ∃ added, (∀ l ∈ added, l ∈ scheduled) ∧
      Linked (scheduled.foldl (localSchedule kind) s)
        (Function.update nodes .postponed (added ++ nodes .postponed)) := by
  induction scheduled generalizing s nodes with
  | nil => exact ⟨[], by simp, by simpa using linked⟩
  | cons l scheduled induction =>
      obtain ⟨fresh, nodup⟩ := List.nodup_cons.mp nodup
      obtain ⟨ne_null, quiet, outside⟩ := free l List.mem_cons_self
      have free' : ∀ l' ∈ scheduled, l' ≠ 0 ∧ Quiet s l' ∧ ∀ k, l' ∉ nodes k :=
        fun l' member => free l' (List.mem_cons_of_mem _ member)
      by_cases timed : 0 < (kind l).timeout
      · have skip : s.localSchedule kind l = s := by simp [localSchedule, timed]
        obtain ⟨added, source, linked'⟩ := induction linked nodup free'
        rw [List.foldl_cons, skip]
        exact ⟨added, fun l' member => List.mem_cons_of_mem _ (source l' member), linked'⟩
      · have put : s.localSchedule kind l = s.localqEnqueue l := by simp [localSchedule, timed]
        have enqueued : Linked (s.localqEnqueue l)
            (Function.update nodes .postponed (l :: nodes .postponed)) :=
          linked.enqueue .postponed ne_null outside quiet (first_localqEnqueue s l) rfl rfl
        obtain ⟨added, source, linked'⟩ := induction enqueued nodup fun l' member => by
          obtain ⟨ne_null', quiet', outside'⟩ := free' l' member
          refine ⟨ne_null', quiet', fun k here => ?_⟩
          by_cases same : k = .postponed
          · subst same
            rw [Function.update_self] at here
            rcases List.mem_cons.mp here with rfl | old
            · exact fresh member
            · exact outside' _ old
          · rw [Function.update_of_ne same] at here
            exact outside' k here
        rw [List.foldl_cons, put]
        refine ⟨added ++ [l], fun l' member => ?_, ?_⟩
        · rcases List.mem_append.mp member with later | here
          · exact List.mem_cons_of_mem _ (source l' later)
          · simp [List.mem_singleton.mp here]
        · simpa using linked'

theorem handled_schedule (kind : Word → EventKind) (s : State ι) (scheduled : List Word) :
    (scheduled.foldl (localSchedule kind) s).handled = s.handled := by
  induction scheduled generalizing s with
  | nil => rfl
  | cons l scheduled induction =>
      rw [List.foldl_cons, induction]
      unfold localSchedule
      split <;> rfl

theorem handled_process (kind : Word → EventKind) (s : State ι) (e : Word)
    (scheduled : List Word) :
    (s.threadEventProcess kind e scheduled).handled = s.handled ++ [e] := by
  unfold threadEventProcess
  simp only
  split <;> exact handled_schedule kind _ scheduled

/-- `thread_event_process` of an event that is on no queue adds no immediate event to any. -/
theorem Linked.process (linked : Linked s nodes) {e : Word} (scheduled : List Word)
    (ne_null : e ≠ 0) (free : ∀ k, e ∉ nodes k) (quiet : Quiet s e)
    (may : s.MaySchedule kind e scheduled) :
    ∃ nodes', Linked (s.threadEventProcess kind e scheduled) nodes' ∧
      immediate kind (inTransit nodes') = immediate kind (inTransit nodes) ∧
      ∀ x ∈ nodes' .postponed, x ∈ nodes .postponed ∨ ¬ (kind x).Immediate := by
  have recorded : Linked { s with handled := s.handled ++ [e] } nodes :=
    linked.unlinked rfl rfl fun here => here
  obtain ⟨added, source, scheduled_linked⟩ :=
    recorded.schedule kind scheduled may.nodup fun l member => by
      obtain ⟨ne_null, outside, -⟩ := may.local_event l member
      exact ⟨ne_null, outside.2, fun k => outside.1 k _ (linked.chains.chain k)⟩
  have local_only : ∀ x ∈ added ++ nodes .postponed,
      x ∈ nodes .postponed ∨ ¬ (kind x).Immediate := by
    intro x member
    rcases List.mem_append.mp member with new | old
    · exact Or.inr (may.local_event x (source x new)).2.2
    · exact Or.inl old
  by_cases redo : (kind e).redo = true
  · have again : s.threadEventProcess kind e scheduled =
        (scheduled.foldl (localSchedule kind)
          { s with handled := s.handled ++ [e] }).collectqueueEnqueue e := by
      simp [threadEventProcess, redo]
    have outside : ∀ k, e ∉ Function.update nodes .postponed (added ++ nodes .postponed) k := by
      intro k member
      by_cases same : k = .postponed
      · subst same
        rw [Function.update_self] at member
        rcases List.mem_append.mp member with new | old
        · exact may.not_redone redo (source e new)
        · exact free _ old
      · rw [Function.update_of_ne same] at member
        exact free k member
    have producer := (sameShared_schedule kind { s with handled := s.handled ++ [e] }
      scheduled).producer
    have quiet' : Quiet (scheduled.foldl (localSchedule kind)
        { s with handled := s.handled ++ [e] }) e := by
      intro i pc
      rw [producer]
      exact quiet i pc
    have other : ¬ (kind e).Immediate := fun here => by simp [here.2.2] at redo
    rw [again]
    refine ⟨_, scheduled_linked.enqueue .collect ne_null outside quiet'
      (first_collectqueueEnqueue _ e) rfl rfl, ?_, local_only⟩
    simp [inTransit, immediate_cons_of_other other]
  · have once : s.threadEventProcess kind e scheduled =
        scheduled.foldl (localSchedule kind) { s with handled := s.handled ++ [e] } := by
      simp [threadEventProcess, redo]
    rw [once]
    exact ⟨_, scheduled_linked, rfl, local_only⟩

/-! ## The steps -/

/-- The events are linked up and accounted for. -/
def Delivering (kind : Word → EventKind) (s : State ι) : Prop :=
  ∃ nodes, Linked s nodes ∧ Accounted kind s nodes

/-- The event thread moves on and changes no queue. -/
theorem Delivering.move (linked : Linked s nodes) (accounted : Accounted kind s nodes)
    (mem : s'.mem = s.mem) (first : s'.first = s.first)
    (pushing : ∀ {i e pc}, s'.producer i = .push e pc → s.producer i = .push e pc)
    (history : s'.begun = s.begun ∧ s'.pushed = s.pushed ∧ s'.handled = s.handled)
    (drained : s'.consumer.Drained → nodes .collect = []) : Delivering kind s' := by
  obtain ⟨begun, pushed, handled⟩ := history
  refine ⟨nodes, linked.unlinked (congrArg Memory.next mem) first pushing, ?_⟩
  constructor
  case order => rw [pushed, handled]; exact accounted.order
  case drained => exact drained
  case postponed => exact accounted.postponed
  case nodup => rw [pushed]; exact accounted.nodup
  case begun => rw [pushed, begun]; exact accounted.begun
  case pushing =>
    intro i e pc here
    rw [pushed, begun]
    exact accounted.pushing (pushing here)

section Steps

variable [DecidableEq ι]

/-- A producer goes on with a push that has not taken effect. -/
theorem Accounted.proceed {i : ι} {e : Word} {pc pc' : PushPc} (accounted : Accounted kind s nodes)
    (here : s.producer i = .push e pc)
    (producer : s'.producer = Function.update s.producer i (.push e pc'))
    (consumer : s'.consumer = s.consumer)
    (history : s'.begun = s.begun ∧ s'.pushed = s.pushed ∧ s'.handled = s.handled) :
    Accounted kind s' nodes := by
  obtain ⟨begun, pushed, handled⟩ := history
  constructor
  case order => rw [pushed, handled]; exact accounted.order
  case drained => rw [consumer]; exact accounted.drained
  case postponed => exact accounted.postponed
  case nodup => rw [pushed]; exact accounted.nodup
  case begun => rw [pushed, begun]; exact accounted.begun
  case pushing =>
    intro j e' pc'' pushing
    rw [begun, pushed]
    rw [producer] at pushing
    rcases push_of_update pushing with ⟨-, mine⟩ | ⟨-, old⟩
    · cases mine
      exact accounted.pushing here
    · exact accounted.pushing old

/-- A push that takes effect puts its event last among the pushed ones. -/
theorem Accounted.finish {i : ι} {e : Word} {next : ProducerPc} (linked : Linked s nodes)
    (accounted : Accounted kind s nodes) (here : s.producer i = .push e (.swap s.mem.head))
    (idle : ∀ e' pc, next ≠ .push e' pc) :
    Accounted kind
      { s with
        mem := { s.mem with head := setPointerVersion e (alVersion s.mem.head) }
        producer := Function.update s.producer i next
        pushed := s.pushed ++ [e] }
      (Function.update nodes .external (e :: nodes .external)) := by
  have own := accounted.pushing here
  constructor
  case order => simp [inTransit, accounted.order]
  case drained => exact accounted.drained
  case postponed => exact accounted.postponed
  case nodup =>
    refine List.nodup_append.mpr ⟨accounted.nodup, List.nodup_singleton e, ?_⟩
    exact fun x member y single same => own.2 (List.mem_singleton.mp single ▸ same ▸ member)
  case begun =>
    intro x member
    rcases List.mem_append.mp member with old | new
    · exact accounted.begun x old
    · exact List.mem_singleton.mp new ▸ own.1
  case pushing =>
    intro j e' pc pushing
    obtain ⟨distinct, old⟩ := push_of_update_idle idle pushing
    refine ⟨(accounted.pushing old).1, fun member => ?_⟩
    rcases List.mem_append.mp member with before | now
    · exact (accounted.pushing old).2 before
    · obtain rfl : e' = e := List.mem_singleton.mp now
      exact distinct (linked.apart old here)

theorem ProducerStep.delivering {i : ι} (step : ProducerStep i s s')
    (delivering : Delivering kind s) : Delivering kind s' := by
  obtain ⟨nodes, linked, accounted⟩ := delivering
  cases step with
  | begin e here ne_null canonical once free =>
      have outside : ∀ k, e ∉ nodes k := fun k => free.1 k _ (linked.chains.chain k)
      refine ⟨nodes, linked.begin i ne_null canonical outside free.2 rfl rfl rfl, ?_⟩
      refine ⟨accounted.order, accounted.drained, accounted.postponed, accounted.nodup,
        fun x member => List.mem_cons_of_mem _ (accounted.begun x member), ?_⟩
      intro j e' pc pushing
      rcases push_of_update pushing with ⟨-, own⟩ | ⟨-, old⟩
      · cases own
        exact ⟨List.mem_cons_self, fun member => once (accounted.begun e member)⟩
      · obtain ⟨begun, fresh⟩ := accounted.pushing old
        exact ⟨List.mem_cons_of_mem _ begun, fresh⟩
  | @push e pc here =>
      have unswapped : ∀ {pc' : PushPc} {link : Word}, (∀ head, pc' ≠ .swap head) →
          ∀ head, pc' = .swap head → link = alPointer head :=
        fun apart head swap => (apart head swap).elim
      cases pc with
      | load =>
          have proceeded : Linked (s.afterPush i e (atomicListPush e s.mem .load)) nodes :=
            linked.proceed here (s.mem.next e) (Function.update_eq_self _ _).symm rfl rfl
              (unswapped (by simp))
          exact ⟨nodes, proceeded, accounted.proceed here rfl rfl ⟨rfl, rfl, rfl⟩⟩
      | link head =>
          have proceeded : Linked (s.afterPush i e (atomicListPush e s.mem (.link head))) nodes :=
            linked.proceed here (alPointer head) rfl rfl rfl fun head' swap =>
              congrArg alPointer (PushPc.swap.inj swap)
          exact ⟨nodes, proceeded, accounted.proceed here rfl rfl ⟨rfl, rfl, rfl⟩⟩
      | swap head =>
          by_cases hit : s.mem.head = head
          · subst hit
            have effect : s.afterPush i e (atomicListPush e s.mem (.swap s.mem.head)) =
                { s with
                  mem := { s.mem with head := setPointerVersion e (alVersion s.mem.head) }
                  producer := Function.update s.producer i
                    (if alPointer s.mem.head = 0 then .acquire else .idle)
                  pushed := s.pushed ++ [e] } := by
              simp [atomicListPush, afterPush]
            have idle : ∀ e' pc,
                (if alPointer s.mem.head = 0 then ProducerPc.acquire else .idle) ≠ .push e' pc := by
              intro e' pc
              split <;> simp
            rw [effect]
            exact ⟨_, linked.finish here idle _, accounted.finish linked here idle⟩
          · have effect : s.afterPush i e (atomicListPush e s.mem (.swap head)) =
                { s with producer := Function.update s.producer i (.push e .load) } := by
              simp [atomicListPush, afterPush, hit]
            have proceeded : Linked
                { s with producer := Function.update s.producer i (.push e .load) } nodes :=
              linked.proceed here (s.mem.next e) (Function.update_eq_self _ _).symm rfl rfl
                (unswapped (by simp))
            rw [effect]
            exact ⟨nodes, proceeded, accounted.proceed here rfl rfl ⟨rfl, rfl, rfl⟩⟩
  | acquire | release =>
      exact Delivering.move linked accounted rfl rfl
        (fun pushing => (push_of_update_idle (by simp) pushing).2) ⟨rfl, rfl, rfl⟩
        accounted.drained
  | signal =>
      refine Delivering.move linked accounted rfl ?_
        (fun pushing => (push_of_update_idle (by simp) pushing).2) ⟨rfl, rfl, rfl⟩ ?_
      · funext k
        cases k with
        | transferred =>
            by_cases asleep : s.consumer = .asleep <;> simp [first, asleep]
        | external | collect | postponed => rfl
      · intro drained
        apply accounted.drained
        by_cases asleep : s.consumer = .asleep
        · simp [asleep, ConsumerPc.Drained]
        · simpa [asleep] using drained

omit [DecidableEq ι] in
/-- Between two points outside the transfer nothing changes for the queues. -/
theorem first_eq_of_outside (mem : s'.mem.head = s.mem.head) (collect : s'.collect = s.collect)
    (postponed : s'.postponed = s.postponed) (before : s.first .transferred = 0)
    (after : s'.first .transferred = 0) : s'.first = s.first := by
  funext k
  cases k with
  | external => simp [first, mem]
  | transferred => rw [before, after]
  | collect => exact collect
  | postponed => exact postponed

omit [DecidableEq ι] in
theorem DequeueStep.delivering (step : DequeueStep .mainLoop s s')
    (delivering : Delivering kind s) : Delivering kind s' := by
  obtain ⟨nodes, linked, accounted⟩ := delivering
  -- the event thread goes to another point outside the transfer, the collect queue still empty
  have move : ∀ {next : ConsumerPc} {lock : Option (Owner ι)}, s.consumer.Drained →
      s.first .transferred = 0 → (∀ e, next ≠ .transfer e) →
      Delivering kind { s with consumer := next, lock := lock } := by
    intro next lock drained before outside
    refine Delivering.move linked accounted rfl (first_eq_of_outside rfl rfl rfl before ?_) id
      ⟨rfl, rfl, rfl⟩ fun _ => accounted.drained drained
    cases next with
    | transfer e => exact (outside e rfl).elim
    | _ => rfl
  cases step with
  | acquire here | sleep here | wake here | reacquire here | release here =>
      exact move (by simp [here, ConsumerPc.Drained]) (by simp [first, here]) (by simp)
  | test here =>
      refine move (by simp [here, ConsumerPc.Drained]) (by simp [first, here]) fun e => ?_
      split <;> simp
  | @popall pc here =>
      have drained : s.consumer.Drained := by simp [here, ConsumerPc.Drained]
      have outside : s.first .transferred = 0 := by simp [first, here]
      cases pc with
      | load =>
          by_cases empty : alPointer s.mem.head = 0
          · have effect : s.afterPopall (atomicListPopall s.mem .load) =
                { s with consumer := .transfer 0 } := by
              simp [atomicListPopall, afterPopall, empty]
            rw [effect]
            exact Delivering.move linked accounted rfl
              (first_eq_of_outside rfl rfl rfl outside rfl) id ⟨rfl, rfl, rfl⟩ False.elim
          · have effect : s.afterPopall (atomicListPopall s.mem .load) =
                { s with consumer := .popall (.swap s.mem.head) } := by
              simp only [atomicListPopall, if_neg empty, afterPopall]
            rw [effect]
            exact move drained outside (by simp)
      | swap temp =>
          by_cases hit : s.mem.head = temp
          · subst hit
            have effect : s.afterPopall (atomicListPopall s.mem (.swap s.mem.head)) =
                { s with
                  mem := { s.mem with head := setPointerVersion 0 (alVersion s.mem.head + 1) }
                  consumer := .transfer (alPointer s.mem.head) } := by
              simp [atomicListPopall, afterPopall]
            have transferred := linked.transferred_eq_nil outside
            have collect := accounted.drained drained
            rw [effect]
            refine ⟨_, linked.takeAll outside _, ?_⟩
            refine ⟨?_, False.elim, accounted.postponed, accounted.nodup, accounted.begun,
              accounted.pushing⟩
            simp [inTransit, accounted.order, transferred, collect]
          · have effect : s.afterPopall (atomicListPopall s.mem (.swap temp)) =
                { s with consumer := .popall .load } := by
              simp [atomicListPopall, afterPopall, hit]
            rw [effect]
            exact move drained outside (by simp)
  | @transfer e here more =>
      obtain ⟨rest, split, linked'⟩ := linked.transferOne here more
      refine ⟨_, linked', ?_⟩
      refine ⟨?_, False.elim, accounted.postponed, accounted.nodup, accounted.begun,
        accounted.pushing⟩
      simp [collectqueueEnqueue_eq, inTransit, accounted.order, split]
  | done here =>
      exact Delivering.move linked accounted rfl
        (first_eq_of_outside rfl rfl rfl (by simp [first, here]) rfl) id ⟨rfl, rfl, rfl⟩
        False.elim

omit [DecidableEq ι] in
/-- `threadEventProcess` of the event just taken off a local queue. -/
theorem Delivering.process {nodes' : QueueName → List Word} {e : Word}
    (accounted : Accounted kind s nodes) (linked : Linked s' nodes') (scheduled : List Word)
    (shared : SameShared s s') (handled : s'.handled = s.handled)
    (outside : ¬ s.consumer.Drained) (ne_null : e ≠ 0) (free : ∀ k, e ∉ nodes' k)
    (quiet : Quiet s' e) (may : s'.MaySchedule kind e scheduled)
    (order : immediate kind (inTransit nodes) =
      immediate kind [e] ++ immediate kind (inTransit nodes'))
    (postponed : ∀ x ∈ nodes' .postponed, ¬ (kind x).Immediate) :
    Delivering kind (s'.threadEventProcess kind e scheduled) := by
  obtain ⟨after, linked_after, transit, local_only⟩ :=
    linked.process scheduled ne_null free quiet may
  have same := shared.trans (sameShared_process kind s' e scheduled)
  refine ⟨after, linked_after, ?_⟩
  constructor
  case order =>
    rw [same.pushed, handled_process, handled, accounted.order]
    simp only [immediate_append, order, transit, List.append_assoc]
  case drained =>
    rw [same.consumer]
    exact fun drained => (outside drained).elim
  case postponed => exact fun x member => (local_only x member).elim (postponed x) id
  case nodup => rw [same.pushed]; exact accounted.nodup
  case begun => rw [same.pushed, same.begun]; exact accounted.begun
  case pushing => rw [same.pushed, same.begun, same.producer]; exact accounted.pushing

omit [DecidableEq ι] in
theorem LoopStep.delivering (step : LoopStep kind s s') (delivering : Delivering kind s) :
    Delivering kind s' := by
  obtain ⟨nodes, linked, accounted⟩ := delivering
  have leaves : s.consumer = .drain → ¬ s.consumer.Drained := by
    intro here
    simp [here, ConsumerPc.Drained]
  -- an event of another type passes through the collect queue
  have passed : ∀ {e rest}, nodes .collect = e :: rest → ¬ (kind e).Immediate →
      immediate kind (s.handled ++ inTransit nodes) =
        immediate kind (s.handled ++ inTransit (Function.update nodes .collect rest)) := by
    intro e rest split other
    simp [inTransit, split, immediate_cons_of_other other]
  cases step with
  | drained here empty =>
      refine Delivering.move linked accounted rfl
        (first_eq_of_outside rfl rfl rfl (by simp [first, here]) rfl) id ⟨rfl, rfl, rfl⟩ fun _ => ?_
      exact (linked.chains.chain .collect).eq_null_iff.mp empty
  | idle here more idle =>
      obtain ⟨rest, split, popped, free, quiet⟩ :=
        linked.dequeue .collect more (first_collectqueueDequeue more)
          (congrArg (·.mem.next) (collectqueueDequeue_of_ne more)) rfl
      have enqueued := popped.enqueue .postponed more free quiet
        (first_localqEnqueue s.collectqueueDequeue s.collect) rfl rfl
      have other : ¬ (kind s.collect).Immediate := fun here => by simp [here.1] at idle
      refine ⟨_, enqueued, ?_, ?_, ?_, accounted.nodup, accounted.begun, accounted.pushing⟩
      · exact accounted.order.trans (passed split other)
      · exact fun drained => (leaves here drained).elim
      · intro x member
        rcases List.mem_cons.mp member with rfl | old
        · exact other
        · exact accounted.postponed x old
  | timed here more not_idle timed =>
      obtain ⟨rest, split, popped, -, -⟩ :=
        linked.dequeue .collect more (first_collectqueueDequeue more)
          (congrArg (·.mem.next) (collectqueueDequeue_of_ne more)) rfl
      have other : ¬ (kind s.collect).Immediate := fun here => absurd here.2.1 (not_le.mpr timed)
      refine ⟨_, popped, ?_, ?_, accounted.postponed, accounted.nodup, accounted.begun,
        accounted.pushing⟩
      · exact accounted.order.trans (passed split other)
      · exact fun drained => (leaves here drained).elim
  | process scheduled here more not_idle not_timed may =>
      obtain ⟨rest, split, popped, free, quiet⟩ :=
        linked.dequeue .collect more (first_collectqueueDequeue more)
          (congrArg (·.mem.next) (collectqueueDequeue_of_ne more)) rfl
      have transferred := linked.transferred_eq_nil (by simp [first, here])
      refine Delivering.process accounted popped scheduled ⟨rfl, rfl, rfl, rfl, rfl, rfl⟩ rfl
        (leaves here) more free quiet may ?_ accounted.postponed
      have top : s.first .collect = s.collect := rfl
      simp [inTransit, split, transferred, top, ← immediate_append]
  | check here =>
      have drained := accounted.drained (by simp [here, ConsumerPc.Drained])
      refine Delivering.move linked accounted rfl
        (first_eq_of_outside rfl rfl rfl (by simp [first, here]) ?_) id ⟨rfl, rfl, rfl⟩
        fun _ => drained
      by_cases empty : atomicListEmpty s.mem <;> simp [first, empty]
  | postponedDone here empty =>
      exact Delivering.move linked accounted rfl
        (first_eq_of_outside rfl rfl rfl (by simp [first, here]) rfl) id ⟨rfl, rfl, rfl⟩
        False.elim
  | postponed scheduled here more may =>
      obtain ⟨rest, split, popped, free, quiet⟩ :=
        linked.dequeue .postponed more (first_localqDequeue more)
          (congrArg (·.mem.next) (localqDequeue_of_ne more)) rfl
      have other : ¬ (kind s.postponed).Immediate :=
        accounted.postponed _ (by rw [split]; exact List.mem_cons_self)
      have remaining : ∀ x ∈ rest, ¬ (kind x).Immediate := fun x member =>
        accounted.postponed x (by rw [split]; exact List.mem_cons_of_mem _ member)
      refine Delivering.process accounted popped scheduled ⟨rfl, rfl, rfl, rfl, rfl, rfl⟩ rfl
        (by simp [here, ConsumerPc.Drained]) more free quiet may ?_ remaining
      rw [immediate_cons_of_other other]
      rfl

omit [DecidableEq ι] in
theorem delivering_initial {poll : Word} (caller : Caller) (next : Word → Word)
    (ne_null : poll ≠ 0) (other : ¬ (kind poll).Immediate) :
    Delivering kind ((emptyState caller next : State ι).localSchedule kind poll) := by
  have start : (emptyState caller next : State ι).first .transferred = 0 := by
    cases caller <;> rfl
  have idle : ∀ {i e pc}, (emptyState caller next : State ι).producer i ≠ .push e pc := by
    simp [emptyState]
  have empty : Linked (emptyState caller next : State ι) fun _ => [] := by
    refine ⟨⟨fun k => ?_, fun here => (List.not_mem_nil here).elim⟩,
      fun here => (idle here).elim, fun here => (idle here).elim⟩
    have first : (emptyState caller next : State ι).first k = 0 := by
      cases k with
      | external => exact alPointer_init next
      | transferred => exact start
      | collect | postponed => rfl
    rw [first]
    exact .nil
  by_cases timed : 0 < (kind poll).timeout
  · have skip : (emptyState caller next : State ι).localSchedule kind poll =
        emptyState caller next := by
      simp [localSchedule, timed]
    rw [skip]
    exact ⟨_, empty, rfl, fun _ => rfl, by simp, List.nodup_nil, by simp [emptyState],
      fun here => (idle here).elim⟩
  · have put : (emptyState caller next : State ι).localSchedule kind poll =
        (emptyState caller next).localqEnqueue poll := by
      simp [localSchedule, timed]
    rw [put]
    refine ⟨_, empty.enqueue .postponed ne_null (by simp) (fun i pc => idle)
      (first_localqEnqueue _ poll) rfl rfl, rfl, fun _ => rfl, ?_, List.nodup_nil,
      by simp [emptyState, localqEnqueue_eq], fun {i e pc} here => (idle (i := i) here).elim⟩
    intro x member
    rcases List.mem_cons.mp member with rfl | none
    · exact other
    · cases none

theorem delivering_isInvariant (kind : Word → EventKind) :
    (system kind .mainLoop).IsInvariant fun s : State ι => Delivering kind s where
  initial := by
    rintro s ⟨next, poll, ne_null, other, rfl⟩
    exact delivering_initial .mainLoop next ne_null other
  step := by
    intro s s' delivering step
    cases step with
    | producer i step => exact step.delivering delivering
    | dequeue step => exact step.delivering delivering
    | loop step => exact step.delivering delivering

/-- In every reachable state the links spell out where the events are: the immediate events handled
are the first ones pushed, in the order of their pushes, and each immediate event that was pushed is
in exactly one place. -/
theorem delivery_exactly_once_fifo (kind : Word → EventKind) (s : State ι)
    (reachable : (system kind .mainLoop).Reachable s) :
    ∃ nodes : QueueName → List Word, (∀ k, Chain 0 s.mem.next (s.first k) (nodes k)) ∧
      immediate kind s.handled <+: immediate kind s.pushed ∧ (immediate kind s.handled).Nodup ∧
      ∀ e ∈ s.pushed, (kind e).Immediate →
        (nodes .external).count e + (nodes .transferred).count e + (nodes .collect).count e +
          s.handled.count e = 1 := by
  obtain ⟨nodes, linked, accounted⟩ := (delivering_isInvariant kind).of_reachable reachable
  have nodup : (immediate kind s.pushed).Nodup := accounted.nodup.filter _
  have before : immediate kind s.handled <+: immediate kind s.pushed := by
    rw [accounted.order, immediate_append]
    exact List.prefix_append _ _
  refine ⟨nodes, linked.chains.chain, before, nodup.sublist before.sublist, ?_⟩
  intro e pushed here
  have count_immediate : ∀ events, (immediate kind events).count e = events.count e :=
    fun events => List.count_filter (decide_eq_true here)
  have counted := congrArg (List.count e) accounted.order
  rw [count_immediate, count_immediate, List.count_eq_one_of_mem accounted.nodup pushed] at counted
  simp only [inTransit, List.count_append, List.count_reverse] at counted
  omega

omit [DecidableEq ι] in
/-- A handler that schedules nothing. -/
theorem maySchedule_nil (kind : Word → EventKind) (s : State ι) (e : Word) :
    s.MaySchedule kind e [] :=
  ⟨List.nodup_nil, fun _ member => (List.not_mem_nil member).elim, fun _ => List.not_mem_nil⟩

/-- The poll event is idle, all others are immediate. -/
def pollIdle : Word → EventKind := fun e => ⟨decide (e = 1), 0, false⟩

/-- Two producers pushed an event each, which the event thread transferred, and a third producer is
about to push. -/
theorem exists_transferred : ∃ s : State (Fin 3), (system pollIdle .mainLoop).Reachable s ∧
    s.pushed = [16, 32] ∧ s.handled = [] ∧ s.consumer = .postponed ∧ s.postponed = 1 ∧
      s.mem.next 1#64 = 0 ∧ s.collect = 16 ∧ s.mem.next 16#64 = 32 ∧
        s.producer 2 = .push 48 .load := by
  have canonical₁ : Canonical 16#64 := canonical_of_lt (by decide)
  have canonical₂ : Canonical 32#64 := canonical_of_lt (by decide)
  have canonical₃ : Canonical 48#64 := canonical_of_lt (by decide)
  let start : State (Fin 3) := (emptyState .mainLoop fun _ => 0).localSchedule pollIdle 1
  have started : (system pollIdle .mainLoop).Reachable start :=
    TransitionSystem.reachable_of_initial ⟨fun _ => 0, 1, by decide, by decide, rfl⟩
  have free : ∀ {e : Word}, e ≠ 1 → start.Free e := free_start pollIdle .mainLoop _
  have empty : alPointer start.mem.head = 0 := alPointer_init _
  have awake : start.consumer ≠ .asleep := by decide
  have begun₁ := reachable_begin started (i := 0) (e := 16) rfl (by decide) canonical₁
    (by decide) (free (by decide))
  have begun₂ := reachable_begin begun₁ (i := 1) (e := 32) rfl (by decide) canonical₂
    (by decide) ((free (by decide)).begin (by decide))
  have begun₃ := reachable_begin begun₂ (i := 2) (e := 48) rfl (by decide) canonical₃
    (by decide) (((free (by decide)).begin (by decide)).begin (by decide))
  have pushed₁ := reachable_of_runsOn begun₃ (runsOn_pushedBy (i := 0) (e := 16) (by simp))
  have pushed₂ := reachable_of_runsOn pushed₁
    (runsOn_pushedBy (i := 1) (e := 32) (by simp [pushedBy]))
  have signalled := reachable_of_runsOn pushed₂
    (runsOn_signalled (i := 0) (by simp [pushedBy, empty]) rfl awake)
  -- the event thread finds the list not empty
  have drained := signalled.step (.loop (.drained rfl rfl))
  have checked := drained.step (.loop (.check rfl))
  have taken := reachable_takenAll checked
    (by simp [atomicListEmpty, pushedBy, canonical₂]) rfl (by simp [pushedBy, canonical₂])
  have first := taken.step (.dequeue (.transfer (e := 32)
    (by simp [takenAll, pushedBy, canonical₂]) (by decide)))
  have second := first.step (.dequeue (.transfer (e := 16)
    (by simp [takenAll, pushedBy, canonical₁, canonical₂]) (by decide)))
  have transferred := second.step (.dequeue (.done (by
    simp [takenAll, collectqueueEnqueue_eq, pushedBy, empty])))
  refine ⟨_, transferred, rfl, rfl, rfl, rfl, ?_, rfl, ?_, ?_⟩
  · simp [takenAll, collectqueueEnqueue_eq, pushedBy, start, emptyState, localSchedule,
      pollIdle, localqEnqueue_eq]
  · simp [collectqueueEnqueue_eq]
  · simp [takenAll, collectqueueEnqueue_eq, pushedBy]

/-- The older of two transferred events was handled after the poll event, and a third one was
pushed meanwhile. -/
theorem delivery_exactly_once_fifo_third :
    ∃ s : State (Fin 3), (system pollIdle .mainLoop).Reachable s ∧ s.pushed = [16, 32, 48] ∧
      s.handled = [1, 16] ∧ s.collect = 32 ∧ alPointer s.mem.head = 48 ∧
      ∃ nodes : QueueName → List Word, (∀ k, Chain 0 s.mem.next (s.first k) (nodes k)) ∧
        immediate pollIdle s.handled <+: immediate pollIdle s.pushed ∧
        (immediate pollIdle s.handled).Nodup ∧
        ∀ e ∈ s.pushed, (pollIdle e).Immediate →
          (nodes .external).count e + (nodes .transferred).count e + (nodes .collect).count e +
            s.handled.count e = 1 := by
  obtain ⟨s, reachable, pushed, handled, at_postponed, poll, alone, collect, next, pushing⟩ :=
    exists_transferred
  have canonical : Canonical 48#64 := canonical_of_lt (by decide)
  have queued : s.postponed ≠ 0 := by rw [poll]; decide
  have polled := reachable.step (.loop (.postponed [] at_postponed queued (maySchedule_nil ..)))
  simp only [localqDequeue_of_ne queued, poll, threadEventProcess, pollIdle, handled,
    List.foldl_nil, Bool.false_eq_true, if_false, List.nil_append] at polled
  have again := polled.step (.loop (.postponedDone at_postponed alone))
  have collected : s.collect ≠ 0 := by rw [collect]; decide
  have processed := again.step (.loop (.process [] rfl collected (by simp [pollIdle, collect])
    (by simp [pollIdle]) (maySchedule_nil ..)))
  rw [collectqueueDequeue_of_ne (by exact collected)] at processed
  have last := reachable_of_runsOn processed (runsOn_pushedBy (i := 2) (e := 48) (by
    simp [threadEventProcess, pollIdle, pushing]))
  refine ⟨_, last, ?_, ?_, ?_, ?_, delivery_exactly_once_fifo pollIdle _ last⟩
  · simp [pushedBy, threadEventProcess, pollIdle, pushed]
  · simp [pushedBy, threadEventProcess, pollIdle, collect]
  · simp [pushedBy, threadEventProcess, pollIdle, collect, next]
  · simp [pushedBy, canonical]

end Steps

end EventThread
end OstrichServer
