import OstrichServer.EventThread.ExternalQueue

/-!
# The links of an event thread

In every state the external list, the chain being transferred and the two local queues are
disjoint chains, and the events which producers are pushing are on none of them.  Each access to the
links keeps this, and says how the chains change.
-/

namespace OstrichServer
namespace EventThread

open AtomicList LinkedList State

variable {ι : Type} {s s' : State ι} {nodes nodes' : QueueName → List Word}

/-- An event which a producer is pushing. -/
structure Placed (s : State ι) (nodes : QueueName → List Word) (e : Word) (pc : PushPc) : Prop where
  ne_null : e ≠ 0
  canonical : Canonical e
  free : ∀ k, e ∉ nodes k
  linked : ∀ head, pc = .swap head → s.mem.next e = alPointer head

/-- The queues hold the listed events, and the events being pushed are apart from them. -/
structure Linked (s : State ι) (nodes : QueueName → List Word) : Prop where
  chains : DisjointChains 0 s.mem.next s.first nodes
  placed : ∀ {i e pc}, s.producer i = .push e pc → Placed s nodes e pc
  apart : ∀ {i j e pc pc'}, s.producer i = .push e pc → s.producer j = .push e pc' → i = j

/-- No producer is pushing the event. -/
def Quiet (s : State ι) (e : Word) : Prop := ∀ i pc, s.producer i ≠ .push e pc

/-- A push found after one producer moved is its own or an old one. -/
theorem push_of_update [DecidableEq ι] {producer : ι → ProducerPc} {i j : ι} {next : ProducerPc}
    {e : Word} {pc : PushPc} (pushing : Function.update producer i next j = .push e pc) :
    j = i ∧ next = .push e pc ∨ j ≠ i ∧ producer j = .push e pc := by
  by_cases same : j = i
  · subst same
    rw [Function.update_self] at pushing
    exact Or.inl ⟨rfl, pushing⟩
  · rw [Function.update_of_ne same] at pushing
    exact Or.inr ⟨same, pushing⟩

/-- A producer that went to a point outside a push pushes nothing. -/
theorem push_of_update_idle [DecidableEq ι] {producer : ι → ProducerPc} {i j : ι}
    {next : ProducerPc} {e : Word} {pc : PushPc} (idle : ∀ e' pc', next ≠ .push e' pc')
    (pushing : Function.update producer i next j = .push e pc) :
    j ≠ i ∧ producer j = .push e pc :=
  (push_of_update pushing).resolve_left fun own => idle _ _ own.2

/-! ## The first events after each access -/

theorem first_collectqueueEnqueue (s : State ι) (e : Word) :
    (s.collectqueueEnqueue e).first = Function.update s.first .collect e := by
  funext k
  cases k <;> rfl

theorem first_localqEnqueue (s : State ι) (e : Word) :
    (s.localqEnqueue e).first = Function.update s.first .postponed e := by
  funext k
  cases k <;> rfl

theorem first_collectqueueDequeue (more : s.collect ≠ 0) :
    s.collectqueueDequeue.first = Function.update s.first .collect (s.mem.next s.collect) := by
  rw [collectqueueDequeue_of_ne more]
  funext k
  cases k <;> rfl

theorem first_localqDequeue (more : s.postponed ≠ 0) :
    s.localqDequeue.first = Function.update s.first .postponed (s.mem.next s.postponed) := by
  rw [localqDequeue_of_ne more]
  funext k
  cases k <;> rfl

namespace Linked

variable (linked : Linked s nodes)
include linked

theorem quiet {k : QueueName} {e : Word} (member : e ∈ nodes k) : Quiet s e :=
  fun _ _ pushing => (linked.placed pushing).free k member

/-- The chain being transferred is empty outside the transfer. -/
theorem transferred_eq_nil (outside : s.first .transferred = 0) : nodes .transferred = [] :=
  (linked.chains.chain .transferred).eq_null_iff.mp outside

/-- The event thread changes its queues and leaves alone the events being pushed. -/
theorem transport (producer : s'.producer = s.producer)
    (chains : DisjointChains 0 s'.mem.next s'.first nodes')
    (kept : ∀ i e pc, s.producer i = .push e pc →
      s'.mem.next e = s.mem.next e ∧ ∀ k, e ∉ nodes' k) : Linked s' nodes' where
  chains := chains
  placed := by
    intro i e pc pushing
    rw [producer] at pushing
    obtain ⟨next, free⟩ := kept i e pc pushing
    have placed := linked.placed pushing
    exact ⟨placed.ne_null, placed.canonical, free,
      fun head swap => next.trans (placed.linked head swap)⟩
  apart := by
    rw [producer]
    exact linked.apart

/-- Nothing happens to the links. -/
theorem unlinked (mem : s'.mem.next = s.mem.next) (first : s'.first = s.first)
    (pushing : ∀ {i e pc}, s'.producer i = .push e pc → s.producer i = .push e pc) :
    Linked s' nodes where
  chains := by
    rw [mem, first]
    exact linked.chains
  placed := by
    intro i e pc here
    have placed := linked.placed (pushing here)
    refine ⟨placed.ne_null, placed.canonical, placed.free, ?_⟩
    rw [mem]
    exact placed.linked
  apart here there := linked.apart (pushing here) (pushing there)

/-- An event on no queue is put in front of one. -/
theorem enqueue (k : QueueName) {e : Word} (ne_null : e ≠ 0) (free : ∀ k, e ∉ nodes k)
    (quiet : Quiet s e) (first : s'.first = Function.update s.first k e)
    (mem : s'.mem.next = Function.update s.mem.next e (s.first k))
    (producer : s'.producer = s.producer) :
    Linked s' (Function.update nodes k (e :: nodes k)) := by
  refine linked.transport producer ?_ fun i e' pc pushing => ?_
  · rw [mem, first]
    exact linked.chains.push k ne_null free
  · have distinct : e' ≠ e := by
      rintro rfl
      exact quiet i pc pushing
    refine ⟨by rw [mem, Function.update_of_ne distinct], fun k' member => ?_⟩
    by_cases same : k' = k
    · subst same
      rw [Function.update_self] at member
      rcases List.mem_cons.mp member with here | old
      · exact distinct here
      · exact (linked.placed pushing).free k' old
    · rw [Function.update_of_ne same] at member
      exact (linked.placed pushing).free k' member

/-- The first event of a queue is taken off it and its link is cleared. -/
theorem dequeue (k : QueueName) (more : s.first k ≠ 0)
    (first : s'.first = Function.update s.first k (s.mem.next (s.first k)))
    (mem : s'.mem.next = Function.update s.mem.next (s.first k) 0)
    (producer : s'.producer = s.producer) :
    ∃ rest, nodes k = s.first k :: rest ∧ Linked s' (Function.update nodes k rest) ∧
      (∀ k', s.first k ∉ Function.update nodes k rest k') ∧ Quiet s' (s.first k) := by
  obtain ⟨rest, split, chains, free⟩ := linked.chains.pop k more
  have member : s.first k ∈ nodes k := by simp [split]
  have quiet : Quiet s (s.first k) := linked.quiet member
  refine ⟨rest, split, linked.transport producer ?_ fun i e pc pushing => ?_, free, ?_⟩
  · rw [mem, first]
    exact chains.write free 0
  · have distinct : e ≠ s.first k := fun same => quiet i pc (same ▸ pushing)
    refine ⟨by rw [mem, Function.update_of_ne distinct], fun k' member => ?_⟩
    by_cases same : k' = k
    · subst same
      rw [Function.update_self] at member
      refine (linked.placed pushing).free k' ?_
      rw [split]
      exact List.mem_cons_of_mem _ member
    · rw [Function.update_of_ne same] at member
      exact (linked.placed pushing).free k' member
  · intro i pc
    rw [producer]
    exact quiet i pc

/-- The first event of the chain taken from the external list goes to the collect queue. -/
theorem transferOne {e : Word} (here : s.consumer = .transfer e) (more : e ≠ 0) :
    ∃ rest, nodes .transferred = e :: rest ∧
      Linked { s.collectqueueEnqueue e with consumer := .transfer (s.mem.next e) }
        (Function.update (Function.update nodes .transferred rest) .collect
          (e :: nodes .collect)) := by
  have top : s.first .transferred = e := by simp [first, here]
  obtain ⟨rest, split, chains, free⟩ := linked.chains.pop .transferred (top.trans_ne more)
  rw [top] at split chains free
  have quiet : Quiet s e := linked.quiet (k := .transferred) (by simp [split])
  have pushed := chains.push .collect more free
  rw [Function.update_of_ne (by decide), Function.update_of_ne (by decide)] at pushed
  refine ⟨rest, split, linked.transport rfl ?_ fun i e' pc pushing => ?_⟩
  · have firsts : first { s.collectqueueEnqueue e with consumer := .transfer (s.mem.next e) } =
        Function.update (Function.update s.first .transferred (s.mem.next e)) .collect e := by
      funext k
      cases k <;> rfl
    rw [firsts]
    exact pushed
  · have distinct : e' ≠ e := by
      rintro rfl
      exact quiet i pc pushing
    have outside := (linked.placed pushing).free
    refine ⟨Function.update_of_ne distinct _ _, fun k => ?_⟩
    have transferred := outside .transferred
    have collect := outside .collect
    rw [split] at transferred
    cases k with
    | external => exact outside .external
    | postponed => exact outside .postponed
    | transferred => exact fun member => transferred (List.mem_cons_of_mem _ member)
    | collect => exact fun member => (List.mem_cons.mp member).elim distinct collect

/-- The external list becomes the chain to transfer. -/
theorem takeAll (outside : s.first .transferred = 0) (version : Word) :
    Linked
      { s with
        mem := { s.mem with head := setPointerVersion 0 version }
        consumer := .transfer (alPointer s.mem.head) }
      (Function.update (Function.update nodes .external []) .transferred (nodes .external)) := by
  have empty := linked.transferred_eq_nil outside
  refine linked.transport rfl ?_ fun i e pc pushing => ⟨rfl, fun k => ?_⟩
  · have firsts : first
        { s with
          mem := { s.mem with head := setPointerVersion 0 version }
          consumer := .transfer (alPointer s.mem.head) } =
        Function.update (Function.update s.first .external 0) .transferred
          (s.first .external) := by
      funext k
      cases k with
      | external => exact alPointer_setPointerVersion canonical_zero version
      | transferred | collect | postponed => rfl
    rw [firsts]
    exact linked.chains.handOver (by decide) empty
  · have outside := (linked.placed pushing).free
    cases k with
    | external => exact List.not_mem_nil
    | transferred => exact outside .external
    | collect => exact outside .collect
    | postponed => exact outside .postponed

variable [DecidableEq ι]

/-- A producer starts to push an event on no queue. -/
theorem begin (i : ι) {e : Word} (ne_null : e ≠ 0) (canonical : Canonical e)
    (free : ∀ k, e ∉ nodes k) (quiet : Quiet s e) (mem : s'.mem.next = s.mem.next)
    (first : s'.first = s.first)
    (producer : s'.producer = Function.update s.producer i (.push e .load)) :
    Linked s' nodes := by
  have source : ∀ {j e' pc}, s'.producer j = .push e' pc →
      j = i ∧ e' = e ∧ pc = .load ∨ j ≠ i ∧ s.producer j = .push e' pc := by
    intro j e' pc pushing
    rw [producer] at pushing
    rcases push_of_update pushing with ⟨same, own⟩ | old
    · cases own
      exact Or.inl ⟨same, rfl, rfl⟩
    · exact Or.inr old
  refine ⟨by rw [mem, first]; exact linked.chains, ?_, ?_⟩
  · intro j e' pc pushing
    rcases source pushing with ⟨rfl, rfl, rfl⟩ | ⟨-, old⟩
    · exact ⟨ne_null, canonical, free, fun head swap => by cases swap⟩
    · have placed := linked.placed old
      refine ⟨placed.ne_null, placed.canonical, placed.free, ?_⟩
      rw [mem]
      exact placed.linked
  · intro j j' e' pc pc' here there
    rcases source here with ⟨rfl, rfl, -⟩ | ⟨-, old⟩
    · rcases source there with ⟨rfl, -, -⟩ | ⟨-, old'⟩
      · rfl
      · exact (quiet _ _ old').elim
    · rcases source there with ⟨rfl, rfl, -⟩ | ⟨-, old'⟩
      · exact (quiet _ _ old).elim
      · exact linked.apart old old'

/-- A producer goes on pushing its event, and perhaps writes the event's link. -/
theorem proceed {i : ι} {e : Word} {pc pc' : PushPc} (here : s.producer i = .push e pc)
    (link : Word) (mem : s'.mem.next = Function.update s.mem.next e link)
    (first : s'.first = s.first)
    (producer : s'.producer = Function.update s.producer i (.push e pc'))
    (linked_at : ∀ head, pc' = .swap head → link = alPointer head) : Linked s' nodes := by
  have own := linked.placed here
  have source : ∀ {j e' pc''}, s'.producer j = .push e' pc'' →
      j = i ∧ e' = e ∧ pc'' = pc' ∨ e' ≠ e ∧ s.producer j = .push e' pc'' := by
    intro j e' pc'' pushing
    rw [producer] at pushing
    rcases push_of_update pushing with ⟨same, own⟩ | ⟨distinct, old⟩
    · cases own
      exact Or.inl ⟨same, rfl, rfl⟩
    · refine Or.inr ⟨?_, old⟩
      rintro rfl
      exact distinct (linked.apart old here)
  refine ⟨?_, ?_, ?_⟩
  · rw [mem, first]
    exact linked.chains.write own.free link
  · intro j e' pc'' pushing
    rcases source pushing with ⟨rfl, rfl, rfl⟩ | ⟨distinct, old⟩
    · refine ⟨own.ne_null, own.canonical, own.free, fun head swap => ?_⟩
      rw [mem, Function.update_self]
      exact linked_at head swap
    · have placed := linked.placed old
      refine ⟨placed.ne_null, placed.canonical, placed.free, ?_⟩
      rw [mem, Function.update_of_ne distinct]
      exact placed.linked
  · intro j j' e' pc₁ pc₂ left right
    rcases source left with ⟨rfl, rfl, -⟩ | ⟨distinct, old⟩
    · rcases source right with ⟨rfl, -, -⟩ | ⟨distinct, -⟩
      · rfl
      · exact (distinct rfl).elim
    · rcases source right with ⟨-, same, -⟩ | ⟨-, old'⟩
      · exact (distinct same).elim
      · exact linked.apart old old'

/-- A producer's push takes effect. -/
theorem finish {i : ι} {e : Word} {next : ProducerPc}
    (here : s.producer i = .push e (.swap s.mem.head)) (idle : ∀ e' pc, next ≠ .push e' pc)
    (pushed : List Word) :
    Linked
      { s with
        mem := { s.mem with head := setPointerVersion e (alVersion s.mem.head) }
        producer := Function.update s.producer i next
        pushed := pushed }
      (Function.update nodes .external (e :: nodes .external)) := by
  have own := linked.placed here
  have source : ∀ {j e' pc}, Function.update s.producer i next j = .push e' pc →
      e' ≠ e ∧ s.producer j = .push e' pc := by
    intro j e' pc pushing
    obtain ⟨distinct, old⟩ := push_of_update_idle idle pushing
    refine ⟨?_, old⟩
    rintro rfl
    exact distinct (linked.apart old here)
  refine ⟨?_, ?_, ?_⟩
  · have firsts : first
        { s with
          mem := { s.mem with head := setPointerVersion e (alVersion s.mem.head) }
          producer := Function.update s.producer i next
          pushed := pushed } = Function.update s.first .external e := by
      funext k
      cases k with
      | external => exact alPointer_setPointerVersion own.canonical _
      | transferred | collect | postponed => rfl
    have links : Function.update s.mem.next e (s.first .external) = s.mem.next := by
      rw [State.first, ← own.linked _ rfl, Function.update_eq_self]
    rw [firsts]
    have pushed := linked.chains.push .external own.ne_null own.free
    rwa [links] at pushed
  · intro j e' pc pushing
    obtain ⟨distinct, old⟩ := source pushing
    have placed := linked.placed old
    refine ⟨placed.ne_null, placed.canonical, fun k member => ?_, placed.linked⟩
    cases k with
    | external => exact (List.mem_cons.mp member).elim distinct (placed.free .external)
    | transferred => exact placed.free .transferred member
    | collect => exact placed.free .collect member
    | postponed => exact placed.free .postponed member
  · exact fun left right => linked.apart (source left).2 (source right).2

end Linked

end EventThread
end OstrichServer
