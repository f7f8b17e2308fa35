import OstrichServer.AtomicList.Threads

/-!
# What is pushed is removed once

A head carries the number of removals modulo 2^16.  While no removal takes effect, the nodes on the
list stay there with their links, so a pop that swaps the head it read finds the next node it read.
-/

namespace OstrichServer
namespace AtomicList

open LinkedList Machine

variable {ι : Type} {s s' : Machine ι} {nodes nodes' : List Word}

/-- The records of a node never show two removals without a push in between. -/
def Alternating (records : List Record) : Prop :=
  records.IsChain fun later earlier => ¬ (later = .removed ∧ earlier = .removed)

/-- Nothing is lost or duplicated: the links from the head meet every node pushed and not removed
since, once, and between two removals of a node there is a push of it. -/
structure Intact (s : Machine ι) : Prop where
  once : ∃ nodes, Chain 0 s.mem.next (alPointer s.mem.head) nodes ∧
    ∀ e, s.Present e → nodes.count e = 1
  alternating : ∀ e, Alternating (s.records e)

/-! ## The invariant -/

/-- The list holds the listed nodes. -/
structure ListHolds (s : Machine ι) (nodes : List Word) : Prop where
  chain : Chain 0 s.mem.next (alPointer s.mem.head) nodes
  canonical : ∀ e ∈ nodes, Canonical e
  present : ∀ e, s.Present e ↔ e ∈ nodes
  alternating : ∀ e, Alternating (s.records e)
  version : version s.mem.head = BitVec.ofNat 16 s.removals

/-- What a pop read of the head is on the list unless a removal took effect since. -/
structure Read (s : Machine ι) (nodes : List Word) (loaded : Nat) (temp : Word) : Prop where
  version : version temp = BitVec.ofNat 16 loaded
  member : s.removals = loaded → alPointer temp ∈ nodes

/-- What the local variables of a thread say about the list. -/
def ThreadOk (s : Machine ι) (nodes : List Word) (loaded : Nat) : ThreadPc → Prop
  | .push e pc =>
      e ≠ 0 ∧ Canonical e ∧ e ∉ nodes ∧ ∀ head, pc = .swap head → s.mem.next e = alPointer head
  | .pop (.follow temp) => Read s nodes loaded temp
  | .pop (.swap temp next) =>
      Read s nodes loaded temp ∧ ∃ link, next = setPointerVersion link (alVersion temp + 1) ∧
        (s.removals = loaded → link = s.mem.next (alPointer temp))
  | .pop (.clear temp) => alPointer temp ∉ nodes
  | .idle | .pop .load | .popall _ => True

/-- The list holds the listed nodes and no thread is mistaken about it. -/
structure Invariant (s : Machine ι) (nodes : List Word) : Prop where
  list : ListHolds s nodes
  thread : ∀ i, ThreadOk s nodes (s.loaded i) (s.thread i)
  apart : ∀ {i j e}, (s.thread i).Holds e → (s.thread j).Holds e → i = j
  loaded_le : ∀ i, s.loaded i ≤ s.removals

theorem ThreadOk.notMem {loaded : Nat} {pc : ThreadPc} {e : Word}
    (ok : ThreadOk s nodes loaded pc) (holds : pc.Holds e) : e ∉ nodes := by
  cases pc with
  | idle | popall => cases holds
  | push e' pc =>
      obtain rfl : e' = e := holds
      exact ok.2.2.1
  | pop pc =>
      cases pc with
      | load | follow | swap => cases holds
      | clear temp =>
          obtain rfl : alPointer temp = e := holds
          exact ok

/-- A thread is not mistaken after a step of another one which leaves its node alone and, unless it
is a removal, the nodes on the list too. -/
theorem ThreadOk.keep {loaded : Nat} {pc : ThreadPc} (ok : ThreadOk s nodes loaded pc)
    (held : ∀ e, pc.Holds e → e ∉ nodes' ∧ s'.mem.next e = s.mem.next e)
    (kept : s'.removals = s.removals ∧
        (∀ e ∈ nodes, e ∈ nodes' ∧ s'.mem.next e = s.mem.next e) ∨ loaded < s'.removals) :
    ThreadOk s' nodes' loaded pc := by
  have read : ∀ {temp}, Read s nodes loaded temp → Read s' nodes' loaded temp := by
    intro temp read
    refine ⟨read.version, fun fresh => ?_⟩
    rcases kept with ⟨removals, kept⟩ | later
    · exact (kept _ (read.member (removals ▸ fresh))).1
    · omega
  cases pc with
  | idle | popall => trivial
  | push e pc =>
      obtain ⟨not_null, canonical, -, linked⟩ := ok
      obtain ⟨outside, next⟩ := held e rfl
      exact ⟨not_null, canonical, outside, fun head swap => next.trans (linked head swap)⟩
  | pop pc =>
      cases pc with
      | load => trivial
      | follow temp => exact read ok
      | swap temp next =>
          obtain ⟨loaded_at, link, packed, linked⟩ := ok
          refine ⟨read loaded_at, link, packed, fun fresh => ?_⟩
          rcases kept with ⟨removals, kept⟩ | later
          · have fresh' : s.removals = loaded := removals ▸ fresh
            rw [linked fresh', (kept _ (loaded_at.member fresh')).2]
          · omega
      | clear temp => exact (held _ rfl).1

/-! ## The list after an access -/

/-- A link of a node off the list is written. -/
theorem ListHolds.write (list : ListHolds s nodes) {e : Word} (outside : e ∉ nodes) (link : Word)
    (head : s'.mem.head = s.mem.head) (next : s'.mem.next = Function.update s.mem.next e link)
    (records : s'.records = s.records) (removals : s'.removals = s.removals) :
    ListHolds s' nodes := by
  refine ⟨?_, list.canonical, fun e => ?_, ?_, ?_⟩
  · rw [head, next]
    exact list.chain.update_of_notMem outside link
  · rw [Present, records]
    exact list.present e
  · rw [records]
    exact list.alternating
  · rw [head, removals]
    exact list.version

/-- Nothing the list depends on changes. -/
theorem ListHolds.same (list : ListHolds s nodes) (mem : s'.mem = s.mem)
    (records : s'.records = s.records) (removals : s'.removals = s.removals) :
    ListHolds s' nodes := by
  refine ⟨by rw [mem]; exact list.chain, list.canonical, fun e => ?_, ?_, ?_⟩
  · rw [Present, records]
    exact list.present e
  · rw [records]
    exact list.alternating
  · rw [mem, removals]
    exact list.version

theorem alternating_push {records : List Record} (before : Alternating records) :
    Alternating (.pushed :: records) := by
  cases records with
  | nil => exact List.IsChain.singleton _
  | cons r records => exact List.IsChain.cons_cons (by simp) before

theorem alternating_remove {records : List Record} (before : Alternating records)
    (pushed : records.head? = some .pushed) : Alternating (.removed :: records) := by
  cases records with
  | nil => exact List.IsChain.singleton _
  | cons r records =>
      obtain rfl : r = .pushed := by simpa using pushed
      exact List.IsChain.cons_cons (by simp) before

/-- A push takes effect. -/
theorem ListHolds.push (list : ListHolds s nodes) {e : Word} (not_null : e ≠ 0)
    (canonical : Canonical e) (outside : e ∉ nodes)
    (linked : s.mem.next e = alPointer s.mem.head)
    (mem : s'.mem = { s.mem with head := setPointerVersion e (alVersion s.mem.head) })
    (records : s'.records = Function.update s.records e (.pushed :: s.records e))
    (removals : s'.removals = s.removals) : ListHolds s' (e :: nodes) := by
  constructor
  case chain =>
    rw [mem, alPointer_setPointerVersion canonical]
    exact .cons not_null (linked ▸ list.chain)
  case canonical =>
    intro x member
    rcases List.mem_cons.mp member with rfl | old
    · exact canonical
    · exact list.canonical x old
  case present =>
    intro x
    by_cases same : x = e
    · subst same
      simp [Present, records]
    · rw [Present, records, Function.update_of_ne same, List.mem_cons]
      exact (list.present x).trans (by simp [same])
  case alternating =>
    intro x
    by_cases same : x = e
    · subst same
      rw [records, Function.update_self]
      exact alternating_push (list.alternating x)
    · rw [records, Function.update_of_ne same]
      exact list.alternating x
  case version => rw [mem, version_pushed, removals, list.version]

/-- A removal of the first node takes effect. -/
theorem ListHolds.pop {first : Word} {rest : List Word} (list : ListHolds s (first :: rest))
    (mem : s'.mem = { s.mem with
      head := setPointerVersion (s.mem.next first) (alVersion s.mem.head + 1) })
    (records : s'.records = Function.update s.records first (.removed :: s.records first))
    (removals : s'.removals = s.removals + 1) : ListHolds s' rest := by
  obtain ⟨-, tail⟩ := list.chain.of_cons
  have canonical : ∀ e ∈ rest, Canonical e :=
    fun e member => list.canonical e (List.mem_cons_of_mem _ member)
  have next_canonical : Canonical (s.mem.next first) := by
    rcases tail.eq_null_or_mem with null | member
    · rw [null]
      exact canonical_zero
    · exact canonical _ member
  have fresh : first ∉ rest := (List.nodup_cons.mp list.chain.nodup).1
  constructor
  case chain =>
    rw [mem, alPointer_setPointerVersion next_canonical]
    exact tail
  case canonical => exact canonical
  case present =>
    intro x
    by_cases same : x = first
    · subst same
      simp [Present, records, fresh]
    · rw [Present, records, Function.update_of_ne same]
      exact (list.present x).trans (by simp [same])
  case alternating =>
    intro x
    by_cases same : x = first
    · subst same
      rw [records, Function.update_self]
      exact alternating_remove (list.alternating x) ((list.present x).mpr List.mem_cons_self)
    · rw [records, Function.update_of_ne same]
      exact list.alternating x
  case version =>
    rw [mem, version_removed, removals, list.version]
    exact (BitVec.ofNat_add s.removals 1).symm

/-- A removal of every node takes effect. -/
theorem ListHolds.popall (list : ListHolds s nodes)
    (mem : s'.mem = { s.mem with head := setPointerVersion 0 (alVersion s.mem.head + 1) })
    (taken : ∀ e, Meets 0 s.mem.next (alPointer s.mem.head) e →
      s'.records e = .removed :: s.records e)
    (left : ∀ e, ¬ Meets 0 s.mem.next (alPointer s.mem.head) e → s'.records e = s.records e)
    (removals : s'.removals = s.removals + 1) : ListHolds s' [] := by
  constructor
  case chain =>
    rw [mem, alPointer_setPointerVersion canonical_zero]
    exact .nil
  case canonical => simp
  case present =>
    intro x
    by_cases member : x ∈ nodes
    · simp [Present, taken x (list.chain.meets_iff.mpr member)]
    · have absent : ¬ s.Present x := fun here => member ((list.present x).mp here)
      rw [Present, left x fun meets => member (list.chain.meets_iff.mp meets)]
      simpa [Present] using absent
  case alternating =>
    intro x
    by_cases member : x ∈ nodes
    · rw [taken x (list.chain.meets_iff.mpr member)]
      exact alternating_remove (list.alternating x) ((list.present x).mpr member)
    · rw [left x fun meets => member (list.chain.meets_iff.mp meets)]
      exact list.alternating x
  case version =>
    rw [mem, version_removed, removals, list.version]
    exact (BitVec.ofNat_add s.removals 1).symm

/-! ## The steps -/

section Steps

variable [DecidableEq ι] {i : ι}

/-- One thread moved and the others are not mistaken. -/
theorem Invariant.move {next : ThreadPc} (invariant : Invariant s nodes)
    (thread : s'.thread = Function.update s.thread i next) (list : ListHolds s' nodes')
    (own : ThreadOk s' nodes' (s'.loaded i) next)
    (others : ∀ j, j ≠ i → ThreadOk s' nodes' (s.loaded j) (s.thread j))
    (held : ∀ e, next.Holds e → ∀ j, j ≠ i → ¬ (s.thread j).Holds e)
    (loaded : ∀ j, j ≠ i → s'.loaded j = s.loaded j) (loaded_own : s'.loaded i ≤ s'.removals)
    (removals : s.removals ≤ s'.removals) : Invariant s' nodes' where
  list := list
  thread := by
    intro j
    by_cases same : j = i
    · subst same
      rw [thread, Function.update_self]
      exact own
    · rw [thread, Function.update_of_ne same, loaded j same]
      exact others j same
  apart := by
    intro j k e here there
    rw [thread] at here there
    by_cases left : j = i
    · by_cases right : k = i
      · rw [left, right]
      · subst left
        rw [Function.update_self] at here
        rw [Function.update_of_ne right] at there
        exact (held e here k right there).elim
    · rw [Function.update_of_ne left] at here
      by_cases right : k = i
      · subst right
        rw [Function.update_self] at there
        exact (held e there j left here).elim
      · rw [Function.update_of_ne right] at there
        exact invariant.apart here there
  loaded_le := by
    intro j
    by_cases same : j = i
    · rw [same]
      exact loaded_own
    · rw [loaded j same]
      exact (invariant.loaded_le j).trans removals

/-- One thread moved and nothing the others depend on changed. -/
theorem Invariant.stay {next : ThreadPc} (invariant : Invariant s nodes)
    (thread : s'.thread = Function.update s.thread i next) (mem : s'.mem = s.mem)
    (records : s'.records = s.records) (removals : s'.removals = s.removals)
    (loaded : ∀ j, j ≠ i → s'.loaded j = s.loaded j) (loaded_own : s'.loaded i ≤ s.removals)
    (own : ThreadOk s' nodes (s'.loaded i) next)
    (held : ∀ e, next.Holds e → ∀ j, j ≠ i → ¬ (s.thread j).Holds e) : Invariant s' nodes := by
  refine invariant.move thread (invariant.list.same mem records removals) own (fun j _ => ?_) held
    loaded (by rw [removals]; exact loaded_own) removals.ge
  have next_same : ∀ e, s'.mem.next e = s.mem.next e := fun e => by rw [mem]
  refine (invariant.thread j).keep (fun e holds => ⟨?_, next_same e⟩)
    (Or.inl ⟨removals, fun e member => ⟨member, next_same e⟩⟩)
  exact (invariant.thread j).notMem holds

/-- One thread moved and nothing else changed. -/
theorem Invariant.turn {next : ThreadPc} (invariant : Invariant s nodes)
    (own : ThreadOk s nodes (s.loaded i) next)
    (held : ∀ e, next.Holds e → ∀ j, j ≠ i → ¬ (s.thread j).Holds e) :
    Invariant { s with thread := Function.update s.thread i next } nodes := by
  refine invariant.stay rfl rfl rfl rfl (fun _ _ => rfl) (invariant.loaded_le i) ?_ held
  cases next with
  | idle | push | popall => exact own
  | pop pc =>
      cases pc with
      | load | clear => exact own
      | follow => exact ⟨own.version, own.member⟩
      | swap => exact ⟨⟨own.1.version, own.1.member⟩, own.2⟩

/-- One thread wrote the link of a node off the list that no other thread holds. -/
theorem Invariant.write {next : ThreadPc} (invariant : Invariant s nodes) {e : Word}
    (outside : e ∉ nodes) (mine : ∀ j, j ≠ i → ¬ (s.thread j).Holds e) (link : Word)
    (thread : s'.thread = Function.update s.thread i next) (head : s'.mem.head = s.mem.head)
    (links : s'.mem.next = Function.update s.mem.next e link) (records : s'.records = s.records)
    (removals : s'.removals = s.removals) (loaded : s'.loaded = s.loaded)
    (own : ThreadOk s' nodes (s'.loaded i) next)
    (held : ∀ e, next.Holds e → ∀ j, j ≠ i → ¬ (s.thread j).Holds e) : Invariant s' nodes := by
  refine invariant.move thread (invariant.list.write outside link head links records removals) own
    (fun j other => ?_) held (fun j _ => by rw [loaded])
    (by rw [loaded, removals]; exact invariant.loaded_le i) removals.ge
  have next_same : ∀ e', e' ≠ e → s'.mem.next e' = s.mem.next e' := by
    intro e' distinct
    rw [links, Function.update_of_ne distinct]
  refine (invariant.thread j).keep (fun e' holds => ⟨(invariant.thread j).notMem holds, ?_⟩)
    (Or.inl ⟨removals, fun e' member => ⟨member, next_same e' ?_⟩⟩)
  · refine next_same e' ?_
    rintro rfl
    exact mine j other holds
  · rintro rfl
    exact outside member

/-- A removal took effect: nothing another thread read is trusted any more. -/
theorem Invariant.removal {next : ThreadPc} (invariant : Invariant s nodes)
    (thread : s'.thread = Function.update s.thread i next) (list : ListHolds s' nodes')
    (less : ∀ e ∈ nodes', e ∈ nodes) (links : s'.mem.next = s.mem.next)
    (removals : s'.removals = s.removals + 1) (loaded : s'.loaded = s.loaded)
    (own : ThreadOk s' nodes' (s'.loaded i) next)
    (held : ∀ e, next.Holds e → ∀ j, j ≠ i → ¬ (s.thread j).Holds e) : Invariant s' nodes' := by
  have later : ∀ j, s.loaded j < s'.removals := fun j => by
    have before := invariant.loaded_le j
    omega
  refine invariant.move thread list own (fun j _ => ?_) held (fun j _ => by rw [loaded])
    (by rw [loaded]; exact (later i).le) (by omega)
  refine (invariant.thread j).keep (fun e holds => ⟨fun member => ?_, by rw [links]⟩)
    (Or.inr (later j))
  exact (invariant.thread j).notMem holds (less e member)

omit [DecidableEq ι] in
/-- A pop that swaps the head it read in time swaps the head it meant. -/
theorem Invariant.fresh (invariant : Invariant s nodes) {temp next : Word}
    (here : s.thread i = .pop (.swap temp next)) (hit : s.mem.head = temp)
    (timely : Timely i s) : s.removals = s.loaded i := by
  have ok := invariant.thread i
  rw [here] at ok
  by_contra stale
  refine timely temp next here hit stale ?_
  have versions : BitVec.ofNat 16 s.removals = BitVec.ofNat 16 (s.loaded i) := by
    rw [← invariant.list.version, hit, ok.1.version]
  have values := congrArg BitVec.toNat versions
  simpa [Nat.ModEq] using values

omit [DecidableEq ι] in
/-- What a thread holds no other thread holds. -/
theorem Invariant.mine (invariant : Invariant s nodes) {pc : ThreadPc} (here : s.thread i = pc) :
    ∀ e, pc.Holds e → ∀ j, j ≠ i → ¬ (s.thread j).Holds e :=
  fun _ holds _ other holds' => other (invariant.apart holds' (here ▸ holds))

omit [DecidableEq ι] in
theorem none_held : ∀ e, ThreadPc.idle.Holds e → ∀ j, j ≠ i → ¬ (s.thread j).Holds e :=
  fun _ holds => holds.elim

/-- A thread's push takes effect. -/
theorem Invariant.pushed (invariant : Invariant s nodes) {e : Word}
    (here : s.thread i = .push e (.swap s.mem.head)) :
    Invariant
      { s.note e .pushed with
        mem := { s.mem with head := setPointerVersion e (alVersion s.mem.head) }
        thread := Function.update s.thread i .idle } (e :: nodes) := by
  have ok := invariant.thread i
  rw [here] at ok
  obtain ⟨not_null, canonical, outside, linked⟩ := ok
  refine invariant.move rfl
    (invariant.list.push not_null canonical outside (linked s.mem.head rfl) rfl rfl rfl) trivial
    (fun j other => ?_) none_held (fun _ _ => rfl) (invariant.loaded_le i) le_rfl
  refine (invariant.thread j).keep (fun e' holds => ⟨fun member => ?_, rfl⟩)
    (Or.inl ⟨rfl, fun e' member => ⟨List.mem_cons_of_mem _ member, rfl⟩⟩)
  rcases List.mem_cons.mp member with rfl | old
  · exact invariant.mine here e' rfl j other holds
  · exact (invariant.thread j).notMem holds old

theorem ThreadStep.invariant (step : ThreadStep i s s') (timely : Timely i s)
    (invariant : Invariant s nodes) : ∃ nodes', Invariant s' nodes' := by
  have ok := invariant.thread i
  cases step with
  | beginPush e here not_null canonical free =>
      refine ⟨nodes, invariant.turn
        ⟨not_null, canonical, fun member => free.1 ((invariant.list.present e).mpr member), ?_⟩ ?_⟩
      · simp
      · rintro e' rfl j -
        exact free.2 j
  | beginPop here | beginPopall here =>
      exact ⟨nodes, invariant.turn trivial fun e holds => holds.elim⟩
  | own e link here free =>
      have still : s.thread = Function.update s.thread i .idle := by
        rw [← here, Function.update_eq_self]
      exact ⟨nodes, invariant.write
        (fun member => free.1 ((invariant.list.present e).mpr member)) (fun j _ => free.2 j) link
        still rfl rfl rfl rfl rfl trivial none_held⟩
  | @pushLoad e here =>
      rw [here] at ok
      exact ⟨nodes, invariant.turn ⟨ok.1, ok.2.1, ok.2.2.1, by simp⟩
        fun e holds => invariant.mine here e holds⟩
  | @pushLink e head here =>
      rw [here] at ok
      refine ⟨nodes, invariant.write (e := e) ok.2.2.1 (invariant.mine here e rfl) (alPointer head)
        rfl rfl rfl rfl rfl rfl ⟨ok.1, ok.2.1, ok.2.2.1, fun head' swap => ?_⟩
        fun e holds => invariant.mine here e holds⟩
      cases swap
      exact Function.update_self e _ _
  | @pushSwap e head here hit =>
      subst hit
      have effect : (s.note e .pushed).afterPush i e (atomicListPush e s.mem (.swap s.mem.head)) =
          { s.note e .pushed with
            mem := { s.mem with head := setPointerVersion e (alVersion s.mem.head) }
            thread := Function.update s.thread i .idle } := by
        simp only [atomicListPush, if_true]
        rfl
      rw [effect]
      exact ⟨e :: nodes, invariant.pushed here⟩
  | @pushRetry e head here miss =>
      rw [here] at ok
      have effect : s.afterPush i e (atomicListPush e s.mem (.swap head)) =
          { s with thread := Function.update s.thread i (.push e .load) } := by
        simp only [atomicListPush, if_neg miss]
        rfl
      rw [effect]
      exact ⟨nodes, invariant.turn ⟨ok.1, ok.2.1, ok.2.2.1, by simp⟩
        fun e holds => invariant.mine here e holds⟩
  | @popLoad here =>
      have elsewhere : ∀ j, j ≠ i → Function.update s.loaded i s.removals j = s.loaded j :=
        fun j other => Function.update_of_ne other _ _
      have loaded : Function.update s.loaded i s.removals i = s.removals :=
        Function.update_self i _ _
      by_cases empty : alPointer s.mem.head = 0
      · have effect : atomicListPop s.mem .load = (s.mem, .returned 0) := by
          simp only [atomicListPop, if_pos empty]
        rw [effect]
        exact ⟨nodes, invariant.stay rfl rfl rfl rfl elsewhere loaded.le trivial none_held⟩
      · have effect : atomicListPop s.mem .load = (s.mem, .running (.follow s.mem.head)) := by
          simp only [atomicListPop, if_neg empty]
        rw [effect]
        refine ⟨nodes, invariant.stay rfl rfl rfl rfl elsewhere loaded.le
          ⟨?_, fun _ => ?_⟩ fun e holds => holds.elim⟩
        · exact invariant.list.version.trans (congrArg (BitVec.ofNat 16) loaded.symm)
        · exact invariant.list.chain.eq_null_or_mem.resolve_left empty
  | @popFollow temp here =>
      rw [here] at ok
      exact ⟨nodes, invariant.turn ⟨⟨ok.version, ok.member⟩, _, rfl, fun _ => rfl⟩
        fun e holds => holds.elim⟩
  | @popSwap temp next here hit =>
      have fresh := invariant.fresh here hit timely
      rw [here] at ok
      obtain ⟨read, link, packed, linked⟩ := ok
      obtain rfl : link = s.mem.next (alPointer temp) := linked fresh
      subst hit
      -- the head is the first node
      have not_null := invariant.list.chain.ne_null (read.member fresh)
      obtain ⟨rest, rfl, -⟩ := invariant.list.chain.exists_cons not_null
      have first_fresh := (List.nodup_cons.mp invariant.list.chain.nodup).1
      have effect : atomicListPop s.mem (.swap s.mem.head next) =
          ({ s.mem with head := next }, .running (.clear s.mem.head)) := by
        simp [atomicListPop]
      rw [effect]
      refine ⟨rest, invariant.removal rfl (invariant.list.pop (by rw [packed]; rfl) rfl rfl)
        (fun e member => List.mem_cons_of_mem _ member) rfl rfl rfl first_fresh ?_⟩
      rintro e rfl j - holds
      exact (invariant.thread j).notMem holds List.mem_cons_self
  | @popRetry temp next here miss =>
      have effect : atomicListPop s.mem (.swap temp next) = (s.mem, .running .load) := by
        simp only [atomicListPop, if_neg miss]
      rw [effect]
      exact ⟨nodes, invariant.turn trivial fun e holds => holds.elim⟩
  | @popClear temp here =>
      rw [here] at ok
      exact ⟨nodes, invariant.write (e := alPointer temp) ok (invariant.mine here _ rfl) 0 rfl rfl
        rfl rfl rfl rfl trivial none_held⟩
  | @popallLoad here =>
      by_cases empty : alPointer s.mem.head = 0
      · have effect : atomicListPopall s.mem .load = (s.mem, .returned 0) := by
          simp only [atomicListPopall, if_pos empty]
        rw [effect]
        exact ⟨nodes, invariant.turn trivial none_held⟩
      · have effect : atomicListPopall s.mem .load = (s.mem, .running (.swap s.mem.head)) := by
          simp only [atomicListPopall, if_neg empty]
        rw [effect]
        exact ⟨nodes, invariant.turn trivial fun e holds => holds.elim⟩
  | @popallSwap temp records here hit taken left =>
      subst hit
      have effect : atomicListPopall s.mem (.swap s.mem.head) =
          ({ s.mem with head := setPointerVersion 0 (alVersion s.mem.head + 1) },
            .returned (alPointer s.mem.head)) := by
        simp [atomicListPopall]
      rw [effect]
      exact ⟨[], invariant.removal rfl (invariant.list.popall rfl taken left rfl)
        (fun e member => (List.not_mem_nil member).elim) rfl rfl rfl trivial none_held⟩
  | @popallRetry temp here miss =>
      have effect : atomicListPopall s.mem (.swap temp) = (s.mem, .running .load) := by
        simp only [atomicListPopall, if_neg miss]
      rw [effect]
      exact ⟨nodes, invariant.turn trivial fun e holds => holds.elim⟩

omit [DecidableEq ι] in
theorem invariant_emptyList (next : Word → Word) : Invariant (emptyList next : Machine ι) [] where
  list :=
    { chain := by
        rw [emptyList, alPointer_init]
        exact .nil
      canonical := by simp
      present := by simp [Present, emptyList]
      alternating := fun _ => List.IsChain.nil
      version := version_setPointerVersion 0 0 }
  thread _ := trivial
  apart here := here.elim
  loaded_le _ := le_rfl

theorem invariant_isInvariant :
    (threads Timely).IsInvariant fun s : Machine ι => ∃ nodes, Invariant s nodes where
  initial := by
    rintro s ⟨next, rfl⟩
    exact ⟨[], invariant_emptyList next⟩
  step := by
    rintro s s' ⟨nodes, invariant⟩ ⟨i, timely, step⟩
    exact step.invariant timely invariant

/-- As long as no pop swaps the head after a positive multiple of 2^16 removals since it read it,
the list loses and duplicates nothing. -/
theorem removal_intact (s : Machine ι) (reachable : (threads Timely).Reachable s) : Intact s := by
  obtain ⟨nodes, invariant⟩ := invariant_isInvariant.of_reachable reachable
  refine ⟨⟨nodes, invariant.list.chain, fun e present => ?_⟩, invariant.list.alternating⟩
  exact List.count_eq_one_of_mem invariant.list.chain.nodup ((invariant.list.present e).mp present)

/-- While a pop of thread 0 waits, thread 1 removes the node it read and pushes it again. -/
theorem removal_intact_repushed :
    let start : Machine (Fin 2) := emptyList fun _ => 0
    let s := ((((start.pushed 16).pushed 32).poised 0).popped 1).pushed 32
    alPointer s.mem.head = 32 ∧ s.records 32 = [.pushed, .removed, .pushed] ∧
      s.records 16 = [.pushed] ∧ Intact s := by
  intro start s
  have canonical : Canonical 16#64 := canonical_of_lt (by decide)
  have canonical' : Canonical 32#64 := canonical_of_lt (by decide)
  have begun : (threads Timely).Reachable start :=
    TransitionSystem.reachable_of_initial ⟨fun _ => 0, rfl⟩
  have once := reachable_pushed (i := 0) lenient_timely begun rfl (by decide) canonical
    ⟨by simp [Present, start, emptyList], fun _ => id⟩
  have twice := reachable_pushed (i := 1) lenient_timely once rfl (by decide) canonical'
    ⟨by simp [Present, start, emptyList, pushed, note], fun _ => id⟩
  have poised := reachable_poised (i := 0) lenient_timely twice rfl (by simp [pushed, canonical'])
  have popped := reachable_popped (i := 1) lenient_timely poised rfl
    (by simp [Machine.poised, pushed, canonical'])
  have free : ((((start.pushed 16).pushed 32).poised 0).popped 1).Free 32 := by
    refine ⟨by simp [Present, Machine.popped, Machine.poised, pushed, note, canonical'], ?_⟩
    intro i
    fin_cases i
    · exact id
    · exact id
  have again := reachable_pushed (i := 1) lenient_timely popped rfl (by decide) canonical' free
  refine ⟨by simp [s, pushed, canonical'], ?_, ?_, removal_intact s again⟩
  · simp [s, start, emptyList, Machine.popped, Machine.poised, pushed, note, canonical']
  · simp [s, start, emptyList, Machine.popped, Machine.poised, pushed, note, canonical']

/-! ## A pop that waits for the version to wrap -/

/-- Thread 0 waits at the compare-and-swap of a pop that read `front` in front of `behind` at
version zero.  Both were removed since, and the list is empty after `k` removals. -/
structure Stalled (front behind spare : Word) (k : Nat) (s : Machine (Fin 2)) : Prop where
  waiting : ∃ temp next, s.thread 0 = .pop (.swap temp next) ∧ alPointer temp = front ∧
    version temp = 0 ∧ alPointer next = behind
  idle : s.thread 1 = .idle
  empty : alPointer s.mem.head = 0
  version : version s.mem.head = BitVec.ofNat 16 k
  next : s.mem.next behind = 0
  removed : ¬ s.Present front
  unused : s.records spare = []

omit [DecidableEq ι]

variable {front behind spare : Word} {k : Nat} {t : Machine (Fin 2)}

theorem Stalled.free (stalled : Stalled front behind spare k t) {e : Word}
    (absent : ¬ t.Present e) : t.Free e := by
  obtain ⟨temp, next, waiting, -, -, -⟩ := stalled.waiting
  refine ⟨absent, fun i => ?_⟩
  match i with
  | 0 => rw [waiting]; exact id
  | 1 => rw [stalled.idle]; exact id

/-- Thread 1 pushes `front` and removes it again. -/
theorem Stalled.cycle (stalled : Stalled front behind spare k t) (canonical : Canonical front)
    (behind_ne : behind ≠ front) (spare_ne : spare ≠ front) :
    Stalled front behind spare (k + 1) ((t.pushed front).popped 1) where
  waiting := stalled.waiting
  idle := stalled.idle
  empty := by simp [popped, pushed, canonical, stalled.empty]
  version := by
    rw [popped, version_removed, pushed, version_pushed, stalled.version]
    exact (BitVec.ofNat_add k 1).symm
  next := by simp [popped, pushed, canonical, behind_ne, stalled.next]
  removed := by simp [popped, pushed, note, Present, canonical]
  unused := by simp [popped, pushed, note, canonical, spare_ne, stalled.unused]

/-- A pop stalls, and both nodes it read are removed. -/
theorem exists_stalled (canonical : Canonical front) (canonical' : Canonical behind)
    (front_ne_null : front ≠ 0#64) (behind_ne_null : behind ≠ 0#64) (behind_ne : behind ≠ front)
    (spare_ne : spare ≠ front) (spare_ne' : spare ≠ behind) :
    ∃ t, (threads anyTime).Reachable t ∧ Stalled front behind spare 2 t := by
  let start : Machine (Fin 2) := emptyList fun _ => 0
  have begun : (threads anyTime).Reachable start :=
    TransitionSystem.reachable_of_initial ⟨fun _ => 0, rfl⟩
  have once := reachable_pushed (i := 1) lenient_anyTime begun rfl behind_ne_null canonical'
    ⟨by simp [Present, start, emptyList], fun _ => id⟩
  have twice := reachable_pushed (i := 1) lenient_anyTime once rfl front_ne_null canonical
    ⟨by simp [Present, start, emptyList, pushed, note, behind_ne.symm], fun _ => id⟩
  have poised := reachable_poised (i := 0) lenient_anyTime twice rfl
    (by simp [pushed, canonical, front_ne_null])
  have first := reachable_popped (i := 1) lenient_anyTime poised rfl
    (by simp [Machine.poised, pushed, canonical, front_ne_null])
  have second := reachable_popped (i := 1) lenient_anyTime first rfl
    (by simp [Machine.poised, popped, pushed, canonical, canonical', behind_ne_null])
  refine ⟨_, second, ?_⟩
  constructor
  case waiting =>
    refine ⟨_, _, rfl, ?_, ?_, ?_⟩ <;> simp [pushed, canonical, canonical', start, emptyList]
  case idle => rfl
  case empty =>
    simp [Machine.poised, popped, pushed, canonical, canonical', behind_ne, start, emptyList]
  case version =>
    rw [popped, version_removed, popped, version_removed, Machine.poised, pushed, version_pushed,
      pushed, version_pushed]
    simp [start, emptyList]
  case next => simp [Machine.poised, popped, pushed, canonical, canonical']
  case removed =>
    simp [Machine.poised, popped, pushed, note, Present, canonical, canonical', behind_ne.symm]
  case unused =>
    simp [Machine.poised, popped, pushed, note, canonical, canonical', spare_ne, spare_ne', start,
      emptyList]

theorem exists_stalled_after (n : Nat) (canonical : Canonical front) (canonical' : Canonical behind)
    (front_ne_null : front ≠ 0#64) (behind_ne_null : behind ≠ 0#64) (behind_ne : behind ≠ front)
    (spare_ne : spare ≠ front) (spare_ne' : spare ≠ behind) :
    ∃ t, (threads anyTime).Reachable t ∧ Stalled front behind spare (2 + n) t := by
  induction n with
  | zero =>
      exact exists_stalled canonical canonical' front_ne_null behind_ne_null behind_ne spare_ne
        spare_ne'
  | succ n induction =>
      obtain ⟨t, reachable, stalled⟩ := induction
      have pushed := reachable_pushed lenient_anyTime reachable stalled.idle front_ne_null
        canonical (stalled.free stalled.removed)
      have popped := reachable_popped (i := 1) lenient_anyTime pushed stalled.idle
        (by simp [Machine.pushed, canonical, front_ne_null])
      exact ⟨_, popped, stalled.cycle canonical behind_ne spare_ne⟩

/-- When the version has wrapped, pushing `spare` and then `front` makes the stalled pop succeed,
and `spare` is lost. -/
theorem Stalled.lost (stalled : Stalled front behind spare (2 ^ 16) t)
    (reachable : (threads anyTime).Reachable t) (canonical : Canonical front)
    (canonical_spare : Canonical spare) (front_ne_null : front ≠ 0#64)
    (behind_ne_null : behind ≠ 0#64) (spare_ne_null : spare ≠ 0#64) (behind_ne : behind ≠ front)
    (spare_ne : spare ≠ front) (spare_ne' : spare ≠ behind) :
    ∃ t' : Machine (Fin 2), (threads anyTime).Reachable t' ∧ ¬ Intact t' := by
  obtain ⟨temp, next, waiting, temp_front, temp_version, next_behind⟩ := stalled.waiting
  have once := reachable_pushed lenient_anyTime reachable stalled.idle spare_ne_null
    canonical_spare (stalled.free (by simp [Present, stalled.unused]))
  have free : (t.pushed spare).Free front := by
    refine ⟨?_, (stalled.free stalled.removed).2⟩
    simpa [Present, pushed, note, spare_ne.symm] using stalled.removed
  have twice := reachable_pushed lenient_anyTime once stalled.idle front_ne_null canonical free
  have hit : ((t.pushed spare).pushed front).mem.head = temp := by
    apply word_ext
    · simp [pushed, canonical, temp_front]
    · simp [pushed, stalled.version, temp_version]
  have swapped := twice.step ⟨0, trivial, .popSwap (i := 0) waiting hit⟩
  have effect : atomicListPop ((t.pushed spare).pushed front).mem (.swap temp next) =
      ({ ((t.pushed spare).pushed front).mem with head := next }, .running (.clear temp)) := by
    simp only [atomicListPop, if_pos hit]
  rw [effect] at swapped
  refine ⟨_, swapped, fun intact => ?_⟩
  obtain ⟨nodes, chain, found⟩ := intact.once
  simp only [afterPop, next_behind] at chain
  have last : ((t.pushed spare).pushed front).mem.next behind = 0 := by
    simp [pushed, behind_ne, spare_ne'.symm, stalled.next]
  have only : Chain 0 ((t.pushed spare).pushed front).mem.next behind [behind] :=
    .cons behind_ne_null (by rw [last]; exact .nil)
  obtain rfl := chain.unique only
  have count := found spare (by
    simp [Present, afterPop, note, pushed, temp_front, spare_ne])
  simp [spare_ne'.symm] at count

/-- Without a bound on the removals during a pop the list loses a node. -/
theorem removal_not_intact :
    ¬ ∀ s : Machine (Fin 2), (threads anyTime).Reachable s → Intact s := by
  intro intact
  have small : ∀ {e : Word}, e.toNat < 2 ^ 47 → Canonical e := canonical_of_lt
  obtain ⟨t, reachable, stalled⟩ :
      ∃ t, (threads anyTime).Reachable t ∧ Stalled 16 32 48 (2 + 65534) t :=
    exists_stalled_after 65534 (small (by decide)) (small (by decide)) (by decide) (by decide)
      (by decide) (by decide) (by decide)
  obtain ⟨t', reachable', lost⟩ := Stalled.lost stalled reachable (small (by decide))
    (small (by decide)) (by decide) (by decide) (by decide) (by decide) (by decide) (by decide)
  exact lost (intact t' reachable')

end Steps

end AtomicList
end OstrichServer
