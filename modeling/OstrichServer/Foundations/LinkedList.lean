import Mathlib.Data.List.Nodup
import Mathlib.Logic.Function.Basic
import Mathlib.Tactic

/-!
# Intrusive singly linked lists

A memory of link fields is a function from addresses to addresses.  `Chain` relates the address of
a first node to the list of nodes found by following the links up to the null address.
-/

namespace LinkedList

variable {α : Type*}

/-- Following the links from an address meets the listed nodes, then the null address. -/
inductive Chain (null : α) (next : α → α) : α → List α → Prop
  | nil : Chain null next null []
  | cons {node : α} {rest : List α} (ne_null : node ≠ null)
      (tail : Chain null next (next node) rest) : Chain null next node (node :: rest)

/-- Following the links from an address meets the node before the null address. -/
inductive Meets (null : α) (next : α → α) : α → α → Prop
  | here {node : α} (ne_null : node ≠ null) : Meets null next node node
  | later {first node : α} (ne_null : first ≠ null) (tail : Meets null next (next first) node) :
      Meets null next first node

namespace Meets

variable {null first node : α} {next : α → α} {nodes : Set α}

theorem ne_of_null (meets : Meets null next first node) : first ≠ null := by
  cases meets with
  | here ne_null => exact ne_null
  | later ne_null => exact ne_null

/-- The node behind one that is met is met as well. -/
theorem onward (meets : Meets null next first node) (more : next node ≠ null) :
    Meets null next first (next node) := by
  induction meets with
  | here ne_null => exact .later ne_null (.here more)
  | later ne_null _ induction => exact .later ne_null (induction more)

/-- The links do not lead out of a set of nodes that has the first one and is closed under them. -/
theorem mem_of_closed (meets : Meets null next first node) (start : first ≠ null → first ∈ nodes)
    (links : ∀ a ∈ nodes, next a ≠ null → next a ∈ nodes) : node ∈ nodes := by
  induction meets with
  | here ne_null => exact start ne_null
  | later ne_null _ induction => exact induction (links _ (start ne_null))

end Meets

namespace Chain

variable {null first : α} {next next' : α → α} {nodes : List α}

theorem ne_null (chain : Chain null next first nodes) {node : α} (member : node ∈ nodes) :
    node ≠ null := by
  induction chain with
  | nil => cases member
  | cons ne_null _ induction =>
      rcases List.mem_cons.mp member with rfl | later
      · exact ne_null
      · exact induction later

theorem eq_nil (chain : Chain null next null nodes) : nodes = [] := by
  cases chain with
  | nil => rfl
  | cons ne_null => exact (ne_null rfl).elim

theorem exists_cons (chain : Chain null next first nodes) (ne_null : first ≠ null) :
    ∃ rest, nodes = first :: rest ∧ Chain null next (next first) rest := by
  cases chain with
  | nil => exact (ne_null rfl).elim
  | cons _ tail => exact ⟨_, rfl, tail⟩

theorem eq_null_iff (chain : Chain null next first nodes) : first = null ↔ nodes = [] := by
  cases chain with
  | nil => simp
  | cons ne_null => simp [ne_null]

theorem of_cons {node : α} {rest : List α} (chain : Chain null next first (node :: rest)) :
    first = node ∧ Chain null next (next node) rest := by
  cases chain with
  | cons _ tail => exact ⟨rfl, tail⟩

theorem eq_null_or_mem (chain : Chain null next first nodes) : first = null ∨ first ∈ nodes := by
  cases chain with
  | nil => exact Or.inl rfl
  | cons => exact Or.inr List.mem_cons_self

/-- The listed nodes are the ones the links meet. -/
theorem meets_iff (chain : Chain null next first nodes) {node : α} :
    Meets null next first node ↔ node ∈ nodes := by
  constructor
  · intro meets
    induction meets generalizing nodes with
    | here ne_null =>
        obtain ⟨rest, rfl, -⟩ := chain.exists_cons ne_null
        exact List.mem_cons_self
    | later ne_null _ induction =>
        obtain ⟨rest, rfl, tail⟩ := chain.exists_cons ne_null
        exact List.mem_cons_of_mem _ (induction tail)
  · intro member
    induction chain with
    | nil => cases member
    | cons ne_null _ induction =>
        rcases List.mem_cons.mp member with rfl | later
        · exact .here ne_null
        · exact .later ne_null (induction later)

/-- The links determine the nodes. -/
theorem unique {other : List α} (chain : Chain null next first nodes)
    (chain' : Chain null next first other) : nodes = other := by
  induction chain generalizing other with
  | nil => exact chain'.eq_nil.symm
  | cons ne_null _ induction =>
      obtain ⟨rest, rfl, tail⟩ := chain'.exists_cons ne_null
      rw [induction tail]

/-- The links from a node of a chain meet a final part of it. -/
theorem exists_split (chain : Chain null next first nodes) {node : α} (member : node ∈ nodes) :
    ∃ front back, nodes = front ++ node :: back ∧ Chain null next node (node :: back) := by
  induction chain with
  | nil => cases member
  | @cons node' rest ne_null tail induction =>
      rcases List.mem_cons.mp member with rfl | later
      · exact ⟨[], rest, rfl, .cons ne_null tail⟩
      · obtain ⟨front, back, rfl, final⟩ := induction later
        exact ⟨node' :: front, back, rfl, final⟩

/-- A chain that ends meets no node twice. -/
theorem nodup (chain : Chain null next first nodes) : nodes.Nodup := by
  induction chain with
  | nil => exact List.nodup_nil
  | @cons node rest ne_null tail induction =>
      refine List.nodup_cons.mpr ⟨fun again => ?_, induction⟩
      obtain ⟨front, back, split, final⟩ := tail.exists_split again
      have same := (Chain.cons ne_null tail).unique final
      have length := congrArg List.length split
      have length' := congrArg List.length same
      simp at length length'
      omega

/-- Two nodes that point to each other are not in front of any chain. -/
theorem ne_of_circle (chain : Chain null next first nodes) (ne_null : first ≠ null)
    (other_ne_null : next first ≠ null) : next (next first) ≠ first := by
  intro circle
  obtain ⟨rest, rfl, tail⟩ := chain.exists_cons ne_null
  obtain ⟨rest', rfl, tail'⟩ := tail.exists_cons other_ne_null
  rw [circle] at tail'
  have again : first ∈ rest' := tail'.eq_null_or_mem.resolve_left ne_null
  exact (List.nodup_cons.mp chain.nodup).1 (List.mem_cons_of_mem _ again)

/-- Links outside a chain do not matter to it. -/
theorem congr (chain : Chain null next first nodes)
    (same : ∀ node ∈ nodes, next node = next' node) :
    Chain null next' first nodes := by
  induction chain with
  | nil => exact .nil
  | @cons node rest ne_null tail induction =>
      refine .cons ne_null ?_
      rw [← same node List.mem_cons_self]
      exact induction fun other later => same other (List.mem_cons_of_mem _ later)

section Update

variable [DecidableEq α]

/-- Writing the link of a node outside a chain. -/
theorem update_of_notMem (chain : Chain null next first nodes) {node : α} (outside : node ∉ nodes)
    (link : α) : Chain null (Function.update next node link) first nodes := by
  refine chain.congr fun other member => ?_
  have distinct : other ≠ node := fun same => outside (same ▸ member)
  rw [Function.update_of_ne distinct]

/-- A node whose link is made to point to a chain is in front of it. -/
theorem push (chain : Chain null next first nodes) {node : α} (ne_null : node ≠ null)
    (outside : node ∉ nodes) :
    Chain null (Function.update next node first) node (node :: nodes) := by
  refine .cons ne_null ?_
  rw [Function.update_self]
  exact chain.update_of_notMem outside first

end Update

end Chain

/-- Named chains in one memory which share no node. -/
structure DisjointChains {κ : Type*} (null : α) (next : α → α) (first : κ → α)
    (nodes : κ → List α) : Prop where
  chain : ∀ k, Chain null next (first k) (nodes k)
  disjoint : ∀ {k k' node}, node ∈ nodes k → node ∈ nodes k' → k = k'

namespace DisjointChains

variable {κ : Type*} [DecidableEq α] [DecidableEq κ] {null : α} {next : α → α} {first : κ → α}
  {nodes : κ → List α} (chains : DisjointChains null next first nodes)
include chains

omit [DecidableEq κ] in
/-- Writing the link of a node on no chain. -/
theorem write {node : α} (free : ∀ k, node ∉ nodes k) (link : α) :
    DisjointChains null (Function.update next node link) first nodes where
  chain k := (chains.chain k).update_of_notMem (free k) link
  disjoint := chains.disjoint

/-- Put a node on no chain in front of one. -/
theorem push (k : κ) {node : α} (ne_null : node ≠ null) (free : ∀ k, node ∉ nodes k) :
    DisjointChains null (Function.update next node (first k)) (Function.update first k node)
      (Function.update nodes k (node :: nodes k)) where
  chain k' := by
    by_cases same : k' = k
    · subst same
      rw [Function.update_self, Function.update_self]
      exact (chains.chain k').push ne_null (free k')
    · rw [Function.update_of_ne same, Function.update_of_ne same]
      exact (chains.chain k').update_of_notMem (free k') _
  disjoint := by
    have only : ∀ {k' other}, other ∈ Function.update nodes k (node :: nodes k) k' →
        other = node ∧ k' = k ∨ other ∈ nodes k' := by
      intro k' other member
      by_cases same : k' = k
      · subst same
        rw [Function.update_self] at member
        exact (List.mem_cons.mp member).imp_left fun here => ⟨here, rfl⟩
      · rw [Function.update_of_ne same] at member
        exact Or.inr member
    intro k₁ k₂ other left right
    rcases only left with ⟨rfl, rfl⟩ | old
    · rcases only right with ⟨-, rfl⟩ | old'
      · rfl
      · exact (free _ old').elim
    · rcases only right with ⟨rfl, rfl⟩ | old'
      · exact (free _ old).elim
      · exact chains.disjoint old old'

omit [DecidableEq α] in
/-- Take the first node off a chain; it is then on none. -/
theorem pop (k : κ) (ne_null : first k ≠ null) :
    ∃ rest, nodes k = first k :: rest ∧
      DisjointChains null next (Function.update first k (next (first k)))
        (Function.update nodes k rest) ∧
      ∀ k', first k ∉ Function.update nodes k rest k' := by
  obtain ⟨rest, split, tail⟩ := (chains.chain k).exists_cons ne_null
  have nodup := (chains.chain k).nodup
  rw [split, List.nodup_cons] at nodup
  have inside : ∀ {k' node}, node ∈ Function.update nodes k rest k' → node ∈ nodes k' := by
    intro k' node member
    by_cases same : k' = k
    · subst same
      rw [Function.update_self] at member
      rw [split]
      exact List.mem_cons_of_mem _ member
    · rwa [Function.update_of_ne same] at member
  refine ⟨rest, split,
    ⟨fun k' => ?_, fun left right => chains.disjoint (inside left) (inside right)⟩,
    fun k' member => ?_⟩
  · by_cases same : k' = k
    · subst same
      rwa [Function.update_self, Function.update_self]
    · rw [Function.update_of_ne same, Function.update_of_ne same]
      exact chains.chain k'
  · have here : first k ∈ nodes k := by simp [split]
    obtain rfl : k' = k := chains.disjoint (inside member) here
    rw [Function.update_self] at member
    exact nodup.1 member

omit [DecidableEq α] in
/-- Hand a whole chain over to a name that has none. -/
theorem handOver {k k' : κ} (distinct : k ≠ k') (empty : nodes k' = []) :
    DisjointChains null next (Function.update (Function.update first k null) k' (first k))
      (Function.update (Function.update nodes k []) k' (nodes k)) where
  chain k'' := by
    by_cases there : k'' = k'
    · subst there
      rw [Function.update_self, Function.update_self]
      exact chains.chain k
    · rw [Function.update_of_ne there, Function.update_of_ne there]
      by_cases here : k'' = k
      · subst here
        rw [Function.update_self, Function.update_self]
        exact .nil
      · rw [Function.update_of_ne here, Function.update_of_ne here]
        exact chains.chain k''
  disjoint := by
    have source : ∀ {k'' node},
        node ∈ Function.update (Function.update nodes k []) k' (nodes k) k'' →
          k'' = k' ∧ node ∈ nodes k ∨ k'' ≠ k' ∧ k'' ≠ k ∧ node ∈ nodes k'' := by
      intro k'' node member
      by_cases there : k'' = k'
      · subst there
        rw [Function.update_self] at member
        exact Or.inl ⟨rfl, member⟩
      · rw [Function.update_of_ne there] at member
        by_cases here : k'' = k
        · subst here
          rw [Function.update_self] at member
          cases member
        · rw [Function.update_of_ne here] at member
          exact Or.inr ⟨there, here, member⟩
    intro k₁ k₂ node left right
    rcases source left with ⟨rfl, moved⟩ | ⟨-, apart, old⟩
    · rcases source right with ⟨rfl, -⟩ | ⟨-, apart, old'⟩
      · rfl
      · exact (apart (chains.disjoint old' moved)).elim
    · rcases source right with ⟨rfl, moved⟩ | ⟨-, -, old'⟩
      · exact (apart (chains.disjoint old moved)).elim
      · exact chains.disjoint old old'

end DisjointChains

end LinkedList
