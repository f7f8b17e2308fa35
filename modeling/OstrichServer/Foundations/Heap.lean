import Mathlib.Data.Finset.Lattice.Fold
import Mathlib.Data.Multiset.UnionInter
import Mathlib.Tactic

/-!
# Heaps

A heap has blocks at finitely many addresses, of which none is null.  Writing or freeing an address
without a block gives nothing.  The blocks of one owner are a multiset, and the rules say what the
operations do to them, whatever else is on the heap.
-/

/-- Allocated blocks by their addresses. -/
structure Heap (B : Type*) where
  block : Nat → Option B
  allocated : Finset Nat
  mem_allocated : ∀ a, a ∈ allocated ↔ (block a).isSome
  null : block 0 = none

namespace Heap

variable {B : Type*} {h frame : Heap B} {a : Nat} {b b' : B} {blocks blocks' : Multiset (Nat × B)}

/-- The blocks determine the heap. -/
theorem ext_block {h h' : Heap B} (same : ∀ a, h.block a = h'.block a) : h = h' := by
  obtain ⟨block, allocated, mem_allocated, null⟩ := h
  obtain ⟨block', allocated', mem_allocated', null'⟩ := h'
  obtain rfl : block = block' := funext same
  obtain rfl : allocated = allocated' := by
    ext a
    rw [mem_allocated, mem_allocated']
  rfl

/-! ## Operations -/

/-- The heap without blocks. -/
def empty (B : Type*) : Heap B where
  block _ := none
  allocated := ∅
  mem_allocated a := by simp
  null := rfl

/-- The heap with a block at an address. -/
def put (h : Heap B) (a : Nat) (ne_null : a ≠ 0) (b : B) : Heap B where
  block := Function.update h.block a (some b)
  allocated := insert a h.allocated
  mem_allocated c := by
    by_cases same : c = a
    · subst same
      simp
    · simp [same, h.mem_allocated]
  null := by rw [Function.update_of_ne ne_null.symm, h.null]

/-- The heap without the blocks at some addresses. -/
def without (h : Heap B) (addresses : Finset Nat) : Heap B where
  block a := if a ∈ addresses then none else h.block a
  allocated := h.allocated \ addresses
  mem_allocated a := by
    by_cases gone : a ∈ addresses
    · simp [gone]
    · simp [gone, h.mem_allocated]
  null := by simp [h.null]

theorem ne_null_of_block (found : h.block a = some b) : a ≠ 0 := by
  rintro rfl
  rw [h.null] at found
  cases found

/-- `*a = b` -/
def write (h : Heap B) (a : Nat) (b : B) : Option (Heap B) :=
  if live : (h.block a).isSome then
    some (h.put a (ne_null_of_block (Option.some_get live).symm) b)
  else none

/-- `free(a)`, which does nothing for a null pointer. -/
def free (h : Heap B) (a : Nat) : Option (Heap B) :=
  if a = 0 then some h else if (h.block a).isSome then some (h.without {a}) else none

/-- Where the next block comes to be. -/
structure Allocator (B : Type*) where
  address : Heap B → Nat
  ne_null : ∀ h : Heap B, address h ≠ 0
  unused : ∀ h : Heap B, h.block (address h) = none

/-- A new block and its address. -/
def alloc (allocator : Allocator B) (h : Heap B) (b : B) : Heap B × Nat :=
  (h.put (allocator.address h) (allocator.ne_null h) b, allocator.address h)

/-- New blocks come behind all others. -/
def Allocator.behind (B : Type*) : Allocator B where
  address h := h.allocated.sup id + 1
  ne_null _ := Nat.succ_ne_zero _
  unused h := by
    rw [← Option.not_isSome_iff_eq_none, ← h.mem_allocated]
    intro member
    exact (Finset.le_sup (f := id) member).not_gt (Nat.lt_succ_self _)

/-! ## Parts of a heap -/

/-- Each of the blocks is at its address. -/
def Has (h : Heap B) (blocks : Multiset (Nat × B)) : Prop :=
  ∀ ⦃a b⦄, (a, b) ∈ blocks → h.block a = some b

theorem Has.mono (has : h.Has blocks) (fewer : blocks' ≤ blocks) : h.Has blocks' :=
  fun _ _ member => has (Multiset.mem_of_le fewer member)

/-- The heap is the frame and, at other addresses, the blocks. -/
structure Splits (h frame : Heap B) (blocks : Multiset (Nat × B)) : Prop where
  nodup : (blocks.map Prod.fst).Nodup
  has : h.Has blocks
  apart : ∀ {a b}, (a, b) ∈ blocks → frame.block a = none
  others : ∀ {a}, a ∉ blocks.map Prod.fst → h.block a = frame.block a

theorem mem_addresses : a ∈ blocks.map Prod.fst ↔ ∃ b, (a, b) ∈ blocks := by
  simp

namespace Splits

theorem of_frame (splits : h.Splits frame blocks) (found : frame.block a = some b) :
    h.block a = some b := by
  rw [splits.others, found]
  rw [mem_addresses]
  rintro ⟨b', member⟩
  cases found.symm.trans (splits.apart member)

/-- What the frame has is still there. -/
theorem has_of_frame (splits : h.Splits frame blocks) (has : frame.Has blocks') : h.Has blocks' :=
  fun _ _ member => splits.of_frame (has member)

theorem ne_null (splits : h.Splits frame blocks) (member : (a, b) ∈ blocks) : a ≠ 0 :=
  ne_null_of_block (splits.has member)

theorem refl (h : Heap B) : h.Splits h 0 :=
  ⟨Multiset.nodup_zero, fun _ _ member => by simp at member, fun member => by simp at member,
    fun _ => rfl⟩

theorem eq_frame (splits : h.Splits frame 0) : h = frame :=
  ext_block fun _ => splits.others (Multiset.notMem_zero _)

theorem of_cons (splits : h.Splits frame ((a, b) ::ₘ blocks)) : a ∉ blocks.map Prod.fst := by
  have nodup := splits.nodup
  rw [Multiset.map_cons, Multiset.nodup_cons] at nodup
  exact nodup.1

/-- The addresses in use are those of the frame and those of the blocks. -/
theorem card_allocated (splits : h.Splits frame blocks) :
    h.allocated.card = frame.allocated.card + blocks.card := by
  have both : h.allocated = frame.allocated ∪ (blocks.map Prod.fst).toFinset := by
    ext a
    rw [h.mem_allocated, Finset.mem_union, frame.mem_allocated, Multiset.mem_toFinset]
    by_cases member : a ∈ blocks.map Prod.fst
    · obtain ⟨b, inside⟩ := mem_addresses.mp member
      simp [splits.has inside, member]
    · simp [splits.others member, member]
  have disjoint : Disjoint frame.allocated (blocks.map Prod.fst).toFinset := by
    rw [Finset.disjoint_left]
    intro a old member
    obtain ⟨b, inside⟩ := mem_addresses.mp (Multiset.mem_toFinset.mp member)
    rw [frame.mem_allocated, splits.apart inside] at old
    cases old
  rw [both, Finset.card_union_of_disjoint disjoint,
    Multiset.toFinset_card_of_nodup splits.nodup, Multiset.card_map]

/-- A new block is one of the owner's. -/
theorem alloc (splits : h.Splits frame blocks) (allocator : Allocator B) (b : B) :
    (h.alloc allocator b).1.Splits frame (((h.alloc allocator b).2, b) ::ₘ blocks) := by
  have unused := allocator.unused h
  have new : allocator.address h ∉ blocks.map Prod.fst := by
    rw [mem_addresses]
    rintro ⟨b', member⟩
    cases unused.symm.trans (splits.has member)
  refine ⟨?_, ?_, ?_, ?_⟩
  · rw [Multiset.map_cons, Multiset.nodup_cons]
    exact ⟨new, splits.nodup⟩
  · intro a c member
    rcases Multiset.mem_cons.mp member with same | old
    · cases same
      exact Function.update_self ..
    · have distinct : a ≠ allocator.address h := by
        rintro rfl
        exact new (mem_addresses.mpr ⟨c, old⟩)
      exact (Function.update_of_ne distinct ..).trans (splits.has old)
  · intro a c member
    rcases Multiset.mem_cons.mp member with same | old
    · cases same
      exact (splits.others new).symm.trans unused
    · exact splits.apart old
  · intro a outside
    rw [Multiset.map_cons, Multiset.mem_cons, not_or] at outside
    exact (Function.update_of_ne outside.1 ..).trans (splits.others outside.2)

/-- Writing a block of the owner. -/
theorem write (splits : h.Splits frame ((a, b) ::ₘ blocks)) (b' : B) :
    ∃ h', h.write a b' = some h' ∧ h'.Splits frame ((a, b') ::ₘ blocks) := by
  have here := splits.has (Multiset.mem_cons_self (a, b) blocks)
  have outside := splits.of_cons
  refine ⟨_, dif_pos (by rw [here]; rfl), ?_, ?_, ?_, ?_⟩
  · simpa only [Multiset.map_cons] using splits.nodup
  · intro c d member
    rcases Multiset.mem_cons.mp member with same | old
    · cases same
      exact Function.update_self ..
    · have distinct : c ≠ a := by
        rintro rfl
        exact outside (mem_addresses.mpr ⟨d, old⟩)
      exact (Function.update_of_ne distinct ..).trans
        (splits.has (Multiset.mem_cons_of_mem old))
  · intro c d member
    rcases Multiset.mem_cons.mp member with same | old
    · cases same
      exact splits.apart (Multiset.mem_cons_self ..)
    · exact splits.apart (Multiset.mem_cons_of_mem old)
  · intro c other
    have distinct : c ≠ a := by
      rw [Multiset.map_cons, Multiset.mem_cons, not_or] at other
      exact other.1
    exact (Function.update_of_ne distinct ..).trans (splits.others (by simpa using other))

/-- Freeing a block of the owner. -/
theorem free (splits : h.Splits frame ((a, b) ::ₘ blocks)) :
    ∃ h', h.free a = some h' ∧ h'.Splits frame blocks := by
  have here := splits.has (Multiset.mem_cons_self (a, b) blocks)
  have outside := splits.of_cons
  have nodup := splits.nodup
  rw [Multiset.map_cons, Multiset.nodup_cons] at nodup
  refine ⟨h.without {a}, ?_, nodup.2, ?_, ?_, ?_⟩
  · rw [Heap.free, if_neg (ne_null_of_block here), here]
    rfl
  · intro c d member
    have distinct : c ≠ a := by
      rintro rfl
      exact outside (mem_addresses.mpr ⟨d, member⟩)
    exact (if_neg (by simpa using distinct)).trans (splits.has (Multiset.mem_cons_of_mem member))
  · intro c d member
    exact splits.apart (Multiset.mem_cons_of_mem member)
  · intro c other
    by_cases same : c = a
    · subst same
      exact (if_pos (Finset.mem_singleton_self c)).trans
        (splits.apart (Multiset.mem_cons_self ..)).symm
    · refine (if_neg (by simpa using same)).trans (splits.others ?_)
      rw [Multiset.map_cons, Multiset.mem_cons, not_or]
      exact ⟨same, other⟩

/-- Two owners: one of them may be taken as part of the frame of the other. -/
theorem add_iff : h.Splits frame (blocks + blocks') ↔
    ∃ middle : Heap B, middle.Splits frame blocks ∧ h.Splits middle blocks' := by
  constructor
  · intro splits
    have nodup := splits.nodup
    rw [Multiset.map_add, Multiset.nodup_add] at nodup
    obtain ⟨nodup, nodup', disjoint⟩ := nodup
    have away : ∀ {a b}, (a, b) ∈ blocks → a ∉ blocks'.map Prod.fst := fun member =>
      Multiset.disjoint_left.mp disjoint (mem_addresses.mpr ⟨_, member⟩)
    refine ⟨h.without (blocks'.map Prod.fst).toFinset, ⟨nodup, ?_, ?_, ?_⟩, ⟨nodup', ?_, ?_, ?_⟩⟩
    · intro a b member
      refine (if_neg ?_).trans (splits.has (Multiset.mem_add.mpr (.inl member)))
      exact fun inside => away member (Multiset.mem_toFinset.mp inside)
    · exact fun member => splits.apart (Multiset.mem_add.mpr (.inl member))
    · intro a outside
      by_cases inside : a ∈ blocks'.map Prod.fst
      · obtain ⟨b, member⟩ := mem_addresses.mp inside
        exact (if_pos (Multiset.mem_toFinset.mpr inside)).trans
          (splits.apart (Multiset.mem_add.mpr (.inr member))).symm
      · refine (if_neg (Multiset.mem_toFinset.not.mpr inside)).trans (splits.others ?_)
        rw [Multiset.map_add, Multiset.mem_add, not_or]
        exact ⟨outside, inside⟩
    · exact fun _ _ member => splits.has (Multiset.mem_add.mpr (.inr member))
    · intro a b member
      exact if_pos (Multiset.mem_toFinset.mpr (mem_addresses.mpr ⟨b, member⟩))
    · intro a outside
      exact (if_neg (Multiset.mem_toFinset.not.mpr outside)).symm
  · rintro ⟨middle, splits, splits'⟩
    have disjoint : Disjoint (blocks.map Prod.fst) (blocks'.map Prod.fst) := by
      rw [Multiset.disjoint_left]
      intro a member member'
      obtain ⟨b, inside⟩ := mem_addresses.mp member
      obtain ⟨b', inside'⟩ := mem_addresses.mp member'
      cases (splits.has inside).symm.trans (splits'.apart inside')
    refine ⟨?_, ?_, ?_, ?_⟩
    · rw [Multiset.map_add, Multiset.nodup_add]
      exact ⟨splits.nodup, splits'.nodup, disjoint⟩
    · intro a b member
      rcases Multiset.mem_add.mp member with left | right
      · exact splits'.of_frame (splits.has left)
      · exact splits'.has right
    · intro a b member
      rcases Multiset.mem_add.mp member with left | right
      · exact splits.apart left
      · have outside : a ∉ blocks.map Prod.fst := fun inside =>
          Multiset.disjoint_left.mp disjoint inside (mem_addresses.mpr ⟨b, right⟩)
        rw [← splits.others outside]
        exact splits'.apart right
    · intro a outside
      rw [Multiset.map_add, Multiset.mem_add, not_or] at outside
      exact (splits'.others outside.2).trans (splits.others outside.1)

/-- The blocks of two owners in the other order. -/
theorem exchange {middle : Heap B} (splits : middle.Splits frame blocks)
    (splits' : h.Splits middle blocks') :
    ∃ middle' : Heap B, middle'.Splits frame blocks' ∧ h.Splits middle' blocks := by
  rw [← add_iff, Multiset.add_comm]
  exact add_iff.mpr ⟨middle, splits, splits'⟩

end Splits

end Heap
