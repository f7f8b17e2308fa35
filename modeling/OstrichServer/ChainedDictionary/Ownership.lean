import OstrichServer.ChainedDictionary.Layout
import OstrichServer.ChainedDictionary.Membership

/-!
# The functions on the heap

On the heap the functions do to their dictionary what the functions on chains do, touch no block
that is not its own, and own exactly the blocks of its entries afterwards.
-/

namespace OstrichServer
namespace ChainedDictionary
namespace Memory

open Dictionary KeyedLists

variable {υ : Type} {heap frame : Heap (MemoryBlock υ)} {m : State υ} {ref : DictionaryRef}
  {d : DictionaryT υ} {iSize : Int32} {p i fuel : Nat} {nodes : List (Node υ)}
  {table : Nat → List (Node υ)} {others : Multiset (Nat × MemoryBlock υ)}

/-! ## Readers -/

theorem valueFrom_spec (has : heap.Has (chainBlocks nodes)) (nonempty : nodes ≠ [])
    (key : CString) (bound : nodes.length ≤ fuel) :
    valueFrom heap key fuel (firstOf nodes) =
      some (((nodes.map Node.entry).find? fun entry => entry.pszKey = key).map
        DictionaryEntry.pValue) := by
  induction nodes generalizing fuel with
  | nil => exact (nonempty rfl).elim
  | cons n rest induction =>
      obtain ⟨fuel, rfl⟩ := Nat.exists_eq_succ_of_ne_zero (Nat.ne_zero_of_lt bound)
      have tail : heap.Has (chainBlocks rest) := has.mono (chainBlocks_le_cons n rest)
      rw [firstOf, valueFrom, entryAt_of_has has]
      simp only [Option.bind_eq_bind, Option.bind_some, textAt_of_has has, List.map_cons]
      by_cases same : n.entry.pszKey = key
      · simp [same]
      · rw [if_neg same, List.find?_cons_of_neg (by simpa using same)]
        cases rest with
        | nil => rfl
        | cons n' rest' =>
            rw [if_pos (firstOf_ne_null tail)]
            exact induction tail (List.cons_ne_nil n' rest') (Nat.le_of_succ_le_succ bound)

theorem countChain_spec (has : heap.Has (chainBlocks nodes)) (bound : nodes.length < fuel)
    (count : Nat) : countChain heap fuel (firstOf nodes) (Int32.ofNat count) =
      some (Int32.ofNat (count + nodes.length)) := by
  induction nodes generalizing fuel count with
  | nil =>
      obtain ⟨fuel, rfl⟩ := Nat.exists_eq_succ_of_ne_zero (Nat.ne_zero_of_lt bound)
      rfl
  | cons n rest induction =>
      obtain ⟨fuel, rfl⟩ := Nat.exists_eq_succ_of_ne_zero (Nat.ne_zero_of_lt bound)
      rw [firstOf, countChain, if_neg (address_ne_null has), entryAt_of_has has]
      simp only [Option.bind_eq_bind, Option.bind_some]
      rw [← ofNat_succ,
        induction (has.mono (chainBlocks_le_cons n rest)) (Nat.lt_of_succ_lt_succ bound),
        List.length_cons, Nat.add_assoc, Nat.add_comm 1]

theorem countNext_spec {n : Node υ} {rest : List (Node υ)}
    (has : heap.Has (chainBlocks (n :: rest))) (bound : rest.length < fuel) (count : Nat) :
    countNext heap fuel n.address count = some (count + rest.length) := by
  induction rest generalizing n fuel count with
  | nil =>
      obtain ⟨fuel, rfl⟩ := Nat.exists_eq_succ_of_ne_zero (Nat.ne_zero_of_lt bound)
      rw [countNext, entryAt_of_has has]
      rfl
  | cons n' rest induction =>
      obtain ⟨fuel, rfl⟩ := Nat.exists_eq_succ_of_ne_zero (Nat.ne_zero_of_lt bound)
      have tail : heap.Has (chainBlocks (n' :: rest)) := has.mono (chainBlocks_le_cons n _)
      rw [countNext, entryAt_of_has has]
      simp only [Option.bind_eq_bind, Option.bind_some]
      rw [firstOf, if_pos (address_ne_null tail), induction tail (Nat.lt_of_succ_lt_succ bound),
        List.length_cons, Nat.add_assoc, Nat.add_comm 1]

/-- The chain of a key, as the functions find it. -/
theorem readCell_iPos (splits : heap.Splits frame (tableBlocks p iSize table))
    (positive : 0 < iSize) (key : CString) :
    readCell heap ⟨iSize, p⟩ (DictionaryRef.iPos ⟨iSize, p⟩ key) =
        some (firstOf (table (dictHash key iSize).toNat)) ∧
      heap.Has (chainBlocks (table (dictHash key iSize).toNat)) ∧
      (table (dictHash key iSize).toNat).length < enough heap := by
  have inside := dictHash_lt key positive
  have among := chainBlocks_le_tableBlocks p table inside
  exact ⟨readCell_of_has splits.has inside, splits.has.mono among, length_lt_enough splits among⟩

/-- Lookups on the heap are those on the chains. -/
theorem dictionaryValueForKey_spec (here : Represents frame heap ref d) (key : CString) :
    dictionaryValueForKey heap ref key = some (ChainedDictionary.dictionaryValueForKey d key) := by
  obtain ⟨blocks, footprint, splits⟩ := here
  cases footprint with
  | null => rfl
  | @table iSize positive p table =>
      obtain ⟨found, has, bound⟩ := readCell_iPos splits positive key
      rw [dictionaryValueForKey, if_neg (table_ne_null splits), found]
      change (if firstOf _ = 0 then some none else valueFrom _ _ _ _) =
        some (((table (dictHash key iSize).toNat).map Node.entry).find? _ |>.map _)
      cases chain : table (dictHash key iSize).toNat with
      | nil => rfl
      | cons n rest =>
          rw [chain] at has bound
          rw [if_neg (firstOf_ne_null has)]
          exact valueFrom_spec has (List.cons_ne_nil n rest) key bound.le

theorem dictionaryHasKey_spec (here : Represents frame heap ref d) (key : CString) :
    dictionaryHasKey heap ref key = some (ChainedDictionary.dictionaryHasKey d key) := by
  obtain ⟨blocks, footprint, splits⟩ := here
  cases footprint with
  | null => rfl
  | @table iSize positive p table =>
      obtain ⟨found, has, -⟩ := readCell_iPos splits positive key
      rw [dictionaryHasKey, if_neg (table_ne_null splits), found]
      change some (if firstOf _ ≠ 0 then 1 else 0) =
        some (if ((table (dictHash key iSize).toNat).map Node.entry).isEmpty then 0 else 1)
      cases chain : table (dictHash key iSize).toNat with
      | nil => rfl
      | cons n rest =>
          rw [chain] at has
          exact congrArg some (if_pos (firstOf_ne_null has))

/-- Reading all chains one after another. -/
theorem countChains_spec (has : heap.Has (tableBlocks p iSize table))
    (bound : ∀ i < iSize.toNatClampNeg, (table i).length < enough heap) (indices : List Nat)
    (inside : ∀ i ∈ indices, i < iSize.toNatClampNeg) (count : Nat) :
    indices.foldlM (fun count i => do
      let pEntry ← readCell heap ⟨iSize, p⟩ i
      countChain heap (enough heap) pEntry count) (Int32.ofNat count) =
      some (Int32.ofNat (count + (indices.flatMap fun i => (table i).map Node.entry).length)) := by
  induction indices generalizing count with
  | nil => rfl
  | cons i indices induction =>
      have here := inside i List.mem_cons_self
      rw [List.foldlM_cons, readCell_of_has has here]
      simp only [Option.bind_eq_bind, Option.bind_some]
      rw [countChain_spec (has.mono (chainBlocks_le_tableBlocks p table here)) (bound i here),
        Option.bind_some]
      refine (induction (fun j later => inside j (List.mem_cons_of_mem i later)) _).trans ?_
      rw [List.flatMap_cons, List.length_append, List.length_map, Nat.add_assoc]

theorem dictionaryKeysCount_spec (here : Represents frame heap ref d) :
    dictionaryKeysCount heap ref = some (ChainedDictionary.dictionaryKeysCount d) := by
  obtain ⟨blocks, footprint, splits⟩ := here
  cases footprint with
  | null => rfl
  | @table iSize positive p table =>
      rw [dictionaryKeysCount, if_neg (table_ne_null splits), keysCount_eq]
      refine (countChains_spec splits.has (fun i inside => ?_) _ (fun i => List.mem_range.mp)
        0).trans (congrArg (some ∘ Int32.ofNat) (Nat.zero_add _))
      exact length_lt_enough splits (chainBlocks_le_tableBlocks p table inside)

/-! ## Linking -/

theorem dictionaryInit_spec (allocator : Heap.Allocator (MemoryBlock υ)) (iSize : Int32)
    (heap : Heap (MemoryBlock υ)) :
    Represents heap (dictionaryInit allocator iSize heap).1 (dictionaryInit allocator iSize heap).2
      (ChainedDictionary.dictionaryInit υ iSize) := by
  by_cases positive : 0 < iSize
  · have splits := (Heap.Splits.refl heap).alloc allocator
      (.pointers ⟨fun _ => 0, iSize.toNatClampNeg⟩)
    rw [init_of_pos positive, dictionaryInit, if_pos positive]
    refine ⟨_, .table positive _ fun _ => [], ?_⟩
    rw [tableBlocks, chainsBlocks_nil]
    exact splits
  · rw [init_of_not_pos positive, dictionaryInit, if_neg positive]
    exact ⟨0, .null (Int32.not_lt.mp positive), .refl heap⟩

/-- There is a table before an entry is linked. -/
theorem withEntries_spec (allocator : Heap.Allocator (MemoryBlock υ))
    (here : Represents frame heap ref d) :
    ∃ heap' p iSize table, withEntries allocator ref heap = (heap', ⟨iSize, p⟩) ∧ 0 < iSize ∧
      heap'.Splits frame (tableBlocks p iSize table) ∧ d.withEntries = ofNodes iSize table := by
  obtain ⟨blocks, footprint, splits⟩ := here
  cases footprint with
  | null size =>
      obtain rfl := splits.eq_frame
      have one : (0 : Int32) < 1 := by decide
      have splits := (Heap.Splits.refl heap).alloc allocator
        (.pointers ⟨fun _ => 0, (1 : Int32).toNatClampNeg⟩)
      refine ⟨_, _, 1, fun _ => [], rfl, one, ?_, init_of_pos one⟩
      rw [tableBlocks, chainsBlocks_nil]
      exact splits
  | @table iSize positive p table =>
      exact ⟨heap, p, iSize, table, if_neg (table_ne_null splits), positive, splits, rfl⟩

/-- Two blocks and a cell of the table make a new entry. -/
theorem linkEntry_spec (allocator : Heap.Allocator (MemoryBlock υ))
    (here : Represents frame heap ref d) (key : CString) (value : υ) :
    ∃ heap' p iSize table n, linkEntry allocator ref key value heap =
        some (heap', ⟨iSize, p⟩, n.address) ∧ 0 < iSize ∧
      ChainedDictionary.linkEntry d key value = ofNodes iSize (Function.update table
        (dictHash key iSize).toNat (n :: table (dictHash key iSize).toNat)) ∧
      heap'.Splits frame (tableBlocks p iSize (Function.update table
        (dictHash key iSize).toNat (n :: table (dictHash key iSize).toNat))) := by
  obtain ⟨heap₀, p, iSize, table, withTable, positive, splits, same⟩ :=
    withEntries_spec allocator here
  have inside := dictHash_lt key positive
  obtain ⟨others, focus⟩ := exists_otherBlocks table inside
  have whole := focus (table (dictHash key iSize).toNat)
  rw [Function.update_eq_self] at whole
  -- the entry and its key are allocated
  have fresh := splits.alloc allocator .fresh
  rcases entry : heap₀.alloc allocator .fresh with ⟨heap₁, pEntry⟩
  rw [entry] at fresh
  have copied := fresh.alloc allocator (.text key)
  rcases text : heap₁.alloc allocator (.text key) with ⟨heap₂, pszKey⟩
  rw [text, tableBlocks, whole] at copied
  let n : Node υ := ⟨pEntry, pszKey, ⟨key, value⟩⟩
  have has : heap₂.Has (tableBlock p iSize table ::ₘ
      (chainBlocks (table (dictHash key iSize).toNat) + others)) :=
    copied.has.mono ((Multiset.le_cons_self ..).trans (Multiset.le_cons_self ..))
  have next := readCell_of_has has inside
  -- they are written and put in front of the chain
  rw [Multiset.cons_swap] at copied
  obtain ⟨heap₃, written, splits₃⟩ :=
    copied.write (.entry ⟨pszKey, value, firstOf (table (dictHash key iSize).toNat)⟩)
  have front : heap₃.Splits frame (tableBlock p iSize table ::ₘ
      n.block (table (dictHash key iSize).toNat) ::ₘ n.keyBlock ::ₘ
        (chainBlocks (table (dictHash key iSize).toNat) + others)) := by
    rw [Multiset.cons_swap, Multiset.cons_swap (tableBlock p iSize table)]
    exact splits₃
  obtain ⟨heap₄, linked, splits₄⟩ := writeCell_spec front inside
    (n :: table (dictHash key iSize).toNat)
  refine ⟨heap₄, p, iSize, table, n, ?_, positive, ?_, ?_⟩
  · simp only [linkEntry, withTable, entry, text, Option.bind_eq_bind]
    rw [DictionaryRef.iPos, next, Option.bind_some, written, Option.bind_some]
    exact congrArg (Option.bind · _) linked
  · rw [linkEntry_eq, same]
    exact setChain_ofNodes rfl
  · rw [tableBlocks, focus, chainBlocks, Multiset.cons_add, Multiset.cons_add]
    exact splits₄

/-- Linking an entry, and the chain it is then the first of. -/
theorem linkEntry_represents (allocator : Heap.Allocator (MemoryBlock υ))
    (here : Represents frame heap ref d) (key : CString) (value : υ) :
    ∃ heap' ref' n rest, linkEntry allocator ref key value heap = some (heap', ref', n.address) ∧
      Represents frame heap' ref' (ChainedDictionary.linkEntry d key value) ∧
      heap'.Has (chainBlocks (n :: rest)) ∧ (n :: rest).length < enough heap' ∧
      (ChainedDictionary.linkEntry d key value).chain key = (n :: rest).map Node.entry := by
  obtain ⟨heap', p, iSize, table, n, linked, positive, same, splits⟩ :=
    linkEntry_spec allocator here key value
  obtain ⟨-, has, bound⟩ := readCell_iPos splits positive key
  rw [Function.update_self] at has bound
  refine ⟨heap', ⟨iSize, p⟩, n, _, linked, ⟨_, same ▸ .table positive p _, splits⟩, has, bound, ?_⟩
  rw [same]
  exact congrArg (List.map Node.entry) (Function.update_self ..)

/-! ## Clearing -/

/-- The values for which a callback is called. -/
def given (pfOsFree : Bool) (values : List υ) : List υ := if pfOsFree then values else []

@[simp]
theorem callback_heap (pfOsFree : Bool) (value : υ) (m : State υ) :
    (m.callback pfOsFree value).heap = m.heap := by
  cases pfOsFree <;> rfl

@[simp]
theorem callback_handed (pfOsFree : Bool) (value : υ) (m : State υ) :
    (m.callback pfOsFree value).handed = m.handed ++ given pfOsFree [value] := by
  cases pfOsFree
  · exact (List.append_nil _).symm
  · rfl

theorem given_append (pfOsFree : Bool) (values values' : List υ) :
    given pfOsFree (values ++ values') = given pfOsFree values ++ given pfOsFree values' := by
  cases pfOsFree <;> rfl

/-- All blocks of a chain are freed. -/
theorem clearChain_spec (pfOsFree : Bool)
    (splits : m.heap.Splits frame (chainBlocks nodes + others))
    (bound : nodes.length < fuel) :
    ∃ m', clearChain pfOsFree fuel (firstOf nodes) m = some m' ∧ m'.heap.Splits frame others ∧
      m'.handed = m.handed ++ given pfOsFree (nodes.map fun n => n.entry.pValue) := by
  induction nodes generalizing fuel m with
  | nil =>
      obtain ⟨fuel, rfl⟩ := Nat.exists_eq_succ_of_ne_zero (Nat.ne_zero_of_lt bound)
      refine ⟨m, rfl, ?_, ?_⟩
      · rwa [chainBlocks, Multiset.zero_add] at splits
      · cases pfOsFree <;> exact (List.append_nil _).symm
  | cons n rest induction =>
      obtain ⟨fuel, rfl⟩ := Nat.exists_eq_succ_of_ne_zero (Nat.ne_zero_of_lt bound)
      have has : m.heap.Has (chainBlocks (n :: rest)) :=
        splits.has.mono (Multiset.le_add_right ..)
      rw [chainBlocks, Multiset.cons_add, Multiset.cons_add, Multiset.cons_swap] at splits
      obtain ⟨heap₁, keyFreed, splits₁⟩ := splits.free
      obtain ⟨heap₂, freed, splits₂⟩ := splits₁.free
      obtain ⟨m', cleared, final, handed⟩ := induction
        (m := { m.callback pfOsFree n.entry.pValue with heap := heap₂ }) splits₂
        (Nat.lt_of_succ_lt_succ bound)
      refine ⟨m', ?_, final, ?_⟩
      · rw [firstOf, clearChain, if_neg (address_ne_null has), entryAt_of_has has]
        simp only [Option.bind_eq_bind, Option.bind_some, callback_heap, keyFreed, freed, cleared]
      · rw [handed, List.map_cons, ← List.singleton_append, given_append, ← List.append_assoc]
        exact congrArg (· ++ _) (callback_handed ..)

/-- The chains with the given indices are freed one after another. -/
theorem clearChains_spec (pfOsFree : Bool) {indices : List Nat}
    (inside : ∀ i ∈ indices, i < iSize.toNatClampNeg)
    (splits : m.heap.Splits frame
      (tableBlock p iSize table ::ₘ (chainsBlocks table indices + others))) :
    ∃ m', indices.foldlM (fun m i => do
        let pCurrent ← readCell m.heap ⟨iSize, p⟩ i
        clearChain pfOsFree (enough m.heap) pCurrent m) m = some m' ∧
      m'.heap.Splits frame (tableBlock p iSize table ::ₘ others) ∧
      m'.handed = m.handed ++ given pfOsFree
        ((indices.flatMap fun i => (table i).map Node.entry).map DictionaryEntry.pValue) := by
  induction indices generalizing m with
  | nil =>
      refine ⟨m, rfl, ?_, ?_⟩
      · rwa [chainsBlocks, List.map_nil, List.sum_nil, Multiset.zero_add] at splits
      · cases pfOsFree <;> exact (List.append_nil _).symm
  | cons i indices induction =>
      have found := readCell_of_has splits.has (inside i List.mem_cons_self)
      have front : m.heap.Splits frame (chainBlocks (table i) +
          (tableBlock p iSize table ::ₘ (chainsBlocks table indices + others))) := by
        rw [Multiset.add_cons, ← Multiset.add_assoc]
        exact splits
      obtain ⟨m₁, cleared, splits₁, handed⟩ := clearChain_spec pfOsFree front
        (length_lt_enough front (Multiset.le_add_right ..))
      obtain ⟨m', run, final, handed'⟩ :=
        induction (fun j later => inside j (List.mem_cons_of_mem i later)) splits₁
      refine ⟨m', ?_, final, ?_⟩
      · rw [List.foldlM_cons, found]
        simp only [Option.bind_eq_bind, Option.bind_some, cleared]
        exact run
      · rw [handed', handed, List.append_assoc, ← given_append, List.flatMap_cons, List.map_append,
          List.map_map]
        rfl

/-- Clearing leaves the frame, and hands over every value. -/
theorem dictionaryClear_spec (pfOsFree : Bool) (here : Represents frame m.heap ref d) :
    ∃ m', dictionaryClear pfOsFree ref m = some (m', ⟨0, 0⟩) ∧ m'.heap = frame ∧
      m'.handed = m.handed ++ given pfOsFree (d.entries.map DictionaryEntry.pValue) := by
  obtain ⟨blocks, footprint, splits⟩ := here
  cases footprint with
  | null =>
      refine ⟨m, rfl, splits.eq_frame, ?_⟩
      cases pfOsFree <;> exact (List.append_nil _).symm
  | @table iSize positive p table =>
      have ne_null := table_ne_null splits
      rw [tableBlocks, ← Multiset.add_zero (chainsBlocks ..)] at splits
      obtain ⟨m₁, cleared, splits₁, handed⟩ :=
        clearChains_spec pfOsFree (fun i => List.mem_range.mp) splits
      obtain ⟨heap', freed, final⟩ := splits₁.free
      refine ⟨{ m₁ with heap := heap' }, ?_, final.eq_frame, handed⟩
      rw [dictionaryClear, if_neg ne_null]
      change Option.bind _ _ = _
      rw [DictionaryRef.indices, cleared, Option.bind_some]
      exact congrArg (Option.bind · _) freed

/-! ## Rebuilding -/

/-- The entries of a chain of another dictionary are linked one after another. -/
theorem copyChain_spec (allocator : Heap.Allocator (MemoryBlock υ)) {old : Heap (MemoryBlock υ)}
    (has : old.Has (chainBlocks nodes)) (here : Represents old heap ref d)
    (bound : nodes.length < fuel) :
    ∃ new, copyChain allocator fuel (firstOf nodes) (heap, ref) = some new ∧
      Represents old new.1 new.2 ((nodes.map Node.entry).foldl
        (fun d entry => ChainedDictionary.linkEntry d entry.pszKey entry.pValue) d) := by
  induction nodes generalizing fuel heap ref d with
  | nil =>
      obtain ⟨fuel, rfl⟩ := Nat.exists_eq_succ_of_ne_zero (Nat.ne_zero_of_lt bound)
      exact ⟨(heap, ref), rfl, here⟩
  | cons n rest induction =>
      obtain ⟨fuel, rfl⟩ := Nat.exists_eq_succ_of_ne_zero (Nat.ne_zero_of_lt bound)
      have before : heap.Has (chainBlocks (n :: rest)) := by
        obtain ⟨blocks, -, splits⟩ := here
        exact splits.has_of_frame has
      obtain ⟨heap₁, ref₁, n', rest', linked, there, -⟩ :=
        linkEntry_represents allocator here n.entry.pszKey n.entry.pValue
      have after : heap₁.Has (chainBlocks (n :: rest)) := by
        obtain ⟨blocks, -, splits⟩ := there
        exact splits.has_of_frame has
      obtain ⟨new, copied, final⟩ := induction (has.mono (chainBlocks_le_cons n rest)) there
        (Nat.lt_of_succ_lt_succ bound)
      refine ⟨new, ?_, final⟩
      rw [firstOf, copyChain, if_neg (address_ne_null before), entryAt_of_has before]
      simp only [Option.bind_eq_bind, Option.bind_some, textAt_of_has before, linked,
        entryAt_of_has after, copied]

/-- A heap on which a dictionary was put has room for longer walks than its frame. -/
theorem enough_le (here : Represents frame heap ref d) : enough frame ≤ enough heap := by
  obtain ⟨blocks, -, splits⟩ := here
  rw [enough, enough, splits.card_allocated]
  omega

/-- The chains with the given indices are copied one after another. -/
theorem copyChains_spec (allocator : Heap.Allocator (MemoryBlock υ)) {old : Heap (MemoryBlock υ)}
    (has : old.Has (tableBlocks p iSize table))
    (bound : ∀ i < iSize.toNatClampNeg, (table i).length < enough old) {indices : List Nat}
    (inside : ∀ i ∈ indices, i < iSize.toNatClampNeg) (here : Represents old heap ref d) :
    ∃ new, indices.foldlM (fun (new : Heap (MemoryBlock υ) × DictionaryRef) i => do
        let pEntry ← readCell new.1 ⟨iSize, p⟩ i
        copyChain allocator (enough new.1) pEntry new) (heap, ref) = some new ∧
      Represents old new.1 new.2 ((indices.flatMap fun i => (table i).map Node.entry).foldl
        (fun d entry => ChainedDictionary.linkEntry d entry.pszKey entry.pValue) d) := by
  induction indices generalizing heap ref d with
  | nil => exact ⟨(heap, ref), rfl, here⟩
  | cons i indices induction =>
      have within := inside i List.mem_cons_self
      have found : readCell heap ⟨iSize, p⟩ i = some (firstOf (table i)) := by
        obtain ⟨blocks, -, splits⟩ := here
        exact readCell_of_has (splits.has_of_frame has) within
      obtain ⟨⟨heap₁, ref₁⟩, copied, there⟩ := copyChain_spec allocator
        (has.mono (chainBlocks_le_tableBlocks p table within)) here
        ((bound i within).trans_le (enough_le here))
      obtain ⟨new, run, final⟩ :=
        induction (fun j later => inside j (List.mem_cons_of_mem i later)) there
      refine ⟨new, ?_, ?_⟩
      · rw [List.foldlM_cons, found]
        simp only [Option.bind_eq_bind, Option.bind_some, copied]
        exact run
      · rwa [List.flatMap_cons, List.foldl_append]

/-- The new dictionary replaces the old one, whose blocks are freed. -/
theorem rebuilt_spec (allocator : Heap.Allocator (MemoryBlock υ))
    (here : Represents frame m.heap ref d) :
    ∃ m' ref', rebuilt allocator ref m = some (m', ref') ∧
      Represents frame m'.heap ref' (ChainedDictionary.rebuilt d) ∧ m'.handed = m.handed := by
  have started := dictionaryInit_spec allocator (newSize ref.iSize) m.heap
  obtain ⟨new, copied, there⟩ : ∃ new : Heap (MemoryBlock υ) × DictionaryRef,
      ref.indices.foldlM (fun (new : Heap (MemoryBlock υ) × DictionaryRef) i => do
        let pEntry ← readCell new.1 ref i
        copyChain allocator (enough new.1) pEntry new)
        (dictionaryInit allocator (newSize ref.iSize) m.heap) = some new ∧
      Represents m.heap new.1 new.2 (ChainedDictionary.rebuilt d) := by
    obtain ⟨blocks, footprint, splits⟩ := here
    cases footprint with
    | @null iSize size =>
        rw [indices_of_nonpos size]
        exact ⟨_, rfl, started⟩
    | @table iSize positive p table =>
        exact copyChains_spec allocator splits.has
          (fun i inside => length_lt_enough splits (chainBlocks_le_tableBlocks p table inside))
          (fun i => List.mem_range.mp) started
  obtain ⟨blocks, footprint, splits⟩ := here
  obtain ⟨newBlocks, newFootprint, newSplits⟩ := there
  obtain ⟨middle, middleSplits, oldSplits⟩ := splits.exchange newSplits
  obtain ⟨m', cleared, left, handed⟩ := dictionaryClear_spec (m := { m with heap := new.1 }) false
    ⟨blocks, footprint, oldSplits⟩
  refine ⟨m', new.2, ?_, ⟨newBlocks, newFootprint, left ▸ middleSplits⟩, ?_⟩
  · rw [rebuilt, copied]
    simp only [Option.bind_eq_bind, Option.bind_some, cleared]
  · exact handed.trans (List.append_nil _)

/-- An insertion on the heap is that on the chains. -/
theorem dictionaryInsert_spec (allocator : Heap.Allocator (MemoryBlock υ))
    (here : Represents frame m.heap ref d) (key : CString) (value : υ) :
    ∃ m' ref', dictionaryInsert allocator ref key value m = some (m', ref') ∧
      Represents frame m'.heap ref' (ChainedDictionary.dictionaryInsert d key value) ∧
      m'.handed = m.handed := by
  obtain ⟨heap', ref', n, rest, linked, there, has, bound, chain⟩ :=
    linkEntry_represents allocator here key value
  have counted := countNext_spec has (Nat.lt_of_succ_lt bound) 1
  have length : ((ChainedDictionary.linkEntry d key value).chain key).length = 1 + rest.length := by
    rw [chain, List.length_map, List.length_cons, Nat.add_comm]
  rw [dictionaryInsert, linked]
  simp only [Option.bind_eq_bind, Option.bind_some, counted]
  rw [ChainedDictionary.dictionaryInsert, dictionaryInsertRebuild]
  simp only [true_and, length]
  by_cases grown : 3 < 1 + rest.length
  · obtain ⟨m', ref'', rebuilds, final, handed⟩ :=
      rebuilt_spec allocator (m := { m with heap := heap' }) there
    refine ⟨m', ref'', ?_, ?_, handed⟩
    · rw [if_pos grown, rebuilds]
    · rwa [if_pos grown]
  · refine ⟨{ m with heap := heap' }, ref', if_neg grown, ?_, rfl⟩
    rwa [if_neg grown]

/-! ## Removing -/

/-- The key of a node. -/
def Node.key (n : Node υ) : CString := n.entry.pszKey

/-- The value of the first entry with a key. -/
def valueIn (key : CString) (nodes : List (Node υ)) : Option υ :=
  ((nodes.map Node.entry).find? fun entry => entry.pszKey = key).map DictionaryEntry.pValue

section Remove

variable {key : CString} {n prev : Node υ} {rest : List (Node υ)} {pfOsFree : Bool} {pPrev : Nat}

theorem valueIn_of_eq (same : n.key = key) : valueIn key (n :: rest) = some n.entry.pValue := by
  rw [valueIn, List.map_cons, List.find?_cons_of_pos (by simpa [Node.key] using same),
    Option.map_some]

theorem valueIn_of_ne (differ : n.key ≠ key) : valueIn key (n :: rest) = valueIn key rest := by
  rw [valueIn, List.map_cons, List.find?_cons_of_neg (by simpa [Node.key] using differ), valueIn]

theorem map_eraseKey (key : CString) (nodes : List (Node υ)) :
    (eraseKey Node.key key nodes).map Node.entry =
      eraseKey DictionaryEntry.pszKey key (nodes.map Node.entry) := by
  rw [eraseKey, eraseKey, List.eraseP_map]
  rfl

/-- An entry with the key is unlinked, and its two blocks are freed. -/
theorem removeFrom_of_eq (has : m.heap.Has (chainBlocks (n :: rest))) (same : n.key = key)
    (unlinked : unlink ref (ref.iPos key) pPrev (firstOf rest) m.heap = some heap)
    (splits : heap.Splits frame (n.block rest ::ₘ n.keyBlock ::ₘ others)) (fuel : Nat) :
    ∃ m', removeFrom pfOsFree ref key (fuel + 1) pPrev n.address m = some m' ∧
      m'.heap.Splits frame others ∧
      m'.handed = m.handed ++ given pfOsFree (valueIn key (n :: rest)).toList := by
  rw [Multiset.cons_swap] at splits
  obtain ⟨heap₁, keyFreed, splits₁⟩ := splits.free
  obtain ⟨heap₂, freed, splits₂⟩ := splits₁.free
  refine ⟨{ m.callback pfOsFree n.entry.pValue with heap := heap₂ }, ?_, splits₂, ?_⟩
  · rw [removeFrom, entryAt_of_has has]
    simp only [Option.bind_eq_bind, Option.bind_some, textAt_of_has has]
    rw [if_pos (show n.entry.pszKey = key from same), callback_heap, unlinked, Option.bind_some,
      keyFreed, Option.bind_some, freed]
    rfl
  · rw [valueIn_of_eq same]
    exact callback_handed ..

/-- The loop goes on behind an entry with another key. -/
theorem removeFrom_of_ne (has : m.heap.Has (chainBlocks (n :: rest))) (differ : n.key ≠ key)
    (fuel : Nat) :
    removeFrom pfOsFree ref key (fuel + 1) pPrev n.address m =
      if firstOf rest ≠ 0 then removeFrom pfOsFree ref key fuel n.address (firstOf rest) m
      else some m := by
  rw [removeFrom, entryAt_of_has has]
  simp only [Option.bind_eq_bind, Option.bind_some, textAt_of_has has]
  exact if_neg differ

/-- The entry behind one that stays is taken out. -/
theorem removeFrom_behind_of_eq (pfOsFree : Bool) (ref : DictionaryRef)
    (splits : m.heap.Splits frame (chainBlocks (prev :: n :: rest) + others))
    (same : n.key = key) (fuel : Nat) :
    ∃ m', removeFrom pfOsFree ref key (fuel + 1) prev.address n.address m = some m' ∧
      m'.heap.Splits frame (chainBlocks (prev :: rest) + others) ∧
      m'.handed = m.handed ++ given pfOsFree (valueIn key (n :: rest)).toList := by
  have has : m.heap.Has (chainBlocks (prev :: n :: rest)) :=
    splits.has.mono (Multiset.le_add_right ..)
  rw [chainBlocks, Multiset.cons_add] at splits
  obtain ⟨heap', written, splits'⟩ :=
    splits.write (.entry ⟨prev.keyAddress, prev.entry.pValue, firstOf rest⟩)
  have rest_has : m.heap.Has (chainBlocks (n :: rest)) := has.mono (chainBlocks_le_cons prev _)
  have unlinked : unlink ref (ref.iPos key) prev.address (firstOf rest) m.heap = some heap' := by
    rw [unlink, if_neg (address_ne_null has), entryAt_of_has has]
    exact written
  have order : prev.block rest ::ₘ (prev.keyBlock ::ₘ chainBlocks (n :: rest) + others) =
      n.block rest ::ₘ n.keyBlock ::ₘ (chainBlocks (prev :: rest) + others) := by
    rw [chainBlocks, chainBlocks, Multiset.cons_add, Multiset.cons_add, Multiset.cons_add,
      Multiset.cons_add, Multiset.cons_add, Multiset.cons_swap prev.keyBlock (n.block rest),
      Multiset.cons_swap prev.keyBlock n.keyBlock, Multiset.cons_swap n.keyBlock (prev.block rest),
      Multiset.cons_swap (n.block rest) (prev.block rest)]
  have splits'' : heap'.Splits frame
      (n.block rest ::ₘ n.keyBlock ::ₘ (chainBlocks (prev :: rest) + others)) := order ▸ splits'
  exact removeFrom_of_eq rest_has same unlinked splits'' fuel

/-- The loop behind an entry that stays. -/
theorem removeFrom_behind (pfOsFree : Bool) (ref : DictionaryRef)
    (splits : m.heap.Splits frame (chainBlocks (prev :: n :: rest) + others))
    (bound : rest.length < fuel) :
    ∃ m', removeFrom pfOsFree ref key fuel prev.address n.address m = some m' ∧
      m'.heap.Splits frame (chainBlocks (prev :: eraseKey Node.key key (n :: rest)) + others) ∧
      m'.handed = m.handed ++ given pfOsFree (valueIn key (n :: rest)).toList := by
  induction rest generalizing prev n others fuel with
  | nil =>
      obtain ⟨fuel, rfl⟩ := Nat.exists_eq_succ_of_ne_zero (Nat.ne_zero_of_lt bound)
      by_cases same : n.key = key
      · rw [eraseKey_cons_of_eq same]
        exact removeFrom_behind_of_eq pfOsFree ref splits same fuel
      · have has : m.heap.Has (chainBlocks [n]) :=
          splits.has.mono ((chainBlocks_le_cons prev [n]).trans (Multiset.le_add_right ..))
        rw [removeFrom_of_ne has same, valueIn_of_ne same, eraseKey_cons_of_ne same]
        refine ⟨m, rfl, splits, ?_⟩
        cases pfOsFree <;> exact (List.append_nil _).symm
  | cons n' rest induction =>
      obtain ⟨fuel, rfl⟩ := Nat.exists_eq_succ_of_ne_zero (Nat.ne_zero_of_lt bound)
      by_cases same : n.key = key
      · rw [eraseKey_cons_of_eq same]
        exact removeFrom_behind_of_eq pfOsFree ref splits same fuel
      · have has : m.heap.Has (chainBlocks (n :: n' :: rest)) :=
          splits.has.mono ((chainBlocks_le_cons prev _).trans (Multiset.le_add_right ..))
        have tail := has.mono (chainBlocks_le_cons n (n' :: rest))
        rw [removeFrom_of_ne has same, if_pos (firstOf_ne_null tail), valueIn_of_ne same,
          eraseKey_cons_of_ne same]
        rw [chainBlocks, Multiset.cons_add, Multiset.cons_add, ← Multiset.add_cons,
          ← Multiset.add_cons] at splits
        obtain ⟨m', run, final, handed⟩ := induction splits (Nat.lt_of_succ_lt_succ bound)
        refine ⟨m', run, ?_, handed⟩
        rw [chainBlocks, Multiset.cons_add, Multiset.cons_add, ← Multiset.add_cons,
          ← Multiset.add_cons]
        exact final

/-- The loop from the first entry of a bucket on. -/
theorem removeFrom_first (pfOsFree : Bool) (positive : 0 < iSize)
    (first : table (dictHash key iSize).toNat = n :: rest)
    (splits : m.heap.Splits frame (tableBlock p iSize table ::ₘ (chainBlocks (n :: rest) + others)))
    (bound : rest.length < fuel) :
    ∃ m', removeFrom pfOsFree ⟨iSize, p⟩ key fuel 0 n.address m = some m' ∧
      m'.heap.Splits frame (tableBlock p iSize (Function.update table (dictHash key iSize).toNat
        (eraseKey Node.key key (n :: rest))) ::ₘ
          (chainBlocks (eraseKey Node.key key (n :: rest)) + others)) ∧
      m'.handed = m.handed ++ given pfOsFree (valueIn key (n :: rest)).toList := by
  have inside := dictHash_lt key positive
  have has : m.heap.Has (chainBlocks (n :: rest)) :=
    splits.has.mono ((Multiset.le_add_right ..).trans (Multiset.le_cons_self ..))
  obtain ⟨fuel, rfl⟩ := Nat.exists_eq_succ_of_ne_zero (Nat.ne_zero_of_lt bound)
  by_cases same : n.key = key
  · obtain ⟨heap', written, splits'⟩ := writeCell_spec splits inside rest
    have unlinked : unlink ⟨iSize, p⟩ (DictionaryRef.iPos ⟨iSize, p⟩ key) 0 (firstOf rest) m.heap =
        some heap' := written
    rw [eraseKey_cons_of_eq same]
    refine removeFrom_of_eq has same unlinked ?_ fuel
    rw [chainBlocks, Multiset.cons_add, Multiset.cons_add, Multiset.cons_swap,
      Multiset.cons_swap _ n.keyBlock] at splits'
    exact splits'
  · rw [removeFrom_of_ne has same, valueIn_of_ne same, eraseKey_cons_of_ne same,
      tableBlock_update (by rw [first]; rfl)]
    cases rest with
    | nil =>
        refine ⟨m, rfl, splits, ?_⟩
        cases pfOsFree <;> exact (List.append_nil _).symm
    | cons n' rest =>
        rw [if_pos (firstOf_ne_null (has.mono (chainBlocks_le_cons n (n' :: rest))))]
        rw [← Multiset.add_cons] at splits ⊢
        exact removeFrom_behind pfOsFree _ splits (Nat.lt_of_succ_lt_succ bound)

end Remove

/-- A removal on the heap is that on the chains, and hands over the value it takes out. -/
theorem dictionaryRemoveValueForKey_spec (pfOsFree : Bool) (here : Represents frame m.heap ref d)
    (key : CString) :
    ∃ m', dictionaryRemoveValueForKey pfOsFree ref key m = some m' ∧
      Represents frame m'.heap ref (ChainedDictionary.dictionaryRemoveValueForKey d key) ∧
      m'.handed = m.handed ++
        given pfOsFree (ChainedDictionary.dictionaryValueForKey d key).toList := by
  obtain ⟨blocks, footprint, splits⟩ := here
  cases footprint with
  | @null iSize size =>
      refine ⟨m, rfl, ⟨0, .null size, splits⟩, ?_⟩
      cases pfOsFree <;> exact (List.append_nil _).symm
  | @table iSize positive p table =>
      obtain ⟨found, has, bound⟩ := readCell_iPos splits positive key
      have ne_null := table_ne_null splits
      rw [dictionaryRemoveValueForKey, if_neg ne_null, found, remove_eq,
        setChain_ofNodes (map_eraseKey key (table (dictHash key iSize).toNat))]
      change ∃ m', (if firstOf _ = 0 then _ else _) = _ ∧ _ ∧ _ = _ ++
        given pfOsFree (valueIn key (table (dictHash key iSize).toNat)).toList
      cases first : table (dictHash key iSize).toNat with
      | nil =>
          refine ⟨m, rfl, ⟨_, .table positive p _, ?_⟩, ?_⟩
          · have same : eraseKey Node.key key ([] : List (Node υ)) =
                table (dictHash key iSize).toNat := first.symm
            rwa [same, Function.update_eq_self]
          · cases pfOsFree <;> exact (List.append_nil _).symm
      | cons n rest =>
          rw [first] at has bound
          obtain ⟨others, focus⟩ := exists_otherBlocks table (dictHash_lt key positive)
          have whole := focus (n :: rest)
          rw [← first, Function.update_eq_self, first] at whole
          rw [tableBlocks, whole] at splits
          obtain ⟨m', run, final, handed⟩ := removeFrom_first pfOsFree positive first splits
            (Nat.lt_of_succ_lt bound)
          refine ⟨m', ?_, ⟨_, .table positive p _, ?_⟩, handed⟩
          · rw [if_neg (firstOf_ne_null has)]
            exact run
          · rw [tableBlocks, focus]
            exact final

end Memory
end ChainedDictionary
end OstrichServer
