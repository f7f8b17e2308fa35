import OstrichServer.ChainedDictionary.Memory
import OstrichServer.ChainedDictionary.Values

/-!
# The blocks of a dictionary

A dictionary has a block for its table, and a block and a copy of the key for each entry.
`Footprint` tells which blocks these are, and the accesses to them are reads and writes of chains.
-/

namespace OstrichServer
namespace ChainedDictionary
namespace Memory

open Dictionary

variable {υ : Type}

/-- An entry with the addresses of its block and of the copy of its key. -/
structure Node (υ : Type) where
  address : Nat
  keyAddress : Nat
  entry : DictionaryEntry υ

/-- The pointer to the first of some entries. -/
def firstOf : List (Node υ) → Nat
  | [] => 0
  | n :: _ => n.address

/-- The block of an entry in front of others. -/
def Node.block (n : Node υ) (rest : List (Node υ)) : Nat × MemoryBlock υ :=
  (n.address, .entry ⟨n.keyAddress, n.entry.pValue, firstOf rest⟩)

def Node.keyBlock (n : Node υ) : Nat × MemoryBlock υ := (n.keyAddress, .text n.entry.pszKey)

/-- The blocks of a chain. -/
def chainBlocks : List (Node υ) → Multiset (Nat × MemoryBlock υ)
  | [] => 0
  | n :: rest => n.block rest ::ₘ n.keyBlock ::ₘ chainBlocks rest

/-- The blocks of the chains with the given indices. -/
def chainsBlocks (nodes : Nat → List (Node υ)) (indices : List Nat) :
    Multiset (Nat × MemoryBlock υ) :=
  (indices.map fun i => chainBlocks (nodes i)).sum

/-- The block of the table. -/
def tableBlock (p : Nat) (iSize : Int32) (nodes : Nat → List (Node υ)) : Nat × MemoryBlock υ :=
  (p, .pointers ⟨fun i => firstOf (nodes i), iSize.toNatClampNeg⟩)

/-- The blocks of a dictionary with a table. -/
def tableBlocks (p : Nat) (iSize : Int32) (nodes : Nat → List (Node υ)) :
    Multiset (Nat × MemoryBlock υ) :=
  tableBlock p iSize nodes ::ₘ chainsBlocks nodes (List.range iSize.toNatClampNeg)

/-- The dictionary with the entries of some nodes. -/
def ofNodes (iSize : Int32) (nodes : Nat → List (Node υ)) : DictionaryT υ :=
  ⟨iSize, some fun i => (nodes i).map Node.entry⟩

/-- The blocks are those of the dictionary. -/
inductive Footprint : DictionaryRef → DictionaryT υ → Multiset (Nat × MemoryBlock υ) → Prop
  | null {iSize : Int32} (size : iSize ≤ 0) : Footprint ⟨iSize, 0⟩ ⟨iSize, none⟩ 0
  | table {iSize : Int32} (positive : 0 < iSize) (p : Nat) (nodes : Nat → List (Node υ)) :
      Footprint ⟨iSize, p⟩ (ofNodes iSize nodes) (tableBlocks p iSize nodes)

/-- The heap is the frame and, apart from it, the blocks of the dictionary. -/
def Represents (frame heap : Heap (MemoryBlock υ)) (ref : DictionaryRef) (d : DictionaryT υ) :
    Prop :=
  ∃ blocks, Footprint ref d blocks ∧ heap.Splits frame blocks

/-! ## Chains -/

section Chains

variable {heap frame : Heap (MemoryBlock υ)} {nodes rest : List (Node υ)} {n : Node υ}
  {blocks : Multiset (Nat × MemoryBlock υ)}

theorem card_chainBlocks (nodes : List (Node υ)) : (chainBlocks nodes).card = 2 * nodes.length := by
  induction nodes with
  | nil => rfl
  | cons n rest induction =>
      rw [chainBlocks, Multiset.card_cons, Multiset.card_cons, induction, List.length_cons]
      omega

/-- A walk along a chain ends before the bound on its rounds. -/
theorem length_lt_enough (splits : heap.Splits frame blocks) (among : chainBlocks nodes ≤ blocks) :
    nodes.length < enough heap := by
  have fewer := Multiset.card_le_card among
  rw [card_chainBlocks] at fewer
  rw [enough, splits.card_allocated]
  omega

theorem block_mem (n : Node υ) (rest : List (Node υ)) : n.block rest ∈ chainBlocks (n :: rest) :=
  Multiset.mem_cons_self ..

theorem keyBlock_mem (n : Node υ) (rest : List (Node υ)) : n.keyBlock ∈ chainBlocks (n :: rest) :=
  Multiset.mem_cons_of_mem (Multiset.mem_cons_self ..)

theorem chainBlocks_le_cons (n : Node υ) (rest : List (Node υ)) :
    chainBlocks rest ≤ chainBlocks (n :: rest) :=
  (Multiset.le_cons_self ..).trans (Multiset.le_cons_self ..)

theorem entryAt_of_has (has : heap.Has (chainBlocks (n :: rest))) :
    entryAt heap n.address = some ⟨n.keyAddress, n.entry.pValue, firstOf rest⟩ := by
  rw [entryAt, has (block_mem n rest)]

theorem textAt_of_has (has : heap.Has (chainBlocks (n :: rest))) :
    textAt heap n.keyAddress = some n.entry.pszKey := by
  rw [textAt, has (keyBlock_mem n rest)]

theorem address_ne_null (has : heap.Has (chainBlocks (n :: rest))) : n.address ≠ 0 :=
  Heap.ne_null_of_block (has (block_mem n rest))

theorem firstOf_ne_null (has : heap.Has (chainBlocks (n :: rest))) : firstOf (n :: rest) ≠ 0 :=
  address_ne_null has

end Chains

/-! ## Tables -/

section Tables

variable {heap frame : Heap (MemoryBlock υ)} {nodes : Nat → List (Node υ)} {iSize : Int32}
  {p i : Nat} {blocks : Multiset (Nat × MemoryBlock υ)}

theorem chainsBlocks_nil (indices : List Nat) :
    chainsBlocks (fun _ => ([] : List (Node υ))) indices = 0 := by
  rw [chainsBlocks, List.sum_eq_zero]
  intro blocks member
  obtain ⟨i, -, rfl⟩ := List.mem_map.mp member
  rfl

/-- The blocks of the chain of one bucket, and the others, which changes of that chain do not
touch. -/
theorem exists_otherBlocks (nodes : Nat → List (Node υ)) {size : Nat} (inside : i < size) :
    ∃ others, ∀ chain, chainsBlocks (Function.update nodes i chain) (List.range size) =
      chainBlocks chain + others := by
  refine ⟨chainsBlocks nodes ((List.range size).erase i), fun chain => ?_⟩
  have front := List.perm_cons_erase (List.mem_range.mpr inside)
  rw [chainsBlocks, (front.map _).sum_eq, List.map_cons, List.sum_cons, Function.update_self,
    chainsBlocks]
  congr 2
  refine List.map_congr_left fun j other => ?_
  have distinct : j ≠ i := by
    rintro rfl
    exact List.nodup_range.not_mem_erase other
  rw [Function.update_of_ne distinct]

/-- The blocks of a chain are among those of the table. -/
theorem chainBlocks_le_tableBlocks (p : Nat) (nodes : Nat → List (Node υ))
    (inside : i < iSize.toNatClampNeg) : chainBlocks (nodes i) ≤ tableBlocks p iSize nodes := by
  obtain ⟨others, focus⟩ := exists_otherBlocks nodes inside
  have whole := focus (nodes i)
  rw [Function.update_eq_self] at whole
  rw [tableBlocks, whole]
  exact (Multiset.le_add_right ..).trans (Multiset.le_cons_self ..)

theorem readCell_of_has (has : heap.Has (tableBlock p iSize nodes ::ₘ blocks))
    (inside : i < iSize.toNatClampNeg) : readCell heap ⟨iSize, p⟩ i = some (firstOf (nodes i)) := by
  have found : pointersAt heap p = some ⟨fun i => firstOf (nodes i), iSize.toNatClampNeg⟩ := by
    rw [pointersAt, has (Multiset.mem_cons_self (tableBlock p iSize nodes) blocks)]
  rw [readCell, found]
  exact if_pos inside

/-- Writing a cell puts another chain in the bucket. -/
theorem writeCell_spec (splits : heap.Splits frame (tableBlock p iSize nodes ::ₘ blocks))
    (inside : i < iSize.toNatClampNeg) (chain : List (Node υ)) :
    ∃ heap', writeCell heap ⟨iSize, p⟩ i (firstOf chain) = some heap' ∧
      heap'.Splits frame (tableBlock p iSize (Function.update nodes i chain) ::ₘ blocks) := by
  have found : pointersAt heap p = some ⟨fun i => firstOf (nodes i), iSize.toNatClampNeg⟩ := by
    rw [pointersAt, splits.has (Multiset.mem_cons_self (tableBlock p iSize nodes) blocks)]
  have cells : Function.update (fun i => firstOf (nodes i)) i (firstOf chain) =
      fun j => firstOf (Function.update nodes i chain j) :=
    (Function.comp_update firstOf nodes i chain).symm
  obtain ⟨heap', written, splits'⟩ := Heap.Splits.write splits
    (.pointers ⟨fun j => firstOf (Function.update nodes i chain j), iSize.toNatClampNeg⟩)
  refine ⟨heap', ?_, splits'⟩
  rw [writeCell, writePointer, found]
  simp only [Option.bind_eq_bind, Option.bind_some, Block.write, if_pos inside, cells, written]

/-- A chain with the same first entry needs no write. -/
theorem tableBlock_update {chain : List (Node υ)} (same : firstOf chain = firstOf (nodes i)) :
    tableBlock p iSize (Function.update nodes i chain) = tableBlock p iSize nodes := by
  have cells : (fun j => firstOf (Function.update nodes i chain j)) =
      fun j => firstOf (nodes j) := by
    funext j
    by_cases here : j = i
    · subst here
      rw [Function.update_self, same]
    · rw [Function.update_of_ne here]
  rw [tableBlock, cells, tableBlock]

/-- Another chain for a key. -/
theorem setChain_ofNodes {iSize : Int32} {nodes : Nat → List (Node υ)} {key : CString}
    {change : List (DictionaryEntry υ) → List (DictionaryEntry υ)} {chain : List (Node υ)}
    (changed : chain.map Node.entry = change ((nodes (dictHash key iSize).toNat).map Node.entry)) :
    (ofNodes iSize nodes).setChain key change =
      ofNodes iSize (Function.update nodes (dictHash key iSize).toNat chain) := by
  have updated := Function.comp_update (List.map Node.entry) nodes (dictHash key iSize).toNat chain
  rw [changed] at updated
  exact congrArg (fun chains => DictionaryT.mk iSize (some chains)) updated.symm

/-- Without a table there is nothing to go through. -/
theorem indices_of_nonpos (size : iSize ≤ 0) : (⟨iSize, p⟩ : DictionaryRef).indices = [] := by
  rw [DictionaryRef.indices, List.range_eq_nil]
  exact Int.toNat_of_nonpos (Int32.le_iff_toInt_le.mp size)

theorem table_ne_null (splits : heap.Splits frame (tableBlocks p iSize nodes)) : p ≠ 0 :=
  splits.ne_null (Multiset.mem_cons_self ..)

end Tables

end Memory
end ChainedDictionary
end OstrichServer
