import OstrichServer.ChainedDictionary.Ledger

/-!
# The array of all keys

`dictionary_all_keys` counts the entries, allocates an array with one cell more, and walks the
chains again to fill it with copies of the keys.  The array and the copies are the caller's.
-/

namespace OstrichServer
namespace ChainedDictionary
namespace Memory

open Dictionary

variable {υ : Type} {heap old frame : Heap (MemoryBlock υ)} {ref : DictionaryRef}
  {d : DictionaryT υ} {iSize : Int32} {p a count fuel : Nat} {nodes : List (Node υ)}
  {table : Nat → List (Node υ)} {cells : Block Nat} {copies : List (Nat × CString)}

/-- The blocks of an array and of the copies it points to. -/
def keyBlocks (a : Nat) (cells : Block Nat) (copies : List (Nat × CString)) :
    Multiset (Nat × MemoryBlock υ) :=
  (a, .pointers cells) ::ₘ ↑(copies.map fun copy => (copy.1, (.text copy.2 : MemoryBlock υ)))

/-- The array points to the copies made so far, and has room for so many. -/
def Copied (old heap : Heap (MemoryBlock υ)) (a room : Nat) (copies : List (Nat × CString)) :
    Prop :=
  ∃ cells : Block Nat, heap.Splits old (keyBlocks a cells copies) ∧ cells.room = room ∧
    cells.contents copies.length = copies.map Prod.fst

/-- One more pointer. -/
theorem writePointer_spec {blocks : Multiset (Nat × MemoryBlock υ)}
    (splits : heap.Splits old ((a, .pointers cells) ::ₘ blocks)) (inside : count < cells.room)
    (x : Nat) :
    ∃ heap' cells', writePointer heap a count x = some heap' ∧
      heap'.Splits old ((a, .pointers cells') ::ₘ blocks) ∧ cells'.room = cells.room ∧
      cells'.contents (count + 1) = cells.contents count ++ [x] := by
  have found : pointersAt heap a = some cells := by
    rw [pointersAt, splits.has (Multiset.mem_cons_self ..)]
  obtain ⟨cells', written, room, contents⟩ := Block.write_end x inside
  obtain ⟨heap', stored, splits'⟩ := splits.write (.pointers cells')
  refine ⟨heap', cells', ?_, splits', room, contents⟩
  rw [writePointer, found]
  simp only [Option.bind_eq_bind, Option.bind_some, written, stored]

/-- A copy of one more key. -/
theorem Copied.push {room : Nat} (copied : Copied old heap a room copies)
    (allocator : Heap.Allocator (MemoryBlock υ)) (inside : copies.length < room) (key : CString) :
    ∃ heap' copy, writePointer (heap.alloc allocator (.text key)).1 a copies.length
        (heap.alloc allocator (.text key)).2 = some heap' ∧
      Copied old heap' a room (copies ++ [(copy, key)]) := by
  obtain ⟨cells, splits, rfl, contents⟩ := copied
  have allocated := splits.alloc allocator (.text key)
  rw [keyBlocks, Multiset.cons_swap] at allocated
  obtain ⟨heap', cells', written, splits', room, contents'⟩ :=
    writePointer_spec allocated inside (heap.alloc allocator (.text key)).2
  refine ⟨heap', (heap.alloc allocator (.text key)).2, written, cells', ?_, room, ?_⟩
  · rw [keyBlocks, List.map_append, ← Multiset.coe_add, add_comm]
    exact splits'
  · rw [List.length_append, List.length_singleton, contents', contents, List.map_append]
    rfl

/-- The keys of a chain are copied. -/
theorem copyKeys_spec {room : Nat} (allocator : Heap.Allocator (MemoryBlock υ))
    (has : old.Has (chainBlocks nodes)) (copied : Copied old heap a room copies)
    (few : room < 2 ^ 31) (inside : copies.length + nodes.length ≤ room)
    (bound : nodes.length < fuel) :
    ∃ heap' copies', copyKeys allocator a fuel (firstOf nodes) (heap, .ofNat copies.length) =
        some (heap', .ofNat copies'.length) ∧ Copied old heap' a room copies' ∧
      copies'.map Prod.snd = copies.map Prod.snd ++ nodes.map fun n => n.entry.pszKey := by
  induction nodes generalizing fuel heap copies with
  | nil =>
      obtain ⟨fuel, rfl⟩ := Nat.exists_eq_succ_of_ne_zero (Nat.ne_zero_of_lt bound)
      exact ⟨heap, copies, rfl, copied, (List.append_nil _).symm⟩
  | cons n rest induction =>
      obtain ⟨fuel, rfl⟩ := Nat.exists_eq_succ_of_ne_zero (Nat.ne_zero_of_lt bound)
      have before : heap.Has (chainBlocks (n :: rest)) := by
        obtain ⟨cells, splits, -⟩ := copied
        exact splits.has_of_frame has
      rw [List.length_cons] at inside
      obtain ⟨heap₁, copy, written, copied₁⟩ :=
        copied.push allocator (by omega) n.entry.pszKey
      have after : heap₁.Has (chainBlocks (n :: rest)) := by
        obtain ⟨cells, splits, -⟩ := copied₁
        exact splits.has_of_frame has
      obtain ⟨heap', copies', run, final, keys⟩ :=
        induction (has.mono (chainBlocks_le_cons n rest)) copied₁
          (by rw [List.length_append, List.length_singleton]; omega) (Nat.lt_of_succ_lt_succ bound)
      refine ⟨heap', copies', ?_, final, ?_⟩
      · rw [List.length_append, List.length_singleton, ofNat_succ] at run
        rw [firstOf, copyKeys, if_neg (address_ne_null before), entryAt_of_has before,
          Int32.toNatClampNeg_ofNat_of_lt (by omega)]
        simp only [Option.bind_eq_bind, Option.bind_some, textAt_of_has before, written,
          entryAt_of_has after, run]
      · rw [keys, List.map_append, List.append_assoc]
        rfl

/-- The keys of the chains with the given indices are copied. -/
theorem copyAllKeys_spec {room : Nat} (allocator : Heap.Allocator (MemoryBlock υ))
    (has : old.Has (tableBlocks p iSize table))
    (bound : ∀ i < iSize.toNatClampNeg, (table i).length < enough old) {indices : List Nat}
    (within : ∀ i ∈ indices, i < iSize.toNatClampNeg) (copied : Copied old heap a room copies)
    (few : room < 2 ^ 31)
    (inside : copies.length + (indices.flatMap fun i => (table i).map Node.entry).length ≤ room) :
    ∃ heap' copies', indices.foldlM (fun (copied : Heap (MemoryBlock υ) × Int32) i => do
        let pEntry ← readCell copied.1 ⟨iSize, p⟩ i
        copyKeys allocator a (enough copied.1) pEntry copied) (heap, .ofNat copies.length) =
        some (heap', .ofNat copies'.length) ∧ Copied old heap' a room copies' ∧
      copies'.map Prod.snd = copies.map Prod.snd ++
        (indices.flatMap fun i => (table i).map Node.entry).map DictionaryEntry.pszKey := by
  induction indices generalizing heap copies with
  | nil => exact ⟨heap, copies, rfl, copied, (List.append_nil _).symm⟩
  | cons i indices induction =>
      have here := within i List.mem_cons_self
      have room_for : enough old ≤ enough heap := by
        obtain ⟨cells, splits, -⟩ := copied
        rw [enough, enough, splits.card_allocated]
        omega
      have found : readCell heap ⟨iSize, p⟩ i = some (firstOf (table i)) := by
        obtain ⟨cells, splits, -⟩ := copied
        exact readCell_of_has (splits.has_of_frame has) here
      rw [List.flatMap_cons, List.length_append, List.length_map, ← Nat.add_assoc] at inside
      obtain ⟨heap₁, copies₁, first, copied₁, keys₁⟩ := copyKeys_spec allocator
        (has.mono (chainBlocks_le_tableBlocks p table here)) copied few (by omega)
        ((bound i here).trans_le room_for)
      have longer : copies₁.length = copies.length + (table i).length := by
        simpa using congrArg List.length keys₁
      obtain ⟨heap', copies', run, final, keys⟩ := induction
        (fun j later => within j (List.mem_cons_of_mem i later)) copied₁ (by rw [longer]; omega)
      refine ⟨heap', copies', ?_, final, ?_⟩
      · rw [List.foldlM_cons, found]
        simp only [Option.bind_eq_bind, Option.bind_some, first]
        exact run
      · rw [keys, keys₁, List.append_assoc, List.flatMap_cons, List.map_append, List.map_map]
        rfl

/-- On any dictionary with a size that an `int` holds, of which the table may be null, the array has
a copy of each key in the order of the chains and a null pointer after them.  It and the copies are
all that is allocated. -/
theorem dictionaryAllKeys_spec (allocator : Heap.Allocator (MemoryBlock υ)) (garbage : Nat → Nat)
    (here : Represents frame heap ref d) (few : d.entries.length < intMax) :
    ∃ heap' a cells copies, dictionaryAllKeys allocator garbage heap ref = some (heap', a) ∧
      heap'.Splits heap (keyBlocks a cells copies) ∧
      copies.map Prod.snd = d.entries.map DictionaryEntry.pszKey ∧
      cells.room = copies.length + 1 ∧
      cells.contents (copies.length + 1) = copies.map Prod.fst ++ [0] := by
  have counted := dictionaryKeysCount_spec here
  rw [keysCount_eq] at counted
  have room_few : d.entries.length + 1 < 2 ^ 31 := by
    unfold intMax at few
    omega
  -- the array is allocated and filled
  have started := (Heap.Splits.refl heap).alloc allocator
    (.pointers ⟨garbage, d.entries.length + 1⟩)
  rcases array : heap.alloc allocator (.pointers ⟨garbage, d.entries.length + 1⟩) with ⟨heap₁, a⟩
  rw [array] at started
  have none_yet : Copied heap heap₁ a (d.entries.length + 1) [] := ⟨_, started, rfl, rfl⟩
  obtain ⟨heap₂, copies, filled, ⟨cells, splits, room, contents⟩, keys⟩ : ∃ heap₂ copies,
      ref.indices.foldlM (fun (copied : Heap (MemoryBlock υ) × Int32) i => do
        let pEntry ← readCell copied.1 ref i
        copyKeys allocator a (enough copied.1) pEntry copied) (heap₁, 0) =
        some (heap₂, .ofNat copies.length) ∧ Copied heap heap₂ a (d.entries.length + 1) copies ∧
      copies.map Prod.snd = d.entries.map DictionaryEntry.pszKey := by
    obtain ⟨blocks, footprint, splits⟩ := here
    cases footprint with
    | @null iSize size =>
        rw [indices_of_nonpos size]
        exact ⟨heap₁, [], rfl, none_yet, rfl⟩
    | @table iSize positive p table =>
        exact copyAllKeys_spec allocator splits.has
          (fun i inside => length_lt_enough splits (chainBlocks_le_tableBlocks p table inside))
          (fun i => List.mem_range.mp) none_yet room_few
          (by rw [List.length_nil, Nat.zero_add]; exact Nat.le_succ _)
  -- the null pointer comes last
  have length : copies.length = d.entries.length := by simpa using congrArg List.length keys
  have space : copies.length < cells.room := by omega
  obtain ⟨heap', cells', ended, splits', room', contents'⟩ := writePointer_spec splits space 0
  refine ⟨heap', a, cells', copies, ?_, splits', keys, ?_, ?_⟩
  · refine (congrArg (Option.bind · _) counted).trans ?_
    rw [Option.bind_some, ← ofNat_succ, Int32.toNatClampNeg_ofNat_of_lt room_few, array]
    rw [← Int32.toNatClampNeg_ofNat_of_lt (n := copies.length) (by omega)] at ended
    exact (congrArg (Option.bind · _) filled).trans (congrArg (Option.bind · _) ended)
  · rw [room', room, length]
  · rw [contents', contents]

/-- After any calls, with fewer than `INT_MAX` keys, `dictionary_all_keys` lists the keys in an
array that outlives the dictionary. -/
theorem all_keys_listed (allocator : Heap.Allocator (MemoryBlock υ)) (garbage : Nat → Nat)
    (frame : Heap (MemoryBlock υ)) (size : Int32) (calls : List (MemoryCall υ))
    (few : (calls.foldl MemoryCall.meaning
      (ChainedDictionary.dictionaryInit υ size, [])).1.entries.length < intMax) :
    ∃ m ref heap' a cells copies,
      calls.foldlM (MemoryCall.run allocator) (start allocator size frame) = some (m, ref) ∧
      dictionaryAllKeys allocator garbage m.heap ref = some (heap', a) ∧
      heap'.Splits m.heap (keyBlocks a cells copies) ∧
      copies.map Prod.snd = (calls.foldl MemoryCall.meaning
        (ChainedDictionary.dictionaryInit υ size, [])).1.entries.map DictionaryEntry.pszKey ∧
      cells.room = copies.length + 1 ∧
      cells.contents (copies.length + 1) = copies.map Prod.fst ++ [0] ∧
      ∃ m', dictionaryClear true ref { m with heap := heap' } = some (m', ⟨0, 0⟩) ∧
        m'.heap.Splits frame (keyBlocks a cells copies) := by
  have started : Represents frame (start allocator size frame).1.heap
      (start allocator size frame).2 (ChainedDictionary.dictionaryInit υ size) :=
    dictionaryInit_spec allocator size frame
  obtain ⟨m, ref, run, there, -⟩ := run_calls allocator calls started
  obtain ⟨heap', a, cells, copies, listed, splits, keys, room, contents⟩ :=
    dictionaryAllKeys_spec allocator garbage there few
  obtain ⟨blocks, footprint, owned⟩ := there
  obtain ⟨middle, kept, moved⟩ := owned.exchange splits
  obtain ⟨m', cleared, left, -⟩ := dictionaryClear_spec (m := { m with heap := heap' }) true
    ⟨blocks, footprint, moved⟩
  exact ⟨m, ref, heap', a, cells, copies, run, listed, splits, keys, room, contents, m', cleared,
    left ▸ kept⟩

/-- The key `x`. -/
def keyX : CString := ⟨[120], by decide⟩

/-- The key `y`. -/
def keyY : CString := ⟨[121], by decide⟩

/-- The key `z`. -/
def keyZ : CString := ⟨[122], by decide⟩

/-- Three keys are inserted, one is removed and another inserted again. -/
def mixedCalls : List (MemoryCall Nat) :=
  [.insert keyX 1, .insert keyY 2, .insert keyZ 3, .remove keyY true, .insert keyX 4]

theorem all_keys_listed_mixedCalls :
    ∃ m ref heap' a cells copies,
      mixedCalls.foldlM (MemoryCall.run (.behind _)) (start (.behind _) 0 (.empty _)) =
        some (m, ref) ∧
      dictionaryAllKeys (.behind _) id m.heap ref = some (heap', a) ∧
      heap'.Splits m.heap (keyBlocks a cells copies) ∧
      copies.map Prod.snd = [keyX, keyZ, keyX] ∧
      cells.room = copies.length + 1 ∧
      cells.contents (copies.length + 1) = copies.map Prod.fst ++ [0] ∧
      ∃ m', dictionaryClear true ref { m with heap := heap' } = some (m', ⟨0, 0⟩) ∧
        m'.heap.Splits (.empty _) (keyBlocks a cells copies) := by
  have keys : (mixedCalls.foldl MemoryCall.meaning
      (ChainedDictionary.dictionaryInit Nat 0, [])).1.entries.map DictionaryEntry.pszKey =
        [keyX, keyZ, keyX] := by
    decide +kernel
  have listed := all_keys_listed (.behind _) id (.empty _) 0 mixedCalls (by decide +kernel)
  rw [keys] at listed
  exact listed

end Memory
end ChainedDictionary
end OstrichServer
