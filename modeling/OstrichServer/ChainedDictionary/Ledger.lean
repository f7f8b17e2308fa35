import OstrichServer.ChainedDictionary.Ownership

/-!
# What a dictionary allocates it frees

Runs of calls on the heap, and the values that pass through them: a value that leaves the dictionary
is handed to the callback of the call that lets it go, and clearing gives every block back.
-/

namespace OstrichServer
namespace ChainedDictionary
namespace Memory

open Dictionary KeyedLists

variable {υ : Type} {heap frame : Heap (MemoryBlock υ)} {m : State υ} {ref : DictionaryRef}
  {d : DictionaryT υ}

/-! ## Calls -/

/-- A call that changes a dictionary; without a callback `pf_os_free` is null. -/
inductive MemoryCall (υ : Type)
  | insert (key : CString) (value : υ)
  | remove (key : CString) (pfOsFree : Bool)
  | clear (pfOsFree : Bool)

/-- A call on the heap. -/
def MemoryCall.run (allocator : Heap.Allocator (MemoryBlock υ)) :
    State υ × DictionaryRef → MemoryCall υ → Option (State υ × DictionaryRef)
  | (m, ref), .insert key value => dictionaryInsert allocator ref key value m
  | (m, ref), .remove key pfOsFree =>
      (dictionaryRemoveValueForKey pfOsFree ref key m).map fun m => (m, ref)
  | (m, ref), .clear pfOsFree => dictionaryClear pfOsFree ref m

/-- What a call does to the chains, and which values it hands over. -/
def MemoryCall.meaning : DictionaryT υ × List υ → MemoryCall υ → DictionaryT υ × List υ
  | (d, handed), .insert key value => (ChainedDictionary.dictionaryInsert d key value, handed)
  | (d, handed), .remove key pfOsFree =>
      (ChainedDictionary.dictionaryRemoveValueForKey d key,
        handed ++ given pfOsFree (ChainedDictionary.dictionaryValueForKey d key).toList)
  | (d, handed), .clear pfOsFree =>
      (⟨0, none⟩, handed ++ given pfOsFree (d.entries.map DictionaryEntry.pValue))

/-- The call has a callback for the values that leave. -/
def MemoryCall.HasCallback : MemoryCall υ → Prop
  | .insert _ _ => True
  | .remove _ pfOsFree | .clear pfOsFree => pfOsFree = true

/-- The value that a call inserts. -/
def MemoryCall.inserts : MemoryCall υ → Multiset υ
  | .insert _ value => {value}
  | .remove _ _ | .clear _ => 0

/-- After `dictionary_init`. -/
def start (allocator : Heap.Allocator (MemoryBlock υ)) (size : Int32)
    (heap : Heap (MemoryBlock υ)) : State υ × DictionaryRef :=
  (⟨(dictionaryInit allocator size heap).1, []⟩, (dictionaryInit allocator size heap).2)

/-- Each call does to the blocks what it means for the chains. -/
theorem MemoryCall.run_spec (allocator : Heap.Allocator (MemoryBlock υ)) (call : MemoryCall υ)
    (here : Represents frame m.heap ref d) :
    ∃ m' ref', call.run allocator (m, ref) = some (m', ref') ∧
      Represents frame m'.heap ref' (call.meaning (d, m.handed)).1 ∧
      m'.handed = (call.meaning (d, m.handed)).2 := by
  cases call with
  | insert key value => exact dictionaryInsert_spec allocator here key value
  | remove key pfOsFree =>
      obtain ⟨m', run, there, handed⟩ := dictionaryRemoveValueForKey_spec pfOsFree here key
      exact ⟨m', ref, by rw [MemoryCall.run, run, Option.map_some], there, handed⟩
  | clear pfOsFree =>
      obtain ⟨m', run, left, handed⟩ := dictionaryClear_spec pfOsFree here
      exact ⟨m', ⟨0, 0⟩, run, ⟨0, .null (by decide), left ▸ .refl m'.heap⟩, handed⟩

/-! ## Values -/

/-- The values of all entries. -/
def stored (d : DictionaryT υ) : Multiset υ := (d.entries.map DictionaryEntry.pValue : List υ)

theorem stored_init (size : Int32) : stored (ChainedDictionary.dictionaryInit υ size) = 0 := by
  rw [stored, entries_init]
  rfl

/-- Exchanging the chain of a key. -/
theorem stored_setChain (wellPlaced : WellPlaced d) (set : d.pEntries.isSome) (key : CString)
    (change : List (DictionaryEntry υ) → List (DictionaryEntry υ)) :
    stored (d.setChain key change) + ((d.chain key).map DictionaryEntry.pValue : List υ) =
      stored d + ((change (d.chain key)).map DictionaryEntry.pValue : List υ) := by
  have inside := dictHash_lt key (wellPlaced.size_pos set)
  obtain ⟨chains, set⟩ := Option.isSome_iff_exists.mp set
  have exchanged : (Buckets.contents d.iSize.toNatClampNeg
      (Function.update chains (d.iPos key) (change (chains (d.iPos key)))) +
        (chains (d.iPos key) : Multiset (DictionaryEntry υ))).map DictionaryEntry.pValue = _ :=
    congrArg (Multiset.map DictionaryEntry.pValue)
      (Buckets.contents_update inside (change (chains (d.iPos key))))
  rw [Multiset.map_add, Multiset.map_add, Buckets.contents_eq_flatMap,
    Buckets.contents_eq_flatMap] at exchanged
  rw [stored, stored, DictionaryT.entries, DictionaryT.setChain, DictionaryT.entries,
    DictionaryT.chain, set]
  exact exchanged

theorem stored_linkEntry (wellPlaced : WellPlaced d) (key : CString) (value : υ) :
    stored (ChainedDictionary.linkEntry d key value) = stored d + {value} := by
  obtain ⟨chains, set⟩ := exists_withEntries d
  have exchanged := stored_setChain (wellPlaced_withEntries wellPlaced) (by rw [set]; rfl) key
    (⟨key, value⟩ :: ·)
  have same : stored d.withEntries = stored d := by rw [stored, entries_withEntries, stored]
  rw [same, ← linkEntry_eq, List.map_cons, ← Multiset.cons_coe, ← Multiset.singleton_add,
    ← Multiset.add_assoc] at exchanged
  exact add_right_cancel exchanged

theorem stored_foldl_linkEntry (entries : List (DictionaryEntry υ)) (wellPlaced : WellPlaced d) :
    stored (entries.foldl
      (fun d entry => ChainedDictionary.linkEntry d entry.pszKey entry.pValue) d) =
        stored d + (entries.map DictionaryEntry.pValue : List υ) := by
  induction entries generalizing d with
  | nil => exact (Multiset.add_zero _).symm
  | cons entry entries induction =>
      rw [List.foldl_cons, induction (wellPlaced_linkEntry wellPlaced entry.pszKey entry.pValue),
        stored_linkEntry wellPlaced, Multiset.add_assoc, Multiset.singleton_add, Multiset.cons_coe,
        List.map_cons]

theorem stored_insert (wellPlaced : WellPlaced d) (key : CString) (value : υ) :
    stored (ChainedDictionary.dictionaryInsert d key value) = stored d + {value} := by
  rw [ChainedDictionary.dictionaryInsert]
  by_cases rebuilds : d.Rebuilds key
  · rw [insert_of_rebuilds rebuilds, ChainedDictionary.rebuilt,
      stored_foldl_linkEntry _ (wellPlaced_init υ _), stored_init, Multiset.zero_add]
    exact stored_linkEntry wellPlaced key value
  · rw [insert_of_not_rebuilds rebuilds, stored_linkEntry wellPlaced]

/-- The first entry with a key and the others. -/
theorem values_eraseKey (key : CString) (chain : List (DictionaryEntry υ)) :
    ((eraseKey DictionaryEntry.pszKey key chain).map DictionaryEntry.pValue : Multiset υ) +
        (((chain.find? fun entry => entry.pszKey = key).map DictionaryEntry.pValue).toList :
          Multiset υ) =
      (chain.map DictionaryEntry.pValue : List υ) := by
  induction chain with
  | nil => rfl
  | cons entry chain induction =>
      by_cases same : entry.pszKey = key
      · rw [eraseKey_cons_of_eq same, List.find?_cons_of_pos (by simpa using same), List.map_cons,
          ← Multiset.cons_coe, ← Multiset.singleton_add, Multiset.add_comm]
        rfl
      · rw [eraseKey_cons_of_ne same, List.find?_cons_of_neg (by simpa using same), List.map_cons,
          List.map_cons, ← Multiset.cons_coe, ← Multiset.cons_coe, Multiset.cons_add, induction]

/-- A removal takes the value out that a lookup gives. -/
theorem stored_remove (wellPlaced : WellPlaced d) (key : CString) :
    stored (ChainedDictionary.dictionaryRemoveValueForKey d key) +
      ((ChainedDictionary.dictionaryValueForKey d key).toList : List υ) = stored d := by
  cases set : d.pEntries with
  | none =>
      rw [ChainedDictionary.dictionaryRemoveValueForKey, ChainedDictionary.dictionaryValueForKey,
        stored, stored, DictionaryT.entries, DictionaryT.entries, set]
      rfl
  | some chains =>
      have exchanged := stored_setChain wellPlaced (by rw [set]; rfl) key
        (eraseKey DictionaryEntry.pszKey key)
      have found : ChainedDictionary.dictionaryValueForKey d key =
          ((d.chain key).find? fun entry => entry.pszKey = key).map DictionaryEntry.pValue := by
        rw [ChainedDictionary.dictionaryValueForKey, DictionaryT.chain, set]
      rw [← values_eraseKey key (d.chain key), ← add_assoc, add_right_comm] at exchanged
      rw [remove_eq, found]
      exact add_right_cancel exchanged

/-- Values that are stored or handed over stay so, when callbacks get what leaves. -/
theorem MemoryCall.meaning_ledger (call : MemoryCall υ) (callback : call.HasCallback)
    (wellPlaced : WellPlaced d) (handed : List υ) :
    stored (call.meaning (d, handed)).1 + ((call.meaning (d, handed)).2 : List υ) =
      stored d + handed + call.inserts := by
  cases call with
  | insert key value =>
      rw [meaning, stored_insert wellPlaced, inserts, add_right_comm]
  | remove key pfOsFree =>
      obtain rfl : pfOsFree = true := callback
      rw [meaning, inserts, add_zero, given, if_pos rfl, ← Multiset.coe_add,
        ← stored_remove wellPlaced key, add_right_comm, add_assoc]
  | clear pfOsFree =>
      obtain rfl : pfOsFree = true := callback
      rw [meaning, inserts, add_zero, given, if_pos rfl, ← Multiset.coe_add, add_comm (stored d)]
      exact zero_add _

theorem MemoryCall.wellPlaced_meaning (call : MemoryCall υ) (wellPlaced : WellPlaced d)
    (handed : List υ) : WellPlaced (call.meaning (d, handed)).1 := by
  cases call with
  | insert key value => exact wellPlaced_call wellPlaced true (.insert key value)
  | remove key pfOsFree => exact wellPlaced_remove wellPlaced key
  | clear pfOsFree =>
      constructor
      · intro set
        cases set
      · intro chains set
        cases set

/-- What calls insert is stored or handed over. -/
theorem ledger (calls : List (MemoryCall υ)) (callbacks : ∀ call ∈ calls, call.HasCallback)
    (wellPlaced : WellPlaced d) (handed : List υ) :
    stored (calls.foldl MemoryCall.meaning (d, handed)).1 +
        ((calls.foldl MemoryCall.meaning (d, handed)).2 : List υ) =
      stored d + handed + (calls.map MemoryCall.inserts).sum := by
  induction calls generalizing d handed with
  | nil => exact (add_zero _).symm
  | cons call calls induction =>
      have later := induction (fun c member => callbacks c (List.mem_cons_of_mem call member))
        (call.wellPlaced_meaning wellPlaced handed) (call.meaning (d, handed)).2
      rw [List.foldl_cons, List.map_cons, List.sum_cons, ← add_assoc,
        ← call.meaning_ledger (callbacks call List.mem_cons_self) wellPlaced handed]
      exact later

/-! ## Runs -/

/-- A dictionary has one block for its table and two for each entry. -/
theorem card_allocated (here : Represents frame heap ref d) :
    heap.allocated.card = frame.allocated.card +
      if ref.pEntries = 0 then 0 else 1 + 2 * d.entries.length := by
  obtain ⟨blocks, footprint, splits⟩ := here
  have counted := splits.card_allocated
  cases footprint with
  | null => exact counted
  | @table iSize positive p table =>
      have chains : ∀ indices : List Nat, (chainsBlocks table indices).card =
          2 * (indices.flatMap fun i => (table i).map Node.entry).length := by
        intro indices
        induction indices with
        | nil => rfl
        | cons i indices induction =>
            rw [chainsBlocks, List.map_cons, List.sum_cons, Multiset.card_add, card_chainBlocks,
              List.flatMap_cons, List.length_append, List.length_map, Nat.mul_add, ← induction]
            rfl
      rw [tableBlocks, Multiset.card_cons, chains, Nat.add_comm _ 1] at counted
      rw [if_neg (table_ne_null splits)]
      exact counted

/-- A run of calls does to the blocks what it means for the chains. -/
theorem run_calls (allocator : Heap.Allocator (MemoryBlock υ)) (calls : List (MemoryCall υ))
    (here : Represents frame m.heap ref d) :
    ∃ m' ref', calls.foldlM (MemoryCall.run allocator) (m, ref) = some (m', ref') ∧
      Represents frame m'.heap ref' (calls.foldl MemoryCall.meaning (d, m.handed)).1 ∧
      m'.handed = (calls.foldl MemoryCall.meaning (d, m.handed)).2 := by
  induction calls generalizing m ref d with
  | nil => exact ⟨m, ref, rfl, here, rfl⟩
  | cons call calls induction =>
      obtain ⟨m₁, ref₁, step, there, same⟩ := call.run_spec allocator here
      obtain ⟨m', ref', run, final, handed⟩ := induction there
      rw [same] at final handed
      exact ⟨m', ref', by rw [List.foldlM_cons, step]; exact run, final, handed⟩

/-- Any calls, on any heap, with any addresses for new blocks: no access goes outside of what is
allocated, nothing is freed twice, the blocks of the dictionary are exactly those its entries need
and lookups read what the calls mean.  Clearing it leaves the heap as it was, and by then every
value inserted was handed over once when the calls have callbacks. -/
theorem dictionary_calls_hold (allocator : Heap.Allocator (MemoryBlock υ))
    (frame : Heap (MemoryBlock υ)) (size : Int32) (calls : List (MemoryCall υ)) :
    ∃ m ref d handed, calls.foldlM (MemoryCall.run allocator) (start allocator size frame) =
        some (m, ref) ∧
      calls.foldl MemoryCall.meaning (ChainedDictionary.dictionaryInit υ size, []) = (d, handed) ∧
      Represents frame m.heap ref d ∧ m.handed = handed ∧
      m.heap.allocated.card = frame.allocated.card +
        (if ref.pEntries = 0 then 0 else 1 + 2 * d.entries.length) ∧
      dictionaryKeysCount m.heap ref = some (ChainedDictionary.dictionaryKeysCount d) ∧
      (∀ key, dictionaryHasKey m.heap ref key =
          some (ChainedDictionary.dictionaryHasKey d key) ∧
        dictionaryValueForKey m.heap ref key =
          some (ChainedDictionary.dictionaryValueForKey d key)) ∧
      ∃ m', dictionaryClear true ref m = some (m', ⟨0, 0⟩) ∧ m'.heap = frame ∧
        ((∀ call ∈ calls, call.HasCallback) →
          (m'.handed : Multiset υ) = (calls.map MemoryCall.inserts).sum) := by
  have started : Represents frame (start allocator size frame).1.heap
      (start allocator size frame).2 (ChainedDictionary.dictionaryInit υ size) :=
    dictionaryInit_spec allocator size frame
  obtain ⟨m, ref, run, there, same⟩ := run_calls allocator calls started
  obtain ⟨m', cleared, left, handed⟩ := dictionaryClear_spec true there
  refine ⟨m, ref, _, _, run, rfl, there, same, card_allocated there,
    dictionaryKeysCount_spec there, fun key => ⟨dictionaryHasKey_spec there key,
      dictionaryValueForKey_spec there key⟩, m', cleared, left, fun callbacks => ?_⟩
  have balance := ledger calls callbacks (wellPlaced_init υ size) []
  rw [stored_init, Multiset.coe_nil, zero_add, zero_add] at balance
  rw [handed, same, given, if_pos rfl, ← Multiset.coe_add, add_comm]
  exact balance

end Memory
end ChainedDictionary
end OstrichServer
