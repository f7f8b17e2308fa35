import OstrichServer.HashTable.Table

/-!
# The words of `crypttable`

`crypttable_init` writes every word of the table, none twice and none outside of it, and takes no
word from what was there.  Running it again, for another hash table, changes no hash.
-/

namespace OstrichServer
namespace HashTable

/-! ## Writes -/

/-- One assignment to the table. -/
def write (table : Nat → UInt32) (assignment : Nat × UInt32) : Nat → UInt32 :=
  Function.update table assignment.1 assignment.2

theorem writes_of_notMem {assignments : List (Nat × UInt32)} {i : Nat}
    (outside : i ∉ assignments.map Prod.fst) (table : Nat → UInt32) :
    assignments.foldl write table i = table i := by
  induction assignments generalizing table with
  | nil => rfl
  | cons assignment rest induction =>
      rw [List.map_cons, List.mem_cons, not_or] at outside
      rw [List.foldl_cons, induction outside.2]
      exact Function.update_of_ne outside.1 ..

/-- What is written does not depend on what was there. -/
theorem writes_of_mem {assignments : List (Nat × UInt32)} {i : Nat}
    (inside : i ∈ assignments.map Prod.fst) (table table' : Nat → UInt32) :
    assignments.foldl write table i = assignments.foldl write table' i := by
  induction assignments generalizing table table' with
  | nil => cases inside
  | cons assignment rest induction =>
      rw [List.foldl_cons, List.foldl_cons]
      by_cases later : i ∈ rest.map Prod.fst
      · exact induction later _ _
      · rw [writes_of_notMem later, writes_of_notMem later]
        obtain rfl : i = assignment.1 := by
          rw [List.map_cons, List.mem_cons] at inside
          exact inside.resolve_right later
        rw [write, write, Function.update_self, Function.update_self]

/-! ## The loops -/

/-- Notes an assignment behind those before it. -/
def note (writes : List (Nat × UInt32)) (i : Nat) (word : UInt32) : List (Nat × UInt32) :=
  writes ++ [(i, word)]

/-- The assignments that `crypttable_init` makes, in their order. -/
def crypttableWrites : List (Nat × UInt32) := crypttableInit note []

/-- The inner loop writes every 256th word, whatever keeps the table. -/
theorem exists_inner_writes (rounds index2 : Nat) (seed : UInt32) :
    ∃ (seed' : UInt32) (assignments : List (Nat × UInt32)),
      (∀ {μ : Type} (assign : μ → Nat → UInt32 → μ) (table : μ),
        crypttableInner assign rounds index2 (seed, table) =
          (seed', assignments.foldl (fun table a => assign table a.1 a.2) table)) ∧
      assignments.map Prod.fst = (List.range rounds).map fun j => index2 + 0x100 * j := by
  induction rounds generalizing index2 seed with
  | zero => exact ⟨seed, [], fun _ _ => rfl, rfl⟩
  | succ rounds induction =>
      obtain ⟨seed', rest, runs, indices⟩ := induction (index2 + 0x100) (nextSeed (nextSeed seed))
      refine ⟨seed', (index2, (nextSeed seed &&& 0xFFFF) <<< 0x10 |||
        (nextSeed (nextSeed seed) &&& 0xFFFF)) :: rest, fun assign table => runs assign _, ?_⟩
      rw [List.map_cons, indices, List.range_succ_eq_map, List.map_cons, List.map_map]
      congr 1
      refine List.map_congr_left fun j _ => ?_
      simp only [Function.comp_apply]
      omega

/-- The outer loop writes the words of each of its rounds. -/
theorem exists_outer_writes (rounds index1 : Nat) (seed : UInt32) :
    ∃ (seed' : UInt32) (assignments : List (Nat × UInt32)),
      (∀ {μ : Type} (assign : μ → Nat → UInt32 → μ) (table : μ),
        crypttableOuter assign rounds index1 (seed, table) =
          (seed', assignments.foldl (fun table a => assign table a.1 a.2) table)) ∧
      assignments.map Prod.fst = (List.range rounds).flatMap fun k =>
        (List.range 5).map fun j => index1 + k + 0x100 * j := by
  induction rounds generalizing index1 seed with
  | zero => exact ⟨seed, [], fun _ _ => rfl, rfl⟩
  | succ rounds induction =>
      obtain ⟨seed₁, first, inner, indices⟩ := exists_inner_writes 5 index1 seed
      obtain ⟨seed', rest, outer, indices'⟩ := induction (index1 + 1) seed₁
      refine ⟨seed', first ++ rest, fun assign table => ?_, ?_⟩
      · rw [crypttableOuter, inner, outer, List.foldl_append]
      · have range : List.range (rounds + 1) = 0 :: (List.range rounds).map Nat.succ :=
          List.range_succ_eq_map
        rw [List.map_append, indices, indices', range, List.flatMap_cons, List.flatMap_map]
        congr 1
        refine List.flatMap_congr fun k _ => List.map_congr_left fun j _ => ?_
        omega

/-- The indices of all rounds. -/
def indices : List Nat :=
  (List.range 0x100).flatMap fun k => (List.range 5).map fun j => 0 + k + 0x100 * j

theorem mem_indices (i : Nat) : i ∈ indices ↔ i < 0x500 := by
  rw [indices, List.mem_flatMap]
  constructor
  · rintro ⟨k, below, member⟩
    obtain ⟨j, below', rfl⟩ := List.mem_map.mp member
    rw [List.mem_range] at below below'
    omega
  · intro below
    refine ⟨i % 0x100, List.mem_range.mpr (Nat.mod_lt _ (by decide)),
      List.mem_map.mpr ⟨i / 0x100, List.mem_range.mpr (by omega), by omega⟩⟩

theorem nodup_indices : indices.Nodup := by
  refine List.nodup_flatMap.mpr ⟨fun k _ => ?_, ?_⟩
  · refine List.nodup_range.map fun j j' same => ?_
    omega
  · refine List.nodup_range.pairwise_of_forall_ne fun k below k' below' distinct i left right => ?_
    rw [List.mem_range] at below below'
    obtain ⟨j, -, rfl⟩ := List.mem_map.mp left
    obtain ⟨j', -, same⟩ := List.mem_map.mp right
    omega

theorem foldl_note (assignments writes : List (Nat × UInt32)) :
    assignments.foldl (fun writes a => note writes a.1 a.2) writes = writes ++ assignments := by
  induction assignments generalizing writes with
  | nil => exact (List.append_nil writes).symm
  | cons assignment rest induction =>
      rw [List.foldl_cons, induction, note, List.append_assoc, List.singleton_append]

/-- `crypttable_init` makes its assignments to whatever keeps the table, and no others. -/
theorem crypttableInit_spec :
    (∀ {μ : Type} (assign : μ → Nat → UInt32 → μ) (table : μ), crypttableInit assign table =
      crypttableWrites.foldl (fun table a => assign table a.1 a.2) table) ∧
    crypttableWrites.map Prod.fst = indices := by
  obtain ⟨seed', assignments, runs, written⟩ := exists_outer_writes 0x100 0 0x00100001
  have noted : crypttableWrites = assignments := by
    rw [crypttableWrites, crypttableInit, runs note []]
    exact foldl_note assignments []
  refine ⟨fun assign table => ?_, noted ▸ written⟩
  rw [crypttableInit, runs assign table, noted]

/-- `crypttable_init` on the words of the table. -/
def initialised (table : Nat → UInt32) : Nat → UInt32 :=
  crypttableInit (fun table i word => Function.update table i word) table

theorem initialised_eq (table : Nat → UInt32) :
    initialised table = crypttableWrites.foldl write table :=
  crypttableInit_spec.1 _ table

theorem initialised_apply (table : Nat → UInt32) (i : Nat) :
    initialised table i = if i < 0x500 then crypttable i else table i := by
  have start : crypttable = crypttableWrites.foldl write fun _ => 0 := initialised_eq _
  have member : i ∈ crypttableWrites.map Prod.fst ↔ i < 0x500 := by
    rw [crypttableInit_spec.2]
    exact mem_indices i
  rw [initialised_eq, start]
  split
  next inside => exact writes_of_mem (member.mpr inside) _ _
  next outside => exact writes_of_notMem (fun inside => outside (member.mp inside)) _

/-! ## Reads -/

/-- The words of the table that `hashstring` reads, in their order. -/
def hashReads (string : List UInt8) (hashtype : Nat) : List Nat :=
  string.map fun key => (hashtype <<< 8) + (toupper key).toNat

theorem hashReads_lt (string : List UInt8) {hashtype : Nat} (small : hashtype < 5) :
    ∀ i ∈ hashReads string hashtype, i < 0x500 := by
  intro i read
  obtain ⟨key, -, rfl⟩ := List.mem_map.mp read
  have byte := (toupper key).toNat_lt
  rw [Nat.shiftLeft_eq]
  omega

theorem hashBytes_of_reads {table table' : Nat → UInt32} {hashtype : Nat} {string : List UInt8}
    (same : ∀ i ∈ hashReads string hashtype, table i = table' i) (seed1 seed2 : UInt32) :
    hashBytes table hashtype seed1 seed2 string = hashBytes table' hashtype seed1 seed2 string := by
  induction string generalizing seed1 seed2 with
  | nil => rfl
  | cons key rest induction =>
      have first := same _ List.mem_cons_self
      rw [hashBytes, hashBytes, first]
      exact induction (fun i later => same i (List.mem_cons_of_mem _ later)) _ _

/-- `crypttable_init` assigns each word of the table once and nothing else.  `hashstring` with a
type below 5 depends on no other word than those it reads, which are words of the table, so that it
gives the same before and after any further `crypttable_init`. -/
theorem crypttable_init_writes :
    (crypttableWrites.map Prod.fst).Perm (List.range 0x500) ∧
    (∀ table, initialised table = crypttableWrites.foldl write table) ∧
    (∀ table i, initialised table i = if i < 0x500 then crypttable i else table i) ∧
    ∀ string, ∀ hashtype < 5, (∀ i ∈ hashReads string hashtype, i < 0x500) ∧
      (∀ table table', (∀ i ∈ hashReads string hashtype, table i = table' i) →
        hashstringWith table string hashtype = hashstringWith table' string hashtype) ∧
      ∀ table, hashstringWith (initialised table) string hashtype = hashstring string hashtype := by
  refine ⟨?_, initialised_eq, initialised_apply, fun string hashtype small =>
    ⟨hashReads_lt string small, fun table table' same => hashBytes_of_reads same _ _, ?_⟩⟩
  · rw [crypttableInit_spec.2]
    refine (List.perm_ext_iff_of_nodup nodup_indices List.nodup_range).mpr fun i => ?_
    rw [mem_indices, List.mem_range]
  · intro table
    refine hashBytes_of_reads (fun i read => ?_) _ _
    rw [initialised_apply, if_pos (hashReads_lt string small i read)]

end HashTable
end OstrichServer
