import OstrichServer.Dictionary.Operations
import OstrichServer.Foundations.Buckets

/-!
# What the operations of the dict do to its entries

The invariant of the two tables, and for each operation when it is defined, what it returns and
which entries the dict holds after it.
-/

namespace OstrichServer
namespace Dictionary

open Buckets Loop

variable {κ υ : Type} {type : DictType κ}

/-! ## One table -/

namespace DictHt

variable {ht : DictHt κ υ}

/-- The entries of a table. -/
def entries (ht : DictHt κ υ) : Multiset (DictEntry κ υ) := contents ht.size ht.table

/-- The chain for a hash; a table without buckets has none. -/
def chain (ht : DictHt κ υ) (h : UInt32) : List (DictEntry κ υ) :=
  if 0 < ht.size then ht.table (ht.index h) else []

/-- Every entry is in the bucket for its hash, and `used` counts the entries. -/
structure WellFormed (type : DictType κ) (ht : DictHt κ υ) : Prop where
  sizemask : ht.sizemask = ht.size - 1
  used : ht.used = Multiset.card ht.entries
  placed : ∀ i < ht.size, ∀ entry ∈ ht.table i, ht.index (type.hash entry.key) = i

theorem entries_empty (size : Nat) :
    entries { table := fun _ => [], size, sizemask := size - 1, used := 0 } =
      (0 : Multiset (DictEntry κ υ)) :=
  contents_eq_zero fun _ _ => rfl

theorem wellFormed_empty (size : Nat) :
    WellFormed type
      ({ table := fun _ => [], size, sizemask := size - 1, used := 0 } : DictHt κ υ) where
  sizemask := rfl
  used := by rw [entries_empty, Multiset.card_zero]
  placed := fun _ _ _ member => by cases member

theorem chain_empty (size : Nat) (h : UInt32) :
    chain { table := fun _ => [], size, sizemask := size - 1, used := 0 } h =
      ([] : List (DictEntry κ υ)) := by
  rw [chain]
  exact ite_self []

theorem WellFormed.index_lt (wellFormed : ht.WellFormed type) (buckets : 0 < ht.size)
    (h : UInt32) : ht.index h < ht.size := by
  have masked : ht.index h ≤ ht.sizemask := Nat.and_le_right
  have mask := wellFormed.sizemask
  omega

theorem WellFormed.bucket_index (wellFormed : ht.WellFormed type) (buckets : 0 < ht.size)
    (h : UInt32) : ht.bucket (ht.index h) = some (ht.chain h) := by
  rw [bucket, if_pos (wellFormed.index_lt buckets h), chain, if_pos buckets]

theorem chain_of_size_zero (none : ht.size = 0) (h : UInt32) : ht.chain h = [] := by
  rw [chain, if_neg (by omega)]

theorem entries_of_size_zero (none : ht.size = 0) : ht.entries = 0 := by
  rw [entries, none]
  exact contents_eq_zero fun i inside => (Nat.not_lt_zero i inside).elim

theorem WellFormed.mem_entries_of_mem_chain (wellFormed : ht.WellFormed type) {h : UInt32}
    {entry : DictEntry κ υ} (member : entry ∈ ht.chain h) : entry ∈ ht.entries := by
  rw [chain] at member
  split at member
  · rename_i buckets
    exact mem_contents.mpr ⟨ht.index h, wellFormed.index_lt buckets h, member⟩
  · cases member

theorem WellFormed.mem_chain_of_mem_entries (wellFormed : ht.WellFormed type)
    {entry : DictEntry κ υ} (member : entry ∈ ht.entries) :
    entry ∈ ht.chain (type.hash entry.key) := by
  obtain ⟨i, inside, here⟩ := mem_contents.mp member
  rw [chain, if_pos (Nat.zero_lt_of_lt inside), wellFormed.placed i inside entry here]
  exact here

/-- An entry put into the bucket for its hash. -/
theorem WellFormed.push (wellFormed : ht.WellFormed type) (buckets : 0 < ht.size)
    (entry : DictEntry κ υ) :
    ∃ ht', ht.push (ht.index (type.hash entry.key)) entry = some ht' ∧ ht'.WellFormed type ∧
      ht'.entries = entry ::ₘ ht.entries ∧ ht'.size = ht.size ∧
      ∀ h, ht'.chain h =
        if ht.index (type.hash entry.key) = ht.index h then entry :: ht.chain h
        else ht.chain h := by
  have inside := wellFormed.index_lt buckets (type.hash entry.key)
  refine ⟨_, if_pos inside, ⟨wellFormed.sizemask, ?_, ?_⟩, contents_push inside entry, rfl,
    fun h => ?_⟩
  · rw [entries, contents_push inside, Multiset.card_cons, wellFormed.used]
    rfl
  · intro i below other member
    change other ∈ Function.update ht.table _ _ i at member
    by_cases here : i = ht.index (type.hash entry.key)
    · subst here
      rw [Function.update_self, List.mem_cons] at member
      rcases member with rfl | old
      · rfl
      · exact wellFormed.placed _ below other old
    · rw [Function.update_of_ne here] at member
      exact wellFormed.placed i below other member
  · rw [chain, chain, if_pos buckets, if_pos buckets]
    change Function.update ht.table (ht.index (type.hash entry.key)) _ (ht.index h) = _
    by_cases same : ht.index (type.hash entry.key) = ht.index h
    · rw [if_pos same, same, Function.update_self]
    · rw [if_neg same, Function.update_of_ne (Ne.symm same)]

/-- A bucket emptied, when `used` has been counted down for its entries. -/
theorem WellFormed.clear (wellFormed : ht.WellFormed type) {idx : Nat} (inside : idx < ht.size) :
    DictHt.WellFormed type
        { ht with
          table := Function.update ht.table idx []
          used := ht.used - (ht.table idx).length } ∧
      contents ht.size (Function.update ht.table idx []) + (ht.table idx : Multiset _) =
        ht.entries := by
  have cleared : contents ht.size (Function.update ht.table idx []) + (ht.table idx : Multiset _) =
      ht.entries := contents_clear inside
  refine ⟨⟨wellFormed.sizemask, ?_, ?_⟩, cleared⟩
  · have counted := congrArg Multiset.card cleared
    rw [Multiset.card_add, Multiset.coe_card] at counted
    rw [wellFormed.used, ← counted, Nat.add_sub_cancel]
    rfl
  · intro i below entry member
    change entry ∈ Function.update ht.table idx [] i at member
    by_cases here : i = idx
    · subst here
      rw [Function.update_self] at member
      cases member
    · rw [Function.update_of_ne here] at member
      exact wellFormed.placed i below entry member

end DictHt

/-! ## The dict -/

namespace Dict

variable {d : Dict κ υ}

/-- The entries of a dict. -/
def entries (d : Dict κ υ) : Multiset (DictEntry κ υ) := d.ht0.entries + d.ht1.entries

/-- The chains a key with this hash is looked for in. -/
def chains (d : Dict κ υ) (h : UInt32) : List (DictEntry κ υ) := d.ht0.chain h ++ d.ht1.chain h

/-- The table that new entries go into. -/
def insertTable (d : Dict κ υ) : DictHt κ υ := if d.isRehashing then d.ht1 else d.ht0

/-- The invariant of the dict. -/
structure WellFormed (type : DictType κ) (d : Dict κ υ) : Prop where
  ht0 : d.ht0.WellFormed type
  ht1 : d.ht1.WellFormed type
  resting : d.rehashidx = -1 → d.ht1.size = 0
  /-- While a rehash goes on, the buckets before its index are empty. -/
  rehashing : d.rehashidx ≠ -1 → ∃ r : Nat, d.rehashidx = r ∧ 0 < d.ht0.size ∧ 0 < d.ht1.size ∧
    ∀ i < r, i < d.ht0.size → d.ht0.table i = []

theorem isRehashing_iff : d.isRehashing = true ↔ d.rehashidx ≠ -1 := by
  simp [isRehashing]

theorem isRehashing_eq_false_iff : d.isRehashing = false ↔ d.rehashidx = -1 := by
  simp [isRehashing]

theorem wellFormed_create : WellFormed type (dictCreate : Dict κ υ) where
  ht0 := DictHt.wellFormed_empty 0
  ht1 := DictHt.wellFormed_empty 0
  resting := fun _ => rfl
  rehashing := fun rehashing => (rehashing rfl).elim

theorem entries_create : (dictCreate : Dict κ υ).entries = 0 := by
  rw [entries, DictHt.entries_of_size_zero rfl, DictHt.entries_of_size_zero rfl, add_zero]

theorem WellFormed.card_entries (wellFormed : d.WellFormed type) :
    Multiset.card d.entries = d.ht0.used + d.ht1.used := by
  rw [entries, Multiset.card_add, wellFormed.ht0.used, wellFormed.ht1.used]

/-- The chains for a hash hold entries of the dict only. -/
theorem WellFormed.mem_entries_of_mem_chains (wellFormed : d.WellFormed type) {h : UInt32}
    {entry : DictEntry κ υ} (member : entry ∈ d.chains h) : entry ∈ d.entries := by
  rw [chains, List.mem_append] at member
  rw [entries, Multiset.mem_add]
  exact member.imp wellFormed.ht0.mem_entries_of_mem_chain wellFormed.ht1.mem_entries_of_mem_chain

/-- Every entry of the dict is in the chains for its hash. -/
theorem WellFormed.mem_chains_of_mem_entries (wellFormed : d.WellFormed type)
    {entry : DictEntry κ υ} (member : entry ∈ d.entries) :
    entry ∈ d.chains (type.hash entry.key) := by
  rw [entries, Multiset.mem_add] at member
  rw [chains, List.mem_append]
  exact member.imp wellFormed.ht0.mem_chain_of_mem_entries wellFormed.ht1.mem_chain_of_mem_entries

end Dict

/-! ## Growing -/

/-- More room, with the same entries in the same chains. -/
structure Grown (type : DictType κ) (d d' : Dict κ υ) : Prop where
  wellFormed : d'.WellFormed type
  entries : d'.entries = d.entries
  chains : ∀ h, d'.chains h = d.chains h
  rehashing : d'.isRehashing = true → d'.ht0 = d.ht0

variable {d : Dict κ υ}

theorem Grown.refl (wellFormed : d.WellFormed type) : Grown type d d :=
  ⟨wellFormed, rfl, fun _ => rfl, fun _ => rfl⟩

/-- Doubling until the size is reached. -/
theorem run_nextPowerRound {size fuel i : Nat} (enough : size ≤ i * 2 ^ fuel) :
    ∃ out, run (nextPowerRound size) (fuel + 1) i = some out ∧ size ≤ out ∧ i ≤ out ∧
      (out = i ∨ out < 2 * size) := by
  induction fuel generalizing i with
  | zero =>
      have stops : nextPowerRound size i = .stop i := if_pos (by omega)
      exact ⟨i, run_of_stop stops, by omega, le_rfl, Or.inl rfl⟩
  | succ fuel induction =>
      by_cases reached : size ≤ i
      · have stops : nextPowerRound size i = .stop i := if_pos reached
        exact ⟨i, run_of_stop stops, reached, le_rfl, Or.inl rfl⟩
      · have goes : nextPowerRound size i = .next (i * 2) := if_neg reached
        rw [pow_succ', ← mul_assoc] at enough
        obtain ⟨out, result, above, grows, below⟩ := induction enough
        exact ⟨out, (run_of_next goes).trans result, above, by omega, by omega⟩

/-- The doubling in `_dict_next_power` comes to its end and does not overflow. -/
theorem dictNextPower_spec (size : Nat) :
    0 < dictNextPower size ∧ min size longMax ≤ dictNextPower size ∧
      dictNextPower size < 2 ^ 64 := by
  rw [dictNextPower]
  split
  · exact ⟨by decide, min_le_right _ _, by decide⟩
  · rename_i less
    rw [Nat.not_le] at less
    have enough : size ≤ dictHtSize * 2 ^ 57 := less.le.trans (by decide)
    obtain ⟨out, result, above, start, below⟩ := run_nextPowerRound enough
    rw [result, Option.getD_some]
    simp only [longMax, dictHtSize] at less start below ⊢
    omega

theorem dictExpand_grown (wellFormed : d.WellFormed type) (size : Nat) :
    Grown type d (dictExpand d size).2 := by
  rw [dictExpand]
  have realsize := (dictNextPower_spec size).1
  simp only
  split
  · exact Grown.refl wellFormed
  · rename_i free
    have resting : d.rehashidx = -1 := by
      rw [← Dict.isRehashing_eq_false_iff]
      simpa using fun rehashing => free (Or.inl rehashing)
    have second := wellFormed.resting resting
    split
    · rename_i none
      refine ⟨⟨DictHt.wellFormed_empty _, wellFormed.ht1, wellFormed.resting,
        fun rehashing => (rehashing resting).elim⟩, ?_, fun h => ?_, fun rehashing => ?_⟩
      · rw [Dict.entries, Dict.entries, DictHt.entries_empty, DictHt.entries_of_size_zero none]
      · rw [Dict.chains, Dict.chains, DictHt.chain_empty, DictHt.chain_of_size_zero none]
      · exact (Dict.isRehashing_iff.mp rehashing resting).elim
    · rename_i some
      have started : (0 : Int) ≠ -1 := by decide
      refine ⟨⟨wellFormed.ht0, DictHt.wellFormed_empty _, fun rests => (started rests).elim,
        fun _ => ⟨0, rfl, Nat.pos_of_ne_zero some, realsize, ?_⟩⟩, ?_, fun h => ?_, fun _ => rfl⟩
      · exact fun i before => (Nat.not_lt_zero i before).elim
      · rw [Dict.entries, Dict.entries, DictHt.entries_empty, DictHt.entries_of_size_zero second]
      · rw [Dict.chains, Dict.chains, DictHt.chain_empty, DictHt.chain_of_size_zero second]

/-- A dict that is not being rehashed, and is asked for room enough, gets a new table. -/
theorem dictExpand_of_resting (resting : d.rehashidx = -1) {size : Nat}
    (enough : d.ht0.used ≤ size) :
    dictExpand d size =
      (.osOk,
        if d.ht0.size = 0 then
          { d with
            ht0 :=
              { table := fun _ => []
                size := dictNextPower size
                sizemask := dictNextPower size - 1
                used := 0 } }
        else
          { d with
            ht1 :=
              { table := fun _ => []
                size := dictNextPower size
                sizemask := dictNextPower size - 1
                used := 0 }
            rehashidx := 0 }) := by
  have free : ¬ (d.isRehashing = true ∨ size < d.ht0.used) := by
    rw [Dict.isRehashing_iff]
    omega
  rw [dictExpand]
  simp only
  rw [if_neg free]
  split <;> rfl

theorem dictExpand_status (resting : d.rehashidx = -1) {size : Nat} (enough : d.ht0.used ≤ size) :
    (dictExpand d size).1 = .osOk ∧ 0 < (dictExpand d size).2.ht0.size := by
  rw [dictExpand_of_resting resting enough]
  refine ⟨rfl, ?_⟩
  split
  · exact (dictNextPower_spec size).1
  · rename_i some
    exact Nat.pos_of_ne_zero some

theorem dictExpandIfNeeded_spec (wellFormed : d.WellFormed type) :
    (dictExpandIfNeeded d).1 = .osOk ∧ 0 < (dictExpandIfNeeded d).2.ht0.size ∧
      Grown type d (dictExpandIfNeeded d).2 := by
  rw [dictExpandIfNeeded]
  split
  · rename_i rehashing
    obtain ⟨-, -, buckets, -⟩ := wellFormed.rehashing (Dict.isRehashing_iff.mp rehashing)
    exact ⟨rfl, buckets, Grown.refl wellFormed⟩
  · rename_i still
    have resting : d.rehashidx = -1 := by
      rw [← Dict.isRehashing_eq_false_iff]
      simpa using still
    split
    · rename_i none
      have unused : d.ht0.used = 0 := by
        rw [wellFormed.ht0.used, DictHt.entries_of_size_zero none, Multiset.card_zero]
      obtain ⟨status, buckets⟩ := dictExpand_status resting (unused.trans_le (Nat.zero_le _))
      exact ⟨status, buckets, dictExpand_grown wellFormed _⟩
    · rename_i some
      split
      · obtain ⟨status, buckets⟩ := dictExpand_status resting
          (Nat.le_mul_of_pos_right d.ht0.used Nat.two_pos)
        exact ⟨status, buckets, dictExpand_grown wellFormed _⟩
      · exact ⟨rfl, Nat.pos_of_ne_zero some, Grown.refl wellFormed⟩

/-! ## Inserting -/

/-- The dict as `dict_add` has it when it looks for the key. -/
def Dict.grown (d : Dict κ υ) : Dict κ υ := (dictExpandIfNeeded d).2

theorem grown_grown (wellFormed : d.WellFormed type) : Grown type d d.grown :=
  (dictExpandIfNeeded_spec wellFormed).2.2

/-- The bucket a new entry with this hash would go to. -/
def Dict.insertIndex (d : Dict κ υ) (h : UInt32) : Nat := d.grown.insertTable.index h

theorem Dict.WellFormed.chain_ht1 (wellFormed : d.WellFormed type) (resting : d.isRehashing = false)
    (h : UInt32) : d.chains h = d.ht0.chain h := by
  have none := wellFormed.resting (isRehashing_eq_false_iff.mp resting)
  rw [chains, DictHt.chain_of_size_zero none, List.append_nil]

/-- The scan of `dict_add` sees the chains for the hash of the key, and refuses the key when an
entry there has a key that the comparison tells from it. -/
theorem dictKeyIndex_eq (wellFormed : d.WellFormed type) (key : κ) :
    dictKeyIndex type d key =
      some (if refuses type key (d.chains (type.hash key)) then -1
        else toInt (d.insertIndex (type.hash key)), d.grown) := by
  obtain ⟨status, buckets, grown⟩ := dictExpandIfNeeded_spec wellFormed
  rw [← grown.chains, Dict.insertIndex, Dict.grown, dictKeyIndex]
  generalize dictExpandIfNeeded d = expanded at status buckets grown
  obtain ⟨_, d'⟩ := expanded
  simp only at status buckets grown
  subst status
  have first := grown.wellFormed.ht0.bucket_index buckets (type.hash key)
  cases rehash : d'.isRehashing with
  | false =>
      rw [grown.wellFormed.chain_ht1 rehash]
      cases refused : refuses type key (d'.ht0.chain (type.hash key)) <;>
        simp [first, refused, rehash, Dict.insertTable]
  | true =>
      obtain ⟨-, -, -, room, -⟩ := grown.wellFormed.rehashing (Dict.isRehashing_iff.mp rehash)
      have second := grown.wellFormed.ht1.bucket_index room (type.hash key)
      have both : refuses type key (d'.chains (type.hash key)) =
          (refuses type key (d'.ht0.chain (type.hash key)) ||
            refuses type key (d'.ht1.chain (type.hash key))) := List.any_append
      rw [both]
      cases refused : refuses type key (d'.ht0.chain (type.hash key)) <;>
        cases refused' : refuses type key (d'.ht1.chain (type.hash key)) <;>
          simp [first, second, refused, refused', rehash, Dict.insertTable]

theorem toInt_of_le {idx : Nat} (small : idx ≤ intMax) : toInt idx = idx := if_pos small

theorem dictAdd_of_refuses (wellFormed : d.WellFormed type) {key : κ} (val : υ)
    (refused : refuses type key (d.chains (type.hash key)) = true) :
    dictAdd type d key val = some (.osErr, d.grown) := by
  rw [dictAdd, dictKeyIndex_eq wellFormed, if_pos refused]
  rfl

/-- An `int` cannot hold the index of the bucket. -/
theorem dictAdd_of_intMax_lt (wellFormed : d.WellFormed type) {key : κ} (val : υ)
    (accepted : refuses type key (d.chains (type.hash key)) = false)
    (large : intMax < d.insertIndex (type.hash key)) :
    dictAdd type d key val =
      if d.insertIndex (type.hash key) = 2 ^ 32 - 1 then some (.osErr, d.grown) else none := by
  have word : d.insertIndex (type.hash key) < 2 ^ 32 :=
    Nat.lt_of_le_of_lt Nat.and_le_left (type.hash key).toNat_lt
  have wrapped : toInt (d.insertIndex (type.hash key)) = d.insertIndex (type.hash key) - 2 ^ 32 :=
    if_neg (Nat.not_le.mpr large)
  rw [dictAdd, dictKeyIndex_eq wellFormed, accepted, if_neg Bool.false_ne_true, wrapped]
  split
  · rename_i last
    rw [last]
    rfl
  · rename_i other
    have negative : (d.insertIndex (type.hash key) : Int) - 2 ^ 32 < 0 := by omega
    have regular : (d.insertIndex (type.hash key) : Int) - 2 ^ 32 ≠ -1 := by omega
    generalize (d.insertIndex (type.hash key) : Int) - 2 ^ 32 = index at negative regular
    simp [regular, negative]

/-- An entry has been put into the table that new entries go into. -/
structure Inserted (type : DictType κ) (d d' : Dict κ υ) (entry : DictEntry κ υ) : Prop where
  wellFormed : d'.WellFormed type
  rehashidx : d'.rehashidx = d.rehashidx
  resting : d.isRehashing = false →
    d'.ht1 = d.ht1 ∧ d'.ht0.size = d.ht0.size ∧ d'.ht0.entries = entry ::ₘ d.ht0.entries
  rehashing : d.isRehashing = true →
    d'.ht0 = d.ht0 ∧ d'.ht1.size = d.ht1.size ∧ d'.ht1.entries = entry ::ₘ d.ht1.entries
  /-- Other entries stay where they were in the chains. -/
  chains : ∀ h (other : DictEntry κ υ → Bool), other entry = false →
    (d'.chains h).filter other = (d.chains h).filter other

theorem Inserted.entries {d' : Dict κ υ} {entry : DictEntry κ υ}
    (inserted : Inserted type d d' entry) : d'.entries = entry ::ₘ d.entries := by
  rw [Dict.entries, Dict.entries]
  cases rehash : d.isRehashing with
  | false =>
      obtain ⟨second, -, more⟩ := inserted.resting rehash
      rw [second, more, Multiset.cons_add]
  | true =>
      obtain ⟨first, -, more⟩ := inserted.rehashing rehash
      rw [first, more, Multiset.add_cons]

theorem filter_ite_cons {α : Type} {keep : α → Bool} {a : α} (dropped : keep a = false) (c : Prop)
    [Decidable c] (l : List α) : (if c then a :: l else l).filter keep = l.filter keep := by
  split
  · rw [List.filter_cons, dropped, if_neg Bool.false_ne_true]
  · rfl

/-- A key that is not refused gets an entry. -/
theorem dictAdd_of_accepts (wellFormed : d.WellFormed type) {key : κ} (val : υ)
    (accepted : refuses type key (d.chains (type.hash key)) = false)
    (small : d.insertIndex (type.hash key) ≤ intMax) :
    ∃ d', dictAdd type d key val = some (.osOk, d') ∧ Inserted type d.grown d' { key, val } := by
  obtain ⟨-, buckets, grown⟩ := dictExpandIfNeeded_spec wellFormed
  have found := dictKeyIndex_eq wellFormed key
  rw [accepted, if_neg Bool.false_ne_true, toInt_of_le small] at found
  rw [dictAdd, found, Dict.insertIndex]
  change 0 < d.grown.ht0.size at buckets
  change Grown type d d.grown at grown
  generalize d.grown = d at buckets grown
  have positive : ∀ index : Nat, (index : Int) ≠ -1 ∧ ¬ (index : Int) < 0 := by omega
  cases rehash : d.isRehashing with
  | false =>
      have resting := Dict.isRehashing_eq_false_iff.mp rehash
      obtain ⟨ht0, pushed, kept, more, size, chain⟩ := grown.wellFormed.ht0.push buckets
        ({ key, val } : DictEntry κ υ)
      refine ⟨{ d with ht0 }, ?_, ⟨⟨kept, grown.wellFormed.ht1, grown.wellFormed.resting,
        fun rehashing => (rehashing resting).elim⟩, rfl, fun _ => ⟨rfl, size, more⟩, ?_, ?_⟩⟩
      · simp [positive, rehash, Dict.insertTable, pushed]
      · intro rehashing
        rw [rehash] at rehashing
        cases rehashing
      · intro h other dropped
        rw [Dict.chains, Dict.chains, chain, List.filter_append, List.filter_append,
          filter_ite_cons dropped]
  | true =>
      have rehashing := Dict.isRehashing_iff.mp rehash
      obtain ⟨r, place, some, room, before⟩ := grown.wellFormed.rehashing rehashing
      obtain ⟨ht1, pushed, kept, more, size, chain⟩ := grown.wellFormed.ht1.push room
        ({ key, val } : DictEntry κ υ)
      refine ⟨{ d with ht1 }, ?_, ⟨⟨grown.wellFormed.ht0, kept,
        fun resting => (rehashing resting).elim,
        fun _ => ⟨r, place, some, size.symm ▸ room, before⟩⟩,
        rfl, ?_, fun _ => ⟨rfl, size, more⟩, ?_⟩⟩
      · simp [positive, rehash, Dict.insertTable, pushed]
      · intro resting
        rw [rehash] at resting
        cases resting
      · intro h other dropped
        rw [Dict.chains, Dict.chains, chain, List.filter_append, List.filter_append,
          filter_ite_cons dropped]

/-- What `dict_add` did when it returned. -/
theorem dictAdd_cases (wellFormed : d.WellFormed type) {key : κ} {val : υ} {status : Status}
    {d' : Dict κ υ} (result : dictAdd type d key val = some (status, d')) :
    status = .osErr ∧ d' = d.grown ∧ (refuses type key (d.chains (type.hash key)) = true ∨
        d.insertIndex (type.hash key) = 2 ^ 32 - 1) ∨
      status = .osOk ∧ refuses type key (d.chains (type.hash key)) = false ∧
        d.insertIndex (type.hash key) ≤ intMax ∧ Inserted type d.grown d' { key, val } := by
  cases refused : refuses type key (d.chains (type.hash key)) with
  | true =>
      rw [dictAdd_of_refuses wellFormed val refused] at result
      cases result
      exact Or.inl ⟨rfl, rfl, Or.inl rfl⟩
  | false =>
      by_cases small : d.insertIndex (type.hash key) ≤ intMax
      · obtain ⟨other, result', inserted⟩ := dictAdd_of_accepts wellFormed val refused small
        rw [result'] at result
        cases result
        exact Or.inr ⟨rfl, rfl, small, inserted⟩
      · rw [dictAdd_of_intMax_lt wellFormed val refused (Nat.not_le.mp small)] at result
        split at result
        · rename_i last
          cases result
          exact Or.inl ⟨rfl, rfl, Or.inr last⟩
        · cases result

theorem dictAdd_wellFormed (wellFormed : d.WellFormed type) {key : κ} {val : υ} {status : Status}
    {d' : Dict κ υ} (result : dictAdd type d key val = some (status, d')) :
    d'.WellFormed type := by
  rcases dictAdd_cases wellFormed result with ⟨-, rfl, -⟩ | ⟨-, -, -, inserted⟩
  · exact (grown_grown wellFormed).wellFormed
  · exact inserted.wellFormed

/-! ## Looking up -/

/-- Lookup gives the first entry in the chains for the hash that compares as 0. -/
theorem dictFind_eq (wellFormed : d.WellFormed type) (key : κ) :
    dictFind type d key = some (findIn type key (d.chains (type.hash key))) := by
  rw [dictFind]
  by_cases none : d.ht0.size = 0
  · have resting : d.isRehashing = false := by
      by_contra rehashing
      obtain ⟨-, -, buckets, -⟩ :=
        wellFormed.rehashing (Dict.isRehashing_iff.mp (Bool.not_eq_false _ ▸ rehashing))
      omega
    rw [wellFormed.chain_ht1 resting, DictHt.chain_of_size_zero none]
    simp [none, findIn]
  · have first := wellFormed.ht0.bucket_index (Nat.pos_of_ne_zero none) (type.hash key)
    cases rehash : d.isRehashing with
    | false =>
        rw [wellFormed.chain_ht1 rehash]
        cases found : findIn type key (d.ht0.chain (type.hash key)) <;>
          simp [none, first, found]
    | true =>
        obtain ⟨-, -, -, room, -⟩ := wellFormed.rehashing (Dict.isRehashing_iff.mp rehash)
        have second := wellFormed.ht1.bucket_index room (type.hash key)
        have both : findIn type key (d.chains (type.hash key)) =
            (findIn type key (d.ht0.chain (type.hash key))).or
              (findIn type key (d.ht1.chain (type.hash key))) := List.find?_append
        rw [both]
        cases found : findIn type key (d.ht0.chain (type.hash key)) <;>
          simp [none, first, second, found]

end Dictionary
end OstrichServer
