import OstrichServer.Dictionary.Representation

/-!
# Rehashing keeps the entries

A round of `dict_rehash` moves the chain of the first bucket in use into the second table.  Every
round that goes on takes an entry out of the first table, so the loop comes to its end.
-/

namespace OstrichServer
namespace Dictionary

open Buckets Loop

variable {κ υ : Type} {type : DictType κ} {d d' : Dict κ υ}

/-! ## The scan -/

/-- The scan stops at the first bucket in use. -/
theorem skipEmpty_eq_some {ht : DictHt κ υ} {rest start idx : Nat}
    (found : skipEmpty ht rest start = some idx) :
    start ≤ idx ∧ idx < start + rest ∧ ht.table idx ≠ [] ∧
      ∀ i, start ≤ i → i < idx → ht.table i = [] := by
  induction rest generalizing start with
  | zero => cases found
  | succ rest induction =>
      rw [skipEmpty] at found
      by_cases empty : ht.table start = []
      · rw [if_pos empty] at found
        obtain ⟨above, below, used, between⟩ := induction found
        refine ⟨by omega, by omega, used, fun i lower upper => ?_⟩
        rcases Nat.eq_or_lt_of_le lower with rfl | beyond
        · exact empty
        · exact between i beyond upper
      · rw [if_neg empty] at found
        cases found
        exact ⟨le_rfl, by omega, empty, fun i lower upper => by omega⟩

/-- The scan does not leave the table when a bucket from its start on is in use. -/
theorem exists_skipEmpty {ht : DictHt κ υ} {rest start : Nat}
    (inUse : ∃ i, start ≤ i ∧ i < start + rest ∧ ht.table i ≠ []) :
    ∃ idx, skipEmpty ht rest start = some idx := by
  induction rest generalizing start with
  | zero =>
      obtain ⟨i, after, before, -⟩ := inUse
      omega
  | succ rest induction =>
      rw [skipEmpty]
      by_cases empty : ht.table start = []
      · rw [if_pos empty]
        obtain ⟨i, after, before, some⟩ := inUse
        have onward : start ≠ i := by
          rintro rfl
          exact some empty
        have later : ∃ j, start + 1 ≤ j ∧ j < start + 1 + rest ∧ ht.table j ≠ [] :=
          ⟨i, by omega, by omega, some⟩
        exact induction later
      · rw [if_neg empty]
        exact ⟨start, rfl⟩

/-! ## Moving a chain -/

/-- What moving a chain does to the counter of the first table and to the second table. -/
theorem moveChain_spec (chain : List (DictEntry κ υ)) (ht0 : DictHt κ υ) {ht1 : DictHt κ υ}
    (wellFormed : ht1.WellFormed type) (room : 0 < ht1.size) :
    ∃ ht1', moveChain type chain (ht0, ht1) =
        some ({ ht0 with used := ht0.used - chain.length }, ht1') ∧
      ht1'.WellFormed type ∧ ht1'.entries = (chain : Multiset _) + ht1.entries ∧
      ht1'.size = ht1.size ∧
      ∀ h, ht1'.chain h =
        (chain.filter fun de => ht1.index (type.hash de.key) = ht1.index h).reverse ++
          ht1.chain h := by
  induction chain generalizing ht0 ht1 with
  | nil => exact ⟨ht1, rfl, wellFormed, (zero_add _).symm, rfl, fun h => rfl⟩
  | cons de denext induction =>
      obtain ⟨next, pushed, kept, more, size, chains⟩ := wellFormed.push room de
      obtain ⟨ht1', moved, wellFormed', entries, size', chains'⟩ :=
        induction { ht0 with used := ht0.used - 1 } kept (size.symm ▸ room)
      have mask : ∀ h, next.index h = ht1.index h := by
        intro h
        rw [DictHt.index, DictHt.index, kept.sizemask, wellFormed.sizemask, size]
      refine ⟨ht1', ?_, wellFormed', ?_, size'.trans size, fun h => ?_⟩
      · rw [moveChain, pushed]
        simp only [Option.bind_eq_bind, Option.bind_some, moved, List.length_cons]
        rw [Nat.sub_sub, Nat.add_comm 1]
      · rw [entries, more, Multiset.add_cons, ← Multiset.cons_coe, Multiset.cons_add]
      · simp only [chains', chains, mask, List.filter_cons, decide_eq_true_eq]
        split
        · rw [List.reverse_cons, List.append_assoc, List.singleton_append]
        · rfl

/-! ## A round -/

/-- The end of a rehash. -/
def Dict.swapped (d : Dict κ υ) : Dict κ υ := { ht0 := d.ht1, ht1 := dictReset, rehashidx := -1 }

/-- A round has moved the chain of the first bucket in use. -/
structure MovesBucket (type : DictType κ) (d d' : Dict κ υ) (idx : Nat) : Prop where
  inside : idx < d.ht0.size
  full : d.ht0.table idx ≠ []
  between : ∀ i, d.rehashidx.toNat ≤ i → i < idx → d.ht0.table i = []
  moved : ∃ ht0, moveChain type (d.ht0.table idx) (d.ht0, d.ht1) = some (ht0, d'.ht1) ∧
    d'.ht0 = { ht0 with table := Function.update ht0.table idx [] }
  rehashidx : d'.rehashidx = idx + 1

theorem rehashRound_next {n n' : Int} (step : rehashRound type (n, d) = .next (n', d')) :
    n ≠ 0 ∧ d.ht0.used ≠ 0 ∧ n' = n - 1 ∧ ∃ idx, MovesBucket type d d' idx := by
  rw [rehashRound] at step
  split at step
  · cases step
  · rename_i more
    split at step
    · cases step
    · split at step
      · cases step
      · rename_i used
        simp only at step
        split at step
        · cases step
        · rename_i final result
          cases step
          refine ⟨more, used, rfl, ?_⟩
          obtain ⟨idx, found, result⟩ := Option.bind_eq_some_iff.mp result
          obtain ⟨⟨ht0, ht1⟩, moved, result⟩ := Option.bind_eq_some_iff.mp result
          obtain ⟨lower, upper, full, between⟩ := skipEmpty_eq_some found
          simp only at result
          split at result
          · cases result
          · cases result
            exact ⟨idx, by omega, full, between, ⟨ht0, moved, rfl⟩, rfl⟩

theorem rehashRound_stop {n out : Int}
    (step : rehashRound type (n, d) = .stop (some (out, d'))) :
    n = 0 ∧ out = 1 ∧ d' = d ∨ n ≠ 0 ∧ d.ht0.used = 0 ∧ out = 0 ∧ d' = d.swapped := by
  rw [rehashRound] at step
  split at step
  · rename_i last
    cases step
    exact Or.inl ⟨last, rfl, rfl⟩
  · rename_i more
    split at step
    · cases step
    · split at step
      · rename_i unused
        cases step
        exact Or.inr ⟨more, unused, rfl, rfl⟩
      · simp only at step
        split at step
        · cases step
        · cases step

/-- What a round does to a dict that keeps its invariant. -/
theorem MovesBucket.spec {idx : Nat} (moves : MovesBucket type d d' idx)
    (wellFormed : d.WellFormed type) (rehashing : d.rehashidx ≠ -1) :
    d'.WellFormed type ∧ d'.rehashidx ≠ -1 ∧ d'.entries = d.entries ∧
      d'.ht0 = { d.ht0 with
        table := Function.update d.ht0.table idx []
        used := d.ht0.used - (d.ht0.table idx).length } ∧
      ∀ h, d'.ht1.chain h =
        ((d.ht0.table idx).filter fun de =>
          d.ht1.index (type.hash de.key) = d.ht1.index h).reverse ++ d.ht1.chain h := by
  obtain ⟨r, place, some, room, before⟩ := wellFormed.rehashing rehashing
  obtain ⟨ht0, moved, first⟩ := moves.moved
  obtain ⟨ht1, moved', kept1, entries1, size1, chains⟩ :=
    moveChain_spec (d.ht0.table idx) d.ht0 wellFormed.ht1 room
  rw [moved] at moved'
  obtain ⟨rfl, second⟩ := Prod.mk.inj (Option.some.inj moved')
  rw [← second] at kept1 entries1 size1 chains
  obtain ⟨kept0, entries0⟩ := wellFormed.ht0.clear moves.inside
  refine ⟨⟨?_, kept1, ?_, ?_⟩, ?_, ?_, first, chains⟩
  · rw [first]
    exact kept0
  · intro rests
    rw [moves.rehashidx] at rests
    omega
  · refine fun _ => ⟨idx + 1, moves.rehashidx, ?_, size1.symm ▸ room, fun i early inTable => ?_⟩
    · rw [first]
      exact some
    · rw [first] at inTable ⊢
      change Function.update d.ht0.table idx [] i = []
      by_cases here : i = idx
      · rw [here, Function.update_self]
      · rw [Function.update_of_ne here]
        by_cases old : i < r
        · exact before i old inTable
        · exact moves.between i (by omega) (by omega)
  · rw [moves.rehashidx]
    omega
  · rw [Dict.entries, Dict.entries, entries1, ← add_assoc, ← entries0, first]
    rfl

theorem MovesBucket.used_lt {idx : Nat} (moves : MovesBucket type d d' idx)
    (wellFormed : d.WellFormed type) (rehashing : d.rehashidx ≠ -1) :
    d'.ht0.used < d.ht0.used := by
  obtain ⟨-, -, -, first, -⟩ := moves.spec wellFormed rehashing
  have positive := List.length_pos_of_ne_nil moves.full
  have counted := (wellFormed.ht0.clear moves.inside).2
  have cards := congrArg Multiset.card counted
  rw [Multiset.card_add, Multiset.coe_card, ← wellFormed.ht0.used] at cards
  rw [first]
  change d.ht0.used - (d.ht0.table idx).length < d.ht0.used
  omega

/-- No bucket of the first table whose index `rehashidx` could not go past is in use. -/
def Dict.Near (d : Dict κ υ) : Prop := ∀ i, intMax ≤ i → i < d.ht0.size → d.ht0.table i = []

theorem MovesBucket.near {idx : Nat} (moves : MovesBucket type d d' idx)
    (wellFormed : d.WellFormed type) (rehashing : d.rehashidx ≠ -1) (near : d.Near) : d'.Near := by
  obtain ⟨-, -, -, first, -⟩ := moves.spec wellFormed rehashing
  intro i far inTable
  rw [first] at inTable ⊢
  change Function.update d.ht0.table idx [] i = []
  by_cases here : i = idx
  · rw [here, Function.update_self]
  · rw [Function.update_of_ne here]
    exact near i far inTable

/-- While entries are left in the first table some bucket from `rehashidx` on is in use. -/
theorem Dict.WellFormed.exists_bucket (wellFormed : d.WellFormed type) {r : Nat}
    (before : ∀ i < r, i < d.ht0.size → d.ht0.table i = []) (used : d.ht0.used ≠ 0) :
    ∃ i, r ≤ i ∧ i < d.ht0.size ∧ d.ht0.table i ≠ [] := by
  have stored : contents d.ht0.size d.ht0.table ≠ 0 := by
    intro none
    exact used (by rw [wellFormed.ht0.used, DictHt.entries, none, Multiset.card_zero])
  obtain ⟨i, inside, full⟩ := exists_chain_of_contents stored
  refine ⟨i, ?_, inside, full⟩
  by_contra earlier
  exact full (before i (by omega) inside)

/-- A round that finds an entry in the first table goes on. -/
theorem exists_rehashRound_next (wellFormed : d.WellFormed type) (rehashing : d.rehashidx ≠ -1)
    (near : d.Near) (used : d.ht0.used ≠ 0) {n : Int} (more : n ≠ 0) (bounded : n ≠ -2 ^ 31) :
    ∃ d', rehashRound type (n, d) = .next (n - 1, d') := by
  obtain ⟨r, place, -, room, before⟩ := wellFormed.rehashing rehashing
  obtain ⟨i, later, inTable, some⟩ := wellFormed.exists_bucket before used
  have inUse : ∃ i, r ≤ i ∧ i < r + (d.ht0.size - r) ∧ d.ht0.table i ≠ [] :=
    ⟨i, later, by omega, some⟩
  obtain ⟨idx, found⟩ := exists_skipEmpty inUse
  obtain ⟨lower, upper, full, -⟩ := skipEmpty_eq_some found
  have below : ¬ intMax ≤ idx := fun far => full (near idx far (by omega))
  obtain ⟨ht1', moved, -⟩ := moveChain_spec (d.ht0.table idx) d.ht0 wellFormed.ht1 room
  rw [rehashRound, if_neg more, if_neg bounded, if_neg used, place, Int.toNat_natCast]
  simp only [found, moved, Option.bind_eq_bind, Option.bind_some, if_neg below, Option.pure_def]
  exact ⟨_, rfl⟩

/-! ## The loop -/

/-- A number of rounds that each moved a bucket. -/
inductive Rounds (type : DictType κ) : Dict κ υ → Nat → Dict κ υ → Prop
  | none (d : Dict κ υ) : Rounds type d 0 d
  | more {d d' d'' : Dict κ υ} {idx k : Nat} (used : d.ht0.used ≠ 0)
      (moves : MovesBucket type d d' idx) (rest : Rounds type d' k d'') : Rounds type d (k + 1) d''

/-- What holds of a rehashing dict and is kept by rounds holds after any number of them. -/
theorem Rounds.keeps {holds : Dict κ υ → Prop} {k : Nat} (rounds : Rounds type d k d')
    (kept : ∀ {d d' idx}, d.WellFormed type → d.rehashidx ≠ -1 → MovesBucket type d d' idx →
      holds d → holds d')
    (wellFormed : d.WellFormed type) (rehashing : d.rehashidx ≠ -1) (start : holds d) :
    d'.WellFormed type ∧ d'.rehashidx ≠ -1 ∧ d'.entries = d.entries ∧ holds d' := by
  induction rounds with
  | none d => exact ⟨wellFormed, rehashing, rfl, start⟩
  | more used moves rest induction =>
      obtain ⟨wellFormed', rehashing', entries, -⟩ := moves.spec wellFormed rehashing
      obtain ⟨final, still, same, held⟩ :=
        induction wellFormed' rehashing' (kept wellFormed rehashing moves start)
      exact ⟨final, still, same.trans entries, held⟩

/-- The loop made some rounds; then it was at the end of its count, or the first table was empty. -/
theorem run_rehashRound_cases {fuel : Nat} {n out : Int} {final : Dict κ υ}
    (result : run (rehashRound type) fuel (n, d) = some (some (out, final))) :
    ∃ k d', Rounds type d k d' ∧
      (out = 1 ∧ n = k ∧ final = d' ∨
        out = 0 ∧ n ≠ k ∧ (0 ≤ n → (k : Int) < n) ∧ d'.ht0.used = 0 ∧ final = d'.swapped) := by
  induction fuel generalizing d n with
  | zero => cases result
  | succ fuel induction =>
      cases step : rehashRound type (n, d) with
      | stop returned =>
          rw [run_of_stop step] at result
          cases result
          rcases rehashRound_stop step with ⟨rfl, rfl, rfl⟩ | ⟨more, unused, rfl, rfl⟩
          · exact ⟨0, _, .none _, Or.inl ⟨rfl, rfl, rfl⟩⟩
          · exact ⟨0, d, .none d, Or.inr ⟨rfl, more, by omega, unused, rfl⟩⟩
      | next state =>
          obtain ⟨n', d₁⟩ := state
          rw [run_of_next step] at result
          obtain ⟨more, used, rfl, idx, moves⟩ := rehashRound_next step
          obtain ⟨k, d', rounds, ending⟩ := induction result
          refine ⟨k + 1, d', .more used moves rounds, ?_⟩
          rcases ending with ⟨one, counted, same⟩ | ⟨zero, uncounted, below, unused, swapped⟩
          · exact Or.inl ⟨one, by omega, same⟩
          · exact Or.inr ⟨zero, by omega, by omega, unused, swapped⟩

/-- What `dict_rehash` did when it returned. -/
theorem dictRehash_cases {n out : Int} {final : Dict κ υ}
    (result : dictRehash type d n = some (out, final)) :
    d.rehashidx = -1 ∧ out = 0 ∧ final = d ∨
      d.rehashidx ≠ -1 ∧ ∃ k d', Rounds type d k d' ∧
        (out = 1 ∧ n = k ∧ final = d' ∨
          out = 0 ∧ n ≠ k ∧ (0 ≤ n → (k : Int) < n) ∧ d'.ht0.used = 0 ∧ final = d'.swapped) := by
  rw [dictRehash] at result
  split at result
  · rename_i rehash
    rw [Option.join_eq_some_iff] at result
    exact Or.inr ⟨Dict.isRehashing_iff.mp rehash, run_rehashRound_cases result⟩
  · rename_i still
    cases result
    exact Or.inl ⟨Dict.isRehashing_eq_false_iff.mp (Bool.eq_false_iff.mpr still), rfl, rfl⟩

theorem wellFormed_swapped (wellFormed : d.WellFormed type) (unused : d.ht0.used = 0) :
    d.swapped.WellFormed type ∧ d.swapped.entries = d.entries := by
  refine ⟨⟨wellFormed.ht1, DictHt.wellFormed_empty 0, fun _ => rfl,
    fun rehashing => (rehashing rfl).elim⟩, ?_⟩
  have none : d.ht0.entries = 0 := by
    rw [← Multiset.card_eq_zero, ← wellFormed.ht0.used, unused]
  have reset : (dictReset : DictHt κ υ).entries = 0 := DictHt.entries_of_size_zero rfl
  rw [Dict.entries, Dict.entries, none, Dict.swapped, reset, add_comm]

/-- When `dict_rehash` returns it has kept the invariant and the entries. -/
theorem dictRehash_keeps {n out : Int} {final : Dict κ υ} (wellFormed : d.WellFormed type)
    (result : dictRehash type d n = some (out, final)) :
    final.WellFormed type ∧ final.entries = d.entries := by
  rcases dictRehash_cases result with ⟨-, -, rfl⟩ | ⟨rehashing, k, d', rounds, ending⟩
  · exact ⟨wellFormed, rfl⟩
  · obtain ⟨kept, -, entries, -⟩ :=
      rounds.keeps (fun _ _ _ _ => trivial) wellFormed rehashing trivial
    rcases ending with ⟨-, -, rfl⟩ | ⟨-, -, -, unused, rfl⟩
    · exact ⟨kept, entries⟩
    · obtain ⟨swapped, same⟩ := wellFormed_swapped kept unused
      exact ⟨swapped, same.trans entries⟩

/-! ## Returning -/

/-- How many buckets of the first table are in use. -/
def Dict.bucketsInUse (d : Dict κ υ) : Nat :=
  ((Finset.range d.ht0.size).filter fun i => d.ht0.table i ≠ []).card

theorem MovesBucket.bucketsInUse {idx : Nat} (moves : MovesBucket type d d' idx)
    (wellFormed : d.WellFormed type) (rehashing : d.rehashidx ≠ -1) :
    d'.bucketsInUse + 1 = d.bucketsInUse := by
  obtain ⟨-, -, -, first, -⟩ := moves.spec wellFormed rehashing
  have member : idx ∈ (Finset.range d.ht0.size).filter fun i => d.ht0.table i ≠ [] :=
    Finset.mem_filter.mpr ⟨Finset.mem_range.mpr moves.inside, moves.full⟩
  have others : ((Finset.range d.ht0.size).filter fun i =>
      Function.update d.ht0.table idx [] i ≠ []) =
        ((Finset.range d.ht0.size).filter fun i => d.ht0.table i ≠ []).erase idx := by
    ext i
    simp only [Finset.mem_erase, Finset.mem_filter]
    by_cases here : i = idx
    · subst here
      simp
    · simp [here]
  rw [Dict.bucketsInUse, Dict.bucketsInUse, first, ← Finset.card_erase_add_one member, ← others]

theorem Rounds.bucketsInUse {k : Nat} (rounds : Rounds type d k d')
    (wellFormed : d.WellFormed type) (rehashing : d.rehashidx ≠ -1) :
    d'.bucketsInUse + k = d.bucketsInUse := by
  induction rounds with
  | none d => rfl
  | more used moves rest induction =>
      obtain ⟨wellFormed', rehashing', -⟩ := moves.spec wellFormed rehashing
      have one := moves.bucketsInUse wellFormed rehashing
      have others := induction wellFormed' rehashing'
      omega

theorem bucketsInUse_eq_zero (wellFormed : d.WellFormed type) (unused : d.ht0.used = 0) :
    d.bucketsInUse = 0 := by
  rw [wellFormed.ht0.used, Multiset.card_eq_zero] at unused
  rw [Dict.bucketsInUse, Finset.card_eq_zero, Finset.filter_eq_empty_iff]
  intro i inside full
  obtain ⟨entry, member⟩ := List.exists_mem_of_ne_nil _ full
  have listed : entry ∈ d.ht0.entries :=
    Buckets.mem_contents.mpr ⟨i, Finset.mem_range.mp inside, member⟩
  rw [unused] at listed
  exact Multiset.notMem_zero entry listed

/-- The `int` that counts the rounds does not underflow before the buckets are moved. -/
def RoundsFit (buckets : Nat) (n : Int) : Prop := 0 ≤ n ∨ -2 ^ 31 + (buckets : Int) < n

theorem exists_run_rehashRound {fuel : Nat} {n : Int} (wellFormed : d.WellFormed type)
    (rehashing : d.rehashidx ≠ -1) (near : d.Near) (fit : RoundsFit d.bucketsInUse n)
    (enough : d.ht0.used < fuel) :
    ∃ out final, run (rehashRound type) fuel (n, d) = some (some (out, final)) := by
  induction fuel generalizing d n with
  | zero => omega
  | succ fuel induction =>
      have bounded : n ≠ -2 ^ 31 := by
        rw [RoundsFit] at fit
        omega
      by_cases last : n = 0
      · have stops : rehashRound type (n, d) = .stop (some (1, d)) := if_pos last
        exact ⟨1, d, run_of_stop stops⟩
      · by_cases unused : d.ht0.used = 0
        · have stops : rehashRound type (n, d) = .stop (some (0, d.swapped)) := by
            rw [rehashRound, if_neg last, if_neg bounded, if_pos unused]
            rfl
          exact ⟨0, _, run_of_stop stops⟩
        · obtain ⟨d', goes⟩ := exists_rehashRound_next wellFormed rehashing near unused last bounded
          obtain ⟨-, -, -, idx, moves⟩ := rehashRound_next goes
          obtain ⟨wellFormed', rehashing', -⟩ := moves.spec wellFormed rehashing
          have fewer := moves.used_lt wellFormed rehashing
          have fewerBuckets := moves.bucketsInUse wellFormed rehashing
          have fit' : RoundsFit d'.bucketsInUse (n - 1) := by
            rw [RoundsFit] at fit ⊢
            omega
          rw [run_of_next goes]
          exact induction wellFormed' rehashing' (moves.near wellFormed rehashing near) fit'
            (by omega)

/-- `dict_rehash` returns. -/
theorem exists_dictRehash {n : Int} (wellFormed : d.WellFormed type)
    (allowed : d.rehashidx ≠ -1 → d.Near ∧ RoundsFit d.bucketsInUse n) :
    ∃ out final, dictRehash type d n = some (out, final) := by
  rw [dictRehash]
  split
  · rename_i rehash
    have rehashing := Dict.isRehashing_iff.mp rehash
    obtain ⟨near, fit⟩ := allowed rehashing
    obtain ⟨out, final, result⟩ :=
      exists_run_rehashRound wellFormed rehashing near fit (Nat.lt_succ_self _)
    exact ⟨out, final, by rw [result]; rfl⟩
  · exact ⟨0, d, rfl⟩

end Dictionary
end OstrichServer
