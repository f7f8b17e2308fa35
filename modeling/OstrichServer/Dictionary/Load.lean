import OstrichServer.Dictionary.Locks

/-!
# How far insertions load the dict

The first growth starts a rehash, and no insertion or lookup takes a step of it.  So the dict does
not grow a second time: after 600 entries in the first table all others go into the 1600 buckets of
the second.
-/

namespace OstrichServer
namespace Dictionary

variable {κ υ : Type} {type : DictType κ} {d d' : Dict κ υ}

/-- `dict_size` -/
def dictSize (d : Dict κ υ) : Nat := d.ht0.used + d.ht1.used

/-- Neither table holds more than a multiple of its size and one. -/
def Dict.Bounded (d : Dict κ υ) : Prop :=
  d.ht0.used ≤ (dictResizeRatio + 1) * d.ht0.size + 1 ∧
    d.ht1.used ≤ (dictResizeRatio + 1) * d.ht1.size + 1

/-- Insertion and lookup. -/
def Operation.AddsOrFinds : Operation κ υ → Prop
  | add _ _ => True
  | find _ => True
  | _ => False

/-- Insertion while there are fewer than 10201 entries or of a key that is refused, and lookup. -/
def Operation.Light (type : DictType κ) (d : Dict κ υ) : Operation κ υ → Prop
  | add key _ => dictSize d < 10201 ∨ d.RefusesKey type key
  | find _ => True
  | _ => False

/-- Runs of insertions that meet the condition, and of lookups. -/
def lightRuns (type : DictType κ) : TransitionSystem (Dict κ υ) where
  initial d := d = dictCreate
  step d d' := ∃ operation : Operation κ υ, operation.apply type d = some d' ∧
    operation.Light type d

/-! ## The three stages -/

/-- A dict without tables, one with a first table, and one whose rehash has started. -/
inductive Stage (d : Dict κ υ) : Prop
  | new (resting : d.rehashidx = -1) (none : d.ht0.size = 0)
  | first (resting : d.rehashidx = -1) (size : d.ht0.size = 100) (used : d.ht0.used ≤ 600)
  | second (started : d.rehashidx = 0) (size : d.ht0.size = 100) (used : d.ht0.used = 600)
      (size' : d.ht1.size = 1600)

theorem dictNextPower_first : dictNextPower dictHtSize = 100 := by decide

theorem dictNextPower_second : dictNextPower (600 * 2) = 1600 := by decide

/-- After growth there is a table for new entries, and room in it. -/
theorem Stage.grown (stage : Stage d) (wellFormed : d.WellFormed type) :
    d.grown.rehashidx = -1 ∧ d.grown.ht0.size = 100 ∧ d.grown.ht0.used < 600 ∨
      d.grown.rehashidx = 0 ∧ d.grown.ht0.size = 100 ∧ d.grown.ht0.used = 600 ∧
        d.grown.ht1.size = 1600 := by
  rw [Dict.grown, dictExpandIfNeeded]
  cases stage with
  | new resting none =>
      have still : ¬ d.isRehashing = true := by
        rw [Dict.isRehashing_iff]
        exact not_not.mpr resting
      have unused : d.ht0.used = 0 := by
        rw [wellFormed.ht0.used, DictHt.entries_of_size_zero none, Multiset.card_zero]
      rw [if_neg still, if_pos none, dictExpand_of_resting resting (by omega), if_pos none,
        dictNextPower_first]
      exact Or.inl ⟨resting, rfl, Nat.zero_lt_succ 599⟩
  | first resting size used =>
      have still : ¬ d.isRehashing = true := by
        rw [Dict.isRehashing_iff]
        exact not_not.mpr resting
      have some : ¬ d.ht0.size = 0 := by omega
      rw [if_neg still, if_neg some]
      by_cases full : d.ht0.used = 600
      · have loaded : d.ht0.size ≤ d.ht0.used ∧ dictResizeRatio < d.ht0.used / d.ht0.size := by
          rw [size, full]
          decide
        rw [if_pos loaded, dictExpand_of_resting resting (by omega), if_neg some, full,
          dictNextPower_second]
        exact Or.inr ⟨rfl, size, rfl, rfl⟩
      · have light : ¬ (d.ht0.size ≤ d.ht0.used ∧ dictResizeRatio < d.ht0.used / d.ht0.size) := by
          rw [size]
          simp only [dictResizeRatio]
          omega
        have room : d.ht0.used < 600 := by omega
        rw [if_neg light]
        exact Or.inl ⟨resting, size, room⟩
  | second started size used size' =>
      have rehash : d.isRehashing = true := by
        rw [Dict.isRehashing_iff, started]
        decide
      rw [if_pos rehash]
      exact Or.inr ⟨started, size, used, size'⟩

theorem Grown.dictSize_eq (grown : Grown type d d') (wellFormed : d.WellFormed type) :
    dictSize d' = dictSize d := by
  rw [dictSize, dictSize, ← grown.wellFormed.card_entries, ← wellFormed.card_entries,
    grown.entries]

theorem Inserted.dictSize_eq {entry : DictEntry κ υ} (inserted : Inserted type d d' entry)
    (wellFormed : d.WellFormed type) : dictSize d' = dictSize d + 1 := by
  rw [dictSize, dictSize, ← inserted.wellFormed.card_entries, ← wellFormed.card_entries,
    inserted.entries, Multiset.card_cons]

/-- Insertion leads from stage to stage. -/
theorem Stage.dictAdd (stage : Stage d) (wellFormed : d.WellFormed type) {key : κ} {val : υ}
    {status : Status} (result : dictAdd type d key val = some (status, d')) : Stage d' := by
  have grown := stage.grown wellFormed
  rcases dictAdd_cases wellFormed result with ⟨-, rfl, -⟩ | ⟨-, -, -, inserted⟩
  · rcases grown with ⟨resting, size, used⟩ | ⟨started, size, used, size'⟩
    · exact .first resting size used.le
    · exact .second started size used size'
  · have kept := (grown_grown wellFormed).wellFormed
    rcases grown with ⟨resting, size, used⟩ | ⟨started, size, used, size'⟩
    · obtain ⟨-, same, more⟩ :=
        inserted.resting (Dict.isRehashing_eq_false_iff.mpr resting)
      have counted := inserted.wellFormed.ht0.used
      rw [more, Multiset.card_cons, ← kept.ht0.used] at counted
      exact .first (inserted.rehashidx.trans resting) (same.trans size) (by omega)
    · have rehash : d.grown.isRehashing = true := by
        rw [Dict.isRehashing_iff, started]
        decide
      obtain ⟨same, size₁, -⟩ := inserted.rehashing rehash
      exact .second (inserted.rehashidx.trans started) (same ▸ size) (same ▸ used)
        (size₁.trans size')

/-- In each stage a new entry goes to a bucket of the tables. -/
theorem Stage.insertIndex_lt (stage : Stage d) (wellFormed : d.WellFormed type) (h : UInt32) :
    d.insertIndex h < 1600 := by
  have kept := (grown_grown wellFormed).wellFormed
  rw [Dict.insertIndex, Dict.insertTable]
  rcases stage.grown wellFormed with ⟨resting, size, -⟩ | ⟨started, -, -, size⟩
  · have still := Dict.isRehashing_eq_false_iff.mpr resting
    have bound := kept.ht0.index_lt (by omega) h
    rw [still, if_neg Bool.false_ne_true]
    omega
  · have rehash : d.grown.isRehashing = true := by
      rw [Dict.isRehashing_iff, started]
      decide
    have bound := kept.ht1.index_lt (by omega) h
    rw [if_pos rehash]
    omega

/-- In each stage insertion returns. -/
theorem Stage.exists_dictAdd (stage : Stage d) (wellFormed : d.WellFormed type) (key : κ)
    (val : υ) :
    ∃ status d', Dictionary.dictAdd type d key val = some (status, d') ∧ d'.WellFormed type ∧
      Stage d' := by
  have small : d.insertIndex (type.hash key) ≤ intMax :=
    (stage.insertIndex_lt wellFormed _).le.trans (by decide)
  obtain ⟨⟨status, d'⟩, added⟩ := (dictAdd_isSome_iff wellFormed key val).mpr (Or.inr small)
  exact ⟨status, d', added, dictAdd_wellFormed wellFormed added, stage.dictAdd wellFormed added⟩

theorem stage_create : Stage (dictCreate : Dict κ υ) := .new rfl rfl

theorem stage_invariant :
    (usage type fun operation _ => operation.AddsOrFinds).IsInvariant fun d : Dict κ υ =>
      d.WellFormed type ∧ Stage d where
  initial := by
    rintro _ rfl
    exact ⟨Dict.wellFormed_create, stage_create⟩
  step := by
    rintro d d' ⟨wellFormed, stage⟩ ⟨operation, result, allowed⟩
    refine ⟨operation.apply_wellFormed wellFormed result, ?_⟩
    cases operation with
    | add key val =>
        obtain ⟨⟨status, final⟩, added, rfl⟩ := Option.map_eq_some_iff.mp result
        exact stage.dictAdd wellFormed added
    | find key =>
        obtain ⟨found, -, rfl⟩ := Option.map_eq_some_iff.mp result
        exact stage
    | addRaw _ _ => exact allowed.elim
    | replace _ _ => exact allowed.elim
    | replaceRaw _ _ => exact allowed.elim
    | expand _ => exact allowed.elim
    | rehash _ => exact allowed.elim

/-- In each stage the bound holds exactly up to 10201 entries. -/
theorem Stage.bounded_iff (stage : Stage d) (wellFormed : d.WellFormed type) :
    d.Bounded ↔ dictSize d ≤ 10201 := by
  rw [Dict.Bounded, dictSize]
  have unused : d.rehashidx = -1 → d.ht1.used = 0 := by
    intro resting
    rw [wellFormed.ht1.used, DictHt.entries_of_size_zero (wellFormed.resting resting),
      Multiset.card_zero]
  simp only [dictResizeRatio]
  cases stage with
  | new resting none =>
      have empty : d.ht0.used = 0 := by
        rw [wellFormed.ht0.used, DictHt.entries_of_size_zero none, Multiset.card_zero]
      have second := unused resting
      omega
  | first resting size used =>
      have second := unused resting
      omega
  | second started size used size' => omega

/-! ## Runs -/

theorem light_invariant :
    (lightRuns type).IsInvariant fun d : Dict κ υ =>
      (usage type fun operation _ => operation.AddsOrFinds).Reachable d ∧ dictSize d ≤ 10201 where
  initial := by
    rintro _ rfl
    exact ⟨TransitionSystem.reachable_of_initial rfl, Nat.zero_le _⟩
  step := by
    rintro d d' ⟨reachable, light⟩ ⟨operation, result, allowed⟩
    have wellFormed := wellFormed_of_reachable reachable
    cases operation with
    | add key val =>
        refine ⟨reachable.step ⟨.add key val, result, trivial⟩, ?_⟩
        have grown := grown_grown wellFormed
        obtain ⟨⟨status, final⟩, added, rfl⟩ := Option.map_eq_some_iff.mp result
        by_cases refused : d.RefusesKey type key
        · rw [dictAdd_of_refusesKey wellFormed refused] at added
          cases added
          rw [grown.dictSize_eq wellFormed]
          exact light
        · rcases dictAdd_cases wellFormed added with ⟨-, same, -⟩ | ⟨-, -, -, inserted⟩
          · rw [same, grown.dictSize_eq wellFormed]
            exact light
          · rw [inserted.dictSize_eq grown.wellFormed, grown.dictSize_eq wellFormed]
            exact allowed.resolve_right refused
    | find key =>
        refine ⟨reachable.step ⟨.find key, result, trivial⟩, ?_⟩
        obtain ⟨found, -, rfl⟩ := Option.map_eq_some_iff.mp result
        exact light
    | addRaw _ _ => exact allowed.elim
    | replace _ _ => exact allowed.elim
    | replaceRaw _ _ => exact allowed.elim
    | expand _ => exact allowed.elim
    | rehash _ => exact allowed.elim

/-- After insertions and lookups the load is bounded exactly while the dict has at most 10201
entries, and so in every run whose insertions meet the condition. -/
theorem dict_load_bounded_iff :
    (∀ d : Dict κ υ, (usage type fun operation _ => operation.AddsOrFinds).Reachable d →
        (d.Bounded ↔ dictSize d ≤ 10201)) ∧
      ∀ d : Dict κ υ, (lightRuns type).Reachable d → d.Bounded := by
  have exact_bound : ∀ d : Dict κ υ,
      (usage type fun operation _ => operation.AddsOrFinds).Reachable d →
        (d.Bounded ↔ dictSize d ≤ 10201) := by
    intro d reachable
    obtain ⟨wellFormed, stage⟩ := stage_invariant.of_reachable reachable
    exact stage.bounded_iff wellFormed
  refine ⟨exact_bound, fun d reachable => ?_⟩
  obtain ⟨reachable', light⟩ := light_invariant.of_reachable reachable
  exact (exact_bound d reachable').mpr light

/-- Two insertions and a lookup. -/
theorem dict_load_bounded_iff_pair : dictWithPair.Bounded := by
  have start : (lightRuns stringKeys).Reachable (dictCreate : Dict CString Nat) :=
    TransitionSystem.reachable_of_initial rfl
  have first : (lightRuns stringKeys).Reachable dictWithBC :=
    start.step ⟨.add keyBC 1, rfl, Or.inl (by decide)⟩
  have looked : (lightRuns stringKeys).Reachable dictWithBC :=
    first.step ⟨.find keyCB, rfl, trivial⟩
  have second : (lightRuns stringKeys).Reachable dictWithPair :=
    looked.step ⟨.add keyCB 2, rfl, Or.inl (by decide)⟩
  exact dict_load_bounded_iff.2 dictWithPair second

/-! ## A run that loads the dict -/

/-- One key can be inserted any number of times. -/
theorem exists_reachable_of_size (n : Nat) :
    ∃ d : Dict CString Nat,
      (usage stringKeys fun operation _ => operation.AddsOrFinds).Reachable d ∧ dictSize d = n ∧
        ∀ entry ∈ d.entries, stringKeys.keyCmp letterK entry.key = 0 := by
  induction n with
  | zero =>
      refine ⟨dictCreate, TransitionSystem.reachable_of_initial rfl, rfl, fun entry member => ?_⟩
      rw [Dict.entries_create] at member
      exact (Multiset.notMem_zero entry member).elim
  | succ n induction =>
      obtain ⟨d, reachable, size, alike⟩ := induction
      obtain ⟨wellFormed, stage⟩ := stage_invariant.of_reachable reachable
      have grown := grown_grown wellFormed
      have accepted :
          refuses stringKeys letterK (d.chains (stringKeys.hash letterK)) = false := by
        rw [refuses, List.any_eq_false]
        intro entry member other
        exact of_decide_eq_true other
          (alike entry (wellFormed.mem_entries_of_mem_chains member))
      have small : d.insertIndex (stringKeys.hash letterK) ≤ intMax := by
        have masked : d.insertIndex (stringKeys.hash letterK) ≤ d.grown.insertTable.sizemask :=
          Nat.and_le_right
        have mask0 := grown.wellFormed.ht0.sizemask
        have mask1 := grown.wellFormed.ht1.sizemask
        rw [Dict.insertTable] at masked
        simp only [intMax]
        rcases stage.grown wellFormed with ⟨resting, size0, -⟩ | ⟨started, size0, -, size1⟩
        · have none := grown.wellFormed.resting resting
          split at masked <;> omega
        · split at masked <;> omega
      obtain ⟨d', added, inserted⟩ := dictAdd_of_accepts wellFormed n accepted small
      refine ⟨d', reachable.step ⟨.add letterK n, ?_, trivial⟩, ?_, fun entry member => ?_⟩
      · rw [Operation.apply, added]
        rfl
      · rw [inserted.dictSize_eq grown.wellFormed, grown.dictSize_eq wellFormed, size]
      · rw [inserted.entries, grown.entries, Multiset.mem_cons] at member
        rcases member with rfl | old
        · exact stringKeys_lawful.equal.refl letterK
        · exact alike entry old

/-- After 10202 insertions of one key the second table is loaded past the bound. -/
theorem dict_load_not_bounded :
    ∃ d : Dict CString Nat,
      (usage stringKeys fun operation _ => operation.AddsOrFinds).Reachable d ∧
        dictSize d = 10202 ∧ ¬ d.Bounded := by
  obtain ⟨d, reachable, size, -⟩ := exists_reachable_of_size 10202
  obtain ⟨wellFormed, stage⟩ := stage_invariant.of_reachable reachable
  refine ⟨d, reachable, size, ?_⟩
  rw [stage.bounded_iff wellFormed]
  omega

end Dictionary
end OstrichServer
