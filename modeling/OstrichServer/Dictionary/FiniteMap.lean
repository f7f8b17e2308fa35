import OstrichServer.Dictionary.Rehash
import OstrichServer.Dictionary.StringKeys
import OstrichServer.Foundations.TransitionSystem

/-!
# When the dict is a finite map

Lookup takes an entry whose key compares as 0; the scan before an insertion refuses a key when some
entry of the chain does not compare as 0.  So insertion does what a map does only for a key that is
new and alone in its chain, or one that is stored in a chain with another key.
-/

namespace OstrichServer
namespace Dictionary

variable {κ υ : Type} {type : DictType κ}

/-- The comparison says which keys are equal, and equal keys have one hash. -/
structure DictType.Lawful (type : DictType κ) : Prop where
  equal : Equivalence fun key1 key2 => type.keyCmp key1 key2 = 0
  hash : ∀ {key1 key2}, type.keyCmp key1 key2 = 0 → type.hash key1 = type.hash key2

theorem stringKeys_lawful : stringKeys.Lawful where
  equal :=
    { refl := fun key => (dictStringKeyCompare_eq_zero_iff key key).mpr rfl
      symm := fun {key1 key2} same => by
        have equal := (dictStringKeyCompare_eq_zero_iff key1 key2).mp same
        exact (dictStringKeyCompare_eq_zero_iff key2 key1).mpr equal.symm
      trans := fun {key1 key2 key3} same same' => by
        have equal := (dictStringKeyCompare_eq_zero_iff key1 key2).mp same
        have equal' := (dictStringKeyCompare_eq_zero_iff key2 key3).mp same'
        exact (dictStringKeyCompare_eq_zero_iff key1 key3).mpr (equal.trans equal') }
  hash := fun {key1 key2} same => by
    rw [(dictStringKeyCompare_eq_zero_iff key1 key2).mp same]

/-! ## The map -/

/-- What each key is mapped to, if to anything. -/
abbrev KeyMap (κ υ : Type) : Type := κ → Option υ

/-- One more key. -/
def KeyMap.insert (type : DictType κ) (map : KeyMap κ υ) (key : κ) (val : υ) : KeyMap κ υ :=
  fun key' => if type.keyCmp key key' = 0 then some val else map key'

/-- The values of the entries with a key. -/
def Dict.stored (type : DictType κ) (d : Dict κ υ) (key : κ) : Multiset υ :=
  (d.entries.filter fun entry => type.keyCmp key entry.key = 0).map DictEntry.val

/-- For each key that is mapped the dict has one entry, with its value, and for the others none. -/
def Refines (type : DictType κ) (d : Dict κ υ) (map : KeyMap κ υ) : Prop :=
  ∀ key, d.stored type key = (map key).elim 0 fun val => {val}

/-- A call of one of the operations. -/
inductive Call (κ υ : Type)
  | add (key : κ) (val : υ)
  | find (key : κ)
  | expand (size : Nat)
  | rehash (n : Int)

/-- What a call returned. -/
inductive Answer (κ υ : Type)
  | status (status : Status)
  | entry (he : Option (DictEntry κ υ))
  | int (out : Int)

namespace Call

/-- The call made on a dict. -/
def run (type : DictType κ) (d : Dict κ υ) : Call κ υ → Option (Answer κ υ × Dict κ υ)
  | add key val => (dictAdd type d key val).map fun (status, d') => (.status status, d')
  | find key => (dictFind type d key).map fun he => (.entry he, d)
  | expand size => some (.status (dictExpand d size).1, (dictExpand d size).2)
  | rehash n => (dictRehash type d n).map fun (out, d') => (.int out, d')

/-- What the call may return for a map. -/
def Answers (type : DictType κ) (map : KeyMap κ υ) : Call κ υ → Answer κ υ → Prop
  | add key _, .status status => status = .osOk ↔ map key = none
  | find key, .entry he =>
      he.map DictEntry.val = map key ∧ ∀ entry ∈ he, type.keyCmp key entry.key = 0
  | expand _, .status _ => True
  | rehash _, .int _ => True
  | _, _ => False

/-- What the call does to a map. -/
def effect (type : DictType κ) (map : KeyMap κ υ) : Call κ υ → KeyMap κ υ
  | add key val => if (map key).isNone then map.insert type key val else map
  | _ => map

/-- The call returns, with an answer for the map, and the dict then holds what the map does. -/
def Correct (type : DictType κ) (d : Dict κ υ) (map : KeyMap κ υ) (call : Call κ υ) : Prop :=
  ∃ answer d', call.run type d = some (answer, d') ∧ call.Answers type map answer ∧
    Refines type d' (call.effect type map)

/-- The condition for a call: a key that is added is stored together with another key in the chains
for its hash, or these chains are empty and an `int` can hold the index of its bucket; and the
`int`s of a rehash do not overflow.  (The index `UINT_MAX` is taken for -1 and the key refused.) -/
def Fits (type : DictType κ) (d : Dict κ υ) : Call κ υ → Prop
  | add key _ =>
      (∃ entry ∈ d.entries, type.keyCmp key entry.key = 0) ∧
          ((∃ entry ∈ d.chains (type.hash key), type.keyCmp key entry.key ≠ 0) ∨
            d.insertIndex (type.hash key) = 2 ^ 32 - 1) ∨
        d.chains (type.hash key) = [] ∧ d.insertIndex (type.hash key) ≤ intMax
  | find _ => True
  | expand _ => True
  | rehash n => d.rehashidx ≠ -1 → d.Near ∧ RoundsFit d.bucketsInUse n

end Call

/-- Runs of the calls that are allowed, from `dict_create` and the empty map. -/
def runs (type : DictType κ) (allowed : Dict κ υ → Call κ υ → Prop) :
    TransitionSystem (Dict κ υ × KeyMap κ υ) where
  initial state := state = (dictCreate, fun _ => none)
  step state next := ∃ call answer, allowed state.1 call ∧
    call.run type state.1 = some (answer, next.1) ∧ next.2 = call.effect type state.2

/-! ## The entries with a key -/

variable {d d' : Dict κ υ} {map : KeyMap κ υ}

theorem refines_create : Refines type (dictCreate : Dict κ υ) fun _ => none := by
  intro key
  rw [Dict.stored, Dict.entries_create, Multiset.filter_zero, Multiset.map_zero]
  rfl

theorem Refines.of_entries (refines : Refines type d map) (same : d'.entries = d.entries) :
    Refines type d' map := by
  intro key
  rw [← refines key, Dict.stored, Dict.stored, same]

theorem mem_stored {key : κ} {val : υ} :
    val ∈ d.stored type key ↔
      ∃ entry ∈ d.entries, type.keyCmp key entry.key = 0 ∧ entry.val = val := by
  simp only [Dict.stored, Multiset.mem_map, Multiset.mem_filter, and_assoc]

theorem stored_cons {entry : DictEntry κ υ} (more : d'.entries = entry ::ₘ d.entries) (key : κ) :
    d'.stored type key =
      if type.keyCmp key entry.key = 0 then entry.val ::ₘ d.stored type key
      else d.stored type key := by
  rw [Dict.stored, Dict.stored, more, Multiset.filter_cons]
  split
  · rw [Multiset.map_add, Multiset.map_singleton, Multiset.singleton_add]
  · rw [zero_add]

/-- The dict has an entry with the key exactly if the map has the key. -/
theorem Refines.exists_entry_iff (refines : Refines type d map) (key : κ) :
    (∃ entry ∈ d.entries, type.keyCmp key entry.key = 0) ↔ map key ≠ none := by
  have held := refines key
  constructor
  · rintro ⟨entry, member, same⟩ none
    have listed := mem_stored.mpr ⟨entry, member, same, rfl⟩
    rw [held, none] at listed
    exact Multiset.notMem_zero _ listed
  · intro some
    obtain ⟨val, mapped⟩ := Option.ne_none_iff_exists'.mp some
    have listed : val ∈ d.stored type key := by
      rw [held, mapped]
      exact Multiset.mem_singleton_self val
    obtain ⟨entry, member, same, -⟩ := mem_stored.mp listed
    exact ⟨entry, member, same⟩

/-- Every entry with the key has the value of the map. -/
theorem Refines.val_eq (refines : Refines type d map) {key : κ} {entry : DictEntry κ υ}
    (member : entry ∈ d.entries) (same : type.keyCmp key entry.key = 0) :
    some entry.val = map key := by
  have listed := mem_stored.mpr ⟨entry, member, same, rfl⟩
  rw [refines key] at listed
  cases mapped : map key with
  | none =>
      rw [mapped] at listed
      exact (Multiset.notMem_zero _ listed).elim
  | some val =>
      rw [mapped, Option.elim_some, Multiset.mem_singleton] at listed
      rw [listed]

section Lawful

variable (lawful : type.Lawful)
include lawful

theorem stored_congr {key key' : κ} (same : type.keyCmp key key' = 0) :
    d.stored type key = d.stored type key' := by
  rw [Dict.stored, Dict.stored]
  congr 1
  apply Multiset.filter_congr
  intro entry _
  constructor
  · intro equal
    exact lawful.equal.trans (lawful.equal.symm same) equal
  · intro equal
    exact lawful.equal.trans same equal

theorem Refines.insert (refines : Refines type d map) {key : κ} {val : υ} (new : map key = none)
    (more : d'.entries = { key, val } ::ₘ d.entries) :
    Refines type d' (map.insert type key val) := by
  intro key'
  have absent : d.stored type key = 0 := by
    rw [refines key, new]
    rfl
  rw [stored_cons more, KeyMap.insert]
  by_cases same : type.keyCmp key key' = 0
  · rw [if_pos same, if_pos (lawful.equal.symm same), ← stored_congr lawful same, absent]
    rfl
  · rw [if_neg same, if_neg fun equal => same (lawful.equal.symm equal)]
    exact refines key'

/-- An entry with the key is in the chains for the hash of the key. -/
theorem Dict.WellFormed.mem_chains (wellFormed : d.WellFormed type) {key : κ}
    {entry : DictEntry κ υ} (member : entry ∈ d.entries) (same : type.keyCmp key entry.key = 0) :
    entry ∈ d.chains (type.hash key) := by
  rw [lawful.hash same]
  exact wellFormed.mem_chains_of_mem_entries member

/-! ## Each call -/

theorem find_correct (wellFormed : d.WellFormed type) (refines : Refines type d map) (key : κ) :
    (Call.find key).Correct type d map := by
  refine ⟨.entry (findIn type key (d.chains (type.hash key))), d, ?_, ?_, refines⟩
  · rw [Call.run, dictFind_eq wellFormed]
    rfl
  · cases found : findIn type key (d.chains (type.hash key)) with
    | none =>
        refine ⟨?_, fun entry member => by cases member⟩
        by_contra some
        obtain ⟨entry, member, same⟩ := (refines.exists_entry_iff key).mpr (Ne.symm some)
        have missed := List.find?_eq_none.mp found entry (wellFormed.mem_chains lawful member same)
        exact missed (decide_eq_true same)
    | some entry =>
        have same : type.keyCmp key entry.key = 0 := by
          simpa using List.find?_some found
        have member := wellFormed.mem_entries_of_mem_chains (List.mem_of_find?_eq_some found)
        refine ⟨refines.val_eq member same, ?_⟩
        rintro _ ⟨⟩
        exact same

omit lawful in
theorem add_refused (wellFormed : d.WellFormed type) (refines : Refines type d map) {key : κ}
    {val : υ} (result : dictAdd type d key val = some (.osErr, d.grown)) :
    (Call.add key val).Correct type d map ↔ map key ≠ none := by
  have ran : (Call.add key val).run type d = some (.status .osErr, d.grown) := by
    rw [Call.run, result]
    rfl
  constructor
  · rintro ⟨answer, d', ran', answers, -⟩ none
    rw [ran] at ran'
    cases ran'
    have impossible := answers.mpr none
    cases impossible
  · intro some
    refine ⟨_, _, ran, ?_, ?_⟩
    · exact ⟨fun impossible => (by cases impossible), fun none => (some none).elim⟩
    · have kept : (Call.add key val).effect type map = map := by
        rw [Call.effect, if_neg (by simpa using some)]
      rw [kept]
      exact refines.of_entries (grown_grown wellFormed).entries

theorem add_accepted (refines : Refines type d map) {key : κ} {val : υ}
    (result : dictAdd type d key val = some (.osOk, d'))
    (more : d'.entries = { key, val } ::ₘ d.entries) :
    (Call.add key val).Correct type d map ↔ map key = none := by
  have ran : (Call.add key val).run type d = some (.status .osOk, d') := by
    rw [Call.run, result]
    rfl
  constructor
  · rintro ⟨answer, other, ran', answers, -⟩
    rw [ran] at ran'
    cases ran'
    exact answers.mp rfl
  · intro none
    refine ⟨_, _, ran, ⟨fun _ => none, fun _ => rfl⟩, ?_⟩
    rw [Call.effect, if_pos (by rw [none]; rfl)]
    exact refines.insert lawful none more

/-- Insertion does what a map does exactly under its condition. -/
theorem add_correct_iff (wellFormed : d.WellFormed type) (refines : Refines type d map) (key : κ)
    (val : υ) : (Call.add key val).Correct type d map ↔ (Call.add key val).Fits type d := by
  rw [Call.Fits, refines.exists_entry_iff key]
  cases refused : refuses type key (d.chains (type.hash key)) with
  | true =>
      obtain ⟨entry, member, other⟩ := List.any_eq_true.mp refused
      have occupied : d.chains (type.hash key) ≠ [] := List.ne_nil_of_mem member
      rw [add_refused wellFormed refines (dictAdd_of_refuses wellFormed val refused)]
      constructor
      · intro some
        exact Or.inl ⟨some, Or.inl ⟨entry, member, of_decide_eq_true other⟩⟩
      · rintro (⟨some, -⟩ | ⟨empty, -⟩)
        · exact some
        · exact (occupied empty).elim
  | false =>
      have alike : ¬ ∃ entry ∈ d.chains (type.hash key), type.keyCmp key entry.key ≠ 0 := by
        rintro ⟨entry, member, other⟩
        have clash : refuses type key (d.chains (type.hash key)) = true :=
          List.any_eq_true.mpr ⟨entry, member, decide_eq_true other⟩
        rw [refused] at clash
        cases clash
      -- a chain that holds no other key is empty when the key is not stored
      have alone : map key = none ↔ d.chains (type.hash key) = [] := by
        rw [← not_iff_not, ← ne_eq, ← refines.exists_entry_iff key]
        constructor
        · rintro ⟨entry, member, same⟩ empty
          have chained := wellFormed.mem_chains lawful member same
          rw [empty] at chained
          cases chained
        · intro occupied
          obtain ⟨entry, member⟩ := List.exists_mem_of_ne_nil _ occupied
          refine ⟨entry, wellFormed.mem_entries_of_mem_chains member, ?_⟩
          by_contra other
          exact alike ⟨entry, member, other⟩
      rw [← alone]
      by_cases small : d.insertIndex (type.hash key) ≤ intMax
      · obtain ⟨d', result, inserted⟩ := dictAdd_of_accepts wellFormed val refused small
        have more := inserted.entries.trans
          (congrArg (Multiset.cons _) (grown_grown wellFormed).entries)
        rw [add_accepted lawful refines result more]
        constructor
        · intro none
          exact Or.inr ⟨none, small⟩
        · rintro (⟨-, other | last⟩ | ⟨none, -⟩)
          · exact (alike other).elim
          · rw [last] at small
            exact absurd small (by decide)
          · exact none
      · have result := dictAdd_of_intMax_lt wellFormed val refused (Nat.not_le.mp small)
        by_cases last : d.insertIndex (type.hash key) = 2 ^ 32 - 1
        · rw [if_pos last] at result
          rw [add_refused wellFormed refines result]
          constructor
          · intro some
            exact Or.inl ⟨some, Or.inr last⟩
          · rintro (⟨some, -⟩ | ⟨-, held⟩)
            · exact some
            · exact (small held).elim
        · rw [if_neg last] at result
          constructor
          · rintro ⟨answer, d', ran, -⟩
            rw [Call.run, result] at ran
            cases ran
          · rintro (⟨-, other | index⟩ | ⟨-, held⟩)
            · exact (alike other).elim
            · exact (last index).elim
            · exact (small held).elim

/-- Every call that meets its condition does what a map does. -/
theorem correct_of_fits (wellFormed : d.WellFormed type) (refines : Refines type d map)
    {call : Call κ υ} (fits : call.Fits type d) : call.Correct type d map := by
  cases call with
  | add key val => exact (add_correct_iff lawful wellFormed refines key val).mpr fits
  | find key => exact find_correct lawful wellFormed refines key
  | expand size =>
      exact ⟨_, _, rfl, trivial, refines.of_entries (dictExpand_grown wellFormed size).entries⟩
  | rehash n =>
      obtain ⟨out, d', result⟩ := exists_dictRehash wellFormed fits
      refine ⟨.int out, d', ?_, trivial,
        refines.of_entries (dictRehash_keeps wellFormed result).2⟩
      rw [Call.run, result]
      rfl

omit lawful in
/-- A call that returns keeps the invariant of the dict. -/
theorem run_wellFormed (wellFormed : d.WellFormed type) {call : Call κ υ} {answer : Answer κ υ}
    (ran : call.run type d = some (answer, d')) :
    d'.WellFormed type := by
  cases call with
  | add key val =>
      obtain ⟨⟨status, final⟩, result, same⟩ := Option.map_eq_some_iff.mp ran
      cases same
      exact dictAdd_wellFormed wellFormed result
  | find key =>
      obtain ⟨he, result, same⟩ := Option.map_eq_some_iff.mp ran
      cases same
      exact wellFormed
  | expand size =>
      cases ran
      exact (dictExpand_grown wellFormed size).wellFormed
  | rehash n =>
      obtain ⟨⟨out, final⟩, result, same⟩ := Option.map_eq_some_iff.mp ran
      cases same
      exact (dictRehash_keeps wellFormed result).1

end Lawful

/-! ## Runs -/

theorem runs_invariant (lawful : type.Lawful) :
    (runs type (Call.Fits type)).IsInvariant fun state : Dict κ υ × KeyMap κ υ =>
      state.1.WellFormed type ∧ Refines type state.1 state.2 where
  initial := by
    rintro _ rfl
    exact ⟨Dict.wellFormed_create, refines_create⟩
  step := by
    rintro ⟨d, map⟩ ⟨d', map'⟩ ⟨wellFormed, refines⟩ ⟨call, answer, fits, ran, rfl⟩
    obtain ⟨answer', final, ran', -, refines'⟩ := correct_of_fits lawful wellFormed refines fits
    rw [ran] at ran'
    cases ran'
    exact ⟨run_wellFormed wellFormed ran, refines'⟩

/-- After calls that met their condition the dict holds what the map holds, a further call that
meets its condition does what the map does, and an insertion only if it meets its condition. -/
theorem dict_refines_map (lawful : type.Lawful)
    (reachable : (runs type (Call.Fits type)).Reachable (d, map)) :
    Refines type d map ∧ (∀ call : Call κ υ, call.Fits type d → call.Correct type d map) ∧
      ∀ key val, (Call.add key val).Correct type d map → (Call.add key val).Fits type d := by
  obtain ⟨wellFormed, refines⟩ := (runs_invariant lawful).of_reachable reachable
  refine ⟨refines, fun call fits => correct_of_fits lawful wellFormed refines fits,
    fun key val correct => ?_⟩
  exact (add_correct_iff lawful wellFormed refines key val).mp correct

/-- The key `k`. -/
def letterK : CString := ⟨[107], by decide⟩

/-- The dict after `dict_add` of `k`. -/
def dictWithK : Dict CString Nat := ((dictAdd stringKeys dictCreate letterK 1).get rfl).2

/-- The key `bc`. -/
def keyBC : CString := ⟨[98, 99], by decide⟩

/-- The key `cb`, which has another bucket of 100 than `bc` but the same of 200. -/
def keyCB : CString := ⟨[99, 98], by decide⟩

/-- The key `m`. -/
def letterM : CString := ⟨[109], by decide⟩

/-- The dict after `dict_add` of `bc`. -/
def dictWithBC : Dict CString Nat := ((dictAdd stringKeys dictCreate keyBC 1).get rfl).2

/-- The dict after `dict_add` of `cb`. -/
def dictWithPair : Dict CString Nat := ((dictAdd stringKeys dictWithBC keyCB 2).get rfl).2

/-- The dict after `dict_expand` started a rehash. -/
def dictGrowing : Dict CString Nat := (dictExpand dictWithPair 150).2

/-- The dict after a round of `dict_rehash`. -/
def dictMoving : Dict CString Nat := ((dictRehash stringKeys dictGrowing 1).get rfl).2

/-- The dict after `dict_add` of `m` during the rehash. -/
def dictWithThree : Dict CString Nat := ((dictAdd stringKeys dictMoving letterM 3).get rfl).2

/-- The dict after the end of the rehash, with `bc` and `cb` in one bucket. -/
def dictRehashed : Dict CString Nat := ((dictRehash stringKeys dictWithThree 5).get rfl).2

/-- What a map with the three keys holds. -/
def mapWithThree : KeyMap CString Nat :=
  KeyMap.insert stringKeys
    (KeyMap.insert stringKeys (KeyMap.insert stringKeys (fun _ => none) keyBC 1) keyCB 2) letterM 3

theorem dictRehashed_reachable :
    (runs stringKeys (Call.Fits stringKeys)).Reachable (dictRehashed, mapWithThree) := by
  let run : TransitionSystem (Dict CString Nat × KeyMap CString Nat) :=
    runs stringKeys (Call.Fits stringKeys)
  have near {d : Dict CString Nat} (small : d.ht0.size ≤ intMax) : d.Near :=
    fun i far inside => absurd (far.trans_lt inside) small.not_gt
  have start : run.Reachable (dictCreate, fun _ => none) :=
    TransitionSystem.reachable_of_initial rfl
  have first : run.Reachable (dictWithBC, _) :=
    start.step ⟨.add keyBC 1, _, Or.inr ⟨rfl, by decide⟩, rfl, rfl⟩
  have second : run.Reachable (dictWithPair, _) :=
    first.step ⟨.add keyCB 2, _, Or.inr ⟨rfl, by decide⟩, rfl, rfl⟩
  have growing : run.Reachable (dictGrowing, _) :=
    second.step ⟨.expand 150, _, trivial, rfl, rfl⟩
  have moving : run.Reachable (dictMoving, _) :=
    growing.step ⟨.rehash 1, .int 1, fun _ => ⟨near (by decide), Or.inl (by decide)⟩, rfl, rfl⟩
  have third : run.Reachable (dictWithThree, mapWithThree) :=
    moving.step ⟨.add letterM 3, _, Or.inr ⟨rfl, by decide⟩, rfl, rfl⟩
  exact third.step ⟨.rehash 5, .int 0, fun _ => ⟨near (by decide), Or.inl (by decide)⟩, rfl, rfl⟩

/-- After insertions, growth and a rehash with an insertion in it, `bc` is refused and `cb` found.
-/
theorem dict_refines_map_rehashed :
    Refines stringKeys dictRehashed mapWithThree ∧
      (Call.add keyBC 4).Correct stringKeys dictRehashed mapWithThree ∧
      (Call.find keyCB).Correct stringKeys dictRehashed mapWithThree := by
  obtain ⟨refines, correct, -⟩ := dict_refines_map stringKeys_lawful dictRehashed_reachable
  refine ⟨refines, correct (.add keyBC 4) (Or.inl ⟨?_, Or.inl ?_⟩), correct (.find keyCB) trivial⟩
  · exact (refines.exists_entry_iff keyBC).mpr (by decide)
  · decide

/-- A key that is stored and alone in its chain is inserted again. -/
theorem dict_not_refines_map :
    stringKeys.Lawful ∧ ∃ map : KeyMap CString Nat,
      (runs stringKeys fun _ _ => True).Reachable (dictWithK, map) ∧ map letterK = some 1 ∧
        (dictAdd stringKeys dictWithK letterK 2).map Prod.fst = some .osOk ∧
          ¬ (Call.add letterK 2).Correct stringKeys dictWithK map := by
  refine ⟨stringKeys_lawful, KeyMap.insert stringKeys (fun _ => none) letterK 1, ?_, rfl, ?_, ?_⟩
  · apply TransitionSystem.Reachable.step (TransitionSystem.reachable_of_initial rfl)
    exact ⟨.add letterK 1, _, trivial, rfl, rfl⟩
  · decide
  · rintro ⟨answer, d', ran, answers, -⟩
    cases ran
    cases answers.mp rfl

end Dictionary
end OstrichServer
