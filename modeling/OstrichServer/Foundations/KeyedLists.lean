import Mathlib.Data.List.Basic
import Mathlib.Tactic

/-!
# Lists of keyed items

The items of a list that have a key, as the list is extended, loses the first item with a key, or is
put together from buckets that each hold all items of the keys in them.
-/

namespace KeyedLists

variable {α κ : Type*} [DecidableEq κ] (keyOf : α → κ)

/-- The items with a key, in order. -/
def withKey (key : κ) (items : List α) : List α := items.filter fun item => keyOf item = key

/-- The list without the first item that has the key. -/
def eraseKey (key : κ) (items : List α) : List α := items.eraseP fun item => keyOf item = key

variable {keyOf} {key key' : κ} {item : α} {items : List α}

theorem withKey_cons_of_eq (same : keyOf item = key) :
    withKey keyOf key (item :: items) = item :: withKey keyOf key items := by
  simp [withKey, same]

theorem withKey_cons_of_ne (ne : keyOf item ≠ key) :
    withKey keyOf key (item :: items) = withKey keyOf key items := by
  simp [withKey, ne]

theorem withKey_eq_nil (none_has : ∀ item ∈ items, keyOf item ≠ key) :
    withKey keyOf key items = [] := by
  rw [withKey, List.filter_eq_nil_iff]
  intro item member
  rw [decide_eq_true_iff]
  exact none_has item member

theorem eraseKey_cons_of_eq (same : keyOf item = key) :
    eraseKey keyOf key (item :: items) = items := by
  simp [eraseKey, same]

theorem eraseKey_cons_of_ne (ne : keyOf item ≠ key) :
    eraseKey keyOf key (item :: items) = item :: eraseKey keyOf key items := by
  simp [eraseKey, ne]

theorem withKey_eraseKey (key : κ) (items : List α) :
    withKey keyOf key (eraseKey keyOf key items) = (withKey keyOf key items).tail := by
  induction items with
  | nil => rfl
  | cons item items induction =>
      by_cases same : keyOf item = key
      · rw [eraseKey_cons_of_eq same, withKey_cons_of_eq same, List.tail_cons]
      · rw [eraseKey_cons_of_ne same, withKey_cons_of_ne same, withKey_cons_of_ne same, induction]

theorem withKey_eraseKey_of_ne (ne : key' ≠ key) (items : List α) :
    withKey keyOf key' (eraseKey keyOf key items) = withKey keyOf key' items := by
  induction items with
  | nil => rfl
  | cons item items induction =>
      by_cases same : keyOf item = key
      · have other : keyOf item ≠ key' := by
          rw [same]
          exact ne.symm
        rw [eraseKey_cons_of_eq same, withKey_cons_of_ne other]
      · rw [eraseKey_cons_of_ne same]
        by_cases here : keyOf item = key'
        · rw [withKey_cons_of_eq here, withKey_cons_of_eq here, induction]
        · rw [withKey_cons_of_ne here, withKey_cons_of_ne here, induction]

/-- Erasing takes one item when there is one with the key. -/
theorem length_eraseKey (key : κ) (items : List α) :
    (eraseKey keyOf key items).length + (if withKey keyOf key items = [] then 0 else 1) =
      items.length := by
  induction items with
  | nil => rfl
  | cons item items induction =>
      by_cases same : keyOf item = key
      · rw [eraseKey_cons_of_eq same, withKey_cons_of_eq same, if_neg (List.cons_ne_nil _ _),
          List.length_cons]
      · rw [eraseKey_cons_of_ne same, withKey_cons_of_ne same, List.length_cons, List.length_cons,
          ← induction, Nat.add_right_comm]

/-- Of buckets in a row, where only one has items with the key, the whole has that bucket's. -/
theorem withKey_flatMap_range {buckets : Nat → List α} {size place : Nat} (inside : place < size)
    (elsewhere : ∀ i ≠ place, ∀ item ∈ buckets i, keyOf item ≠ key) :
    withKey keyOf key ((List.range size).flatMap buckets) = withKey keyOf key (buckets place) := by
  induction size with
  | zero => exact (Nat.not_lt_zero place inside).elim
  | succ size induction =>
      rw [List.range_succ, List.flatMap_append, List.flatMap_singleton, withKey, List.filter_append]
      rcases Nat.lt_succ_iff_lt_or_eq.mp inside with before | rfl
      · have last : withKey keyOf key (buckets size) = [] :=
          withKey_eq_nil (elsewhere size before.ne')
        rw [← withKey, ← withKey, last, List.append_nil, induction before]
      · have others : withKey keyOf key ((List.range place).flatMap buckets) = [] := by
          apply withKey_eq_nil
          intro item member
          obtain ⟨i, less, member⟩ := List.mem_flatMap.mp member
          exact elsewhere i (List.mem_range.mp less).ne item member
        rw [← withKey, ← withKey, others, List.nil_append]

end KeyedLists
