import Mathlib.Tactic
import Mathlib.Computability.Language

/-!
# Languages read symbol by symbol

One-symbol classes, their stars, and the rules that tell which words of a product of them start
with a given symbol.  Together they compute the left quotient of a grammar by its first symbol.
-/

namespace Language

open Computability

variable {α : Type*}

/-- The one-symbol words whose symbol satisfies `p`. -/
def symbols (p : α → Prop) : Language α := {word | ∃ symbol, p symbol ∧ word = [symbol]}

variable {p : α → Prop} {l m : Language α} {symbol : α} {word : List α}

@[simp]
theorem cons_mem_symbols : symbol :: word ∈ symbols p ↔ p symbol ∧ word = [] := by
  constructor
  · rintro ⟨symbol', holds, same⟩
    obtain ⟨rfl, rfl⟩ : symbol = symbol' ∧ word = [] := by simpa using same
    exact ⟨holds, rfl⟩
  · rintro ⟨holds, rfl⟩
    exact ⟨symbol, holds, rfl⟩

@[simp]
theorem nil_notMem_symbols : [] ∉ symbols p := by
  rintro ⟨symbol, -, same⟩
  simp at same

@[simp]
theorem mem_symbols_eq : word ∈ symbols (· = symbol) ↔ word = [symbol] := by
  constructor
  · rintro ⟨_, rfl, same⟩
    exact same
  · rintro rfl
    exact ⟨symbol, rfl, rfl⟩

@[simp]
theorem cons_mem_symbols_mul :
    symbol :: word ∈ symbols p * l ↔ p symbol ∧ word ∈ l := by
  constructor
  · rintro ⟨_, ⟨head, holds, rfl⟩, tail, member, same⟩
    obtain ⟨rfl, rfl⟩ : head = symbol ∧ tail = word := by simpa using same
    exact ⟨holds, member⟩
  · rintro ⟨holds, member⟩
    exact append_mem_mul (a := [symbol]) ⟨symbol, holds, rfl⟩ member

@[simp]
theorem nil_notMem_symbols_mul : [] ∉ symbols p * l := by
  rintro ⟨_, ⟨head, -, rfl⟩, tail, -, same⟩
  simp at same

@[simp]
theorem mem_sup : word ∈ l ⊔ m ↔ word ∈ l ∨ word ∈ m := by
  rw [← add_eq_sup, mem_add]

/-- Unroll a leading star once. -/
theorem kstar_mul_eq : (symbols p)∗ * l = symbols p * ((symbols p)∗ * l) + l := by
  conv_lhs => rw [← one_add_self_mul_kstar_eq_kstar]
  rw [add_mul, one_mul, mul_assoc, add_comm]

@[simp]
theorem cons_mem_kstar_symbols_mul :
    symbol :: word ∈ (symbols p)∗ * l ↔
      p symbol ∧ word ∈ (symbols p)∗ * l ∨ symbol :: word ∈ l := by
  conv_lhs => rw [kstar_mul_eq]
  rw [mem_add, cons_mem_symbols_mul]

@[simp]
theorem nil_mem_kstar_symbols_mul : [] ∈ (symbols p)∗ * l ↔ [] ∈ l := by
  rw [kstar_mul_eq, mem_add]
  simp

end Language
