import Mathlib.Data.Nat.Count
import Mathlib.Tactic.Ring
import Mathlib.Logic.Function.Basic

/-!
# Flat memories

A memory gives every word index a cell. The loops of a program that treat a range of cells alike are
`fill`s, and a single assignment is a `write`. Pages of a fixed size are the ranges `f * size + e` with
`e < size`, and two words of such pages are equal only when both coordinates are (`page_word_inj`).
-/

namespace FlatMemory

/-- A memory: a cell for every word. -/
@[ext]
structure Memory (α : Type*) where
  /-- The cell at a word. -/
  cell : ℕ → α

variable {α : Type*}

instance : CoeFun (Memory α) fun _ => ℕ → α := ⟨Memory.cell⟩

/-- The cell at offset `k < n` from `lo` goes through `g k`, and the others keep their value. -/
def fill (m : Memory α) (lo n : ℕ) (g : ℕ → α → α) : Memory α :=
  ⟨fun w => if lo ≤ w ∧ w < lo + n then g (w - lo) (m w) else m w⟩

/-- One cell gets a value. -/
def write (m : Memory α) (a : ℕ) (v : α) : Memory α := ⟨fun w => if w = a then v else m w⟩

/-- A cell of the range after a `fill`. -/
theorem fill_of_mem {m : Memory α} {lo n w : ℕ} {g : ℕ → α → α} (h₁ : lo ≤ w) (h₂ : w < lo + n) :
    fill m lo n g w = g (w - lo) (m w) := if_pos ⟨h₁, h₂⟩

/-- A cell of the range, given by its offset. -/
theorem fill_add {m : Memory α} {lo n k : ℕ} {g : ℕ → α → α} (h : k < n) :
    fill m lo n g (lo + k) = g k (m (lo + k)) := by
  rw [fill_of_mem (by omega) (by omega), Nat.add_sub_cancel_left]

/-- A cell outside the range after a `fill`. -/
theorem fill_of_not_mem {m : Memory α} {lo n w : ℕ} {g : ℕ → α → α} (h : w < lo ∨ lo + n ≤ w) :
    fill m lo n g w = m w := if_neg (by omega)

/-- An empty `fill` changes nothing. -/
@[simp]
theorem fill_zero (m : Memory α) (lo : ℕ) (g : ℕ → α → α) : fill m lo 0 g = m := by
  ext w
  exact fill_of_not_mem (by omega)

/-- The cell that is written has the new value. -/
@[simp]
theorem write_same (m : Memory α) (a : ℕ) (v : α) : write m a v a = v := if_pos rfl

/-- A cell that is not written keeps its value. -/
theorem write_other {m : Memory α} {a w : ℕ} {v : α} (h : w ≠ a) : write m a v w = m w := if_neg h

/-- A word of a page determines the page and the offset. -/
theorem page_word_inj {size f f' e e' : ℕ} (he : e < size) (he' : e' < size)
    (h : f * size + e = f' * size + e') : f = f' ∧ e = e' := by
  have hs : 0 < size := by omega
  have hf : (f * size + e) / size = (f' * size + e') / size := by rw [h]
  rw [mul_comm f, mul_comm f', Nat.mul_add_div hs, Nat.mul_add_div hs, Nat.div_eq_of_lt he,
    Nat.div_eq_of_lt he'] at hf
  have hff : f = f' := by omega
  subst hff
  exact ⟨rfl, by omega⟩

/-- A word that is not of a page lies before it or behind it. -/
theorem page_word_out {size f w : ℕ} (h : w / size ≠ f) : w < f * size ∨ f * size + size ≤ w := by
  by_contra hc
  rw [not_or, not_lt, not_le] at hc
  exact h (Nat.div_eq_of_lt_le hc.1 (by rw [add_mul, one_mul]; exact hc.2))

end FlatMemory
