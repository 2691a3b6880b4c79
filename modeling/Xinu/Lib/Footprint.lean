import Mathlib.Data.List.Range

/-!
# Footprints

What a piece of code reads and writes, as a list of accesses: some cells of an object, from one
index on. A footprint is within its objects if no access goes past the end of its object. An access
to no cell is always within, wherever it begins.
-/

/-- An access to `count` cells of an object, from index `first` on. -/
structure Access (β : Type*) where
  /-- The object. -/
  obj : β
  /-- The first cell. -/
  first : ℕ
  /-- How many cells. -/
  count : ℕ
  deriving DecidableEq

/-- An access to one cell. -/
def Access.cell {β : Type*} (b : β) (i : ℕ) : Access β := ⟨b, i, 1⟩

/-- The accesses of a piece of code. -/
abbrev Footprint (β : Type*) := List (Access β)

namespace Footprint

variable {β : Type*} {size size' : β → ℕ} {l m : Footprint β} {a : Access β} {b : β} {i n : ℕ}

/-- No access goes past the end of its object. -/
def Within (size : β → ℕ) (l : Footprint β) : Prop := ∀ a ∈ l, a.count = 0 ∨ a.first + a.count ≤ size a.obj

/-- Without accesses nothing goes wrong. -/
@[simp] theorem within_nil : Within size ([] : Footprint β) := by simp [Within]

/-- The first access, and the others. -/
theorem within_cons : Within size (a :: l) ↔ (a.count = 0 ∨ a.first + a.count ≤ size a.obj) ∧ Within size l :=
  List.forall_mem_cons

/-- One part of the code after another. -/
@[simp] theorem within_append : Within size (l ++ m) ↔ Within size l ∧ Within size m := List.forall_mem_append

/-- A cell is within its object if its index is. -/
@[simp] theorem within_cell : Within size (.cell b i :: l) ↔ i < size b ∧ Within size l := by
  rw [within_cons]
  exact and_congr_left fun _ => ⟨fun h => h.resolve_left Nat.one_ne_zero, .inr⟩

/-- A loop, round by round. -/
theorem within_flatMap {f : ℕ → Footprint β} :
    Within size ((List.range n).flatMap f) ↔ ∀ i < n, Within size (f i) := by
  constructor
  · intro h i hi a ha
    exact h a (List.mem_flatMap.mpr ⟨i, List.mem_range.mpr hi, ha⟩)
  · intro h a ha
    obtain ⟨i, hi, ha⟩ := List.mem_flatMap.mp ha
    exact h i (List.mem_range.mp hi) a ha

/-- A loop that goes from cell to cell stays within an object if its last cell does. -/
theorem forall_cell_lt (first n size : ℕ) : (∀ i < n, first + i < size) ↔ n = 0 ∨ first + n ≤ size := by
  constructor
  · intro h
    by_cases hn : n = 0
    · exact .inl hn
    · have := h (n - 1) (by omega)
      exact .inr (by omega)
  · rintro (rfl | h) i hi <;> omega

/-- Accesses that are within their objects are within larger ones. -/
theorem Within.mono (h : Within size l) (hs : ∀ a ∈ l, size a.obj ≤ size' a.obj) :
    Within size' l := fun a ha =>
  (h a ha).imp_right fun hl => le_trans hl (hs a ha)

end Footprint
