import Mathlib.Logic.Equiv.Basic
import Mathlib.Order.Basic
import Mathlib.Data.Int.Order.Basic
import Mathlib.Data.List.Range
import Mathlib.Data.List.Nodup
import Mathlib.Logic.Function.Basic

/-!
# Sorting with a fat pivot

Cells are a function of their index. A part of the cells is sorted by rearranging it into those that
are less than a pivot, those that are equal to it and those that are greater, and by sorting the
first and the last of these. `FatPivot` is what holds while the cells are being compared with the
pivot: those that have been are at both ends, and around the pivot in the middle. `Sorted.of_parts`
puts the parts together.
-/

namespace Cells

variable {α : Type*} {v v' v'' : ℕ → α} {p q r s : ℕ}

/-! ## Rearranged cells -/

/-- The cells from `p` to `q` have changed places, and the others have stayed. -/
def Rearranged (p q : ℕ) (v v' : ℕ → α) : Prop :=
  ∃ σ : Equiv.Perm ℕ, (∀ k, k < p ∨ q ≤ k → σ k = k) ∧ v' = v ∘ σ

namespace Rearranged

/-- Nothing has changed. -/
theorem refl (p q : ℕ) (v : ℕ → α) : Rearranged p q v v := ⟨Equiv.refl ℕ, fun _ _ => rfl, rfl⟩

/-- Cells that are rearranged within a part twice are rearranged within it. -/
theorem trans (h : Rearranged p q v v') (h' : Rearranged p q v' v'') : Rearranged p q v v'' := by
  obtain ⟨σ, hσ, rfl⟩ := h
  obtain ⟨τ, hτ, rfl⟩ := h'
  refine ⟨τ.trans σ, fun k hk => ?_, rfl⟩
  rw [Equiv.trans_apply, hτ k hk, hσ k hk]

/-- Cells that are rearranged within a part are rearranged within a larger one. -/
theorem mono (h : Rearranged p q v v') (hp : r ≤ p) (hq : q ≤ s) : Rearranged r s v v' := by
  obtain ⟨σ, hσ, rfl⟩ := h
  exact ⟨σ, fun k hk => hσ k (by omega), rfl⟩

/-- An exchange of two cells of a part rearranges it. -/
theorem swap {m n : ℕ} (hm : p ≤ m ∧ m < q) (hn : p ≤ n ∧ n < q) : Rearranged p q v (v ∘ Equiv.swap m n) :=
  ⟨Equiv.swap m n, fun k hk => Equiv.swap_apply_of_ne_of_ne (by omega) (by omega), rfl⟩

/-- The cells outside the part stay where they are. -/
theorem eq (h : Rearranged p q v v') {k : ℕ} (hk : k < p ∨ q ≤ k) : v' k = v k := by
  obtain ⟨σ, hσ, rfl⟩ := h
  rw [Function.comp_apply, hσ k hk]

/-- What holds of each of the cells holds after they have changed places. -/
theorem forall_mem (h : Rearranged p q v v') {P : α → Prop} (hP : ∀ k, p ≤ k → k < q → P (v k)) :
    ∀ k, p ≤ k → k < q → P (v' k) := by
  obtain ⟨σ, hσ, rfl⟩ := h
  intro k hpk hkq
  -- A cell from outside would have stayed outside.
  have hin : p ≤ σ k ∧ σ k < q := by
    by_contra hout
    have hfix : σ (σ k) = σ k := hσ _ (by omega)
    have hk : σ k = k := σ.injective hfix
    omega
  exact hP _ hin.1 hin.2

/-- The list of the cells is a permutation. -/
theorem perm {n : ℕ} (h : Rearranged 0 n v v') : ((List.range n).map v').Perm ((List.range n).map v) := by
  obtain ⟨σ, hσ, rfl⟩ := h
  have hrange : ((List.range n).map σ).Perm (List.range n) := by
    refine (List.perm_ext_iff_of_nodup (List.Nodup.map σ.injective List.nodup_range) List.nodup_range).mpr
      fun k => ?_
    rw [List.mem_map, List.mem_range]
    constructor
    · rintro ⟨m, hm, rfl⟩
      by_contra hk
      have hfix : σ m = m := σ.injective (hσ _ (Or.inr (not_lt.mp hk)))
      exact hk (by rw [hfix]; exact List.mem_range.mp hm)
    · intro hk
      refine ⟨σ.symm k, List.mem_range.mpr ?_, σ.apply_symm_apply k⟩
      by_contra hm
      have hfix : σ (σ.symm k) = σ.symm k := hσ _ (Or.inr (not_lt.mp hm))
      rw [σ.apply_symm_apply] at hfix
      omega
  have := hrange.map v
  rwa [List.map_map] at this

end Rearranged

/-- Three cells change places: the first gets the third, the third the second and the second the
first. The last two may be one cell. -/
def rotate (m n k : ℕ) (v : ℕ → α) : ℕ → α := v ∘ (Equiv.swap n k).trans (Equiv.swap m k)

section rotate

variable {m n k : ℕ}

/-- The first cell. -/
theorem rotate_first (hmn : m ≠ n) (hmk : m ≠ k) : rotate m n k v m = v k := by
  rw [rotate, Function.comp_apply, Equiv.trans_apply, Equiv.swap_apply_of_ne_of_ne hmn hmk,
    Equiv.swap_apply_left]

/-- The second of the three cells gets the value of the first. -/
theorem rotate_second : rotate m n k v n = v m := by
  rw [rotate, Function.comp_apply, Equiv.trans_apply, Equiv.swap_apply_left, Equiv.swap_apply_right]

/-- The third of the three cells gets the value of the second. -/
theorem rotate_third (hmn : m ≠ n) (hnk : n ≠ k) : rotate m n k v k = v n := by
  rw [rotate, Function.comp_apply, Equiv.trans_apply, Equiv.swap_apply_right,
    Equiv.swap_apply_of_ne_of_ne hmn.symm hnk]

/-- Every other cell keeps its value. -/
theorem rotate_other {t : ℕ} (hm : t ≠ m) (hn : t ≠ n) (hk : t ≠ k) : rotate m n k v t = v t := by
  rw [rotate, Function.comp_apply, Equiv.trans_apply, Equiv.swap_apply_of_ne_of_ne hn hk,
    Equiv.swap_apply_of_ne_of_ne hm hk]

/-- A rotation of three cells of a part rearranges it. -/
theorem Rearranged.rotate (hm : p ≤ m ∧ m < q) (hn : p ≤ n ∧ n < q) (hk : p ≤ k ∧ k < q) :
    Rearranged p q v (rotate m n k v) := by
  have h : Cells.rotate m n k v = (v ∘ Equiv.swap m k) ∘ Equiv.swap n k := rfl
  rw [h]
  exact (Rearranged.swap hm hk).trans (Rearranged.swap hn hk)

end rotate

/-! ## Comparisons -/

/-- A comparison that is a total preorder: its sign changes with the order of what is compared, and
it is transitive. -/
structure Consistent (cmp : α → α → ℤ) : Prop where
  /-- The sign changes with the order. -/
  swap : ∀ x y, cmp x y < 0 ↔ 0 < cmp y x
  /-- What is not greater is transitive. -/
  trans : ∀ x y z, cmp x y ≤ 0 → cmp y z ≤ 0 → cmp x z ≤ 0

namespace Consistent

variable {cmp : α → α → ℤ} {x y z : α}

/-- Anything is equal to itself. -/
theorem self (h : Consistent cmp) (x : α) : cmp x x = 0 := by
  have := h.swap x x
  omega

/-- Not greater, from the other side. -/
theorem le_iff (h : Consistent cmp) : cmp x y ≤ 0 ↔ 0 ≤ cmp y x := by
  have := h.swap y x
  omega

/-- A comparison that says that two values are equal says so with them exchanged. -/
theorem eq_iff (h : Consistent cmp) : cmp x y = 0 ↔ cmp y x = 0 := by
  have := h.le_iff (x := x) (y := y)
  have := h.le_iff (x := y) (y := x)
  omega

/-- What is equal to the pivot compares as the pivot does. -/
theorem of_equal (h : Consistent cmp) (hy : cmp y z = 0) :
    (cmp x y < 0 ↔ cmp x z < 0) ∧ (cmp x y = 0 ↔ cmp x z = 0) ∧ (0 < cmp x y ↔ 0 < cmp x z) := by
  have hz : cmp z y = 0 := h.eq_iff.mp hy
  have hle : cmp x y ≤ 0 ↔ cmp x z ≤ 0 := ⟨fun hx => h.trans x y z hx hy.le, fun hx => h.trans x z y hx hz.le⟩
  have hge : 0 ≤ cmp x y ↔ 0 ≤ cmp x z := by
    rw [← h.le_iff, ← h.le_iff]
    exact ⟨fun hx => h.trans z y x hz.le hx, fun hx => h.trans y z x hy.le hx⟩
  omega

/-- What is equal to the pivot compares the other way round when it stands on the left. -/
theorem of_equal_left (h : Consistent cmp) (hy : cmp y z = 0) :
    (0 < cmp y x ↔ cmp x z < 0) ∧ (cmp y x = 0 ↔ cmp x z = 0) ∧ (cmp y x < 0 ↔ 0 < cmp x z) := by
  obtain ⟨hlt, heq, hgt⟩ := h.of_equal (x := x) hy
  exact ⟨(h.swap x y).symm.trans hlt, h.eq_iff.trans heq, (h.swap y x).trans hgt⟩

end Consistent

/-! ## The pivot -/

/-- The cells from `p` to `q` while they are compared with a pivot `x`: those before `i` are less,
those after `j` are greater, and those from `lp` to `hp` are equal. -/
structure FatPivot (cmp : α → α → ℤ) (x : α) (v : ℕ → α) (p i lp hp j q : ℕ) : Prop where
  /-- The indices are in order. -/
  bounds : p ≤ i ∧ i ≤ lp ∧ lp ≤ hp ∧ hp ≤ j ∧ j < q
  /-- The cells before `i` are less than the pivot. -/
  less : ∀ k, p ≤ k → k < i → cmp (v k) x < 0
  /-- Those from `lp` to `hp` are equal to it. -/
  equal : ∀ k, lp ≤ k → k ≤ hp → cmp (v k) x = 0
  /-- Those behind `j` are greater. -/
  greater : ∀ k, j < k → k < q → 0 < cmp (v k) x

namespace FatPivot

variable {cmp : α → α → ℤ} {x : α} {i lp hp j : ℕ}

/-- Only the pivot has been found. -/
theorem start (h : Consistent cmp) {m : ℕ} (hp : p ≤ m) (hq : m < q) :
    FatPivot cmp (v m) v p p m m (q - 1) q where
  bounds := by omega
  less := fun k h₁ h₂ => by omega
  equal := fun k h₁ h₂ => by
    obtain rfl : k = m := by omega
    exact h.self _
  greater := fun k h₁ h₂ => by omega

/-- The next cell on the left is less. -/
theorem skip_left (h : FatPivot cmp x v p i lp hp j q) (hi : i < lp) (hlt : cmp (v i) x < 0) :
    FatPivot cmp x v p (i + 1) lp hp j q where
  bounds := by have := h.bounds; omega
  less := fun k h₁ h₂ => by
    by_cases hk : k = i
    · rw [hk]
      exact hlt
    · exact h.less k h₁ (by omega)
  equal := h.equal
  greater := h.greater

/-- The next cell on the right is greater. -/
theorem skip_right (h : FatPivot cmp x v p i lp hp j q) (hj : hp < j) (hgt : 0 < cmp (v j) x) :
    FatPivot cmp x v p i lp hp (j - 1) q where
  bounds := by have := h.bounds; omega
  less := h.less
  equal := h.equal
  greater := fun k h₁ h₂ => by
    by_cases hk : k = j
    · rw [hk]
      exact hgt
    · exact h.greater k (by omega) h₂

/-- The next cell on the left is equal: it goes to the pivot. -/
theorem join_left (h : FatPivot cmp x v p i lp hp j q) (hi : i < lp) (heq : cmp (v i) x = 0) :
    FatPivot cmp x (v ∘ Equiv.swap i (lp - 1)) p i (lp - 1) hp j q where
  bounds := by have := h.bounds; omega
  less := fun k h₁ h₂ => by
    rw [Function.comp_apply, Equiv.swap_apply_of_ne_of_ne (by omega) (by omega)]
    exact h.less k h₁ h₂
  equal := fun k h₁ h₂ => by
    by_cases hk : k = lp - 1
    · rw [hk, Function.comp_apply, Equiv.swap_apply_right]
      exact heq
    · rw [Function.comp_apply, Equiv.swap_apply_of_ne_of_ne (by omega) hk]
      exact h.equal k (by omega) h₂
  greater := fun k h₁ h₂ => by
    have := h.bounds
    rw [Function.comp_apply, Equiv.swap_apply_of_ne_of_ne (by omega) (by omega)]
    exact h.greater k h₁ h₂

/-- The next cell on the right is equal: it goes to the pivot. -/
theorem join_right (h : FatPivot cmp x v p i lp hp j q) (hj : hp < j) (heq : cmp (v j) x = 0) :
    FatPivot cmp x (v ∘ Equiv.swap (hp + 1) j) p i lp (hp + 1) j q where
  bounds := by have := h.bounds; omega
  less := fun k h₁ h₂ => by
    have := h.bounds
    rw [Function.comp_apply, Equiv.swap_apply_of_ne_of_ne (by omega) (by omega)]
    exact h.less k h₁ h₂
  equal := fun k h₁ h₂ => by
    by_cases hk : k = hp + 1
    · rw [hk, Function.comp_apply, Equiv.swap_apply_left]
      exact heq
    · rw [Function.comp_apply, Equiv.swap_apply_of_ne_of_ne hk (by omega)]
      exact h.equal k h₁ (by omega)
  greater := fun k h₁ h₂ => by
    rw [Function.comp_apply, Equiv.swap_apply_of_ne_of_ne (by omega) (by omega)]
    exact h.greater k h₁ h₂

/-- A greater cell on the left and a less one on the right change places. -/
theorem exchange (h : FatPivot cmp x v p i lp hp j q) (hi : i < lp)
    (hj : hp < j) (hgt : 0 < cmp (v i) x) (hlt : cmp (v j) x < 0) :
    FatPivot cmp x (v ∘ Equiv.swap i j) p (i + 1) lp hp (j - 1) q where
  bounds := by have := h.bounds; omega
  less := fun k h₁ h₂ => by
    by_cases hk : k = i
    · rw [hk, Function.comp_apply, Equiv.swap_apply_left]
      exact hlt
    · rw [Function.comp_apply, Equiv.swap_apply_of_ne_of_ne hk (by have := h.bounds; omega)]
      exact h.less k h₁ (by omega)
  equal := fun k h₁ h₂ => by
    rw [Function.comp_apply, Equiv.swap_apply_of_ne_of_ne (by omega) (by omega)]
    exact h.equal k h₁ h₂
  greater := fun k h₁ h₂ => by
    by_cases hk : k = j
    · rw [hk, Function.comp_apply, Equiv.swap_apply_right]
      exact hgt
    · rw [Function.comp_apply, Equiv.swap_apply_of_ne_of_ne (by have := h.bounds; omega) hk]
      exact h.greater k (by omega) h₂

/-- A less cell on the right, and none left on the left: the pivot moves to the right. -/
theorem shift_right (h : FatPivot cmp x v p lp lp hp j q) (hj : hp < j) (hlt : cmp (v j) x < 0) :
    FatPivot cmp x (rotate lp (hp + 1) j v) p (lp + 1) (lp + 1) (hp + 1) j q where
  bounds := by have := h.bounds; omega
  less := fun k h₁ h₂ => by
    have := h.bounds
    by_cases hk : k = lp
    · rw [hk, rotate_first (by omega) (by omega)]
      exact hlt
    · rw [rotate_other hk (by omega) (by omega)]
      exact h.less k h₁ (by omega)
  equal := fun k h₁ h₂ => by
    have := h.bounds
    by_cases hk : k = hp + 1
    · rw [hk, rotate_second]
      exact h.equal lp le_rfl this.2.2.1
    · rw [rotate_other (by omega) hk (by omega)]
      exact h.equal k (by omega) (by omega)
  greater := fun k h₁ h₂ => by
    rw [rotate_other (by have := h.bounds; omega) (by omega) (by omega)]
    exact h.greater k h₁ h₂

/-- A greater cell on the left, and none left on the right: the pivot moves to the left. -/
theorem shift_left (h : FatPivot cmp x v p i lp hp hp q) (hi : i < lp) (hgt : 0 < cmp (v i) x) :
    FatPivot cmp x (rotate hp (lp - 1) i v) p i (lp - 1) (hp - 1) (hp - 1) q where
  bounds := by have := h.bounds; omega
  less := fun k h₁ h₂ => by
    have := h.bounds
    rw [rotate_other (by omega) (by omega) (by omega)]
    exact h.less k h₁ h₂
  equal := fun k h₁ h₂ => by
    have := h.bounds
    by_cases hk : k = lp - 1
    · rw [hk, rotate_second]
      exact h.equal hp this.2.2.1 le_rfl
    · rw [rotate_other (by omega) hk (by omega)]
      exact h.equal k (by omega) (by omega)
  greater := fun k h₁ h₂ => by
    have := h.bounds
    by_cases hk : k = hp
    · rw [hk, rotate_first (by omega) (by omega)]
      exact hgt
    · rw [rotate_other hk (by omega) (by omega)]
      exact h.greater k (by omega) h₂

/-- The cells before the pivot change places. -/
theorem rearrange_left (h : FatPivot cmp x v p lp lp hp hp q) (hv : Rearranged p lp v v') :
    FatPivot cmp x v' p lp lp hp hp q where
  bounds := h.bounds
  less := hv.forall_mem (P := fun y => cmp y x < 0) h.less
  equal := fun k h₁ h₂ => by
    rw [hv.eq (Or.inr h₁)]
    exact h.equal k h₁ h₂
  greater := fun k h₁ h₂ => by
    have := h.bounds
    rw [hv.eq (Or.inr (by omega))]
    exact h.greater k h₁ h₂

/-- The cells behind the pivot change places. -/
theorem rearrange_right (h : FatPivot cmp x v p lp lp hp hp q) (hv : Rearranged (hp + 1) q v v') :
    FatPivot cmp x v' p lp lp hp hp q where
  bounds := h.bounds
  less := fun k h₁ h₂ => by
    have := h.bounds
    rw [hv.eq (Or.inl (by omega))]
    exact h.less k h₁ h₂
  equal := fun k h₁ h₂ => by
    rw [hv.eq (Or.inl (by omega))]
    exact h.equal k h₁ h₂
  greater := fun k h₁ h₂ =>
    hv.forall_mem (P := fun y => 0 < cmp y x) (fun k h₁ h₂ => h.greater k h₁ h₂) k h₁ h₂

end FatPivot

/-! ## Sorted cells -/

/-- The cells from `p` to `q` are in order. -/
def Sorted (cmp : α → α → ℤ) (v : ℕ → α) (p q : ℕ) : Prop :=
  ∀ m n, p ≤ m → m < n → n < q → cmp (v m) (v n) ≤ 0

namespace Sorted

variable {cmp : α → α → ℤ} {x : α} {lp hp : ℕ}

/-- Cells elsewhere change places. -/
theorem congr (h : Sorted cmp v p q) (hv : ∀ k, p ≤ k → k < q → v' k = v k) : Sorted cmp v' p q := by
  intro m n hm hmn hn
  rw [hv m hm (by omega), hv n (by omega) hn]
  exact h m n hm hmn hn

/-- Sorted parts before and behind the pivot. -/
theorem of_parts (hc : Consistent cmp) (h : FatPivot cmp x v p lp lp hp hp q)
    (hl : Sorted cmp v p lp) (hr : Sorted cmp v (hp + 1) q) :
    Sorted cmp v p q := by
  intro m n hm hmn hn
  by_cases hleft : n < lp
  · exact hl m n hm hmn hleft
  by_cases hright : hp < m
  · exact hr m n hright hmn hn
  -- The pivot is between the two.
  have hmx : cmp (v m) x ≤ 0 := by
    by_cases h₁ : m < lp
    · exact (h.less m hm h₁).le
    · exact (h.equal m (by omega) (by omega)).le
  have hxn : cmp x (v n) ≤ 0 := by
    rw [hc.le_iff]
    by_cases h₁ : n ≤ hp
    · exact (h.equal n (by omega) h₁).ge
    · exact (h.greater n (by omega) hn).le
  exact hc.trans _ x _ hmx hxn

/-- The list of the cells is in order. -/
theorem pairwise {n : ℕ} (h : Sorted cmp v 0 n) : ((List.range n).map v).Pairwise fun y z => cmp y z ≤ 0 := by
  rw [List.pairwise_map]
  refine List.pairwise_lt_range.imp_of_mem ?_
  intro m k _ hk hmk
  exact h m k (Nat.zero_le _) hmk (List.mem_range.mp hk)

end Sorted

end Cells
