import Mathlib.Algebra.BigOperators.Group.List.Basic
import Mathlib.Data.Nat.ModEq
import Mathlib.Data.Nat.Notation

/-!
# Sums with end-around carry

Numbers below a base `B` are added with end-around carry. The sum of a list is that of the numbers
modulo `B - 1`, where a sum that is not 0 has a representative from 1 to `B - 1` (`sum_eq`). A sum
that was taken without carries is folded by adding what is above its lowest digit to this digit. One
fold gives the sum with end-around carry exactly if it makes no new carry (`rep_fold`,
`rep_fold_carry`).
-/

namespace Xinu.OnesComplement

variable {B x : ℕ}

/-- Addition with end-around carry. -/
def add (B a b : ℕ) : ℕ := if a + b < B then a + b else a + b + 1 - B

/-- The sum of a list with end-around carry. -/
def sum (B : ℕ) (l : List ℕ) : ℕ := l.foldl (add B) 0

/-- The representative of a number modulo `B - 1`: it is 0 for 0 only. -/
def rep (B x : ℕ) : ℕ := if x = 0 then 0 else (x - 1) % (B - 1) + 1

/-- The lowest digit of a number, and what is above it. -/
def fold (B x : ℕ) : ℕ := x % B + x / B

/-! ## Representatives -/

/-- A number below the base represents itself. -/
theorem rep_of_lt (h : x < B) : rep B x = x := by
  unfold rep
  split_ifs with h0
  · exact h0.symm
  · rw [Nat.mod_eq_of_lt (by omega)]
    omega

/-- A number from `B` on, below `2 * B - 1`, represents what it is without `B - 1`. -/
theorem rep_of_ge (hB : 2 ≤ B) (h : B ≤ x) (hx : x < 2 * B - 1) : rep B x = x + 1 - B := by
  have h0 : x ≠ 0 := by omega
  unfold rep
  rw [if_neg h0, Nat.mod_eq_sub_mod (by omega), Nat.mod_eq_of_lt (by omega)]
  omega

/-- A multiple of `B - 1` added to a number other than 0 does not change what it represents. -/
theorem rep_add_mul (h : x ≠ 0) (k : ℕ) : rep B (x + (B - 1) * k) = rep B x := by
  have h0 : x + (B - 1) * k ≠ 0 := by omega
  have hsub : x + (B - 1) * k - 1 = x - 1 + (B - 1) * k := by omega
  unfold rep
  rw [if_neg h0, if_neg h, hsub, Nat.add_mul_mod_self_left]

/-- The representative is below the base. -/
theorem rep_lt (hB : 2 ≤ B) : rep B x < B := by
  unfold rep
  split_ifs
  · omega
  · have hlt := Nat.mod_lt (x - 1) (show 0 < B - 1 by omega)
    omega

/-- Only the number 0 is represented by 0. -/
theorem rep_eq_zero : rep B x = 0 ↔ x = 0 := by
  unfold rep
  split_ifs with h0
  · exact iff_of_true rfl h0
  · exact iff_of_false not_false h0

/-- A number is its representative, up to a multiple of `B - 1`. -/
theorem eq_rep_add (h : x ≠ 0) : x = rep B x + (B - 1) * ((x - 1) / (B - 1)) := by
  have hdiv := Nat.mod_add_div (x - 1) (B - 1)
  unfold rep
  rw [if_neg h]
  omega

/-- An addition with end-around carry represents the sum. -/
theorem add_rep (hB : 2 ≤ B) {b : ℕ} (hb : b < B) : add B (rep B x) b = rep B (x + b) := by
  by_cases h0 : x = 0
  · have hrep : rep B x = 0 := rep_eq_zero.mpr h0
    rw [hrep, h0, Nat.zero_add, add, Nat.zero_add, if_pos hb, rep_of_lt hb]
  -- only the representative of the first number counts
  have hlt : rep B x < B := rep_lt hB
  have hne : rep B x ≠ 0 := rep_eq_zero.not.mpr h0
  have hred : rep B (x + b) = rep B (rep B x + b) := by
    conv_lhs => rw [eq_rep_add (B := B) h0, Nat.add_right_comm, rep_add_mul (by omega)]
  rw [hred, add]
  split_ifs with hcarry
  · exact (rep_of_lt hcarry).symm
  · exact (rep_of_ge hB (by omega) (by omega)).symm

/-- The sum with end-around carry represents the sum. -/
theorem foldl_add (hB : 2 ≤ B) {l : List ℕ} (hl : ∀ b ∈ l, b < B) :
    l.foldl (add B) (rep B x) = rep B (x + l.sum) := by
  induction l generalizing x with
  | nil => rfl
  | cons b l ih =>
    have hb : b < B := hl b List.mem_cons_self
    rw [List.foldl_cons, add_rep hB hb, ih fun c hc => hl c (List.mem_cons_of_mem b hc),
      List.sum_cons, Nat.add_assoc]

/-- The sum with end-around carry represents the sum. -/
theorem sum_eq (hB : 2 ≤ B) {l : List ℕ} (hl : ∀ b ∈ l, b < B) : sum B l = rep B l.sum := by
  have hrep : rep B 0 = 0 := rep_eq_zero.mpr rfl
  rw [← Nat.zero_add l.sum, ← foldl_add hB hl, hrep]
  rfl

/-- The representatives of two numbers that are not 0 are the same exactly if the numbers are the
same modulo `B - 1`. -/
theorem rep_eq_rep {y : ℕ} (hx : x ≠ 0) (hy : y ≠ 0) : rep B x = rep B y ↔ x ≡ y [MOD B - 1] := by
  have hone (z : ℕ) (hz : z ≠ 0) : z = z - 1 + 1 := by omega
  rw [hone x hx, hone y hy]
  unfold rep
  rw [if_neg (by omega), if_neg (by omega), Nat.add_left_inj, Nat.add_sub_cancel, Nat.add_sub_cancel]
  exact ⟨fun h => Nat.ModEq.add_right 1 h, fun h => Nat.ModEq.add_right_cancel' 1 h⟩

/-! ## Folding -/

/-- A fold takes away a multiple of `B - 1`. -/
theorem fold_add (hB : 1 ≤ B) : fold B x + (B - 1) * (x / B) = x := by
  have hdiv := Nat.mod_add_div x B
  have hmul : (B - 1) * (x / B) + x / B = B * (x / B) := by
    rw [← Nat.succ_mul, Nat.succ_eq_add_one, Nat.sub_add_cancel hB]
  unfold fold
  omega

/-- The fold of a number that is not 0 is not 0. -/
theorem fold_eq_zero (hB : 1 ≤ B) : fold B x = 0 ↔ x = 0 := by
  have hadd := fold_add (x := x) hB
  constructor
  · intro h
    have hdiv : x / B = 0 := (Nat.add_eq_zero_iff.mp h).2
    rw [h, hdiv] at hadd
    exact hadd.symm
  · rintro rfl
    simp [fold]

/-- A number and its fold represent the same. -/
theorem rep_eq_rep_fold (hB : 2 ≤ B) : rep B x = rep B (fold B x) := by
  by_cases h0 : x = 0
  · rw [h0, (fold_eq_zero (by omega)).mpr rfl]
  have hfold : fold B x ≠ 0 := (fold_eq_zero (by omega)).not.mpr h0
  conv_lhs => rw [← fold_add (B := B) (x := x) (by omega), rep_add_mul hfold]

/-- Without a carry, a fold gives the representative. -/
theorem rep_fold (hB : 2 ≤ B) (h : fold B x < B) : rep B x = fold B x := by
  rw [rep_eq_rep_fold hB, rep_of_lt h]

/-- A fold of a number in range is below `2 * B - 1`. -/
theorem fold_lt (hB : 2 ≤ B) (hx : x < B * (B - 1)) : fold B x < 2 * B - 1 := by
  have hdiv : x / B < B - 1 := Nat.div_lt_of_lt_mul hx
  have hmod : x % B < B := Nat.mod_lt x (by omega)
  unfold fold
  omega

/-- With a carry, the lowest digit of a fold is one less than the representative. -/
theorem rep_fold_carry (hB : 2 ≤ B) (hx : x < B * (B - 1)) (h : B ≤ fold B x) :
    rep B x = fold B x % B + 1 := by
  have hlt := fold_lt hB hx
  rw [rep_eq_rep_fold hB, rep_of_ge hB h hlt, Nat.mod_eq_sub_mod h, Nat.mod_eq_of_lt (by omega)]
  omega

/-- The fold of a number with this quotient and this remainder. -/
theorem fold_mul_add {q r : ℕ} (hr : r < B) : fold B (B * q + r) = r + q := by
  rw [fold, Nat.mul_add_mod, Nat.mod_eq_of_lt hr, Nat.mul_add_div (by omega),
    Nat.div_eq_of_lt hr, Nat.add_zero]

/-- With the complement of its fold, a number folds to `B - 1`. -/
theorem fold_complement (hB : 1 ≤ B) (h : fold B x < B) : fold B (x + (B - 1 - fold B x)) = B - 1 := by
  have hmod : x % B < B := Nat.mod_lt x hB
  have hdef : fold B x = x % B + x / B := rfl
  have hdiv := Nat.div_add_mod x B
  generalize x / B = q at *
  generalize x % B = r at *
  have hsplit : x + (B - 1 - fold B x) = B * q + (B - 1 - q) := by omega
  rw [hsplit, fold_mul_add (by omega)]
  omega

/-- With that of the lowest digit of its fold, where there is a carry, it folds to `B`. -/
theorem fold_complement_carry (hB : 2 ≤ B) (hx : x < B * (B - 1)) (h : B ≤ fold B x) :
    fold B (x + (B - 1 - fold B x % B)) = B := by
  have hlt := fold_lt hB hx
  have hlow : fold B x % B = fold B x - B := by rw [Nat.mod_eq_sub_mod h, Nat.mod_eq_of_lt (by omega)]
  have hmod : x % B < B := Nat.mod_lt x (by omega)
  have hquot : x / B < B - 1 := Nat.div_lt_of_lt_mul hx
  have hdef : fold B x = x % B + x / B := rfl
  have hdiv := Nat.div_add_mod x B
  have hmul : B * (x / B + 1) = B * (x / B) + B := Nat.mul_succ B (x / B)
  rw [hlow]
  generalize x / B = q at *
  generalize x % B = r at *
  have hsplit : x + (B - 1 - (fold B x - B)) = B * (q + 1) + (B - 1 - q) := by omega
  rw [hsplit, fold_mul_add (by omega)]
  omega

end Xinu.OnesComplement
