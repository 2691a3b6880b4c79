import Mathlib.Data.List.Range
import Mathlib.Logic.Function.Basic

/-!
# Ring buffers

A ring of `N` cells holds the items of a queue in consecutive cells, where cell 0 follows the last
one. `window` reads the items from the position of the first one on. An item goes in behind the last
one (`window_push`), and comes out at either end (`window_pop`, `window_succ`).
-/

namespace Ring

variable {α : Type*} {buf buf' : ℕ → α} {N h n : ℕ} {x : α}

/-- The `n` items from cell `h` on. -/
def window (buf : ℕ → α) (N h n : ℕ) : List α := (List.range n).map fun i => buf ((h + i) % N)

/-- A window has as many items as it was asked for. -/
@[simp] theorem length_window : (window buf N h n).length = n := by simp [window]

/-- No items. -/
@[simp] theorem window_zero : window buf N h 0 = [] := rfl

/-- The last item of a window. -/
theorem window_succ : window buf N h (n + 1) = window buf N h n ++ [buf ((h + n) % N)] := by
  simp [window, List.range_succ]

/-- The first item of a window, and those from the next cell on. -/
theorem window_pop : window buf N h (n + 1) = buf (h % N) :: window buf N ((h + 1) % N) n := by
  unfold window
  rw [List.range_succ_eq_map, List.map_cons, List.map_map, Nat.add_zero]
  refine congrArg _ (List.map_congr_left fun i _ => ?_)
  rw [Nat.mod_add_mod, Function.comp_apply, Nat.succ_eq_add_one, Nat.add_assoc, Nat.add_comm 1 i]

/-- Different cells of a ring, counted from one of them. -/
theorem cell_ne {i j : ℕ} (hij : i < j) (hj : j < h + N) (hh : h ≤ i) : i % N ≠ j % N := by
  intro he
  have hd : N ∣ j - i := Nat.dvd_of_mod_eq_zero (Nat.sub_mod_eq_zero_of_mod_eq he.symm)
  have := Nat.le_of_dvd (by omega) hd
  omega

/-- Cells outside a window do not matter. -/
theorem window_congr (hb : ∀ i < n, buf' ((h + i) % N) = buf ((h + i) % N)) :
    window buf' N h n = window buf N h n :=
  List.map_congr_left fun i hi => hb i (List.mem_range.mp hi)

/-- A change behind the window does not show in it. -/
theorem window_update {k : ℕ} (hk : n ≤ k) (hN : k < N) :
    window (Function.update buf ((h + k) % N) x) N h n = window buf N h n := by
  refine window_congr fun i hi => Function.update_of_ne ?_ _ _
  exact cell_ne (h := h) (by omega) (by omega) (by omega)

/-- An item goes into the cell behind the window. -/
theorem window_push (hn : n < N) :
    window (Function.update buf ((h + n) % N) x) N h (n + 1) = window buf N h n ++ [x] := by
  rw [window_succ, window_update le_rfl hn, Function.update_self]

/-- The cell after a cell, as the code computes it. -/
def bump (N i : ℕ) : ℕ := if i + 1 ≥ N then 0 else i + 1

/-- The cell after a cell of the ring. -/
theorem bump_eq (hh : h < N) : bump N h = (h + 1) % N := by
  unfold bump
  split
  · rw [show h + 1 = N by omega, Nat.mod_self]
  · rw [Nat.mod_eq_of_lt (by omega)]

/-- The cell after the one behind a window. -/
theorem bump_tail (hN : 0 < N) : bump N ((h + n) % N) = (h + (n + 1)) % N := by
  rw [bump_eq (Nat.mod_lt _ hN), Nat.mod_add_mod, Nat.add_assoc]

/-- The first items of a window are a shorter window from the same place. -/
theorem take_window {m : ℕ} (hm : m ≤ n) : (window buf N h n).take m = window buf N h m := by
  rw [window, ← List.map_take, List.take_range, Nat.min_eq_left hm, window]

/-- The cell that is `k` cells before a cell, as the code computes it. -/
def back (N i k : ℕ) : ℕ := if i < k then i + N - k else i - k

/-- The cell behind a window without its last items. -/
theorem back_tail {k : ℕ} (hk : k ≤ n) (hN : k < N) : back N ((h + n) % N) k = (h + (n - k)) % N := by
  have hlt : (h + (n - k)) % N < N := Nat.mod_lt _ (by omega)
  have he : (h + n) % N = ((h + (n - k)) % N + k) % N := by
    rw [Nat.mod_add_mod]
    congr 1
    omega
  unfold back
  rw [he]
  generalize (h + (n - k)) % N = r at *
  by_cases hr : r + k < N
  · rw [Nat.mod_eq_of_lt hr, if_neg (by omega), Nat.add_sub_cancel]
  · rw [Nat.mod_eq_sub_mod (by omega), Nat.mod_eq_of_lt (by omega), if_pos (by omega)]
    omega

end Ring
