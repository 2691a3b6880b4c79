import Mathlib.Data.Nat.Digits.Defs
import Xinu.Lib.Bytes

/-!
# Strings and numerals

A string in memory is what stands before the first null character. A numeral is read from its first
digit on, as all scanners do.
-/

namespace Xinu.Strings

variable {m : ℕ → UInt8} {p : ℕ} {s : List UInt8}

/-- The string `s` begins at `p`, and its null character stands behind it. -/
def StringAt (m : ℕ → UInt8) : ℕ → List UInt8 → Prop
  | p, [] => m p = 0
  | p, ch :: s => m p = ch ∧ ch ≠ 0 ∧ StringAt m (p + 1) s

instance decidableStringAt (m : ℕ → UInt8) : (p : ℕ) → (s : List UInt8) → Decidable (StringAt m p s)
  | p, [] => inferInstanceAs (Decidable (m p = 0))
  | p, ch :: s =>
    have := decidableStringAt m (p + 1) s
    inferInstanceAs (Decidable (m p = ch ∧ ch ≠ 0 ∧ StringAt m (p + 1) s))

/-- No character of a string is null. -/
theorem StringAt.ne_zero (h : StringAt m p s) : ∀ ch ∈ s, ch ≠ 0 := by
  induction s generalizing p with
  | nil => exact nofun
  | cons c s ih =>
    obtain ⟨-, hc, hs⟩ := h
    intro ch hch
    rcases List.mem_cons.mp hch with rfl | hch
    · exact hc
    · exact ih hs ch hch

/-- A string is its bytes, with a null character behind them. -/
theorem stringAt_iff :
    StringAt m p s ↔ Bytes.bytesAt m p s.length = s ∧ (∀ ch ∈ s, ch ≠ 0) ∧ m (p + s.length) = 0 := by
  induction s generalizing p with
  | nil => simp [StringAt, Bytes.bytesAt]
  | cons ch s ih =>
    have hnext : p + (ch :: s).length = p + 1 + s.length := by
      rw [List.length_cons]
      omega
    rw [StringAt, ih, hnext, List.length_cons, Bytes.bytesAt, List.cons.injEq, List.forall_mem_cons]
    tauto

/-- Each character of a string lies at its place, and is not null. -/
theorem StringAt.get (h : StringAt m p s) {j : ℕ} (hj : j < s.length) : m (p + j) = s[j] ∧ m (p + j) ≠ 0 := by
  induction s generalizing p j with
  | nil => exact absurd hj (Nat.not_lt_zero j)
  | cons ch s ih =>
    obtain ⟨hch, hne, hs⟩ := h
    cases j with
    | zero =>
      subst hch
      exact ⟨rfl, hne⟩
    | succ j =>
      rw [show p + (j + 1) = p + 1 + j by omega]
      exact ih hs (Nat.lt_of_succ_lt_succ hj)

/-- A null character lies behind the string. -/
theorem StringAt.end_eq (h : StringAt m p s) : m (p + s.length) = 0 := (stringAt_iff.mp h).2.2

/-- The end of a string is a string. -/
theorem StringAt.drop (h : StringAt m p s) {j : ℕ} (hj : j ≤ s.length) : StringAt m (p + j) (s.drop j) := by
  induction j generalizing p s with
  | zero => exact h
  | succ j ih =>
    cases s with
    | nil => exact absurd hj (Nat.not_succ_le_zero j)
    | cons ch s =>
      rw [List.drop_succ_cons, show p + (j + 1) = p + 1 + j by omega]
      exact ih h.2.2 (Nat.le_of_succ_le_succ hj)

/-- A string that is put into memory, with its null character. -/
theorem stringAt_put (b : ℕ → UInt8) (i : ℕ) (hs : ∀ ch ∈ s, ch ≠ 0) (l : List UInt8) :
    StringAt (Bytes.put b i (s ++ 0 :: l)) i s := by
  refine stringAt_iff.mpr ⟨?_, hs, Bytes.put_self ..⟩
  have hall := Bytes.bytesAt_put b (s ++ 0 :: l) i
  rw [List.length_append, Bytes.bytesAt_add] at hall
  exact (List.append_inj hall (Bytes.length_bytesAt ..)).1

/-- The value of a numeral, whose digits are read from the first one on, behind what has been read already. -/
theorem foldl_digits (b a : ℕ) (ds : List ℕ) :
    ds.foldl (fun v d => b * v + d) a = b ^ ds.length * a + Nat.ofDigits b ds.reverse := by
  induction ds generalizing a with
  | nil => simp
  | cons d ds ih =>
    rw [List.foldl_cons, ih, List.reverse_cons, Nat.ofDigits_append,
      Nat.ofDigits_singleton, List.length_reverse,
      List.length_cons, Nat.pow_succ]
    ring

/-- A list begins with a run of elements that have a property, which ends at the first other element
or after `n` elements. -/
theorem exists_run {α : Type} (q : α → Prop) (n : ℕ) (l : List α) :
    ∃ run tail, l = run ++ tail ∧ (∀ x ∈ run, q x) ∧ run.length ≤ n ∧
    (run.length = n ∨ ∀ x ∈ tail.head?, ¬ q x) := by
  induction n generalizing l with
  | zero => exact ⟨[], l, rfl, nofun, le_refl 0, .inl rfl⟩
  | succ n ih =>
    cases l with
    | nil => exact ⟨[], [], rfl, nofun, Nat.zero_le _, .inr nofun⟩
    | cons x l =>
      by_cases hx : q x
      · obtain ⟨run, tail, rfl, hrun, hle, hend⟩ := ih l
        refine ⟨x :: run, tail, rfl, ?_, Nat.succ_le_succ hle, hend.imp_left (congrArg Nat.succ)⟩
        intro y hy
        rcases List.mem_cons.mp hy with rfl | hy
        · exact hx
        · exact hrun y hy
      · refine ⟨[], x :: l, rfl, nofun, Nat.zero_le _, .inr fun y hy => ?_⟩
        rwa [← Option.some.inj hy]

end Xinu.Strings
