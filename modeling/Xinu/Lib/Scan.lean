import Mathlib.Data.Nat.Count
import Mathlib.Order.Interval.Finset.Nat
import Mathlib.Tactic.Ring

/-!
# Scanning loops

Loops that look for consecutive indices with a property `p`, as allocators over bitmaps and tables of
entries run them: the length of the run that ends a table (`tailRun`), the scan of one window that says
where to go on (`window`), and the search for a first long enough run that counts down and starts again
at every gap (`runSearch`).
-/

namespace Scan

variable {p : ℕ → Prop} [DecidablePred p]

/-- `len` consecutive indices from `j` satisfy `p`. -/
def Window (p : ℕ → Prop) (len j : ℕ) : Prop := ∀ k < len, p (j + k)

/-- Some window of `len` indices lies below `n`. -/
def Fits (p : ℕ → Prop) (len n : ℕ) : Prop := ∃ j, j + len ≤ n ∧ Window p len j

omit [DecidablePred p] in
/-- A window restricted to a part of it. -/
theorem Window.sub {len j len' j' : ℕ} (h : Window p len j) (h₁ : j ≤ j')
    (h₂ : j' + len' ≤ j + len) : Window p len' j' := by
  intro k hk
  have := h (j' + k - j) (by omega)
  rwa [show j + (j' + k - j) = j' + k by omega] at this

/-! ## Counts -/

/-- Equivalent properties have the same count. -/
theorem count_congr_iff {q : ℕ → Prop} [DecidablePred q] {n : ℕ} (h : ∀ k, p k ↔ q k) :
    Nat.count p n = Nat.count q n := by
  rw [Nat.count_eq_card_filter_range, Nat.count_eq_card_filter_range]
  exact congrArg Finset.card (Finset.filter_congr fun k _ => h k)

/-- The count of a property that an interval joins grows by the length of the interval. -/
theorem count_add_interval {q : ℕ → Prop} [DecidablePred q] {a len n : ℕ} (hn : a + len ≤ n)
    (hnew : ∀ k < len, ¬ p (a + k)) (h : ∀ k, q k ↔ p k ∨ a ≤ k ∧ k < a + len) :
    Nat.count q n = Nat.count p n + len := by
  have hunion : (Finset.range n).filter q = (Finset.range n).filter p ∪ Finset.Ico a (a + len) := by
    ext k
    simp only [Finset.mem_filter, Finset.mem_union, Finset.mem_range, Finset.mem_Ico, h]
    constructor
    · rintro ⟨hk, hp | hi⟩
      · exact .inl ⟨hk, hp⟩
      · exact .inr hi
    · rintro (⟨hk, hp⟩ | ⟨h₁, h₂⟩)
      · exact ⟨hk, .inl hp⟩
      · exact ⟨by omega, .inr ⟨h₁, h₂⟩⟩
  have hdisj : Disjoint ((Finset.range n).filter p) (Finset.Ico a (a + len)) := by
    rw [Finset.disjoint_left]
    intro k hk hi
    rw [Finset.mem_Ico] at hi
    have := hnew (k - a) (by omega)
    rw [Nat.add_sub_cancel' hi.1] at this
    exact this (Finset.mem_filter.mp hk).2
  rw [Nat.count_eq_card_filter_range, Nat.count_eq_card_filter_range, hunion,
    Finset.card_union_of_disjoint hdisj, Nat.card_Ico, Nat.add_sub_cancel_left]

/-! ## The run that ends a range -/

/-- The count of a property that an interval joins grows by less than the length of the interval if
the property holds somewhere in it before. -/
theorem count_interval_lt {q : ℕ → Prop} [DecidablePred q]
    {a len n x : ℕ} (hlo : a ≤ x) (hhi : x < a + len) (hn : x < n)
    (hx : p x) (h : ∀ k, q k → p k ∨ a ≤ k ∧ k < a + len) : Nat.count q n < Nat.count p n + len := by
  rw [Nat.count_eq_card_filter_range, Nat.count_eq_card_filter_range]
  have hsub : (Finset.range n).filter q ⊆ (Finset.range n).filter p ∪ (Finset.Ico a (a + len)).erase x := by
    intro k hk
    simp only [Finset.mem_filter, Finset.mem_range, Finset.mem_union,
      Finset.mem_erase, Finset.mem_Ico] at hk ⊢
    rcases h k hk.2 with hp | hi
    · exact .inl ⟨hk.1, hp⟩
    · by_cases hkx : k = x
      · exact .inl ⟨hk.1, hkx ▸ hx⟩
      · exact .inr ⟨hkx, hi⟩
  have herase : ((Finset.Ico a (a + len)).erase x).card + 1 = len := by
    rw [Finset.card_erase_add_one (Finset.mem_Ico.mpr ⟨hlo, hhi⟩), Nat.card_Ico]
    omega
  calc ((Finset.range n).filter q).card
      ≤ ((Finset.range n).filter p ∪ (Finset.Ico a (a + len)).erase x).card := Finset.card_le_card hsub
    _ ≤ ((Finset.range n).filter p).card + ((Finset.Ico a (a + len)).erase x).card := Finset.card_union_le _ _
    _ < ((Finset.range n).filter p).card + len := by omega

/-- The number of indices just below `n` that satisfy `p`, back to the last that does not. -/
def tailRun (p : ℕ → Prop) [DecidablePred p] : ℕ → ℕ
  | 0 => 0
  | n + 1 => if p n then tailRun p n + 1 else 0

theorem tailRun_le (n : ℕ) : tailRun p n ≤ n := by
  induction n with
  | zero => exact le_refl 0
  | succ n ih =>
    rw [tailRun]
    split_ifs <;> omega

/-- The indices of the tail satisfy `p`. -/
theorem tailRun_spec {n k : ℕ} (h₁ : n - tailRun p n ≤ k) (h₂ : k < n) : p k := by
  induction n with
  | zero => omega
  | succ n ih =>
    rw [tailRun] at h₁
    split_ifs at h₁ with hp
    · rcases Nat.lt_succ_iff_lt_or_eq.mp h₂ with hk | rfl
      · exact ih (by omega) hk
      · exact hp
    · omega

/-- The index just below the tail does not satisfy `p`. -/
theorem tailRun_gap {n : ℕ} (h : tailRun p n < n) : ¬ p (n - tailRun p n - 1) := by
  induction n with
  | zero => omega
  | succ n ih =>
    rw [tailRun] at h ⊢
    split_ifs at h ⊢ with hp
    · rw [show n + 1 - (tailRun p n + 1) - 1 = n - tailRun p n - 1 by omega]
      exact ih (by omega)
    · simpa using hp

/-- A run that ends at `n` is no longer than the tail. -/
theorem le_tailRun {n t : ℕ} (ht : t ≤ n) (h : ∀ k, n - t ≤ k → k < n → p k) : t ≤ tailRun p n := by
  by_contra hlt
  exact tailRun_gap (p := p) (n := n) (by omega) (h _ (by omega) (by omega))

/-! ## One window -/

/-- The scan of the window of length `n` at `j`: how many of its indices satisfy `p`, and the last one that
does not (`j` when there is none). -/
def window (p : ℕ → Prop) [DecidablePred p] (j : ℕ) : ℕ → ℕ × ℕ
  | 0 => (0, j)
  | k + 1 =>
    let r := window p j k
    if p (j + k) then (r.1 + 1, r.2) else (r.1, j + k)

theorem window_fst (j n : ℕ) : (window p j n).1 = Nat.count (fun k => p (j + k)) n := by
  induction n with
  | zero => simp [window]
  | succ n ih =>
    simp only [window, Nat.count_succ]
    split_ifs <;> simp [ih]

/-- The scan counts the whole window exactly when the window satisfies `p`. -/
theorem window_fst_eq_iff {j n : ℕ} : (window p j n).1 = n ↔ Window p n j := by
  rw [window_fst, Nat.count_iff_forall]
  rfl

/-- The index that the scan of a bad window reports is in the window, and no window that starts at
or before it and reaches beyond it satisfies `p`. -/
theorem window_snd_spec {j n : ℕ} (h : (window p j n).1 ≠ n) :
    j ≤ (window p j n).2 ∧ (window p j n).2 < j + n ∧ ¬ p (window p j n).2 := by
  induction n with
  | zero => simp [window] at h
  | succ n ih =>
    simp only [window] at h ⊢
    split_ifs at h ⊢ with hp
    · obtain ⟨h₁, h₂, h₃⟩ := ih (by simpa using h)
      exact ⟨h₁, by simp only; omega, h₃⟩
    · exact ⟨by simp only; omega, by simp only; omega, hp⟩

/-! ## The last index -/

/-- A search from the top of a range ends at the last index with the property, if there is one. -/
theorem find_last_spec (q : ℕ → Bool) (n : ℕ) :
    (∃ i, (List.range n).reverse.find? q = some i ∧ i < n ∧ q i = true ∧
      ∀ j, i < j → j < n → q j = false) ∨
    ((List.range n).reverse.find? q = none ∧ ∀ j < n, q j = false) := by
  induction n with
  | zero => exact .inr ⟨rfl, fun j hj => absurd hj (Nat.not_lt_zero j)⟩
  | succ n ih =>
    rw [List.range_succ, List.reverse_append, List.reverse_singleton, List.singleton_append,
      List.find?_cons]
    cases hq : q n with
    | true => exact .inl ⟨n, rfl, by omega, hq, fun j h₁ h₂ => by omega⟩
    | false =>
      -- The top index fails, so the answer is that of the shorter range.
      rcases ih with ⟨i, hf, hi, hqi, hlast⟩ | ⟨hf, hnone⟩
      · refine .inl ⟨i, hf, by omega, hqi, fun j h₁ h₂ => ?_⟩
        rcases Nat.lt_succ_iff_lt_or_eq.mp h₂ with hj | rfl
        · exact hlast j h₁ hj
        · exact hq
      · refine .inr ⟨hf, fun j hj => ?_⟩
        rcases Nat.lt_succ_iff_lt_or_eq.mp hj with hj | rfl
        · exact hnone j hj
        · exact hq

/-! ## The first long enough run -/

/-- A search for `need` consecutive indices. `left` counts down along a run and is set back to
`need` at a gap; the search stops when it is zero. It returns the number of indices looked at and
the last `left`. -/
def runSearch (p : ℕ → Prop) [DecidablePred p] (need : ℕ) : ℕ → ℕ → ℕ → ℕ × ℕ
  | 0, c, left => (c, left)
  | n + 1, c, left =>
    let left := if p c then left - 1 else need
    if left = 0 then (c + 1, 0) else runSearch p need n (c + 1) left

/-- A search looks at no more indices than it is given. -/
theorem runSearch_le (need n c l : ℕ) : (runSearch p need n c l).1 ≤ c + n := by
  induction n generalizing c l with
  | zero => exact le_refl c
  | succ n ih =>
    have hrec := ih (c + 1) (if p c then l - 1 else need)
    simp only [runSearch]
    generalize (if p c then l - 1 else need) = left at hrec ⊢
    split_ifs
    · exact Nat.add_le_add_left (Nat.succ_le_succ (Nat.zero_le n)) c
    · omega

/-- A search that stops early ends at a run of `need` indices. -/
theorem runSearch_found {need n c l : ℕ} (hl : 0 < l) (hn : l ≤ need)
    (hc : need - l ≤ c) (hrun : ∀ k, c - (need - l) ≤ k → k < c → p k)
    (h : (runSearch p need n c l).2 = 0) :
    need ≤ (runSearch p need n c l).1 ∧ (runSearch p need n c l).1 ≤ c + n ∧
      Window p need ((runSearch p need n c l).1 - need) := by
  induction n generalizing c l with
  | zero => simp only [runSearch] at h; omega
  | succ n ih =>
    simp only [runSearch] at h ⊢
    by_cases hp : p c
    · simp only [hp, if_true] at h ⊢
      split_ifs at h ⊢ with h0
      · refine ⟨by simp only; omega, by simp only; omega, fun k hk => ?_⟩
        simp only at hk ⊢
        rcases Nat.lt_or_ge (c + 1 - need + k) c with hlt | hge
        · exact hrun _ (by omega) hlt
        · rwa [show c + 1 - need + k = c by omega]
      · obtain ⟨h₁, h₂, h₃⟩ := ih (c := c + 1) (l := l - 1) (by omega) (by omega) (by omega)
          (fun k hk₁ hk₂ => by
            rcases Nat.lt_succ_iff_lt_or_eq.mp hk₂ with hk | rfl
            · exact hrun k (by omega) hk
            · exact hp) h
        exact ⟨h₁, by omega, h₃⟩
    · simp only [hp, if_false] at h ⊢
      rw [if_neg (by omega)] at h ⊢
      obtain ⟨h₁, h₂, h₃⟩ := ih (c := c + 1) (l := need) (by omega) (le_refl _) (by omega)
        (fun k hk₁ hk₂ => by omega) h
      exact ⟨h₁, by omega, h₃⟩

/-- A search that does not stop early has passed no run of `need` indices. -/
theorem runSearch_none {need n c l : ℕ} (hl : 0 < l) (hn : l ≤ need)
    (hgap : need - l < c → ¬ p (c - (need - l) - 1)) (hc : need - l ≤ c)
    (h : (runSearch p need n c l).2 ≠ 0) {s : ℕ} (hs : c < s + need) (hsn : s + need ≤ c + n) :
    ¬ Window p need s := by
  induction n generalizing c l with
  | zero => omega
  | succ n ih =>
    intro hw
    simp only [runSearch] at h
    by_cases hp : p c
    · simp only [hp, if_true] at h
      -- The run that ends at `c` starts no later than the window.
      have hsc : c - (need - l) ≤ s := by
        by_contra hlt
        refine hgap (by omega) ?_
        have := hw (c - (need - l) - 1 - s) (by omega)
        rwa [show s + (c - (need - l) - 1 - s) = c - (need - l) - 1 by omega] at this
      split_ifs at h with h0
      · exact h rfl
      · refine ih (c := c + 1) (l := l - 1) (by omega) (by omega) (fun hlt => ?_) (by omega) h
          (by omega) (by omega) hw
        rw [show c + 1 - (need - (l - 1)) - 1 = c - (need - l) - 1 by omega]
        exact hgap (by omega)
    · simp only [hp, if_false] at h
      rw [if_neg (by omega)] at h
      rcases Nat.lt_or_ge c s with hcs | hcs
      · exact ih (c := c + 1) (l := need) (by omega) (le_refl _) (fun _ => by simpa using hp)
          (by omega) h (by omega) (by omega) hw
      · refine hp ?_
        have := hw (c - s) (by omega)
        rwa [show s + (c - s) = c by omega] at this

end Scan
