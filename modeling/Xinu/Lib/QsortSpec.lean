import Xinu.Lib.Qsort
import Mathlib.Tactic.Ring
import Mathlib.Tactic.Linarith

/-!
# Quicksort sorts

The exchanges of bytes are exchanges of elements: `qsexc_cells`, `qstexc_cells`. The loop of `qs1`
keeps the fat pivot, and each round compares an element with it: `qsTop_step`, `qsLabel_step`. So
the loop ends with the elements parted, and `qs1` sorts: `qs1_sorts`.
-/

namespace Xinu

open Cells

variable {es : ℕ}

/-! ## Exchanges -/

/-- The blocks of `n` bytes at two addresses have no byte in common. -/
def BytesApart (n : ℕ) (x y : ℤ) : Prop := x + n ≤ y ∨ y + n ≤ x

/-- The bytes of two blocks are exchanged. -/
theorem qsexcLoop_mem (n : ℕ) :
    ∀ (ri rj : ℤ) (s : QsMem), ri = rj ∨ BytesApart n ri rj → ∀ x, (qsexcLoop n ri rj s).mem x =
    if ri ≤ x ∧ x < ri + n then s.mem (x - ri + rj) else if rj ≤ x ∧
    x < rj + n then s.mem (x - rj + ri) else s.mem x := by
  induction n with
  | zero =>
    intro ri rj s _ x
    rw [if_neg (by omega), if_neg (by omega)]
    rfl
  | succ n ih =>
    intro ri rj s h x
    unfold BytesApart at h
    rw [qsexcLoop, ih (ri + 1) (rj + 1) _ (by unfold BytesApart; omega) x]
    dsimp only
    -- What the round has left: the two bytes exchanged, and the others.
    have hrj : Function.update (Function.update s.mem ri (s.mem rj)) rj (s.mem ri) rj = s.mem ri :=
      Function.update_self ..
    have hri : Function.update (Function.update s.mem ri (s.mem rj)) rj (s.mem ri) ri = s.mem rj := by
      by_cases hij : ri = rj
      · rw [hij, Function.update_self]
      · rw [Function.update_of_ne hij, Function.update_self]
    have hother : ∀ y, y ≠ ri → y ≠ rj → Function.update (Function.update s.mem ri (s.mem rj)) rj
        (s.mem ri) y = s.mem y := by
      intro y h₁ h₂
      rw [Function.update_of_ne h₂, Function.update_of_ne h₁]
    by_cases h₁ : x = ri
    · rw [if_neg (by omega), if_neg (by omega), if_pos (by omega), h₁, hri]
      congr 1
      omega
    by_cases h₂ : x = rj
    · rw [if_neg (by omega), if_neg (by omega), if_neg (by omega), if_pos (by omega), h₂, hrj]
      congr 1
      omega
    by_cases h₃ : ri + 1 ≤ x ∧ x < ri + 1 + n
    · rw [if_pos h₃, if_pos (by omega), hother _ (by omega) (by omega)]
      congr 1
      omega
    by_cases h₄ : rj + 1 ≤ x ∧ x < rj + 1 + n
    · rw [if_neg h₃, if_pos h₄, if_neg (by omega), if_pos (by omega), hother _ (by omega) (by omega)]
      congr 1
      omega
    · rw [if_neg h₃, if_neg h₄, if_neg (by omega), if_neg (by omega), hother x h₁ h₂]

/-- The bytes of three blocks change places. The last two blocks may be one. -/
theorem qstexcLoop_mem (n : ℕ) :
    ∀ (ri rj rk : ℤ) (s : QsMem), BytesApart n ri rj → BytesApart n ri rk → rj = rk ∨ BytesApart n rj rk →
    ∀ x, (qstexcLoop n ri rj rk s).mem x =
      if ri ≤ x ∧ x < ri + n then s.mem (x - ri + rk) else if rj ≤ x ∧ x < rj + n then s.mem (x - rj + ri)
      else if rk ≤ x ∧ x < rk + n then s.mem (x - rk + rj) else s.mem x := by
  induction n with
  | zero =>
    intro ri rj rk s _ _ _ x
    rw [if_neg (by omega), if_neg (by omega), if_neg (by omega)]
    rfl
  | succ n ih =>
    intro ri rj rk s hij hik hjk x
    unfold BytesApart at hij hik hjk
    rw [qstexcLoop, ih (ri + 1) (rj + 1) (rk + 1) _ (by unfold BytesApart; omega)
      (by unfold BytesApart; omega) (by unfold BytesApart; omega) x]
    have hne : rj ≠ ri ∧ rk ≠ ri := by omega
    -- What the round has left: the three bytes moved, and the others.
    have hmem : ∀ y, Function.update (Function.update (Function.update s.mem ri (s.mem rk)) rk
        (Function.update s.mem ri (s.mem rk) rj)) rj (s.mem ri) y =
        if y = rj then s.mem ri else if y = rk then s.mem rj else if y = ri then s.mem rk else s.mem y := by
      intro y
      rw [Function.update_of_ne hne.1, Function.update_apply, Function.update_apply, Function.update_apply]
    dsimp only
    simp only [hmem]
    by_cases h₁ : x = ri
    · rw [if_neg (by omega), if_neg (by omega), if_neg (by omega),
        if_neg (by omega), if_neg (by omega), if_pos h₁, if_pos (by omega)]
      congr 1
      omega
    by_cases h₂ : x = rj
    · rw [if_neg (by omega), if_neg (by omega), if_neg (by omega),
        if_pos h₂, if_neg (by omega), if_pos (by omega)]
      congr 1
      omega
    by_cases h₃ : x = rk
    · rw [if_neg (by omega), if_neg (by omega), if_neg (by omega),
        if_neg h₂, if_pos h₃, if_neg (by omega), if_neg (by omega), if_pos (by omega)]
      congr 1
      omega
    by_cases h₄ : ri + 1 ≤ x ∧ x < ri + 1 + n
    · rw [if_pos h₄, if_neg (by omega), if_neg (by omega), if_neg (by omega), if_pos (by omega)]
      congr 1
      omega
    by_cases h₅ : rj + 1 ≤ x ∧ x < rj + 1 + n
    · rw [if_neg h₄, if_pos h₅, if_neg (by omega), if_neg (by omega),
        if_neg (by omega), if_neg (by omega), if_pos (by omega)]
      congr 1
      omega
    by_cases h₆ : rk + 1 ≤ x ∧ x < rk + 1 + n
    · rw [if_neg h₄, if_neg h₅, if_pos h₆, if_neg (by omega),
        if_neg (by omega), if_neg (by omega), if_neg (by omega), if_neg (by omega),
        if_pos (by omega)]
      congr 1
      omega
    · rw [if_neg h₄, if_neg h₅, if_neg h₆, if_neg h₂, if_neg h₃,
        if_neg h₁, if_neg (by omega), if_neg (by omega), if_neg (by omega)]

/-- The bytes that an exchange uses. -/
theorem qsexcLoop_used (n : ℕ) : ∀ (ri rj : ℤ) (s : QsMem), ∀ x ∈ (qsexcLoop n ri rj s).used,
    x ∈ s.used ∨ (ri ≤ x ∧ x < ri + n) ∨ rj ≤ x ∧ x < rj + n := by
  induction n with
  | zero =>
    intro ri rj s x hx
    exact Or.inl hx
  | succ n ih =>
    intro ri rj s x hx
    rcases ih _ _ _ x hx with h | h | h
    · rw [List.mem_append, List.mem_cons, List.mem_singleton] at h
      rcases h with h | h | h
      · exact Or.inl h
      · exact Or.inr (Or.inl (by omega))
      · exact Or.inr (Or.inr (by omega))
    · exact Or.inr (Or.inl (by omega))
    · exact Or.inr (Or.inr (by omega))

/-- The bytes that an exchange of three uses. -/
theorem qstexcLoop_used (n : ℕ) : ∀ (ri rj rk : ℤ) (s : QsMem), ∀ x ∈ (qstexcLoop n ri rj rk s).used,
    x ∈ s.used ∨ (ri ≤ x ∧ x < ri + n) ∨ (rj ≤ x ∧ x < rj + n) ∨ rk ≤ x ∧ x < rk + n := by
  induction n with
  | zero =>
    intro ri rj rk s x hx
    exact Or.inl hx
  | succ n ih =>
    intro ri rj rk s x hx
    rcases ih _ _ _ _ x hx with h | h | h | h
    · rw [List.mem_append, List.mem_cons, List.mem_cons, List.mem_singleton] at h
      rcases h with h | h | h | h
      · exact Or.inl h
      · exact Or.inr (Or.inl (by omega))
      · exact Or.inr (Or.inr (Or.inl (by omega)))
      · exact Or.inr (Or.inr (Or.inr (by omega)))
    · exact Or.inr (Or.inl (by omega))
    · exact Or.inr (Or.inr (Or.inl (by omega)))
    · exact Or.inr (Or.inr (Or.inr (by omega)))

/-! ## Elements -/

/-- The address of an element of an array. -/
def place (es : ℕ) (base : ℤ) (k : ℕ) : ℤ := base + k * es

/-- The elements of an array. -/
def cells (es : ℕ) (base : ℤ) (mem : ℤ → UInt8) (k : ℕ) : Fin es → UInt8 := element es mem (place es base k)

variable {base : ℤ} {p q m n k : ℕ}

/-- The next element. -/
theorem place_succ (es : ℕ) (base : ℤ) (k : ℕ) : place es base k + es = place es base (k + 1) := by
  unfold place
  push_cast
  ring

/-- The element before another one lies as many bytes in front as an element has. -/
theorem place_pred (es : ℕ) (base : ℤ) (h : 0 < k) : place es base k - es = place es base (k - 1) := by
  obtain ⟨k, rfl⟩ := Nat.exists_eq_succ_of_ne_zero (by omega : k ≠ 0)
  rw [Nat.succ_sub_one, Nat.succ_eq_add_one, ← place_succ]
  omega

/-- Elements stand in the order of their indices. -/
theorem place_le (es : ℕ) (base : ℤ) (h : m ≤ n) : place es base m ≤ place es base n := by
  unfold place
  have hle : (m : ℤ) * es ≤ n * es := Int.mul_le_mul_of_nonneg_right (by omega) (Int.natCast_nonneg _)
  omega

/-- An element ends before the next one begins. -/
theorem place_add_le (es : ℕ) (base : ℤ) (h : m < n) : place es base m + es ≤ place es base n := by
  rw [place_succ]
  exact place_le es base h

/-- Elements stand in the order of their indices. -/
theorem place_lt_iff (hes : 1 ≤ es) : place es base m < place es base n ↔ m < n := by
  constructor
  · intro h
    by_contra hle
    have := place_le es base (not_lt.mp hle)
    omega
  · intro h
    have := place_add_le es base h
    omega

/-- Two elements at one address are one element. -/
theorem place_inj (hes : 1 ≤ es) : place es base m = place es base n ↔ m = n := by
  constructor
  · intro h
    have h₁ : place es base m < place es base n ↔ m < n := place_lt_iff hes
    have h₂ : place es base n < place es base m ↔ n < m := place_lt_iff hes
    omega
  · rintro rfl
    rfl

/-- The bytes of two different elements do not overlap. -/
theorem places_apart (h : m ≠ n) : BytesApart es (place es base m) (place es base n) := by
  rcases Nat.lt_or_gt_of_ne h with h | h
  · exact Or.inl (place_add_le es base h)
  · exact Or.inr (place_add_le es base h)

/-- A byte of an element is in no other element. -/
theorem place_byte {t : ℤ} (ht : 0 ≤ t ∧ t < es) :
    (place es base m ≤ place es base k + t ∧ place es base k + t < place es base m + es) ↔ k = m := by
  constructor
  · intro h
    by_contra hne
    have hapart : BytesApart es (place es base k) (place es base m) := places_apart hne
    rcases hapart with h' | h' <;> omega
  · rintro rfl
    omega

/-- `qsexc` exchanges two elements, and leaves the others. -/
theorem qsexc_cells (m n : ℕ) (s : QsMem) :
    cells es base (qsexc es (place es base m) (place es base n) s).mem =
      cells es base s.mem ∘ Equiv.swap m n := by
  have hapart : place es base m = place es base n ∨ BytesApart es (place es base m) (place es base n) := by
    by_cases hmn : m = n
    · exact Or.inl (by rw [hmn])
    · exact Or.inr (places_apart hmn)
  funext k t
  have ht : 0 ≤ ((t : ℕ) : ℤ) ∧ ((t : ℕ) : ℤ) < es := by omega
  rw [Function.comp_apply, cells, element, qsexc, qsexcLoop_mem es _ _ _ hapart]
  simp only [place_byte ht, Equiv.swap_apply_def]
  -- The byte is in one of the elements, or in neither.
  split_ifs with h₁ h₂
  · rw [h₁, cells, element]
    congr 1
    ring
  · rw [h₂, cells, element]
    congr 1
    ring
  · rfl

/-- `qstexc` moves three elements around, and leaves the others. -/
theorem qstexc_cells (hmn : m ≠ n) (hmk : m ≠ k) (s : QsMem) :
    cells es base (qstexc es (place es base m) (place es base n) (place es base k) s).mem = rotate m n k
      (cells es base s.mem) := by
  have hapart : place es base n = place es base k ∨ BytesApart es (place es base n) (place es base k) := by
    by_cases hnk : n = k
    · exact Or.inl (by rw [hnk])
    · exact Or.inr (places_apart hnk)
  funext i t
  have ht : 0 ≤ ((t : ℕ) : ℤ) ∧ ((t : ℕ) : ℤ) < es := by omega
  rw [cells, element, qstexc, qstexcLoop_mem es _ _ _ _ (places_apart hmn) (places_apart hmk) hapart]
  simp only [place_byte ht]
  split_ifs with h₁ h₂ h₃
  · rw [h₁, rotate_first hmn hmk, cells, element]
    congr 1
    ring
  · rw [h₂, rotate_second, cells, element]
    congr 1
    ring
  · rw [h₃, rotate_third hmn (fun h => h₂ (h₃.trans h.symm)), cells, element]
    congr 1
    ring
  · rw [rotate_other h₁ h₂ h₃]
    rfl

/-! ## What may change -/

/-- Between two states of memory: the elements from `p` to `q` have changed places, no byte outside
them has changed, and no byte outside them has been used. -/
structure Moved (es : ℕ) (base : ℤ) (p q : ℕ) (s s' : QsMem) : Prop where
  /-- The elements from `p` to `q` have changed places. -/
  cells : Rearranged p q (cells es base s.mem) (cells es base s'.mem)
  /-- No byte outside them has changed. -/
  frame : ∀ x, x < place es base p ∨ place es base q ≤ x → s'.mem x = s.mem x
  /-- No byte outside them has been used. -/
  used : ∀ x ∈ s'.used, x ∈ s.used ∨ place es base p ≤ x ∧ x < place es base q

namespace Moved

variable {s s' s'' : QsMem}

/-- Nothing has happened. -/
theorem refl (s : QsMem) : Moved es base p q s s := ⟨.refl _ _ _, fun _ _ => rfl, fun _ hx => Or.inl hx⟩

/-- One piece of code after another. -/
theorem trans (h : Moved es base p q s s') (h' : Moved es base p q s' s'') : Moved es base p q s s'' where
  cells := h.cells.trans h'.cells
  frame := fun x hx => (h'.frame x hx).trans (h.frame x hx)
  used := fun x hx => by
    rcases h'.used x hx with hx | hx
    · exact h.used x hx
    · exact Or.inr hx

/-- What moves elements of a part moves elements of a larger one. -/
theorem mono {p' q' : ℕ} (h : Moved es base p q s s') (hp : p' ≤ p) (hq : q ≤ q') :
    Moved es base p' q' s s' := by
  have h₁ := place_le es base hp
  have h₂ := place_le es base hq
  refine ⟨h.cells.mono hp hq, fun x hx => h.frame x (by omega), fun x hx => ?_⟩
  rcases h.used x hx with hx | hx
  · exact Or.inl hx
  · exact Or.inr (by omega)

/-- The bytes of an element of the part. -/
theorem bytes (hm : p ≤ m ∧ m < q) {x : ℤ} (hx : place es base m ≤ x ∧ x < place es base m + es) :
    place es base p ≤ x ∧ x < place es base q := by
  have h₁ := place_le es base hm.1
  have h₂ := place_add_le es base hm.2
  omega

/-- A comparison of two elements of the part moves none. -/
theorem compare (cmp : (Fin es → UInt8) → (Fin es → UInt8) → ℤ)
    (h : Moved es base p q s s') (hm : p ≤ m ∧ m < q) (hn : p ≤ n ∧ n < q) :
    Moved es base p q s (qscmp cmp (place es base m) (place es base n) s').2 where
  cells := h.cells
  frame := h.frame
  used := fun x hx => by
    rw [qscmp, List.mem_append, List.mem_append, elementBytes, elementBytes, List.mem_map, List.mem_map] at hx
    rcases hx with (hx | ⟨t, ht, rfl⟩) | ⟨t, ht, rfl⟩
    · exact h.used x hx
    · rw [List.mem_range] at ht
      exact Or.inr (bytes hm (by omega))
    · rw [List.mem_range] at ht
      exact Or.inr (bytes hn (by omega))

/-- An exchange of two elements of the part keeps what has been moved within it. -/
theorem exchange (h : Moved es base p q s s') (hm : p ≤ m ∧ m < q) (hn : p ≤ n ∧ n < q) :
    Moved es base p q s (qsexc es (place es base m) (place es base n) s') where
  cells := by
    rw [qsexc_cells]
    exact h.cells.trans (.swap hm hn)
  frame := fun x hx => by
    have hapart : place es base m = place es base n ∨ BytesApart es (place es base m) (place es base n) := by
      by_cases hmn : m = n
      · exact Or.inl (by rw [hmn])
      · exact Or.inr (places_apart hmn)
    have hxm : ¬ (place es base m ≤ x ∧ x < place es base m + es) := fun hb => by
      have := bytes hm hb
      omega
    have hxn : ¬ (place es base n ≤ x ∧ x < place es base n + es) := fun hb => by
      have := bytes hn hb
      omega
    rw [qsexc, qsexcLoop_mem es _ _ _ hapart, if_neg hxm, if_neg hxn]
    exact h.frame x hx
  used := fun x hx => by
    rcases qsexcLoop_used es _ _ _ x hx with hx | hx | hx
    · exact h.used x hx
    · exact Or.inr (bytes hm hx)
    · exact Or.inr (bytes hn hx)

/-- A rotation of three elements of the part keeps what has been moved within it. -/
theorem rotate (h : Moved es base p q s s') (hm : p ≤ m ∧ m < q)
    (hn : p ≤ n ∧ n < q) (hk : p ≤ k ∧ k < q) (hmn : m ≠ n) (hmk : m ≠ k) :
    Moved es base p q s (qstexc es (place es base m) (place es base n) (place es base k) s') where
  cells := by
    rw [qstexc_cells hmn hmk]
    exact h.cells.trans (.rotate hm hn hk)
  frame := fun x hx => by
    have hapart : place es base n = place es base k ∨ BytesApart es (place es base n) (place es base k) := by
      by_cases hnk : n = k
      · exact Or.inl (by rw [hnk])
      · exact Or.inr (places_apart hnk)
    have hout : ∀ t, p ≤ t ∧ t < q → ¬ (place es base t ≤ x ∧ x < place es base t + es) := fun t ht hb => by
      have := bytes ht hb
      omega
    rw [qstexc, qstexcLoop_mem es _ _ _ _ (places_apart hmn) (places_apart hmk) hapart,
      if_neg (hout m hm), if_neg (hout n hn), if_neg (hout k hk)]
    exact h.frame x hx
  used := fun x hx => by
    rcases qstexcLoop_used es _ _ _ _ x hx with hx | hx | hx | hx
    · exact h.used x hx
    · exact Or.inr (bytes hm hx)
    · exact Or.inr (bytes hn hx)
    · exact Or.inr (bytes hk hx)

end Moved

/-! ## The loop -/

section loop

variable {cmp : (Fin es → UInt8) → (Fin es → UInt8) → ℤ}
  {pivot : Fin es → UInt8} {s : QsMem} {r : QsVars} {i lp hp j : ℕ}

/-- The variables of the loop for the part from `p` to `q`: its pointers are those of elements that
are compared with the pivot. -/
structure Parting (cmp : (Fin es → UInt8) → (Fin es → UInt8) → ℤ)
    (pivot : Fin es → UInt8) (base : ℤ) (p q : ℕ) (s : QsMem) (r : QsVars)
    (i lp hp j : ℕ) : Prop where
  /-- The pointer `i` is that of an element. -/
  at_i : r.i = place es base i
  /-- The pointer `j` is that of an element. -/
  at_j : r.j = place es base j
  /-- The pointer `lp` is that of an element. -/
  at_lp : r.lp = place es base lp
  /-- The pointer `hp` is that of an element. -/
  at_hp : r.hp = place es base hp
  /-- The elements between them have been compared with the pivot. -/
  fat : FatPivot cmp pivot (cells es base r.st.mem) p i lp hp j q
  /-- Elements have changed places only in this part. -/
  moved : Moved es base p q s r.st

/-- Where the loop goes on, with fewer than `u` elements still to be compared. At the label the
element at `i` is greater, or there is none. -/
def QsNext.Good (cmp : (Fin es → UInt8) → (Fin es → UInt8) → ℤ)
    (pivot : Fin es → UInt8) (base : ℤ) (p q : ℕ) (s : QsMem) (u : ℕ) : QsNext → Prop
  | .done r => ∃ lp hp, Parting cmp pivot base p q s r lp lp hp hp
  | .top r => ∃ i lp hp j, Parting cmp pivot base p q s r i lp hp j ∧ (lp - i) + (j - hp) < u
  | .loop r =>
    ∃ i lp hp j, Parting cmp pivot base p q s r i lp hp j ∧
      (lp - i) + (j - hp) < u ∧ (i = lp ∨ 0 < cmp (cells es base r.st.mem i) pivot)

/-- More rounds. -/
theorem QsNext.Good.mono {u u' : ℕ} {next : QsNext} (h : next.Good cmp pivot base p q s u) (hu : u ≤ u') :
    next.Good cmp pivot base p q s u' := by
  cases next with
  | done r => exact h
  | top r =>
    obtain ⟨i, lp, hp, j, hr, hlt⟩ := h
    exact ⟨i, lp, hp, j, hr, by omega⟩
  | loop r =>
    obtain ⟨i, lp, hp, j, hr, hlt, hi⟩ := h
    exact ⟨i, lp, hp, j, hr, by omega, hi⟩

variable (hc : Consistent cmp) (hes : 1 ≤ es)

include hc hes

/-- A round from the label on compares an element on the right with the pivot, or ends, or moves the pivot. -/
theorem qsLabel_step (h : Parting cmp pivot base p q s r i lp hp j)
    (hi : i = lp ∨ 0 < cmp (cells es base r.st.mem i) pivot) :
    (qsLabel cmp r).Good cmp pivot base p q s ((lp - i) + (j - hp)) := by
  obtain ⟨ri, rj, rlp, rhp, st⟩ := r
  obtain ⟨rfl, rfl, rfl, rfl, hfat, hmoved⟩ := h
  obtain ⟨hpi, hilp, hlphp, hhpj, hjq⟩ := hfat.bounds
  have hin_i : i < q := by omega
  -- The comparison of the element at `j` with the pivot.
  obtain ⟨hgt, heq, hlt⟩ := hc.of_equal_left (x := cells es base st.mem j) (hfat.equal hp hlphp le_rfl)
  rw [qsLabel]
  dsimp only at hi hfat hmoved hgt heq hlt ⊢
  by_cases hj : hp < j
  · have hmoved' := hmoved.compare cmp (m := hp) (n := j) (by omega) (by omega)
    rw [if_pos ((place_lt_iff hes).mpr hj)]
    simp only [place_succ]
    have hval : (qscmp cmp (place es base hp) (place es base j) st).1 = cmp
      (cells es base st.mem hp) (cells es base st.mem j) := rfl
    rw [hval]
    split_ifs with h₀ h₁ h₂
    · -- It is equal.
      refine ⟨i, lp, hp + 1, j, ⟨rfl, rfl, rfl, rfl, ?_,
        hmoved'.exchange (by omega) (by omega)⟩, by omega, ?_⟩
      · rw [qsexc_cells]
        exact hfat.join_right hj (heq.mp h₀)
      · by_cases hilp' : i = lp
        · exact Or.inl hilp'
        · right
          rw [qsexc_cells, Function.comp_apply, Equiv.swap_apply_of_ne_of_ne (by omega) (by omega)]
          exact hi.resolve_left hilp'
    · -- It is less, and there are no elements left on the other side.
      obtain rfl : i = lp := (place_inj hes).mp h₂
      refine ⟨i + 1, i + 1, hp + 1, j, ⟨rfl, rfl, rfl, rfl, ?_, ?_⟩, by omega, Or.inl rfl⟩
      · rw [qstexc_cells (by omega) (by omega)]
        exact hfat.shift_right hj (hgt.mp h₁)
      · exact hmoved'.rotate (by omega) (by omega) (by omega) (by omega) (by omega)
    · -- It is less, and the one at `i` is greater.
      have hne : i ≠ lp := fun hilp => h₂ ((place_inj hes).mpr hilp)
      refine ⟨i + 1, lp, hp, j - 1, ⟨rfl, place_pred es base (by omega), rfl, rfl, ?_, ?_⟩, by omega⟩
      · rw [qsexc_cells]
        exact hfat.exchange (by omega) hj (hi.resolve_left hne) (hgt.mp h₁)
      · exact hmoved'.exchange (by omega) (by omega)
    · -- It is greater.
      refine ⟨i, lp, hp, j - 1, ⟨rfl, place_pred es base (by omega), rfl, rfl, ?_, hmoved'⟩, by omega, hi⟩
      exact hfat.skip_right hj (hlt.mp (by omega))
  · obtain rfl : j = hp := by omega
    rw [if_neg (by rw [gt_iff_lt, place_lt_iff hes]; exact hj)]
    by_cases hilp' : i = lp
    · subst hilp'
      rw [if_pos rfl]
      exact ⟨i, j, ⟨rfl, rfl, rfl, rfl, hfat, hmoved⟩⟩
    · -- The element at `i` is greater, and there is no room for it on the other side.
      rw [if_neg (fun heq => hilp' ((place_inj hes).mp heq)),
        place_pred es base (by omega), place_pred es base (by omega)]
      refine ⟨i, lp - 1, j - 1, j - 1, ⟨rfl, rfl, rfl, rfl, ?_, ?_⟩, by omega⟩
      · rw [qstexc_cells (by omega) (by omega)]
        exact hfat.shift_left (by omega) (hi.resolve_left hilp')
      · exact hmoved.rotate (by omega) (by omega) (by omega) (by omega) (by omega)

/-- A round from the top on compares an element on the left with the pivot, or there is none and it
goes on at the label. -/
theorem qsTop_step (h : Parting cmp pivot base p q s r i lp hp j) :
    (qsTop cmp r).Good cmp pivot base p q s ((lp - i) + (j - hp)) := by
  have hlabel := qsLabel_step hc hes h
  have hcompared : ∀ st', Parting cmp pivot base p q s { r with st := st' } i lp hp j →
      0 < cmp (cells es base st'.mem i) pivot →
      (qsLabel cmp { r with st := st' }).Good cmp pivot base p q s ((lp - i) + (j - hp)) :=
    fun st' h' hgt => qsLabel_step hc hes h' (Or.inr hgt)
  obtain ⟨ri, rj, rlp, rhp, st⟩ := r
  obtain ⟨rfl, rfl, rfl, rfl, hfat, hmoved⟩ := h
  obtain ⟨hpi, hilp, hlphp, hhpj, hjq⟩ := hfat.bounds
  -- The comparison of the element at `i` with the pivot.
  obtain ⟨hlt, heq, hgt⟩ := hc.of_equal (x := cells es base st.mem i) (hfat.equal lp le_rfl hlphp)
  rw [qsTop]
  dsimp only at hlabel hcompared hfat hmoved hgt heq hlt ⊢
  by_cases hi : i < lp
  · have hmoved' := hmoved.compare cmp (m := i) (n := lp) (by omega) (by omega)
    rw [if_pos ((place_lt_iff hes).mpr hi), place_succ, place_pred es base (by omega)]
    have hval : (qscmp cmp (place es base i) (place es base lp) st).1 = cmp
      (cells es base st.mem i) (cells es base st.mem lp) := rfl
    rw [hval]
    split_ifs with h₀ h₁
    · refine ⟨i, lp - 1, hp, j, ⟨rfl, rfl, rfl, rfl, ?_, hmoved'.exchange (by omega) (by omega)⟩, by omega⟩
      rw [qsexc_cells]
      exact hfat.join_left hi (heq.mp h₀)
    · exact ⟨i + 1, lp, hp, j, ⟨rfl, rfl, rfl, rfl, hfat.skip_left hi (hlt.mp h₁), hmoved'⟩, by omega⟩
    · exact hcompared _ ⟨rfl, rfl, rfl, rfl, hfat, hmoved'⟩ (hgt.mp (by omega))
  · rw [if_neg (by rw [place_lt_iff hes]; exact hi)]
    exact hlabel (Or.inl (by omega))

/-- The loop ends, with the elements parted. -/
theorem qsLoop_ends (fuel : ℕ) : ∀ next : QsNext, next.Good cmp pivot base p q s fuel →
    ∃ r lp hp, qsLoop cmp fuel next = some r ∧ Parting cmp pivot base p q s r lp lp hp hp := by
  induction fuel with
  | zero =>
    intro next h
    cases next with
    | done r =>
      obtain ⟨lp, hp, hr⟩ := h
      exact ⟨r, lp, hp, by rw [qsLoop], hr⟩
    | top r =>
      obtain ⟨_, _, _, _, _, hlt⟩ := h
      exact absurd hlt (Nat.not_lt_zero _)
    | loop r =>
      obtain ⟨_, _, _, _, _, hlt, _⟩ := h
      exact absurd hlt (Nat.not_lt_zero _)
  | succ fuel ih =>
    intro next h
    cases next with
    | done r =>
      obtain ⟨lp, hp, hr⟩ := h
      exact ⟨r, lp, hp, by rw [qsLoop], hr⟩
    | top r =>
      obtain ⟨i, lp, hp, j, hr, hlt⟩ := h
      rw [qsLoop]
      exact ih _ ((qsTop_step hc hes hr).mono (Nat.le_of_lt_succ hlt))
    | loop r =>
      obtain ⟨i, lp, hp, j, hr, hlt, hi⟩ := h
      rw [qsLoop]
      exact ih _ ((qsLabel_step hc hes hr hi).mono (Nat.le_of_lt_succ hlt))

/-! ## Sorting -/

omit hc hes in
/-- The size of a part in bytes, as an `unsigned` variable. -/
theorem unsigned_size (base : ℤ) (hpq : p ≤ q) (hsize : (q - p) * es < 2 ^ 31) :
    unsigned (place es base q - place es base p) = ((q - p) * es : ℕ) := by
  have hdiff : place es base q - place es base p = ((q - p) * es : ℕ) := by
    unfold place
    push_cast [Nat.cast_sub hpq]
    ring
  rw [hdiff, unsigned]
  omega

omit hc in
/-- The address that `qs1` computes for the pivot is that of the element in the middle. -/
theorem middle_place (hes₂ : 2 * es < 2 ^ 31) (hpq : p ≤ q) (hsize : (q - p) * es < 2 ^ 31) :
    place es base p + unsigned (es * (unsigned (place es base q - place es base p) / unsigned (2 * es))) =
      place es base (p + (q - p) / 2) := by
  have htwice : unsigned (2 * es) = 2 * es := by
    rw [unsigned]
    omega
  have hhalf : (((q - p) * es : ℕ) : ℤ) / (2 * es) = ((q - p) / 2 : ℕ) := by
    push_cast
    rw [Int.mul_ediv_mul_of_pos_left _ _ (by omega)]
  have hle : es * ((q - p) / 2) ≤ (q - p) * es := by
    rw [Nat.mul_comm]
    exact Nat.mul_le_mul_right _ (Nat.div_le_self _ _)
  have hcast : (es : ℤ) * ((q - p) / 2 : ℕ) = (es * ((q - p) / 2) : ℕ) := by push_cast; rfl
  have hmod : unsigned (es * ((q - p) / 2 : ℕ)) = es * ((q - p) / 2 : ℕ) := by
    rw [hcast, unsigned]
    omega
  rw [unsigned_size base hpq hsize, htwice, hhalf, hmod]
  unfold place
  push_cast
  ring

/-- `qs1` sorts a part of the elements. -/
theorem qs1_sorts (base : ℤ) (hes₂ : 2 * es < 2 ^ 31) (fuel : ℕ) :
    ∀ (p q : ℕ) (s : QsMem), p ≤ q → q - p < fuel → (q - p) * es < 2 ^ 31 →
    ∃ s', qs1 cmp fuel (place es base p) (place es base q) s = some s' ∧
    Moved es base p q s s' ∧ Sorted cmp (cells es base s'.mem) p q := by
  induction fuel with
  | zero =>
    intro p q s _ hfuel
    exact absurd hfuel (Nat.not_lt_zero _)
  | succ fuel ih =>
    intro p q s hpq hfuel hsize
    have hn := unsigned_size base hpq hsize
    by_cases hsmall : q - p ≤ 1
    · -- No element, or one.
      have hle : (q - p) * es ≤ es := (Nat.mul_le_mul_right es hsmall).trans_eq (one_mul es)
      refine ⟨s, ?_, .refl s, fun m n hm hmn hn => by omega⟩
      rw [qs1]
      exact if_pos (by rw [hn]; omega)
    · have hgt : es < (q - p) * es := by
        calc es < 2 * es := by omega
          _ ≤ (q - p) * es := Nat.mul_le_mul_right es (by omega)
      -- The loop parts the elements.
      have hstart : Parting cmp (cells es base s.mem (p + (q - p) / 2)) base p q s
          ⟨place es base p, place es base q - es, place es base (p + (q - p) / 2),
            place es base (p + (q - p) / 2), s⟩
          p (p + (q - p) / 2) (p + (q - p) / 2) (q - 1) :=
        ⟨rfl, place_pred es base (by omega), rfl, rfl, .start hc (by omega) (by omega), .refl s⟩
      have hgood : (QsNext.top ⟨place es base p, place es base q - es,
          place es base (p + (q - p) / 2), place es base (p + (q - p) / 2), s⟩).Good cmp
          (cells es base s.mem (p + (q - p) / 2)) base p q s fuel := ⟨_, _, _, _, hstart, by omega⟩
      obtain ⟨r, lp, hp, hloop, hr⟩ := qsLoop_ends hc hes fuel _ hgood
      obtain ⟨hplp, -, hlphp, -, hhpq⟩ := hr.fat.bounds
      have hleft : (lp - p) * es < 2 ^ 31 := (Nat.mul_le_mul_right es (by omega)).trans_lt hsize
      have hright : (q - (hp + 1)) * es < 2 ^ 31 := (Nat.mul_le_mul_right es (by omega)).trans_lt hsize
      have hrun : qs1 cmp (fuel + 1) (place es base p) (place es base q) s =
          if r.lp - place es base p ≥ place es base q - r.hp then
            (qs1 cmp fuel (place es base (hp + 1)) (place es base q) r.st).bind fun s =>
              qs1 cmp fuel (place es base p) (place es base lp) s
          else (qs1 cmp fuel (place es base p) (place es base lp) r.st).bind fun s =>
            qs1 cmp fuel (place es base (hp + 1)) (place es base q) s := by
        have hbig : ¬ unsigned (place es base q - place es base p) ≤ es := by rw [hn]; omega
        rw [qs1]
        dsimp only
        rw [if_neg hbig, middle_place hes hes₂ hpq hsize, hloop,
          Option.bind_some, hr.at_hp, place_succ, hr.at_lp]
      rw [hrun]
      split_ifs
      · -- The part behind the pivot comes first.
        obtain ⟨s₁, hs₁, hmoved₁, hsorted₁⟩ := ih (hp + 1) q r.st hhpq (by omega) hright
        obtain ⟨s₂, hs₂, hmoved₂, hsorted₂⟩ := ih p lp s₁ hplp (by omega) hleft
        refine ⟨s₂, by rw [hs₁, Option.bind_some, hs₂], ?_, ?_⟩
        · exact (hr.moved.trans (hmoved₁.mono (by omega) le_rfl)).trans (hmoved₂.mono le_rfl (by omega))
        · refine Sorted.of_parts hc
            ((hr.fat.rearrange_right hmoved₁.cells).rearrange_left hmoved₂.cells) hsorted₂ ?_
          exact hsorted₁.congr fun k h₁ _ => hmoved₂.cells.eq (Or.inr (by omega))
      · -- The part before the pivot comes first.
        obtain ⟨s₁, hs₁, hmoved₁, hsorted₁⟩ := ih p lp r.st hplp (by omega) hleft
        obtain ⟨s₂, hs₂, hmoved₂, hsorted₂⟩ := ih (hp + 1) q s₁ hhpq (by omega) hright
        refine ⟨s₂, by rw [hs₁, Option.bind_some, hs₂], ?_, ?_⟩
        · exact (hr.moved.trans (hmoved₁.mono le_rfl (by omega))).trans (hmoved₂.mono (by omega) le_rfl)
        · refine Sorted.of_parts hc
            ((hr.fat.rearrange_left hmoved₁.cells).rearrange_right hmoved₂.cells) ?_ hsorted₂
          exact hsorted₁.congr fun k _ h₂ => hmoved₂.cells.eq (Or.inl (by omega))

end loop

/-- The elements of the array of `n` elements at `a`. -/
def elements (es : ℕ) (a : ℤ) (n : ℕ) (mem : ℤ → UInt8) : List (Fin es → UInt8) :=
  (List.range n).map fun k : ℕ => element es mem (a + k * es)

/-- `qsort` ends. The elements that it leaves are a permutation of those it was given, in order; no
byte outside the array is changed, and none is read or written. -/
theorem qsort_sorts {cmp : (Fin es → UInt8) → (Fin es → UInt8) → ℤ}
    (hc : Consistent cmp) (hes : 1 ≤ es) (hes₂ : 2 * es < 2 ^ 31) (a : ℤ) (n : ℕ)
    (hsize : n * es < 2 ^ 31) (mem : ℤ → UInt8) :
    ∃ s, qsort cmp a n ⟨mem, []⟩ = some s ∧ (elements es a n s.mem).Perm (elements es a n mem) ∧
      (elements es a n s.mem).Pairwise (fun x y => cmp x y ≤ 0) ∧ (∀ x ∈ s.used, a ≤ x ∧ x < a + n * es) ∧
        ∀ x, x < a ∨ a + n * es ≤ x → s.mem x = mem x := by
  have hfirst : place es a 0 = a := by simp [place]
  have hlast : place es a n = a + n * es := rfl
  have hend : a + unsigned (n * es) = place es a n := by
    have hcast : ((n : ℤ) * es) = (n * es : ℕ) := by push_cast; rfl
    rw [place, hcast, unsigned]
    omega
  obtain ⟨s, hs, hmoved, hsorted⟩ :=
    qs1_sorts hc hes a hes₂ (n + 1) 0 n ⟨mem, []⟩ (Nat.zero_le _) (Nat.lt_succ_self _) hsize
  refine ⟨s, ?_, hmoved.cells.perm, hsorted.pairwise, fun x hx => ?_, fun x hx => ?_⟩
  · rw [qsort, hend]
    rwa [hfirst] at hs
  · have hin := (hmoved.used x hx).resolve_left (fun h => by cases h)
    rwa [hfirst, hlast] at hin
  · exact hmoved.frame x (by rwa [hfirst, hlast])

/-- Three elements of two bytes, compared by their first byte. -/
theorem qsort_sorts_three :
    ∃ s, qsort (fun x y : Fin 2 → UInt8 => ((x 0).toNat : ℤ) - (y 0).toNat) 100 3
      ⟨fun x => if x = 100 then 7 else if x = 104 then 3 else 5, []⟩ = some s ∧
      (elements 2 100 3 s.mem).Perm (elements 2 100 3 fun x =>
        if x = 100 then 7 else if x = 104 then 3 else 5) ∧
        (elements 2 100 3 s.mem).Pairwise (fun x y => ((x 0).toNat : ℤ) - (y 0).toNat ≤ 0) ∧
          (∀ x ∈ s.used, 100 ≤ x ∧ x < 100 + (3 : ℕ) * (2 : ℕ)) ∧
          ∀ x, x < 100 ∨ 100 + ((3 : ℕ) : ℤ) * (2 : ℕ) ≤ x → s.mem x = if x = 100 then 7
            else if x = 104 then 3 else 5 :=
  qsort_sorts ⟨fun x y => by omega, fun x y z => by omega⟩ (by decide) (by decide) 100 3 (by decide) _

end Xinu
