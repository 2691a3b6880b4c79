import Xinu.Paging.Update

/-!
# What the release loops do

`releaseEntries` walks a range of entries, and for each present one it walks the entries of all the FFS
frames. Its closed form (`releaseEntries_apply`) holds as long as the range itself holds no FFS entry: the
range is overwritten, the FFS entries of the frames that the range mapped become free, and nothing else
changes.
-/

namespace Xinu

open FlatMemory

/-- The word belongs to an FFS entry that names the frame of some present entry of the range. -/
def FreedBy (m : Mem) (lo n w : ℕ) : Prop :=
  IsFfs w ∧ ∃ k < n, (m (lo + k)).pres = true ∧ (m (lo + k)).base = (m w).base

/-- Freeing the frame `base` frees the FFS entries that name it, and changes nothing else. -/
theorem freeFrame_apply (m : Mem) (base : BitVec 20) (w : ℕ) [Decidable (IsFfs w ∧ (m w).base = base)] :
    freeFrame m base w =
      if IsFfs w ∧ (m w).base = base then { m w with avail := 2#3 } else m w := by
  by_cases hw : IsFfs w
  · rw [freeFrame, fill_of_mem hw.1 hw.2]
    by_cases hb : (m w).base = base
    · rw [if_pos hb, if_pos ⟨hw, hb⟩]
    · rw [if_neg hb, if_neg (fun h => hb h.2)]
  · rw [freeFrame, fill_of_not_mem (by rw [IsFfs] at hw; omega), if_neg (fun h => hw h.1)]

open Classical in
/-- The loop over the `n` entries from `lo`, none of which is an FFS entry. -/
theorem releaseEntries_apply (clear : Entry → Entry) (m : Mem) (lo n : ℕ)
    (hffs : ∀ k < n, ¬ IsFfs (lo + k)) (w : ℕ) :
    releaseEntries clear m lo n w =
      if lo ≤ w ∧ w < lo + n then clear (m w)
      else if FreedBy m lo n w then { m w with avail := 2#3 } else m w := by
  induction n generalizing w with
  | zero =>
    rw [releaseEntries, Nat.fold_zero, if_neg (by omega), if_neg]
    rintro ⟨-, k, hk, -⟩
    omega
  | succ n ih =>
    have ih' := ih fun k hk => hffs k (by omega)
    have hn := hffs n (by omega)
    rw [releaseEntries, Nat.fold_succ, ← releaseEntries]
    generalize releaseEntries clear m lo n = r at ih'
    -- The entry of this turn is still as it was at the start.
    have hr : r (lo + n) = m (lo + n) := by
      rw [ih', if_neg (by omega), if_neg (fun h => hn h.1)]
    -- The frames freed so far keep their base.
    have hbase : ∀ v, IsFfs v → (r v).base = (m v).base := by
      intro v hv
      rw [ih', if_neg]
      · split_ifs <;> rfl
      · rintro ⟨h₁, h₂⟩
        have := hffs (v - lo) (by omega)
        rw [show lo + (v - lo) = v by omega] at this
        exact this hv
    have hfree : ∀ v, ¬ IsFfs v →
        (if (r (lo + n)).pres = true then freeFrame r (r (lo + n)).base else r) v = r v := by
      intro v hv
      split_ifs
      · rw [freeFrame_apply, if_neg (fun h => hv h.1)]
      · rfl
    rw [releaseEntry]
    rcases eq_or_ne w (lo + n) with rfl | hw
    · rw [write_same, hfree _ hn, hr, if_pos (by omega)]
    · rw [write_other hw]
      by_cases hwf : IsFfs w
      · have hwlo : ¬ (lo ≤ w ∧ w < lo + (n + 1)) := by
          rintro ⟨h₁, h₂⟩
          have := hffs (w - lo) (by omega)
          rw [show lo + (w - lo) = w by omega] at this
          exact this hwf
        rw [if_neg hwlo, hr]
        by_cases hp : (m (lo + n)).pres = true ∧ (m (lo + n)).base = (m w).base
        · rw [if_pos hp.1, freeFrame_apply, hbase w hwf, if_pos ⟨hwf, hp.2.symm⟩,
            if_pos ⟨hwf, n, by omega, hp⟩, ih', if_neg (by omega)]
          split_ifs <;> rfl
        · have hsame : (if (m (lo + n)).pres = true then freeFrame r (m (lo + n)).base else r) w =
              r w := by
            split_ifs with hpres
            · rw [freeFrame_apply, hbase w hwf, if_neg (fun h => hp ⟨hpres, h.2.symm⟩)]
            · rfl
          have hiff : FreedBy m lo (n + 1) w ↔ FreedBy m lo n w := by
            constructor
            · rintro ⟨-, k, hk, hk'⟩
              refine ⟨hwf, k, ?_, hk'⟩
              rcases Nat.lt_succ_iff_lt_or_eq.mp hk with hlt | rfl
              · exact hlt
              · exact absurd hk' hp
            · rintro ⟨-, k, hk, hk'⟩
              exact ⟨hwf, k, by omega, hk'⟩
          rw [hsame, ih', if_neg (by omega)]
          simp only [hiff]
      · rw [hfree w hwf, ih']
        have hnot : ∀ n', ¬ FreedBy m lo n' w := fun n' h => hwf h.1
        rw [if_neg (hnot n), if_neg (hnot (n + 1))]
        by_cases hin : lo ≤ w ∧ w < lo + n
        · rw [if_pos hin, if_pos (by omega)]
        · rw [if_neg hin, if_neg (by omega)]

/-- Every entry of the range ends with a property that overwriting gives it and that freeing a frame keeps. -/
theorem releaseEntries_property {clear : Entry → Entry} {P : Entry → Prop} (hc : ∀ e, P (clear e))
    (hf : ∀ e, P e → P { e with avail := 2#3 }) (m : Mem) {lo n w : ℕ} (h₁ : lo ≤ w) (h₂ : w < lo + n) :
    P (releaseEntries clear m lo n w) := by
  induction n with
  | zero => omega
  | succ n ih =>
    rw [releaseEntries, Nat.fold_succ, ← releaseEntries, releaseEntry]
    generalize releaseEntries clear m lo n = r at ih
    rcases eq_or_ne w (lo + n) with rfl | hw
    · rw [write_same]
      exact hc _
    · have hr := ih (by omega)
      rw [write_other hw]
      split_ifs
      · classical
        rw [freeFrame_apply]
        split_ifs
        · exact hf _ hr
        · exact hr
      · exact hr

/-- A word outside the range that is no FFS entry keeps its value. -/
theorem releaseEntries_outside (clear : Entry → Entry) (m : Mem) {lo n w : ℕ} (h : w < lo ∨ lo + n ≤ w)
    (hf : ¬ IsFfs w) : releaseEntries clear m lo n w = m w := by
  induction n with
  | zero => rfl
  | succ n ih =>
    have hr := ih (by omega)
    rw [releaseEntries, Nat.fold_succ, ← releaseEntries, releaseEntry, write_other (by omega)]
    split_ifs
    · classical
      rw [freeFrame_apply, if_neg fun hh => hf hh.1, hr]
    · exact hr

section

variable {clear : Entry → Entry} {m : Mem} {lo n w : ℕ} (hffs : ∀ k < n, ¬ IsFfs (lo + k))

include hffs

/-- An entry of the range is overwritten. -/
theorem releaseEntries_of_mem (h₁ : lo ≤ w) (h₂ : w < lo + n) :
    releaseEntries clear m lo n w = clear (m w) := by
  rw [releaseEntries_apply _ _ _ _ hffs, if_pos ⟨h₁, h₂⟩]

/-- The FFS entry of a frame that the range mapped becomes free. -/
theorem releaseEntries_freed (h : FreedBy m lo n w) :
    releaseEntries clear m lo n w = { m w with avail := 2#3 } := by
  classical
  have hlo : ¬ (lo ≤ w ∧ w < lo + n) := by
    rintro ⟨h₁, h₂⟩
    have := hffs (w - lo) (by omega)
    rw [show lo + (w - lo) = w by omega] at this
    exact this h.1
  rw [releaseEntries_apply _ _ _ _ hffs, if_neg hlo, if_pos h]

/-- Every other word keeps its entry. -/
theorem releaseEntries_other (hlo : w < lo ∨ lo + n ≤ w) (h : ¬ FreedBy m lo n w) :
    releaseEntries clear m lo n w = m w := by
  classical
  rw [releaseEntries_apply _ _ _ _ hffs, if_neg (by omega), if_neg h]

end

/-! ## Ranges of a private heap -/

namespace Layout

variable {m : Mem} {g : PageMap} {lo n : ℕ}

/-- The words of a range of private tables are no FFS entries. -/
theorem range_not_ffs (h : Layout m g) (hheap : ∀ k < n, g.Heap (lo + k)) :
    ∀ k < n, ¬ IsFfs (lo + k) := fun k hk => h.not_ffs_of_heap (hheap k hk)

/-- The frames that a range of private tables gives back are those that it maps. -/
theorem freedBy_iff (h : Layout m g) (hheap : ∀ k < n, g.Heap (lo + k)) {k : ℕ} (hk : k < 16384) :
    FreedBy m lo n (FFS_WORD + k) ↔ ∃ w, (lo ≤ w ∧ w < lo + n) ∧ MapsFrame m g k w := by
  have hbase := (h.ffs k hk).base
  constructor
  · rintro ⟨-, j, hj, hp, hb⟩
    exact ⟨lo + j, ⟨by omega, by omega⟩, hheap j hj, hp, by rw [hb, hbase]⟩
  · rintro ⟨w, ⟨h₁, h₂⟩, -, hp, hb⟩
    refine ⟨isFfs_add hk, w - lo, by omega, ?_⟩
    rw [show lo + (w - lo) = w by omega]
    exact ⟨hp, BitVec.eq_of_toNat_eq (by rw [hb, hbase])⟩

/-- A range of private tables may be released. -/
theorem releaseEntries (h : Layout m g) {clear : Entry → Entry}
    (hclear : ∀ e, (clear e).avail = 2#3 ∧ (clear e).pres = false) (hheap : ∀ k < n, g.Heap (lo + k)) :
    Layout (Xinu.releaseEntries clear m lo n) g := by
  have hffs := h.range_not_ffs hheap
  refine h.release (S := fun w => lo ≤ w ∧ w < lo + n) ?_ ?_ ?_ ?_ ?_
  · rintro w ⟨h₁, h₂⟩
    have := hheap (w - lo) (by omega)
    rwa [show lo + (w - lo) = w by omega] at this
  · rintro w ⟨h₁, h₂⟩
    rw [releaseEntries_of_mem hffs h₁ h₂]
    exact hclear _
  · intro k hk hex
    exact releaseEntries_freed hffs ((h.freedBy_iff hheap hk).mpr hex)
  · intro k hk hex
    refine releaseEntries_other hffs ?_ fun hf => hex ((h.freedBy_iff hheap hk).mp hf)
    by_contra hc
    refine hffs (FFS_WORD + k - lo) (by omega) ?_
    rw [show lo + (FFS_WORD + k - lo) = FFS_WORD + k by omega]
    exact isFfs_add hk
  · intro w hw hf
    exact releaseEntries_outside clear m (by omega) hf

end Layout

end Xinu
