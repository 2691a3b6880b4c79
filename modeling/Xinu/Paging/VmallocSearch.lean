import Xinu.Paging.VfreeSpec

/-!
# The search of `vmalloc` in one table

A request of at most one table is first looked for inside a present table, and then as a spill from
the end of that table into the next one. `searchTable_spec` says which of these happens: the first
fit (`Fits`), a spill from the unallocated entries that end the table (`freeTail`), or neither, and
then the search goes on with the next directory entry.

The source ends its loop over the tables at the first table with `Stops`. A spill into an absent
entry never makes the next table, and a spill into a present one counts unallocated entries wherever
they are among the first `n`; `BadSpill` is the condition under which the marked entries are not
those of the returned pages.
-/

namespace Xinu

open FlatMemory Scan

/-! ## Free entries -/

/-- The frame of the table of directory entry `i`. -/
def tableOf (m : Mem) (d i : ℕ) : ℕ := (m (d * 1024 + i)).base.toNat

/-- Entry `e` of the table of directory entry `i` is not allocated. -/
def FreeEntry (m : Mem) (d i e : ℕ) : Prop := Unalloc m (tableOf m d i * 1024 + e)

instance (m : Mem) (d i e : ℕ) : Decidable (FreeEntry m d i e) := inferInstanceAs (Decidable (Unalloc _ _))

/-- The number of free entries that end the table of directory entry `i`. -/
def freeTail (m : Mem) (d i : ℕ) : ℕ := tailRun (FreeEntry m d i) 1024

/-- The number of free entries among the first `n` of the table of directory entry `i`. -/
def freeHead (m : Mem) (d i n : ℕ) : ℕ := Nat.count (FreeEntry m d i) n

/-- The request fits into the table of directory entry `i`. -/
def FitsIn (m : Mem) (d n i : ℕ) : Prop := Fits (FreeEntry m d i) n 1024

/-- The search of table `i` ends with a spill into the next one. -/
def Spills (m : Mem) (d n i : ℕ) : Prop :=
  ¬ FitsIn m d n i ∧ 0 < freeTail m d i ∧ i < 1023 ∧
    ((m (d * 1024 + (i + 1))).pres = false ∨ freeTail m d i + freeHead m d (i + 1) n = n)

/-- The walk over the tables ends at table `i`. -/
def Stops (m : Mem) (d n i : ℕ) : Prop := FitsIn m d n i ∨ Spills m d n i

/-- The spill marks other entries than those of the returned pages. -/
def BadSpill (m : Mem) (d n i : ℕ) : Prop :=
  Spills m d n i ∧ ¬ ((m (d * 1024 + (i + 1))).pres = true ∧
    Window (FreeEntry m d (i + 1)) (n - freeTail m d i) 0)

/-- Table `i` is the first, from entry 8 on, at which the walk ends. -/
def FirstStop (m : Mem) (d n i : ℕ) : Prop :=
  8 ≤ i ∧ i < 1024 ∧ (m (d * 1024 + i)).pres = true ∧ Stops m d n i ∧
    ∀ j, 8 ≤ j → j < i → ¬ Stops m d n j

theorem freeTail_le (m : Mem) (d i : ℕ) : freeTail m d i ≤ 1024 := tailRun_le 1024

/-- A table without room for the request ends with fewer free entries than requested. -/
theorem freeTail_lt {m : Mem} {d n i : ℕ} (h : ¬ FitsIn m d n i) : freeTail m d i < n := by
  by_contra hle
  have hle' := freeTail_le m d i
  unfold freeTail at hle hle'
  refine h ⟨1024 - n, by omega, fun k hk => ?_⟩
  exact tailRun_spec (n := 1024) (by omega) (by omega)

/-! ## The results of the search -/

/-- The memory and the address with which the walk ends at table `i`. -/
inductive StopResult (m : Mem) (d n i : ℕ) : Mem → ℕ → Prop where
  /-- The request fits at entry `j`, and at no earlier one. -/
  | fit (j : ℕ) (hj : j + n ≤ 1024) (hw : Window (FreeEntry m d i) n j)
    (hfirst : ∀ e < j, ¬ Window (FreeEntry m d i) n e) :
    StopResult m d n i (setValid m (tableOf m d i * 1024 + j) n) ((i * 1024 + j) * 4096)
  /-- The rest of the request is marked at the start of the same table. -/
  | absent (hs : Spills m d n i) (ha : (m (d * 1024 + (i + 1))).pres = false) :
    StopResult m d n i
      (setValid (setValid m (tableOf m d i * 1024 + (1024 - freeTail m d i)) (freeTail m d i))
        (tableOf m d i * 1024) (n - freeTail m d i))
      ((i * 1024 + (1024 - freeTail m d i)) * 4096)
  /-- The rest of the request is marked at the start of the next table. -/
  | present (hs : Spills m d n i) (hp : (m (d * 1024 + (i + 1))).pres = true) :
    StopResult m d n i
      (setValid (setValid m (tableOf m d i * 1024 + (1024 - freeTail m d i)) (freeTail m d i))
        (tableOf m d (i + 1) * 1024) (n - freeTail m d i))
      ((i * 1024 + (1024 - freeTail m d i)) * 4096)

/-- The address that the source computes for entry `j` of table `i`. -/
theorem va_eq {i j : ℕ} (hi : i < 1024) (hj : j < 1024) :
    (i * PAGE_SIZE * MAX_PT_SIZE + PAGE_SIZE * j) % 2 ^ 32 = (i * 1024 + j) * 4096 := by
  simp only [PAGE_SIZE, MAX_PT_SIZE]
  omega

/-- What the loop over the entries of one table ends with. -/
inductive TableOutcome (m : Mem) (pd i pt n : ℕ) : TableSearch → Prop where
  /-- The first place where the request fits. -/
  | fit (j : ℕ) (hj : j + n ≤ 1024) (hw : Window (fun e => Unalloc m (pt + e)) n j)
    (hfirst : ∀ e < j, ¬ Window (fun e => Unalloc m (pt + e)) n e) :
    TableOutcome m pd i pt n
      (.done (setValid m (pt + j) n) ((i * PAGE_SIZE * MAX_PT_SIZE + PAGE_SIZE * j) % 2 ^ 32))
  /-- The spill from the free entries that end the table. -/
  | spill (hnf : ¬ Fits (fun e => Unalloc m (pt + e)) n 1024)
    (hτ : 0 < tailRun (fun e => Unalloc m (pt + e)) 1024) (hi : i ≠ 1023) {r : TableSearch}
    (he : r = if (m (pd + (i + 1))).pres = false then
        spillAbsent m pd i pt (1024 - tailRun (fun e => Unalloc m (pt + e)) 1024)
          (tailRun (fun e => Unalloc m (pt + e)) 1024) n
      else spillPresent m pd i pt (1024 - tailRun (fun e => Unalloc m (pt + e)) 1024)
          (tailRun (fun e => Unalloc m (pt + e)) 1024) n) :
    TableOutcome m pd i pt n r
  /-- Nothing. -/
  | miss (hnf : ¬ Fits (fun e => Unalloc m (pt + e)) n 1024)
    (hτ : tailRun (fun e => Unalloc m (pt + e)) 1024 = 0 ∨ i = 1023) (k : ℕ) :
    TableOutcome m pd i pt n (.next k)

/-- What the loop has passed when it is at entry `j`: no window that starts below fits, and only in
the last table it is behind the start of the free entries that end the table. -/
structure Passed (p : ℕ → Prop) [DecidablePred p] (n i j : ℕ) : Prop where
  /-- The loop is in the table, or at its end. -/
  le : j ≤ 1024
  /-- It is not behind the start of the tail. -/
  tail : j ≤ 1024 - tailRun p 1024 ∨ i = 1023
  /-- No window that starts below fits. -/
  none : ∀ s < j, s + n ≤ 1024 → ¬ Window p n s

namespace Passed

variable {p : ℕ → Prop} [DecidablePred p] {n i j : ℕ}

/-- A request that fits nowhere from here on fits nowhere. -/
theorem not_fits (h : Passed p n i j) (hj : 1024 < j + n) : ¬ Fits p n 1024 := by
  rintro ⟨s, hs, hw⟩
  exact h.none s (by omega) hs hw

/-- An allocated entry is stepped over. -/
theorem allocated (h : Passed p n i j) (hn : 1 ≤ n) (hlt : j < 1024) (hp : ¬ p j) : Passed p n i (j + 1) := by
  refine ⟨hlt, ?_, fun s hs hsn hw => ?_⟩
  · rcases h.tail with htail | hi
    · refine .inl ?_
      by_contra hgt
      exact hp (tailRun_spec (n := 1024) (by omega) hlt)
    · exact .inr hi
  · rcases Nat.lt_succ_iff_lt_or_eq.mp hs with hs | rfl
    · exact h.none s hs hsn hw
    · have := hw 0 (by omega)
      rw [add_zero] at this
      exact hp this

/-- Behind the last allocated entry of a window that is not free the loop has skipped no window that
fits. -/
theorem skip (h : Passed p n i j) (hfit : j + n ≤ 1024) (hw : (window p j n).1 ≠ n) :
    Passed p n i ((window p j n).2 + 1) := by
  obtain ⟨h₁, h₂, h₃⟩ := window_snd_spec hw
  have hlast : (window p j n).2 < 1024 - tailRun p 1024 := by
    by_contra hge
    exact h₃ (tailRun_spec (n := 1024) (by omega) (by omega))
  refine ⟨by omega, .inl hlast, fun s hs hsn hws => ?_⟩
  rcases Nat.lt_or_ge s j with hsj | hsj
  · exact h.none s hsj hsn hws
  · refine h₃ ?_
    have := hws ((window p j n).2 - s) (by omega)
    rwa [Nat.add_sub_cancel' (by omega)] at this

/-- A free entry from which the request does not fit is stepped over, unless it starts the tail. -/
theorem short (h : Passed p n i j) (hlt : j < 1024) (hj : 1024 < j + n)
    (htail : (∃ k < 1024 - j, ¬ p (j + k)) ∨ i = 1023) : Passed p n i (j + 1) := by
  refine ⟨hlt, ?_, fun s hs hsn => h.none s (by omega) hsn⟩
  rcases h.tail with hle | hi
  · refine htail.imp_left fun ⟨k, hk, hno⟩ => ?_
    by_contra hgt
    exact hno (tailRun_spec (n := 1024) (by omega) (by omega))
  · exact .inr hi

end Passed

/-- The loop over the entries of one table: the first fit, the spill from the free entries that end
the table, or nothing. -/
theorem searchTable_spec (m : Mem) (pd i pt counter : ℕ) {n : ℕ} (hn : 1 ≤ n) (hn' : n ≤ 1024) :
    TableOutcome m pd i pt n (searchTable m pd i pt n 1024 0 counter) := by
  -- The induction is on the fuel, with what the loop has passed as its invariant.
  have key : ∀ fuel j counter, 1024 ≤ fuel + j → Passed (fun e => Unalloc m (pt + e)) n i j →
      TableOutcome m pd i pt n (searchTable m pd i pt n fuel j counter) := by
    intro fuel
    induction fuel with
    | zero =>
      intro j counter hf hp
      have hj := hp.le
      exact .miss (hp.not_fits (by omega)) (by have := hp.tail; omega) counter
    | succ fuel ih =>
      intro j counter hf hp
      rw [searchTable]
      simp only [MAX_PT_SIZE, show 1024 - 1 = 1023 from rfl]
      by_cases hlt : j < 1024
      swap
      · rw [if_neg hlt]
        exact .miss (hp.not_fits (by omega)) (by have := hp.tail; omega) counter
      rw [if_pos hlt]
      by_cases hpj : Unalloc m (pt + j)
      swap
      · rw [if_neg hpj]
        exact ih _ _ (by omega) (hp.allocated hn hlt hpj)
      rw [if_pos hpj]
      by_cases hfit : j + n ≤ 1024
      · rw [if_pos hfit]
        by_cases hw : (scanWindow m pt j n).1 = n
        · -- The window at `j` is free.
          rw [if_pos hw]
          exact .fit j hfit (window_fst_eq_iff.mp hw) fun e he => hp.none e he (by omega)
        · rw [if_neg hw]
          have hlast := (window_snd_spec hw).1
          exact ih _ _ (by unfold scanWindow; omega) (hp.skip hfit hw)
      · -- From here on no window fits.
        rw [if_neg hfit]
        have hnf := hp.not_fits (Nat.lt_of_not_le hfit)
        by_cases hall : Nat.count (fun k => Unalloc m (pt + j + k)) (1024 - j) = 1024 - j
        · rw [if_pos hall]
          rw [Nat.count_iff_forall] at hall
          by_cases hi : i ≠ 1023
          · -- The loop is at the start of the tail.
            have hle : 1024 - j ≤ tailRun (fun e => Unalloc m (pt + e)) 1024 := by
              refine le_tailRun (by omega) fun k hk₁ hk₂ => ?_
              have := hall (k - j) (by omega)
              rwa [add_assoc, Nat.add_sub_cancel' (by omega)] at this
            have hge := hp.tail.resolve_right hi
            have hj : j = 1024 - tailRun (fun e => Unalloc m (pt + e)) 1024 := by omega
            have hcount : 1024 - j = tailRun (fun e => Unalloc m (pt + e)) 1024 := by omega
            rw [if_pos hi, Nat.count_iff_forall.mpr hall, hcount, hj]
            exact .spill hnf (by omega) hi rfl
          · rw [if_neg hi]
            exact ih _ _ (by omega) (hp.short hlt (by omega) (.inr (not_not.mp hi)))
        · rw [if_neg hall]
          rw [Nat.count_iff_forall] at hall
          push Not at hall
          refine ih _ _ (by omega) (hp.short hlt (by omega) (.inl ?_))
          obtain ⟨k, hk, hno⟩ := hall
          exact ⟨k, hk, by rwa [add_assoc] at hno⟩
  exact key 1024 0 counter (by omega) ⟨by omega, .inl (by omega), fun s hs => absurd hs (Nat.not_lt_zero s)⟩

end Xinu
