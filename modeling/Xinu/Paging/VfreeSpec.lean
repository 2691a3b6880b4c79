import Xinu.Paging.Release
import Xinu.Lib.Scan

/-!
# What `vfree` does

In a laid out memory `vfree` has a closed form (`vfree_eq`). It compares the pointer with a bound
that it reads off the last present table (`BelowBound`), and then it checks and clears consecutive
words from the entry of the first page (`walkStart`, `walkLen`), whatever pages these words are
entries of.

`VfreeCorrect` is what the call is for, and `VfreeOk` is the condition under which it does that
(`vfree_correct_iff`). `VfreeSafe` is the weaker condition under which the call clears entries of
the caller's own heap only, so that the layout stays (`vfree_layout`).
-/

namespace Xinu

open FlatMemory

/-! ## The bound and the walk -/

/-- The number of present entries of a directory. -/
def presentEntries (m : Mem) (d : ℕ) : ℕ := Nat.count (fun i => (m (d * 1024 + i)).pres = true) 1024

/-- The pointer is below the address of the last allocated entry of the last present table, counted
as if the table were that of the first absent entry. With no entry allocated there, it is below the
address of the table itself. -/
def BelowBound (m : Mem) (d ptr : ℕ) : Prop :=
  let len := presentEntries m d
  let t := (m (d * 1024 + (len - 1))).base.toNat
  (∃ e < 1024, (m (t * 1024 + e)).avail = 3#3 ∧ ptr < (min len 1023 * 1024 + e) * 4096) ∨
    ((∀ e < 1024, (m (t * 1024 + e)).avail ≠ 3#3) ∧ ptr < t * 4096)

/-- The word where the walk starts. A pointer in the upper half of the address space is a negative
number, which is divided towards zero. -/
def walkStart (m : Mem) (d ptr : ℕ) : ℤ :=
  if ptr < 2 ^ 31 then (m (d * 1024 + ptr / 4194304)).base.toNat * 1024 + (ptr / 4096 % 1024 : ℕ)
  else (m (d * 1024 - (2 ^ 32 - ptr) / 4194304)).base.toNat * 1024 -
    ((2 ^ 32 - ptr) % 4194304 / 4096 : ℕ)

/-- The number of words that a walk which meets only allocated entries clears. -/
def walkLen (ptr pages : ℕ) : ℕ :=
  if 2 ^ 31 ≤ ptr ∧ 0 < (2 ^ 32 - ptr) % 4194304 / 4096 ∧ (2 ^ 32 - ptr) % 4194304 / 4096 ≤ pages then 0
  else pages

/-- The walk stays in mapped memory. -/
def WalkMapped (m : Mem) (d ptr pages : ℕ) : Prop :=
  pages ≠ 0 → 0 ≤ walkStart m d ptr ∧ Mapped ((walkStart m d ptr).toNat + (pages - 1))

/-- The walk meets only allocated entries. -/
def WalkValid (m : Mem) (d ptr pages : ℕ) : Prop :=
  ∀ k < pages, (m ((walkStart m d ptr).toNat + k)).avail = 3#3

/-- The words that such a walk clears. -/
def Walked (m : Mem) (d ptr pages w : ℕ) : Prop :=
  (walkStart m d ptr).toNat ≤ w ∧ w < (walkStart m d ptr).toNat + walkLen ptr pages

/-- The table index of a pointer. -/
theorem ptIndex_eq {ptr : ℕ} (h : ptr < 2 ^ 32) :
    ptIndex ptr = if ptr < 2 ^ 31 then ((ptr / 4096 % 1024 : ℕ) : ℤ)
      else -((2 ^ 32 - ptr) % 4194304 / 4096 : ℕ) := by
  rw [ptIndex, pdIndex, toInt32, show (PAGE_SIZE * MAX_PT_SIZE : ℕ) = 4194304 from rfl,
    show PAGE_SIZE = 4096 from rfl]
  split_ifs with hlow
  · rw [← Int.ofNat_tdiv, show (ptr : ℤ) - (ptr / 4194304 : ℕ) * (4194304 : ℕ) = (ptr % 4194304 : ℕ) by
      omega, ← Int.ofNat_tdiv]
    omega
  · rw [show (ptr : ℤ) - 2 ^ 32 = -((2 ^ 32 - ptr : ℕ) : ℤ) by omega, Int.neg_tdiv, ← Int.ofNat_tdiv,
      show -((2 ^ 32 - ptr : ℕ) : ℤ) - -((2 ^ 32 - ptr) / 4194304 : ℕ) * (4194304 : ℕ) =
        -((2 ^ 32 - ptr) % 4194304 : ℕ) by omega, Int.neg_tdiv, ← Int.ofNat_tdiv]

/-- The directory index of a pointer. -/
theorem pdIndex_eq {ptr : ℕ} (h : ptr < 2 ^ 32) :
    pdIndex ptr = if ptr < 2 ^ 31 then ((ptr / 4194304 : ℕ) : ℤ)
      else -((2 ^ 32 - ptr) / 4194304 : ℕ) := by
  rw [pdIndex, toInt32, show (PAGE_SIZE * MAX_PT_SIZE : ℕ) = 4194304 from rfl]
  split_ifs with hlow
  · rw [← Int.ofNat_tdiv]
  · rw [show (ptr : ℤ) - 2 ^ 32 = -((2 ^ 32 - ptr : ℕ) : ℤ) by omega, Int.neg_tdiv, ← Int.ofNat_tdiv]

/-- The loop that clears entries makes the turns of the walk. -/
theorem clearCount_eq {ptr pages : ℕ} (h : ptr < 2 ^ 32) (hp : pages < 2 ^ 20) :
    clearCount (ptIndex ptr) pages = walkLen ptr pages := by
  rw [clearCount, ptIndex_eq h, walkLen]
  split_ifs <;> omega

/-- The first word that `vfree` looks at. -/
theorem firstEntry_eq (m : Mem) {d ptr : ℕ} (h : ptr < 2 ^ 32) (hd : 1 ≤ d) :
    firstEntry m (d * 1024) ptr = walkStart m d ptr := by
  rw [firstEntry, pdIndex_eq h, ptIndex_eq h, walkStart]
  split_ifs with hlow
  · rw [show (((d * 1024 : ℕ) : ℤ) + (ptr / 4194304 : ℕ)).toNat = d * 1024 + ptr / 4194304 by omega]
    rfl
  · rw [show (((d * 1024 : ℕ) : ℤ) + -((2 ^ 32 - ptr) / 4194304 : ℕ)).toNat =
      d * 1024 - (2 ^ 32 - ptr) / 4194304 by omega, Entry.table]
    simp only [MAX_PT_SIZE]
    omega

namespace Layout

variable {m : Mem} {g : PageMap}

/-- The present entries of a directory are the ones that the page map counts. -/
theorem presentEntries_eq (h : Layout m g) {d : ℕ} (hd : g.role d = .dir) :
    presentEntries m d = g.len d := by
  have hD := h.dir d hd
  have hle := hD.len_le
  rw [presentEntries, Nat.count_eq_card_filter_range]
  rw [show (Finset.range 1024).filter (fun i => (m (d * 1024 + i)).pres = true) =
      Finset.range (g.len d) from ?_, Finset.card_range]
  ext i
  rw [Finset.mem_filter, Finset.mem_range, Finset.mem_range]
  constructor
  · exact fun hi => (hD.pres_iff i hi.1).mp hi.2
  · exact fun hi => ⟨by omega, (hD.pres_iff i (by omega)).mpr hi⟩

/-- The first loop of `vfree` ends at the first absent entry, or at the last entry. -/
theorem lastTable_eq (h : Layout m g) {d : ℕ} (hd : g.role d = .dir) :
    lastTable m (d * 1024) = ((m (d * 1024 + (g.len d - 1))).table, min (g.len d) 1023) := by
  have hD := h.dir d hd
  have h8 := hD.len_ge
  have hle := hD.len_le
  rw [lastTable]
  rcases Nat.lt_or_ge (g.len d) 1024 with hlt | hge
  · have hfind : (List.range' 8 (MAX_PT_SIZE - 8)).find? (fun i => !(m (d * 1024 + i)).pres) =
        some (g.len d) := by
      rw [List.find?_range'_eq_some, List.mem_range'_1]
      refine ⟨?_, ⟨h8, hlt⟩, fun j h₁ h₂ => ?_⟩
      · have := mt (hD.pres_iff (g.len d) hlt).mp (lt_irrefl _)
        simpa using this
      · have := (hD.pres_iff j (by omega)).mpr h₂
        simp [this]
    rw [hfind, show min (g.len d) 1023 = g.len d by omega]
  · have hfind : (List.range' 8 (MAX_PT_SIZE - 8)).find? (fun i => !(m (d * 1024 + i)).pres) = none := by
      rw [List.find?_range'_eq_none]
      intro j h₁ h₂
      have := (hD.pres_iff j (by simp only [MAX_PT_SIZE] at h₂; omega)).mpr
        (by simp only [MAX_PT_SIZE] at h₂; omega)
      simp [this]
    rw [hfind, show g.len d = 1024 by omega]
    rfl

/-- The last present table lies in the area. -/
theorem last_table_lt (h : Layout m g) {d : ℕ} (hd : g.role d = .dir) :
    (m (d * 1024 + (g.len d - 1))).base.toNat < PT_FRAME + 1024 := by
  have h8 := (h.dir d hd).len_ge
  rcases Nat.lt_or_ge 8 (g.len d) with hlt | hge
  · exact (h.table_bounds (h.table_role hd (i := g.len d - 1) (by omega) (by omega))).2
  · rw [show g.len d - 1 = 7 by omega, (h.dir d hd).xinu 7 (by decide)]
    omega

/-- The comparison that `vfree` makes says that the pointer lies below the bound. -/
theorem lt_upperBound_iff (h : Layout m g) {d : ℕ} (hd : g.role d = .dir) (ptr : ℕ) :
    ptr < upperBound m (d * 1024) ↔ BelowBound m d ptr := by
  have ht : _ < 25600 := h.last_table_lt hd
  have hj : min (g.len d) 1023 < 1024 := lt_of_le_of_lt (min_le_right _ _) (by decide)
  unfold upperBound BelowBound
  simp only [h.lastTable_eq hd, h.presentEntries_eq hd, Entry.table, MAX_PT_SIZE, PAGE_SIZE]
  generalize (m (d * 1024 + (g.len d - 1))).base.toNat = t at ht
  generalize min (g.len d) 1023 = j at hj
  -- The last allocated entry of the last table, or none: then the base of the table is the bound.
  rcases Scan.find_last_spec (fun i => decide ((m (t * 1024 + i)).avail = 3#3)) 1024 with
    ⟨i, hf, hi, hq, hlast⟩ | ⟨hf, hnone⟩
  · rw [hf]
    simp only [decide_eq_true_eq, decide_eq_false_iff_not] at hq hlast
    have hval : (j * 4096 * 1024 + 4096 * i) % 2 ^ 32 = (j * 1024 + i) * 4096 := by omega
    simp only [hval]
    constructor
    · exact fun hlt => .inl ⟨i, hi, hq, hlt⟩
    · rintro (⟨e, he, ha, hlt⟩ | ⟨hall, -⟩)
      · have : e ≤ i := by
          by_contra hgt
          exact hlast e (by omega) he ha
        exact lt_of_lt_of_le hlt (Nat.mul_le_mul_right _ (Nat.add_le_add_left this _))
      · exact absurd hq (hall i hi)
  · rw [hf]
    -- The last table has no allocated entry.
    simp only [decide_eq_false_iff_not] at hnone
    have hval : t * 1024 * 4 % 2 ^ 32 = t * 4096 := by omega
    simp only [hval]
    constructor
    · exact fun hlt => .inr ⟨hnone, hlt⟩
    · rintro (⟨e, he, ha, -⟩ | ⟨-, hlt⟩)
      · exact absurd ha (hnone e he)
      · exact hlt

end Layout

open Classical in
/-- The closed form of `vfree` in a laid out memory. -/
theorem vfree_eq {c : Cpu} {g : PageMap} (h : Layout c.mem g) {d ptr nbytes : ℕ}
    (hd : g.role d = .dir) (hptr : ptr < 2 ^ 32) (hn : nbytes < 2 ^ 32) :
    vfree c (d * 4096) ptr nbytes =
      if BelowBound c.mem d ptr then
        if WalkMapped c.mem d ptr (nbytes / 4096) then
          if WalkValid c.mem d ptr (nbytes / 4096) then
            .ok (.ok, c.withMem (releaseEntries vfreeEntry c.mem (walkStart c.mem d ptr).toNat
              (walkLen ptr (nbytes / 4096))))
          else .ok (.syserr, c)
        else .wild
      else .ok (.syserr, c) := by
  -- The reads of the bound and of the directory entry are mapped.
  have hdb := h.dir_bounds hd
  have ht := h.last_table_lt hd
  have hpd : d * 4096 / 4 = d * 1024 := by omega
  have hlast : Mapped (lastTable c.mem (d * 1024)).1 := by
    rw [h.lastTable_eq hd, mapped_iff, Entry.table]
    simp only [MAX_PT_SIZE]
    omega
  have hidx := pdIndex_eq hptr
  have hpde : ¬ ((d * 1024 : ℕ) + pdIndex ptr < 0 ∨ ¬ Mapped ((d * 1024 : ℕ) + pdIndex ptr).toNat) := by
    rw [mapped_iff, hidx]
    split_ifs <;> omega
  rw [vfree]
  simp only [Cpu.writeCr3_mem, Cpu.disable_snd_mem, hpd, hlast, not_true_eq_false, if_false,
    h.lt_upperBound_iff hd, hpde, firstEntry_eq c.mem hptr (show 1 ≤ d by omega), PAGE_SIZE,
    Nat.count_iff_forall, clearCount_eq hptr (show nbytes / 4096 < 2 ^ 20 by omega)]
  -- What is left are the three questions of the closed form.
  generalize hpages : nbytes / 4096 = pages
  have hw : (pages ≠ 0 ∧ (walkStart c.mem d ptr < 0 ∨
      ¬ Mapped ((walkStart c.mem d ptr).toNat + (pages - 1)))) ↔
      ¬ WalkMapped c.mem d ptr pages := by
    rw [WalkMapped, Classical.not_imp, not_and_or, not_le]
  have hv : (∀ k < pages, (c.mem ((walkStart c.mem d ptr).toNat + k)).avail = 3#3) ↔
      WalkValid c.mem d ptr pages := Iff.rfl
  simp only [hw, ite_not, hv]
  split_ifs <;> rfl

/-! ## What the call is for -/

/-- The `n` pages from `p` are valid pages of the caller's heap. -/
def HeapRange (m : Mem) (d p n : ℕ) : Prop := ∀ k < n, 8192 ≤ p + k ∧ PageValid m d (p + k)

/-- The word is the entry of one of the `n` pages from `p`. -/
def RangeWord (m : Mem) (d p n w : ℕ) : Prop := ∃ k < n, w = pteWord m d (p + k)

/-- One of the `n` pages from `p` maps FFS frame `k`. -/
def RangeFrame (m : Mem) (d p n k : ℕ) : Prop :=
  ∃ j < n, PagePresent m d (p + j) ∧ (m (pteWord m d (p + j))).base.toNat = 8192 + k

/-- Exactly the `n` pages from `p` become invalid and not present, and exactly the frames that they
mapped become free. -/
structure VfreeEffect (m m' : Mem) (d p n : ℕ) : Prop where
  /-- The pages are neither valid nor present. -/
  released : ∀ k < n, ¬ PageValid m' d (p + k) ∧ ¬ PagePresent m' d (p + k)
  /-- The frames that they mapped are free. -/
  freed : ∀ k < 16384, RangeFrame m d p n k →
    m' (FFS_WORD + k) = { m (FFS_WORD + k) with avail := 2#3 }
  /-- Nothing else has changed. -/
  other : ∀ w, ¬ RangeWord m d p n w → (∀ k < 16384, RangeFrame m d p n k → w ≠ FFS_WORD + k) →
    m' w = m w

/-- `vfree` of the `n` pages from `p` answers `OK` exactly for valid heap pages, frees exactly
those, and changes nothing when it answers `SYSERR`. -/
def VfreeCorrect (c : Cpu) (d p n : ℕ) : Prop :=
  ∃ s c', vfree c (d * 4096) (p * 4096) (n * 4096) = .ok (s, c') ∧
    (s = .ok ↔ HeapRange c.mem d p n) ∧
    (s = .ok → VfreeEffect c.mem c'.mem d p n) ∧
    (s = .syserr → c'.mem = c.mem)

/-- When `vfree` is correct. For valid heap pages: they lie below the bound, and the walk clears the
entries of these pages and no other word. For other pages: they lie above the bound, or the walk
meets an entry that is not allocated. -/
def VfreeOk (m : Mem) (d p n : ℕ) : Prop :=
  (HeapRange m d p n →
    BelowBound m d (p * 4096) ∧ ∀ w, Walked m d (p * 4096) n w ↔ RangeWord m d p n w) ∧
  (¬ HeapRange m d p n →
    BelowBound m d (p * 4096) → WalkMapped m d (p * 4096) n ∧ ¬ WalkValid m d (p * 4096) n)

/-- The word is an entry of the caller's heap. -/
def OwnWord (m : Mem) (d w : ℕ) : Prop := ∃ vp, 8192 ≤ vp ∧ HasPte m d vp ∧ pteWord m d vp = w

/-- The call clears only entries of the caller's own heap. -/
def VfreeSafe (m : Mem) (d ptr pages : ℕ) : Prop :=
  BelowBound m d ptr → WalkMapped m d ptr pages ∧
    (WalkValid m d ptr pages → ∀ w, Walked m d ptr pages w → OwnWord m d w)

/-- The entries of valid heap pages are entries of the caller's heap. -/
theorem own_of_range {m : Mem} {d p n w : ℕ} (hV : HeapRange m d p n) (hw : RangeWord m d p n w) :
    OwnWord m d w := by
  obtain ⟨k, hk, rfl⟩ := hw
  exact ⟨p + k, (hV k hk).1, (hV k hk).2.1, rfl⟩

/-- A directory entry is not a word of a private table. -/
theorem pde_not_heap {g : PageMap} {d i : ℕ} (hd : g.role d = .dir) (hi : i < 1024) :
    ¬ g.Heap (d * 1024 + i) := Layout.not_heap (by rw [hd]; exact id) hi

namespace Layout

variable {m : Mem} {g : PageMap}

/-- An entry of the caller's heap is a word of a private table. -/
theorem heap_of_own (h : Layout m g) {d w : ℕ} (hd : g.role d = .dir) (hw : OwnWord m d w) : g.Heap w := by
  obtain ⟨vp, h8, hp, rfl⟩ := hw
  exact h.heap_pteWord hd h8 ((h.hasPte_iff hd vp).mp hp)

/-- A directory entry is not an FFS entry. -/
theorem pde_not_ffs (h : Layout m g) {d i : ℕ} (hd : g.role d = .dir) : ¬ IsFfs (d * 1024 + i) := by
  have := h.dir_bounds hd
  rw [isFfs_iff]
  omega

end Layout

/-- A safe call of `vfree` returns and keeps the layout. It changes entries of the caller's heap,
which become invalid and not present, and FFS entries. -/
theorem vfree_layout {c : Cpu} {g : PageMap} (h : Layout c.mem g) {d ptr nbytes : ℕ}
    (hd : g.role d = .dir) (hptr : ptr < 2 ^ 32) (hn : nbytes < 2 ^ 32)
    (hs : VfreeSafe c.mem d ptr (nbytes / 4096)) :
    ∃ s m', vfree c (d * 4096) ptr nbytes = .ok (s, c.withMem m') ∧ Layout m' g ∧
      ∀ w, ¬ OwnWord c.mem d w → ¬ IsFfs w → m' w = c.mem w := by
  classical
  rw [vfree_eq h hd hptr hn]
  by_cases hb : BelowBound c.mem d ptr
  · obtain ⟨hm, hown⟩ := hs hb
    rw [if_pos hb, if_pos hm]
    by_cases hv : WalkValid c.mem d ptr (nbytes / 4096)
    · rw [if_pos hv]
      have hheap : ∀ k < walkLen ptr (nbytes / 4096),
          g.Heap ((walkStart c.mem d ptr).toNat + k) :=
        fun k hk => h.heap_of_own hd (hown hv _ ⟨by omega, by omega⟩)
      refine ⟨_, _, rfl, h.releaseEntries (fun e => ⟨rfl, rfl⟩) hheap, fun w hw hf => ?_⟩
      refine releaseEntries_outside _ _ ?_ hf
      by_contra hc
      exact hw (hown hv w ⟨by omega, by omega⟩)
    · rw [if_neg hv]
      exact ⟨_, c.mem, rfl, h, fun _ _ _ => rfl⟩
  · rw [if_neg hb]
    exact ⟨_, c.mem, rfl, h, fun _ _ _ => rfl⟩

/-- Clearing the entries of the `n` pages from `p`, and only these, has the effect that `vfree` is for. -/
theorem vfreeEffect_of_walked {m : Mem} {g : PageMap} (h : Layout m g) {d p n lo len : ℕ}
    (hd : g.role d = .dir) (hV : HeapRange m d p n)
    (hwalk : ∀ w, (lo ≤ w ∧ w < lo + len) ↔ RangeWord m d p n w) :
    VfreeEffect m (releaseEntries vfreeEntry m lo len) d p n := by
  have hheap : ∀ k < len, g.Heap (lo + k) := fun k hk =>
    h.heap_of_own hd (own_of_range hV ((hwalk _).mp ⟨by omega, by omega⟩))
  have hffs := h.range_not_ffs hheap
  -- The frames that are freed are those that the words of the range map.
  have hframe : ∀ k, RangeFrame m d p n k ↔ ∃ w, (lo ≤ w ∧ w < lo + len) ∧ MapsFrame m g k w := by
    intro k
    constructor
    · rintro ⟨j, hj, hp, hb⟩
      have hw : RangeWord m d p n (pteWord m d (p + j)) := ⟨j, hj, rfl⟩
      exact ⟨_, (hwalk _).mpr hw, h.heap_of_own hd (own_of_range hV hw), hp.2, hb⟩
    · rintro ⟨w, hw, -, hp, hb⟩
      obtain ⟨j, hj, rfl⟩ := (hwalk w).mp hw
      exact ⟨j, hj, ⟨(hV j hj).2.1, hp⟩, hb⟩
  refine ⟨fun k hk => ?_, fun k hk hf => ?_, fun w hw hf => ?_⟩
  · -- The directory entry of the page is untouched, and its entry is cleared.
    have hpte : HasPte m d (p + k) := (hV k hk).2.1
    have hpde : releaseEntries vfreeEntry m lo len (d * 1024 + (p + k) / 1024) =
        m (d * 1024 + (p + k) / 1024) := by
      refine releaseEntries_outside _ _ ?_ (h.pde_not_ffs hd)
      by_contra hc
      have := hheap (d * 1024 + (p + k) / 1024 - lo) (by omega)
      rw [show lo + (d * 1024 + (p + k) / 1024 - lo) = d * 1024 + (p + k) / 1024 by omega] at this
      exact pde_not_heap hd hpte.1 this
    have hword : pteWord (releaseEntries vfreeEntry m lo len) d (p + k) = pteWord m d (p + k) := by
      rw [pteWord, hpde, pteWord]
    have hin := (hwalk (pteWord m d (p + k))).mpr ⟨k, hk, rfl⟩
    have hcell : releaseEntries vfreeEntry m lo len (pteWord m d (p + k)) =
        vfreeEntry (m (pteWord m d (p + k))) := releaseEntries_of_mem hffs hin.1 hin.2
    rw [PageValid, PagePresent, hword, hcell]
    exact ⟨fun hv => absurd hv.2 (by simp [vfreeEntry]), fun hv => absurd hv.2 (by simp [vfreeEntry])⟩
  -- The word of a freed frame is the one that marks it free.
  · exact releaseEntries_freed hffs ((h.freedBy_iff hheap hk).mpr ((hframe k).mp hf))
  · have hout : w < lo ∨ lo + len ≤ w := by
      by_contra hc
      exact hw ((hwalk w).mp (by omega))
    by_cases hwf : IsFfs w
    · have hlt : w - FFS_WORD < 16384 := by
        have := hwf.2
        rw [show MAX_FFS_SIZE = 16384 from rfl] at this
        have := hwf.1
        omega
      have hadd : FFS_WORD + (w - FFS_WORD) = w := Nat.add_sub_cancel' hwf.1
      refine releaseEntries_other hffs hout fun hfree => ?_
      rw [← hadd, h.freedBy_iff hheap hlt] at hfree
      exact hf _ hlt ((hframe _).mpr hfree) hadd.symm
    · exact releaseEntries_outside _ _ hout hwf

/-- When the walk changes the pages of the range as `vfree` should, it clears exactly their entries. -/
theorem walked_of_vfreeEffect {m : Mem} {g : PageMap} (h : Layout m g) {d p n lo len : ℕ}
    (hd : g.role d = .dir) (hV : HeapRange m d p n)
    (hall : ∀ w, lo ≤ w → w < lo + len → (m w).avail = 3#3)
    (he : VfreeEffect m (releaseEntries vfreeEntry m lo len) d p n) (w : ℕ) :
    (lo ≤ w ∧ w < lo + len) ↔ RangeWord m d p n w := by
  constructor
  · rintro ⟨h₁, h₂⟩
    by_contra hw
    -- A cleared word has no valid bit and no base, so it is neither unchanged nor a freed FFS entry.
    have hav : (releaseEntries vfreeEntry m lo len w).avail = 2#3 :=
      releaseEntries_property (P := fun e => e.avail = 2#3) (fun _ => rfl) (fun _ _ => rfl) m h₁ h₂
    have hb : (releaseEntries vfreeEntry m lo len w).base = 0#20 :=
      releaseEntries_property (P := fun e => e.base = 0#20) (fun _ => rfl) (fun _ hb => hb) m h₁ h₂
    by_cases hf : ∃ k < 16384, RangeFrame m d p n k ∧ w = FFS_WORD + k
    · obtain ⟨k, hk, hf, rfl⟩ := hf
      rw [he.freed k hk hf] at hb
      have hbase := (h.ffs k hk).base
      have hb' : (m (FFS_WORD + k)).base = 0#20 := hb
      rw [hb', BitVec.toNat_ofNat] at hbase
      omega
    · rw [he.other w hw fun k hk hr hwk => hf ⟨k, hk, hr, hwk⟩, hall w h₁ h₂] at hav
      exact absurd hav (by decide)
  · rintro ⟨k, hk, rfl⟩
    by_contra hout
    have hpte : HasPte m d (p + k) := (hV k hk).2.1
    have hown : OwnWord m d (pteWord m d (p + k)) := own_of_range hV ⟨k, hk, rfl⟩
    have hsame : releaseEntries vfreeEntry m lo len (pteWord m d (p + k)) = m (pteWord m d (p + k)) :=
      releaseEntries_outside _ _ (by omega) (h.not_ffs_of_heap (h.heap_of_own hd hown))
    have hpde : releaseEntries vfreeEntry m lo len (d * 1024 + (p + k) / 1024) =
        m (d * 1024 + (p + k) / 1024) := by
      refine he.other _ (fun hr => ?_) fun j hj _ hwj => ?_
      · exact pde_not_heap hd hpte.1 (h.heap_of_own hd (own_of_range hV hr))
      · exact h.pde_not_ffs hd (hwj ▸ Layout.isFfs_add hj)
    refine (he.released k hk).1 ?_
    rw [PageValid, HasPte, hpde, pteWord, hpde, ← pteWord, hsame]
    exact (hV k hk).2

/-- `vfree` is correct exactly under `VfreeOk`. -/
theorem vfree_correct_iff {c : Cpu} {g : PageMap} (h : Layout c.mem g) {d p n : ℕ}
    (hd : g.role d = .dir) (hp : p < 2 ^ 20) (hn : n < 2 ^ 20) (hn1 : 1 ≤ n) :
    VfreeCorrect c d p n ↔ VfreeOk c.mem d p n := by
  classical
  have heq := vfree_eq h hd (show p * 4096 < 2 ^ 32 by omega) (show n * 4096 < 2 ^ 32 by omega)
  rw [show n * 4096 / 4096 = n by omega] at heq
  rw [VfreeCorrect, heq, VfreeOk]
  by_cases hV : HeapRange c.mem d p n
  · simp only [hV, iff_true, not_true_eq_false, true_implies, false_implies, and_true]
    constructor
    · rintro ⟨s, c', hres, rfl, he, -⟩
      split_ifs at hres with hb hm hv
      · injection hres with hres
        injection hres with _ hc
        subst hc
        refine ⟨hb, walked_of_vfreeEffect h hd hV (fun w h₁ h₂ => ?_) (he rfl)⟩
        have hlen : walkLen (p * 4096) n ≤ n := by
          rw [walkLen]
          split_ifs <;> omega
        have := hv (w - (walkStart c.mem d (p * 4096)).toNat) (by omega)
        rwa [show (walkStart c.mem d (p * 4096)).toNat +
          (w - (walkStart c.mem d (p * 4096)).toNat) = w by omega] at this
      · injection hres with hres
        injection hres with hs
        cases hs
      · injection hres with hres
        injection hres with hs
        cases hs
    · rintro ⟨hb, hwalk⟩
      have hheap : ∀ w, Walked c.mem d (p * 4096) n w → g.Heap w := fun w hw =>
        h.heap_of_own hd (own_of_range hV ((hwalk w).mp hw))
      -- The range is not empty, so neither is the walk, and it starts in the area.
      have hlen : walkLen (p * 4096) n = n := by
        have hw := (hwalk _).mpr ⟨0, hn1, rfl⟩
        rw [Walked, walkLen] at hw
        rw [walkLen]
        split_ifs at hw ⊢ <;> omega
      have hstart := h.heap_bounds (hheap (walkStart c.mem d (p * 4096)).toNat ⟨le_refl _, by omega⟩)
      have hend := h.heap_bounds
        (hheap ((walkStart c.mem d (p * 4096)).toNat + (n - 1)) ⟨by omega, by omega⟩)
      have hm : WalkMapped c.mem d (p * 4096) n := by
        intro _
        rw [mapped_iff]
        exact ⟨by omega, hend.2⟩
      have hv : WalkValid c.mem d (p * 4096) n := by
        intro k hk
        obtain ⟨j, hj, hw⟩ := (hwalk _).mp ⟨Nat.le_add_right _ k, by omega⟩
        rw [hw]
        exact ((h.valid_iff hd _).mp (hV j hj).2).2
      rw [if_pos hb, if_pos hm, if_pos hv]
      exact ⟨_, _, rfl, rfl, fun _ => vfreeEffect_of_walked h hd hV hwalk, fun hs => by cases hs⟩
  · simp only [hV, iff_false, not_false_eq_true, false_implies, true_implies, true_and]
    constructor
    · rintro ⟨s, c', hres, hs, -, -⟩ hb
      rw [if_pos hb] at hres
      split_ifs at hres with hm hv
      · injection hres with hres
        injection hres with hok
        exact absurd hok.symm hs
      · exact ⟨hm, hv⟩
    · intro hcond
      by_cases hb : BelowBound c.mem d (p * 4096)
      · obtain ⟨hm, hv⟩ := hcond hb
        rw [if_pos hb, if_pos hm, if_neg hv]
        exact ⟨_, _, rfl, Status.noConfusion, fun hs => (by cases hs), fun _ => rfl⟩
      · rw [if_neg hb]
        exact ⟨_, _, rfl, Status.noConfusion, fun hs => (by cases hs), fun _ => rfl⟩

end Xinu
