import Xinu.Paging.VmallocWalk

/-!
# What `vmalloc` does

`VmallocSound` and `VmallocExact` are what a call is for: the returned pages were not valid and are
allocated now, and nothing else has changed. A call for at most one table marks the entries of its
pages (`Marks`) unless it meets a `BadSpill`; a call that finds no room makes fresh tables.

`SoundOk` is the condition for soundness (`vmalloc_sound_iff`), `VmallocClean` one for exactness
(`vmalloc_exact`), and `VmallocSafe` is the weaker condition under which the call keeps the layout
(`vmalloc_layout`).
-/

namespace Xinu

open FlatMemory Scan

/-! ## What the call is for -/

/-- The address is that of a page, none of the `n` pages from it was valid, and all of them are allocated. -/
structure VmallocSound (m m' : Mem) (d n va : ℕ) : Prop where
  /-- The address is that of a page. -/
  aligned : va % 4096 = 0
  /-- None of the pages was valid. -/
  fresh : ∀ k < n, ¬ PageValid m d (va / 4096 + k)
  /-- All of them are allocated. -/
  alloc : ∀ k < n, PageAlloc m' d (va / 4096 + k)

/-- The call returns `n` new pages from `p`: the count of allocated pages grows by `n`, no other
valid bit changes than those of these pages and of directory entries that become present, and the
pages taken from the area are those that hold entries of these pages. -/
structure ExactPages (m m' : Mem) (d n p : ℕ) : Prop where
  /-- The count of allocated pages grows by `n`. -/
  count : countEntries m' (d * 1024) 0 Entry.valid = countEntries m (d * 1024) 0 Entry.valid + n
  /-- No other valid bit changes than those of these pages and of directory entries that become present. -/
  valid : ∀ w, (m' w).valid ≠ (m w).valid → RangeWord m' d p n w ∨
    ∃ i < 1024, w = d * 1024 + i ∧ (m w).pres = false ∧ (m' w).pres = true
  /-- The pages taken from the area are those that hold entries of these pages. -/
  taken : ∀ f, (PageFree m f ∧ ¬ PageFree m' f) ↔
    ∃ k < n, f = tableOf m' d ((p + k) / 1024) ∧ ¬ HasPte m d (p + k)
  /-- No page of the area is given back. -/
  kept : ∀ f, PageFree m' f → PageFree m f

/-- The call returns exactly `n` new pages, or it changes nothing. -/
def VmallocExact (m m' : Mem) (d n : ℕ) : Option ℕ → Prop
  | some va => ExactPages m m' d n (va / 4096)
  | none => m' = m

/-! ## Conditions -/

/-- When an address is sound: the walk over the tables, which a request of one table makes for entry
8 only, does not end with a bad spill. -/
def SoundOk (m : Mem) (d n : ℕ) : Prop :=
  ∀ i, FirstStop m d n i → (n < 1024 ∨ n = 1024 ∧ i = 8) → ¬ BadSpill m d n i

/-- A call that keeps the layout: a request of less than one table; one of exactly one table when
there is no heap yet or table 8 has room; or a larger one whose search finds nothing. -/
def VmallocSafe (m : Mem) (d n : ℕ) : Prop :=
  n < 1024 ∨ n = 1024 ∧ (presentEntries m d = 8 ∨ Stops m d n 8) ∨
    1024 < n ∧ (1024 ≤ tablesFor n ∨ ManyMiss m d n)

/-- A call that is exact: a safe one that does not end with a bad spill. -/
def VmallocClean (m : Mem) (d n : ℕ) : Prop := VmallocSafe m d n ∧ SoundOk m d n

/-! ## Marked pages -/

section

variable {m m' : Mem} {g : PageMap} {d n p : ℕ}

/-- The entry of a page that is marked is a word of a private table. -/
theorem Marks.heap_word (h : Layout m g) (hd : g.role d = .dir) (hm : Marks m m' d p n) {w : ℕ}
    (hw : RangeWord m d p n w) : g.Heap w := by
  obtain ⟨k, hk, rfl⟩ := hw
  exact h.heap_pteWord hd (hm.heap k hk).1 ((h.hasPte_iff hd _).mp (hm.heap k hk).2)

/-- Marking pages leaves the directory alone, so every page keeps its entry. -/
theorem Marks.pteWord_eq (h : Layout m g) (hd : g.role d = .dir) (hm : Marks m m' d p n) {i : ℕ}
    (hi : i < 1024) : m' (d * 1024 + i) = m (d * 1024 + i) :=
  hm.other _ fun hw => pde_not_heap hd hi (hm.heap_word h hd hw)

/-- A page has an entry after pages were marked exactly when it had one. -/
theorem Marks.hasPte_iff (h : Layout m g) (hd : g.role d = .dir) (hm : Marks m m' d p n) (vp : ℕ) :
    HasPte m' d vp ↔ HasPte m d vp := by
  unfold HasPte
  refine and_congr_right fun hvp => ?_
  rw [hm.pteWord_eq h hd hvp]

/-- The marked pages become valid, and the others stay as they are. -/
theorem Marks.valid_iff (h : Layout m g) (hd : g.role d = .dir) (hm : Marks m m' d p n) (vp : ℕ) :
    PageValid m' d vp ↔ PageValid m d vp ∨ p ≤ vp ∧ vp < p + n := by
  -- Marking writes no entry of a directory.
  have hkey : HasPte m d vp → pteWord m' d vp = pteWord m d vp := by
    rintro ⟨hvp, -⟩
    unfold pteWord
    rw [hm.pteWord_eq h hd hvp]
  constructor
  · rintro ⟨hp, hv⟩
    rw [hm.hasPte_iff h hd] at hp
    rw [hkey hp] at hv
    by_cases hw : RangeWord m d p n (pteWord m d vp)
    · -- The entry is marked, and different heap pages have different entries.
      obtain ⟨k, hk, hwk⟩ := hw
      obtain ⟨h8, hpk⟩ := hm.heap k hk
      have hlt := (h.hasPte_iff hd _).mp hpk
      rcases Nat.lt_or_ge vp 8192 with hx | hx
      · have hheap := hm.heap_word h hd ⟨k, hk, rfl⟩
        rw [← hwk, h.pteWord_xinu hd hx] at hheap
        have := h.heap_bounds hheap
        omega
      · have := (h.pteWord_inj hd hx ((h.hasPte_iff hd _).mp hp) hd h8 hlt hwk).2
        exact .inr (by omega)
    -- An entry that is not marked is as it was.
    · rw [hm.other _ hw] at hv
      exact .inl ⟨hp, hv⟩
  -- Conversely a valid page stays valid, and a marked one becomes it.
  · rintro (⟨hp, hv⟩ | ⟨h₁, h₂⟩)
    · refine ⟨(hm.hasPte_iff h hd vp).mpr hp, ?_⟩
      rw [hkey hp]
      by_cases hw : RangeWord m d p n (pteWord m d vp)
      · obtain ⟨k, hk, hwk⟩ := hw
        rw [hwk, hm.marked k hk]
        exact Entry.valid_of_avail_three rfl
      · rwa [hm.other _ hw]
    · obtain ⟨k, rfl⟩ : ∃ k, vp = p + k := ⟨vp - p, by omega⟩
      have hpk := (hm.heap k (by omega)).2
      refine ⟨(hm.hasPte_iff h hd _).mpr hpk, ?_⟩
      rw [hkey hpk, hm.marked k (by omega)]
      exact Entry.valid_of_avail_three rfl

/-- Marking pages of a directory keeps the layout. -/
theorem Marks.layout (h : Layout m g) (hd : g.role d = .dir) (hm : Marks m m' d p n) : Layout m' g := by
  have hsame : ∀ w, ¬ g.Heap w → m' w = m w := fun w hw => hm.other w fun hr => hw (hm.heap_word h hd hr)
  have hor : ∀ w, m' w = m w ∨ m' w = { m w with avail := 3#3 } := by
    intro w
    by_cases hw : RangeWord m d p n w
    · obtain ⟨k, hk, rfl⟩ := hw
      exact .inr (hm.marked k hk)
    · exact .inl (hm.other w hw)
  exact h.of_marked hsame hor

/-- The count of allocated pages grows by the number of new pages. -/
theorem count_add {m m' : Mem} {d p n : ℕ}
    (hiff : ∀ vp, PageValid m' d vp ↔ PageValid m d vp ∨ p ≤ vp ∧ vp < p + n)
    (hnew : ∀ k < n, ¬ PageValid m d (p + k)) :
    countEntries m' (d * 1024) 0 Entry.valid = countEntries m (d * 1024) 0 Entry.valid + n := by
  rw [countEntries_eq _ _ _ _ (Nat.zero_le _), countEntries_eq _ _ _ _ (Nat.zero_le _)]
  simp only [Nat.zero_mul, Nat.zero_le, true_and]
  have hle : p + n ≤ 1024 * 1024 ∨ n = 0 := by
    rcases Nat.eq_zero_or_pos n with h0 | hpos
    · exact .inr h0
    · have := ((hiff (p + n - 1)).mpr (.inr ⟨by omega, by omega⟩)).1.1
      exact .inl (by omega)
  rcases hle with hle | rfl
  · exact count_add_interval hle hnew hiff
  · rw [add_zero]
    exact count_congr_iff fun vp => (hiff vp).trans (or_iff_left (by omega))

/-- A call that marks pages that were not valid is exact. -/
theorem Marks.exact (h : Layout m g) (hd : g.role d = .dir) (hm : Marks m m' d p n)
    (hnew : ∀ k < n, ¬ PageValid m d (p + k)) : ExactPages m m' d n p := by
  have hiff := hm.valid_iff h hd
  -- Marking makes no page free, and takes no free page.
  have hfree : ∀ f, PageFree m' f ↔ PageFree m f := by
    intro f
    by_cases hw : RangeWord m d p n (f * 1024)
    · -- The first entry of a table says that the page exists, before and after.
      have hheap := hm.heap_word h hd hw
      obtain ⟨k, hk, hwk⟩ := hw
      have ha := (h.pte _ hheap).avail
      have ha' : (m' (f * 1024)).avail = 3#3 := by rw [hwk, hm.marked k hk]
      unfold PageFree
      simp only [MAX_PT_SIZE]
      rw [ha']
      rcases ha with ha | ha
      · rw [ha]
        decide
      · rw [ha]
    · unfold PageFree
      simp only [MAX_PT_SIZE]
      rw [hm.other _ hw]
  -- The pages of the range become valid, nothing else is written, and no frame is mapped.
  refine ⟨count_add hiff hnew, fun w hw => ?_, fun f => ?_, fun f => (hfree f).mp⟩
  · refine .inl ?_
    by_contra hr
    refine hw ?_
    rw [hm.other w fun hrm => hr ?_]
    obtain ⟨k, hk, rfl⟩ := hrm
    refine ⟨k, hk, ?_⟩
    unfold pteWord
    rw [hm.pteWord_eq h hd (hm.heap k hk).2.1]
  · rw [hfree]
    refine ⟨fun hf => absurd hf.1 hf.2, ?_⟩
    rintro ⟨k, hk, -, hp⟩
    exact absurd (hm.heap k hk).2 hp

/-- The pages that have been marked are allocated. -/
theorem Marks.alloc (h : Layout m g) (hd : g.role d = .dir) (hm : Marks m m' d p n) {k : ℕ} (hk : k < n) :
    PageAlloc m' d (p + k) :=
  ((hm.layout h hd).valid_iff hd _).mp ((hm.valid_iff h hd _).mpr (.inr ⟨by omega, by omega⟩))

end

/-! ## The end of the walk -/

section

variable {m m' : Mem} {g : PageMap} {d n i va : ℕ}

/-- The page just behind the tables marked by a spill is the first of the next table. -/
theorem tail_add {m : Mem} {d i k : ℕ} (hk : k < freeTail m d i) :
    i * 1024 + (1024 - freeTail m d i) + k = i * 1024 + (1024 - freeTail m d i + k) ∧
      1024 - freeTail m d i + k < 1024 := by
  have := freeTail_le m d i
  exact ⟨by rw [add_assoc], by omega⟩

/-- A free entry of a present table is that of a page that is not valid. -/
theorem not_valid_of_free (h : Layout m g) (hd : g.role d = .dir) {e : ℕ} (he : e < 1024)
    (hf : FreeEntry m d i e) : ¬ PageValid m d (i * 1024 + e) := by
  rw [h.valid_iff hd]
  rintro ⟨-, ha⟩
  rw [← tableOf_word he] at ha
  exact hf ha

/-- The walk ends by changing entries of the caller's heap, and it keeps the layout. -/
theorem StopResult.layout (h : Layout m g) (hd : g.role d = .dir) (hn : n ≤ 1024) (h8 : 8 ≤ i)
    (hi : i < g.len d) (hr : StopResult m d n i m' va) :
    Layout m' g ∧ ∀ w, ¬ OwnWord m d w → m' w = m w := by
  have hle := (h.dir d hd).len_le
  -- The walk writes in the caller's tables `i` and `i + 1` only.
  have hown : ∀ j, 8 ≤ j → j < g.len d → ∀ e < 1024, OwnWord m d (tableOf m d j * 1024 + e) := by
    intro j hj hjl e he
    exact ⟨j * 1024 + e, by omega, (h.hasPte_iff hd _).mpr (by omega), (tableOf_word he).symm⟩
  have hout : ∀ (m₁ : Mem) j, 8 ≤ j → j < g.len d → ∀ a b, a + b ≤ 1024 → ∀ w, ¬ OwnWord m d w →
      Xinu.setValid m₁ (tableOf m d j * 1024 + a) b w = m₁ w := by
    intro m₁ j hj hjl a b hab w hw
    refine setValid_of_not_mem ?_
    by_contra hc
    have := hown j hj hjl (w - tableOf m d j * 1024) (by omega)
    rw [Nat.add_sub_cancel' (by omega)] at this
    exact hw this
  have hheap : ∀ j, 8 ≤ j → j < g.len d → ∀ a b, a + b ≤ 1024 → ∀ k < b,
      g.Heap (tableOf m d j * 1024 + a + k) := by
    intro j hj hjl a b hab k hk
    rw [add_assoc]
    exact h.heap_of_own hd (hown j hj hjl (a + k) (by omega))
  -- The three ways to stop: one run, or a tail with a spill into the next entry.
  have hτ := freeTail_le m d i
  cases hr with
  | fit j hj hw hfirst => exact ⟨h.setValid (hheap i h8 hi j n hj), hout m i h8 hi j n hj⟩
  | absent hs ha =>
    refine ⟨(h.setValid (hheap i h8 hi _ _ (by omega))).setValid fun k hk => ?_, fun w hw => ?_⟩
    · simpa using hheap i h8 hi 0 (n - freeTail m d i) (by omega) k hk
    · have :=
        hout (Xinu.setValid m (tableOf m d i * 1024 + (1024 - freeTail m d i)) (freeTail m d i)) i h8 hi 0
        (n - freeTail m d i) (by omega) w hw
      rw [add_zero] at this
      rw [this, hout m i h8 hi _ _ (by omega) w hw]
  | present hs hp =>
    have hi' : i + 1 < g.len d := ((h.dir d hd).pres_iff (i + 1) (by have := hs.2.2.1; omega)).mp hp
    refine ⟨(h.setValid (hheap i h8 hi _ _ (by omega))).setValid fun k hk => ?_, fun w hw => ?_⟩
    · simpa using hheap (i + 1) (by omega) hi' 0 (n - freeTail m d i) (by omega) k hk
    · have := hout (Xinu.setValid m (tableOf m d i * 1024 + (1024 - freeTail m d i)) (freeTail m d i)) (i + 1)
        (by omega) hi' 0 (n - freeTail m d i) (by omega) w hw
      rw [add_zero] at this
      rw [this, hout m i h8 hi _ _ (by omega) w hw]

/-- A spill into a present table marks the pages from the free entries that end the table on. -/
theorem marks_present (h : Layout m g) (hd : g.role d = .dir) (hn : n ≤ 1024) (h8 : 8 ≤ i) (hi : i < g.len d)
    (hs : Spills m d n i) (hp : (m (d * 1024 + (i + 1))).pres = true) :
    Marks m (Xinu.setValid (Xinu.setValid m (tableOf m d i * 1024 + (1024 - freeTail m d i)) (freeTail m d i))
      (tableOf m d (i + 1) * 1024) (n - freeTail m d i)) d (i * 1024 + (1024 - freeTail m d i)) n := by
  have hτ := freeTail_le m d i
  have hτn := freeTail_lt hs.1
  have hτ0 := hs.2.1
  have hle := (h.dir d hd).len_le
  have hi' : i + 1 < g.len d := ((h.dir d hd).pres_iff (i + 1) (by have := hs.2.2.1; omega)).mp hp
  have hne : tableOf m d i ≠ tableOf m d (i + 1) := by
    intro he
    have h₁ := h.table_role hd h8 hi
    have h₂ := h.table_role hd (by omega) hi'
    rw [← tableOf, he, tableOf, h₂] at h₁
    injection h₁
    omega
  -- The pages below `freeTail` end table `i`, and the others start table `i + 1`.
  have hlow : ∀ k < freeTail m d i, pteWord m d (i * 1024 + (1024 - freeTail m d i) + k) =
      tableOf m d i * 1024 + (1024 - freeTail m d i) + k := by
    intro k hk
    rw [add_assoc, ← tableOf_word (by omega), add_assoc]
  have hhigh : ∀ k, freeTail m d i ≤ k → k < n →
      pteWord m d (i * 1024 + (1024 - freeTail m d i) + k) =
        tableOf m d (i + 1) * 1024 + (k - freeTail m d i) := by
    intro k h₁ h₂
    rw [show i * 1024 + (1024 - freeTail m d i) + k = (i + 1) * 1024 + (k - freeTail m d i) by omega,
      ← tableOf_word (by omega)]
  refine ⟨fun k hk => ⟨by omega, (h.hasPte_iff hd _).mpr (by omega)⟩, fun k hk => ?_, fun w hw => ?_⟩
  · rcases Nat.lt_or_ge k (freeTail m d i) with hlt | hge
    · rw [hlow k hlt, setValid_of_not_mem (by omega), setValid_of_mem (by omega) (by omega)]
    · rw [hhigh k hge hk, setValid_of_mem (by omega) (by omega), setValid_of_not_mem (by omega)]
  · rw [setValid_of_not_mem, setValid_of_not_mem]
    · by_contra hc
      refine hw ⟨w - (tableOf m d i * 1024 + (1024 - freeTail m d i)), by omega, ?_⟩
      rw [hlow _ (by omega)]
      omega
    · by_contra hc
      refine hw ⟨freeTail m d i + (w - tableOf m d (i + 1) * 1024), by omega, ?_⟩
      rw [hhigh _ (by omega) (by omega)]
      omega

/-- A walk that does not end with a bad spill marks the pages from the returned address, which were
not valid. -/
theorem StopResult.marks (h : Layout m g) (hd : g.role d = .dir) (hn : n ≤ 1024) (h8 : 8 ≤ i)
    (hi : i < g.len d) (hr : StopResult m d n i m' va)
    (hgood : ¬ BadSpill m d n i) :
    va % 4096 = 0 ∧ Marks m m' d (va / 4096) n ∧ ∀ k < n, ¬ PageValid m d (va / 4096 + k) := by
  cases hr with
  -- The whole run is in one table.
  | fit j hj hw hfirst =>
    rw [Nat.mul_mod_left, Nat.mul_div_cancel _ (by decide)]
    have hword : ∀ k < n, pteWord m d (i * 1024 + j + k) = tableOf m d i * 1024 + j + k := by
      intro k hk
      rw [add_assoc, ← tableOf_word (by omega), add_assoc]
    refine ⟨rfl, ⟨fun k hk => ⟨by omega, (h.hasPte_iff hd _).mpr (by omega)⟩, fun k hk => ?_,
      fun w hw' => setValid_of_not_mem ?_⟩, fun k hk => ?_⟩
    · rw [hword k hk]
      exact setValid_of_mem (by omega) (by omega)
    · by_contra hc
      refine hw' ⟨w - (tableOf m d i * 1024 + j), by omega, ?_⟩
      rw [hword _ (by omega)]
      omega
    · rw [add_assoc]
      exact not_valid_of_free h hd (by omega) (hw k hk)
  -- A spill into an absent entry is a bad one.
  | absent hs ha => exact absurd ⟨hs, fun hp => by rw [ha] at hp; cases hp.1⟩ hgood
  | present hs hp =>
    rw [Nat.mul_mod_left, Nat.mul_div_cancel _ (by decide)]
    have hτ := freeTail_le m d i
    have hwin : Window (FreeEntry m d (i + 1)) (n - freeTail m d i) 0 := by
      by_contra hw
      exact hgood ⟨hs, fun hc => hw hc.2⟩
    -- The tail of the first table, and then the first entries of the next one.
    refine ⟨rfl, marks_present h hd hn h8 hi hs hp, fun k hk => ?_⟩
    rcases Nat.lt_or_ge k (freeTail m d i) with hlt | hge
    · obtain ⟨he, hlt'⟩ := tail_add hlt
      rw [he]
      refine not_valid_of_free h hd hlt' (tailRun_spec (p := FreeEntry m d i) (n := 1024) ?_ hlt')
      change 1024 - freeTail m d i ≤ _
      omega
    · rw [show i * 1024 + (1024 - freeTail m d i) + k = (i + 1) * 1024 + (k - freeTail m d i) by omega]
      have := hwin (k - freeTail m d i) (by omega)
      rw [Nat.zero_add] at this
      exact not_valid_of_free h hd (by omega) this

/-- After a bad spill into a present table one of the pages that it marks was valid before. -/
theorem BadSpill.valid_page (h : Layout m g) (hd : g.role d = .dir) (hn : n ≤ 1024) (hbad : BadSpill m d n i)
    (hp : (m (d * 1024 + (i + 1))).pres = true) :
    ∃ k < n, PageValid m d (i * 1024 + (1024 - freeTail m d i) + k) := by
  have hτ := freeTail_le m d i
  have hi' := hbad.1.2.2.1
  have hlen : i + 1 < g.len d := ((h.dir d hd).pres_iff (i + 1) (by omega)).mp hp
  have hex : ∃ k < n - freeTail m d i, ¬ FreeEntry m d (i + 1) k := by
    by_contra hno
    refine hbad.2 ⟨hp, fun k hk => ?_⟩
    rw [Nat.zero_add]
    by_contra hf
    exact hno ⟨k, hk, hf⟩
  obtain ⟨k, hk, hf⟩ := hex
  refine ⟨freeTail m d i + k, by omega, ?_⟩
  rw [show i * 1024 + (1024 - freeTail m d i) + (freeTail m d i + k) = (i + 1) * 1024 + k by omega]
  refine ⟨(h.hasPte_iff hd _).mpr (by omega), ?_⟩
  rw [← tableOf_word (by omega)]
  exact Entry.valid_of_avail_three (not_not.mp hf)

/-- After a bad spill into an absent table the first page of this has no entry. -/
theorem BadSpill.no_entry (hbad : BadSpill m d n i) (ha : (m (d * 1024 + (i + 1))).pres = false) :
    freeTail m d i < n ∧ (i * 1024 + (1024 - freeTail m d i) + freeTail m d i) / 1024 = i + 1 ∧
      ¬ HasPte m d (i * 1024 + (1024 - freeTail m d i) + freeTail m d i) := by
  have hτ := freeTail_le m d i
  have hdiv : (i * 1024 + (1024 - freeTail m d i) + freeTail m d i) / 1024 = i + 1 := by omega
  refine ⟨freeTail_lt hbad.1.1, hdiv, fun hp => ?_⟩
  have hpres := hp.2
  rw [hdiv, ha] at hpres
  cases hpres

/-- After a bad spill the returned address is not sound. -/
theorem StopResult.unsound (h : Layout m g) (hd : g.role d = .dir)
    (hn : n ≤ 1024) (hr : StopResult m d n i m' va) (hbad : BadSpill m d n i) :
    ¬ VmallocSound m m' d n va := by
  intro hs
  cases hr with
  | fit j hj hw hfirst => exact hbad.1.1 ⟨j, hj, hw⟩
  | absent hsp ha =>
    obtain ⟨hlt, hdiv, -⟩ := hbad.no_entry ha
    have hp := (hs.alloc _ hlt).1
    rw [Nat.mul_div_cancel _ (by decide)] at hp
    have hpres := hp.2
    rw [hdiv, setValid_pres, setValid_pres, ha] at hpres
    cases hpres
  | present hsp hp =>
    obtain ⟨k, hk, hvalid⟩ := hbad.valid_page h hd hn hp
    have hfresh := hs.fresh k hk
    rw [Nat.mul_div_cancel _ (by decide)] at hfresh
    exact hfresh hvalid

/-- After a bad spill the call is not exact. -/
theorem StopResult.inexact (h : Layout m g) (hd : g.role d = .dir)
    (hn : n ≤ 1024) (h8 : 8 ≤ i) (hi : i < g.len d)
    (hr : StopResult m d n i m' va) (hbad : BadSpill m d n i) : ¬ ExactPages m m' d n (va / 4096) := by
  intro hx
  obtain ⟨hl, hother⟩ := hr.layout h hd hn h8 hi
  cases hr with
  | fit j hj hw hfirst => exact hbad.1.1 ⟨j, hj, hw⟩
  | absent hsp ha =>
    -- No page of the area is taken for the table of the page without an entry.
    obtain ⟨hlt, -, hno⟩ := hbad.no_entry ha
    generalize Xinu.setValid (Xinu.setValid m _ _) _ _ = m₁ at hx hl hother
    obtain ⟨f, hf⟩ : ∃ f, PageFree m f ∧ ¬ PageFree m₁ f := by
      refine ⟨_, (hx.taken _).mpr ⟨freeTail m d i, hlt, rfl, ?_⟩⟩
      rw [Nat.mul_div_cancel _ (by decide)]
      exact hno
    obtain ⟨hfree, hused⟩ := hf
    by_cases hout : g.role f = .outside
    · -- Outside the area nothing changes.
      refine hused ?_
      unfold PageFree at hfree ⊢
      rwa [hother _ fun ho => ?_]
      · have hheap := h.heap_of_own hd ho
        rw [PageMap.Heap, Nat.mul_div_cancel _ (by decide), hout] at hheap
        exact hheap.elim
    · exact hused ((hl.pageFree_iff hout).mpr ((h.pageFree_iff hout).mp hfree))
  | present hsp hp =>
    -- Of the marked pages one was valid before, so that fewer than `n` become valid.
    obtain ⟨k, hk, hvalid⟩ := hbad.valid_page h hd hn hp
    have hm := marks_present h hd hn h8 hi hsp hp
    have hlt : i * 1024 + (1024 - freeTail m d i) + k < 1024 * 1024 := by
      have := hvalid.1.1
      omega
    have hcount := hx.count
    rw [countEntries_eq _ _ _ _ (Nat.zero_le _), countEntries_eq _ _ _ _ (Nat.zero_le _)] at hcount
    simp only [Nat.zero_mul, Nat.zero_le, true_and] at hcount
    refine absurd hcount (Nat.ne_of_lt ?_)
    exact count_interval_lt (Nat.le_add_right _ k) (by omega) hlt hvalid fun vp => (hm.valid_iff h hd vp).mp

end

/-! ## Fresh tables -/

section

variable {m m' : Mem} {g : PageMap} (h : Layout m g) {d s need frames : ℕ} (hd : g.role d = .dir)

include h hd

omit h in
/-- The other entries of the directory stay as they are. -/
theorem FreshTables.pde_eq (hlen : g.len d + need ≤ 1024)
    (hfree : ∀ k < need, g.role (PT_FRAME + s + k) = .free)
    (hm : FreshTables m m' d (g.len d) (PT_FRAME + s) need frames) {i : ℕ} (hi : i < 1024)
    (hlt : i < g.len d ∨ g.len d + need ≤ i) : m' (d * 1024 + i) = m (d * 1024 + i) := by
  refine hm.other _ (fun k hk => by omega) ?_
  by_contra hc
  have := hfree (d - (PT_FRAME + s)) (by omega)
  rw [Nat.add_sub_cancel' (by omega), hd] at this
  cases this

/-- The tables that there were, and the system pages, stay as they are. -/
theorem FreshTables.heap_eq (hlen : g.len d + need ≤ 1024)
    (hfree : ∀ k < need, g.role (PT_FRAME + s + k) = .free)
    (hm : FreshTables m m' d (g.len d) (PT_FRAME + s) need frames) {w : ℕ}
    (hw : g.Heap w ∨ w < (PT_FRAME + 26) * 1024) : m' w = m w := by
  refine hm.other w (fun k hk he => ?_) ?_
  · rcases hw with hw | hw
    · rw [he] at hw
      exact pde_not_heap hd (by omega) hw
    · have := h.dir_bounds hd
      omega
  · by_contra hc
    have hr := hfree (w / 1024 - (PT_FRAME + s)) (by omega)
    rw [show PT_FRAME + s + (w / 1024 - (PT_FRAME + s)) = w / 1024 by omega] at hr
    rcases hw with hw | hw
    · rw [PageMap.Heap, hr] at hw
      exact hw
    · have := h.free_bounds hr
      omega

/-- A page of a table that there was keeps its entry, and the entry its value. -/
theorem FreshTables.old (hlen : g.len d + need ≤ 1024) (hfree : ∀ k < need, g.role (PT_FRAME + s + k) = .free)
    (hm : FreshTables m m' d (g.len d) (PT_FRAME + s) need frames) {vp : ℕ} (hlt : vp < g.len d * 1024) :
    pteWord m' d vp = pteWord m d vp ∧ m' (pteWord m d vp) = m (pteWord m d vp) := by
  have hcell := hm.pde_eq hd hlen hfree (i := vp / 1024) (by omega) (.inl (by omega))
  refine ⟨by rw [pteWord, hcell, pteWord], ?_⟩
  rcases Nat.lt_or_ge vp 8192 with hx | hx
  · refine hm.heap_eq h hd hlen hfree (.inr ?_)
    rw [h.pteWord_xinu hd hx]
    omega
  · exact hm.heap_eq h hd hlen hfree (.inl (h.heap_pteWord hd hx hlt))

/-- The pages that have an entry are those of the old tables and of the new ones. -/
theorem FreshTables.hasPte_iff (hlen : g.len d + need ≤ 1024)
    (hfree : ∀ k < need, g.role (PT_FRAME + s + k) = .free)
    (hm : FreshTables m m' d (g.len d) (PT_FRAME + s) need frames) (vp : ℕ) :
    HasPte m' d vp ↔ vp < (g.len d + need) * 1024 := by
  rcases Nat.lt_or_ge vp (g.len d * 1024) with hlt | hge
  · have hold := (h.hasPte_iff hd vp).mpr hlt
    unfold HasPte at hold ⊢
    rw [hm.pde_eq hd hlen hfree hold.1 (.inl (by omega))]
    exact iff_of_true hold (lt_of_lt_of_le hlt (Nat.mul_le_mul_right _ (Nat.le_add_right _ _)))
  · obtain ⟨k, rfl⟩ : ∃ k, vp = g.len d * 1024 + k := ⟨vp - g.len d * 1024, by omega⟩
    rcases Nat.lt_or_ge k (need * 1024) with hk | hk
    · have hp := hm.hasPte hlen hk
      exact ⟨fun _ => by omega, fun _ => hp⟩
    · refine iff_of_false ?_ (by rw [add_mul]; omega)
      rintro ⟨hlt, hp⟩
      rw [hm.pde_eq hd hlen hfree hlt (.inr (by omega))] at hp
      have := ((h.dir d hd).pres_iff _ hlt).mp hp
      omega

/-- The pages of the request become valid, and the others stay as they are. -/
theorem FreshTables.valid_iff (hneed : 1 ≤ need) (hf : frames ≤ 1024) (hs : s + need ≤ 1024)
    (hlen : g.len d + need ≤ 1024) (hfree : ∀ k < need, g.role (PT_FRAME + s + k) = .free)
    (hm : FreshTables m m' d (g.len d) (PT_FRAME + s) need frames) (vp : ℕ) :
    -- The request takes `need` tables, and the last of them is not empty.
    PageValid m' d vp ↔
      PageValid m d vp ∨ g.len d * 1024 ≤ vp ∧ vp < g.len d * 1024 + freshPages need frames := by
  have hnp : freshPages need frames ≤ need * 1024 := by
    unfold freshPages
    split_ifs <;> omega
  obtain ⟨g', hl, hdirs⟩ := hm.layout h hd hf hlen hfree
  rcases Nat.lt_or_ge vp (g.len d * 1024) with hlt | hge
  · -- A page of a table that was there.
    obtain ⟨hword, hval⟩ := hm.old h hd hlen hfree hlt
    unfold PageValid
    rw [hm.hasPte_iff h hd hlen hfree, h.hasPte_iff hd, hword, hval]
    refine Iff.trans ?_ (or_iff_left fun hc => absurd hc.1 (by omega)).symm
    exact and_congr_left fun _ =>
      ⟨fun _ => hlt, fun _ => lt_of_lt_of_le hlt (Nat.mul_le_mul_right _ (Nat.le_add_right _ _))⟩
  · have hold : ¬ PageValid m d vp := fun hv => absurd ((h.hasPte_iff hd vp).mp hv.1) (by omega)
    obtain ⟨k, rfl⟩ : ∃ k, vp = g.len d * 1024 + k := ⟨vp - g.len d * 1024, by omega⟩
    rcases Nat.lt_or_ge k (need * 1024) with hk | hk
    · -- A page of the new tables.
      rw [hl.valid_iff ((hdirs d).mpr hd), hm.alloc_iff hs hlen hneed hk]
      constructor
      · exact fun hlt => .inr ⟨by omega, by omega⟩
      · rintro (hv | hr)
        · exact absurd hv hold
        · omega
    · -- A page behind them.
      refine iff_of_false (fun hv => ?_) ?_
      · have := (hm.hasPte_iff h hd hlen hfree _).mp hv.1
        omega
      · rintro (hv | hr)
        · exact hold hv
        · omega

end

/-- A page of the new tables was in no table before. -/
theorem FreshTables.exact {m m' : Mem} {g : PageMap} (h : Layout m g) {d s need frames : ℕ}
    (hd : g.role d = .dir) (hneed : 1 ≤ need) (hf : frames ≤ 1024) (hs : s + need ≤ 1024)
    (hlen : g.len d + need ≤ 1024) (hfree : ∀ k < need, g.role (PT_FRAME + s + k) = .free)
    (hm : FreshTables m m' d (g.len d) (PT_FRAME + s) need frames) :
    ExactPages m m' d (freshPages need frames) (g.len d * 1024) := by
  have hiff := hm.valid_iff h hd hneed hf hs hlen hfree
  have h8 := (h.dir d hd).len_ge
  have hdb := h.dir_bounds hd
  have hnp : freshPages need frames ≤ need * 1024 := by
    unfold freshPages
    split_ifs <;> omega
  have hdf : ∀ k < need, d ≠ PT_FRAME + s + k := fun k hk he => by
    have := hfree k hk
    rw [← he, hd] at this
    cases this
  refine ⟨count_add hiff fun k hk hv => absurd ((h.hasPte_iff hd _).mp hv.1) (by omega), fun w hw => ?_,
    fun f => ?_, fun f hf => ?_⟩
  · by_cases hp : ∃ k < need, w = d * 1024 + (g.len d + k)
    · obtain ⟨k, hk, rfl⟩ := hp
      refine .inr ⟨g.len d + k, by omega, rfl, ?_, ?_⟩
      · have := mt ((h.dir d hd).pres_iff (g.len d + k) (by omega)).mp (by omega)
        simpa using this
      · rw [hm.pde k hk]
        rfl
    · have hnew : PT_FRAME + s ≤ w / 1024 ∧ w / 1024 < PT_FRAME + s + need := by
        by_contra hc
        refine hw ?_
        rw [hm.other w (fun k hk he => hp ⟨k, hk, he⟩) (by omega)]
      -- A word of a new table was cleared, so its page is one of those returned.
      obtain ⟨k, hk⟩ : ∃ k, w / 1024 = PT_FRAME + s + k := ⟨w / 1024 - (PT_FRAME + s), by omega⟩
      have hwk : w = (PT_FRAME + s + k) * 1024 + w % 1024 := by omega
      have hmod : w % 1024 < 1024 := Nat.mod_lt w (Nat.succ_pos 1023)
      have hzero : m w = Entry.zero := by
        rw [hwk]
        exact h.free _ (hfree k (by omega)) _ hmod
      have hlast : ¬ (frames > 0 ∧ k + 1 = need ∧ frames ≤ w % 1024) := by
        intro hc
        refine hw ?_
        rw [hzero, hwk, hm.pte k (by omega) _ hmod, if_pos hc]
        rfl
      have hdiv : (k * 1024 + w % 1024) / 1024 = k := by omega
      have hmod' : (k * 1024 + w % 1024) % 1024 = w % 1024 := by omega
      have hj : k * 1024 + w % 1024 < freshPages need frames := by
        unfold freshPages
        split_ifs <;> omega
      refine .inl ⟨k * 1024 + w % 1024, hj, ?_⟩
      rw [hm.pteWord_eq hs (by omega), hdiv, hmod']
      exact hwk
  · constructor
    · rintro ⟨hf, hf'⟩
      have hnew : PT_FRAME + s ≤ f ∧ f < PT_FRAME + s + need := by
        by_contra hc
        refine hf' ?_
        unfold PageFree at hf ⊢
        simp only [MAX_PT_SIZE] at hf ⊢
        rwa [hm.other (f * 1024) (fun k hk => by omega) (by omega)]
      obtain ⟨k, rfl⟩ : ∃ k, f = PT_FRAME + s + k := ⟨f - (PT_FRAME + s), by omega⟩
      have hkn : k * 1024 < freshPages need frames := by
        unfold freshPages
        split_ifs <;> omega
      refine ⟨k * 1024, hkn, ?_, fun hp => absurd ((h.hasPte_iff hd _).mp hp) (by omega)⟩
      rw [tableOf, show (g.len d * 1024 + k * 1024) / 1024 = g.len d + k by omega, hm.pde k (by omega),
        pdeTable, base_frame (by omega)]
    · rintro ⟨k, hk, rfl, -⟩
      rw [show (g.len d * 1024 + k) / 1024 = g.len d + k / 1024 by omega, tableOf,
        hm.pde _ (by omega), pdeTable, base_frame (by omega)]
      refine ⟨h.free_avail (hfree (k / 1024) (by omega)), fun hf => ?_⟩
      have hcell := hm.pte (k / 1024) (by omega) 0 (by decide)
      rw [add_zero] at hcell
      unfold PageFree at hf
      simp only [MAX_PT_SIZE] at hf
      rw [hcell] at hf
      split_ifs at hf <;> exact absurd hf (by decide)
  · by_cases hnew : PT_FRAME + s ≤ f ∧ f < PT_FRAME + s + need
    · obtain ⟨k, rfl⟩ : ∃ k, f = PT_FRAME + s + k := ⟨f - (PT_FRAME + s), by omega⟩
      exact h.free_avail (hfree k (by omega))
    · unfold PageFree at hf ⊢
      simp only [MAX_PT_SIZE] at hf ⊢
      rwa [hm.other (f * 1024) (fun k hk => by omega) (by omega)] at hf

/-- The pages of fresh tables in directory entries that were absent are sound. -/
theorem sound_of_fresh {m₀ m m' : Mem} {g : PageMap} (h : Layout m₀ g) {d n i s need frames : ℕ}
    (hd : g.role d = .dir) (hneed : 1 ≤ need) (hi : i + need ≤ 1024) (hs : s + need ≤ 1024)
    (habs : (m₀ (d * 1024 + i)).pres = false) (hm : FreshTables m m' d i (PT_FRAME + s) need frames)
    (hn : n ≤ freshPages need frames) (hnp : n ≤ need * 1024) : VmallocSound m₀ m' d n (i * 1024 * 4096) := by
  have hge : g.len d ≤ i := by
    by_contra hlt
    rw [((h.dir d hd).pres_iff i (by omega)).mpr (by omega)] at habs
    cases habs
  refine ⟨Nat.mul_mod_left _ _, fun k hk hv => ?_, fun k hk => ?_⟩ <;>
    rw [Nat.mul_div_cancel _ (by decide)] at *
  · have := (h.hasPte_iff hd _).mp hv.1
    omega
  · exact (hm.alloc_iff hs hi hneed (by omega)).mpr (by omega)

/-! ## The call -/

/-- The number of pages that a request of `nbytes` asks for. -/
def requestPages (nbytes : ℕ) : ℕ := if nbytes / PAGE_SIZE < 1 then 1 else nbytes / PAGE_SIZE

/-- A request of whole pages. -/
theorem requestPages_mul {n : ℕ} (h1 : 1 ≤ n) : requestPages (n * 4096) = n := by
  unfold requestPages
  simp only [PAGE_SIZE]
  rw [Nat.mul_div_cancel _ (by decide), if_neg (by omega)]

/-- The present tables have no place for the request. -/
def NoPlace (m : Mem) (d n : ℕ) : Prop :=
  (n < 1024 → ∀ j, 8 ≤ j → j < presentEntries m d → ¬ Stops m d n j) ∧
    (n = 1024 → presentEntries m d = 8)

/-- How a safe call of `vmalloc` for `n` pages ends. -/
inductive SafeResult (c : Cpu) (g : PageMap) (d n : ℕ) : Option ℕ → Cpu → Prop where
  /-- The walk ends at table `i`. -/
  | stop (i : ℕ) (m' : Mem) (va : ℕ) (hi : i < g.len d) (hn : n < 1024 ∨ n = 1024 ∧ i = 8)
    (hs : FirstStop c.mem d n i) (hr : StopResult c.mem d n i m' va) :
    SafeResult c g d n (some va) (c.withMem m')
  /-- The request gets fresh tables at the first absent entry. -/
  | fresh (s frames : ℕ) (m' : Mem) (hf : frames < 1024) (hplace : NoPlace c.mem d n)
    (hn : n = freshPages (tablesFor n) frames) (hs : s + tablesFor n ≤ 1024)
    (hlen : g.len d + tablesFor n ≤ 1024) (hfree : ∀ k < tablesFor n, g.role (PT_FRAME + s + k) = .free)
    (hm : FreshTables c.mem m' d (g.len d) (PT_FRAME + s) (tablesFor n) frames) :
    SafeResult c g d n (some (g.len d * 1024 * 4096)) (c.withMem m')
  /-- The area has no run of free pages for the tables. -/
  | noRun (hplace : NoPlace c.mem d n) (hlen : g.len d < 1024)
    (hroom : n < 1024 ∨ g.len d + tablesFor n < 1024) (hrun : NoFreeRun c.mem (tablesFor n)) :
    SafeResult c g d n none { c with ie := false }
  /-- The directory has no room for the tables. -/
  | full (hplace : NoPlace c.mem d n)
    (hlen : g.len d = 1024 ∨ 1024 ≤ n ∧ 1024 ≤ g.len d + tablesFor n) : SafeResult c g d n none c

section

variable {c : Cpu} {g : PageMap} {d : ℕ} (h : Layout c.mem g) (hd : g.role d = .dir)

include h hd

/-- The end of the loop at the first absent entry is one of the last three results. -/
theorem loopEnd_result {n q frames : ℕ} (h1 : 1 ≤ n) (hn : n = frames + q * 1024) (hf : frames < 1024)
    (hplace : NoPlace c.mem d n) :
    ∃ res c', loopEnd c.cr3 d q frames (c.writeCr3 (c.cr3At PAGE_DIR_ADDR_START)) (g.len d) =
      .ok (res, c') ∧ SafeResult c g d n res c' := by
  have hle := (h.dir d hd).len_le
  -- The tables of the request, and the pages that they hold.
  have hneed : tablesFor n = q + if frames > 0 then 1 else 0 := by
    unfold tablesFor
    split_ifs <;> omega
  have hfresh : n = freshPages (tablesFor n) frames := by
    unfold freshPages
    rw [hneed]
    split_ifs with hpos
    · rw [Nat.add_sub_cancel]
      omega
    · omega
  -- The directory itself is not a free page.
  have hdfree : ¬ PageFree c.mem d := by
    intro hfr
    have hb := h.dir_bounds hd
    rw [h.pageFree_iff (by rw [hd]; decide), hd] at hfr
    cases hfr
  unfold loopEnd
  -- The directory is full, there is no room behind it, or tables are made.
  by_cases hlen : g.len d = 1024
  · rw [if_pos hlen]
    exact ⟨none, c, rfl, .full hplace (.inl hlen)⟩
  · rw [if_neg hlen]
    by_cases hroom : q = 0 ∨ g.len d + q + (if frames > 0 then 1 else 0) < 1024
    · rw [if_pos hroom]
      have hroom' : n < 1024 ∨ g.len d + tablesFor n < 1024 := by
        rcases hroom with rfl | hlt
        · exact .inl (by omega)
        · exact .inr (by rw [hneed]; omega)
      have hlen' : g.len d + tablesFor n ≤ 1024 := by
        unfold tablesFor at *
        omega
      rcases freshTables_spec c.cr3 (c.writeCr3 (c.cr3At PAGE_DIR_ADDR_START)) hneed
          (by unfold tablesFor; omega) hf.le hlen' hdfree with ⟨s, m', hs, hw, hm, he⟩ | ⟨hrun, he⟩
      · refine ⟨_, _, he, .fresh s frames m' hf hplace hfresh hs hlen' (fun k hk => ?_) hm⟩
        have := hw k hk
        rw [add_assoc]
        exact (h.pageFree_iff (h.role_page_ne_outside (by omega))).mp this
      · exact ⟨_, _, he, .noRun hplace (by omega) hroom' hrun⟩
    · rw [if_neg hroom]
      refine ⟨none, c, rfl, .full hplace (.inr ⟨by omega, ?_⟩)⟩
      rw [hneed]
      omega

/-- A safe call of `vmalloc`, with enough fuel, ends with one of the four results. -/
theorem vmalloc_safe {nbytes n : ℕ} (hn : n = requestPages nbytes) (hs : VmallocSafe c.mem d n)
    (fuel junk : ℕ) :
    (vmalloc fuel c (d * 4096) nbytes junk = .hang ∧ fuel < 4096) ∨
    ∃ res c', vmalloc fuel c (d * 4096) nbytes junk = .ok (res, c') ∧ SafeResult c g d n res c' := by
  have hle := (h.dir d hd).len_le
  have h8 := (h.dir d hd).len_ge
  have hpres := h.presentEntries_eq hd
  have h1 : 1 ≤ n := by
    rw [hn, requestPages]
    split_ifs <;> omega
  -- The request in tables and entries of a table.
  have hq : n - n / 1024 * 1024 < 1024 := by omega
  have hsum : n = n - n / 1024 * 1024 + n / 1024 * 1024 := by omega
  have htables : n / 1024 + (if n - n / 1024 * 1024 > 0 then 1 else 0) = tablesFor n := by
    unfold tablesFor
    split_ifs <;> omega
  unfold vmalloc
  rw [← requestPages, ← hn, show d * 4096 / 4 = d * 1024 by omega]
  dsimp only [MAX_PT_SIZE]
  rw [htables]
  by_cases hroom : tablesFor n < 1024
  · rw [if_pos hroom]
    rcases hs with hlt | ⟨heq, hone⟩ | ⟨hgt, hmany⟩
    · -- Less than one table.
      have hq0 : n / 1024 = 0 := by omega
      have hfr : n - n / 1024 * 1024 = n := by omega
      rw [hfr, hq0]
      rcases vmallocLoop_small (c := c.writeCr3 (c.cr3At PAGE_DIR_ADDR_START)) (u := c.cr3) h hd h1 hlt fuel 8
          junk (le_refl 8) h8 (fun j h₁ h₂ => absurd h₂ (by omega)) with
        ⟨hh, hfu⟩ | ⟨i, m', va, hi, hfs, hr, he⟩ | ⟨hno, he⟩
      · exact .inl ⟨hh, by omega⟩
      · exact .inr ⟨_, _, he, .stop i m' va hi (.inl hlt) hfs hr⟩
      · rw [he]
        exact .inr (loopEnd_result h hd h1 (q := 0) (by omega) hlt
          ⟨fun _ j h₁ h₂ => hno j h₁ (by omega), fun he => by omega⟩)
    · -- Exactly one table.
      have hq1 : n / 1024 = 1 := by omega
      have hfr : n - n / 1024 * 1024 = 0 := by omega
      rw [hfr, hq1]
      cases fuel with
      | zero => exact .inl ⟨rfl, by omega⟩
      | succ fuel =>
        rcases Nat.lt_or_ge 8 (g.len d) with hlt | hge
        · have hst : Stops c.mem d n 8 := hone.resolve_left (by omega)
          rcases vmallocLoop_present (c := c.writeCr3 (c.cr3At PAGE_DIR_ADDR_START)) (u := c.cr3) h hd fuel
              junk h1 heq.le (.inr ⟨rfl, rfl, heq⟩) (le_refl 8) hlt with
            ⟨-, m', va, hr, he⟩ | ⟨hns, -⟩
          · refine .inr ⟨_, _, he, .stop 8 m' va hlt (.inr ⟨heq, rfl⟩)
              ⟨le_refl 8, by decide, ?_, hst, fun j h₁ h₂ => absurd h₂ (by omega)⟩ hr⟩
            exact ((h.dir d hd).pres_iff 8 (by decide)).mpr hlt
          · exact absurd hst hns
        · have hlen : g.len d = 8 := by omega
          have he := vmallocLoop_end (c := c.writeCr3 (c.cr3At PAGE_DIR_ADDR_START)) (u := c.cr3) h hd 1 0
            fuel junk
          rw [hlen] at he
          rw [he, ← hlen]
          exact .inr (loopEnd_result h hd h1 (q := 1) (by omega) (by decide)
            ⟨fun hlt => by omega, fun _ => by omega⟩)
    · -- More than one table.
      have hmiss : ManyMiss c.mem d n := hmany.resolve_left (by omega)
      have h32 : n < 2 ^ 32 := by
        unfold tablesFor at hroom
        omega
      rcases vmallocLoop_many (c := c.writeCr3 (c.cr3At PAGE_DIR_ADDR_START))
          (u := c.cr3) h hd hsum hq hgt h32
          hmiss fuel 8 junk (le_refl 8) h8 (.inl rfl) with ⟨hh, hfu⟩ | he
      · exact .inl ⟨hh, by omega⟩
      · rw [he]
        exact .inr (loopEnd_result h hd h1 hsum hq ⟨fun hlt => by omega, fun he => by omega⟩)
  · -- The request is larger than the address space.
    rw [if_neg hroom]
    refine .inr ⟨none, c, rfl, .full ⟨fun hlt => ?_, fun he => ?_⟩ (.inr ⟨?_, by omega⟩)⟩
    all_goals
      unfold tablesFor at hroom
      omega

end

namespace SafeResult

variable {c c' : Cpu} {g : PageMap} {d n : ℕ} {res : Option ℕ}

/-- A safe call keeps the layout and the directories. It changes entries of the caller's heap,
entries of its directory that were absent, and free pages. -/
theorem layout (h : Layout c.mem g) (hd : g.role d = .dir) (hr : SafeResult c g d n res c') :
    (∃ g', Layout c'.mem g' ∧ ∀ x, g'.role x = .dir ↔ g.role x = .dir) ∧
      ∀ w, c'.mem w ≠ c.mem w → OwnWord c.mem d w ∨
        (∃ i, 8 ≤ i ∧ i < 1024 ∧ w = d * 1024 + i ∧ (c.mem w).pres = false) ∨ PageFree c.mem (w / 1024) := by
  have h8 := (h.dir d hd).len_ge
  cases hr with
  | stop i m' va hi hn hs hr =>
    obtain ⟨hl, hsame⟩ := hr.layout h hd (by omega) hs.1 hi
    exact ⟨⟨g, hl, fun _ => Iff.rfl⟩, fun w hw => .inl (not_not.mp fun ho => hw (hsame w ho))⟩
  | fresh s frames m' hf hplace hn hs hlen hfree hm =>
    refine ⟨hm.layout h hd hf.le hlen hfree, fun w hw => .inr ?_⟩
    by_cases hp : ∃ k < tablesFor n, w = d * 1024 + (g.len d + k)
    · obtain ⟨k, hk, rfl⟩ := hp
      refine .inl ⟨g.len d + k, by omega, by omega, rfl, ?_⟩
      have := mt ((h.dir d hd).pres_iff (g.len d + k) (by omega)).mp (by omega)
      simpa using this
    · refine .inr ?_
      have hnew : PT_FRAME + s ≤ w / 1024 ∧ w / 1024 < PT_FRAME + s + tablesFor n := by
        by_contra hc
        exact hw (hm.other w (fun k hk he => hp ⟨k, hk, he⟩) (by omega))
      have := hfree (w / 1024 - (PT_FRAME + s)) (by omega)
      rw [Nat.add_sub_cancel' hnew.1] at this
      exact h.free_avail this
  | noRun hplace hlen hroom hrun => exact ⟨⟨g, h, fun _ => Iff.rfl⟩, fun w hw => absurd rfl hw⟩
  | full hplace hlen => exact ⟨⟨g, h, fun _ => Iff.rfl⟩, fun w hw => absurd rfl hw⟩

/-- Without a bad spill the returned address is sound, and the call is exact. -/
theorem clean (h : Layout c.mem g) (hd : g.role d = .dir) (h1 : 1 ≤ n) (hok : SoundOk c.mem d n)
    (hr : SafeResult c g d n res c') :
    (∀ va, res = some va → VmallocSound c.mem c'.mem d n va) ∧ VmallocExact c.mem c'.mem d n res := by
  cases hr with
  | stop i m' va hi hn hs hr =>
    obtain ⟨ha, hm, hfree⟩ := hr.marks h hd (by omega) hs.1 hi (hok i hs hn)
    refine ⟨fun va' he => ?_, hm.exact h hd hfree⟩
    injection he with he
    subst he
    exact ⟨ha, hfree, fun k hk => hm.alloc h hd hk⟩
  | fresh s frames m' hf hplace hn hs hlen hfree hm =>
    have hneed : 1 ≤ tablesFor n := by
      unfold tablesFor
      omega
    have habs : (c.mem (d * 1024 + g.len d)).pres = false := by
      have := mt ((h.dir d hd).pres_iff (g.len d) (by omega)).mp (lt_irrefl _)
      simpa using this
    refine ⟨fun va' he => ?_, ?_⟩
    · injection he with he
      subst he
      exact sound_of_fresh h hd hneed hlen hs habs hm hn.le (by unfold tablesFor; omega)
    · have := hm.exact h hd hneed hf.le hs hlen hfree
      rw [← hn] at this
      change ExactPages c.mem m' d n (g.len d * 1024 * 4096 / 4096)
      rwa [Nat.mul_div_cancel _ (by decide)]
  | noRun hplace hlen hroom hrun => exact ⟨fun va he => (by cases he), rfl⟩
  | full hplace hlen => exact ⟨fun va he => (by cases he), rfl⟩

/-- If the walk stops at an entry, there is a place for the request. -/
theorem not_fresh_of_stop (h : Layout c.mem g) (hd : g.role d = .dir) {i : ℕ} (hs : FirstStop c.mem d n i)
    (hn : n < 1024 ∨ n = 1024 ∧ i = 8) : ¬ NoPlace c.mem d n := by
  rintro ⟨h₁, h₂⟩
  have hi : i < g.len d := ((h.dir d hd).pres_iff i hs.2.1).mp hs.2.2.1
  rw [h.presentEntries_eq hd] at h₁ h₂
  rcases hn with hlt | ⟨heq, rfl⟩
  · exact h₁ hlt i hs.1 hi hs.2.2.2.1
  · have := h₂ heq
    omega

end SafeResult

/-- An address that the loop returns for more than one table is sound. -/
theorem sound_of_loop {c c₁ c' : Cpu} {g : PageMap} (h : Layout c.mem g)
    {d n q frames fuel i counter va u : ℕ}
    (hd : g.role d = .dir) (hq : 1 ≤ q) (hf : frames ≤ 1024)
    (hne : ¬ (q = 1 ∧ frames = 0)) (hn : n ≤ freshPages (q + if frames > 0 then 1 else 0) frames)
    (he : vmallocLoop u (d * 1024) q fuel c₁ i frames counter = .ok (some va, c'))
    (hmem : c₁.mem = c.mem) : VmallocSound c.mem c'.mem d n va := by
  have hkeep : KeepsDir c.mem c₁.mem d := by
    rw [hmem]
    refine ⟨fun hfr => ?_, fun _ _ hp => hp⟩
    rw [h.pageFree_iff (by rw [hd]; decide), hd] at hfr
    cases hfr
  obtain ⟨i₀, s, m, need, rfl, rfl, hi, hs, habs, hm⟩ :=
    vmallocLoop_sound hq fuel c₁ i frames counter va c' hkeep hf hne he
  refine sound_of_fresh h hd (by omega) hi hs habs hm hn (hn.trans ?_)
  unfold freshPages
  split_ifs <;> omega

/-- The walk of a request of at most one table comes to the first table at which it ends. -/
theorem reached_stop {c : Cpu} {g : PageMap} (h : Layout c.mem g) {d n i : ℕ} (hd : g.role d = .dir)
    (h1 : 1 ≤ n) (hs : FirstStop c.mem d n i) (hn : n < 1024 ∨ n = 1024 ∧ i = 8) :
    ∃ va c' m', i < g.len d ∧ vmalloc 4096 c (d * 4096) (n * 4096) 0 = .ok (some va, c') ∧
      StopResult c.mem d n i m' va ∧ c'.mem = m' := by
  have hi : i < g.len d := ((h.dir d hd).pres_iff i hs.2.1).mp hs.2.2.1
  have hsafe : VmallocSafe c.mem d n := by
    rcases hn with hlt | ⟨heq, rfl⟩
    · exact .inl hlt
    · exact .inr (.inl ⟨heq, .inr hs.2.2.2.1⟩)
  have hplace := SafeResult.not_fresh_of_stop h hd hs hn
  rcases vmalloc_safe h hd (requestPages_mul h1).symm hsafe 4096 0 with ⟨-, hfu⟩ | ⟨res, c', he, hr⟩
  · exact absurd hfu (lt_irrefl _)
  · cases hr with
    | stop i' m' va hi' hn' hs' hr =>
      have hii : i' = i := by
        rcases Nat.lt_trichotomy i' i with hlt | heq | hgt
        · exact absurd hs'.2.2.2.1 (hs.2.2.2.2 i' hs'.1 hlt)
        · exact heq
        · exact absurd hs.2.2.2.1 (hs'.2.2.2.2 i hs.1 hgt)
      subst hii
      exact ⟨va, _, m', hi, he, hr, rfl⟩
    | fresh s frames m' hf hp hn' hs' hlen hfree hm => exact absurd hp hplace
    | noRun hp hlen hroom hrun => exact absurd hp hplace
    | full hp hlen => exact absurd hp hplace

/-- **Soundness of `vmalloc`.** An address that `vmalloc` returns is sound exactly under `SoundOk`. -/
theorem vmalloc_sound_iff {c : Cpu} {g : PageMap} (h : Layout c.mem g) {d n : ℕ} (hd : g.role d = .dir)
    (h1 : 1 ≤ n) :
    -- The size in pages is the request, since it is a multiple of the page size.
    (∀ fuel junk va c', vmalloc fuel c (d * 4096) (n * 4096) junk = .ok (some va, c') →
      VmallocSound c.mem c'.mem d n va) ↔ SoundOk c.mem d n := by
  have hreq : n = requestPages (n * 4096) := (requestPages_mul h1).symm
  constructor
  · -- A bad spill is reached, and the address it returns is not sound.
    intro hsound i hs hn hbad
    obtain ⟨va, c', m', -, he, hr, hm⟩ := reached_stop h hd h1 hs hn
    have hx := hsound 4096 0 va c' he
    rw [hm] at hx
    exact hr.unsound h hd (by omega) hbad hx
  · intro hok fuel junk va c' he
    by_cases hsafe : VmallocSafe c.mem d n
    · rcases vmalloc_safe h hd hreq hsafe fuel junk with ⟨hh, -⟩ | ⟨res, c'', he', hr⟩
      · rw [hh] at he
        cases he
      · rw [he] at he'
        injection he' with he'
        injection he' with hres hc
        subst hres hc
        exact (hr.clean h hd h1 hok).1 va rfl
    · -- The request goes to the search over many tables, and the address is that of fresh tables.
      have hge : 1024 ≤ n := by
        by_contra hlt
        exact hsafe (.inl (by omega))
      have hroom : tablesFor n < 1024 := by
        by_contra hbig
        unfold tablesFor at hbig
        exact hsafe (.inr (.inr ⟨by omega, .inl (by unfold tablesFor; omega)⟩))
      have htables : n / 1024 + (if n - n / 1024 * 1024 > 0 then 1 else 0) = tablesFor n := by
        unfold tablesFor
        split_ifs <;> omega
      unfold vmalloc at he
      rw [← requestPages, ← hreq, show d * 4096 / 4 = d * 1024 by omega] at he
      dsimp only [MAX_PT_SIZE] at he
      rw [htables, if_pos hroom] at he
      by_cases heq : n = 1024
      · -- After table 8 the loop takes the request for one of two tables.
        have hq1 : n / 1024 = 1 := by omega
        have hfr : n - n / 1024 * 1024 = 0 := by omega
        rw [hfr, hq1] at he
        have hlen : 8 < g.len d := by
          have := (h.dir d hd).len_ge
          by_contra hle
          exact hsafe (.inr (.inl ⟨heq, .inl (by rw [h.presentEntries_eq hd]; omega)⟩))
        cases fuel with
        | zero => cases he
        | succ fuel =>
          rcases vmallocLoop_present (c := c.writeCr3 (c.cr3At PAGE_DIR_ADDR_START)) (u := c.cr3) h hd fuel
              junk h1 heq.le (.inr ⟨rfl, rfl, heq⟩) (le_refl 8) hlen with ⟨hst, -⟩ | ⟨-, k, hnext⟩
          · exact absurd (.inr (.inl ⟨heq, .inr hst⟩)) hsafe
          · rw [hnext] at he
            refine sound_of_loop h hd (le_refl 1) heq.le (by omega) ?_ he rfl
            unfold freshPages
            split_ifs <;> omega
      · refine sound_of_loop h hd (by omega) (by omega) (by omega) ?_ he rfl
        rw [htables]
        unfold freshPages tablesFor
        split_ifs <;> omega

/-- **Exactness of `vmalloc`.** A clean call returns, and it is exact. -/
theorem vmalloc_exact {c : Cpu} {g : PageMap} (h : Layout c.mem g) {d n : ℕ} (hd : g.role d = .dir)
    (h1 : 1 ≤ n) (hclean : VmallocClean c.mem d n) (junk : ℕ) :
    (∃ fuel res c', vmalloc fuel c (d * 4096) (n * 4096) junk = .ok (res, c')) ∧
      ∀ fuel res c', vmalloc fuel c (d * 4096) (n * 4096) junk = .ok (res, c') →
        VmallocExact c.mem c'.mem d n res := by
  have hreq : n = requestPages (n * 4096) := (requestPages_mul h1).symm
  constructor
  · rcases vmalloc_safe h hd hreq hclean.1 4096 junk with ⟨-, hfu⟩ | ⟨res, c', he, -⟩
    · exact absurd hfu (lt_irrefl _)
    · exact ⟨4096, res, c', he⟩
  · intro fuel res c' he
    rcases vmalloc_safe h hd hreq hclean.1 fuel junk with ⟨hh, -⟩ | ⟨res', c'', he', hr⟩
    · rw [hh] at he
      cases he
    · rw [he] at he'
      injection he' with he'
      injection he' with hres hc
      subst hres hc
      exact (hr.clean h hd h1 hclean.2).2

/-- A call that is exact does not end with a bad spill. -/
theorem soundOk_of_exact {c : Cpu} {g : PageMap} (h : Layout c.mem g)
    {d n : ℕ} (hd : g.role d = .dir) (h1 : 1 ≤ n)
    (hexact : ∀ fuel junk res c', vmalloc fuel c (d * 4096) (n * 4096) junk = .ok (res, c') →
      VmallocExact c.mem c'.mem d n res) : SoundOk c.mem d n := by
  intro i hs hn hbad
  obtain ⟨va, c', m', hi, he, hr, hm⟩ := reached_stop h hd h1 hs hn
  have hx := hexact 4096 0 _ _ he
  rw [hm] at hx
  exact hr.inexact h hd (by omega) hs.1 hi hbad hx

end Xinu
