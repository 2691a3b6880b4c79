import Xinu.Paging.VmallocSpec

/-!
# First fit

A place for a request is a run of pages of the heap that are not valid, for which the area has pages
enough for the tables that are missing (`Place`). A safe call of `vmalloc` answers with the first
place exactly when its walk sees it (`FitSeen`): no earlier table stops the walk, and the table in
which the place begins does. `Stops` is not quite the question whether a place begins in a table,
because a run over the end of a table is compared by the number of its free entries.
-/

namespace Xinu

open FlatMemory Scan

/-! ## Places -/

/-- The number of free pages of the area. -/
def freePages (m : Mem) : ℕ := Nat.count (fun k => PageFree m (PT_FRAME + k)) 1024

/-- The number of tables that are missing for the `n` pages from `p`. -/
def newTables (m : Mem) (d n p : ℕ) : ℕ :=
  Nat.count (fun i => p / 1024 ≤ i ∧ i ≤ (p + n - 1) / 1024 ∧ (m (d * 1024 + i)).pres = false) 1024

/-- The `n` pages from `p` are pages of the heap that are not valid, and the area has pages for the
tables that they need. -/
structure Place (m : Mem) (d n p : ℕ) : Prop where
  /-- The pages lie in the heap. -/
  heap : 8192 ≤ p
  /-- They lie in the address space. -/
  bound : p + n ≤ 2 ^ 20
  /-- None of them is valid. -/
  invalid : ∀ k < n, ¬ PageValid m d (p + k)
  /-- The area has a free page for each table that is missing. -/
  tables : newTables m d n p ≤ freePages m

/-- The lowest place. -/
def FirstPlace (m : Mem) (d n p : ℕ) : Prop := Place m d n p ∧ ∀ q < p, ¬ Place m d n q

/-- Where there is a place, there is a first one. -/
theorem Place.first {m : Mem} {d n p : ℕ} (h : Place m d n p) : ∃ q, FirstPlace m d n q := by
  classical
  exact ⟨Nat.find ⟨p, h⟩, Nat.find_spec ⟨p, h⟩, fun _ hq => Nat.find_min ⟨p, h⟩ hq⟩

/-- The walk of `vmalloc` sees the first place. A request of more than one table finds fresh tables
only, and these must be next to each other in the area. -/
def FitSeen (m : Mem) (d n : ℕ) : Prop :=
  ∀ p, FirstPlace m d n p →
    (n ≤ 1024 → (∀ j, 8 ≤ j → j < p / 1024 → j < presentEntries m d → ¬ Stops m d n j) ∧
      (p / 1024 < presentEntries m d → Stops m d n (p / 1024))) ∧
    (1024 < n → ¬ NoFreeRun m (tablesFor n))

/-! ## Counting pages -/

/-- The number of indices of an interval. -/
theorem count_interval {a b n : ℕ} (hb : b ≤ n) : Nat.count (fun i => a ≤ i ∧ i < b) n = b - a := by
  have hset : (Finset.range n).filter (fun i => a ≤ i ∧ i < b) = Finset.Ico a b := by
    ext i
    simp only [Finset.mem_filter, Finset.mem_range, Finset.mem_Ico]
    omega
  rw [Nat.count_eq_card_filter_range, hset, Nat.card_Ico]

/-- A run of free pages is a number of free pages. -/
theorem le_freePages {m : Mem} {need s : ℕ} (hs : s + need ≤ 1024)
    (hw : Window (fun k => PageFree m (PT_FRAME + k)) need s) : need ≤ freePages m := by
  have hsub : Finset.Ico s (s + need) ⊆ (Finset.range 1024).filter fun k => PageFree m (PT_FRAME + k) := by
    intro k hk
    obtain ⟨h₁, h₂⟩ := Finset.mem_Ico.mp hk
    refine Finset.mem_filter.mpr ⟨Finset.mem_range.mpr (by omega), ?_⟩
    have := hw (k - s) (by omega)
    rwa [Nat.add_sub_cancel' h₁] at this
  have hcard := Finset.card_le_card hsub
  rwa [Nat.card_Ico, Nat.add_sub_cancel_left, ← Nat.count_eq_card_filter_range] at hcard

/-- Without a run of one page there is no free page. -/
theorem freePages_eq_zero {m : Mem} (h : NoFreeRun m 1) : freePages m = 0 := by
  refine Nat.count_iff_forall_not.mpr fun k hk hf => h k (by omega) fun j hj => ?_
  obtain rfl : j = 0 := by omega
  exact hf

section

variable {m : Mem} {g : PageMap} {d n p : ℕ} (h : Layout m g) (hd : g.role d = .dir)

include h hd

/-- The tables that are missing are those from the first absent entry on. -/
theorem newTables_eq (h1 : 1 ≤ n) (hp : p + n ≤ 2 ^ 20) :
    newTables m d n p = (p + n - 1) / 1024 + 1 - max (g.len d) (p / 1024) := by
  have hle := (h.dir d hd).len_le
  rw [newTables, ← count_interval (show (p + n - 1) / 1024 + 1 ≤ 1024 by omega),
    Nat.count_eq_card_filter_range,
    Nat.count_eq_card_filter_range]
  refine congrArg Finset.card (Finset.filter_congr fun i hi => ?_)
  replace hi : i < 1024 := Finset.mem_range.mp hi
  have hpres := (h.dir d hd).pres_iff i hi
  cases hb : (m (d * 1024 + i)).pres with
  | true =>
    have := hpres.mp hb
    simp only [Bool.true_eq_false, and_false, false_iff]
    omega
  | false =>
    have : ¬ i < g.len d := fun hc => by
      rw [hpres.mpr hc] at hb
      cases hb
    simp only [and_true]
    omega

/-- The system pages, the directory and its tables are not free. -/
theorem freePages_add_len : freePages m + g.len d < 1024 := by
  have h8 := (h.dir d hd).len_ge
  have hle := (h.dir d hd).len_le
  -- The tables of the directory are different pages.
  have htable : ∀ i, 8 ≤ i → i < g.len d →
      PT_FRAME + 26 ≤ tableOf m d i ∧ tableOf m d i < PT_FRAME + 1024 ∧
        g.role (tableOf m d i) = .table d i := by
    intro i h₁ h₂
    have hr := h.table_role hd h₁ h₂
    exact ⟨(h.table_bounds hr).1, (h.table_bounds hr).2, hr⟩
  have hinj : Set.InjOn (fun i => tableOf m d i - PT_FRAME) (Finset.Ico 8 (g.len d)) := by
    intro i hi j hj he
    rw [Finset.mem_coe, Finset.mem_Ico] at hi hj
    obtain ⟨hi₁, -, hir⟩ := htable i hi.1 hi.2
    obtain ⟨hj₁, -, hjr⟩ := htable j hj.1 hj.2
    dsimp only at he
    rw [show tableOf m d i = tableOf m d j by omega, hjr] at hir
    exact (Role.table.inj hir).2.symm
  have hcard : ((Finset.Ico 8 (g.len d)).image fun i => tableOf m d i - PT_FRAME).card = g.len d - 8 := by
    rw [Finset.card_image_of_injOn hinj, Nat.card_Ico]
  have hfree : (Finset.range 1024).filter (fun k => PageFree m (PT_FRAME + k)) ⊆ Finset.Ico 26 1024 \
      (Finset.Ico 8 (g.len d)).image fun i => tableOf m d i - PT_FRAME := by
    intro k hk
    obtain ⟨hk, hf⟩ := Finset.mem_filter.mp hk
    rw [Finset.mem_range] at hk
    have hr := (h.pageFree_iff (h.role_page_ne_outside hk)).mp hf
    have hb := h.free_bounds hr
    refine Finset.mem_sdiff.mpr ⟨Finset.mem_Ico.mpr ⟨by omega, hk⟩, fun hc => ?_⟩
    obtain ⟨i, hi, he⟩ := Finset.mem_image.mp hc
    rw [Finset.mem_Ico] at hi
    obtain ⟨h₁, -, h₂⟩ := htable i hi.1 hi.2
    rw [← he, Nat.add_sub_cancel' (by omega), h₂] at hr
    cases hr
  have hsub : (Finset.Ico 8 (g.len d)).image (fun i => tableOf m d i - PT_FRAME) ⊆ Finset.Ico 26 1024 := by
    intro k hk
    obtain ⟨i, hi, he⟩ := Finset.mem_image.mp hk
    rw [Finset.mem_Ico] at hi
    obtain ⟨h₁, h₂, -⟩ := htable i hi.1 hi.2
    rw [Finset.mem_Ico]
    omega
  have htables := Finset.card_le_card hsub
  rw [hcard, Nat.card_Ico] at htables
  have := Finset.card_le_card hfree
  rw [← Nat.count_eq_card_filter_range, Finset.card_sdiff_of_subset hsub, Nat.card_Ico, hcard] at this
  unfold freePages
  omega

/-! ## Places and tables -/

/-- A page of a present heap table that is not valid is a free entry. -/
theorem free_of_not_valid {i e : ℕ} (hi : i < g.len d) (he : e < 1024) (hv : ¬ PageValid m d (i * 1024 + e)) :
    FreeEntry m d i e := by
  by_contra hf
  refine hv ((h.valid_iff hd _).mpr ⟨(h.hasPte_iff hd _).mpr (by omega), ?_⟩)
  rw [← tableOf_word he]
  exact not_not.mp hf

/-- A page is free, as the walk sees it, when it is not valid. -/
theorem freePage_of_not_valid {vp : ℕ} (hvp : vp < g.len d * 1024) (hv : ¬ PageValid m d vp) :
    FreePage m d vp := by
  have hdm : vp / 1024 * 1024 + vp % 1024 = vp := by omega
  refine free_of_not_valid h hd (by omega) (Nat.mod_lt _ (by decide)) ?_
  rwa [hdm]

/-- A window of free entries of a table is a place. -/
theorem place_of_window {i j : ℕ} (h1 : 1 ≤ n) (h8 : 8 ≤ i) (hi : i < g.len d) (hj : j + n ≤ 1024)
    (hw : Window (FreeEntry m d i) n j) : Place m d n (i * 1024 + j) := by
  have hle := (h.dir d hd).len_le
  refine ⟨by omega, by omega, fun k hk => ?_, ?_⟩
  · rw [add_assoc]
    exact not_valid_of_free h hd (by omega) (hw k hk)
  · rw [newTables_eq h hd h1 (by omega)]
    have hend : (i * 1024 + j + n - 1) / 1024 = i := by omega
    omega

/-- A place in a table begins a window of free entries. -/
theorem Place.window {i e : ℕ} (hp : Place m d n (i * 1024 + e)) (hi : i < g.len d) (he : e + n ≤ 1024) :
    Window (FreeEntry m d i) n e := by
  intro k hk
  refine free_of_not_valid h hd hi (by omega) ?_
  rw [← add_assoc]
  exact hp.invalid k hk

/-- A place over the end of a table begins in the free entries that end the table. -/
theorem Place.tail {i e : ℕ} (hp : Place m d n (i * 1024 + e)) (hi : i < g.len d) (he : e < 1024)
    (hn : 1024 < e + n) : 1024 - freeTail m d i ≤ e := by
  have hle : 1024 - e ≤ tailRun (FreeEntry m d i) 1024 := by
    refine le_tailRun (by omega) fun k h₁ h₂ => free_of_not_valid h hd hi h₂ ?_
    have := hp.invalid (k - e) (by omega)
    rwa [show i * 1024 + e + (k - e) = i * 1024 + k by omega] at this
  change 1024 - e ≤ freeTail m d i at hle
  omega

/-- The first of these entries begins a place, too. -/
theorem Place.of_tail {i e : ℕ} (hp : Place m d n (i * 1024 + e)) (h8 : 8 ≤ i) (hi : i < g.len d)
    (he : e < 1024) (hn : 1024 < e + n) (hτ : 0 < freeTail m d i) (hlt : freeTail m d i < n) :
    Place m d n (i * 1024 + (1024 - freeTail m d i)) := by
  have hle := freeTail_le m d i
  have htail := hp.tail h hd hi he hn
  have hb := hp.bound
  refine ⟨by omega, by omega, fun k hk => ?_, ?_⟩
  · rcases Nat.lt_or_ge k (freeTail m d i) with hk' | hk'
    · obtain ⟨hpage, hlt'⟩ := tail_add hk'
      rw [hpage]
      refine not_valid_of_free h hd hlt' (tailRun_spec (p := FreeEntry m d i) (n := 1024) ?_ hlt')
      change 1024 - freeTail m d i ≤ _
      omega
    · -- A page behind the table belongs to the place that there is.
      have := hp.invalid (1024 - freeTail m d i + k - e) (by omega)
      rwa [show i * 1024 + e + (1024 - freeTail m d i + k - e) =
        i * 1024 + (1024 - freeTail m d i) + k by omega] at this
  · have ht := hp.tables
    rw [newTables_eq h hd (by omega) (by omega)] at ht ⊢
    omega

/-- Fresh tables are a place when the area has pages for them. -/
theorem place_of_fresh (h1 : 1 ≤ n) (hlen : g.len d + tablesFor n ≤ 1024)
    (hfree : tablesFor n ≤ freePages m) :
    Place m d n (g.len d * 1024) := by
  have h8 := (h.dir d hd).len_ge
  have hn : n ≤ tablesFor n * 1024 := by
    unfold tablesFor
    omega
  refine ⟨by omega, by omega, fun k hk hv => ?_, ?_⟩
  · have := (h.hasPte_iff hd _).mp hv.1
    omega
  · rw [newTables_eq h hd h1 (by omega)]
    unfold tablesFor at *
    omega

/-- A request that misses has no place that begins in a present table. -/
theorem Place.ge_of_miss (hp : Place m d n p) (hmiss : ManyMiss m d n) : g.len d * 1024 ≤ p := by
  have hlen := h.presentEntries_eq hd
  have h8 := hp.heap
  by_contra hlt
  rcases Nat.lt_or_ge (g.len d * 1024) (p + n) with hover | hin
  · -- The place contains the last page of the present tables, and that page is valid.
    obtain ⟨k, -, hk, hlast⟩ := hmiss.ends (g.len d - 1) (by omega) (by omega)
    obtain rfl : k = 0 := by omega
    refine hlast (free_of_not_valid h hd (by omega) (by decide) ?_)
    have := hp.invalid (g.len d * 1024 - 1 - p) (by omega)
    rwa [show p + (g.len d * 1024 - 1 - p) = (g.len d - 1 + 0) * 1024 + 1023 by omega] at this
  · refine hmiss.noRun p h8 (by rwa [hlen]) fun k hk => ?_
    exact freePage_of_not_valid h hd (by omega) (hp.invalid k hk)

end

/-! ## The answer -/

/-- The answer is the address of the first place, and it is `SYSERR` only when there is none. -/
def AnswersFirst (m : Mem) (d n : ℕ) (res : Option ℕ) : Prop :=
  (∀ p, FirstPlace m d n p → res = some (p * 4096)) ∧ (res = none → ∀ p, ¬ Place m d n p)

/-- An address is the right answer when no other place is the first. -/
theorem answersFirst_some {m : Mem} {d n q : ℕ} :
    AnswersFirst m d n (some (q * 4096)) ↔ ∀ p, FirstPlace m d n p → p = q := by
  constructor
  · intro ha p hp
    have := Option.some.inj (ha.1 p hp)
    omega
  · exact fun hq => ⟨fun p hp => by rw [hq p hp], nofun⟩

/-- `SYSERR` is the right answer when there is no place. -/
theorem answersFirst_none {m : Mem} {d n : ℕ} : AnswersFirst m d n none ↔ ∀ p, ¬ FirstPlace m d n p := by
  constructor
  · exact fun ha p hp => ha.2 rfl p hp.1
  · intro hno
    refine ⟨fun p hp => absurd hp (hno p), fun _ p hp => ?_⟩
    obtain ⟨q, hq⟩ := hp.first
    exact hno q hq

section

variable {m m' : Mem} {g : PageMap} {d n i va : ℕ} (h : Layout m g) (hd : g.role d = .dir)

include h hd

/-- The first place in the table at which the walk ends is where the walk ends. -/
theorem StopResult.first {p : ℕ} (h1 : 1 ≤ n) (h8 : 8 ≤ i) (hi : i < g.len d)
    (hr : StopResult m d n i m' va) (hp : FirstPlace m d n p) (hpi : p / 1024 = i) : va = p * 4096 := by
  obtain ⟨e, he, rfl⟩ : ∃ e < 1024, p = i * 1024 + e := ⟨p % 1024, by omega, by omega⟩
  have hspill : Spills m d n i → e = 1024 - freeTail m d i := by
    intro hs
    have hlt := freeTail_lt hs.1
    have hover : 1024 < e + n := by
      by_contra hle
      exact hs.1 ⟨e, by omega, hp.1.window h hd hi (by omega)⟩
    have htail := hp.1.tail h hd hi he hover
    have := mt (hp.2 _) (not_not.mpr (hp.1.of_tail h hd h8 hi he hover hs.2.1 hlt))
    omega
  cases hr with
  | fit j hj hw hfirst =>
    have hle := mt (hp.2 _) (not_not.mpr (place_of_window h hd h1 h8 hi hj hw))
    have hge : ¬ e < j := fun hlt => hfirst e hlt (hp.1.window h hd hi (by omega))
    rw [show e = j by omega]
  | absent hs ha => rw [hspill hs]
  | present hs ha => rw [hspill hs]

omit h hd in
/-- The address with which the walk ends is that of a page of the table. -/
theorem StopResult.page (h1 : 1 ≤ n) (hr : StopResult m d n i m' va) :
    ∃ e < 1024, va = (i * 1024 + e) * 4096 := by
  cases hr with
  | fit j hj hw hfirst => exact ⟨j, by omega, rfl⟩
  | absent hs ha => exact ⟨1024 - freeTail m d i, by have := hs.2.1; omega, rfl⟩
  | present hs ha => exact ⟨1024 - freeTail m d i, by have := hs.2.1; omega, rfl⟩

/-- A place below the fresh tables begins in a present table, and then the request is not one that misses. -/
theorem Place.small {p : ℕ} (hp : Place m d n p) (hs : VmallocSafe m d n) (hlt : p < g.len d * 1024) :
    n ≤ 1024 := by
  rcases hs with hn | ⟨hn, -⟩ | ⟨hn, hbig | hmiss⟩
  · exact hn.le
  · exact hn.le
  · have := hp.bound
    have := hp.heap
    unfold tablesFor at hbig
    omega
  · have := hp.ge_of_miss h hd hmiss
    omega

/-- When the present tables have no place that the walk sees, the first place is behind them. -/
theorem FitSeen.ge {p : ℕ} (hf : FitSeen m d n) (hs : VmallocSafe m d n) (hplace : NoPlace m d n)
    (hp : FirstPlace m d n p) : g.len d * 1024 ≤ p := by
  have hlen := h.presentEntries_eq hd
  have h8 := hp.1.heap
  by_contra hlt
  have hn := hp.1.small h hd hs (by omega)
  have hstop := ((hf p hp).1 hn).2 (by omega)
  rcases Nat.lt_or_eq_of_le hn with hn | hn
  · exact hplace.1 hn _ (by omega) (by omega) hstop
  · have := hplace.2 hn
    omega

end

/-- **First fit.** A safe call of `vmalloc` answers with the first place exactly when its walk sees it. -/
theorem SafeResult.answersFirst_iff {c c' : Cpu} {g : PageMap} {d n : ℕ} {res : Option ℕ} (h : Layout c.mem g)
    (hd : g.role d = .dir) (h1 : 1 ≤ n) (hs : VmallocSafe c.mem d n) (hr : SafeResult c g d n res c') :
    AnswersFirst c.mem d n res ↔ FitSeen c.mem d n := by
  have hlen := h.presentEntries_eq hd
  have h8 := (h.dir d hd).len_ge
  have hroom := freePages_add_len h hd
  cases hr with
  | stop i m' va hi hn hst hr =>
    have hn' : n ≤ 1024 := by omega
    obtain ⟨e, he, rfl⟩ := hr.page h1
    rw [answersFirst_some]
    constructor
    · intro hq p hp
      obtain rfl := hq p hp
      refine ⟨fun _ => ?_, fun hbig => by omega⟩
      rw [show (i * 1024 + e) / 1024 = i by omega]
      exact ⟨fun j h₁ h₂ _ => hst.2.2.2.2 j h₁ h₂, fun _ => hst.2.2.2.1⟩
    · intro hf p hp
      have hheap := hp.1.heap
      obtain ⟨hbefore, hat⟩ := (hf p hp).1 hn'
      -- The walk and the first place agree on the table.
      have hpi : p / 1024 = i := by
        rcases Nat.lt_trichotomy (p / 1024) i with hlt | heq | hgt
        · exact absurd (hat (by omega)) (hst.2.2.2.2 _ (by omega) hlt)
        · exact heq
        · exact absurd hst.2.2.2.1 (hbefore i hst.1 hgt (by omega))
      have := hr.first h hd h1 hst.1 hi hp hpi
      omega
  | fresh s frames m' hf hplace hn hs' hlen' hfree hm =>
    have hwin : Window (fun k => PageFree c.mem (PT_FRAME + k)) (tablesFor n) s := by
      intro k hk
      have := h.free_avail (hfree k hk)
      rwa [add_assoc] at this
    rw [answersFirst_some]
    constructor
    · intro hq p hp
      obtain rfl := hq p hp
      refine ⟨fun hn' => ⟨fun j h₁ h₂ h₃ => ?_, fun hc => by omega⟩, fun _ hno => hno s hs' hwin⟩
      rcases Nat.lt_or_eq_of_le hn' with hn' | hn'
      · exact hplace.1 hn' j h₁ h₃
      · have := hplace.2 hn'
        omega
    · intro hfit p hp
      have hge := hfit.ge h hd hs hplace hp
      have hle := mt (hp.2 _) (not_not.mpr (place_of_fresh h hd h1 hlen' (le_freePages hs' hwin)))
      omega
  | noRun hplace hlt hroom' hrun =>
    rw [answersFirst_none]
    constructor
    · exact fun hno p hp => absurd hp (hno p)
    · intro hf p hp
      have hge := hf.ge h hd hs hplace hp
      have hn : n ≤ 1024 := by
        by_contra hbig
        exact (hf p hp).2 (by omega) hrun
      -- The request needs a table, and no page is free.
      have ht := hp.1.tables
      have hone : tablesFor n = 1 := by
        unfold tablesFor
        omega
      rw [hone] at hrun
      rw [freePages_eq_zero hrun, newTables_eq h hd h1 hp.1.bound] at ht
      omega
  | full hplace hfull =>
    rw [answersFirst_none]
    constructor
    · exact fun hno p hp => absurd hp (hno p)
    · intro hf p hp
      have hge := hf.ge h hd hs hplace hp
      have ht := hp.1.tables
      have hb := hp.1.bound
      rw [newTables_eq h hd h1 hb] at ht
      unfold tablesFor at hfull
      omega

end Xinu
