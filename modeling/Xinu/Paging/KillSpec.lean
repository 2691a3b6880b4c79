import Xinu.Paging.FaultSpec

/-!
# What `kill_vm` does

`kill_vm` clears a directory and its private tables and gives their frames back. `KillMarks` is the memory
after some turns of its loop over the directory, and `Reclaimed` is what the whole loop does
(`killVm_reclaims`). The pages it clears are free afterwards, so the layout stays, with the roles of the
directory and of its tables taken away (`PageMap.removeDir`).
-/

namespace Xinu

open FlatMemory

/-- The word belongs to the table of one of the first `i` entries of the directory `d`. -/
def TableWord (g : PageMap) (d i w : ℕ) : Prop := ∃ j < i, g.role (w / 1024) = .table d j

/-- One of these tables maps FFS frame `k`. -/
def TableFrame (m : Mem) (g : PageMap) (d i k : ℕ) : Prop := ∃ w, TableWord g d i w ∧ MapsFrame m g k w

/-- The memory after the first `i` directory entries and their tables have been cleared. -/
structure KillMarks (m m' : Mem) (g : PageMap) (d i : ℕ) : Prop where
  /-- The entries of the directory are cleared. -/
  dir : ∀ j < i, m' (d * 1024 + j) = Entry.zero
  /-- The words of its private tables are cleared, as far as the walk has come. -/
  table : ∀ w, TableWord g d i w → m' w = Entry.zero
  /-- The frames that these mapped are free. -/
  freed : ∀ k < 16384, TableFrame m g d i k →
    m' (FFS_WORD + k) = { m (FFS_WORD + k) with avail := 2#3 }
  /-- The entries of other frames stay. -/
  ffs : ∀ k < 16384, ¬ TableFrame m g d i k → m' (FFS_WORD + k) = m (FFS_WORD + k)
  /-- All memory besides these words and the table of frames stays. -/
  other : ∀ w, ¬ TableWord g d i w → ¬ IsFfs w → (w < d * 1024 ∨ d * 1024 + i ≤ w) → m' w = m w

/-- A word of a cleared table is a word of a private table. -/
theorem TableWord.heap {g : PageMap} {d i w : ℕ} (hw : TableWord g d i w) : g.Heap w := by
  obtain ⟨j, -, hr⟩ := hw
  unfold PageMap.Heap
  rw [hr]
  exact trivial

/-- An FFS entry is the entry of some frame. -/
theorem IsFfs.exists {w : ℕ} (hw : IsFfs w) : ∃ k < 16384, w = FFS_WORD + k := by
  obtain ⟨h₁, h₂⟩ := hw
  rw [show MAX_FFS_SIZE = 16384 from rfl] at h₂
  exact ⟨w - FFS_WORD, by omega, by omega⟩

section

variable {m r : Mem} {g : PageMap} {d i : ℕ}

/-- At the start nothing is cleared. -/
theorem KillMarks.start (m : Mem) (g : PageMap) (d : ℕ) : KillMarks m m g d 0 := by
  have hw : ∀ w, ¬ TableWord g d 0 w := fun w ⟨j, hj, _⟩ => absurd hj (Nat.not_lt_zero j)
  refine ⟨fun j hj => ?_, fun w h => absurd h (hw w), fun k _ ⟨w, h, _⟩ => absurd h (hw w),
    fun _ _ _ => rfl, fun _ _ _ _ => rfl⟩
  omega

/-- The entries that the loop has not reached are as they were. -/
theorem KillMarks.pde (h : Layout m g) (hd : g.role d = .dir) (hm : KillMarks m r g d i) {j : ℕ}
    (hij : i ≤ j) (hj : j < 1024) : r (d * 1024 + j) = m (d * 1024 + j) := by
  refine hm.other _ (fun hw => pde_not_heap hd hj hw.heap) (h.pde_not_ffs hd) (.inr ?_)
  exact Nat.add_le_add_left hij _

/-- The FFS entries keep the names of their frames. -/
theorem KillMarks.ffs_base (hm : KillMarks m r g d i) {k : ℕ} (hk : k < 16384) :
    (r (FFS_WORD + k)).base = (m (FFS_WORD + k)).base := by
  by_cases hf : TableFrame m g d i k
  · rw [hm.freed k hk hf]
  · rw [hm.ffs k hk hf]

/-- Of the tables of `d`, only that of entry `i` is in frame `t`: the words that a turn adds to those
cleared are the words of frame `t`. -/
theorem tableWord_succ (h : Layout m g) {t : ℕ} (ht : g.role t = .table d i) (w : ℕ) :
    TableWord g d (i + 1) w ↔ TableWord g d i w ∨ w / 1024 = t := by
  have hpage : w / 1024 = t ↔ g.role (w / 1024) = .table d i := by
    refine ⟨fun he => he ▸ ht, fun hr => ?_⟩
    rw [← (h.table_dir _ _ _ hr).2.2.2, (h.table_dir _ _ _ ht).2.2.2]
  rw [hpage]
  constructor
  · rintro ⟨j, hj, hr⟩
    rcases Nat.lt_succ_iff_lt_or_eq.mp hj with hlt | rfl
    · exact .inl ⟨j, hlt, hr⟩
    · exact .inr hr
  · rintro (⟨j, hj, hr⟩ | hr)
    · exact ⟨j, by omega, hr⟩
    · exact ⟨i, by omega, hr⟩

/-- A turn adds the frames that the table in frame `t` maps to those given back. -/
theorem tableFrame_succ (h : Layout m g) {t : ℕ} (ht : g.role t = .table d i) (k : ℕ) :
    TableFrame m g d (i + 1) k ↔ TableFrame m g d i k ∨ ∃ w, w / 1024 = t ∧ MapsFrame m g k w := by
  constructor
  · rintro ⟨w, hw, hmap⟩
    rcases (tableWord_succ h ht w).mp hw with hw | hw
    · exact .inl ⟨w, hw, hmap⟩
    · exact .inr ⟨w, hw, hmap⟩
  · rintro (⟨w, hw, hmap⟩ | ⟨w, hw, hmap⟩)
    · exact ⟨w, (tableWord_succ h ht w).mpr (.inl hw), hmap⟩
    · exact ⟨w, (tableWord_succ h ht w).mpr (.inr hw), hmap⟩

/-- The frames of the table in frame `t` are given back in the turn for its entry. -/
theorem KillMarks.freed_turn (h : Layout m g) (hm : KillMarks m r g d i) {t : ℕ}
    (ht : g.role t = .table d i) (hi : i < 1024) {k : ℕ} (hk : k < 16384) :
    FreedBy r (t * 1024) 1024 (FFS_WORD + k) ↔ ∃ w, w / 1024 = t ∧ MapsFrame m g k w := by
  have htb := h.table_bounds ht
  have hb := (h.ffs k hk).base
  have hne : t ≠ d := fun he => by
    have hdir := (h.table_dir _ _ _ ht).1
    rw [he] at ht
    rw [ht] at hdir
    cases hdir
  -- The walk has not come to this table yet.
  have hnew : ∀ e < 1024, ¬ TableWord g d i (t * 1024 + e) := by
    rintro e he ⟨j, hj, hr⟩
    rw [show (t * 1024 + e) / 1024 = t by omega, ht] at hr
    injection hr with _ hji
    omega
  have hsame : ∀ e < 1024, r (t * 1024 + e) = m (t * 1024 + e) := fun e he =>
    hm.other _ (hnew e he) (h.not_ffs_of_heap (Layout.heap_of_table ht he)) (by omega)
  constructor
  · rintro ⟨-, e, he, hp, hbase⟩
    rw [hsame e he] at hp hbase
    refine ⟨t * 1024 + e, by omega, Layout.heap_of_table ht he, hp, ?_⟩
    rw [hbase, hm.ffs_base hk, hb]
  · rintro ⟨w, hw, -, hp, hbase⟩
    refine ⟨Layout.isFfs_add hk, w % 1024, by omega, ?_⟩
    rw [hsame _ (by omega), show t * 1024 + w % 1024 = w by omega]
    exact ⟨hp, BitVec.eq_of_toNat_eq (by rw [hbase, hm.ffs_base hk, hb])⟩

/-- A turn of the loop on a private table. -/
theorem KillMarks.table_step (h : Layout m g) (hd : g.role d = .dir) (hm : KillMarks m r g d i) {t : ℕ}
    (ht : g.role t = .table d i) (hi : i < 1024) :
    KillMarks m (write (releaseEntries (fun _ => Entry.zero) r (t * 1024) 1024) (d * 1024 + i)
      Entry.zero) g d (i + 1) := by
  have hdt : t ≠ d := fun he => by rw [he, hd] at ht; cases ht
  have hdb := h.dir_bounds hd
  have htb := h.table_bounds ht
  have hffs : ∀ k < 1024, ¬ IsFfs (t * 1024 + k) := fun k hk =>
    h.not_ffs_of_heap (Layout.heap_of_table ht hk)
  have hword := tableWord_succ h ht
  have hframe := tableFrame_succ h ht
  have hfreed : ∀ k < 16384, FreedBy r (t * 1024) 1024 (FFS_WORD + k) ↔
      ∃ w, w / 1024 = t ∧ MapsFrame m g k w := fun k hk => hm.freed_turn h ht hi hk
  have hffsne : ∀ k < 16384, FFS_WORD + k ≠ d * 1024 + i := fun k hk he =>
    h.pde_not_ffs hd (he ▸ Layout.isFfs_add hk)
  have hffsout : ∀ k < 16384, FFS_WORD + k < t * 1024 ∨ t * 1024 + 1024 ≤ FFS_WORD + k := by
    intro k hk
    have := (isFfs_iff _).mp (Layout.isFfs_add hk)
    omega
  constructor
  · intro j hj
    rcases Nat.lt_succ_iff_lt_or_eq.mp hj with hlt | rfl
    · rw [write_other (by omega), releaseEntries_outside _ _ (by omega) (h.pde_not_ffs hd)]
      exact hm.dir j hlt
    · rw [write_same]
  · intro w hw
    have hne : w ≠ d * 1024 + i := fun he => pde_not_heap hd hi (he ▸ hw.heap)
    rw [write_other hne]
    by_cases ht' : w / 1024 = t
    · exact releaseEntries_of_mem hffs (by omega) (by omega)
    · rw [releaseEntries_outside _ _ (by omega) (h.not_ffs_of_heap hw.heap)]
      exact hm.table w (((hword w).mp hw).resolve_right ht')
  · intro k hk hf
    rw [write_other (hffsne k hk)]
    by_cases hnow : ∃ w, w / 1024 = t ∧ MapsFrame m g k w
    · rw [releaseEntries_freed hffs ((hfreed k hk).mpr hnow)]
      by_cases hbefore : TableFrame m g d i k
      · rw [hm.freed k hk hbefore]
      · rw [hm.ffs k hk hbefore]
    · rw [releaseEntries_other hffs (hffsout k hk) (mt (hfreed k hk).mp hnow)]
      exact hm.freed k hk (((hframe k).mp hf).resolve_right hnow)
  · intro k hk hf
    rw [hframe, not_or] at hf
    rw [write_other (hffsne k hk), releaseEntries_other hffs (hffsout k hk) (mt (hfreed k hk).mp hf.2)]
    exact hm.ffs k hk hf.1
  · intro w hw hwf hout
    rw [hword, not_or] at hw
    have hne : w ≠ d * 1024 + i ∧ (w < d * 1024 ∨ d * 1024 + i ≤ w) := by
      clear htb hdb
      omega
    rw [write_other hne.1, releaseEntries_outside _ _ (page_word_out hw.2) hwf]
    exact hm.other w hw.1 hwf hne.2

/-- A turn of the loop on an entry without a private table. -/
theorem KillMarks.entry_step (h : Layout m g) (hd : g.role d = .dir) (hm : KillMarks m r g d i)
    (ht : ∀ t, g.role t ≠ .table d i) (hi : i < 1024) :
    KillMarks m (write r (d * 1024 + i) Entry.zero) g d (i + 1) := by
  -- The entry has no table, so no word and no frame joins those that are released.
  have hword : ∀ w, TableWord g d (i + 1) w ↔ TableWord g d i w := by
    intro w
    constructor
    · rintro ⟨j, hj, hr⟩
      rcases Nat.lt_succ_iff_lt_or_eq.mp hj with hlt | rfl
      · exact ⟨j, hlt, hr⟩
      · exact absurd hr (ht _)
    · rintro ⟨j, hj, hr⟩
      exact ⟨j, by omega, hr⟩
  have hframe : ∀ k, TableFrame m g d (i + 1) k ↔ TableFrame m g d i k := by
    intro k
    unfold TableFrame
    simp only [hword]
  -- The words of the frames are in no directory.
  have hffsne : ∀ k < 16384, FFS_WORD + k ≠ d * 1024 + i := fun k hk he =>
    h.pde_not_ffs hd (he ▸ Layout.isFfs_add hk)
  constructor
  · intro j hj
    rcases Nat.lt_succ_iff_lt_or_eq.mp hj with hlt | rfl
    · rw [write_other (by omega)]
      exact hm.dir j hlt
    · rw [write_same]
  -- A word of a table is no entry of the directory, so it stays zero.
  · intro w hw
    have hne : w ≠ d * 1024 + i := fun he => pde_not_heap hd hi (he ▸ hw.heap)
    rw [write_other hne]
    exact hm.table w ((hword w).mp hw)
  · intro k hk hf
    rw [write_other (hffsne k hk)]
    exact hm.freed k hk ((hframe k).mp hf)
  · intro k hk hf
    rw [write_other (hffsne k hk)]
    exact hm.ffs k hk (mt (hframe k).mpr hf)
  · intro w hw hwf hout
    rw [write_other (by omega)]
    exact hm.other w (mt (hword w).mpr hw) hwf (by omega)

/-- The loop of `kill_vm` clears the whole directory. -/
theorem killTables_spec (h : Layout m g) (hd : g.role d = .dir) :
    ∀ n i r, KillMarks m r g d i → i + n = 1024 →
      ∃ m', killTables (d * 1024) n i r = .ok m' ∧ KillMarks m m' g d 1024 := by
  intro n
  induction n with
  | zero =>
    -- The induction is on the entries that are left.
    intro i r hm hi
    rw [add_zero] at hi
    subst hi
    exact ⟨r, rfl, hm⟩
  | succ n ih =>
    intro i r hm hi
    have hlt : i < 1024 := by omega
    have hpde := hm.pde h hd (le_refl i) hlt
    unfold killTables
    rw [show XINU_PAGES / MAX_PT_SIZE = 8 from rfl, hpde]
    by_cases ht : (m (d * 1024 + i)).pres = true ∧ i ≥ 8
    · -- A private table: it is in the area, and it is released.
      have hil := ((h.dir d hd).pres_iff i hlt).mp ht.1
      have hrole := h.dir_table d i hd ht.2 hil
      have hmap : Mapped (m (d * 1024 + i)).table := by
        have := h.table_bounds hrole
        rw [mapped_iff]
        unfold Entry.table
        exact Nat.mul_lt_mul_of_pos_right this.2 (by decide)
      rw [if_neg fun hc => hc.2.2 hmap]
      refine ih (i + 1) _ ?_ (by omega)
      unfold killEntry
      rw [show XINU_PAGES / MAX_PT_SIZE = 8 from rfl, hpde, if_pos ht]
      exact hm.table_step h hd hrole hlt
    -- An entry without a private table is only cleared.
    · rw [if_neg fun hc => ht ⟨hc.1, hc.2.1⟩]
      refine ih (i + 1) _ ?_ (by omega)
      unfold killEntry
      rw [show XINU_PAGES / MAX_PT_SIZE = 8 from rfl, hpde, if_neg ht]
      refine hm.entry_step h hd (fun t hrole => ht ?_) hlt
      obtain ⟨-, h8, hil, -⟩ := h.table_dir t d i hrole
      exact ⟨((h.dir d hd).pres_iff i hlt).mpr hil, h8⟩

end

/-! ## The memory that is given back -/

/-- FFS frame `k` is mapped by the private heap of the directory `d`. -/
def OwnFrame (m : Mem) (d k : ℕ) : Prop :=
  ∃ vp, 8192 ≤ vp ∧ PagePresent m d vp ∧ (m (pteWord m d vp)).base.toNat = 8192 + k

/-- All the memory of the directory `d` has been given back: the frames that it mapped, its page and
the pages of its private tables are free, and nothing else has changed. -/
structure Reclaimed (m m' : Mem) (d : ℕ) : Prop where
  /-- The frames that it mapped are free. -/
  frames : ∀ k < 16384, OwnFrame m d k → FrameFree m' k
  /-- The page of the directory is free. -/
  dir : PageFree m' d
  /-- The pages of its private tables are free. -/
  tables : ∀ i < 1024, 8 ≤ i → (m (d * 1024 + i)).pres = true →
    PageFree m' (m (d * 1024 + i)).base.toNat
  /-- The entries of other frames stay. -/
  ffs : ∀ k < 16384, ¬ OwnFrame m d k → m' (FFS_WORD + k) = m (FFS_WORD + k)
  /-- All memory besides the directory, its tables and the table of frames stays. -/
  other : ∀ w, w / 1024 ≠ d → ¬ OwnWord m d w → ¬ IsFfs w → m' w = m w

namespace Layout

variable {m m' : Mem} {g : PageMap} {d : ℕ} (h : Layout m g)

include h

/-- The words of the private tables are the entries of the heap pages. -/
theorem tableWord_iff (hd : g.role d = .dir) (w : ℕ) : TableWord g d 1024 w ↔ OwnWord m d w := by
  constructor
  · rintro ⟨j, hj, hr⟩
    obtain ⟨-, h8, hjl, hb⟩ := h.table_dir _ _ _ hr
    refine ⟨j * 1024 + w % 1024, by omega, (h.hasPte_iff hd _).mpr (by omega), ?_⟩
    rw [pteWord_add (Nat.mod_lt _ (by decide)), hb]
    omega
  · rintro ⟨vp, h8, hp, rfl⟩
    have hvp := (h.hasPte_iff hd vp).mp hp
    refine ⟨vp / 1024, hp.1, ?_⟩
    rw [pteWord, show ((m (d * 1024 + vp / 1024)).base.toNat * 1024 + vp % 1024) / 1024 =
      (m (d * 1024 + vp / 1024)).base.toNat by omega]
    exact h.dir_table d _ hd (by omega) (by omega)

/-- The frames of the private tables are those of the heap pages. -/
theorem tableFrame_iff (hd : g.role d = .dir) (k : ℕ) : TableFrame m g d 1024 k ↔ OwnFrame m d k := by
  constructor
  · rintro ⟨w, hw, -, hp, hb⟩
    obtain ⟨vp, h8, hpte, rfl⟩ := (h.tableWord_iff hd w).mp hw
    exact ⟨vp, h8, ⟨hpte, hp⟩, hb⟩
  · rintro ⟨vp, h8, ⟨hpte, hp⟩, hb⟩
    have hw : OwnWord m d (pteWord m d vp) := ⟨vp, h8, hpte, rfl⟩
    exact ⟨_, (h.tableWord_iff hd _).mpr hw, h.heap_of_own hd hw, hp, hb⟩

/-- The cleared memory is given back. -/
theorem reclaimed (hd : g.role d = .dir) (hm : KillMarks m m' g d 1024) : Reclaimed m m' d := by
  constructor
  · intro k hk hf
    unfold FrameFree
    rw [hm.freed k hk ((h.tableFrame_iff hd k).mpr hf)]
    exact Entry.valid_of_avail_two rfl
  · unfold PageFree
    have := hm.dir 0 (by decide)
    rw [add_zero] at this
    rw [this]
    rfl
  · intro i hi h8 hp
    have hil := ((h.dir d hd).pres_iff i hi).mp hp
    have hw : TableWord g d 1024 ((m (d * 1024 + i)).base.toNat * 1024) := by
      refine ⟨i, hi, ?_⟩
      rw [Nat.mul_div_cancel _ (by decide)]
      exact h.dir_table d i hd h8 hil
    unfold PageFree
    rw [hm.table _ hw]
    rfl
  · exact fun k hk hf => hm.ffs k hk (mt (h.tableFrame_iff hd k).mp hf)
  · intro w hwd hw hwf
    exact hm.other w (mt (h.tableWord_iff hd w).mp hw) hwf (page_word_out hwd)

end Layout

/-- `kill_vm` of a laid out directory gives its memory back. It leaves CR3 at the system directory. -/
theorem killVm_spec {c : Cpu} {g : PageMap} (h : Layout c.mem g) {d : ℕ} (hd : g.role d = .dir) :
    ∃ m', killVm c (d * 4096) = .ok ((c.withMem m').writeCr3 (c.cr3At PAGE_DIR_ADDR_START)) ∧
      KillMarks c.mem m' g d 1024 := by
  obtain ⟨m', hk, hm⟩ := killTables_spec h hd 1024 0 c.mem (.start _ _ _) rfl
  have hne : d * 4096 ≠ PAGE_DIR_ADDR_START := by
    have := h.dir_bounds hd
    rw [show PAGE_DIR_ADDR_START = PT_FRAME * 4096 by decide]
    omega
  refine ⟨m', ?_, hm⟩
  unfold killVm
  rw [if_pos hne, show d * 4096 / 4 = d * 1024 by omega]
  simp only [Cpu.writeCr3_mem, hk, Res.ok_bind]
  rfl

/-! ## The layout that is left -/

/-- The page map without the directory `d` and its tables. -/
def PageMap.removeDir (g : PageMap) (d : ℕ) : PageMap where
  role f := match g.role f with
    | .table d' i => if d' = d then .free else .table d' i
    | r => if f = d then .free else r
  len := g.len

section

variable {g : PageMap} {d : ℕ}

/-- The tables that are left. -/
theorem removeDir_table (t d' i : ℕ) :
    (g.removeDir d).role t = .table d' i ↔ g.role t = .table d' i ∧ d' ≠ d := by
  unfold PageMap.removeDir
  dsimp only
  split
  · next d₁ i₁ hr =>
    rw [hr]
    split_ifs with he
    · refine ⟨fun hc => (by cases hc), ?_⟩
      rintro ⟨hc, hne⟩
      injection hc with h₁
      exact absurd (h₁ ▸ he) hne
    · refine ⟨fun hc => ⟨hc, ?_⟩, And.left⟩
      injection hc with h₁
      exact h₁ ▸ he
  · next hnot =>
    refine ⟨fun hc => ?_, fun hc => absurd hc.1 (hnot _ _)⟩
    split_ifs at hc
    exact absurd hc (hnot _ _)

/-- The roles that are left, but for those of tables and free pages. -/
theorem removeDir_role {r : Role} (hd : g.role d = .dir) (hr : ¬ r.IsTable) (hf : r ≠ .free) (f : ℕ) :
    (g.removeDir d).role f = r ↔ g.role f = r ∧ f ≠ d := by
  unfold PageMap.removeDir
  dsimp only
  split
  · next d₁ i₁ he =>
    have hfd : f ≠ d := fun hc => by rw [hc, hd] at he; cases he
    rw [he]
    split_ifs
    · exact ⟨fun hc => absurd hc.symm hf, fun hc => absurd (hc.1 ▸ trivial) hr⟩
    · exact ⟨fun hc => ⟨hc, hfd⟩, And.left⟩
  · split_ifs with he
    · exact ⟨fun hc => absurd hc.symm hf, fun hc => absurd he hc.2⟩
    · exact ⟨fun hc => ⟨hc, he⟩, And.left⟩

/-- The free pages are those that were free, the directory, and its tables. -/
theorem removeDir_free (hd : g.role d = .dir) (f : ℕ) :
    (g.removeDir d).role f = .free ↔ g.role f = .free ∨ f = d ∨ ∃ i, g.role f = .table d i := by
  unfold PageMap.removeDir
  dsimp only
  split
  · next d₁ i₁ he =>
    have hfd : f ≠ d := fun hc => by rw [hc, hd] at he; cases he
    rw [he]
    split_ifs with hdd
    · exact ⟨fun _ => .inr (.inr ⟨i₁, by rw [hdd]⟩), fun _ => rfl⟩
    · refine ⟨fun hc => (by cases hc), ?_⟩
      rintro (hc | hc | ⟨i, hc⟩)
      · cases hc
      · exact absurd hc hfd
      · injection hc with h₁
        exact absurd h₁ hdd
  · next hnot =>
    split_ifs with he
    · exact ⟨fun _ => .inr (.inl he), fun _ => rfl⟩
    · refine ⟨.inl, ?_⟩
      rintro (hc | hc | ⟨i, hc⟩)
      · exact hc
      · exact absurd hc he
      · exact absurd hc (hnot _ _)

end

open Classical in
/-- The memory in which the tables of `d` are empty and its frames are free, before the pages are cleared. -/
noncomputable def emptied (m m' : Mem) (g : PageMap) (d : ℕ) : Mem :=
  ⟨fun w => if IsFfs w then m' w else if TableWord g d 1024 w then pteEmpty else m w⟩

section

variable {m m' : Mem} {g : PageMap} {d : ℕ}

/-- Emptying the tables keeps the layout. -/
theorem Layout.emptied (h : Layout m g) (hm : KillMarks m m' g d 1024) :
    Layout (Xinu.emptied m m' g d) g := by
  have hheap : ∀ w, TableWord g d 1024 w → Xinu.emptied m m' g d w = pteEmpty := fun w hw =>
    (if_neg (h.not_ffs_of_heap hw.heap)).trans (if_pos hw)
  refine h.release (S := TableWord g d 1024) (fun w hw => hw.heap) (fun w hw => ?_)
    (fun k hk hf => ?_) (fun k hk hf => ?_) (fun w hw hwf => ?_)
  · rw [hheap w hw]
    exact ⟨rfl, rfl⟩
  · exact (if_pos (Layout.isFfs_add hk)).trans (hm.freed k hk hf)
  · exact (if_pos (Layout.isFfs_add hk)).trans (hm.ffs k hk hf)
  · exact (if_neg hwf).trans (if_neg hw)

/-- Outside the pages of `d` nothing is left to clear. -/
theorem emptied_eq (hm : KillMarks m m' g d 1024) {w : ℕ} (hwd : w / 1024 ≠ d) (hw : ¬ TableWord g d 1024 w) :
    m' w = emptied m m' g d w := by
  by_cases hwf : IsFfs w
  · exact (if_pos hwf).symm
  · have hout : w < d * 1024 ∨ d * 1024 + 1024 ≤ w := page_word_out hwd
    rw [hm.other w hw hwf hout]
    exact ((if_neg hwf).trans (if_neg hw)).symm

/-- Giving back the memory of a directory keeps the layout, without the directory and its tables. -/
theorem Layout.removeDir (h : Layout m g) (hd : g.role d = .dir) (hm : KillMarks m m' g d 1024) :
    Layout m' (g.removeDir d) := by
  have h₁ := h.emptied hm
  have hdb := h.dir_bounds hd
  have heq : ∀ w, w / 1024 ≠ d → ¬ TableWord g d 1024 w → m' w = Xinu.emptied m m' g d w :=
    fun w => emptied_eq hm
  -- The pages of a role other than table are not words of a cleared table.
  have hpage : ∀ f e, f ≠ d → (∀ i, g.role f ≠ .table d i) → e < 1024 →
      m' (f * 1024 + e) = Xinu.emptied m m' g d (f * 1024 + e) := by
    intro f e hf hr he
    have hdiv : (f * 1024 + e) / 1024 = f := by omega
    refine heq _ (by rw [hdiv]; exact hf) ?_
    rintro ⟨j, -, hj⟩
    rw [hdiv] at hj
    exact hr j hj
  have hdir : ∀ {x}, (g.removeDir d).role x = .dir → g.role x = .dir ∧ x ≠ d := fun hx =>
    (removeDir_role hd Role.not_isTable_dir (by decide) _).mp hx
  have hdpage : ∀ x, (g.removeDir d).role x = .dir → ∀ e < 1024,
      m' (x * 1024 + e) = Xinu.emptied m m' g d (x * 1024 + e) := by
    intro x hx e he
    obtain ⟨hx, hne⟩ := hdir hx
    exact hpage x e hne (fun i hc => by rw [hx] at hc; cases hc) he
  have hheap : ∀ w, (g.removeDir d).Heap w → g.Heap w ∧ m' w = Xinu.emptied m m' g d w := by
    intro w hw
    obtain ⟨x, i, hr⟩ := hw.exists
    rw [removeDir_table] at hr
    refine ⟨by unfold PageMap.Heap; rw [hr.1]; exact trivial, heq w ?_ ?_⟩
    · intro he
      have := hr.1
      rw [he, hd] at this
      cases this
    · rintro ⟨j, -, hj⟩
      rw [hr.1] at hj
      injection hj with hj
      exact hr.2 hj
  refine h₁.of_user (fun w hw => ?_) (fun f => ?_) (fun f => ?_) (fun x hx => ?_)
    (fun x i hx h8 hi => ?_) (fun t x i ht => ?_) (fun w hw => ?_) (fun f hf e he => ?_)
    (fun k w => ?_)
  · refine heq w (by omega) fun htw => ?_
    have := h.heap_bounds htw.heap
    omega
  · rw [removeDir_role hd Role.not_isTable_system (by decide)]
    exact and_iff_left_of_imp fun hs he => by rw [he, hd] at hs; cases hs
  · rw [removeDir_role hd Role.not_isTable_outside (by decide)]
    exact and_iff_left_of_imp fun hs he => by rw [he, hd] at hs; cases hs
  · exact (h₁.dir x (hdir hx).1).congr (hdpage x hx)
  · have hle := (h₁.dir x (hdir hx).1).len_le
    have hlt : i < 1024 := lt_of_lt_of_le hi hle
    rw [hdpage x hx i hlt, removeDir_table]
    exact ⟨h₁.dir_table x i (hdir hx).1 h8 hi, (hdir hx).2⟩
  · rw [removeDir_table] at ht
    obtain ⟨hx, h8, hi, hb⟩ := h₁.table_dir t x i ht.1
    have hx' : (g.removeDir d).role x = .dir :=
      (removeDir_role hd Role.not_isTable_dir (by decide) _).mpr ⟨hx, ht.2⟩
    have hlt : i < 1024 := lt_of_lt_of_le hi (h₁.dir x hx).len_le
    rw [hdpage x hx' i hlt]
    exact ⟨hx', h8, hi, hb⟩
  · rw [(hheap w hw).2]
    exact h₁.pte w (hheap w hw).1
  · rcases (removeDir_free hd f).mp hf with hfree | rfl | ⟨i, hr⟩
    · rw [hpage f e (fun hc => by rw [hc, hd] at hfree; cases hfree)
        (fun i hc => by rw [hfree] at hc; cases hc) he]
      exact h₁.free f hfree e he
    · exact hm.dir e he
    · refine hm.table _ ⟨i, lt_of_lt_of_le (h.table_dir _ _ _ hr).2.2.1 (h.dir d hd).len_le, ?_⟩
      rw [show (f * 1024 + e) / 1024 = f by omega]
      exact hr
  · unfold MapsFrame
    constructor
    · rintro ⟨hw, hp, hb⟩
      obtain ⟨hw', he⟩ := hheap w hw
      rw [he] at hp hb
      exact ⟨hw', hp, hb⟩
    · rintro ⟨hw, hp, hb⟩
      -- An entry that is present is none of a table of `d`.
      have hnot : ¬ TableWord g d 1024 w := by
        intro htw
        rw [show Xinu.emptied m m' g d w = pteEmpty from
          (if_neg (h.not_ffs_of_heap hw)).trans (if_pos htw)] at hp
        cases hp
      have hw' : (g.removeDir d).Heap w := by
        obtain ⟨x, i, hr⟩ := hw.exists
        unfold PageMap.Heap
        rw [(removeDir_table (w / 1024) x i).mpr ⟨hr, ?_⟩]
        · exact trivial
        · rintro rfl
          exact hnot ⟨i, lt_of_lt_of_le (h.table_dir _ _ _ hr).2.2.1 (h.dir x hd).len_le, hr⟩
      rw [(hheap w hw').2]
      exact ⟨hw', hp, hb⟩

end

end Xinu
