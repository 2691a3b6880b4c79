import Xinu.Lib.Footprint
import Xinu.Paging.VmallocSpec

/-!
# The entries that `vmalloc` reads and writes

The functions of `vmalloc` again, as the accesses that they make: to entries of the directory of the
caller, and to entries of tables, which are pages of the area by their frames. The branches are
those of the functions themselves.

A safe call reaches no entry behind the end of its page, and it writes to tables only that a present
directory entry points at, or that it makes in a free page (`vmalloc_within`).
-/

namespace Xinu

open FlatMemory Scan Footprint

/-! ## Accesses -/

/-- A page of entries, as `vmalloc` gets at it. -/
inductive PtPage where
  /-- The directory of the caller. -/
  | dir
  /-- The table in a frame. -/
  | table (f : ℕ)
  deriving DecidableEq

/-- A page of entries, for reading or for writing. -/
structure PtUse where
  /-- The page of entries. -/
  page : PtPage
  /-- Whether it is written. -/
  write : Bool
  deriving DecidableEq

/-- `pd[i]` is read. -/
def readDir (i : ℕ) : Access PtUse := ⟨⟨.dir, false⟩, i, 1⟩

/-- `pd[i]` is written. -/
def writeDir (i : ℕ) : Access PtUse := ⟨⟨.dir, true⟩, i, 1⟩

/-- Entries of the table in frame `f` are read. -/
def readTable (f first count : ℕ) : Access PtUse := ⟨⟨.table f, false⟩, first, count⟩

/-- Entries of the table in frame `f` are written. -/
def writeTable (f first count : ℕ) : Access PtUse := ⟨⟨.table f, true⟩, first, count⟩

/-- The accesses of `newTable` for directory entry `i`. -/
def newTableUses (i f : ℕ) : Footprint PtUse := [writeDir i, writeTable f 0 MAX_PT_SIZE]

/-! ## Fresh directory entries -/

/-- The accesses of `findFreeRun`: the first entry of every page that it looks at. -/
def findFreeRunUses (m : Mem) (need : ℕ) : Footprint PtUse :=
  (List.range (findFreeRun m need).1).flatMap fun k => [readTable (PT_FRAME + k) 0 1]

/-- The accesses of `allocTables`. -/
def allocTablesUses (pd frames last : ℕ) : ℕ → Mem → ℕ → ℕ → Footprint PtUse
  | 0, _, _, _ => []
  | fuel + 1, m, i, f =>
    if f < last then
      let m := newTable m (pd + i) f
      let base := (m (pd + i)).base.toNat
      let n := if frames > 0 ∧ base + 1 = last then frames else MAX_PT_SIZE
      newTableUses i f ++ readDir i :: writeTable base 0 n ::
        allocTablesUses pd frames last fuel (setValid m (base * MAX_PT_SIZE) n) (i + 1) (base + 1)
    else []

/-- The accesses of `freshTables`. -/
def freshTablesUses (pd initial_pde_counter : ℕ) (m : Mem) (i frames : ℕ) : Footprint PtUse :=
  let need := initial_pde_counter + if frames > 0 then 1 else 0
  let run := findFreeRun m need
  findFreeRunUses m need ++
    if run.2 = 0 then
      let last := PT_FRAME + run.1
      allocTablesUses pd frames last (MAX_PT_SIZE + 1) m i (last - need)
    else []

/-! ## The search in one table -/

/-- The accesses of `spillAbsent`, for the table in frame `t`. -/
def spillAbsentUses (m : Mem) (pd i t j counter frames : ℕ) : Footprint PtUse :=
  let m := setValid m (t * MAX_PT_SIZE + j) (MAX_PT_SIZE - j)
  let m' := if PageFree m PT_FRAME then newTable m (pd + (i + 1)) PT_FRAME else m
  [writeTable t j (MAX_PT_SIZE - j), readTable PT_FRAME 0 1] ++
    (if PageFree m PT_FRAME then newTableUses (i + 1) PT_FRAME else []) ++
    [readDir i, writeTable (m' (pd + i)).base.toNat 0 (frames - counter)]

/-- The accesses of `spillPresent`. -/
def spillPresentUses (m : Mem) (pd i t j counter frames : ℕ) : Footprint PtUse :=
  let temp := (m (pd + (i + 1))).base.toNat
  let counter_v2 := Nat.count (fun k => Unalloc m (temp * MAX_PT_SIZE + k)) frames
  readTable temp 0 frames ::
    if counter + counter_v2 = frames then [writeTable t j (MAX_PT_SIZE - j),
      writeTable temp 0 counter_v2] else []

/-- The accesses of `searchTable`. -/
def searchTableUses (m : Mem) (pd i t frames : ℕ) : ℕ → ℕ → Footprint PtUse
  | 0, _ => []
  | fuel + 1, j =>
    if j < MAX_PT_SIZE then
      readTable t j 1 ::
        if Unalloc m (t * MAX_PT_SIZE + j) then
          if j + frames ≤ MAX_PT_SIZE then
            let r := scanWindow m (t * MAX_PT_SIZE) j frames
            readTable t j frames ::
              if r.1 = frames then [writeTable t j frames] else searchTableUses m pd i t frames fuel (r.2 + 1)
          else
            let counter := Nat.count (fun k => Unalloc m (t * MAX_PT_SIZE + j + k)) (MAX_PT_SIZE - j)
            readTable t j (MAX_PT_SIZE - j) ::
              if counter = MAX_PT_SIZE - j then
                if i ≠ MAX_PT_SIZE - 1 then
                  readDir (i + 1) ::
                    if (m (pd + (i + 1))).pres = false then spillAbsentUses m pd i t j counter frames
                    else spillPresentUses m pd i t j counter frames
                else searchTableUses m pd i t frames fuel (j + 1)
              else searchTableUses m pd i t frames fuel (j + 1)
        else searchTableUses m pd i t frames fuel (j + 1)
    else []

/-! ## The search over many tables -/

/-- The accesses of `scanTable`. -/
def scanTableUses (m : Mem) (t total : ℕ) : ℕ → ℕ → ℕ → Footprint PtUse
  | 0, _, _ => []
  | n + 1, k, counter =>
    let counter := if Unalloc m (t * MAX_PT_SIZE + k) then (counter + 1) % 2 ^ 32 else 0
    readTable t k 1 :: if counter = total then [] else scanTableUses m t total n (k + 1) counter

/-- The accesses of `manySearch`. -/
def manySearchUses (m : Mem) (pd i initial_pde_counter frames : ℕ) : ℕ → ℕ → ℕ → ℕ → Footprint PtUse
  | 0, _, _, _ => []
  | fuel + 1, j, counter, t =>
    let total := frames + initial_pde_counter * MAX_PT_SIZE
    if j < initial_pde_counter + (if frames > 0 then 1 else 0) then
      let r := scanTable m (t * MAX_PT_SIZE) total MAX_PT_SIZE 0 counter
      scanTableUses m t total MAX_PT_SIZE 0 counter ++
        let counter := r.1
        if counter > 0 ∨ counter = total then
          let j := j + 1
          if i + j < MAX_PT_SIZE then
            readDir (i + j) ::
              if (m (pd + (i + j))).pres = false then
                if j > 2 then
                  if counter > (j - 2) * MAX_PT_SIZE then
                    manySearchUses m pd i initial_pde_counter frames fuel initial_pde_counter total t
                  else manySearchUses m pd i initial_pde_counter frames fuel j counter t
                else manySearchUses m pd i initial_pde_counter frames fuel initial_pde_counter total t
              else manySearchUses m pd i initial_pde_counter frames fuel j counter
                (m (pd + (i + j))).base.toNat
          else manySearchUses m pd i initial_pde_counter frames fuel j counter t
        else
          manySearchUses m pd i initial_pde_counter frames fuel
            (initial_pde_counter + if frames > 0 then 1 else 0) counter t
    else []

/-- The accesses of `ensureTable` for directory entry `i`: the search ends with the first free page. -/
def ensureTableUses (m : Mem) (pd i : ℕ) : Footprint PtUse :=
  readDir i ::
    if (m (pd + i)).pres = false then
      match firstFreePage m with
      | some p =>
        (List.range (p + 1)).flatMap (fun k => [readTable (PT_FRAME + k) 0 1]) ++ newTableUses i
          (PT_FRAME + p)
      | none => (List.range MAX_PT_SIZE).flatMap fun k => [readTable (PT_FRAME + k) 0 1]
    else []

/-- The accesses of `markTables`. -/
def markTablesUses (pd : ℕ) : ℕ → Mem → ℕ → ℕ → Footprint PtUse
  | 0, _, _, _ => []
  | fuel + 1, m, i, counter =>
    if counter > 0 then
      let m' := ensureTable m (pd + (i + 1))
      let t := (m' (pd + (i + 1))).base.toNat
      ensureTableUses m pd (i + 1) ++ readDir (i + 1) :: writeTable t 0 (min counter MAX_PT_SIZE) ::
        markTablesUses pd fuel (setValid m' (t * MAX_PT_SIZE) (min counter MAX_PT_SIZE)) (i + 1)
          (counter - min counter MAX_PT_SIZE)
    else []

/-! ## The main loop -/

/-- The accesses of `vmallocLoop`. -/
def vmallocLoopUses (pd initial_pde_counter : ℕ) : ℕ → Mem → ℕ → ℕ → ℕ → Footprint PtUse
  | 0, _, _, _, _ => []
  | fuel + 1, m, i, frames, counter =>
    if i = MAX_PT_SIZE then []
    else
      readDir i ::
        if (m (pd + i)).pres = false then
          if initial_pde_counter = 0 ∨ i + initial_pde_counter + (if frames > 0 then 1 else 0) <
            MAX_PT_SIZE then
            freshTablesUses pd initial_pde_counter m i frames
          else []
        else
          let t := (m (pd + i)).base.toNat
          if initial_pde_counter = 0 ∨ (initial_pde_counter = 1 ∧ frames = 0) then
            let frames := frames + initial_pde_counter * MAX_PT_SIZE
            searchTableUses m pd i t frames MAX_PT_SIZE 0 ++
              match searchTable m pd i (t * MAX_PT_SIZE) frames MAX_PT_SIZE 0 counter with
              | .next counter => vmallocLoopUses pd initial_pde_counter fuel m (i + 1) frames counter
              | _ => []
          else
            let total := frames + initial_pde_counter * MAX_PT_SIZE
            manySearchUses m pd i initial_pde_counter frames fuel 0 counter t ++
              match manySearch m pd i initial_pde_counter frames fuel 0 counter 0 (t * MAX_PT_SIZE) with
              | .ok r =>
                if r.1 = total then
                  let j := (r.2 + 2 ^ 32 - i * PAGE_SIZE * MAX_PT_SIZE % 2 ^ 32) % 2 ^ 32 / PAGE_SIZE
                  let m := setValid m (t * MAX_PT_SIZE + j) (MAX_PT_SIZE - j)
                  readDir i :: writeTable t j (MAX_PT_SIZE - j) ::
                    (markTablesUses pd fuel m i (total - (MAX_PT_SIZE - j)) ++
                      match markTables pd fuel m i (total - (MAX_PT_SIZE - j)) with
                      | .ok s => vmallocLoopUses pd initial_pde_counter fuel s.1 (s.2 + 1) frames 0
                      | _ => [])
                else vmallocLoopUses pd initial_pde_counter fuel m (i + 1) frames r.1
              | _ => []

/-- The accesses of `vmalloc`. -/
def vmallocUses (fuel : ℕ) (m : Mem) (page_addr nbytes junk : ℕ) : Footprint PtUse :=
  let frames := if nbytes / PAGE_SIZE < 1 then 1 else nbytes / PAGE_SIZE
  let initial_pde_counter := frames / MAX_PT_SIZE
  let frames := frames - initial_pde_counter * MAX_PT_SIZE
  if initial_pde_counter + (if frames > 0 then 1 else 0) < MAX_PT_SIZE then
    vmallocLoopUses (page_addr / 4) initial_pde_counter fuel m 8 frames junk
  else []

/-! ## What may be reached -/

/-- The pages of entries that a call may use: the directory, and tables in pages of the area; and it
may write to a table only that a present entry of the heap points at, or to a free page. -/
def PtReach (m : Mem) (d : ℕ) (u : PtUse) : Prop :=
  match u.page with
  | .dir => PT_FRAME ≤ d ∧ d < PT_FRAME + 1024
  | .table f => (PT_FRAME ≤ f ∧ f < PT_FRAME + 1024) ∧ (u.write = true →
    (∃ i < 1024, 8 ≤ i ∧ (m (d * 1024 + i)).pres = true ∧ tableOf m d i = f) ∨ PageFree m f)

open Classical in
/-- The number of entries of a page that a call may use. -/
noncomputable def ptSize (m : Mem) (d : ℕ) (u : PtUse) : ℕ := if PtReach m d u then 1024 else 0

/-- The call reads and writes only entries that there are, and that it may reach. -/
def UsesOk (m : Mem) (d : ℕ) (l : Footprint PtUse) : Prop := Within (ptSize m d) l

section

variable {m : Mem} {d i f first count : ℕ} {l : Footprint PtUse} {u : PtUse}

/-- An access to a page that may be reached. -/
theorem usesOk_cons (hu : PtReach m d u) (hb : first + count ≤ 1024) (hl : UsesOk m d l) :
    UsesOk m d (⟨u, first, count⟩ :: l) := by
  refine within_cons.mpr ⟨.inr ?_, hl⟩
  unfold ptSize
  rwa [if_pos hu]

variable {g : PageMap} (h : Layout m g) (hd : g.role d = .dir)

include h hd

/-- A read of an entry of the directory is one of the accesses that are allowed. -/
theorem usesOk_readDir (hi : i < 1024) (hl : UsesOk m d l) : UsesOk m d (readDir i :: l) := by
  have := h.dir_bounds hd
  exact usesOk_cons (show PT_FRAME ≤ d ∧ d < PT_FRAME + 1024 by omega) hi hl

/-- A write of an entry of the directory is one of the accesses that are allowed. -/
theorem usesOk_writeDir (hi : i < 1024) (hl : UsesOk m d l) : UsesOk m d (writeDir i :: l) := by
  have := h.dir_bounds hd
  exact usesOk_cons (show PT_FRAME ≤ d ∧ d < PT_FRAME + 1024 by omega) hi hl

omit h hd in
/-- A read within a page of the area is one of the accesses that are allowed. -/
theorem usesOk_readPage (hf : PT_FRAME ≤ f ∧ f < PT_FRAME + 1024)
    (hb : first + count ≤ 1024) (hl : UsesOk m d l) :
    UsesOk m d (readTable f first count :: l) := usesOk_cons ⟨hf, nofun⟩ hb hl

/-- The table of a present entry may be read. -/
theorem usesOk_readTable (h8 : 8 ≤ i) (hi : i < g.len d) (hb : first + count ≤ 1024) (hl : UsesOk m d l) :
    UsesOk m d (readTable (tableOf m d i) first count :: l) := by
  have := h.table_bounds (h.table_role hd h8 hi)
  exact usesOk_readPage ⟨by unfold tableOf; omega, this.2⟩ hb hl

/-- The table of a present entry may be written. -/
theorem usesOk_writeTable (h8 : 8 ≤ i) (hi : i < g.len d) (hb : first + count ≤ 1024) (hl : UsesOk m d l) :
    UsesOk m d (writeTable (tableOf m d i) first count :: l) := by
  have := h.table_bounds (h.table_role hd h8 hi)
  have hle := (h.dir d hd).len_le
  have hp := ((h.dir d hd).pres_iff i (by omega)).mpr hi
  exact usesOk_cons ⟨⟨by unfold tableOf; omega, this.2⟩, fun _ => .inl ⟨i, by omega, h8, hp, rfl⟩⟩ hb hl

omit h hd in
/-- A write within a free page of the area is one of the accesses that are allowed. -/
theorem usesOk_writePage (hf : PT_FRAME ≤ f ∧ f < PT_FRAME + 1024)
    (hfree : PageFree m f) (hb : first + count ≤ 1024)
    (hl : UsesOk m d l) : UsesOk m d (writeTable f first count :: l) :=
  usesOk_cons ⟨hf, fun _ => .inr hfree⟩ hb hl

omit h hd in
/-- The search for a run of free pages looks at pages of the area. -/
theorem findFreeRun_uses (need : ℕ) : UsesOk m d (findFreeRunUses m need) := by
  have hle : (findFreeRun m need).1 ≤ 0 + 1024 := runSearch_le need MAX_PT_SIZE 0 need
  exact within_flatMap.mpr fun k hk => usesOk_readPage ⟨by omega, by omega⟩ (by decide) within_nil

/-- The loop that makes tables writes to free pages, and to directory entries. -/
theorem allocTables_uses {frames last : ℕ} (hframes : frames ≤ 1024) (hlast : last ≤ PT_FRAME + 1024) :
    ∀ (r fuel : ℕ) (m' : Mem) (i f : ℕ), f + r = last → PT_FRAME ≤ f → i + r ≤ 1024 →
      (∀ k < r, PageFree m (f + k)) → UsesOk m d (allocTablesUses (d * 1024) frames last fuel m' i f) := by
  -- The directory is no free page, so the tables do not overlap it.
  have hdfree : ¬ PageFree m d := by
    have hb := h.dir_bounds hd
    intro hf
    rw [h.pageFree_iff (by rw [hd]; decide), hd] at hf
    cases hf
  -- The induction is on the tables that are left.
  intro r
  induction r with
  | zero =>
    intro fuel m' i f hf _ _ _
    cases fuel with
    | zero => exact within_nil
    | succ fuel =>
      rw [allocTablesUses, if_neg (by omega)]
      exact within_nil
  | succ r ih =>
    intro fuel m' i f hf hlo hi hfree
    cases fuel with
    | zero => exact within_nil
    | succ fuel =>
      have hfree₀ : PageFree m f := hfree 0 (by omega)
      have hdf : (d * 1024 + i) / 1024 ≠ f := by
        rw [show (d * 1024 + i) / 1024 = d by omega]
        exact fun he => hdfree (he ▸ hfree₀)
      -- The entry just written names the page of the new table.
      have hbase : (newTable m' (d * 1024 + i) f (d * 1024 + i)).base.toNat = f := by
        rw [newTable_pde (by omega), pdeTable, base_frame (by omega)]
      have hn : (if frames > 0 ∧ f + 1 = last then frames else MAX_PT_SIZE) ≤ 1024 := by
        simp only [MAX_PT_SIZE]
        split_ifs <;> omega
      have hbound : PT_FRAME ≤ f ∧ f < PT_FRAME + 1024 := by omega
      rw [allocTablesUses, if_pos (by omega)]
      simp only [hbase]
      -- The entry is written, the table filled, the entry read back and the pages marked.
      refine usesOk_writeDir h hd (by omega) (usesOk_writePage hbound hfree₀ (by decide) ?_)
      refine usesOk_readDir h hd (by omega) (usesOk_writePage hbound hfree₀ (by omega) ?_)
      refine ih fuel _ (i + 1) (f + 1) (by omega) (by omega) (by omega) fun k hk => ?_
      have := hfree (k + 1) (by omega)
      rwa [show f + (k + 1) = f + 1 + k by omega] at this

/-- The branch for an absent entry makes only accesses that are allowed. -/
theorem freshTables_uses {q i frames : ℕ} (hframes : frames ≤ 1024) (h1 : 1 ≤ q + if frames > 0 then 1 else 0)
    (hi : i + (q + if frames > 0 then 1 else 0) ≤ 1024) :
    UsesOk m d (freshTablesUses (d * 1024) q m i frames) := by
  unfold freshTablesUses
  generalize (q + if frames > 0 then 1 else 0) = need at *
  dsimp only
  refine within_append.mpr ⟨findFreeRun_uses need, ?_⟩
  split_ifs with hrun
  · obtain ⟨h₁, h₂, hw⟩ := (findFreeRun_spec m h1).1 hrun
    refine allocTables_uses h hd hframes (by omega) need _ m i _ (by omega) (by omega) hi fun k hk => ?_
    have : PageFree m (PT_FRAME + ((findFreeRun m need).1 - need + k)) := hw k hk
    rwa [show PT_FRAME + ((findFreeRun m need).1 - need + k) =
      PT_FRAME + (findFreeRun m need).1 - need + k by omega] at this
  · exact within_nil

/-! ## The searches -/

/-- A spill into an absent entry makes no table, and it writes to the table of the entry before. -/
theorem spillAbsent_uses {n j counter : ℕ} (hn : n ≤ 1024) (h8 : 8 ≤ i) (hi : i < g.len d) (hj : j < 1024) :
    UsesOk m d (spillAbsentUses m (d * 1024) i (tableOf m d i) j counter n) := by
  have hle := (h.dir d hd).len_le
  have hsys : ¬ PageFree (setValid m (tableOf m d i * 1024 + j) (1024 - j)) PT_FRAME := by
    intro hf
    have := (h.pageFree_iff (h.role_page_ne_outside (p := 0) (by decide))).mp (pageFree_of_setValid hf)
    rw [add_zero, (h.role_system PT_FRAME).mpr (by omega)] at this
    cases this
  unfold spillAbsentUses
  simp only [MAX_PT_SIZE, hsys, if_false, setValid_base, List.append_nil]
  refine usesOk_writeTable h hd h8 hi (by omega) (usesOk_readPage ⟨le_refl _, by omega⟩ (by decide) ?_)
  exact usesOk_readDir h hd (by omega) (usesOk_writeTable h hd h8 hi (by omega) within_nil)

/-- A spill into a present entry reads its table, and writes to both. -/
theorem spillPresent_uses {n j counter : ℕ} (hn : n ≤ 1024)
    (h8 : 8 ≤ i) (hi : i + 1 < g.len d) (hj : j < 1024) :
    UsesOk m d (spillPresentUses m (d * 1024) i (tableOf m d i) j counter n) := by
  unfold spillPresentUses
  refine usesOk_readTable h hd (by omega) hi (by omega) ?_
  simp only [MAX_PT_SIZE]
  split_ifs with hsum
  · exact usesOk_writeTable h hd h8 (by omega) (by omega)
      (usesOk_writeTable h hd (by omega) hi (by omega) within_nil)
  · exact within_nil

/-- The search in one table stays in this table and the next. -/
theorem searchTable_uses {n : ℕ} (hn : n ≤ 1024) (h8 : 8 ≤ i) (hi : i < g.len d) :
    ∀ fuel j, UsesOk m d (searchTableUses m (d * 1024) i (tableOf m d i) n fuel j) := by
  have hle := (h.dir d hd).len_le
  intro fuel
  induction fuel with
  | zero => exact fun j => within_nil
  | succ fuel ih =>
    intro j
    rw [searchTableUses]
    simp only [MAX_PT_SIZE]
    by_cases hj : j < 1024
    · rw [if_pos hj]
      refine usesOk_readTable h hd h8 hi hj ?_
      split_ifs with hfree hfit hwin hall hlast habs
      · exact usesOk_readTable h hd h8 hi hfit (usesOk_writeTable h hd h8 hi hfit within_nil)
      · exact usesOk_readTable h hd h8 hi hfit (ih _)
      · -- The request spills over the end of the table.
        refine usesOk_readTable h hd h8 hi (by omega) (usesOk_readDir h hd (by omega) ?_)
        exact spillAbsent_uses h hd hn h8 hi hj
      · refine usesOk_readTable h hd h8 hi (by omega) (usesOk_readDir h hd (by omega) ?_)
        have hp : (m (d * 1024 + (i + 1))).pres = true := by simpa using habs
        exact spillPresent_uses h hd hn h8 (((h.dir d hd).pres_iff (i + 1) (by omega)).mp hp) hj
      · exact usesOk_readTable h hd h8 hi (by omega) (ih _)
      · exact usesOk_readTable h hd h8 hi (by omega) (ih _)
      · exact ih _
    · rw [if_neg hj]
      exact within_nil

/-- The scan of a table stays in the table. -/
theorem scanTable_uses {total : ℕ} (h8 : 8 ≤ i) (hi : i < g.len d) :
    ∀ r k counter, k + r ≤ 1024 → UsesOk m d (scanTableUses m (tableOf m d i) total r k counter) := by
  intro r
  induction r with
  | zero => exact fun k counter _ => within_nil
  | succ r ih =>
    intro k counter hk
    rw [scanTableUses]
    refine usesOk_readTable h hd h8 hi (by omega) ?_
    generalize (if Unalloc m (tableOf m d i * MAX_PT_SIZE + k) then (counter + 1) % 2 ^ 32 else 0) = counter'
    split_ifs
    · exact within_nil
    · exact ih _ _ (by omega)

/-- The search over many tables stays in the tables of present entries. -/
theorem manySearch_uses {q frames : ℕ} :
    ∀ fuel j counter i', 8 ≤ i → 8 ≤ i' → i' < g.len d →
      UsesOk m d (manySearchUses m (d * 1024) i q frames fuel j counter (tableOf m d i')) := by
  have hle := (h.dir d hd).len_le
  intro fuel
  induction fuel with
  | zero => exact fun j counter i' _ _ _ => within_nil
  | succ fuel ih =>
    intro j counter i' h8 h8' hi'
    rw [manySearchUses]
    generalize (q + if frames > 0 then 1 else 0) = need
    dsimp only
    split_ifs with hj hc hlt habs h2 hmore
    · refine within_append.mpr ⟨scanTable_uses h hd h8' hi' _ _ _ (le_refl _), ?_⟩
      exact usesOk_readDir h hd hlt (ih _ _ _ h8 h8' hi')
    · refine within_append.mpr ⟨scanTable_uses h hd h8' hi' _ _ _ (le_refl _), ?_⟩
      exact usesOk_readDir h hd hlt (ih _ _ _ h8 h8' hi')
    · refine within_append.mpr ⟨scanTable_uses h hd h8' hi' _ _ _ (le_refl _), ?_⟩
      exact usesOk_readDir h hd hlt (ih _ _ _ h8 h8' hi')
    · -- The next entry is present, and the search goes on in its table.
      refine within_append.mpr ⟨scanTable_uses h hd h8' hi' _ _ _ (le_refl _), ?_⟩
      have hp : (m (d * 1024 + (i + (j + 1)))).pres = true := by simpa using habs
      exact usesOk_readDir h hd hlt (ih _ _ (i + (j + 1)) h8 (by omega) (((h.dir d hd).pres_iff _ hlt).mp hp))
    · exact within_append.mpr ⟨scanTable_uses h hd h8' hi' _ _ _ (le_refl _), ih _ _ _ h8 h8' hi'⟩
    · exact within_append.mpr ⟨scanTable_uses h hd h8' hi' _ _ _ (le_refl _), ih _ _ _ h8 h8' hi'⟩
    · exact within_nil

/-! ## The main loop -/

/-- The turn at the first absent entry, or behind the last entry. -/
theorem vmallocLoop_uses_end {q frames : ℕ} (hframes : frames ≤ 1024)
    (h1 : 1 ≤ q + if frames > 0 then 1 else 0)
    (fuel counter : ℕ) : UsesOk m d (vmallocLoopUses (d * 1024) q (fuel + 1) m (g.len d) frames counter) := by
  have hle := (h.dir d hd).len_le
  rw [vmallocLoopUses]
  simp only [MAX_PT_SIZE]
  by_cases hlen : g.len d = 1024
  · rw [if_pos hlen]
    exact within_nil
  · have hpres : (m (d * 1024 + g.len d)).pres = false := by
      have := mt ((h.dir d hd).pres_iff (g.len d) (by omega)).mp (lt_irrefl _)
      simpa using this
    rw [if_neg hlen, if_pos hpres]
    refine usesOk_readDir h hd (by omega) ?_
    by_cases hroom : q = 0 ∨ g.len d + q + (if frames > 0 then 1 else 0) < 1024
    · rw [if_pos hroom]
      refine freshTables_uses h hd hframes h1 ?_
      split_ifs at hroom ⊢ <;> omega
    · rw [if_neg hroom]
      exact within_nil

/-- One turn at a present entry for a request of at most one table. -/
theorem vmallocLoop_uses_present {q n frames : ℕ} (hn : n ≤ 1024)
    (hq : q = 0 ∧ frames = n ∨ q = 1 ∧ frames = 0 ∧ n = 1024)
    (h8 : 8 ≤ i) (hi : i < g.len d) (fuel counter : ℕ)
    (hnext : ∀ k, searchTable m (d * 1024) i (tableOf m d i * 1024) n 1024 0 counter = .next k →
      UsesOk m d (vmallocLoopUses (d * 1024) q fuel m (i + 1) n k)) :
    UsesOk m d (vmallocLoopUses (d * 1024) q (fuel + 1) m i frames counter) := by
  have hle := (h.dir d hd).len_le
  have hpres : (m (d * 1024 + i)).pres = true := ((h.dir d hd).pres_iff i (by omega)).mpr hi
  have hframes : frames + q * 1024 = n := by omega
  rw [vmallocLoopUses]
  simp only [MAX_PT_SIZE]
  rw [if_neg (by omega), if_neg (by rw [hpres]; decide), if_pos (by omega), hframes]
  refine usesOk_readDir h hd (by omega) (within_append.mpr ⟨searchTable_uses h hd hn h8 hi _ _, ?_⟩)
  change UsesOk m d (match searchTable m (d * 1024) i (tableOf m d i * 1024) n 1024 0 counter with
    | .next counter => vmallocLoopUses (d * 1024) q fuel m (i + 1) n counter | _ => [])
  cases hs : searchTable m (d * 1024) i (tableOf m d i * 1024) n 1024 0 counter with
  | done m' va => exact within_nil
  | next k => exact hnext k hs
  | wild => exact within_nil

/-- The walk for a request of less than one table. -/
theorem vmallocLoop_uses_small {n : ℕ} (h1 : 1 ≤ n) (hn : n < 1024) :
    ∀ fuel i counter, 8 ≤ i → i ≤ g.len d → UsesOk m d (vmallocLoopUses (d * 1024) 0 fuel m i n counter) := by
  intro fuel
  induction fuel with
  | zero => exact fun i counter _ _ => within_nil
  | succ fuel ih =>
    intro i counter h8 hi
    rcases Nat.lt_or_ge i (g.len d) with hlt | hge
    · exact vmallocLoop_uses_present h hd hn.le (.inl ⟨rfl, rfl⟩) h8 hlt fuel counter fun k _ =>
        ih _ _ (by omega) hlt
    · obtain rfl : i = g.len d := by omega
      exact vmallocLoop_uses_end h hd hn.le (by split_ifs <;> omega) fuel counter

/-- The walk for a request of many tables whose search finds nothing. -/
theorem vmallocLoop_uses_many {n q frames : ℕ} (hn : n = frames + q * 1024)
    (hf : frames < 1024) (h1 : 1024 < n)
    (h32 : n < 2 ^ 32) (hmiss : ManyMiss m d n) :
    ∀ fuel i counter, 8 ≤ i → i ≤ g.len d → (i = 8 ∨ counter = 0) →
      UsesOk m d (vmallocLoopUses (d * 1024) q fuel m i frames counter) := by
  have hle := (h.dir d hd).len_le
  have hlen := h.presentEntries_eq hd
  intro fuel
  induction fuel with
  | zero => exact fun i counter _ _ _ => within_nil
  | succ fuel ih =>
    intro i counter h8 hi hc
    rcases Nat.lt_or_ge i (g.len d) with hlt | hge
    · have hpres : (m (d * 1024 + i)).pres = true := ((h.dir d hd).pres_iff i (by omega)).mpr hlt
      have hfirst : counter = 0 ∨ ¬ FreeEntry m d i 0 := by
        rcases hc with rfl | hc
        · exact .inr (hmiss.first (by omega))
        · exact .inl hc
      rw [vmallocLoopUses]
      simp only [MAX_PT_SIZE]
      rw [if_neg (by omega), if_neg (by rw [hpres]; decide), if_neg (by omega)]
      refine usesOk_readDir h hd (by omega) (within_append.mpr ⟨manySearch_uses h hd _ _ _ _ h8 h8 hlt, ?_⟩)
      have hsearch := manySearch_miss h hd hn hf (by omega) h32 hmiss h8 hlt fuel counter 0 hfirst
      change UsesOk m d (match manySearch m (d * 1024) i q frames fuel 0 counter 0 (tableOf m d i * 1024) with
        | .ok r => _ | _ => [])
      -- The search ends with a counter that is zero, and nothing is marked.
      rcases hsearch with ⟨hh, -⟩ | ⟨va', hok⟩
      · rw [hh]
        exact within_nil
      · rw [hok]
        dsimp only
        rw [if_neg (by omega)]
        exact ih _ _ (by omega) hlt (.inr rfl)
    · obtain rfl : i = g.len d := by omega
      exact vmallocLoop_uses_end h hd hf.le (by split_ifs <;> omega) fuel counter

/-- **`vmalloc` stays in bounds.** A safe call reads and writes only entries that there are, and
that it may reach. -/
theorem vmalloc_within {nbytes n : ℕ} (hn : n = requestPages nbytes)
    (hs : VmallocSafe m d n) (fuel junk : ℕ) :
    UsesOk m d (vmallocUses fuel m (d * 4096) nbytes junk) := by
  have h8 := (h.dir d hd).len_ge
  have hpres := h.presentEntries_eq hd
  -- The request in tables and entries of a table.
  have h1 : 1 ≤ n := by
    rw [hn, requestPages]
    split_ifs <;> omega
  have htables : n / 1024 + (if n - n / 1024 * 1024 > 0 then 1 else 0) = tablesFor n := by
    unfold tablesFor
    split_ifs <;> omega
  unfold vmallocUses
  rw [← requestPages, ← hn, show d * 4096 / 4 = d * 1024 by omega]
  dsimp only [MAX_PT_SIZE]
  rw [htables]
  by_cases hroom : tablesFor n < 1024
  · rw [if_pos hroom]
    rcases hs with hlt | ⟨heq, hone⟩ | ⟨hgt, hmany⟩
    -- Less than one table.
    · rw [show n - n / 1024 * 1024 = n by omega, show n / 1024 = 0 by omega]
      exact vmallocLoop_uses_small h hd h1 hlt fuel 8 junk (le_refl 8) h8
    · rw [show n - n / 1024 * 1024 = 0 by omega, show n / 1024 = 1 by omega]
      cases fuel with
      | zero => exact within_nil
      | succ fuel =>
        rcases Nat.lt_or_ge 8 (g.len d) with hlt | hge
        · -- Table 8 ends the walk.
          have hst : Stops m d n 8 := hone.resolve_left (by omega)
          refine vmallocLoop_uses_present h hd heq.le (.inr ⟨rfl, rfl, heq⟩)
            (le_refl 8) hlt fuel junk fun k hk => ?_
          rcases searchTable_stops h hd h1 heq.le (le_refl 8) hlt junk with ⟨-, m', va, -, he⟩ | ⟨hns, -⟩
          · cases hk.symm.trans he
          · exact absurd hst hns
        · have hlen : g.len d = 8 := by omega
          have he := vmallocLoop_uses_end h hd (show 0 ≤ 1024 by decide) (q := 1) (by decide) fuel junk
          rwa [hlen] at he
    -- More than one table, whose search finds nothing.
    · have hmiss : ManyMiss m d n := hmany.resolve_left (by omega)
      refine vmallocLoop_uses_many h hd (by omega) (by omega) hgt ?_ hmiss fuel 8 junk
        (le_refl 8) h8 (.inl rfl)
      unfold tablesFor at hroom
      omega
  · rw [if_neg hroom]
    exact within_nil

end

end Xinu
