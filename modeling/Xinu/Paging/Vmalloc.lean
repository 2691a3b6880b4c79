import Xinu.Paging.Directory
import Xinu.Lib.Scan

/-!
# `vmalloc`

`system/vmalloc.c`, branch by branch. The main loop (`vmallocLoop`) walks the caller's directory from
entry 8. An absent entry is served by a run of free pages of the page-table area (`freshTables`); a
present one is searched alone when the request fits in one table (`searchTable`), and else together
with its successors (`manySearch`, `markTables`). The loops that can run for ever take fuel. `junk` is
the value that the local variable `counter` happens to have at entry: the source reads it, in the search
over many tables, before it has set it.
-/

namespace Xinu

open FlatMemory

/-! ## Entries and pages -/

/-- A directory entry as `vmalloc` writes it, for the table in frame `f`. -/
def pdeTable (f : ℕ) : Entry :=
  ⟨true, true, false, true, true, true, false, false, false, 3#3, BitVec.ofNat 20 f⟩

/-- A table entry as `vmalloc` initialises it. -/
def pteEmpty : Entry :=
  ⟨false, true, false, true, true, true, false, false, false, 2#3, 0#20⟩

/-- `for (j = 0; j < MAX_PT_SIZE; j++)`: every entry of the table in frame `f` is initialised. -/
def initTable (m : Mem) (f : ℕ) : Mem := fill m (f * MAX_PT_SIZE) MAX_PT_SIZE fun _ _ => pteEmpty

/-- `pt[k].pt_avail = 3` for the `n` words from `lo`. -/
def setValid (m : Mem) (lo n : ℕ) : Mem := fill m lo n fun _ e => { e with avail := 3#3 }

/-- `pt[k].pt_avail != 3`. -/
def Unalloc (m : Mem) (w : ℕ) : Prop := (m w).avail ≠ 3#3

instance (m : Mem) (w : ℕ) : Decidable (Unalloc m w) := inferInstanceAs (Decidable (_ ≠ _))

/-- A page of the page-table area is free for `vmalloc` when `pt[0].pt_avail == 0`. -/
def PageFree (m : Mem) (f : ℕ) : Prop := (m (f * MAX_PT_SIZE)).avail = 0#3

instance (m : Mem) (f : ℕ) : Decidable (PageFree m f) := inferInstanceAs (Decidable (_ = _))

/-- The directory entry at word `pde` gets a table in the free page `f`. -/
def newTable (m : Mem) (pde f : ℕ) : Mem := initTable (write m pde (pdeTable f)) f

/-! ## Fresh directory entries -/

/-- The search for `need` consecutive free pages of the area. It returns `counter`, one more than the index of
the last page that it looked at, and `pde_counter`, which is zero when the run is complete. -/
def findFreeRun (m : Mem) (need : ℕ) : ℕ × ℕ :=
  Scan.runSearch (fun k => PageFree m (PT_FRAME + k)) need MAX_PT_SIZE 0 need

/-- The loop that gives directory entry `i` and its successors the pages from `f` up to `last`. The
base address is read back from the entry just written, and the last table gets only `frames` valid
pages when `frames > 0`. -/
def allocTables (pd frames last : ℕ) : ℕ → Mem → ℕ → ℕ → Res Mem
  | 0, _, _, _ => .hang
  | fuel + 1, m, i, f =>
    if f < last then
      let m := newTable m (pd + i) f
      let base := (m (pd + i)).base.toNat
      let n := if frames > 0 ∧ base + 1 = last then frames else MAX_PT_SIZE
      allocTables pd frames last fuel (setValid m (base * MAX_PT_SIZE) n) (i + 1) (base + 1)
    else .ok m

/-- The branch for an absent directory entry `i` with room behind it. When no run of free pages is
long enough, the source restores CR3 but not the interrupt mask. -/
def freshTables (user_cr3 pd initial_pde_counter : ℕ) (c : Cpu) (i frames : ℕ) :
    Res (Option ℕ × Cpu) :=
  let va_pt_addr := i * PAGE_SIZE * MAX_PT_SIZE % 2 ^ 32
  let mask := c.disable.1
  let c := c.disable.2
  let need := initial_pde_counter + if frames > 0 then 1 else 0
  let run := findFreeRun c.mem need
  if run.2 = 0 then do
    let last := PT_FRAME + run.1
    let m ← allocTables pd frames last (MAX_PT_SIZE + 1) c.mem i (last - need)
    .ok (some va_pt_addr, ((c.withMem m).writeCr3 user_cr3).restore mask)
  else .ok (none, c.writeCr3 user_cr3)

/-! ## The search in one table -/

/-- `for (k = 0; k < frames; k++)` over the window at `pt[j]`: how many entries are not allocated,
and the index of the last one that is. -/
def scanWindow (m : Mem) (pt j frames : ℕ) : ℕ × ℕ :=
  Scan.window (fun k => Unalloc m (pt + k)) j frames

/-- How the search in one table ends: it marks pages and returns an address, it falls out of its
loop with a value of `counter`, or it reads a next table that is not mapped. -/
inductive TableSearch where
  | done (m : Mem) (va : ℕ)
  | next (counter : ℕ)
  | wild

/-- The request spills over the end of table `i` into an absent entry. The loop that should find a
free page for table `i + 1` ends after the first page of the area, and the rest of the request is
marked in table `i` again. -/
def spillAbsent (m : Mem) (pd i pt j counter frames : ℕ) : TableSearch :=
  let va := (i * PAGE_SIZE * MAX_PT_SIZE + PAGE_SIZE * j) % 2 ^ 32
  let m := setValid m (pt + j) (MAX_PT_SIZE - j)
  let m := if PageFree m PT_FRAME then newTable m (pd + (i + 1)) PT_FRAME else m
  .done (setValid m (m (pd + i)).table (frames - counter)) va

/-- The request spills over the end of table `i` into the present table `i + 1`, or the search of table `i` is
given up (`j = MAX_PT_SIZE`). -/
def spillPresent (m : Mem) (pd i pt j counter frames : ℕ) : TableSearch :=
  let temp_pt := (m (pd + (i + 1))).table
  if Mapped temp_pt then
    let counter_v2 := Nat.count (fun k => Unalloc m (temp_pt + k)) frames
    if counter + counter_v2 = frames then
      let va := (i * PAGE_SIZE * MAX_PT_SIZE + PAGE_SIZE * j) % 2 ^ 32
      .done (setValid (setValid m (pt + j) (MAX_PT_SIZE - j)) temp_pt counter_v2) va
    else .next counter
  else .wild

/-- `for (j = 0; j < MAX_PT_SIZE; j++)` over the present table `i` at the word `pt`. Every turn raises `j`, so
`MAX_PT_SIZE` turns of fuel are enough. -/
def searchTable (m : Mem) (pd i pt frames : ℕ) : ℕ → ℕ → ℕ → TableSearch
  | 0, _, counter => .next counter
  | fuel + 1, j, counter =>
    if j < MAX_PT_SIZE then
      if Unalloc m (pt + j) then
        if j + frames ≤ MAX_PT_SIZE then
          let r := scanWindow m pt j frames
          if r.1 = frames then
            .done (setValid m (pt + j) frames)
              ((i * PAGE_SIZE * MAX_PT_SIZE + PAGE_SIZE * j) % 2 ^ 32)
          else searchTable m pd i pt frames fuel (r.2 + 1) r.1
        else
          let counter := Nat.count (fun k => Unalloc m (pt + j + k)) (MAX_PT_SIZE - j)
          if counter = MAX_PT_SIZE - j then
            if i ≠ MAX_PT_SIZE - 1 then
              if (m (pd + (i + 1))).pres = false then spillAbsent m pd i pt j counter frames
              else spillPresent m pd i pt j counter frames
            else searchTable m pd i pt frames fuel (j + 1) counter
          else searchTable m pd i pt frames fuel (j + 1) counter
      else searchTable m pd i pt frames fuel (j + 1) counter
    else .next counter

/-! ## The search over many tables -/

/-- `for (k = 0; k < MAX_PT_SIZE; k++)` over one table: `counter` counts the entries since the last
allocated one, and the loop ends early (with `k = MAX_PT_SIZE + 1`) when it reaches `total`. -/
def scanTable (m : Mem) (pt total : ℕ) : ℕ → ℕ → ℕ → ℕ × ℕ
  | 0, k, counter => (counter, k)
  | n + 1, k, counter =>
    let counter := if Unalloc m (pt + k) then (counter + 1) % 2 ^ 32 else 0
    if counter = total then (counter, MAX_PT_SIZE + 1)
    else scanTable m pt total n (k + 1) counter

/-- `while (j < initial_pde_counter + (frames > 0))`, from the present entry `i`: the values of `counter` and
`va_pt_addr` when it ends. -/
def manySearch (m : Mem) (pd i initial_pde_counter frames : ℕ) :
    ℕ → ℕ → ℕ → ℕ → ℕ → Res (ℕ × ℕ)
  | 0, _, _, _, _ => .hang
  | fuel + 1, j, counter, va, pt =>
    let total := frames + initial_pde_counter * MAX_PT_SIZE
    if j < initial_pde_counter + (if frames > 0 then 1 else 0) then
      if Mapped pt then
        let r := scanTable m pt total MAX_PT_SIZE 0 counter
        let counter := r.1
        if counter > 0 ∨ counter = total then
          let j := j + 1
          let va := if j = 1 then
              (i * PAGE_SIZE * MAX_PT_SIZE + PAGE_SIZE * ((r.2 + 2 ^ 32 - counter) % 2 ^ 32)) % 2 ^ 32
            else va
          if i + j < MAX_PT_SIZE then
            if (m (pd + (i + j))).pres = false then
              if j > 2 then
                if counter > (j - 2) * MAX_PT_SIZE then
                  manySearch m pd i initial_pde_counter frames fuel initial_pde_counter total va pt
                else manySearch m pd i initial_pde_counter frames fuel j counter va pt
              else manySearch m pd i initial_pde_counter frames fuel initial_pde_counter total va pt
            else
              manySearch m pd i initial_pde_counter frames fuel j counter va
                (m (pd + (i + j))).table
          else manySearch m pd i initial_pde_counter frames fuel j counter va pt
        else
          manySearch m pd i initial_pde_counter frames fuel
            (initial_pde_counter + if frames > 0 then 1 else 0) counter va pt
      else .wild
    else .ok (counter, va)

/-- The first free page of the area, as the loop over `base_addr` finds it. -/
def firstFreePage (m : Mem) : Option ℕ :=
  (List.range MAX_PT_SIZE).find? fun p => PageFree m (PT_FRAME + p)

/-- `if (pd[i].pd_pres == 0)`: an absent directory entry gets a table in the first free page. With
no page left it stays absent and keeps its old base. -/
def ensureTable (m : Mem) (pde : ℕ) : Mem :=
  if (m pde).pres = false then
    match firstFreePage m with
    | some p => newTable m pde (PT_FRAME + p)
    | none => m
  else m

/-- `while (counter > 0)`: the tables after `i` are marked, new ones are made for absent entries,
and `i` ends at the last table marked. -/
def markTables (pd : ℕ) : ℕ → Mem → ℕ → ℕ → Res (Mem × ℕ)
  | 0, _, _, _ => .hang
  | fuel + 1, m, i, counter =>
    if counter > 0 then
      if Mapped (pd + (i + 1)) then
        let m := ensureTable m (pd + (i + 1))
        let pt := (m (pd + (i + 1))).table
        if Mapped pt then
          markTables pd fuel (setValid m pt (min counter MAX_PT_SIZE)) (i + 1)
            (counter - min counter MAX_PT_SIZE)
        else .wild
      else .wild
    else .ok (m, i)

/-! ## The main loop -/

/-- `while (i != MAX_PT_SIZE)`. After the search over many tables has marked its pages, the source
goes on with the next entry instead of returning. -/
def vmallocLoop (user_cr3 pd initial_pde_counter : ℕ) :
    ℕ → Cpu → ℕ → ℕ → ℕ → Res (Option ℕ × Cpu)
  | 0, _, _, _, _ => .hang
  | fuel + 1, c, i, frames, counter =>
    if i = MAX_PT_SIZE then .ok (none, c.writeCr3 user_cr3)
    else if ¬ Mapped (pd + i) then .wild
    else if (c.mem (pd + i)).pres = false then
      if initial_pde_counter = 0 ∨
          i + initial_pde_counter + (if frames > 0 then 1 else 0) < MAX_PT_SIZE then
        freshTables user_cr3 pd initial_pde_counter c i frames
      else .ok (none, c.writeCr3 user_cr3)
    else
      let pt := (c.mem (pd + i)).table
      if ¬ Mapped pt then .wild
      else if initial_pde_counter = 0 ∨ (initial_pde_counter = 1 ∧ frames = 0) then
        let frames := frames + initial_pde_counter * MAX_PT_SIZE
        match searchTable c.mem pd i pt frames MAX_PT_SIZE 0 counter with
        | .done m va =>
          let mask := c.disable.1
          .ok (some va, ((c.disable.2.withMem m).writeCr3 user_cr3).restore mask)
        | .next counter => vmallocLoop user_cr3 pd initial_pde_counter fuel c (i + 1) frames counter
        | .wild => .wild
      else do
        let total := frames + initial_pde_counter * MAX_PT_SIZE
        let r ← manySearch c.mem pd i initial_pde_counter frames fuel 0 counter 0 pt
        if r.1 = total then
          let j := (r.2 + 2 ^ 32 - i * PAGE_SIZE * MAX_PT_SIZE % 2 ^ 32) % 2 ^ 32 / PAGE_SIZE
          let m := setValid c.mem (pt + j) (MAX_PT_SIZE - j)
          let s ← markTables pd fuel m i (total - (MAX_PT_SIZE - j))
          vmallocLoop user_cr3 pd initial_pde_counter fuel (c.withMem s.1) (s.2 + 1) frames 0
        else vmallocLoop user_cr3 pd initial_pde_counter fuel c (i + 1) frames r.1

/-- `vmalloc(nbytes)` by a process whose directory is at `page_addr`: the address, or `none` for `SYSERR`. -/
def vmalloc (fuel : ℕ) (c : Cpu) (page_addr nbytes junk : ℕ) : Res (Option ℕ × Cpu) :=
  let user_cr3 := c.cr3
  let c := c.writeCr3 (c.cr3At PAGE_DIR_ADDR_START)
  let frames := if nbytes / PAGE_SIZE < 1 then 1 else nbytes / PAGE_SIZE
  let initial_pde_counter := frames / MAX_PT_SIZE
  let frames := frames - initial_pde_counter * MAX_PT_SIZE
  if initial_pde_counter + (if frames > 0 then 1 else 0) < MAX_PT_SIZE then
    vmallocLoop user_cr3 (page_addr / 4) initial_pde_counter fuel c 8 frames junk
  else .ok (none, c.writeCr3 user_cr3)

end Xinu
