import Xinu.Paging.Directory
import Mathlib.Data.Nat.Count

/-!
# `vfree`, `kill_vm` and the page-fault handler

`system/vfree.c`, the local function `kill_vm` of `system/kill.c`, and `system/pagefault_handler.c`. The
first two share the loop over page-table entries that gives frames back (`releaseEntries`); they differ in
what they leave in an entry.
-/

namespace Xinu

open FlatMemory

/-! ## Giving frames back -/

/-- `for (k = 0; k < MAX_FFS_SIZE; k++) if (ffs_pt[k].pt_base == base) ffs_pt[k].pt_avail = 2`. -/
def freeFrame (m : Mem) (base : BitVec 20) : Mem :=
  fill m FFS_WORD MAX_FFS_SIZE fun _ e => if e.base = base then { e with avail := 2#3 } else e

/-- One turn of the loops that release entries: a present entry gives its frame back, and then the entry is
overwritten. -/
def releaseEntry (clear : Entry → Entry) (m : Mem) (w : ℕ) : Mem :=
  let m := if (m w).pres then freeFrame m (m w).base else m
  write m w (clear (m w))

/-- The loop over the `n` entries from the word `lo`. -/
def releaseEntries (clear : Entry → Entry) (m : Mem) (lo n : ℕ) : Mem :=
  Nat.fold n (fun k _ m => releaseEntry clear m (lo + k)) m

/-- What `vfree` leaves in an entry: `pt_pres = 0`, `pt_avail = 2` and `pt_base = 0`. -/
def vfreeEntry (e : Entry) : Entry := { e with pres := false, avail := 2#3, base := 0#20 }

/-! ## `vfree` -/

/-- The first loop of `vfree`: the table whose entries bound the accepted addresses, and the directory
index `j` that stands for it in the bound. Below an absent entry the table is the last present one, but
`j` is the index of the absent one. -/
def lastTable (m : Mem) (pd : ℕ) : ℕ × ℕ :=
  match (List.range' 8 (MAX_PT_SIZE - 8)).find? fun i => !(m (pd + i)).pres with
  | some i => ((m (pd + (i - 1))).table, i)
  | none => ((m (pd + (MAX_PT_SIZE - 1))).table, MAX_PT_SIZE - 1)

/-- The second loop: the address of the last valid entry of that table, counted from index `j`. When the
table has none, `addr` still holds the address of the table itself. -/
def upperBound (m : Mem) (pd : ℕ) : ℕ :=
  let t := lastTable m pd
  match (List.range MAX_PT_SIZE).reverse.find? fun i => (m (t.1 + i)).avail = 3#3 with
  | some i => (t.2 * PAGE_SIZE * MAX_PT_SIZE + PAGE_SIZE * i) % 2 ^ 32
  | none => t.1 * 4 % 2 ^ 32

/-- `(int)ptr`. -/
def toInt32 (ptr : ℕ) : ℤ := if ptr < 2 ^ 31 then ptr else ptr - 2 ^ 32

/-- The directory index that `vfree` computes from a pointer: `(int)ptr / (PAGE_SIZE * MAX_PT_SIZE)`, which
rounds towards zero. -/
def pdIndex (ptr : ℕ) : ℤ := (toInt32 ptr).tdiv (PAGE_SIZE * MAX_PT_SIZE : ℕ)

/-- The table index that `vfree` computes from a pointer; it is negative for an address in the upper half
of the address space that is not the start of a table. -/
def ptIndex (ptr : ℕ) : ℤ :=
  (toInt32 ptr - pdIndex ptr * (PAGE_SIZE * MAX_PT_SIZE : ℕ)).tdiv (PAGE_SIZE : ℕ)

/-- The word `pt[j]` from which `vfree` checks and clears entries, all through the table of the first page. -/
def firstEntry (m : Mem) (pd ptr : ℕ) : ℤ :=
  (m (pd + pdIndex ptr).toNat).table + ptIndex ptr

/-- The turns of `for (i = j; i < (j + pages); i++)`: the comparison is between unsigned values, so a negative
`j` with `j + pages ≥ 0` gives none. -/
def clearCount (j : ℤ) (pages : ℕ) : ℕ := ((j + pages) % 2 ^ 32 - j % 2 ^ 32).toNat

/-- `vfree(ptr, nbytes)` by a process whose directory is at `page_addr`. -/
def vfree (c : Cpu) (page_addr ptr nbytes : ℕ) : Res (Status × Cpu) :=
  let mask := c.disable.1
  let c := c.disable.2
  let user_cr3 := c.cr3
  let c := c.writeCr3 (c.cr3At PAGE_DIR_ADDR_START)
  let pd := page_addr / 4
  let pages := nbytes / PAGE_SIZE
  if ¬ Mapped (lastTable c.mem pd).1 then .wild
  else if ptr < upperBound c.mem pd then
    if pd + pdIndex ptr < 0 ∨ ¬ Mapped (pd + pdIndex ptr).toNat then .wild
    else
      let pt := firstEntry c.mem pd ptr
      if pages ≠ 0 ∧ (pt < 0 ∨ ¬ Mapped (pt.toNat + (pages - 1))) then .wild
      else if Nat.count (fun k => (c.mem (pt.toNat + k)).avail = 3#3) pages = pages then
        let m := releaseEntries vfreeEntry c.mem pt.toNat (clearCount (ptIndex ptr) pages)
        .ok (.ok, ((c.withMem m).writeCr3 user_cr3).restore mask)
      else .ok (.syserr, (c.writeCr3 user_cr3).restore mask)
  else .ok (.syserr, (c.writeCr3 user_cr3).restore mask)

/-! ## `kill_vm` -/

/-- One turn of the outer loop of `kill_vm`: a present entry of the private heap has its table
released, and every directory entry is cleared. -/
def killEntry (pd i : ℕ) (m : Mem) : Mem :=
  let m := if (m (pd + i)).pres ∧ i ≥ XINU_PAGES / MAX_PT_SIZE then
      releaseEntries (fun _ => Entry.zero) m (m (pd + i)).table MAX_PT_SIZE
    else m
  write m (pd + i) Entry.zero

/-- The loops of `kill_vm` over the directory at the word `pd`. -/
def killTables (pd : ℕ) : ℕ → ℕ → Mem → Res Mem
  | 0, _, m => .ok m
  | n + 1, i, m =>
    if (m (pd + i)).pres ∧ i ≥ XINU_PAGES / MAX_PT_SIZE ∧ ¬ Mapped (m (pd + i)).table then .wild
    else killTables pd n (i + 1) (killEntry pd i m)

/-- `kill_vm` for a process whose directory is at `page_addr`. It leaves CR3 at the system
directory, for its caller to switch away from. -/
def killVm (c : Cpu) (page_addr : ℕ) : Res Cpu :=
  let c := c.writeCr3 (c.cr3At PAGE_DIR_ADDR_START)
  if page_addr ≠ PAGE_DIR_ADDR_START then do
    let m ← killTables (page_addr / 4) MAX_PT_SIZE 0 c.mem
    .ok (c.withMem m)
  else .ok c

/-! ## The page-fault handler -/

/-- The first FFS frame without the valid bit. -/
def firstFreeFrame (m : Mem) : Option ℕ :=
  (List.range MAX_FFS_SIZE).find? fun k => !(m (FFS_WORD + k)).valid

/-- The assignments for a free frame `k`: the entry at the word `w` maps it and is present, and it
is used from now on. -/
def useFrame (m : Mem) (w k : ℕ) : Mem :=
  let m := write m w { m w with base := (m (FFS_WORD + k)).base, pres := true }
  write m (FFS_WORD + k) { m (FFS_WORD + k) with avail := 3#3 }

/-- The search over `ffs_pt_k`: the entry at the word `w` gets the first free frame, if there is one. -/
def mapFreeFrame (m : Mem) (w : ℕ) : Mem :=
  match firstFreeFrame m with
  | some k => useFrame m w k
  | none => m

/-- What `pagefault_handler` does before it touches the process table: it maps a free frame, if
there is one, or it finds that the address is not valid and goes on to kill the process. -/
inductive FaultResult where
  | handled (c : Cpu)
  | segv (c : Cpu)

/-- `pagefault_handler` for the faulting address `v_address` and a process whose directory is at
`page_addr`, up to its calls of `kill`. -/
def pagefaultHandler (c : Cpu) (page_addr v_address : ℕ) : Res FaultResult :=
  let c := c.writeCr3 (c.cr3At PAGE_DIR_ADDR_START)
  let pt_index := v_address / PAGE_SIZE % MAX_PT_SIZE
  let pd_index := v_address / 2 ^ 22
  let pde := c.mem (page_addr / 4 + pd_index)
  if pde.valid then
    let w := pde.table + pt_index
    if ¬ Mapped w then .wild
    else if (c.mem w).valid then
      .ok (.handled ((c.withMem (mapFreeFrame c.mem w)).writeCr3 (c.cr3At page_addr)))
    else .ok (.segv c)
  else .ok (.segv c)

/-! ## The counters of `system/utility_functions.c` -/

/-- The nested loops of the two counters that take a process: the entries that satisfy `p`, over the
tables of the present directory entries from `start`. -/
def countEntries (m : Mem) (pd start : ℕ) (p : Entry → Bool) : ℕ :=
  Nat.fold (MAX_PT_SIZE - start) (fun i _ n =>
    if (m (pd + (start + i))).pres then
      n + Nat.count (fun j => p (m ((m (pd + (start + i))).table + j))) MAX_PT_SIZE
    else n) 0

/-- Every table that the loops of `countEntries` read is mapped. -/
def TablesMapped (m : Mem) (pd start : ℕ) : Prop :=
  ∀ i < MAX_PT_SIZE, start ≤ i → (m (pd + i)).pres = true → Mapped (m (pd + i)).table

instance (m : Mem) (pd start : ℕ) : Decidable (TablesMapped m pd start) :=
  Nat.decidableBallLT MAX_PT_SIZE fun i _ =>
    start ≤ i → (m (pd + i)).pres = true → Mapped (m (pd + i)).table

/-- `free_ffs_pages`, called by a process whose directory is at `cur_addr`. -/
def freeFfsPages (c : Cpu) (cur_addr : ℕ) : ℕ × Cpu :=
  let mask := c.disable.1
  let c := c.disable.2
  let c := c.writeCr3 (c.cr3At PAGE_DIR_ADDR_START)
  let free := Nat.count (fun i => (c.mem (FFS_WORD + i)).valid = false) MAX_FFS_SIZE
  (free, (c.writeCr3 (c.cr3At cur_addr)).restore mask)

/-- The frame of `allocated_virtual_pages` and `used_ffs_frames`, which differ in the directory
index from which they count and in the bit they look at. -/
def countPages (c : Cpu) (cur_addr page_addr start : ℕ) (p : Entry → Bool) : Res (ℕ × Cpu) :=
  let mask := c.disable.1
  let c := c.disable.2
  let c := c.writeCr3 (c.cr3At PAGE_DIR_ADDR_START)
  let pd := page_addr / 4
  if Mapped (pd + (MAX_PT_SIZE - 1)) ∧ TablesMapped c.mem pd start then
    .ok (countEntries c.mem pd start p, (c.writeCr3 (c.cr3At cur_addr)).restore mask)
  else .wild

/-- `allocated_virtual_pages` for a process whose directory is at `page_addr`. -/
def allocatedVirtualPages (c : Cpu) (cur_addr page_addr : ℕ) : Res (ℕ × Cpu) :=
  countPages c cur_addr page_addr 0 Entry.valid

/-- `used_ffs_frames` for a process whose directory is at `page_addr`. -/
def usedFfsFrames (c : Cpu) (cur_addr page_addr : ℕ) : Res (ℕ × Cpu) :=
  countPages c cur_addr page_addr (XINU_PAGES / MAX_PT_SIZE) Entry.pres

end Xinu
