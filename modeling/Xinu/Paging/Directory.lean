import Xinu.Paging.Entry
import Mathlib.Data.Nat.Init

/-!
# The directories that the kernel builds

`initialize_page_table` of `system/initialize.c` builds the system directory and its 25 tables at boot;
`initialize_user_page_dir` of `system/vcreate.c` builds the directory of a new user process in the first
page of the page-table area whose first entry does not have the existence bit.
-/

namespace Xinu

open FlatMemory

/-- The entry to which both initialisers set every directory entry first. -/
def pdeEmpty : Entry :=
  ⟨false, true, false, false, false, false, false, false, false, 2#3, 0#20⟩

/-- The assignments of the second loop of both initialisers: `pd_base`, `pd_pres`, `pd_pwt`, `pd_pcd`,
`pd_acc` and `pd_avail`. -/
def Entry.pointTo (e : Entry) (f : ℕ) : Entry :=
  { e with base := BitVec.ofNat 20 f, pres := true, pwt := true, pcd := true, acc := true,
           avail := 3#3 }

/-- Entry `j` of the system table of index `i`, which maps frame `i * 1024 + j`. The Xinu area (`i < 8`)
is valid from the start; the frames of the FFS area are not. -/
def pteSystem (i j : ℕ) : Entry :=
  ⟨true, true, false, true, true, true, false, false, false, if i < 8 then 3#3 else 2#3,
    BitVec.ofNat 20 (i * MAX_PT_SIZE + j)⟩

/-- One turn of the second loop of `initialize_page_table`. -/
def initSystemTable (i : ℕ) (m : Mem) : Mem :=
  let f := PT_FRAME + (i + 1)
  let pde := PT_FRAME * MAX_PT_SIZE + i
  let m := write m pde ((m pde).pointTo f)
  fill m (f * MAX_PT_SIZE) MAX_PT_SIZE fun j _ => pteSystem i j

/-- `initialize_page_table`: the address of the system directory under the flags of CR3, which it also
loads into CR3. -/
def initializePageTable (c : Cpu) : ℕ × Cpu :=
  let m := fill c.mem (PT_FRAME * MAX_PT_SIZE) MAX_PT_SIZE fun _ _ => pdeEmpty
  let pd_entries := (XINU_PAGES + MAX_FFS_SIZE + MAX_PT_SIZE) / 1024
  let m := Nat.fold pd_entries (fun i _ m => initSystemTable i m) m
  let cr3 := c.cr3At PAGE_DIR_ADDR_START
  (cr3, (c.withMem m).writeCr3 cr3)

/-- The fields that `initialize_user_page_dir` writes into a free page: every entry empty, and the first
eight pointing at the system tables of the Xinu area. -/
def initUserDir (m : Mem) (f : ℕ) : Mem :=
  let m := fill m (f * MAX_PT_SIZE) MAX_PT_SIZE fun _ _ => pdeEmpty
  fill m (f * MAX_PT_SIZE) (XINU_PAGES / 1024) fun i e => e.pointTo (PT_FRAME + (i + 1))

/-- The first page of the page-table area whose first entry lacks the existence bit. The loop of the
source has no bound: with every page taken it runs past the area, where it touches unmapped memory. -/
def firstUnusedPage (m : Mem) : Option ℕ :=
  (List.range MAX_PT_SIZE).find? fun p => !(m ((PT_FRAME + p) * MAX_PT_SIZE)).exist

/-- `initialize_user_page_dir`: the address of the new directory. -/
def initializeUserPageDir (m : Mem) : Res (ℕ × Mem) :=
  match firstUnusedPage m with
  | some p => .ok ((PT_FRAME + p) * PAGE_SIZE, initUserDir m (PT_FRAME + p))
  | none => .wild

end Xinu
