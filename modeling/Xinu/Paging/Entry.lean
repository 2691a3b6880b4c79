import Xinu.Lib.FlatMemory

/-!
# Paging structures and control registers

`include/paging.h`, `system/control_reg.c` and the interrupt primitives of `system/intr.S`. Physical
memory is a flat array of 32-bit words that the paging code reads as page-directory or page-table
entries; a word is indexed by its byte address divided by four, so entry `e` of the frame `f` is the
word `f * 1024 + e`.
-/

namespace Xinu

/-! ## Constants of `include/paging.h` -/

/-- The number of pages that Xinu uses by default. -/
abbrev XINU_PAGES : ℕ := 8192

/-- The bytes of a page. -/
abbrev PAGE_SIZE : ℕ := 4096

/-- The frames of the FFS area. -/
abbrev MAX_FFS_SIZE : ℕ := 16 * 1024

/-- The entries of a directory or table, and the frames of the page-table area. -/
abbrev MAX_PT_SIZE : ℕ := 1024

/-- The address of the page-table area, which starts with the system directory. -/
abbrev PAGE_DIR_ADDR_START : ℕ := (XINU_PAGES + MAX_FFS_SIZE) * PAGE_SIZE

/-- The end of the page-table area, and of what the system directory maps. -/
abbrev PD_PT_AREA_END : ℕ := PAGE_DIR_ADDR_START + PAGE_SIZE * MAX_PT_SIZE

/-- The frame of the system directory, `PAGE_DIR_ADDR_START >> 12`. -/
abbrev PT_FRAME : ℕ := PAGE_DIR_ADDR_START / PAGE_SIZE

/-- The word of `ffs_area_pt_base`, where the entries of the FFS frames start. -/
abbrev FFS_WORD : ℕ := (PAGE_DIR_ADDR_START + XINU_PAGES * 4 + PAGE_SIZE) / 4

/-! ## Entries -/

/-- A page-directory or page-table entry. The two layouts of the source differ in the names of bits
6 and 7 only: `dirty` and `mbz` are `pd_mbz` and `pd_fmb` in a directory entry. -/
structure Entry where
  /-- `pd_pres`, `pt_pres`. -/
  pres : Bool
  /-- `pd_write`, `pt_write`. -/
  write : Bool
  /-- `pd_user`, `pt_user`. -/
  user : Bool
  /-- `pd_pwt`, `pt_pwt`. -/
  pwt : Bool
  /-- `pd_pcd`, `pt_pcd`. -/
  pcd : Bool
  /-- `pd_acc`, `pt_acc`. -/
  acc : Bool
  /-- `pd_mbz`, `pt_dirty`. -/
  dirty : Bool
  /-- `pd_fmb`, `pt_mbz`. -/
  mbz : Bool
  /-- `pd_global`, `pt_global`. -/
  global : Bool
  /-- `pd_avail`, `pt_avail`: bit 0 is the valid bit, bit 1 says that the page exists. -/
  avail : BitVec 3
  /-- `pd_base`, `pt_base`: a frame number. -/
  base : BitVec 20
  deriving DecidableEq, Repr

/-- The entry of a cleared word. -/
def Entry.zero : Entry :=
  ⟨false, false, false, false, false, false, false, false, false, 0#3, 0#20⟩

/-- `pt_avail & 1`, the valid bit. -/
def Entry.valid (e : Entry) : Bool := e.avail.getLsbD 0

/-- `pd_avail & (1 << 1)`, the bit that says the page exists. -/
def Entry.exist (e : Entry) : Bool := e.avail.getLsbD 1

/-- An entry with the valid and existence bits set is valid. -/
@[simp]
theorem Entry.valid_of_avail_three {e : Entry} (h : e.avail = 3#3) : e.valid = true := by
  simp [Entry.valid, h]

/-- An entry with the existence bit alone is not valid. -/
@[simp]
theorem Entry.valid_of_avail_two {e : Entry} (h : e.avail = 2#3) : e.valid = false := by
  simp [Entry.valid, h]

/-- Physical memory, by word. -/
abbrev Mem := FlatMemory.Memory Entry

/-- The table or directory that an entry points at, as the word of its first entry:
`(pd_base << 12)` divided by four. -/
def Entry.table (e : Entry) : ℕ := e.base.toNat * MAX_PT_SIZE

/-- Whether the system directory maps a word. It maps everything below `PD_PT_AREA_END` one to one;
a kernel access elsewhere is a page fault inside the kernel. -/
def Mapped (w : ℕ) : Prop := w < PD_PT_AREA_END / 4

instance (w : ℕ) : Decidable (Mapped w) := inferInstanceAs (Decidable (w < _))

/-! ## The processor -/

/-- The processor state that the paging code uses: memory, CR3, and the interrupt flag of
`EFLAGS`. -/
structure Cpu where
  /-- Physical memory. -/
  mem : Mem
  /-- CR3: the address of the directory in force, and 12 low bits of flags. -/
  cr3 : ℕ
  /-- Whether interrupts are enabled. -/
  ie : Bool

/-- How a loop or a call of a paging function ends: with a value, never, or at a word that the system
directory does not map, after which this model says nothing. -/
inductive Res (α : Type) where
  /-- It ends with a value. -/
  | ok (a : α)
  /-- It runs for ever, or the fuel of the call is too small. -/
  | hang
  /-- It touches unmapped memory inside the kernel. -/
  | wild

namespace Res

variable {α β : Type}

/-- Run `f` on the value, if there is one. -/
def bind : Res α → (α → Res β) → Res β
  | ok a, f => f a
  | hang, _ => hang
  | wild, _ => wild

instance : Monad Res where
  pure := ok
  bind := bind

@[simp] theorem pure_eq (a : α) : (pure a : Res α) = ok a := rfl
@[simp] theorem ok_bind (a : α) (f : α → Res β) : (ok a >>= f) = f a := rfl
@[simp] theorem hang_bind (f : α → Res β) : ((hang : Res α) >>= f) = hang := rfl
@[simp] theorem wild_bind (f : α → Res β) : ((wild : Res α) >>= f) = wild := rfl

/-- A sequence that ends with a value has a first part that does. -/
theorem bind_eq_ok {x : Res α} {f : α → Res β} {b : β} (h : (x >>= f) = ok b) :
    ∃ a, x = ok a ∧ f a = ok b := by
  cases x with
  | ok a => exact ⟨a, rfl, h⟩
  | hang => cases h
  | wild => cases h

/-- The computation ends with a value. -/
def isOk : Res α → Bool
  | ok _ => true
  | hang | wild => false

/-- The computation ends with a value that satisfies `P`. -/
def Ends (x : Res α) (P : α → Prop) : Prop := ∃ a, x = ok a ∧ P a

namespace Ends

variable {x : Res α} {f : α → Res β} {P Q : α → Prop} {R : β → Prop}

/-- A value that satisfies `P`. -/
theorem ok {a : α} (h : P a) : (Res.ok a).Ends P := ⟨a, rfl, h⟩

/-- A sequence ends well if its parts do. -/
theorem bind (hx : x.Ends P) (hf : ∀ a, P a → (f a).Ends R) : (x >>= f).Ends R := by
  obtain ⟨a, rfl, ha⟩ := hx
  exact hf a ha

/-- What ends with a property ends with a weaker one. -/
theorem mono (hx : x.Ends P) (h : ∀ a, P a → Q a) : x.Ends Q := by
  obtain ⟨a, rfl, ha⟩ := hx
  exact ok (h a ha)

end Ends

end Res

/-- The result of a system call that returns only whether it worked. -/
inductive Status where
  | ok
  | syserr
  deriving DecidableEq, Repr

namespace Cpu

/-- `write_cr3`. -/
def writeCr3 (c : Cpu) (n : ℕ) : Cpu := { c with cr3 := n }

/-- `(addr & 0xFFFFF000) | (cr3 & 0x00000FFF)`: the directory at `addr` under the flags of CR3. -/
def cr3At (c : Cpu) (addr : ℕ) : ℕ := addr / PAGE_SIZE * PAGE_SIZE + c.cr3 % PAGE_SIZE

/-- `disable()`: the mask in force, and interrupts off. -/
def disable (c : Cpu) : Bool × Cpu := (c.ie, { c with ie := false })

/-- `restore(mask)`. -/
def restore (c : Cpu) (mask : Bool) : Cpu := { c with ie := mask }

/-- Replace the memory. -/
def withMem (c : Cpu) (m : Mem) : Cpu := { c with mem := m }

@[simp] theorem writeCr3_mem (c : Cpu) (n : ℕ) : (c.writeCr3 n).mem = c.mem := rfl
@[simp] theorem writeCr3_cr3 (c : Cpu) (n : ℕ) : (c.writeCr3 n).cr3 = n := rfl
@[simp] theorem writeCr3_ie (c : Cpu) (n : ℕ) : (c.writeCr3 n).ie = c.ie := rfl
@[simp] theorem disable_fst (c : Cpu) : c.disable.1 = c.ie := rfl
@[simp] theorem disable_snd_mem (c : Cpu) : c.disable.2.mem = c.mem := rfl
@[simp] theorem disable_snd_cr3 (c : Cpu) : c.disable.2.cr3 = c.cr3 := rfl
@[simp] theorem disable_snd_ie (c : Cpu) : c.disable.2.ie = false := rfl
@[simp] theorem restore_mem (c : Cpu) (mask : Bool) : (c.restore mask).mem = c.mem := rfl
@[simp] theorem restore_cr3 (c : Cpu) (mask : Bool) : (c.restore mask).cr3 = c.cr3 := rfl
@[simp] theorem restore_ie (c : Cpu) (mask : Bool) : (c.restore mask).ie = mask := rfl
@[simp] theorem withMem_mem (c : Cpu) (m : Mem) : (c.withMem m).mem = m := rfl
@[simp] theorem withMem_cr3 (c : Cpu) (m : Mem) : (c.withMem m).cr3 = c.cr3 := rfl
@[simp] theorem withMem_ie (c : Cpu) (m : Mem) : (c.withMem m).ie = c.ie := rfl

/-- Of two loads of CR3 the second counts. -/
@[simp]
theorem writeCr3_withMem_writeCr3 (c : Cpu) (m : Mem) (a b : ℕ) :
    ((c.writeCr3 a).withMem m).writeCr3 b = (c.withMem m).writeCr3 b := rfl

/-- CR3 set to a directory points at that directory. -/
@[simp]
theorem cr3At_div (c : Cpu) (addr : ℕ) : c.cr3At addr / PAGE_SIZE = addr / PAGE_SIZE := by
  have := Nat.mod_lt c.cr3 (show 0 < PAGE_SIZE by decide)
  rw [cr3At, mul_comm, Nat.mul_add_div (by decide), Nat.div_eq_of_lt this, add_zero]

end Cpu

end Xinu
