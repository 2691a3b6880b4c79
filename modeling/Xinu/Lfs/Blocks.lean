import Xinu.Lfs.Open

/-!
# The disk of the local file system

The directory, the index blocks and the data blocks, in memory and on disk, with the functions of
`device/lfs` that read, write, allocate and free them. The disk is kept by area: sector 0, the index
blocks, seven in a sector, and the sectors of the data area. The bytes of two index blocks never
overlap (`ib2disp_disjoint`), and a number that is on a list of the file system is one of its area
(`Store`), so that no write of one area is seen in another one. Reads and writes of the disk
succeed.
-/

namespace Xinu

/-- `LF_BLKSIZ`. -/
abbrev LF_BLKSIZ : ℕ := 512

/-- `LF_DNULL`. -/
abbrev LF_DNULL : ℤ := -1

/-- `LF_IBLEN`. -/
abbrev LF_IBLEN : ℕ := 16

/-- `LF_IDATA`. -/
abbrev LF_IDATA : ℕ := 8192

/-- `LF_AREA_IB`. -/
abbrev LF_AREA_IB : ℕ := 1

/-- `LFS_ID`. -/
abbrev LFS_ID : ℕ := 0x58696E75

/-- `LFS_ID` in reverse byte order. -/
abbrev LFS_REVID : ℕ := 0x756E6958

/-- `NDEVS`. -/
abbrev NDEVS : ℕ := 24

/-- `sizeof(struct lfiblk)`. -/
abbrev sizeofLfiblk : ℕ := 72

/-- `ib2sect(ib)`. -/
def ib2sect (ib : ℕ) : ℕ := ib / 7 + LF_AREA_IB

/-- `ib2disp(ib)`. -/
def ib2disp (ib : ℕ) : ℕ := ib % 7 * sizeofLfiblk

/-- Index blocks lie inside a sector, and two of them do not overlap. -/
theorem ib2disp_disjoint (a b : ℕ) : ib2disp a + sizeofLfiblk ≤ LF_BLKSIZ ∧
    (a ≠ b → ib2sect a ≠ ib2sect b ∨ ib2disp a + sizeofLfiblk ≤ ib2disp b ∨
      ib2disp b + sizeofLfiblk ≤ ib2disp a) := by
  have hsize : sizeofLfiblk = 72 := rfl
  have hsector : LF_BLKSIZ = 512 := rfl
  rw [ib2disp, ib2disp, ib2sect, ib2sect, hsize, hsector]
  omega

/-- `struct lfiblk`. -/
structure Lfiblk where
  /-- The next index block. -/
  ib_next : ℤ
  /-- The offset in the file of the first byte that is indexed here. -/
  ib_offset : ℕ
  /-- The numbers of the data blocks. -/
  ib_dba : ℕ → ℤ

/-- `struct lfdir`, with the `lfd_nfiles` first of `lfd_files`. -/
structure Lfdir where
  /-- The identifier of a file system. -/
  lfd_fsysid : ℕ
  /-- All bits are 0. -/
  lfd_allzeros : ℕ
  /-- All bits are 1. -/
  lfd_allones : ℕ
  /-- The first free data block. -/
  lfd_dfree : ℤ
  /-- The first free index block. -/
  lfd_ifree : ℤ
  /-- The entries of the files. -/
  lfd_files : List Ldentry
  /-- The identifier with its bytes reversed. -/
  lfd_revid : ℕ
  deriving DecidableEq

/-- The bytes of a data block. -/
abbrev Dblock := ℕ → UInt8

/-- The disk, by area. -/
structure LfDisk where
  /-- The directory. -/
  dir : Lfdir
  /-- The index blocks. -/
  iblks : ℤ → Lfiblk
  /-- The data blocks. -/
  dblks : ℤ → Dblock

/-- `Lf_data`, with the disk. -/
structure Lfdata where
  /-- The device of the disk. -/
  lf_dskdev : ℤ
  /-- The directory in memory. -/
  lf_dir : Lfdir
  /-- Whether it has been read. -/
  lf_dirpresent : Bool
  /-- Whether it is newer than the one on disk. -/
  lf_dirdirty : Bool
  /-- The disk. -/
  disk : LfDisk

/-- `lf_nextdb`, in the first four bytes of a free block. -/
@[irreducible] def lf_nextdb (dbuff : Dblock) : ℤ :=
  int32 ((dbuff 0).toNat + 2 ^ 8 * (dbuff 1).toNat + 2 ^ 16 * (dbuff 2).toNat + 2 ^ 24 * (dbuff 3).toNat)

/-- A free block that points to the next one. The other bytes are those that were in memory. -/
def lfdbfreeBlock (lf_nextdb : ℤ) (unused : Dblock) : Dblock := fun o =>
  if o < 4 then UInt8.ofNat ((lf_nextdb % 2 ^ 32).toNat / 256 ^ o) else unused o

/-- `lfibclear(ibptr, offset)`. -/
def Lfiblk.lfibclear (ibptr : Lfiblk) (offset : ℕ) : Lfiblk where
  ib_offset := offset
  ib_dba i := if i < LF_IBLEN then LF_DNULL else ibptr.ib_dba i
  ib_next := LF_INULL

/-- `lfscheck(dirptr)`. The number of files is not negative here. -/
def Lfdir.lfscheck (dirptr : Lfdir) : Bool :=
  if dirptr.lfd_fsysid ≠ LFS_ID ∨ dirptr.lfd_allzeros ≠ 0 ∨ dirptr.lfd_allones ≠ 0xffffffff then false
  else dirptr.lfd_revid = LFS_REVID

namespace LfDisk

/-- `lfibget(diskdev, inum, ibuff)`. -/
def lfibget (disk : LfDisk) (inum : ℤ) : Lfiblk := disk.iblks inum

/-- `lfibput(diskdev, inum, ibuff)`. -/
def lfibput (disk : LfDisk) (inum : ℤ) (ibuff : Lfiblk) : LfDisk :=
  { disk with iblks := Function.update disk.iblks inum ibuff }

/-- A data block is written. -/
def writeBlock (disk : LfDisk) (dnum : ℤ) (buff : Dblock) : LfDisk :=
  { disk with dblks := Function.update disk.dblks dnum buff }

end LfDisk

namespace Lfdata

/-- The directory is written. -/
def writeDir (d : Lfdata) : Lfdata := { d with disk := { d.disk with dir := d.lf_dir } }

/-- `lfibput`, for the disk of the file system. -/
def lfibput (d : Lfdata) (inum : ℤ) (ibuff : Lfiblk) : Lfdata := { d with disk := d.disk.lfibput inum ibuff }

/-- A data block of the file system is written. -/
def writeBlock (d : Lfdata) (dnum : ℤ) (buff : Dblock) : Lfdata :=
  { d with disk := d.disk.writeBlock dnum buff }

/-- The entry of a file in the directory in memory. -/
def entry (d : Lfdata) (lfdirptr : ℕ) : Ldentry := (d.lf_dir.lfd_files[lfdirptr]?).getD ⟨0, LF_INULL, []⟩

/-- Change an entry. -/
def setEntry (d : Lfdata) (lfdirptr : ℕ) (ld : Ldentry) : Lfdata :=
  { d with lf_dir := { d.lf_dir with lfd_files := d.lf_dir.lfd_files.set lfdirptr ld } }

/-- The directory changes, and is written. -/
def updateDir (d : Lfdata) (dir : Lfdir) : Lfdata :=
  { { d with lf_dir := dir }.writeDir with lf_dirdirty := false }

/-- `lfiballoc()`: nothing stands for `panic`. -/
def lfiballoc (d : Lfdata) : Option (ℤ × Lfdata) :=
  let ibnum := d.lf_dir.lfd_ifree
  if ibnum = LF_INULL then none
  else
    let iblock := d.disk.lfibget ibnum
    some (ibnum, d.updateDir { d.lf_dir with lfd_ifree := iblock.ib_next })

/-- `lfdballoc(dbuff)`, with the buffer: nothing stands for `panic`. -/
def lfdballoc (d : Lfdata) : Option (ℤ × Dblock × Lfdata) :=
  let dnum := d.lf_dir.lfd_dfree
  if dnum = LF_DNULL then none
  else
    let dbuff := d.disk.dblks dnum
    -- memset(dbuff, '+', LF_BLKSIZ)
    some (dnum, fun _ => 43, d.updateDir { d.lf_dir with lfd_dfree := lf_nextdb dbuff })

/-- `lfdbfree(diskdev, dnum)`. -/
def lfdbfree (d : Lfdata) (unused : Dblock) (dnum : ℤ) : Lfdata :=
  let buf := lfdbfreeBlock d.lf_dir.lfd_dfree unused
  ({ d with lf_dir := { d.lf_dir with lfd_dfree := dnum } }.writeBlock dnum buf).writeDir

/-- The directory of a file system without files. -/
def emptyDir (dfree : ℤ) : Lfdir := ⟨LFS_ID, 0, 0xffffffff, dfree, 0, [], LFS_REVID⟩

/-- The index blocks of a new file system, on one list. Without index blocks, block 0 is written. -/
def freeIndices (disk : LfDisk) (lfiblks : ℕ) : LfDisk :=
  let iblock := Lfiblk.lfibclear ⟨0, 0, fun _ => 0⟩ 0
  let disk :=
    (List.range (lfiblks - 1)).foldl (fun disk i => disk.lfibput i { iblock with ib_next := i + 1 }) disk
  disk.lfibput ((lfiblks - 1 : ℕ) : ℤ) iblock

/-- The data blocks of a new file system, on one list. -/
def freeBlocks (disk : LfDisk) (dbindex dblks : ℕ) : LfDisk :=
  let steps := (dblks + (2 ^ 32 - 1)) % 2 ^ 32 -- dblks - 1, unsigned
  let disk := (List.range steps).foldl
    (fun disk i => disk.writeBlock ((dbindex + i : ℕ) : ℤ)
      (lfdbfreeBlock ((dbindex + i + 1 : ℕ) : ℤ) fun _ => 0)) disk
  disk.writeBlock ((dbindex + steps : ℕ) : ℤ) (lfdbfreeBlock LF_DNULL fun _ => 0)

/-- `lfscreate(disk, lfiblks, dsiz)`. -/
def lfscreate (d : Lfdata) (disk : ℤ) (lfiblks : ℤ) (dsiz : ℕ) : Lfdata × ℤ :=
  if disk < 0 ∨ disk ≥ NDEVS ∨ d.lf_dskdev ≥ 0 then (d, SYSERR)
  else
    let d := { d with lf_dskdev := disk }
    let sectors := dsiz / LF_BLKSIZ
    let ibsectors := ((lfiblks + 6) % 2 ^ 32).toNat / 7
    if ibsectors > sectors / 2 then (d, SYSERR)
    else
      let dblks := (sectors + (2 ^ 32 - 1) - ibsectors) % 2 ^ 32 -- sectors - ibsectors - 1, unsigned
      let onDisk := { d.disk with dir := emptyDir ((ibsectors + 1 : ℕ) : ℤ) }
      ({ d with disk := freeBlocks (freeIndices onDisk (ibsectors * 7)) (ibsectors + 1) dblks }, OK)

end Lfdata

end Xinu
