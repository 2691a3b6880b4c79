import Xinu.Lfs.Blocks

/-!
# Local files

`lfsetup`, `lflgetc`, `lflputc`, `lflseek`, `lftruncate` and the other functions of `device/lfs`,
one call after the other: a call gives back the mutex of its file and that of the directory before
it returns. Where nothing is returned, the call does not return: it panics, or a loop does not end.
`lflread` and `lflwrite` only repeat `lflgetc` and `lflputc`.
-/

namespace Xinu

/-- `F_CTL_TRUNC`. -/
abbrev LF_CTL_TRUNC : ℤ := 2

/-- The device of the first entry of `lfltab`. -/
abbrev LFILE0 : ℤ := 18

/-- More steps than there are numbers of blocks: a loop that takes them does not end. -/
abbrev LF_STEPS : ℕ := 2 ^ 32

/-- `struct lflcblk`. `lfbyte` is the place in `lfdblock`, or `LF_BLKSIZ` behind it. -/
structure LfFile extends Lflcblk where
  /-- The device. -/
  lfdev : ℤ
  /-- The position in the file. -/
  lfpos : ℕ
  /-- The number of the index block in memory. -/
  lfinum : ℤ
  /-- That index block. -/
  lfiblock : Lfiblk
  /-- The number of the data block in memory. -/
  lfdnum : ℤ
  /-- That data block. -/
  lfdblock : Dblock
  /-- The place of the next byte in the data block. -/
  lfbyte : ℕ
  /-- Whether the index block is newer than the one on disk. -/
  lfibdirty : Bool
  /-- Whether the data block is. -/
  lfdbdirty : Bool

/-- `Lf_data` and `lfltab`, with the disk. -/
structure Lfs extends Lfdata where
  /-- The control blocks of the devices for files. -/
  lfltab : ℕ → LfFile

namespace Lfdata

/-- `lfflush(lfptr)`. -/
def lfflush (d : Lfdata) (lfptr : LfFile) : Lfdata × LfFile :=
  if ¬ lfptr.lfused then (d, lfptr)
  else
    let d := if d.lf_dirdirty then { d.writeDir with lf_dirdirty := false } else d
    let d := if lfptr.lfdbdirty then d.writeBlock lfptr.lfdnum lfptr.lfdblock else d
    let d := if lfptr.lfibdirty then d.lfibput lfptr.lfinum lfptr.lfiblock else d
    (d, { lfptr with lfdbdirty := false, lfibdirty := false })

/-- The first part of `lfsetup`: an index block at or before the position. -/
def setupIndex (d : Lfdata) (lfptr : LfFile) : Option (Lfdata × LfFile) :=
  if lfptr.lfinum = LF_INULL then
    let ldptr := d.entry lfptr.lfdirptr
    if ldptr.ld_ilist = LF_INULL then
      d.lfiballoc.map fun (ibnum, d) =>
        (d.setEntry lfptr.lfdirptr { d.entry lfptr.lfdirptr with ld_ilist := ibnum },
          { lfptr with lfiblock := lfptr.lfiblock.lfibclear 0, lfibdirty := true, lfinum := ibnum })
    else some (d, { lfptr with lfiblock := d.disk.lfibget ldptr.ld_ilist, lfinum := ldptr.ld_ilist })
  else if lfptr.lfpos < lfptr.lfiblock.ib_offset then
    let ibnum := (d.entry lfptr.lfdirptr).ld_ilist
    some (d, { lfptr with lfiblock := d.disk.lfibget ibnum, lfinum := ibnum })
  else some (d, lfptr)

/-- One step of the loop of `lfsetup`: the next index block, which is allocated if there is none. -/
def setupNext (d : Lfdata) (lfptr : LfFile) : Option (Lfdata × LfFile) :=
  if lfptr.lfiblock.ib_next = LF_INULL then
    d.lfiballoc.map fun (ibnum, d) =>
      let old := { lfptr.lfiblock with ib_next := ibnum }
      (d.lfibput lfptr.lfinum old,
        { lfptr with
          lfinum := ibnum, lfiblock := old.lfibclear ((old.ib_offset + LF_IDATA) % 2 ^ 32)
          lfibdirty := true, lfdnum := LF_DNULL })
  else
    let ibnum := lfptr.lfiblock.ib_next
    some (d, { lfptr with lfiblock := d.disk.lfibget ibnum, lfinum := ibnum, lfdnum := LF_DNULL })

/-- The loop of `lfsetup`: until the index block covers the position, which without its low bits is
at most the offset. -/
def setupLoop : ℕ → Lfdata → LfFile → Option (Lfdata × LfFile)
  | 0, _, _ => none
  | n + 1, d, lfptr =>
    if lfptr.lfpos / LF_IDATA * LF_IDATA > lfptr.lfiblock.ib_offset then
      (d.setupNext lfptr).bind fun (d, lfptr) => setupLoop n d lfptr
    else some (d, lfptr)

/-- The rest of `lfsetup`: the data block. -/
def setupData (d : Lfdata) (lfptr : LfFile) : Option (Lfdata × LfFile) :=
  let dindex := lfptr.lfpos % LF_IDATA / LF_BLKSIZ
  let dnum := lfptr.lfiblock.ib_dba dindex
  let lfbyte := lfptr.lfpos % LF_BLKSIZ
  if dnum = LF_DNULL then
    d.lfdballoc.map fun (dnum, lfdblock, d) =>
      (d, { lfptr with
            lfiblock := { lfptr.lfiblock with ib_dba := Function.update lfptr.lfiblock.ib_dba dindex dnum }
            lfibdirty := true, lfdblock := lfdblock, lfdnum := dnum, lfbyte := lfbyte })
  else if dnum ≠ lfptr.lfdnum then
    some
      (d, { lfptr with lfdblock := d.disk.dblks dnum, lfdbdirty := false, lfdnum := dnum, lfbyte := lfbyte })
  else some (d, { lfptr with lfdnum := dnum, lfbyte := lfbyte })

/-- `lfsetup(lfptr)`. -/
def lfsetup (d : Lfdata) (lfptr : LfFile) : Option (Lfdata × LfFile) :=
  let flushed := if lfptr.lfibdirty ∨ lfptr.lfdbdirty then d.lfflush lfptr else (d, lfptr)
  (flushed.1.setupIndex flushed.2).bind fun (d, lfptr) =>
    (setupLoop LF_STEPS d lfptr).bind fun (d, lfptr) => d.setupData lfptr

/-- `lfsetup`, if the position is not in the data block. -/
def setupIf (d : Lfdata) (lfptr : LfFile) : Option (Lfdata × LfFile) :=
  if lfptr.lfbyte ≥ LF_BLKSIZ then d.lfsetup lfptr else some (d, lfptr)

/-- The end of `lflputc`, with the data block. -/
def putByte (d : Lfdata) (lfptr : LfFile) (ch : UInt8) : Lfdata × LfFile :=
  let ldptr := d.entry lfptr.lfdirptr
  let d :=
    if lfptr.lfpos ≥ ldptr.ld_size then
      { d.setEntry lfptr.lfdirptr { ldptr with ld_size := (ldptr.ld_size + 1) % 2 ^ 32 } with
        lf_dirdirty := true }
    else d
  (d, { lfptr with
        lfdblock := Function.update lfptr.lfdblock lfptr.lfbyte ch, lfbyte := lfptr.lfbyte + 1
        lfpos := (lfptr.lfpos + 1) % 2 ^ 32, lfdbdirty := true })

/-- `lflputc(devptr, ch)`. -/
def lflputc (d : Lfdata) (lfptr : LfFile) (ch : UInt8) : Option ((Lfdata × LfFile) × ℤ) :=
  if ¬ lfptr.lfused then some ((d, lfptr), SYSERR)
  else if lfptr.lfpos > (d.entry lfptr.lfdirptr).ld_size then some ((d, lfptr), SYSERR)
  else (d.setupIf lfptr).map fun (d, lfptr) => (d.putByte lfptr ch, OK)

/-- `lflgetc(devptr)`. -/
def lflgetc (d : Lfdata) (lfptr : LfFile) : Option ((Lfdata × LfFile) × ℤ) :=
  if ¬ lfptr.lfused then some ((d, lfptr), SYSERR)
  else if lfptr.lfpos ≥ (d.entry lfptr.lfdirptr).ld_size then some ((d, lfptr), EOF)
  else
    (d.setupIf lfptr).map fun (d, lfptr) =>
      ((d, { lfptr with lfbyte := lfptr.lfbyte + 1, lfpos := (lfptr.lfpos + 1) % 2 ^ 32 }),
        ((lfptr.lfdblock lfptr.lfbyte).toNat : ℤ))

/-- `lflseek(devptr, offset)`. -/
def lflseek (d : Lfdata) (lfptr : LfFile) (offset : ℕ) : (Lfdata × LfFile) × ℤ :=
  if ¬ lfptr.lfused then ((d, lfptr), SYSERR)
  else if offset > (d.entry lfptr.lfdirptr).ld_size then ((d, lfptr), SYSERR)
  else ((d, { lfptr with lfpos := offset, lfbyte := LF_BLKSIZ }), OK)

/-- The inner loop of `lftruncate`: the data blocks of an index block are freed. -/
def freeDba (d : Lfdata) (unused : ℤ → Dblock) (ib_dba : ℕ → ℤ) : List ℕ → Lfdata
  | [] => d
  | i :: is =>
    let nextdb := ib_dba i
    freeDba (if nextdb ≠ LF_DNULL then d.lfdbfree (unused nextdb) nextdb else d) unused ib_dba is

/-- The loop of `lftruncate`, from `nextib` on. -/
def truncateLoop (unused : ℤ → Dblock) (ifree : ℤ) : ℕ → ℤ → Lfdata → Option Lfdata
  | 0, _, _ => none
  | n + 1, nextib, d =>
    if nextib = ifree then some d
    else
      let iblock := d.disk.lfibget nextib
      let d := d.freeDba unused iblock.ib_dba (List.range LF_IBLEN)
      let next := if iblock.ib_next = LF_INULL then ifree else iblock.ib_next
      truncateLoop unused ifree n next (d.lfibput nextib { iblock.lfibclear 0 with ib_next := next })

/-- `lftruncate(lfptr)`. What the buffers of the freed blocks hold is not known. -/
def lftruncate (d : Lfdata) (lfptr : LfFile) (unused : ℤ → Dblock) : Option ((Lfdata × LfFile) × ℤ) :=
  if (d.entry lfptr.lfdirptr).ld_size = 0 then some ((d, lfptr), OK)
  else
    let flushed := if lfptr.lfibdirty ∨ lfptr.lfdbdirty then d.lfflush lfptr else (d, lfptr)
    let d := flushed.1
    let lfptr := { flushed.2 with lfpos := 0, lfinum := LF_INULL, lfdnum := LF_DNULL, lfbyte := LF_BLKSIZ }
    let ldptr := d.entry lfptr.lfdirptr
    let firstib := ldptr.ld_ilist
    let d :=
      { d.setEntry lfptr.lfdirptr { ldptr with ld_ilist := LF_INULL, ld_size := 0 } with lf_dirdirty := true }
    (truncateLoop unused d.lf_dir.lfd_ifree LF_STEPS firstib d).map fun d =>
      (({ d with lf_dir := { d.lf_dir with lfd_ifree := firstib }, lf_dirdirty := true }, lfptr), OK)

/-- `lflcontrol(devptr, func, arg1, arg2)`. -/
def lflcontrol (d : Lfdata) (lfptr : LfFile) (func : ℤ) (unused : ℤ → Dblock) :
    Option ((Lfdata × LfFile) × ℤ) :=
  if ¬ lfptr.lfused then some ((d, lfptr), SYSERR)
  else if func = LF_CTL_TRUNC then d.lftruncate lfptr unused
  else some ((d, lfptr), SYSERR)

/-- `lflclose(devptr)`. -/
def lflclose (d : Lfdata) (lfptr : LfFile) : (Lfdata × LfFile) × ℤ :=
  if ¬ lfptr.lfused then ((d, lfptr), SYSERR)
  else
    let flushed := if d.lf_dirdirty ∨ lfptr.lfdbdirty ∨ lfptr.lfibdirty then d.lfflush lfptr else (d, lfptr)
    ((flushed.1, { flushed.2 with lfused := false }), OK)

/-- `lfsopen`: the directory, which is read if it is not present, and whether it is that of a file system. -/
def present (d : Lfdata) : Lfdata × Bool :=
  if d.lf_dirpresent then (d, true)
  else if ¬ d.disk.dir.lfscheck then ({ d with lf_dir := d.disk.dir }, false)
  else ({ d with lf_dir := d.disk.dir, lf_dirpresent := true }, true)

end Lfdata

namespace Lfs

/-- Other data, and another control block for a device. -/
def put (s : Lfs) (i : ℕ) (r : Lfdata × LfFile) : Lfs :=
  { s with toLfdata := r.1, lfltab := Function.update s.lfltab i r.2 }

/-- The control block that `put` replaces. -/
theorem put_self (s : Lfs) (i : ℕ) (r : Lfdata × LfFile) : (s.put i r).lfltab i = r.2 :=
  Function.update_self ..

/-- The other control blocks stay. -/
theorem put_other (s : Lfs) {i j : ℕ} (r : Lfdata × LfFile) (hj : j ≠ i) :
    (s.put i r).lfltab j = s.lfltab j :=
  Function.update_of_ne hj _ _

/-- `lfsopen(devptr, name, mode)`. -/
def lfsopen (s : Lfs) (name mode : CString) : Lfs × ℤ :=
  if s.lf_dskdev < 0 then (s, SYSERR)
  else if name.length ≥ LF_NAME_LEN then (s, SYSERR)
  else
    match lfgetmode mode, LfsTable.searchOpen (fun i => (s.lfltab i).toLflcblk) name
        (List.range Nlfl) none with
    | some mbits, some (some lfnext) =>
      let r := s.toLfdata.present
      let s := { s with toLfdata := r.1 }
      if ¬ r.2 then (s, SYSERR)
      else
        match LfsTable.place s.lf_dir.lfd_files ⟨0, name, mbits, lfnext⟩ with
        | none => (s, SYSERR)
        | some (ldptr, files) =>
          let lfptr :=
            { s.lfltab lfnext with
              lfused := true, lfdirptr := ldptr, lfmode := mbits &&& LF_MODE_RW, lfpos := 0, lfname := name
              lfinum := LF_INULL, lfdnum := LF_DNULL, lfbyte := LF_BLKSIZ
              lfibdirty := false, lfdbdirty := false }
          (s.put lfnext ({ s.toLfdata with lf_dir := { s.lf_dir with lfd_files := files } }, lfptr),
            lfptr.lfdev)
    | _, _ => (s, SYSERR)

end Lfs

/-- The calls, for the device of some entry of `lfltab`. -/
inductive LfEvent where
  | lfsopen (name mode : CString)
  | lflputc (i : ℕ) (ch : UInt8)
  | lflgetc (i : ℕ)
  | lflseek (i : ℕ) (offset : ℕ)
  | lflcontrol (i : ℕ) (func : ℤ) (unused : ℤ → Dblock)
  | lflclose (i : ℕ)

/-- One call, with its result. -/
def Lfs.exec (s : Lfs) : LfEvent → Option (Lfs × ℤ)
  | .lfsopen name mode => some (s.lfsopen name mode)
  | .lflputc i ch => (s.toLfdata.lflputc (s.lfltab i) ch).map fun r => (s.put i r.1, r.2)
  | .lflgetc i => (s.toLfdata.lflgetc (s.lfltab i)).map fun r => (s.put i r.1, r.2)
  | .lflseek i offset => let r := s.toLfdata.lflseek (s.lfltab i) offset; some (s.put i r.1, r.2)
  | .lflcontrol i func unused =>
    (s.toLfdata.lflcontrol (s.lfltab i) func unused).map fun r => (s.put i r.1, r.2)
  | .lflclose i => let r := s.toLfdata.lflclose (s.lfltab i); some (s.put i r.1, r.2)

/-- `lfsinit` and `lflinit`. -/
def Lfs.booted (disk : LfDisk) : Lfs where
  lf_dskdev := -1
  lf_dir := ⟨0, 0, 0, 0, 0, [], 0⟩
  lf_dirpresent := false
  lf_dirdirty := false
  disk := disk
  lfltab i :=
    { lfused := false, lfmutex := .create 1, lfdirptr := 0, lfmode := 0, lfname := [], lfdev := LFILE0 + i,
      lfpos := 0, lfinum := LF_INULL
      lfiblock := ⟨0, 0, fun _ => 0⟩, lfdnum := 0, lfdblock := fun _ => 0, lfbyte := LF_BLKSIZ
      lfibdirty := false, lfdbdirty := false }

/-- `lfscreate`, after a boot with a disk of any contents. -/
def Lfs.created (disk : LfDisk) (dev lfiblks : ℤ) (dsiz : ℕ) : Lfs :=
  { Lfs.booted disk with toLfdata := ((Lfs.booted disk).toLfdata.lfscreate dev lfiblks dsiz).1 }

end Xinu
