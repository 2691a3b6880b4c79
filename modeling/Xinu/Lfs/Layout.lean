import Xinu.Lfs.Files
import Xinu.Lib.Linked

/-!
# Where the bytes of a file are

The index blocks and the data blocks of a file as lists (`LfLayout`), and what the disk and the
control block of the file have to do with them (`Alone`): each block of the file is on disk as it
should be, unless the control block has a newer one that is marked dirty. The two free lists belong
to this too, so that it says all that a call needs to know and may change. `LfMoved` says what a
call may change.
-/

namespace Xinu

/-- The number of a block as a pointer, where -1 is null. -/
def blockPtr (n : ℤ) : Option ℤ := if n = -1 then none else some n

/-- A null pointer is -1. -/
theorem blockPtr_eq_none {n : ℤ} : blockPtr n = none ↔ n = -1 := by simp [blockPtr]

/-- Another pointer is the number of the block. -/
theorem blockPtr_eq_some {n b : ℤ} : blockPtr n = some b ↔ n = b ∧ n ≠ -1 := by
  unfold blockPtr
  split_ifs with h
  · simp [h]
  · simp [h]

/-- The index block behind another one. -/
def LfDisk.nextIb (disk : LfDisk) (b : ℤ) : Option ℤ := blockPtr (disk.iblks b).ib_next

/-- The free data block behind another one. -/
def LfDisk.nextDb (disk : LfDisk) (b : ℤ) : Option ℤ := blockPtr (lf_nextdb (disk.dblks b))

/-- The index blocks and the data blocks of a file, in order, and its bytes. -/
structure LfLayout where
  /-- The index blocks, in order. -/
  ids : List ℤ
  /-- The data blocks, in order. -/
  blocks : List ℤ
  /-- The bytes. -/
  bytes : List UInt8

/-- A file and the free blocks. -/
structure LfAlloc extends LfLayout where
  /-- The free index blocks. -/
  ifree : List ℤ
  /-- The free data blocks. -/
  dfree : List ℤ

/-- This is the `k`-th index block of the file. -/
structure LfLayout.IsIndex (f : LfLayout) (k : ℕ) (ib : Lfiblk) : Prop where
  /-- It points to the next index block, or nowhere. -/
  next : ib.ib_next = (f.ids[k + 1]?).getD LF_INULL
  /-- It has the offset of its first byte. -/
  offset : ib.ib_offset = LF_IDATA * k
  /-- It has the numbers of its data blocks, and none behind the last. -/
  dba : ∀ j < LF_IBLEN, ib.ib_dba j = (f.blocks[LF_IBLEN * k + j]?).getD LF_DNULL

/-- This is the `m`-th data block of the file, as far as the file goes. -/
def LfLayout.IsData (f : LfLayout) (m : ℕ) (b : Dblock) : Prop :=
  ∀ o < LF_BLKSIZ, ∀ ch, f.bytes[LF_BLKSIZ * m + o]? = some ch → b o = ch

/-- The blocks of the file are on disk, or newer in the control block. -/
structure Cached (disk : LfDisk) (c : LfFile) (f : LfLayout) : Prop where
  /-- The data blocks have room for the bytes. -/
  bytes_le : f.bytes.length ≤ LF_BLKSIZ * f.blocks.length
  /-- The index blocks have room for the data blocks. -/
  blocks_le : f.blocks.length ≤ LF_IBLEN * f.ids.length
  /-- Each index block is on disk, or newer in memory. -/
  index : ∀ k b, f.ids[k]? = some b → f.IsIndex k (disk.iblks b) ∨ (c.lfinum = b ∧ c.lfibdirty = true)
  /-- Each data block is on disk, or newer in memory. -/
  data : ∀ m b, f.blocks[m]? = some b → f.IsData m (disk.dblks b) ∨ (c.lfdnum = b ∧ c.lfdbdirty = true)
  /-- The index block in memory is one of the file, if there is one. -/
  inum : c.lfinum = LF_INULL ∨ ∃ k, f.ids[k]? = some c.lfinum ∧ f.IsIndex k c.lfiblock
  /-- The data block in memory is one of the file, if there is one. -/
  dnum : c.lfdnum = LF_DNULL ∨ ∃ m, f.blocks[m]? = some c.lfdnum ∧ f.IsData m c.lfdblock
  /-- There is one if it is newer. -/
  ibdirty : c.lfibdirty = true → c.lfinum ≠ LF_INULL
  /-- There is one if it is newer. -/
  dbdirty : c.lfdbdirty = true → c.lfdnum ≠ LF_DNULL
  /-- The position is in the file or at its end. -/
  pos : c.lfpos ≤ f.bytes.length
  /-- A place in the data block is that of the position. -/
  byte : c.lfbyte < LF_BLKSIZ → c.lfbyte = c.lfpos % LF_BLKSIZ ∧
    f.blocks[c.lfpos / LF_BLKSIZ]? = some c.lfdnum

/-- The entry of the file in the directory, the file, and the free lists. -/
structure Alone (d : Lfdata) (c : LfFile) (x : LfAlloc) : Prop where
  /-- The entry of the directory has the length and the first index block. -/
  entry : ∃ e, d.lf_dir.lfd_files[c.lfdirptr]? = some e ∧
    e.ld_size = x.bytes.length ∧ e.ld_ilist = x.ids.head?.getD LF_INULL
  /-- The blocks are on disk, or newer in memory. -/
  cached : Cached d.disk c x.toLfLayout
  /-- The links of the free index blocks end. -/
  ifree : LinkPath d.disk.nextIb (blockPtr d.lf_dir.lfd_ifree) x.ifree none
  /-- The links of the free data blocks end. -/
  dfree : LinkPath d.disk.nextDb (blockPtr d.lf_dir.lfd_dfree) x.dfree none
  /-- No index block is twice in the file and the free list. -/
  ids_nodup : (x.ifree ++ x.ids).Nodup
  /-- No data block is either. -/
  blocks_nodup : (x.dfree ++ x.blocks).Nodup
  /-- The numbers of index blocks are not negative. -/
  ids_num : ∀ b ∈ x.ifree ++ x.ids, 0 ≤ b ∧ b < 2 ^ 31
  /-- Those of data blocks are not either. -/
  blocks_num : ∀ b ∈ x.dfree ++ x.blocks, 0 ≤ b ∧ b < 2 ^ 31
  /-- There are fewer index blocks than a number can count. -/
  ids_room : (x.ifree ++ x.ids).length < 2 ^ 31
  /-- There are fewer bytes than a position can count. -/
  blocks_room : LF_BLKSIZ * (x.dfree ++ x.blocks).length < 2 ^ 32

/-- What a call changes: the entry of its file, and blocks that were free or belonged to the file,
and are free or belong to it now. -/
structure LfMoved (d d' : Lfdata) (k : ℕ) (x x' : LfAlloc) : Prop where
  /-- The index blocks of the file and of the free list are the same, together. -/
  ids : (x'.ifree ++ x'.ids).Perm (x.ifree ++ x.ids)
  /-- The data blocks of the file and of the free list are the same, together. -/
  blocks : (x'.dfree ++ x'.blocks).Perm (x.dfree ++ x.blocks)
  /-- The other index blocks on disk stay. -/
  iblks : ∀ b ∉ x.ifree ++ x.ids, d'.disk.iblks b = d.disk.iblks b
  /-- The other data blocks on disk stay. -/
  dblks : ∀ b ∉ x.dfree ++ x.blocks, d'.disk.dblks b = d.disk.dblks b
  /-- The entries of other files in the directory stay. -/
  files : ∀ j ≠ k, d'.lf_dir.lfd_files[j]? = d.lf_dir.lfd_files[j]?
  /-- The names stay. -/
  names : d'.lf_dir.lfd_files.map Ldentry.ld_name = d.lf_dir.lfd_files.map Ldentry.ld_name
  /-- The directory passes its check as before. -/
  valid : d'.lf_dir.lfscheck = d.lf_dir.lfscheck
  /-- It is present as before. -/
  present : d'.lf_dirpresent = d.lf_dirpresent
  /-- The disk is the same. -/
  dskdev : d'.lf_dskdev = d.lf_dskdev

namespace LfMoved

variable {d d₁ d₂ d₃ : Lfdata} {k : ℕ} {x x₁ x₂ x₃ : LfAlloc}

/-- Nothing changes. -/
theorem refl (d : Lfdata) (k : ℕ) (x : LfAlloc) : LfMoved d d k x x :=
  ⟨.refl _, .refl _, fun _ _ => rfl, fun _ _ => rfl, fun _ _ => rfl, rfl, rfl, rfl, rfl⟩

/-- Two changes of blocks, one after another, move blocks of the same file only. -/
theorem trans (h : LfMoved d₁ d₂ k x₁ x₂) (h' : LfMoved d₂ d₃ k x₂ x₃) : LfMoved d₁ d₃ k x₁ x₃ where
  ids := h'.ids.trans h.ids
  blocks := h'.blocks.trans h.blocks
  iblks b hb := (h'.iblks b fun hm => hb (h.ids.subset hm)).trans (h.iblks b hb)
  dblks b hb := (h'.dblks b fun hm => hb (h.blocks.subset hm)).trans (h.dblks b hb)
  files j hj := (h'.files j hj).trans (h.files j hj)
  names := h'.names.trans h.names
  valid := h'.valid.trans h.valid
  present := h'.present.trans h.present
  dskdev := h'.dskdev.trans h.dskdev

/-- A block moves from one list to another one, and the directory is written. -/
theorem updateDir {dir : Lfdir} (hfiles : dir.lfd_files = d.lf_dir.lfd_files)
    (hvalid : dir.lfscheck = d.lf_dir.lfscheck)
    (hids : (x₁.ifree ++ x₁.ids).Perm (x.ifree ++ x.ids))
    (hblocks : (x₁.dfree ++ x₁.blocks).Perm (x.dfree ++ x.blocks)) : LfMoved d (d.updateDir dir) k x x₁ where
  ids := hids
  blocks := hblocks
  iblks _ _ := rfl
  dblks _ _ := rfl
  files _ _ := congrArg (·[_]?) hfiles
  names := congrArg (List.map Ldentry.ld_name) hfiles
  valid := hvalid
  present := rfl
  dskdev := rfl

/-- The entry of the file changes, but not the name. -/
theorem setEntry {e : Ldentry} (e' : Ldentry) (he : d.lf_dir.lfd_files[k]? = some e)
    (hname : e'.ld_name = e.ld_name) :
    LfMoved d (d.setEntry k e') k x x where
  ids := .refl _
  blocks := .refl _
  iblks _ _ := rfl
  dblks _ _ := rfl
  files _ hj := List.getElem?_set_ne (Ne.symm hj)
  names := by
    refine List.ext_getElem? fun j => ?_
    have hset : (d.setEntry k e').lf_dir.lfd_files = d.lf_dir.lfd_files.set k e' := rfl
    rw [hset, List.getElem?_map, List.getElem?_map]
    by_cases hj : k = j
    · subst hj
      rw [List.getElem?_set_self (List.getElem?_eq_some_iff.mp he).1,
        he, Option.map_some, Option.map_some, hname]
    · rw [List.getElem?_set_ne hj]
  valid := rfl
  present := rfl
  dskdev := rfl

end LfMoved

/-- A free block points to the next one, whatever its other bytes are. -/
theorem lf_nextdb_free {n : ℤ} (hn : -2 ^ 31 ≤ n ∧ n < 2 ^ 31) (unused : Dblock) :
    lf_nextdb (lfdbfreeBlock n unused) = n := by
  unfold lf_nextdb lfdbfreeBlock int32
  simp only [if_pos (by decide : (0 : ℕ) < 4), if_pos (by decide : (1 : ℕ) < 4),
    if_pos (by decide : (2 : ℕ) < 4),
    if_pos (by decide : (3 : ℕ) < 4)]
  rw [Int.bmod_def]
  norm_num
  split_ifs <;> omega

end Xinu
