import Xinu.Lfs.Layout

/-!
# Formatting a disk

`lfscreate` on the sectors of a disk: the directory, an index area with all index blocks on one free
list and a data area with all data blocks on another one. Some sectors may fail to be read or
written; only the first write is checked by the source. What is left on the disk is a file system
exactly for some arguments (`create_ok`): without index blocks, and without data blocks, it is not.
-/

namespace Xinu

/-- `LF_AREA_DIR`. -/
abbrev LF_AREA_DIR : ℕ := 0

/-- The sectors that the device cannot read, and those it cannot write. -/
structure DiskErrors where
  /-- A read of the sector fails. -/
  noread : ℤ → Bool
  /-- A write to the sector fails. -/
  nowrite : ℤ → Bool

/-- The contents of a disk, and the sectors for which a write was asked so far. -/
structure Sectors where
  /-- What each sector holds. -/
  sector : ℤ → Dblock
  /-- The sectors for which a write was asked. -/
  requests : List ℤ

/-- `isbaddev(f)`. -/
def isbaddev (f : ℤ) : Bool := f < 0 ∨ f ≥ NDEVS

/-- The `int32` at an offset of a buffer. -/
def word32 (b : Dblock) (o : ℕ) : ℤ := lf_nextdb fun i => b (o + i)

/-- A structure of words of four bytes. -/
def structBytes (ws : List ℤ) : Dblock :=
  fun o => UInt8.ofNat ((ws.getD (o / 4) 0 % 2 ^ 32).toNat / 256 ^ (o % 4))

/-- The bytes of an index block. -/
def Lfiblk.bytes (ib : Lfiblk) : Dblock :=
  structBytes (ib.ib_next :: ib.ib_offset :: (List.range LF_IBLEN).map ib.ib_dba)

/-- The bytes of the directory of `lfscreate`: versions, number of files and entries are 0. -/
def dirBytes (dfree : ℤ) : Dblock :=
  structBytes ([(LFS_ID : ℤ), 0, 0, 0xffffffff, dfree, 0, 0] ++ List.replicate 120 0 ++ [(LFS_REVID : ℤ)])

namespace Sectors

/-- `read(disk, buff, blk)`. -/
def read (disk : Sectors) (E : DiskErrors) (blk : ℤ) : Option Dblock :=
  if E.noread blk then none else some (disk.sector blk)

/-- `write(disk, buff, blk)`. -/
def write (disk : Sectors) (E : DiskErrors) (buff : Dblock) (blk : ℤ) : Sectors × ℤ :=
  if E.nowrite blk then ({ disk with requests := blk :: disk.requests }, SYSERR)
  else (⟨Function.update disk.sector blk buff, blk :: disk.requests⟩, OK)

/-- `lfibput(disk, inum, ibuff)`. -/
def lfibput (disk : Sectors) (E : DiskErrors) (inum : ℕ) (ibuff : Lfiblk) : Sectors × ℤ :=
  let diskblock : ℤ := ib2sect inum
  match disk.read E diskblock with
  | none => (disk, SYSERR)
  | some dbuff =>
    let disp := ib2disp inum
    let dbuff := fun o => if disp ≤ o ∧ o < disp + sizeofLfiblk then ibuff.bytes (o - disp) else dbuff o
    ((disk.write E dbuff diskblock).1, OK)

/-- A loop of `lfscreate` with the statements behind it: each item is linked to the next one, the
last one to none. -/
def linkItems (put : Sectors → ℤ → ℤ → Sectors) (disk : Sectors) : ℕ → ℤ → Sectors
  | 0, i => put disk i (-1)
  | n + 1, i => linkItems put (put disk i (int32 (i + 1))) n (int32 (i + 1))

/-- An index block without data is put on disk. -/
def putIndex (E : DiskErrors) (disk : Sectors) (i next : ℤ) : Sectors :=
  (disk.lfibput E i.toNat { Lfiblk.lfibclear ⟨0, 0, fun _ => 0⟩ 0 with ib_next := next }).1

/-- A free data block is put on disk. -/
def putFree (E : DiskErrors) (disk : Sectors) (dbindex next : ℤ) : Sectors :=
  (disk.write E (lfdbfreeBlock next fun _ => 0) dbindex).1

/-- The number of sectors of index blocks that `lfscreate` sets up for a number of index blocks. -/
def ibsectors (lfiblks : ℤ) : ℕ := ((lfiblks + 6) % 2 ^ 32).toNat / 7

/-- `lfscreate(disk, lfiblks, dsiz)`: the device in `Lf_data`, the disk and the result. -/
def lfscreate (disk : Sectors) (E : DiskErrors) (lf_dskdev dev lfiblks : ℤ) (dsiz : ℕ) : (ℤ × Sectors) × ℤ :=
  if isbaddev dev ∨ lf_dskdev ≥ 0 then ((lf_dskdev, disk), SYSERR)
  else
    let lf_dskdev := dev
    let sectors := dsiz / LF_BLKSIZ
    let ibsectors := ibsectors lfiblks
    if ibsectors > sectors / 2 then ((lf_dskdev, disk), SYSERR)
    else
      let lfiblks := ibsectors * 7
      let dbindex : ℤ := ibsectors + 1
      let dblks := (sectors + (2 ^ 32 - 1) - ibsectors) % 2 ^ 32 -- sectors - ibsectors - 1, unsigned
      let r := disk.write E (dirBytes dbindex) LF_AREA_DIR
      if r.2 = SYSERR then ((lf_dskdev, r.1), SYSERR)
      else
        let disk := linkItems (putIndex E) r.1 (lfiblks - 1) 0
        -- dblks - 1, unsigned
        let disk := linkItems (putFree E) disk ((dblks + (2 ^ 32 - 1)) % 2 ^ 32) dbindex
        ((lf_dskdev, disk), OK)

/-- The link of an index block on disk. -/
def ib_next (disk : Sectors) (i : ℤ) : ℤ := word32 (disk.sector (ib2sect i.toNat)) (ib2disp i.toNat)

/-- The link of a free data block on disk. -/
def db_next (disk : Sectors) (b : ℤ) : ℤ := lf_nextdb (disk.sector b)

/-- `lfd_dfree` on disk. -/
def lfd_dfree (disk : Sectors) : ℤ := word32 (disk.sector LF_AREA_DIR) 16

/-- `lfd_ifree` on disk. -/
def lfd_ifree (disk : Sectors) : ℤ := word32 (disk.sector LF_AREA_DIR) 20

end Sectors

/-! ## Areas -/

/-- Numbers of blocks from `s` on. -/
def numbers (s n : ℕ) : List ℤ := (List.range' s n).map Nat.cast

/-- The index blocks of a file system, and its data area: the first sector, and the number of sectors. -/
structure LfAreas where
  /-- The number of index blocks. -/
  lfiblks : ℕ
  /-- The first data block. -/
  dbindex : ℕ
  /-- The number of data blocks. -/
  dblks : ℕ

/-- The numbers of the index blocks. -/
def LfAreas.indices (A : LfAreas) : List ℤ := numbers 0 A.lfiblks

/-- The sectors of the data area. -/
def LfAreas.sectors (A : LfAreas) : List ℤ := numbers A.dbindex A.dblks

/-- The areas of a disk with some sectors for the index blocks: the data area takes the rest. -/
def areas (ibsectors sectors : ℕ) : LfAreas := ⟨ibsectors * 7, ibsectors + 1, sectors - (ibsectors + 1)⟩

/-- What `lfscreate` should leave on a disk. -/
structure Formatted (A : LfAreas) (sectors : ℕ) (disk : Sectors) : Prop where
  /-- The list of free index blocks has each of them once, and ends. -/
  indices : ∃ l, LinkPath (fun i => blockPtr (disk.ib_next i))
    (blockPtr disk.lfd_ifree) l none ∧ l.Perm A.indices
  /-- The list of free data blocks has each of them once, and ends. -/
  blocks : ∃ l, LinkPath (fun b => blockPtr (disk.db_next b))
    (blockPtr disk.lfd_dfree) l none ∧ l.Perm A.sectors
  /-- Nothing was written outside the disk. -/
  inside : ∀ b ∈ disk.requests, 0 ≤ b ∧ b < sectors
  /-- Index blocks lie neither in the data area nor in the directory. -/
  disjoint : ∀ i ∈ A.indices, ((ib2sect i.toNat : ℕ) : ℤ) ∉ A.sectors ∧ ib2sect i.toNat ≠ LF_AREA_DIR
  /-- The directory does not lie in the data area. -/
  directory : (LF_AREA_DIR : ℤ) ∉ A.sectors

/-- The arguments are refused by the checks, and by the check that no disk has been selected before. -/
def Refused (lf_dskdev dev lfiblks : ℤ) (dsiz : ℕ) : Prop :=
  isbaddev dev ∨ lf_dskdev ≥ 0 ∨ Sectors.ibsectors lfiblks > dsiz / LF_BLKSIZ / 2

/-- Whatever is on the disk, `lfscreate` formats it, or refuses the arguments and changes nothing. -/
structure CreateOk (E : DiskErrors) (lf_dskdev dev lfiblks : ℤ) (dsiz : ℕ) : Prop where
  /-- If it answers `OK`, the disk is formatted. -/
  formatted : ∀ sector, ((⟨sector, []⟩ : Sectors).lfscreate E lf_dskdev dev lfiblks dsiz).2 = OK →
    Formatted (areas (Sectors.ibsectors lfiblks) (dsiz / LF_BLKSIZ)) (dsiz / LF_BLKSIZ)
      ((⟨sector, []⟩ : Sectors).lfscreate E lf_dskdev dev lfiblks dsiz).1.2
  /-- Bad arguments are refused, and nothing is written. -/
  refused : Refused lf_dskdev dev lfiblks dsiz →
    ∀ disk : Sectors, disk.lfscreate E lf_dskdev dev lfiblks dsiz = ((lf_dskdev, disk), SYSERR)

/-! ## Words -/

section

variable {a b : Dblock} {n o : ℕ} {v : ℤ}

/-- The first word of a buffer is in its first four bytes. -/
theorem lf_nextdb_congr (h : ∀ i < 4, a i = b i) : lf_nextdb a = lf_nextdb b := by
  unfold lf_nextdb
  rw [h 0 (by decide), h 1 (by decide), h 2 (by decide), h 3 (by decide)]

/-- A word depends on its four bytes only. -/
theorem word32_congr {o' : ℕ} (h : ∀ i < 4, a (o + i) = b (o' + i)) : word32 a o = word32 b o' :=
  lf_nextdb_congr h

/-- A word of a structure is read back at its place. -/
theorem word32_structBytes {ws : List ℤ} (hv : ws[n]? = some v) (hrange : -2 ^ 31 ≤ v ∧ v < 2 ^ 31) :
    word32 (structBytes ws) (4 * n) = v := by
  rw [← lf_nextdb_free hrange fun _ => 0]
  refine lf_nextdb_congr fun i hi => ?_
  have hdiv : (4 * n + i) / 4 = n := by omega
  have hmod : (4 * n + i) % 4 = i := by omega
  unfold structBytes lfdbfreeBlock
  rw [hdiv, hmod, if_pos hi, List.getD_eq_getElem?_getD, hv, Option.getD_some]

/-- A cleared buffer has no word but 0. -/
theorem word32_zero : word32 (fun _ => 0) o = 0 := by
  have h : lfdbfreeBlock 0 (fun _ => 0) = fun _ => 0 := by
    funext i
    unfold lfdbfreeBlock
    split_ifs <;> simp
  unfold word32
  rw [← h]
  exact lf_nextdb_free (by decide) _

end

/-! ## Numbers -/

section

variable {s n : ℕ} {b : ℤ}

/-- The numbers of an area are those from its first sector on, as many as it has. -/
theorem mem_numbers : b ∈ numbers s n ↔ (s : ℤ) ≤ b ∧ b < s + n := by
  unfold numbers
  simp only [List.mem_map, List.mem_range'_1]
  constructor
  · rintro ⟨k, hk, rfl⟩
    omega
  · rintro ⟨h₁, h₂⟩
    exact ⟨b.toNat, by omega, by omega⟩

/-- The numbers of an area are different. -/
theorem numbers_nodup (s n : ℕ) : (numbers s n).Nodup := List.Nodup.map Nat.cast_injective List.nodup_range'

/-- `numbers s n` has `n` numbers. -/
@[simp] theorem length_numbers (s n : ℕ) : (numbers s n).length = n := by
  unfold numbers
  rw [List.length_map, List.length_range']

/-- Items that are linked to the next one each. -/
theorem path_numbers {f : ℤ → Option ℤ} (hf : ∀ j : ℕ, s ≤ j → j < s + n → f j = some ((j + 1 : ℕ) : ℤ))
    (hlast : f ((s + n : ℕ) : ℤ) = none) : LinkPath f (some (s : ℤ)) (numbers s (n + 1)) none := by
  induction n generalizing s with
  | zero => exact ⟨rfl, hlast⟩
  | succ n ih =>
    refine ⟨rfl, ?_⟩
    rw [hf s le_rfl (by omega)]
    refine ih (fun j hj hlt => hf j (by omega) (by omega)) ?_
    rw [show s + 1 + n = s + (n + 1) by omega]
    exact hlast

end

/-! ## The loops -/

namespace Sectors

section

variable {put : Sectors → ℤ → ℤ → Sectors} {s n : ℕ} {disk : Sectors}

/-- What each write keeps, the loop keeps. -/
theorem linkItems_induct {P : Sectors → Prop}
    (hput : ∀ disk i v, (s : ℤ) ≤ i → i ≤ s + n → P disk → P (put disk i v))
    (hn : s + n < 2 ^ 31) (h : P disk) : P (linkItems put disk n s) := by
  induction n generalizing s disk with
  | zero => exact hput disk s (-1) le_rfl (by omega) h
  | succ n ih =>
    have hnext : int32 (s + 1) = ((s + 1 : ℕ) : ℤ) := int32_of_mem (by omega) (by omega)
    rw [linkItems, hnext]
    exact ih (fun disk i v hi hle => hput disk i v (by omega) (by omega))
      (by omega) (hput disk s _ le_rfl (by omega) h)

/-- The links that the loop leaves, where the items can be written. -/
theorem linkItems_get (get : Sectors → ℤ → ℤ) (ok : ℤ → Prop) [DecidablePred ok]
    (hput : ∀ disk (i v : ℤ), 0 ≤ i → -2 ^ 31 ≤ v → v < 2 ^ 31 →
      ∀ j, 0 ≤ j → get (put disk i v) j = if j = i ∧ ok i then v else get disk j)
    (hn : s + n < 2 ^ 31) {j : ℤ} (hj : 0 ≤ j) : get (linkItems put disk n s) j =
      if (s : ℤ) ≤ j ∧ j ≤ s + n ∧ ok j then (if j < s + n then j + 1 else -1) else get disk j := by
  induction n generalizing s disk with
  | zero =>
    rw [linkItems, hput disk s (-1) (by omega) (by decide) (by decide) j hj]
    by_cases he : j = s
    · subst he
      simp
    · rw [if_neg fun h => he h.1, if_neg (by omega)]
  | succ n ih =>
    have hnext : int32 (s + 1) = ((s + 1 : ℕ) : ℤ) := int32_of_mem (by omega) (by omega)
    rw [linkItems, hnext, ih (by omega), hput disk s _ (by omega) (by omega) (by omega) j hj]
    push_cast
    by_cases he : j = s
    · subst he
      by_cases hok : ok s
      · simp only [hok, and_true, if_true]
        split_ifs <;> omega
      · simp only [hok, and_false, if_false]
    · simp only [he, false_and, if_false]
      by_cases hok : ok j
      · simp only [hok, and_true]
        split_ifs <;> omega
      · simp only [hok, and_false, if_false]

end

/-! ## One item -/

section

variable {E : DiskErrors} {disk : Sectors} {i j v : ℤ}

/-- The sector of the index block can be read and written. -/
def IndexOk (E : DiskErrors) (i : ℤ) : Prop :=
  E.noread (ib2sect i.toNat) = false ∧ E.nowrite (ib2sect i.toNat) = false

instance (E : DiskErrors) : DecidablePred (IndexOk E) := fun _ => instDecidableAnd

/-- The directory is written, if its sector can be written. -/
theorem write_ok {buff : Dblock} {blk : ℤ} (h : E.nowrite blk = false) :
    disk.write E buff blk = (⟨Function.update disk.sector blk buff, blk :: disk.requests⟩, OK) := by
  unfold write
  rw [h]
  rfl

/-- A write changes its own sector, and no other. -/
theorem write_sector {buff : Dblock} {blk b : ℤ} (hb : b ≠ blk) :
    (disk.write E buff blk).1.sector b = disk.sector b := by
  unfold write
  split
  · rfl
  · exact Function.update_of_ne hb _ _

/-- A write is asked for one sector. -/
theorem write_requests {buff : Dblock} {blk : ℤ} :
    (disk.write E buff blk).1.requests = blk :: disk.requests := by
  unfold write
  split <;> rfl

/-- An index block that is put on disk has the new link, and the other index blocks keep theirs. -/
theorem ib_next_putIndex (hi : 0 ≤ i) (hv : -2 ^ 31 ≤ v) (hv' : v < 2 ^ 31) (j : ℤ) (hj : 0 ≤ j) :
    (putIndex E disk i v).ib_next j = if j = i ∧ IndexOk E i then v else disk.ib_next j := by
  unfold putIndex
  generalize hib : { Lfiblk.lfibclear ⟨0, 0, fun _ => 0⟩ 0 with ib_next := v } = ib
  unfold lfibput read
  dsimp only
  -- A sector that cannot be read or written leaves the disk as it was.
  by_cases hr : E.noread (ib2sect i.toNat)
  · rw [if_pos hr, if_neg fun h => by simp [h.2.1] at hr]
  rw [if_neg hr]
  dsimp only
  unfold write
  by_cases hw : E.nowrite (ib2sect i.toNat)
  · rw [if_pos hw, if_neg fun h => by simp [h.2.2] at hw]
    rfl
  rw [if_neg hw]
  have hok : IndexOk E i := ⟨by simpa using hr, by simpa using hw⟩
  by_cases he : j = i
  · -- the block itself: its first word is the link
    subst he
    rw [if_pos ⟨rfl, hok⟩]
    have hword : word32 ib.bytes (4 * 0) = v := by
      rw [← hib]
      exact word32_structBytes rfl ⟨hv, hv'⟩
    conv_rhs => rw [← hword]
    unfold ib_next
    dsimp only
    rw [Function.update_self]
    refine word32_congr fun k hk => ?_
    have hsize : sizeofLfiblk = 72 := rfl
    rw [if_pos (by omega), Nat.add_sub_cancel_left, Nat.mul_zero, Nat.zero_add]
  · rw [if_neg fun h => he h.1]
    have hne : j.toNat ≠ i.toNat := by omega
    unfold ib_next
    dsimp only
    by_cases hsect : ((ib2sect j.toNat : ℕ) : ℤ) = ib2sect i.toNat
    · -- another block of the same sector: its bytes lie apart
      rw [hsect, Function.update_self]
      refine word32_congr fun k hk => ?_
      have hapart := (ib2disp_disjoint j.toNat i.toNat).2 hne
      have hsize : sizeofLfiblk = 72 := rfl
      rw [if_neg (by omega)]
    · rw [Function.update_of_ne hsect]

/-- The sectors beside that of an index block stay as they are. -/
theorem putIndex_sector {b : ℤ} (hb : b ≠ ib2sect i.toNat) :
    (putIndex E disk i v).sector b = disk.sector b := by
  unfold putIndex lfibput
  dsimp only
  split
  · rfl
  · exact write_sector hb

/-- A write is asked for that sector, or for none. -/
theorem putIndex_requests {b : ℤ} (hb : b ∈ (putIndex E disk i v).requests) :
    b = ib2sect i.toNat ∨ b ∈ disk.requests := by
  unfold putIndex lfibput at hb
  dsimp only at hb
  split at hb
  · exact .inr hb
  · rw [write_requests] at hb
    exact List.mem_cons.mp hb

/-- A data block that is put on disk has the new link, and the other data blocks keep theirs. -/
theorem db_next_putFree (hv : -2 ^ 31 ≤ v) (hv' : v < 2 ^ 31) (j : ℤ) :
    (putFree E disk i v).db_next j = if j = i ∧ E.nowrite i = false then v else disk.db_next j := by
  unfold putFree write
  by_cases hw : E.nowrite i = true
  · rw [if_pos hw, if_neg fun h => by simp [h.2] at hw]
    rfl
  rw [if_neg hw]
  unfold db_next
  dsimp only
  by_cases he : j = i
  · subst he
    rw [if_pos ⟨rfl, by simpa using hw⟩, Function.update_self]
    exact lf_nextdb_free ⟨hv, hv'⟩ _
  · rw [if_neg fun h => he h.1, Function.update_of_ne he]

end

/-! ## The whole format -/

section

variable {E : DiskErrors} {dev lfiblks lf_dskdev : ℤ} {dsiz : ℕ}

/-- What is left on the disk behind both loops. -/
structure Links (E : DiskErrors) (ibsectors sectors : ℕ) (disk disk' : Sectors) : Prop where
  /-- The list of free index blocks begins with the first. -/
  ifree : disk'.lfd_ifree = 0
  /-- That of free data blocks begins behind the index blocks. -/
  dfree : disk'.lfd_dfree = ibsectors + 1
  /-- Each index block points to the next one, unless the disk has an error there. -/
  index : ∀ j : ℤ, 0 ≤ j → j < ibsectors * 7 →
    disk'.ib_next j = if IndexOk E j then (if j + 1 < ibsectors * 7 then j + 1 else -1) else disk.ib_next j
  /-- Each data block points to the next one, unless the disk has an error there. -/
  data : ∀ j : ℤ, ibsectors + 1 ≤ j → j < sectors →
    disk'.db_next j = if E.nowrite j = false then (if j + 1 < sectors then j + 1 else -1) else disk.db_next j
  /-- Nothing else has been written than sectors of the disk. -/
  inside : ∀ b ∈ disk'.requests, 0 ≤ b ∧ b < sectors ∨ b ∈ disk.requests

/-- The sector of an index block of the index area. -/
theorem ib2sect_le {j : ℤ} (ibs : ℕ) (hj : 0 ≤ j) (hlt : j < ibs * 7) :
    1 ≤ (ib2sect j.toNat : ℤ) ∧ (ib2sect j.toNat : ℤ) ≤ ibs := by
  have harea : LF_AREA_IB = 1 := rfl
  unfold ib2sect
  omega

/-- With index blocks and data blocks, the loops leave the two lists, where the sectors can be written. -/
theorem links_of_loops {ibs sectors : ℕ} (hi : 1 ≤ ibs)
    (hd : ibs + 2 ≤ sectors) (hs : sectors < 2 ^ 24) (h0 : E.nowrite LF_AREA_DIR = false)
    (disk : Sectors) : Links E ibs sectors disk (linkItems (putFree E) (linkItems (putIndex E)
      (disk.write E (dirBytes (ibs + 1 : ℕ)) LF_AREA_DIR).1 (ibs * 7 - 1) (0 : ℕ))
        (sectors - ibs - 2) (ibs + 1 : ℕ)) := by
  generalize hd₀ : (disk.write E (dirBytes (ibs + 1 : ℕ)) LF_AREA_DIR).1 = disk₀
  have hdir₀ : disk₀.sector LF_AREA_DIR = dirBytes (ibs + 1 : ℕ) := by
    rw [← hd₀, write_ok h0]
    dsimp only
    rw [Function.update_self]
  have hrest₀ : ∀ b, b ≠ (LF_AREA_DIR : ℤ) → disk₀.sector b = disk.sector b := fun b hb => by
    rw [← hd₀]
    exact write_sector hb
  have hreq₀ : ∀ b ∈ disk₀.requests, 0 ≤ b ∧ b < sectors ∨ b ∈ disk.requests := fun b hb => by
    rw [← hd₀, write_requests] at hb
    rcases List.mem_cons.mp hb with rfl | hb
    · exact .inl ⟨le_rfl, by push_cast; omega⟩
    · exact .inr hb
  -- the loop for the index blocks stays in the index area
  generalize hd₁ : linkItems (putIndex E) disk₀ (ibs * 7 - 1) (0 : ℕ) = disk₁
  have hrest₁ : ∀ b : ℤ, b < 1 ∨ ibs < b → disk₁.sector b = disk₀.sector b := fun b hb => by
    rw [← hd₁]
    refine linkItems_induct (P := fun d => d.sector b = disk₀.sector b)
      (fun d i v hi hle hP => ?_) (by omega) rfl
    have := ib2sect_le (j := i) ibs (by omega) (by omega)
    exact (putIndex_sector (by omega)).trans hP
  have hreq₁ : ∀ b ∈ disk₁.requests, 0 ≤ b ∧ b < sectors ∨ b ∈ disk.requests := by
    rw [← hd₁]
    refine linkItems_induct (P := fun d => ∀ b ∈ d.requests, 0 ≤ b ∧ b < sectors ∨ b ∈ disk.requests)
      (fun d i v hi hle hP b hb => ?_) (by omega) hreq₀
    have := ib2sect_le (j := i) ibs (by omega) (by omega)
    rcases putIndex_requests hb with rfl | hb
    · exact .inl (by omega)
    · exact hP b hb
  -- the loop for the data blocks stays behind it
  generalize hd₂ : linkItems (putFree E) disk₁ (sectors - ibs - 2) (ibs + 1 : ℕ) = disk₂
  have hrest₂ : ∀ b : ℤ, b < ibs + 1 → disk₂.sector b = disk₁.sector b := fun b hb => by
    rw [← hd₂]
    refine linkItems_induct (P := fun d => d.sector b = disk₁.sector b)
      (fun d i v hi hle hP => ?_) (by omega) rfl
    exact (write_sector (by omega)).trans hP
  have hreq₂ : ∀ b ∈ disk₂.requests, 0 ≤ b ∧ b < sectors ∨ b ∈ disk.requests := by
    rw [← hd₂]
    refine linkItems_induct (P := fun d => ∀ b ∈ d.requests, 0 ≤ b ∧ b < sectors ∨ b ∈ disk.requests)
      (fun d i v hi hle hP b hb => ?_) (by omega) hreq₁
    unfold putFree at hb
    rw [write_requests] at hb
    rcases List.mem_cons.mp hb with rfl | hb
    · exact .inl (by omega)
    · exact hP b hb
  have hdir : disk₂.sector LF_AREA_DIR = dirBytes (ibs + 1 : ℕ) := by
    rw [hrest₂ _ (by push_cast; omega), hrest₁ _ (.inl (by decide)), hdir₀]
  refine ⟨?_, ?_, fun j hj hlt => ?_, fun j hj hlt => ?_, hreq₂⟩
  · unfold lfd_ifree
    rw [hdir]
    exact word32_structBytes (n := 5) rfl (by decide)
  · unfold lfd_dfree
    rw [hdir]
    exact (word32_structBytes (n := 4) rfl (by omega)).trans (by push_cast; rfl)
  · have hsect := ib2sect_le ibs hj hlt
    have hsame : disk₂.ib_next j = disk₁.ib_next j := by
      unfold ib_next
      rw [hrest₂ _ (by omega)]
    have hold : disk₀.ib_next j = disk.ib_next j := by
      unfold ib_next
      rw [hrest₀ _ (by push_cast; omega)]
    rw [hsame, ← hd₁, linkItems_get ib_next (IndexOk E) (fun d i v => ib_next_putIndex) (by omega) hj, hold]
    by_cases hok : IndexOk E j
    · rw [if_pos ⟨by omega, by omega, hok⟩, if_pos hok]
      split_ifs <;> omega
    · rw [if_neg fun h => hok h.2.2, if_neg hok]
  · have hold : disk₁.db_next j = disk.db_next j := by
      unfold db_next
      rw [hrest₁ _ (.inr (by omega)), hrest₀ _ (by push_cast; omega)]
    rw [← hd₂, linkItems_get db_next (fun b => E.nowrite b = false)
      (fun d i v _ hv hv' j hj => db_next_putFree hv hv' j)
      (by omega) (by omega), hold]
    by_cases hok : E.nowrite j = false
    · rw [if_pos ⟨by omega, by omega, hok⟩, if_pos hok]
      split_ifs <;> omega
    · rw [if_neg fun h => hok h.2.2, if_neg hok]

/-- The number of sectors for the index blocks, in whole numbers. -/
theorem ibsectors_eq (h : 0 ≤ lfiblks) (hlt : lfiblks < 2 ^ 31) :
    (ibsectors lfiblks : ℤ) = (lfiblks + 6) / 7 := by
  unfold ibsectors
  rw [Int.emod_eq_of_lt (by omega) (by omega)]
  omega

/-- Arguments that are refused before a device is chosen. -/
theorem lfscreate_refused (disk : Sectors) (h : isbaddev dev ∨ lf_dskdev ≥ 0) :
    disk.lfscreate E lf_dskdev dev lfiblks dsiz = ((lf_dskdev, disk), SYSERR) := if_pos h

/-- Too many index blocks are refused when the device has been chosen. -/
theorem lfscreate_tooMany (disk : Sectors) (h : ¬ (isbaddev dev ∨ lf_dskdev ≥ 0))
    (hi : ibsectors lfiblks > dsiz / LF_BLKSIZ / 2) :
    disk.lfscreate E lf_dskdev dev lfiblks dsiz = ((dev, disk), SYSERR) := (if_neg h).trans (if_pos hi)

/-- The directory cannot be written. -/
theorem lfscreate_failed (disk : Sectors) (h : ¬ (isbaddev dev ∨ lf_dskdev ≥ 0))
    (hi : ¬ ibsectors lfiblks > dsiz / LF_BLKSIZ / 2)
    (h0 : E.nowrite LF_AREA_DIR = true) : (disk.lfscreate E lf_dskdev dev lfiblks dsiz).2 = SYSERR := by
  have hfail : (disk.write E (dirBytes ((ibsectors lfiblks : ℤ) + 1)) LF_AREA_DIR).2 = SYSERR := by
    unfold write
    rw [if_pos h0]
  unfold lfscreate
  rw [if_neg h]
  dsimp only
  rw [if_neg hi, if_pos hfail]

/-- The disk behind the loops, when the directory has been written. -/
theorem lfscreate_run (disk : Sectors) (h : ¬ (isbaddev dev ∨ lf_dskdev ≥ 0))
    (hi : ¬ ibsectors lfiblks > dsiz / LF_BLKSIZ / 2)
    (h0 : E.nowrite LF_AREA_DIR = false) : disk.lfscreate E lf_dskdev dev lfiblks dsiz =
      ((dev, linkItems (putFree E) (linkItems (putIndex E)
        (disk.write E (dirBytes (ibsectors lfiblks + 1 : ℕ)) LF_AREA_DIR).1
          (ibsectors lfiblks * 7 - 1) (0 : ℕ))
        (((dsiz / LF_BLKSIZ + (2 ^ 32 - 1) - ibsectors lfiblks) % 2 ^ 32 + (2 ^ 32 - 1)) % 2 ^ 32)
        (ibsectors lfiblks + 1 : ℕ)), OK) := by
  have hok : (disk.write E (dirBytes ((ibsectors lfiblks : ℤ) + 1)) LF_AREA_DIR).2 ≠ SYSERR := by
    rw [write_ok h0]
    exact (by decide : OK ≠ SYSERR)
  unfold lfscreate
  rw [if_neg h]
  dsimp only
  rw [if_neg hi, if_neg hok]
  rfl

/-- The sectors of the areas can be read and written as far as the format needs it. -/
def Sound (E : DiskErrors) (ibsectors sectors : ℕ) : Prop :=
  ∀ s : ℤ, 1 ≤ s → s < sectors → E.nowrite s = false ∧ (s ≤ ibsectors → E.noread s = false)

/-- The areas are apart. -/
theorem areas_disjoint {ibs sectors : ℕ} :
    (∀ i ∈ (areas ibs sectors).indices, ((ib2sect i.toNat : ℕ) : ℤ) ∉ (areas ibs sectors).sectors ∧
    ib2sect i.toNat ≠ LF_AREA_DIR) ∧ (LF_AREA_DIR : ℤ) ∉ (areas ibs sectors).sectors := by
  have hdir : LF_AREA_DIR = 0 := rfl
  unfold LfAreas.indices LfAreas.sectors areas
  simp only [mem_numbers]
  refine ⟨fun i hi => ?_, by push_cast; omega⟩
  have := ib2sect_le (j := i) ibs (by omega) (by push_cast at hi; omega)
  push_cast
  omega

/-- Where all sectors are sound, both lists are complete. -/
theorem Links.formatted {ibs sectors : ℕ} {sector : ℤ → Dblock}
    {disk' : Sectors} (h : Links E ibs sectors ⟨sector, []⟩ disk')
    (hi : 1 ≤ ibs) (hd : ibs + 2 ≤ sectors) (hsound : Sound E ibs sectors) :
    Formatted (areas ibs sectors) sectors disk' := by
  -- The area of index blocks starts at sector 1, that of data blocks behind it.
  have hindices : (areas ibs sectors).indices = numbers 0 (ibs * 7 - 1 + 1) := by
    rw [Nat.sub_add_cancel (by omega)]
    rfl
  have hsectors : (areas ibs sectors).sectors = numbers (ibs + 1) (sectors - ibs - 2 + 1) := by
    change numbers (ibs + 1) (sectors - (ibs + 1)) = _
    rw [show sectors - (ibs + 1) = sectors - ibs - 2 + 1 by omega]
  refine ⟨⟨_, ?_, List.Perm.refl _⟩, ⟨_, ?_, List.Perm.refl _⟩,
    fun b hb => (h.inside b hb).resolve_right List.not_mem_nil,
    areas_disjoint.1, areas_disjoint.2⟩
  -- Where all sectors are sound, each block points to the next one, and the last to none.
  · have hok : ∀ j : ℤ, 0 ≤ j → j < ibs * 7 → disk'.ib_next j = if j + 1 < ibs * 7 then j + 1 else -1 :=
      fun j hj hlt => by
      have hsect := ib2sect_le ibs hj hlt
      obtain ⟨hw, hr⟩ := hsound (ib2sect j.toNat) hsect.1 (by omega)
      rw [h.index j hj hlt, if_pos ⟨hr hsect.2, hw⟩]
    rw [h.ifree, hindices]
    refine path_numbers (s := 0) (fun j _ hlt => ?_) ?_
    · rw [hok j (by omega) (by omega), if_pos (by omega), blockPtr_eq_some]
      omega
    · rw [hok _ (by omega) (by omega), if_neg (by omega)]
      rfl
  · have hok : ∀ j : ℤ, ibs + 1 ≤ j → j < sectors → disk'.db_next j = if j + 1 < sectors then j + 1 else -1 :=
      fun j hj hlt => by
      rw [h.data j hj hlt, if_pos (hsound j (by omega) hlt).1]
    have hstart : blockPtr disk'.lfd_dfree = some ((ibs + 1 : ℕ) : ℤ) := by
      rw [h.dfree, blockPtr_eq_some]
      omega
    rw [hstart, hsectors]
    refine path_numbers (fun j hj hlt => ?_) ?_
    · rw [hok j (by omega) (by omega), if_pos (by omega), blockPtr_eq_some]
      omega
    · rw [hok _ (by omega) (by omega), if_neg (by omega)]
      rfl

/-- How often the loop for the data blocks runs, if there are any. -/
theorem steps_eq (ibs : ℕ) {sectors : ℕ} (hd : ibs + 2 ≤ sectors) (hs : sectors < 2 ^ 24) :
    ((sectors + (2 ^ 32 - 1) - ibs) % 2 ^ 32 + (2 ^ 32 - 1)) % 2 ^ 32 = sectors - ibs - 2 := by
  have hblocks : (sectors + (2 ^ 32 - 1) - ibs) % 2 ^ 32 = sectors - ibs - 1 := by omega
  rw [hblocks]
  omega

/-- A disk with nothing but 0. -/
def blankDisk : Sectors := ⟨fun _ _ => 0, []⟩

/-- If both lists are complete on a disk that was blank, all sectors are sound: an item that was not
written would link to block 0. -/
theorem Links.sound {ibs sectors : ℕ} {disk' : Sectors} (h : Links E ibs sectors blankDisk disk')
    (hf : Formatted (areas ibs sectors) sectors disk') : Sound E ibs sectors := by
  obtain ⟨⟨l, hl, hperm⟩, ⟨l', hl', hperm'⟩, -⟩ := hf
  have hindices : ∀ j : ℤ, j ∈ l ↔ 0 ≤ j ∧ j < ibs * 7 := fun j => by
    rw [hperm.mem_iff]
    refine mem_numbers.trans ?_
    simp only [areas]
    push_cast
    omega
  have hsectors : ∀ j : ℤ, j ∈ l' ↔ ibs + 1 ≤ j ∧ j < sectors := fun j => by
    rw [hperm'.mem_iff]
    refine mem_numbers.trans ?_
    simp only [areas]
    omega
  intro s hs hlt
  by_cases hin : s ≤ ibs
  · -- the first index block of the sector
    have hsect : (ib2sect (7 * (s - 1)).toNat : ℤ) = s := by
      have harea : LF_AREA_IB = 1 := rfl
      unfold ib2sect
      omega
    have hmem := (hindices (7 * (s - 1))).mpr ⟨by omega, by omega⟩
    by_contra hnot
    have hbad : ¬ IndexOk E (7 * (s - 1)) := fun hok => by
      unfold IndexOk at hok
      rw [hsect] at hok
      exact hnot ⟨hok.2, fun _ => hok.1⟩
    have hnext : disk'.ib_next (7 * (s - 1)) = 0 := by
      rw [h.index _ (by omega) (by omega), if_neg hbad]
      exact word32_zero
    have htail := hl.next_mem (y := 0) hmem (by rw [hnext]; rfl)
    -- block 0 is the first of the list already
    have hne : l ≠ [] := List.ne_nil_of_mem hmem
    have hfirst := hl.start hne
    rw [h.ifree] at hfirst
    have hnodup : l.Nodup := hperm.nodup_iff.mpr (numbers_nodup _ _)
    cases l with
    | nil => exact hne rfl
    | cons a l =>
      obtain rfl : 0 = a := Option.some.inj hfirst
      exact (List.nodup_cons.mp hnodup).1 htail
  · refine ⟨?_, fun hle => absurd hle hin⟩
    by_contra hbad
    have hmem := (hsectors s).mpr ⟨by omega, hlt⟩
    have hnext : disk'.db_next s = 0 := by
      rw [h.data s (by omega) hlt, if_neg hbad]
      exact word32_zero (o := 0)
    have htail := hl'.next_mem (y := 0) hmem (by rw [hnext]; rfl)
    have := (hsectors 0).mp (List.mem_of_mem_tail htail)
    omega

/-- The loops leave the directory alone. -/
theorem ifree_of_loops {ibs n : ℕ} (hi : ibs < 2 ^ 24) (hn : n < 2 ^ 24)
    (h0 : E.nowrite LF_AREA_DIR = false) (disk : Sectors) :
    (linkItems (putFree E) (linkItems (putIndex E)
      (disk.write E (dirBytes (ibs + 1 : ℕ)) LF_AREA_DIR).1 (ibs * 7 - 1) (0 : ℕ)) n (ibs + 1 :
      ℕ)).lfd_ifree = 0 := by
  suffices hdir :
      (linkItems (putFree E) (linkItems (putIndex E) (disk.write E (dirBytes (ibs + 1 : ℕ)) LF_AREA_DIR).1
      (ibs * 7 - 1) (0 : ℕ))
      n (ibs + 1 : ℕ)).sector LF_AREA_DIR = dirBytes (ibs + 1 : ℕ) by
    unfold lfd_ifree
    rw [hdir]
    exact word32_structBytes (n := 5) rfl (by decide)
  have hzero : ((LF_AREA_DIR : ℕ) : ℤ) = 0 := rfl
  refine linkItems_induct (P := fun d => d.sector LF_AREA_DIR = dirBytes (ibs + 1 : ℕ))
    (fun d i v hi hle hP => ?_) (by omega) ?_
  · exact (write_sector (by omega)).trans hP
  refine linkItems_induct (P := fun d => d.sector LF_AREA_DIR = dirBytes (ibs + 1 : ℕ))
    (fun d i v hi hle hP => ?_) (by omega) ?_
  · refine (putIndex_sector ?_).trans hP
    unfold ib2sect
    push_cast
    omega
  · rw [write_ok h0]
    dsimp only
    rw [Function.update_self]

/-- The loop for the data blocks asks for a write of the first one, however many there are. -/
theorem first_requested (n : ℕ) (disk : Sectors) (i b : ℤ) (hb : b = i ∨ b ∈ disk.requests) :
    b ∈ (linkItems (putFree E) disk n i).requests := by
  have hput : ∀ v, b ∈ (putFree E disk i v).requests := fun v => by
    unfold putFree
    rw [write_requests]
    exact List.mem_cons.mpr hb
  induction n generalizing disk i with
  | zero => exact hput _
  | succ n ih =>
    refine ih _ _ (.inr (hput _)) fun v => ?_
    unfold putFree
    rw [write_requests]
    exact List.mem_cons_of_mem _ (hput _)

end

end Sectors

section

open Sectors

variable {E : DiskErrors} {dev lfiblks lf_dskdev : ℤ} {dsiz : ℕ}

/-- `lfscreate` formats the disk or refuses the arguments without any change if and only if the
device is invalid or one has been selected before, or the index blocks fit and the directory cannot
be written, or there are index blocks, at least three sectors and all sectors can be read and
written: without index blocks the list of free index blocks starts in the data area, with fewer
sectors the number of data blocks wraps, and too many index blocks are refused when the device has
been selected. -/
theorem create_ok (hi : 0 ≤ lfiblks) (hi' : lfiblks < 2 ^ 31) (hsiz : dsiz < 2 ^ 32) :
    CreateOk E lf_dskdev dev lfiblks dsiz ↔
    isbaddev dev ∨ lf_dskdev ≥ 0 ∨ (ibsectors lfiblks ≤ dsiz / LF_BLKSIZ / 2 ∧ (E.nowrite LF_AREA_DIR = true ∨
      (1 ≤ lfiblks ∧ 3 ≤ dsiz / LF_BLKSIZ ∧ Sound E (ibsectors lfiblks) (dsiz / LF_BLKSIZ)))) := by
  have hibs := ibsectors_eq hi hi'
  have hsectors : dsiz / LF_BLKSIZ < 2 ^ 24 := by
    change dsiz / 512 < 2 ^ 24
    omega
  generalize hs : dsiz / LF_BLKSIZ = sectors at hsectors
  constructor
  -- If the call is right, then the sizes are: each bad kind is excluded in turn.
  · intro hok
    by_contra hnot
    obtain ⟨hdev, hsel, hrest⟩ :
      ¬ isbaddev dev = true ∧ ¬ lf_dskdev ≥ 0 ∧ ¬ (ibsectors lfiblks ≤ sectors / 2 ∧
      (E.nowrite LF_AREA_DIR = true ∨ (1 ≤ lfiblks ∧ 3 ≤ sectors ∧
        Sound E (ibsectors lfiblks) sectors))) := by tauto
    have hargs : ¬ (isbaddev dev = true ∨ lf_dskdev ≥ 0) := not_or.mpr ⟨hdev, hsel⟩
    by_cases hmany : ibsectors lfiblks > sectors / 2
    · -- refused, but the device has been selected
      have href := hok.refused (.inr (.inr (hs ▸ hmany))) blankDisk
      rw [lfscreate_tooMany _ hargs (hs ▸ hmany)] at href
      have hsame : dev = lf_dskdev := congrArg (fun r => r.1.1) href
      simp only [isbaddev, decide_eq_true_eq] at hdev
      omega
    obtain ⟨hwrite, hgood⟩ : E.nowrite LF_AREA_DIR = false ∧
        ¬ (1 ≤ lfiblks ∧ 3 ≤ sectors ∧ Sound E (ibsectors lfiblks) sectors) := by
      have := not_lt.mp hmany
      rcases Bool.eq_false_or_eq_true (E.nowrite LF_AREA_DIR) with h | h <;> tauto
    have hrun := lfscreate_run blankDisk hargs (hs ▸ hmany) hwrite
    have hform := hok.formatted blankDisk.sector
      (by rw [show (⟨blankDisk.sector, []⟩ : Sectors) = blankDisk from rfl, hrun])
    rw [show (⟨blankDisk.sector, []⟩ : Sectors) = blankDisk from rfl, hrun, hs] at hform
    dsimp only at hform
    by_cases hfew : sectors ≤ ibsectors lfiblks + 1
    · -- no data block: the first write lies behind the disk
      have := hform.inside _ (first_requested _ _ _ _ (.inl rfl))
      omega
    have hn := steps_eq (ibsectors lfiblks) (by omega) hsectors
    rw [hn] at hform
    by_cases hzero : ibsectors lfiblks = 0
    · -- no index block: the list of free index blocks is not empty
      obtain ⟨⟨l, hl, hperm⟩, -⟩ := hform
      rw [ifree_of_loops (by omega) (by omega) hwrite] at hl
      rw [hzero] at hperm
      obtain rfl : l = [] := List.Perm.eq_nil hperm
      cases hl
    · have hlinks : Links E (ibsectors lfiblks) sectors blankDisk _ :=
        links_of_loops (by omega) (by omega) hsectors hwrite blankDisk
      exact hgood ⟨by omega, by omega, hlinks.sound hform⟩
  -- If the sizes are good, then the call is right: it is refused as it should be, or formats.
  · intro hcond
    by_cases hargs : isbaddev dev = true ∨ lf_dskdev ≥ 0
    · refine ⟨fun sector hOK => ?_, fun _ disk => lfscreate_refused disk hargs⟩
      rw [lfscreate_refused _ hargs] at hOK
      exact absurd hOK (by decide : SYSERR ≠ OK)
    obtain ⟨hdev, hsel⟩ := not_or.mp hargs
    obtain ⟨hfit, hcond⟩ := (hcond.resolve_left hdev).resolve_left hsel
    have hmany : ¬ ibsectors lfiblks > dsiz / LF_BLKSIZ / 2 := hs ▸ not_lt.mpr hfit
    refine ⟨fun sector hOK => ?_, fun href => absurd href (by unfold Refused; tauto)⟩
    rcases hcond with hfail | ⟨hpos, hthree, hsound⟩
    · rw [lfscreate_failed _ hargs hmany hfail] at hOK
      exact absurd hOK (by decide : SYSERR ≠ OK)
    by_cases hwrite : E.nowrite LF_AREA_DIR = true
    · rw [lfscreate_failed _ hargs hmany hwrite] at hOK
      exact absurd hOK (by decide : SYSERR ≠ OK)
    rw [Bool.not_eq_true] at hwrite
    have hn := steps_eq (ibsectors lfiblks) (by omega) hsectors
    rw [lfscreate_run _ hargs hmany hwrite, hs, hn]
    exact (links_of_loops (by omega) (by omega) hsectors hwrite _).formatted (by omega) (by omega) hsound

/-- A disk of 16 sectors with room for 14 index blocks, all of which can be read and written. -/
theorem create_ok_small : CreateOk ⟨fun _ => false, fun _ => false⟩ (-1) 2 14 8192 :=
  (create_ok (by decide) (by decide) (by decide)).mpr
    (.inr (.inr ⟨by decide, .inr ⟨by decide, by decide, fun _ _ _ => ⟨rfl, fun _ => rfl⟩⟩⟩))

/-- Without index blocks the same disk is not formatted, although the result is `OK`; and a disk of
16 sectors has no room for 100 index blocks, but the device stays selected, so that a second call
with good arguments is refused. -/
theorem create_misformats : ¬ CreateOk ⟨fun _ => false, fun _ => false⟩ (-1) 5 0 8192 ∧
    ¬ CreateOk ⟨fun _ => false, fun _ => false⟩ (-1) 5 100 8192 := by
  rw [create_ok (by decide) (by decide) (by decide), create_ok (by decide) (by decide) (by decide)]
  constructor
  · rintro (h | h | ⟨-, h | ⟨h, -⟩⟩) <;> exact absurd h (by decide)
  · rintro (h | h | ⟨h, -⟩) <;> exact absurd h (by decide)

end

end Xinu
