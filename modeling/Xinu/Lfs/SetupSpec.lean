import Xinu.Lfs.Layout

/-!
# What `lfsetup` does

It finds the index block and the data block of the position, or allocates them at the end of the
file, and writes back what it leaves (`Alone.lfsetup`). Each function below it keeps `Alone`, for
the file with the blocks that it has now.
-/

namespace Xinu

namespace LfLayout

variable {f : LfLayout} {k m : ℕ} {ib : Lfiblk} {b : ℤ}

/-- A cleared index block behind the last one. -/
theorem isIndex_cleared (hids : f.ids.length ≤ k + 1) (hblocks : f.blocks.length ≤ LF_IBLEN * k)
    {offset : ℕ} (ho : offset = LF_IDATA * k) :
    f.IsIndex k (ib.lfibclear offset) where
  next := by
    rw [List.getElem?_eq_none hids]
    rfl
  offset := ho
  dba j hj := by
    rw [List.getElem?_eq_none (by omega)]
    exact if_pos hj

/-- An index block that is not the last one stays as it is when the file gets another one. -/
theorem IsIndex.push_id (h : f.IsIndex k ib) (hk : k + 1 < f.ids.length) (b : ℤ) :
    IsIndex { f with ids := f.ids ++ [b] } k ib where
  next := by
    rw [List.getElem?_append_left hk]
    exact h.next
  offset := h.offset
  dba := h.dba

/-- The last index block gets the number of the next one. -/
theorem IsIndex.push_last (h : f.IsIndex k ib) (hk : k + 1 = f.ids.length) (b : ℤ) :
    IsIndex { f with ids := f.ids ++ [b] } k { ib with ib_next := b } where
  next := by
    rw [List.getElem?_append_right (by omega), hk, Nat.sub_self]
    rfl
  offset := h.offset
  dba := h.dba

/-- The other index blocks stay as they are when the file gets another data block. -/
theorem IsIndex.push_other (h : f.IsIndex k ib) (hk : k ≠ f.blocks.length / LF_IBLEN) (b : ℤ) :
    IsIndex { f with blocks := f.blocks ++ [b] } k ib where
  next := h.next
  offset := h.offset
  dba j hj := by
    rw [h.dba j hj]
    dsimp only [LF_IBLEN] at hj hk ⊢
    rcases Nat.lt_trichotomy (16 * k + j) f.blocks.length with hlt | heq | hgt
    · rw [List.getElem?_append_left hlt]
    · exact absurd (by omega) hk
    · rw [List.getElem?_eq_none hgt.le, List.getElem?_eq_none]
      simp only [List.length_append, List.length_singleton]
      omega

/-- The index block of the end of the file gets the number of the new data block. -/
theorem IsIndex.push_block (h : f.IsIndex k ib) (hk : k = f.blocks.length / LF_IBLEN) (b : ℤ) :
    IsIndex { f with blocks := f.blocks ++ [b] } k
      { ib with ib_dba := Function.update ib.ib_dba (f.blocks.length % LF_IBLEN) b } where
  next := h.next
  offset := h.offset
  dba j hj := by
    have hdba := h.dba j hj
    dsimp only [LF_IBLEN] at hj hk hdba ⊢
    by_cases he : j = f.blocks.length % 16
    · rw [he, Function.update_self, show 16 * k + f.blocks.length % 16 = f.blocks.length by omega,
        List.getElem?_concat_length]
      rfl
    · rw [Function.update_of_ne he, hdba]
      rcases Nat.lt_trichotomy (16 * k + j) f.blocks.length with hlt | heq | hgt
      · rw [List.getElem?_append_left hlt]
      · exact absurd (by omega) he
      · rw [List.getElem?_eq_none hgt.le, List.getElem?_eq_none]
        simp only [List.length_append, List.length_singleton]
        omega

end LfLayout

namespace Alone

variable {d d' : Lfdata} {c c' : LfFile} {x : LfAlloc} {b : ℤ} {k m : ℕ}

/-- What is not in the directory, in an index block or in a data block does not matter. -/
theorem of_eq (h : Alone d c x) (hdir : d'.lf_dir = d.lf_dir)
    (hi : d'.disk.iblks = d.disk.iblks) (hd : d'.disk.dblks = d.disk.dblks) :
    Alone d' c x := by
  obtain ⟨dskdev, dir, present, dirty, ⟨ddir, iblks, dblks⟩⟩ := d
  obtain ⟨dskdev', dir', present', dirty', ⟨ddir', iblks', dblks'⟩⟩ := d'
  simp only at hdir hi hd
  subst hdir hi hd
  exact ⟨h.entry, ⟨h.cached.1, h.cached.2, h.cached.3, h.cached.4,
    h.cached.5, h.cached.6, h.cached.7, h.cached.8, h.cached.9, h.cached.10⟩,
    h.ifree, h.dfree, h.ids_nodup, h.blocks_nodup, h.ids_num, h.blocks_num, h.ids_room, h.blocks_room⟩

/-- An index block of the file is not free. -/
theorem id_not_free (h : Alone d c x) (hb : b ∈ x.ids) : b ∉ x.ifree :=
  fun hf => (List.nodup_append'.mp h.ids_nodup).2.2 hf hb

/-- A data block of the file is not free. -/
theorem block_not_free (h : Alone d c x) (hb : b ∈ x.blocks) : b ∉ x.dfree :=
  fun hf => (List.nodup_append'.mp h.blocks_nodup).2.2 hf hb

/-- An index block is at one place in the file. -/
theorem id_index (h : Alone d c x) {j : ℕ} (hk : x.ids[k]? = some b) (hj : x.ids[j]? = some b) : k = j :=
  (List.getElem?_inj (List.getElem?_eq_some_iff.mp hk).1 (List.nodup_append'.mp h.ids_nodup).2.1).mp
    (hk.trans hj.symm)

/-- A data block is at one place in the file. -/
theorem block_index (h : Alone d c x) {j : ℕ} (hk : x.blocks[k]? = some b)
    (hj : x.blocks[j]? = some b) : k = j :=
  (List.getElem?_inj (List.getElem?_eq_some_iff.mp hk).1 (List.nodup_append'.mp h.blocks_nodup).2.1).mp
    (hk.trans hj.symm)

/-- An index block of the file is not null. -/
theorem id_ne (h : Alone d c x) (hk : x.ids[k]? = some b) : b ≠ LF_INULL := by
  have hnull : LF_INULL = -1 := rfl
  have := (h.ids_num b (List.mem_append_right _ (List.mem_of_getElem? hk))).1
  omega

/-- A data block of the file is not null. -/
theorem block_ne (h : Alone d c x) (hk : x.blocks[k]? = some b) : b ≠ LF_DNULL := by
  have hnull : LF_DNULL = -1 := rfl
  have := (h.blocks_num b (List.mem_append_right _ (List.mem_of_getElem? hk))).1
  omega

/-- Writing the directory to the disk keeps the file with its blocks. -/
theorem writeDir (h : Alone d c x) : Alone d.writeDir c x := h.of_eq rfl rfl rfl

/-- The data block in the control block is written. -/
theorem writeBlock (h : Alone d c x) (hc : c.lfdnum ≠ LF_DNULL) :
    Alone (d.writeBlock c.lfdnum c.lfdblock) { c with lfdbdirty := false } x ∧
    LfMoved d (d.writeBlock c.lfdnum c.lfdblock) k x x := by
  obtain ⟨j, hj, hdata⟩ := h.cached.dnum.resolve_left hc
  have hother : ∀ b ≠ c.lfdnum, (d.writeBlock c.lfdnum c.lfdblock).disk.dblks b = d.disk.dblks b :=
    fun b hb => Function.update_of_ne hb _ _
  have hfree := h.block_not_free (List.mem_of_getElem? hj)
  refine ⟨{ h with cached := { h.cached with data := fun m b hb => .inl ?_, dbdirty := nofun }, dfree := ?_ },
    { LfMoved.refl d k x with dblks := fun b hb => hother b ?_ }⟩
  · by_cases he : b = c.lfdnum
    · subst he
      rw [show (d.writeBlock c.lfdnum c.lfdblock).disk.dblks c.lfdnum =
        c.lfdblock from Function.update_self ..,
        h.block_index hb hj]
      exact hdata
    · rw [hother b he]
      exact (h.cached.data m b hb).resolve_right fun hd => he hd.1.symm
  · refine h.dfree.congr fun b hb => ?_
    unfold LfDisk.nextDb
    rw [hother b (ne_of_mem_of_not_mem hb hfree)]
  · exact fun he => hb (List.mem_append_right _ (he ▸ List.mem_of_getElem? hj))

/-- The index block in the control block is written. -/
theorem writeIndex (h : Alone d c x) (hc : c.lfinum ≠ LF_INULL) :
    Alone (d.lfibput c.lfinum c.lfiblock) { c with lfibdirty := false } x ∧
    LfMoved d (d.lfibput c.lfinum c.lfiblock) k x x := by
  obtain ⟨j, hj, hindex⟩ := h.cached.inum.resolve_left hc
  have hother : ∀ b ≠ c.lfinum, (d.lfibput c.lfinum c.lfiblock).disk.iblks b = d.disk.iblks b :=
    fun b hb => Function.update_of_ne hb _ _
  have hfree := h.id_not_free (List.mem_of_getElem? hj)
  refine ⟨{ h with cached := { h.cached with index := fun m b hb => .inl ?_, ibdirty := nofun },
                   ifree := ?_ },
    { LfMoved.refl d k x with iblks := fun b hb => hother b ?_ }⟩
  · by_cases he : b = c.lfinum
    · subst he
      rw [show (d.lfibput c.lfinum c.lfiblock).disk.iblks c.lfinum = c.lfiblock from Function.update_self ..,
        h.id_index hb hj]
      exact hindex
    · rw [hother b he]
      exact (h.cached.index m b hb).resolve_right fun hd => he hd.1.symm
  · refine h.ifree.congr fun b hb => ?_
    unfold LfDisk.nextIb
    rw [hother b (ne_of_mem_of_not_mem hb hfree)]
  · exact fun he => hb (List.mem_append_right _ (he ▸ List.mem_of_getElem? hj))

/-- A control block without a newer data block. -/
theorem clean_data (h : Alone d c x) (hc : c.lfdbdirty = false) :
    Alone d { c with lfdbdirty := false } x := by
  rwa [show { c with lfdbdirty := false } = c by cases c; simp_all]

/-- A control block without a newer index block. -/
theorem clean_index (h : Alone d c x) (hc : c.lfibdirty = false) :
    Alone d { c with lfibdirty := false } x := by
  rwa [show { c with lfibdirty := false } = c by cases c; simp_all]

end Alone

/-- The directory and its copy on disk are as before, or the directory has been written. -/
def Written (d d' : Lfdata) : Prop :=
  (d'.lf_dir = d.lf_dir ∧ d'.disk.dir = d.disk.dir ∧ d'.lf_dirdirty = d.lf_dirdirty) ∨ d'.disk.dir = d'.lf_dir

namespace Written

variable {d₁ d₂ d₃ : Lfdata}

/-- Nothing changes. -/
theorem refl (d : Lfdata) : Written d d := .inl ⟨rfl, rfl, rfl⟩

/-- Two stretches in which the directory is written, one after another, are one. -/
theorem trans (h : Written d₁ d₂) (h' : Written d₂ d₃) : Written d₁ d₃ := by
  obtain ⟨hdir', hdisk', hdirty'⟩ | h' := h'
  · obtain ⟨hdir, hdisk, hdirty⟩ | h := h
    · exact .inl ⟨hdir'.trans hdir, hdisk'.trans hdisk, hdirty'.trans hdirty⟩
    · exact .inr (hdisk'.trans (h.trans hdir'.symm))
  · exact .inr h'

end Written

namespace Alone

variable {d d' : Lfdata} {c c' : LfFile} {x x' : LfAlloc} {b : ℤ} {k m : ℕ}

/-- A flush writes the blocks that are dirty, and keeps the bytes of the file. -/
theorem lfflush (h : Alone d c x) (hu : c.lfused = true) :
    (d.lfflush c).2 = { c with lfdbdirty := false, lfibdirty := false } ∧
    Alone (d.lfflush c).1 { c with lfdbdirty := false, lfibdirty := false } x ∧
      LfMoved d (d.lfflush c).1 k x x ∧
    (d.lfflush c).1.lf_dir = d.lf_dir ∧ Written d (d.lfflush c).1 := by
  unfold Lfdata.lfflush
  rw [if_neg (not_not.mpr hu)]
  dsimp only
  -- the directory, the data block and the index block are written one after the other
  generalize hd₁ : (if d.lf_dirdirty = true then { d.writeDir with lf_dirdirty := false } else d) = d₁
  have h₁ : Alone d₁ c x ∧ LfMoved d d₁ k x x ∧ d₁.lf_dir = d.lf_dir ∧ Written d d₁ := by
    rw [← hd₁]
    split_ifs
    · exact ⟨h.of_eq rfl rfl rfl, { LfMoved.refl d k x with }, rfl, .inr rfl⟩
    · exact ⟨h, .refl d k x, rfl, .refl d⟩
  generalize hd₂ : (if c.lfdbdirty = true then d₁.writeBlock c.lfdnum c.lfdblock else d₁) = d₂
  have h₂ : Alone d₂ { c with lfdbdirty := false } x ∧ LfMoved d₁ d₂ k x x ∧
      d₂.lf_dir = d₁.lf_dir ∧ Written d₁ d₂ := by
    rw [← hd₂]
    split_ifs with hdb
    · obtain ⟨ha, hm⟩ := h₁.1.writeBlock (k := k) (h.cached.dbdirty hdb)
      exact ⟨ha, hm, rfl, .inl ⟨rfl, rfl, rfl⟩⟩
    · exact ⟨h₁.1.clean_data (Bool.eq_false_iff.mpr hdb), .refl d₁ k x, rfl, .refl d₁⟩
  generalize hd₃ : (if c.lfibdirty = true then d₂.lfibput c.lfinum c.lfiblock else d₂) = d₃
  have h₃ : Alone d₃ { c with lfdbdirty := false, lfibdirty := false } x ∧
      LfMoved d₂ d₃ k x x ∧ d₃.lf_dir = d₂.lf_dir ∧ Written d₂ d₃ := by
    rw [← hd₃]
    split_ifs with hib
    · obtain ⟨ha, hm⟩ := h₂.1.writeIndex (k := k) (h.cached.ibdirty hib)
      exact ⟨ha, hm, rfl, .inl ⟨rfl, rfl, rfl⟩⟩
    · exact ⟨h₂.1.clean_index (Bool.eq_false_iff.mpr hib), .refl d₂ k x, rfl, .refl d₂⟩
  exact ⟨rfl, h₃.1, (h₁.2.1.trans h₂.2.1).trans h₃.2.1, h₃.2.2.1.trans (h₂.2.2.1.trans h₁.2.2.1),
    (h₁.2.2.2.trans h₂.2.2.2).trans h₃.2.2.2⟩

/-- The entry of the file in the directory has its size and the first of its index blocks. -/
theorem entry_eq (h : Alone d c x) : (d.entry c.lfdirptr).ld_size = x.bytes.length ∧
    (d.entry c.lfdirptr).ld_ilist = x.ids.head?.getD LF_INULL ∧
    d.lf_dir.lfd_files[c.lfdirptr]? = some (d.entry c.lfdirptr) := by
  obtain ⟨e, he, hsize, hilist⟩ := h.entry
  rw [show d.entry c.lfdirptr = e by rw [Lfdata.entry, he]; rfl]
  exact ⟨hsize, hilist, he⟩

/-- The first free index block is taken from the list, and the directory is written. -/
theorem lfiballoc (h : Alone d c x) :
    (d.lfiballoc = none ∧ x.ifree = []) ∨ ∃ b rest next, x.ifree = b :: rest ∧
    d.lfiballoc = some (b, d.updateDir { d.lf_dir with lfd_ifree := next }) ∧
    LinkPath d.disk.nextIb (blockPtr next) rest none := by
  have hpath := h.ifree
  unfold Lfdata.lfiballoc
  dsimp only
  cases hx : x.ifree with
  | nil =>
    rw [hx, LinkPath.nil_iff, blockPtr_eq_none] at hpath
    exact .inl ⟨if_pos hpath, rfl⟩
  | cons b rest =>
    rw [hx, LinkPath.cons_iff, blockPtr_eq_some] at hpath
    obtain ⟨⟨rfl, hne⟩, hrest⟩ := hpath
    rw [if_neg hne]
    exact .inr ⟨_, rest, _, rfl, rfl, hrest⟩

/-- The first free data block is taken from the list, and the directory is written. -/
theorem lfdballoc (h : Alone d c x) :
    (d.lfdballoc = none ∧ x.dfree = []) ∨ ∃ b rest buff next, x.dfree = b :: rest ∧
    d.lfdballoc = some (b, buff, d.updateDir { d.lf_dir with lfd_dfree := next }) ∧
    LinkPath d.disk.nextDb (blockPtr next) rest none := by
  have hpath := h.dfree
  unfold Lfdata.lfdballoc
  dsimp only
  cases hx : x.dfree with
  | nil =>
    rw [hx, LinkPath.nil_iff, blockPtr_eq_none] at hpath
    exact .inl ⟨if_pos hpath, rfl⟩
  | cons b rest =>
    rw [hx, LinkPath.cons_iff, blockPtr_eq_some] at hpath
    obtain ⟨⟨rfl, hne⟩, hrest⟩ := hpath
    rw [if_neg hne]
    exact .inr ⟨_, rest, _, _, rfl, rfl, hrest⟩

end Alone

/-- What `lfsetup` leaves as it is in a control block. -/
structure Kept (c c' : LfFile) : Prop where
  /-- Whether it is in use. -/
  used : c'.lfused = c.lfused
  /-- The entry of the directory. -/
  dirptr : c'.lfdirptr = c.lfdirptr
  /-- The position. -/
  pos : c'.lfpos = c.lfpos
  /-- The name. -/
  name : c'.lfname = c.lfname
  /-- The device. -/
  dev : c'.lfdev = c.lfdev

namespace Kept

variable {c c₁ c₂ c₃ : LfFile}

/-- Nothing changes. -/
theorem refl (c : LfFile) : Kept c c := ⟨rfl, rfl, rfl, rfl, rfl⟩

/-- Two stretches that keep the control block, one after another, keep it. -/
theorem trans (h : Kept c₁ c₂) (h' : Kept c₂ c₃) : Kept c₁ c₃ :=
  ⟨h'.used.trans h.used, h'.dirptr.trans h.dirptr, h'.pos.trans h.pos,
    h'.name.trans h.name, h'.dev.trans h.dev⟩

end Kept

/-- A part of `lfsetup` has been done: the bytes are the same. -/
structure SetupStep (d : Lfdata) (c : LfFile) (x : LfAlloc)
    (d' : Lfdata) (c' : LfFile) (x' : LfAlloc) : Prop where
  /-- The file and the free lists are in order. -/
  alone : Alone d' c' x'
  /-- Only blocks of the file and free blocks have changed. -/
  moved : LfMoved d d' c.lfdirptr x x'
  /-- The bytes are the same. -/
  bytes : x'.bytes = x.bytes
  /-- The rest of the control block stays. -/
  kept : Kept c c'

/-- One part after another. -/
theorem SetupStep.trans {d₁ d₂ d₃ : Lfdata} {c₁ c₂ c₃ : LfFile}
    {x₁ x₂ x₃ : LfAlloc} (h : SetupStep d₁ c₁ x₁ d₂ c₂ x₂)
    (h' : SetupStep d₂ c₂ x₂ d₃ c₃ x₃) : SetupStep d₁ c₁ x₁ d₃ c₃ x₃ where
  alone := h'.alone
  moved := h.moved.trans (h.kept.dirptr ▸ h'.moved)
  bytes := h'.bytes.trans h.bytes
  kept := h.kept.trans h'.kept

/-- The index block in memory is the `k`-th one of the file, at or before the position, and is not
dirty unless it is the one of the position. The data block in memory is not used. -/
structure AtIndex (c : LfFile) (x : LfAlloc) (k : ℕ) : Prop where
  /-- The number is that of the `k`-th index block. -/
  num : x.ids[k]? = some c.lfinum
  /-- The block in memory is that one. -/
  index : x.IsIndex k c.lfiblock
  /-- It is not behind the position. -/
  le : k ≤ c.lfpos / LF_IDATA
  /-- It is dirty only if it is the one of the position. -/
  fresh : c.lfibdirty = true → k = c.lfpos / LF_IDATA
  /-- The data block is not dirty. -/
  clean : c.lfdbdirty = false
  /-- The place is behind the data block. -/
  behind : LF_BLKSIZ ≤ c.lfbyte

/-- A step from one index block to another one. -/
structure IndexStep (d : Lfdata) (c : LfFile) (x : LfAlloc)
    (d' : Lfdata) (c' : LfFile) (x' : LfAlloc) (k : ℕ) : Prop extends
    SetupStep d c x d' c' x' where
  /-- The index block in memory is the `k`-th one. -/
  here : AtIndex c' x' k
  /-- No data block is taken. -/
  dfree : x'.dfree = x.dfree
  /-- The file has the same data blocks. -/
  blocks : x'.blocks = x.blocks

namespace Alone

variable {d d' : Lfdata} {c c' : LfFile} {x x' : LfAlloc} {b : ℤ} {k m n : ℕ}

/-- The blocks have moved: each of them is still at one place. -/
theorem of_moved (h : Alone d c x) (hm : LfMoved d d' k x x')
    (entry : ∃ e, d'.lf_dir.lfd_files[c'.lfdirptr]? = some e ∧
      e.ld_size = x'.bytes.length ∧ e.ld_ilist = x'.ids.head?.getD LF_INULL)
    (cached : Cached d'.disk c' x'.toLfLayout)
    (ifree : LinkPath d'.disk.nextIb (blockPtr d'.lf_dir.lfd_ifree) x'.ifree none)
    (dfree : LinkPath d'.disk.nextDb (blockPtr d'.lf_dir.lfd_dfree) x'.dfree none) : Alone d' c' x' where
  entry := entry
  cached := cached
  ifree := ifree
  dfree := dfree
  ids_nodup := hm.ids.nodup_iff.mpr h.ids_nodup
  blocks_nodup := hm.blocks.nodup_iff.mpr h.blocks_nodup
  ids_num b hb := h.ids_num b (hm.ids.subset hb)
  blocks_num b hb := h.blocks_num b (hm.blocks.subset hb)
  ids_room := hm.ids.length_eq ▸ h.ids_room
  blocks_room := hm.blocks.length_eq ▸ h.blocks_room

/-- An index block is read, when the one in memory is not dirty. -/
theorem loadIndex (h : Alone d c x) (hib : c.lfibdirty = false) (hk : x.ids[k]? = some b) :
    Alone d { c with lfiblock := d.disk.lfibget b, lfinum := b } x ∧ x.IsIndex k (d.disk.lfibget b) := by
  have hclean : ∀ j a, x.ids[j]? = some a → x.IsIndex j (d.disk.iblks a) := fun j a hj =>
    (h.cached.index j a hj).resolve_right fun hd => by simp [hib] at hd
  refine ⟨{ h with cached := { h.cached with index := fun j a hj => .inl (hclean j a hj),
                                             inum := .inr ⟨k, hk, hclean k b hk⟩, ibdirty := ?_ } },
    hclean k b hk⟩
  intro hd
  simp [hib] at hd

/-- The data block in memory is forgotten, when it is not dirty and not used. -/
theorem forgetData (h : Alone d c x) (hdb : c.lfdbdirty = false) (hbyte : LF_BLKSIZ ≤ c.lfbyte) :
    Alone d { c with lfdnum := LF_DNULL } x := by
  refine { h with cached := { h.cached with data := fun m b hb => .inl ?_, dnum := .inl rfl, dbdirty := ?_,
                                            byte := ?_ } }
  · exact (h.cached.data m b hb).resolve_right fun hd => by simp [hdb] at hd
  · intro hd
    simp [hdb] at hd
  · exact fun hlt => absurd hlt (not_lt.mpr hbyte)

/-- A file without index blocks is empty. -/
theorem empty (h : Alone d c x) (hids : x.ids = []) : x.blocks = [] ∧ x.bytes = [] ∧ c.lfpos = 0 := by
  have hblocks := h.cached.blocks_le
  have hbytes := h.cached.bytes_le
  have hpos := h.cached.pos
  rw [hids, List.length_nil, Nat.mul_zero] at hblocks
  have hb : x.blocks = [] := List.length_eq_zero_iff.mp (by omega)
  rw [hb, List.length_nil, Nat.mul_zero] at hbytes
  exact ⟨hb, List.length_eq_zero_iff.mp (by omega), by omega⟩

/-- An empty file gets its first index block. -/
theorem firstIndex (h : Alone d c x) (hids : x.ids = []) {rest : List ℤ} {next : ℤ} (hx : x.ifree = b :: rest)
    (hrest : LinkPath d.disk.nextIb (blockPtr next) rest none)
    (hdb : c.lfdbdirty = false) (hbyte : LF_BLKSIZ ≤ c.lfbyte) :
    IndexStep d c x
      ((d.updateDir { d.lf_dir with lfd_ifree := next }).setEntry
        c.lfdirptr { d.entry c.lfdirptr with ld_ilist := b })
      { c with lfiblock := c.lfiblock.lfibclear 0, lfibdirty := true, lfinum := b }
        { x with ids := [b], ifree := rest } 0 := by
  obtain ⟨hblocks, hbytes, hpos⟩ := h.empty hids
  obtain ⟨hsize, -, hentry⟩ := h.entry_eq
  have hlt := (List.getElem?_eq_some_iff.mp hentry).1
  have hnum : b ≠ LF_INULL := by
    have hnull : LF_INULL = -1 := rfl
    have := (h.ids_num b (by simp [hx])).1
    omega
  -- The new index block is empty, and is the first one of the file.
  have hindex : LfLayout.IsIndex { x.toLfLayout with ids := [b] } 0 (c.lfiblock.lfibclear 0) :=
    LfLayout.isIndex_cleared le_rfl (by simp [hblocks]) rfl
  have hperm : (rest ++ [b]).Perm (x.ifree ++ x.ids) := by
    rw [hx, hids, List.append_nil]
    exact List.perm_append_singleton b rest
  -- It leaves the free list, which starts with the next one.
  have hwrite : LfMoved d (d.updateDir { d.lf_dir with lfd_ifree := next }) c.lfdirptr x
      { x with ids := [b], ifree := rest } :=
    .updateDir rfl rfl hperm (.refl _)
  have hmoved :=
    hwrite.trans (.setEntry (k := c.lfdirptr) { d.entry c.lfdirptr with ld_ilist := b } hentry rfl)
  refine ⟨⟨h.of_moved hmoved ?_ ?_ hrest h.dfree, hmoved, rfl, ⟨rfl, rfl, rfl, rfl, rfl⟩⟩, ?_, rfl, rfl⟩
  · exact ⟨_, List.getElem?_set_self hlt, hsize, rfl⟩
  -- Nothing of the file is in it yet, so the blocks in memory stay right.
  · refine { h.cached with blocks_le := ?_, index := ?_, inum := .inr ⟨0, rfl, hindex⟩,
                           ibdirty := fun _ => hnum }
    · simp [hblocks]
    · rintro (_ | j) a ha
      · exact .inr ⟨Option.some.inj ha, rfl⟩
      · cases ha
  · exact ⟨rfl, hindex, Nat.zero_le _, fun _ => by rw [hpos]; rfl, hdb, hbyte⟩

/-- The first part of `lfsetup`. It fails if an empty file needs an index block and there is none. -/
theorem setupIndex (h : Alone d c x) (hib : c.lfibdirty = false)
    (hdb : c.lfdbdirty = false) (hbyte : LF_BLKSIZ ≤ c.lfbyte) :
    (d.setupIndex c = none ∧ x.ifree = [] ∧ c.lfpos = x.bytes.length) ∨
    ∃ d' c' x' k, d.setupIndex c = some (d', c') ∧ IndexStep d c x d' c' x' k ∧
      ((x' = x ∧ Written d d') ∨ (k = c.lfpos / LF_IDATA ∧ x'.blocks = [])) := by
  obtain ⟨-, hilist, -⟩ := h.entry_eq
  have hload : ∀ j b, x.ids[j]? = some b → j ≤ c.lfpos / LF_IDATA →
      IndexStep d c x d { c with lfiblock := d.disk.lfibget b, lfinum := b } x j := fun j b hj hle => by
    obtain ⟨halone, hindex⟩ := h.loadIndex hib hj
    exact ⟨⟨halone, .refl .., rfl, ⟨rfl, rfl, rfl, rfl, rfl⟩⟩,
      ⟨hj, hindex, hle, fun hd => by simp [hib] at hd, hdb, hbyte⟩, rfl, rfl⟩
  unfold Lfdata.setupIndex
  dsimp only
  by_cases hinum : c.lfinum = LF_INULL
  · rw [if_pos hinum]
    cases hids : x.ids with
    | nil =>
      rw [if_pos (by rw [hilist, hids]; rfl)]
      obtain ⟨hblocks, hbytes, hpos⟩ := h.empty hids
      rcases h.lfiballoc with ⟨hnone, hfree⟩ | ⟨b, rest, next, hfree, hsome, hrest⟩
      · exact .inl ⟨by rw [hnone]; rfl, hfree, by rw [hpos, hbytes]; rfl⟩
      · rw [hsome]
        exact .inr ⟨_, _, _, 0, rfl, h.firstIndex hids hfree hrest hdb hbyte,
          .inr ⟨by rw [hpos]; rfl, hblocks⟩⟩
    | cons b ids =>
      have hb : (d.entry c.lfdirptr).ld_ilist = b := by rw [hilist, hids]; rfl
      have hzero : x.ids[0]? = some b := by rw [hids]; rfl
      rw [hb, if_neg (h.id_ne hzero)]
      exact .inr ⟨_, _, _, 0, rfl, hload 0 b hzero (Nat.zero_le _), .inl ⟨rfl, .refl d⟩⟩
  · rw [if_neg hinum]
    obtain ⟨k, hk, hindex⟩ := h.cached.inum.resolve_left hinum
    by_cases hlt : c.lfpos < c.lfiblock.ib_offset
    · rw [if_pos hlt]
      -- the index block in memory is behind the position, so that the file has a first one
      cases hids : x.ids with
      | nil =>
        rw [hids] at hk
        cases hk
      | cons b ids =>
        have hb : (d.entry c.lfdirptr).ld_ilist = b := by rw [hilist, hids]; rfl
        have hzero : x.ids[0]? = some b := by rw [hids]; rfl
        rw [hb]
        exact .inr ⟨_, _, _, 0, rfl, hload 0 b hzero (Nat.zero_le _), .inl ⟨rfl, .refl d⟩⟩
    · rw [if_neg hlt]
      have hle : k ≤ c.lfpos / LF_IDATA := by
        rw [hindex.offset] at hlt
        dsimp only [LF_IDATA] at hlt ⊢
        omega
      exact .inr ⟨_, _, _, k, rfl, ⟨⟨h, .refl .., rfl, .refl c⟩,
        ⟨hk, hindex, hle, fun hd => by simp [hib] at hd, hdb, hbyte⟩, rfl, rfl⟩, .inl ⟨rfl, .refl d⟩⟩

/-- Behind the last index block the file is at its end. -/
theorem end_of_ids (h : Alone d c x) (hk : x.ids.length ≤ k) (hpos : k ≤ c.lfpos / LF_IDATA) :
    x.ids.length = k ∧ c.lfpos = LF_IDATA * k ∧ c.lfpos = x.bytes.length ∧
    x.blocks.length = LF_IBLEN * k := by
  have hblocks := h.cached.blocks_le
  have hbytes := h.cached.bytes_le
  have hle := h.cached.pos
  dsimp only [LF_IDATA, LF_IBLEN, LF_BLKSIZ] at hblocks hbytes hpos ⊢
  omega

/-- What memory and disk have of the blocks of a file stays right when its last index block gets a
next one, which is empty. -/
theorem cached_nextIndex (h : Alone d c x) (hat : AtIndex c x k) (hlast : x.ids.length = k + 1)
    (hclean : c.lfibdirty = false) (hnum : b ≠ LF_INULL)
    (hindex : LfLayout.IsIndex { x.toLfLayout with ids := x.ids ++ [b] } (k + 1)
      (Lfiblk.lfibclear { c.lfiblock with ib_next := b } ((c.lfiblock.ib_offset + LF_IDATA) % 2 ^ 32)))
    (next : ℤ) :
    Cached ((d.updateDir { d.lf_dir with lfd_ifree := next }).lfibput
        c.lfinum { c.lfiblock with ib_next := b }).disk
      { c with lfinum := b
               lfiblock := Lfiblk.lfibclear { c.lfiblock with ib_next := b }
                 ((c.lfiblock.ib_offset + LF_IDATA) % 2 ^ 32)
               lfibdirty := true, lfdnum := LF_DNULL }
      { x.toLfLayout with ids := x.ids ++ [b] } := by
  have hget : (x.ids ++ [b])[k + 1]? = some b := by rw [← hlast, List.getElem?_concat_length]
  refine { h.cached with
    blocks_le := ?_
    index := fun j a hj => ?_
    data := fun m a ha => .inl ?_
    inum := .inr ⟨k + 1, hget, hindex⟩
    dnum := .inl rfl
    ibdirty := fun _ => hnum
    dbdirty := fun hd => ?_
    byte := fun hlt => ?_ }
  · rw [List.length_append, List.length_singleton]
    exact h.cached.blocks_le.trans (Nat.mul_le_mul_left _ (Nat.le_succ _))
  · rcases Nat.lt_or_ge j x.ids.length with hlt | hge
    · have hj : x.ids[j]? = some a := by rwa [List.getElem?_append_left hlt] at hj
      by_cases ha : a = c.lfinum
      · -- the block that was the last one
        subst ha
        rw [show j = k from h.id_index hj hat.num]
        refine .inl ?_
        have hlast := hat.index.push_last hlast.symm b
        rwa [show ((d.updateDir { d.lf_dir with lfd_ifree := next }).lfibput
          c.lfinum { c.lfiblock with ib_next := b }).disk.iblks
          c.lfinum = { c.lfiblock with ib_next := b } from Function.update_self ..]
      · have hne : j ≠ k := fun he => ha (Option.some.inj (hj.symm.trans (he ▸ hat.num)))
        have hold := (h.cached.index j a hj).resolve_right fun hd => by simp [hclean] at hd
        refine .inl ?_
        rw [show ((d.updateDir { d.lf_dir with lfd_ifree := next }).lfibput
          c.lfinum { c.lfiblock with ib_next := b }).disk.iblks
          a = d.disk.iblks a from Function.update_of_ne ha _ _]
        exact hold.push_id (by omega) b
    · rw [List.getElem?_append_right hge] at hj
      have hzero : j - x.ids.length = 0 := by
        have := (List.getElem?_eq_some_iff.mp hj).1
        simp only [List.length_singleton] at this
        omega
      rw [hzero] at hj
      exact .inr ⟨Option.some.inj hj, rfl⟩
  · exact (h.cached.data m a ha).resolve_right fun hd => by simp [hat.clean] at hd
  · simp [hat.clean] at hd
  · exact absurd hlt (not_lt.mpr hat.behind)

/-- The last index block gets a next one. -/
theorem nextIndex (h : Alone d c x) (hat : AtIndex c x k)
    (hlast : x.ids.length = k + 1) (hpos : k + 1 ≤ c.lfpos / LF_IDATA)
    {rest : List ℤ} {next : ℤ} (hx : x.ifree = b :: rest)
    (hrest : LinkPath d.disk.nextIb (blockPtr next) rest none) :
    IndexStep d c x
      ((d.updateDir { d.lf_dir with lfd_ifree := next }).lfibput c.lfinum { c.lfiblock with ib_next := b })
      { c with lfinum := b
               lfiblock := Lfiblk.lfibclear { c.lfiblock with ib_next := b }
                 ((c.lfiblock.ib_offset + LF_IDATA) % 2 ^ 32)
               lfibdirty := true, lfdnum := LF_DNULL }
      { x with ids := x.ids ++ [b], ifree := rest } (k + 1) := by
  obtain ⟨-, hend, hbytes, hblocks⟩ := h.end_of_ids hlast.le hpos
  obtain ⟨e, he, hsize, hilist⟩ := h.entry
  have hinum := List.mem_of_getElem? hat.num
  have hnum : b ≠ LF_INULL := by
    have hnull : LF_INULL = -1 := rfl
    have := (h.ids_num b (by simp [hx])).1
    omega
  -- The index block in memory is clean: a dirty one would be that of the position.
  have hclean : c.lfibdirty = false := Bool.eq_false_iff.mpr fun hd => by
    have := hat.fresh hd
    omega
  have hroom := h.blocks_room
  rw [List.length_append] at hroom
  -- The new block starts where the data of the one before end.
  have hoffset : (c.lfiblock.ib_offset + LF_IDATA) % 2 ^ 32 = LF_IDATA * (k + 1) := by
    rw [hat.index.offset]
    dsimp only [LF_IDATA, LF_IBLEN, LF_BLKSIZ] at hroom hblocks ⊢
    omega
  have hindex : LfLayout.IsIndex { x.toLfLayout with ids := x.ids ++ [b] } (k + 1)
      (Lfiblk.lfibclear { c.lfiblock with ib_next := b } ((c.lfiblock.ib_offset + LF_IDATA) % 2 ^ 32)) :=
    LfLayout.isIndex_cleared (f := { x.toLfLayout with ids := x.ids ++ [b] })
      (by simp [hlast]) hblocks.le hoffset
  -- It leaves the free list, and is behind the others of the file.
  have hperm : (rest ++ (x.ids ++ [b])).Perm (x.ifree ++ x.ids) := by
    rw [hx, ← List.append_assoc]
    exact List.perm_append_singleton b _
  have hwrite : LfMoved d (d.updateDir { d.lf_dir with lfd_ifree := next }) c.lfdirptr x
      { x with ids := x.ids ++ [b], ifree := rest } :=
    .updateDir rfl rfl hperm (.refl _)
  have hmoved : LfMoved d ((d.updateDir { d.lf_dir with lfd_ifree := next }).lfibput
      c.lfinum { c.lfiblock with ib_next := b })
      c.lfdirptr x { x with ids := x.ids ++ [b], ifree := rest } :=
    { hwrite with
      iblks := fun a ha =>
        Function.update_of_ne (fun he : a = c.lfinum => ha (List.mem_append_right _ (he ▸ hinum))) _ _ }
  -- The new block is the one in memory, at its place in the file.
  have hget : (x.ids ++ [b])[k + 1]? = some b := by rw [← hlast, List.getElem?_concat_length]
  refine ⟨⟨h.of_moved hmoved ?_ ?_ (hrest.congr fun a ha => ?_) h.dfree,
    hmoved, rfl, ⟨rfl, rfl, rfl, rfl, rfl⟩⟩,
    ⟨hget, hindex, hpos, fun _ => ?_, hat.clean, hat.behind⟩, rfl, rfl⟩
  · refine ⟨e, he, hsize, ?_⟩
    rw [hilist]
    change _ = (x.ids ++ [b]).head?.getD LF_INULL
    rw [List.head?_append_of_ne_nil _ (List.ne_nil_of_mem hinum)]
  · exact h.cached_nextIndex hat hlast hclean hnum hindex next
  -- The free list does not go through the block that was the last one.
  · unfold LfDisk.nextIb
    have hne : a ≠ c.lfinum := fun he => h.id_not_free hinum (hx ▸ List.mem_cons_of_mem b (he ▸ ha))
    rw [show ((d.updateDir { d.lf_dir with lfd_ifree := next }).lfibput
      c.lfinum { c.lfiblock with ib_next := b }).disk.iblks
      a = d.disk.iblks a from Function.update_of_ne hne _ _]
  · dsimp only [LF_IDATA] at hend hpos ⊢
    omega

/-- One step of the loop of `lfsetup`: a next index block is read, or is allocated at the end of the file. -/
theorem setupNext (h : Alone d c x) (hat : AtIndex c x k) (hpos : k + 1 ≤ c.lfpos / LF_IDATA) :
    (d.setupNext c = none ∧ x.ifree = [] ∧ c.lfpos = x.bytes.length) ∨
    ∃ d' c' x', d.setupNext c = some (d', c') ∧ IndexStep d c x d' c' x' (k + 1) ∧ Written d d' ∧
      (x' = x ∨ (k + 1 = c.lfpos / LF_IDATA ∧ c.lfpos = x.bytes.length)) := by
  have hclean : c.lfibdirty = false := Bool.eq_false_iff.mpr fun hd => by
    have := hat.fresh hd
    omega
  have hnext := hat.index.next
  unfold Lfdata.setupNext
  dsimp only
  cases hk : x.ids[k + 1]? with
  | some b =>
    rw [hk, Option.getD_some] at hnext
    rw [hnext, if_neg (h.id_ne hk)]
    obtain ⟨halone, hindex⟩ := (h.forgetData hat.clean hat.behind).loadIndex hclean hk
    exact .inr ⟨_, _, x, rfl, ⟨⟨halone, .refl .., rfl, ⟨rfl, rfl, rfl, rfl, rfl⟩⟩,
      ⟨hk, hindex, hpos, fun hd => by simp [hclean] at hd, hat.clean, hat.behind⟩, rfl, rfl⟩,
        .refl d, .inl rfl⟩
  | none =>
    rw [hk, Option.getD_none] at hnext
    have hlast : x.ids.length = k + 1 :=
      le_antisymm (List.getElem?_eq_none_iff.mp hk) (List.getElem?_eq_some_iff.mp hat.num).1
    obtain ⟨-, hend, hbytes, -⟩ := h.end_of_ids hlast.le hpos
    rw [if_pos hnext]
    rcases h.lfiballoc with ⟨hnone, hfree⟩ | ⟨b, rest, next, hfree, hsome, hrest⟩
    · exact .inl ⟨by rw [hnone]; rfl, hfree, hbytes⟩
    · rw [hsome]
      refine .inr ⟨_, _, _, rfl, h.nextIndex hat hlast hpos hfree hrest, .inr rfl, .inr ⟨?_, hbytes⟩⟩
      dsimp only [LF_IDATA] at hend ⊢
      omega

/-- The loop of `lfsetup` ends at the index block of the position. -/
theorem setupLoop_done (hat : AtIndex c x k) (hk : k = c.lfpos / LF_IDATA) (hn : 0 < n) :
    Lfdata.setupLoop n d c = some (d, c) := by
  cases n with
  | zero => exact absurd hn (lt_irrefl 0)
  | succ n =>
    unfold Lfdata.setupLoop
    rw [if_neg]
    rw [hat.index.offset, hk, Nat.mul_comm]
    exact lt_irrefl _

/-- The loop of `lfsetup` leads to the index block of the position. It fails if the file has to grow
and there is no index block. A position in the file needs no new block. -/
theorem setupLoop (h : Alone d c x) (hat : AtIndex c x k) (hn : c.lfpos / LF_IDATA < k + n) :
    (Lfdata.setupLoop n d c = none ∧ x.ifree = [] ∧ c.lfpos = x.bytes.length) ∨
    ∃ d' c' x', Lfdata.setupLoop n d c = some (d', c') ∧ IndexStep d c x d' c' x'
      (c.lfpos / LF_IDATA) ∧ Written d d' ∧
      (c.lfpos < x.bytes.length → x' = x) := by
  induction n generalizing d c x k with
  | zero =>
    have := hat.le
    omega
  | succ n ih =>
    -- The index block of the position has been reached, or the loop takes another one.
    rcases Nat.eq_or_lt_of_le hat.le with hk | hlt
    · refine .inr ⟨d, c, x, setupLoop_done hat hk (Nat.succ_pos n),
        ⟨⟨h, .refl .., rfl, .refl c⟩, hk ▸ hat, rfl, rfl⟩, .refl d, fun _ => rfl⟩
    unfold Lfdata.setupLoop
    have hgt : c.lfpos / LF_IDATA * LF_IDATA > c.lfiblock.ib_offset := by
      rw [hat.index.offset]
      dsimp only [LF_IDATA] at hlt ⊢
      omega
    rw [if_pos hgt]
    -- The next index block is there, is made, or cannot be made.
    rcases h.setupNext hat hlt with ⟨hnone, hfree, hend⟩ | ⟨d₁, c₁, x₁, hsome, hstep, hwritten, hsame⟩
    · exact .inl ⟨by rw [hnone]; rfl, hfree, hend⟩
    · rw [hsome, Option.bind_some]
      have hpos : c₁.lfpos = c.lfpos := hstep.kept.pos
      rcases ih hstep.alone hstep.here (by rw [hpos]; omega) with
        -- What the rest of the loop does follows this step.
        ⟨hnone, hfree, hend⟩ | ⟨d', c', x', hsome', hstep', hwritten', hinside⟩
      · rcases hsame with rfl | ⟨hlast, -⟩
        · exact .inl ⟨hnone, hfree, hpos ▸ hend⟩
        · -- the new index block is the one of the position, so that the loop ends
          have hdone : Lfdata.setupLoop n d₁ c₁ = some (d₁, c₁) :=
            setupLoop_done hstep.here (by rw [hpos, hlast]) (by omega)
          rw [hdone] at hnone
          cases hnone
      · rw [hpos] at hstep' hinside
        refine .inr ⟨d', c', x', hsome', ⟨hstep.toSetupStep.trans hstep'.toSetupStep,
          hstep'.here, hstep'.dfree.trans hstep.dfree,
          hstep'.blocks.trans hstep.blocks⟩, hwritten.trans hwritten', fun hlt => ?_⟩
        rcases hsame with rfl | ⟨-, hend⟩
        · exact hinside hlt
        · exact absurd hend hlt.ne

/-- The data block of the position is read, or is in memory. -/
theorem loadData (h : Alone d c x) (hat : AtIndex c x (c.lfpos / LF_IDATA))
    (hm : x.blocks[c.lfpos / LF_BLKSIZ]? = some b) {buff : Dblock}
    (hbuff : x.IsData (c.lfpos / LF_BLKSIZ) buff) :
    Alone d { c with lfdblock := buff, lfdbdirty := false, lfdnum := b, lfbyte := c.lfpos % LF_BLKSIZ }
      x := by
  refine { h with cached := { h.cached with
    data := fun m a ha => .inl ?_
    dnum := .inr ⟨_, hm, hbuff⟩
    dbdirty := nofun
    byte := fun _ => ⟨rfl, hm⟩ } }
  exact (h.cached.data m a ha).resolve_right fun hd => by simp [hat.clean] at hd

/-- The file gets another data block. -/
theorem newData (h : Alone d c x) (hat : AtIndex c x (c.lfpos / LF_IDATA))
    (hend : x.blocks.length = c.lfpos / LF_BLKSIZ)
    (hbytes : x.bytes.length = LF_BLKSIZ * x.blocks.length)
    {rest : List ℤ} {next : ℤ} {buff : Dblock} (hx : x.dfree = b :: rest)
    (hrest : LinkPath d.disk.nextDb (blockPtr next) rest none) :
    SetupStep d c x (d.updateDir { d.lf_dir with lfd_dfree := next })
      { c with
        lfiblock := { c.lfiblock with
          ib_dba := Function.update c.lfiblock.ib_dba (c.lfpos % LF_IDATA / LF_BLKSIZ) b }
        lfibdirty := true, lfdblock := buff, lfdnum := b, lfbyte := c.lfpos % LF_BLKSIZ }
      { x with blocks := x.blocks ++ [b], dfree := rest } := by
  have hnum : b ≠ LF_DNULL := by
    have hnull : LF_DNULL = -1 := rfl
    have := (h.blocks_num b (by simp [hx])).1
    omega
  have hinum : c.lfinum ≠ LF_INULL := h.id_ne hat.num
  have hk : c.lfpos / LF_IDATA = x.blocks.length / LF_IBLEN := by
    rw [hend]
    dsimp only [LF_IDATA, LF_BLKSIZ, LF_IBLEN]
    omega
  have hdindex : c.lfpos % LF_IDATA / LF_BLKSIZ = x.blocks.length % LF_IBLEN := by
    rw [hend]
    dsimp only [LF_IDATA, LF_BLKSIZ, LF_IBLEN]
    omega
  have hlt : c.lfpos / LF_IDATA < x.ids.length := (List.getElem?_eq_some_iff.mp hat.num).1
  have hperm : (rest ++ (x.blocks ++ [b])).Perm (x.dfree ++ x.blocks) := by
    rw [hx, ← List.append_assoc]
    exact List.perm_append_singleton b _
  have hmoved : LfMoved d (d.updateDir { d.lf_dir with lfd_dfree := next }) c.lfdirptr x
      { x with blocks := x.blocks ++ [b], dfree := rest } :=
    .updateDir rfl rfl (.refl _) hperm
  have hget : (x.blocks ++ [b])[c.lfpos / LF_BLKSIZ]? = some b := by rw [← hend, List.getElem?_concat_length]
  -- there are no bytes in the new block yet
  have hempty : ∀ a : Dblock, LfLayout.IsData { x.toLfLayout with blocks := x.blocks ++ [b] }
      (c.lfpos / LF_BLKSIZ) a := fun a o _ ch hch => by
    rw [← hend, List.getElem?_eq_none (by rw [hbytes]; exact Nat.le_add_right ..)] at hch
    cases hch
  refine ⟨h.of_moved hmoved h.entry ?_ h.ifree hrest, hmoved, rfl, ⟨rfl, rfl, rfl, rfl, rfl⟩⟩
  refine { h.cached with
    bytes_le := ?_
    blocks_le := ?_
    index := fun j a ha => ?_
    data := fun m a ha => .inl ?_
    inum := .inr ⟨_, hat.num, ?_⟩
    dnum := .inr ⟨_, hget, hempty _⟩
    ibdirty := fun _ => hinum
    dbdirty := fun _ => hnum
    byte := fun _ => ⟨rfl, hget⟩ }
  · rw [List.length_append, List.length_singleton]
    exact h.cached.bytes_le.trans (Nat.mul_le_mul_left _ (Nat.le_succ _))
  · rw [List.length_append, List.length_singleton]
    dsimp only [LF_IBLEN] at hk ⊢
    omega
  · by_cases hj : j = c.lfpos / LF_IDATA
    · subst hj
      exact .inr ⟨Option.some.inj (hat.num.symm.trans ha), rfl⟩
    · have hold := (h.cached.index j a ha).resolve_right fun hd => hj (h.id_index ha (hd.1 ▸ hat.num))
      exact .inl (hold.push_other (hk ▸ hj) b)
  · rcases Nat.lt_or_ge m x.blocks.length with hlt | hge
    · rw [List.getElem?_append_left hlt] at ha
      exact (h.cached.data m a ha).resolve_right fun hd => by simp [hat.clean] at hd
    · have hm : m = c.lfpos / LF_BLKSIZ := by
        have := (List.getElem?_eq_some_iff.mp ha).1
        simp only [List.length_append, List.length_singleton] at this
        omega
      exact hm ▸ hempty _
  · rw [hdindex]
    exact hat.index.push_block hk b

/-- The rest of `lfsetup`: the data block of the position. It fails if the file has to grow and
there is no data block. A position in the file needs no new block. -/
theorem setupData (h : Alone d c x) (hat : AtIndex c x (c.lfpos / LF_IDATA)) :
    (d.setupData c = none ∧ x.dfree = [] ∧ c.lfpos = x.bytes.length) ∨
    ∃ d' c' x', d.setupData c = some (d', c') ∧ SetupStep d c x d' c' x' ∧
    c'.lfbyte < LF_BLKSIZ ∧ Written d d' ∧
      (x.blocks = [] → d'.disk.dir = d'.lf_dir) ∧ (c.lfpos < x.bytes.length → x' = x) := by
  have hbyte : c.lfpos % LF_BLKSIZ < LF_BLKSIZ := Nat.mod_lt _ (by decide)
  have hdba := hat.index.dba (c.lfpos % LF_IDATA / LF_BLKSIZ)
    (by dsimp only [LF_IDATA, LF_BLKSIZ, LF_IBLEN]; omega)
  rw [show LF_IBLEN * (c.lfpos / LF_IDATA) + c.lfpos % LF_IDATA / LF_BLKSIZ = c.lfpos / LF_BLKSIZ by
    dsimp only [LF_IDATA, LF_BLKSIZ, LF_IBLEN]; omega] at hdba
  unfold Lfdata.setupData
  dsimp only
  cases hm : x.blocks[c.lfpos / LF_BLKSIZ]? with
  -- The block is there: it is in memory, or is read from the disk.
  | some b =>
    rw [hm, Option.getD_some] at hdba
    have hne : x.blocks ≠ [] := List.ne_nil_of_mem (List.mem_of_getElem? hm)
    rw [hdba, if_neg (h.block_ne hm)]
    by_cases hb : b = c.lfdnum
    · -- the data block is in memory
      rw [if_neg (not_not.mpr hb)]
      have hdata : x.IsData (c.lfpos / LF_BLKSIZ) c.lfdblock := by
        obtain ⟨j, hj, hdata⟩ := h.cached.dnum.resolve_left (hb ▸ h.block_ne hm)
        rwa [h.block_index hm (hb ▸ hj)]
      have hload := h.loadData hat hm hdata
      rw [← hat.clean] at hload
      exact .inr ⟨_, _, x, rfl, ⟨hload, .refl .., rfl, ⟨rfl, rfl, rfl, rfl, rfl⟩⟩,
        hbyte, .refl d, fun he => absurd he hne, fun _ => rfl⟩
    · rw [if_pos hb]
      have hdata := (h.cached.data _ b hm).resolve_right fun hd => by simp [hat.clean] at hd
      exact .inr ⟨_, _, x, rfl, ⟨h.loadData hat hm hdata, .refl .., rfl, ⟨rfl, rfl, rfl, rfl, rfl⟩⟩,
        hbyte, .refl d,
        fun he => absurd he hne, fun _ => rfl⟩
  -- The position is behind the last block, so a new one is taken.
  | none =>
    rw [hm, Option.getD_none] at hdba
    have hle := List.getElem?_eq_none_iff.mp hm
    have hpos := h.cached.pos
    have hbytes := h.cached.bytes_le
    have hend : x.blocks.length = c.lfpos / LF_BLKSIZ ∧ c.lfpos = x.bytes.length ∧
        x.bytes.length = LF_BLKSIZ * x.blocks.length := by
      dsimp only [LF_BLKSIZ] at hle hbytes ⊢
      omega
    rw [if_pos hdba]
    rcases h.lfdballoc with ⟨hnone, hfree⟩ | ⟨b, rest, buff, next, hfree, hsome, hrest⟩
    · exact .inl ⟨by rw [hnone]; rfl, hfree, hend.2.1⟩
    · rw [hsome]
      exact .inr ⟨_, _, _, rfl, h.newData hat hend.1 hend.2.2 hfree hrest,
        hbyte, .inr rfl, fun _ => rfl, fun hlt => absurd hend.2.1 hlt.ne⟩

/-- `lfsetup` finds or makes the blocks of the position. It fails if the file has to grow and there
is no free block. A position in the file needs no new block. -/
theorem lfsetup (h : Alone d c x) (hu : c.lfused = true) (hbyte : LF_BLKSIZ ≤ c.lfbyte) :
    (d.lfsetup c = none ∧ (x.ifree = [] ∨ x.dfree = []) ∧ c.lfpos = x.bytes.length) ∨
    ∃ d' c' x', d.lfsetup c = some (d', c') ∧ SetupStep d c x d' c' x' ∧
    c'.lfbyte < LF_BLKSIZ ∧ Written d d' ∧
      (c.lfpos < x.bytes.length → x' = x) := by
  unfold Lfdata.lfsetup
  dsimp only
  -- nothing is dirty after the flush
  obtain ⟨d₀, c₀, hflush, hstep₀, hib, hdb, hbyte₀, hwritten₀⟩ : ∃ d₀ c₀,
      (if c.lfibdirty = true ∨ c.lfdbdirty = true then d.lfflush c else (d, c)) = (d₀, c₀) ∧
        SetupStep d c x d₀ c₀ x ∧
      c₀.lfibdirty = false ∧ c₀.lfdbdirty = false ∧ c₀.lfbyte = c.lfbyte ∧ Written d d₀ := by
    split_ifs with hdirty
    · obtain ⟨hsnd, halone, hmoved, -, hwritten⟩ := h.lfflush hu (k := c.lfdirptr)
      exact ⟨(d.lfflush c).1, { c with lfdbdirty := false, lfibdirty := false },
        Prod.ext rfl hsnd, ⟨halone, hmoved, rfl, ⟨rfl, rfl, rfl, rfl, rfl⟩⟩, rfl, rfl, rfl, hwritten⟩
    · simp only [not_or, Bool.not_eq_true] at hdirty
      exact ⟨d, c, rfl, ⟨h, .refl .., rfl, .refl c⟩, hdirty.1, hdirty.2, rfl, .refl d⟩
  rw [hflush]
  have hpos₀ : c₀.lfpos = c.lfpos := hstep₀.kept.pos
  rcases hstep₀.alone.setupIndex hib hdb (hbyte₀ ▸ hbyte) with
    ⟨hnone, hfree, hend⟩ | ⟨d₁, c₁, x₁, k, hsome₁, hstep₁, hwritten₁⟩
  · exact .inl ⟨by rw [hnone]; rfl, .inl hfree, hpos₀ ▸ hend⟩
  rw [hsome₁, Option.bind_some]
  have hpos₁ : c₁.lfpos = c.lfpos := hstep₁.kept.pos.trans hpos₀
  have hstep₁' := hstep₀.trans hstep₁.toSetupStep
  have hsteps : c₁.lfpos / LF_IDATA < k + LF_STEPS := by
    have hle := hstep₁.alone.cached.pos
    have hbytes := hstep₁.alone.cached.bytes_le
    have hroom := hstep₁.alone.blocks_room
    rw [List.length_append] at hroom
    dsimp only [LF_IDATA, LF_BLKSIZ, LF_STEPS] at hbytes hroom ⊢
    omega
  rcases hstep₁.alone.setupLoop hstep₁.here hsteps with
    ⟨hnone, hfree, hend⟩ | ⟨d₂, c₂, x₂, hsome₂, hstep₂, hwritten₂, hsame₂⟩
  · rcases hwritten₁ with ⟨rfl, -⟩ | ⟨hk, -⟩
    · exact .inl ⟨by rw [hnone]; rfl, .inl hfree, hpos₁ ▸ hend⟩
    · -- an empty file has its first index block, so that the loop ends at once
      have hdone : Lfdata.setupLoop LF_STEPS d₁ c₁ = some (d₁, c₁) :=
        setupLoop_done hstep₁.here (by rw [hstep₁.kept.pos, hk]) (by decide)
      rw [hdone] at hnone
      cases hnone
  rw [hsome₂, Option.bind_some]
  have hpos₂ : c₂.lfpos = c₁.lfpos := hstep₂.kept.pos
  have hstep₂' := hstep₁'.trans hstep₂.toSetupStep
  rcases hstep₂.alone.setupData (hpos₂ ▸ hstep₂.here) with
    ⟨hnone, hfree, hend⟩ | ⟨d', c', x', hsome, hstep, hlt, hwritten, hempty, hsame⟩
  · have hdfree : x.dfree = [] := by rw [← hstep₁.dfree, ← hstep₂.dfree, hfree]
    exact .inl ⟨hnone, .inr hdfree, by rw [← hstep₂'.bytes, ← hend, hpos₂, hpos₁]⟩
  · rw [hpos₁] at hsame₂
    rw [hpos₂, hpos₁] at hsame
    refine .inr ⟨d', c', x', hsome, hstep₂'.trans hstep, hlt, ?_, fun hin => ?_⟩
    · rcases hwritten₁ with ⟨-, hwritten₁⟩ | ⟨-, hblocks⟩
      · exact ((hwritten₀.trans hwritten₁).trans hwritten₂).trans hwritten
      · exact .inr (hempty (hstep₂.blocks.trans hblocks))
    · rcases hwritten₁ with ⟨rfl, -⟩ | ⟨-, hblocks⟩
      · obtain rfl := hsame₂ hin
        exact hsame hin
      · -- a file without blocks has no bytes
        have hbytes := hstep₁.alone.cached.bytes_le
        rw [hblocks, hstep₁'.bytes, List.length_nil] at hbytes
        omega

end Alone

end Xinu
