import Xinu.Lfs.FileSpec

/-!
# What `lftruncate` does

It puts the data blocks of the file on the free list one by one, and its index blocks as a whole:
the loop goes along them until it meets the head of the free list, to which it makes the last one
point.
-/

namespace Xinu

/-- The data blocks that some entries of an index block name. -/
def dbaBlocks (ib_dba : ℕ → ℤ) (is : List ℕ) : List ℤ := (is.map ib_dba).filter (· ≠ LF_DNULL)

/-- The data blocks that an index block names. -/
def Lfiblk.blocks (ib : Lfiblk) : List ℤ := dbaBlocks ib.ib_dba (List.range LF_IBLEN)

/-- The entries of a list, with null behind its end, are the members of the list. -/
theorem filter_getD {l : List ℤ} (hl : LF_DNULL ∉ l) (n : ℕ) :
    ((List.range n).map fun j => (l[j]?).getD LF_DNULL).filter (· ≠ LF_DNULL) = l.take n := by
  induction n with
  | zero => rfl
  | succ n ih =>
    rw [List.range_succ, List.map_append, List.filter_append, ih, List.take_add_one]
    congr 1
    cases hn : l[n]? with
    | none => simp [hn]
    | some b =>
      have hb : b ≠ LF_DNULL := ne_of_mem_of_not_mem (List.mem_of_getElem? hn) hl
      simp [hn, hb]

/-- The data blocks of the `k`-th index block of a file. -/
theorem LfLayout.IsIndex.blocks_eq {f : LfLayout} {k : ℕ}
    {ib : Lfiblk} (h : f.IsIndex k ib) (hnull : LF_DNULL ∉ f.blocks) :
    ib.blocks = (f.blocks.drop (LF_IBLEN * k)).take LF_IBLEN := by
  rw [← filter_getD fun hm => hnull (List.mem_of_mem_drop hm)]
  unfold Lfiblk.blocks dbaBlocks
  congr 1
  refine List.map_congr_left fun j hj => ?_
  rw [h.dba j (List.mem_range.mp hj), List.getElem?_drop]

/-- The data blocks of all index blocks are those of the file. -/
theorem flatMap_blocks {g : ℤ → List ℤ} {l B : List ℤ}
    (hg : ∀ i b, l[i]? = some b → g b = (B.drop (LF_IBLEN * i)).take LF_IBLEN)
    (hlen : B.length ≤ LF_IBLEN * l.length) : l.flatMap g = B := by
  induction l generalizing B with
  | nil =>
    rw [List.length_nil, Nat.mul_zero] at hlen
    rw [List.length_eq_zero_iff.mp (by omega : B.length = 0)]
    rfl
  | cons b l ih =>
    have hfirst : g b = B.take LF_IBLEN := hg 0 b rfl
    rw [List.flatMap_cons, hfirst, ih (B := B.drop LF_IBLEN)]
    · exact List.take_append_drop ..
    · intro i a ha
      rw [hg (i + 1) a ha, List.drop_drop]
      congr 2
      dsimp only [LF_IBLEN]
      omega
    · rw [List.length_drop]
      rw [List.length_cons] at hlen
      dsimp only [LF_IBLEN] at hlen ⊢
      omega

variable {d d' : Lfdata} {c : LfFile} {x : LfAlloc} {b : ℤ} {D : List ℤ} {unused : ℤ → Dblock}

/-- What a truncation changes while it goes on: data blocks, index blocks, and the head of the list
of free data blocks. -/
structure Freed (d d' : Lfdata) (I B : List ℤ) : Prop where
  /-- Of the directory, only the head of the list of free data blocks changes. -/
  dir : ∃ n, d'.lf_dir = { d.lf_dir with lfd_dfree := n }
  /-- Other index blocks on disk stay. -/
  iblks : ∀ b ∉ I, d'.disk.iblks b = d.disk.iblks b
  /-- Other data blocks on disk stay. -/
  dblks : ∀ b ∉ B, d'.disk.dblks b = d.disk.dblks b
  /-- The directory is marked as before. -/
  dirty : d'.lf_dirdirty = d.lf_dirdirty
  /-- It is present as before. -/
  present : d'.lf_dirpresent = d.lf_dirpresent
  /-- The disk is the same. -/
  dskdev : d'.lf_dskdev = d.lf_dskdev

/-- One change after another. -/
theorem Freed.trans {d₁ d₂ d₃ : Lfdata} {I I' B B' : List ℤ} (h : Freed d₁ d₂ I B) (h' : Freed d₂ d₃ I' B') :
    Freed d₁ d₃ (I ++ I') (B ++ B') where
  dir := by
    obtain ⟨n, hn⟩ := h.dir
    obtain ⟨m, hm⟩ := h'.dir
    exact ⟨m, by rw [hm, hn]⟩
  iblks b hb := by
    rw [List.mem_append, not_or] at hb
    rw [h'.iblks b hb.2, h.iblks b hb.1]
  dblks b hb := by
    rw [List.mem_append, not_or] at hb
    rw [h'.dblks b hb.2, h.dblks b hb.1]
  dirty := h'.dirty.trans h.dirty
  present := h'.present.trans h.present
  dskdev := h'.dskdev.trans h.dskdev

/-- A list of free data blocks: the blocks are different, and have numbers that fit into four bytes. -/
structure FreeBlocks (d : Lfdata) (D : List ℤ) : Prop where
  /-- The links lead through them, and end. -/
  path : LinkPath d.disk.nextDb (blockPtr d.lf_dir.lfd_dfree) D none
  /-- They are different. -/
  nodup : D.Nodup
  /-- Their numbers are not negative. -/
  num : ∀ b ∈ D, 0 ≤ b ∧ b < 2 ^ 31

/-- A data block becomes the first free one. -/
theorem FreeBlocks.lfdbfree (h : FreeBlocks d D) (hb : 0 ≤ b ∧ b < 2 ^ 31) (hD : b ∉ D) (buff : Dblock) :
    FreeBlocks (d.lfdbfree buff b) (b :: D) ∧ Freed d (d.lfdbfree buff b) [] [b] := by
  -- The head of the free list is a word, as its blocks are.
  have hfirst : -2 ^ 31 ≤ d.lf_dir.lfd_dfree ∧ d.lf_dir.lfd_dfree < 2 ^ 31 := by
    have hpath := h.path
    cases D with
    | nil =>
      rw [LinkPath.nil_iff, blockPtr_eq_none] at hpath
      omega
    | cons a D =>
      rw [LinkPath.cons_iff, blockPtr_eq_some] at hpath
      have := h.num a List.mem_cons_self
      omega
  have hother : ∀ a ≠ b, (d.lfdbfree buff b).disk.dblks a = d.disk.dblks a :=
    fun a ha => Function.update_of_ne ha _ _
  refine ⟨⟨⟨?_, ?_⟩, List.nodup_cons.mpr ⟨hD, h.nodup⟩, ?_⟩,
    ⟨b, rfl⟩, fun _ _ => rfl, fun a ha => hother a (by simpa using ha), rfl, rfl, rfl⟩
  · change blockPtr b = some b
    rw [blockPtr_eq_some]
    omega
  -- The block points to the old head, and the links of the others stay.
  · have hnext : (d.lfdbfree buff b).disk.nextDb b = blockPtr d.lf_dir.lfd_dfree := by
      rw [LfDisk.nextDb, show (d.lfdbfree buff b).disk.dblks b =
        lfdbfreeBlock d.lf_dir.lfd_dfree buff from Function.update_self ..,
        lf_nextdb_free hfirst]
    rw [hnext]
    refine h.path.congr fun a ha => ?_
    unfold LfDisk.nextDb
    rw [hother a (ne_of_mem_of_not_mem ha hD)]
  · intro a ha
    rcases List.mem_cons.mp ha with rfl | ha
    · exact hb
    · exact h.num a ha

/-- The data blocks of an index block become free. -/
theorem FreeBlocks.freeDba (unused : ℤ → Dblock) {ib_dba : ℕ → ℤ}
    {is : List ℕ} (h : FreeBlocks d D) (hnodup : (dbaBlocks ib_dba is ++ D).Nodup)
    (hnum : ∀ b ∈ dbaBlocks ib_dba is, 0 ≤ b ∧ b < 2 ^ 31) :
    FreeBlocks (d.freeDba unused ib_dba is) ((dbaBlocks ib_dba is).reverse ++ D) ∧
    Freed d (d.freeDba unused ib_dba is) [] (dbaBlocks ib_dba is) := by
  induction is generalizing d D with
  | nil => exact ⟨h, ⟨_, rfl⟩, fun _ _ => rfl, fun _ _ => rfl, rfl, rfl, rfl⟩
  | cons i is ih =>
    unfold Lfdata.freeDba
    dsimp only
    by_cases hi : ib_dba i = LF_DNULL
    · have hskip : dbaBlocks ib_dba (i :: is) = dbaBlocks ib_dba is := by simp [dbaBlocks, hi]
      rw [if_neg (not_not.mpr hi), hskip]
      rw [hskip] at hnodup hnum
      exact ih h hnodup hnum
    · have hcons : dbaBlocks ib_dba (i :: is) = ib_dba i :: dbaBlocks ib_dba is := by simp [dbaBlocks, hi]
      rw [if_pos hi, hcons]
      rw [hcons] at hnodup hnum
      rw [List.cons_append, List.nodup_cons, List.mem_append, not_or] at hnodup
      obtain ⟨⟨hni, hnD⟩, hnodup⟩ := hnodup
      obtain ⟨hfree, hfreed⟩ := h.lfdbfree (hnum _ List.mem_cons_self) hnD (unused (ib_dba i))
      have hnodup' : (dbaBlocks ib_dba is ++ ib_dba i :: D).Nodup :=
        (List.perm_middle.nodup_iff).mpr (List.nodup_cons.mpr ⟨by simp [hni, hnD], hnodup⟩)
      obtain ⟨hfree', hfreed'⟩ := ih hfree hnodup' fun b hb => hnum b (List.mem_cons_of_mem _ hb)
      refine ⟨?_, by simpa using hfreed.trans hfreed'⟩
      rwa [List.reverse_cons, List.append_assoc]

/-- The loop of `lftruncate` along the index blocks of a file: their data blocks become free, and
they are linked to the free list. -/
theorem truncateLoop_spec (unused : ℤ → Dblock) (ifree : ℤ) {l : List ℤ} {n : ℕ} (hn : l.length < n)
    (hnext : ∀ i b, l[i]? = some b → (d.disk.iblks b).ib_next = (l[i + 1]?).getD LF_INULL)
    (hl : l.Nodup) (hifree : ifree ∉ l)
    (hnull : LF_INULL ∉ l) (hfree : FreeBlocks d D)
    (hnodup : (l.flatMap (fun b => (d.disk.iblks b).blocks) ++ D).Nodup)
    (hnum : ∀ b ∈ l.flatMap (fun b => (d.disk.iblks b).blocks), 0 ≤ b ∧ b < 2 ^ 31) :
    ∃ d' D', Lfdata.truncateLoop unused ifree n (l.head?.getD ifree) d = some d' ∧ FreeBlocks d' D' ∧
      D'.Perm (l.flatMap (fun b => (d.disk.iblks b).blocks) ++ D) ∧
        Freed d d' l (l.flatMap fun b => (d.disk.iblks b).blocks) ∧
      LinkPath d'.disk.nextIb (blockPtr (l.head?.getD ifree)) l (blockPtr ifree) := by
  induction l generalizing d D n with
  | nil =>
    obtain ⟨n, rfl⟩ : ∃ k, n = k + 1 := ⟨n - 1, by simp only [List.length_nil] at hn; omega⟩
    exact ⟨d, D, if_pos rfl, hfree, .refl _, ⟨⟨_, rfl⟩, fun _ _ => rfl, fun _ _ => rfl, rfl, rfl, rfl⟩, rfl⟩
  | cons b l ih =>
    obtain ⟨n, rfl⟩ : ∃ k, n = k + 1 := ⟨n - 1, by omega⟩
    obtain ⟨hbl, hl⟩ := List.nodup_cons.mp hl
    rw [List.mem_cons, not_or] at hifree hnull
    rw [List.flatMap_cons] at hnodup hnum ⊢
    -- the data blocks of the first index block
    obtain ⟨hfree₁, hfreed₁⟩ := hfree.freeDba unused
      (hnodup.sublist ((List.sublist_append_left _ _).append_right D)) fun a ha =>
        hnum a (List.mem_append_left _ ha)
    generalize hd₁ : d.freeDba unused (d.disk.iblks b).ib_dba (List.range LF_IBLEN) = d₁ at hfree₁ hfreed₁
    generalize hib : { (d.disk.iblks b).lfibclear 0 with ib_next := l.head?.getD ifree } = ib
    have hput : Freed d₁ (d₁.lfibput b ib) [b] [] :=
      ⟨⟨_, rfl⟩, fun a ha => Function.update_of_ne (by simpa using ha) _ _, fun _ _ => rfl, rfl, rfl, rfl⟩
    have hfreed₂ := hfreed₁.trans hput
    rw [List.nil_append, List.append_nil] at hfreed₂
    have hsame : ∀ a ∈ l, (d₁.lfibput b ib).disk.iblks a = d.disk.iblks a := fun a ha =>
      hfreed₂.iblks a (by simpa using ne_of_mem_of_not_mem ha hbl)
    have hblocks : (l.flatMap fun a => ((d₁.lfibput b ib).disk.iblks a).blocks) = l.flatMap fun a =>
        (d.disk.iblks a).blocks :=
      List.flatMap_congr fun a ha => by rw [hsame a ha]
    have hperm : (l.flatMap (fun a => (d.disk.iblks a).blocks) ++ ((d.disk.iblks b).blocks.reverse ++ D)).Perm
        ((d.disk.iblks b).blocks ++ l.flatMap (fun a => (d.disk.iblks a).blocks) ++ D) := by
      rw [← List.append_assoc]
      exact (List.perm_append_comm.trans ((List.reverse_perm _).append_right _)).append_right D
    -- the other index blocks
    obtain ⟨d', D', hrun, hfree', hD', hfreed', hpath⟩ :=
      ih (d := d₁.lfibput b ib) (D := (d.disk.iblks b).blocks.reverse ++ D)
      (n := n) (by simp only [List.length_cons] at hn; omega)
      (fun i a ha => by rw [hsame a (List.mem_of_getElem? ha)]; exact hnext (i + 1) a ha) hl hifree.2 hnull.2
      ⟨hfree₁.path, hfree₁.nodup, hfree₁.num⟩ (by rw [hblocks]; exact hperm.nodup_iff.mpr hnodup)
      (by rw [hblocks]; exact fun a ha => hnum a (List.mem_append_right _ ha))
    rw [hblocks] at hD' hfreed'
    have hfreed := hfreed₂.trans hfreed'
    refine ⟨d', D', ?_, hfree', hD'.trans hperm, hfreed, ?_⟩
    · have hlink : (if (d.disk.iblks b).ib_next = LF_INULL then ifree else (d.disk.iblks b).ib_next) =
          l.head?.getD ifree := by
        have hb := hnext 0 b rfl
        cases l with
        | nil => exact if_pos hb
        | cons a l =>
          have hb : (d.disk.iblks b).ib_next = a := hb
          rw [hb, if_neg fun ha => hnull.2 (by rw [← ha]; exact List.mem_cons_self)]
          rfl
      change Lfdata.truncateLoop unused ifree (n + 1) b d = some d'
      unfold Lfdata.truncateLoop
      rw [if_neg (Ne.symm hifree.1)]
      dsimp only [LfDisk.lfibget]
      rw [hlink, hd₁, hib]
      exact hrun
    · have hb : d'.disk.nextIb b = blockPtr (l.head?.getD ifree) := by
        unfold LfDisk.nextIb
        rw [hfreed'.iblks b hbl, show (d₁.lfibput b ib).disk.iblks b = ib from Function.update_self .., ← hib]
      refine ⟨blockPtr_eq_some.mpr ⟨rfl, fun he => hnull.1 he.symm⟩, ?_⟩
      rw [hb]
      exact hpath

namespace Alone

/-- The head of the list of free index blocks is no index block of the file. -/
theorem ifree_not_id (h : Alone d c x) : d.lf_dir.lfd_ifree ∉ x.ids := by
  intro hm
  have hpath := h.ifree
  cases hx : x.ifree with
  | nil =>
    rw [hx, LinkPath.nil_iff, blockPtr_eq_none] at hpath
    have := (h.ids_num _ (List.mem_append_right _ hm)).1
    omega
  | cons b rest =>
    rw [hx, LinkPath.cons_iff, blockPtr_eq_some] at hpath
    exact h.id_not_free hm (by rw [hx, hpath.1.1]; exact List.mem_cons_self)

/-- No data block of the file is null. -/
theorem null_not_block (h : Alone d c x) : LF_DNULL ∉ x.blocks := fun hm => by
  obtain ⟨k, hk⟩ := List.mem_iff_getElem?.mp hm
  exact h.block_ne hk rfl

/-- No index block of the file is null. -/
theorem null_not_id (h : Alone d c x) : LF_INULL ∉ x.ids := fun hm => by
  obtain ⟨k, hk⟩ := List.mem_iff_getElem?.mp hm
  exact h.id_ne hk rfl

/-- When no index block is dirty, the data blocks that the index blocks on disk name are those of the file. -/
theorem blocks_on_disk (h : Alone d c x) (hib : c.lfibdirty = false) :
    x.ids.flatMap (fun b => (d.disk.iblks b).blocks) = x.blocks := by
  refine flatMap_blocks (fun k b hk => ?_) h.cached.blocks_le
  have hindex := (h.cached.index k b hk).resolve_right fun hd => by simp [hib] at hd
  exact hindex.blocks_eq h.null_not_block

/-- What is dirty is written, and then nothing is dirty: the first part of `lftruncate`. -/
theorem flush_dirty (h : Alone d c x) (hu : c.lfused = true) : ∃ d₀ c₀,
    (if c.lfibdirty = true ∨ c.lfdbdirty = true then d.lfflush c else (d, c)) = (d₀, c₀) ∧ Alone d₀ c₀ x ∧
    LfMoved d d₀ c.lfdirptr x x ∧ c₀.lfibdirty = false ∧ c₀.lfdbdirty = false ∧ Kept c c₀ := by
  split_ifs with hdirty
  · obtain ⟨hsnd, halone, hmoved, -, -⟩ := h.lfflush hu (k := c.lfdirptr)
    exact ⟨(d.lfflush c).1, { c with lfdbdirty := false, lfibdirty := false },
      Prod.ext rfl hsnd, halone, hmoved, rfl, rfl,
      ⟨rfl, rfl, rfl, rfl, rfl⟩⟩
  · simp only [not_or, Bool.not_eq_true] at hdirty
    exact ⟨d, c, rfl, h, .refl .., hdirty.1, hdirty.2, .refl c⟩

/-- The loop of `lftruncate` for the file, whose data blocks are those that its index blocks on disk
name. -/
theorem truncateLoop (h : Alone d c x) (hib : c.lfibdirty = false) {d₁ : Lfdata}
    (hdisk : d₁.disk = d.disk) (hdfree : d₁.lf_dir.lfd_dfree = d.lf_dir.lfd_dfree)
    (unused : ℤ → Dblock) : ∃ d₂ D',
    Lfdata.truncateLoop unused d.lf_dir.lfd_ifree LF_STEPS
      (x.ids.head?.getD d.lf_dir.lfd_ifree) d₁ = some d₂ ∧
    FreeBlocks d₂ D' ∧ D'.Perm (x.blocks ++ x.dfree) ∧ Freed d₁ d₂ x.ids x.blocks ∧
    LinkPath d₂.disk.nextIb (blockPtr (x.ids.head?.getD d.lf_dir.lfd_ifree)) x.ids
      (blockPtr d.lf_dir.lfd_ifree) := by
  have hblocks : x.ids.flatMap (fun a => (d₁.disk.iblks a).blocks) = x.blocks := by
    rw [hdisk]
    exact h.blocks_on_disk hib
  have hroom := h.ids_room
  rw [List.length_append] at hroom
  have hspec := truncateLoop_spec unused d.lf_dir.lfd_ifree
    (d := d₁) (D := x.dfree) (l := x.ids) (n := LF_STEPS) (by dsimp only [LF_STEPS]; omega)
    (fun k a ha => by
      rw [hdisk]
      exact ((h.cached.index k a ha).resolve_right fun hd => by simp [hib] at hd).next)
    (List.nodup_append'.mp h.ids_nodup).2.1 h.ifree_not_id h.null_not_id
    ⟨by rw [hdisk, hdfree]; exact h.dfree, (List.nodup_append'.mp h.blocks_nodup).1,
      fun a ha => h.blocks_num a (List.mem_append_left _ ha)⟩
    (by rw [hblocks]; exact List.perm_append_comm.nodup_iff.mp h.blocks_nodup)
    (by rw [hblocks]; exact fun a ha => h.blocks_num a (List.mem_append_right _ ha))
  rwa [hblocks] at hspec

/-- Once all blocks of the file are free, and the index blocks in front of the free ones, the file has
moved to an empty one. -/
theorem truncated {d₁ d₂ : Lfdata} {D' : List ℤ} (hfreed : Freed d₁ d₂ x.ids x.blocks)
    (hD' : D'.Perm (x.blocks ++ x.dfree)) (k : ℕ) (b : ℤ) :
    LfMoved d₁ { d₂ with lf_dir := { d₂.lf_dir with lfd_ifree := b }, lf_dirdirty := true } k x
      { ids := [], blocks := [], bytes := [], ifree := x.ids ++ x.ifree, dfree := D' } := by
  obtain ⟨m, hdir⟩ := hfreed.dir
  have hfiles : d₂.lf_dir.lfd_files = d₁.lf_dir.lfd_files := by rw [hdir]
  exact {
    ids := by
      rw [List.append_nil]
      exact List.perm_append_comm
    blocks := by
      rw [List.append_nil]
      exact hD'.trans List.perm_append_comm
    iblks := fun a ha => hfreed.iblks a fun hm => ha (List.mem_append_right _ hm)
    dblks := fun a ha => hfreed.dblks a fun hm => ha (List.mem_append_right _ hm)
    files := fun j _ => by rw [← hfiles]
    names := by rw [← hfiles]
    valid := by
      rw [hdir]
      rfl
    present := hfreed.present
    dskdev := hfreed.dskdev }

/-- Of an empty file that is not dirty nothing is in memory, whatever the disk has. -/
theorem cached_empty (hib : c.lfibdirty = false) (hdb : c.lfdbdirty = false) (disk : LfDisk) :
    Cached disk { c with lfpos := 0, lfinum := LF_INULL, lfdnum := LF_DNULL, lfbyte := LF_BLKSIZ }
      ⟨[], [], []⟩ where
  bytes_le := Nat.zero_le _
  blocks_le := Nat.zero_le _
  index := fun k a ha => by cases ha
  data := fun k a ha => by cases ha
  inum := .inl rfl
  dnum := .inl rfl
  ibdirty := fun hd => by simp [hib] at hd
  dbdirty := fun hd => by simp [hdb] at hd
  pos := Nat.zero_le _
  byte := fun hlt => absurd hlt (lt_irrefl _)

/-- `lftruncate` makes all blocks of the file free. -/
theorem lftruncate (h : Alone d c x) (hu : c.lfused = true) (unused : ℤ → Dblock) : ∃ d' c' x',
    d.lftruncate c unused = some ((d', c'), OK) ∧ CallOk d c x d' c' x' ⟨[], 0⟩ ∧
    (x.bytes ≠ [] → x'.ids = [] ∧ x'.blocks = [] ∧ x'.ifree = x.ids ++ x.ifree) := by
  obtain ⟨hsize, hilist, -⟩ := h.entry_eq
  unfold Lfdata.lftruncate
  by_cases hnil : x.bytes = []
  · rw [if_pos (by rw [hsize, hnil]; rfl)]
    have hpos : c.lfpos = 0 := by
      have := h.cached.pos
      rw [hnil] at this
      exact Nat.le_zero.mp this
    exact ⟨d, c, x, rfl, ⟨h, .refl .., by rw [hnil, hpos], rfl, rfl, rfl, rfl, .inl (.refl d), id⟩,
      fun hne => absurd hnil hne⟩
  rw [if_neg (by rw [hsize]; exact fun h0 => hnil (List.length_eq_zero_iff.mp h0))]
  dsimp only
  obtain ⟨d₀, c₀, hflush, halone, hmoved₀, hib, hdb, hsame⟩ := h.flush_dirty hu
  rw [hflush]
  dsimp only
  obtain ⟨hsize₀, hilist₀, hentry₀⟩ := halone.entry_eq
  have hids : x.ids ≠ [] := fun he => hnil (h.empty he).2.1
  obtain ⟨b, l, hbl⟩ := List.exists_cons_of_ne_nil hids
  have hfirst : (d₀.entry c₀.lfdirptr).ld_ilist = b := by rw [hilist₀, hbl]; rfl
  rw [hfirst]
  -- the entry is that of an empty file
  generalize hd₁ : { d₀.setEntry c₀.lfdirptr
    { d₀.entry c₀.lfdirptr with ld_ilist := LF_INULL, ld_size := 0 } with lf_dirdirty := true } = d₁
  have hdisk₁ : d₁.disk = d₀.disk := by rw [← hd₁]; rfl
  have hset : LfMoved d₀ (d₀.setEntry c₀.lfdirptr
      { d₀.entry c₀.lfdirptr with ld_ilist := LF_INULL, ld_size := 0 }) c₀.lfdirptr x x :=
    .setEntry _ hentry₀ rfl
  have hmoved₁ : LfMoved d₀ d₁ c.lfdirptr x x := by
    rw [← hd₁, ← hsame.dirptr]
    exact { hset with }
  have hentry₁ : d₁.lf_dir.lfd_files[c₀.lfdirptr]? = some
      { d₀.entry c₀.lfdirptr with ld_ilist := LF_INULL, ld_size := 0 } := by
    rw [← hd₁]
    exact List.getElem?_set_self (List.getElem?_eq_some_iff.mp hentry₀).1
  -- the blocks become free
  obtain ⟨d₂, D', hrun, hfree₂, hD', hfreed, hpath⟩ := halone.truncateLoop hib hdisk₁
    (by rw [← hd₁]; rfl) unused
  rw [hbl] at hrun hpath
  have hrun : Lfdata.truncateLoop unused d₀.lf_dir.lfd_ifree LF_STEPS b d₁ = some d₂ := hrun
  change ∃ d' c' x', Option.map _ (Lfdata.truncateLoop unused d₀.lf_dir.lfd_ifree LF_STEPS b d₁) = _ ∧ _
  rw [hrun]
  have hmoved := hmoved₀.trans (hmoved₁.trans (truncated hfreed hD' c.lfdirptr b))
  refine ⟨_, { c₀ with lfpos := 0, lfinum := LF_INULL, lfdnum := LF_DNULL, lfbyte := LF_BLKSIZ },
    _, rfl, ⟨h.of_moved hmoved ?_ (cached_empty hib hdb _) ?_ hfree₂.path, hmoved, rfl, hsame.used,
      hsame.dirptr, hsame.name, hsame.dev, .inr rfl, fun _ _ => rfl⟩,
    fun _ => ⟨rfl, rfl, rfl⟩⟩
  · obtain ⟨m, hdir₂⟩ := hfreed.dir
    refine ⟨{ d₀.entry c₀.lfdirptr with ld_ilist := LF_INULL, ld_size := 0 }, ?_, rfl, rfl⟩
    dsimp only
    rw [hdir₂]
    exact hentry₁
  · -- the links lead through the blocks of the file to those that were free
    rw [hbl]
    refine LinkPath.append_iff.mpr ⟨_, hpath, halone.ifree.congr fun a ha => ?_⟩
    unfold LfDisk.nextIb
    rw [hfreed.iblks a fun hm => h.id_not_free hm ha, hdisk₁]

end Alone

end Xinu
