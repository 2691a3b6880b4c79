import Xinu.Lfs.FilesRuns

/-!
# Who owns a block

After `lfscreate` and any calls, an index block is on the list of free index blocks or on the chain
of one file, and a data block is on the list of free data blocks or in one entry of one index block
of a chain (`LfOwned`). The index block of an open file is the one in its control block if that one
is newer than the disk. Truncation makes all blocks of its file free (`LfTruncates`).
-/

namespace Xinu

/-! ## The property -/

/-- An index block as it is now: in memory if a control block has a newer one, or on disk. -/
def Lfs.iblk (s : Lfs) (b : ℤ) : Lfiblk :=
  match (List.range Nlfl).find? fun i =>
      (s.lfltab i).lfused && (s.lfltab i).lfibdirty && decide ((s.lfltab i).lfinum = b) with
  | some i => (s.lfltab i).lfiblock
  | none => s.disk.iblks b

/-- The index block behind another one. -/
def Lfs.nextIblk (s : Lfs) (b : ℤ) : Option ℤ := blockPtr (s.iblk b).ib_next

/-- The free blocks, and the index blocks of each file. -/
structure LfLists where
  /-- The free index blocks. -/
  ifree : List ℤ
  /-- The free data blocks. -/
  dfree : List ℤ
  /-- The index blocks of each file. -/
  chains : List (List ℤ)

/-- Each block is in one place: on a list of free blocks that ends, or on the chain of a file that
ends, or in an entry of an index block of a chain. -/
structure LfOwned (A : LfAreas) (s : Lfs) (l : LfLists) : Prop where
  /-- There is a chain for each file. -/
  length : l.chains.length = s.data.lf_dir.lfd_files.length
  /-- The links of the free index blocks end. -/
  ifree : LinkPath s.disk.nextIb (blockPtr s.data.lf_dir.lfd_ifree) l.ifree none
  /-- The links of the free data blocks end. -/
  dfree : LinkPath s.disk.nextDb (blockPtr s.data.lf_dir.lfd_dfree) l.dfree none
  /-- The links of the index blocks of each file end. -/
  chain : ∀ (k : ℕ) (e : Ldentry) (ids : List ℤ), s.data.lf_dir.lfd_files[k]? = some e →
    l.chains[k]? = some ids →
    LinkPath s.nextIblk (blockPtr e.ld_ilist) ids none
  /-- The index blocks of a file have the offsets of their bytes. -/
  offset : ∀ (k i : ℕ) (ids : List ℤ) (b : ℤ), l.chains[k]? = some ids →
    ids[i]? = some b → (s.iblk b).ib_offset = LF_IDATA * i
  /-- Each index block is free or in one chain, once. -/
  indices : (l.ifree ++ l.chains.flatten).Perm A.indices
  /-- Each data block is free or in one index block, once. -/
  sectors : (l.dfree ++ l.chains.flatten.flatMap fun b => (s.iblk b).blocks).Perm A.sectors

/-- To truncate an open file takes all blocks of its chain to the lists of free blocks, and ends. -/
def LfTruncates (A : LfAreas) (s : Lfs) (l : LfLists) : Prop :=
  ∀ i unused, (s.lfltab i).lfused = true → ∃ ids s' l', l.chains[(s.lfltab i).lfdirptr]? = some ids ∧
    s.exec (.lflcontrol i LF_CTL_TRUNC unused) = some (s', OK) ∧
      LfOwned A s' l' ∧ l'.chains = l.chains.set (s.lfltab i).lfdirptr [] ∧
    l'.ifree.Perm (ids ++ l.ifree) ∧ l'.dfree.Perm ((ids.flatMap fun b => (s.iblk b).blocks) ++ l.dfree)

/-- After `lfscreate` and any calls, each block is in one place, and truncation frees the blocks of a file. -/
def KeepsBlocks (disk : LfDisk) (dev lfiblks : ℤ) (dsiz : ℕ) : Prop :=
  ∀ s a, FilesRun (fun _ _ => True) (.created disk dev lfiblks dsiz) .empty s a →
    ∃ l, LfOwned (areas (Sectors.ibsectors lfiblks) (dsiz / LF_BLKSIZ)) s l ∧
      LfTruncates (areas (Sectors.ibsectors lfiblks) (dsiz / LF_BLKSIZ)) s l

/-! ## In every state -/

/-- Each item is linked to the next one of the list. -/
theorem path_of_getElem {f : ℤ → Option ℤ} {l : List ℤ}
    (h : ∀ (i : ℕ) (b : ℤ), l[i]? = some b → f b = l[i + 1]?) : LinkPath f l.head? l none := by
  induction l with
  | nil => rfl
  | cons b l ih =>
    refine ⟨rfl, ?_⟩
    rw [h 0 b rfl]
    have hl := ih fun i c hc => h (i + 1) c hc
    rwa [List.head?_eq_getElem?] at hl

/-- The first block of a path, with -1 for none, is read back as that block or none. -/
theorem blockPtr_getD {o : Option ℤ} (h : ∀ b, o = some b → b ≠ -1) : blockPtr (o.getD (-1)) = o := by
  cases o with
  | none => rfl
  | some b => exact blockPtr_eq_some.mpr ⟨rfl, h b rfl⟩

section

variable {A : LfAreas} {s : Lfs} {a : Files} {g : LfParts} {f : LfLayout} {i k : ℕ} {b : ℤ}

namespace Represents

/-- The index blocks of a file as they are now. -/
theorem isIndex (h : Represents A s a g) (hk : g.fs[k]? = some f) (hb : f.ids[i]? = some b) :
    f.IsIndex i (s.iblk b) := by
  have hmem := List.mem_of_getElem? hb
  have hdisk : s.data.disk = s.disk := (Lfdata.present_spec h.valid).2.2.2.1
  have hone := h.store.alone hk
  unfold Lfs.iblk
  cases hfind : (List.range Nlfl).find? fun i =>
      (s.lfltab i).lfused && (s.lfltab i).lfibdirty && decide ((s.lfltab i).lfinum = b) with
  | some j =>
    -- the block is in the control block of this file
    have hj := List.find?_some hfind
    simp only [Bool.and_eq_true, decide_eq_true_eq] at hj
    obtain ⟨⟨hu, hdirty⟩, hnum⟩ := hj
    obtain ⟨f', hf', halone⟩ := h.file hu
    obtain ⟨m, hm, hindex⟩ := halone.cached.inum.resolve_left (halone.cached.ibdirty hdirty)
    rw [hnum] at hm
    have hkj : (s.lfltab j).lfdirptr = k := by
      by_contra hne
      exact not_mem_other h.store.ids_nodup hk hf' hne (List.mem_of_getElem? hm)
        (List.mem_append_right _ hmem)
    rw [hkj] at hf'
    obtain rfl : f = f' := Option.some.inj (hk.symm.trans hf')
    rw [hone.id_index hb hm]
    exact hindex
  | none =>
    refine ((h.store.cached k f hk).index i b hb).elim (fun hi => hdisk ▸ hi) fun hc => ?_
    -- the file is not open, since no control block in use has the block
    exfalso
    have hlt := (List.getElem?_eq_some_iff.mp hk).1
    have hclosed := h.closed k hlt fun j hu he => by
      have hcache := (h.used j hu).2
      rw [he] at hcache
      rw [hcache] at hc
      have := List.find?_eq_none.mp hfind j (List.mem_range.mpr (h.used j hu).1)
      simp [hu, hc.1, hc.2] at this
    exact absurd (hclosed.1.symm.trans hc.2) nofun

/-- The data blocks that the index blocks of a file name. -/
theorem blocks_eq (h : Represents A s a g) (hk : g.fs[k]? = some f) :
    f.ids.flatMap (fun b => (s.iblk b).blocks) = f.blocks :=
  flatMap_blocks (fun _ _ hb => (h.isIndex hk hb).blocks_eq (h.store.alone hk).null_not_block)
    (h.store.cached k f hk).blocks_le

/-- Each block is in one file or on one free list. -/
theorem owned (h : Represents A s a g) : LfOwned A s ⟨g.ifree, g.dfree, g.fs.map LfLayout.ids⟩ := by
  -- The directory is that on disk, where it is not in memory.
  have hdisk : s.data.disk = s.disk := (Lfdata.present_spec h.valid).2.2.2.1
  have hget : ∀ {k ids}, (g.fs.map LfLayout.ids)[k]? = some ids →
      ∃ f : LfLayout, g.fs[k]? = some f ∧ f.ids = ids := fun {k ids} hk => by
    rw [List.getElem?_map] at hk
    exact Option.map_eq_some_iff.mp hk
  have hflat : (g.fs.map LfLayout.ids).flatten = g.fs.flatMap LfLayout.ids := List.flatMap_def.symm
  constructor
  case length => rw [List.length_map, h.store.length]
  case ifree => exact hdisk ▸ h.store.ifree
  case dfree => exact hdisk ▸ h.store.dfree
  -- The index blocks of each file are linked in its order.
  case chain =>
    intro k e ids he hk
    obtain ⟨f, hf, rfl⟩ := hget hk
    have halone := h.store.alone hf
    obtain ⟨-, e', he', -, hilist⟩ := h.store.entry k f hf
    obtain rfl : e = e' := Option.some.inj (he.symm.trans he')
    rw [hilist, blockPtr_getD fun b hb => halone.id_ne (by rwa [← List.head?_eq_getElem?])]
    refine path_of_getElem fun i b hb => ?_
    unfold Lfs.nextIblk
    rw [(h.isIndex hf hb).next]
    exact blockPtr_getD fun c hc => halone.id_ne hc
  case offset =>
    intro k i ids b hk hb
    obtain ⟨f, hf, rfl⟩ := hget hk
    exact (h.isIndex hf hb).offset
  case indices =>
    rw [hflat]
    exact h.store.indices
  case sectors =>
    rw [hflat, List.flatMap_assoc]
    -- The data blocks of the files are those in their index blocks.
    have hblocks : g.fs.flatMap (fun f : LfLayout => f.ids.flatMap fun b => (s.iblk b).blocks) =
        g.fs.flatMap LfLayout.blocks := by
      rw [List.flatMap_def, List.flatMap_def]
      congr 1
      refine List.map_congr_left fun f hf => ?_
      obtain ⟨k, hk⟩ := List.mem_iff_getElem?.mp hf
      exact h.blocks_eq hk
    rw [hblocks]
    exact h.store.sectors

/-- Truncation frees the blocks of a file. -/
theorem truncates (h : Represents A s a g) : LfTruncates A s ⟨g.ifree, g.dfree, g.fs.map LfLayout.ids⟩ := by
  intro i unused hu
  obtain ⟨f, hf, halone⟩ := h.file hu
  obtain ⟨d', c', x', hres, hok, -⟩ := halone.lftruncate hu unused
  have hbytes : x'.bytes = [] := congrArg ByteStream.bytes hok.stream
  have hids : x'.ids = [] := hok.tight (h.store.tight _ f hf) hbytes
  have hblocks : x'.blocks = [] := (hok.alone.empty hids).1
  have hmovedIds := hok.moved.ids
  have hmovedBlocks := hok.moved.blocks
  rw [hids, List.append_nil] at hmovedIds
  rw [hblocks, List.append_nil] at hmovedBlocks
  have hg' := h.call hu hf ByteStream.truncate hok
  refine ⟨f.ids, _, _, ?_, ?_, hg'.owned, ?_, hmovedIds.trans List.perm_append_comm, ?_⟩
  · rw [List.getElem?_map, hf, Option.map_some]
  · unfold Lfs.exec Lfdata.lflcontrol
    dsimp only
    rw [if_neg (not_not.mpr hu), if_pos rfl, hres]
    rfl
  · change (g.fs.set _ x'.toLfLayout).map LfLayout.ids = _
    rw [List.map_set, hids]
  · rw [h.blocks_eq hf]
    exact hmovedBlocks.trans List.perm_append_comm

end Represents

end

/-! ## On every disk -/

section

variable {disk : LfDisk} {dev lfiblks : ℤ} {dsiz : ℕ}

/-- The directory of a new file system names the first index block and the first sector of the data
area, even if there are none. -/
theorem created_dir (hok : ((Lfs.booted disk).toLfdata.lfscreate dev lfiblks dsiz).2 = OK) :
    (Lfs.created disk dev lfiblks dsiz).data.lf_dir = Lfdata.emptyDir
      ((Sectors.ibsectors lfiblks + 1 : ℕ) : ℤ) := by
  obtain ⟨-, -, hcreated⟩ := lfscreate_eq hok
  unfold Lfs.data Lfdata.present
  rw [hcreated]
  dsimp only
  rw [if_neg (show ¬ (Lfs.booted disk).lf_dirpresent = true from nofun), freeBlocks_dir, freeIndices_dir]
  rfl

/-- **The blocks of the local file system keep their owners** exactly on a disk with index blocks
and data blocks. -/
theorem keeps_blocks (hok : ((Lfs.booted disk).toLfdata.lfscreate dev lfiblks dsiz).2 = OK)
    (hsiz : dsiz < 2 ^ 32) :
    KeepsBlocks disk dev lfiblks dsiz ↔ HasBlocks lfiblks dsiz := by
  constructor
  · intro h
    obtain ⟨l, hl, -⟩ := h _ _ .start
    have hdir := created_dir hok
    have hi := hl.ifree
    have hd := hl.dfree
    rw [hdir] at hi hd
    constructor
    · intro hnil
      have hfree := hl.indices
      rw [hnil] at hfree
      rw [(List.append_eq_nil_iff.mp hfree.eq_nil).1] at hi
      cases hi
    · intro hnil
      have hfree := hl.sectors
      rw [hnil] at hfree
      rw [(List.append_eq_nil_iff.mp hfree.eq_nil).1] at hd
      have hnull : ((Sectors.ibsectors lfiblks + 1 : ℕ) : ℤ) = -1 := blockPtr_eq_none.mp hd
      omega
  · intro hb s a hr
    obtain ⟨g, hg, -⟩ := hr.of_created hok hb hsiz
    exact ⟨_, hg.owned, hg.truncates⟩

/-- A file system with 14 index blocks on 16 sectors. -/
theorem keeps_blocks_small :
    KeepsBlocks ⟨⟨0, 0, 0, 0, 0, [], 0⟩, fun _ => ⟨0, 0, fun _ => 0⟩, fun _ _ => 0⟩ 2 14 8192 :=
  (keeps_blocks rfl (by decide)).mpr (by decide)

/-- Without index blocks, `lfscreate` returns `OK`, and the list of free index blocks has a block. -/
theorem loses_blocks :
    ∃ disk dev lfiblks dsiz, ((Lfs.booted disk).toLfdata.lfscreate dev lfiblks dsiz).2 = OK ∧ dsiz < 2 ^ 32 ∧
    ¬ KeepsBlocks disk dev lfiblks dsiz :=
  ⟨⟨⟨0, 0, 0, 0, 0, [], 0⟩, fun _ => ⟨0, 0, fun _ => 0⟩, fun _ _ => 0⟩, 2, 0, 8192, rfl, by decide,
    fun h => absurd ((keeps_blocks rfl (by decide)).mp h) (by decide)⟩

end

end Xinu
