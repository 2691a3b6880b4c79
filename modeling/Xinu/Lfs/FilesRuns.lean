import Xinu.Lfs.FilesOpen

/-!
# Runs of the local file system

Every call on the files of a disk that `lfscreate` has formatted returns what it returns for byte
arrays (`files_agree`), unless a block has to be allocated and there is none.
-/

namespace Xinu

/-! ## One call -/

section

variable {A : LfAreas} {s : Lfs} {a : Files} {g : LfParts} {i : ℕ}

/-- The file that is open at a device. -/
def Lfs.openFile (s : Lfs) (i : ℕ) : Option ℕ :=
  if (s.lfltab i).lfused then some (s.lfltab i).lfdirptr else none

/-- The file that a call may change. -/
def LfEvent.file (s : Lfs) : LfEvent → Option ℕ
  | .lfsopen _ _ => none
  | .lflputc i _ | .lflgetc i | .lflseek i _ | .lflcontrol i _ _ | .lflclose i => s.openFile i

/-- A call on a device, for an operation on byte arrays. The other files and their blocks stay. -/
theorem Represents.stream (h : Represents A s a g) (hs : DirSaved s) (op : ByteStream → ByteStream × ℤ)
    (res : Option ((Lfdata × LfFile) × ℤ))
    (hidle : (s.lfltab i).lfused = false → res = some ((s.toLfdata, s.lfltab i), SYSERR))
    (hcall : ∀ f : LfLayout, (s.lfltab i).lfused = true →
      Alone s.toLfdata (s.lfltab i) ⟨f, g.ifree, g.dfree⟩ →
      (res = none ∧ (g.ifree = [] ∨ g.dfree = [])) ∨
      ∃ d' c' x', res = some ((d', c'), (op ⟨f.bytes, (s.lfltab i).lfpos⟩).2) ∧
        CallOk s.toLfdata (s.lfltab i) ⟨f, g.ifree, g.dfree⟩ d' c' x' (op ⟨f.bytes, (s.lfltab i).lfpos⟩).1) :
    (res.map (fun r => (s.put i r.1, r.2)) = none ∧ s.lf_dirpresent = true ∧ (g.ifree = [] ∨ g.dfree = [])) ∨
    ∃ s' g', res.map (fun r => (s.put i r.1, r.2)) = some (s', (a.onStream i op).2) ∧
      Represents A s' (a.onStream i op).1 g' ∧ DirSaved s' ∧
      g.Keeps g' (s.openFile i) := by
  by_cases hu : (s.lfltab i).lfused = true
  · obtain ⟨f, hf, halone⟩ := h.file hu
    rcases hcall f hu halone with ⟨rfl, hfree⟩ | ⟨d', c', x', rfl, hok⟩
    · exact .inl ⟨rfl, (h.data_eq hu).2, hfree⟩
    · refine .inr ⟨_, _, ?_, h.call hu hf op hok,
        hs.call h hu hok.moved.present hok.written (.inl (hok.used.trans hu)),
        fun k _ hk => List.getElem?_set_ne fun heq => hk ((congrArg some heq.symm).trans (if_pos hu).symm)⟩
      rw [h.onStream hu hf]
      rfl
  · have hnone : a.opened i = none := by rw [h.opened i, if_neg hu]
    have hstream : a.onStream i op = (a, SYSERR) := by
      unfold Files.onStream
      rw [hnone]
    have hput : s.put i (s.toLfdata, s.lfltab i) = s := by
      unfold Lfs.put
      rw [Function.update_eq_self]
    rw [hidle (Bool.eq_false_iff.mpr hu), hstream]
    exact .inr ⟨s, g, by rw [Option.map_some, hput], h, hs, .refl g _⟩

/-- **Every call agrees with the byte arrays**, if no block is missing. The other files and their
blocks stay. -/
theorem Represents.exec (h : Represents A s a g) (hs : DirSaved s) (e : LfEvent) :
    (s.exec e = none ∧ s.lf_dirpresent = true ∧ (g.ifree = [] ∨ g.dfree = [])) ∨
    ∃ s' g', s.exec e = some (s', (a.exec e).2) ∧ Represents A s' (a.exec e).1 g' ∧
    DirSaved s' ∧ g.Keeps g' (e.file s) := by
  -- One lemma for each call: that it does to the stream what it should, and fails where it should.
  cases e with
  | lfsopen name mode =>
    obtain ⟨g', hres, hg', hsaved, hkeeps⟩ := h.lfsopen hs name mode
    exact .inr ⟨_, g', congrArg some (Prod.ext rfl hres), hg', hsaved, hkeeps⟩
  | lflputc i ch =>
    refine h.stream hs (fun f => f.put ch) _ (fun hu => ?_) fun f hu halone => ?_
    · unfold Lfdata.lflputc
      rw [if_pos (by rw [hu]; exact nofun)]
    · rcases halone.lflputc hu ch with hnone | ⟨d', c', x', hres, hok, -⟩
      · exact .inl hnone
      · exact .inr ⟨d', c', x', hres, hok⟩
  | lflgetc i =>
    refine h.stream hs ByteStream.get _ (fun hu => ?_) fun f hu halone => ?_
    · unfold Lfdata.lflgetc
      rw [if_pos (by rw [hu]; exact nofun)]
    · obtain ⟨d', c', hres, hok⟩ := halone.lflgetc hu
      exact .inr ⟨d', c', _, hres, hok⟩
  | lflseek i offset =>
    refine h.stream hs (fun f => f.seek offset) (some (s.toLfdata.lflseek (s.lfltab i) offset)) (fun hu => ?_)
      fun f hu halone => ?_
    · unfold Lfdata.lflseek
      rw [if_pos (by rw [hu]; exact nofun)]
    · obtain ⟨hres, hok⟩ := halone.lflseek hu offset
      exact .inr ⟨_, _, _, congrArg some (Prod.ext rfl hres), hok⟩
  | lflcontrol i func unused =>
    refine h.stream hs (fun f => if func = LF_CTL_TRUNC then f.truncate else (f, SYSERR)) _
      (fun hu => ?_) fun f hu halone => ?_
    · unfold Lfdata.lflcontrol
      rw [if_pos (by rw [hu]; exact nofun)]
    · unfold Lfdata.lflcontrol
      -- `LF_CTL_TRUNC` truncates, every other function is refused.
      rw [if_neg (not_not.mpr hu)]
      by_cases hfunc : func = LF_CTL_TRUNC
      · rw [if_pos hfunc, if_pos hfunc]
        obtain ⟨d', c', x', hres, hok, -⟩ := halone.lftruncate hu unused
        exact .inr ⟨d', c', x', hres, hok⟩
      · rw [if_neg hfunc, if_neg hfunc]
        exact .inr ⟨_, _, _, rfl, halone, .refl .., rfl, rfl, rfl, rfl, rfl, .inl (.refl _), id⟩
  | lflclose i =>
    by_cases hu : (s.lfltab i).lfused = true
    · obtain ⟨r, g', hres, hg', hsaved, hkeeps⟩ := h.close hs hu
      refine .inr ⟨_, g', ?_, ?_, hsaved, hkeeps.mono⟩
      · unfold Lfs.exec Files.exec
        dsimp only
        rw [hres, h.opened i, if_pos hu]
      · unfold Files.exec
        dsimp only
        rw [h.opened i, if_pos hu]
        exact hg'
    -- Closing a device that is not open is refused.
    · have hclose : s.toLfdata.lflclose (s.lfltab i) = ((s.toLfdata, s.lfltab i), SYSERR) := if_pos hu
      refine .inr ⟨s, g, ?_, ?_, hs, .refl g _⟩
      · unfold Lfs.exec Files.exec Lfs.put
        dsimp only
        rw [hclose, h.opened i, if_neg hu, Function.update_eq_self]
      · unfold Files.exec
        dsimp only
        rw [h.opened i, if_neg hu]
        exact h

end

/-! ## Formatting -/

section

variable {disk : LfDisk} {n s : ℕ}

/-- The loop of `lfscreate` for the index blocks leaves the directory. -/
theorem freeIndices_dir (disk : LfDisk) (n : ℕ) : (Lfdata.freeIndices disk n).dir = disk.dir := by
  have hput : ∀ (disk : LfDisk) inum ibuff, (disk.lfibput inum ibuff).dir = disk.dir := fun _ _ _ => rfl
  unfold Lfdata.freeIndices
  dsimp only
  rw [hput]
  generalize List.range (n - 1) = l
  induction l generalizing disk with
  | nil => rfl
  | cons i l ih => exact ih _

/-- The loop of `lfscreate` for the data blocks leaves the directory. -/
theorem freeBlocks_dir (disk : LfDisk) (s n : ℕ) : (Lfdata.freeBlocks disk s n).dir = disk.dir := by
  have hput : ∀ (disk : LfDisk) dnum buff, (disk.writeBlock dnum buff).dir = disk.dir := fun _ _ _ => rfl
  unfold Lfdata.freeBlocks
  dsimp only
  rw [hput]
  generalize List.range ((n + (2 ^ 32 - 1)) % 2 ^ 32) = l
  induction l generalizing disk with
  | nil => rfl
  | cons i l ih => exact ih _

/-- The index blocks of a new file system. -/
theorem freeIndices_get (disk : LfDisk) (n : ℕ) : ∀ j : ℕ, j ≤ n →
    (Lfdata.freeIndices disk (n + 1)).nextIb j = if j < n then some ((j + 1 : ℕ) : ℤ) else none := by
  have hloop : ∀ (ib : Lfiblk) m, ∀ j < m,
      (((List.range m).foldl (fun disk i => disk.lfibput i { ib with ib_next := i + 1 }) disk).iblks
        (j : ℕ)).ib_next = j + 1 := by
    intro ib m
    induction m with
    | zero => exact fun j hj => absurd hj (Nat.not_lt_zero j)
    | succ m ih =>
      intro j hj
      rw [List.range_succ, List.foldl_append, List.foldl_cons, List.foldl_nil]
      unfold LfDisk.lfibput
      dsimp only
      by_cases hjm : j = m
      · rw [hjm, Function.update_self]
      · rw [Function.update_of_ne (by omega)]
        exact ih j (by omega)
  unfold Lfdata.freeIndices
  dsimp only
  have hnext := hloop (Lfiblk.lfibclear ⟨0, 0, fun _ => 0⟩ 0) n
  rw [Nat.add_sub_cancel]
  generalize (List.range n).foldl _ disk = disk' at hnext ⊢
  intro j hj
  unfold LfDisk.nextIb LfDisk.lfibput
  dsimp only
  split_ifs with hlt
  · rw [Function.update_of_ne (by omega), hnext j hlt, blockPtr_eq_some]
    omega
  · rw [show j = n by omega, Function.update_self]
    rfl

/-- The data blocks of a new file system. -/
theorem freeBlocks_get (disk : LfDisk) (hn : s + n < 2 ^ 31) :
    (Lfdata.freeBlocks disk s (n + 1)).iblks = disk.iblks ∧ ∀ j : ℕ, s ≤ j → j ≤ s + n →
      (Lfdata.freeBlocks disk s (n + 1)).nextDb j = if j < s + n then some ((j + 1 : ℕ) : ℤ) else none := by
  -- The loop links the blocks one by one; by induction on how far it has come.
  have hloop : ∀ m, m ≤ n → ((List.range m).foldl (fun disk i =>
        disk.writeBlock ((s + i : ℕ) : ℤ) (lfdbfreeBlock ((s + i + 1 : ℕ) : ℤ) fun _ => 0)) disk).iblks =
        disk.iblks ∧
      ∀ j, s ≤ j → j < s + m → lf_nextdb (((List.range m).foldl
        (fun disk i => disk.writeBlock ((s + i : ℕ) : ℤ) (lfdbfreeBlock ((s + i + 1 : ℕ) : ℤ) fun _ => 0))
          disk).dblks (j : ℕ)) = j + 1 := by
    intro m hm
    induction m with
    | zero => exact ⟨rfl, fun j hj hlt => absurd hlt (by omega)⟩
    | succ m ih =>
      have ih := ih (by omega)
      rw [List.range_succ, List.foldl_append, List.foldl_cons, List.foldl_nil]
      refine ⟨ih.1, fun j hj hlt => ?_⟩
      unfold LfDisk.writeBlock
      dsimp only
      by_cases hjm : j = s + m
      · rw [hjm, Function.update_self, lf_nextdb_free (by omega)]
        push_cast
        rfl
      · rw [Function.update_of_ne (by omega)]
        exact ih.2 j hj (by omega)
  unfold Lfdata.freeBlocks
  dsimp only
  rw [show (n + 1 + (2 ^ 32 - 1)) % 2 ^ 32 = n by omega]
  obtain ⟨hiblks, hnext⟩ := hloop n le_rfl
  generalize (List.range n).foldl _ disk = disk' at hiblks hnext ⊢
  refine ⟨hiblks, fun j hj hle => ?_⟩
  unfold LfDisk.nextDb LfDisk.writeBlock
  dsimp only
  -- The last block is written behind the loop, with a null pointer.
  split_ifs with hlt
  · rw [Function.update_of_ne (by omega), hnext j hj hlt, blockPtr_eq_some]
    omega
  · rw [show j = s + n by omega, Function.update_self, lf_nextdb_free (by decide)]
    rfl

/-- The free index blocks of a new file system are linked one by one. -/
theorem freeIndices_path (disk : LfDisk) (n : ℕ) :
    LinkPath (Lfdata.freeIndices disk (n + 1)).nextIb (some 0) (numbers 0 (n + 1)) none := by
  have hnext := freeIndices_get disk n
  refine path_numbers (s := 0) (fun j _ hlt => ?_) ?_
  · rw [hnext j (by omega), if_pos (by omega)]
  · rw [hnext _ (by omega), if_neg (by omega)]

/-- The free data blocks of a new file system are linked one by one, and the index blocks stay. -/
theorem freeBlocks_path (disk : LfDisk) (hn : s + n < 2 ^ 31) :
    (Lfdata.freeBlocks disk s (n + 1)).nextIb = disk.nextIb ∧
    LinkPath (Lfdata.freeBlocks disk s (n + 1)).nextDb (some (s : ℤ)) (numbers s (n + 1)) none := by
  obtain ⟨hiblks, hnext⟩ := freeBlocks_get disk hn
  refine ⟨?_, path_numbers (fun j hj hlt => ?_) ?_⟩
  · funext b
    unfold LfDisk.nextIb
    rw [hiblks]
  · rw [hnext j hj (by omega), if_pos (by omega)]
  · rw [hnext _ (by omega) le_rfl, if_neg (by omega)]

/-- A directory without files, whose two lists have all the blocks. -/
theorem LfStore.empty {A : LfAreas} {d : Lfdata} (hsmall : A.Small) (hfiles : d.lf_dir.lfd_files = [])
    (hi : LinkPath d.disk.nextIb (blockPtr d.lf_dir.lfd_ifree) A.indices none)
    (hd : LinkPath d.disk.nextDb (blockPtr d.lf_dir.lfd_dfree) A.sectors none) (cache : ℕ → LfFile) :
    LfStore A d [] A.indices A.sectors cache where
  small := hsmall
  length := by rw [hfiles]; rfl
  entry _ _ hf := by cases hf
  cached _ _ hf := by cases hf
  tight _ _ hf := by cases hf
  ifree := hi
  dfree := hd
  indices := by rw [List.flatMap_nil, List.append_nil]
  sectors := by rw [List.flatMap_nil, List.append_nil]

end

/-! ## A new file system -/

section

variable {disk : LfDisk} {dev lfiblks : ℤ} {dsiz : ℕ}

/-- What `lfscreate` has done when it returns `OK`. -/
theorem lfscreate_eq (hok : ((Lfs.booted disk).toLfdata.lfscreate dev lfiblks dsiz).2 = OK) :
    0 ≤ dev ∧ Sectors.ibsectors lfiblks ≤ dsiz / LF_BLKSIZ / 2 ∧
    (Lfs.created disk dev lfiblks dsiz).toLfdata =
      { (Lfs.booted disk).toLfdata with
        lf_dskdev := dev
        disk := Lfdata.freeBlocks
          (Lfdata.freeIndices { disk with dir := Lfdata.emptyDir ((Sectors.ibsectors lfiblks + 1 : ℕ) : ℤ) }
          (Sectors.ibsectors lfiblks * 7)) (Sectors.ibsectors lfiblks + 1)
          ((dsiz / LF_BLKSIZ + (2 ^ 32 - 1) - Sectors.ibsectors lfiblks) % 2 ^ 32) } := by
  unfold Lfs.created
  unfold Lfdata.lfscreate at hok ⊢
  dsimp only at hok ⊢
  by_cases hdev : dev < 0 ∨ dev ≥ NDEVS ∨ (Lfs.booted disk).lf_dskdev ≥ 0
  · rw [if_pos hdev] at hok
    exact absurd (show SYSERR = OK from hok) (by decide)
  rw [if_neg hdev] at hok ⊢
  have hib : ((lfiblks + 6) % 2 ^ 32).toNat / 7 = Sectors.ibsectors lfiblks := rfl
  rw [hib] at hok ⊢
  by_cases hibs : Sectors.ibsectors lfiblks > dsiz / LF_BLKSIZ / 2
  · rw [if_pos hibs] at hok
    exact absurd (show SYSERR = OK from hok) (by decide)
  · rw [if_neg hibs]
    exact ⟨by omega, not_lt.mp hibs, rfl⟩

/-- The directory that `lfscreate` writes is read back when the file system is used. -/
theorem created_data (hok : ((Lfs.booted disk).toLfdata.lfscreate dev lfiblks dsiz).2 = OK) :
    (Lfs.created disk dev lfiblks dsiz).disk.dir = Lfdata.emptyDir ((Sectors.ibsectors lfiblks + 1 : ℕ) : ℤ) ∧
    (Lfs.created disk dev lfiblks dsiz).data = { (Lfs.created disk dev lfiblks dsiz).toLfdata with
      lf_dir := Lfdata.emptyDir ((Sectors.ibsectors lfiblks + 1 : ℕ) : ℤ), lf_dirpresent := true } := by
  obtain ⟨-, -, hcreated⟩ := lfscreate_eq hok
  -- The loops write blocks of the two lists, and leave the directory.
  have hdir : (Lfs.created disk dev lfiblks dsiz).disk.dir =
      Lfdata.emptyDir ((Sectors.ibsectors lfiblks + 1 : ℕ) : ℤ) := by
    rw [hcreated]
    dsimp only
    rw [freeBlocks_dir, freeIndices_dir]
  refine ⟨hdir, ?_⟩
  unfold Lfs.data Lfdata.present
  rw [if_neg (by rw [hcreated]; exact nofun), hdir]
  rfl

/-- After `lfscreate`, the two lists have all index blocks and all data blocks. -/
theorem created_store (hok : ((Lfs.booted disk).toLfdata.lfscreate dev lfiblks dsiz).2 = OK)
    (hi : 1 ≤ Sectors.ibsectors lfiblks) (h3 : 3 ≤ dsiz / LF_BLKSIZ) (hsiz : dsiz < 2 ^ 32)
    (cache : ℕ → LfFile) :
    LfStore (areas (Sectors.ibsectors lfiblks) (dsiz / LF_BLKSIZ)) (Lfs.created disk dev lfiblks dsiz).data []
      (areas (Sectors.ibsectors lfiblks) (dsiz / LF_BLKSIZ)).indices
      (areas (Sectors.ibsectors lfiblks) (dsiz / LF_BLKSIZ)).sectors cache := by
  obtain ⟨-, hdata⟩ := created_data hok
  obtain ⟨-, hibs, hcreated⟩ := lfscreate_eq hok
  have hsectors : dsiz / LF_BLKSIZ < 2 ^ 23 ∧ LF_BLKSIZ * (dsiz / LF_BLKSIZ) < 2 ^ 32 := by
    dsimp only [LF_BLKSIZ]
    omega
  have hdisk := congrArg Lfdata.disk hcreated
  generalize Lfs.created disk dev lfiblks dsiz = s at *
  generalize Sectors.ibsectors lfiblks = ibs at *
  generalize dsiz / LF_BLKSIZ = sectors at *
  -- At least one sector has index blocks, and at least one is left for data.
  obtain ⟨n, rfl⟩ : ∃ n, ibs = n + 1 := ⟨ibs - 1, by omega⟩
  obtain ⟨m, rfl⟩ : ∃ m, sectors = n + 1 + 1 + (m + 1) := ⟨sectors - n - 3, by omega⟩
  rw [show (n + 1) * 7 = n * 7 + 6 + 1 by omega,
    show (n + 1 + 1 + (m + 1) + (2 ^ 32 - 1) - (n + 1)) % 2 ^ 32 = m + 1 by omega] at hdisk
  dsimp only at hdisk
  have hpath := freeIndices_path { disk with dir := Lfdata.emptyDir ((n + 1 + 1 : ℕ) : ℤ) } (n * 7 + 6)
  generalize Lfdata.freeIndices { disk with dir := Lfdata.emptyDir ((n + 1 + 1 : ℕ) : ℤ) }
    (n * 7 + 6 + 1) = disk₁ at *
  obtain ⟨hib, hdb⟩ := freeBlocks_path (s := n + 1 + 1) (n := m) disk₁ (by omega)
  have hindices : (areas (n + 1) (n + 1 + 1 + (m + 1))).indices = numbers 0 (n * 7 + 6 + 1) := by
    change numbers 0 ((n + 1) * 7) = _
    rw [show (n + 1) * 7 = n * 7 + 6 + 1 by omega]
  have hsecs : (areas (n + 1) (n + 1 + 1 + (m + 1))).sectors = numbers (n + 1 + 1) (m + 1) := by
    change numbers (n + 1 + 1) (n + 1 + 1 + (m + 1) - (n + 1 + 1)) = _
    rw [Nat.add_sub_cancel_left]
  have hstart : blockPtr ((n + 1 + 1 : ℕ) : ℤ) = some ((n + 1 + 1 : ℕ) : ℤ) :=
    blockPtr_eq_some.mpr ⟨rfl, by omega⟩
  rw [hdata]
  refine .empty ?_ rfl ?_ ?_ cache
  · unfold areas
    constructor <;> dsimp only [LF_BLKSIZ] at hsectors ⊢ <;> omega
  · rw [hindices]
    change LinkPath s.disk.nextIb (some 0) _ _
    rw [hdisk, hib]
    exact hpath
  · rw [hsecs]
    change LinkPath s.disk.nextDb (blockPtr ((n + 1 + 1 : ℕ) : ℤ)) _ _
    rw [hstart, hdisk]
    exact hdb

/-- After `lfscreate` there are no files, and all blocks are free. -/
theorem created_represents (hok : ((Lfs.booted disk).toLfdata.lfscreate dev lfiblks dsiz).2 = OK)
    (hi : 1 ≤ Sectors.ibsectors lfiblks)
    (h3 : 3 ≤ dsiz / LF_BLKSIZ) (hsiz : dsiz < 2 ^ 32) :
    ∃ g, Represents (areas (Sectors.ibsectors lfiblks) (dsiz / LF_BLKSIZ))
    (Lfs.created disk dev lfiblks dsiz) .empty g ∧
      DirSaved (Lfs.created disk dev lfiblks dsiz) := by
  obtain ⟨hdev, -, hcreated⟩ := lfscreate_eq hok
  obtain ⟨hdir, hdata⟩ := created_data hok
  have hstore := created_store hok hi h3 hsiz
  have htab : (Lfs.created disk dev lfiblks dsiz).lfltab = (Lfs.booted disk).lfltab := rfl
  generalize Lfs.created disk dev lfiblks dsiz = s at *
  have hunused : ∀ i, (s.lfltab i).lfused = false := fun i => by rw [htab]; rfl
  refine ⟨⟨[], _, _, _⟩, ⟨hstore fun _ => s.lfltab 0, ?_, ?_, ?_, ?_, ?_, ?_, ?_, ?_, ?_, ?_, ?_, ?_⟩, ?_, ?_⟩
  · rw [hdata]
    rfl
  · exact fun _ i => hunused i
  · rw [hcreated]
    exact hdev
  · intro i
    rw [htab]
    rfl
  -- No control block is in use, so the conditions on those that are hold of none.
  · exact fun i hu => absurd (hu.symm.trans (hunused i)) nofun
  · exact fun i hu => absurd (hu.symm.trans (hunused i)) nofun
  · exact fun i _ hu => absurd (hu.symm.trans (hunused i)) nofun
  · exact fun k hk => absurd hk (Nat.not_lt_zero k)
  · rw [hdata]
    exact List.nodup_nil
  · rw [hdata]
    rfl
  · rfl
  · intro i
    rw [hunused i]
    rfl
  -- The directory on disk is the one in memory.
  · intro _
    rw [hdata, hdir]
    rfl
  · intro _
    rw [hcreated]
    rfl

end

/-! ## Runs -/

/-- Calls on the file system and on the byte arrays, from two states on. Each call returns, and
meets a condition. -/
inductive FilesRun (C : Lfs → LfEvent → Prop) (s₀ : Lfs) (a₀ : Files) : Lfs → Files → Prop where
  | start : FilesRun C s₀ a₀ s₀ a₀
  | step {s s' : Lfs} {a : Files} {e : LfEvent} {r : ℤ} (hr : FilesRun C s₀ a₀ s a)
    (hC : C s e) (he : s.exec e = some (s', r)) :
      FilesRun C s₀ a₀ s' (a.exec e).1

/-- The call returns what it returns for the byte arrays, or it has to allocate a block and there is none. -/
def CallAgrees (s : Lfs) (a : Files) (e : LfEvent) : Prop :=
  (∃ s', s.exec e = some (s', (a.exec e).2)) ∨
    (s.exec e = none ∧ (s.lf_dir.lfd_ifree = LF_INULL ∨ s.lf_dir.lfd_dfree = LF_DNULL))

section

variable {C : Lfs → LfEvent → Prop} {A : LfAreas} {s₀ s : Lfs} {a₀ a : Files}

/-- In a run the file system keeps to the byte arrays. -/
theorem FilesRun.represents (hr : FilesRun C s₀ a₀ s a) (h₀ : ∃ g, Represents A s₀ a₀ g ∧ DirSaved s₀) :
    ∃ g, Represents A s a g ∧ DirSaved s := by
  induction hr with
  | start => exact h₀
  | step _ _ he ih =>
    obtain ⟨g, hg, hs⟩ := ih
    rcases hg.exec hs _ with ⟨hnone, -⟩ | ⟨s', g', hsome, hg', hs'⟩
    · cases hnone.symm.trans he
    · obtain ⟨rfl, -⟩ := Prod.mk.inj (Option.some.inj (hsome.symm.trans he))
      exact ⟨g', hg', hs'.1⟩

/-- A call agrees with the byte arrays. -/
theorem Represents.agrees {g : LfParts} (h : Represents A s a g) (hs : DirSaved s) (e : LfEvent) :
    CallAgrees s a e := by
  rcases h.exec hs e with ⟨hnone, hpres, hfree⟩ | ⟨s', g', hsome, -⟩
  · refine .inr ⟨hnone, ?_⟩
    have hdata : s.data = s.toLfdata := Lfs.data_of hpres
    have hi := h.store.ifree
    have hd := h.store.dfree
    rw [hdata] at hi hd
    refine hfree.imp (fun hn => ?_) fun hn => ?_
    · rw [hn] at hi
      exact blockPtr_eq_none.mp hi
    · rw [hn] at hd
      exact blockPtr_eq_none.mp hd
  · exact .inl ⟨s', hsome⟩

end

/-! ## Agreement -/

/-- The disk has index blocks and data blocks. -/
def HasBlocks (lfiblks : ℤ) (dsiz : ℕ) : Prop :=
  (areas (Sectors.ibsectors lfiblks) (dsiz / LF_BLKSIZ)).indices ≠ [] ∧
    (areas (Sectors.ibsectors lfiblks) (dsiz / LF_BLKSIZ)).sectors ≠ []

section

variable {C : Lfs → LfEvent → Prop} {disk : LfDisk} {dev lfiblks : ℤ} {dsiz : ℕ} {s : Lfs} {a : Files}

/-- There are blocks if there is a sector of index blocks, and one behind them. -/
theorem hasBlocks_iff : HasBlocks lfiblks dsiz ↔ 1 ≤ Sectors.ibsectors lfiblks ∧
    Sectors.ibsectors lfiblks + 1 < dsiz / LF_BLKSIZ := by
  unfold HasBlocks
  rw [ne_eq, ne_eq, ← List.length_eq_zero_iff, ← List.length_eq_zero_iff,
    LfAreas.indices, LfAreas.sectors, length_numbers, length_numbers]
  dsimp only [areas]
  omega

instance : Decidable (HasBlocks lfiblks dsiz) := decidable_of_iff _ hasBlocks_iff.symm

/-- In every run on a new file system with blocks, the file system keeps to the byte arrays. -/
theorem FilesRun.of_created (hr : FilesRun C (.created disk dev lfiblks dsiz) .empty s a)
    (hok : ((Lfs.booted disk).toLfdata.lfscreate dev lfiblks dsiz).2 = OK)
    (hb : HasBlocks lfiblks dsiz) (hsiz : dsiz < 2 ^ 32) :
    ∃ g, Represents (areas (Sectors.ibsectors lfiblks) (dsiz / LF_BLKSIZ)) s a g ∧ DirSaved s := by
  obtain ⟨hi, hlt⟩ := hasBlocks_iff.mp hb
  exact hr.represents (created_represents hok hi (by omega) hsiz)

/-- **The local file system refines byte arrays**: whatever the disk held before `lfscreate`, after
any sequence of calls the next call returns what it returns for the byte arrays, unless it has to
allocate a block and there is none. -/
theorem files_agree (hr : FilesRun (fun _ _ => True) (.created disk dev lfiblks dsiz) .empty s a)
    (hok : ((Lfs.booted disk).toLfdata.lfscreate dev lfiblks dsiz).2 = OK)
      (hb : HasBlocks lfiblks dsiz) (hsiz : dsiz < 2 ^ 32)
    (e : LfEvent) : CallAgrees s a e := by
  obtain ⟨g, hg, hs⟩ := hr.of_created hok hb hsiz
  exact hg.agrees hs e

end

/-! ## Runs by a list of calls -/

/-- Some calls, if they meet a condition and return. -/
def Lfs.runs (C : Lfs → LfEvent → Prop) [∀ s e, Decidable (C s e)] (s : Lfs) (a : Files) :
    List LfEvent → Option (Lfs × Files)
  | [] => some (s, a)
  | e :: es => if C s e then (s.exec e).bind fun r => Lfs.runs C r.1 (a.exec e).1 es else none

/-- A list of calls makes a run. -/
theorem FilesRun.of_runs {C : Lfs → LfEvent → Prop} [∀ s e, Decidable (C s e)]
    {s₀ s s' : Lfs} {a₀ a a' : Files} {es : List LfEvent}
    (hr : FilesRun C s₀ a₀ s a) (he : s.runs C a es = some (s', a')) : FilesRun C s₀ a₀ s' a' := by
  induction es generalizing s a with
  | nil =>
    obtain ⟨rfl, rfl⟩ := Prod.mk.inj (Option.some.inj he)
    exact hr
  | cons e es ih =>
    unfold Lfs.runs at he
    split_ifs at he with hC
    obtain ⟨⟨s₁, r⟩, hs, he⟩ := Option.bind_eq_some_iff.mp he
    exact ih (hr.step hC hs) he

/-- A disk with nothing but 0, and a file system on 16 sectors of it with 14 index blocks. -/
def smallLfs : Lfs := .created ⟨⟨0, 0, 0, 0, 0, [], 0⟩, fun _ => ⟨0, 0, fun _ => 0⟩, fun _ _ => 0⟩ 2 14 8192

/-- A file is created, and a byte is written and read again. -/
def writeRead : List LfEvent := [.lfsopen [97] [114, 119], .lflputc 0 65, .lflseek 0 0]

/-- The byte that is read is the one that was written. -/
theorem files_agree_byte :
    ∃ s a, smallLfs.runs (fun _ _ => True) .empty writeRead = some (s, a) ∧ CallAgrees s a (.lflgetc 0) := by
  have hrun : (smallLfs.runs (fun _ _ => True) .empty writeRead).isSome = true := by decide +kernel
  obtain ⟨⟨s, a⟩, hs⟩ := Option.isSome_iff_exists.mp hrun
  exact ⟨s, a, hs, files_agree (.of_runs .start hs) rfl (by decide) (by decide) _⟩

end Xinu
