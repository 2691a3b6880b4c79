import Xinu.Lfs.FilesRuns

/-!
# What is on disk when all files are closed

When all files are closed, the directory, the index blocks and the data blocks on disk hold all
files (`Durable`), if no file was closed as the last one while the directory in memory had a file
more than the one on disk and was not dirty: `lfsopen` puts a new file into the directory in memory
and does not mark it dirty (`close_forgets`).
-/

namespace Xinu

/-! ## Reading a disk -/

/-- The index blocks on disk, from one on. It gives up after some number of them. -/
def LfDisk.chain (disk : LfDisk) : ℕ → ℤ → List ℤ
  | 0, _ => []
  | n + 1, b => if b = LF_INULL then [] else b :: chain disk n (disk.iblks b).ib_next

/-- The bytes of a file on disk, by its entry in the directory. -/
def LfDisk.fileBytes (disk : LfDisk) (e : Ldentry) : List UInt8 :=
  (((disk.chain LF_STEPS e.ld_ilist).flatMap fun b => (disk.iblks b).blocks).flatMap fun b =>
    (List.range LF_BLKSIZ).map (disk.dblks b)).take
    e.ld_size

/-- The system is started again, with the same disk. -/
def Lfs.reboot (s : Lfs) : Lfs := { Lfs.booted s.disk with lf_dskdev := s.lf_dskdev }

/-! ## The property -/

/-- No file is open. -/
def Lfs.AllClosed (s : Lfs) : Prop := ∀ i, (s.lfltab i).lfused = false

/-- The disk holds the directory that is in memory, and all files; and after a new start every call
does what it does for the files. -/
structure Durable (s : Lfs) (a : Files) : Prop where
  /-- The directory on disk is the one in memory. -/
  directory : s.lf_dirpresent = true → s.disk.dir = s.lf_dir
  /-- It has the names of the files. -/
  names : s.disk.dir.lfd_files.map Ldentry.ld_name = a.files.map ByteFile.name
  /-- It has their lengths. -/
  sizes : s.disk.dir.lfd_files.map Ldentry.ld_size = a.files.map fun f => f.bytes.length
  /-- The blocks on disk hold their bytes. -/
  contents : s.disk.dir.lfd_files.map s.disk.fileBytes = a.files.map ByteFile.bytes
  /-- After a new start, no file is open and the calls agree with the files again. -/
  reboot : ∀ s' a', FilesRun (fun _ _ => True) s.reboot ⟨a.files, fun _ => none⟩ s' a' →
    ∀ e, CallAgrees s' a' e

/-- The last open file is closed when the directory is dirty, or when no file has been put into it
since it has been written. -/
def CloseOk (s : Lfs) : LfEvent → Prop
  | .lflclose i => (s.lfltab i).lfused = true → (∀ j < Nlfl, j ≠ i → (s.lfltab j).lfused = false) →
    s.lf_dirdirty = true ∨ s.disk.dir.lfd_files.length = s.lf_dir.lfd_files.length
  | _ => True

instance (s : Lfs) (e : LfEvent) : Decidable (CloseOk s e) := by
  cases e <;> unfold CloseOk <;> infer_instance

/-! ## The files of a disk -/

section

variable {disk : LfDisk} {c : LfFile} {f : LfLayout} {n : ℕ}

/-- The chain on disk is the list of the index blocks. -/
theorem LfDisk.chain_eq {l : List ℤ} (hn : l.length < n) (hnull : LF_INULL ∉ l)
    (hnext : ∀ (i : ℕ) (b : ℤ), l[i]? = some b → (disk.iblks b).ib_next = (l[i + 1]?).getD LF_INULL) :
    disk.chain n (l.head?.getD LF_INULL) = l := by
  induction l generalizing n with
  | nil =>
    obtain ⟨n, rfl⟩ : ∃ k, n = k + 1 := ⟨n - 1, by simp only [List.length_nil] at hn; omega⟩
    exact if_pos rfl
  | cons b l ih =>
    obtain ⟨n, rfl⟩ : ∃ k, n = k + 1 := ⟨n - 1, by simp only [List.length_cons] at hn; omega⟩
    have hb : b ≠ LF_INULL := fun he => hnull (he ▸ List.mem_cons_self)
    change (if b = LF_INULL then [] else b :: disk.chain n (disk.iblks b).ib_next) = _
    rw [if_neg hb, hnext 0 b rfl]
    congr 1
    rw [List.length_cons] at hn
    have hhead : (b :: l)[0 + 1]? = l.head? := List.head?_eq_getElem?.symm
    rw [hhead]
    exact ih (by omega) (fun hm => hnull (List.mem_cons_of_mem _ hm)) fun i a ha => hnext (i + 1) a ha

/-- A byte of some blocks of one size, which lie behind one another. -/
theorem getElem?_flatMap_blocks {g : ℤ → List UInt8} {size : ℕ}
    (hg : ∀ b, (g b).length = size) (l : List ℤ) (m o : ℕ) (ho : o < size) :
    (l.flatMap g)[size * m + o]? = (l[m]?).bind fun b => (g b)[o]? := by
  induction l generalizing m with
  | nil => simp
  | cons b l ih =>
    rw [List.flatMap_cons]
    cases m with
    | zero =>
      rw [Nat.mul_zero, Nat.zero_add, List.getElem?_append_left (by rw [hg]; exact ho)]
      rfl
    | succ m =>
      rw [List.getElem?_append_right (by rw [hg, Nat.mul_succ]; omega), hg, List.getElem?_cons_succ, ← ih m,
        show size * (m + 1) + o - size = size * m + o by rw [Nat.mul_succ]; omega]

/-- A file with nothing newer in memory is on disk. -/
theorem Cached.fileBytes (h : Cached disk c f) (hib : c.lfibdirty = false)
    (hdb : c.lfdbdirty = false) (hnull : LF_INULL ∉ f.ids)
    (hnull' : LF_DNULL ∉ f.blocks) (hroom : f.ids.length < LF_STEPS)
    {e : Ldentry} (hsize : e.ld_size = f.bytes.length)
    (hilist : e.ld_ilist = f.ids.head?.getD LF_INULL) : disk.fileBytes e = f.bytes := by
  have hindex : ∀ (k : ℕ) (b : ℤ), f.ids[k]? = some b → f.IsIndex k (disk.iblks b) := fun k b hb =>
    (h.index k b hb).resolve_right fun hc => absurd (hib.symm.trans hc.2) nofun
  have hdata : ∀ (m : ℕ) (b : ℤ), f.blocks[m]? = some b → f.IsData m (disk.dblks b) := fun m b hb =>
    (h.data m b hb).resolve_right fun hc => absurd (hdb.symm.trans hc.2) nofun
  have hblocks : f.ids.flatMap (fun b => (disk.iblks b).blocks) = f.blocks :=
    flatMap_blocks (fun k b hb => (hindex k b hb).blocks_eq hnull') h.blocks_le
  unfold LfDisk.fileBytes
  rw [hilist, LfDisk.chain_eq hroom hnull fun k b hb => (hindex k b hb).next, hblocks, hsize]
  refine List.ext_getElem? fun p => ?_
  rcases Nat.lt_or_ge p f.bytes.length with hlt | hge
  · -- the byte is in data block `p / LF_BLKSIZ`
    have hp : LF_BLKSIZ * (p / LF_BLKSIZ) + p % LF_BLKSIZ = p := Nat.div_add_mod ..
    have ho : p % LF_BLKSIZ < LF_BLKSIZ := Nat.mod_lt _ (by decide)
    have hm : p / LF_BLKSIZ < f.blocks.length := by
      have := h.bytes_le
      rw [Nat.div_lt_iff_lt_mul (by decide), Nat.mul_comm]
      omega
    have hbyte := List.getElem?_eq_getElem hlt
    rw [List.getElem?_take_of_lt hlt, ← hp, getElem?_flatMap_blocks
      (fun b => by rw [List.length_map, List.length_range]) _ _ _ ho,
      List.getElem?_eq_getElem hm, Option.bind_some, List.getElem?_map,
        List.getElem?_range ho, Option.map_some, hp, hbyte,
      hdata _ _ (List.getElem?_eq_getElem hm) _ ho _ (by rw [hp]; exact hbyte)]
  · rw [List.getElem?_eq_none hge, List.getElem?_eq_none]
    exact (List.length_take_le ..).trans hge

end

section

variable {A : LfAreas} {s s' : Lfs} {a a' : Files} {g g' : LfParts} {e : LfEvent} {r : ℤ} {i : ℕ}

/-! ## When all files are closed -/

/-- The directory on disk has all files when none is open. -/
def DirFull (s : Lfs) : Prop := s.AllClosed → s.disk.dir.lfd_files.length = s.data.lf_dir.lfd_files.length

/-- The directory on disk is the one in memory. -/
theorem DirSaved.dir_eq (hs : DirSaved s) (hf : DirFull s) (hc : s.AllClosed) :
    s.disk.dir = s.data.lf_dir := by
  rw [hs.saved (hs.clean hc), hf hc, List.take_length]

/-- The store depends on the directory and on the blocks. -/
theorem LfStore.of_eq {d d' : Lfdata} {fs : List LfLayout}
    {ip dp : List ℤ} {cache : ℕ → LfFile} (h : LfStore A d fs ip dp cache)
    (hdir : d'.lf_dir = d.lf_dir) (hdisk : d'.disk = d.disk) : LfStore A d' fs ip dp cache := by
  obtain ⟨dskdev, dir, present, dirty, disk⟩ := d
  obtain ⟨dskdev', dir', present', dirty', disk'⟩ := d'
  simp only at hdir hdisk
  subst hdir hdisk
  exact ⟨h.1, h.2, h.3, h.4, h.5, h.6, h.7, h.8, h.9⟩

/-- After a new start, the files are those that were there before. -/
theorem Represents.rebooted (h : Represents A s a g) (hs : DirSaved s) (hf : DirFull s) (hc : s.AllClosed) :
    Represents A s.reboot ⟨a.files, fun _ => none⟩ g ∧ DirSaved s.reboot := by
  -- No file is open, so the directory on disk is the one in memory.
  have hdir := hs.dir_eq hf hc
  have hdata : s.reboot.data.lf_dir = s.data.lf_dir := by
    unfold Lfs.data Lfdata.present
    rw [if_neg (show ¬ s.reboot.lf_dirpresent = true from nofun), if_neg]
    · exact hdir
    · change ¬ ¬ s.disk.dir.lfscheck = true
      rw [hdir, not_not]
      exact h.valid
  have hvalid : s.reboot.data.lf_dir.lfscheck = true := hdata ▸ h.valid
  have hdisk : s.reboot.data.disk = s.data.disk :=
    (Lfdata.present_spec hvalid).2.2.2.1.trans (Lfdata.present_spec h.valid).2.2.2.1.symm
  have hunused : ∀ i, (s.reboot.lfltab i).lfused = false := fun _ => rfl
  -- All control blocks are free after the start, and what holds of the disk still holds.
  constructor
  · constructor
    case store => exact h.store.of_eq hdata hdisk
    case valid => exact hvalid
    case absent => exact fun _ => hunused
    case dskdev => exact h.dskdev
    case dev => exact fun _ => rfl
    case used => exact fun i hu => absurd (hu.symm.trans (hunused i)) nofun
    case name => exact fun i hu => absurd (hu.symm.trans (hunused i)) nofun
    case once => exact fun i _ hu => absurd (hu.symm.trans (hunused i)) nofun
    case closed => exact fun k hk _ => h.closed k hk fun i hu => absurd (hu.symm.trans (hc i)) nofun
    case nodup => exact hdata ▸ h.nodup
    case names => exact hdata ▸ h.names
    case bytes => exact h.bytes
    case opened => exact fun _ => rfl
  · constructor
    · intro _
      have htake : s.reboot.disk.dir = s.reboot.data.lf_dir := hdir.trans hdata.symm
      rw [htake, List.take_length]
    · exact fun _ => rfl

/-- When all files are closed, the disk holds all of them. -/
theorem Represents.durable (h : Represents A s a g) (hs : DirSaved s) (hf : DirFull s) (hc : s.AllClosed) :
    Durable s a := by
  have hdir := hs.dir_eq hf hc
  have hdisk : s.data.disk = s.disk := (Lfdata.present_spec h.valid).2.2.2.1
  have hlen : a.files.length = g.fs.length := by
    have := congrArg List.length h.bytes
    rwa [List.length_map, List.length_map] at this
  -- the entry of a file, and the file
  have hfile : ∀ (k : ℕ) (f : LfLayout), g.fs[k]? = some f →
      ∃ e, s.disk.dir.lfd_files[k]? = some e ∧ e.ld_size = f.bytes.length ∧
      s.disk.fileBytes e = f.bytes := fun k f hk => by
    obtain ⟨-, e, he, hsize, hilist⟩ := h.store.entry k f hk
    obtain ⟨hib, hdb⟩ := h.closed k (List.getElem?_eq_some_iff.mp hk).1 fun i hu =>
      absurd (hu.symm.trans (hc i)) nofun
    have halone := h.store.alone hk
    have hroom := halone.ids_room
    rw [List.length_append] at hroom
    dsimp only at hroom
    refine ⟨e, hdir ▸ he, hsize, ?_⟩
    rw [← hdisk]
    exact (h.store.cached k f hk).fileBytes hib hdb halone.null_not_id halone.null_not_block
      (by dsimp only [LF_STEPS]; omega) hsize hilist
  have hfilesLen : s.disk.dir.lfd_files.length = g.fs.length := by rw [hdir, h.store.length]
  -- what is the same for every file is the same for the directory
  have hmap : ∀ {β : Type} (u : Ldentry → β) (v : List UInt8 → β),
      (∀ (e : Ldentry) (f : LfLayout), e.ld_size = f.bytes.length →
      s.disk.fileBytes e = f.bytes → u e = v f.bytes) → s.disk.dir.lfd_files.map u = a.files.map fun f =>
        v f.bytes := by
    intro β u v huv
    have hbytes : (a.files.map fun f => v f.bytes) = g.fs.map fun f => v f.bytes := by
      have := congrArg (List.map v) h.bytes
      rwa [List.map_map, List.map_map] at this
    rw [hbytes]
    refine List.ext_getElem? fun k => ?_
    rw [List.getElem?_map, List.getElem?_map]
    rcases Nat.lt_or_ge k g.fs.length with hlt | hge
    · obtain ⟨e, he, hsize, hcontents⟩ := hfile k _ (List.getElem?_eq_getElem hlt)
      rw [he, List.getElem?_eq_getElem hlt, Option.map_some, Option.map_some, huv e _ hsize hcontents]
    · rw [List.getElem?_eq_none (hfilesLen ▸ hge), List.getElem?_eq_none hge]
      rfl
  constructor
  case directory =>
    intro hp
    rw [hdir, Lfs.data_of hp]
  case names => rw [hdir, h.names]
  case sizes => exact hmap Ldentry.ld_size List.length fun e f hsize _ => hsize
  case contents => exact hmap s.disk.fileBytes id fun e f _ hcontents => hcontents
  case reboot =>
    intro s' a' hr e
    obtain ⟨hrep, hsaved⟩ := h.rebooted hs hf hc
    obtain ⟨g', hg', hs'⟩ := hr.represents ⟨g, hrep, hsaved⟩
    exact hg'.agrees hs' e

/-! ## The steps -/

/-- A file is open at a device after a call if it was before, unless the call opens or closes files. -/
theorem Files.onStream_opened (a : Files) (i j : ℕ) (op : ByteStream → ByteStream × ℤ) :
    (a.onStream i op).1.opened j = none ↔ a.opened j = none := by
  unfold Files.onStream
  cases ho : a.opened i with
  | none => rfl
  | some kp =>
    dsimp only
    by_cases hj : j = i
    · subst hj
      rw [Function.update_self, ho]
      exact ⟨nofun, nofun⟩
    · rw [Function.update_of_ne hj]

/-- A file is open when its control block is used. -/
theorem not_allClosed_put (s : Lfs) (i : ℕ) (r : Lfdata × LfFile) (hu : r.2.lfused = true) :
    ¬ (s.put i r).AllClosed := fun hc => by
  have hi := hc i
  rw [show (s.put i r).lfltab i = r.2 from Function.update_self ..] at hi
  exact absurd (hu.symm.trans hi) nofun

/-- `lfsopen` changes nothing, or reads the directory, or a file is open afterwards. -/
theorem Lfs.lfsopen_cases (s : Lfs) (name mode : CString) : (s.lfsopen name mode).1 = s ∨
    (s.lfsopen name mode).1 = { s with toLfdata := s.data } ∨ ¬ (s.lfsopen name mode).1.AllClosed := by
  unfold Lfs.lfsopen
  split_ifs
  · exact .inl rfl
  · exact .inl rfl
  · split
    · dsimp only
      split_ifs
      · split
        · exact .inr (.inl rfl)
        · exact .inr (.inr (not_allClosed_put _ _ _ rfl))
      · exact .inr (.inl rfl)
    · exact .inl rfl

/-- A step after which no file is open, from a state in which one is, is the `lflclose` of this file. -/
theorem Represents.closes (h : Represents A s a g) (h' : Represents A s' (a.exec e).1 g') (hc : s'.AllClosed)
    (hu : (s.lfltab i).lfused = true) (hopen : ∀ name mode, e ≠ .lfsopen name mode) :
    e = .lflclose i ∧ ∀ j, j ≠ i → (s.lfltab j).lfused = false := by
  -- Before the step a file is open, after it none: so the call closes one.
  have hnone : ∀ j, (a.exec e).1.opened j = none := fun j => by
    rw [h'.opened j, if_neg (by rw [hc j]; exact nofun)]
  have hopened : a.opened i ≠ none := by
    rw [h.opened i, if_pos hu]
    exact nofun
  have hfree : ∀ j, a.opened j = none → (s.lfltab j).lfused = false := fun j hj => by
    by_contra hne
    rw [h.opened j, if_pos (Bool.eq_true_of_not_eq_false hne)] at hj
    cases hj
  -- The calls on the stream of a file leave it open.
  cases e with
  | lfsopen name mode => exact absurd rfl (hopen name mode)
  | lflputc k ch => exact absurd ((a.onStream_opened k i _).mp (hnone i)) hopened
  | lflgetc k => exact absurd ((a.onStream_opened k i _).mp (hnone i)) hopened
  | lflseek k offset => exact absurd ((a.onStream_opened k i _).mp (hnone i)) hopened
  | lflcontrol k func unused => exact absurd ((a.onStream_opened k i _).mp (hnone i)) hopened
  | lflclose k =>
    unfold Files.exec at hnone
    dsimp only at hnone
    cases hk : a.opened k with
    | none =>
      rw [hk] at hnone
      exact absurd (hnone i) hopened
    | some kp =>
      rw [hk] at hnone
      -- No other file was open.
      have hother : ∀ j, j ≠ k → a.opened j = none :=
        fun j hj => (Function.update_of_ne hj _ _).symm.trans (hnone j)
      obtain rfl : i = k := by
        by_contra hne
        exact hopened (hother i hne)
      exact ⟨rfl, fun j hj => hfree j (hother j hj)⟩

/-- A call on a device that is not open changes nothing. -/
theorem Lfs.exec_idle (hc : s.AllClosed) (hopen : ∀ name mode, e ≠ .lfsopen name mode)
    (he : s.exec e = some (s', r)) : s' = s := by
  -- A call that finds its control block free returns at once.
  have hput : ∀ i, s.put i (s.toLfdata, s.lfltab i) = s := fun i => by
    unfold Lfs.put
    rw [Function.update_eq_self]
  have hidle : ∀ i, ¬ (s.lfltab i).lfused = true := fun i => by
    rw [hc i]
    exact nofun
  have hres : s.exec e = some (s, SYSERR) := by
    cases e with
    | lfsopen name mode => exact absurd rfl (hopen name mode)
    | lflputc i ch =>
      unfold Lfs.exec Lfdata.lflputc
      dsimp only
      rw [if_pos (hidle i), Option.map_some, hput]
    | lflgetc i =>
      unfold Lfs.exec Lfdata.lflgetc
      dsimp only
      rw [if_pos (hidle i), Option.map_some, hput]
    | lflseek i offset =>
      unfold Lfs.exec Lfdata.lflseek
      dsimp only
      rw [if_pos (hidle i), hput]
    | lflcontrol i func unused =>
      unfold Lfs.exec Lfdata.lflcontrol
      dsimp only
      rw [if_pos (hidle i), Option.map_some, hput]
    | lflclose i =>
      unfold Lfs.exec Lfdata.lflclose
      dsimp only
      rw [if_pos (hidle i), hput]
  exact (Prod.mk.inj (Option.some.inj (he.symm.trans hres))).1

/-- A step that meets the condition. -/
theorem DirFull.step (hf : DirFull s) (h : Represents A s a g)
    (h' : Represents A s' (a.exec e).1 g') (hC : CloseOk s e)
    (he : s.exec e = some (s', r)) : DirFull s' := by
  intro hc
  by_cases hopen : ∃ name mode, e = .lfsopen name mode
  -- `lfsopen` leaves a file open, unless it fails.
  · obtain ⟨name, mode, rfl⟩ := hopen
    obtain rfl : (s.lfsopen name mode).1 = s' := congrArg Prod.fst (Option.some.inj he)
    rcases s.lfsopen_cases name mode with hsame | hread | hno
    · rw [hsame] at hc ⊢
      exact hf hc
    · rw [hread] at hc ⊢
      obtain ⟨-, -, hpres, hdisk, -⟩ := Lfdata.present_spec h.valid
      have hdata : Lfs.data { s with toLfdata := s.data } = s.data := Lfs.data_of hpres
      rw [hdata]
      change s.data.disk.dir.lfd_files.length = _
      rw [show s.data.disk = s.disk from hdisk]
      exact hf hc
    · exact absurd hc hno
  have hopen : ∀ name mode, e ≠ .lfsopen name mode := fun name mode heq => hopen ⟨name, mode, heq⟩
  by_cases hall : s.AllClosed
  · rw [Lfs.exec_idle hall hopen he]
    exact hf hall
  · -- the last open file has been closed
    obtain ⟨i, hi⟩ := not_forall.mp hall
    have hu : (s.lfltab i).lfused = true := Bool.eq_true_of_not_eq_false hi
    obtain ⟨rfl, hothers⟩ := h.closes h' hc hu hopen
    obtain ⟨hdata, hpres⟩ := h.data_eq hu
    obtain ⟨f, -, halone⟩ := h.file hu
    obtain ⟨d', c', hclose, -, hmoved, -, -, -, -, -, hwritten, hclean, hdir⟩ := halone.lflclose hu
    obtain rfl : s.put i (d', c') = s' := by
      have hexec : s.exec (.lflclose i) = some (s.put i (d', c'), OK) := by
        unfold Lfs.exec
        dsimp only
        rw [hclose]
      exact (Prod.mk.inj (Option.some.inj (hexec.symm.trans he))).1
    rw [Lfs.data_of (show (s.put i (d', c')).lf_dirpresent = true from hmoved.present.trans hpres)]
    change d'.disk.dir.lfd_files.length = d'.lf_dir.lfd_files.length
    -- The directory has been written, or was never changed while the file was open.
    rcases hwritten with ⟨hsame, hdisk, hdirty⟩ | hwritten
    · have hfull := (hC hu fun j _ hj => hothers j hj).resolve_left fun hd =>
        absurd ((hdirty.trans hd).symm.trans hclean) nofun
      rw [hsame, hdisk]
      exact hfull
    · rw [hwritten]

end

/-! ## Every run -/

section

variable {disk : LfDisk} {dev lfiblks : ℤ} {dsiz : ℕ} {s : Lfs} {a : Files}

/-- In every run that meets the condition, the directory on disk has all files when none is open. -/
theorem FilesRun.dirFull {A : LfAreas} {s₀ : Lfs} {a₀ : Files} (hr : FilesRun CloseOk s₀ a₀ s a)
    (h₀ : ∃ g, Represents A s₀ a₀ g ∧ DirSaved s₀) (hf : DirFull s₀) : DirFull s := by
  induction hr with
  | start => exact hf
  | step hr hC he ih =>
    obtain ⟨g, hg, -⟩ := hr.represents h₀
    obtain ⟨g', hg', -⟩ := (hr.step hC he).represents h₀
    exact ih.step hg hg' hC he

/-- **The disk holds all files when none is open**, in every run in which the last open file is
closed only when the directory is dirty or has no new file. -/
theorem files_durable (hr : FilesRun CloseOk (.created disk dev lfiblks dsiz) .empty s a)
    (hok : ((Lfs.booted disk).toLfdata.lfscreate dev lfiblks dsiz).2 = OK)
    (hb : HasBlocks lfiblks dsiz) (hsiz : dsiz < 2 ^ 32)
    (hc : s.AllClosed) : Durable s a := by
  obtain ⟨hi, hlt⟩ := hasBlocks_iff.mp hb
  have h₀ := created_represents hok hi (by omega) hsiz
  have hf : DirFull (.created disk dev lfiblks dsiz) := fun hclosed => by
    obtain ⟨g, hg, hs⟩ := h₀
    have hlen := hs.saved (hs.clean hclosed)
    have hnil : (Lfs.created disk dev lfiblks dsiz).data.lf_dir.lfd_files = [] :=
      List.map_eq_nil_iff.mp hg.names.symm
    rw [hlen, hnil]
    dsimp only
    rw [List.take_nil]
  obtain ⟨g, hg, hs⟩ := hr.represents h₀
  exact hg.durable hs (hr.dirFull h₀ hf) hc

/-- Devices behind the last one are not used. -/
theorem Represents.allClosed {A : LfAreas} {g : LfParts}
    (h : Represents A s a g) (hu : ∀ i < Nlfl, (s.lfltab i).lfused = false) : s.AllClosed :=
  fun i => Bool.eq_false_iff.mpr fun hi => absurd (hi.symm.trans (hu i (h.used i hi).1)) nofun

/-- A file is created, a byte is written, and the file is closed. -/
theorem files_durable_byte :
    ∃ s a, smallLfs.runs CloseOk .empty [.lfsopen [97] [119], .lflputc 0 65, .lflclose 0] = some (s, a) ∧
    Durable s a := by
  have hrun : (smallLfs.runs CloseOk .empty [.lfsopen [97] [119], .lflputc 0 65, .lflclose 0]).any
      (fun r => decide (∀ i < Nlfl, (r.1.lfltab i).lfused = false)) = true := by decide +kernel
  obtain ⟨⟨s, a⟩, hs, hclosed⟩ := (Option.any_eq_true _ _).mp hrun
  have hr : FilesRun CloseOk smallLfs .empty s a := .of_runs .start hs
  obtain ⟨g, hg, -⟩ := hr.of_created rfl (by decide) (by decide)
  exact ⟨s, a, hs, files_durable hr rfl (by decide) (by decide) (hg.allClosed (of_decide_eq_true hclosed))⟩

/-- A file that is created and closed at once is not on disk. -/
theorem close_forgets :
    ∃ s a, FilesRun (fun _ _ => True) smallLfs .empty s a ∧ s.AllClosed ∧ ¬ Durable s a := by
  have hrun : (smallLfs.runs (fun _ _ => True) .empty [.lfsopen [97] [119], .lflclose 0]).any (fun r =>
      decide ((∀ i < Nlfl, (r.1.lfltab i).lfused = false) ∧ r.1.disk.dir.lfd_files.length = 0 ∧
        r.2.files.length = 1)) = true := by decide +kernel
  obtain ⟨⟨s, a⟩, hs, hall⟩ := (Option.any_eq_true _ _).mp hrun
  obtain ⟨hclosed, hdisk, hfiles⟩ := of_decide_eq_true hall
  have hr : FilesRun (fun _ _ => True) smallLfs .empty s a := .of_runs .start hs
  obtain ⟨g, hg, -⟩ := hr.of_created rfl (by decide) (by decide)
  refine ⟨s, a, hr, hg.allClosed hclosed, fun hd => ?_⟩
  have hlen := congrArg List.length hd.names
  rw [List.length_map, List.length_map] at hlen
  dsimp only at hdisk hfiles
  omega

end

end Xinu
