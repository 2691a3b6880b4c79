import Xinu.Lfs.FilesSpec

/-!
# Opening a file

`lfsopen` opens, creates or refuses a file when the byte arrays do (`Represents.lfsopen`): its
search of `lfltab` finds whether a file of this name is open, since no two files of the directory
have the same name.
-/

namespace Xinu

/-- The search of `lfltab`: nothing if the name is open, else the first free entry. -/
theorem searchOpen_eq (tab : ℕ → Lflcblk) (name : CString) (is : List ℕ) (lfnext : Option ℕ) :
    LfsTable.searchOpen tab name is lfnext =
    if ∃ i ∈ is, (tab i).lfused = true ∧ (tab i).lfname = name then none
      else some (lfnext.or (is.find? fun i => !(tab i).lfused)) := by
  induction is generalizing lfnext with
  | nil => simp [LfsTable.searchOpen]
  | cons i is ih =>
    unfold LfsTable.searchOpen
    simp only [List.exists_mem_cons_iff, List.find?_cons]
    cases hu : (tab i).lfused with
    | false =>
      simp only [Bool.false_eq_true, not_false_iff, if_true, false_and, false_or, Bool.not_false, ih]
      cases lfnext <;> rfl
    | true =>
      simp only [not_true, if_false, true_and, Bool.not_true, sameName_iff, ih]
      by_cases hn : name = (tab i).lfname
      · rw [if_pos hn, if_pos (.inl hn.symm)]
      · rw [if_neg hn]
        simp only [show ¬ (tab i).lfname = name from fun he => hn he.symm, false_or]

/-- The first name of a list that is the one looked for. -/
def nameIdx (names : List CString) (name : CString) : Option ℕ := names.findIdx? fun n => n = name

/-- The place of a file by its name: nothing if the mode or a full directory forbids it. -/
theorem place_eq (dir : List Ldentry) (o : Opening) : LfsTable.place dir o =
    match nameIdx (dir.map Ldentry.ld_name) o.name with
    | none =>
      if o.mbits &&& LF_MODE_O ≠ 0 ∨ dir.length ≥ LF_NUM_DIR_ENT then none
        else some (dir.length, dir ++ [⟨0, LF_INULL, o.name⟩])
    | some i => if o.mbits &&& LF_MODE_N ≠ 0 then none else some (i, dir) := by
  have hname : (fun ldptr : Ldentry => sameName o.name ldptr.ld_name) =
      (fun n => decide (n = o.name)) ∘ Ldentry.ld_name := by
    funext ldptr
    rw [Bool.eq_iff_iff, sameName_iff]
    simp [eq_comm]
  unfold LfsTable.place nameIdx
  rw [List.findIdx?_map, hname]
  cases dir.findIdx? _ with
  | none =>
    dsimp only
    by_cases hO : o.mbits &&& LF_MODE_O ≠ 0
    · rw [if_pos hO, if_pos (.inl hO)]
    · rw [if_neg hO]
      by_cases hfull : dir.length ≥ LF_NUM_DIR_ENT
      · rw [if_pos hfull, if_pos (.inr hfull)]
      · rw [if_neg hfull, if_neg (by tauto)]
  | some i => rfl

section

variable {A : LfAreas} {s : Lfs} {a : Files} {g : LfParts}
  {d d' : Lfdata} {c c' : LfFile} {f : LfLayout} {i j k : ℕ} {name mode : CString}

/-- A name that is found is at its place. -/
theorem nameIdx_some {names : List CString} (h : nameIdx names name = some k) : names[k]? = some name := by
  obtain ⟨hlt, hk, -⟩ := List.findIdx?_eq_some_iff_getElem.mp h
  rw [List.getElem?_eq_getElem hlt, of_decide_eq_true hk]

/-- A name that is not found is not there. -/
theorem nameIdx_none {names : List CString} (h : nameIdx names name = none) : name ∉ names := fun hm => by
  have := List.findIdx?_eq_none_iff.mp h name hm
  simp at this

/-! ## Reading the directory -/

/-- Reading the directory from the disk changes neither the files nor what is saved of them. -/
theorem Represents.read (h : Represents A s a g) (hs : DirSaved s) :
    Represents A { s with toLfdata := s.data } a g ∧
    DirSaved { s with toLfdata := s.data } ∧ s.data.lf_dirpresent = true := by
  obtain ⟨-, -, hpres, hdisk, hdirty, hdskdev⟩ := Lfdata.present_spec h.valid
  have hdata : Lfs.data { s with toLfdata := s.data } = s.data := Lfs.data_of hpres
  refine ⟨?_, ?_, hpres⟩
  · constructor
    case store => exact hdata.symm ▸ h.store
    case valid => exact hdata.symm ▸ h.valid
    case absent => exact fun hp => absurd (hpres.symm.trans hp) nofun
    case dskdev => exact (hdskdev.symm ▸ h.dskdev : 0 ≤ s.data.lf_dskdev)
    case dev => exact h.dev
    case used => exact h.used
    case name => exact hdata.symm ▸ h.name
    case once => exact h.once
    case closed => exact h.closed
    case nodup => exact hdata.symm ▸ h.nodup
    case names => exact hdata.symm ▸ h.names
    case bytes => exact h.bytes
    case opened => exact h.opened
  · constructor
    · intro hd
      rw [hdata]
      change s.data.disk.dir =
        { s.data.lf_dir with lfd_files := s.data.lf_dir.lfd_files.take s.data.disk.dir.lfd_files.length }
      rw [show s.data.disk = s.disk from hdisk]
      exact hs.saved (hdirty.symm.trans hd)
    · exact fun hno => hdirty.trans (hs.clean hno)

/-! ## The open file -/

/-- A file is open at a device that was free. -/
theorem Represents.opened_at (h : Represents A s a g) (hi : i < Nlfl) (hfree : (s.lfltab i).lfused = false)
    (hk : ∀ j, (s.lfltab j).lfused = true → (s.lfltab j).lfdirptr ≠ k)
    {fs' : List LfLayout} {files' : List ByteFile}
    (hstore : LfStore A d' fs' g.ifree g.dfree (Function.update g.cache k c'))
    (hvalid : d'.lf_dir.lfscheck = true)
    (hpres : d'.lf_dirpresent = true) (hdskdev : 0 ≤ d'.lf_dskdev)
    (hu : c'.lfused = true) (hptr : c'.lfdirptr = k) (hpos : c'.lfpos = 0)
    (hdev : c'.lfdev = LFILE0 + i) (hname : (d'.lf_dir.lfd_files.map Ldentry.ld_name)[k]? = some c'.lfname)
    (hold : ∀ l < g.fs.length, (d'.lf_dir.lfd_files.map Ldentry.ld_name)[l]? =
      (s.data.lf_dir.lfd_files.map Ldentry.ld_name)[l]?)
    (hlen : ∀ l < fs'.length, l ≠ k → l < g.fs.length)
    (hnodup : (d'.lf_dir.lfd_files.map Ldentry.ld_name).Nodup)
    (hnames : files'.map ByteFile.name = d'.lf_dir.lfd_files.map Ldentry.ld_name)
    (hbytes : files'.map ByteFile.bytes = fs'.map LfLayout.bytes) :
    Represents A (s.put i (d', c')) ⟨files', Function.update a.opened i (some (k, 0))⟩
      ⟨fs', g.ifree, g.dfree, Function.update g.cache k c'⟩ := by
  -- The directory in memory is the new one, and the control blocks of the others stay.
  have hdata' : (s.put i (d', c')).data = d' := Lfs.data_of hpres
  constructor
  case store => exact hdata'.symm ▸ hstore
  case valid => exact hdata'.symm ▸ hvalid
  case absent =>
    exact fun hp => by simp [show (s.put i (d', c')).lf_dirpresent = d'.lf_dirpresent from rfl, hpres] at hp
  case dskdev => exact hdskdev
  -- For each part of the representation: the device that has been opened, or another one.
  case dev =>
    intro j
    by_cases hj : j = i
    · subst hj
      rw [Lfs.put_self, hdev]
    · rw [s.put_other _ hj]
      exact h.dev j
  case used =>
    intro j huj
    by_cases hj : j = i
    · subst hj
      rw [Lfs.put_self, hptr]
      exact ⟨hi, Function.update_self ..⟩
    · rw [s.put_other _ hj] at huj ⊢
      exact ⟨(h.used j huj).1, (Function.update_of_ne (hk j huj) _ _).trans (h.used j huj).2⟩
  case name =>
    intro j huj
    rw [hdata']
    by_cases hj : j = i
    · subst hj
      rw [Lfs.put_self, hptr]
      exact hname
    · rw [s.put_other _ hj] at huj ⊢
      have hlt := (List.getElem?_eq_some_iff.mp (h.name j huj)).1
      rw [List.length_map, h.store.length] at hlt
      rw [hold _ hlt]
      exact h.name j huj
  -- No other device has the file, so none has it twice.
  case once =>
    intro j l huj hul hjl
    by_cases hj : j = i <;> by_cases hl : l = i
    · rw [hj, hl]
    · subst hj
      rw [Lfs.put_self, hptr, s.put_other _ hl] at hjl
      rw [s.put_other _ hl] at hul
      exact absurd hjl.symm (hk l hul)
    · subst hl
      rw [Lfs.put_self, hptr, s.put_other _ hj] at hjl
      rw [s.put_other _ hj] at huj
      exact absurd hjl (hk j huj)
    · rw [s.put_other _ hj] at huj hjl
      rw [s.put_other _ hl] at hul hjl
      exact h.once j l huj hul hjl
  -- A file that is not open has no dirty blocks, and this one is open.
  case closed =>
    intro l hl hno
    change (Function.update g.cache k c' l).lfibdirty = false ∧
      (Function.update g.cache k c' l).lfdbdirty = false
    have hlk : l ≠ k := fun he => by
      have := hno i
      rw [Lfs.put_self, hptr] at this
      exact this hu he.symm
    rw [Function.update_of_ne hlk]
    refine h.closed l (hlen l hl hlk) fun j huj => ?_
    by_cases hj : j = i
    · subst hj
      simp [hfree] at huj
    · have := hno j
      rw [s.put_other _ hj] at this
      exact this huj
  case nodup => exact hdata'.symm ▸ hnodup
  case names => exact hdata'.symm ▸ hnames
  case bytes => exact hbytes
  case opened =>
    intro j
    by_cases hj : j = i
    · subst hj
      rw [Lfs.put_self, if_pos hu, hptr, hpos]
      exact Function.update_self ..
    · rw [s.put_other _ hj]
      exact (Function.update_of_ne hj _ _).trans (h.opened j)

/-- A new file in the directory in memory is not on disk yet. -/
theorem DirSaved.opened_at (hs : DirSaved s) (c' : LfFile)
    (hp : s.lf_dirpresent = true) {files : List Ldentry}
    (hfiles : files = s.lf_dir.lfd_files ∨ ∃ e, files = s.lf_dir.lfd_files ++ [e]) (hu : c'.lfused = true) :
    DirSaved (s.put i ({ s.toLfdata with lf_dir := { s.lf_dir with lfd_files := files } }, c')) := by
  have hdata : s.data = s.toLfdata := Lfs.data_of hp
  have hdata' : (s.put i ({ s.toLfdata with lf_dir := { s.lf_dir with lfd_files := files } }, c')).data =
      { s.toLfdata with lf_dir := { s.lf_dir with lfd_files := files } } := Lfs.data_of hp
  constructor
  · intro hd
    have hsaved := hs.saved hd
    rw [hdata] at hsaved
    rw [hdata']
    change s.disk.dir = _
    rw [show (s.put i ({ s.toLfdata with lf_dir := { s.lf_dir with lfd_files := files } }, c')).disk.dir =
      s.disk.dir from rfl]
    rcases hfiles with rfl | ⟨e, rfl⟩
    · exact hsaved
    · have hle := congrArg (fun dir => dir.lfd_files.length) hsaved
      simp only [List.length_take] at hle
      dsimp only
      rw [List.take_append_of_le_length (by omega)]
      exact hsaved
  · intro hno
    have hi := hno i
    rw [show (s.put i ({ s.toLfdata with lf_dir := { s.lf_dir with lfd_files := files } }, c')).lfltab i =
      c' from Function.update_self ..] at hi
    exact absurd (hu.symm.trans hi) nofun

/-! ## `lfsopen` -/

/-- The device that `lfsopen` takes. -/
theorem Represents.freeDevice (h : Represents A s a g) :
    a.freeDevice = (List.range Nlfl).find? fun i => !(s.lfltab i).lfused := by
  unfold Files.freeDevice
  congr 1
  funext i
  rw [h.opened i]
  cases (s.lfltab i).lfused <;> simp

/-- A name is that of a control block in use exactly if its file is open. -/
theorem Represents.isOpen (h : Represents A s a g) (name : CString) :
    (∃ i ∈ List.range Nlfl, (s.lfltab i).lfused = true ∧ (s.lfltab i).lfname = name) ↔
    ∃ k, nameIdx (s.data.lf_dir.lfd_files.map Ldentry.ld_name) name = some k ∧ a.isOpen k := by
  constructor
  · rintro ⟨i, hi, hu, rfl⟩
    have hname := h.name i hu
    cases hk : nameIdx (s.data.lf_dir.lfd_files.map Ldentry.ld_name) (s.lfltab i).lfname with
    | none => exact absurd (List.mem_of_getElem? hname) (nameIdx_none hk)
    | some k =>
      have hlt := (List.getElem?_eq_some_iff.mp hname).1
      have hki : k = (s.lfltab i).lfdirptr :=
        ((List.getElem?_inj hlt h.nodup).mp (hname.trans (nameIdx_some hk).symm)).symm
      refine ⟨k, rfl, i, List.mem_range.mp hi, ?_⟩
      rw [h.opened i, if_pos hu, hki]
      rfl
  · rintro ⟨k, hk, i, hi, hopen⟩
    rw [h.opened i] at hopen
    by_cases hu : (s.lfltab i).lfused = true
    · rw [if_pos hu] at hopen
      obtain rfl : (s.lfltab i).lfdirptr = k := Option.some.inj hopen
      exact ⟨i, List.mem_range.mpr hi, hu, Option.some.inj ((h.name i hu).symm.trans (nameIdx_some hk))⟩
    · rw [if_neg hu] at hopen
      cases hopen

/-- The names of the byte arrays are those of the directory. -/
theorem Represents.nameIdx_files (h : Represents A s a g) :
    (a.files.findIdx? fun f => f.name = name) = nameIdx
      (s.data.lf_dir.lfd_files.map Ldentry.ld_name) name := by
  rw [← h.names, nameIdx, List.findIdx?_map]
  rfl

/-- The control block of a file that has just been opened. -/
def LfFile.setup (c : LfFile) (ldptr mbits : ℕ) (name : CString) : LfFile :=
  { c with
    lfused := true, lfdirptr := ldptr, lfmode := mbits &&& LF_MODE_RW, lfpos := 0, lfname := name
    lfinum := LF_INULL, lfdnum := LF_DNULL, lfbyte := LF_BLKSIZ, lfibdirty := false, lfdbdirty := false }

/-- A file of the directory that is not open is opened. -/
theorem Represents.openOld (h : Represents A s a g) (hs : DirSaved s)
    (hpres : s.lf_dirpresent = true) (hi : i < Nlfl)
    (hfree : (s.lfltab i).lfused = false)
    (hk : nameIdx (s.lf_dir.lfd_files.map Ldentry.ld_name) name = some k) (hnot : ¬ a.isOpen k)
    (mbits : ℕ) : ∃ g', Represents A (s.put i (s.toLfdata, (s.lfltab i).setup k mbits name))
    (a.openAt i k).1 g' ∧
      DirSaved (s.put i (s.toLfdata, (s.lfltab i).setup k mbits name)) ∧ g.Keeps g' none := by
  have hdata : s.data = s.toLfdata := Lfs.data_of hpres
  have hstore := h.store
  have hname := nameIdx_some hk
  have hlt := (List.getElem?_eq_some_iff.mp hname).1
  rw [List.length_map] at hlt
  rw [hdata] at hstore
  have hf : g.fs[k]? = some _ := List.getElem?_eq_getElem (hstore.length ▸ hlt)
  -- nothing of the file is in memory
  have hno : ∀ j, (s.lfltab j).lfused = true → (s.lfltab j).lfdirptr ≠ k := fun j huj he => by
    refine hnot ⟨j, (h.used j huj).1, ?_⟩
    rw [h.opened j, if_pos huj, he]
    rfl
  obtain ⟨hib, hdb⟩ := h.closed k (hstore.length ▸ hlt) hno
  have hptr := (hstore.entry k _ hf).1
  have halone : Alone s.toLfdata ((s.lfltab i).setup k mbits name) ⟨_, g.ifree, g.dfree⟩ :=
    (hstore.alone hf).blank hib hdb rfl rfl rfl rfl rfl rfl hptr.symm
  have hstore' := hstore.call hf halone (.refl ..) rfl (hstore.tight k _ hf)
  rw [show g.fs.set k _ = g.fs from List.set_getElem_self _] at hstore'
  refine ⟨_, h.opened_at hi hfree hno hstore' (hdata ▸ h.valid) hpres h.dskdev rfl rfl rfl
    (h.dev i) hname (fun l _ => by rw [hdata])
    (fun l hl _ => hl) (hdata ▸ h.nodup) (hdata ▸ h.names) h.bytes, ?_, fun _ _ _ => rfl⟩
  exact hs.opened_at ((s.lfltab i).setup k mbits name) hpres (.inl rfl) rfl

/-- Opening a new file puts it behind the others, empty, and keeps them. -/
theorem Represents.openNew (h : Represents A s a g) (hs : DirSaved s)
    (hpres : s.lf_dirpresent = true) (hi : i < Nlfl)
    (hfree : (s.lfltab i).lfused = false) (hk : nameIdx (s.lf_dir.lfd_files.map Ldentry.ld_name) name = none)
    (mbits : ℕ) :
    ∃ g', Represents A
        (s.put i ({ s.toLfdata with
            lf_dir := { s.lf_dir with lfd_files := s.lf_dir.lfd_files ++ [⟨0, LF_INULL, name⟩] } },
          (s.lfltab i).setup s.lf_dir.lfd_files.length mbits name))
        (Files.openAt { a with files := a.files ++ [⟨name, []⟩] } i a.files.length).1 g' ∧
      DirSaved (s.put i ({ s.toLfdata with
            lf_dir := { s.lf_dir with lfd_files := s.lf_dir.lfd_files ++ [⟨0, LF_INULL, name⟩] } },
          (s.lfltab i).setup s.lf_dir.lfd_files.length mbits name)) ∧ g.Keeps g' none := by
  have hdata : s.data = s.toLfdata := Lfs.data_of hpres
  have hstore := h.store
  have hnames := h.names
  have hnodup := h.nodup
  rw [hdata] at hstore hnames hnodup
  -- The entry of the new file is the next one behind those of the directory.
  have hfiles : a.files.length = s.lf_dir.lfd_files.length := by
    have := congrArg List.length hnames
    rwa [List.length_map, List.length_map] at this
  have hlen := hstore.length
  have hno : ∀ j, (s.lfltab j).lfused = true → (s.lfltab j).lfdirptr ≠ s.lf_dir.lfd_files.length :=
    fun j huj he => by
    have hlt := (List.getElem?_eq_some_iff.mp (h.name j huj)).1
    rw [hdata, List.length_map] at hlt
    omega
  have hmap : (s.lf_dir.lfd_files ++ [(⟨0, LF_INULL, name⟩ : Ldentry)]).map Ldentry.ld_name =
      s.lf_dir.lfd_files.map Ldentry.ld_name ++ [name] := by
    rw [List.map_append]
    rfl
  -- The store gets an empty file without blocks.
  have hstore' :
      LfStore A
      { s.toLfdata with lf_dir := { s.lf_dir with lfd_files := s.lf_dir.lfd_files ++ [⟨0, LF_INULL, name⟩] } }
      _ _ _
      (Function.update g.cache g.fs.length ((s.lfltab i).setup s.lf_dir.lfd_files.length mbits name)) :=
    hstore.append rfl rfl hlen (.nil s.disk rfl rfl rfl rfl rfl rfl)
  rw [← hlen] at hstore'
  rw [hfiles]
  -- The parts that have to do with names: the new one is behind the others, and none of them.
  refine ⟨_, h.opened_at hi hfree hno hstore' (hdata ▸ h.valid : s.lf_dir.lfscheck = true)
    hpres h.dskdev rfl rfl rfl (h.dev i) ?_ (fun l hl => ?_)
    (fun l hl hne => ?_) ?_ ?_ ?_, ?_, fun j hj _ => List.getElem?_append_left hj⟩
  · dsimp only
    rw [hmap, List.getElem?_append_right (by rw [List.length_map]), List.length_map, Nat.sub_self]
    rfl
  · dsimp only
    rw [hmap, hdata, List.getElem?_append_left (by rw [List.length_map, hlen]; exact hl)]
  · rw [List.length_append, List.length_singleton] at hl
    omega
  · dsimp only
    rw [hmap]
    exact List.nodup_append'.mpr ⟨hnodup, List.nodup_singleton _,
      fun n hn hn' => nameIdx_none hk (List.mem_singleton.mp hn' ▸ hn)⟩
  · dsimp only
    rw [hmap, List.map_append, hnames]
    rfl
  · rw [List.map_append, List.map_append, h.bytes]
    rfl
  · exact hs.opened_at _ hpres (.inr ⟨_, rfl⟩) rfl

/-- `lfsopen` opens, creates or refuses a file when the byte arrays do. -/
theorem Represents.lfsopen (h : Represents A s a g) (hs : DirSaved s) (name mode : CString) : ∃ g',
    (s.lfsopen name mode).2 = (a.lfsopen name mode).2 ∧ Represents A
      (s.lfsopen name mode).1 (a.lfsopen name mode).1 g' ∧
    DirSaved (s.lfsopen name mode).1 ∧ g.Keeps g' none := by
  obtain ⟨-, hok, -⟩ := Lfdata.present_spec h.valid
  obtain ⟨h₁, hs₁, hpres⟩ := h.read hs
  have hopen := h.isOpen name
  unfold Lfs.lfsopen Files.lfsopen
  rw [if_neg (not_lt.mpr h.dskdev), searchOpen_eq, h.freeDevice]
  -- when it is refused, nothing has changed but that the directory may have been read
  have hno : ∃ g', ((s, SYSERR) : Lfs × ℤ).2 = ((a, SYSERR) : Files × ℤ).2 ∧
    Represents A (s, SYSERR).1 (a, SYSERR).1 g' ∧
    DirSaved ((s, SYSERR) : Lfs × ℤ).1 ∧ g.Keeps g' none := ⟨g, rfl, h, hs, .refl g _⟩
  by_cases hlen : name.length ≥ LF_NAME_LEN
  · rw [if_pos hlen]
    cases lfgetmode mode with
    | none => exact hno
    | some mbits =>
      cases (List.range Nlfl).find? fun i => !(s.lfltab i).lfused with
      | none => exact hno
      | some i =>
        dsimp only
        rw [if_pos hlen]
        exact hno
  rw [if_neg hlen]
  cases lfgetmode mode with
  | none => exact hno
  | some mbits =>
    cases hdev : (List.range Nlfl).find? fun i => !(s.lfltab i).lfused with
    | none =>
      split_ifs
      · exact hno
      · exact hno
    | some i =>
      have hi : i < Nlfl := List.mem_range.mp (List.mem_of_find?_eq_some hdev)
      have hfree : (s.lfltab i).lfused = false := by
        have := List.find?_some hdev
        simpa using this
      dsimp only
      rw [if_neg hlen, h.nameIdx_files]
      by_cases he : ∃ i ∈ List.range Nlfl, (s.lfltab i).lfused = true ∧ (s.lfltab i).lfname = name
      · obtain ⟨k, hk, hko⟩ := hopen.mp he
        rw [if_pos he, hk]
        dsimp only
        rw [if_pos (.inl hko)]
        exact hno
      rw [if_neg he, Option.none_or]
      dsimp only
      rw [if_neg (not_not.mpr hok), place_eq, show s.toLfdata.present.1 = s.data from rfl]
      dsimp only
      cases hk : nameIdx (s.data.lf_dir.lfd_files.map Ldentry.ld_name) name with
      | none =>
        have hfiles := congrArg List.length h.names
        rw [List.length_map, List.length_map] at hfiles
        dsimp only
        rw [hfiles]
        by_cases hfull : mbits &&& LF_MODE_O ≠ 0 ∨ s.data.lf_dir.lfd_files.length ≥ LF_NUM_DIR_ENT
        · rw [if_pos hfull, if_pos hfull]
          exact ⟨g, rfl, h₁, hs₁, .refl g _⟩
        · rw [if_neg hfull, if_neg hfull]
          obtain ⟨g', hg', hsaved, hkeeps⟩ := h₁.openNew hs₁ hpres hi hfree hk mbits
          rw [hfiles] at hg'
          exact ⟨g', h.dev i, hg', hsaved, hkeeps⟩
      | some k =>
        have hnot : ¬ a.isOpen k := fun hko => he (hopen.mpr ⟨k, hk, hko⟩)
        dsimp only
        by_cases hN : mbits &&& LF_MODE_N ≠ 0
        · rw [if_pos hN, if_pos (.inr hN)]
          exact ⟨g, rfl, h₁, hs₁, .refl g _⟩
        · rw [if_neg hN, if_neg (not_or.mpr ⟨hnot, hN⟩)]
          obtain ⟨g', hg', hsaved, hkeeps⟩ := h₁.openOld hs₁ hpres hi hfree hk hnot mbits
          exact ⟨g', h.dev i, hg', hsaved, hkeeps⟩

end

end Xinu
