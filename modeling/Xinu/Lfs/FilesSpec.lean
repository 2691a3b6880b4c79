import Xinu.Lfs.Store
import Xinu.Lfs.OpenSpec

/-!
# The local file system refines byte arrays

The files of the local file system and the byte arrays that they stand for (`Represents`), which
every call keeps (`Represents.exec`). With it goes what is known about the directory on disk
(`DirSaved`).
-/

namespace Xinu

/-! ## The relation -/

/-- The data of the file system as the next `lfsopen` finds it, with the directory in memory. -/
def Lfs.data (s : Lfs) : Lfdata := s.toLfdata.present.1

/-- Where the files are. -/
structure LfParts where
  /-- The blocks and bytes of each file. -/
  fs : List LfLayout
  /-- The free index blocks. -/
  ifree : List ℤ
  /-- The free data blocks. -/
  dfree : List ℤ
  /-- A control block for each file. -/
  cache : ℕ → LfFile

/-- The files stay with all their blocks, except one. -/
def LfParts.Keeps (g g' : LfParts) (k : Option ℕ) : Prop :=
  ∀ j < g.fs.length, some j ≠ k → g'.fs[j]? = g.fs[j]?

/-- All files stay. -/
theorem LfParts.Keeps.refl (g : LfParts) (k : Option ℕ) : g.Keeps g k := fun _ _ _ => rfl

/-- If all files stay, then all except one. -/
theorem LfParts.Keeps.mono {g g' : LfParts} {k : Option ℕ} (h : g.Keeps g' none) : g.Keeps g' k :=
  fun j hj _ => h j hj nofun

/-- The file system has these files, and they are open as these control blocks say. -/
structure Represents (A : LfAreas) (s : Lfs) (a : Files) (g : LfParts) : Prop where
  /-- The files and the free blocks are in order on the disk. -/
  store : LfStore A s.data g.fs g.ifree g.dfree g.cache
  /-- The directory passes its check. -/
  valid : s.data.lf_dir.lfscheck = true
  /-- No file is open before the directory is present. -/
  absent : s.lf_dirpresent = false → ∀ i, (s.lfltab i).lfused = false
  /-- The device of the disk is one. -/
  dskdev : 0 ≤ s.lf_dskdev
  /-- Each control block has its own device. -/
  dev : ∀ i, (s.lfltab i).lfdev = LFILE0 + i
  /-- A control block in use is that of its file. -/
  used : ∀ i, (s.lfltab i).lfused = true → i < Nlfl ∧ g.cache (s.lfltab i).lfdirptr = s.lfltab i
  /-- It has the name of the entry. -/
  name : ∀ i, (s.lfltab i).lfused = true →
    (s.data.lf_dir.lfd_files.map Ldentry.ld_name)[(s.lfltab i).lfdirptr]? = some (s.lfltab i).lfname
  /-- No file is open twice. -/
  once : ∀ i j, (s.lfltab i).lfused = true → (s.lfltab j).lfused = true →
    (s.lfltab i).lfdirptr = (s.lfltab j).lfdirptr → i = j
  /-- Nothing is left to be written of a file that is not open. -/
  closed : ∀ k < g.fs.length, (∀ i, (s.lfltab i).lfused = true → (s.lfltab i).lfdirptr ≠ k) →
    (g.cache k).lfibdirty = false ∧ (g.cache k).lfdbdirty = false
  /-- The names are different. -/
  nodup : (s.data.lf_dir.lfd_files.map Ldentry.ld_name).Nodup
  /-- They are those of the files. -/
  names : a.files.map ByteFile.name = s.data.lf_dir.lfd_files.map Ldentry.ld_name
  /-- The bytes are those of the files. -/
  bytes : a.files.map ByteFile.bytes = g.fs.map LfLayout.bytes
  /-- What is open, and the positions, are those of the files. -/
  opened : ∀ i, a.opened i = if (s.lfltab i).lfused then some
    ((s.lfltab i).lfdirptr, (s.lfltab i).lfpos) else none

/-- If the directory is not dirty, the one on disk lacks at most files at its end; and it is not
dirty when no file is open. -/
structure DirSaved (s : Lfs) : Prop where
  /-- The directory on disk is the one in memory, perhaps without files at the end. -/
  saved : s.lf_dirdirty = false →
    s.disk.dir = { s.data.lf_dir with lfd_files := s.data.lf_dir.lfd_files.take s.disk.dir.lfd_files.length }
  /-- When no file is open, the directory is not dirty. -/
  clean : (∀ i, (s.lfltab i).lfused = false) → s.lf_dirdirty = false

/-! ## The directory in memory -/

section

variable {d d' : Lfdata} {s : Lfs}

/-- A directory that is present is used as it is. -/
theorem Lfs.data_of (hp : s.lf_dirpresent = true) : s.data = s.toLfdata := congrArg Prod.fst (if_pos hp)

/-- The directory that has been read is present, if it is that of a file system. -/
theorem Lfdata.present_spec (hv : d.present.1.lf_dir.lfscheck = true) :
    (d.lf_dirpresent = true → d.present.1 = d) ∧
    d.present.2 = true ∧ d.present.1.lf_dirpresent = true ∧
    d.present.1.disk = d.disk ∧ d.present.1.lf_dirdirty = d.lf_dirdirty ∧
    d.present.1.lf_dskdev = d.lf_dskdev := by
  unfold present at hv ⊢
  by_cases hp : d.lf_dirpresent = true
  · rw [if_pos hp]
    exact ⟨fun _ => rfl, rfl, hp, rfl, rfl, rfl⟩
  rw [if_neg hp] at hv ⊢
  by_cases hc : d.disk.dir.lfscheck = true
  · rw [if_neg (not_not.mpr hc)]
    exact ⟨fun h => absurd h hp, rfl, rfl, rfl, rfl, rfl⟩
  · rw [if_pos hc] at hv
    exact absurd hv hc

end

/-! ## Calls on an open file -/

section

variable {A : LfAreas} {s : Lfs} {a : Files} {g : LfParts}
  {d d' : Lfdata} {c c' : LfFile} {x x' : LfAlloc} {f : LfLayout} {i j k : ℕ}

/-- A directory that was written, or is as before, is on disk except for files at its end. -/
theorem Written.saved (hw : Written d d')
    (hs : d.lf_dirdirty = false → d.disk.dir =
      { d.lf_dir with lfd_files := d.lf_dir.lfd_files.take d.disk.dir.lfd_files.length })
    (hd : d'.lf_dirdirty = false) : d'.disk.dir =
      { d'.lf_dir with lfd_files := d'.lf_dir.lfd_files.take d'.disk.dir.lfd_files.length } := by
  rcases hw with ⟨hdir, hdisk, hdirty⟩ | hw
  · rw [hdir, hdisk]
    exact hs (hdirty ▸ hd)
  · rw [hw, List.take_length]

namespace Represents

/-- When a file is open, the directory is present. -/
theorem data_eq (h : Represents A s a g) (hu : (s.lfltab i).lfused = true) :
    s.data = s.toLfdata ∧ s.lf_dirpresent = true := by
  have hp : s.lf_dirpresent = true := Bool.of_not_eq_false fun hp => by simp [h.absent hp i] at hu
  exact ⟨(Lfdata.present_spec h.valid).1 hp, hp⟩

/-- The file that is open at a device. -/
theorem file (h : Represents A s a g) (hu : (s.lfltab i).lfused = true) :
    ∃ f, g.fs[(s.lfltab i).lfdirptr]? = some f ∧
    Alone s.toLfdata (s.lfltab i) ⟨f, g.ifree, g.dfree⟩ := by
  have hlt := (List.getElem?_eq_some_iff.mp (h.name i hu)).1
  rw [List.length_map, h.store.length] at hlt
  refine ⟨_, List.getElem?_eq_getElem hlt, ?_⟩
  have halone := h.store.alone (List.getElem?_eq_getElem hlt)
  rwa [(h.used i hu).2, (h.data_eq hu).1] at halone

/-- What an operation does with the byte array. -/
theorem onStream (h : Represents A s a g) (hu : (s.lfltab i).lfused = true)
    (hf : g.fs[(s.lfltab i).lfdirptr]? = some f)
    (op : ByteStream → ByteStream × ℤ) : a.onStream i op =
      (⟨a.files.modify (s.lfltab i).lfdirptr fun b =>
        { b with bytes := (op ⟨f.bytes, (s.lfltab i).lfpos⟩).1.bytes },
        Function.update a.opened i (some ((s.lfltab i).lfdirptr, (op ⟨f.bytes, (s.lfltab i).lfpos⟩).1.pos))⟩,
        (op ⟨f.bytes, (s.lfltab i).lfpos⟩).2) := by
  have hbytes : (a.files[(s.lfltab i).lfdirptr]?).map ByteFile.bytes = some f.bytes := by
    rw [← List.getElem?_map, h.bytes, List.getElem?_map, hf, Option.map_some]
  unfold Files.onStream
  rw [h.opened i, if_pos hu]
  dsimp only
  rw [hbytes, Option.getD_some]

/-- When the bytes of one file change, its name and the other files stay. -/
theorem map_modify {files : List ByteFile} {fs : List LfLayout}
    (hb : files.map ByteFile.bytes = fs.map LfLayout.bytes) (f' : LfLayout) :
    (files.modify k fun b => { b with bytes := f'.bytes }).map ByteFile.name = files.map ByteFile.name ∧
    (files.modify k fun b => { b with bytes := f'.bytes }).map ByteFile.bytes =
      (fs.set k f').map LfLayout.bytes := by
  have hlen := congrArg List.length hb
  rw [List.length_map, List.length_map] at hlen
  have hget : ∀ j, files[j]?.map ByteFile.bytes = fs[j]?.map LfLayout.bytes := fun j => by
    rw [← List.getElem?_map, hb, List.getElem?_map]
  constructor
  · refine List.ext_getElem? fun j => ?_
    rw [List.getElem?_map, List.getElem?_map, List.getElem?_modify]
    cases files[j]? with
    | none => rfl
    | some b =>
      simp only [Option.map_some, Option.map_eq_map]
      split_ifs <;> rfl
  · refine List.ext_getElem? fun j => ?_
    rw [List.getElem?_map, List.getElem?_map, List.getElem?_modify, List.getElem?_set]
    split_ifs with hj hlt
    · subst hj
      rw [List.getElem?_eq_getElem (hlen ▸ hlt)]
      rfl
    · subst hj
      rw [List.getElem?_eq_none (by omega)]
      rfl
    · rw [← hget]
      cases files[j]? <;> rfl

/-- A call on an open file keeps the representation, if it does what it should on that file alone.
-/
theorem call (h : Represents A s a g) (hu : (s.lfltab i).lfused = true)
    (hf : g.fs[(s.lfltab i).lfdirptr]? = some f)
    (op : ByteStream → ByteStream × ℤ) (hok : CallOk s.toLfdata
      (s.lfltab i) ⟨f, g.ifree, g.dfree⟩ d' c' x' (op ⟨f.bytes, (s.lfltab i).lfpos⟩).1) :
    Represents A (s.put i (d', c')) (a.onStream i op).1
      ⟨g.fs.set (s.lfltab i).lfdirptr x'.toLfLayout, x'.ifree,
        x'.dfree, Function.update g.cache (s.lfltab i).lfdirptr c'⟩ := by
  obtain ⟨hdata, hpres⟩ := h.data_eq hu
  have hstore := h.store
  have hname := h.name
  have hnames := h.names
  have hnodup := h.nodup
  have hvalid := h.valid
  rw [hdata] at hstore hname hnames hnodup hvalid
  have hpres' : d'.lf_dirpresent = true := hok.moved.present.trans hpres
  have hdata' : (s.put i (d', c')).data = d' := Lfs.data_of hpres'
  -- the devices in use are the same
  have hused : ∀ j, ((s.put i (d', c')).lfltab j).lfused = (s.lfltab j).lfused ∧
      ((s.put i (d', c')).lfltab j).lfdirptr = (s.lfltab j).lfdirptr ∧
        ((s.put i (d', c')).lfltab j).lfname = (s.lfltab j).lfname ∧
      ((s.put i (d', c')).lfltab j).lfdev = (s.lfltab j).lfdev := fun j => by
    by_cases hj : j = i
    · subst hj
      rw [Lfs.put_self]
      exact ⟨hok.used, hok.dirptr, hok.name, hok.dev⟩
    · rw [s.put_other _ hj]
      exact ⟨rfl, rfl, rfl, rfl⟩
  rw [h.onStream hu hf, ← hok.stream]
  constructor
  case store =>
    rw [hdata']
    exact hstore.call hf hok.alone hok.moved hok.dirptr (hok.tight (hstore.tight _ f hf))
  case valid =>
    rw [hdata', hok.moved.valid]
    exact hvalid
  case absent =>
    exact fun hp => by simp [show (s.put i (d', c')).lf_dirpresent = d'.lf_dirpresent from rfl, hpres'] at hp
  case dskdev => exact (hok.moved.dskdev ▸ h.dskdev : 0 ≤ d'.lf_dskdev)
  case dev => exact fun j => (hused j).2.2.2.trans (h.dev j)
  case used =>
    intro j huj
    rw [(hused j).1] at huj
    refine ⟨(h.used j huj).1, ?_⟩
    rw [(hused j).2.1]
    by_cases hj : j = i
    · subst hj
      rw [Lfs.put_self]
      exact Function.update_self ..
    · rw [s.put_other _ hj]
      exact (Function.update_of_ne (fun he => hj (h.once j i huj hu he)) _ _).trans (h.used j huj).2
  case name =>
    intro j huj
    rw [(hused j).1] at huj
    rw [hdata', (hused j).2.1, (hused j).2.2.1, hok.moved.names]
    exact hname j huj
  case once =>
    intro j l huj hul
    rw [(hused j).1] at huj
    rw [(hused l).1] at hul
    rw [(hused j).2.1, (hused l).2.1]
    exact h.once j l huj hul
  case closed =>
    intro k hk hno
    have hno' : ∀ j, (s.lfltab j).lfused = true → (s.lfltab j).lfdirptr ≠ k := fun j huj => by
      have := hno j
      rw [(hused j).1, (hused j).2.1] at this
      exact this huj
    change (Function.update g.cache _ c' k).lfibdirty = false ∧
      (Function.update g.cache _ c' k).lfdbdirty = false
    rw [Function.update_of_ne (Ne.symm (hno' i hu))]
    rw [List.length_set] at hk
    exact h.closed k hk hno'
  case nodup =>
    rw [hdata', hok.moved.names]
    exact hnodup
  case names =>
    rw [hdata', hok.moved.names]
    exact (map_modify h.bytes x'.toLfLayout).1.trans hnames
  case bytes => exact (map_modify h.bytes x'.toLfLayout).2
  case opened =>
    intro j
    rw [(hused j).1, (hused j).2.1]
    by_cases hj : j = i
    · subst hj
      rw [Lfs.put_self, if_pos hu]
      exact Function.update_self ..
    · rw [s.put_other _ hj]
      exact (Function.update_of_ne hj _ _).trans (h.opened j)

end Represents

/-- After a call on an open file the directory is saved, or marked as not saved. -/
theorem DirSaved.call (h : Represents A s a g) (hs : DirSaved s)
    (hu : (s.lfltab i).lfused = true) (hp : d'.lf_dirpresent = s.lf_dirpresent)
    (hw : Written s.toLfdata d' ∨ d'.lf_dirdirty = true) (hc : c'.lfused = true ∨ d'.lf_dirdirty = false) :
    DirSaved (s.put i (d', c')) := by
  obtain ⟨hdata, hpres⟩ := h.data_eq hu
  have hdata' : (s.put i (d', c')).data = d' := Lfs.data_of (hp.trans hpres)
  have hsaved := hs.saved
  rw [hdata] at hsaved
  constructor
  · intro hd
    have hd : d'.lf_dirdirty = false := hd
    rw [hdata']
    exact (hw.resolve_right (by simp [hd])).saved hsaved hd
  · intro hno
    have hi := hno i
    rw [show (s.put i (d', c')).lfltab i = c' from Function.update_self ..] at hi
    exact hc.resolve_left (by simp [hi])

/-! ## Closing -/

/-- A file is closed: its control block has nothing that is not on disk. -/
theorem Represents.close (h : Represents A s a g) (hs : DirSaved s) (hu : (s.lfltab i).lfused = true) :
    ∃ r g', s.toLfdata.lflclose (s.lfltab i) = (r, OK) ∧
      Represents A (s.put i r) { a with opened := Function.update a.opened i none } g' ∧
      DirSaved (s.put i r) ∧ g.Keeps g' none := by
  obtain ⟨hdata, hpres⟩ := h.data_eq hu
  obtain ⟨f, hf, halone⟩ := h.file hu
  obtain ⟨d', c', hclose, halone', hmoved, hib, hdb, hunused, hptr, hdev, hwritten, hclean, hdir⟩ :=
    halone.lflclose hu
  have hstore := h.store
  have hname := h.name
  have hnames := h.names
  have hnodup := h.nodup
  have hvalid := h.valid
  rw [hdata] at hstore hname hnames hnodup hvalid
  have hpres' : d'.lf_dirpresent = true := hmoved.present.trans hpres
  have hdata' : (s.put i (d', c')).data = d' := Lfs.data_of hpres'
  -- the other devices in use are the same
  have hused : ∀ j, ((s.put i (d', c')).lfltab j).lfused = true → j ≠ i ∧ (s.lfltab j).lfused = true :=
    fun j huj => by
    by_cases hj : j = i
    · subst hj
      rw [Lfs.put_self] at huj
      exact absurd (huj.symm.trans hunused) nofun
    · rw [s.put_other _ hj] at huj
      exact ⟨hj, huj⟩
  have hset : g.fs.set (s.lfltab i).lfdirptr f = g.fs := by
    obtain ⟨hlt, rfl⟩ := List.getElem?_eq_some_iff.mp hf
    exact List.set_getElem_self hlt
  have hstore' := hstore.call hf halone' hmoved hptr (hstore.tight _ f hf)
  dsimp only at hstore'
  rw [hset] at hstore'
  refine ⟨(d', c'), ⟨g.fs, g.ifree, g.dfree, Function.update g.cache (s.lfltab i).lfdirptr c'⟩, hclose, ?_,
    hs.call h hu hmoved.present (.inl hwritten) (.inr hclean), fun _ _ _ => rfl⟩
  constructor
  case store =>
    rw [hdata']
    exact hstore'
  case valid =>
    rw [hdata', hdir]
    exact hvalid
  case absent =>
    exact fun hp => by simp [show (s.put i (d', c')).lf_dirpresent = d'.lf_dirpresent from rfl, hpres'] at hp
  case dskdev => exact (hmoved.dskdev ▸ h.dskdev : 0 ≤ d'.lf_dskdev)
  case dev =>
    intro j
    by_cases hj : j = i
    · subst hj
      rw [Lfs.put_self]
      exact hdev.trans (h.dev j)
    · rw [s.put_other _ hj]
      exact h.dev j
  case used =>
    intro j huj
    obtain ⟨hj, huj⟩ := hused j huj
    rw [s.put_other _ hj]
    exact ⟨(h.used j huj).1, (Function.update_of_ne (fun he => hj (h.once j i huj hu he)) _ _).trans
      (h.used j huj).2⟩
  case name =>
    intro j huj
    obtain ⟨hj, huj⟩ := hused j huj
    rw [hdata', hdir, s.put_other _ hj]
    exact hname j huj
  case once =>
    intro j l huj hul
    obtain ⟨hj, huj⟩ := hused j huj
    obtain ⟨hl, hul⟩ := hused l hul
    rw [s.put_other _ hj, s.put_other _ hl]
    exact h.once j l huj hul
  case closed =>
    intro k hk hno
    change (Function.update g.cache _ c' k).lfibdirty = false ∧
      (Function.update g.cache _ c' k).lfdbdirty = false
    by_cases hkk : k = (s.lfltab i).lfdirptr
    · rw [hkk, Function.update_self]
      exact ⟨hib, hdb⟩
    · rw [Function.update_of_ne hkk]
      refine h.closed k hk fun j huj => ?_
      by_cases hj : j = i
      · exact hj ▸ Ne.symm hkk
      · have := hno j
        rw [s.put_other _ hj] at this
        exact this huj
  case nodup =>
    rw [hdata', hdir]
    exact hnodup
  case names =>
    rw [hdata', hdir]
    exact hnames
  case bytes => exact h.bytes
  case opened =>
    intro j
    by_cases hj : j = i
    · subst hj
      rw [Lfs.put_self, if_neg (by rw [hunused]; exact nofun)]
      exact Function.update_self ..
    · rw [s.put_other _ hj]
      exact (Function.update_of_ne hj _ _).trans (h.opened j)

end

end Xinu
