import Xinu.Lfs.SetupSpec

/-!
# What the calls on a file do

`lflgetc`, `lflputc`, `lflseek` and `lflclose` do with the bytes and the position what `ByteStream`
says, and keep `Alone`.
-/

namespace Xinu

/-- A byte list with a byte written at some place, or behind its end. -/
theorem getElem?_written {bytes : List UInt8} {p : ℕ} (hp : p ≤ bytes.length) (ch : UInt8) (i : ℕ) :
    (bytes.take p ++ ch :: bytes.drop (p + 1))[i]? = if i = p then some ch else bytes[i]? := by
  have hlen : (bytes.take p).length = p := List.length_take_of_le hp
  rcases Nat.lt_trichotomy i p with hlt | rfl | hgt
  · rw [List.getElem?_append_left (by omega), List.getElem?_take_of_lt hlt, if_neg (by omega)]
  · rw [List.getElem?_append_right (by omega), hlen, Nat.sub_self, if_pos rfl]
    rfl
  · rw [List.getElem?_append_right (by omega), hlen, if_neg (by omega)]
    obtain ⟨k, rfl⟩ : ∃ k, i = p + k + 1 := ⟨i - p - 1, by omega⟩
    rw [show p + k + 1 - p = k + 1 by omega, List.getElem?_cons_succ, List.getElem?_drop]
    congr 1
    omega

/-- A byte that is written over one of the file, or behind the last, makes it as long as needed. -/
theorem length_written {bytes : List UInt8} {p : ℕ} (hp : p ≤ bytes.length) (ch : UInt8) :
    (bytes.take p ++ ch :: bytes.drop (p + 1)).length = max bytes.length (p + 1) := by
  simp only [List.length_append, List.length_take, List.length_cons, List.length_drop]
  omega

/-- An index block does not depend on the bytes. -/
theorem LfLayout.IsIndex.with_bytes {f : LfLayout} {k : ℕ}
    {ib : Lfiblk} (h : f.IsIndex k ib) (bytes : List UInt8) :
    IsIndex { f with bytes := bytes } k ib := ⟨h.next, h.offset, h.dba⟩

/-- A call on an open file: what it returns and does with the file is what is expected, and it marks
what it changes in the directory. -/
structure CallOk (d : Lfdata) (c : LfFile) (x : LfAlloc)
    (d' : Lfdata) (c' : LfFile) (x' : LfAlloc) (f : ByteStream) : Prop where
  /-- The file and the free lists are in order again. -/
  alone : Alone d' c' x'
  /-- Only blocks of the file and free blocks have changed. -/
  moved : LfMoved d d' c.lfdirptr x x'
  /-- Bytes and position are as expected. -/
  stream : ⟨x'.bytes, c'.lfpos⟩ = f
  /-- The control block is in use as before. -/
  used : c'.lfused = c.lfused
  /-- It is that of the same entry of the directory. -/
  dirptr : c'.lfdirptr = c.lfdirptr
  /-- It has the same name. -/
  name : c'.lfname = c.lfname
  /-- It has the same device. -/
  dev : c'.lfdev = c.lfdev
  /-- A directory that has changed is marked as dirty. -/
  written : Written d d' ∨ d'.lf_dirdirty = true
  /-- An empty file without blocks gets blocks only with bytes. -/
  tight : (x.bytes = [] → x.ids = []) → x'.bytes = [] → x'.ids = []

namespace Alone

variable {d d' : Lfdata} {c c' : LfFile} {x x' : LfAlloc} {b : ℤ} {k m n : ℕ}

/-- `lfsetup` runs if the position is not in the data block in memory. -/
theorem setupIf (h : Alone d c x) (hu : c.lfused = true) :
    (d.setupIf c = none ∧ (x.ifree = [] ∨ x.dfree = []) ∧ c.lfpos = x.bytes.length) ∨
    ∃ d' c' x', d.setupIf c = some (d', c') ∧ SetupStep d c x d' c' x' ∧
    c'.lfbyte < LF_BLKSIZ ∧ Written d d' ∧
      (c.lfpos < x.bytes.length → x' = x) := by
  unfold Lfdata.setupIf
  split_ifs with hbyte
  · exact h.lfsetup hu hbyte
  · exact .inr ⟨d, c, x, rfl, ⟨h, .refl .., rfl, .refl c⟩, not_le.mp hbyte, .refl d, fun _ => rfl⟩

/-- The bytes of the data block in memory. -/
theorem dblock (h : Alone d c x) (hbyte : c.lfbyte < LF_BLKSIZ) :
    c.lfbyte = c.lfpos % LF_BLKSIZ ∧ c.lfdnum ≠ LF_DNULL ∧
    x.blocks[c.lfpos / LF_BLKSIZ]? = some c.lfdnum ∧ x.IsData (c.lfpos / LF_BLKSIZ) c.lfdblock := by
  obtain ⟨hb, hm⟩ := h.cached.byte hbyte
  have hne := h.block_ne hm
  obtain ⟨j, hj, hdata⟩ := h.cached.dnum.resolve_left hne
  exact ⟨hb, hne, hm, h.block_index hm hj ▸ hdata⟩

/-- The file has room for a byte at its position, so that no number overflows. -/
theorem size_lt (h : Alone d c x) (hbyte : c.lfbyte < LF_BLKSIZ) :
    max x.bytes.length (c.lfpos + 1) ≤ LF_BLKSIZ * x.blocks.length ∧
    LF_BLKSIZ * x.blocks.length < 2 ^ 32 := by
  have hm := (List.getElem?_eq_some_iff.mp (h.dblock hbyte).2.2.1).1
  have hbytes := h.cached.bytes_le
  have hroom := h.blocks_room
  rw [List.length_append] at hroom
  dsimp only [LF_BLKSIZ] at hm hbytes hroom ⊢
  omega

/-- A byte is put into the data block. -/
theorem putByte (h : Alone d c x) (hbyte : c.lfbyte < LF_BLKSIZ) (ch : UInt8) :
    CallOk d c x (d.putByte c ch).1 (d.putByte c ch).2
      { x with bytes := x.bytes.take c.lfpos ++ ch :: x.bytes.drop (c.lfpos + 1) }
      ⟨x.bytes.take c.lfpos ++ ch :: x.bytes.drop (c.lfpos + 1), c.lfpos + 1⟩ := by
  have hpos := h.cached.pos
  obtain ⟨hb, hne, hm, hdata⟩ := h.dblock hbyte
  obtain ⟨hsize, hroom⟩ := h.size_lt hbyte
  have hget := getElem?_written hpos ch
  have hlen := length_written hpos ch
  obtain ⟨hsz, hilist, hentry⟩ := h.entry_eq
  generalize hw : x.bytes.take c.lfpos ++ ch :: x.bytes.drop (c.lfpos + 1) = bytes at hget hlen ⊢
  have hwrap : (c.lfpos + 1) % 2 ^ 32 = c.lfpos + 1 := Nat.mod_eq_of_lt (by omega)
  -- the directory has the new size
  obtain ⟨d₁, hd₁, hdisk, hfree, hmoved, hentry₁, hwritten⟩ :
      ∃ d₁, (d.putByte c ch).1 = d₁ ∧ d₁.disk = d.disk ∧
      (d₁.lf_dir.lfd_ifree = d.lf_dir.lfd_ifree ∧ d₁.lf_dir.lfd_dfree = d.lf_dir.lfd_dfree) ∧
        LfMoved d d₁ c.lfdirptr x x ∧
      (∃ e, d₁.lf_dir.lfd_files[c.lfdirptr]? = some e ∧ e.ld_size = bytes.length ∧
        e.ld_ilist = x.ids.head?.getD LF_INULL) ∧
      (Written d d₁ ∨ d₁.lf_dirdirty = true) := by
    refine ⟨_, rfl, ?_⟩
    unfold Lfdata.putByte
    dsimp only
    split_ifs with hge
    · have hmoved : LfMoved d (d.setEntry c.lfdirptr
        { d.entry c.lfdirptr with ld_size := ((d.entry c.lfdirptr).ld_size + 1) % 2 ^ 32 })
        c.lfdirptr x x := .setEntry _ hentry rfl
      refine ⟨rfl, ⟨rfl, rfl⟩, { hmoved with },
        ⟨_, List.getElem?_set_self (List.getElem?_eq_some_iff.mp hentry).1, ?_, hilist⟩, .inr rfl⟩
      dsimp only
      rw [hsz, hlen, Nat.mod_eq_of_lt (by omega)]
      omega
    · exact ⟨rfl, ⟨rfl, rfl⟩, .refl .., ⟨_, hentry, by omega, hilist⟩, .inl (.refl d)⟩
  rw [hd₁]
  have hmoved' : LfMoved d d₁ c.lfdirptr x { x with bytes := bytes } := { hmoved with }
  refine ⟨h.of_moved hmoved' hentry₁ ?_ ?_ ?_, hmoved', ?_, rfl, rfl, rfl, rfl, hwritten, fun _ hnil => ?_⟩
  · rw [hdisk]
    refine { h.cached with
      bytes_le := hlen ▸ hsize
      index := fun j a ha => (h.cached.index j a ha).imp_left fun hi => hi.with_bytes bytes
      inum := h.cached.inum.imp_right fun ⟨j, hj, hi⟩ => ⟨j, hj, hi.with_bytes bytes⟩
      data := fun j a ha => ?_
      dnum := .inr ⟨_, hm, fun o ho a ha => ?_⟩
      dbdirty := fun _ => hne
      pos := ?_
      byte := fun hlt => ?_ }
    · by_cases hj : j = c.lfpos / LF_BLKSIZ
      · exact .inr ⟨Option.some.inj (hm.symm.trans (hj ▸ ha)), rfl⟩
      · have hold := (h.cached.data j a ha).resolve_right fun hd => hj (h.block_index ha (hd.1 ▸ hm))
        refine .inl fun o ho v hv => hold o ho v ?_
        have hne : LF_BLKSIZ * j + o ≠ c.lfpos := by
          dsimp only [LF_BLKSIZ] at hj ho ⊢
          omega
        have hv : bytes[LF_BLKSIZ * j + o]? = some v := hv
        rwa [hget, if_neg hne] at hv
    · have ha : bytes[LF_BLKSIZ * (c.lfpos / LF_BLKSIZ) + o]? = some a := ha
      rw [hget] at ha
      by_cases ho' : o = c.lfbyte
      · subst ho'
        rw [if_pos (by rw [hb]; exact Nat.div_add_mod ..)] at ha
        exact (Function.update_self ..).trans (Option.some.inj ha)
      · rw [if_neg (by dsimp only [LF_BLKSIZ] at hb ho ⊢; omega)] at ha
        exact (Function.update_of_ne ho' _ _).trans (hdata o ho a ha)
    · change (c.lfpos + 1) % 2 ^ 32 ≤ bytes.length
      rw [hwrap, hlen]
      exact le_max_right ..
    · have hlt : c.lfbyte + 1 < LF_BLKSIZ := hlt
      change c.lfbyte + 1 = (c.lfpos + 1) % 2 ^ 32 % LF_BLKSIZ ∧
        x.blocks[(c.lfpos + 1) % 2 ^ 32 / LF_BLKSIZ]? = some c.lfdnum
      rw [hwrap, show (c.lfpos + 1) / LF_BLKSIZ = c.lfpos /
        LF_BLKSIZ by dsimp only [LF_BLKSIZ] at hb hlt ⊢; omega]
      exact ⟨by dsimp only [LF_BLKSIZ] at hb hlt ⊢; omega, hm⟩
  · rw [hdisk, hfree.1]
    exact h.ifree
  · rw [hdisk, hfree.2]
    exact h.dfree
  · exact congrArg (ByteStream.mk bytes) hwrap
  · simp [← hw] at hnil

/-- `lflputc` writes the byte. It fails if the file has to grow and there is no free block. In the
file it needs no new block. -/
theorem lflputc (h : Alone d c x) (hu : c.lfused = true) (ch : UInt8) :
    (d.lflputc c ch = none ∧ (x.ifree = [] ∨ x.dfree = [])) ∨
    ∃ d' c' x', d.lflputc c ch = some ((d', c'), (ByteStream.put ⟨x.bytes, c.lfpos⟩ ch).2) ∧
      CallOk d c x d' c' x' (ByteStream.put ⟨x.bytes, c.lfpos⟩ ch).1 ∧
      (c.lfpos < x.bytes.length →
        x' = { x with bytes := x.bytes.take c.lfpos ++ ch :: x.bytes.drop (c.lfpos + 1) }) := by
  have hpos := h.cached.pos
  unfold Lfdata.lflputc ByteStream.put
  rw [if_neg (not_not.mpr hu), if_neg (by rw [h.entry_eq.1]; omega), if_neg (not_lt.mpr hpos)]
  rcases h.setupIf hu with ⟨hnone, hfree, -⟩ | ⟨d₁, c₁, x₁, hsome, hstep, hlt, hwritten, hsame⟩
  · exact .inl ⟨by rw [hnone]; rfl, hfree⟩
  · rw [hsome]
    have hput := hstep.alone.putByte hlt ch
    rw [hstep.bytes, hstep.kept.pos] at hput
    refine .inr ⟨_, _, _, rfl, ⟨hput.alone, hstep.moved.trans (hstep.kept.dirptr ▸ hput.moved),
      hput.stream, hput.used.trans hstep.kept.used,
      hput.dirptr.trans hstep.kept.dirptr, hput.name.trans hstep.kept.name, hput.dev.trans hstep.kept.dev,
      hput.written.imp_left fun hw =>
        hwritten.trans hw, fun _ hnil => absurd (congrArg ByteStream.bytes hput.stream) (by rw [hnil]; simp)⟩,
      fun hin => ?_⟩
    obtain rfl := hsame hin
    rfl

/-- The byte at the position is found in the data block. -/
theorem getByte (h : Alone d c x) (hbyte : c.lfbyte < LF_BLKSIZ)
    {ch : UInt8} (hch : x.bytes[c.lfpos]? = some ch) :
    c.lfdblock c.lfbyte = ch ∧
    CallOk d c x d { c with lfbyte := c.lfbyte + 1, lfpos := (c.lfpos + 1) % 2 ^ 32 } x
      ⟨x.bytes, c.lfpos + 1⟩ := by
  obtain ⟨hb, -, hm, hdata⟩ := h.dblock hbyte
  obtain ⟨hsize, hroom⟩ := h.size_lt hbyte
  have hwrap : (c.lfpos + 1) % 2 ^ 32 = c.lfpos + 1 := Nat.mod_eq_of_lt (by omega)
  have hat : LF_BLKSIZ * (c.lfpos / LF_BLKSIZ) + c.lfbyte = c.lfpos := by rw [hb]; exact Nat.div_add_mod ..
  refine ⟨hdata _ hbyte _ (by rwa [hat]), ?_, .refl .., congrArg (ByteStream.mk x.bytes) hwrap,
    rfl, rfl, rfl, rfl, .inl (.refl d), id⟩
  rw [hwrap]
  refine { h with cached := { h.cached with pos := (List.getElem?_eq_some_iff.mp hch).1,
                                            byte := fun hlt => ?_ } }
  have hlt : c.lfbyte + 1 < LF_BLKSIZ := hlt
  change c.lfbyte + 1 = (c.lfpos + 1) % LF_BLKSIZ ∧ x.blocks[(c.lfpos + 1) / LF_BLKSIZ]? = some c.lfdnum
  rw [show (c.lfpos + 1) / LF_BLKSIZ = c.lfpos / LF_BLKSIZ by dsimp only [LF_BLKSIZ] at hb hlt ⊢; omega]
  exact ⟨by dsimp only [LF_BLKSIZ] at hb hlt ⊢; omega, hm⟩

/-- `lflgetc` reads the byte at the position, and leaves the file and its blocks. -/
theorem lflgetc (h : Alone d c x) (hu : c.lfused = true) :
    ∃ d' c', d.lflgetc c = some ((d', c'), (ByteStream.get ⟨x.bytes, c.lfpos⟩).2) ∧
      CallOk d c x d' c' x (ByteStream.get ⟨x.bytes, c.lfpos⟩).1 := by
  unfold Lfdata.lflgetc ByteStream.get
  rw [if_neg (not_not.mpr hu), h.entry_eq.1]
  dsimp only
  cases hch : x.bytes[c.lfpos]? with
  | none =>
    rw [if_pos (List.getElem?_eq_none_iff.mp hch)]
    exact ⟨d, c, rfl, h, .refl .., rfl, rfl, rfl, rfl, rfl, .inl (.refl d), id⟩
  | some ch =>
    have hlt := (List.getElem?_eq_some_iff.mp hch).1
    rw [if_neg (not_le.mpr hlt)]
    rcases h.setupIf hu with ⟨-, -, hend⟩ | ⟨d₁, c₁, x₁, hsome, hstep, hbyte, hwritten, hsame⟩
    · omega
    · rw [hsome]
      obtain rfl := hsame hlt
      obtain ⟨hval, hget⟩ := hstep.alone.getByte hbyte (by rwa [hstep.kept.pos])
      rw [hstep.kept.pos] at hget
      refine ⟨_, _, ?_, hget.alone, hstep.moved.trans (hstep.kept.dirptr ▸ hget.moved),
        hget.stream, hget.used.trans hstep.kept.used,
        hget.dirptr.trans hstep.kept.dirptr, hget.name.trans hstep.kept.name, hget.dev.trans hstep.kept.dev,
        hget.written.imp_left fun hw => hwritten.trans hw, id⟩
      rw [Option.map_some, hval, hstep.kept.pos]

/-- `lflseek` moves the position as on a stream of bytes, and keeps the file. -/
theorem lflseek (h : Alone d c x) (hu : c.lfused = true) (offset : ℕ) :
    (d.lflseek c offset).2 = (ByteStream.seek ⟨x.bytes, c.lfpos⟩ offset).2 ∧
    CallOk d c x (d.lflseek c offset).1.1 (d.lflseek c offset).1.2 x
      (ByteStream.seek ⟨x.bytes, c.lfpos⟩ offset).1 := by
  unfold Lfdata.lflseek ByteStream.seek
  rw [if_neg (not_not.mpr hu), h.entry_eq.1]
  dsimp only
  split_ifs with hgt
  · exact ⟨rfl, h, .refl .., rfl, rfl, rfl, rfl, rfl, .inl (.refl d), id⟩
  · refine ⟨rfl, ?_, .refl .., rfl, rfl, rfl, rfl, rfl, .inl (.refl d), id⟩
    exact { h with cached := { h.cached with pos := not_lt.mp hgt,
                                             byte := fun hlt => absurd hlt (lt_irrefl _) } }

/-- The control block of a file without blocks in memory. -/
theorem blank (h : Alone d c x) (hib : c.lfibdirty = false)
    (hdb : c.lfdbdirty = false) (hi : c'.lfinum = LF_INULL) (hd : c'.lfdnum = LF_DNULL)
    (hib' : c'.lfibdirty = false) (hdb' : c'.lfdbdirty = false)
    (hp : c'.lfpos = 0) (hb : c'.lfbyte = LF_BLKSIZ)
    (hk : c'.lfdirptr = c.lfdirptr) : Alone d c' x := by
  refine { h with entry := hk ▸ h.entry, cached := { h.cached with
    index := fun k b hb => .inl ?_
    data := fun k b hb => .inl ?_
    inum := .inl hi
    dnum := .inl hd
    ibdirty := fun hd => ?_
    dbdirty := fun hd => ?_
    pos := hp ▸ Nat.zero_le _
    byte := fun hlt => absurd hlt (by rw [hb]; exact lt_irrefl _) } }
  · exact (h.cached.index k b hb).resolve_right fun hd => by simp [hib] at hd
  · exact (h.cached.data k b hb).resolve_right fun hd => by simp [hdb] at hd
  · simp [hib'] at hd
  · simp [hdb'] at hd

/-- After a flush the directory is not dirty. -/
theorem lfflush_dirdirty (hu : c.lfused = true) : (d.lfflush c).1.lf_dirdirty = false := by
  unfold Lfdata.lfflush
  rw [if_neg (not_not.mpr hu)]
  dsimp only
  generalize hd₁ : (if d.lf_dirdirty = true then { d.writeDir with lf_dirdirty := false } else d) = d₁
  have hclean : d₁.lf_dirdirty = false := by
    rw [← hd₁]
    split_ifs with hdirty
    · rfl
    · exact Bool.eq_false_iff.mpr hdirty
  split_ifs
  all_goals exact hclean

/-- `lflclose` writes what is dirty. -/
theorem lflclose (h : Alone d c x) (hu : c.lfused = true) :
    ∃ d' c', d.lflclose c = ((d', c'), OK) ∧ Alone d' c' x ∧
    LfMoved d d' c.lfdirptr x x ∧ c'.lfibdirty = false ∧ c'.lfdbdirty = false ∧
    c'.lfused = false ∧ c'.lfdirptr = c.lfdirptr ∧
    c'.lfdev = c.lfdev ∧ Written d d' ∧ d'.lf_dirdirty = false ∧ d'.lf_dir = d.lf_dir := by
  unfold Lfdata.lflclose
  rw [if_neg (not_not.mpr hu)]
  dsimp only
  split_ifs with hdirty
  · obtain ⟨hsnd, halone, hmoved, hdir, hwritten⟩ := h.lfflush hu (k := c.lfdirptr)
    rw [hsnd]
    exact ⟨_, _, rfl, { halone with cached := { halone.cached with } },
      hmoved, rfl, rfl, rfl, rfl, rfl, hwritten, lfflush_dirdirty hu, hdir⟩
  · simp only [not_or, Bool.not_eq_true] at hdirty
    exact ⟨_, _, rfl, { h with cached := { h.cached with } },
      .refl .., hdirty.2.2, hdirty.2.1, rfl, rfl, rfl, .refl d, hdirty.1, rfl⟩

end Alone

end Xinu
