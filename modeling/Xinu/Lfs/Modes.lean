import Xinu.Lfs.FilesRuns

/-!
# Access modes of local files

`lfgetmode` accepts the strings with at most one `r`, at most one `w` and at most one of `o` and `n`
(`lfgetmode_eq_some`), and `lfsopen` accepts these modes unless the files forbid it
(`Files.lfsopen_accepts`). `lflread` and `lflwrite` are loops of `lflgetc` and `lflputc`.
-/

namespace Xinu

/-! ## Mode strings -/

/-- At most one `r`, at most one `w`, at most one of `o` and `n`, and nothing else. -/
structure ModeOk (mode : CString) : Prop where
  /-- There are no other characters. -/
  chars : ∀ ch ∈ mode, ch = 114 ∨ ch = 119 ∨ ch = 111 ∨ ch = 110
  /-- There is one `r` at most. -/
  reads : mode.count 114 ≤ 1
  /-- There is one `w` at most. -/
  writes : mode.count 119 ≤ 1
  /-- There is one of `o` and `n` at most. -/
  exists_or_new : mode.count 111 + mode.count 110 ≤ 1

/-- The mode asks for reading: it has an `r`, or neither an `r` nor a `w`. -/
def MayRead (mode : CString) : Prop := 114 ∈ mode ∨ 119 ∉ mode

/-- The mode asks for writing: it has a `w`, or neither an `r` nor a `w`. -/
def MayWrite (mode : CString) : Prop := 119 ∈ mode ∨ 114 ∉ mode

instance (mode : CString) : Decidable (MayRead mode) := inferInstanceAs (Decidable (_ ∨ _))

instance (mode : CString) : Decidable (MayWrite mode) := inferInstanceAs (Decidable (_ ∨ _))

/-- The bits of a mode. -/
def modeBits (r w n o : Bool) : ℕ :=
  (if r then LF_MODE_R else 0) ||| (if w then LF_MODE_W else 0) |||
    (if n then LF_MODE_N else 0) ||| (if o then LF_MODE_O else 0)

section

variable (r w n o : Bool)

/-- Each bit is there if it has been put in. -/
theorem modeBits_and :
    (modeBits r w n o &&& LF_MODE_R ≠ 0 ↔ r = true) ∧ (modeBits r w n o &&& LF_MODE_W ≠ 0 ↔ w = true) ∧
    (modeBits r w n o &&& LF_MODE_N ≠ 0 ↔ n = true) ∧ (modeBits r w n o &&& LF_MODE_O ≠ 0 ↔ o = true) := by
  revert r w n o
  decide

/-- A letter of the mode puts its bit in, and leaves the others. -/
theorem modeBits_or : modeBits r w n o ||| LF_MODE_R = modeBits true w n o ∧
    modeBits r w n o ||| LF_MODE_W = modeBits r true n o ∧
    modeBits r w n o ||| LF_MODE_N = modeBits r w true o ∧
    modeBits r w n o ||| LF_MODE_O = modeBits r w n true := by
  revert r w n o
  decide

/-- Both are allowed if neither is asked for. -/
theorem modeBits_both :
    (if modeBits r w n o &&& LF_MODE_RW = 0 then modeBits r w n o ||| LF_MODE_RW else modeBits r w n o) =
    modeBits (r || !w) (w || !r) n o := by
  revert r w n o
  decide

end

/-- The rest of a mode string, behind characters that have set these bits. -/
structure ModeRest (r w n o : Bool) (mode : CString) : Prop where
  /-- There are no other characters. -/
  chars : ∀ ch ∈ mode, ch = 114 ∨ ch = 119 ∨ ch = 111 ∨ ch = 110
  /-- With the bit that is set, there is one `r` at most. -/
  reads : r.toNat + mode.count 114 ≤ 1
  /-- With the bit that is set, there is one `w` at most. -/
  writes : w.toNat + mode.count 119 ≤ 1
  /-- With the bits that are set, there is one of `o` and `n` at most. -/
  exists_or_new : o.toNat + n.toNat + (mode.count 111 + mode.count 110) ≤ 1

/-- What the first character may be, and what is set behind it. -/
theorem ModeRest.cons_iff {r w n o : Bool} {ch : UInt8} {mode : CString} : ModeRest r w n o (ch :: mode) ↔
    (ch = 114 ∧ r = false ∧ ModeRest true w n o mode) ∨ (ch = 119 ∧ w = false ∧ ModeRest r true n o mode) ∨
    (ch = 111 ∧ (o = false ∧ n = false) ∧ ModeRest r w n true mode) ∨
    (ch = 110 ∧ (o = false ∧ n = false) ∧ ModeRest r w true o mode) := by
  simp only [← Bool.toNat_eq_zero]
  constructor
  · rintro ⟨hchars, hreads, hwrites, hexists⟩
    have hrest := fun c hc => hchars c (List.mem_cons_of_mem ch hc)
    rcases hchars ch List.mem_cons_self with rfl | rfl | rfl | rfl <;> simp at hreads hwrites hexists
    · refine .inl ⟨rfl, by omega, hrest, ?_, hwrites, hexists⟩
      rw [Bool.toNat_true]
      omega
    · refine .inr (.inl ⟨rfl, by omega, hrest, hreads, ?_, hexists⟩)
      rw [Bool.toNat_true]
      omega
    · refine .inr (.inr (.inl ⟨rfl, by omega, hrest, hreads, hwrites, ?_⟩))
      rw [Bool.toNat_true]
      omega
    · refine .inr (.inr (.inr ⟨rfl, by omega, hrest, hreads, hwrites, ?_⟩))
      rw [Bool.toNat_true]
      omega
  · rintro (⟨rfl, hset, h⟩ | ⟨rfl, hset, h⟩ | ⟨rfl, ⟨ho, hn⟩, h⟩ | ⟨rfl, ⟨ho, hn⟩, h⟩)
    all_goals
      obtain ⟨hchars, hreads, hwrites, hexists⟩ := h
      rw [Bool.toNat_true] at *
      refine ⟨List.forall_mem_cons.mpr ⟨by simp, hchars⟩, ?_, ?_, ?_⟩ <;> simp <;> omega

/-- The loop of `lfgetmode`, from some bits on. -/
theorem lfgetmode_loop (mode : CString) (r w n o : Bool) (hno : o.toNat + n.toNat ≤ 1) (mbits : ℕ) :
    lfgetmode.loop (modeBits r w n o) mode = some mbits ↔ ModeRest r w n o mode ∧
      mbits = modeBits (r || decide (114 ∈ mode)) (w || decide (119 ∈ mode))
      (n || decide (110 ∈ mode)) (o || decide (111 ∈ mode)) := by
  induction mode generalizing r w n o with
  | nil =>
    have hrest : ModeRest r w n o [] :=
      ⟨by simp, by cases r <;> simp, by cases w <;> simp, by simpa using hno⟩
    simp [lfgetmode.loop, hrest, eq_comm]
  | cons ch mode ih =>
    obtain ⟨hr, hw, hn, ho⟩ := modeBits_and r w n o
    obtain ⟨hr', hw', hn', ho'⟩ := modeBits_or r w n o
    rw [ModeRest.cons_iff]
    unfold lfgetmode.loop
    simp only [hr, hw, hn, ho, hr', hw', hn', ho']
    split_ifs with h114 hset h119 hset h111 hset h110 hset
    · simp [h114, hset]
    · simp [ih true w n o hno, h114, hset]
    · simp [h119, hset]
    · simp [ih r true n o hno, h119, hset]
    · rcases hset with rfl | rfl <;> simp [h111]
    · obtain ⟨rfl, rfl⟩ : o = false ∧ n = false := by simpa using hset
      simp [ih r w false true (by decide), h111]
    · rcases hset with rfl | rfl <;> simp [h110]
    · obtain ⟨rfl, rfl⟩ : o = false ∧ n = false := by simpa using hset
      simp [ih r w true false (by decide), h110]
    · simp [*]

/-- **`lfgetmode` accepts exactly these modes**, and returns their bits. -/
theorem lfgetmode_eq_some (mode : CString) (mbits : ℕ) : lfgetmode mode = some mbits ↔ ModeOk mode ∧
    mbits = modeBits (decide (MayRead mode)) (decide (MayWrite mode))
    (decide (110 ∈ mode)) (decide (111 ∈ mode)) := by
  have hrest : ModeRest false false false false mode ↔ ModeOk mode := by
    constructor
    · rintro ⟨hchars, hreads, hwrites, hexists⟩
      exact ⟨hchars, by simpa using hreads, by simpa using hwrites, by simpa using hexists⟩
    · rintro ⟨hchars, hreads, hwrites, hexists⟩
      exact ⟨hchars, by simpa using hreads, by simpa using hwrites, by simpa using hexists⟩
  have hloop := lfgetmode_loop mode false false false false (by decide)
  rw [hrest, show modeBits false false false false = 0 from rfl] at hloop
  have hboth := modeBits_both (decide (114 ∈ mode)) (decide (119 ∈ mode))
    (decide (110 ∈ mode)) (decide (111 ∈ mode))
  have hbits : (decide (MayRead mode)) = (decide (114 ∈ mode) || !decide (119 ∈ mode)) ∧
      (decide (MayWrite mode)) = (decide (119 ∈ mode) || !decide (114 ∈ mode)) := by
    constructor
    · rw [Bool.eq_iff_iff, decide_eq_true_iff]
      unfold MayRead
      simp
    · rw [Bool.eq_iff_iff, decide_eq_true_iff]
      unfold MayWrite
      simp
  unfold lfgetmode
  rw [Option.map_eq_some_iff, hbits.1, hbits.2, ← hboth]
  simp only [hloop, Bool.false_or]
  constructor
  · rintro ⟨bits, ⟨hok, rfl⟩, rfl⟩
    exact ⟨hok, rfl⟩
  · rintro ⟨hok, rfl⟩
    exact ⟨_, ⟨hok, rfl⟩, rfl⟩

/-- The bits that `lfsopen` looks at. -/
theorem lfgetmode_bits {mode : CString} {mbits : ℕ} (h : lfgetmode mode = some mbits) :
    (mbits &&& LF_MODE_N ≠ 0 ↔ 110 ∈ mode) ∧ (mbits &&& LF_MODE_O ≠ 0 ↔ 111 ∈ mode) := by
  obtain ⟨-, rfl⟩ := (lfgetmode_eq_some mode mbits).mp h
  obtain ⟨-, -, hn, ho⟩ :=
    modeBits_and (decide (MayRead mode)) (decide (MayWrite mode)) (decide (110 ∈ mode)) (decide (111 ∈ mode))
  rw [hn, ho, decide_eq_true_iff, decide_eq_true_iff]
  exact ⟨Iff.rfl, Iff.rfl⟩

/-! ## Opening -/

/-- The place of a file by its name. -/
def Files.find (a : Files) (name : CString) : Option ℕ := a.files.findIdx? fun f => f.name = name

/-- The reasons for which `lfsopen` refuses a file, whatever other characters the mode has: no
device is free, the name is too long, the file is open, it exists and must not, or it does not exist
and must, or the directory is full. -/
inductive Files.Refused (a : Files) (name mode : CString) : Prop where
  | device (h : a.freeDevice = none)
  | name (h : name.length ≥ LF_NAME_LEN)
  | isOpen {k : ℕ} (h : a.find name = some k) (ho : a.isOpen k)
  | old {k : ℕ} (h : a.find name = some k) (hn : 110 ∈ mode)
  | absent (h : a.find name = none) (ho : 111 ∈ mode)
  | full (h : a.find name = none) (hl : a.files.length ≥ LF_NUM_DIR_ENT)

/-- **`lfsopen` accepts exactly these modes**, apart from the reasons that have to do with the files. -/
theorem Files.lfsopen_accepts (a : Files) (name mode : CString) :
    (a.lfsopen name mode).2 ≠ SYSERR ↔ ModeOk mode ∧ ¬ a.Refused name mode := by
  have hdev : ∀ a' : Files, ∀ i k : ℕ, (a'.openAt i k).2 ≠ SYSERR := fun a' i k => by
    change LFILE0 + (i : ℤ) ≠ SYSERR
    dsimp only [LFILE0, SYSERR]
    omega
  have hfind : (a.files.findIdx? fun f => f.name = name) = a.find name := rfl
  unfold Files.lfsopen
  -- The reasons to refuse are tried in the order of the source.
  rw [hfind]
  cases hmode : lfgetmode mode with
  | none =>
    have hno : ¬ ModeOk mode := fun hok => by
      have := (lfgetmode_eq_some mode _).mpr ⟨hok, rfl⟩
      rw [hmode] at this
      cases this
    exact ⟨fun h => absurd rfl h, fun h => absurd h.1 hno⟩
  | some mbits =>
    have hok := ((lfgetmode_eq_some mode mbits).mp hmode).1
    obtain ⟨hn, ho⟩ := lfgetmode_bits hmode
    rw [and_iff_right hok]
    cases hfree : a.freeDevice with
    | none => exact ⟨fun h => absurd rfl h, fun h => absurd (.device hfree) h⟩
    | some i =>
      dsimp only
      by_cases hlen : name.length ≥ LF_NAME_LEN
      · rw [if_pos hlen]
        exact ⟨fun h => absurd rfl h, fun h => absurd (.name hlen) h⟩
      rw [if_neg hlen]
      -- The name is that of a file: it may be open, or the mode may ask for a new one.
      cases hk : a.find name with
      | some k =>
        dsimp only
        split_ifs with href
        · refine ⟨fun h => absurd rfl h, fun h => absurd ?_ h⟩
          rcases href with hopen | hnew
          · exact .isOpen hk hopen
          · exact .old hk (hn.mp hnew)
        · refine ⟨fun _ hr => ?_, fun _ => hdev _ _ _⟩
          cases hr with
          | device h => cases h.symm.trans hfree
          | name h => exact hlen h
          | isOpen h ho => exact href (.inl (Option.some.inj (h.symm.trans hk) ▸ ho))
          | old h hnew => exact href (.inr (hn.mpr hnew))
          | absent h ho => cases h.symm.trans hk
          | full h hl => cases h.symm.trans hk
      -- There is no such file: the mode may ask for an old one, or the directory may be full.
      | none =>
        dsimp only
        split_ifs with href
        · refine ⟨fun h => absurd rfl h, fun h => absurd ?_ h⟩
          rcases href with hold | hfull
          · exact .absent hk (ho.mp hold)
          · exact .full hk hfull
        · refine ⟨fun _ hr => ?_, fun _ => hdev _ _ _⟩
          cases hr with
          | device h => cases h.symm.trans hfree
          | name h => exact hlen h
          | isOpen h ho => cases h.symm.trans hk
          | old h hn => cases h.symm.trans hk
          | absent h hold => exact href (.inl (ho.mpr hold))
          | full h hl => exact href (.inr hl)

/-- With `o` in the mode no file is created. -/
theorem Files.lfsopen_old (a : Files) (name : CString) {mode : CString} (ho : 111 ∈ mode) :
    (a.lfsopen name mode).1.files = a.files := by
  unfold Files.lfsopen
  cases hmode : lfgetmode mode with
  | none => rfl
  | some mbits =>
    cases a.freeDevice with
    | none => rfl
    | some i =>
      have hold := (lfgetmode_bits hmode).2.mpr ho
      dsimp only
      by_cases hlen : name.length ≥ LF_NAME_LEN
      · rw [if_pos hlen]
      rw [if_neg hlen]
      cases a.files.findIdx? fun f => f.name = name with
      | none =>
        dsimp only
        rw [if_pos (.inl hold)]
      | some k =>
        dsimp only
        split_ifs
        · rfl
        · rfl

/-- When `lfsopen` refuses, all control blocks of files stay as they are. -/
theorem Lfs.lfsopen_refused {s : Lfs} {name mode : CString} (hdev : ∀ i, (s.lfltab i).lfdev ≠ SYSERR)
    (h : (s.lfsopen name mode).2 = SYSERR) : (s.lfsopen name mode).1.lfltab = s.lfltab := by
  unfold Lfs.lfsopen at h ⊢
  by_cases hdisk : s.lf_dskdev < 0
  · rw [if_pos hdisk]
  rw [if_neg hdisk] at h ⊢
  by_cases hlen : name.length ≥ LF_NAME_LEN
  · rw [if_pos hlen]
  rw [if_neg hlen] at h ⊢
  cases hmode : lfgetmode mode with
  | none => rfl
  | some mbits =>
    cases hsearch : LfsTable.searchOpen (fun i => (s.lfltab i).toLflcblk) name (List.range Nlfl) none with
    | none => rfl
    | some o =>
      cases o with
      | none => rfl
      | some lfnext =>
        rw [hmode, hsearch] at h
        dsimp only at h ⊢
        by_cases hpres : s.toLfdata.present.2 = true
        · rw [if_neg (not_not.mpr hpres)] at h ⊢
          cases hplace : LfsTable.place s.toLfdata.present.1.lf_dir.lfd_files ⟨0, name, mbits, lfnext⟩ with
          | none => rfl
          | some r =>
            rw [hplace] at h
            exact absurd h (hdev lfnext)
        · rw [if_pos hpres]

/-! ## Reading and writing many bytes -/

namespace Lfs

/-- The loop of `lflread`, with the bytes that have been read. -/
def lflread.loop (i : ℕ) : ℕ → Lfs → List UInt8 → Option ((Lfs × List UInt8) × ℤ)
  | 0, s, buff => some ((s, buff), (buff.length : ℤ))
  | n + 1, s, buff =>
    (s.exec (.lflgetc i)).bind fun (s, nxtbyte) =>
      if nxtbyte = SYSERR then some ((s, buff), SYSERR)
      else if nxtbyte = EOF then some ((s, buff), if buff.length = 0 then EOF else (buff.length : ℤ))
      else lflread.loop i n s (buff ++ [UInt8.ofNat nxtbyte.toNat])

/-- `lflread(devptr, buff, count)`, with what is stored in `buff`. -/
def lflread (s : Lfs) (i : ℕ) (count : ℤ) : Option ((Lfs × List UInt8) × ℤ) :=
  if count < 0 then some ((s, []), SYSERR) else lflread.loop i count.toNat s []

/-- The loop of `lflwrite`, for the bytes that are left. -/
def lflwrite.loop (i : ℕ) (count : ℤ) : List UInt8 → Lfs → Option (Lfs × ℤ)
  | [], s => some (s, count)
  | ch :: buff, s =>
    (s.exec (.lflputc i ch)).bind fun (s, r) =>
      if r = SYSERR then some (s, SYSERR) else lflwrite.loop i count buff s

/-- `lflwrite(devptr, buff, count)`. -/
def lflwrite (s : Lfs) (i : ℕ) (buff : ℕ → UInt8) (count : ℤ) : Option (Lfs × ℤ) :=
  if count < 0 then some (s, SYSERR) else lflwrite.loop i count ((List.range count.toNat).map buff) s

end Lfs

/-- The calls, with those that read and write many bytes. -/
inductive LfCall where
  | event (e : LfEvent)
  | lflread (i : ℕ) (count : ℤ)
  | lflwrite (i : ℕ) (buff : ℕ → UInt8) (count : ℤ)

/-- The byte that a call has returned, if it is `lflgetc`. -/
def LfEvent.yields (r : ℤ) : LfEvent → List UInt8
  | .lflgetc _ => if r = SYSERR ∨ r = EOF then [] else [UInt8.ofNat r.toNat]
  | _ => []

/-- The device of a call. -/
def LfEvent.device : LfEvent → Option ℕ
  | .lfsopen _ _ => none
  | .lflputc i _ | .lflgetc i | .lflseek i _ | .lflcontrol i _ _ | .lflclose i => some i

/-- The device of a call. -/
def LfCall.device : LfCall → Option ℕ
  | .event e => e.device
  | .lflread i _ | .lflwrite i _ _ => some i

/-- One call, with the bytes that it yields and its result. -/
def Lfs.call (s : Lfs) : LfCall → Option ((Lfs × List UInt8) × ℤ)
  | .event e => (s.exec e).map fun r => ((r.1, e.yields r.2), r.2)
  | .lflread i count => s.lflread i count
  | .lflwrite i buff count => (s.lflwrite i buff count).map fun r => ((r.1, []), r.2)

namespace Files

/-- A byte is read, or none is left. -/
def getOne (i : ℕ) (a : Files) : Files := (a.exec (.lflgetc i)).1

/-- A byte is written. -/
def putOne (i : ℕ) (a : Files) (ch : UInt8) : Files := (a.exec (.lflputc i ch)).1

/-- One call on the byte arrays. -/
def call (a : Files) : LfCall → Files
  | .event e => (a.exec e).1
  | .lflread i count => (getOne i)^[count.toNat] a
  | .lflwrite i buff count => ((List.range count.toNat).map buff).foldl (putOne i) a

/-- The array that is open at a device, and the position. -/
def stream (a : Files) (i : ℕ) : ByteStream :=
  match a.opened i with
  | none => ⟨[], 0⟩
  | some (k, pos) => ⟨((a.files[k]?).map ByteFile.bytes).getD [], pos⟩

/-- The bytes from the position on. -/
def ahead (a : Files) (i : ℕ) : List UInt8 := (a.stream i).bytes.drop (a.stream i).pos

variable {a : Files} {i : ℕ}

/-- An operation that does nothing to the array does nothing. -/
theorem onStream_same {op : ByteStream → ByteStream × ℤ} (h : (op (a.stream i)).1 = a.stream i) :
    (a.onStream i op).1 = a := by
  unfold onStream
  unfold stream at h
  cases ho : a.opened i with
  | none => rfl
  | some r =>
    obtain ⟨k, pos⟩ := r
    rw [ho] at h
    dsimp only at h ⊢
    rw [h, show Function.update a.opened i (some (k, pos)) = a.opened by rw [← ho, Function.update_eq_self]]
    suffices hmod : (a.files.modify k fun f =>
      { f with bytes := ((a.files[k]?).map ByteFile.bytes).getD [] }) = a.files by rw [hmod]
    refine List.ext_getElem? fun j => ?_
    rw [List.getElem?_modify]
    split_ifs with hj
    · subst hj
      cases a.files[k]? <;> rfl
    · cases a.files[j]? <;> rfl

/-- What a call on a device returns. -/
theorem onStream_snd (a : Files) (i : ℕ) (op : ByteStream → ByteStream × ℤ) :
    (a.onStream i op).2 = if a.opened i = none then SYSERR else (op (a.stream i)).2 := by
  unfold onStream stream
  cases a.opened i <;> rfl

/-- The position after a call on a device. -/
theorem onStream_at {k pos : ℕ} (h : a.opened i = some (k, pos)) (op : ByteStream → ByteStream × ℤ) :
    (a.onStream i op).1.opened i = some (k, (op (a.stream i)).1.pos) := by
  unfold onStream stream
  rw [h]
  exact Function.update_self ..

/-- Where `lflgetc` returns no byte, it does nothing. -/
theorem get_error (h : (a.exec (.lflgetc i)).2 = SYSERR ∨ (a.exec (.lflgetc i)).2 = EOF) :
    getOne i a = a := by
  change (a.onStream i ByteStream.get).2 = SYSERR ∨ (a.onStream i ByteStream.get).2 = EOF at h
  rw [onStream_snd] at h
  change (a.onStream i ByteStream.get).1 = a
  by_cases ho : a.opened i = none
  · unfold onStream
    rw [ho]
  · rw [if_neg ho] at h
    refine onStream_same ?_
    unfold ByteStream.get at h ⊢
    cases hch : (a.stream i).bytes[(a.stream i).pos]? with
    | none => rfl
    | some ch =>
      rw [hch] at h
      dsimp only [SYSERR, EOF] at h
      omega

/-- Where `lflputc` fails, it would fail for any byte. -/
theorem put_error {ch : UInt8} (h : (a.exec (.lflputc i ch)).2 = SYSERR) (ch' : UInt8) :
    putOne i a ch' = a := by
  change (a.onStream i fun f => f.put ch).2 = SYSERR at h
  rw [onStream_snd] at h
  change (a.onStream i fun f => f.put ch').1 = a
  by_cases ho : a.opened i = none
  · unfold onStream
    rw [ho]
  · rw [if_neg ho] at h
    refine onStream_same ?_
    unfold ByteStream.put at h ⊢
    split_ifs at h ⊢ with hpos
    · rfl
    · exact absurd (show OK = SYSERR from h) (by decide)

end Files

end Xinu
