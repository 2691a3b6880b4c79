import Xinu.Lfs.Modes
import Xinu.Lib.Bytes
import Xinu.Lib.Footprint

/-!
# The directory sector

`lfsopen` on the bytes of the directory, which come from the disk: `lfscheck` looks at the constants
of the sector, and asks that the number of files is not negative. It does not ask that it is at most
`LF_NUM_DIR_ENT`, so that the search of `lfsopen` goes on behind the last entry (`lfsopen_leaves`).
It stays in the directory exactly if the number of files is not too large, or the name is found
before the end (`lfsopen_harmless`). No name is read past its field, whatever bytes it has, and the
mutex is free again on each path.
-/

namespace Xinu

open Bytes

/-! ## The sector -/

/-- The place of an entry in the sector. -/
def ldentryAt (i : ℕ) : ℕ := 28 + 24 * i

/-- The number of files in a sector. -/
def lfd_nfiles (dir : ℕ → UInt8) : ℤ := int32 (le32 dir 24)

/-- The name of an entry, from its first byte on. -/
def ld_name (dir : ℕ → UInt8) (i : ℕ) : ℕ → UInt8 := fun j => dir (ldentryAt i + 8 + j)

/-- `lfscheck(dirptr)`, on the bytes of the sector. -/
def lfscheckSector (dir : ℕ → UInt8) : ℤ :=
  if le32 dir 0 ≠ LFS_ID ∨ le32 dir 8 ≠ 0 ∨ le32 dir 12 ≠ 0xffffffff then SYSERR
  else if le32 dir 508 ≠ LFS_REVID then SYSERR
  else if lfd_nfiles dir < 0 then SYSERR
  else OK

/-- What `lfsopen` reads and writes: the fields of an entry of the directory, and the name in an
entry of `lfltab`. -/
inductive DirField where
  | ld_size (i : ℕ)
  | ld_ilist (i : ℕ)
  | ld_name (i : ℕ)
  | lfname (i : ℕ)
  deriving DecidableEq

/-- The bytes of a field: none, if there is no such entry. -/
def DirField.bytes : DirField → ℕ
  | .ld_size i => if i < LF_NUM_DIR_ENT then 4 else 0
  | .ld_ilist i => if i < LF_NUM_DIR_ENT then 4 else 0
  | .ld_name i => if i < LF_NUM_DIR_ENT then LF_NAME_LEN else 0
  | .lfname i => if i < Nlfl then LF_NAME_LEN else 0

/-! ## Names -/

/-- The loop of `lfsopen` that looks for the end of the name: the place of the null character, or
`LF_NAME_LEN`. -/
def nameLength (name : ℕ → UInt8) : ℕ → ℕ → ℕ
  | 0, i => i
  | n + 1, i => if name i = 0 then i else nameLength name n (i + 1)

/-- The loop that compares two names: the place where it stops. -/
def compareLoop (nam cmp : ℕ → UInt8) : ℕ → ℕ → ℕ
  | 0, j => j
  | n + 1, j => if nam j = 0 then j else if nam j ≠ cmp j then j else compareLoop nam cmp n (j + 1)

/-- Where the comparison of two names stops. -/
def compared (nam cmp : ℕ → UInt8) : ℕ := compareLoop nam cmp LF_NAME_LEN 0

/-- The comparison succeeds. -/
def Matches (nam cmp : ℕ → UInt8) : Prop := nam (compared nam cmp) = 0 ∧ cmp (compared nam cmp) = 0

instance (nam cmp : ℕ → UInt8) : Decidable (Matches nam cmp) := inferInstanceAs (Decidable (_ ∧ _))

/-! ## Opening -/

/-- `struct lflcblk`, with the bytes of the name, and without the two blocks. -/
structure RawLflcblk where
  /-- The state is `LF_USED`. -/
  lfused : Bool
  /-- The device. -/
  lfdev : ℤ
  /-- The place of the file's entry in the directory. -/
  lfdirptr : ℕ
  /-- The mode. -/
  lfmode : ℕ
  /-- The position. -/
  lfpos : ℕ
  /-- The bytes of the name. -/
  lfname : ℕ → UInt8
  /-- The number of the index block in memory. -/
  lfinum : ℤ
  /-- The number of the data block in memory. -/
  lfdnum : ℤ
  /-- The place of the next byte in the data block. -/
  lfbyte : ℕ
  /-- Whether the index block is newer than the one on disk. -/
  lfibdirty : Bool
  /-- Whether the data block is. -/
  lfdbdirty : Bool

/-- `Lf_data` and `lfltab`, with the bytes of memory from `lf_dir` on. -/
structure RawLfs where
  /-- The device of the disk. -/
  lf_dskdev : ℤ
  /-- The bytes from `lf_dir` on. -/
  lf_dir : ℕ → UInt8
  /-- Whether the directory has been read. -/
  lf_dirpresent : Bool
  /-- The control blocks. -/
  lfltab : ℕ → RawLflcblk

/-- A call on `lf_mutex`. -/
inductive LfMutexCall where
  | wait
  | signal
  deriving DecidableEq

/-- What `lfsopen` leaves and returns, with its calls on the mutex and its accesses. -/
structure OpenOutcome where
  /-- The tables and the directory behind the call. -/
  state : RawLfs
  /-- What it returns. -/
  retval : ℤ
  /-- Its calls on the mutex. -/
  mutex : List LfMutexCall
  /-- Its accesses to the directory. -/
  acts : Footprint DirField

namespace RawLfs

/-- The search of `lfsopen` through `lfltab`. -/
def searchOpen (tab : ℕ → RawLflcblk) (name : ℕ → UInt8) :
    List ℕ → Option ℕ → Footprint DirField × Option (Option ℕ)
  | [], lfnext => ([], some lfnext)
  | i :: is, lfnext =>
    if ¬ (tab i).lfused then searchOpen tab name is (if lfnext = none then some i else lfnext)
    else
      let act : Access DirField := ⟨.lfname i, 0, compared name (tab i).lfname + 1⟩
      if Matches name (tab i).lfname then ([act], none)
      else
        let r := searchOpen tab name is lfnext
        (act :: r.1, r.2)

/-- The tests of `lfsopen` before it waits for the mutex: the mode, and the free device. -/
def check (s : RawLfs) (name : ℕ → UInt8) (mode : CString) : Footprint DirField × Option (ℕ × ℕ) :=
  if s.lf_dskdev < 0 then ([], none)
  else if nameLength name LF_NAME_LEN 0 ≥ LF_NAME_LEN then ([], none)
  else
    match lfgetmode mode with
    | none => ([], none)
    | some mbits =>
      let r := searchOpen s.lfltab name (List.range Nlfl) none
      (r.1, r.2.bind fun lfnext => lfnext.map fun lfnext => (mbits, lfnext))

/-- The directory is read if it is not present, from a disk that gives a sector or fails. -/
def readDir (s : RawLfs) (sector : Option (ℕ → UInt8)) : RawLfs × Bool :=
  if s.lf_dirpresent then (s, true)
  else
    match sector with
    | none => (s, false)
    | some b =>
      let s := { s with lf_dir := overlay s.lf_dir b LF_BLKSIZ }
      if lfscheckSector s.lf_dir = SYSERR then (s, false) else ({ s with lf_dirpresent := true }, true)

/-- The search of `lfsopen` through so many entries of the directory, from some entry on. -/
def searchDir (dir name : ℕ → UInt8) : ℕ → ℕ → Footprint DirField × Option ℕ
  | 0, _ => ([], none)
  | n + 1, i =>
    let act : Access DirField := ⟨.ld_name i, 0, compared name (ld_name dir i) + 1⟩
    if Matches name (ld_name dir i) then ([act], some i)
    else
      let r := searchDir dir name n (i + 1)
      (act :: r.1, r.2)

/-- The name with its null character. -/
def nameBytes (name : ℕ → UInt8) : List UInt8 := bytesAt name 0 (nameLength name LF_NAME_LEN 0 + 1)

/-- The next entry of the directory is taken for an empty file. -/
def newEntry (dir name : ℕ → UInt8) (i : ℕ) : ℕ → UInt8 :=
  let dir := store32 dir 24 (i + 1)
  let dir := store32 dir (ldentryAt i) 0
  let dir := put dir (ldentryAt i + 8) (nameBytes name)
  store32 dir (ldentryAt i + 4) 0xffffffff

/-- The end of `lfsopen`: the pseudo-device is initialized. -/
def openEntry (s : RawLfs) (name : ℕ → UInt8) (mbits lfnext ldptr : ℕ) (acts : Footprint DirField) :
    OpenOutcome :=
  let lfptr :=
    { s.lfltab lfnext with
      lfused := true, lfdirptr := ldptr, lfmode := mbits &&& LF_MODE_RW, lfpos := 0
      lfname := put (s.lfltab lfnext).lfname 0 (nameBytes name)
      lfinum := LF_INULL, lfdnum := LF_DNULL, lfbyte := LF_BLKSIZ, lfibdirty := false, lfdbdirty := false }
  { state := { s with lfltab := Function.update s.lfltab lfnext lfptr }
    retval := lfptr.lfdev
    mutex := [.wait, .signal]
    acts := acts ++ [⟨.lfname lfnext, 0, (nameBytes name).length⟩] }

/-- `lfsopen`, with the directory in memory, which has so many files. -/
def enter (s : RawLfs) (nfiles : ℤ) (name : ℕ → UInt8) (mbits lfnext : ℕ) (acts : Footprint DirField) :
    OpenOutcome :=
  let r := searchDir s.lf_dir name nfiles.toNat 0
  let acts := acts ++ r.1
  match r.2 with
  | none =>
    if mbits &&& LF_MODE_O ≠ 0 then ⟨s, SYSERR, [.wait, .signal], acts⟩
    else if nfiles ≥ LF_NUM_DIR_ENT then ⟨s, SYSERR, [.wait, .signal], acts⟩
    else
      let i := nfiles.toNat
      openEntry { s with lf_dir := newEntry s.lf_dir name i } name mbits lfnext i
        (acts ++ [⟨.ld_size i, 0, 4⟩, ⟨.ld_name i, 0, (nameBytes name).length⟩, ⟨.ld_ilist i, 0, 4⟩])
  | some i =>
    if mbits &&& LF_MODE_N ≠ 0 then ⟨s, SYSERR, [.wait, .signal], acts⟩
      else openEntry s name mbits lfnext i acts

/-- `lfsopen(devptr, name, mode)`, with what the disk gives if the directory is read. -/
def lfsopen (s : RawLfs) (name : ℕ → UInt8) (mode : CString) (sector : Option (ℕ → UInt8)) : OpenOutcome :=
  let checked := s.check name mode
  match checked.2 with
  | none => ⟨s, SYSERR, [], checked.1⟩
  | some (mbits, lfnext) =>
    let r := s.readDir sector
    if r.2 then r.1.enter (lfd_nfiles r.1.lf_dir) name mbits lfnext checked.1
    else ⟨r.1, SYSERR, [.wait, .signal], checked.1⟩

/-- The call does no harm: it fails because of `lfscheck`, or it keeps to the entries of the
directory and to the fields of the names. The mutex is free when it returns. -/
def Harmless (s : RawLfs) (name : ℕ → UInt8) (mode : CString) (sector : Option (ℕ → UInt8)) : Prop :=
  let r := s.lfsopen name mode sector
  ((r.retval = SYSERR ∧ (s.readDir sector).2 = false) ∨ r.acts.Within DirField.bytes) ∧
    r.mutex.count .wait = r.mutex.count .signal

/-- The directory in memory has passed `lfscheck`. -/
def Checked (s : RawLfs) : Prop := s.lf_dirpresent = true → lfscheckSector s.lf_dir = OK

end RawLfs

/-! ## The loops -/

section

variable {name cmp dir : ℕ → UInt8} {i j k n : ℕ}

/-- A comparison stops at the null character of the first name, or before it. -/
theorem compareLoop_le (hk : name k = 0) (hj : j ≤ k) : compareLoop name cmp n j ≤ k := by
  induction n generalizing j with
  | zero => exact hj
  | succ n ih =>
    unfold compareLoop
    split_ifs with h0 hne
    · exact hj
    · exact hj
    · exact ih (lt_of_le_of_ne hj fun heq => h0 (heq ▸ hk))

/-- The end of a name that is short enough. -/
theorem nameLength_spec (hlt : nameLength name n i < i + n) : name (nameLength name n i) = 0 := by
  induction n generalizing i with
  | zero =>
    unfold nameLength at hlt
    omega
  | succ n ih =>
    unfold nameLength at hlt ⊢
    split_ifs at hlt ⊢ with h0
    · exact h0
    · exact ih (by omega)

/-- The comparison of names stays within the field of the name in the sector. -/
theorem compared_lt (hlen : nameLength name LF_NAME_LEN 0 < LF_NAME_LEN) :
    compared name cmp + 1 ≤ LF_NAME_LEN := by
  have hzero := nameLength_spec (n := LF_NAME_LEN) (i := 0) (by omega)
  have hle : compared name cmp ≤ nameLength name LF_NAME_LEN 0 := compareLoop_le hzero (Nat.zero_le _)
  omega

end

namespace RawLfs

open Footprint

section

variable {s : RawLfs} {tab : ℕ → RawLflcblk} {name dir : ℕ → UInt8}
  {mode : CString} {sector : Option (ℕ → UInt8)} {i n : ℕ}

/-- The search through `lfltab` keeps to the names of the entries, and finds one of the entries. -/
theorem searchOpen_within (hlen : nameLength name LF_NAME_LEN 0 < LF_NAME_LEN)
    {is : List ℕ} {lfnext : Option ℕ}
    (his : ∀ i ∈ is, i < Nlfl) (hnext : ∀ i ∈ lfnext, i < Nlfl) :
    (searchOpen tab name is lfnext).1.Within DirField.bytes ∧
      ∀ i, (searchOpen tab name is lfnext).2 = some (some i) → i < Nlfl := by
  induction is generalizing lfnext with
  | nil => exact ⟨within_nil, fun i hi => hnext i (Option.some.inj hi)⟩
  | cons i is ih =>
    obtain ⟨hi, his⟩ := List.forall_mem_cons.mp his
    have hact : (⟨.lfname i, 0, compared name (tab i).lfname + 1⟩ : Access DirField).count = 0 ∨
        0 + (compared name (tab i).lfname + 1) ≤ (DirField.lfname i).bytes := by
      have hlt : compared name (tab i).lfname + 1 ≤ LF_NAME_LEN := compared_lt hlen
      rw [DirField.bytes, if_pos hi]
      omega
    unfold searchOpen
    dsimp only
    by_cases hused : (tab i).lfused = true
    · rw [if_neg (not_not.mpr hused)]
      split_ifs with hmatch
      · exact ⟨within_cons.mpr ⟨hact, within_nil⟩, fun j hj => by cases hj⟩
      · obtain ⟨hw, hfound⟩ := ih his hnext
        exact ⟨within_cons.mpr ⟨hact, hw⟩, hfound⟩
    · rw [if_pos hused]
      refine ih his fun j hj => ?_
      split_ifs at hj with hnone
      · obtain rfl : i = j := Option.some.inj hj
        exact hi
      · exact hnext j hj

/-- The search through the directory keeps to its entries, if there are not too many or the name is
found before the end. -/
theorem searchDir_within (hlen : nameLength name LF_NAME_LEN 0 < LF_NAME_LEN) :
    (searchDir dir name n i).1.Within DirField.bytes ↔
    n = 0 ∨ i + n ≤ LF_NUM_DIR_ENT ∨ ∃ j, i ≤ j ∧ j < LF_NUM_DIR_ENT ∧
    j < i + n ∧ Matches name (ld_name dir j) := by
  induction n generalizing i with
  | zero => exact iff_of_true within_nil (.inl rfl)
  | succ n ih =>
    -- The comparison with an entry stays inside exactly if there is such an entry.
    have hact : ((⟨.ld_name i, 0, compared name (ld_name dir i) + 1⟩ : Access DirField).count = 0 ∨
        0 + (compared name (ld_name dir i) + 1) ≤ (DirField.ld_name i).bytes) ↔ i < LF_NUM_DIR_ENT := by
      have hlt : compared name (ld_name dir i) + 1 ≤ LF_NAME_LEN := compared_lt hlen
      dsimp only [DirField.bytes]
      split_ifs with hi
      · exact iff_of_true (by omega) hi
      · exact iff_of_false (by simp) hi
    unfold searchDir
    dsimp only
    -- The name is found here, or the search goes on.
    split_ifs with hmatch
    · rw [within_cons]
      dsimp only at hact ⊢
      rw [hact, and_iff_left within_nil]
      dsimp only [LF_NUM_DIR_ENT]
      constructor
      · exact fun hi => .inr (.inr ⟨i, Nat.le_refl i, hi, by omega, hmatch⟩)
      · rintro (h | h | ⟨j, hij, hj, -, -⟩)
        · exact h.elim
        · omega
        · omega
    · rw [within_cons]
      dsimp only at hact ⊢
      rw [hact, ih]
      dsimp only [LF_NUM_DIR_ENT]
      constructor
      · rintro ⟨hi, h | h | ⟨j, hij, hj, hjn, hm⟩⟩
        · exact .inr (.inl (by omega))
        · exact .inr (.inl (by omega))
        · exact .inr (.inr ⟨j, by omega, hj, by omega, hm⟩)
      · rintro (h | h | ⟨j, hij, hj, hjn, hm⟩)
        · exact h.elim
        · exact ⟨by omega, .inr (.inl (by omega))⟩
        · have hne : i ≠ j := fun heq => hmatch (heq ▸ hm)
          exact ⟨by omega, .inr (.inr ⟨j, by omega, hj, by omega, hm⟩)⟩

/-! ## The call -/

/-- `lfscheck` answers `SYSERR`, or `OK` for a directory whose count of files is not negative. -/
theorem lfscheckSector_cases (dir : ℕ → UInt8) :
    lfscheckSector dir = SYSERR ∨ (lfscheckSector dir = OK ∧ 0 ≤ lfd_nfiles dir) := by
  unfold lfscheckSector
  split_ifs with hid hrev hneg
  · exact .inl rfl
  · exact .inl rfl
  · exact .inl rfl
  · exact .inr ⟨rfl, not_lt.mp hneg⟩

/-- When the directory is there, it has passed `lfscheck`. -/
theorem readDir_checked (hs : s.Checked) (h : (s.readDir sector).2 = true) :
    lfscheckSector (s.readDir sector).1.lf_dir = OK ∧ 0 ≤ lfd_nfiles (s.readDir sector).1.lf_dir := by
  have hok : lfscheckSector (s.readDir sector).1.lf_dir = OK → 0 ≤ lfd_nfiles (s.readDir sector).1.lf_dir :=
    fun hok => by
    rcases lfscheckSector_cases (s.readDir sector).1.lf_dir with herr | ⟨-, hn⟩
    · exact absurd (hok.symm.trans herr) (by decide)
    · exact hn
  suffices hcheck : lfscheckSector (s.readDir sector).1.lf_dir = OK from ⟨hcheck, hok hcheck⟩
  unfold readDir at h ⊢
  by_cases hp : s.lf_dirpresent = true
  · rw [if_pos hp]
    exact hs hp
  rw [if_neg hp] at h ⊢
  cases sector with
  | none => exact absurd h Bool.false_ne_true
  | some b =>
    dsimp only at h ⊢
    have hcases := lfscheckSector_cases (overlay s.lf_dir b LF_BLKSIZ)
    generalize overlay s.lf_dir b LF_BLKSIZ = dir at h hcases ⊢
    have hOK : ¬ OK = SYSERR := by decide
    cases hcases with
    | inl hcheck =>
      simp only [hcheck, if_true] at h
      exact absurd h Bool.false_ne_true
    | inr hcheck => simp only [hcheck.1, hOK, if_false]

/-- What the tests before the directory have found. -/
theorem check_spec : (s.check name mode).1.Within DirField.bytes ∧
    ∀ mbits lfnext, (s.check name mode).2 = some (mbits, lfnext) →
    nameLength name LF_NAME_LEN 0 < LF_NAME_LEN ∧ lfnext < Nlfl := by
  unfold check
  split_ifs with hdisk hlen
  · exact ⟨within_nil, fun _ _ h => by cases h⟩
  · exact ⟨within_nil, fun _ _ h => by cases h⟩
  · have hlen := not_le.mp hlen
    cases lfgetmode mode with
    | none => exact ⟨within_nil, fun _ _ h => by cases h⟩
    | some mbits =>
      have hsearch : (searchOpen s.lfltab name (List.range Nlfl) none).1.Within DirField.bytes ∧
          ∀ i, (searchOpen s.lfltab name (List.range Nlfl) none).2 = some (some i) → i < Nlfl :=
        searchOpen_within hlen (fun i hi => List.mem_range.mp hi) (fun i hi => by cases hi)
      obtain ⟨hw, hfound⟩ := hsearch
      refine ⟨hw, fun m lfnext h => ⟨hlen, hfound lfnext ?_⟩⟩
      obtain ⟨r, hr, h⟩ := Option.bind_eq_some_iff.mp h
      obtain ⟨l, rfl, hl⟩ := Option.map_eq_some_iff.mp h
      rw [hr, (Prod.mk.inj hl).2]

/-- With the directory in memory, the call keeps to it if the search does. -/
theorem enter_spec {mbits lfnext : ℕ} {nfiles : ℤ} {acts : Footprint DirField}
    (hlen : nameLength name LF_NAME_LEN 0 < LF_NAME_LEN)
    (hnext : lfnext < Nlfl) (hn : 0 ≤ nfiles) (hacts : acts.Within DirField.bytes) :
    ((s.enter nfiles name mbits lfnext acts).acts.Within DirField.bytes ↔
      (searchDir s.lf_dir name nfiles.toNat 0).1.Within DirField.bytes) ∧
    (s.enter nfiles name mbits lfnext acts).mutex = [.wait, .signal] := by
  have hbytes : (nameBytes name).length ≤ LF_NAME_LEN := by
    unfold nameBytes
    rw [length_bytesAt]
    exact hlen
  -- the accesses behind the search are to fields that exist
  have hroom : 0 + (nameBytes name).length ≤ (DirField.lfname lfnext).bytes := by
    rw [DirField.bytes, if_pos hnext, Nat.zero_add]
    exact hbytes
  have hlast : Within DirField.bytes [⟨.lfname lfnext, 0, (nameBytes name).length⟩] :=
    within_cons.mpr ⟨.inr hroom, within_nil⟩
  unfold enter
  dsimp only
  cases (searchDir s.lf_dir name nfiles.toNat 0).2 with
  | none =>
    dsimp only
    split_ifs with hold hfull
    · exact ⟨by rw [within_append, and_iff_right hacts], rfl⟩
    · exact ⟨by rw [within_append, and_iff_right hacts], rfl⟩
    · have hi : nfiles.toNat < LF_NUM_DIR_ENT := by
        dsimp only [LF_NUM_DIR_ENT] at hfull ⊢
        omega
      have hnew : Within DirField.bytes [⟨.ld_size nfiles.toNat, 0, 4⟩,
          ⟨.ld_name nfiles.toNat, 0, (nameBytes name).length⟩,
          ⟨.ld_ilist nfiles.toNat, 0, 4⟩] := by
        have hsize : 0 + 4 ≤ (DirField.ld_size nfiles.toNat).bytes := by rw [DirField.bytes, if_pos hi]
        have hname : 0 + (nameBytes name).length ≤ (DirField.ld_name nfiles.toNat).bytes := by
          rw [DirField.bytes, if_pos hi, Nat.zero_add]
          exact hbytes
        have hilist : 0 + 4 ≤ (DirField.ld_ilist nfiles.toNat).bytes := by rw [DirField.bytes, if_pos hi]
        exact within_cons.mpr ⟨.inr hsize, within_cons.mpr ⟨.inr hname,
          within_cons.mpr ⟨.inr hilist, within_nil⟩⟩⟩
      refine ⟨?_, rfl⟩
      unfold openEntry
      dsimp only
      rw [within_append, within_append, within_append, and_iff_left hlast,
        and_iff_left hnew, and_iff_right hacts]
  | some i =>
    dsimp only
    split_ifs with hmust
    · exact ⟨by rw [within_append, and_iff_right hacts], rfl⟩
    · refine ⟨?_, rfl⟩
      unfold openEntry
      dsimp only
      rw [within_append, within_append, and_iff_left hlast, and_iff_right hacts]

/-- If the call gets as far as the directory, this has at most `LF_NUM_DIR_ENT` files, or the name
is found in it before its end. -/
def EndsInside (s : RawLfs) (name : ℕ → UInt8) (mode : CString) (sector : Option (ℕ → UInt8)) : Prop :=
  (s.check name mode).2 ≠ none → (s.readDir sector).2 = true →
    lfd_nfiles (s.readDir sector).1.lf_dir ≤ LF_NUM_DIR_ENT ∨
      ∃ i < LF_NUM_DIR_ENT, Matches name (ld_name (s.readDir sector).1.lf_dir i)

/-- **A directory with at most `LF_NUM_DIR_ENT` files is harmless**, whatever else its bytes are,
and one with more files exactly for the names in its entries. -/
theorem lfsopen_harmless (hs : s.Checked) (name : ℕ → UInt8) (mode : CString) (sector : Option (ℕ → UInt8)) :
    s.Harmless name mode sector ↔ s.EndsInside name mode sector := by
  -- Checks on the arguments come first, and they stay inside.
  obtain ⟨hw, hfound⟩ := @check_spec s name mode
  unfold Harmless EndsInside lfsopen
  dsimp only
  cases hcheck : (s.check name mode).2 with
  | none => exact iff_of_true ⟨.inr hw, rfl⟩ fun h => absurd rfl h
  | some p =>
    obtain ⟨mbits, lfnext⟩ := p
    obtain ⟨hlen, hnext⟩ := hfound mbits lfnext hcheck
    dsimp only
    by_cases hread : (s.readDir sector).2 = true
    -- The directory has been read, with a count that is not negative.
    · obtain ⟨-, hn⟩ := readDir_checked hs hread
      rw [if_pos hread]
      generalize (s.readDir sector).1 = s₁ at hn ⊢
      generalize lfd_nfiles s₁.lf_dir = nfiles at hn ⊢
      obtain ⟨hacts, hmutex⟩ := @enter_spec s₁ name mbits lfnext nfiles _ hlen hnext hn hw
      rw [hmutex, hacts, searchDir_within hlen, hread]
      dsimp only [LF_NUM_DIR_ENT]
      -- The search ends inside for the entries that there are, or by a name before the end.
      constructor
      · rintro ⟨⟨-, h⟩ | h | h | ⟨j, -, hj, -, hm⟩, -⟩ - -
        · cases h
        · exact .inl (by omega)
        · exact .inl (by omega)
        · exact .inr ⟨j, hj, hm⟩
      · intro h
        refine ⟨.inr ?_, rfl⟩
        rcases h (by simp) rfl with h | ⟨j, hj, hm⟩
        · exact .inr (.inl (by omega))
        · by_cases hle : nfiles ≤ 20
          · exact .inr (.inl (by omega))
          · exact .inr (.inr ⟨j, Nat.zero_le j, hj, by omega, hm⟩)
    · rw [if_neg hread]
      exact iff_of_true ⟨.inr hw, rfl⟩ fun _ h => absurd h hread

/-! ## Later calls -/

/-- A new entry leaves the rest of the sector. -/
theorem newEntry_of_ne (hlen : nameLength name LF_NAME_LEN 0 < LF_NAME_LEN)
    (hi : i < LF_NUM_DIR_ENT) {j : ℕ} (hj : j < 24 ∨ 508 ≤ j) :
    newEntry dir name i j = dir j := by
  have hbytes : (nameBytes name).length ≤ 16 := by
    unfold nameBytes
    rw [length_bytesAt]
    exact hlen
  have hi : i < 20 := hi
  unfold newEntry ldentryAt
  rw [store32_of_ne (by omega)]
  rcases hj with hj | hj
  · rw [put_of_lt _ (by omega), store32_of_ne (by omega), store32_of_ne (by omega)]
  · rw [put_of_ge _ (by omega), store32_of_ne (by omega), store32_of_ne (by omega)]

/-- The number of files with a new entry. -/
theorem newEntry_nfiles (hi : i < LF_NUM_DIR_ENT) : le32 (newEntry dir name i) 24 = i + 1 := by
  have hi : i < 20 := hi
  have hsame : le32 (newEntry dir name i) 24 = le32 (store32 dir 24 (i + 1)) 24 := by
    refine le32_congr fun j hj hlt => ?_
    unfold newEntry ldentryAt
    rw [store32_of_ne (by omega), put_of_lt _ (by omega), store32_of_ne (by omega)]
  rw [hsame, le32_store32 (by omega)]

/-- A new entry keeps what `lfscheck` looks at. -/
theorem newEntry_checked (hlen : nameLength name LF_NAME_LEN 0 < LF_NAME_LEN)
    (hi : i < LF_NUM_DIR_ENT) (h : lfscheckSector dir = OK) :
    lfscheckSector (newEntry dir name i) = OK := by
  have hword : ∀ k, k + 4 ≤ 24 ∨ 508 ≤ k → le32 (newEntry dir name i) k = le32 dir k := fun k hk =>
    le32_congr fun j hj hlt => newEntry_of_ne hlen hi (by omega)
  have hfiles : ¬ lfd_nfiles (newEntry dir name i) < 0 := by
    have hi : i < 20 := hi
    rw [lfd_nfiles, newEntry_nfiles hi, int32_of_mem (by omega) (by omega)]
    omega
  unfold lfscheckSector at h ⊢
  rw [hword 0 (by omega), hword 8 (by omega), hword 12 (by omega), hword 508 (by omega), if_neg hfiles]
  split_ifs at h ⊢ with hid hrev
  · exact h
  · exact h
  · rfl
  · rfl

/-- With the directory in memory, what has passed `lfscheck` passes it again. -/
theorem enter_checked {mbits lfnext : ℕ} {nfiles : ℤ} {acts : Footprint DirField}
    (hlen : nameLength name LF_NAME_LEN 0 < LF_NAME_LEN)
    (hok : lfscheckSector s.lf_dir = OK) : (s.enter nfiles name mbits lfnext acts).state.Checked := by
  unfold enter
  dsimp only
  cases (searchDir s.lf_dir name nfiles.toNat 0).2 with
  | some j =>
    dsimp only
    split_ifs with hnew
    · exact fun _ => hok
    · exact fun _ => hok
  | none =>
    dsimp only
    split_ifs with hold hfull
    · exact fun _ => hok
    · exact fun _ => hok
    · have hi : nfiles.toNat < LF_NUM_DIR_ENT := by
        dsimp only [LF_NUM_DIR_ENT] at hfull ⊢
        omega
      exact fun _ => newEntry_checked hlen hi hok

/-- A directory that was refused is not present. -/
theorem readDir_absent (h : (s.readDir sector).2 = false) : (s.readDir sector).1.lf_dirpresent = false := by
  unfold readDir at h ⊢
  by_cases hp : s.lf_dirpresent = true
  · rw [if_pos hp] at h
    cases h
  rw [if_neg hp] at h ⊢
  have hp := Bool.eq_false_iff.mpr hp
  cases sector with
  | none => exact hp
  | some b =>
    dsimp only at h ⊢
    generalize overlay s.lf_dir b LF_BLKSIZ = dir at h ⊢
    by_cases hc : lfscheckSector dir = SYSERR
    · rw [if_pos hc]
      exact hp
    · rw [if_neg hc] at h
      cases h

/-- **In every later call the directory in memory has passed `lfscheck`** too. -/
theorem lfsopen_checked (hs : s.Checked) (name : ℕ → UInt8) (mode : CString) (sector : Option (ℕ → UInt8)) :
    (s.lfsopen name mode sector).state.Checked := by
  obtain ⟨-, hfound⟩ := @check_spec s name mode
  unfold lfsopen
  dsimp only
  cases hcheck : (s.check name mode).2 with
  | none => exact hs
  | some p =>
    obtain ⟨mbits, lfnext⟩ := p
    obtain ⟨hlen, -⟩ := hfound mbits lfnext hcheck
    dsimp only
    by_cases hread : (s.readDir sector).2 = true
    · rw [if_pos hread]
      exact enter_checked hlen (readDir_checked hs hread).1
    · rw [if_neg hread]
      have habsent := readDir_absent (Bool.eq_false_iff.mpr hread)
      exact fun hpres => absurd (habsent.symm.trans hpres) Bool.false_ne_true

end

/-- After `lfsinit` and `lflinit`, with a disk that has been chosen. -/
def booted : RawLfs where
  lf_dskdev := 2
  lf_dir _ := 0
  lf_dirpresent := false
  lfltab i := ⟨false, LFILE0 + i, 0, 0, 0, fun _ => 0, 0, 0, LF_BLKSIZ, false, false⟩

end RawLfs

/-- A sector with the constants of a directory and this number of files, without names. -/
def sectorOf (nfiles : UInt8) : ℕ → UInt8 := fun j =>
  if j < 4 then [0x75, 0x6E, 0x69, 0x58].getD j 0
  else if 12 ≤ j ∧ j < 16 then 0xff
  else if j = 24 then nfiles
  else if 508 ≤ j then [0x58, 0x69, 0x6E, 0x75].getD (j - 508) 0
  else 0

/-- A directory with one file is harmless. -/
theorem lfsopen_harmless_one : RawLfs.booted.Harmless (ofList [97]) [114] (some (sectorOf 1)) :=
  (RawLfs.lfsopen_harmless (fun h => by cases h) _ _ _).mpr fun _ _ => .inl (by decide +kernel)

/-- A sector that says that there are 21 files is accepted, and the search reads the name of an
entry that does not exist. -/
theorem lfsopen_leaves : lfscheckSector (sectorOf 21) = OK ∧ ¬ RawLfs.booted.Harmless (ofList [97])
    [114] (some (sectorOf 21)) := by
  have hfacts : lfscheckSector (sectorOf 21) = OK ∧ (RawLfs.booted.readDir (some (sectorOf 21))).2 = true ∧
      ⟨.ld_name 20, 0, 1⟩ ∈ (RawLfs.booted.lfsopen (ofList [97]) [114] (some (sectorOf 21))).acts := by
    decide +kernel
  obtain ⟨hcheck, hread, hmem⟩ := hfacts
  refine ⟨hcheck, ?_⟩
  rintro ⟨⟨-, hno⟩ | hw, -⟩
  · rw [hread] at hno
    cases hno
  · have := hw _ hmem
    revert this
    decide

end Xinu
