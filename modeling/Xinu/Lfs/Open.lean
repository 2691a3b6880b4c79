import Xinu.Kernel.Sys
import Xinu.Lib.Semaphore

/-!
# Opening local files

`lfsopen` and `lflclose` of `device/lfs`. `open` and `close` disable interrupts, so that a process
gives up the processor only where it waits: for the mutex of the directory or of a file, in the read
of the directory by the first `lfsopen`, and in the writes of `lfflush`. `lfsopen` looks for a free
entry of `lfltab` and for the name in it before it waits, and claims the entry after that.
-/

namespace Xinu

/-- A string, without the null character behind it. -/
abbrev CString := List UInt8

/-- `Nlfl`. -/
abbrev Nlfl : ℕ := 6

/-- `LF_NAME_LEN`. -/
abbrev LF_NAME_LEN : ℕ := 16

/-- `LF_NUM_DIR_ENT`. -/
abbrev LF_NUM_DIR_ENT : ℕ := 20

/-- `LF_INULL`. -/
abbrev LF_INULL : ℤ := -1

/-- `LF_MODE_R`. -/
abbrev LF_MODE_R : ℕ := 0x01

/-- `LF_MODE_W`. -/
abbrev LF_MODE_W : ℕ := 0x02

/-- `LF_MODE_RW`. -/
abbrev LF_MODE_RW : ℕ := 0x03

/-- `LF_MODE_N`. -/
abbrev LF_MODE_N : ℕ := 0x04

/-- `LF_MODE_O`. -/
abbrev LF_MODE_O : ℕ := 0x08

/-- `struct ldentry`. -/
structure Ldentry where
  /-- The length of the file. -/
  ld_size : ℕ
  /-- Its first index block. -/
  ld_ilist : ℤ
  /-- Its name. -/
  ld_name : CString
  deriving DecidableEq

/-- The loop of `lfgetmode`. -/
def lfgetmode.loop (mbits : ℕ) : CString → Option ℕ
  | [] => some mbits
  | ch :: mode =>
    if ch = 114 then -- 'r'
      if mbits &&& LF_MODE_R ≠ 0 then none else lfgetmode.loop (mbits ||| LF_MODE_R) mode
    else if ch = 119 then -- 'w'
      if mbits &&& LF_MODE_W ≠ 0 then none else lfgetmode.loop (mbits ||| LF_MODE_W) mode
    else if ch = 111 then -- 'o'
      if mbits &&& LF_MODE_O ≠ 0 ∨ mbits &&& LF_MODE_N ≠ 0 then none
        else lfgetmode.loop (mbits ||| LF_MODE_O) mode
    else if ch = 110 then -- 'n'
      if mbits &&& LF_MODE_O ≠ 0 ∨ mbits &&& LF_MODE_N ≠ 0 then none
        else lfgetmode.loop (mbits ||| LF_MODE_N) mode
    else none

/-- `lfgetmode(mode)`, where nothing stands for `SYSERR`. -/
def lfgetmode (mode : CString) : Option ℕ :=
  (lfgetmode.loop 0 mode).map fun mbits => if mbits &&& LF_MODE_RW = 0 then mbits ||| LF_MODE_RW else mbits

/-- The comparison of two names in `lfsopen`. -/
def sameName : CString → CString → Bool
  | [], cmp => cmp = []
  | _ :: _, [] => false
  | n :: nam, c :: cmp => if n = c then sameName nam cmp else false

/-- A call of `lfsopen` that has found a free entry, and has not claimed it. -/
structure Opening where
  /-- The process that has called. -/
  pid : ℤ
  /-- The name of the file. -/
  name : CString
  /-- The bits of the mode. -/
  mbits : ℕ
  /-- The control block that has been free. -/
  lfnext : ℕ
  deriving DecidableEq

/-- The fields of `struct lflcblk` that are used here. The mutex has the processes in `lflclose`. -/
structure Lflcblk where
  /-- The state is `LF_USED`. -/
  lfused : Bool
  /-- The mutex of the file. -/
  lfmutex : Semaphore ℤ
  /-- The place of the file's entry in the directory. -/
  lfdirptr : ℕ
  /-- The mode: to read, to write, or both. -/
  lfmode : ℕ
  /-- The name of the file. -/
  lfname : CString

/-- The fields of `Lf_data` and `lfltab` that are used here, with the opens that have succeeded and
are not closed: the entry and the name. -/
structure LfsTable where
  /-- The device of the disk. -/
  lf_dskdev : ℤ
  /-- The mutex of the directory. -/
  lf_mutex : Semaphore Opening
  /-- The files of the directory in memory. -/
  lf_dir : List Ldentry
  /-- Whether the directory has been read. -/
  lf_dirpresent : Bool
  /-- The control blocks. -/
  lfltab : ℕ → Lflcblk
  /-- The files of the directory on disk, if the disk holds a file system. -/
  sector : Option (List Ldentry)
  /-- The call that reads the directory from disk. -/
  reading : Option Opening
  /-- The process that is in `lfflush` for an entry. -/
  flushing : ℕ → Option ℤ
  /-- The opens that have succeeded and are not closed. -/
  opened : List (ℕ × CString)

namespace LfsTable

/-- `lfsinit` and `lflinit`, and a disk that has been chosen. -/
def booted (dskdev : ℤ) (sector : Option (List Ldentry)) : LfsTable where
  lf_dskdev := dskdev
  lf_mutex := .create 1
  lf_dir := []
  lf_dirpresent := false
  lfltab _ := ⟨false, .create 1, 0, 0, []⟩
  sector := sector
  reading := none
  flushing _ := none
  opened := []

/-- The search of `lfsopen` through `lfltab`, from some entry on: nothing if the name is open, else
the first free entry, if there is one. -/
def searchOpen (tab : ℕ → Lflcblk) (name : CString) : List ℕ → Option ℕ → Option (Option ℕ)
  | [], lfnext => some lfnext
  | i :: is, lfnext =>
    if ¬ (tab i).lfused then searchOpen tab name is (if lfnext = none then some i else lfnext)
    else if sameName name (tab i).lfname then none
    else searchOpen tab name is lfnext

/-- The tests of `lfsopen` before it waits for the mutex. -/
def check (s : LfsTable) (pid : ℤ) (name mode : CString) : Option Opening :=
  if s.lf_dskdev < 0 then none
  else if name.length ≥ LF_NAME_LEN then none
  else
    match lfgetmode mode, searchOpen s.lfltab name (List.range Nlfl) none with
    | some mbits, some (some lfnext) => some ⟨pid, name, mbits, lfnext⟩
    | _, _ => none

/-- The place of the file in the directory, and the directory that has it: nothing if the mode or a
full directory forbids it. -/
def place (dir : List Ldentry) (o : Opening) : Option (ℕ × List Ldentry) :=
  match dir.findIdx? fun ldptr => sameName o.name ldptr.ld_name with
  | none =>
    if o.mbits &&& LF_MODE_O ≠ 0 then none
    else if dir.length ≥ LF_NUM_DIR_ENT then none
    else some (dir.length, dir ++ [⟨0, LF_INULL, o.name⟩])
  | some i => if o.mbits &&& LF_MODE_N ≠ 0 then none else some (i, dir)

/-- `lfsopen`, from the search of the directory to the end. -/
def claim (s : LfsTable) (o : Opening) : LfsTable :=
  match place s.lf_dir o with
  | none => { s with lf_mutex := s.lf_mutex.signal }
  | some (ldptr, dir) =>
    { s with
      lf_dir := dir
      lfltab := Function.update s.lfltab o.lfnext
        { s.lfltab o.lfnext with lfused := true, lfdirptr := ldptr, lfmode := o.mbits &&& LF_MODE_RW,
                                 lfname := o.name }
      lf_mutex := s.lf_mutex.signal
      opened := s.opened ++ [(o.lfnext, o.name)] }

/-- `lfsopen`, with the mutex: the directory is read first if it is not present. -/
def enter (s : LfsTable) (o : Opening) : LfsTable :=
  if s.lf_dirpresent then s.claim o else { s with reading := some o }

/-- `lfsopen(devptr, name, mode)`. -/
def lfsopen (s : LfsTable) (pid : ℤ) (name mode : CString) : LfsTable :=
  match s.check pid name mode with
  | none => s
  | some o =>
    let waited := s.lf_mutex.wait o
    if waited.1 then enter { s with lf_mutex := waited.2 } o else { s with lf_mutex := waited.2 }

/-- A call of `lfsopen` that has waited for the mutex goes on. -/
def resumeOpen (s : LfsTable) (k : ℕ) : Option LfsTable :=
  (s.lf_mutex.resume k).map fun r => enter { s with lf_mutex := r.2 } r.1

/-- The read of the directory ends, with an error or not. What was read is used if `lfscheck` finds
a file system. -/
def diskRead (s : LfsTable) (ok : Bool) : Option LfsTable :=
  s.reading.map fun o =>
    let s := { s with reading := none }
    match if ok then s.sector else none with
    | some dir => { s with lf_dir := dir, lf_dirpresent := true }.claim o
    | none => { s with lf_mutex := s.lf_mutex.signal }

/-- The end of `lflclose`. -/
def free (s : LfsTable) (i : ℕ) : LfsTable :=
  { s with
    lfltab :=
      Function.update s.lfltab i { s.lfltab i with lfused := false, lfmutex := (s.lfltab i).lfmutex.signal }
    flushing := Function.update s.flushing i none
    opened := s.opened.filter fun o => o.1 ≠ i }

/-- `lflclose`, with the mutex of the file. It flushes the file if something is dirty. -/
def closing (s : LfsTable) (pid : ℤ) (i : ℕ) (dirty : Bool) : LfsTable :=
  if ¬ (s.lfltab i).lfused then
    { s with lfltab := Function.update s.lfltab i { s.lfltab i with lfmutex := (s.lfltab i).lfmutex.signal } }
  else if dirty then { s with flushing := Function.update s.flushing i (some pid) }
  else s.free i

/-- `lflclose(devptr)`, for the file in some entry. -/
def lflclose (s : LfsTable) (pid : ℤ) (i : ℕ) (dirty : Bool) : LfsTable :=
  let waited := (s.lfltab i).lfmutex.wait pid
  let s := { s with lfltab := Function.update s.lfltab i { s.lfltab i with lfmutex := waited.2 } }
  if waited.1 then s.closing pid i dirty else s

/-- A call of `lflclose` that has waited goes on. -/
def resumeClose (s : LfsTable) (i k : ℕ) (dirty : Bool) : Option LfsTable :=
  ((s.lfltab i).lfmutex.resume k).map fun r =>
    { s with lfltab := Function.update s.lfltab i { s.lfltab i with lfmutex := r.2 } }.closing r.1 i dirty

/-- The writes of `lfflush` end. -/
def flushed (s : LfsTable) (i : ℕ) : Option LfsTable := (s.flushing i).map fun _ => s.free i

end LfsTable

/-- What can happen. -/
inductive LfsEvent where
  | lfsopen (pid : ℤ) (name mode : CString)
  /-- The `k`-th process that has been woken for the mutex of the directory goes on. -/
  | resumeOpen (k : ℕ)
  | diskRead (ok : Bool)
  | lflclose (pid : ℤ) (i : ℕ) (dirty : Bool)
  /-- The `k`-th process that has been woken for the mutex of a file goes on. -/
  | resumeClose (i k : ℕ) (dirty : Bool)
  | flushed (i : ℕ)

/-- One step. -/
def LfsTable.exec (s : LfsTable) : LfsEvent → Option LfsTable
  | .lfsopen pid name mode => some (s.lfsopen pid name mode)
  | .resumeOpen k => s.resumeOpen k
  | .diskRead ok => s.diskRead ok
  | .lflclose pid i dirty => some (s.lflclose pid i dirty)
  | .resumeClose i k dirty => s.resumeClose i k dirty
  | .flushed i => s.flushed i

/-- A run from one state to another, with steps that meet a condition. -/
inductive LfsRun (C : LfsTable → LfsEvent → Prop) (s₀ : LfsTable) : LfsTable → Prop where
  | start : LfsRun C s₀ s₀
  | step {s s' : LfsTable} {e : LfsEvent} (hr : LfsRun C s₀ s) (hC : C s e) (he : s.exec e = some s') :
    LfsRun C s₀ s'

end Xinu
