import Xinu.Lfs.File

/-!
# Files as byte arrays

What the local file system is for: a file is an array of bytes that grows, an open file has a
position in it, and the bytes are still there when the file is opened again.
-/

namespace Xinu

/-- An array of bytes, and a position in it. -/
structure ByteStream where
  /-- The bytes. -/
  bytes : List UInt8
  /-- The position. -/
  pos : ℕ

namespace ByteStream

/-- A byte is written at the position, or the array grows by it. -/
def put (f : ByteStream) (ch : UInt8) : ByteStream × ℤ :=
  if f.pos > f.bytes.length then (f, SYSERR)
    else (⟨f.bytes.take f.pos ++ ch :: f.bytes.drop (f.pos + 1), f.pos + 1⟩, OK)

/-- The byte at the position, if the position is not at the end. -/
def get (f : ByteStream) : ByteStream × ℤ :=
  match f.bytes[f.pos]? with
  | none => (f, EOF)
  | some ch => (⟨f.bytes, f.pos + 1⟩, (ch.toNat : ℤ))

/-- Another position, at most the end. -/
def seek (f : ByteStream) (offset : ℕ) : ByteStream × ℤ :=
  if offset > f.bytes.length then (f, SYSERR) else (⟨f.bytes, offset⟩, OK)

/-- All bytes are removed. -/
def truncate (_ : ByteStream) : ByteStream × ℤ := (⟨[], 0⟩, OK)

end ByteStream

/-- A file and its name. -/
structure ByteFile where
  /-- The name of the file. -/
  name : CString
  /-- Its bytes. -/
  bytes : List UInt8

/-- The files, and for each device the place of the file that is open there, with the position. -/
structure Files where
  /-- The files, in the order in which they were made. -/
  files : List ByteFile
  /-- Which of them is open at each device, and the position. -/
  opened : ℕ → Option (ℕ × ℕ)

namespace Files

/-- No files. -/
def empty : Files := ⟨[], fun _ => none⟩

/-- The file is open at some device. -/
def isOpen (a : Files) (k : ℕ) : Prop := ∃ i < Nlfl, (a.opened i).map Prod.fst = some k

instance (a : Files) (k : ℕ) : Decidable (a.isOpen k) := by unfold isOpen; infer_instance

/-- A device that is free. -/
def freeDevice (a : Files) : Option ℕ := (List.range Nlfl).find? fun i => a.opened i = none

/-- A file is opened, at its beginning. -/
def openAt (a : Files) (i k : ℕ) : Files × ℤ :=
  ({ a with opened := Function.update a.opened i (some (k, 0)) }, LFILE0 + i)

/-- A file of this name is opened or created, as the mode says. -/
def lfsopen (a : Files) (name mode : CString) : Files × ℤ :=
  match lfgetmode mode, a.freeDevice with
  | some mbits, some i =>
    if name.length ≥ LF_NAME_LEN then (a, SYSERR)
    else
      match a.files.findIdx? fun f => f.name = name with
      | some k => if a.isOpen k ∨ mbits &&& LF_MODE_N ≠ 0 then (a, SYSERR) else a.openAt i k
      | none =>
        if mbits &&& LF_MODE_O ≠ 0 ∨ a.files.length ≥ LF_NUM_DIR_ENT then (a, SYSERR)
        else openAt { a with files := a.files ++ [⟨name, []⟩] } i a.files.length
  | _, _ => (a, SYSERR)

/-- An operation on the file that is open at some device. -/
def onStream (a : Files) (i : ℕ) (op : ByteStream → ByteStream × ℤ) : Files × ℤ :=
  match a.opened i with
  | none => (a, SYSERR)
  | some (k, pos) =>
    let r := op ⟨((a.files[k]?).map ByteFile.bytes).getD [], pos⟩
    (⟨a.files.modify k fun f => { f with bytes := r.1.bytes },
      Function.update a.opened i (some (k, r.1.pos))⟩, r.2)

/-- One call, with its result. -/
def exec (a : Files) : LfEvent → Files × ℤ
  | .lfsopen name mode => a.lfsopen name mode
  | .lflputc i ch => a.onStream i fun f => f.put ch
  | .lflgetc i => a.onStream i ByteStream.get
  | .lflseek i offset => a.onStream i fun f => f.seek offset
  | .lflcontrol i func _ => a.onStream i fun f => if func = LF_CTL_TRUNC then f.truncate else (f, SYSERR)
  | .lflclose i =>
    match a.opened i with
    | none => (a, SYSERR)
    | some _ => ({ a with opened := Function.update a.opened i none }, OK)

end Files

end Xinu
