import Xinu.Lfs.Blocks
import Xinu.Lib.Bytes
import Xinu.Lib.Strings

/-!
# The name space

`mount`, `namlen`, `namcpy`, `namrepl` and `nammap` of `device/nam`, on the bytes of the names, and
what they are for: a table of prefixes, each with a replacement and a device (`Mapping`). A name is
looked up again as long as the device is that of the name space.
-/

namespace Xinu

open Bytes

/-- `NM_PRELEN`. -/
abbrev NM_PRELEN : ℕ := 64

/-- `NM_REPLLEN`. -/
abbrev NM_REPLLEN : ℕ := 96

/-- `NM_MAXLEN`. -/
abbrev NM_MAXLEN : ℕ := 256

/-- `NNAMES`. -/
abbrev NNAMES : ℕ := 128

/-- The value of a variable of type `char`, which has a sign. -/
def signedChar (x : ℤ) : ℤ := x.bmod 256

/-- `struct nmentry`. -/
structure Nmentry where
  /-- The prefix, null-terminated. -/
  nprefix : ℕ → UInt8
  /-- The replacement, null-terminated. -/
  nreplace : ℕ → UInt8
  /-- The device. -/
  ndevice : ℤ

/-- `nametab` and `nnames`. -/
structure NameTable where
  /-- The entries. -/
  nametab : ℕ → Nmentry
  /-- How many are in use. -/
  nnames : ℕ

/-- The loop of `namlen`. -/
def namlen.loop (name : ℕ → UInt8) : ℕ → ℕ → ℤ
  | 0, _ => SYSERR
  | n + 1, i => if name i = 0 then (i : ℤ) + 1 else namlen.loop name n (i + 1)

/-- `namlen(name, maxlen)`. -/
def namlen (name : ℕ → UInt8) (maxlen : ℕ) : ℤ := namlen.loop name maxlen 0

/-- The loop of `namcpy`. -/
def namcpy.loop (oldname : ℕ → UInt8) : ℕ → ℕ → (ℕ → UInt8) → (ℕ → UInt8) × ℤ
  | 0, _, newname => (newname, SYSERR)
  | n + 1, cnt, newname =>
    let newname := Function.update newname cnt (oldname cnt)
    if oldname cnt = 0 then (newname, OK) else namcpy.loop oldname n (cnt + 1) newname

/-- `namcpy(newname, oldname, buflen)`. -/
def namcpy (newname oldname : ℕ → UInt8) (buflen : ℕ) : (ℕ → UInt8) × ℤ :=
  namcpy.loop oldname buflen 0 newname

namespace NameTable

/-- `mount(prefix, replace, device)`. -/
def mount (s : NameTable) (pre replace : ℕ → UInt8) (device : ℤ) : NameTable × ℤ :=
  let psiz := namlen pre NM_PRELEN
  let rsiz := namlen replace NM_REPLLEN
  if s.nnames ≥ NNAMES then (s, SYSERR)
  else if psiz = SYSERR ∨ rsiz = SYSERR ∨ device < 0 ∨ device ≥ NDEVS then (s, SYSERR)
  else
    let namptr := s.nametab s.nnames
    let namptr :=
      { nprefix := put namptr.nprefix 0 (bytesAt pre 0 psiz.toNat),
        nreplace := put namptr.nreplace 0 (bytesAt replace 0 rsiz.toNat)
        ndevice := device }
    ({ nametab := Function.update s.nametab s.nnames namptr, nnames := s.nnames + 1 }, OK)

end NameTable

/-- The loop of `namrepl` that compares a prefix with a name: the place where it stops. -/
def comparePrefix (pptr optr : ℕ → UInt8) : ℕ → ℕ → ℕ
  | 0, plen => plen
  | n + 1, plen =>
    if pptr plen = 0 then plen else if pptr plen ≠ optr plen then plen
      else comparePrefix pptr optr n (plen + 1)

namespace NameTable

/-- The loop of `namrepl` through the table: the first entry whose prefix matches, and the length of
the prefix. -/
def firstMatch (s : NameTable) (name : ℕ → UInt8) : ℕ → ℕ → Option (ℕ × ℕ)
  | 0, _ => none
  | n + 1, i =>
    let plen := comparePrefix (Nmentry.nprefix (s.nametab i)) name NM_PRELEN 0
    if Nmentry.nprefix (s.nametab i) plen ≠ 0 then firstMatch s name n (i + 1) else some (i, plen)

/-- `namrepl(name, newname)`. -/
def namrepl (s : NameTable) (name newname : ℕ → UInt8) : (ℕ → UInt8) × ℤ :=
  match s.firstMatch name s.nnames 0 with
  | none => (newname, SYSERR)
  | some (i, plen) =>
    let namptr := s.nametab i
    let olen := signedChar (namlen name NM_MAXLEN)
    let rlen := namlen namptr.nreplace NM_MAXLEN - 1
    let remain := olen - plen
    if rlen + remain > NM_MAXLEN then (newname, SYSERR)
    else
      let newname := put newname 0 (bytesAt namptr.nreplace 0 rlen.toNat)
      (put newname rlen.toNat (bytesAt name plen remain.toNat), namptr.ndevice)

/-- The loop of `nammap`. -/
def nammapLoop (s : NameTable) (namdev : ℤ) : ℕ → (ℕ → UInt8) → (ℕ → UInt8) → (ℕ → UInt8) × ℤ
  | 0, _, newname => (newname, SYSERR)
  | n + 1, tmpname, newname =>
    let r := s.namrepl tmpname newname
    if r.2 ≠ namdev then r else nammapLoop s namdev n (namcpy tmpname r.1 NM_MAXLEN).1 r.1

/-- `nammap(name, newname, namdev)`, where `tmpname` is what the temporary buffer holds at first. -/
def nammap (s : NameTable) (tmpname name newname : ℕ → UInt8) (namdev : ℤ) : (ℕ → UInt8) × ℤ :=
  let r := namcpy tmpname name NM_MAXLEN
  if r.2 = SYSERR then (newname, SYSERR) else s.nammapLoop namdev s.nnames r.1 newname

end NameTable

/-! ## The mapping of names -/

/-- A prefix, its replacement and its device. -/
structure Mapping where
  /-- The prefix. -/
  pre : CString
  /-- The replacement. -/
  repl : CString
  /-- The device. -/
  device : ℤ

/-- The first mapping whose prefix begins the name. -/
def matching (t : List Mapping) (name : CString) : Option Mapping := t.find? fun e => e.pre.isPrefixOf name

/-- The name with another prefix. -/
def Mapping.apply (e : Mapping) (name : CString) : CString := e.repl ++ name.drop e.pre.length

/-- One step: the device and the new name, if a prefix matches and the new name fits. -/
def mapOnce (t : List Mapping) (name : CString) : Option (ℤ × CString) :=
  (matching t name).bind fun e =>
    if (e.apply name).length + 1 > NM_MAXLEN then none else some (e.device, e.apply name)

/-- Steps until another device than that of the name space appears. -/
def mapName (t : List Mapping) (namdev : ℤ) : ℕ → CString → Option (ℤ × CString)
  | 0, _ => none
  | n + 1, name => (mapOnce t name).bind fun r => if r.1 ≠ namdev then some r else mapName t namdev n r.2

/-- The characters of a name before its null character, among the first `maxlen`. -/
def nameText (name : ℕ → UInt8) (maxlen : ℕ) : CString := bytesAt name 0 ((namlen name maxlen).toNat - 1)

/-- A table after `naminit` has emptied it and calls of `mount` have been accepted, with the mappings. -/
inductive Mounted (s₀ : NameTable) : NameTable → List Mapping → Prop where
  | naminit : Mounted s₀ { s₀ with nnames := 0 } []
  | mount {s : NameTable} {t : List Mapping} {pre replace : ℕ → UInt8} {device : ℤ} (h : Mounted s₀ s t)
      (hok : (s.mount pre replace device).2 = OK) :
      Mounted s₀ (s.mount pre replace device).1
      (t ++ [⟨nameText pre NM_PRELEN, nameText replace NM_REPLLEN, device⟩])

end Xinu
