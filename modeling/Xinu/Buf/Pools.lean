import Xinu.Kernel.Sys
import Xinu.Lib.Blocks
import Xinu.Lib.Semaphore

/-!
# Buffer pools

`bufinit.c`, `mkbufpool.c`, `getbuf.c` and `freebuf.c`, over a memory of bytes. The first four bytes
of a buffer that is free link it to the next one, and those of a buffer that a process has hold the
ID of its pool. A call runs with interrupts disabled up to its wait: there a step ends. The history,
which the code does not have, is where the memory of each pool is, and which buffers are lent to
whom.
-/

namespace Xinu

open Bytes

/-- `NBPOOLS`. -/
abbrev NBPOOLS : ℕ := 20

/-- `BP_MAXB`. -/
abbrev BP_MAXB : ℤ := 8192

/-- `BP_MINB`. -/
abbrev BP_MINB : ℤ := 8

/-- `BP_MAXN`. -/
abbrev BP_MAXN : ℤ := 2048

/-- `struct bpentry`, with the processes that wait in `getbuf`. -/
structure BpEntry where
  /-- The first free buffer, or 0. -/
  bpnext : ℕ
  /-- The semaphore that counts the free buffers. -/
  bpsem : Semaphore ℕ
  /-- The size of a buffer of this pool. -/
  bpsize : ℕ

/-- A buffer that a process has. -/
structure BufLoan where
  /-- The process that has it. -/
  pid : ℕ
  /-- The pool that it was taken from. -/
  poolid : ℕ
  /-- Its address, as `getbuf` returns it: behind the pool number. -/
  bufaddr : ℕ
  deriving DecidableEq

/-- The buffer pools. -/
structure BufPools where
  /-- The table of pools. -/
  buftab : ℕ → BpEntry
  /-- How many pools have been made. -/
  nbpools : ℕ
  /-- Memory. -/
  mem : ℕ → UInt8
  /-- A null pointer has been followed. -/
  fault : Bool
  /-- The buffers that `getbuf` has returned and `freebuf` has not taken back. -/
  loans : List BufLoan
  /-- The block of memory that each pool was made from. -/
  base : ℕ → ℕ
  /-- How many buffers each pool was made with. -/
  count : ℕ → ℕ

namespace BufPools

/-- `bufinit()`, in some memory. -/
def bufinit (mem : ℕ → UInt8) : BufPools where
  buftab _ := ⟨0, .create 0, 0⟩
  nbpools := 0
  mem := mem
  fault := false
  loans := []
  base _ := 0
  count _ := 0

/-- The size of a request, rounded up to a multiple of 4. -/
def roundbuf (bufsiz : ℤ) : ℕ := (bufsiz.toNat + 3) / 4 * 4

/-- The request is within the bounds. -/
def Accepts (s : BufPools) (bufsiz numbufs : ℤ) : Prop :=
  ¬ (bufsiz < BP_MINB ∨ bufsiz > BP_MAXB ∨ numbufs < 1 ∨ numbufs > BP_MAXN ∨ s.nbpools ≥ NBPOOLS)

instance (s : BufPools) (bufsiz numbufs : ℤ) : Decidable (s.Accepts bufsiz numbufs) := instDecidableNot

/-- `mkbufpool(bufsiz, numbufs)`, with what `getmem` returns, and whether `semcreate` finds a free entry. -/
def mkbufpool (s : BufPools) (bufsiz numbufs : ℤ) (getmem : Option ℕ) (semcreate : Bool) : ℤ × BufPools :=
  if ¬ s.Accepts bufsiz numbufs then (SYSERR, s)
  else
    let bufsiz := roundbuf bufsiz
    let poolid := s.nbpools
    match getmem with
    | none => (SYSERR, s)
    | some buf =>
      if semcreate then
        (poolid, { s with
          buftab := Function.update s.buftab poolid ⟨buf, .create numbufs, bufsiz⟩
          nbpools := poolid + 1
          mem := Blocks.linkLoop (bufsiz + 4) (numbufs.toNat - 1) buf s.mem
          base := Function.update s.base poolid buf
          count := Function.update s.count poolid numbufs.toNat })
      else
        (SYSERR, { s with
          buftab := Function.update s.buftab poolid
            { s.buftab poolid with bpnext := buf, bpsize := bufsiz } })

/-- The part of `getbuf` behind the wait. -/
def take (s : BufPools) (pid poolid : ℕ) : BufPools :=
  let bpptr := s.buftab poolid
  let bufptr := bpptr.bpnext
  if bufptr = 0 then { s with fault := true }
  else
    { s with
      buftab := Function.update s.buftab poolid { bpptr with bpnext := le32 s.mem bufptr }
      mem := store32 s.mem bufptr poolid
      loans := s.loans ++ [⟨pid, poolid, bufptr + 4⟩] }

/-- `getbuf(poolid)`, called by a process. A call that is refused returns `SYSERR` and changes nothing. -/
def getbuf (s : BufPools) (pid : ℕ) (poolid : ℤ) : BufPools :=
  if poolid < 0 ∨ poolid ≥ s.nbpools then s
  else
    let p := poolid.toNat
    let r := (s.buftab p).bpsem.wait pid
    let s := { s with buftab := Function.update s.buftab p { s.buftab p with bpsem := r.2 } }
    if r.1 then s.take pid p else s

/-- The `k`-th process that a signal has woken in `getbuf` goes on. -/
def resume (s : BufPools) (p k : ℕ) : Option BufPools :=
  ((s.buftab p).bpsem.resume k).map fun r =>
    BufPools.take { s with buftab := Function.update s.buftab p { s.buftab p with bpsem := r.2 } } r.1 p

/-- `freebuf(bufaddr)`. -/
def freebuf (s : BufPools) (bufaddr : ℕ) : ℤ × BufPools :=
  let buf := bufaddr - 4
  let poolid := int32 (le32 s.mem buf)
  if poolid < 0 ∨ poolid ≥ s.nbpools then (SYSERR, s)
  else
    let bpptr := s.buftab poolid.toNat
    (OK, { s with
      mem := store32 s.mem buf bpptr.bpnext
      buftab := Function.update s.buftab poolid.toNat
        { bpptr with bpnext := buf, bpsem := bpptr.bpsem.signal } })

end BufPools

/-- What can happen. -/
inductive BpEvent where
  | mkbufpool (bufsiz numbufs : ℤ) (getmem : Option ℕ) (semcreate : Bool)
  | getbuf (pid : ℕ) (poolid : ℤ)
  /-- A process goes on that has been woken in `getbuf`. -/
  | woken (p k : ℕ)
  /-- The process that has the `k`-th buffer that is lent calls `freebuf` for it. -/
  | freebuf (k : ℕ)
  /-- Some process writes a byte. -/
  | write (a : ℕ) (x : UInt8)

/-- One step, if it is possible. -/
def BufPools.exec (s : BufPools) : BpEvent → Option BufPools
  | .mkbufpool bufsiz numbufs getmem semcreate => some (s.mkbufpool bufsiz numbufs getmem semcreate).2
  | .getbuf pid poolid => some (s.getbuf pid poolid)
  | .woken p k => if p < s.nbpools then s.resume p k else none
  | .freebuf k =>
    s.loans[k]?.map fun l => (BufPools.freebuf { s with loans := s.loans.eraseIdx k } l.bufaddr).2
  | .write a x => some { s with mem := Function.update s.mem a x }

/-- A run from one state to another, with steps that meet a condition. -/
inductive BpRun (C : BufPools → BpEvent → Prop) (s₀ : BufPools) : BufPools → Prop where
  | start : BpRun C s₀ s₀
  | step {s s' : BufPools} {e : BpEvent} (hr : BpRun C s₀ s) (hC : C s e) (he : s.exec e = some s') :
    BpRun C s₀ s'

end Xinu
