import Xinu.Kernel.Sys
import Xinu.Lfs.Open
import Xinu.Net.ByteOrder

/-!
# The resolver

`dns_bldq`, which writes a question, and `dns_geta` with `dns_getrname`, which read a response. A
response is `len` bytes in the memory from `pkt` on. An access outside it, or outside the buffer for
a name, ends a run; so does the end of the fuel, of which each label, each pointer and each end of a
name takes one.
-/

namespace Xinu

open Bytes

/-- `DNSDATASIZ`. -/
abbrev DNSDATASIZ : ℕ := 500

/-- `sizeof(struct dnspkt) - DNSDATASIZ`, the offset of the data area. -/
abbrev DNS_DATA_AT : ℕ := 12

/-- The offsets of the counts in `struct dnspkt`. -/
abbrev DNS_QUCOUNT_AT : ℕ := 4
@[inherit_doc DNS_QUCOUNT_AT] abbrev DNS_ANCOUNT_AT : ℕ := 6

/-- `DNS_QT_A`. -/
abbrev DNS_QT_A : ℕ := 1

/-- `DNS_QC_IN`. -/
abbrev DNS_QC_IN : ℕ := 1

/-- The size of the buffer `rname`. -/
abbrev RNAME_SIZE : ℕ := 1024

/-- The character between two labels. -/
abbrev DOT : UInt8 := 46

/-! ## The response -/

/-- What ends a run. -/
inductive DnsFault where
  /-- A read behind the response. -/
  | read (offset : ℕ)
  /-- A write outside the buffer for a name. -/
  | write (i : ℤ)
  /-- The fuel is used up. -/
  | fuel
  deriving DecidableEq

/-- A read of so many bytes of the response. -/
def rpktRead (len offset count : ℕ) : Except DnsFault Unit :=
  if offset + count ≤ len then .ok () else .error (.read offset)

/-- A write to the buffer for a name. -/
def rnameWrite (dst : ℕ) : Except DnsFault Unit := if dst < RNAME_SIZE then .ok () else .error (.write dst)

/-- What `dns_getrname` leaves: where it stops, the buffer, and how deep the recursion was. -/
structure Rname where
  /-- Where the reading has stopped in the packet. -/
  son : ℕ
  /-- The buffer with the name. -/
  rname : ℕ → UInt8
  /-- How many calls were nested. -/
  depth : ℕ

/-- The loop that copies a label. -/
def copyLabel (pkt : ℕ → UInt8) (len : ℕ) : ℕ → ℕ → ℕ → (ℕ → UInt8) → Except DnsFault (ℕ → UInt8)
  | 0, _, _, rname => .ok rname
  | llen + 1, son, dst, rname => do
    rpktRead len son 1
    rnameWrite dst
    copyLabel pkt len llen (son + 1) (dst + 1) (Function.update rname dst (pkt son))

/-- `dns_getrname(sop, son, dst)`. The length of a label is at `son`. The loop goes on in the same
activation; a pointer is followed in a new one, of which nothing is used but the buffer. -/
def dns_getrname (pkt : ℕ → UInt8) (len : ℕ) : ℕ → ℕ → ℕ → (ℕ → UInt8) → Except DnsFault Rname
  | 0, _, _, _ => .error .fuel
  | fuel + 1, son, dst, rname => do
    rpktRead len son 1
    let llen := (pkt son).toNat
    if llen = 0 then
      -- the null character goes to the place before, also at the beginning of the buffer
      if dst = 0 then .error (.write (-1)) else .ok ⟨son + 1, Function.update rname (dst - 1) 0, 0⟩
    else if llen ≤ 63 then
      let rname ← copyLabel pkt len llen (son + 1) dst rname
      rnameWrite (dst + llen)
      dns_getrname pkt len fuel (son + 1 + llen) (dst + llen + 1) (Function.update rname (dst + llen) DOT)
    else
      rpktRead len son 2
      let offset := ntohs (le16 pkt son) &&& 0x3fff
      let r ← dns_getrname pkt len fuel offset dst rname
      .ok ⟨son + 2, r.rname, r.depth + 1⟩

/-- The loop of `dns_geta` that skips the name of a question. -/
def skipName (pkt : ℕ → UInt8) (len : ℕ) : ℕ → ℕ → Except DnsFault ℕ
  | 0, _ => .error .fuel
  | fuel + 1, dptr => do
    rpktRead len dptr 1
    let llen := (pkt dptr).toNat
    if llen = 0 then .ok (dptr + 1)
    else if llen > 63 then .ok (dptr + 2)
    else skipName pkt len fuel (dptr + (llen + 1))

/-- The loop of `dns_geta` over the questions. -/
def skipQuestions (pkt : ℕ → UInt8) (len fuel : ℕ) : ℕ → ℕ → Except DnsFault ℕ
  | 0, dptr => .ok dptr
  | qcount + 1, dptr => do
    let dptr ← skipName pkt len fuel dptr
    skipQuestions pkt len fuel qcount (dptr + (2 + 2))

/-- `strncmp(dname, rname, strlen(dname)) == 0`, from a place of the buffer on. -/
def startsWith : CString → ℕ → (ℕ → UInt8) → Bool
  | [], _, _ => true
  | ch :: dname, i, rname => rname i = ch && startsWith dname (i + 1) rname

/-- What `dns_geta` uses of `NetData`. -/
structure LocalNet where
  /-- The mask of the local network. -/
  ipmask : ℕ
  /-- Its prefix. -/
  ipprefix : ℕ

/-- The test for an address of the local network. -/
def LocalNet.onNet (net : LocalNet) (ip : ℕ) : Bool := net.ipmask &&& ip = net.ipprefix

/-- The loop of `dns_geta` over the answers, with the address and the depth so far. -/
def readAnswers (pkt : ℕ → UInt8) (len : ℕ) (net : LocalNet) (dname : CString) (fuel : ℕ) :
    ℕ → ℕ → ℕ → ℕ → (ℕ → UInt8) → Except DnsFault (ℕ × ℕ)
  | 0, _, ipaddr, depth, _ => .ok (ipaddr, depth)
  | acount + 1, dptr, ipaddr, depth, rname => do
    let r ← dns_getrname pkt len fuel dptr 0 rname
    let dptr := r.son
    rpktRead len dptr 2
    let ipaddr ← (do
      if startsWith dname 0 r.rname ∧ ntohs (le16 pkt dptr) = DNS_QT_A then
        rpktRead len (dptr + 10) 4
        let tmpip := le32 pkt (dptr + 10)
        .ok (if ipaddr = 0 ∨ net.onNet (ntohl tmpip) then tmpip else ipaddr)
      else .ok ipaddr)
    let dptr := dptr + 8
    rpktRead len dptr 2
    readAnswers pkt len net dname fuel acount (dptr + (ntohs (le16 pkt dptr) + 2)) ipaddr
      (max depth r.depth) r.rname

/-- `dns_geta(dname, rpkt, addr)`: what it returns, the address, and how deep `dns_getrname` went.
`rname` is what the buffer has before. -/
def dns_geta (pkt : ℕ → UInt8) (len : ℕ) (net : LocalNet) (dname : CString) (rname : ℕ → UInt8) (fuel : ℕ) :
    Except DnsFault (ℤ × ℕ × ℕ) := do
  rpktRead len DNS_QUCOUNT_AT 2
  let qcount := ntohs (le16 pkt DNS_QUCOUNT_AT)
  let dptr ← skipQuestions pkt len fuel qcount DNS_DATA_AT
  rpktRead len DNS_ANCOUNT_AT 2
  let acount := ntohs (le16 pkt DNS_ANCOUNT_AT)
  let r ← readAnswers pkt len net dname fuel acount dptr 0 0 rname
  .ok (if r.1 ≠ 0 then OK else SYSERR, r.1, r.2)

/-! ## The question -/

/-- What `dns_bldq` works on: the data area and where it writes next, the place of the length of the
label, and the length of the question. The places that it has written to come along, the last one
first. -/
structure Bldq where
  /-- The bytes of the data area. -/
  area : ℕ → UInt8
  /-- Where the next byte goes. -/
  data : ℕ
  /-- The place of the length of the label. -/
  llptr : ℕ
  /-- The length of the question so far. -/
  qlen : ℕ
  /-- The places that have been written to, the last one first. -/
  written : List ℕ

/-- `*data++ = ch`. -/
def Bldq.put (q : Bldq) (ch : UInt8) : Bldq :=
  { q with area := Function.update q.area q.data ch, data := q.data + 1, written := q.data :: q.written }

/-- A character of a label: `*data++ = dname[i]; *llptr = *llptr + 1; qlen++`. -/
def Bldq.char (q : Bldq) (ch : UInt8) : Bldq :=
  let q := q.put ch
  { q with area := Function.update q.area q.llptr (q.area q.llptr + 1), qlen := q.qlen + 1,
           written := q.llptr :: q.written }

/-- A dot: `llptr = (byte*)(data++); *llptr = 0; qlen++`. -/
def Bldq.dot (q : Bldq) : Bldq := { q.put 0 with llptr := q.data, qlen := q.qlen + 1 }

/-- The loop of `dns_bldq` over the characters, and whether it gets to the end of the name. -/
def bldqLoop : CString → Bldq → Bldq × Bool
  | [], q => (q, true)
  | ch :: dname, q =>
    if q.qlen ≥ DNSDATASIZ then (q, false)
    else if ch ≠ DOT then bldqLoop dname (q.char ch)
    else bldqLoop dname q.dot

/-- The end of `dns_bldq`: the terminator, the type and the class. -/
def bldqEnd (q : Bldq) : Bldq :=
  let q := { q.put 0 with qlen := q.qlen + 1 }
  let tmp := ntohs DNS_QT_A
  let q := { (q.put (UInt8.ofNat tmp)).put (UInt8.ofNat (tmp / 256)) with qlen := q.qlen + 2 }
  let tmp := ntohs DNS_QC_IN
  { (q.put (UInt8.ofNat tmp)).put (UInt8.ofNat (tmp / 256)) with qlen := q.qlen + 2 }

/-- `dns_bldq(dname, data)`: what it returns, and the data area with the places written to. -/
def dns_bldq (dname : CString) (area : ℕ → UInt8) : ℤ × Bldq :=
  let r := bldqLoop dname ((Bldq.mk area 0 0 1 []).put 0)
  if ! r.2 then (SYSERR, r.1)
  else
    let q := bldqEnd r.1
    (DNS_DATA_AT + q.qlen, q)

end Xinu
