import Xinu.Net.Endpoint

/-!
# ARP

The cache of `net/arp.c`. `arp_resolve` keeps a pointer to an entry while it sleeps, at most
`ARP_RETRY` times. It takes every message but `TIMEOUT` and `SYSERR` as the sign that the entry is
resolved, and does not look at the entry again. Interrupts are disabled, so that other processes run
in two places only: while the driver waits for a free ring slot, and in `recvtime`.
-/

namespace Xinu

/-- `ARP_SIZ`. -/
abbrev ARP_SIZ : ℕ := 16

/-- `ARP_RETRY`. -/
abbrev ARP_RETRY : ℕ := 3

/-- `ARP_HTYPE`. -/
abbrev ARP_HTYPE : ℕ := 1

/-- `ARP_PTYPE`. -/
abbrev ARP_PTYPE : ℕ := 0x0800

/-- `ARP_OP_REQ`. -/
abbrev ARP_OP_REQ : ℕ := 1

/-- `ARP_OP_RPLY`. -/
abbrev ARP_OP_RPLY : ℕ := 2

/-- `IP_BCAST`. -/
abbrev IP_BCAST : ℕ := 0xffffffff

/-- `struct arppacket`, in host byte order, without the parts that are the same in all packets. -/
structure Arppacket where
  /-- The type of the hardware. -/
  arp_htype : ℕ
  /-- The type of the protocol. -/
  arp_ptype : ℕ
  /-- The operation: a request or a reply. -/
  arp_op : ℕ
  /-- The hardware address of the sender. -/
  arp_sndha : List ℕ
  /-- Its protocol address. -/
  arp_sndpa : ℕ
  /-- The hardware address of the target. -/
  arp_tarha : List ℕ
  /-- Its protocol address. -/
  arp_tarpa : ℕ
  deriving DecidableEq

/-- `AR_FREE`, `AR_PENDING` and `AR_RESOLVED`. -/
inductive ArState where
  | free
  | pending
  | resolved
  deriving DecidableEq, Repr

/-- `struct arpentry`. -/
structure Arpentry where
  /-- The state of the entry. -/
  arstate : ArState
  /-- The IP address. -/
  arpaddr : ℕ
  /-- The process that waits for the entry. -/
  arpid : ℤ
  /-- The Ethernet address. -/
  arhaddr : List ℕ
  deriving DecidableEq

/-- An entry after `memset`. -/
def Arpentry.cleared : Arpentry := ⟨.free, 0, 0, [0, 0, 0, 0, 0, 0]⟩

/-- The part of `NetData` that ARP reads. -/
structure NetAddresses where
  /-- Whether the computer has an IP address. -/
  ipvalid : Bool
  /-- That address. -/
  ipucast : ℕ
  /-- The broadcast address of the network. -/
  ipbcast : ℕ
  /-- The Ethernet address of the computer. -/
  ethucast : List ℕ
  /-- The Ethernet broadcast address. -/
  ethbcast : List ℕ

/-- The local variables of a call of `arp_resolve` that waits. -/
structure ArpCall where
  /-- The address that is resolved. -/
  nxthop : ℕ
  /-- The entry of the cache. -/
  slot : ℕ
  /-- The requests that are behind. -/
  i : ℕ
  /-- It is in `recvtime`, not in `write`. -/
  sent : Bool
  deriving DecidableEq

/-- The cache and the processes. -/
structure Arp extends Messages where
  /-- The cache. -/
  arpcache : ℕ → Arpentry
  /-- The call of `arp_resolve` that each process waits in. -/
  inside : ℤ → Option ArpCall
  /-- The addresses of the computer. -/
  netData : NetAddresses

/-- What a step shows. -/
inductive ArpOutcome where
  | quiet
  /-- A request goes out. -/
  | request (p : ℤ) (nxthop : ℕ)
  /-- `arp_resolve` returns `OK`. -/
  | found (p : ℤ) (nxthop : ℕ) (mac : List ℕ)
  /-- `arp_resolve` returns something else. -/
  | failed (p : ℤ) (nxthop : ℕ) (v : ℤ)
  /-- `arp_in` answers a request. -/
  | reply (apkt : Arppacket)
  deriving DecidableEq

/-- `arp_init()`: the first entry is left as it is. -/
def arp_init (arpcache : ℕ → Arpentry) : ℕ → Arpentry := fun i =>
  if 1 ≤ i ∧ i < ARP_SIZ then { arpcache i with arstate := .free } else arpcache i

/-- The search of `arp_resolve` and of `arp_in`: the first entry in use that has the address. -/
def arpFind (arpcache : ℕ → Arpentry) (addr : ℕ) : Option ℕ :=
  (List.range ARP_SIZ).find? fun i => (arpcache i).arstate ≠ .free ∧ (arpcache i).arpaddr = addr

/-- `arp_alloc()`: the first free entry, or else the first resolved one. -/
def arp_alloc (arpcache : ℕ → Arpentry) : Option ℕ :=
  ((List.range ARP_SIZ).find? fun i => (arpcache i).arstate = .free).or
    ((List.range ARP_SIZ).find? fun i => (arpcache i).arstate = .resolved)

namespace Arp

/-- Change an entry. -/
def set (s : Arp) (i : ℕ) (e : Arpentry) : Arp := { s with arpcache := Function.update s.arpcache i e }

/-- `send(pid, msg)`: the cache stays as it is. -/
def send (s : Arp) (pid : ℤ) (msg : ℕ) : Arp := { s with toMessages := s.toMessages.send pid msg }

/-- `arp_resolve(nxthop, mac)`, up to the first `write`. -/
def resolve (s : Arp) (p : ℤ) (nxthop : ℕ) : Arp × ArpOutcome :=
  if nxthop = IP_BCAST ∨ nxthop = s.netData.ipbcast then (s, .found p nxthop s.netData.ethbcast)
  else match arpFind s.arpcache nxthop with
  | some i =>
    if (s.arpcache i).arstate = .resolved then (s, .found p nxthop (s.arpcache i).arhaddr)
    else (s, .failed p nxthop SYSERR)
  | none =>
    match arp_alloc s.arpcache with
    | none => (s, .failed p nxthop SYSERR)
    | some slot =>
      ({ s.set slot { Arpentry.cleared with arstate := .pending, arpaddr := nxthop, arpid := p } with
          prmsg := Function.update s.prmsg p none,
          inside := Function.update s.inside p (some ⟨nxthop, slot, 0, false⟩) }, .request p nxthop)

/-- `arp_resolve` behind `recvtime`, with the message that this has returned. -/
def proceed (s : Arp) (p : ℤ) (c : ArpCall) (msg : ℕ) : Arp × ArpOutcome :=
  if msg = umsg TIMEOUT then
    if c.i + 1 < ARP_RETRY then
      ({ s with inside := Function.update s.inside p (some { c with i := c.i + 1, sent := false }) },
        .request p c.nxthop)
    else
      ({ s.set c.slot { s.arpcache c.slot with arstate := .free } with
          inside := Function.update s.inside p none },
        .failed p c.nxthop TIMEOUT)
  else if msg = umsg SYSERR then ({ s with inside := Function.update s.inside p none },
    .failed p c.nxthop SYSERR)
  else ({ s with inside := Function.update s.inside p none }, .found p c.nxthop (s.arpcache c.slot).arhaddr)

/-- A process that waits runs again. Behind `write`, `recvtime` returns at once if a message is there. -/
def run (s : Arp) (p : ℤ) (c : ArpCall) : Arp × ArpOutcome :=
  match s.prmsg p with
  | some msg => proceed { s with prmsg := Function.update s.prmsg p none } p c msg
  | none =>
    if c.sent then proceed s p c (umsg TIMEOUT)
    else
      ({ s with
          asleep := Function.update s.asleep p true
          inside := Function.update s.inside p (some { c with sent := true }) }, .quiet)

/-- What `arp_in(pktptr)` does with the entry of the sender: the hardware address is replaced, and a
process that waits is told. -/
def refresh (s : Arp) (i : ℕ) (pktptr : Arppacket) : Arp :=
  let e := { s.arpcache i with arhaddr := pktptr.arp_sndha }
  if e.arstate = .pending then (s.set i { e with arstate := .resolved }).send e.arpid (umsg OK) else s.set i e

/-- The reply of `arp_in`. -/
def answer (s : Arp) (pktptr : Arppacket) : Arppacket where
  arp_htype := ARP_HTYPE
  arp_ptype := ARP_PTYPE
  arp_op := ARP_OP_RPLY
  arp_sndha := s.netData.ethucast
  arp_sndpa := s.netData.ipucast
  arp_tarha := pktptr.arp_sndha
  arp_tarpa := pktptr.arp_sndpa

/-- `arp_in(pktptr)`. -/
def arp_in (s : Arp) (pktptr : Arppacket) : Arp × ArpOutcome :=
  if pktptr.arp_htype ≠ ARP_HTYPE ∨ pktptr.arp_ptype ≠ ARP_PTYPE then (s, .quiet)
  else
    let found := arpFind s.arpcache pktptr.arp_sndpa
    let s := match found with
      | some i => s.refresh i pktptr
      | none => s
    if pktptr.arp_op = ARP_OP_RPLY then (s, .quiet)
    else if ¬ s.netData.ipvalid ∨ pktptr.arp_tarpa ≠ s.netData.ipucast then (s, .quiet)
    else if found.isSome then (s, .reply (s.answer pktptr))
    else match arp_alloc s.arpcache with
    | none => (s, .quiet)
    | some slot =>
      -- arp_alloc has cleared the rest of the entry
      let e := { Arpentry.cleared with arpaddr := pktptr.arp_sndpa, arhaddr := pktptr.arp_sndha,
                                       arstate := .resolved }
      (s.set slot e, .reply (s.answer pktptr))

end Arp

/-- What can happen. -/
inductive ArpEvent where
  | resolve (p : ℤ) (nxthop : ℕ)
  /-- A process that waits runs again. -/
  | run (p : ℤ)
  | timeout (p : ℤ)
  | arrive (pktptr : Arppacket)
  | send (pid : ℤ) (msg : ℕ)
  /-- The interface gets other addresses. -/
  | configure (netData : NetAddresses)

/-- One step, if it is possible: a process that waits in `arp_resolve` does nothing else, and it
runs again when it does not sleep. -/
def Arp.exec (s : Arp) : ArpEvent → Option (Arp × ArpOutcome)
  | .resolve p nxthop => if s.inside p = none then some (s.resolve p nxthop) else none
  | .run p =>
    match s.inside p with
    | some c => if s.asleep p then none else some (s.run p c)
    | none => none
  | .timeout p =>
    if s.asleep p then some ({ s with asleep := Function.update s.asleep p false }, .quiet) else none
  | .arrive pktptr => some (s.arp_in pktptr)
  | .send pid msg => some (s.send pid msg, .quiet)
  | .configure netData => some ({ s with netData := netData }, .quiet)

/-- The start: the cache is zero when `arp_init` is called. -/
def Arp.start (prmsg : ℤ → Option ℕ) (netData : NetAddresses) : Arp where
  prmsg := prmsg
  asleep := fun _ => false
  arpcache := arp_init fun _ => .cleared
  inside := fun _ => none
  netData := netData

end Xinu
