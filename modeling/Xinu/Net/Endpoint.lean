import Xinu.Kernel.Sys
import Xinu.Lib.Ring

/-!
# Endpoints

What the tables of `include/udp.h` and `include/icmp.h` have in common. An entry holds a ring of
packets and the process that waits for one. A receiver that finds no packet marks the entry, sleeps
in `recvtime`, and trusts the message that it wakes up with. `Protocol` holds what is different: the
size of the ring, where the index of the next packet wraps, and which entry a packet or a request
goes to.

Interrupts are disabled in all these functions, so that a call is one step, except for the sleep in
the middle of a receive. Any process that is not asleep may be the next to run.
-/

namespace Xinu

/-- The header fields of a packet that are read here, and its data. -/
structure Netpacket where
  /-- The address of the buffer. -/
  buf : ℕ
  /-- The address of the sender. -/
  net_ipsrc : ℕ
  /-- The length in the IP header. -/
  net_iplen : ℤ
  /-- The type of an ICMP packet. -/
  net_ictype : ℕ
  /-- Its identifier. -/
  net_icident : ℤ
  /-- The UDP port of the sender. -/
  net_udpsport : ℕ
  /-- The UDP port of the receiver. -/
  net_udpdport : ℕ
  /-- The length in the UDP header. -/
  net_udplen : ℤ
  /-- The data. -/
  data : List ℕ
  deriving DecidableEq

/-- The states of an entry: `UDP_FREE`, `UDP_USED` and `UDP_RECV`, or the same of ICMP. -/
inductive SlotState where
  | free
  | used
  /-- A process waits for a packet. -/
  | recv
  deriving DecidableEq, Repr

/-- An entry of a table. The key is the address that it is registered for. -/
structure Slot (κ : Type) where
  /-- The state of the entry. -/
  state : SlotState
  /-- What it is registered for. -/
  key : κ
  /-- Where the first packet is taken out. -/
  head : ℕ
  /-- Where the next packet goes. -/
  tail : ℕ
  /-- How many packets there are. -/
  count : ℤ
  /-- The process that waits for one. -/
  pid : ℤ
  /-- The cells of the ring. -/
  queue : ℕ → Netpacket

/-- What a protocol has of its own. -/
structure Protocol (κ : Type) where
  /-- The size of the table. -/
  slots : ℤ
  /-- The size of the ring. -/
  qsiz : ℕ
  /-- Where the index of the next packet to read wraps. -/
  headWrap : ℕ
  /-- The entry that takes a packet. -/
  accepts : (ℤ → Slot κ) → Netpacket → Option ℤ
  /-- The entry that a registration gets. -/
  place : (ℤ → Slot κ) → κ → Option ℤ
  /-- An entry in this state can be released. -/
  releases : SlotState → Bool
  /-- The length that a receive returns, for a buffer of some length. -/
  length : Netpacket → ℤ → ℤ

/-- The messages of the processes. -/
structure Messages where
  /-- `prmsg`, if `prhasmsg`. -/
  prmsg : ℤ → Option ℕ
  /-- The process sleeps in `recvtime`. -/
  asleep : ℤ → Bool

/-- The table, and what matters here of the processes. -/
structure Endpoints (κ : Type) extends Messages where
  /-- The entries. -/
  tab : ℤ → Slot κ
  /-- The entry and the length of the buffer of a receive that the process is in. -/
  inside : ℤ → Option (ℤ × ℤ)

/-- What a step shows. -/
inductive Outcome where
  | quiet
  /-- A call of a process returns without a packet. -/
  | answered (p v : ℤ)
  | registered (slot : ℤ)
  | accepted (slot : ℤ) (pkt : Netpacket)
  | freed (pkt : Netpacket)
  /-- A receive returns with a packet, the length and the data. -/
  | delivered (p slot : ℤ) (pkt : Netpacket) (len : ℤ) (data : List ℕ)
  | released (slot : ℤ)
  deriving DecidableEq

/-- A message as an unsigned word. -/
def umsg (v : ℤ) : ℕ := (v % 2 ^ 32).toNat

namespace Slot

variable {κ : Type}

/-- The packet goes into the ring. -/
def put (e : Slot κ) (N : ℕ) (pkt : Netpacket) : Slot κ :=
  { e with count := e.count + 1, queue := Function.update e.queue e.tail pkt, tail := Ring.bump N e.tail }

/-- The next packet comes out. -/
def take (e : Slot κ) (wrap : ℕ) : Netpacket × Slot κ :=
  (e.queue e.head, { e with head := Ring.bump wrap e.head, count := e.count - 1 })

/-- `while (count > 0)`: all packets come out. -/
def drain (wrap : ℕ) : ℕ → Slot κ → Slot κ
  | 0, e => e
  | n + 1, e => drain wrap n (e.take wrap).2

end Slot

/-- `send(pid, msg)`. -/
def Messages.send (s : Messages) (pid : ℤ) (msg : ℕ) : Messages :=
  if pid < 0 ∨ pid ≥ NPROC then s
  else if (s.prmsg pid).isSome then s
  else ⟨Function.update s.prmsg pid (some msg), Function.update s.asleep pid false⟩

namespace Endpoints

variable {κ : Type} (P : Protocol κ)

/-- Change an entry. -/
def setSlot (s : Endpoints κ) (i : ℤ) (e : Slot κ) : Endpoints κ :=
  { s with tab := Function.update s.tab i e }

/-- `send(pid, msg)`: the table stays as it is. -/
def send (s : Endpoints κ) (pid : ℤ) (msg : ℕ) : Endpoints κ :=
  { s with toMessages := s.toMessages.send pid msg }

/-- A packet arrives. -/
def arrive (s : Endpoints κ) (pkt : Netpacket) : Endpoints κ × Outcome :=
  match P.accepts s.tab pkt with
  | none => (s, .freed pkt)
  | some i =>
    let e := (s.tab i).put P.qsiz pkt
    if e.state = .recv then ((s.setSlot i { e with state := .used }).send e.pid (umsg OK), .accepted i pkt)
    else (s.setSlot i e, .accepted i pkt)

/-- A process registers an address. -/
def register (s : Endpoints κ) (p : ℤ) (key : κ) : Endpoints κ × Outcome :=
  match P.place s.tab key with
  | none => (s, .answered p SYSERR)
  | some i =>
    (s.setSlot i { s.tab i with state := .used, key := key, head := 0, tail := 0, count := 0, pid := -1 },
      .registered i)

/-- The end of a receive, with a packet. -/
def dequeue (s : Endpoints κ) (p i len : ℤ) : Endpoints κ × Outcome :=
  let r := (s.tab i).take P.headWrap
  let n := P.length r.1 len
  (s.setSlot i r.2, .delivered p i r.1 n (r.1.data.take n.toNat))

/-- A process calls the receive function. -/
def receive (s : Endpoints κ) (p i len : ℤ) (timeout : ℕ) : Endpoints κ × Outcome :=
  if i < 0 ∨ i ≥ P.slots then (s, .answered p SYSERR)
  else if (s.tab i).state ≠ .used then (s, .answered p SYSERR)
  else if (s.tab i).count = 0 then
    -- no packet is waiting; recvtime refuses a time that is negative as int32
    if timeout % 2 ^ 32 ≥ 2 ^ 31 then
      ({ s.setSlot i { s.tab i with state := .used, pid := p } with prmsg := Function.update s.prmsg p none },
        .answered p SYSERR)
    else
      ({ s.setSlot i { s.tab i with state := .recv, pid := p } with
          prmsg := Function.update s.prmsg p none, asleep := Function.update s.asleep p true,
          inside := Function.update s.inside p (some (i, len)) }, .quiet)
  else s.dequeue P p i len

/-- The process runs again behind `recvtime`. -/
def wake (s : Endpoints κ) (p i len : ℤ) : Endpoints κ × Outcome :=
  let msg := (s.prmsg p).getD (umsg TIMEOUT)
  let s := { s.setSlot i { s.tab i with state := .used } with
    prmsg := Function.update s.prmsg p none, inside := Function.update s.inside p none }
  if msg = umsg TIMEOUT then (s, .answered p TIMEOUT)
  else if msg ≠ umsg OK then (s, .answered p SYSERR)
  else s.dequeue P p i len

/-- A process releases an entry. -/
def release (s : Endpoints κ) (p i : ℤ) : Endpoints κ × Outcome :=
  if i < 0 ∨ i ≥ P.slots then (s, .answered p SYSERR)
  else if ¬ P.releases (s.tab i).state then (s, .answered p SYSERR)
  else
    let e := Slot.drain P.headWrap (s.tab i).count.toNat (s.tab i)
    (s.setSlot i { e with state := .free }, .released i)

end Endpoints

/-- What can happen: a packet arrives, a process makes a call or runs again, its time is over, or
another process sends it a message. -/
inductive NetEvent (κ : Type) where
  | arrive (pkt : Netpacket)
  | register (p : ℤ) (key : κ)
  | receive (p slot len : ℤ) (timeout : ℕ)
  | release (p slot : ℤ)
  | send (pid : ℤ) (msg : ℕ)
  | timeout (p : ℤ)
  | wake (p : ℤ)

/-- One step, if it is possible: a process that is in a receive does nothing else, and it runs again
when it does not sleep. -/
def Endpoints.exec {κ : Type} (P : Protocol κ) (s : Endpoints κ) : NetEvent κ → Option (Endpoints κ × Outcome)
  | .arrive pkt => some (s.arrive P pkt)
  | .register p key => if s.inside p = none then some (s.register P p key) else none
  | .receive p i len timeout => if s.inside p = none then some (s.receive P p i len timeout) else none
  | .release p i => if s.inside p = none then some (s.release P p i) else none
  | .send pid msg => some (s.send pid msg, .quiet)
  | .timeout p =>
    if s.asleep p then some ({ s with asleep := Function.update s.asleep p false }, .quiet) else none
  | .wake p =>
    match s.inside p with
    | some (i, len) => if s.asleep p then none else some (s.wake P p i len)
    | none => none

end Xinu
