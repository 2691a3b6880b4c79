import Xinu.Net.Arp
import Xinu.Net.Held
import Xinu.Lib.Semaphore

/-!
# IP, and the buffers of the network

The processes `netin` and `ipout` and those that send, with the pool of buffers, the queue of
`ipout` and the tables of UDP, ICMP and ARP. A process that deals with a packet goes from one
`Stage` to the next. Stages end where another process may run: in `getbuf`, in a read or write of
the Ethernet, in `arp_resolve`, behind the `signal` of `ip_enqueue`, and also between functions,
where nothing is shared. The tables see the same messages.
-/

namespace Xinu

/-- `IP_UDP`. -/
abbrev IP_UDP : ℕ := 17

/-- `IP_ICMP`. -/
abbrev IP_ICMP : ℕ := 1

/-- `IP_OQSIZ`. -/
abbrev IP_OQSIZ : ℕ := 8

/-- `ICMP_ECHOREQST`. -/
abbrev ICMP_ECHOREQST : ℕ := 8

/-- An IP packet, in host byte order, with what `ipcksum` and `icmp_cksum` make of it when it arrives. -/
structure IpPacket extends Netpacket where
  /-- Version and header length. -/
  net_ipvh : ℕ
  /-- The protocol. -/
  net_ipproto : ℕ
  /-- The address of the receiver. -/
  net_ipdst : ℕ
  /-- What `ipcksum` makes of the header. -/
  ipcksum : ℕ
  /-- What `icmp_cksum` makes of an ICMP packet. -/
  icmp_cksum : ℕ

/-- What `read` finds on the Ethernet. -/
inductive Incoming where
  | arp (pktptr : Arppacket)
  | ip (pkt : IpPacket)
  /-- A frame of another type. -/
  | other

/-- What a process needs a buffer for. -/
inductive Want where
  /-- `netin`, for the next frame. -/
  | frame
  /-- `icmp_in`, for the reply to an echo request. -/
  | echo (pkt : IpPacket)
  /-- A process that sends. -/
  | datagram (pkt : IpPacket)

/-- Who runs: `netin` and `ipout` go back to the top of their loops. -/
inductive NetRole where
  | netin
  | ipout
  | other
  deriving DecidableEq

/-- What a process is about to do. -/
inductive Stage where
  | get (w : Want)
  /-- `netin` reads a frame into a buffer. -/
  | frame (buf : ℕ)
  /-- `arp_in` writes its reply. -/
  | answering (buf : ℕ)
  /-- `ip_local` is called. -/
  | deliver (pkt : IpPacket)
  /-- `icmp_in` has enqueued the reply to a request. -/
  | answered (buf : ℕ)
  /-- `ipout` is at the top of its loop. -/
  | top
  /-- `ipout` is past its wait. -/
  | taking
  /-- `ip_send` is called, or `ipout` has a packet. -/
  | sending (pkt : IpPacket)
  /-- The process is in `arp_resolve`. -/
  | resolving (pkt : IpPacket)
  /-- `ip_out` writes the packet. -/
  | writing (pkt : IpPacket)

/-- A process that runs, or waits for the Ethernet or in `arp_resolve`. -/
structure NetTask where
  /-- The process. -/
  pid : ℤ
  /-- What it does: it handles the input, or sends. -/
  role : NetRole
  /-- Where it is. -/
  stage : Stage

/-- A process in `getbuf`. -/
structure Getter where
  /-- The process. -/
  pid : ℤ
  /-- What it does. -/
  role : NetRole
  /-- What it needs the buffer for. -/
  want : Want

/-- The network, with the packets that have been put into `ipoqueue` and those that `ipout` has taken. -/
structure Net extends Messages where
  /-- The table of UDP endpoints. -/
  udp : Endpoints UdpKey
  /-- The table of ICMP endpoints. -/
  icmp : Endpoints ℕ
  /-- The ARP cache. -/
  arp : Arp
  /-- The mask of the local network. -/
  ipmask : ℕ
  /-- Its prefix. -/
  ipprefix : ℕ
  /-- The address of the router. -/
  iprouter : ℕ
  /-- The free buffers of `netbufpool`. -/
  bpnext : List ℕ
  /-- The semaphore of the pool, with the processes in `getbuf`. -/
  bpsem : Semaphore Getter
  /-- The next packet that `ipout` takes. -/
  iqhead : ℕ
  /-- Where the next packet goes. -/
  iqtail : ℕ
  /-- The cells of `ipoqueue`. -/
  iqbuf : ℕ → IpPacket
  /-- The semaphore that counts the packets in `ipoqueue`. -/
  iqsem : Semaphore ℤ
  /-- The processes with a buffer. -/
  tasks : List NetTask
  /-- The packets that have been put into `ipoqueue`. -/
  enqueued : List IpPacket
  /-- Those that `ipout` has taken. -/
  dequeued : List IpPacket

namespace Net

/-- The part of `NetData` that ARP reads too. -/
def netData (s : Net) : NetAddresses := s.arp.netData

/-- The table of UDP, with the messages of now. -/
def udpNow (s : Net) : Endpoints UdpKey := { s.udp with toMessages := s.toMessages }

/-- The table of ICMP, with the messages of now. -/
def icmpNow (s : Net) : Endpoints ℕ := { s.icmp with toMessages := s.toMessages }

/-- The cache of ARP, with the messages of now. -/
def arpNow (s : Net) : Arp := { s.arp with toMessages := s.toMessages }

/-- Another table of UDP. -/
def setUdp (s : Net) (udp : Endpoints UdpKey) : Net := { s with toMessages := udp.toMessages, udp := udp }

/-- Another table of ICMP. -/
def setIcmp (s : Net) (icmp : Endpoints ℕ) : Net := { s with toMessages := icmp.toMessages, icmp := icmp }

/-- Another cache of ARP. -/
def setArp (s : Net) (arp : Arp) : Net := { s with toMessages := arp.toMessages, arp := arp }

/-- A process is about to do something. -/
def goTo (s : Net) (t : NetTask) (stage : Stage) : Net :=
  { s with tasks := s.tasks ++ [{ t with stage := stage }] }

/-- `freebuf(bufaddr)`. -/
def freebuf (s : Net) (buf : ℕ) : Net := { s with bpnext := buf :: s.bpnext, bpsem := s.bpsem.signal }

/-- The packet is dealt with: `netin` asks for the next buffer, `ipout` for the next packet, and
other processes return. -/
def finish (s : Net) (t : NetTask) : Net :=
  match t.role with
  | .netin => s.goTo t (.get .frame)
  | .ipout => s.goTo t .top
  | .other => s

/-- The buffer is freed, and the packet dealt with. -/
def drop (s : Net) (t : NetTask) (buf : ℕ) : Net := (s.freebuf buf).finish t

/-- `ip_enqueue(pktptr)`. -/
def ip_enqueue (s : Net) (pktptr : IpPacket) : Net :=
  if s.iqsem.count ≥ IP_OQSIZ then s.freebuf pktptr.buf
  else
    { s with
      iqbuf := Function.update s.iqbuf s.iqtail pktptr
      iqtail := Ring.bump IP_OQSIZ s.iqtail
      iqsem := s.iqsem.signal
      enqueued := s.enqueued ++ [pktptr] }

/-- `icmp_mkpkt`, for the reply to an echo request. -/
def echoReply (s : Net) (pkt : IpPacket) (buf : ℕ) : IpPacket where
  buf := buf
  net_ipsrc := s.netData.ipucast
  net_iplen := pkt.net_iplen
  net_ictype := ICMP_ECHOREPLY
  net_icident := pkt.net_icident
  net_udpsport := 0
  net_udpdport := 0
  net_udplen := 0
  data := pkt.data
  net_ipvh := 0x45
  net_ipproto := IP_ICMP
  net_ipdst := pkt.net_ipsrc
  ipcksum := 0
  icmp_cksum := 0

/-- The part of `getbuf` behind the `wait`, and what the process does with the buffer. -/
def gotbuf (s : Net) (g : Getter) : Net :=
  match s.bpnext with
  | [] => s
  | buf :: rest =>
    let s := { s with bpnext := rest }
    match g.want with
    | .frame => s.goTo ⟨g.pid, g.role, .get g.want⟩ (.frame buf)
    | .echo pkt => (s.ip_enqueue (s.echoReply pkt buf)).goTo ⟨g.pid, g.role, .get g.want⟩ (.answered pkt.buf)
    | .datagram pkt => s.goTo ⟨g.pid, g.role, .get g.want⟩ (.sending { pkt with buf := buf })

/-- `getbuf(netbufpool)`. -/
def getbuf (s : Net) (g : Getter) : Net :=
  let waited := s.bpsem.wait g
  if waited.1 then gotbuf { s with bpsem := waited.2 } g else { s with bpsem := waited.2 }

/-- The tests of `ip_in`: the packet is for the local stack. -/
def ipAccepts (s : Net) (pkt : IpPacket) : Bool :=
  if pkt.ipcksum ≠ 0 then false
  else if pkt.net_ipvh ≠ 0x45 then false
  else if pkt.net_ipproto = IP_ICMP ∧ pkt.icmp_cksum ≠ 0 then false
  else if pkt.net_ipdst = IP_BCAST then true
  else if ¬ s.netData.ipvalid then pkt.net_ipproto = IP_UDP
  else pkt.net_ipdst = s.netData.ipucast ∨ pkt.net_ipdst = s.netData.ipbcast ∨ pkt.net_ipdst = IP_BCAST

/-- The loop of `netin`, with a frame: `arp_in`, `ip_in`, or `freebuf`. -/
def received (s : Net) (t : NetTask) (buf : ℕ) : Incoming → Net
  | .arp pktptr =>
    let r := s.arpNow.arp_in pktptr
    match r.2 with
    | .reply _ => (s.setArp r.1).goTo t (.answering buf)
    | _ => (s.setArp r.1).drop t buf
  | .ip pkt => if s.ipAccepts pkt then s.goTo t (.deliver { pkt with buf := buf }) else s.drop t buf
  | .other => s.drop t buf

/-- `udp_in(pktptr)`. -/
def udpIn (s : Net) (t : NetTask) (pkt : IpPacket) : Net :=
  let r := udp_in s.udpNow pkt.toNetpacket
  match r.2 with
  | .freed _ => (s.setUdp r.1).drop t pkt.buf
  | _ => (s.setUdp r.1).finish t

/-- `icmp_in(pkt)`. -/
def icmpIn (s : Net) (t : NetTask) (pkt : IpPacket) : Net :=
  if pkt.net_ictype ≠ ICMP_ECHOREPLY ∧ pkt.net_ictype ≠ ICMP_ECHOREQST then s.drop t pkt.buf
  else if pkt.net_ictype = ICMP_ECHOREQST then s.goTo t (.get (.echo pkt))
  else
    let r := icmp_in s.netData.ipucast s.icmpNow pkt.toNetpacket
    match r.2 with
    | .freed _ => (s.setIcmp r.1).drop t pkt.buf
    | _ => (s.setIcmp r.1).finish t

/-- `ip_local(pktptr)`. -/
def ip_local (s : Net) (t : NetTask) (pkt : IpPacket) : Net :=
  if pkt.net_ipproto = IP_UDP then s.udpIn t pkt
  else if pkt.net_ipproto = IP_ICMP then s.icmpIn t pkt
  else s.drop t pkt.buf

/-- What a process does with the result of `arp_resolve`. -/
def resolved (s : Net) (t : NetTask) (pkt : IpPacket) (r : Arp × ArpOutcome) : Net :=
  match r.2 with
  | .found _ _ _ => (s.setArp r.1).goTo t (.writing pkt)
  | .failed _ _ _ => (s.setArp r.1).drop t pkt.buf
  | _ => (s.setArp r.1).goTo t (.resolving pkt)

/-- The end of `ip_send` and of the loop of `ipout`: the next hop is the destination or the router. -/
def forward (s : Net) (t : NetTask) (pkt : IpPacket) : Net :=
  let nxthop := if pkt.net_ipdst &&& s.ipmask = s.ipprefix then pkt.net_ipdst else s.iprouter
  if nxthop = 0 then s.drop t pkt.buf else s.resolved t pkt (s.arpNow.resolve t.pid nxthop)

/-- `ip_send(pktptr)`. -/
def ip_send (s : Net) (t : NetTask) (pkt : IpPacket) : Net :=
  if pkt.net_ipdst &&& 0xff000000 = 0x7f000000 then s.goTo t (.deliver pkt)
  else if pkt.net_ipdst = s.netData.ipucast then s.goTo t (.deliver pkt)
  else if pkt.net_ipdst = IP_BCAST ∨ pkt.net_ipdst = s.netData.ipbcast then s.goTo t (.writing pkt)
  else s.forward t pkt

/-- The loop of `ipout`, with a packet. -/
def ipout (s : Net) (t : NetTask) (pkt : IpPacket) : Net :=
  if pkt.net_ipdst = IP_BCAST ∨ pkt.net_ipdst = s.netData.ipbcast then s.drop t pkt.buf
  else if pkt.net_ipdst = s.netData.ipucast then s.goTo t (.deliver pkt)
  else s.forward t pkt

/-- `ipout` takes the next packet. -/
def dequeue (s : Net) (t : NetTask) : Net :=
  { s with iqhead := Ring.bump IP_OQSIZ s.iqhead, dequeued := s.dequeued ++ [s.iqbuf s.iqhead] }.goTo t
    (.sending (s.iqbuf s.iqhead))

/-- `ipout` waits for a packet. -/
def await (s : Net) (t : NetTask) : Net :=
  let waited := s.iqsem.wait t.pid
  if waited.1 then { s with iqsem := waited.2 }.goTo t .taking else { s with iqsem := waited.2 }

/-- A process does what it is about to do. `incoming` is what a read finds. -/
def act (s : Net) (t : NetTask) (incoming : Incoming) : Option Net :=
  match t.stage with
  | .get w => some (s.getbuf ⟨t.pid, t.role, w⟩)
  | .frame buf => some (s.received t buf incoming)
  | .answering buf | .answered buf => some (s.drop t buf)
  | .deliver pkt => some (s.ip_local t pkt)
  | .top => some (s.await t)
  | .taking => some (s.dequeue t)
  | .sending pkt => some (if t.role = .ipout then s.ipout t pkt else s.ip_send t pkt)
  | .resolving pkt =>
    match s.arp.inside t.pid with
    | some c => if s.asleep t.pid then none else some (s.resolved t pkt (s.arpNow.run t.pid c))
    | none => none
  | .writing pkt => some (s.drop t pkt.buf)

/-- A datagram of UDP without its buffer, as `udp_send` and `udp_sendto` make it. -/
def datagram (s : Net) (remip remport locport : ℕ) (data : List ℕ) (len : ℤ) : IpPacket where
  buf := 0
  net_ipsrc := s.netData.ipucast
  net_iplen := 28 + len
  net_ictype := 0
  net_icident := 0
  net_udpsport := locport
  net_udpdport := remport
  net_udplen := (8 + len) % 2 ^ 16
  data := data.take len.toNat
  net_ipvh := 0x45
  net_ipproto := IP_UDP
  net_ipdst := remip
  ipcksum := 0
  icmp_cksum := 0

/-- A process is in a call of the network. -/
def busy (s : Net) (p : ℤ) : Prop :=
  (∃ t ∈ s.tasks, t.pid = p) ∨ (∃ g ∈ s.bpsem.blocked, g.pid = p) ∨ p ∈ s.iqsem.blocked ∨
    s.udp.inside p ≠ none ∨ s.icmp.inside p ≠ none ∨ s.arp.inside p ≠ none

instance (s : Net) (p : ℤ) : Decidable (s.busy p) := by unfold busy; infer_instance

/-- A process begins to send a packet, when the tests before `getbuf` are passed. -/
def send (s : Net) (p : ℤ) (pkt : IpPacket) : Net :=
  { s with tasks := s.tasks ++ [⟨p, .other, .get (.datagram pkt)⟩] }

/-- `udp_send(slot, buff, len)`. -/
def udp_send (s : Net) (p slot : ℤ) (data : List ℕ) (len : ℤ) : Net :=
  if slot < 0 ∨ slot ≥ UDP_SLOTS then s
  else if (s.udp.tab slot).state = .free then s
  else if (s.udp.tab slot).key.udremip = 0 then s
  else s.send p (s.datagram (s.udp.tab slot).key.udremip (s.udp.tab slot).key.udremport
    (s.udp.tab slot).key.udlocport data len)

/-- `udp_sendto(slot, remip, remport, buff, len)`. -/
def udp_sendto (s : Net) (p slot : ℤ) (remip remport : ℕ) (data : List ℕ) (len : ℤ) : Net :=
  if slot < 0 ∨ slot ≥ UDP_SLOTS then s
  else if (s.udp.tab slot).state = .free then s
  else s.send p (s.datagram remip remport (s.udp.tab slot).key.udlocport data len)

/-- `icmp_send(remip, type, ident, seq, buf, len)`. -/
def icmp_send (s : Net) (p : ℤ) (remip type ident : ℕ) (data : List ℕ) (len : ℤ) : Net :=
  s.send p
    { s.datagram remip 0 0 data len with net_ipproto := IP_ICMP, net_ictype := type, net_icident := ident,
                                         net_udplen := 0 }

/-- The packets that a receive or a release has taken out of a ring are freed. -/
def freebufs (s : Net) (pkts : List Netpacket) : Net := pkts.foldl (fun s pkt => s.freebuf pkt.buf) s

end Net

/-- The process that makes a call. -/
def NetEvent.caller {κ : Type} : NetEvent κ → Option ℤ
  | .register p _ | .receive p _ _ _ | .release p _ => some p
  | _ => none

/-- The step is the arrival of a packet, which only `netin` and the senders bring about. -/
def NetEvent.isArrive {κ : Type} : NetEvent κ → Bool
  | .arrive _ => true
  | _ => false

/-- What can happen. -/
inductive IpEvent where
  /-- The `k`-th process goes on. -/
  | act (k : ℕ) (incoming : Incoming)
  /-- The `k`-th process that has been woken in `getbuf` goes on. -/
  | gotbuf (k : ℕ)
  /-- `ipout` has been woken. -/
  | gotpkt (k : ℕ)
  | udp_send (p slot : ℤ) (data : List ℕ) (len : ℤ)
  | udp_sendto (p slot : ℤ) (remip remport : ℕ) (data : List ℕ) (len : ℤ)
  | icmp_send (p : ℤ) (remip type ident : ℕ) (data : List ℕ) (len : ℤ)
  /-- A step of the endpoints that is not an arrival. -/
  | udp (e : NetEvent UdpKey)
  | icmp (e : NetEvent ℕ)
  /-- The interface gets other addresses. -/
  | configure (netData : NetAddresses) (ipmask ipprefix iprouter : ℕ)

/-- One step, if it is possible: a process that is in a call begins no other one. -/
def Net.exec (s : Net) : IpEvent → Option Net
  | .act k incoming => s.tasks[k]?.bind fun t => Net.act { s with tasks := s.tasks.eraseIdx k } t incoming
  | .gotbuf k => (s.bpsem.resume k).map fun r => Net.gotbuf { s with bpsem := r.2 } r.1
  | .gotpkt k =>
    (s.iqsem.resume k).map fun r => { s with iqsem := r.2, tasks := s.tasks ++ [⟨r.1, .ipout, .taking⟩] }
  | .udp_send p slot data len => if s.busy p then none else some (s.udp_send p slot data len)
  | .udp_sendto p slot remip remport data len =>
    if s.busy p then none else some (s.udp_sendto p slot remip remport data len)
  | .icmp_send p remip type ident data len =>
    if s.busy p then none else some (s.icmp_send p remip type ident data len)
  | .udp e =>
    if e.isArrive ∨ ∃ p ∈ e.caller, s.busy p then none
    else (s.udpNow.exec Xinu.udp e).map fun r => (s.setUdp r.1).freebufs (s.udp.leaving Xinu.udp r.2)
  | .icmp e =>
    if e.isArrive ∨ ∃ p ∈ e.caller, s.busy p then none
    else (s.icmpNow.exec (Xinu.icmp s.netData.ipucast) e).map fun r =>
      (s.setIcmp r.1).freebufs (s.icmp.leaving (Xinu.icmp s.netData.ipucast) r.2)
  | .configure netData ipmask ipprefix iprouter =>
    some { s with arp := { s.arp with netData := netData }, ipmask := ipmask, ipprefix := ipprefix,
                  iprouter := iprouter }

/-- A run from one state to another, with steps that meet a condition. -/
inductive IpRun (C : Net → IpEvent → Prop) (s₀ : Net) : Net → Prop where
  | start : IpRun C s₀ s₀
  | step {s s' : Net} {e : IpEvent} (hr : IpRun C s₀ s) (hC : C s e) (he : s.exec e = some s') : IpRun C s₀ s'

end Xinu
