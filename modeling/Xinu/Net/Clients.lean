import Xinu.Net.Arp
import Xinu.Net.Dhcp
import Xinu.Net.Dns
import Xinu.Net.Tftp
import Xinu.Net.Udp

/-!
# Protocol clients

`dnslookup`, `getlocalip` and `tftpget_mb`, and `ip_send` and `icmp_send`, with the UDP slots that
they register and release, and the interrupt mask. What comes from the network, and whether a send
fails, is arbitrary. `udp_send`, `udp_sendto` and `udp_recv` restore the mask on every path, and
leave all slots registered.
-/

namespace Xinu

open Bytes

/-- `UDP_DHCP_CPORT`. -/
abbrev UDP_DHCP_CPORT : ℕ := 68

/-- `UDP_DHCP_SPORT`. -/
abbrev UDP_DHCP_SPORT : ℕ := 67

/-- `DHCP_RETRY`. -/
abbrev DHCP_RETRY : ℕ := 5

/-- `DNSPORT`. -/
abbrev DNSPORT : ℕ := 53

/-- `DNSLPORT`. -/
abbrev DNSLPORT : ℕ := 51525

/-- `DNSRETRY`. -/
abbrev DNSRETRY : ℕ := 3

/-- `(uint32)SYSERR`. -/
abbrev USYSERR : ℕ := 2 ^ 32 - 1

/-- What the functions here use of `NetData`. -/
structure NetData where
  /-- The IP address of the computer. -/
  ipucast : ℕ
  /-- The broadcast address of the network. -/
  ipbcast : ℕ
  /-- The prefix of the network. -/
  ipprefix : ℕ
  /-- The mask of the network. -/
  ipmask : ℕ
  /-- The address of the router. -/
  iprouter : ℕ
  /-- The address of the name server. -/
  dnsserver : ℕ
  /-- The address of the time server. -/
  ntpserver : ℕ
  /-- The Ethernet address of the computer. -/
  ethucast : ℕ → UInt8

/-- A successful call of `udp_register`, or a call of `udp_release`. -/
inductive SlotCall where
  | registered (slot : ℤ)
  | released (slot : ℤ)
  deriving DecidableEq

/-- What the clients work on. -/
structure Clients where
  /-- What the entries of `udptab` are registered for, without the free ones. -/
  udptab : ℤ → Option UdpKey
  /-- The interrupt mask: interrupts are enabled. -/
  mask : Bool
  /-- The addresses. -/
  net : NetData
  /-- The calls so far, the first one first. -/
  calls : List SlotCall

/-- The loops of `udp_register`. -/
def freeSlot (udptab : ℤ → Option UdpKey) (key : UdpKey) : Option ℤ :=
  if (List.range UDP_SLOTS).any fun i : ℕ => decide (udptab i = some key) then none
  else ((List.range UDP_SLOTS).find? fun i : ℕ => decide (udptab i = none)).map Int.ofNat

namespace Clients

/-- `udp_register(remip, remport, locport)`: nothing for `SYSERR`. -/
def udp_register (s : Clients) (key : UdpKey) : Clients × Option ℤ :=
  match freeSlot s.udptab key with
  | none => (s, none)
  | some slot =>
    ({ s with udptab := Function.update s.udptab slot (some key), calls := s.calls ++ [.registered slot] },
      some slot)

/-- `udp_release(slot)`. A free entry stays free. -/
def udp_release (s : Clients) (slot : ℤ) : Clients :=
  let calls := s.calls ++ [.released slot]
  if slot < 0 ∨ slot ≥ UDP_SLOTS then { s with calls := calls }
  else { s with udptab := Function.update s.udptab slot none, calls := calls }

/-- `disable()`, behind which the old mask is in `s`. -/
def disable (s : Clients) : Clients := { s with mask := false }

/-- `restore(mask)`. -/
def restore (s : Clients) (mask : Bool) : Clients := { s with mask := mask }

/-! ## Datagrams -/

/-- `ip_send(pktptr)` for a destination, with what `arp_resolve` and `ip_out` return. -/
def ip_send (s : Clients) (dest : ℕ) (arp_resolve : ℕ → ℤ) (ip_out : ℤ) : Clients × ℤ :=
  let mask := s.mask
  let s := s.disable
  if dest &&& 0xff000000 = 0x7f000000 then (s.restore mask, OK)
  else if dest = s.net.ipucast then (s.restore mask, OK)
  else if dest = IP_BCAST ∨ dest = s.net.ipbcast then (s.restore mask, ip_out)
  else
    let nxthop := if dest &&& s.net.ipmask = s.net.ipprefix then dest else s.net.iprouter
    -- both of these returns free the packet, and leave interrupts disabled
    if nxthop = 0 then (s, SYSERR)
    else if arp_resolve nxthop ≠ OK then (s, SYSERR)
    else (s.restore mask, ip_out)

/-- `icmp_send(remip, type, ident, seq, buf, len)`: nothing if `icmp_mkpkt` has no buffer and
panics. It never returns `SYSERR` to `icmp_send`. -/
def icmp_send (s : Clients) (remip : ℕ) (getbuf : Bool) (arp_resolve : ℕ → ℤ) (ip_out : ℤ) :
    Option (Clients × ℤ) :=
  let mask := s.mask
  let s := s.disable
  if ! getbuf then none
  else
    let r := s.ip_send remip arp_resolve ip_out
    some (r.1.restore mask, r.2)

end Clients

/-! ## An address of this host -/

/-- What `udp_recv` returns, with what it copies to the start of the buffer. -/
structure UdpReply where
  /-- What `udp_recv` returns: a length, `TIMEOUT` or `SYSERR`. -/
  n : ℤ
  /-- The bytes that it copies. -/
  data : List UInt8

/-- The buffer behind `udp_recv`. -/
def UdpReply.into (r : UdpReply) (buff : ℕ → UInt8) : ℕ → UInt8 := put buff 0 (r.data.take r.n.toNat)

/-- What `getlocalip` sets for an acknowledgement with some options, and with `dc_yip`. -/
def NetData.configure (net : NetData) (o : OptScan) (dc_yip : ℕ) : NetData :=
  let ipmask := if o.addrmask ≠ 0 then o.addrmask else net.ipmask
  let ipprefix := dc_yip &&& ipmask
  { net with
    ipmask := ipmask
    iprouter := if o.routeraddr ≠ 0 then o.routeraddr else net.iprouter
    dnsserver := if o.dnsaddr ≠ 0 then o.dnsaddr else net.dnsserver
    ntpserver := if o.ntpaddr ≠ 0 then o.ntpaddr else net.ntpserver
    ipucast := dc_yip
    ipprefix := ipprefix
    ipbcast := ipprefix ||| 0xffffffff ^^^ ipmask }

/-- The variables of `getlocalip`, with what it works on, the messages that it has sent, and its result. -/
structure DhcpCall where
  /-- What the clients work on. -/
  s : Clients
  /-- The message that is sent. -/
  dmsg_snd : ℕ → UInt8
  /-- Its length. -/
  len : ℕ
  /-- The message that is received. -/
  dmsg_rvc : ℕ → UInt8
  /-- The messages that have been sent, with their lengths. -/
  sent : List ((ℕ → UInt8) × ℕ)
  /-- What has been returned, if it has. -/
  result : Option ℕ

namespace DhcpCall

/-- `udp_sendto(slot, IP_BCAST, UDP_DHCP_SPORT, (char *)&dmsg_snd, len)`, whose result is not looked at. -/
def sendto (d : DhcpCall) : DhcpCall := { d with sent := d.sent ++ [(d.dmsg_snd, d.len)] }

/-- The body of the inner loop. -/
def recv (d : DhcpCall) (slot : ℤ) (r : UdpReply) : DhcpCall :=
  let inlen := r.n
  let d := { d with dmsg_rvc := r.into d.dmsg_rvc }
  if inlen = TIMEOUT then d
  else if inlen = SYSERR then { d with result := some USYSERR }
  else if le32 d.dmsg_rvc 4 ≠ le32 d.dmsg_snd 4 then d
  else
    let o := getlocalipOptions d.dmsg_rvc inlen.toNat
    if o.msgtype = 0x02 then
      match dhcp_bld_req d.s.net.ethucast d.dmsg_rvc inlen.toNat with
      | none => { d with result := some USYSERR }
      | some r => { d with dmsg_snd := r.1, len := r.2 }.sendto
    else if d.dmsg_rvc (DC_OPT_AT + 2) ≠ 0x05 then d
    else
      let net := d.s.net.configure o (ntohl (le32 d.dmsg_rvc 16))
      { d with s := { d.s with net := net }.udp_release slot, result := some net.ipucast }

/-- The inner loop, with `n` rounds left and the `k`-th reply next. -/
def wait (slot : ℤ) (replies : ℕ → UdpReply) : ℕ → ℕ → DhcpCall → DhcpCall
  | 0, _, d => d
  | n + 1, k, d =>
    let d := d.recv slot (replies k)
    if d.result.isSome then d else wait slot replies n (k + 1) d

/-- The outer loop. -/
def retry (slot : ℤ) (replies : ℕ → UdpReply) : ℕ → ℕ → DhcpCall → DhcpCall
  | 0, _, d => d
  | n + 1, k, d =>
    let d := wait slot replies 3 k d.sendto
    if d.result.isSome then d else retry slot replies n (k + 3) d

end DhcpCall

/-- What `getlocalip` is registered for. -/
def dhcpKey : UdpKey := ⟨0, UDP_DHCP_SPORT, UDP_DHCP_CPORT⟩

/-- `getlocalip()`, with what is in its buffer at first. The length of a discover message is never
`SYSERR`. -/
def Clients.getlocalip (s : Clients) (dmsg_rvc : ℕ → UInt8) (replies : ℕ → UdpReply) : Clients × ℕ :=
  match s.udp_register dhcpKey with
  | (s, none) => (s, USYSERR)
  | (s, some slot) =>
    let disc := dhcp_bld_disc s.net.ethucast
    let d := DhcpCall.retry slot replies DHCP_RETRY 0 ⟨s, disc.1, disc.2, dmsg_rvc, [], none⟩
    match d.result with
    | some r => (d.s, r)
    | none => (d.s.udp_release slot, USYSERR)

/-! ## An address of a name -/

/-- The inner loop of `dot2ip`, with `n` characters left in a segment: the value, the last
character, and what is behind it. -/
def dotSegment : ℕ → CString → ℕ → UInt8 → Option (ℕ × UInt8 × CString)
  | 0, name, val, ch => some (val, ch, name)
  | n + 1, name, val, _ =>
    let ch := name.headD 0
    if ch = 0 ∨ ch = DOT then if n + 1 = 4 then none else some (val, ch, name.tail)
    else if ch < 48 ∨ ch > 57 then none
    else dotSegment n name.tail (10 * val + (ch.toNat - 48)) ch

/-- The outer loop of `dot2ip`, with `n` segments left. -/
def dotSegments : ℕ → CString → ℕ → Option ℕ
  | 0, _, _ => none
  | n + 1, name, ipaddr =>
    match dotSegment 4 name 0 0 with
    | none => none
    | some (val, ch, name) =>
      if val > 255 then none
      else
        let ipaddr := ipaddr <<< 8 % 2 ^ 32 ||| val
        if ch = 0 then if n = 0 then some ipaddr else none
        else dotSegments n name ipaddr

/-- `dot2ip(dotted, result)`: nothing for `SYSERR`. -/
def dot2ip (name : CString) : Option ℕ := dotSegments 4 name 0

/-- `dotted` in `dnslookup`: there are only digits and dots. -/
def isDotted (dname : CString) : Bool := dname.all fun ch => ! (ch ≠ DOT && (ch < 48 || ch > 57))

/-- `strncmp(dname, "localhost", 9) == 0`. -/
def isLocalhost (dname : CString) : Bool := dname.take 9 = [108, 111, 99, 97, 108, 104, 111, 115, 116]

/-- What happens in a try of `dnslookup`: what `udp_recv` returns, and the address that `dns_geta`
then gives, if any. It may depend on what is in the buffers behind the reply. -/
structure DnsReply where
  /-- What `udp_recv` returns. -/
  rlen : ℤ
  /-- The address that is found in the reply. -/
  dns_geta : Option ℕ

/-- The loop of `dnslookup`, with `n` tries left and the `i`-th one next. -/
def dnsRetry (replies : ℕ → DnsReply) : ℕ → ℕ → Option ℕ
  | 0, _ => none
  | n + 1, i =>
    if (replies i).rlen = SYSERR ∨ (replies i).rlen = TIMEOUT then dnsRetry replies n (i + 1)
    else
      match (replies i).dns_geta with
      | none => dnsRetry replies n (i + 1)
      | some ipaddr => some ipaddr

/-- `dnslookup(dname, addr)`: nothing for `SYSERR`. The last three arguments are what its call of
`getlocalip` meets, and the replies to the query. -/
def Clients.dnslookup (s : Clients) (dname : Option CString)
    (dmsg_rvc : ℕ → UInt8) (dhcp : ℕ → UdpReply) (replies : ℕ → DnsReply) :
    Clients × Option ℕ :=
  match dname with
  | none => (s, none)
  | some dname =>
    if isDotted dname then (s, dot2ip dname)
    else if isLocalhost dname then (s, some 0x7f000001)
    else
      let r := s.getlocalip dmsg_rvc dhcp
      let s := r.1
      let nsaddr := s.net.dnsserver
      if r.2 = USYSERR ∨ nsaddr = 0 then (s, none)
      else
        match s.udp_register ⟨nsaddr, DNSPORT, DNSLPORT⟩ with
        | (s, none) => (s, none)
        | (s, some slot) =>
          if (dns_bldq dname fun _ => 0).1 = SYSERR then (s, none)
          else
            let ipaddr := dnsRetry replies DNSRETRY 0
            (s.udp_release slot, ipaddr.map ntohl)

/-! ## A file -/

namespace TftpGet

variable (rcv_buf_sizes : List ℕ)

/-- The calls of `udp_release` behind a block that was expected. -/
def blockReleases (c : TftpGet) (inmsg : TftpMsg) (sent : Bool) : ℕ :=
  let dlen := inmsg.n - 4
  -- there is no room for the next byte
  if (copyBlock rcv_buf_sizes ((List.range dlen.toNat).map inmsg.tf_data) c).2 then 1
  -- the last packet, whose acknowledgement may fail
  else if dlen < TFTP_MAXDATA then 1
  else if ! sent then 1
  else 0

/-- The calls of `udp_release` in a step. -/
def releases (c : TftpGet) (ret : TftpRecv) (sent : Bool) : ℕ :=
  match ret with
  | .syserr => 1
  | .timeout => if c.i + 1 ≥ TFTP_MAXRETRIES then 1 else if ! sent then 1 else 0
  | .packet remport inmsg =>
    let c := { c with remport := remport }
    if inmsg.n < 4 then 0
    else if inmsg.tf_opcode = TFTP_ERROR then 1
    else if inmsg.tf_opcode = TFTP_DATA ∧ inmsg.tf_dblk = c.expected then
      c.blockReleases rcv_buf_sizes inmsg sent
    else 0

/-- A transfer goes on with what `udp_recvaddr` returns, each time with the outcome of the next
`udp_sendto`. It may still wait at the end. -/
def loop (slot : ℤ) : Clients → TftpGet → List (TftpRecv × Bool) → Option (Clients × ℤ)
  | s, c, [] => c.result.map fun r => (s, r)
  | s, c, e :: rets =>
    match c.result with
    | some r => some (s, r)
    | none =>
      loop slot (Nat.iterate (fun s => s.udp_release slot) (c.releases rcv_buf_sizes e.1 e.2) s)
        (c.tftp_send1 rcv_buf_sizes e.1 e.2).1 rets

end TftpGet

/-- `tftpget_mb(serverip, filename, rcv_bufs, rcv_buf_sizes, rcv_buf_count, verbose)`, with the port
of `getport`, the outcome of the first `udp_sendto`, and what comes then. Nothing, if it does not
return. -/
def Clients.tftpget_mb (s : Clients) (serverip : ℕ) (filename : CString)
    (rcv_bufs : ℕ → ℕ → UInt8) (rcv_buf_sizes : List ℕ) (localport : ℕ) (sent : Bool)
    (rets : List (TftpRecv × Bool)) : Option (Clients × ℤ) :=
  if serverip = 0 ∨ rcv_buf_sizes.length = 0 then some (s, SYSERR)
  else if rcv_buf_sizes.any (· = 0) then some (s, SYSERR)
  else if filename.length = 0 ∨ filename.length > TFTP_MAXNAM then some (s, SYSERR)
  else
    match s.udp_register ⟨serverip, 0, localport⟩ with
    | (s, none) => some (s, SYSERR)
    | (s, some slot) =>
      -- `tftp_send1` returns `SYSERR` if the request cannot be sent
      if ! sent then some (s.udp_release slot, SYSERR)
      else TftpGet.loop rcv_buf_sizes slot s (.start rcv_buf_sizes serverip filename rcv_bufs true sent) rets

/-! ## Calls -/

/-- A call, with its arguments, and with what it meets outside. -/
inductive ClientCall where
  | getlocalip (dmsg_rvc : ℕ → UInt8) (replies : ℕ → UdpReply)
  | dnslookup (dname : Option CString) (dmsg_rvc : ℕ → UInt8) (dhcp : ℕ → UdpReply) (replies : ℕ → DnsReply)
  | tftpget_mb (serverip : ℕ) (filename : CString) (rcv_bufs : ℕ → ℕ → UInt8)
    (rcv_buf_sizes : List ℕ) (localport : ℕ) (sent : Bool)
      (rets : List (TftpRecv × Bool))
  | ip_send (dest : ℕ) (arp_resolve : ℕ → ℤ) (ip_out : ℤ)
  | icmp_send (remip : ℕ) (getbuf : Bool) (arp_resolve : ℕ → ℤ) (ip_out : ℤ)

/-- What a call leaves behind: nothing if it does not return. -/
def ClientCall.exec (s : Clients) : ClientCall → Option Clients
  | .getlocalip dmsg_rvc replies => some (s.getlocalip dmsg_rvc replies).1
  | .dnslookup dname dmsg_rvc dhcp replies => some (s.dnslookup dname dmsg_rvc dhcp replies).1
  | .tftpget_mb serverip filename rcv_bufs rcv_buf_sizes localport sent rets =>
    (s.tftpget_mb serverip filename rcv_bufs rcv_buf_sizes localport sent rets).map Prod.fst
  | .ip_send dest arp_resolve ip_out => some (s.ip_send dest arp_resolve ip_out).1
  | .icmp_send remip getbuf arp_resolve ip_out => (s.icmp_send remip getbuf arp_resolve ip_out).map Prod.fst

/-- Calls one after the other, each of which meets a condition. -/
inductive ClientRun (C : Clients → ClientCall → Prop) (s₀ : Clients) : Clients → Prop where
  | start : ClientRun C s₀ s₀
  | call {s s' : Clients} {c : ClientCall} (run : ClientRun C s₀ s) (hc : C s c) (h : c.exec s = some s') :
    ClientRun C s₀ s'

end Xinu
