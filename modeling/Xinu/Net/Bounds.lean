import Xinu.Lib.Footprint
import Xinu.Net.Ip

/-!
# What hostile packets reach

The way of a frame from the ring of the controller to a process, as accesses to buffers: `ethread`
copies it, `ip_in` checks it, `icmp_in` answers it, and `udp_recv` or `icmp_recv` hand it on.
Lengths come from the descriptor, from the IP header and from the UDP header. A buffer of the
network has `PACKLEN` bytes, which `mkbufpool` rounds up to a multiple of four. What lies behind the
end of a buffer, and what is left in it from an earlier packet, is arbitrary. Header fields are read
in network byte order, so that the functions that convert them show as accesses only.
-/

namespace Xinu

/-- `PACKLEN`. -/
abbrev PACKLEN : ℕ := 1514

/-- `ETH_BUF_SIZE`. -/
abbrev ETH_BUF_SIZE : ℕ := 2048

/-- `ETH_IP`. -/
abbrev ETH_IP : ℕ := 0x0800

/-- The size of a buffer of `netbufpool`. -/
abbrev netbufsize : ℕ := (PACKLEN + 3) / 4 * 4

/-- A buffer of the controller, the buffer of the packet, that of the reply, and that of the caller
of `udp_recv` or `icmp_recv`. -/
inductive PktBuf where
  | ring
  | packet
  | reply
  | caller
  deriving DecidableEq

/-- The sizes of the buffers, for a caller with `len` bytes. -/
def pktBufSize (len : ℤ) : PktBuf → ℕ
  | .ring => ETH_BUF_SIZE
  | .packet | .reply => netbufsize
  | .caller => len.toNat

/-- A frame in a buffer of the controller, with the length in its descriptor. -/
structure EthFrame where
  /-- How many bytes were received. -/
  length : ℕ
  /-- The bytes of the buffer. -/
  bytes : ℕ → UInt8

/-- What decides where a packet goes. -/
structure NetTables where
  /-- The addresses of the computer. -/
  netData : NetAddresses
  /-- The table of UDP endpoints. -/
  udptab : ℤ → Slot UdpKey
  /-- The table of ICMP endpoints. -/
  icmptab : ℤ → Slot ℕ

/-- What becomes of a packet. -/
inductive PktFate where
  | dropped
  /-- `icmp_in` has made a reply. -/
  | answered
  /-- The packet is in the queue of a slot of UDP. -/
  | udp (slot : ℤ)
  /-- The packet is in the queue of a slot of ICMP. -/
  | icmp (slot : ℤ)
  deriving DecidableEq

/-! ## Fields -/

/-- A field of 16 bits. -/
def be16 (m : ℕ → UInt8) (i : ℕ) : ℕ := (m i).toNat * 2 ^ 8 + (m (i + 1)).toNat

/-- A field of 32 bits. -/
def be32 (m : ℕ → UInt8) (i : ℕ) : ℕ := be16 m i * 2 ^ 16 + be16 m (i + 2)

/-- The fields of `struct netpacket`, by their offsets. -/
def netpacket (m : ℕ → UInt8) : Netpacket where
  buf := 0
  net_ipsrc := be32 m 26
  net_iplen := be16 m 16
  net_ictype := (m 34).toNat
  net_icident := be16 m 38
  net_udpsport := be16 m 34
  net_udpdport := be16 m 36
  net_udplen := be16 m 38
  data := []

/-- `net_ethtype`. -/
def net_ethtype (m : ℕ → UInt8) : ℕ := be16 m 12

/-- `net_ipvh`. -/
def net_ipvh (m : ℕ → UInt8) : ℕ := (m 14).toNat

/-- `net_ipproto`. -/
def net_ipproto (m : ℕ → UInt8) : ℕ := (m 23).toNat

/-- `net_ipdst`. -/
def net_ipdst (m : ℕ → UInt8) : ℕ := be32 m 30

/-- An access to a field of the packet. -/
def field (first count : ℕ) : Access PktBuf := ⟨.packet, first, count⟩

/-! ## Checksums -/

/-- The loop of both checksums, over so many words. -/
def sumWords (m : ℕ → UInt8) : ℕ → ℕ → ℕ → ℕ × Footprint PktBuf
  | 0, _, cksum => (cksum, [])
  | n + 1, sptr, cksum =>
    let r := sumWords m n (sptr + 2) (cksum + be16 m sptr)
    (r.1, field sptr 2 :: r.2)

/-- `ipcksum(pkt)`. -/
def ipcksum (m : ℕ → UInt8) : ℕ × Footprint PktBuf :=
  let r := sumWords m 10 14 0
  let cksum := 0xffff - (r.1 + r.1 / 2 ^ 16) % 2 ^ 16
  (if cksum = 0xffff then 0 else cksum, r.2)

/-- `icmp_cksum(buf, buflen)`. -/
def icmp_cksum (m : ℕ → UInt8) (buf : ℕ) (buflen : ℤ) : ℕ × Footprint PktBuf :=
  let scount := (buflen / 2).toNat
  let r := sumWords m scount buf 0
  -- The loop does nothing for a negative length, and an odd one still has its last byte.
  let odd := buflen % 2 ≠ 0
  let sum := if odd then r.1 + (m (buf + 2 * scount)).toNat * 2 ^ 8 else r.1
  (0xffff - (sum + sum / 2 ^ 16) % 2 ^ 16, r.2 ++ if odd then [field (buf + 2 * scount) 1] else [])

/-! ## The way of a packet -/

/-- `ethread(devptr, buf, len)`: the frame is copied with the length of its descriptor. -/
def ethread (f : EthFrame) (buf : ℕ → UInt8) : (ℕ → UInt8) × Footprint PktBuf :=
  (fun j => if j < f.length then f.bytes j else buf j,
    [⟨.ring, 0, f.length⟩, ⟨.packet, 0, f.length⟩, ⟨.ring, 0, ETH_BUF_SIZE⟩])

/-- `memcpy(s, ct, n)`: the count is an `int`, and the loop copies nothing for a negative one. -/
def memcpy (s : PktBuf) (dst : ℕ) (ct : PktBuf) (src : ℕ) (n : ℤ) : Footprint PktBuf :=
  [⟨ct, src, n.toNat⟩, ⟨s, dst, n.toNat⟩]

/-- `icmp_mkpkt(remip, type, ident, seq, buf, len)`, with `buf` in the packet: the header of the
reply, and the data. -/
def icmp_mkpkt (buf : ℕ) (len : ℤ) : Footprint PktBuf := ⟨.reply, 6, 36⟩ :: memcpy .reply 42 .packet buf len

namespace NetTables

/-- The tests of the destination at the end of `ip_in`. -/
def accepts (s : NetTables) (m : ℕ → UInt8) : Bool :=
  if net_ipdst m = IP_BCAST then true
  else if ¬ s.netData.ipvalid then net_ipproto m = IP_UDP
  else net_ipdst m = s.netData.ipucast ∨ net_ipdst m = s.netData.ipbcast

/-- `udp_in(pktptr)`, with the fields that its loop may read. -/
def udp_in (s : NetTables) (m : ℕ → UInt8) : PktFate × Footprint PktBuf :=
  (match udpAccepts s.udptab (netpacket m) with
    | some slot => .udp slot
    | none => .dropped, [field 36 2, field 34 2, field 26 4])

/-- `icmp_in(pkt)`. -/
def icmp_in (s : NetTables) (m : ℕ → UInt8) : PktFate × Footprint PktBuf :=
  let pkt := netpacket m
  if pkt.net_ictype = ICMP_ECHOREQST then
    (.answered, [field 34 1, field 26 4, field 38 2, field 40 2, field 16 2] ++
      icmp_mkpkt 42 (pkt.net_iplen - IP_HDR_LEN - ICMP_HDR_LEN))
  else
    (match icmpAccepts s.netData.ipucast s.icmptab pkt with
      | some slot => .icmp slot
      | none => .dropped, [field 34 1, field 38 2, field 26 4])

/-- `ip_local(pktptr)`. -/
def ip_local (s : NetTables) (m : ℕ → UInt8) : PktFate × Footprint PktBuf :=
  if net_ipproto m = IP_UDP then s.udp_in m
  else if net_ipproto m = IP_ICMP then s.icmp_in m
  else (.dropped, [])

/-- The end of `ip_in`, with the accesses so far. -/
def deliver (s : NetTables) (m : ℕ → UInt8) (l : Footprint PktBuf) : PktFate × Footprint PktBuf :=
  if s.accepts m then
    let r := s.ip_local m
    (r.1, l ++ [field 30 4, field 23 1] ++ r.2)
  else (.dropped, l ++ [field 30 4, field 23 1])

/-- `ip_in(pktptr)`. -/
def ip_in (s : NetTables) (m : ℕ → UInt8) : PktFate × Footprint PktBuf :=
  let sum := ipcksum m
  if sum.1 ≠ 0 then (.dropped, sum.2)
  else
    -- `ip_ntoh`, and the version.
    let l := sum.2 ++ [field 16 2, field 18 2, field 20 2, field 26 4, field 30 4, field 14 1]
    if net_ipvh m ≠ 0x45 then (.dropped, l)
    else if net_ipproto m = IP_UDP then s.deliver m (l ++ [field 23 1, field 34 2, field 36 2, field 38 2])
    else if net_ipproto m = IP_ICMP then
      let icsum := icmp_cksum m 34 ((netpacket m).net_iplen - IP_HDR_LEN)
      if icsum.1 ≠ 0 then (.dropped, l ++ [field 23 1, field 16 2] ++ icsum.2)
      else s.deliver m (l ++ [field 23 1, field 16 2] ++ icsum.2 ++ [field 36 2, field 38 2, field 40 2])
    else s.deliver m (l ++ [field 23 1])

/-- The loop of `netin`, for a frame that is IP. -/
def netin (s : NetTables) (f : EthFrame) (buf : ℕ → UInt8) : PktFate × Footprint PktBuf :=
  let r := ethread f buf
  if net_ethtype r.1 = ETH_IP then
    let q := s.ip_in r.1
    (q.1, r.2 ++ [field 12 2] ++ q.2)
  else (.dropped, r.2 ++ [field 12 2])

end NetTables

/-- The end of `udp_recv(slot, buff, len, timeout)`, with the packet that has been taken out of the
queue: the result, and the copy. -/
def udpCopy (m : ℕ → UInt8) (len : ℤ) : ℤ × Footprint PktBuf :=
  let msglen := udpLength (netpacket m) len
  (msglen, field 38 2 :: (List.range msglen.toNat).flatMap fun i => [.cell .packet (42 + i), .cell .caller i])

/-- The end of `icmp_recv(icmpid, buff, len, timeout)`. -/
def icmpCopy (m : ℕ → UInt8) (len : ℤ) : ℤ × Footprint PktBuf :=
  let n := icmpLength (netpacket m) len
  (n, field 16 2 :: (List.range n.toNat).flatMap fun i => [.cell .packet (42 + i), .cell .caller i])

/-! ## The bound -/

/-- The packet that a frame leaves in a buffer. -/
def pktOf (f : EthFrame) (buf : ℕ → UInt8) : ℕ → UInt8 := (ethread f buf).1

/-- All accesses stay in their buffers, and a receive returns a length that its caller has. -/
structure Confined (s : NetTables) (f : EthFrame) (buf : ℕ → UInt8) (len : ℤ) : Prop where
  /-- What `netin` reads and writes lies in its buffers. -/
  netin : Footprint.Within (pktBufSize len) (s.netin f buf).2
  /-- What a receive of UDP copies lies in its buffers, and the length that it returns is one of its buffer.
  -/
  udp_recv : ∀ slot, (s.netin f buf).1 = .udp slot → Footprint.Within (pktBufSize len)
    (udpCopy (pktOf f buf) len).2 ∧
    0 ≤ (udpCopy (pktOf f buf) len).1 ∧ (udpCopy (pktOf f buf) len).1 ≤ len
  /-- What a receive of ICMP copies lies in its buffers, and the length that it returns is one of its buffer.
  -/
  icmp_recv : ∀ slot, (s.netin f buf).1 = .icmp slot → Footprint.Within (pktBufSize len)
    (icmpCopy (pktOf f buf) len).2 ∧
    0 ≤ (icmpCopy (pktOf f buf) len).1 ∧ (icmpCopy (pktOf f buf) len).1 ≤ len

/-- The frame fits in the buffer, and the length in the header of a packet that passes the checks
fits too: that of ICMP before the checksum is computed over it, and that of UDP, which is not below
its header either, as far as it is copied. -/
structure WellSized (s : NetTables) (f : EthFrame) (m : ℕ → UInt8) (len : ℤ) : Prop where
  /-- The frame fits in the buffer. -/
  frame : f.length ≤ netbufsize
  /-- An ICMP packet fits in the buffer, by the length in its IP header. -/
  icmp : net_ethtype m = ETH_IP → (ipcksum m).1 = 0 → net_ipvh m = 0x45 → net_ipproto m = IP_ICMP →
    (netpacket m).net_iplen + 14 ≤ netbufsize
  /-- A UDP packet fits in the buffer, by the length in its header, which is not below that of the header. -/
  udp : net_ethtype m = ETH_IP → (ipcksum m).1 = 0 → net_ipvh m = 0x45 →
    net_ipproto m = IP_UDP → s.accepts m →
    udpAccepts s.udptab (netpacket m) ≠ none →
    UDP_HDR_LEN ≤ (netpacket m).net_udplen ∧
    (udpLength (netpacket m) len = 0 ∨ udpLength (netpacket m) len + 42 ≤ netbufsize)

open Footprint

variable {len : ℤ} {m : ℕ → UInt8}

/-- The fields of the header are within the packet. -/
theorem within_fields {l : Footprint PktBuf} (h : ∀ a ∈ l, a.obj = .packet ∧ a.first + a.count ≤ 42) :
    Within (pktBufSize len) l := by
  intro a ha
  obtain ⟨hobj, hend⟩ := h a ha
  have hsize : pktBufSize len PktBuf.packet = 1516 := rfl
  rw [hobj, hsize]
  omega

/-- The loop of a checksum reads within the buffer exactly if its words end there. -/
theorem within_sumWords (n : ℕ) : ∀ sptr cksum : ℕ, Within (pktBufSize len)
    (sumWords m n sptr cksum).2 ↔ n = 0 ∨ sptr + 2 * n ≤ netbufsize := by
  induction n with
  | zero => intro sptr cksum; simp [sumWords]
  | succ n ih =>
    intro sptr cksum
    have hsize : pktBufSize len PktBuf.packet = netbufsize := rfl
    simp only [sumWords, within_cons, ih, field, hsize]
    omega

/-- The checksum of the IP header is within the packet. -/
theorem within_ipcksum : Within (pktBufSize len) (ipcksum m).2 :=
  (within_sumWords 10 14 0).mpr (.inr (by decide))

/-- The checksum of an ICMP message is within the packet exactly if the message is. -/
theorem within_icmp_cksum (n : ℤ) : Within (pktBufSize len) (icmp_cksum m 34 n).2 ↔ n + 34 ≤ netbufsize := by
  have hsize : pktBufSize len PktBuf.packet = netbufsize := rfl
  have hb : netbufsize = 1516 := rfl
  simp only [icmp_cksum, within_append, within_sumWords]
  by_cases hodd : n % 2 ≠ 0
  · rw [if_pos hodd, within_cons, field, hsize]
    simp only [within_nil, and_true]
    omega
  · rw [if_neg hodd]
    simp only [within_nil, and_true]
    omega

/-- The copy of a frame is within the packet exactly if the frame fits. -/
theorem within_ethread {f : EthFrame} (hf : f.length ≤ ETH_BUF_SIZE) (buf : ℕ → UInt8) :
    Within (pktBufSize len) (ethread f buf).2 ↔ f.length ≤ netbufsize := by
  have hring : pktBufSize len PktBuf.ring = ETH_BUF_SIZE := rfl
  have hpkt : pktBufSize len PktBuf.packet = netbufsize := rfl
  simp only [ethread, within_cons, within_nil, and_true, hring, hpkt]
  omega

/-- The reply is made within both packets exactly if the data, which are none for a negative length,
are within the request. -/
theorem within_icmp_mkpkt (n : ℤ) :
    Within (pktBufSize len) (icmp_mkpkt 42 n) ↔ n ≤ 0 ∨ n + 42 ≤ netbufsize := by
  have hreply : pktBufSize len PktBuf.reply = netbufsize := rfl
  have hpkt : pktBufSize len PktBuf.packet = netbufsize := rfl
  have hb : netbufsize = 1516 := rfl
  simp only [icmp_mkpkt, memcpy, within_cons, within_nil, and_true, hreply, hpkt, hb]
  omega

/-- The loop that copies data to the caller. -/
theorem within_copy {n : ℤ} (hn : n ≤ len) :
    Within (pktBufSize len) ((List.range n.toNat).flatMap fun i =>
      [Access.cell PktBuf.packet (42 + i), .cell .caller i]) ↔
      n ≤ 0 ∨ n + 42 ≤ netbufsize := by
  have hpkt : pktBufSize len PktBuf.packet = netbufsize := rfl
  have hcaller : pktBufSize len PktBuf.caller = len.toNat := rfl
  rw [within_flatMap]
  simp only [within_cell, within_nil, and_true, hpkt, hcaller]
  have hall : (∀ i < n.toNat, 42 + i < netbufsize ∧ i < len.toNat) ↔ ∀ i < n.toNat, 42 + i < netbufsize := by
    refine forall₂_congr fun i hi => and_iff_left ?_
    omega
  rw [hall, forall_cell_lt]
  omega

/-! ## The way of a packet -/

/-- A field of 16 bits is below `2 ^ 16`. -/
theorem be16_lt (m : ℕ → UInt8) (i : ℕ) : be16 m i < 2 ^ 16 := by
  have h0 := (m i).toNat_lt
  have h1 := (m (i + 1)).toNat_lt
  unfold be16
  omega

variable {s : NetTables}

/-- What is delivered: the header, and the reply to an echo request, whose length has been within
the packet before. -/
theorem within_deliver (l : Footprint PktBuf)
    (hlen : net_ipproto m = IP_ICMP → (netpacket m).net_iplen + 14 ≤ netbufsize) :
    Within (pktBufSize len) (s.deliver m l).2 ↔ Within (pktBufSize len) l := by
  have hdst : Within (pktBufSize len) [field 30 4, field 23 1] := within_fields (by decide)
  have hudp : Within (pktBufSize len) (s.udp_in m).2 :=
    within_fields (by decide : ∀ a ∈ [field 36 2, field 34 2, field 26 4], _)
  unfold NetTables.deliver
  by_cases ha : s.accepts m
  swap
  · rw [if_neg ha]
    simp only [within_append, hdst, and_true]
  rw [if_pos ha]
  simp only [within_append, hdst, and_true]
  refine and_iff_left ?_
  unfold NetTables.ip_local
  by_cases hu : net_ipproto m = IP_UDP
  · rw [if_pos hu]
    exact hudp
  rw [if_neg hu]
  by_cases hi : net_ipproto m = IP_ICMP
  swap
  · rw [if_neg hi]
    exact within_nil
  rw [if_pos hi]
  unfold NetTables.icmp_in
  dsimp only
  by_cases hr : (netpacket m).net_ictype = ICMP_ECHOREQST
  · rw [if_pos hr, within_append, within_icmp_mkpkt, and_iff_right (within_fields (by decide))]
    -- The data begin 42 bytes behind the start of the frame, and the length counts from byte 14 on.
    have h20 : IP_HDR_LEN = 20 := rfl
    have h8 : ICMP_HDR_LEN = 8 := rfl
    have hbound := hlen hi
    omega
  · rw [if_neg hr]
    exact within_fields (by decide : ∀ a ∈ [field 34 1, field 38 2, field 26 4], _)

/-- The accesses of `ip_in` are within the packets exactly if the length of an ICMP message is right. -/
theorem within_ip_in : Within (pktBufSize len) (s.ip_in m).2 ↔
    ((ipcksum m).1 = 0 → net_ipvh m = 0x45 → net_ipproto m = IP_ICMP →
      (netpacket m).net_iplen + 14 ≤ netbufsize) := by
  have hsum : Within (pktBufSize len) (ipcksum m).2 := within_ipcksum
  have hntoh : Within (pktBufSize len) [field 16 2, field 18 2,
    field 20 2, field 26 4, field 30 4, field 14 1] := within_fields (by decide)
  have hproto : Within (pktBufSize len) [field 23 1] := within_fields (by decide)
  have hudp : Within (pktBufSize len) [field 23 1, field 34 2, field 36 2, field 38 2] :=
    within_fields (by decide)
  have hicmp : Within (pktBufSize len) [field 23 1, field 16 2] := within_fields (by decide)
  have hicntoh : Within (pktBufSize len) [field 36 2, field 38 2, field 40 2] := within_fields (by decide)
  have h20 : IP_HDR_LEN = 20 := rfl
  unfold NetTables.ip_in
  dsimp only
  by_cases hck : (ipcksum m).1 = 0
  swap
  · rw [if_pos hck]
    exact ⟨fun _ h => absurd h hck, fun _ => hsum⟩
  rw [if_neg (by simpa using hck)]
  by_cases hv : net_ipvh m = 0x45
  swap
  · rw [if_pos hv]
    refine ⟨fun _ _ h => absurd h hv, fun _ => ?_⟩
    exact within_append.mpr ⟨hsum, hntoh⟩
  rw [if_neg (by simpa using hv)]
  simp only [hck, hv, forall_const]
  by_cases hu : net_ipproto m = IP_UDP
  · have hne : net_ipproto m ≠ IP_ICMP := by
      rw [hu]
      decide
    rw [if_pos hu, within_deliver _ fun h => absurd h hne]
    simp only [within_append, hsum, hntoh, hudp, hne, false_implies, and_true]
  rw [if_neg hu]
  by_cases hi : net_ipproto m = IP_ICMP
  swap
  · rw [if_neg hi, within_deliver _ fun h => absurd h hi]
    simp only [within_append, hsum, hntoh, hproto, hi, false_implies, and_true]
  rw [if_pos hi]
  simp only [hi, forall_const]
  -- The checksum of ICMP is computed over the length of the header before anything else is known of it.
  have hcks : Within (pktBufSize len) (icmp_cksum m 34 ((netpacket m).net_iplen - IP_HDR_LEN)).2 ↔
      (netpacket m).net_iplen + 14 ≤ netbufsize := by
    rw [within_icmp_cksum]
    omega
  by_cases hic : (icmp_cksum m 34 ((netpacket m).net_iplen - IP_HDR_LEN)).1 = 0
  · rw [if_neg (by simpa using hic)]
    constructor
    · intro h
      -- Whatever becomes of the packet, the accesses of the checksum are among its accesses.
      have hl : Within (pktBufSize len) (icmp_cksum m 34 ((netpacket m).net_iplen - IP_HDR_LEN)).2 := by
        intro a ha
        refine h a ?_
        unfold NetTables.deliver
        split <;> simp [ha]
      exact hcks.mp hl
    · intro hlen
      rw [within_deliver _ fun _ => hlen]
      simp only [within_append, hsum, hntoh, hicmp, hicntoh, hcks, hlen, and_true]
  · rw [if_pos hic]
    simp only [within_append, hsum, hntoh, hicmp, hcks, true_and]

/-- Only packets for UDP go into its queues. -/
theorem deliver_udp {l : Footprint PktBuf} {slot : ℤ} : (s.deliver m l).1 = .udp slot ↔
    s.accepts m ∧ net_ipproto m = IP_UDP ∧ udpAccepts s.udptab (netpacket m) = some slot := by
  unfold NetTables.deliver NetTables.ip_local NetTables.udp_in NetTables.icmp_in
  by_cases ha : s.accepts m
  swap
  · simp [ha]
  by_cases hu : net_ipproto m = IP_UDP
  · simp only [ha, hu, if_true, true_and]
    cases udpAccepts s.udptab (netpacket m) <;> simp
  · simp only [ha, hu, if_true, if_false, true_and, false_and, iff_false]
    split
    · split
      · simp
      · cases icmpAccepts s.netData.ipucast s.icmptab (netpacket m) <;> simp
    · simp

/-- Only packets for ICMP go into its queues. -/
theorem deliver_icmp {l : Footprint PktBuf} {slot : ℤ} (h : (s.deliver m l).1 = .icmp slot) :
    net_ipproto m = IP_ICMP := by
  unfold NetTables.deliver NetTables.ip_local NetTables.udp_in at h
  by_contra hi
  by_cases ha : s.accepts m
  swap
  · simp [ha] at h
  by_cases hu : net_ipproto m = IP_UDP
  · simp only [ha, hu, if_true] at h
    revert h
    cases udpAccepts s.udptab (netpacket m) <;> simp
  · simp [ha, hu, hi] at h

/-- The packets that go into a queue of UDP. -/
theorem ip_in_udp {slot : ℤ} :
    (s.ip_in m).1 = .udp slot ↔ (ipcksum m).1 = 0 ∧ net_ipvh m = 0x45 ∧ net_ipproto m = IP_UDP ∧
    s.accepts m ∧ udpAccepts s.udptab (netpacket m) = some slot := by
  unfold NetTables.ip_in
  dsimp only
  by_cases hck : (ipcksum m).1 = 0
  swap
  · simp [hck]
  by_cases hv : net_ipvh m = 0x45
  swap
  · simp [hck, hv]
  by_cases hu : net_ipproto m = IP_UDP
  · simp only [hck, hv, hu, ne_eq, not_true_eq_false, if_false, if_true, deliver_udp, true_and]
  · simp only [hck, hv, hu, ne_eq, not_true_eq_false, if_false, false_and, and_false, iff_false]
    split
    · split
      · simp
      · simp [deliver_udp, hu]
    · simp [deliver_udp, hu]

/-- The packets that go into a queue of ICMP have passed the checksums. -/
theorem ip_in_icmp {slot : ℤ} (h : (s.ip_in m).1 = .icmp slot) :
    (ipcksum m).1 = 0 ∧ net_ipvh m = 0x45 ∧ net_ipproto m = IP_ICMP := by
  unfold NetTables.ip_in at h
  dsimp only at h
  by_cases hck : (ipcksum m).1 = 0
  swap
  · simp [hck] at h
  by_cases hv : net_ipvh m = 0x45
  swap
  · simp [hck, hv] at h
  refine ⟨hck, hv, ?_⟩
  rw [if_neg (by simpa using hck), if_neg (by simpa using hv)] at h
  split at h
  · exact deliver_icmp h
  · split at h
    next hi => exact hi
    next => exact deliver_icmp h

/-- The loop of `netin` hands frames of IP to `ip_in`. -/
theorem netin_eq (f : EthFrame) (buf : ℕ → UInt8) : s.netin f buf =
    if net_ethtype (pktOf f buf) = ETH_IP then
      ((s.ip_in (pktOf f buf)).1, (ethread f buf).2 ++ [field 12 2] ++ (s.ip_in (pktOf f buf)).2)
    else (.dropped, (ethread f buf).2 ++ [field 12 2]) := rfl

/-- For every frame that the controller can deliver, every state of the tables and every caller: all
accesses stay in their buffers, and a receive returns a length between zero and that of its caller,
exactly if the lengths in the frame are right. -/
theorem packets_confined (s : NetTables) (f : EthFrame)
    (buf : ℕ → UInt8) {len : ℤ} (hf : f.length ≤ ETH_BUF_SIZE) (hlen : 0 ≤ len) :
    Confined s f buf len ↔ WellSized s f (pktOf f buf) len := by
  have htype : Within (pktBufSize len) [field 12 2] := within_fields (by decide)
  have hlen16 : Within (pktBufSize len) [field 16 2] := within_fields (by decide)
  have hlen38 : Within (pktBufSize len) [field 38 2] := within_fields (by decide)
  have hcons (a : Access PktBuf) (l : Footprint PktBuf) : a :: l = [a] ++ l := rfl
  have h8 : UDP_HDR_LEN = 8 := rfl
  have hle : udpLength (netpacket (pktOf f buf)) len ≤ len := by
    unfold udpLength
    dsimp only
    split <;> omega
  -- The copy of `udp_recv`, with the result.
  have hudp : Within (pktBufSize len) (udpCopy (pktOf f buf) len).2 ∧ 0 ≤ (udpCopy (pktOf f buf) len).1 ∧
      (udpCopy (pktOf f buf) len).1 ≤ len ↔ UDP_HDR_LEN ≤ (netpacket (pktOf f buf)).net_udplen ∧
        (udpLength (netpacket (pktOf f buf)) len = 0 ∨
          udpLength (netpacket (pktOf f buf)) len + 42 ≤ netbufsize) := by
    simp only [udpCopy]
    rw [hcons, within_append, within_copy hle, and_iff_right hlen38]
    unfold udpLength
    dsimp only
    split <;> omega
  rw [show Confined s f buf len ↔ _ from ⟨fun h =>
    And.intro h.netin (And.intro h.udp_recv h.icmp_recv), fun h => ⟨h.1, h.2.1, h.2.2⟩⟩,
    netin_eq]
  by_cases hip : net_ethtype (pktOf f buf) = ETH_IP
  swap
  · -- Other frames are only copied.
    rw [if_neg hip]
    simp only [within_append, within_ethread hf, htype, and_true]
    constructor
    · rintro ⟨h, -⟩
      exact ⟨h, fun h => absurd h hip, fun h => absurd h hip⟩
    · intro h
      exact ⟨h.frame, by simp, by simp⟩
  rw [if_pos hip]
  simp only [within_append, within_ethread hf, htype, and_true, within_ip_in]
  constructor
  · rintro ⟨⟨hframe, hicmp⟩, hu, -⟩
    refine ⟨hframe, fun _ => hicmp, ?_⟩
    intro _ hck hv hp ha hq
    obtain ⟨slot, hslot⟩ := Option.ne_none_iff_exists'.mp hq
    exact hudp.mp (hu slot (ip_in_udp.mpr ⟨hck, hv, hp, ha, hslot⟩))
  · intro h
    refine ⟨⟨h.frame, h.icmp hip⟩, ?_, ?_⟩
    · intro slot hs
      obtain ⟨hck, hv, hp, ha, hslot⟩ := ip_in_udp.mp hs
      exact hudp.mpr (h.udp hip hck hv hp ha (by simp [hslot]))
    · intro slot hs
      obtain ⟨hck, hv, hp⟩ := ip_in_icmp hs
      have hbound := h.icmp hip hck hv hp
      -- The message has been within the packet when its checksum was computed.
      have hn : icmpLength (netpacket (pktOf f buf)) len ≤ len := by
        unfold icmpLength
        omega
      have h20 : IP_HDR_LEN = 20 := rfl
      have hi8 : ICMP_HDR_LEN = 8 := rfl
      refine ⟨?_, ?_, hn⟩
      · simp only [icmpCopy]
        rw [hcons, within_append, within_copy hn]
        refine ⟨hlen16, ?_⟩
        unfold icmpLength
        omega
      · change 0 ≤ icmpLength _ _
        unfold icmpLength
        omega

/-- Tables in which no slot is used, and no address is known. -/
def quietTables : NetTables where
  netData := ⟨false, 0, 0, [], []⟩
  udptab _ := ⟨.free, ⟨0, 0, 0⟩, 0, 0, 0, 0, fun _ => netpacket fun _ => 0⟩
  icmptab _ := ⟨.free, 0, 0, 0, 0, 0, fun _ => netpacket fun _ => 0⟩

/-- The tables of the host 10.0.0.1, with a slot of UDP for port 7. -/
def echoTables : NetTables where
  netData := ⟨true, 0x0a000001, 0x0a0000ff, [], []⟩
  udptab i := if i = 0 then ⟨.used, ⟨0, 0, 7⟩, 0, 0, 0, 0, fun _ => netpacket fun _ => 0⟩
    else quietTables.udptab i
  icmptab := quietTables.icmptab

/-- A frame with these bytes, padded to 60 bytes. -/
def frameOf (l : List UInt8) : EthFrame := ⟨60, fun j => l.getD j 0⟩

/-- A datagram of UDP with 4 bytes for port 7 of 10.0.0.1. -/
def udpFrame : EthFrame := frameOf
  [0, 26, 160, 0, 0, 1, 0, 26, 160, 0, 0, 2, 8, 0, 0x45, 0,
    0, 32, 0, 1, 0, 0, 64, 17, 0x66, 0xca, 10, 0, 0, 2, 10, 0, 0, 1,
    0x13, 0x88, 0, 7, 0, 12, 0, 0, 112, 105, 110, 103]

/-- An echo request for 10.0.0.1 of four bytes, half of the header of ICMP. -/
def echoFrame : EthFrame := frameOf
  [0, 26, 160, 0, 0, 1, 0, 26, 160, 0, 0, 2, 8, 0, 0x45, 0,
    0, 24, 0, 1, 0, 0, 64, 1, 0x66, 0xe2, 10, 0, 0, 2, 10, 0, 0, 1,
    8, 0, 0xf7, 0xff]

/-- The datagram comes to its slot, and the short request is answered without data: both stay in
their buffers. A datagram whose length is below that of its header does not. -/
theorem packets_confined_echo :
    ((echoTables.netin udpFrame fun _ => 0).1 = .udp 0 ∧ Confined echoTables udpFrame (fun _ => 0) 100) ∧
      ((echoTables.netin echoFrame fun _ => 0).1 = .answered ∧
        Confined echoTables echoFrame (fun _ => 0) 100) ∧
      ¬Confined echoTables { udpFrame with bytes := Function.update udpFrame.bytes 39 7 }
        (fun _ => 0) 100 := by
  refine ⟨⟨by decide, ?_⟩, ⟨by decide, ?_⟩, ?_⟩
  · exact (packets_confined _ _ _ (by decide) (by decide)).mpr ⟨by decide, by decide, by decide⟩
  · exact (packets_confined _ _ _ (by decide) (by decide)).mpr ⟨by decide, by decide, by decide⟩
  · intro h
    have hudp := ((packets_confined _ _ _ (by decide) (by decide)).mp h).udp
    exact absurd (hudp (by decide) (by decide) (by decide) (by decide) (by decide) (by decide)).1 (by decide)

/-- The longest frame of Ethernet: with its checksum, which the controller stores too, it does not
fit in a buffer. -/
theorem long_frame : ¬Confined quietTables ⟨1518, fun _ => 0⟩ (fun _ => 0) 100 := by
  intro h
  have hin : Within (pktBufSize 100) (ethread ⟨1518, fun _ => 0⟩ fun _ => 0).2 := by
    have h' := h.netin
    rw [netin_eq, if_neg (by decide)] at h'
    exact (within_append.mp h').1
  exact absurd ((within_ethread (by decide) _).mp hin) (by decide)

end Xinu
