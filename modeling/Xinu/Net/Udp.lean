import Xinu.Net.EndpointSpec

/-!
# UDP

The table of `net/udp.c`. A receiver trusts the message that it is woken with, and the entry: it
does not look at `udstate` or `udcount` again. The queues are in order in every run in which this
trust is justified (`udp_ok`).
-/

namespace Xinu

/-- `UDP_SLOTS`. -/
abbrev UDP_SLOTS : ℕ := 6

/-- `UDP_QSIZ`. -/
abbrev UDP_QSIZ : ℕ := 8

/-- `UDP_HDR_LEN`. -/
abbrev UDP_HDR_LEN : ℤ := 8

/-- What an entry is registered for. -/
structure UdpKey where
  /-- The remote address, 0 for any. -/
  udremip : ℕ
  /-- The remote port, 0 for any. -/
  udremport : ℕ
  /-- The local port. -/
  udlocport : ℕ
  deriving DecidableEq

/-- The loop of `udp_in`: the first entry that matches the packet and has room for it. -/
def udpAccepts (tab : ℤ → Slot UdpKey) (pkt : Netpacket) : Option ℤ :=
  ((List.range UDP_SLOTS).find? fun i : ℕ =>
    let e := tab i
    decide (e.state ≠ .free ∧ (pkt.net_udpdport = e.key.udlocport ∧
      (e.key.udremport = 0 ∨ pkt.net_udpsport = e.key.udremport) ∧
      (e.key.udremip = 0 ∨ pkt.net_ipsrc = e.key.udremip)) ∧ e.count < UDP_QSIZ)).map Int.ofNat

/-- The loops of `udp_register`: no entry if the request is in the table already, else the first free one. -/
def udpPlace (tab : ℤ → Slot UdpKey) (key : UdpKey) : Option ℤ :=
  if (List.range UDP_SLOTS).any fun i : ℕ => decide ((tab i).state ≠ .free ∧ (tab i).key = key) then none
  else ((List.range UDP_SLOTS).find? fun i : ℕ => decide ((tab i).state = .free)).map Int.ofNat

/-- The length of the data that `udp_recv` and `udp_recvaddr` copy and return. -/
def udpLength (pkt : Netpacket) (len : ℤ) : ℤ :=
  let msglen := pkt.net_udplen - UDP_HDR_LEN
  if len < msglen then len else msglen

/-- UDP: both indices wrap at `UDP_QSIZ`, and every entry that is not free can be released. -/
def udp : Protocol UdpKey where
  slots := UDP_SLOTS
  qsiz := UDP_QSIZ
  headWrap := UDP_QSIZ
  accepts := udpAccepts
  place := udpPlace
  releases st := st ≠ .free
  length := udpLength

/-- `udp_init()`. -/
def udp_init (prmsg : ℤ → Option ℕ) : Endpoints UdpKey := .cleared ⟨0, 0, 0⟩ prmsg

/-- `udp_in(pktptr)`. -/
def udp_in (s : Endpoints UdpKey) (pktptr : Netpacket) : Endpoints UdpKey × Outcome := s.arrive udp pktptr

/-- `udp_register(remip, remport, locport)`. -/
def udp_register (s : Endpoints UdpKey) (p : ℤ) (key : UdpKey) : Endpoints UdpKey × Outcome :=
  s.register udp p key

/-- `udp_recv(slot, buff, len, timeout)`, and `udp_recvaddr`, up to `recvtime`. -/
def udp_recv (s : Endpoints UdpKey) (p slot len : ℤ) (timeout : ℕ) : Endpoints UdpKey × Outcome :=
  s.receive udp p slot len timeout

/-- `udp_release(slot)`. -/
def udp_release (s : Endpoints UdpKey) (p slot : ℤ) : Endpoints UdpKey × Outcome := s.release udp p slot

/-- What happens to the table are calls of these functions. -/
theorem udp_exec (s : Endpoints UdpKey) (pkt : Netpacket) (p slot len : ℤ) (key : UdpKey) (timeout : ℕ)
    (hp : s.inside p = none) :
    s.exec udp (.arrive pkt) = some (udp_in s pkt) ∧ s.exec udp
      (.register p key) = some (udp_register s p key) ∧
    s.exec udp (.receive p slot len timeout) = some (udp_recv s p slot len timeout) ∧
    s.exec udp (.release p slot) = some (udp_release s p slot) :=
  ⟨rfl, if_pos hp, if_pos hp, if_pos hp⟩

/-- The receiver that runs next may trust its entry: it is not free, and if the message is `OK` a
packet is in its queue. -/
def UdpTrust (s : Endpoints UdpKey) : NetEvent UdpKey → Prop
  | .wake p => ∀ i len, s.inside p = some (i, len) →
      (s.tab i).state ≠ .free ∧ (s.prmsg p = some (umsg OK) → (s.tab i).count ≠ 0)
  | _ => True

/-- `udp_in` puts a packet only where there is room. -/
theorem udpAccepts_room {tab : ℤ → Slot UdpKey} {pkt : Netpacket} {i : ℤ} (h : udpAccepts tab pkt = some i) :
    (tab i).count < UDP_QSIZ := by
  obtain ⟨j, hj, rfl⟩ := Option.map_eq_some_iff.mp h
  have hmatch := List.find?_some hj
  simp only [decide_eq_true_eq] at hmatch
  exact hmatch.2.2

/-- Steps of justified trust are clean. -/
theorem UdpTrust.clean {s : Endpoints UdpKey} {e : NetEvent UdpKey} (h : UdpTrust s e) : e.Clean udp s := by
  cases e with
  | arrive pkt => exact fun i hi => udpAccepts_room hi
  | receive p i len timeout => exact fun _ => .inl rfl
  | release p i => exact .inl rfl
  | wake p => exact fun i len hin => ⟨(h i len hin).1, fun hm => ⟨(h i len hin).2 hm, .inl rfl⟩⟩
  | register | send | timeout => trivial

/-- In every run in which receivers that wake up may trust their entries, the queues are in order:
`udcount` is the number of packets between `udhead` and `udtail`, these are the packets accepted and
not handed out, every packet is handed out at most once and in the order of arrival, no packet is
taken from an empty queue, and an entry is free from its release until it is registered again. -/
theorem udp_ok {prmsg : ℤ → Option ℕ} {s : Endpoints UdpKey}
    {g : Log} (hr : EndpointRun udp UdpTrust (udp_init prmsg) s g) :
    InOrder udp s g ∧ ∀ e s' p i pkt len data, UdpTrust s e →
    s.exec udp e = some (s', .delivered p i pkt len data) →
      (s.tab i).count ≠ 0 :=
  ⟨hr.inOrder (inOrder_cleared (by decide) _ _) fun _ _ _ _ hc => hc.clean,
    fun _ _ _ _ _ _ _ hc hs => delivered_from hc.clean hs⟩

instance UdpTrust.decidable (s : Endpoints UdpKey) : ∀ e, Decidable (UdpTrust s e)
  | .wake _ => Machine.forallPair
  | .arrive _ | .register .. | .receive .. | .release .. | .send .. | .timeout _ => instDecidableTrue

/-- A process registers port 53 and waits there, two packets arrive, and the process wakes up. -/
def udpDelivery : List (NetEvent UdpKey) :=
  [.register 1 ⟨0, 0, 53⟩, .receive 1 0 100 1000,
    .arrive { noPacket with net_udpdport := 53, net_udplen := 9, data := [7] },
    .arrive { noPacket with net_udpdport := 53, net_udplen := 9, data := [8] }, .wake 1]

/-- The process gets the first packet, and the second one is in the queue. -/
theorem udp_ok_delivery : ∃ s g, (InOrder udp s g ∧ ∀ e s' p i pkt len data, UdpTrust s e →
    s.exec udp e = some (s', .delivered p i pkt len data) → (s.tab i).count ≠ 0) ∧
    (g.received 0).map Netpacket.data = [[7]] ∧ (s.tab 0).count = 1 := by
  have hrun : ((udp_init fun _ => none).steps udp UdpTrust udpDelivery).map
      (fun r => ((r.2.received 0).map Netpacket.data, (r.1.tab 0).count)) = some ([[7]], 1) := by
        decide +kernel
  obtain ⟨⟨s, g⟩, hs, hr⟩ := Option.map_eq_some_iff.mp hrun
  obtain ⟨hreceived, hcount⟩ := Prod.mk.inj hr
  exact ⟨s, g, udp_ok (.of_steps hs), hreceived, hcount⟩

/-- A process registers port 53, waits there, and another sends it `OK`. -/
def udpDeceived : List (NetEvent UdpKey) :=
  [.register 1 ⟨0, 0, 53⟩, .receive 1 0 100 1000, .send 1 (umsg OK), .wake 1]

/-- Then `udcount` is -1: the process has taken a packet from an empty queue. -/
theorem udp_overdrawn :
    ∃ s g, EndpointRun udp (fun _ _ => True) (udp_init fun _ => none) s g ∧ (s.tab 0).count = -1 ∧
    ¬ InOrder udp s g := by
  have hcount : ((udp_init fun _ => none).steps udp (fun _ _ => True) udpDeceived).map
      (fun r => (r.1.tab 0).count) = some (-1) := by
    decide +kernel
  obtain ⟨⟨s, g⟩, hs, hc⟩ := Option.map_eq_some_iff.mp hcount
  refine ⟨s, g, .of_steps hs, hc, fun h => ?_⟩
  have hpos := (h 0).count_nonneg
  rw [hc] at hpos
  exact absurd hpos (by decide)

end Xinu
