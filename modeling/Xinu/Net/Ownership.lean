import Xinu.Net.Ip
import Mathlib.Data.List.Perm.Basic

/-!
# Who has a buffer

Each buffer of the pool is in one place: free, in a ring of UDP or ICMP, in `ipoqueue`, or with one
process (`buffers_ok`). `NetOk` says this also for the middle of a step, with the buffers that the
running function has in hand. It holds in every run whose steps at the rings are clean and in which
`ip_enqueue` puts no packet into a full queue. Its own test does not see the packet that `ipout` has
been woken for and not taken (`ipoqueue_overwritten`).
-/

namespace Xinu

/-- The number of buffers in `netbufpool`. -/
abbrev nbufs : ℕ := UDP_SLOTS * UDP_QSIZ + ICMP_SLOTS * ICMP_QSIZ + 1

/-- The buffer that a process has while it waits for another one. -/
def Want.held : Want → List ℕ
  | .echo pkt => [pkt.buf]
  | .frame | .datagram _ => []

/-- The buffer that a process has. -/
def Stage.held : Stage → List ℕ
  | .get w => w.held
  | .frame buf | .answering buf | .answered buf => [buf]
  | .deliver pkt | .sending pkt | .resolving pkt | .writing pkt => [pkt.buf]
  | .top | .taking => []

/-- `ipout` is past its wait, and has not taken the packet. -/
def Stage.isTaking : Stage → Bool
  | .taking => true
  | _ => false

namespace Net

/-- `net_init()`, with the processes `netin` and `ipout`. -/
def net_init (prmsg : ℤ → Option ℕ) (netData : NetAddresses)
    (ipmask ipprefix iprouter : ℕ) (netin ipout : ℤ) : Net where
  prmsg := prmsg
  asleep _ := false
  udp := udp_init prmsg
  icmp := icmp_init prmsg
  arp := .start prmsg netData
  ipmask := ipmask
  ipprefix := ipprefix
  iprouter := iprouter
  bpnext := List.range nbufs
  bpsem := .create nbufs
  iqhead := 0
  iqtail := 0
  iqbuf _ := ⟨noPacket, 0, 0, 0, 0, 0⟩
  iqsem := .create 0
  tasks := [⟨netin, .netin, .get .frame⟩, ⟨ipout, .ipout, .top⟩]
  enqueued := []
  dequeued := []

/-- The buffers that the processes have. -/
def inHands (s : Net) : List ℕ :=
  s.tasks.flatMap (fun t => t.stage.held) ++ s.bpsem.blocked.flatMap fun g => g.want.held

/-- The number of processes that are past the wait of `ipout`, and have not taken a packet. -/
def takers (s : Net) : ℕ := s.tasks.countP fun t => t.stage.isTaking

/-- The number of packets in `ipoqueue`: those that the semaphore counts, and those that `ipout` has
been woken for. -/
def queued (s : Net) : ℕ := (s.iqsem.unused + s.takers).toNat

/-- The packets in `ipoqueue`, between head and tail. -/
def queue (s : Net) : List IpPacket := Ring.window s.iqbuf IP_OQSIZ s.iqhead s.queued

/-- The buffers that are not in `ipoqueue`. -/
def outside (s : Net) : List ℕ := s.bpnext ++ s.udp.bufs Xinu.udp ++ s.icmp.bufs (Xinu.icmp 0) ++ s.inHands

/-- The buffers in all places. -/
def places (s : Net) : List ℕ := s.outside ++ s.queue.map fun pkt => pkt.buf

end Net

/-- Each buffer is in one place, and `ipoqueue` has the packets that were put in and not taken out,
in order. -/
structure Owned (s : Net) : Prop where
  /-- The buffers at all places are all buffers, each once. -/
  places : s.places.Perm (List.range nbufs)
  /-- `ipoqueue` has no more packets than cells. -/
  queued_le : s.queued ≤ IP_OQSIZ
  /-- Packets are taken in the order in which they were put in. -/
  queue : s.dequeued ++ s.queue = s.enqueued

/-- When `ip_enqueue` finds room, there is room: also for the packet that `ipout` has been woken for. -/
def Net.QueueRoom (s : Net) : Prop := s.iqsem.count < IP_OQSIZ → s.queued < IP_OQSIZ

/-- The steps that the buffers survive: those at the rings of UDP and ICMP are clean, and a reply to
an echo request finds room in `ipoqueue` if the test of `ip_enqueue` says so. -/
def NetSound (s : Net) : IpEvent → Prop
  | .act k _ => ∀ t, s.tasks[k]? = some t →
      (∀ pkt, t.stage = .deliver pkt → pkt.net_ipproto = IP_ICMP →
        IcmpClean s.netData.ipucast s.icmpNow (.arrive pkt.toNetpacket)) ∧
      (∀ pkt, t.stage = .get (.echo pkt) → 0 < s.bpsem.count → s.QueueRoom)
  | .gotbuf k => ∀ g, s.bpsem.woken[k]? = some g → ∀ pkt, g.want = .echo pkt → s.QueueRoom
  | .udp e => UdpTrust s.udpNow e
  | .icmp e => IcmpClean s.netData.ipucast s.icmpNow e
  | _ => True

/-- The invariant, in the middle of a step. In hand are some buffers, permits to take a packet from
`ipoqueue`, and permits to take a buffer from the pool. -/
structure NetOk (s : Net) (hand : List ℕ) (taking getting : ℕ) : Prop where
  /-- The UDP endpoints are in order. -/
  udp : TabOk Xinu.udp s.udp
  /-- The ICMP endpoints are in order. -/
  icmp : TabOk (Xinu.icmp 0) s.icmp
  /-- The count of the pool's semaphore agrees with its waiting processes. -/
  bpsem : s.bpsem.Ok
  /-- Its permits, with those in hand, are the free buffers. -/
  bpnext : s.bpsem.unused + getting = s.bpnext.length
  /-- The count of the queue's semaphore agrees with the waiting process. -/
  iqsem : s.iqsem.Ok
  /-- The head is a cell of the ring. -/
  iqhead : s.iqhead < IP_OQSIZ
  /-- The permits of the queue are its packets, these are what was put in and not taken, and each buffer is in
  the queue, elsewhere or in hand, once. -/
  ring : ∃ n : ℕ, s.iqsem.unused + s.takers + taking = n ∧
    n ≤ IP_OQSIZ ∧ s.iqtail = (s.iqhead + n) % IP_OQSIZ ∧
    s.dequeued ++ Ring.window s.iqbuf IP_OQSIZ s.iqhead n = s.enqueued ∧
    ∀ b, s.outside.count b + ((Ring.window s.iqbuf IP_OQSIZ s.iqhead n).map fun pkt => pkt.buf).count b +
    hand.count b =
      (List.range nbufs).count b

namespace NetOk

variable {s s' : Net} {t : NetTask} {g : Getter} {pkt : IpPacket} {xs : List ℕ} {b i j k : ℕ}

/-- With nothing in hand, each buffer is in one place. -/
theorem owned (h : NetOk s [] 0 0) : Owned s := by
  obtain ⟨n, hn, hle, -, hw, hc⟩ := h.ring
  have hq : s.queued = n := by
    unfold Net.queued
    omega
  refine ⟨List.perm_iff_count.mpr fun b => ?_, hq ▸ hle, ?_⟩
  · have hb := hc b
    rw [Net.places, List.count_append, Net.queue, hq]
    simpa using hb
  · rw [Net.queue, hq, hw]

/-- At first all buffers are in the pool. -/
theorem net_init (prmsg : ℤ → Option ℕ) (netData : NetAddresses)
    (ipmask ipprefix iprouter : ℕ) (netin ipout : ℤ) :
    NetOk (.net_init prmsg netData ipmask ipprefix iprouter netin ipout) [] 0 0 where
  udp := ⟨⟨_, inOrder_cleared (P := Xinu.udp) (by decide : 0 < UDP_QSIZ) _ _⟩, fun i hi => absurd rfl hi⟩
  icmp := ⟨⟨_, inOrder_cleared (P := Xinu.icmp 0) (by decide : 0 < ICMP_QSIZ) _ _⟩, fun i hi => absurd rfl hi⟩
  bpsem := Semaphore.Ok.create (by decide)
  bpnext := by simp [Net.net_init]
  iqsem := Semaphore.Ok.create le_rfl
  iqhead := (by decide : 0 < IP_OQSIZ)
  ring := by
    refine ⟨0, rfl, Nat.zero_le _, rfl, rfl, fun b => ?_⟩
    have hout : (Net.net_init prmsg netData ipmask ipprefix iprouter netin ipout).outside =
      List.range nbufs ++ [] ++ [] ++ [] := rfl
    rw [hout]
    simp

/-- Messages and the cache of ARP do not matter. -/
theorem setArp (h : NetOk s xs i j) (arp : Arp) : NetOk (s.setArp arp) xs i j := { h with }

/-- A process is about to do something, and has the buffer for that. -/
theorem goTo (st : Stage) (h : NetOk s (st.held ++ xs) (if st.isTaking then i + 1 else i) j) :
    NetOk (s.goTo t st) xs i j := by
  obtain ⟨n, hn, hle, ht, hw, hc⟩ := h.ring
  refine { h with ring := ⟨n, ?_, hle, ht, hw, fun b => ?_⟩ }
  · have htakers : (s.goTo t st).takers = s.takers + if st.isTaking then 1 else 0 := by
      simp only [Net.takers, Net.goTo, List.countP_append, List.countP_singleton]
    rw [htakers]
    change s.iqsem.unused + _ + _ = _
    rw [← hn]
    split_ifs <;> push_cast <;> omega
  · have hb := hc b
    have hout : (s.goTo t st).outside.count b = s.outside.count b + st.held.count b := by
      simp only [Net.outside, Net.inHands, Net.goTo, List.count_append,
        List.flatMap_append, List.flatMap_singleton]
      omega
    rw [hout]
    rw [List.count_append] at hb
    change _ + ((Ring.window s.iqbuf _ s.iqhead n).map _).count b + _ = _
    omega

/-- A buffer in hand goes back to the pool. -/
theorem freebuf (h : NetOk s (b :: xs) i j) : NetOk (s.freebuf b) xs i j := by
  obtain ⟨n, hn, hle, ht, hw, hc⟩ := h.ring
  refine { h with bpsem := h.bpsem.signal, bpnext := ?_, ring := ⟨n, hn, hle, ht, hw, fun a => ?_⟩ }
  · change s.bpsem.signal.unused + _ = ((b :: s.bpnext).length : ℤ)
    rw [h.bpsem.unused_signal, List.length_cons, Nat.cast_succ, ← h.bpnext]
    omega
  · have ha := hc a
    have hout : (s.freebuf b).outside.count a = s.outside.count a + [b].count a := by
      simp only [Net.outside, Net.inHands, Net.freebuf, h.bpsem.blocked_signal,
        List.count_append, ← List.singleton_append (l := s.bpnext)]
      omega
    rw [hout]
    rw [← List.singleton_append, List.count_append] at ha
    change _ + ((Ring.window s.iqbuf _ s.iqhead n).map _).count a + _ = _
    omega

/-- A packet is dealt with, and nothing is left in hand. -/
theorem finish (h : NetOk s [] 0 0) : NetOk (s.finish t) [] 0 0 := by
  unfold Net.finish
  split
  · exact h.goTo (.get .frame)
  · exact h.goTo .top
  · exact h

/-- The buffer of a packet that is dropped goes back to the pool, and the task ends. -/
theorem drop (h : NetOk s [b] 0 0) : NetOk (s.drop t b) [] 0 0 := h.freebuf.finish

/-- A process goes on: what it had is in hand. -/
theorem take (h : NetOk s [] 0 0) (ht : s.tasks[k]? = some t) :
    NetOk { s with tasks := s.tasks.eraseIdx k } t.stage.held (if t.stage.isTaking then 1 else 0) 0 := by
  obtain ⟨n, hn, hle, htail, hw, hc⟩ := h.ring
  obtain ⟨hlt, htk⟩ := List.getElem?_eq_some_iff.mp ht
  have hperm : s.tasks.Perm (t :: s.tasks.eraseIdx k) := by
    rw [← htk]
    exact (List.getElem_cons_eraseIdx_perm hlt).symm
  refine { h with ring := ⟨n, ?_, hle, htail, hw, fun b => ?_⟩ }
  · have htakers : s.takers = Net.takers { s with tasks := s.tasks.eraseIdx k } + if t.stage.isTaking then 1
        else 0 := by
      unfold Net.takers
      rw [hperm.countP_eq, List.countP_cons]
    rw [← hn, htakers]
    push_cast
    omega
  · have hb := hc b
    have hout : s.outside.count b = (Net.outside { s with tasks := s.tasks.eraseIdx k }).count b +
        t.stage.held.count b := by
      simp only [Net.outside, Net.inHands, List.count_append]
      rw [(hperm.flatMap_right fun t => t.stage.held).count_eq, List.flatMap_cons, List.count_append]
      omega
    rw [List.count_nil] at hb
    change _ + ((Ring.window s.iqbuf _ s.iqhead n).map _).count b + _ = _
    omega

/-- A clean step at the table of UDP moves buffers between the rings and the hand. -/
theorem setUdp (h : NetOk s xs i j) {e : NetEvent UdpKey}
    {u : Endpoints UdpKey} {o : Outcome} {ys : List ℕ} (hC : UdpTrust s.udpNow e)
    (he : s.udpNow.exec Xinu.udp e = some (u, o)) (hxs : xs = o.entering.map Netpacket.buf ++ ys) :
    NetOk (s.setUdp u) ((s.udp.leaving Xinu.udp o).map Netpacket.buf ++ ys) i j := by
  obtain ⟨g, hg⟩ := h.udp.inOrder
  have htab : TabOk Xinu.udp s.udpNow := ⟨⟨g, hg.of_tab rfl⟩, h.udp.range⟩
  obtain ⟨hok, hcount⟩ := htab.step udp_sane hC.clean he
  obtain ⟨n, hn, hle, ht, hw, hc⟩ := h.ring
  refine { h with udp := hok, ring := ⟨n, hn, hle, ht, hw, fun b => ?_⟩ }
  have hb := hc b
  have hu : (u.bufs Xinu.udp).count b + ((s.udp.leaving Xinu.udp o).map Netpacket.buf).count b =
      (s.udp.bufs Xinu.udp).count b + (o.entering.map Netpacket.buf).count b := hcount b
  simp only [hxs, Net.outside, List.count_append] at hb
  change (s.bpnext ++ u.bufs Xinu.udp ++ s.icmp.bufs (Xinu.icmp 0) ++ s.inHands).count b +
    ((Ring.window s.iqbuf _ s.iqhead n).map _).count b + _ = _
  simp only [List.count_append]
  omega

/-- A clean step at the table of ICMP moves buffers between the rings and the hand. -/
theorem setIcmp (h : NetOk s xs i j) {e : NetEvent ℕ} {u : Endpoints ℕ}
    {o : Outcome} {ys : List ℕ} {ucast : ℕ}
    (hC : IcmpClean ucast s.icmpNow e) (he : s.icmpNow.exec (Xinu.icmp ucast) e = some (u, o))
    (hxs : xs = o.entering.map Netpacket.buf ++ ys) :
    NetOk (s.setIcmp u) ((s.icmp.leaving (Xinu.icmp ucast) o).map Netpacket.buf ++ ys) i j := by
  obtain ⟨g, hg⟩ := h.icmp.inOrder
  have htab : TabOk (Xinu.icmp ucast) s.icmpNow := ⟨⟨g, hg⟩, h.icmp.range⟩
  obtain ⟨hok, hcount⟩ := htab.step (icmp_sane ucast) hC.clean he
  obtain ⟨n, hn, hle, ht, hw, hc⟩ := h.ring
  refine { h with icmp := ⟨hok.inOrder, hok.range⟩, ring := ⟨n, hn, hle, ht, hw, fun b => ?_⟩ }
  have hb := hc b
  have hu :
      (u.bufs (Xinu.icmp 0)).count b + ((s.icmp.leaving (Xinu.icmp ucast) o).map Netpacket.buf).count b =
      (s.icmp.bufs (Xinu.icmp 0)).count b + (o.entering.map Netpacket.buf).count b := hcount b
  simp only [hxs, Net.outside, List.count_append] at hb
  change (s.bpnext ++ s.udp.bufs Xinu.udp ++ u.bufs (Xinu.icmp 0) ++ s.inHands).count b +
    ((Ring.window s.iqbuf _ s.iqhead n).map _).count b + _ = _
  simp only [List.count_append]
  omega

/-- A packet that arrives at a table goes into a ring or is to be freed. -/
theorem arrive_outcome {κ : Type} (P : Protocol κ) (s : Endpoints κ) (pkt : Netpacket) :
    (s.arrive P pkt).2 = .freed pkt ∨ ∃ i, (s.arrive P pkt).2 = .accepted i pkt := by
  unfold Endpoints.arrive
  cases P.accepts s.tab pkt with
  | none => exact .inl rfl
  | some i =>
    refine .inr ⟨i, ?_⟩
    dsimp only
    split_ifs <;> rfl

/-- A packet goes into a ring of UDP, or its buffer is freed. -/
theorem udpIn (h : NetOk s [pkt.buf] 0 0) : NetOk (s.udpIn t pkt) [] 0 0 := by
  have he : s.udpNow.exec Xinu.udp (.arrive pkt.toNetpacket) = some (udp_in s.udpNow pkt.toNetpacket) := rfl
  unfold Net.udpIn
  generalize hr : udp_in s.udpNow pkt.toNetpacket = r at he ⊢
  obtain ⟨u, o⟩ := r
  rcases arrive_outcome Xinu.udp s.udpNow pkt.toNetpacket with ho | ⟨i, ho⟩
  · obtain rfl : o = .freed pkt.toNetpacket := (congrArg Prod.snd hr).symm.trans ho
    exact (h.setUdp (e := .arrive pkt.toNetpacket) trivial he rfl).drop
  · obtain rfl : o = .accepted i pkt.toNetpacket := (congrArg Prod.snd hr).symm.trans ho
    exact (h.setUdp (e := .arrive pkt.toNetpacket) trivial he rfl).finish

/-- A packet goes into a ring of ICMP, or its buffer is freed, or it waits for a reply. -/
theorem icmpIn (h : NetOk s [pkt.buf] 0 0)
    (hC : IcmpClean s.netData.ipucast s.icmpNow (.arrive pkt.toNetpacket)) :
    NetOk (s.icmpIn t pkt) [] 0 0 := by
  unfold Net.icmpIn
  split_ifs
  · exact h.drop
  · exact h.goTo (.get (.echo pkt))
  · have he : s.icmpNow.exec (Xinu.icmp s.netData.ipucast) (.arrive pkt.toNetpacket) =
      some (icmp_in s.netData.ipucast s.icmpNow pkt.toNetpacket) := rfl
    dsimp only
    generalize hr : icmp_in s.netData.ipucast s.icmpNow pkt.toNetpacket = r at he ⊢
    obtain ⟨u, o⟩ := r
    rcases arrive_outcome (Xinu.icmp s.netData.ipucast) s.icmpNow pkt.toNetpacket with ho | ⟨i, ho⟩
    · obtain rfl : o = .freed pkt.toNetpacket := (congrArg Prod.snd hr).symm.trans ho
      exact (h.setIcmp hC he rfl).drop
    · obtain rfl : o = .accepted i pkt.toNetpacket := (congrArg Prod.snd hr).symm.trans ho
      exact (h.setIcmp hC he rfl).finish

/-- `ip_local` gives the packet to UDP or ICMP, or frees its buffer. -/
theorem ip_local (h : NetOk s [pkt.buf] 0 0)
    (hC : pkt.net_ipproto = IP_ICMP → IcmpClean s.netData.ipucast s.icmpNow (.arrive pkt.toNetpacket)) :
    NetOk (s.ip_local t pkt) [] 0 0 := by
  unfold Net.ip_local
  split_ifs with hudp hicmp
  · exact h.udpIn
  · exact h.icmpIn (hC hicmp)
  · exact h.drop

/-- A frame goes to `arp_in`, to `ip_in`, or its buffer is freed. -/
theorem received (h : NetOk s [b] 0 0) (incoming : Incoming) : NetOk (s.received t b incoming) [] 0 0 := by
  cases incoming with
  | arp pktptr =>
    unfold Net.received
    dsimp only
    split
    · exact (h.setArp _).goTo (.answering b)
    · exact (h.setArp _).drop
  | ip pkt =>
    unfold Net.received
    dsimp only
    split_ifs
    · exact h.goTo (.deliver { pkt with buf := b })
    · exact h.drop
  | other => exact h.drop

/-- The packet is written, or waits for an address, or its buffer is freed. -/
theorem resolved (h : NetOk s [pkt.buf] 0 0) (r : Arp × ArpOutcome) : NetOk (s.resolved t pkt r) [] 0 0 := by
  unfold Net.resolved
  split
  · exact (h.setArp _).goTo (.writing pkt)
  · exact (h.setArp _).drop
  · exact (h.setArp _).goTo (.resolving pkt)

/-- The packet goes to the next hop. -/
theorem forward (h : NetOk s [pkt.buf] 0 0) : NetOk (s.forward t pkt) [] 0 0 := by
  unfold Net.forward
  dsimp only
  split_ifs
  all_goals first | exact h.drop | exact h.resolved _

/-- A packet that is sent goes back to the local stack, to the Ethernet, or its buffer is freed. -/
theorem ip_send (h : NetOk s [pkt.buf] 0 0) : NetOk (s.ip_send t pkt) [] 0 0 := by
  unfold Net.ip_send
  split_ifs
  · exact h.goTo (.deliver pkt)
  · exact h.goTo (.deliver pkt)
  · exact h.goTo (.writing pkt)
  · exact h.forward

/-- A packet from `ipoqueue` goes the same ways. -/
theorem ipout (h : NetOk s [pkt.buf] 0 0) : NetOk (s.ipout t pkt) [] 0 0 := by
  unfold Net.ipout
  split_ifs
  · exact h.drop
  · exact h.goTo (.deliver pkt)
  · exact h.forward

/-- `ipout` takes the first packet of the queue. -/
theorem dequeue (h : NetOk s [] 1 0) : NetOk (s.dequeue t) [] 0 0 := by
  obtain ⟨n, hn, hle, ht, hw, hc⟩ := h.ring
  have hpos := h.iqsem.woken_le
  obtain ⟨n, rfl⟩ : ∃ m, n = m + 1 := ⟨n - 1, by omega⟩
  have hb : Ring.bump IP_OQSIZ s.iqhead = (s.iqhead + 1) % IP_OQSIZ := Ring.bump_eq h.iqhead
  rw [Ring.window_pop, Nat.mod_eq_of_lt h.iqhead] at hw
  have hhand :
      NetOk { s with iqhead := Ring.bump IP_OQSIZ s.iqhead, dequeued := s.dequeued ++ [s.iqbuf s.iqhead] }
      [(s.iqbuf s.iqhead).buf] 0 0 := by
    refine { h with iqhead := ?_, ring := ⟨n, ?_, by omega, ?_, ?_, fun b => ?_⟩ }
    · exact hb ▸ Nat.mod_lt _ (by decide)
    · change s.iqsem.unused + s.takers + _ = _
      push_cast at hn
      omega
    · dsimp only
      rw [hb, Nat.mod_add_mod, ht]
      congr 1
      omega
    · dsimp only
      rw [hb, List.append_assoc, List.singleton_append, hw]
    · have hb' := hc b
      rw [Ring.window_pop, Nat.mod_eq_of_lt h.iqhead, List.map_cons,
        ← List.singleton_append, List.count_append] at hb'
      change s.outside.count b + ((Ring.window s.iqbuf _ (Ring.bump IP_OQSIZ s.iqhead) n).map
        _).count b + _ = _
      rw [hb]
      rw [List.count_nil] at hb'
      omega
  exact hhand.goTo (.sending (s.iqbuf s.iqhead))

/-- `ipout` waits for a packet, or is past its wait. -/
theorem await (h : NetOk s [] 0 0) : NetOk (s.await t) [] 0 0 := by
  unfold Net.await
  dsimp only
  have hs := h.iqsem.wait (k := t.pid)
  obtain ⟨n, hn, hle, ht, hw, hc⟩ := h.ring
  by_cases hgo : (s.iqsem.wait t.pid).1 = true
  · rw [if_pos hgo]
    have hu := Semaphore.unused_wait_go hgo
    have hn' : (s.iqsem.wait t.pid).2.unused + s.takers + (1 : ℕ) = n := by
      push_cast
      omega
    have hhand : NetOk { s with iqsem := (s.iqsem.wait t.pid).2 } [] 1 0 :=
      { h with iqsem := hs, ring := ⟨n, hn', hle, ht, hw, hc⟩ }
    exact hhand.goTo .taking
  · rw [if_neg hgo]
    have hu := Semaphore.unused_wait_block (Bool.eq_false_iff.mpr hgo)
    have hn' : (s.iqsem.wait t.pid).2.unused + s.takers + (0 : ℕ) = n := by omega
    exact { h with iqsem := hs, ring := ⟨n, hn', hle, ht, hw, hc⟩ }

/-- A packet goes into a queue that has room, or its buffer is freed. -/
theorem ip_enqueue (pkt : IpPacket) (h : NetOk s (pkt.buf :: xs) 0 j) (hroom : s.QueueRoom) :
    NetOk (s.ip_enqueue pkt) xs 0 j := by
  unfold Net.ip_enqueue
  split_ifs with hfull
  · exact h.freebuf
  obtain ⟨n, hn, hle, ht, hw, hc⟩ := h.ring
  have hlt : s.queued < IP_OQSIZ := hroom (not_le.mp hfull)
  have hq : s.queued = n := by
    unfold Net.queued
    omega
  rw [hq] at hlt
  have hwin : Ring.window (Function.update s.iqbuf s.iqtail pkt) IP_OQSIZ s.iqhead (n + 1) =
      Ring.window s.iqbuf IP_OQSIZ s.iqhead n ++ [pkt] := by
    rw [ht, Ring.window_push hlt]
  refine { h with iqsem := h.iqsem.signal, ring := ⟨n + 1, ?_, hlt, ?_, ?_, fun b => ?_⟩ }
  · change s.iqsem.signal.unused + s.takers + _ = _
    rw [h.iqsem.unused_signal]
    push_cast
    omega
  · dsimp only
    rw [ht, Ring.bump_tail (by decide)]
  · dsimp only
    rw [hwin, ← List.append_assoc, hw]
  · have hb := hc b
    dsimp only
    rw [hwin, List.map_append, List.count_append]
    rw [← List.singleton_append, List.count_append] at hb
    change s.outside.count b + (_ + [pkt.buf].count b) + _ = _
    omega

/-- A process gets a buffer, and goes on with it. -/
theorem gotbuf (h : NetOk s g.want.held 0 1) (hroom : ∀ pkt, g.want = .echo pkt → s.QueueRoom) :
    NetOk (s.gotbuf g) [] 0 0 := by
  have hpos := h.bpsem.woken_le
  have hfree := h.bpnext
  unfold Net.gotbuf
  cases hn : s.bpnext with
  -- A permit was there, so a buffer is in the list.
  | nil =>
    rw [hn, List.length_nil] at hfree
    omega
  | cons buf rest =>
    rw [hn, List.length_cons] at hfree
    -- The buffer leaves the list and is in the hands of the process.
    have hhand : NetOk { s with bpnext := rest } (buf :: g.want.held) 0 0 := by
      obtain ⟨n, hq, hle, ht, hw, hc⟩ := h.ring
      refine { h with bpnext := ?_, ring := ⟨n, hq, hle, ht, hw, fun b => ?_⟩ }
      · dsimp only
        push_cast at hfree ⊢
        omega
      · have hb := hc b
        simp only [Net.outside, Net.inHands, List.count_append, hn, ← List.singleton_append (l := rest)] at hb
        rw [← List.singleton_append (l := g.want.held)]
        simp only [Net.outside, Net.inHands, List.count_append]
        omega
    -- What the process goes on with is in its want: a frame, an answer or a datagram.
    dsimp only
    cases hwant : g.want with
    | frame =>
      rw [hwant] at hhand
      exact hhand.goTo (.frame buf)
    | echo pkt =>
      rw [hwant] at hhand
      exact (hhand.ip_enqueue (Net.echoReply { s with bpnext := rest } pkt buf) (hroom pkt hwant)).goTo
        (.answered pkt.buf)
    | datagram pkt =>
      rw [hwant] at hhand
      exact hhand.goTo (.sending { pkt with buf := buf })

/-- A process that asks for a buffer takes one from the pool, or waits for it. -/
theorem getbuf (h : NetOk s g.want.held 0 0)
    (hroom : ∀ pkt, g.want = .echo pkt → 0 < s.bpsem.count → s.QueueRoom) :
    NetOk (s.getbuf g) [] 0 0 := by
  unfold Net.getbuf
  dsimp only
  have hs := h.bpsem.wait (k := g)
  have hfree := h.bpnext
  obtain ⟨n, hn, hle, ht, hw, hc⟩ := h.ring
  -- With a permit it takes a buffer at once.
  by_cases hgo : (s.bpsem.wait g).1 = true
  · rw [if_pos hgo]
    have hu := Semaphore.unused_wait_go hgo
    have hhand : NetOk { s with bpsem := (s.bpsem.wait g).2 } g.want.held 0 1 := by
      refine { h with bpsem := hs, bpnext := ?_, ring := ⟨n, hn, hle, ht, hw, fun b => ?_⟩ }
      · dsimp only
        rw [hu]
        push_cast at hfree ⊢
        omega
      · have hb := hc b
        simp only [Net.outside, Net.inHands, Semaphore.blocked_wait_go hgo] at hb ⊢
        exact hb
    exact hhand.gotbuf fun pkt hp => hroom pkt hp (Semaphore.wait_go.mp hgo)
  -- Without one it joins those that wait, and what it holds goes with it.
  · rw [if_neg hgo]
    have hblock := Bool.eq_false_iff.mpr hgo
    refine { h with bpsem := hs, bpnext := ?_, ring := ⟨n, hn, hle, ht, hw, fun b => ?_⟩ }
    · dsimp only
      rw [Semaphore.unused_wait_block hblock, hfree]
    · have hb := hc b
      simp only [Net.outside, Net.inHands, Semaphore.blocked_wait_block hblock,
        List.flatMap_append, List.flatMap_singleton,
        List.count_append, List.count_nil] at hb ⊢
      omega

/-- The packets that leave a ring are freed. -/
theorem freebufs {pkts : List Netpacket} (h : NetOk s (pkts.map Netpacket.buf ++ xs) i j) :
    NetOk (s.freebufs pkts) xs i j := by
  induction pkts generalizing s with
  | nil => exact h
  | cons pkt pkts ih => exact ih h.freebuf

/-- The queue has room also when a process is not counted. -/
theorem room_take {tasks : List NetTask} (ht : tasks.Sublist s.tasks) (hroom : s.QueueRoom) :
    Net.QueueRoom { s with tasks := tasks } := by
  intro hcount
  have hlt := hroom hcount
  have htakers : Net.takers { s with tasks := tasks } ≤ s.takers := ht.countP_le
  change (s.iqsem.unused + Net.takers { s with tasks := tasks }).toNat < _
  unfold Net.queued at hlt
  omega

/-- A process does what it is about to do. -/
theorem act {incoming : Incoming} (h : NetOk s [] 0 0) (ht : s.tasks[k]? = some t)
    (hC : NetSound s (.act k incoming))
    (ha : Net.act { s with tasks := s.tasks.eraseIdx k } t incoming = some s') : NetOk s' [] 0 0 := by
  -- What the task has in hand is now in the hands of the process that acts.
  have hhand := h.take ht
  obtain ⟨hicmp, hroom⟩ := hC t ht
  have hsub := List.eraseIdx_sublist s.tasks k
  unfold Net.act at ha
  cases hst : t.stage with
  | get w =>
    rw [hst] at hhand
    simp only [hst] at ha
    obtain rfl := Option.some.inj ha
    refine NetOk.getbuf (g := ⟨t.pid, t.role, w⟩) hhand fun pkt hp hfree =>
      room_take hsub (hroom pkt ?_ hfree)
    rw [hst]
    exact congrArg Stage.get hp
  | frame buf =>
    rw [hst] at hhand
    simp only [hst] at ha
    obtain rfl := Option.some.inj ha
    exact hhand.received incoming
  | answering buf | answered buf =>
    rw [hst] at hhand
    simp only [hst] at ha
    obtain rfl := Option.some.inj ha
    exact hhand.drop
  | deliver pkt =>
    rw [hst] at hhand
    simp only [hst] at ha
    obtain rfl := Option.some.inj ha
    exact hhand.ip_local fun hp => hicmp pkt hst hp
  | top =>
    rw [hst] at hhand
    simp only [hst] at ha
    obtain rfl := Option.some.inj ha
    exact hhand.await
  | taking =>
    rw [hst] at hhand
    simp only [hst] at ha
    obtain rfl := Option.some.inj ha
    exact hhand.dequeue
  | sending pkt =>
    rw [hst] at hhand
    simp only [hst] at ha
    obtain rfl := Option.some.inj ha
    split_ifs
    · exact hhand.ipout
    · exact hhand.ip_send
  | resolving pkt =>
    rw [hst] at hhand
    simp only [hst] at ha
    cases hin : s.arp.inside t.pid with
    | none => simp [hin] at ha
    | some c =>
      simp only [hin] at ha
      obtain ⟨-, ha⟩ := Option.ite_none_left_eq_some.mp ha
      obtain rfl := Option.some.inj ha
      exact hhand.resolved _
  | writing pkt =>
    rw [hst] at hhand
    simp only [hst] at ha
    obtain rfl := Option.some.inj ha
    exact hhand.drop

/-- A process that begins to send has no buffer yet. -/
theorem send (h : NetOk s [] 0 0) (p : ℤ) (pkt : IpPacket) : NetOk (s.send p pkt) [] 0 0 :=
  NetOk.goTo (t := ⟨p, .other, .get (.datagram pkt)⟩) (.get (.datagram pkt)) h

/-- Every step that meets the condition keeps each buffer in one place. -/
theorem exec {e : IpEvent} (h : NetOk s [] 0 0) (hC : NetSound s e) (he : s.exec e = some s') :
    NetOk s' [] 0 0 := by
  cases e with
  | act k incoming =>
    obtain ⟨t, ht, ha⟩ := Option.bind_eq_some_iff.mp he
    exact h.act ht hC ha
  | gotbuf k =>
    obtain ⟨⟨g, sem⟩, hr, rfl⟩ := Option.map_eq_some_iff.mp he
    -- the permit and the buffer of the waiting process are in hand
    have hhand : NetOk { s with bpsem := sem } g.want.held 0 1 := by
      have hfree := h.bpnext
      obtain ⟨n, hn, hle, ht, hw, hc⟩ := h.ring
      refine { h with bpsem := h.bpsem.resume hr, bpnext := ?_, ring := ⟨n, hn, hle, ht, hw, fun b => ?_⟩ }
      · rw [← hfree]
        change sem.unused + _ = _
        rw [Semaphore.unused_resume hr]
        push_cast
        omega
      · have hb := hc b
        have hperm := ((Semaphore.blocked_resume hr).flatMap_right fun g => g.want.held).count_eq b
        rw [List.flatMap_cons, List.count_append] at hperm
        simp only [Net.outside, Net.inHands, List.count_append, List.count_nil] at hb ⊢
        omega
    exact hhand.gotbuf fun pkt hp => hC g (Semaphore.resume_get hr) pkt hp
  | gotpkt k =>
    obtain ⟨⟨p, sem⟩, hr, rfl⟩ := Option.map_eq_some_iff.mp he
    have hhand : NetOk { s with iqsem := sem } [] 1 0 := by
      obtain ⟨n, hn, hle, ht, hw, hc⟩ := h.ring
      refine { h with iqsem := h.iqsem.resume hr, ring := ⟨n, ?_, hle, ht, hw, hc⟩ }
      rw [← hn]
      change sem.unused + s.takers + _ = _
      rw [Semaphore.unused_resume hr]
      push_cast
      omega
    exact NetOk.goTo (t := ⟨p, .ipout, .taking⟩) .taking hhand
  | udp_send p slot data len =>
    obtain ⟨-, he⟩ := Option.ite_none_left_eq_some.mp he
    obtain rfl := Option.some.inj he
    unfold Net.udp_send
    split_ifs
    · exact h
    · exact h
    · exact h
    · exact h.send _ _
  | udp_sendto p slot remip remport data len =>
    obtain ⟨-, he⟩ := Option.ite_none_left_eq_some.mp he
    obtain rfl := Option.some.inj he
    unfold Net.udp_sendto
    split_ifs
    · exact h
    · exact h
    · exact h.send _ _
  | icmp_send p remip type ident data len =>
    obtain ⟨-, he⟩ := Option.ite_none_left_eq_some.mp he
    obtain rfl := Option.some.inj he
    exact h.send _ _
  | udp e =>
    obtain ⟨hno, he⟩ := Option.ite_none_left_eq_some.mp he
    obtain ⟨⟨u, o⟩, hu, rfl⟩ := Option.map_eq_some_iff.mp he
    have hent : o.entering = [] := entering_eq (fun pkt hp => hno (.inl (congrArg NetEvent.isArrive hp))) hu
    have hset := h.setUdp hC hu (by rw [hent]; rfl)
    exact hset.freebufs
  | icmp e =>
    obtain ⟨hno, he⟩ := Option.ite_none_left_eq_some.mp he
    obtain ⟨⟨u, o⟩, hu, rfl⟩ := Option.map_eq_some_iff.mp he
    have hent : o.entering = [] := entering_eq (fun pkt hp => hno (.inl (congrArg NetEvent.isArrive hp))) hu
    have hset := h.setIcmp  hC hu (by rw [hent]; rfl)
    exact hset.freebufs
  | configure netData ipmask ipprefix iprouter =>
    obtain rfl := Option.some.inj he
    exact { h with }

end NetOk

/-- In every run whose steps at the rings are clean and whose replies find room, each buffer of the
pool is in one place: free, in a ring of UDP or ICMP, in `ipoqueue`, or with one process. `ipoqueue`
has at most `IP_OQSIZ` packets, and these are the ones put in and not taken out, in order: none is
overwritten. -/
theorem buffers_ok {prmsg : ℤ → Option ℕ} {netData : NetAddresses}
    {ipmask ipprefix iprouter : ℕ} {netin ipout : ℤ} {s : Net}
    (hr : IpRun NetSound (.net_init prmsg netData ipmask ipprefix iprouter netin ipout) s) : Owned s := by
  suffices h : NetOk s [] 0 0 from h.owned
  induction hr with
  | start => exact .net_init ..
  | step _ hC he ih => exact ih.exec hC he

/-- The packet that a process is about to deliver. -/
def Stage.delivering : Stage → Option IpPacket
  | .deliver pkt => some pkt
  | _ => none

/-- The request that a buffer is for. -/
def Want.echoing : Want → Option IpPacket
  | .echo pkt => some pkt
  | _ => none

/-- The request that a process gets a buffer for. -/
def Stage.echoing : Stage → Option IpPacket
  | .get w => w.echoing
  | _ => none

/-- There is such a packet. -/
theorem Stage.delivering_iff {st : Stage} {pkt : IpPacket} :
    st.delivering = some pkt ↔ st = .deliver pkt := by
  cases st <;> simp [Stage.delivering]

/-- The packet that waits to be echoed is the one in the request. -/
theorem Want.echoing_iff {w : Want} {pkt : IpPacket} : w.echoing = some pkt ↔ w = .echo pkt := by
  cases w <;> simp [Want.echoing]

/-- There is such a request, and the process gets the buffer. -/
theorem Stage.echoing_iff {st : Stage} {pkt : IpPacket} : st.echoing = some pkt ↔ st = .get (.echo pkt) := by
  cases st <;> simp [Stage.echoing, Want.echoing_iff]

instance Net.QueueRoom.decidable (s : Net) : Decidable s.QueueRoom :=
  inferInstanceAs (Decidable (_ < _ → _ < _))

instance NetSound.decidable (s : Net) : ∀ e, Decidable (NetSound s e)
  | .act k _ => decidable_of_iff (∀ t, s.tasks[k]? = some t →
      (∀ pkt, t.stage.delivering = some pkt → pkt.net_ipproto = IP_ICMP →
        IcmpClean s.netData.ipucast s.icmpNow (.arrive pkt.toNetpacket)) ∧
      ∀ pkt, t.stage.echoing = some pkt → 0 < s.bpsem.count → s.QueueRoom) (by
        simp only [Stage.delivering_iff, Stage.echoing_iff]
        rfl)
  | .gotbuf k => decidable_of_iff (∀ g, s.bpsem.woken[k]? = some g →
      ∀ pkt, g.want.echoing = some pkt → s.QueueRoom) (by
      simp only [Want.echoing_iff]
      rfl)
  | .udp e => UdpTrust.decidable s.udpNow e
  | .icmp e => IcmpClean.decidable s.netData.ipucast s.icmpNow e
  | .gotpkt _ | .udp_send .. | .udp_sendto .. | .icmp_send .. | .configure .. => instDecidableTrue

/-- A list of possible steps under a condition makes a run. -/
theorem IpRun.of_steps {C : Net → IpEvent → Prop} [∀ s e, Decidable (C s e)]
    {s₀ s s' : Net} {es : List IpEvent}
    (hr : IpRun C s₀ s) (he : Machine.steps Net.exec C s es = some s') : IpRun C s₀ s' :=
  Machine.steps_induct (fun hr hC he => hr.step hC he) hr he

/-- The addresses of a host. -/
def hostAddresses : NetAddresses := ⟨true, 9, 15, [], []⟩

/-- The network of a host, with `netin` as process 1 and `ipout` as process 2. -/
def hostNet : Net := .net_init (fun _ => none) hostAddresses 0 0 0 1 2

/-- Process 3 pings its own host, gets a buffer, calls `ip_send`, delivers the request, gets a
buffer for the reply and enqueues that, and frees the request. -/
def pingSelf : List IpEvent := .icmp_send 3 9 ICMP_ECHOREQST 7 [] 0 :: List.replicate 5 (.act 1 .other)

/-- The request has been delivered and freed, and its reply is in `ipoqueue`, in another buffer:
`ipout` waits for it and is woken. -/
theorem buffers_ok_ping : ∃ s, Owned s ∧ s.queued = 1 ∧ s.bpnext.length = nbufs - 1 := by
  have hrun : (Machine.steps Net.exec NetSound hostNet (.act 1 .other :: pingSelf)).map
      (fun s => (s.queued, s.bpnext.length)) =
      some (1, nbufs - 1) := by decide +kernel
  obtain ⟨s, hs, he⟩ := Option.map_eq_some_iff.mp hrun
  obtain ⟨hqueued, hfree⟩ := Prod.mk.inj he
  exact ⟨s, buffers_ok (.of_steps .start hs), hqueued, hfree⟩

/-- `ipout` waits for a packet, is woken by the first of nine replies, and does not run in time: the
ninth reply is put where the first one is, whose buffer is nowhere. -/
theorem ipoqueue_overwritten :
    ∃ s, IpRun (fun _ _ => True) hostNet s ∧ s.queued = 9 ∧ (∃ b < nbufs, b ∉ s.places) ∧ ¬ Owned s := by
  have hrun : (Machine.steps Net.exec (fun _ _ => True) hostNet
      (.act 1 .other :: (List.replicate 9 pingSelf).flatten)).map
      (fun s => (s.queued, decide (1 ∈ s.places))) = some (9, false) := by decide +kernel
  obtain ⟨s, hs, he⟩ := Option.map_eq_some_iff.mp hrun
  obtain ⟨hq, hplaces⟩ := Prod.mk.inj he
  refine ⟨s, .of_steps .start hs, hq, ⟨1, by decide, of_decide_eq_false hplaces⟩, fun h => ?_⟩
  have hle := h.queued_le
  rw [hq] at hle
  exact absurd hle (by decide)

end Xinu
