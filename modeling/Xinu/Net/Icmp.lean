import Xinu.Net.EndpointSpec

/-!
# ICMP

The table of `net/icmp.c`. It is the table of UDP with two differences: `icmp_in` does not test
whether the queue has room, and `icmp_recv` and `icmp_release` let `ichead` wrap at `ICMP_SLOTS`,
which is not the size of the queue. The queues are in order in every run in which neither difference
shows (`icmp_ok`); nine replies in a row show the first (`icmp_overfull`), eight that are received
one by one the second (`icmp_overrun`).
-/

namespace Xinu

/-- `ICMP_SLOTS`. -/
abbrev ICMP_SLOTS : ℕ := 10

/-- `ICMP_QSIZ`. -/
abbrev ICMP_QSIZ : ℕ := 8

/-- `ICMP_HDR_LEN`. -/
abbrev ICMP_HDR_LEN : ℤ := 8

/-- `IP_HDR_LEN`. -/
abbrev IP_HDR_LEN : ℤ := 20

/-- `ICMP_ECHOREPLY`. -/
abbrev ICMP_ECHOREPLY : ℕ := 0

/-- What `icmp_in` does with an echo reply: the entry with its identifier takes it, unless the entry
is free or the address is another one. Other messages go into no entry. -/
def icmpAccepts (ipucast : ℕ) (tab : ℤ → Slot ℕ) (pkt : Netpacket) : Option ℤ :=
  let slot := pkt.net_icident
  if pkt.net_ictype ≠ ICMP_ECHOREPLY then none
  else if slot < 0 ∨ slot ≥ ICMP_SLOTS then none
  else if (tab slot).state = .free then none
  -- the last test is for the loopback network
  else if pkt.net_ipsrc ≠ (tab slot).key ∧ pkt.net_ipsrc ≠ ipucast ∧
    pkt.net_ipsrc &&& 0x7f000000 ≠ 0x7f000000 then none
  else some slot

/-- The loop of `icmp_register`: no entry if the address is in the table already, else the first free one. -/
def icmpPlace (tab : ℤ → Slot ℕ) (remip : ℕ) : Option ℤ :=
  if (List.range ICMP_SLOTS).any fun i : ℕ => decide ((tab i).state ≠ .free ∧ (tab i).key = remip) then none
  else ((List.range ICMP_SLOTS).find? fun i : ℕ => decide ((tab i).state = .free)).map Int.ofNat

/-- The number of bytes that `icmp_recv` copies and returns. -/
def icmpLength (pkt : Netpacket) (len : ℤ) : ℤ := max 0 (min (pkt.net_iplen - IP_HDR_LEN - ICMP_HDR_LEN) len)

/-- ICMP: the index of the next packet to read wraps at the number of slots. -/
def icmp (ipucast : ℕ) : Protocol ℕ where
  slots := ICMP_SLOTS
  qsiz := ICMP_QSIZ
  headWrap := ICMP_SLOTS
  accepts := icmpAccepts ipucast
  place := icmpPlace
  releases st := st = .used
  length := icmpLength

variable (ipucast : ℕ)

/-- `icmp_init()`. -/
def icmp_init (prmsg : ℤ → Option ℕ) : Endpoints ℕ := .cleared 0 prmsg

/-- `icmp_in(pkt)`, for an echo reply. -/
def icmp_in (s : Endpoints ℕ) (pkt : Netpacket) : Endpoints ℕ × Outcome := s.arrive (icmp ipucast) pkt

/-- `icmp_register(remip)`. -/
def icmp_register (s : Endpoints ℕ) (p : ℤ) (remip : ℕ) : Endpoints ℕ × Outcome :=
  s.register (icmp ipucast) p remip

/-- `icmp_recv(icmpid, buff, len, timeout)`, up to `recvtime`. -/
def icmp_recv (s : Endpoints ℕ) (p icmpid len : ℤ) (timeout : ℕ) : Endpoints ℕ × Outcome :=
  s.receive (icmp ipucast) p icmpid len timeout

/-- `icmp_release(icmpid)`. -/
def icmp_release (s : Endpoints ℕ) (p icmpid : ℤ) : Endpoints ℕ × Outcome := s.release (icmp ipucast) p icmpid

/-- What happens to the table are calls of these functions. -/
theorem icmp_exec (s : Endpoints ℕ) (pkt : Netpacket) (p icmpid len : ℤ)
    (remip timeout : ℕ) (hp : s.inside p = none) :
    s.exec (icmp ipucast) (.arrive pkt) = some (icmp_in ipucast s pkt) ∧
    s.exec (icmp ipucast) (.register p remip) = some (icmp_register ipucast s p remip) ∧
    s.exec (icmp ipucast) (.receive p icmpid len timeout) = some (icmp_recv ipucast s p icmpid len timeout) ∧
    s.exec (icmp ipucast) (.release p icmpid) = some (icmp_release ipucast s p icmpid) :=
  ⟨rfl, if_pos hp, if_pos hp, if_pos hp⟩

/-- The steps that the queues survive: a reply that is accepted finds `iccount` below `ICMP_QSIZ`,
`ichead` stays below `ICMP_QSIZ` when replies are taken out, and the receiver that runs next may
trust its entry. -/
def IcmpClean (s : Endpoints ℕ) : NetEvent ℕ → Prop
  | .arrive pkt => ∀ slot, icmpAccepts ipucast s.tab pkt = some slot → (s.tab slot).count < ICMP_QSIZ
  | .receive _ icmpid _ _ => (s.tab icmpid).count ≠ 0 → (s.tab icmpid).head + 1 < ICMP_QSIZ
  | .release _ icmpid => (s.tab icmpid).head + (s.tab icmpid).count.toNat < ICMP_QSIZ
  | .wake p => ∀ icmpid len, s.inside p = some (icmpid, len) → (s.tab icmpid).state ≠ .free ∧
      (s.prmsg p = some (umsg OK) → (s.tab icmpid).count ≠ 0 ∧ (s.tab icmpid).head + 1 < ICMP_QSIZ)
  | _ => True

/-- An `ichead` that stays in the queue needs no wrap. -/
theorem icmp_wraps {e : Slot ℕ} {k : ℕ} (h : e.head + k < ICMP_QSIZ) : e.Wraps (icmp ipucast) k :=
  .inr ⟨h, h.trans (by decide : ICMP_QSIZ < ICMP_SLOTS)⟩

/-- The condition on ICMP steps is that on the steps of the endpoints. -/
theorem IcmpClean.clean {s : Endpoints ℕ} {e : NetEvent ℕ} (h : IcmpClean ipucast s e) :
    e.Clean (icmp ipucast) s := by
  cases e with
  | arrive pkt => exact h
  | receive p icmpid len timeout => exact fun hc => icmp_wraps ipucast (h hc)
  | release p icmpid => exact icmp_wraps ipucast h
  | wake p =>
    intro icmpid len hin
    obtain ⟨hst, hok⟩ := h icmpid len hin
    exact ⟨hst, fun hm => ⟨(hok hm).1, icmp_wraps ipucast (hok hm).2⟩⟩
  | register | send | timeout => trivial

/-- In every run of such steps the queues are in order: `iccount` is at most `ICMP_QSIZ`, `ichead`
and `ictail` are indices of the queue, and the replies from one to the other are those accepted and
not yet received, in the order in which they came. -/
theorem icmp_ok {prmsg : ℤ → Option ℕ} {s : Endpoints ℕ} {g : Log}
    (hr : EndpointRun (icmp ipucast) (IcmpClean ipucast) (icmp_init prmsg) s g) :
    InOrder (icmp ipucast) s g :=
  hr.inOrder (inOrder_cleared (P := icmp ipucast) (by decide : 0 < ICMP_QSIZ) _ _) fun _ _ _ _ hc => hc.clean

/-- An echo reply for the first entry. -/
def echoReply (seq : ℕ) : Netpacket :=
  { noPacket with buf := seq, net_ipsrc := 7, net_iplen := 29, data := [seq] }

instance IcmpClean.decidable (s : Endpoints ℕ) : ∀ e, Decidable (IcmpClean ipucast s e)
  | .arrive _ => Machine.forallSome
  | .receive .. => inferInstanceAs (Decidable (_ ≠ _ → _ < _))
  | .release .. => inferInstanceAs (Decidable (_ < _))
  | .wake _ => Machine.forallPair
  | .register .. | .send .. | .timeout _ => instDecidableTrue

/-- A process registers an address, two replies come from there, and the process receives one of them. -/
def twoReplies : List (NetEvent ℕ) :=
  [.register 1 7, .arrive (echoReply 0), .arrive (echoReply 1), .receive 1 0 64 1000]

/-- It is the first one, and the second one is in the queue. -/
theorem icmp_ok_replies :
    ∃ s g, InOrder (icmp 1) s g ∧ g.received 0 = [echoReply 0] ∧ (s.tab 0).count = 1 := by
  have hrun : ((icmp_init fun _ => none).steps (icmp 1) (IcmpClean 1) twoReplies).map
      (fun r => (r.2.received 0, (r.1.tab 0).count)) = some ([echoReply 0], 1) := by decide +kernel
  obtain ⟨⟨s, g⟩, hs, hr⟩ := Option.map_eq_some_iff.mp hrun
  obtain ⟨hreceived, hcount⟩ := Prod.mk.inj hr
  exact ⟨s, g, icmp_ok 1 (.of_steps hs), hreceived, hcount⟩

/-- A process registers an address, and replies come from there. -/
def echoReplies (n : ℕ) : List (NetEvent ℕ) :=
  .register 1 7 :: (List.range n).map fun k => .arrive (echoReply k)

/-- Replies come one by one, and each is received. -/
def echoRounds (n : ℕ) : List (NetEvent ℕ) :=
  .register 1 7 :: (List.range n).flatMap fun k => [.arrive (echoReply k), .receive 1 0 64 1000]

/-- None of these steps is a message to a receiver. -/
def NetEvent.Regular {κ : Type} : NetEvent κ → Prop
  | .send _ _ => False
  | _ => True

instance NetEvent.Regular.decidable {κ : Type} : ∀ e : NetEvent κ, Decidable e.Regular
  | .send .. => instDecidableFalse
  | .arrive _ | .register .. | .receive .. | .release .. | .timeout _ | .wake _ => instDecidableTrue

/-- Nine replies that nobody receives: `iccount` is 9, and the first reply is overwritten. -/
theorem icmp_overfull :
    ∃ s g, EndpointRun (icmp 1) (fun _ e => e.Regular) (icmp_init fun _ => none) s g ∧ (s.tab 0).count = 9 ∧
    ¬ InOrder (icmp 1) s g := by
  have hcount : ((icmp_init fun _ => none).steps (icmp 1) (fun _ e => e.Regular) (echoReplies 9)).map
      (fun r => (r.1.tab 0).count) = some 9 := by
    decide +kernel
  obtain ⟨⟨s, g⟩, hs, hc⟩ := Option.map_eq_some_iff.mp hcount
  refine ⟨s, g, .of_steps hs, hc, fun h => ?_⟩
  have hle := (h 0).count_le
  rw [hc] at hle
  exact absurd hle (by decide)

/-- Eight replies that are received one by one: `ichead` is 8, behind the queue. -/
theorem icmp_overrun :
    ∃ s g, EndpointRun (icmp 1) (fun _ e => e.Regular) (icmp_init fun _ => none) s g ∧ (s.tab 0).head = 8 ∧
    ¬ InOrder (icmp 1) s g := by
  have hhead : ((icmp_init fun _ => none).steps (icmp 1) (fun _ e => e.Regular) (echoRounds 8)).map
      (fun r => (r.1.tab 0).head) = some 8 := by
    decide +kernel
  obtain ⟨⟨s, g⟩, hs, hc⟩ := Option.map_eq_some_iff.mp hhead
  refine ⟨s, g, .of_steps hs, hc, fun h => ?_⟩
  have hlt := (h 0).head_lt
  rw [hc] at hlt
  exact absurd hlt (by decide)

end Xinu
