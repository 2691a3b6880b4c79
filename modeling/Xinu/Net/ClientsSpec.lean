import Mathlib.Tactic.Common
import Xinu.Net.Clients
import Xinu.Net.DnsSpec

/-!
# Clients that clean up

A call cleans up if it has released each slot that it registered, once, and leaves the interrupt
mask as it was. `tftpget_mb` and `icmp_send` always do. `getlocalip` does not when a receive fails,
or when an offer has no server, before an acknowledgement; `dnslookup` does not when its
`getlocalip` does not, or when it has registered a slot for a name that is too long; `ip_send` does
not when there is no next hop, or when it is not resolved.
-/

namespace Xinu

open Bytes

/-- The slots that were registered have been released, each one before the next one was registered. -/
inductive Paired : List SlotCall → Prop where
  | nil : Paired []
  | pair {slot : ℤ} {l : List SlotCall} (rest : Paired l) : Paired (.registered slot :: .released slot :: l)

/-- A call has cleaned up. -/
structure CleanedUp (s s' : Clients) : Prop where
  /-- The same entries are registered. -/
  udptab : s'.udptab = s.udptab
  /-- The interrupt mask is the same. -/
  mask : s'.mask = s.mask
  /-- Each registration in between has been released. -/
  calls : ∃ l, Paired l ∧ s'.calls = s.calls ++ l

/-- The number of free slots. -/
def Clients.freeSlots (s : Clients) : ℕ :=
  (List.range UDP_SLOTS).countP fun i : ℕ => decide (s.udptab i = none)

section Dhcp

variable (ethucast : ℕ → UInt8) (rvc : ℕ → UInt8) (replies : ℕ → UdpReply)

/-- The buffer of `getlocalip` behind the first `k` replies. -/
def rvcAt : ℕ → ℕ → UInt8
  | 0 => rvc
  | k + 1 => (replies k).into (rvcAt k)

/-- The `k`-th reply is an answer to the requests. -/
def Replied (k : ℕ) : Prop := (replies k).n ≠ TIMEOUT ∧ (replies k).n ≠ SYSERR ∧
  le32 (rvcAt rvc replies (k + 1)) 4 = le32 (dhcp_bld_disc ethucast).1 4

/-- The options of the `k`-th reply. -/
def optionsAt (k : ℕ) : OptScan := getlocalipOptions (rvcAt rvc replies (k + 1)) (replies k).n.toNat

/-- With the `k`-th reply, a receive has failed, or there is an offer without a server. -/
def DhcpFails (k : ℕ) : Prop :=
  (replies k).n = SYSERR ∨ Replied ethucast rvc replies k ∧ (optionsAt rvc replies k).msgtype = 0x02 ∧
  (dhcp_get_opt_val (rvcAt rvc replies (k + 1)) (replies k).n.toNat DHCP_SERVER_ID).1 = none

/-- The `k`-th reply is an acknowledgement. -/
def DhcpAcks (k : ℕ) : Prop := Replied ethucast rvc replies k ∧ (optionsAt rvc replies k).msgtype ≠ 0x02 ∧
  rvcAt rvc replies (k + 1) (DC_OPT_AT + 2) = 0x05

/-- The address in the `k`-th reply. -/
def yipAt (k : ℕ) : ℕ := ntohl (le32 (rvcAt rvc replies (k + 1)) 16)

/-- `NetData` behind an acknowledgement. -/
def NetData.ackAt (net : NetData) (k : ℕ) : NetData :=
  net.configure (optionsAt rvc replies k) (yipAt rvc replies k)

/-- Nothing has failed before an acknowledgement. -/
def DhcpCleans : Prop :=
  ∀ k < 3 * DHCP_RETRY, DhcpFails ethucast rvc replies k → ∃ j < k, DhcpAcks ethucast rvc replies j

/-- None of the first `k` replies ends the loop. -/
def DhcpGoesOn (k : ℕ) : Prop :=
  ∀ i < k, ¬ DhcpFails ethucast rvc replies i ∧ ¬ DhcpAcks ethucast rvc replies i

end Dhcp

/-- There is no next hop for a destination, or its hardware address is not found. -/
def Unroutable (net : NetData) (dest : ℕ) (arp_resolve : ℕ → ℤ) : Prop :=
  dest &&& 0xff000000 ≠ 0x7f000000 ∧ dest ≠ net.ipucast ∧ dest ≠ IP_BCAST ∧ dest ≠ net.ipbcast ∧
    let nxthop := if dest &&& net.ipmask = net.ipprefix then dest else net.iprouter
    nxthop = 0 ∨ arp_resolve nxthop ≠ OK

/-- What a call must meet outside, so that it cleans up. -/
def ClientCall.Cleans (s : Clients) : ClientCall → Prop
  | .getlocalip rvc replies => freeSlot s.udptab dhcpKey ≠ none → DhcpCleans s.net.ethucast rvc replies
  | .dnslookup none _ _ _ => True
  | .dnslookup (some dname) rvc dhcp _ =>
    isDotted dname = false → isLocalhost dname = false → freeSlot s.udptab dhcpKey ≠ none →
      DhcpCleans s.net.ethucast rvc dhcp ∧ ∀ k < 3 * DHCP_RETRY, DhcpAcks s.net.ethucast rvc dhcp k →
        DhcpGoesOn s.net.ethucast rvc dhcp k →
        yipAt rvc dhcp k ≠ USYSERR → (s.net.ackAt rvc dhcp k).dnsserver ≠ 0 →
        freeSlot s.udptab ⟨(s.net.ackAt rvc dhcp k).dnsserver, DNSPORT, DNSLPORT⟩ ≠ none →
          dname.length < DNSDATASIZ
  | .tftpget_mb .. => True
  | .ip_send dest arp_resolve _ => s.mask = true → ¬ Unroutable s.net dest arp_resolve
  | .icmp_send .. => True

/-! ## Slots -/

variable {s s' s'' : Clients} {key : UdpKey} {slot : ℤ}

/-- Two lists of pairs behind each other. -/
theorem Paired.append {l l' : List SlotCall} (h : Paired l) (h' : Paired l') : Paired (l ++ l') := by
  induction h with
  | nil => exact h'
  | pair _ ih => exact .pair ih

/-- A stretch that touches neither table nor mask nor calls is cleaned up. -/
theorem CleanedUp.of_eq (ht : s'.udptab = s.udptab) (hm : s'.mask = s.mask) (hc : s'.calls = s.calls) :
    CleanedUp s s' :=
  ⟨ht, hm, [], .nil, by rw [hc, List.append_nil]⟩

/-- Two stretches that are cleaned up, one after the other, are cleaned up. -/
theorem CleanedUp.trans (h : CleanedUp s s') (h' : CleanedUp s' s'') : CleanedUp s s'' := by
  obtain ⟨l, hl, hcalls⟩ := h.calls
  obtain ⟨l', hl', hcalls'⟩ := h'.calls
  exact ⟨h'.udptab.trans h.udptab, h'.mask.trans h.mask, l ++ l',
    hl.append hl', by rw [hcalls', hcalls, List.append_assoc]⟩

/-- After a stretch that is cleaned up as many entries are free as before. -/
theorem CleanedUp.freeSlots (h : CleanedUp s s') : s'.freeSlots = s.freeSlots := by
  unfold Clients.freeSlots
  rw [h.udptab]

/-- The entry that is found for a registration is one of the table, and free. -/
theorem freeSlot_free {udptab : ℤ → Option UdpKey} (h : freeSlot udptab key = some slot) :
    0 ≤ slot ∧ slot < UDP_SLOTS ∧ udptab slot = none := by
  unfold freeSlot at h
  split_ifs at h
  obtain ⟨i, hi, rfl⟩ := Option.map_eq_some_iff.mp h
  have hfree := List.find?_some hi
  have hlt := List.mem_range.mp (List.mem_of_find?_eq_some hi)
  exact ⟨Int.natCast_nonneg i, Int.ofNat_lt.mpr hlt, of_decide_eq_true hfree⟩

/-- The state behind a registration. -/
def Clients.withSlot (s : Clients) (slot : ℤ) (key : UdpKey) : Clients :=
  { s with udptab := Function.update s.udptab slot (some key), calls := s.calls ++ [.registered slot] }

/-- A registration fails. -/
theorem udp_register_none (h : freeSlot s.udptab key = none) : s.udp_register key = (s, none) := by
  unfold Clients.udp_register
  rw [h]

/-- A registration that finds an entry takes it. -/
theorem udp_register_some (h : freeSlot s.udptab key = some slot) :
    s.udp_register key = (s.withSlot slot key, some slot) := by
  unfold Clients.udp_register
  rw [h]
  rfl

/-- A slot that is registered and released is free again, whatever else has changed. -/
theorem CleanedUp.released (h : freeSlot s.udptab key = some slot)
    (ht : s'.udptab = (s.withSlot slot key).udptab) (hm : s'.mask = s.mask)
    (hc : s'.calls = s.calls ++ [.registered slot]) : CleanedUp s (s'.udp_release slot) := by
  obtain ⟨hge, hlt, hfree⟩ := freeSlot_free h
  have hin : ¬ (slot < 0 ∨ slot ≥ UDP_SLOTS) := by omega
  unfold Clients.udp_release
  rw [if_neg hin]
  refine ⟨?_, hm, [.registered slot, .released slot], .pair .nil, ?_⟩
  · show Function.update s'.udptab slot none = s.udptab
    rw [ht, Clients.withSlot, Function.update_idem, ← hfree, Function.update_eq_self]
  · show s'.calls ++ [.released slot] = s.calls ++ [.registered slot, .released slot]
    rw [hc, List.append_assoc]
    rfl

/-- A slot that stays registered is not. -/
theorem not_cleanedUp (h : freeSlot s.udptab key = some slot)
    (ht : s'.udptab = (s.withSlot slot key).udptab) : ¬ CleanedUp s s' := by
  intro hclean
  have hset : (s.withSlot slot key).udptab slot = some key := by
    unfold Clients.withSlot
    exact Function.update_self slot (some key) s.udptab
  rw [← ht, hclean.udptab, (freeSlot_free h).2.2] at hset
  exact Option.some_ne_none key hset.symm

/-! ## `getlocalip` -/

section Dhcp

variable {rvc : ℕ → UInt8} {replies : ℕ → UdpReply} {d : DhcpCall} {k n : ℕ}

/-- A word that nothing is put over. -/
theorem le32_put {b : ℕ → UInt8} {l : List UInt8} {i j : ℕ} (h : i + 4 ≤ j) :
    le32 (put b j l) i = le32 b i := by
  unfold le32 le16
  rw [put_of_lt b (by omega), put_of_lt b (by omega), put_of_lt b (by omega), put_of_lt b (by omega)]

/-- The number of a request is the one of the discover message. -/
theorem dhcp_bld_req_xid {ethucast offer : ℕ → UInt8} {size : ℕ}
    {r : (ℕ → UInt8) × ℕ} (h : dhcp_bld_req ethucast offer size = some r) :
    le32 r.1 4 = le32 (dhcp_bld_disc ethucast).1 4 := by
  unfold dhcp_bld_req at h
  dsimp only at h
  split at h
  · exact absurd h (Option.some_ne_none r).symm
  · obtain rfl := Option.some.inj h
    unfold dhcp_bld_disc
    dsimp only
    rw [le32_put (by decide), le32_put (by decide), le32_put (by decide)]

/-- The loops of `getlocalip` go on: nothing but the messages and the buffer has changed. -/
structure DhcpWaits (s : Clients) (rvc : ℕ → UInt8) (replies : ℕ → UdpReply)
    (k : ℕ) (d : DhcpCall) : Prop where
  /-- The tables and addresses are the same. -/
  state : d.s = s
  /-- The message that is sent keeps its transaction identifier. -/
  dmsg_snd : le32 d.dmsg_snd 4 = le32 (dhcp_bld_disc s.net.ethucast).1 4
  /-- The buffer holds what the replies have put there. -/
  dmsg_rvc : d.dmsg_rvc = rvcAt rvc replies k
  /-- Nothing has been returned. -/
  result : d.result = none
  /-- None of the replies so far ends the loops. -/
  goesOn : DhcpGoesOn s.net.ethucast rvc replies k

/-- The loops of `getlocalip` behind `k` replies: they go on, or the first reply that is no other
has ended them. -/
inductive DhcpOutcome (s : Clients) (slot : ℤ) (rvc : ℕ → UInt8)
    (replies : ℕ → UdpReply) (k : ℕ) (d : DhcpCall) : Prop where
  | waits (h : DhcpWaits s rvc replies k d)
  | fails {i : ℕ} (hi : i < k) (first : DhcpGoesOn s.net.ethucast rvc replies i)
    (h : DhcpFails s.net.ethucast rvc replies i)
      (state : d.s = s) (result : d.result = some USYSERR)
  | acks {i : ℕ} (hi : i < k) (first : DhcpGoesOn s.net.ethucast rvc replies i)
    (h : DhcpAcks s.net.ethucast rvc replies i)
      (state : d.s = { s with net := s.net.ackAt rvc replies i }.udp_release slot)
      (result : d.result = some (yipAt rvc replies i))

/-- One more reply that does not end the loop. -/
theorem DhcpGoesOn.succ {ethucast : ℕ → UInt8} (h : DhcpGoesOn ethucast rvc replies k)
    (hf : ¬ DhcpFails ethucast rvc replies k)
    (ha : ¬ DhcpAcks ethucast rvc replies k) : DhcpGoesOn ethucast rvc replies (k + 1) := by
  intro i hi
  rcases Nat.lt_succ_iff_lt_or_eq.mp hi with hi | rfl
  · exact h i hi
  · exact ⟨hf, ha⟩

/-- An acknowledgement is no failure. -/
theorem DhcpAcks.not_fails {ethucast : ℕ → UInt8} (h : DhcpAcks ethucast rvc replies k) :
    ¬ DhcpFails ethucast rvc replies k := by
  rintro (hn | ⟨-, htype, -⟩)
  · exact h.1.2.1 hn
  · exact h.2.1 htype

/-- An outcome with a result is one after more replies too. -/
theorem DhcpOutcome.mono (h : DhcpOutcome s slot rvc replies k d) (hr : d.result.isSome) (hle : k ≤ n) :
    DhcpOutcome s slot rvc replies n d := by
  cases h with
  | waits h =>
    rw [h.result] at hr
    exact absurd hr (by decide)
  | fails hi first h state result => exact .fails (hi.trans_le hle) first h state result
  | acks hi first h state result => exact .acks (hi.trans_le hle) first h state result

/-- An outcome without a result is a wait for the next reply. -/
theorem DhcpOutcome.waits_of (h : DhcpOutcome s slot rvc replies k d) (hr : ¬ d.result.isSome) :
    DhcpWaits s rvc replies k d := by
  cases h with
  | waits h => exact h
  | fails _ _ _ _ result => exact absurd (by rw [result]; rfl) hr
  | acks _ _ _ _ result => exact absurd (by rw [result]; rfl) hr

/-- One round of the inner loop takes one reply, with its outcome. -/
theorem DhcpWaits.recv (h : DhcpWaits s rvc replies k d) (slot : ℤ) :
    DhcpOutcome s slot rvc replies (k + 1) (d.recv slot (replies k)) := by
  have hbuf : (replies k).into d.dmsg_rvc = rvcAt rvc replies (k + 1) := by rw [h.dmsg_rvc]; rfl
  have heth : d.s.net.ethucast = s.net.ethucast := by rw [h.state]
  unfold DhcpCall.recv
  dsimp only
  rw [hbuf, h.dmsg_snd, heth]
  -- a reply that is no answer ends nothing
  have hnext (hno : ¬ Replied s.net.ethucast rvc replies k) (hn : (replies k).n ≠ SYSERR) :
      DhcpWaits s rvc replies (k + 1) { d with dmsg_rvc := rvcAt rvc replies (k + 1) } :=
    ⟨h.state, h.dmsg_snd, rfl, h.result, h.goesOn.succ (fun hf => hf.elim hn fun hf => hno hf.1)
      fun ha => hno ha.1⟩
  by_cases htime : (replies k).n = TIMEOUT
  · rw [if_pos htime]
    refine .waits (hnext (fun hr => hr.1 htime) ?_)
    rw [htime]
    decide
  rw [if_neg htime]
  by_cases herr : (replies k).n = SYSERR
  · rw [if_pos herr]
    exact .fails (Nat.lt_succ_self k) h.goesOn (.inl herr) h.state rfl
  rw [if_neg herr]
  by_cases hxid : le32 (rvcAt rvc replies (k + 1)) 4 = le32 (dhcp_bld_disc s.net.ethucast).1 4
  swap
  · rw [if_pos hxid]
    exact .waits (hnext (fun hr => hxid hr.2.2) herr)
  rw [if_neg (not_not.mpr hxid)]
  have hreplied : Replied s.net.ethucast rvc replies k := ⟨htime, herr, hxid⟩
  have hopt : getlocalipOptions (rvcAt rvc replies (k + 1))
    (replies k).n.toNat = optionsAt rvc replies k := rfl
  rw [hopt]
  by_cases htype : (optionsAt rvc replies k).msgtype = 0x02
  · rw [if_pos htype]
    have hno : ¬ DhcpAcks s.net.ethucast rvc replies k := fun ha => ha.2.1 htype
    split
    · next hreq =>
      refine .fails (Nat.lt_succ_self k) h.goesOn (.inr ⟨hreplied, htype, ?_⟩) h.state rfl
      unfold dhcp_bld_req at hreq
      dsimp only at hreq
      split at hreq
      · next hserver => exact hserver
      · exact absurd hreq (Option.some_ne_none _)
    · next r hreq =>
      refine .waits ⟨h.state, dhcp_bld_req_xid hreq, rfl, h.result, h.goesOn.succ ?_ hno⟩
      rintro (hf | ⟨-, -, hserver⟩)
      · exact herr hf
      · unfold dhcp_bld_req at hreq
        dsimp only at hreq
        rw [hserver] at hreq
        exact Option.some_ne_none r hreq.symm
  · rw [if_neg htype]
    by_cases hack : rvcAt rvc replies (k + 1) (DC_OPT_AT + 2) = 0x05
    · rw [if_neg (not_not.mpr hack), h.state]
      exact .acks (Nat.lt_succ_self k) h.goesOn ⟨hreplied, htype, hack⟩ rfl rfl
    · rw [if_pos hack]
      refine .waits ⟨h.state, h.dmsg_snd, rfl, h.result, h.goesOn.succ ?_ fun ha => hack ha.2.2⟩
      rintro (hf | ⟨-, hf, -⟩)
      · exact herr hf
      · exact htype hf

/-- The inner loop takes up to as many replies as it has rounds. -/
theorem DhcpWaits.wait (slot : ℤ) : ∀ {n k : ℕ} {d : DhcpCall}, DhcpWaits s rvc replies k d →
    DhcpOutcome s slot rvc replies (k + n) (DhcpCall.wait slot replies n k d) := by
  intro n
  induction n with
  | zero => exact fun h => .waits h
  | succ n ih =>
    intro k d h
    have hround := h.recv slot
    rw [DhcpCall.wait]
    by_cases hr : (d.recv slot (replies k)).result.isSome
    · rw [if_pos hr]
      exact hround.mono hr (by omega)
    · rw [if_neg hr]
      have hrest := ih (hround.waits_of hr)
      rwa [Nat.add_right_comm] at hrest

/-- The outer loop takes up to three replies a round. -/
theorem DhcpWaits.retry (slot : ℤ) : ∀ {n k : ℕ} {d : DhcpCall}, DhcpWaits s rvc replies k d →
    DhcpOutcome s slot rvc replies (k + 3 * n) (DhcpCall.retry slot replies n k d) := by
  intro n
  induction n with
  | zero => exact fun h => .waits h
  | succ n ih =>
    intro k d h
    have hsend : DhcpWaits s rvc replies k d.sendto := ⟨h.state, h.dmsg_snd, h.dmsg_rvc, h.result, h.goesOn⟩
    have htry := hsend.wait slot (n := 3)
    rw [DhcpCall.retry]
    by_cases hr : (DhcpCall.wait slot replies 3 k d.sendto).result.isSome
    · rw [if_pos hr]
      exact htry.mono hr (by omega)
    · rw [if_neg hr]
      have hrest := ih (htry.waits_of hr)
      rwa [show k + 3 + 3 * n = k + 3 * (n + 1) by omega] at hrest

/-- What `getlocalip` does with a slot: it gives up, it fails and keeps the slot, or it has an address. -/
theorem getlocalip_cases (rvc : ℕ → UInt8) (replies : ℕ → UdpReply)
    (h : freeSlot s.udptab dhcpKey = some slot) :
    (DhcpGoesOn s.net.ethucast rvc replies (3 * DHCP_RETRY) ∧
      s.getlocalip rvc replies = ((s.withSlot slot dhcpKey).udp_release slot, USYSERR)) ∨
    ∃ i < 3 * DHCP_RETRY, DhcpGoesOn s.net.ethucast rvc replies i ∧
      ((DhcpFails s.net.ethucast rvc replies i ∧ s.getlocalip rvc replies =
        (s.withSlot slot dhcpKey, USYSERR)) ∨
        (DhcpAcks s.net.ethucast rvc replies i ∧ s.getlocalip rvc replies =
          ({ s.withSlot slot dhcpKey with net := s.net.ackAt rvc replies i }.udp_release slot,
            yipAt rvc replies i))) := by
  -- At the beginning it waits for an offer, and nothing has been received.
  have hstart : DhcpWaits (s.withSlot slot dhcpKey) rvc replies 0
      ⟨s.withSlot slot dhcpKey, (dhcp_bld_disc s.net.ethucast).1,
        (dhcp_bld_disc s.net.ethucast).2, rvc, [], none⟩ :=
    ⟨rfl, rfl, rfl, rfl, fun i hi => absurd hi (Nat.not_lt_zero i)⟩
  -- Each of the `DHCP_RETRY` rounds waits for a reply three times.
  have hloop := hstart.retry slot (n := DHCP_RETRY)
  rw [Nat.zero_add] at hloop
  have hnet : (s.withSlot slot dhcpKey).net = s.net := rfl
  unfold Clients.getlocalip
  rw [udp_register_some h]
  dsimp only
  rw [hnet]
  cases hloop with
  -- No round ends the wait, so the slot is released and there is no address.
  | waits h =>
    refine .inl ⟨h.goesOn, ?_⟩
    rw [h.result, h.state]
  | @fails i hi first h state result =>
    refine .inr ⟨i, hi, first, .inl ⟨h, ?_⟩⟩
    rw [result, state]
  | @acks i hi first h state result =>
    refine .inr ⟨i, hi, first, .inr ⟨h, ?_⟩⟩
    rw [result, state]
    rfl

/-- If nothing ends the loops, nothing fails. -/
theorem DhcpGoesOn.cleans {ethucast : ℕ → UInt8} (h : DhcpGoesOn ethucast rvc replies (3 * DHCP_RETRY)) :
    DhcpCleans ethucast rvc replies :=
  fun i hi hf => absurd hf (h i hi).1

/-- If an acknowledgement ends the loops, nothing fails before. -/
theorem DhcpAcks.cleans {ethucast : ℕ → UInt8} (h : DhcpAcks ethucast rvc replies k)
    (first : DhcpGoesOn ethucast rvc replies k) :
    DhcpCleans ethucast rvc replies := by
  intro i _ hf
  rcases Nat.lt_trichotomy i k with hi | rfl | hi
  · exact absurd hf (first i hi).1
  · exact absurd hf h.not_fails
  · exact ⟨k, hi, h⟩

/-- If a failure ends the loops, there is no acknowledgement before. -/
theorem DhcpFails.not_cleans {ethucast : ℕ → UInt8} (h : DhcpFails ethucast rvc replies k)
    (first : DhcpGoesOn ethucast rvc replies k)
    (hk : k < 3 * DHCP_RETRY) : ¬ DhcpCleans ethucast rvc replies := by
  intro hclean
  obtain ⟨j, hj, ha⟩ := hclean k hk h
  exact (first j hj).2 ha

/-- Only one acknowledgement ends the loops. -/
theorem DhcpAcks.unique {ethucast : ℕ → UInt8} {i : ℕ} (h : DhcpAcks ethucast rvc replies k)
    (first : DhcpGoesOn ethucast rvc replies k)
    (h' : DhcpAcks ethucast rvc replies i) (first' : DhcpGoesOn ethucast rvc replies i) : k = i := by
  rcases Nat.lt_trichotomy k i with hlt | heq | hgt
  · exact absurd h (first' k hlt).2
  · exact heq
  · exact absurd h' (first i hgt).2

/-- `getlocalip` cleans up exactly if nothing fails before an acknowledgement, or if it has no slot. -/
theorem getlocalip_iff (s : Clients) (rvc : ℕ → UInt8) (replies : ℕ → UdpReply) :
    CleanedUp s (s.getlocalip rvc replies).1 ↔
    (freeSlot s.udptab dhcpKey ≠ none → DhcpCleans s.net.ethucast rvc replies) := by
  cases hfree : freeSlot s.udptab dhcpKey with
  | none =>
    unfold Clients.getlocalip
    rw [udp_register_none hfree]
    exact iff_of_true (.of_eq rfl rfl rfl) fun h => absurd rfl h
  | some slot =>
    rw [imp_iff_right (Option.some_ne_none slot)]
    rcases getlocalip_cases rvc replies hfree with ⟨hgo, heq⟩ | ⟨i, hi, first, ⟨hf, heq⟩ | ⟨ha, heq⟩⟩
    · rw [heq]
      exact iff_of_true (.released hfree rfl rfl rfl) hgo.cleans
    · rw [heq]
      exact iff_of_false (not_cleanedUp hfree rfl) (hf.not_cleans first hi)
    · rw [heq]
      exact iff_of_true (.released hfree rfl rfl rfl) (ha.cleans first)

end Dhcp

/-! ## `dnslookup` -/

/-- A question is refused exactly if the name is too long. -/
theorem dns_bldq_syserr (dname : CString) (area : ℕ → UInt8) :
    (dns_bldq dname area).1 = SYSERR ↔ DNSDATASIZ ≤ dname.length := by
  refine ⟨fun h => ?_, fun h => dns_bldq_refuses h area⟩
  by_contra hshort
  have hfits : (bldqLoop dname ((Bldq.mk area 0 0 1 []).put 0)).2 = true := by
    rw [bldqLoop_fits]
    exact .inr (show 1 + dname.length ≤ DNSDATASIZ by omega)
  unfold dns_bldq at h
  dsimp only at h
  rw [hfits] at h
  simp only [Bool.not_true, Bool.false_eq_true, if_false] at h
  have hneg : SYSERR < 0 := by decide
  omega

/-- `dnslookup` cleans up exactly if its call of `getlocalip` does, and if it has no slot for a name
that is too long. -/
theorem dnslookup_iff (s : Clients) (dname : CString) (rvc : ℕ → UInt8)
    (dhcp : ℕ → UdpReply) (replies : ℕ → DnsReply) :
    CleanedUp s (s.dnslookup (some dname) rvc dhcp replies).1 ↔
    (ClientCall.dnslookup (some dname) rvc dhcp replies).Cleans s := by
  unfold ClientCall.Cleans Clients.dnslookup
  dsimp only
  cases hdot : isDotted dname with
  | true =>
    rw [if_pos rfl]
    exact iff_of_true (.of_eq rfl rfl rfl) nofun
  | false =>
  cases hlocal : isLocalhost dname with
  | true =>
    rw [if_neg nofun, if_pos rfl]
    exact iff_of_true (.of_eq rfl rfl rfl) fun _ => nofun
  | false =>
  rw [if_neg nofun, if_neg nofun, imp_iff_right rfl, imp_iff_right rfl]
  cases hfree : freeSlot s.udptab dhcpKey with
  | none =>
    have heq : s.getlocalip rvc dhcp = (s, USYSERR) := by
      unfold Clients.getlocalip
      rw [udp_register_none hfree]
    rw [heq, if_pos (.inl rfl)]
    exact iff_of_true (.of_eq rfl rfl rfl) fun h => absurd rfl h
  | some slot =>
  rw [imp_iff_right (Option.some_ne_none slot)]
  rcases getlocalip_cases rvc dhcp hfree with ⟨hgo, heq⟩ | ⟨i, hi, first, ⟨hf, heq⟩ | ⟨ha, heq⟩⟩
  · rw [heq, if_pos (.inl rfl)]
    exact iff_of_true (.released hfree rfl rfl rfl) ⟨hgo.cleans, fun k hk hack => absurd hack (hgo k hk).2⟩
  · rw [heq, if_pos (.inl rfl)]
    exact iff_of_false (not_cleanedUp hfree rfl) fun h => hf.not_cleans first hi h.1
  rw [heq]
  obtain ⟨s₁, hs₁⟩ :
    ∃ s₁, s₁ = { s.withSlot slot dhcpKey with net := s.net.ackAt rvc dhcp i }.udp_release slot := ⟨_, rfl⟩
  have hclean : CleanedUp s s₁ := hs₁ ▸ .released hfree rfl rfl rfl
  have hnet : s₁.net = s.net.ackAt rvc dhcp i := by
    rw [hs₁]
    unfold Clients.udp_release
    split_ifs <;> rfl
  rw [← hs₁]
  dsimp only
  rw [hnet]
  -- the acknowledgement is the only one, so the second part is about it
  have hpart {P : ℕ → Prop} :
      (DhcpCleans s.net.ethucast rvc dhcp ∧ ∀ k < 3 * DHCP_RETRY, DhcpAcks s.net.ethucast rvc dhcp k →
      DhcpGoesOn s.net.ethucast rvc dhcp k → P k) ↔ P i := by
    refine ⟨fun h => h.2 i hi ha first, fun h => ⟨ha.cleans first, fun k _ hack hgo => ?_⟩⟩
    obtain rfl := ha.unique first hack hgo
    exact h
  rw [hpart]
  by_cases hstop : yipAt rvc dhcp i = USYSERR ∨ (s.net.ackAt rvc dhcp i).dnsserver = 0
  · rw [if_pos hstop]
    refine iff_of_true hclean fun hyip hserver => ?_
    rcases hstop with h | h
    · exact absurd h hyip
    · exact absurd h hserver
  rw [if_neg hstop]
  obtain ⟨hyip, hserver⟩ := not_or.mp hstop
  rw [imp_iff_right hyip, imp_iff_right hserver]
  cases hquery : freeSlot s.udptab ⟨(s.net.ackAt rvc dhcp i).dnsserver, DNSPORT, DNSLPORT⟩ with
  | none =>
    rw [udp_register_none (by rw [hclean.udptab]; exact hquery)]
    exact iff_of_true hclean fun h => absurd rfl h
  | some slot₁ =>
    have hquery₁ : freeSlot s₁.udptab ⟨(s.net.ackAt rvc dhcp i).dnsserver, DNSPORT, DNSLPORT⟩ =
        some slot₁ := by
      rw [hclean.udptab]
      exact hquery
    rw [udp_register_some hquery₁, imp_iff_right (Option.some_ne_none slot₁)]
    dsimp only
    by_cases hlong : DNSDATASIZ ≤ dname.length
    · rw [if_pos ((dns_bldq_syserr dname _).mpr hlong)]
      refine iff_of_false (not_cleanedUp hquery ?_) (by omega)
      unfold Clients.withSlot
      rw [hclean.udptab]
    · rw [if_neg (mt (dns_bldq_syserr dname _).mp hlong)]
      exact iff_of_true (hclean.trans (.released hquery₁ rfl rfl rfl)) (by omega)

/-! ## `tftpget_mb` -/

namespace TftpGet

variable {rcv_buf_sizes : List ℕ}

/-- There is one release if a transfer ends, and none if it goes on. -/
def ReleasesAtEnd (c : TftpGet) (n : ℕ) : Prop := n = 1 ∧ c.result.isSome ∨ n = 0 ∧ c.result = none

/-- The releases behind a block. -/
theorem block_releases (c : TftpGet) (inmsg : TftpMsg) (sent : Bool) :
    (c.block rcv_buf_sizes inmsg sent).1.ReleasesAtEnd (c.blockReleases rcv_buf_sizes inmsg sent) := by
  unfold blockReleases block
  dsimp only
  by_cases hfull : (copyBlock rcv_buf_sizes ((List.range (inmsg.n - 4).toNat).map inmsg.tf_data) c).2 = true
  · rw [if_pos hfull, if_pos hfull]
    exact .inl ⟨rfl, rfl⟩
  rw [if_neg hfull, if_neg hfull]
  by_cases hlast : inmsg.n - 4 < TFTP_MAXDATA
  · rw [if_pos hlast, if_pos hlast]
    exact .inl ⟨rfl, rfl⟩
  rw [if_neg hlast, if_neg hlast]
  cases sent with
  | false => exact .inl ⟨rfl, rfl⟩
  | true => exact .inr ⟨rfl, rfl⟩

/-- A step of the transfer releases the slot exactly where it returns. -/
theorem step_releases {c : TftpGet} (hc : c.result = none) (ret : TftpRecv) (sent : Bool) :
    (c.tftp_send1 rcv_buf_sizes ret sent).1.ReleasesAtEnd (c.releases rcv_buf_sizes ret sent) := by
  unfold releases tftp_send1
  cases ret with
  | syserr => exact .inl ⟨rfl, rfl⟩
  | timeout =>
    -- The retries are used up, or the packet cannot be sent again.
    dsimp only
    by_cases hmax : c.i + 1 ≥ TFTP_MAXRETRIES
    · rw [if_pos hmax, if_pos (Or.inl hmax)]
      exact .inl ⟨rfl, rfl⟩
    rw [if_neg hmax]
    cases sent with
    | false =>
      rw [if_pos (Or.inr Bool.false_ne_true)]
      exact .inl ⟨rfl, rfl⟩
    | true =>
      rw [if_neg fun h => h.elim hmax fun h => h rfl]
      exact .inr ⟨rfl, hc⟩
  | packet remport inmsg =>
    -- A short packet is skipped, an error ends the transfer, another block is skipped.
    dsimp only
    by_cases hsmall : inmsg.n < 4
    · rw [if_pos hsmall, if_pos hsmall]
      exact .inr ⟨rfl, hc⟩
    rw [if_neg hsmall, if_neg hsmall]
    by_cases herr : inmsg.tf_opcode = TFTP_ERROR
    · rw [if_pos herr, if_pos herr]
      exact .inl ⟨rfl, rfl⟩
    rw [if_neg herr, if_neg herr]
    by_cases hblk : inmsg.tf_opcode = TFTP_DATA ∧ inmsg.tf_dblk = c.expected
    · rw [if_pos hblk, if_pos hblk]
      exact block_releases { c with remport := remport } inmsg sent
    · rw [if_neg hblk, if_neg hblk]
      exact .inr ⟨rfl, hc⟩

/-- A transfer that is over takes no more replies. -/
theorem loop_done {c : TftpGet} {r : ℤ} (hc : c.result = some r)
    (slot : ℤ) (s : Clients) (rets : List (TftpRecv × Bool)) :
    loop rcv_buf_sizes slot s c rets = some (s, r) := by
  cases rets with
  | nil =>
    rw [loop, hc]
    rfl
  | cons e rets => rw [loop, hc]

/-- A transfer that returns has released its slot once. -/
theorem loop_releases {slot : ℤ} {r : Clients × ℤ} :
    ∀ {rets : List (TftpRecv × Bool)} {s : Clients} {c : TftpGet}, c.result = none →
    loop rcv_buf_sizes slot s c rets = some r → r.1 = s.udp_release slot := by
  intro rets
  induction rets with
  | nil =>
    intro s c hc h
    rw [loop, hc] at h
    exact absurd h.symm (Option.some_ne_none r)
  | cons e rets ih =>
    intro s c hc h
    rw [loop, hc] at h
    dsimp only at h
    rcases step_releases hc e.1 e.2 with ⟨hone, hend⟩ | ⟨hnone, hgo⟩
    · obtain ⟨v, hv⟩ := Option.isSome_iff_exists.mp hend
      rw [hone, loop_done hv] at h
      rw [← Option.some.inj h]
      rfl
    · rw [hnone] at h
      exact ih hgo h

end TftpGet

/-- Every transfer by `tftpget_mb` cleans up, whatever is received. -/
theorem tftpget_mb_cleanedUp {serverip localport : ℕ} {filename : CString}
    {rcv_bufs : ℕ → ℕ → UInt8} {rcv_buf_sizes : List ℕ} {sent : Bool}
    {rets : List (TftpRecv × Bool)} {r : Clients × ℤ}
    (h : s.tftpget_mb serverip filename rcv_bufs rcv_buf_sizes localport sent rets = some r) :
    CleanedUp s r.1 := by
  unfold Clients.tftpget_mb at h
  -- The arguments that are refused before a slot is registered.
  by_cases hargs : serverip = 0 ∨ rcv_buf_sizes.length = 0
  · rw [if_pos hargs] at h
    exact Option.some.inj h ▸ .of_eq rfl rfl rfl
  rw [if_neg hargs] at h
  by_cases hsizes : rcv_buf_sizes.any (· = 0) = true
  · rw [if_pos hsizes] at h
    exact Option.some.inj h ▸ .of_eq rfl rfl rfl
  rw [if_neg hsizes] at h
  by_cases hname : filename.length = 0 ∨ filename.length > TFTP_MAXNAM
  · rw [if_pos hname] at h
    exact Option.some.inj h ▸ .of_eq rfl rfl rfl
  rw [if_neg hname] at h
  -- From here on there is a slot, and every way out releases it.
  cases hfree : freeSlot s.udptab ⟨serverip, 0, localport⟩ with
  | none =>
    rw [udp_register_none hfree] at h
    exact Option.some.inj h ▸ .of_eq rfl rfl rfl
  | some slot =>
    rw [udp_register_some hfree] at h
    dsimp only at h
    cases sent with
    | false => exact Option.some.inj h ▸ .released hfree rfl rfl rfl
    | true =>
      -- The first request was sent: the rounds of the transfer release the slot where they end.
      have hstart : (TftpGet.start rcv_buf_sizes serverip filename rcv_bufs true true).result = none := by
        unfold TftpGet.start
        rw [if_neg hargs, if_neg hsizes, if_neg hname]
        rfl
      rw [if_neg (by decide)] at h
      rw [TftpGet.loop_releases hstart h]
      exact .released hfree rfl rfl rfl

/-! ## `ip_send` and `icmp_send` -/

/-- `ip_send` leaves everything as it was, but without a next hop that is resolved the interrupts
are disabled. -/
theorem ip_send_eq (s : Clients) (dest : ℕ) (arp_resolve : ℕ → ℤ) (ip_out : ℤ) :
    (Unroutable s.net dest arp_resolve → (s.ip_send dest arp_resolve ip_out).1 = s.disable) ∧
    (¬ Unroutable s.net dest arp_resolve → (s.ip_send dest arp_resolve ip_out).1 = s) := by
  have hnet : s.disable.net = s.net := rfl
  unfold Clients.ip_send Unroutable
  dsimp only
  rw [hnet]
  -- The ways that need no next hop leave the interrupts as they were.
  by_cases hloop : dest &&& 0xff000000 = 0x7f000000
  · rw [if_pos hloop]
    exact ⟨fun h => absurd hloop h.1, fun _ => rfl⟩
  rw [if_neg hloop]
  by_cases hown : dest = s.net.ipucast
  · rw [if_pos hown]
    exact ⟨fun h => absurd hown h.2.1, fun _ => rfl⟩
  rw [if_neg hown]
  by_cases hbcast : dest = IP_BCAST ∨ dest = s.net.ipbcast
  · rw [if_pos hbcast]
    refine ⟨fun h => ?_, fun _ => rfl⟩
    rcases hbcast with hb | hb
    · exact absurd hb h.2.2.1
    · exact absurd hb h.2.2.2.1
  rw [if_neg hbcast]
  obtain ⟨hb, hb'⟩ := not_or.mp hbcast
  -- The next hop: it is missing, it is not resolved, or the packet goes there.
  generalize (if dest &&& s.net.ipmask = s.net.ipprefix then dest else s.net.iprouter) = nxthop
  by_cases hhop : nxthop = 0
  · rw [if_pos hhop]
    exact ⟨fun _ => rfl, fun h => absurd ⟨hloop, hown, hb, hb', .inl hhop⟩ h⟩
  rw [if_neg hhop]
  by_cases hres : arp_resolve nxthop ≠ OK
  · rw [if_pos hres]
    exact ⟨fun _ => rfl, fun h => absurd ⟨hloop, hown, hb, hb', .inr hres⟩ h⟩
  · rw [if_neg hres]
    refine ⟨fun h => ?_, fun _ => rfl⟩
    rcases h.2.2.2.2 with h | h
    · exact absurd h hhop
    · exact absurd h hres

/-- `ip_send` cleans up exactly if there is a next hop that is resolved, or if interrupts were
disabled before. -/
theorem ip_send_iff (s : Clients) (dest : ℕ) (arp_resolve : ℕ → ℤ) (ip_out : ℤ) :
    CleanedUp s (s.ip_send dest arp_resolve ip_out).1 ↔
    (s.mask = true → ¬ Unroutable s.net dest arp_resolve) := by
  obtain ⟨hbad, hgood⟩ := ip_send_eq s dest arp_resolve ip_out
  by_cases hroute : Unroutable s.net dest arp_resolve
  · rw [hbad hroute]
    constructor
    · intro hclean hmask _
      exact Bool.false_ne_true (hclean.mask.trans hmask)
    · intro h
      have hmask : s.mask = false := Bool.eq_false_iff.mpr fun hmask => h hmask hroute
      exact .of_eq rfl hmask.symm rfl
  · rw [hgood hroute]
    exact iff_of_true (.of_eq rfl rfl rfl) fun _ => hroute

/-- `icmp_send` always cleans up, since it restores the mask behind `ip_send`. -/
theorem icmp_send_cleanedUp {remip : ℕ} {getbuf : Bool} {arp_resolve : ℕ → ℤ} {ip_out : ℤ} {r : Clients × ℤ}
    (h : s.icmp_send remip getbuf arp_resolve ip_out = some r) : CleanedUp s r.1 := by
  unfold Clients.icmp_send at h
  dsimp only at h
  split_ifs at h
  obtain rfl := Option.some.inj h
  obtain ⟨hbad, hgood⟩ := ip_send_eq s.disable remip arp_resolve ip_out
  by_cases hroute : Unroutable s.disable.net remip arp_resolve
  · rw [hbad hroute]
    exact .of_eq rfl rfl rfl
  · rw [hgood hroute]
    exact .of_eq rfl rfl rfl

/-! ## The table of `udp.c` -/

/-- What the entries that are not free are registered for. -/
def Endpoints.inUse (e : Endpoints UdpKey) (i : ℤ) : Option UdpKey :=
  if (e.tab i).state = .free then none else some (e.tab i).key

namespace Endpoints

variable {e e' : Endpoints UdpKey} {o : Outcome} {p i : ℤ}

/-- An entry that is free. -/
theorem inUse_eq_none : e.inUse i = none ↔ (e.tab i).state = .free := by
  unfold inUse
  split_ifs with h <;> simp [h]

/-- The entry in use for a key is one that is not free and has this key. -/
theorem inUse_eq_some : e.inUse i = some key ↔ (e.tab i).state ≠ .free ∧ (e.tab i).key = key := by
  unfold inUse
  split_ifs with h <;> simp [h]

/-- Both look for a slot in the same way. -/
theorem freeSlot_inUse (e : Endpoints UdpKey) (key : UdpKey) : freeSlot e.inUse key = udpPlace e.tab key := by
  unfold freeSlot udpPlace
  simp only [inUse_eq_none, inUse_eq_some]

/-- A change of an entry changes the entries in use at its place. -/
theorem inUse_setSlot (e : Endpoints UdpKey) (i : ℤ) (x : Slot UdpKey) :
    (e.setSlot i x).inUse = Function.update e.inUse i (if x.state = .free then none else some x.key) := by
  funext j
  unfold inUse setSlot
  by_cases hj : j = i
  · subst hj
    simp only [Function.update_self]
  · simp only [Function.update_of_ne hj]

/-- An entry is changed, but neither what it is registered for nor whether it is free. -/
theorem inUse_setSlot_same {x : Slot UdpKey} (hfree : x.state = .free ↔ (e.tab i).state = .free)
    (hkey : x.key = (e.tab i).key) :
    (e.setSlot i x).inUse = e.inUse := by
  have hsame : (if x.state = .free then none else some x.key) = e.inUse i := by
    unfold inUse
    rw [hkey]
    exact if_congr hfree rfl rfl
  rw [inUse_setSlot, hsame, Function.update_eq_self]

/-- A receive takes a packet out of an entry. -/
theorem inUse_dequeue (e : Endpoints UdpKey) (p i len : ℤ) : (e.dequeue udp p i len).1.inUse = e.inUse :=
  inUse_setSlot_same Iff.rfl rfl

/-- The registration of the clients is the one of `udp.c`. -/
theorem inUse_register (e : Endpoints UdpKey) (p : ℤ) (hs : s.udptab = e.inUse) :
    (Xinu.udp_register e p key).1.inUse = (s.udp_register key).1.udptab ∧
    ∀ slot, (Xinu.udp_register e p key).2 = .registered slot ↔ (s.udp_register key).2 = some slot := by
  unfold Xinu.udp_register Endpoints.register Clients.udp_register
  rw [hs, freeSlot_inUse]
  cases hplace : udpPlace e.tab key with
  | none =>
    have hp : udp.place e.tab key = none := hplace
    rw [hp]
    exact ⟨hs.symm, fun slot => iff_of_false nofun nofun⟩
  | some i =>
    have hp : udp.place e.tab key = some i := hplace
    rw [hp]
    refine ⟨?_, fun slot => ?_⟩
    · dsimp only
      rw [inUse_setSlot]
      rfl
    · dsimp only
      rw [Outcome.registered.injEq, Option.some.injEq]

/-- A release takes the entry out of those in use, here as in the clients. -/
theorem inUse_release (e : Endpoints UdpKey) (p slot : ℤ) (hs : s.udptab = e.inUse) :
    (Xinu.udp_release e p slot).1.inUse = (s.udp_release slot).udptab := by
  unfold Xinu.udp_release Endpoints.release Clients.udp_release
  have hslots : udp.slots = UDP_SLOTS := rfl
  rw [hslots]
  by_cases hin : slot < 0 ∨ slot ≥ UDP_SLOTS
  · rw [if_pos hin, if_pos hin]
    exact hs.symm
  rw [if_neg hin, if_neg hin]
  dsimp only
  by_cases hfree : (e.tab slot).state = .free
  · have hno : ¬ udp.releases (e.tab slot).state = true := by
      rw [hfree]
      decide
    rw [if_pos hno, hs, ← inUse_eq_none.mpr hfree, Function.update_eq_self]
  · have hyes : udp.releases (e.tab slot).state = true := decide_eq_true hfree
    rw [if_neg (not_not.mpr hyes)]
    dsimp only
    rw [inUse_setSlot, hs]
    rfl

/-- Nothing else that happens to the table registers or releases an entry. -/
theorem inUse_exec {ev : NetEvent UdpKey} (hC : UdpTrust e ev)
    (h : e.exec udp ev = some (e', o)) (hreg : ∀ p key, ev ≠ .register p key)
    (hrel : ∀ p slot, ev ≠ .release p slot) : e'.inUse = e.inUse := by
  cases ev with
  | register p key => exact absurd rfl (hreg p key)
  | release p slot => exact absurd rfl (hrel p slot)
  | send pid msg =>
    obtain ⟨rfl, -⟩ := Prod.mk.inj (Option.some.inj h)
    rfl
  | timeout p =>
    unfold Endpoints.exec at h
    dsimp only at h
    split_ifs at h
    obtain ⟨rfl, -⟩ := Prod.mk.inj (Option.some.inj h)
    rfl
  | arrive pkt =>
    have he : e' = (e.arrive udp pkt).1 := (congrArg Prod.fst (Option.some.inj h)).symm
    rw [he]
    unfold Endpoints.arrive
    cases udp.accepts e.tab pkt with
    | none => rfl
    | some i =>
      dsimp only
      split_ifs with hrecv
      · refine Eq.trans rfl (inUse_setSlot_same (iff_of_false nofun ?_) rfl)
        intro hfree
        exact absurd (hfree.symm.trans hrecv) nofun
      · exact inUse_setSlot_same Iff.rfl rfl
  | receive p i len timeout =>
    unfold Endpoints.exec at h
    dsimp only at h
    split_ifs at h
    have he : e' = (e.receive udp p i len timeout).1 := (congrArg Prod.fst (Option.some.inj h)).symm
    rw [he]
    unfold Endpoints.receive
    split_ifs with hin hused hempty htime
    · rfl
    · rfl
    · refine Eq.trans rfl (inUse_setSlot_same (iff_of_false nofun ?_) rfl)
      rw [not_not.mp hused]
      exact nofun
    · refine Eq.trans rfl (inUse_setSlot_same (iff_of_false nofun ?_) rfl)
      rw [not_not.mp hused]
      exact nofun
    · exact inUse_dequeue e p i len
  | wake p =>
    unfold Endpoints.exec at h
    dsimp only at h
    cases hin : e.inside p with
    | none =>
      rw [hin] at h
      exact absurd h.symm (Option.some_ne_none (e', o))
    | some r =>
      rw [hin] at h
      dsimp only at h
      split_ifs at h
      have he : e' = (e.wake udp p r.1 r.2).1 := (congrArg Prod.fst (Option.some.inj h)).symm
      -- the entry that the receiver waits on is not free, so that it stays registered
      have hstate : (e.setSlot r.1 { e.tab r.1 with state := .used }).inUse = e.inUse :=
        inUse_setSlot_same (iff_of_false nofun (hC r.1 r.2 hin).1) rfl
      rw [he]
      unfold Endpoints.wake
      dsimp only
      split_ifs
      · exact hstate
      · exact hstate
      · rw [inUse_dequeue]
        exact hstate

end Endpoints

/-! ## Every call -/

/-- A call that returns cleans up exactly if it meets its condition. -/
theorem ClientCall.cleanedUp_iff {c : ClientCall} (h : c.exec s = some s') : CleanedUp s s' ↔ c.Cleans s := by
  cases c with
  | getlocalip rvc replies =>
    obtain rfl := Option.some.inj h
    exact getlocalip_iff s rvc replies
  | dnslookup dname rvc dhcp replies =>
    obtain rfl := Option.some.inj h
    cases dname with
    | none => exact iff_of_true (.of_eq rfl rfl rfl) trivial
    | some dname => exact dnslookup_iff s dname rvc dhcp replies
  | tftpget_mb serverip filename rcv_bufs rcv_buf_sizes localport sent rets =>
    obtain ⟨r, hr, rfl⟩ := Option.map_eq_some_iff.mp h
    exact iff_of_true (tftpget_mb_cleanedUp hr) trivial
  | ip_send dest arp_resolve ip_out =>
    obtain rfl := Option.some.inj h
    exact ip_send_iff s dest arp_resolve ip_out
  | icmp_send remip getbuf arp_resolve ip_out =>
    obtain ⟨r, hr, rfl⟩ := Option.map_eq_some_iff.mp h
    exact iff_of_true (icmp_send_cleanedUp hr) trivial

/-- Any number of calls that clean up, one after the other, clean up. -/
theorem ClientRun.cleanedUp (h : ClientRun (fun s c => c.Cleans s) s s') : CleanedUp s s' := by
  induction h with
  | start => exact .of_eq rfl rfl rfl
  | call _ hc hstep ih => exact ih.trans ((ClientCall.cleanedUp_iff hstep).mpr hc)

/-- Every call that returns has released each slot that it registered, once, and leaves the table
and the interrupt mask as they were, if and only if it meets its condition. Any number of calls that
meet theirs leave as many free slots, and the same mask. -/
theorem clients_clean (s s' : Clients) :
    (∀ c : ClientCall, c.exec s = some s' → (CleanedUp s s' ↔ c.Cleans s)) ∧
    (ClientRun (fun s c => c.Cleans s) s s' → CleanedUp s s' ∧
      s'.freeSlots = s.freeSlots ∧ s'.mask = s.mask) :=
  ⟨fun _ h => ClientCall.cleanedUp_iff h, fun h => ⟨h.cleanedUp, h.cleanedUp.freeSlots, h.cleanedUp.mask⟩⟩

/-- A host without an address, with interrupts enabled. -/
def newHost : Clients := ⟨fun _ => none, true, ⟨0, 0xffffffff, 0, 0xffffff00, 0, 0, 0, fun _ => 0⟩, []⟩

/-- A message that acknowledges the address 10.0.0.9, with a name server. -/
def ackMessage : List UInt8 :=
  List.replicate 16 0 ++ [10, 0, 0, 9] ++ List.replicate 220 0 ++ [53, 1, 5, 6, 4, 10, 0, 0, 1, 255]

/-- A receive that fails leaves the slot of `getlocalip` registered, a destination without a next
hop leaves interrupts disabled, and a name that is too long leaves the slot of `dnslookup`
registered. -/
theorem clients_leak :
    (newHost.getlocalip (fun _ => 0) fun _ => ⟨SYSERR, []⟩).1.calls = [.registered 0] ∧
    (newHost.getlocalip (fun _ => 0) fun _ => ⟨SYSERR, []⟩).1.freeSlots = 5 ∧
    (newHost.ip_send 0x08080808 (fun _ => OK) OK).1.mask = false ∧
    (newHost.dnslookup (some (List.replicate 500 97)) (fun _ => 0) (fun _ => ⟨250, ackMessage⟩) fun _ =>
      ⟨TIMEOUT, none⟩).1.calls =
      [.registered 0, .released 0, .registered 0] := by
  refine ⟨by decide, by decide, by decide, ?_⟩
  decide +kernel

end Xinu
