import Mathlib.Algebra.Ring.Nat
import Xinu.Eth.Receive

/-!
# The transmit ring of the Ethernet

`ethwrite`, `eth_txPackets` and the ring that `_82545EM_configure_tx` sets up. A writer that has a
permit of `osem` fills the descriptor at `txTail` and moves `TDT` over it; the controller sends
packets from `TDH` on and stops at `TDT`, and later writes the bit `DD` back into the descriptors;
the interrupt handler clears descriptors from `txHead` on and hands the permits back. `write`
disables interrupts around `ethwrite`, so that one writer at a time is behind `wait`, and the
handler runs while there is none. The controller may go on between any two steps.

`osem` has a permit for each descriptor, but the controller takes a ring for empty in which `TDT` is
`TDH`: when packets that have not been sent fill the ring, it stops, and nothing starts it again.
-/

namespace Xinu

/-- `E1000_TXD_STAT_DD`. -/
abbrev E1000_TXD_STAT_DD : ℕ := 0x00000001

/-- `E1000_TXD_CMD_EOP`. -/
abbrev E1000_TXD_CMD_EOP : ℕ := 0x01000000

/-- `E1000_TXD_CMD_IFCS`. -/
abbrev E1000_TXD_CMD_IFCS : ℕ := 0x02000000

/-- `E1000_TXD_CMD_RS`. -/
abbrev E1000_TXD_CMD_RS : ℕ := 0x08000000

/-- `E1000_TXD_CMD_IDE`. -/
abbrev E1000_TXD_CMD_IDE : ℕ := 0x80000000

/-- `E1000_TX_RING_SIZE`. -/
abbrev E1000_TX_RING_SIZE : ℕ := 16

/-- `ETH_MAX_PKT_LEN`. -/
abbrev ETH_MAX_PKT_LEN : ℤ := 14 + 4 + 1500

/-- The fields `lower.data` and `upper.data` of `struct eth_tx_desc`, with the buffer that the
descriptor points to. -/
structure EthTxDesc where
  /-- The length and the commands. -/
  lower : ℕ
  /-- The status, with the done bit. -/
  upper : ℕ
  /-- The bytes of the buffer. -/
  buffer : ℕ → UInt8

/-- `ETH_BUF_SIZE`. -/
abbrev EthTxDesc.ETH_BUF_SIZE : ℕ := 2048

/-- The packet that the controller finds: the length is in the low half of `lower.data`. -/
def EthTxDesc.packet (d : EthTxDesc) : List UInt8 := (List.range (d.lower % 2 ^ 16)).map d.buffer

/-- What a writer behind `wait` does next: it fills the descriptor, moves `TDT`, or moves `txTail`. -/
inductive EthWriter where
  | outside
  | copy (packet : List UInt8)
  | publish (packet : List UInt8)
  | advance

/-- The fields of `struct ethcblk` for output, with the registers `TDH` and `TDT` of the controller,
the first descriptor that it has not written back, how many it has sent and not written back, the
count of the loop that a handler is in, the packets over which `TDT` has been moved, those that have
been sent, and the number of descriptors that have been cleared. -/
structure EthTxRing where
  /-- The number of descriptors. -/
  txRingSize : ℕ
  /-- The descriptors. -/
  txRing : ℕ → EthTxDesc
  /-- The descriptor that the handler clears next. -/
  txHead : ℕ
  /-- The descriptor that a writer fills next. -/
  txTail : ℕ
  /-- The semaphore that counts the descriptors for writers. -/
  osem : Semaphore (List UInt8)
  /-- The register `TDH`: the descriptor that the controller sends next. -/
  tdh : ℕ
  /-- The register `TDT`: the end of the descriptors that it may send. -/
  tdt : ℕ
  /-- The first descriptor that the controller has not written back. -/
  back : ℕ
  /-- How many it has sent and not written back. -/
  pending : ℕ
  /-- The state is `ETH_STATE_UP`. -/
  up : Bool
  /-- Where the writer past its wait is in `ethwrite`. -/
  writer : EthWriter
  /-- How many descriptors the handler has cleared in its loop, if one is running. -/
  numdesc : Option ℕ
  /-- The packets over which `TDT` has been moved. -/
  accepted : List (List UInt8)
  /-- The packets that have been sent. -/
  sent : List (List UInt8)
  /-- How many descriptors have been cleared. -/
  cleared : ℕ

namespace EthTxRing

/-- The transmit part of `_82545EMInit`, with `_82545EM_configure_tx`. -/
def init (txRingSize : ℕ) : EthTxRing where
  txRingSize := txRingSize
  txRing _ := ⟨0, 0, fun _ => 0⟩
  txHead := 0
  txTail := 0
  osem := Semaphore.create txRingSize
  tdh := 0
  tdt := 0
  back := 0
  pending := 0
  up := false
  writer := .outside
  numdesc := none
  accepted := []
  sent := []
  cleared := 0

/-- The controller sends the packet at `TDH`. -/
def transmit (s : EthTxRing) : Option EthTxRing :=
  if s.tdh = s.tdt then none
  else some { s with sent := s.sent ++ [(s.txRing s.tdh).packet], tdh := (s.tdh + 1) % s.txRingSize,
                     pending := s.pending + 1 }

/-- The controller reports that a descriptor is done, if it has been asked to. -/
def writeBack (s : EthTxRing) : Option EthTxRing :=
  if s.pending = 0 then none
  else
    let d := s.txRing s.back
    let upper := if d.lower &&& E1000_TXD_CMD_RS = 0 then d.upper else d.upper ||| E1000_TXD_STAT_DD
    some { s with
      txRing := Function.update s.txRing s.back { d with upper := upper }
      back := (s.back + 1) % s.txRingSize
      pending := s.pending - 1 }

/-- One round of the loop of `eth_txPackets`, or the end of the loop and `signaln`. -/
def eth_txPackets (s : EthTxRing) (numdesc : ℕ) : EthTxRing :=
  let descptr := s.txRing s.txHead
  if numdesc < s.txRingSize ∧ descptr.upper &&& E1000_TXD_STAT_DD ≠ 0 then
    { s with
      txRing := Function.update s.txRing s.txHead ⟨0, 0, fun j =>
        if j < EthTxDesc.ETH_BUF_SIZE then 0 else descptr.buffer j⟩
      txHead := (s.txHead + 1) % s.txRingSize
      numdesc := some (numdesc + 1)
      cleared := s.cleared + 1 }
  else { s with osem := s.osem.signaln numdesc, numdesc := none }

/-- The first part of `ethwrite(devptr, buf, len)`, up to `wait`. -/
def ethwrite (s : EthTxRing) (buf : ℕ → UInt8) (len : ℤ) : EthTxRing :=
  if ¬ s.up ∨ len < ETH_HDR_LEN ∨ len > ETH_MAX_PKT_LEN ∨ len < 17 then s
  else
    let packet := (List.range len.toNat).map buf
    let r := s.osem.wait packet
    { s with osem := r.2, writer := if r.1 then .copy packet else s.writer }

/-- A step of the body of the interrupt handler keeps the invariant. -/
def body (s : EthTxRing) : Option EthTxRing :=
  match s.writer with
  | .outside => none
  | .copy packet =>
    let d := s.txRing s.txTail
    let lower := E1000_TXD_CMD_IDE ||| E1000_TXD_CMD_RS |||
      E1000_TXD_CMD_IFCS ||| E1000_TXD_CMD_EOP ||| packet.length
    some { s with
      txRing := Function.update s.txRing s.txTail ⟨lower, 0, fun j => packet.getD j (d.buffer j)⟩
      writer := .publish packet }
  | .publish packet =>
    some { s with tdt := (s.tdt + 1) % s.txRingSize, accepted := s.accepted ++ [packet], writer := .advance }
  | .advance => some { s with txTail := (s.txTail + 1) % s.txRingSize, writer := .outside }

end EthTxRing

/-- What may happen next. -/
inductive EthTxEvent where
  /-- The controller sends a packet. -/
  | transmit
  /-- The controller writes a descriptor back. -/
  | writeBack
  /-- A transmit interrupt. -/
  | interrupt
  /-- The handler goes on. -/
  | eth_txPackets
  /-- The end of `ethinit`. -/
  | up
  /-- A process calls `ethwrite`. -/
  | ethwrite (buf : ℕ → UInt8) (len : ℤ)
  /-- The `i`-th woken writer runs. -/
  | resume (i : ℕ)
  /-- The writer goes on in the body. -/
  | body

/-- A process may run: no handler is in its loop, and no writer is behind `wait` with interrupts disabled. -/
def EthTxRing.Free (s : EthTxRing) : Prop := s.numdesc = none ∧ s.writer = .outside

/-- One step: nothing, if it cannot happen. -/
inductive EthTxRing.Exec (s : EthTxRing) : EthTxEvent → EthTxRing → Prop where
  | transmit {s' : EthTxRing} : s.transmit = some s' → s.Exec .transmit s'
  | writeBack {s' : EthTxRing} : s.writeBack = some s' → s.Exec .writeBack s'
  | interrupt : s.Free → s.Exec .interrupt { s with numdesc := some 0 }
  | eth_txPackets {n : ℕ} : s.numdesc = some n → s.Exec .eth_txPackets (s.eth_txPackets n)
  | up : s.Exec .up { s with up := true }
  | ethwrite (buf : ℕ → UInt8) (len : ℤ) : s.Free → s.Exec (.ethwrite buf len) (s.ethwrite buf len)
  | resume {i : ℕ} {packet : List UInt8} {sem : Semaphore (List UInt8)} :
    s.Free → s.osem.resume i = some (packet, sem) →
      s.Exec (.resume i) { s with osem := sem, writer := .copy packet }
  | body {s' : EthTxRing} : s.numdesc = none → s.body = some s' → s.Exec .body s'

/-- Steps from a state. -/
inductive EthTxSteps (s : EthTxRing) : EthTxRing → Prop where
  | refl : EthTxSteps s s
  | step {s₁ s₂ : EthTxRing} {e : EthTxEvent} : EthTxSteps s s₁ → s₁.Exec e s₂ → EthTxSteps s s₂

/-! ## What the ring promises -/

/-- The writer has a permit, and the controller has not got its packet. -/
def EthWriter.busy : EthWriter → ℕ
  | .copy _ | .publish _ => 1
  | _ => 0

/-- `TDT` has been moved, and `txTail` has not. -/
def EthWriter.late : EthWriter → ℕ
  | .advance => 1
  | _ => 0

/-- How many descriptors the controller has written back. -/
def EthTxRing.reported (s : EthTxRing) : ℕ := s.sent.length - s.pending

/-- What holds between any two steps: packets are sent in the order in which they were accepted, and
as they were written; the permits and the descriptors in use make up the ring; and descriptors are
cleared and filled again only when their packets have been sent. -/
structure EthTxRing.Safe (s : EthTxRing) : Prop where
  /-- Packets are sent in the order in which they were accepted. -/
  order : s.sent <+: s.accepted
  /-- Descriptors in use, permits in use and permits left are the ring. -/
  permits : (s.accepted.length : ℤ) - s.cleared + s.writer.busy +
    s.numdesc.getD 0 + (max 0 s.osem.count + s.osem.woken.length) = s.txRingSize
  /-- A descriptor is cleared only when its packet has been sent. -/
  cleared : s.cleared ≤ s.sent.length
  /-- Until then it holds the packet as it was written. -/
  kept : ∀ p, (h : p < s.accepted.length) → s.sent.length ≤ p →
    (s.txRing (p % s.txRingSize)).packet = s.accepted.get ⟨p, h⟩

/-- The ring is full of packets that have not been sent. -/
def EthTxRing.Stuck (s : EthTxRing) : Prop := s.accepted.length = s.sent.length + s.txRingSize

/-! ## The invariant -/

/-- The descriptor holds the packet, and asks for a report. -/
structure EthTxDesc.Holds (d : EthTxDesc) (packet : List UInt8) : Prop where
  /-- Its bytes are those of the packet. -/
  packet : d.packet = packet
  /-- The controller is told to set the done bit. -/
  asks : d.lower &&& E1000_TXD_CMD_RS ≠ 0

/-- Where the parties are. Positions count the descriptors from the beginning, and position `p` is
descriptor `p` modulo the size of the ring. -/
structure EthTxRing.Ok (s : EthTxRing) (N : ℕ) : Prop where
  /-- The ring keeps its size. -/
  size : s.txRingSize = N
  /-- The head is the position after those cleared. -/
  head : s.txHead = s.cleared % N
  /-- The tail, with what a writer still has to add, is the position after those accepted. -/
  tail : (s.txTail + s.writer.late) % N = s.accepted.length % N
  /-- The tail is a descriptor of the ring. -/
  inside : s.txTail < N
  /-- The controller is at the position after those sent. -/
  tdh : s.tdh = s.sent.length % N
  /-- `TDT` is the position after those accepted. -/
  tdt : s.tdt = s.accepted.length % N
  /-- Write-back is at the position after those reported. -/
  back : s.back = s.reported % N
  /-- What is sent and not reported has been sent. -/
  pending : s.pending ≤ s.sent.length
  /-- Only descriptors that are reported have been cleared. -/
  cleared : s.cleared ≤ s.reported
  /-- The count of the semaphore agrees with its waiting writers. -/
  sem : s.osem.Ok
  /-- Permits, permits in use and packets accepted are the ring and what has been cleared. -/
  permits : s.osem.unused + s.writer.busy + s.numdesc.getD 0 + s.accepted.length = N + s.cleared
  /-- A handler runs only when no writer is past its wait. -/
  alone : s.numdesc ≠ none → s.writer = .outside
  /-- The packets of blocked writers fit into a descriptor. -/
  sizes : ∀ packet ∈ s.osem.blocked, packet.length < 2 ^ 16
  /-- The packet of a writer past its wait fits into a descriptor as well. -/
  own : ∀ packet, s.writer = .copy packet → packet.length < 2 ^ 16
  /-- A writer that is about to move `TDT` has filled the descriptor. -/
  copied : ∀ packet, s.writer = .publish packet → (s.txRing (s.accepted.length % N)).Holds packet
  /-- A packet that is not sent is in its descriptor. -/
  kept : ∀ p, (h : p < s.accepted.length) → s.sent.length ≤ p →
    (s.txRing (p % N)).Holds (s.accepted.get ⟨p, h⟩)
  /-- A descriptor that is sent and not reported asks for a report. -/
  asked : ∀ p, s.reported ≤ p → p < s.sent.length → (s.txRing (p % N)).lower &&& E1000_TXD_CMD_RS ≠ 0
  /-- One that is reported and not cleared has its done bit set. -/
  done : ∀ p, s.cleared ≤ p → p < s.reported → (s.txRing (p % N)).upper &&& E1000_TXD_STAT_DD ≠ 0
  /-- All others have it clear. -/
  clean : ∀ p, s.reported ≤ p → p < s.cleared + N → (s.txRing (p % N)).upper = 0
  /-- Packets are sent in the order in which they were accepted. -/
  sent : s.sent <+: s.accepted

/-- The descriptor that a writer fills holds its packet. -/
theorem holds_filled {packet : List UInt8} (hlen : packet.length < 2 ^ 16) (upper : ℕ) (buffer : ℕ → UInt8) :
    EthTxDesc.Holds ⟨E1000_TXD_CMD_IDE ||| E1000_TXD_CMD_RS |||
      E1000_TXD_CMD_IFCS ||| E1000_TXD_CMD_EOP ||| packet.length, upper,
      fun j => packet.getD j (buffer j)⟩ packet := by
  -- The command is in the high half.
  have hcmd : E1000_TXD_CMD_IDE ||| E1000_TXD_CMD_RS ||| E1000_TXD_CMD_IFCS |||
      E1000_TXD_CMD_EOP = 2 ^ 16 * 0x8B00 := by
    decide
  have hlower : 2 ^ 16 * 0x8B00 ||| packet.length = 2 ^ 16 * 0x8B00 + packet.length :=
    (Nat.two_pow_add_eq_or_of_lt hlen _).symm
  have hmod : (2 ^ 16 * 0x8B00 + packet.length) % 2 ^ 16 = packet.length := by omega
  rw [hcmd]
  constructor
  · unfold EthTxDesc.packet
    rw [hlower, hmod]
    refine List.ext_getElem (by simp) fun j h₁ h₂ => ?_
    simp [List.getD_eq_getElem?_getD, h₂]
  · intro h0
    rw [Nat.and_or_distrib_right] at h0
    exact absurd (Nat.or_eq_zero_iff.mp h0).1 (by decide)

/-- Positions of one ring are different descriptors. -/
theorem cells_ne {N c p q : ℕ} (hp : c ≤ p) (hpN : p < c + N) (hq : c ≤ q) (hqN : q < c + N) (hne : p ≠ q) :
    p % N ≠ q % N := by
  rcases Nat.lt_or_gt_of_ne hne with hlt | hgt
  · exact Ring.cell_ne (h := c) hlt hqN hp
  · exact (Ring.cell_ne (h := c) hgt hpN hq).symm

/-- The descriptor that is written back has the bit set that the interrupt handler tests. -/
theorem done_ne_zero (upper : ℕ) : (upper ||| E1000_TXD_STAT_DD) &&& E1000_TXD_STAT_DD ≠ 0 := by
  intro h0
  rw [Nat.and_or_distrib_right] at h0
  exact absurd (Nat.or_eq_zero_iff.mp h0).2 (by decide)

namespace EthTxRing.Ok

variable {s s' : EthTxRing} {N : ℕ}

/-- The parties follow each other, and none is more than a ring ahead. -/
theorem chase (h : s.Ok N) :
    s.cleared ≤ s.reported ∧ s.reported ≤ s.sent.length ∧ s.sent.length ≤ s.accepted.length ∧
    s.accepted.length + s.writer.busy + s.numdesc.getD 0 ≤ N + s.cleared := by
  have hp := h.permits
  have hu := h.sem.woken_le
  have hpend := h.pending
  exact ⟨h.cleared, Nat.sub_le _ _, h.sent.length_le, by omega⟩

/-- What the ring promises follows from the invariant. -/
theorem safe (h : s.Ok N) : s.Safe where
  order := h.sent
  permits := by
    have hp := h.permits
    rw [h.sem.unused_eq] at hp
    rw [h.size]
    omega
  cleared := h.chase.1.trans h.chase.2.1
  kept p hp hsent := by
    rw [h.size]
    exact (h.kept p hp hsent).packet

/-- The controller stops while there are packets if and only if they fill the ring. -/
theorem stopped (h : s.Ok N) : (s.tdh = s.tdt ∧ s.sent ≠ s.accepted) ↔ s.Stuck := by
  obtain ⟨hc, hr, hs, hroom⟩ := h.chase
  have hN : 0 < N := lt_of_le_of_lt (Nat.zero_le _) h.inside
  unfold EthTxRing.Stuck
  rw [h.tdh, h.tdt, h.size]
  constructor
  · rintro ⟨hmod, hne⟩
    have hlt : s.sent.length < s.accepted.length := lt_of_le_of_ne hs fun heq => hne (h.sent.eq_of_length heq)
    by_contra hfull
    exact Ring.cell_ne (h := s.sent.length) hlt (by omega) le_rfl hmod
  · intro hfull
    refine ⟨by rw [hfull, Nat.add_mod_right], fun heq => ?_⟩
    rw [heq] at hfull
    omega

/-! ## The controller -/

/-- The controller sends the next packet. -/
theorem transmit (h : s.Ok N) (he : s.transmit = some s') : s'.Ok N := by
  obtain ⟨hc, hr, hs, hroom⟩ := h.chase
  have hpend := h.pending
  unfold EthTxRing.transmit at he
  split at he
  · cases he
  next hne =>
    obtain rfl := Option.some.inj he
    have hlt : s.sent.length < s.accepted.length := by
      refine lt_of_le_of_ne hs fun heq => hne ?_
      rw [h.tdh, h.tdt, heq]
    obtain ⟨hpacket, hasks⟩ := h.kept _ hlt le_rfl
    have hlen : (s.sent ++ [(s.txRing s.tdh).packet]).length = s.sent.length + 1 := by simp
    have hreported : (s.sent ++ [(s.txRing s.tdh).packet]).length - (s.pending + 1) = s.reported := by
      rw [hlen, Nat.add_sub_add_right]
      rfl
    exact
      { size := h.size
        -- The controller sends the packet at its head, which lies in the ring since `copy`.
        head := h.head
        tail := h.tail
        inside := h.inside
        tdh := by
          show (s.tdh + 1) % s.txRingSize = _
          rw [hlen, h.size, h.tdh, Nat.mod_add_mod]
        tdt := h.tdt
        back := h.back.trans (congrArg (· % N) hreported.symm)
        pending := by
          show s.pending + 1 ≤ _
          rw [hlen]
          exact Nat.succ_le_succ hpend
        cleared := hc.trans_eq hreported.symm
        sem := h.sem
        permits := h.permits
        alone := h.alone
        sizes := h.sizes
        own := h.own
        copied := h.copied
        kept := fun p hp hsent => h.kept p hp (by rw [hlen] at hsent; omega)
        asked := by
          intro p hp hsent
          have hp' : s.reported ≤ p := hreported.symm.trans_le hp
          rw [hlen] at hsent
          rcases Nat.lt_succ_iff_lt_or_eq.mp hsent with hlt | rfl
          · exact h.asked p hp' hlt
          · exact hasks
        done := fun p hp hrep => h.done p hp (hrep.trans_eq hreported)
        clean := fun p hp hlt => h.clean p (hreported.symm.trans_le hp) hlt
        sent := by
          have htake := List.prefix_iff_eq_take.mp h.sent
          -- So the packets sent are one more of those accepted.
          have hsucc : s.accepted.take (s.sent.length + 1) = s.sent ++
              [s.accepted.get ⟨s.sent.length, hlt⟩] := by
            rw [List.take_succ_eq_append_getElem hlt, ← htake]
            rfl
          show s.sent ++ [(s.txRing s.tdh).packet] <+: s.accepted
          rw [h.tdh, hpacket, ← hsucc]
          exact List.take_prefix _ _ }

/-- The controller reports the first descriptor that it has not. -/
theorem writeBack (h : s.Ok N) (he : s.writeBack = some s') : s'.Ok N := by
  obtain ⟨hc, hr, hs, hroom⟩ := h.chase
  have hpend := h.pending
  unfold EthTxRing.writeBack at he
  split at he
  · cases he
  next hne =>
    have hlt : s.reported < s.sent.length := by
      unfold EthTxRing.reported
      omega
    have hreported : s.sent.length - (s.pending - 1) = s.reported + 1 := by
      unfold EthTxRing.reported
      omega
    have hasked := h.asked _ le_rfl hlt
    dsimp only at he
    rw [h.back, if_neg hasked] at he
    obtain rfl := Option.some.inj he
    -- Other positions are other descriptors.
    have hother : ∀ p, s.cleared ≤ p → p < s.cleared + N → p ≠ s.reported → p % N ≠ s.reported % N :=
      fun p hp hpN hne => cells_ne hp hpN hc (by omega) hne
    exact
      { size := h.size
        head := h.head
        tail := h.tail
        inside := h.inside
        tdh := h.tdh
        tdt := h.tdt
        back := by
          show (s.reported % N + 1) % s.txRingSize = (s.sent.length - (s.pending - 1)) % N
          rw [hreported, h.size, Nat.mod_add_mod]
        pending := (Nat.sub_le _ _).trans hpend
        cleared := by
          show s.cleared ≤ s.sent.length - (s.pending - 1)
          omega
        sem := h.sem
        permits := h.permits
        alone := h.alone
        sizes := h.sizes
        own := h.own
        copied := by
          intro packet hw
          have hbusy : s.writer.busy = 1 := by
            have hw' : s.writer = .publish packet := hw
            rw [hw']
            rfl
          dsimp only
          rw [Function.update_of_ne (hother _ (by omega) (by omega) (by omega))]
          exact h.copied packet hw
        kept := by
          intro p hp hsent
          dsimp only
          have hsent' : s.sent.length ≤ p := hsent
          have hp' : p < s.accepted.length := hp
          rw [Function.update_of_ne (hother p (by omega) (by omega) (by omega))]
          exact h.kept p hp hsent
        asked := by
          intro p hp hsent
          have hp' : s.reported + 1 ≤ p := hreported.symm.trans_le hp
          have hsent' : p < s.sent.length := hsent
          dsimp only
          rw [Function.update_of_ne (hother p (by omega) (by omega) (by omega))]
          exact h.asked p (by omega) hsent
        done := by
          intro p hp hrep
          have hrep' : p < s.reported + 1 := hrep.trans_eq hreported
          have hp' : s.cleared ≤ p := hp
          dsimp only
          by_cases hpr : p = s.reported
          · rw [hpr, Function.update_self]
            exact done_ne_zero _
          · rw [Function.update_of_ne (hother p hp' (by omega) hpr)]
            exact h.done p hp (by omega)
        clean := by
          intro p hp hlt
          have hp' : s.reported + 1 ≤ p := hreported.symm.trans_le hp
          have hlt' : p < s.cleared + N := hlt
          dsimp only
          rw [Function.update_of_ne (hother p (by omega) hlt' (by omega))]
          exact h.clean p (by omega) hlt
        sent := h.sent }

/-! ## The handler -/

/-- A round of the handler clears the descriptor at the head, which has been reported. -/
theorem eth_txPackets_clear (h : s.Ok N) {n : ℕ} (hn : s.numdesc = some n)
    (hgo : n < s.txRingSize ∧ (s.txRing s.txHead).upper &&& E1000_TXD_STAT_DD ≠ 0) :
    (s.eth_txPackets n).Ok N := by
  obtain ⟨hc, hr, hs, hroom⟩ := h.chase
  have hN : 0 < N := lt_of_le_of_lt (Nat.zero_le _) h.inside
  have hp := h.permits
  have hout := h.alone (by rw [hn]; exact Option.some_ne_none n)
  rw [hn, Option.getD_some] at hp hroom
  unfold EthTxRing.eth_txPackets
  dsimp only
  rw [if_pos hgo]
  -- The descriptor at the head is one that has been reported and not cleared.
  have hlt : s.cleared < s.reported := by
    refine lt_of_le_of_ne hc fun heq => hgo.2 ?_
    rw [h.head, h.clean _ heq.ge (by omega)]
    rfl
  -- Clearing it touches no other place of the ring.
  have hother : ∀ p, s.cleared ≤ p → p < s.cleared + N → p ≠ s.cleared → p % N ≠ s.cleared % N :=
    fun p hp hpN hne => cells_ne hp hpN le_rfl (by omega) hne
  exact
    { size := h.size
      head := by
        show (s.txHead + 1) % s.txRingSize = _
        rw [h.size, h.head, Nat.mod_add_mod]
      tail := h.tail
      inside := h.inside
      tdh := h.tdh
      tdt := h.tdt
      back := h.back
      pending := h.pending
      cleared := hlt
      sem := h.sem
      permits := by
        show s.osem.unused + s.writer.busy + ((n + 1 : ℕ) : ℤ) +
          s.accepted.length = N + ((s.cleared + 1 : ℕ) : ℤ)
        push_cast
        omega
      alone := fun _ => hout
      sizes := h.sizes
      own := h.own
      copied := by
        intro packet hw
        have hw' : s.writer = .publish packet := hw
        rw [hout] at hw'
        cases hw'
      kept := by
        intro p hp hsent
        have hp' : p < s.accepted.length := hp
        have hsent' : s.sent.length ≤ p := hsent
        dsimp only
        rw [h.head, Function.update_of_ne (hother p (by omega) (by omega) (by omega))]
        exact h.kept p hp hsent
      asked := by
        intro p hp hsent
        have hp' : s.reported ≤ p := hp
        have hsent' : p < s.sent.length := hsent
        dsimp only
        rw [h.head, Function.update_of_ne (hother p (by omega) (by omega) (by omega))]
        exact h.asked p hp hsent
      done := by
        intro p hp hrep
        have hp' : s.cleared + 1 ≤ p := hp
        have hrep' : p < s.reported := hrep
        dsimp only
        rw [h.head, Function.update_of_ne (hother p (by omega) (by omega) (by omega))]
        exact h.done p (by omega) hrep
      clean := by
        intro p hp hltN
        have hp' : s.reported ≤ p := hp
        have hltN' : p < s.cleared + 1 + N := hltN
        dsimp only
        by_cases hpN : p = s.cleared + N
        · rw [h.head, hpN, Nat.add_mod_right, Function.update_self]
        · rw [h.head, Function.update_of_ne (hother p (by omega) (by omega) (by omega))]
          exact h.clean p hp (by omega)
      sent := h.sent }

/-- When nothing is left to clear, the permits that were counted go back. -/
theorem eth_txPackets_signaln (h : s.Ok N) {n : ℕ} (hn : s.numdesc = some n)
    (hgo : ¬ (n < s.txRingSize ∧ (s.txRing s.txHead).upper &&& E1000_TXD_STAT_DD ≠ 0)) :
    (s.eth_txPackets n).Ok N := by
  have hp := h.permits
  rw [hn, Option.getD_some] at hp
  unfold EthTxRing.eth_txPackets
  dsimp only
  rw [if_neg hgo]
  exact
    { size := h.size
      head := h.head
      tail := h.tail
      inside := h.inside
      tdh := h.tdh
      tdt := h.tdt
      back := h.back
      pending := h.pending
      cleared := h.cleared
      sem := h.sem.signaln
      permits := by
        show (s.osem.signaln n).unused + s.writer.busy + ((0 : ℕ) : ℤ) + s.accepted.length = N + s.cleared
        rw [h.sem.unused_signaln]
        push_cast
        omega
      alone := fun hne => absurd rfl hne
      sizes := by
        intro packet hmem
        exact h.sizes packet (h.sem.blocked_signaln ▸ hmem)
      own := h.own
      copied := h.copied
      kept := h.kept
      asked := h.asked
      done := h.done
      clean := h.clean
      sent := h.sent }

/-- A round of the handler clears a descriptor that has been reported, and the end of its loop hands
the permits back. -/
theorem eth_txPackets (h : s.Ok N) {n : ℕ} (hn : s.numdesc = some n) : (s.eth_txPackets n).Ok N := by
  by_cases hgo : n < s.txRingSize ∧ (s.txRing s.txHead).upper &&& E1000_TXD_STAT_DD ≠ 0
  · exact h.eth_txPackets_clear hn hgo
  · exact h.eth_txPackets_signaln hn hgo

/-! ## The writers -/

/-- A change of the semaphore and of the writer behind `wait`, which has not filled a descriptor. -/
theorem withWriter (h : s.Ok N) (hfree : s.Free) {sem : Semaphore (List UInt8)}
    {writer : EthWriter} (hsem : sem.Ok)
    (hpermits : sem.unused + writer.busy = s.osem.unused)
    (hwriter : writer = .outside ∨ ∃ packet, writer = .copy packet ∧ packet.length < 2 ^ 16)
    (hsizes : ∀ packet ∈ sem.blocked, packet.length < 2 ^ 16) :
    EthTxRing.Ok { s with osem := sem, writer := writer } N := by
  obtain ⟨hno, hout⟩ := hfree
  have hp := h.permits
  have htail := h.tail
  rw [hout] at hp htail
  -- Outside the body the tail of the ring is where the controller sees it.
  have hlate : writer.late = 0 := by
    rcases hwriter with rfl | ⟨packet, rfl, -⟩ <;> rfl
  have hnot : ∀ packet, writer ≠ .publish packet := by
    rintro packet rfl
    rcases hwriter with hw | ⟨packet', hw, -⟩ <;> cases hw
  exact
    { size := h.size
      head := h.head
      tail := by
        show (s.txTail + writer.late) % N = _
        rw [hlate]
        exact htail
      inside := h.inside
      tdh := h.tdh
      tdt := h.tdt
      back := h.back
      pending := h.pending
      cleared := h.cleared
      sem := hsem
      permits := by
        have hzero : EthWriter.outside.busy = 0 := rfl
        show sem.unused + writer.busy + s.numdesc.getD 0 + s.accepted.length = N + s.cleared
        rw [hzero] at hp
        omega
      alone := fun hne => absurd hno hne
      sizes := hsizes
      own := by
        intro packet hw
        have hw' : writer = .copy packet := hw
        rcases hwriter with rfl | ⟨packet', rfl, hlen⟩
        · cases hw'
        · cases hw'
          exact hlen
      copied := fun packet hw => absurd hw (hnot packet)
      kept := h.kept
      asked := h.asked
      done := h.done
      clean := h.clean
      sent := h.sent }

/-- A process goes on to the body with a permit, or waits. -/
theorem ethwrite (h : s.Ok N) (hfree : s.Free) (buf : ℕ → UInt8) (len : ℤ) : (s.ethwrite buf len).Ok N := by
  unfold EthTxRing.ethwrite
  split
  next => exact h
  next hcheck =>
    have hmax : ETH_MAX_PKT_LEN = 1518 := rfl
    have hlen : ((List.range len.toNat).map buf).length < 2 ^ 16 := by
      rw [List.length_map, List.length_range]
      omega
    dsimp only
    generalize (List.range len.toNat).map buf = packet at hlen ⊢
    -- With a permit the writer goes on to copy; without one its packet waits in the queue.
    cases hk : (s.osem.wait packet).1 with
    | true =>
      have hunused := Semaphore.unused_wait_go hk
      have hblocked := Semaphore.blocked_wait_go hk
      refine h.withWriter hfree h.sem.wait ?_ (Or.inr ⟨packet, rfl, hlen⟩) fun q hq =>
        h.sizes q (hblocked ▸ hq)
      show (s.osem.wait packet).2.unused + ((1 : ℕ) : ℤ) = _
      omega
    | false =>
      have hunused := Semaphore.unused_wait_block hk
      have hblocked := Semaphore.blocked_wait_block hk
      have hsizes : ∀ q ∈ (s.osem.wait packet).2.blocked, q.length < 2 ^ 16 := by
        intro q hq
        rw [hblocked] at hq
        rcases List.mem_append.mp hq with hq | hq
        · exact h.sizes q hq
        · rw [List.mem_singleton.mp hq]
          exact hlen
      refine h.withWriter hfree h.sem.wait ?_ (Or.inl hfree.2) hsizes
      show (s.osem.wait packet).2.unused + (s.writer.busy : ℤ) = _
      rw [hfree.2]
      show (s.osem.wait packet).2.unused + ((0 : ℕ) : ℤ) = _
      omega

/-- A woken writer goes on with the permit of the signal. -/
theorem resume (h : s.Ok N) (hfree : s.Free) {i : ℕ} {packet : List UInt8} {sem : Semaphore (List UInt8)}
    (hr : s.osem.resume i = some (packet, sem)) :
    EthTxRing.Ok { s with osem := sem, writer := .copy packet } N := by
  have hblocked := Semaphore.blocked_resume hr
  have hunused := Semaphore.unused_resume hr
  refine h.withWriter hfree (h.sem.resume hr) ?_ (Or.inr ⟨packet, rfl, ?_⟩) fun q hq => ?_
  · show sem.unused + ((1 : ℕ) : ℤ) = _
    omega
  · exact h.sizes packet (hblocked.mem_iff.mpr List.mem_cons_self)
  · exact h.sizes q (hblocked.mem_iff.mpr (List.mem_cons_of_mem _ hq))

/-- The writer fills the descriptor behind the packets that the controller has. -/
theorem copy (h : s.Ok N) (hno : s.numdesc = none) {packet : List UInt8}
    (hw : s.writer = .copy packet) {d : EthTxDesc} (hd : d.Holds packet)
    (hupper : d.upper = 0) :
    EthTxRing.Ok { s with txRing := Function.update s.txRing s.txTail d, writer := .publish packet } N := by
  obtain ⟨hc, hr, hs, hroom⟩ := h.chase
  have hp := h.permits
  have htail := h.tail
  have hbusy : s.writer.busy = 1 ∧ s.writer.late = 0 := by
    rw [hw]
    exact ⟨rfl, rfl⟩
  rw [hbusy.1] at hp hroom
  rw [hbusy.2] at htail
  -- The place at the tail is the one behind all accepted packets, and free by the permit.
  have hplace : s.txTail = s.accepted.length % N := by
    rw [← htail, Nat.add_zero, Nat.mod_eq_of_lt h.inside]
  have hother : ∀ p, s.cleared ≤ p → p < s.cleared + N → p ≠ s.accepted.length →
      p % N ≠ s.accepted.length % N :=
    fun p hp hpN hne => cells_ne hp hpN (by omega) (by omega) hne
  exact
    { size := h.size
      head := h.head
      tail := htail
      inside := h.inside
      tdh := h.tdh
      tdt := h.tdt
      back := h.back
      pending := h.pending
      cleared := h.cleared
      sem := h.sem
      permits := hp
      alone := fun hne => absurd hno hne
      sizes := h.sizes
      own := fun packet' hw' => EthWriter.noConfusion hw'
      copied := by
        intro packet' hw'
        obtain rfl : packet = packet' := EthWriter.publish.inj hw'
        dsimp only
        rw [hplace, Function.update_self]
        exact hd
      -- Only this place changes, so what is known of the others stays.
      kept := by
        intro p hpa hsent
        have hpa' : p < s.accepted.length := hpa
        have hsent' : s.sent.length ≤ p := hsent
        dsimp only
        rw [hplace, Function.update_of_ne (hother p (by omega) (by omega) (by omega))]
        exact h.kept p hpa hsent
      asked := by
        intro p hpr hsent
        have hpr' : s.reported ≤ p := hpr
        have hsent' : p < s.sent.length := hsent
        dsimp only
        rw [hplace, Function.update_of_ne (hother p (by omega) (by omega) (by omega))]
        exact h.asked p hpr hsent
      done := by
        intro p hpc hrep
        have hpc' : s.cleared ≤ p := hpc
        have hrep' : p < s.reported := hrep
        dsimp only
        rw [hplace, Function.update_of_ne (hother p (by omega) (by omega) (by omega))]
        exact h.done p hpc hrep
      clean := by
        intro p hpr hpN
        have hpr' : s.reported ≤ p := hpr
        have hpN' : p < s.cleared + N := hpN
        dsimp only
        by_cases hpa : p = s.accepted.length
        · rw [hplace, hpa, Function.update_self]
          exact hupper
        · rw [hplace, Function.update_of_ne (hother p (by omega) hpN' hpa)]
          exact h.clean p hpr hpN
      sent := h.sent }

/-- The packet is handed to the controller. -/
theorem publish (h : s.Ok N) (hno : s.numdesc = none) {packet : List UInt8}
    (hw : s.writer = .publish packet) :
    EthTxRing.Ok
      { s with tdt := (s.tdt + 1) % s.txRingSize, accepted := s.accepted ++ [packet], writer := .advance }
      N := by
  obtain ⟨hc, hr, hs, hroom⟩ := h.chase
  have hp := h.permits
  have htail := h.tail
  have hbusy : s.writer.busy = 1 ∧ s.writer.late = 0 := by
    rw [hw]
    exact ⟨rfl, rfl⟩
  rw [hbusy.1] at hp
  rw [hbusy.2] at htail
  have hlen : (s.accepted ++ [packet]).length = s.accepted.length + 1 := by simp
  exact
    { size := h.size
      head := h.head
      tail := by
        show (s.txTail + 1) % N = (s.accepted ++ [packet]).length % N
        rw [hlen, ← Nat.mod_add_mod, ← Nat.add_zero s.txTail, htail, Nat.mod_add_mod]
      inside := h.inside
      tdh := h.tdh
      tdt := by
        show (s.tdt + 1) % s.txRingSize = (s.accepted ++ [packet]).length % N
        rw [hlen, h.size, h.tdt, Nat.mod_add_mod]
      back := h.back
      pending := h.pending
      cleared := h.cleared
      sem := h.sem
      permits := by
        show s.osem.unused + ((0 : ℕ) : ℤ) + s.numdesc.getD 0 +
          ((s.accepted ++ [packet]).length : ℤ) = N + s.cleared
        rw [hlen]
        push_cast at hp ⊢
        omega
      alone := fun hne => absurd hno hne
      sizes := h.sizes
      own := fun packet' hw' => EthWriter.noConfusion hw'
      copied := fun packet' hw' => EthWriter.noConfusion hw'
      kept := by
        intro p hpa hsent
        have hpa' : p < s.accepted.length + 1 := hlen ▸ hpa
        show (s.txRing (p % N)).Holds ((s.accepted ++ [packet]).get ⟨p, hpa⟩)
        -- The packets before are in their places, and the new one is where `copy` put it.
        rcases Nat.lt_succ_iff_lt_or_eq.mp hpa' with hlt | rfl
        · have hget : (s.accepted ++ [packet]).get ⟨p, hpa⟩ = s.accepted.get ⟨p, hlt⟩ :=
            List.getElem_append_left hlt
          rw [hget]
          exact h.kept p hlt hsent
        · have hget : (s.accepted ++ [packet]).get ⟨s.accepted.length, hpa⟩ = packet :=
            List.getElem_concat_length rfl _
          rw [hget]
          exact h.copied packet hw
      asked := h.asked
      done := h.done
      clean := h.clean
      sent := h.sent.trans (List.prefix_append _ _) }

/-- The writer moves the tail of the ring behind the packet that it has put there. -/
theorem advance (h : s.Ok N) (hno : s.numdesc = none) (hw : s.writer = .advance) :
    EthTxRing.Ok { s with txTail := (s.txTail + 1) % s.txRingSize, writer := .outside } N := by
  have hp := h.permits
  have htail := h.tail
  have hbusy : s.writer.busy = 0 ∧ s.writer.late = 1 := by
    rw [hw]
    exact ⟨rfl, rfl⟩
  rw [hbusy.1] at hp
  rw [hbusy.2] at htail
  exact
    { size := h.size
      head := h.head
      -- The tail of the ring now agrees with that of the controller.
      tail := by
        show ((s.txTail + 1) % s.txRingSize + 0) % N = _
        rw [h.size, Nat.add_zero, Nat.mod_mod, htail]
      inside := by
        show (s.txTail + 1) % s.txRingSize < N
        rw [h.size]
        exact Nat.mod_lt _ (lt_of_le_of_lt (Nat.zero_le _) h.inside)
      tdh := h.tdh
      tdt := h.tdt
      back := h.back
      pending := h.pending
      cleared := h.cleared
      sem := h.sem
      permits := hp
      alone := fun hne => absurd hno hne
      sizes := h.sizes
      own := fun packet' hw' => EthWriter.noConfusion hw'
      copied := fun packet' hw' => EthWriter.noConfusion hw'
      kept := h.kept
      asked := h.asked
      done := h.done
      clean := h.clean
      sent := h.sent }

/-- A step of the body. -/
theorem body (h : s.Ok N) (hno : s.numdesc = none) (he : s.body = some s') : s'.Ok N := by
  unfold EthTxRing.body at he
  cases hw : s.writer with
  | outside =>
    rw [hw] at he
    cases he
  | copy packet =>
    rw [hw] at he
    obtain rfl := Option.some.inj he
    exact h.copy hno hw (holds_filled (h.own packet hw) _ _) rfl
  | publish packet =>
    rw [hw] at he
    obtain rfl := Option.some.inj he
    exact h.publish hno hw
  | advance =>
    rw [hw] at he
    obtain rfl := Option.some.inj he
    exact h.advance hno hw

/-! ## Runs -/

/-- At the beginning the ring is empty. -/
theorem init (hN : 0 < N) : (EthTxRing.init N).Ok N where
  size := rfl
  head := (Nat.zero_mod N).symm
  tail := rfl
  inside := hN
  tdh := (Nat.zero_mod N).symm
  tdt := (Nat.zero_mod N).symm
  back := (Nat.zero_mod N).symm
  pending := le_rfl
  cleared := le_rfl
  sem := Semaphore.Ok.create (Int.natCast_nonneg N)
  permits := by
    show (Semaphore.create (N : ℤ) : Semaphore (List UInt8)).unused +
      ((0 : ℕ) : ℤ) + ((0 : ℕ) : ℤ) + ((0 : ℕ) : ℤ) = N + ((0 : ℕ) : ℤ)
    rw [Semaphore.unused_create]
    omega
  alone := fun hne => absurd rfl hne
  sizes := fun packet hmem => absurd hmem List.not_mem_nil
  own := fun packet hw => EthWriter.noConfusion hw
  copied := fun packet hw => EthWriter.noConfusion hw
  kept := fun p hp => absurd hp (Nat.not_lt_zero p)
  asked := fun p _ hp => absurd hp (Nat.not_lt_zero p)
  done := fun p _ hp => absurd hp (Nat.not_lt_zero p)
  clean := fun p _ _ => rfl
  sent := List.nil_prefix

/-- Every step of a writer, of the controller or of the handler keeps the invariant. -/
theorem exec (h : s.Ok N) {e : EthTxEvent} (he : s.Exec e s') : s'.Ok N := by
  cases he with
  | transmit he => exact h.transmit he
  | writeBack he => exact h.writeBack he
  | interrupt hfree =>
    have hp := h.permits
    rw [hfree.1] at hp
    exact ⟨h.size, h.head, h.tail, h.inside, h.tdh, h.tdt, h.back,
      h.pending, h.cleared, h.sem, hp, fun _ => hfree.2, h.sizes, h.own, h.copied, h.kept,
      h.asked, h.done, h.clean, h.sent⟩
  | eth_txPackets hn => exact h.eth_txPackets hn
  | up =>
    exact ⟨h.size, h.head, h.tail, h.inside, h.tdh, h.tdt, h.back,
      h.pending, h.cleared, h.sem, h.permits, h.alone, h.sizes, h.own, h.copied, h.kept,
      h.asked, h.done, h.clean, h.sent⟩
  | ethwrite buf len hfree => exact h.ethwrite hfree buf len
  | resume hfree hr => exact h.resume hfree hr
  | body hno he => exact h.body hno he

/-- Every run keeps the invariant, in whatever order the writers and the controller take turns. -/
theorem steps (h : s.Ok N) (hsteps : EthTxSteps s s') : s'.Ok N := by
  induction hsteps with
  | refl => exact h
  | step _ he ih => exact ih.exec he

end EthTxRing.Ok

/-- Steps from a state that steps have reached. -/
theorem EthTxSteps.trans {s s₁ s₂ : EthTxRing} (h : EthTxSteps s s₁) (h' : EthTxSteps s₁ s₂) :
    EthTxSteps s s₂ := by
  induction h' with
  | refl => exact h
  | step _ he ih => exact ih.step he

/-- Nothing is sent when the ring is full of packets that have not been sent, and it stays full. -/
theorem EthTxRing.Stuck.exec {s s' : EthTxRing} {N : ℕ}
    (hstuck : s.Stuck) (h : s.Ok N) {e : EthTxEvent} (he : s.Exec e s') :
    s'.sent = s.sent ∧ s'.Stuck := by
  cases he with
  | transmit he =>
    have hstop := (h.stopped.mpr hstuck).1
    unfold EthTxRing.transmit at he
    rw [if_pos hstop] at he
    cases he
  | writeBack he =>
    unfold EthTxRing.writeBack at he
    split at he
    · cases he
    · obtain rfl := Option.some.inj he
      exact ⟨rfl, hstuck⟩
  | interrupt hfree => exact ⟨rfl, hstuck⟩
  | eth_txPackets hn =>
    unfold EthTxRing.eth_txPackets
    dsimp only
    split
    · exact ⟨rfl, hstuck⟩
    · exact ⟨rfl, hstuck⟩
  | up => exact ⟨rfl, hstuck⟩
  | ethwrite buf len hfree =>
    unfold EthTxRing.ethwrite
    split
    · exact ⟨rfl, hstuck⟩
    · exact ⟨rfl, hstuck⟩
  | resume hfree hr => exact ⟨rfl, hstuck⟩
  | body hno he =>
    -- No writer has a permit, so that none hands a packet over.
    have hroom := h.chase
    have hfull : s.accepted.length = s.sent.length + N := hstuck.trans (by rw [h.size])
    unfold EthTxRing.body at he
    cases hw : s.writer with
    | outside =>
      rw [hw] at he
      cases he
    | copy packet =>
      rw [hw] at he
      obtain rfl := Option.some.inj he
      exact ⟨rfl, hstuck⟩
    | publish packet =>
      have hbusy : s.writer.busy = 1 := by
        rw [hw]
        rfl
      omega
    | advance =>
      rw [hw] at he
      obtain rfl := Option.some.inj he
      exact ⟨rfl, hstuck⟩

/-- A process writes a packet when there is a permit. -/
theorem EthTxRing.write_packet {s : EthTxRing} (hup : s.up = true)
    (hfree : s.Free) (hcount : 0 < s.osem.count) : ∃ s', EthTxSteps s s' ∧
    (s'.up = true ∧ s'.Free) ∧ s'.accepted.length = s.accepted.length + 1 ∧
    s'.sent = s.sent ∧ s'.osem.count = s.osem.count - 1 ∧
      s'.txRingSize = s.txRingSize := by
  let buf : ℕ → UInt8 := fun _ => 0
  let packet := (List.range (17 : ℤ).toNat).map buf
  have hgo : (s.osem.wait packet).1 = true := Semaphore.wait_go.mpr hcount
  have hwrite : s.ethwrite buf 17 = { s with osem := (s.osem.wait packet).2, writer := .copy packet } := by
    have hcheck : ¬ (¬ s.up ∨ (17 : ℤ) < ETH_HDR_LEN ∨ (17 : ℤ) > ETH_MAX_PKT_LEN ∨ (17 : ℤ) < 17) := by
      rw [hup]
      decide
    unfold EthTxRing.ethwrite
    rw [if_neg hcheck]
    dsimp only
    rw [if_pos hgo]
  have h₁ : EthTxSteps s { s with osem := (s.osem.wait packet).2, writer := .copy packet } := by
    rw [← hwrite]
    exact EthTxSteps.refl.step (.ethwrite buf 17 hfree)
  have h₂ := h₁.step (.body hfree.1 rfl)
  have h₃ := h₂.step (.body hfree.1 rfl)
  have h₄ := h₃.step (.body hfree.1 rfl)
  exact ⟨_, h₄, ⟨hup, hfree.1, rfl⟩, by simp, rfl, Semaphore.count_wait, rfl⟩

/-- As many packets as there are descriptors can be written before one is sent. -/
theorem EthTxRing.write_packets (N : ℕ) : ∀ k ≤ N, ∃ s, EthTxSteps (EthTxRing.init N) s ∧
    (s.up = true ∧ s.Free) ∧ s.accepted.length = k ∧ s.sent = [] ∧
    s.osem.count = N - k ∧ s.txRingSize = N
  | 0, _ => ⟨_, EthTxSteps.refl.step .up, ⟨rfl, rfl, rfl⟩, rfl, rfl, (sub_zero _).symm, rfl⟩
  | k + 1, hk => by
    obtain ⟨s, hsteps, ⟨hup, hfree⟩, hlen, hsent, hcount, hsize⟩ := write_packets N k (Nat.le_of_succ_le hk)
    obtain ⟨s', hsteps', hup', hlen', hsent', hcount', hsize'⟩ := s.write_packet hup hfree (by omega)
    refine ⟨s', hsteps.trans hsteps', hup', by omega, hsent'.trans hsent, ?_, hsize'.trans hsize⟩
    rw [hcount', hcount]
    push_cast
    omega

/-- In every run of the writers, the controller and the handler, packets are sent as they were
written and in order, and a descriptor is filled again only when its packet has been sent. The
controller stops with packets in the ring if and only if they fill the ring, which can happen, and
then nothing is sent any more. -/
theorem eth_transmit {N : ℕ} (hN : 0 < N) :
    (∀ s, EthTxSteps (EthTxRing.init N) s → s.Safe ∧ ((s.tdh = s.tdt ∧ s.sent ≠ s.accepted) ↔ s.Stuck) ∧
      (s.Stuck → ∀ s', EthTxSteps s s' → s'.sent = s.sent)) ∧
      ∃ s, EthTxSteps (EthTxRing.init N) s ∧ s.Stuck := by
  constructor
  · intro s hsteps
    have h := (EthTxRing.Ok.init hN).steps hsteps
    refine ⟨h.safe, h.stopped, fun hstuck s' hsteps' => ?_⟩
    have hkeeps : s'.sent = s.sent ∧ s'.Stuck := by
      induction hsteps' with
      | refl => exact ⟨rfl, hstuck⟩
      | step hbefore he ih =>
        obtain ⟨hsent, hstuck'⟩ := ih
        obtain ⟨hsent', hstuck''⟩ := hstuck'.exec (h.steps hbefore) he
        exact ⟨hsent'.trans hsent, hstuck''⟩
    exact hkeeps.1
  · obtain ⟨s, hsteps, -, hlen, hsent, -, hsize⟩ := EthTxRing.write_packets N N le_rfl
    refine ⟨s, hsteps, ?_⟩
    unfold EthTxRing.Stuck
    rw [hlen, hsent, hsize]
    exact (Nat.zero_add N).symm

/-- The ring with the size in the source keeps its promises, and a run gets it stuck. -/
theorem eth_transmit_sixteen :
    (∀ s, EthTxSteps (EthTxRing.init E1000_TX_RING_SIZE) s →
      s.Safe ∧ ((s.tdh = s.tdt ∧ s.sent ≠ s.accepted) ↔ s.Stuck) ∧
      (s.Stuck → ∀ s', EthTxSteps s s' → s'.sent = s.sent)) ∧
      ∃ s, EthTxSteps (EthTxRing.init E1000_TX_RING_SIZE) s ∧ s.Stuck :=
  eth_transmit (by decide)

end Xinu
