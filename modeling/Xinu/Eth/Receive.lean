import Xinu.Lib.Ring
import Xinu.Lib.Semaphore

/-!
# The receive ring of the Ethernet

`ethread`, `eth_rxPackets` and the ring that `_82545EM_configure_rx` sets up. Three parties go round
the ring: the controller, which stores packets in the descriptors from `RDH` on and stops at `RDT`;
the interrupt handler, which moves `rxTail` over the descriptors that have been filled; and one
reader, which takes packets out at `rxHead` and gives descriptors back in groups. The controller may
store a packet between any two steps of the others. `read` disables interrupts around `ethread`, so
that the handler starts only while the reader is outside or waits for `isem`, and runs to its end
before the reader goes on. Indices are below the size of a ring in memory, and do not wrap in 32
bits.
-/

namespace Xinu

/-- `E1000_RING_BOUNDARY`. -/
abbrev E1000_RING_BOUNDARY : ℕ := 16

/-- `E1000_RXD_STAT_DD`. -/
abbrev E1000_RXD_STAT_DD : ℕ := 0x01

/-- `ETH_HDR_LEN`. -/
abbrev ETH_HDR_LEN : ℤ := 14

/-- The fields of `struct eth_rx_desc` that are read, with the buffer that the descriptor points to. -/
structure EthRxDesc where
  /-- How many bytes the controller has stored. -/
  length : ℕ
  /-- The status byte, with the done bit. -/
  status : ℕ
  /-- The bytes of the buffer. -/
  buffer : ℕ → UInt8

/-- The packet in the buffer of a descriptor. -/
def EthRxDesc.packet (d : EthRxDesc) : List UInt8 := (List.range d.length).map d.buffer

/-- What the reader does next: it calls `ethread`, waits for `isem`, or is at a step of the body. -/
inductive EthReader where
  | idle
  | blocked
  | pick
  | clear
  | reclaim
  | advance
  deriving DecidableEq

/-- A read that is promised to the reader, which has gone on behind `wait`. -/
def EthReader.busy : EthReader → ℕ
  | .idle | .blocked => 0
  | _ => 1

/-- The fields of `struct ethcblk` for input, with the registers `RDH` and `RDT` of the controller,
the count of the loop that a handler is in, the packets that the controller has stored, those that
the handler has counted, and the results of the reader. -/
structure EthRing where
  /-- The number of descriptors. -/
  rxRingSize : ℕ
  /-- The descriptors. -/
  rxRing : ℕ → EthRxDesc
  /-- The descriptor that the reader takes next. -/
  rxHead : ℕ
  /-- The descriptor that the handler counts next. -/
  rxTail : ℕ
  /-- The semaphore that counts the packets for the reader. -/
  isem : Semaphore Unit
  /-- The register `RDH`: the descriptor that the controller fills next. -/
  rdh : ℕ
  /-- The register `RDT`: the end of the descriptors that it may fill. -/
  rdt : ℕ
  /-- The state is `ETH_STATE_UP`. -/
  up : Bool
  /-- Where the reader is in `ethread`. -/
  reader : EthReader
  /-- How many packets the handler has counted in its loop, if one is running. -/
  numdesc : Option ℕ
  /-- The packets that the controller has stored, in order of arrival. -/
  arrived : List (List UInt8)
  /-- Those that a handler has counted. -/
  counted : List (List UInt8)
  /-- Nothing stands for `SYSERR`. -/
  delivered : List (Option (List UInt8))

namespace EthRing

/-- The receive part of `_82545EMInit`, with `_82545EM_configure_rx`. -/
def init (rxRingSize : ℕ) : EthRing where
  rxRingSize := rxRingSize
  rxRing _ := ⟨0, 0, fun _ => 0⟩
  rxHead := 0
  rxTail := 0
  isem := Semaphore.create 0
  rdh := 0
  rdt := rxRingSize - E1000_RING_BOUNDARY
  up := false
  reader := .idle
  numdesc := none
  arrived := []
  counted := []
  delivered := []

/-- The controller stores a packet, or drops it if it has no descriptor. -/
def receive (s : EthRing) (packet : List UInt8) (status : ℕ) : EthRing :=
  if s.rdh = s.rdt then s
  else
    let d := s.rxRing s.rdh
    { s with
      rxRing := Function.update s.rxRing s.rdh ⟨packet.length, status, fun j => packet.getD j (d.buffer j)⟩
      rdh := (s.rdh + 1) % s.rxRingSize
      arrived := s.arrived ++ [packet] }

/-- One round of the loop of `eth_rxPackets`, or the end of the loop and `signaln`. -/
def eth_rxPackets (s : EthRing) (numdesc : ℕ) : EthRing :=
  let descptr := s.rxRing s.rxTail
  if numdesc < s.rxRingSize ∧ descptr.status ≠ 0 then
    { s with rxTail := (s.rxTail + 1) % s.rxRingSize, numdesc := some (numdesc + 1),
             counted := s.counted ++ [descptr.packet] }
  else { s with isem := s.isem.signaln numdesc, numdesc := none }

/-- The first part of `ethread(devptr, buf, len)`, up to `wait`. -/
def ethread (s : EthRing) (len : ℤ) : EthRing :=
  if ¬ s.up ∨ len < ETH_HDR_LEN then s
  else
    let r := s.isem.wait ()
    { s with isem := r.2, reader := if r.1 then .pick else .blocked }

/-- The steps of the body of `ethread`. -/
def body (s : EthRing) : Option EthRing :=
  let descptr := s.rxRing s.rxHead
  match s.reader with
  | .pick =>
    let retval := if descptr.status &&& E1000_RXD_STAT_DD = 0 then none else some descptr.packet
    some { s with reader := .clear, delivered := s.delivered ++ [retval] }
  | .clear =>
    some { s with reader := .reclaim, rxRing := Function.update s.rxRing s.rxHead ⟨0, 0, fun _ => 0⟩ }
  | .reclaim =>
    -- The test is made with the old head, so that a group is handed back when the first descriptor of the
    -- next one has been read.
    let rdt := if s.rxHead % E1000_RING_BOUNDARY = 0 then (s.rdt + E1000_RING_BOUNDARY) %
      s.rxRingSize else s.rdt
    some { s with reader := .advance, rdt := rdt }
  | .advance => some { s with reader := .idle, rxHead := (s.rxHead + 1) % s.rxRingSize }
  | _ => none

end EthRing

/-- What may happen next. -/
inductive EthEvent where
  /-- A packet arrives. The controller sets the bit `DD` of the status. -/
  | receive (packet : List UInt8) (status : ℕ) (done : status &&& E1000_RXD_STAT_DD ≠ 0)
  /-- A receive interrupt. -/
  | interrupt
  /-- The handler goes on. -/
  | eth_rxPackets
  /-- The end of `ethinit`. -/
  | up
  /-- The reader calls `ethread`. -/
  | ethread (len : ℤ)
  /-- The reader has been woken, and runs. -/
  | resume
  /-- The reader goes on in the body. -/
  | body

/-- One step: nothing, if it cannot happen. -/
def EthRing.exec (s : EthRing) : EthEvent → Option EthRing
  | .receive packet status _ => some (s.receive packet status)
  | .interrupt => if s.numdesc = none ∧ s.reader.busy = 0 then some { s with numdesc := some 0 } else none
  | .eth_rxPackets => s.numdesc.map s.eth_rxPackets
  | .up => some { s with up := true }
  | .ethread len => if s.numdesc = none ∧ s.reader = .idle then some (s.ethread len) else none
  | .resume =>
    if s.numdesc = none then (s.isem.resume 0).map fun r => { s with isem := r.2, reader := .pick } else none
  | .body => if s.numdesc = none then s.body else none

/-- The states of all runs. -/
inductive EthRun (rxRingSize : ℕ) : EthRing → Prop where
  | init : EthRun rxRingSize (EthRing.init rxRingSize)
  | step {s s' : EthRing} {e : EthEvent} : EthRun rxRingSize s → s.exec e = some s' → EthRun rxRingSize s'

/-! ## What the ring promises -/

/-- The descriptors from `rxHead` to `rxTail`. -/
def EthRing.count (s : EthRing) : ℕ := (s.rxTail + s.rxRingSize - s.rxHead) % s.rxRingSize

/-- The descriptors from `RDH` to `RDT`, which the controller may fill. -/
def EthRing.free (s : EthRing) : ℕ := (s.rdt + s.rxRingSize - s.rdh) % s.rxRingSize

/-- The reader has taken the packet, and the head has not advanced. -/
def EthReader.taken : EthReader → ℕ
  | .clear | .reclaim | .advance => 1
  | _ => 0

/-- The reader has cleared the descriptor, and the head has not advanced. -/
def EthReader.cleared : EthReader → ℕ
  | .reclaim | .advance => 1
  | _ => 0

/-- The reader has made the test for a group, and the head has not advanced. -/
def EthReader.handed : EthReader → ℕ
  | .advance => 1
  | _ => 0

/-- What holds between any two steps. The packets that are not delivered are in the filled
descriptors in the order of arrival, and the descriptors that the controller may fill are empty. -/
structure EthRing.Safe (s : EthRing) : Prop where
  /-- The permits, those given to the reader, and those that the handler has not signalled yet are the packets
  that are not read. -/
  count : (s.count : ℤ) = max 0 s.isem.count + s.isem.woken.length + s.reader.busy + s.numdesc.getD 0
  /-- Packets are counted in the order of arrival. -/
  counted : s.counted <+: s.arrived
  /-- A handler stops when it has counted all packets. -/
  complete : ∀ n, s.numdesc = some n → ¬ (n < s.rxRingSize ∧ (s.rxRing s.rxTail).status ≠ 0) →
    s.counted = s.arrived
  /-- The descriptors that the controller may fill are empty. -/
  handed : ∀ i < s.free, (s.rxRing ((s.rdh + i) % s.rxRingSize)).status = 0
  /-- A packet that is not delivered is in its descriptor, as it arrived. -/
  kept : ∀ p, (h : p < s.arrived.length) → s.delivered.length ≤ p →
    (s.rxRing (p % s.rxRingSize)).status &&& E1000_RXD_STAT_DD ≠ 0 ∧
    (s.rxRing (p % s.rxRingSize)).packet = s.arrived.get ⟨p, h⟩
  /-- The reader gets the packets in the order of arrival, each once, and never an error. -/
  delivered : s.delivered = (s.arrived.take s.delivered.length).map some
  /-- When all packets are delivered, the controller has a descriptor to fill. -/
  starved : s.delivered.length = s.arrived.length → s.free ≠ 0

/-! ## The invariant -/

/-- The position up to which descriptors are handed to the controller when `k` of them have been
read: one group less than the ring, and one group more for each group of which the first descriptor
has been read. -/
def handedTo (N k : ℕ) : ℕ :=
  N - E1000_RING_BOUNDARY + E1000_RING_BOUNDARY * ((k + (E1000_RING_BOUNDARY - 1)) / E1000_RING_BOUNDARY)

/-- Where the three parties are after `r` descriptors have been read. Positions count the
descriptors from the beginning, and position `p` is descriptor `p` modulo the size of the ring. -/
structure EthRing.Ok (s : EthRing) (N r : ℕ) : Prop where
  /-- The ring keeps its size. -/
  size : s.rxRingSize = N
  /-- The head is the position after those read. -/
  head : s.rxHead = r % N
  /-- The tail is the position after those counted. -/
  tail : s.rxTail = s.counted.length % N
  /-- The controller is at the position after those that have arrived. -/
  rdh : s.rdh = s.arrived.length % N
  /-- Descriptors have been handed back in whole groups. -/
  rdt : s.rdt = handedTo N (r + s.reader.handed) % N
  /-- The count of the semaphore agrees with the waiting reader. -/
  sem : s.isem.Ok
  /-- The reader waits, or has been woken, exactly if it is blocked. -/
  waits : s.isem.waiting.length + s.isem.woken.length = if s.reader = .blocked then 1 else 0
  /-- Permits, packets being read or counted, and packets read make up the packets counted. -/
  permits : s.isem.unused + s.reader.busy + s.numdesc.getD 0 + r = s.counted.length
  /-- Packets are counted in the order of arrival. -/
  counted : s.counted <+: s.arrived
  /-- The handler does not run while the reader is past its wait. -/
  alone : s.numdesc ≠ none → s.reader.busy = 0
  /-- The handler does not run between the test for a group and the advance of the head, where the
  controller may get a whole ring ahead. -/
  behind : s.counted.length < r + N
  /-- The controller fills only descriptors that it has been handed. -/
  room : s.arrived.length ≤ handedTo N (r + s.reader.handed)
  /-- Packets that are not read are in their descriptors. -/
  filled : ∀ p, (h : p < s.arrived.length) → r + s.reader.cleared ≤ p →
    (s.rxRing (p % N)).status &&& E1000_RXD_STAT_DD ≠ 0 ∧ (s.rxRing (p % N)).packet = s.arrived.get ⟨p, h⟩
  /-- The descriptors after them have been cleared. -/
  empty : ∀ p, s.arrived.length ≤ p → p < r + s.reader.cleared + N → (s.rxRing (p % N)).status = 0
  /-- What has been read has been delivered, in order. -/
  delivered : s.delivered = (s.arrived.take (r + s.reader.taken)).map some

/-- The descriptors handed to the controller are less than a ring ahead of the reader, and at least
a group. -/
theorem handedTo_bounds {N : ℕ} (hN : 2 * E1000_RING_BOUNDARY ≤ N) (k : ℕ) :
    k + E1000_RING_BOUNDARY ≤ handedTo N k ∧ handedTo N k < k + N := by
  unfold handedTo
  have hB : E1000_RING_BOUNDARY = 16 := rfl
  rw [hB] at hN ⊢
  omega

/-- Each part of the body is behind the one before it. -/
theorem EthReader.order (pc : EthReader) :
    pc.handed ≤ pc.cleared ∧ pc.cleared ≤ pc.taken ∧ pc.taken ≤ pc.busy ∧ pc.busy ≤ 1 := by
  cases pc <;> decide

/-- The number of cells from one position to another that is less than a ring ahead of it. -/
theorem cells_between {N a b : ℕ} (hab : a ≤ b) (hb : b < a + N) : (b % N + N - a % N) % N = b - a := by
  have hN : 0 < N := by omega
  have hb' : b = a + (b - a) := by omega
  have hd : (b - a) % N = b - a := Nat.mod_eq_of_lt (by omega)
  have ha : a % N < N := Nat.mod_lt _ hN
  have hmod : b % N = (a % N + (b - a)) % N := by
    rw [Nat.mod_add_mod, ← hb']
  rw [hmod]
  by_cases h : a % N + (b - a) < N
  · rw [Nat.mod_eq_of_lt h, show a % N + (b - a) + N - a % N = (b - a) + N by omega, Nat.add_mod_right, hd]
  · have hwrap : (a % N + (b - a)) % N = a % N + (b - a) - N := by
      rw [Nat.mod_eq_sub_mod (by omega), Nat.mod_eq_of_lt (by omega)]
    rw [hwrap, show a % N + (b - a) - N + N - a % N = b - a by omega, hd]

namespace EthRing.Ok

variable {s s' : EthRing} {N r : ℕ}

/-- The three parties follow each other, and none is a ring ahead. -/
theorem chase (h : s.Ok N r) (hN : 2 * E1000_RING_BOUNDARY ≤ N) :
    r + s.reader.busy ≤ s.counted.length ∧ s.counted.length ≤ s.arrived.length ∧
    s.arrived.length < r + s.reader.handed + N := by
  have hu := h.sem.woken_le
  have hp := h.permits
  have hb := (handedTo_bounds hN (r + s.reader.handed)).2
  refine ⟨by omega, h.counted.length_le, ?_⟩
  exact lt_of_le_of_lt h.room hb

/-- The first descriptor behind the filled ones is empty. -/
theorem empty_first (h : s.Ok N r) (hN : 2 * E1000_RING_BOUNDARY ≤ N) :
    (s.rxRing (s.arrived.length % N)).status = 0 := by
  obtain ⟨-, -, hc⟩ := h.chase hN
  have ho := s.reader.order
  exact h.empty _ le_rfl (by omega)

/-- A handler is at a descriptor that is filled exactly if not all packets are counted, and the
bound of its loop is never reached. -/
theorem scan (h : s.Ok N r) (hN : 2 * E1000_RING_BOUNDARY ≤ N) {n : ℕ} (hn : s.numdesc = some n) :
    (n < s.rxRingSize ∧ (s.rxRing s.rxTail).status ≠ 0) ↔ s.counted.length < s.arrived.length := by
  obtain ⟨hr, hca, hc⟩ := h.chase hN
  have ho := s.reader.order
  rw [h.size, h.tail]
  constructor
  · rintro ⟨-, hst⟩
    by_contra hlt
    have he : s.counted.length = s.arrived.length := by omega
    rw [he] at hst
    exact hst (h.empty_first hN)
  · intro hlt
    have hp := h.permits
    have hu := h.sem.woken_le
    rw [hn, Option.getD_some] at hp
    refine ⟨by omega, ?_⟩
    intro h0
    have hf := (h.filled _ hlt (by omega)).1
    rw [h0] at hf
    exact hf rfl

/-- What the ring promises follows from the invariant. -/
theorem safe (h : s.Ok N r) (hN : 2 * E1000_RING_BOUNDARY ≤ N) : s.Safe := by
  obtain ⟨hr, hca, hc⟩ := h.chase hN
  have ho := s.reader.order
  obtain ⟨hlo, hhi⟩ := handedTo_bounds hN (r + s.reader.handed)
  -- The free cells are those handed to the controller, less those that frames have filled.
  have hfree : s.free = handedTo N (r + s.reader.handed) - s.arrived.length := by
    rw [EthRing.free, h.size, h.rdt, h.rdh]
    exact cells_between h.room (by omega)
  have hlen : s.delivered.length = r + s.reader.taken := by
    rw [h.delivered, List.length_map, List.length_take]
    omega
  constructor
  -- The packets counted and not taken are those between head and tail.
  · rw [EthRing.count, h.size, h.head, h.tail, cells_between (by omega) h.behind]
    have hp := h.permits
    rw [h.sem.unused_eq] at hp
    omega
  · exact h.counted
  -- When the handler stops, it has counted every frame that has arrived.
  · intro n hn hstop
    have heq : s.counted.length = s.arrived.length := by
      have := mt (h.scan hN hn).mpr hstop
      omega
    exact h.counted.eq_of_length heq
  · intro i hi
    rw [hfree] at hi
    rw [h.size, h.rdh, Nat.mod_add_mod]
    exact h.empty _ (by omega) (by omega)
  -- The frames that wait lie in cells that no later frame has been written to.
  · intro p hp hdp
    rw [h.size]
    exact h.filled p hp (by omega)
  · rw [hlen]
    exact h.delivered
  · intro heq
    have hB : E1000_RING_BOUNDARY = 16 := rfl
    omega

/-! ## The steps -/

/-- At the beginning nothing has arrived, and one group of descriptors is kept back. -/
theorem init {m : ℕ} (hm : 2 ≤ m) :
    (EthRing.init (E1000_RING_BOUNDARY * m)).Ok (E1000_RING_BOUNDARY * m) 0 where
  size := rfl
  head := (Nat.zero_mod _).symm
  tail := (Nat.zero_mod _).symm
  rdh := (Nat.zero_mod _).symm
  rdt := by
    have hB : E1000_RING_BOUNDARY = 16 := rfl
    simp only [EthRing.init, EthReader.handed, handedTo, hB]
    exact (Nat.mod_eq_of_lt (by omega)).symm
  sem := Semaphore.Ok.create le_rfl
  waits := by simp [EthRing.init, Semaphore.create]
  permits := by simp [EthRing.init, EthReader.busy]
  counted := List.nil_prefix
  alone h := absurd rfl h
  behind := by
    have hB : E1000_RING_BOUNDARY = 16 := rfl
    simp only [EthRing.init, List.length_nil, hB]
    omega
  room := Nat.zero_le _
  filled p h := absurd h (Nat.not_lt_zero p)
  empty p _ _ := rfl
  delivered := rfl

/-- A packet is stored in the first descriptor behind the filled ones, or dropped. -/
theorem receive (h : s.Ok N r) (hN : 2 * E1000_RING_BOUNDARY ≤ N) (packet : List UInt8) {status : ℕ}
    (done : status &&& E1000_RXD_STAT_DD ≠ 0) : (s.receive packet status).Ok N r := by
  unfold EthRing.receive
  split
  next => exact h
  next hne =>
    obtain ⟨hr, hca, hc⟩ := h.chase hN
    have ho := s.reader.order
    have hb := (handedTo_bounds hN (r + s.reader.handed)).2
    -- The controller is not at the end of its descriptors, since `RDH` is not `RDT`.
    have hroom : s.arrived.length < handedTo N (r + s.reader.handed) := by
      refine lt_of_le_of_ne h.room ?_
      intro he
      rw [h.rdh, h.rdt, he] at hne
      exact hne rfl
    have hlen : (s.arrived ++ [packet]).length = s.arrived.length + 1 := by simp
    constructor
    · exact h.size
    · exact h.head
    · exact h.tail
    · rw [hlen]
      dsimp only
      rw [h.size, h.rdh, Nat.mod_add_mod]
    · exact h.rdt
    · exact h.sem
    · exact h.waits
    · exact h.permits
    · exact h.counted.trans (List.prefix_append _ _)
    · exact h.alone
    · exact h.behind
    · rw [hlen]
      exact hroom
    · intro p hp hrp
      rw [hlen] at hp
      dsimp only at hrp ⊢
      rw [h.rdh]
      by_cases hpl : p < s.arrived.length
      · rw [Function.update_of_ne (Ring.cell_ne hpl (by omega) hrp)]
        refine ⟨(h.filled p hpl hrp).1, (h.filled p hpl hrp).2.trans ?_⟩
        simp [List.getElem_append_left hpl]
      · obtain rfl : p = s.arrived.length := by omega
        rw [Function.update_self]
        refine ⟨done, ?_⟩
        simp only [EthRxDesc.packet, List.get_eq_getElem, List.getElem_concat_length]
        refine List.ext_getElem (by simp) fun j h₁ h₂ => ?_
        simp [List.getD_eq_getElem?_getD, h₂]
    · intro p hp hpr
      rw [hlen] at hp
      dsimp only at hpr ⊢
      rw [h.rdh, Function.update_of_ne (Ring.cell_ne (h := s.arrived.length)
        (i := s.arrived.length) (by omega) (by omega) le_rfl).symm]
      exact h.empty p (by omega) hpr
    · change s.delivered = ((s.arrived ++ [packet]).take (r + s.reader.taken)).map some
      rw [List.take_append_of_le_length (by omega)]
      exact h.delivered

/-- A round of the handler counts the next packet, and the end of its loop hands the count to `isem`. -/
theorem eth_rxPackets (h : s.Ok N r) (hN : 2 * E1000_RING_BOUNDARY ≤ N) {n : ℕ} (hn : s.numdesc = some n) :
    (s.eth_rxPackets n).Ok N r := by
  have hp := h.permits
  rw [hn, Option.getD_some] at hp
  unfold EthRing.eth_rxPackets
  dsimp only
  split
  next hgo =>
    -- The cell at the tail holds the next frame that has not been counted.
    have hlt := (h.scan hN hn).mp hgo
    obtain ⟨hr, -, hc⟩ := h.chase hN
    have ho := s.reader.order
    have hlen (x : List UInt8) : (s.counted ++ [x]).length = s.counted.length + 1 := by simp
    have hpk : (s.rxRing s.rxTail).packet = s.arrived.get ⟨s.counted.length, hlt⟩ := by
      rw [h.tail]
      exact (h.filled _ hlt (by omega)).2
    have hb0 := h.alone (by simp [hn])
    refine ⟨h.size, h.head, ?_, h.rdh, h.rdt, h.sem, h.waits,
      ?_, ?_, fun _ => hb0, ?_, h.room, h.filled, h.empty, h.delivered⟩
    · rw [hlen]
      dsimp only
      rw [h.size, h.tail, Nat.mod_add_mod]
    · rw [hlen]
      simp only [Option.getD_some]
      push_cast
      omega
    -- So the counted frames get the next one, and stay a prefix of those that have arrived.
    · rw [hpk]
      have htake := List.prefix_iff_eq_take.mp h.counted
      have hsucc : s.arrived.take (s.counted.length + 1) = s.counted ++
          [s.arrived.get ⟨s.counted.length, hlt⟩] := by
        rw [List.take_succ_eq_append_getElem hlt, ← htake]
        rfl
      exact hsucc ▸ List.take_prefix _ _
    · rw [hlen]
      omega
  -- The loop has ended: as many permits are signalled as frames were counted.
  next =>
    refine ⟨h.size, h.head, h.tail, h.rdh, h.rdt, h.sem.signaln,
      ?_, ?_, h.counted, fun hne => absurd rfl hne, h.behind, h.room, h.filled, h.empty, h.delivered⟩
    · have hb := congrArg List.length (h.sem.blocked_signaln (n := n))
      have hw := h.waits
      simp only [Semaphore.blocked, List.length_append] at hb
      dsimp only
      omega
    · rw [h.sem.unused_signaln]
      simp only [Option.getD_none]
      push_cast
      omega

/-- The reader waits, or goes on to the body with a packet that nobody else takes. -/
theorem ethread (h : s.Ok N r) (hidle : s.reader = .idle) (hno : s.numdesc = none) (len : ℤ) :
    (s.ethread len).Ok N r := by
  unfold EthRing.ethread
  split
  next => exact h
  next =>
    have hp := h.permits
    have hw := h.waits
    rw [hidle, hno] at hp
    rw [hidle, if_neg (by decide)] at hw
    have hdt := h.rdt
    have hrm := h.room
    have hf := h.filled
    have he := h.empty
    have hdl := h.delivered
    rw [hidle] at hdt hrm hf he hdl
    simp only [EthReader.busy, Option.getD_none] at hp
    dsimp only
    cases hk : (s.isem.wait ()).1 with
    -- A packet has been counted: the reader uses its permit.
    | true =>
      rw [if_pos rfl]
      refine ⟨h.size, h.head, h.tail, h.rdh, hdt, h.sem.wait,
        ?_, ?_, h.counted, fun hne => absurd hno hne, h.behind, hrm, hf, he, hdl⟩
      · have hb := congrArg List.length (Semaphore.blocked_wait_go hk)
        simp only [Semaphore.blocked, List.length_append] at hb
        dsimp only
        rw [if_neg (by decide)]
        omega
      · rw [Semaphore.unused_wait_go hk]
        simp only [EthReader.busy, hno, Option.getD_none]
        push_cast at hp ⊢
        omega
    -- Nothing has been counted: the reader is blocked until the next signal.
    | false =>
      rw [if_neg (by decide)]
      refine ⟨h.size, h.head, h.tail, h.rdh, hdt, h.sem.wait,
        ?_, ?_, h.counted, fun hne => absurd hno hne, h.behind, hrm, hf, he, hdl⟩
      · have hb := congrArg List.length (Semaphore.blocked_wait_block hk)
        simp only [Semaphore.blocked, List.length_append, List.length_singleton] at hb
        dsimp only
        rw [if_pos rfl]
        omega
      · rw [Semaphore.unused_wait_block hk]
        simp only [EthReader.busy, hno, Option.getD_none]
        exact hp

/-- A reader that has been woken goes on to the body, with the permit of the signal. -/
theorem resume (h : s.Ok N r) (hno : s.numdesc = none) {sem : Semaphore Unit}
    {k : Unit} (hr : s.isem.resume 0 = some (k, sem)) :
    EthRing.Ok { s with isem := sem, reader := .pick } N r := by
  obtain ⟨-, hsem, hlen⟩ := Semaphore.resume_eq hr
  have hw := h.waits
  -- Only a reader that is blocked can have been woken.
  have hblocked : s.reader = .blocked := by
    by_contra hne
    rw [if_neg hne] at hw
    omega
  have hcount : sem.count = s.isem.count := by rw [hsem]
  have hwait : sem.waiting = s.isem.waiting := by rw [hsem]
  have hp := h.permits
  have hdt := h.rdt
  have hrm := h.room
  have hf := h.filled
  have he := h.empty
  have hdl := h.delivered
  rw [hblocked] at hp hdt hrm hf he hdl
  rw [if_pos hblocked] at hw
  refine ⟨h.size, h.head, h.tail, h.rdh, hdt, ?_, ?_, ?_,
    h.counted, fun hne => absurd hno hne, h.behind, hrm, hf, he, hdl⟩
  · have hs := h.sem
    unfold Semaphore.Ok at hs ⊢
    rw [hcount, hwait]
    exact hs
  · dsimp only
    rw [if_neg (by decide), hwait]
    omega
  · simp only [Semaphore.unused, EthReader.busy, hno, Option.getD_none] at hp ⊢
    rw [hcount, hwait]
    omega

/-- The descriptor at the head is filled, and its packet, the next of those that have arrived, is
taken. -/
theorem body_pick (h : s.Ok N r) (hN : 2 * E1000_RING_BOUNDARY ≤ N) (hno : s.numdesc = none)
    (hpc : s.reader = .pick) (he : s.body = some s') : s'.Ok N r := by
  obtain ⟨hr, hca, hc⟩ := h.chase hN
  have hlt := h.behind
  have hp := h.permits
  have hw := h.waits
  have hdt := h.rdt
  have hrm := h.room
  have hfl := h.filled
  have hem := h.empty
  have hdl := h.delivered
  rw [hno] at hp
  rw [hpc] at hr hp hw hdt hrm hfl hem hdl
  simp only [EthReader.busy] at hr hp
  simp only [EthRing.body, hpc, Option.some.injEq] at he
  obtain rfl := he
  have hra : r < s.arrived.length := by omega
  obtain ⟨hdd, hpk⟩ := hfl r hra (by simp only [EthReader.cleared]; omega)
  refine ⟨h.size, h.head, h.tail, h.rdh, hdt, h.sem, hw,
    ?_, h.counted, fun hne => absurd hno hne, hlt, hrm, hfl, hem, ?_⟩
  · simp only [EthReader.busy, hno, Option.getD_none]
    exact hp
  · simp only [EthReader.taken] at hdl ⊢
    rw [h.head, if_neg hdd, hpk, hdl, List.take_succ_eq_append_getElem hra, List.map_append]
    rfl

/-- The descriptor at the head is cleared; the others stay. -/
theorem body_clear (h : s.Ok N r) (hN : 2 * E1000_RING_BOUNDARY ≤ N) (hno : s.numdesc = none)
    (hpc : s.reader = .clear) (he : s.body = some s') : s'.Ok N r := by
  obtain ⟨hr, hca, hc⟩ := h.chase hN
  have hlt := h.behind
  have hp := h.permits
  have hw := h.waits
  have hdt := h.rdt
  have hrm := h.room
  have hfl := h.filled
  have hem := h.empty
  have hdl := h.delivered
  rw [hno] at hp
  rw [hpc] at hr hp hw hdt hrm hfl hem hdl
  simp only [EthReader.busy] at hr hp
  simp only [EthReader.cleared] at hfl hem
  simp only [EthRing.body, hpc, Option.some.injEq] at he
  obtain rfl := he
  refine ⟨h.size, h.head, h.tail, h.rdh, hdt, h.sem, hw,
    ?_, h.counted, fun hne => absurd hno hne, hlt, hrm, ?_, ?_, hdl⟩
  · simp only [EthReader.busy, hno, Option.getD_none]
    exact hp
  · intro p hpa hrp
    simp only [EthReader.cleared] at hrp
    have hb := (handedTo_bounds hN (r + EthReader.clear.handed)).2
    simp only [EthReader.handed] at hb hrm
    dsimp only at hpa ⊢
    rw [h.head, Function.update_of_ne (Ring.cell_ne (h := r) (i := r) (by omega) (by omega) le_rfl).symm]
    exact hfl p hpa (by omega)
  · intro p hpa hrp
    simp only [EthReader.cleared] at hrp
    dsimp only at hpa ⊢
    rw [h.head]
    by_cases hpr : p = r + N
    · rw [hpr, Nat.add_mod_right, Function.update_self]
    · rw [Function.update_of_ne (Ring.cell_ne (h := r) (i := r) (by omega) (by omega) le_rfl).symm]
      exact hem p hpa (by omega)

/-- One group more is handed over exactly when the first descriptor of a group has been read. -/
theorem handedTo_succ (hN : s.rxHead = r % N) (hdvd : E1000_RING_BOUNDARY ∣ N) :
    handedTo N (r + 1) = handedTo N r + if s.rxHead %
      E1000_RING_BOUNDARY = 0 then E1000_RING_BOUNDARY else 0 := by
  have hB : E1000_RING_BOUNDARY = 16 := rfl
  rw [hN, Nat.mod_mod_of_dvd _ hdvd]
  unfold handedTo
  rw [hB]
  split <;> omega

/-- The group of the descriptor at the head is given back to the device, or nothing is. -/
theorem body_reclaim (h : s.Ok N r) (hdvd : E1000_RING_BOUNDARY ∣ N) (hno : s.numdesc = none)
    (hpc : s.reader = .reclaim) (he : s.body = some s') : s'.Ok N r := by
  have hp := h.permits
  have hw := h.waits
  have hdt := h.rdt
  have hrm := h.room
  have hfl := h.filled
  have hem := h.empty
  have hdl := h.delivered
  rw [hno] at hp
  rw [hpc] at hp hw hdt hrm hfl hem hdl
  simp only [EthRing.body, hpc, Option.some.injEq] at he
  obtain rfl := he
  simp only [EthReader.handed] at hdt hrm
  have hgroup := handedTo_succ h.head hdvd
  refine ⟨h.size, h.head, h.tail, h.rdh, ?_, h.sem, hw,
    ?_, h.counted, fun hne => absurd hno hne, h.behind, ?_, hfl, hem, hdl⟩
  · simp only [EthReader.handed]
    rw [hgroup, hdt, h.size]
    split
    · rw [Nat.add_zero, Nat.mod_add_mod]
    · rfl
  · simp only [EthReader.busy, hno, Option.getD_none] at hp ⊢
    exact hp
  · simp only [EthReader.handed]
    rw [hgroup]
    exact le_trans hrm (Nat.le_add_right _ _)

/-- The head goes on to the next descriptor. -/
theorem body_advance (h : s.Ok N r) (hN : 2 * E1000_RING_BOUNDARY ≤ N) (hno : s.numdesc = none)
    (hpc : s.reader = .advance) (he : s.body = some s') : s'.Ok N (r + 1) := by
  obtain ⟨hr, hca, hc⟩ := h.chase hN
  have hlt := h.behind
  have hp := h.permits
  have hw := h.waits
  have hdt := h.rdt
  have hrm := h.room
  have hfl := h.filled
  have hem := h.empty
  have hdl := h.delivered
  rw [hno] at hp
  rw [hpc] at hr hp hw hdt hrm hfl hem hdl
  simp only [EthRing.body, hpc, Option.some.injEq] at he
  obtain rfl := he
  refine ⟨h.size, ?_, h.tail, h.rdh, hdt, h.sem, hw,
    ?_, h.counted, fun hne => absurd hno hne, ?_, hrm, hfl, hem, hdl⟩
  · dsimp only
    rw [h.size, h.head, Nat.mod_add_mod]
  · simp only [EthReader.busy, hno, Option.getD_none] at hp ⊢
    push_cast at hp ⊢
    omega
  · dsimp only
    omega

/-- A step of the body: the descriptor at the head is taken, cleared, perhaps given back with its
group, and left behind. -/
theorem body (h : s.Ok N r) (hN : 2 * E1000_RING_BOUNDARY ≤ N)
    (hdvd : E1000_RING_BOUNDARY ∣ N) (hno : s.numdesc = none)
    (he : s.body = some s') : ∃ r', s'.Ok N r' := by
  cases hpc : s.reader with
  | idle => simp [EthRing.body, hpc] at he
  | blocked => simp [EthRing.body, hpc] at he
  | pick => exact ⟨r, h.body_pick hN hno hpc he⟩
  | clear => exact ⟨r, h.body_clear hN hno hpc he⟩
  | reclaim => exact ⟨r, h.body_reclaim hdvd hno hpc he⟩
  | advance => exact ⟨r + 1, h.body_advance hN hno hpc he⟩

/-- Every step keeps the order of the three parties. -/
theorem exec (h : s.Ok N r) (hN : 2 * E1000_RING_BOUNDARY ≤ N)
    (hdvd : E1000_RING_BOUNDARY ∣ N) {e : EthEvent} (he : s.exec e = some s') :
    ∃ r', s'.Ok N r' := by
  cases e with
  | receive packet status done =>
    obtain rfl := Option.some.inj he
    exact ⟨r, h.receive hN packet done⟩
  -- The interrupt only starts the handler, with a count of 0.
  | interrupt =>
    simp only [EthRing.exec] at he
    split at he
    next hc =>
      obtain rfl := Option.some.inj he
      have hp := h.permits
      rw [hc.1] at hp
      exact ⟨r, h.size, h.head, h.tail, h.rdh, h.rdt, h.sem, h.waits,
        hp, h.counted, fun _ => hc.2, h.behind, h.room, h.filled, h.empty,
        h.delivered⟩
    next => cases he
  | eth_rxPackets =>
    obtain ⟨n, hn, rfl⟩ := Option.map_eq_some_iff.mp he
    exact ⟨r, h.eth_rxPackets hN hn⟩
  -- The other steps are the body of the reader and the wait in front of it.
  | up =>
    obtain rfl := Option.some.inj he
    exact ⟨r, h.size, h.head, h.tail, h.rdh, h.rdt, h.sem, h.waits,
      h.permits, h.counted, h.alone, h.behind, h.room, h.filled, h.empty,
      h.delivered⟩
  | ethread len =>
    simp only [EthRing.exec] at he
    split at he
    next hc =>
      obtain rfl := Option.some.inj he
      exact ⟨r, h.ethread hc.2 hc.1 len⟩
    next => cases he
  | resume =>
    simp only [EthRing.exec] at he
    split at he
    next hc =>
      obtain ⟨⟨k, sem⟩, hr, rfl⟩ := Option.map_eq_some_iff.mp he
      exact ⟨r, h.resume hc hr⟩
    next => cases he
  | body =>
    simp only [EthRing.exec] at he
    split at he
    next hc => exact h.body hN hdvd hc he
    next => cases he

end EthRing.Ok

/-- In every run the three parties are in order. -/
theorem EthRun.ok {m : ℕ} (hm : 2 ≤ m) {s : EthRing} (hr : EthRun (E1000_RING_BOUNDARY * m) s) :
    ∃ r, s.Ok (E1000_RING_BOUNDARY * m) r := by
  have hN : 2 * E1000_RING_BOUNDARY ≤ E1000_RING_BOUNDARY * m := by
    rw [Nat.mul_comm]
    exact Nat.mul_le_mul_left _ hm
  induction hr with
  | init => exact ⟨0, EthRing.Ok.init hm⟩
  | step _ he ih =>
    obtain ⟨r, h⟩ := ih
    exact h.exec hN (Nat.dvd_mul_right _ _) he

/-- In every run of the controller, the handler and one reader, with a ring of at least two groups:
every packet is counted once, none is overwritten before it is read, packets are read in the order
of arrival, and the controller has descriptors when all packets are read. -/
theorem eth_ring {m : ℕ} (hm : 2 ≤ m) {s : EthRing} (hr : EthRun (E1000_RING_BOUNDARY * m) s) : s.Safe := by
  obtain ⟨r, h⟩ := hr.ok hm
  refine h.safe ?_
  rw [Nat.mul_comm]
  exact Nat.mul_le_mul_left _ hm

/-- A run with the ring of the source, in which a packet is stored, counted and read. -/
theorem eth_ring_one : ∃ s, EthRun (E1000_RING_BOUNDARY * 2) s ∧ s.Safe ∧ s.delivered = [some [1, 2, 3]] := by
  have h₁ := (@EthRun.init (E1000_RING_BOUNDARY * 2)).step (e := .up) rfl
  have h₂ := h₁.step (e := .receive [1, 2, 3] 1 (by decide)) rfl
  have h₃ := ((h₂.step (e := .interrupt) rfl).step (e := .eth_rxPackets) rfl).step (e := .eth_rxPackets) rfl
  have h₄ := (h₃.step (e := .ethread 14) rfl).step (e := .body) rfl
  exact ⟨_, h₄, eth_ring (by decide) h₄, by decide⟩

/-- Literally, the value of `isem` is not the number of descriptors: the reader waits, with no
packet in the ring, and the value is -1. -/
theorem isem_negative : ∃ s, EthRun (E1000_RING_BOUNDARY * 2) s ∧ s.reader = .blocked ∧ s.numdesc = none ∧
    (s.count : ℤ) ≠ s.isem.count + s.isem.woken.length := by
  have h₁ := (@EthRun.init (E1000_RING_BOUNDARY * 2)).step (e := .up) rfl
  have h₂ := h₁.step (e := .ethread 14) rfl
  exact ⟨_, h₂, rfl, rfl, by decide⟩

end Xinu
