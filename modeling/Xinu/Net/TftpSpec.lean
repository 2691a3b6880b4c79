import Mathlib.Data.List.GetD
import Xinu.Net.Tftp

/-!
# What TFTP delivers

The buffers hold the bytes of the file that have been copied, and nothing else of them has changed:
`filled`. No session of the server is ahead of the client, since it has acknowledged all blocks
before the one that is sent, and since an acknowledgement that fits the block of a session by its 16
bits, and is not 65536 blocks late, is for this block or a later one. A data packet that fits what
the client expects is then the block that it expects.
-/

namespace Xinu

variable {file : List UInt8} {rcv_buf_sizes : List ℕ} {rcv_bufs : ℕ → ℕ → UInt8}

/-- The buffers with the first `n` bytes of a file in them, one buffer after the other. -/
def filled (file : List UInt8) (rcv_buf_sizes : List ℕ) (rcv_bufs : ℕ → ℕ → UInt8) (n : ℕ) :
    ℕ → ℕ → UInt8 := fun k o =>
  if o < rcv_buf_sizes.getD k 0 ∧ (rcv_buf_sizes.take k).sum + o < n then file.getD
    ((rcv_buf_sizes.take k).sum + o) 0 else rcv_bufs k o

/-- The variables are those of a transfer in which `p` bytes have been copied. -/
structure TftpGet.At (rcv_buf_sizes : List ℕ) (c : TftpGet) (p : ℕ) : Prop where
  /-- The size is that of what has been copied. -/
  filesiz : c.filesiz = p
  /-- The current buffer is one of the caller's. -/
  ind : c.curr_buf_ind < rcv_buf_sizes.length
  /-- It has room for what is used of it. -/
  used : c.curr_used ≤ rcv_buf_sizes.getD c.curr_buf_ind 0
  /-- The bytes before the place, in all buffers, are those copied. -/
  place : (rcv_buf_sizes.take c.curr_buf_ind).sum + c.curr_used = p
  /-- The pointer is behind the bytes that are used. -/
  pointer : c.curr_buf = c.curr_used

/-! ## Places in the buffers -/

/-- The bytes of the buffers up to one of them, and of this one. -/
theorem sum_take_succ (sizes : List ℕ) (k : ℕ) :
    (sizes.take (k + 1)).sum = (sizes.take k).sum + sizes.getD k 0 := by
  by_cases hk : k < sizes.length
  · rw [List.take_succ_eq_append_getElem hk, List.sum_append, List.sum_singleton, List.getD_eq_getElem _ _ hk]
  · rw [List.getD_eq_default _ _ (by omega), List.take_of_length_le (by omega),
      List.take_of_length_le (by omega), Nat.add_zero]

/-- More of the buffers have at least as many bytes. -/
theorem sum_take_mono (sizes : List ℕ) {k l : ℕ} (h : k ≤ l) : (sizes.take k).sum ≤ (sizes.take l).sum := by
  induction l, h using Nat.le_induction with
  | base => exact le_rfl
  | succ l _ ih =>
    rw [sum_take_succ]
    omega

/-- A byte of the file has one place in the buffers. -/
theorem place_unique {sizes : List ℕ} {k l o q : ℕ} (ho : o < sizes.getD k 0) (hq : q < sizes.getD l 0)
    (h : (sizes.take k).sum + o = (sizes.take l).sum + q) : k = l ∧ o = q := by
  have hk := sum_take_succ sizes k
  have hl := sum_take_succ sizes l
  have heq : k = l := by
    rcases lt_trichotomy k l with hlt | heq | hgt
    · have := sum_take_mono sizes (show k + 1 ≤ l from hlt)
      omega
    · exact heq
    · have := sum_take_mono sizes (show l + 1 ≤ k from hgt)
      omega
  subst heq
  exact ⟨rfl, by omega⟩

/-- The next byte in its place makes the buffers filled with one byte more. -/
theorem filled_succ {k o p : ℕ} (ho : o < rcv_buf_sizes.getD k 0) (hp : (rcv_buf_sizes.take k).sum + o = p) :
    Function.update (filled file rcv_buf_sizes rcv_bufs p) k
        (Function.update (filled file rcv_buf_sizes rcv_bufs p k) o (file.getD p 0)) =
      filled file rcv_buf_sizes rcv_bufs (p + 1) := by
  funext l q
  by_cases hl : l = k
  · subst hl
    rw [Function.update_self]
    by_cases hq : q = o
    · subst hq
      rw [Function.update_self, filled, if_pos ⟨ho, by omega⟩, hp]
    · rw [Function.update_of_ne hq]
      unfold filled
      refine if_congr (and_congr_right fun hql => ?_) rfl rfl
      omega
  · rw [Function.update_of_ne hl]
    unfold filled
    refine if_congr (and_congr_right fun hql => ?_) rfl rfl
    constructor
    · intro h
      omega
    · intro h
      by_contra hge
      exact hl (place_unique hql ho (by omega)).1

/-- Before the first byte the buffers are as they were. -/
theorem filled_zero : filled file rcv_buf_sizes rcv_bufs 0 = rcv_bufs := by
  funext k o
  rw [filled, if_neg (by omega)]

/-! ## The copy of a block -/

namespace TftpGet

/-- What the copy of a block leaves as it is. -/
def SameCall (c c' : TftpGet) : Prop :=
  c'.outmsg = c.outmsg ∧ c'.remport = c.remport ∧ c'.expected = c.expected ∧ c'.i = c.i ∧ c'.result = c.result

/-- A byte for which there is room goes to its place. -/
theorem copyBlock_byte (hsizes : ∀ n ∈ rcv_buf_sizes, 0 < n)
    {c : TftpGet} {p : ℕ} (hat : c.At rcv_buf_sizes p)
    (hb : c.rcv_bufs = filled file rcv_buf_sizes rcv_bufs p)
    (h31 : p + 1 < 2 ^ 31) (hcap : p < rcv_buf_sizes.sum) (data : List UInt8) :
    ∃ c', copyBlock rcv_buf_sizes (file.getD p 0 :: data) c = copyBlock rcv_buf_sizes data c' ∧
    c'.At rcv_buf_sizes (p + 1) ∧
      c'.rcv_bufs = filled file rcv_buf_sizes rcv_bufs (p + 1) ∧ SameCall c c' := by
  have hplace := hat.place
  have hused := hat.used
  have hsiz : int32 (c.filesiz + 1) = ((p + 1 : ℕ) : ℤ) := by
    rw [hat.filesiz]
    exact int32_of_mem (by omega) (by omega)
  rw [copyBlock]
  by_cases hfull : c.curr_used ≥ rcv_buf_sizes.getD c.curr_buf_ind 0
  · -- The current buffer is full, and there is another one, since not all bytes are used.
    have hend : (rcv_buf_sizes.take (c.curr_buf_ind + 1)).sum = p := by
      rw [sum_take_succ]
      omega
    have hnext : c.curr_buf_ind + 1 < rcv_buf_sizes.length := by
      by_contra hlast
      rw [List.take_of_length_le (by omega)] at hend
      omega
    have hpos : 0 < rcv_buf_sizes.getD (c.curr_buf_ind + 1) 0 := by
      rw [List.getD_eq_getElem _ _ hnext]
      exact hsizes _ (List.getElem_mem hnext)
    rw [if_pos hfull]
    dsimp only
    rw [if_neg (by omega)]
    refine ⟨_, rfl, ⟨hsiz, hnext, hpos, by rw [hend], rfl⟩, ?_, rfl, rfl, rfl, rfl, rfl⟩
    rw [hb]
    exact filled_succ hpos (by rw [hend, Nat.add_zero])
  -- There is room in the current buffer.
  · rw [if_neg hfull]
    refine ⟨_, rfl, ⟨hsiz, hat.ind, ?_, ?_, ?_⟩, ?_, rfl, rfl, rfl, rfl, rfl⟩
    · dsimp only
      omega
    · dsimp only
      omega
    · dsimp only
      rw [hat.pointer]
    · dsimp only
      rw [hb, hat.pointer]
      exact filled_succ (by omega) hplace

/-- If all bytes of the buffers are used, the loop stops at the next byte. -/
theorem copyBlock_full (hsizes : ∀ n ∈ rcv_buf_sizes, 0 < n)
    {c : TftpGet} (hat : c.At rcv_buf_sizes rcv_buf_sizes.sum) (ch : UInt8)
    (data : List UInt8) :
    copyBlock rcv_buf_sizes (ch :: data) c = ({ c with curr_buf_ind := c.curr_buf_ind + 1 }, true) := by
  have hplace := hat.place
  have hused := hat.used
  have hsum := sum_take_succ rcv_buf_sizes c.curr_buf_ind
  have hle := sum_take_mono rcv_buf_sizes (show c.curr_buf_ind + 1 ≤ rcv_buf_sizes.length from hat.ind)
  rw [List.take_length] at hle
  have hlast : rcv_buf_sizes.length ≤ c.curr_buf_ind + 1 := by
    by_contra hlt
    have hnext : c.curr_buf_ind + 1 < rcv_buf_sizes.length := by omega
    have hpos := hsizes _ (List.getElem_mem hnext)
    have hsum' := sum_take_succ rcv_buf_sizes (c.curr_buf_ind + 1)
    have hle' := sum_take_mono rcv_buf_sizes (show c.curr_buf_ind + 1 + 1 ≤ rcv_buf_sizes.length from hnext)
    rw [List.take_length] at hle'
    rw [List.getD_eq_getElem _ _ hnext] at hsum'
    omega
  rw [copyBlock, if_pos (by omega)]
  exact if_pos hlast

/-- The copy of a block: all of its bytes, or as many as there is room for, and then the end of the
transfer. -/
theorem copyBlock_eq (hsizes : ∀ n ∈ rcv_buf_sizes, 0 < n) (data : List UInt8) :
    ∀ (c : TftpGet) (p : ℕ), c.At rcv_buf_sizes p →
    c.rcv_bufs = filled file rcv_buf_sizes rcv_bufs p → p ≤ rcv_buf_sizes.sum →
    (∀ j < data.length, data.getD j 0 = file.getD (p + j) 0) →
    p + data.length < 2 ^ 31 → ∃ c', copyBlock rcv_buf_sizes data c =
      (c', decide (rcv_buf_sizes.sum < p + data.length)) ∧
      c'.filesiz = min (p + data.length) rcv_buf_sizes.sum ∧
      c'.rcv_bufs = filled file rcv_buf_sizes rcv_bufs (min (p + data.length) rcv_buf_sizes.sum) ∧
      SameCall c c' ∧
      (p + data.length ≤ rcv_buf_sizes.sum → c'.At rcv_buf_sizes (p + data.length)) := by
  -- The induction is on the bytes of the block.
  induction data with
  | nil =>
    intro c p hat hb hcap _ _
    have hmin : min (p + 0) rcv_buf_sizes.sum = p := by omega
    have hdec : decide (rcv_buf_sizes.sum < p + 0) = false := by
      rw [decide_eq_false_iff_not]
      omega
    rw [List.length_nil, hmin, hdec]
    exact ⟨c, rfl, hat.filesiz, hb, ⟨rfl, rfl, rfl, rfl, rfl⟩, fun _ => hat⟩
  | cons ch data ih =>
    intro c p hat hb hcap hdata h31
    rw [List.length_cons] at hdata h31 ⊢
    have hch : ch = file.getD p 0 := by simpa using hdata 0 (by omega)
    -- A byte with room in front of the rest of the block.
    by_cases hroom : p < rcv_buf_sizes.sum
    · subst hch
      obtain ⟨c₁, hstep, hat₁, hb₁, h1, h2, h3, h4, h5⟩ := copyBlock_byte hsizes hat hb (by omega) hroom data
      have hrest : ∀ j < data.length, data.getD j 0 = file.getD (p + 1 + j) 0 := by
        intro j hj
        have := hdata (j + 1) (by omega)
        rw [List.getD_cons_succ] at this
        rw [this]
        congr 1
        omega
      obtain ⟨c', hrun, hsiz, hb', ⟨g1, g2, g3, g4, g5⟩, hat'⟩ :=
        ih c₁ (p + 1) hat₁ hb₁ hroom hrest (by omega)
      have harith : p + 1 + data.length = p + (data.length + 1) := by omega
      rw [harith] at hrun hsiz hb' hat'
      exact ⟨c', hstep.trans hrun, hsiz, hb',
        ⟨g1.trans h1, g2.trans h2, g3.trans h3, g4.trans h4, g5.trans h5⟩, hat'⟩
    -- The buffers are full: the last index is stepped over, and the copy stops.
    · obtain rfl : p = rcv_buf_sizes.sum := by omega
      have hmin : min (rcv_buf_sizes.sum + (data.length + 1)) rcv_buf_sizes.sum = rcv_buf_sizes.sum := by
        omega
      refine ⟨{ c with curr_buf_ind := c.curr_buf_ind + 1 },
        (copyBlock_full hsizes hat ch data).trans ?_, ?_, ?_,
        ⟨rfl, rfl, rfl, rfl, rfl⟩, fun h => absurd h (by omega)⟩
      · have hdec : decide (rcv_buf_sizes.sum < rcv_buf_sizes.sum + (data.length + 1)) = true := by
          rw [decide_eq_true_iff]
          omega
        rw [hdec]
      · dsimp only
        rw [hat.filesiz]
        omega
      · rw [hmin]
        exact hb

end TftpGet

/-! ## Blocks -/

/-- The bytes of a block are those of the file from its place on. -/
theorem tftpBlock_getD (file : List UInt8) (blk j : ℕ) (hj : j < (tftpBlock file blk).length) :
    (tftpBlock file blk).getD j 0 = file.getD ((blk - 1) * TFTP_MAXDATA + j) 0 := by
  have hlen : j < TFTP_MAXDATA ∧ (blk - 1) * TFTP_MAXDATA + j < file.length := by
    simp only [tftpBlock, List.length_take, List.length_drop] at hj
    omega
  rw [List.getD_eq_getElem _ _ hj, List.getD_eq_getElem _ _ hlen.2]
  simp [tftpBlock]

/-- The blocks before the last one are full, and the last one is not. -/
theorem length_tftpBlock {blk : ℕ} (h1 : 1 ≤ blk) (hl : blk ≤ tftpLast file) :
    (blk - 1) * TFTP_MAXDATA + (tftpBlock file blk).length = min file.length (blk * TFTP_MAXDATA) ∧
      ((tftpBlock file blk).length < TFTP_MAXDATA ↔ blk = tftpLast file) := by
  have hB : TFTP_MAXDATA = 512 := rfl
  simp only [tftpBlock, List.length_take, List.length_drop, hB]
  simp only [tftpLast, hB] at hl ⊢
  omega

/-- The data that the client finds in a packet with a block. -/
theorem tftpData_data (file : List UInt8) (blk : ℕ) :
    (List.range ((tftpData file blk).n - 4).toNat).map (tftpData file blk).tf_data = tftpBlock file blk := by
  have hn : ((tftpData file blk).n - 4).toNat = (tftpBlock file blk).length := by
    change (4 + ((tftpBlock file blk).length : ℤ) - 4).toNat = _
    omega
  rw [hn]
  refine List.ext_getElem (by simp) fun j h₁ h₂ => ?_
  rw [List.getElem_map, List.getElem_range]
  change (tftpBlock file blk).getD j 0 = _
  rw [List.getD_eq_getElem _ _ h₂]

/-- Two numbers with the same 16 bits that are less than 65536 apart are the same. -/
theorem eq_of_mod_eq {a b : ℕ} (h : a % 2 ^ 16 = b % 2 ^ 16)
    (hle : a ≤ b) (hlt : b < a + 2 ^ 16) : a = b := by
  omega

/-- Of two numbers with the same 16 bits, one that is less than 65536 above the other is not above it. -/
theorem le_of_mod_eq {a b : ℕ} (h : a % 2 ^ 16 = b % 2 ^ 16) (hlt : a < b + 2 ^ 16) : a ≤ b := by
  omega

/-! ## The transfer -/

/-- What a result means: as many bytes as the file and the buffers have, and these bytes in the buffers. -/
def Delivered (file : List UInt8) (rcv_buf_sizes : List ℕ)
    (rcv_bufs : ℕ → ℕ → UInt8) (c : TftpGet) (n : ℤ) : Prop :=
  n = min file.length rcv_buf_sizes.sum ∧ c.rcv_bufs = filled file rcv_buf_sizes rcv_bufs
    (min file.length rcv_buf_sizes.sum)

/-- The client in the middle of a transfer: it has all blocks before the one that it expects. -/
structure TftpGet.Expects (file : List UInt8) (rcv_buf_sizes : List ℕ)
    (rcv_bufs : ℕ → ℕ → UInt8) (c : TftpGet) (blk : ℕ) : Prop where
  /-- No buffer is empty. -/
  sizes : ∀ n ∈ rcv_buf_sizes, 0 < n
  /-- Blocks are counted from 1 on. -/
  first : 1 ≤ blk
  /-- The block is one of the file. -/
  last : blk ≤ tftpLast file
  /-- Its number is the low half of the count. -/
  expected : c.expected = blk % 2 ^ 16
  /-- The last acknowledgement was for the block before. -/
  outmsg : ∀ a, c.outmsg = .ack a → 1 < blk ∧ a = (blk - 1) % 2 ^ 16
  /-- The blocks so far have fitted into the buffers. -/
  room : (blk - 1) * TFTP_MAXDATA ≤ rcv_buf_sizes.sum
  /-- The variables are those behind these blocks. -/
  at_ : c.At rcv_buf_sizes ((blk - 1) * TFTP_MAXDATA)
  /-- The buffers hold these blocks, one after the other, and nothing else has changed. -/
  bufs : c.rcv_bufs = filled file rcv_buf_sizes rcv_bufs ((blk - 1) * TFTP_MAXDATA)

/-- What holds in every state of a transfer. -/
structure Tftp.Ok (file : List UInt8) (rcv_buf_sizes : List ℕ)
    (rcv_bufs : ℕ → ℕ → UInt8) (s : Tftp) : Prop where
  /-- Until the client returns, it has the blocks before the one that it expects. -/
  running : s.get.result = none → s.get.Expects file rcv_buf_sizes rcv_bufs s.blk
  /-- When it returns a size, the buffers hold the file. -/
  result : ∀ n, s.get.result = some n → 0 ≤ n → Delivered file rcv_buf_sizes rcv_bufs s.get n
  /-- Nothing is written outside the buffers. -/
  outside : ∃ p, s.get.rcv_bufs = filled file rcv_buf_sizes rcv_bufs p
  /-- Blocks are counted from 1 on. -/
  blk : 1 ≤ s.blk
  /-- The server sends blocks of the file, at most up to the one that is expected. -/
  sessions : ∀ t ∈ s.sessions, 1 ≤ t.blk ∧ t.blk ≤ s.blk ∧ t.blk ≤ tftpLast file
  /-- The packets on the network are blocks of the file, at most up to the one that is expected. -/
  datagrams : ∀ d ∈ s.datagrams, 1 ≤ d.2 ∧ d.2 ≤ s.blk ∧ d.2 ≤ tftpLast file
  /-- Acknowledgements are for blocks that the client has. -/
  acks : ∀ a ∈ s.acks, a.tf_ablk = a.blk % 2 ^ 16 ∧ (a.blk < s.blk ∨ a.blk = s.blk ∧ s.blk = tftpLast file)

namespace TftpGet

variable {c : TftpGet} {blk : ℕ}

/-- What a step of the client that expects a block may do: it goes on to the next block when it has
this one, and acknowledges blocks that it has. -/
structure Goes (file : List UInt8) (rcv_buf_sizes : List ℕ)
    (rcv_bufs : ℕ → ℕ → UInt8) (c : TftpGet) (blk : ℕ) (r : TftpGet × Option ℕ) :
    Prop where
  /-- It goes on only from a block that is not the last one. -/
  moved : r.1.expected ≠ c.expected → blk < tftpLast file
  /-- If it does not return, it has the blocks before the one that it expects then. -/
  running : r.1.result = none → r.1.Expects file rcv_buf_sizes rcv_bufs
    (if r.1.expected ≠ c.expected then blk + 1 else blk)
  /-- If it returns a size, the buffers hold the file. -/
  result : ∀ n, r.1.result = some n → 0 ≤ n → Delivered file rcv_buf_sizes rcv_bufs r.1 n
  /-- Nothing is written outside the buffers. -/
  outside : ∃ p, r.1.rcv_bufs = filled file rcv_buf_sizes rcv_bufs p
  /-- What it acknowledges is a block that it has. -/
  ack : ∀ a, r.2 = some a → if r.1.expected ≠ c.expected then a = blk % 2 ^ 16
    else if r.1.result ≠ none then a = blk % 2 ^ 16 ∧ blk = tftpLast file
    else 1 < blk ∧ a = (blk - 1) % 2 ^ 16

/-- A client that gives up. -/
theorem Expects.fails (h : c.Expects file rcv_buf_sizes rcv_bufs blk)
    {r : TftpGet × Option ℕ} (he : r.1.expected = c.expected)
    (hb : r.1.rcv_bufs = c.rcv_bufs) (hr : r.1.result = some SYSERR) (ha : r.2 = none) :
    Goes file rcv_buf_sizes rcv_bufs c blk r where
  moved hne := absurd he hne
  running hn := by simp [hr] at hn
  result n hn h0 := by
    obtain rfl := Option.some.inj (hr.symm.trans hn)
    exact absurd h0 (by decide)
  outside := ⟨_, hb.trans h.bufs⟩
  ack a h := by simp [ha] at h

/-- A client that waits for the same block again, or still. -/
theorem Goes.stays {c' : TftpGet} {ack : Option ℕ} (he : c'.expected = c.expected)
    (hc : c'.Expects file rcv_buf_sizes rcv_bufs blk) (hr : c'.result = none)
    (ha : ∀ a, ack = some a → 1 < blk ∧ a = (blk - 1) % 2 ^ 16) :
    Goes file rcv_buf_sizes rcv_bufs c blk (c', ack) where
  moved hne := absurd he hne
  running _ := by
    rw [if_neg (by simpa using he)]
    exact hc
  result n hn := by simp [hr] at hn
  outside := ⟨_, hc.bufs⟩
  ack a h := by
    rw [if_neg (by simpa using he), if_neg (by simpa using hr)]
    exact ha a h

/-- Behind a block for which the buffers had no room, the client returns with full buffers. -/
theorem Expects.block_full {c' : TftpGet} (he : c'.expected = c.expected)
    (hsiz : c'.filesiz = (min file.length rcv_buf_sizes.sum : ℕ))
    (hb : c'.rcv_bufs = filled file rcv_buf_sizes rcv_bufs (min file.length rcv_buf_sizes.sum)) :
    Goes file rcv_buf_sizes rcv_bufs c blk ({ c' with result := some c'.filesiz }, none) := by
  refine ⟨fun hm => absurd he hm, by simp, ?_, ⟨_, hb⟩, by simp⟩
  intro n hn _
  obtain rfl := Option.some.inj hn
  exact ⟨hsiz, hb⟩

/-- Behind the last block the whole file is in the buffers, and the client returns its size. -/
theorem Expects.block_last (h : c.Expects file rcv_buf_sizes rcv_bufs blk) {c' : TftpGet}
    (he : c'.expected = c.expected) (hL : blk = tftpLast file)
    (hsiz : c'.filesiz = (min file.length rcv_buf_sizes.sum : ℕ))
    (hb : c'.rcv_bufs = filled file rcv_buf_sizes rcv_bufs (min file.length rcv_buf_sizes.sum))
    (sent : Bool) :
    Goes file rcv_buf_sizes rcv_bufs c blk
      ({ c' with outmsg := .ack c'.expected, result := some (if sent then c'.filesiz else SYSERR) },
        if sent then some c'.expected else none) := by
  refine ⟨fun hm => absurd he hm, by simp, ?_, ⟨_, hb⟩, ?_⟩
  · intro n hn h0
    obtain rfl := Option.some.inj hn
    cases sent with
    | true => exact ⟨hsiz, hb⟩
    | false =>
      rw [if_neg (by decide)] at h0
      exact absurd h0 (by decide)
  · intro a ha
    rw [if_neg (by simpa using he), if_pos (by simp)]
    cases sent with
    | true =>
      obtain rfl := Option.some.inj ha
      exact ⟨he.trans h.expected, hL⟩
    | false => cases ha

/-- Behind a full block that is not the last one, the client expects the next block. -/
theorem Expects.block_next (h : c.Expects file rcv_buf_sizes rcv_bufs blk) {c' : TftpGet}
    (he : c'.expected = c.expected) (hlt : blk < tftpLast file)
    (hroom : blk * TFTP_MAXDATA ≤ rcv_buf_sizes.sum) (hat : c'.At rcv_buf_sizes (blk * TFTP_MAXDATA))
    (hb : c'.rcv_bufs = filled file rcv_buf_sizes rcv_bufs (blk * TFTP_MAXDATA)) (sent : Bool) :
    Goes file rcv_buf_sizes rcv_bufs c blk
      ({ c' with outmsg := .ack c'.expected, expected := (c'.expected + 1) % 2 ^ 16, i := 0,
                 result := if sent then none else some SYSERR },
        if sent then some c'.expected else none) := by
  -- After a block the number that is expected has changed, so it is acknowledged.
  have hmoved : (c'.expected + 1) % 2 ^ 16 ≠ c.expected := by
    have hexp := h.expected
    rw [he]
    omega
  have hprev : blk + 1 - 1 = blk := Nat.add_sub_cancel blk 1
  refine ⟨fun _ => hlt, ?_, ?_, ⟨_, hb⟩, ?_⟩
  · intro hnone
    rw [if_pos hmoved]
    have hexp : (c'.expected + 1) % 2 ^ 16 = (blk + 1) % 2 ^ 16 := by
      rw [he, h.expected]
      omega
    refine ⟨h.sizes, by omega, hlt, hexp, ?_, ?_, ?_, ?_⟩
    · intro a ha
      obtain rfl := TftpOut.ack.inj ha
      rw [hprev]
      exact ⟨by have := h.first; omega, he.trans h.expected⟩
    · rw [hprev]
      exact hroom
    · rw [hprev]
      exact ⟨hat.filesiz, hat.ind, hat.used, hat.place, hat.pointer⟩
    · rw [hprev]
      exact hb
  · intro n hn h0
    cases sent with
    | true => cases hn
    | false =>
      obtain rfl := Option.some.inj hn
      exact absurd h0 (by decide)
  · intro a ha
    rw [if_pos hmoved]
    cases sent with
    | true =>
      obtain rfl := Option.some.inj ha
      exact he.trans h.expected
    | false => cases ha

/-- The block that is expected goes into the buffers. -/
theorem Expects.block (h : c.Expects file rcv_buf_sizes rcv_bufs blk)
    (hf : file.length < 2 ^ 31) (sent : Bool) :
    Goes file rcv_buf_sizes rcv_bufs c blk (c.block rcv_buf_sizes (tftpData file blk) sent) := by
  -- The copy of the block, and what it leaves behind.
  have h512 : TFTP_MAXDATA = 512 := rfl
  obtain ⟨hlen, hlast⟩ := length_tftpBlock h.first h.last
  have hdata := fun j => tftpBlock_getD file blk j
  obtain ⟨c', hcopy, hsiz, hb, ⟨ho, -, he, -, hr⟩, hat⟩ :=
    copyBlock_eq h.sizes (tftpBlock file blk) c _ h.at_ h.bufs h.room hdata (by omega)
  have hn : (tftpData file blk).n - 4 = ((tftpBlock file blk).length : ℤ) := by
    change (4 + ((tftpBlock file blk).length : ℤ) - 4) = _
    omega
  rw [hlen] at hcopy hsiz hb hat
  unfold TftpGet.block
  dsimp only
  rw [tftpData_data, hcopy, hn]
  dsimp only
  by_cases hfull : rcv_buf_sizes.sum < min file.length (blk * TFTP_MAXDATA)
  · rw [decide_eq_true hfull, if_pos rfl]
    have hmin : min (min file.length (blk * TFTP_MAXDATA)) rcv_buf_sizes.sum =
        min file.length rcv_buf_sizes.sum := by
      omega
    rw [hmin] at hsiz hb
    exact Expects.block_full he hsiz hb
  have hroom : min file.length (blk * TFTP_MAXDATA) ≤ rcv_buf_sizes.sum := by omega
  have hmin : min (min file.length (blk * TFTP_MAXDATA)) rcv_buf_sizes.sum = min file.length
      (blk * TFTP_MAXDATA) := by
    omega
  rw [hmin] at hsiz hb
  rw [decide_eq_false hfull, if_neg (by decide)]
  by_cases hL : blk = tftpLast file
  · have hall : min file.length (blk * TFTP_MAXDATA) = min file.length rcv_buf_sizes.sum := by
      have hdiv : file.length < blk * TFTP_MAXDATA := by
        rw [hL, tftpLast, h512]
        omega
      omega
    rw [if_pos (by exact_mod_cast hlast.mpr hL)]
    rw [hall] at hsiz hb
    exact h.block_last he hL hsiz hb sent
  · have hlt : blk < tftpLast file := lt_of_le_of_ne h.last hL
    have hdiv : blk * TFTP_MAXDATA ≤ file.length := by
      rw [tftpLast, h512] at hlt
      rw [h512]
      omega
    have hp : min file.length (blk * TFTP_MAXDATA) = blk * TFTP_MAXDATA := by omega
    rw [if_neg (by exact_mod_cast mt hlast.mp hL)]
    rw [hp] at hroom hb hat
    exact h.block_next he hlt hroom (hat hroom) hb sent

/-- A step of the client, for any result of `udp_recvaddr` but a data packet with a wrong block that
looks right. -/
theorem Expects.tftp_send1 (h : c.Expects file rcv_buf_sizes rcv_bufs blk)
    (hf : file.length < 2 ^ 31) (hrun : c.result = none)
    {ret : TftpRecv} (hret : ∀ port inmsg, ret = .packet port inmsg →
      inmsg.tf_opcode = TFTP_DATA → inmsg.tf_dblk = c.expected →
      inmsg = tftpData file blk) (sent : Bool) :
        Goes file rcv_buf_sizes rcv_bufs c blk (c.tftp_send1 rcv_buf_sizes ret sent) := by
  cases ret with
  | syserr => exact h.fails rfl rfl rfl rfl
  -- The request or the acknowledgement is sent again, so nothing has changed but the round.
  | timeout =>
    simp only [TftpGet.tftp_send1]
    split
    next => exact h.fails rfl rfl rfl rfl
    next =>
      refine Goes.stays rfl ⟨h.sizes, h.first, h.last, h.expected, h.outmsg, h.room, ?_, h.bufs⟩ hrun ?_
      · exact ⟨h.at_.filesiz, h.at_.ind, h.at_.used, h.at_.place, h.at_.pointer⟩
      · intro a ha
        cases ho : c.outmsg with
        | rrq filename => simp [ho] at ha
        | ack tf_ablk =>
          simp only [ho, Option.some.injEq] at ha
          exact h.outmsg a (ha ▸ ho)
  | packet port inmsg =>
    -- The port of the sender is kept in every case.
    have hport : TftpGet.Expects file rcv_buf_sizes rcv_bufs { c with remport := port } blk :=
      ⟨h.sizes, h.first, h.last, h.expected, h.outmsg, h.room,
        ⟨h.at_.filesiz, h.at_.ind, h.at_.used, h.at_.place, h.at_.pointer⟩, h.bufs⟩
    simp only [TftpGet.tftp_send1]
    split
    next => exact Goes.stays rfl hport hrun (by simp)
    next =>
      split
      next => exact h.fails rfl rfl rfl rfl
      next =>
        split
        -- It is the block that is expected.
        next hd =>
          rw [hret port inmsg rfl hd.1 hd.2]
          have hgo := hport.block hf sent
          exact ⟨hgo.moved, hgo.running, hgo.result, hgo.outside, hgo.ack⟩
        next => exact Goes.stays rfl hport hrun (by simp)

end TftpGet

namespace Tftp.Ok

variable {s s' : Tftp}

/-- A step of the client keeps the invariant. -/
theorem receive (h : s.Ok file rcv_buf_sizes rcv_bufs) (hf : file.length < 2 ^ 31) {ret : TftpRecv}
    (hret : s.get.expected = s.blk % 2 ^ 16 → ∀ port inmsg, ret = .packet port inmsg →
      inmsg.tf_opcode = TFTP_DATA →
      inmsg.tf_dblk = s.get.expected → inmsg = tftpData file s.blk) {sent :
      Bool} (he : s.receive rcv_buf_sizes ret sent = some s') :
    s'.Ok file rcv_buf_sizes rcv_bufs := by
  unfold Tftp.receive at he
  split at he
  next => cases he
  next hrun =>
    have hnone : s.get.result = none := by simpa using hrun
    have hexp := h.running hnone
    have hgo := hexp.tftp_send1 hf hnone (hret hexp.expected) sent
    obtain rfl := Option.some.inj he
    -- The block that is expected does not become smaller.
    have hblk : s.blk ≤ if (s.get.tftp_send1 rcv_buf_sizes ret sent).1.expected ≠
        s.get.expected then s.blk + 1 else s.blk := by
      split <;> omega
    refine ⟨hgo.running, hgo.result, hgo.outside, le_trans h.blk hblk, ?_, ?_, ?_⟩
    · intro t ht
      obtain ⟨h1, h2, h3⟩ := h.sessions t ht
      exact ⟨h1, le_trans h2 hblk, h3⟩
    · intro d hd
      obtain ⟨h1, h2, h3⟩ := h.datagrams d hd
      exact ⟨h1, le_trans h2 hblk, h3⟩
    · intro a ha
      dsimp only at ha ⊢
      have hold : ∀ a ∈ s.acks, a.tf_ablk = a.blk % 2 ^ 16 ∧
          (a.blk < (if (s.get.tftp_send1 rcv_buf_sizes ret sent).1.expected ≠ s.get.expected then s.blk + 1
            else s.blk) ∨
            a.blk = (if (s.get.tftp_send1 rcv_buf_sizes ret sent).1.expected ≠ s.get.expected then s.blk + 1
              else s.blk) ∧
              (if (s.get.tftp_send1 rcv_buf_sizes ret sent).1.expected ≠ s.get.expected then s.blk + 1
                else s.blk) = tftpLast file) := by
        intro a ha
        obtain ⟨h1, h2⟩ := h.acks a ha
        refine ⟨h1, ?_⟩
        by_cases hm : (s.get.tftp_send1 rcv_buf_sizes ret sent).1.expected ≠ s.get.expected
        · have := hgo.moved hm
          rw [if_pos hm]
          omega
        · rw [if_neg hm]
          exact h2
      cases hack : (s.get.tftp_send1 rcv_buf_sizes ret sent).2 with
      | none =>
        rw [hack] at ha
        exact hold a ha
      | some tf_ablk =>
        rw [hack] at ha
        rcases List.mem_cons.mp ha with rfl | ha
        swap
        · exact hold a ha
        have hgoack := hgo.ack tf_ablk hack
        dsimp only
        by_cases hm : (s.get.tftp_send1 rcv_buf_sizes ret sent).1.expected ≠ s.get.expected
        · rw [if_pos hm] at hgoack
          rw [if_pos (.inl hm), if_pos hm]
          exact ⟨hgoack, .inl (by omega)⟩
        · rw [if_neg hm] at hgoack
          rw [if_neg hm]
          by_cases hres : (s.get.tftp_send1 rcv_buf_sizes ret sent).1.result ≠ none
          · rw [if_pos hres] at hgoack
            rw [if_pos (.inr hres)]
            exact ⟨hgoack.1, .inr ⟨rfl, hgoack.2⟩⟩
          · rw [if_neg hres] at hgoack
            rw [if_neg (by tauto)]
            exact ⟨hgoack.2, .inl (by omega)⟩

/-- A data packet that is not 65536 blocks late, and looks like the block that is expected, is this block. -/
theorem data (h : s.Ok file rcv_buf_sizes rcv_bufs) (hf : file.length < 2 ^ 31)
    {d : ℕ × ℕ} (hd : d ∈ s.datagrams) (hlate : s.blk < d.2 + 2 ^ 16)
    {sent : Bool} (he : s.receive rcv_buf_sizes (.packet d.1 (tftpData file d.2)) sent = some s') :
    s'.Ok file rcv_buf_sizes rcv_bufs := by
  obtain ⟨-, hle, -⟩ := h.datagrams d hd
  refine h.receive hf ?_ he
  rintro hexp port inmsg hret - hblk
  cases hret
  have hmod : d.2 % 2 ^ 16 = s.blk % 2 ^ 16 := hblk.trans hexp
  rw [eq_of_mod_eq hmod hle hlate]

/-- An acknowledgement that is not 65536 blocks late does not bring a session ahead of the client. -/
theorem ack (h : s.Ok file rcv_buf_sizes rcv_bufs) {j : ℕ}
    {t : TftpSession} {a : TftpAck} (ht : t ∈ s.sessions) (ha : a ∈ s.acks)
    (hlate : t.blk < a.blk + 2 ^ 16) (hfits : a.tf_ablk = t.blk % 2 ^ 16) (hlast : t.blk < tftpLast file) :
    Tftp.Ok file rcv_buf_sizes rcv_bufs
      { s with sessions := s.sessions.set j ⟨t.port, t.blk + 1⟩,
               datagrams := (t.port, t.blk + 1) :: s.datagrams } := by
  obtain ⟨h1, -, -⟩ := h.sessions t ht
  obtain ⟨hablk, hacked⟩ := h.acks a ha
  have hle : t.blk ≤ a.blk := le_of_mod_eq (hfits.symm.trans hablk) hlate
  have hahead : t.blk + 1 ≤ s.blk := by omega
  refine ⟨h.running, h.result, h.outside, h.blk, ?_, ?_, h.acks⟩
  · intro u hu
    rcases List.mem_or_eq_of_mem_set hu with hu | rfl
    · exact h.sessions u hu
    · exact ⟨Nat.le_add_left 1 _, hahead, hlast⟩
  · intro d hd
    rcases List.mem_cons.mp hd with rfl | hd
    · exact ⟨Nat.le_add_left 1 _, hahead, hlast⟩
    · exact h.datagrams d hd

/-- Every step of the server, of the network or of the client keeps the invariant. -/
theorem exec (h : s.Ok file rcv_buf_sizes rcv_bufs) (hf : file.length < 2 ^ 31)
    {e : TftpEvent} (he : s.exec file rcv_buf_sizes e = some s') :
    s'.Ok file rcv_buf_sizes rcv_bufs := by
  cases e with
  -- A request starts a session, and the first block is under way.
  | request port =>
    obtain rfl := Option.some.inj he
    have hone : 1 ≤ tftpLast file := Nat.le_add_left 1 _
    refine ⟨h.running, h.result, h.outside, h.blk, ?_, ?_, h.acks⟩
    · intro t ht
      rcases List.mem_cons.mp ht with rfl | ht
      · exact ⟨le_rfl, h.blk, hone⟩
      · exact h.sessions t ht
    · intro d hd
      rcases List.mem_cons.mp hd with rfl | hd
      · exact ⟨le_rfl, h.blk, hone⟩
      · exact h.datagrams d hd
  -- An acknowledgement moves a session on, or ends it behind the last block.
  | ack j k =>
    simp only [Tftp.exec] at he
    split at he
    next t a ht ha =>
      have htm := List.mem_of_getElem? ht
      split at he
      next => cases he
      next hlate =>
        push Not at hlate
        split at he
        next =>
          obtain rfl := Option.some.inj he
          exact h
        next hfits =>
          split at he
          next hlast =>
            obtain rfl := Option.some.inj he
            exact h.ack htm (List.mem_of_getElem? ha) hlate.2 (by simpa using hfits) hlast
          next =>
            obtain rfl := Option.some.inj he
            exact ⟨h.running, h.result, h.outside, h.blk, fun u hu =>
              h.sessions u (List.mem_of_mem_eraseIdx hu), h.datagrams, h.acks⟩
    next => cases he
  -- A block is sent again as it was.
  | resend j =>
    obtain ⟨t, ht, rfl⟩ := Option.map_eq_some_iff.mp he
    refine ⟨h.running, h.result, h.outside, h.blk, h.sessions, ?_, h.acks⟩
    intro d hd
    rcases List.mem_cons.mp hd with rfl | hd
    · exact h.sessions t (List.mem_of_getElem? ht)
    · exact h.datagrams d hd
  -- A block arrives at the client.
  | data k sent =>
    simp only [Tftp.exec] at he
    split at he
    next d hd =>
      split at he
      next => cases he
      next hlate => exact h.data hf (List.mem_of_getElem? hd) (by omega) he
    next => cases he
  | error port =>
    refine h.receive hf ?_ he
    rintro - _ _ hret hop -
    cases hret
    exact absurd hop (by decide)
  | timeout sent =>
    refine h.receive hf ?_ he
    rintro - _ _ hret
    cases hret
  | syserr =>
    refine h.receive hf ?_ he
    rintro - _ _ hret
    cases hret

end Tftp.Ok

/-- The invariant holds at the beginning. -/
theorem tftp_start (serverip : ℕ) (filename : CString) (registered sent : Bool) :
    Tftp.Ok file rcv_buf_sizes rcv_bufs ⟨.start rcv_buf_sizes serverip filename rcv_bufs registered sent,
      1, [], [], []⟩ := by
  have hno : SYSERR < 0 := by decide
  have hzero : rcv_bufs = filled file rcv_buf_sizes rcv_bufs 0 := filled_zero.symm
  -- The failures in front of the transfer have touched no buffer.
  have hfail {c : TftpGet} (hb : c.rcv_bufs = rcv_bufs) (hr : c.result = some SYSERR) :
      Tftp.Ok file rcv_buf_sizes rcv_bufs ⟨c, 1, [], [], []⟩ := by
    refine ⟨by simp [hr], ?_, ⟨0, hb.trans hzero⟩, le_rfl, by simp, by simp, by simp⟩
    intro n hn h0
    obtain rfl := Option.some.inj (hr.symm.trans hn)
    omega
  unfold TftpGet.start
  dsimp only
  split
  next => exact hfail rfl rfl
  next hargs =>
    split
    next => exact hfail rfl rfl
    next hany =>
      split
      next => exact hfail rfl rfl
      next =>
        split
        next => exact hfail rfl rfl
        next =>
          have hpos : ∀ n ∈ rcv_buf_sizes, 0 < n := by
            intro n hn
            by_contra h0
            exact hany (List.any_eq_true.mpr ⟨n, hn, by simpa using h0⟩)
          -- The request was sent: the transfer is at the first byte of the first buffer.
          refine ⟨fun _ => ?_, by simp, ⟨0, hzero⟩, le_rfl, by simp, by simp, by simp⟩
          have hat : TftpGet.At rcv_buf_sizes ⟨.rrq filename, TFTP_PORT,
              1, 0, 0, 0, 0, 0, rcv_bufs, none⟩ 0 :=
            ⟨rfl, Nat.pos_of_ne_zero fun h => hargs (.inr h), Nat.zero_le _, rfl, rfl⟩
          have h0 : (1 - 1) * TFTP_MAXDATA = 0 := by decide
          refine ⟨hpos, le_rfl, Nat.le_add_left 1 _, (Nat.mod_eq_of_lt (by norm_num)).symm, by simp,
            ?_, ?_, ?_⟩ <;> rw [h0]
          · exact Nat.zero_le _
          · exact hat
          · exact hzero

/-- The invariant holds in every run. -/
theorem TftpRun.ok (hf : file.length < 2 ^ 31) {s : Tftp} (hr : TftpRun file rcv_buf_sizes rcv_bufs s) :
    s.Ok file rcv_buf_sizes rcv_bufs := by
  induction hr with
  | start => exact tftp_start _ _ _ _
  | step _ he ih => exact ih.exec hf he

/-- For every file of less than 2^31 bytes, every list of buffers and every behaviour of the
network: nothing is written outside the buffers, and if `tftpget_mb` returns a number that is not
negative, it is the smaller one of the size of the file and the size of the buffers, and the buffers
hold so many bytes of the file. -/
theorem tftpget_mb_ok (hf : file.length < 2 ^ 31) {s : Tftp} (hr : TftpRun file rcv_buf_sizes rcv_bufs s) :
    (∀ k o, rcv_buf_sizes.getD k 0 ≤ o → s.get.rcv_bufs k o = rcv_bufs k o) ∧
      ∀ n, s.get.result = some n → 0 ≤ n → Delivered file rcv_buf_sizes rcv_bufs s.get n := by
  have h := hr.ok hf
  refine ⟨?_, h.result⟩
  intro k o ho
  obtain ⟨p, hp⟩ := h.outside
  rw [hp, filled, if_neg (by omega)]

/-- A file of three bytes into a buffer of two. -/
theorem tftpget_mb_short : ∃ s, TftpRun [10, 20, 30] [2] (fun _ _ => 0) s ∧ s.get.result = some 2 ∧
    Delivered [10, 20, 30] [2] (fun _ _ => 0) s.get 2 ∧ s.get.rcv_bufs 0 1 = 20 := by
  have h₀ := @TftpRun.start [10, 20, 30] [2] (fun _ _ => 0) 1 [97] true true
  have h₁ := h₀.step (e := .request 5000) rfl
  have h₂ := h₁.step (e := .data 0 true) rfl
  refine ⟨_, h₂, ?_, (tftpget_mb_ok (by decide) h₂).2 2 ?_ (by decide), ?_⟩ <;> decide +kernel

end Xinu
