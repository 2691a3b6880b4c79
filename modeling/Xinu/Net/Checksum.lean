import Xinu.Eth.Receive
import Xinu.Lib.OnesComplement
import Xinu.Net.Bounds
import Xinu.Net.ByteOrder

/-!
# Checksums

`ipcksum` and `icmp_cksum` against the sum of words with end-around carry, of which a checksum is
the complement. Both fold the sum once. If this makes a carry again, the result is one too high, and
`ipcksum` also takes the sum `0x10000` for that of a right header. `ip_out` computes both checksums,
on the bytes of a packet whose fields are in host byte order.
-/

namespace Xinu

open OnesComplement

/-! ## What the checksums are -/

/-- Words of 16 bits from `p` on. -/
def words (m : ℕ → UInt8) (p n : ℕ) : List ℕ := (List.range n).map fun k => be16 m (p + 2 * k)

/-- The words of an IP header. -/
def ipWords (m : ℕ → UInt8) : List ℕ := words m 14 10

/-- The words of an ICMP message of `n` bytes; behind an odd one there is a zero. -/
def icmpWords (m : ℕ → UInt8) (buf n : ℕ) : List ℕ :=
  words m buf (n / 2) ++ if n % 2 = 1 then [(m (buf + 2 * (n / 2))).toNat * 2 ^ 8] else []

/-- The checksum of words: the complement of their sum with end-around carry. -/
def checksum (l : List ℕ) : ℕ := 0xffff - OnesComplement.sum (2 ^ 16) l

/-- Folding the sum of the words makes no carry. -/
def NoCarry (l : List ℕ) : Prop := fold (2 ^ 16) l.sum < 2 ^ 16

instance decidableNoCarry (l : List ℕ) : Decidable (NoCarry l) :=
  inferInstanceAs (Decidable (fold (2 ^ 16) l.sum < 2 ^ 16))

/-- Two checksums are the same as numbers with end-around carry. -/
def SameOnes (c d : ℕ) : Prop := c ≡ d [MOD 2 ^ 16 - 1]

/-- A packet passes the checks of `ip_in` on its checksums. -/
def ChecksPass (m : ℕ → UInt8) : Prop :=
  (ipcksum m).1 = 0 ∧ (net_ipproto m = IP_ICMP →
    (icmp_cksum m 34 ((netpacket m).net_iplen - IP_HDR_LEN)).1 = 0)

/-! ## `ip_out` -/

/-- `udp_hton(pktptr)`. -/
def udp_hton (m : ℕ → UInt8) : ℕ → UInt8 :=
  let m := Bytes.store16 m 34 (ntohs (Bytes.le16 m 34))
  let m := Bytes.store16 m 36 (ntohs (Bytes.le16 m 36))
  Bytes.store16 m 38 (ntohs (Bytes.le16 m 38))

/-- `icmp_hton(pktptr)`. -/
def icmp_hton (m : ℕ → UInt8) : ℕ → UInt8 :=
  let m := Bytes.store16 m 36 (ntohs (Bytes.le16 m 36))
  let m := Bytes.store16 m 38 (ntohs (Bytes.le16 m 38))
  Bytes.store16 m 40 (ntohs (Bytes.le16 m 40))

/-- `ip_hton(pktptr)`. -/
def ip_hton (m : ℕ → UInt8) : ℕ → UInt8 :=
  let m := Bytes.store16 m 16 (ntohs (Bytes.le16 m 16))
  let m := Bytes.store16 m 18 (ntohs (Bytes.le16 m 18))
  let m := Bytes.store16 m 20 (ntohs (Bytes.le16 m 20))
  let m := Bytes.store32 m 26 (ntohl (Bytes.le32 m 26))
  Bytes.store32 m 30 (ntohl (Bytes.le32 m 30))

/-- `eth_hton(pktptr)`. -/
def eth_hton (m : ℕ → UInt8) : ℕ → UInt8 := Bytes.store16 m 12 (ntohs (Bytes.le16 m 12))

/-- The part of `ip_out` for the encapsulated protocol. -/
def protocol_hton (m : ℕ → UInt8) : ℕ → UInt8 :=
  if net_ipproto m = IP_UDP then udp_hton (Bytes.store16 m 40 0)
  else if net_ipproto m = IP_ICMP then
    let m := Bytes.store16 (icmp_hton m) 36 0
    let len : ℤ := Bytes.le16 m 16 - IP_HDR_LEN
    let cksum := (icmp_cksum m 34 len).1
    Bytes.store16 m 36 (0xffff &&& ntohs cksum)
  else m

/-- `ip_out(pktptr)`: the packet that is written to the device, and how many bytes of it. -/
def ip_out (m : ℕ → UInt8) : (ℕ → UInt8) × ℤ :=
  let pktlen := Bytes.le16 m 16 + ETH_HDR_LEN
  let m := Bytes.store16 (ip_hton (protocol_hton m)) 24 0
  let cksum := (ipcksum m).1
  (eth_hton (Bytes.store16 m 24 (0xffff &&& ntohs cksum)), pktlen)

/-! ## Sums of words -/

variable {m : ℕ → UInt8} {buf n : ℕ}

/-- A field of 16 bits is two bytes. -/
theorem be16_eq (m : ℕ → UInt8) (i : ℕ) : be16 m i = Bytes.be16 m i := by
  unfold be16 Bytes.be16
  omega

/-- The words of a stretch are the first one and those behind it. -/
theorem words_succ (m : ℕ → UInt8) (p n : ℕ) : words m p (n + 1) = be16 m p :: words m (p + 2) n := by
  unfold words
  rw [List.range_succ_eq_map, List.map_cons, List.map_map]
  refine congrArg₂ List.cons rfl (List.map_congr_left fun k _ => ?_)
  rw [Function.comp_apply, Nat.mul_succ, ← Nat.add_assoc, Nat.add_right_comm]

/-- The loop of both functions adds up the words. -/
theorem sumWords_eq (m : ℕ → UInt8) : ∀ n p c : ℕ, (sumWords m n p c).1 = c + (words m p n).sum
  | 0, p, c => rfl
  | n + 1, p, c => by rw [sumWords, words_succ, List.sum_cons, sumWords_eq m n, Nat.add_assoc]

/-- The words of a stretch are below `2 ^ 16`. -/
theorem words_lt {x p : ℕ} (h : x ∈ words m p n) : x < 2 ^ 16 := by
  obtain ⟨k, -, rfl⟩ := List.mem_map.mp h
  exact be16_lt m _

/-- The words of the header are below `2 ^ 16`. -/
theorem ipWords_lt {x : ℕ} (h : x ∈ ipWords m) : x < 2 ^ 16 := words_lt h

/-- The words that are summed for an ICMP message are below `2 ^ 16`. -/
theorem icmpWords_lt {x : ℕ} (h : x ∈ icmpWords m buf n) : x < 2 ^ 16 := by
  rcases List.mem_append.mp h with h | h
  · exact words_lt h
  · have hbyte := (m (buf + 2 * (n / 2))).toNat_lt
    split_ifs at h
    · rw [List.mem_singleton.mp h]
      omega
    · exact absurd h List.not_mem_nil

/-- A sum of words is bounded by their number. -/
theorem sum_le_of_lt {l : List ℕ} (h : ∀ x ∈ l, x < 2 ^ 16) : l.sum ≤ l.length * (2 ^ 16 - 1) := by
  induction l with
  | nil => simp
  | cons x l ih =>
    have hx : x < 2 ^ 16 := h x List.mem_cons_self
    have hl := ih fun y hy => h y (List.mem_cons_of_mem x hy)
    rw [List.sum_cons, List.length_cons, Nat.succ_mul]
    omega

/-- A message that is not too long has a sum that is folded without a second carry. -/
theorem icmpWords_sum_lt (hn : n < 2 ^ 16) : (icmpWords m buf n).sum < 2 ^ 16 * (2 ^ 16 - 1) := by
  have hsum : (icmpWords m buf n).sum ≤ _ := sum_le_of_lt fun x hx => icmpWords_lt hx
  have hlen : (icmpWords m buf n).length ≤ 2 ^ 15 := by
    unfold icmpWords words
    rw [List.length_append, List.length_map, List.length_range]
    split_ifs
    · rw [List.length_singleton]
      omega
    · rw [List.length_nil]
      omega
  have hmul := Nat.mul_le_mul_right (2 ^ 16 - 1) hlen
  omega

/-- The words of the header have a small sum. -/
theorem ipWords_sum_le : (ipWords m).sum ≤ 10 * (2 ^ 16 - 1) := by
  have hsum : (ipWords m).sum ≤ _ := sum_le_of_lt fun x hx => ipWords_lt hx
  rwa [ipWords, words, List.length_map, List.length_range] at hsum

/-- The lowest 16 bits of the folded sum. -/
theorem fold_mod (x : ℕ) : (x + x / 2 ^ 16) % 2 ^ 16 = fold (2 ^ 16) x % 2 ^ 16 := by
  unfold fold
  omega

/-- `ipcksum` returns the complement of the sum folded once, with 0 for a result of all ones. -/
theorem ipcksum_eq (m : ℕ → UInt8) : (ipcksum m).1 =
    if 0xffff - fold (2 ^ 16) (ipWords m).sum % 2 ^ 16 = 0xffff then 0 else 0xffff - fold (2 ^ 16)
    (ipWords m).sum % 2 ^ 16 := by
  unfold ipcksum
  dsimp only
  rw [sumWords_eq, Nat.zero_add, fold_mod]
  rfl

/-- `icmp_cksum` returns the complement of the sum folded once. -/
theorem icmp_cksum_eq (m : ℕ → UInt8) (buf n : ℕ) :
    (icmp_cksum m buf n).1 = 0xffff - fold (2 ^ 16) (icmpWords m buf n).sum % 2 ^ 16 := by
  have hcount : ((n : ℤ) / 2).toNat = n / 2 := by omega
  have hodd : (n : ℤ) % 2 ≠ 0 ↔ n % 2 = 1 := by omega
  have hsum : (if (n : ℤ) % 2 ≠ 0 then (sumWords m (n / 2) buf 0).1 + (m (buf + 2 * (n / 2))).toNat * 2 ^ 8
      else (sumWords m (n / 2) buf 0).1) = (icmpWords m buf n).sum := by
    rw [icmpWords, List.sum_append, sumWords_eq, Nat.zero_add]
    by_cases h : n % 2 = 1
    · rw [if_pos (hodd.mpr h), if_pos h, List.sum_singleton]
    · rw [if_neg (hodd.not.mpr h), if_neg h, List.sum_nil, Nat.add_zero]
  unfold icmp_cksum
  dsimp only
  rw [hcount, hsum, fold_mod]

/-! ## When a checksum is right -/

/-- A sum that one fold brings below `2 ^ 16` is found as it is; the others are one too low. -/
theorem rep_cases {x : ℕ} (hx : x < 2 ^ 16 * (2 ^ 16 - 1)) :
    fold (2 ^ 16) x < 2 ^ 16 ∧ rep (2 ^ 16) x = fold (2 ^ 16) x ∨
      2 ^ 16 ≤ fold (2 ^ 16) x ∧ rep (2 ^ 16) x = fold (2 ^ 16) x % 2 ^ 16 + 1 := by
  rcases Nat.lt_or_ge (fold (2 ^ 16) x) (2 ^ 16) with h | h
  · exact .inl ⟨h, rep_fold (by norm_num) h⟩
  · exact .inr ⟨h, rep_fold_carry (by norm_num) hx h⟩

/-- `ipcksum` is the checksum exactly if the fold makes no carry. -/
theorem ipcksum_right (h : (ipWords m).sum ≠ 0) :
    (ipcksum m).1 = checksum (ipWords m) ↔ NoCarry (ipWords m) := by
  have hle := ipWords_sum_le (m := m)
  have hlt : rep (2 ^ 16) (ipWords m).sum < 2 ^ 16 := rep_lt (by norm_num)
  have hne : rep (2 ^ 16) (ipWords m).sum ≠ 0 := rep_eq_zero.not.mpr h
  rw [ipcksum_eq, checksum, sum_eq (by norm_num) fun x hx => ipWords_lt hx, NoCarry]
  rcases rep_cases (x := (ipWords m).sum) (by omega) with ⟨hcarry, hrep⟩ | ⟨hcarry, hrep⟩
  · rw [hrep] at hne ⊢
    rw [Nat.mod_eq_of_lt hcarry, if_neg (by omega)]
    exact iff_of_true rfl hcarry
  · rw [hrep] at hlt ⊢
    refine iff_of_false ?_ (Nat.not_lt.mpr hcarry)
    split_ifs <;> omega

/-- `icmp_cksum` is the checksum exactly if the fold makes no carry. -/
theorem icmp_cksum_right (hn : n < 2 ^ 16) :
    (icmp_cksum m buf n).1 = checksum (icmpWords m buf n) ↔ NoCarry (icmpWords m buf n) := by
  have hlt : rep (2 ^ 16) (icmpWords m buf n).sum < 2 ^ 16 := rep_lt (by norm_num)
  rw [icmp_cksum_eq, checksum, sum_eq (by norm_num) fun x hx => icmpWords_lt hx, NoCarry]
  rcases rep_cases (icmpWords_sum_lt hn) with ⟨hcarry, hrep⟩ | ⟨hcarry, hrep⟩
  · rw [hrep, Nat.mod_eq_of_lt hcarry]
    exact iff_of_true rfl hcarry
  · rw [hrep] at hlt ⊢
    refine iff_of_false ?_ (Nat.not_lt.mpr hcarry)
    omega

/-! ## The stored checksum -/

/-- What is stored at a place is stored there last. -/
theorem store16_store16 (b : ℕ → UInt8) (i x y : ℕ) :
    Bytes.store16 (Bytes.store16 b i x) i y = Bytes.store16 b i y := by
  unfold Bytes.store16
  rw [Function.update_comm (by omega), Function.update_idem,
    Function.update_comm (by omega), Function.update_idem]

/-- A checksum that is stored is read back. -/
theorem be16_store {c : ℕ} (hc : c < 2 ^ 16) (b : ℕ → UInt8) (i : ℕ) :
    be16 (Bytes.store16 b i (0xffff &&& ntohs c)) i = c := by
  have hmask : 0xffff &&& ntohs c = ntohs c := by
    rw [Nat.and_comm]
    exact (Nat.and_two_pow_sub_one_eq_mod (ntohs c) 16).trans (Nat.mod_eq_of_lt (ntohs_lt hc))
  rw [hmask, be16_eq, ← ntohs_le16, Bytes.le16_store16 (ntohs_lt hc), ntohs_ntohs hc]

/-- The words of a stretch depend only on the bytes from its start on. -/
theorem words_congr {b : ℕ → UInt8} {p : ℕ} (h : ∀ j, p ≤ j → m j = b j) : words m p n = words b p n := by
  refine List.map_congr_left fun k _ => ?_
  rw [be16_eq, be16_eq, Bytes.be16_congr (h _ (by omega)) (h _ (by omega))]

/-- The words of a message depend on its bytes. -/
theorem icmpWords_congr {b : ℕ → UInt8} (h : ∀ j, buf ≤ j → m j = b j) :
    icmpWords m buf n = icmpWords b buf n := by
  rw [icmpWords, icmpWords, words_congr h, h _ (by omega)]

/-- The sum of the header is that without the checksum, and the checksum. -/
theorem ipWords_sum (m : ℕ → UInt8) : (ipWords m).sum = (ipWords (Bytes.store16 m 24 0)).sum + be16 m 24 := by
  have hother (i : ℕ) (h : i + 1 < 24 ∨ 26 ≤ i) : be16 (Bytes.store16 m 24 0) i = be16 m i := by
    rw [be16_eq, be16_eq]
    exact Bytes.be16_congr (Bytes.store16_of_ne (by omega) (by omega))
      (Bytes.store16_of_ne (by omega) (by omega))
  have hzero : be16 (Bytes.store16 m 24 0) 24 = 0 := by
    rw [be16_eq, ← ntohs_le16, Bytes.le16_store16 (by norm_num)]
    rfl
  unfold ipWords
  simp only [words_succ, List.sum_cons, Nat.reduceAdd]
  rw [hzero, hother 14 (by omega), hother 16 (by omega), hother 18 (by omega),
    hother 20 (by omega), hother 22 (by omega),
    hother 26 (by omega), hother 28 (by omega), hother 30 (by omega), hother 32 (by omega)]
  simp only [words, List.range_zero, List.map_nil, List.sum_nil]
  omega

/-- The sum of an ICMP message with a header is that without the checksum, and the checksum. -/
theorem icmpWords_sum (m : ℕ → UInt8) (hn : 4 ≤ n) :
    (icmpWords m 34 n).sum = (icmpWords (Bytes.store16 m 36 0) 34 n).sum + be16 m 36 := by
  obtain ⟨k, hk⟩ : ∃ k, n / 2 = k + 1 + 1 := ⟨n / 2 - 2, by omega⟩
  have hfirst : be16 (Bytes.store16 m 36 0) 34 = be16 m 34 := by
    rw [be16_eq, be16_eq]
    exact Bytes.be16_congr (Bytes.store16_of_ne (by omega) (by omega))
      (Bytes.store16_of_ne (by omega) (by omega))
  have hzero : be16 (Bytes.store16 m 36 0) 36 = 0 := by
    rw [be16_eq, ← ntohs_le16, Bytes.le16_store16 (by norm_num)]
    rfl
  have hbehind (j : ℕ) (hj : 38 ≤ j) : Bytes.store16 m 36 0 j = m j :=
    Bytes.store16_of_ne (by omega) (by omega)
  unfold icmpWords
  rw [hk, words_succ, words_succ, words_succ, words_succ,
    hfirst, hzero, words_congr hbehind, hbehind _ (by omega)]
  simp only [List.cons_append, List.sum_cons, Nat.reduceAdd]
  omega

/-- The header with the checksum that `ipcksum` has found passes, also where this is one too high. -/
theorem ip_accepts {x : ℕ} (hx : x < 2 ^ 16 * (2 ^ 16 - 1)) {c : ℕ}
    (hc : c = if 0xffff - fold (2 ^ 16) x % 2 ^ 16 = 0xffff then 0 else 0xffff - fold (2 ^ 16) x % 2 ^ 16) :
    fold (2 ^ 16) (x + c) % 2 ^ 16 = 0xffff ∨ fold (2 ^ 16) (x + c) % 2 ^ 16 = 0 := by
  by_cases hzero : 0xffff - fold (2 ^ 16) x % 2 ^ 16 = 0xffff
  · -- the stored 0 leaves the sum as it is
    rw [if_pos hzero] at hc
    rw [hc, Nat.add_zero]
    omega
  rw [if_neg hzero] at hc
  rcases Nat.lt_or_ge (fold (2 ^ 16) x) (2 ^ 16) with h | h
  · rw [Nat.mod_eq_of_lt h] at hc
    have hfold : fold (2 ^ 16) (x + c) = 2 ^ 16 - 1 := hc ▸ fold_complement (by norm_num) h
    rw [hfold]
    exact .inl rfl
  · have hfold : fold (2 ^ 16) (x + c) = 2 ^ 16 := hc ▸ fold_complement_carry (by norm_num) hx h
    rw [hfold]
    exact .inr rfl

/-- A message with the checksum that `icmp_cksum` has found passes exactly if this is right. -/
theorem icmp_accepts {x : ℕ} (hx : x < 2 ^ 16 * (2 ^ 16 - 1))
    {c : ℕ} (hc : c = 0xffff - fold (2 ^ 16) x % 2 ^ 16) :
    fold (2 ^ 16) (x + c) % 2 ^ 16 = 0xffff ↔ fold (2 ^ 16) x < 2 ^ 16 := by
  rcases Nat.lt_or_ge (fold (2 ^ 16) x) (2 ^ 16) with h | h
  · rw [Nat.mod_eq_of_lt h] at hc
    have hfold : fold (2 ^ 16) (x + c) = 2 ^ 16 - 1 := hc ▸ fold_complement (by norm_num) h
    rw [hfold]
    exact iff_of_true rfl h
  · have hfold : fold (2 ^ 16) (x + c) = 2 ^ 16 := hc ▸ fold_complement_carry (by norm_num) hx h
    rw [hfold]
    exact iff_of_false (by norm_num) (Nat.not_lt.mpr h)

/-- A sum that is not 0 is one of a right checksum exactly if it is a multiple of `2 ^ 16 - 1`. -/
theorem sameOnes_iff {x c : ℕ} : SameOnes c (0xffff - rep (2 ^ 16) x) ↔ (x + c) % (2 ^ 16 - 1) = 0 := by
  have hlt : rep (2 ^ 16) x < 2 ^ 16 := rep_lt (by norm_num)
  have hmod : x % (2 ^ 16 - 1) = rep (2 ^ 16) x % (2 ^ 16 - 1) := by
    by_cases h0 : x = 0
    · rw [h0]
      rfl
    · conv_lhs => rw [eq_rep_add (B := 2 ^ 16) h0, Nat.add_mul_mod_self_left]
  unfold SameOnes Nat.ModEq
  omega

/-- A sum in range and its fold are the same modulo `2 ^ 16 - 1`. -/
theorem fold_mod_pred (x : ℕ) : fold (2 ^ 16) x % (2 ^ 16 - 1) = x % (2 ^ 16 - 1) := by
  conv_rhs => rw [← fold_add (B := 2 ^ 16) (x := x) (by norm_num), Nat.add_mul_mod_self_left]

/-- When the check of the header passes. -/
theorem ipcksum_eq_zero : (ipcksum m).1 = 0 ↔
    fold (2 ^ 16) (ipWords m).sum % 2 ^ 16 = 0xffff ∨ fold (2 ^ 16) (ipWords m).sum % 2 ^ 16 = 0 := by
  rw [ipcksum_eq]
  split_ifs <;> omega

/-- When the check of an ICMP message passes. -/
theorem icmp_cksum_eq_zero :
    (icmp_cksum m buf n).1 = 0 ↔ fold (2 ^ 16) (icmpWords m buf n).sum % 2 ^ 16 = 0xffff := by
  rw [icmp_cksum_eq]
  omega

/-- Headers with a wrong checksum are rejected, except those with a sum that folds to `2 ^ 16`. -/
theorem ip_rejects (m : ℕ → UInt8) :
    (¬ SameOnes (be16 m 24) (checksum (ipWords (Bytes.store16 m 24 0))) → (ipcksum m).1 ≠ 0) ↔
      fold (2 ^ 16) (ipWords m).sum ≠ 2 ^ 16 := by
  have hle := ipWords_sum_le (m := m)
  have hlt : fold (2 ^ 16) (ipWords m).sum < 2 * 2 ^ 16 - 1 := fold_lt (by norm_num) (by omega)
  have hmod := fold_mod_pred (ipWords m).sum
  rw [checksum, sum_eq (by norm_num) fun x hx => ipWords_lt hx,
    sameOnes_iff, ← ipWords_sum, ← hmod, ne_eq, ipcksum_eq_zero]
  generalize fold (2 ^ 16) (ipWords m).sum = f at hlt ⊢
  omega

/-- ICMP messages with a wrong checksum are rejected. -/
theorem icmp_rejects (m : ℕ → UInt8) (hn : 4 ≤ n) (hlen : n < 2 ^ 16)
    (h : ¬ SameOnes (be16 m 36) (checksum (icmpWords (Bytes.store16 m 36 0) 34 n))) :
    (icmp_cksum m 34 n).1 ≠ 0 := by
  have hlt : fold (2 ^ 16) (icmpWords m 34 n).sum < 2 * 2 ^ 16 - 1 :=
    fold_lt (by norm_num) (icmpWords_sum_lt hlen)
  have hmod := fold_mod_pred (icmpWords m 34 n).sum
  rw [checksum, sum_eq (by norm_num) fun x hx => icmpWords_lt hx,
    sameOnes_iff, ← icmpWords_sum m hn, ← hmod] at h
  rw [ne_eq, icmp_cksum_eq_zero]
  generalize fold (2 ^ 16) (icmpWords m 34 n).sum = f at hlt h ⊢
  omega

/-- A header that is not all zero has a sum that is not 0. -/
theorem ipWords_sum_ne_zero {j : ℕ} (hlo : 14 ≤ j) (hhi : j < 34) (h : m j ≠ 0) : (ipWords m).sum ≠ 0 := by
  intro hsum
  have hword : be16 m (14 + 2 * ((j - 14) / 2)) = 0 :=
    List.sum_eq_zero_iff_forall_eq_nat.mp hsum _
      (List.mem_map.mpr ⟨(j - 14) / 2, List.mem_range.mpr (by omega), rfl⟩)
  have hbyte : (m j).toNat ≠ 0 := fun h0 => h (UInt8.toNat_inj.mp h0)
  unfold be16 at hword
  -- the byte is the first or the second one of its word
  rcases Nat.mod_two_eq_zero_or_one j with hj | hj
  · rw [show 14 + 2 * ((j - 14) / 2) = j by omega] at hword
    omega
  · rw [show 14 + 2 * ((j - 14) / 2) + 1 = j by omega] at hword
    omega

/-! ## The packets of `ip_out` -/

/-- What `ip_out` has made of the encapsulated protocol is sent so, and the protocol too. -/
theorem ip_out_byte (m : ℕ → UInt8) {j : ℕ} (hj : j = 23 ∨ 34 ≤ j) : (ip_out m).1 j = protocol_hton m j := by
  unfold ip_out eth_hton ip_hton
  dsimp only
  rw [Bytes.store16_of_ne (by omega) (by omega), Bytes.store16_of_ne (by omega) (by omega),
    Bytes.store16_of_ne (by omega) (by omega), Bytes.store32_of_ne (by omega), Bytes.store32_of_ne (by omega),
    Bytes.store16_of_ne (by omega) (by omega), Bytes.store16_of_ne (by omega) (by omega),
    Bytes.store16_of_ne (by omega) (by omega)]

/-- The headers before the encapsulated one stay there. -/
theorem protocol_hton_byte (m : ℕ → UInt8) {j : ℕ} (hj : j < 34) : protocol_hton m j = m j := by
  unfold protocol_hton
  split_ifs
  · unfold udp_hton
    rw [Bytes.store16_of_ne (by omega) (by omega), Bytes.store16_of_ne (by omega) (by omega),
      Bytes.store16_of_ne (by omega) (by omega), Bytes.store16_of_ne (by omega) (by omega)]
  · unfold icmp_hton
    rw [Bytes.store16_of_ne (by omega) (by omega), Bytes.store16_of_ne (by omega) (by omega),
      Bytes.store16_of_ne (by omega) (by omega), Bytes.store16_of_ne (by omega) (by omega),
      Bytes.store16_of_ne (by omega) (by omega)]
  · rfl

/-- A number that is stored in the other order is read in network byte order. -/
theorem be16_hton (b : ℕ → UInt8) (i : ℕ) :
    Bytes.be16 (Bytes.store16 b i (ntohs (Bytes.le16 b i))) i = Bytes.le16 b i := by
  have hlt := Bytes.le16_lt b i
  rw [← ntohs_le16, Bytes.le16_store16 (ntohs_lt hlt), ntohs_ntohs hlt]

/-- The length of the datagram that is sent. -/
theorem ip_out_iplen (m : ℕ → UInt8) : (netpacket (ip_out m).1).net_iplen = Bytes.le16 m 16 := by
  have hbyte (j : ℕ) (hj : j = 16 ∨ j = 17) :
      (ip_out m).1 j = Bytes.store16 (protocol_hton m) 16 (ntohs (Bytes.le16 (protocol_hton m) 16)) j := by
    unfold ip_out eth_hton ip_hton
    dsimp only
    rw [Bytes.store16_of_ne (by omega) (by omega), Bytes.store16_of_ne (by omega) (by omega),
      Bytes.store16_of_ne (by omega) (by omega), Bytes.store32_of_ne (by omega),
        Bytes.store32_of_ne (by omega),
      Bytes.store16_of_ne (by omega) (by omega), Bytes.store16_of_ne (by omega) (by omega)]
  have hsame : Bytes.le16 (protocol_hton m) 16 = Bytes.le16 m 16 := by
    unfold Bytes.le16
    rw [protocol_hton_byte m (by omega), protocol_hton_byte m (by omega)]
  have hword : be16 (ip_out m).1 16 = Bytes.le16 m 16 := by
    rw [be16_eq, Bytes.be16_congr (hbyte 16 (.inl rfl)) (hbyte 17 (.inr rfl)), be16_hton, hsame]
  exact congrArg Int.ofNat hword

/-- The header of a packet that is sent passes the check. -/
theorem ip_out_header (m : ℕ → UInt8) : (ipcksum (ip_out m).1).1 = 0 := by
  -- the header before and after the checksum is stored
  obtain ⟨b, hb⟩ : ∃ b, b = Bytes.store16 (ip_hton (protocol_hton m)) 24 0 := ⟨_, rfl⟩
  have hout : (ip_out m).1 = eth_hton (Bytes.store16 b 24 (0xffff &&& ntohs (ipcksum b).1)) := by rw [hb]; rfl
  have hlt : (ipcksum b).1 < 2 ^ 16 := by
    rw [ipcksum_eq]
    split_ifs <;> omega
  have hwords : ipWords (ip_out m).1 = ipWords (Bytes.store16 b 24 (0xffff &&& ntohs (ipcksum b).1)) :=
    words_congr fun j hj => by
      rw [hout, eth_hton, Bytes.store16_of_ne (by omega) (by omega)]
  have hzero : Bytes.store16 (Bytes.store16 b 24 (0xffff &&& ntohs (ipcksum b).1)) 24 0 = b := by
    rw [store16_store16, hb, store16_store16]
  have hle := ipWords_sum_le (m := b)
  rw [ipcksum_eq_zero, hwords, ipWords_sum, hzero, be16_store hlt]
  exact ip_accepts (by omega) (ipcksum_eq b)

/-- An ICMP message that is sent passes the check exactly if its checksum is right. -/
theorem ip_out_message (m : ℕ → UInt8) (hproto : net_ipproto m = IP_ICMP) (hlen : 28 ≤ Bytes.le16 m 16) :
    (icmp_cksum (ip_out m).1 34 (Bytes.le16 m 16 - IP_HDR_LEN)).1 = 0 ↔
      NoCarry (icmpWords (Bytes.store16 (icmp_hton m) 36 0) 34 (Bytes.le16 m 16 - 20)) := by
  -- The header with a checksum of 0, over which the sum is formed, and the length of the message.
  obtain ⟨b, hb⟩ : ∃ b, b = Bytes.store16 (icmp_hton m) 36 0 := ⟨_, rfl⟩
  obtain ⟨n, hn⟩ : ∃ n, n = Bytes.le16 m 16 - 20 := ⟨_, rfl⟩
  have hlt : n < 2 ^ 16 := by
    have h16 := Bytes.le16_lt m 16
    omega
  have hint : (Bytes.le16 m 16 : ℤ) - IP_HDR_LEN = n := by
    rw [hn]
    unfold IP_HDR_LEN
    omega
  -- The length lies in front of all that `icmp_hton` writes.
  have hsame : Bytes.le16 b 16 = Bytes.le16 m 16 := by
    rw [hb]
    unfold icmp_hton Bytes.le16
    dsimp only
    rw [Bytes.store16_of_ne (by omega) (by omega), Bytes.store16_of_ne (by omega) (by omega),
      Bytes.store16_of_ne (by omega) (by omega), Bytes.store16_of_ne (by omega) (by omega),
      Bytes.store16_of_ne (by omega) (by omega), Bytes.store16_of_ne (by omega) (by omega),
      Bytes.store16_of_ne (by omega) (by omega), Bytes.store16_of_ne (by omega) (by omega)]
  -- So of the two protocols that have a checksum, this is ICMP.
  have hudp : net_ipproto m ≠ IP_UDP := by
    rw [hproto]
    decide
  have hprot : protocol_hton m = Bytes.store16 b 36 (0xffff &&& ntohs (icmp_cksum b 34 n).1) := by
    unfold protocol_hton
    rw [if_neg hudp, if_pos hproto]
    dsimp only
    rw [← hb, hsame, hint]
  have hc : (icmp_cksum b 34 n).1 < 2 ^ 16 := by
    rw [icmp_cksum_eq]
    omega
  have hwords : icmpWords (ip_out m).1 34 n = icmpWords
      (Bytes.store16 b 36 (0xffff &&& ntohs (icmp_cksum b 34 n).1)) 34 n :=
    icmpWords_congr fun j hj => by rw [ip_out_byte m (.inr hj), hprot]
  -- Taking the checksum out of what is sent gives that header again.
  have hzero : Bytes.store16 (Bytes.store16 b 36 (0xffff &&& ntohs (icmp_cksum b 34 n).1)) 36 0 = b := by
    rw [store16_store16, hb, store16_store16]
  rw [hint, ← hb, ← hn, icmp_cksum_eq_zero, hwords, icmpWords_sum _ (by omega), hzero, be16_store hc]
  exact icmp_accepts (icmpWords_sum_lt hlt) (icmp_cksum_eq b 34 n)

/-- Which packets of `ip_out` pass the checks of `ip_in`. -/
theorem ip_out_passes (m : ℕ → UInt8) (hlen : net_ipproto m = IP_ICMP → 28 ≤ Bytes.le16 m 16) :
    ChecksPass (ip_out m).1 ↔ (net_ipproto m = IP_ICMP →
      NoCarry (icmpWords (Bytes.store16 (icmp_hton m) 36 0) 34 (Bytes.le16 m 16 - 20))) := by
  have hproto : net_ipproto (ip_out m).1 = net_ipproto m := by
    unfold net_ipproto
    rw [ip_out_byte m (.inl rfl), protocol_hton_byte m (by omega)]
  unfold ChecksPass
  rw [hproto, ip_out_iplen, and_iff_right (ip_out_header m)]
  exact forall_congr' fun h => ip_out_message m h (hlen h)

/-- `ip_in` drops a packet that does not pass the checks, and hands on one of the right version that does. -/
theorem ip_in_checks (s : NetTables) (m : ℕ → UInt8) : (¬ ChecksPass m → (s.ip_in m).1 = .dropped) ∧
    (ChecksPass m → net_ipvh m = 0x45 → (s.ip_in m).1 = (s.deliver m []).1) := by
  have hfate (l : Footprint PktBuf) : (s.deliver m l).1 = (s.deliver m []).1 := by
    unfold NetTables.deliver
    split_ifs <;> rfl
  unfold NetTables.ip_in ChecksPass
  dsimp only
  refine ⟨fun h => ?_, fun h hv => ?_⟩
  · by_cases hsum : (ipcksum m).1 = 0
    · have hnot := Classical.not_imp.mp (not_and.mp h hsum)
      have hudp : net_ipproto m ≠ IP_UDP := by
        rw [hnot.1]
        decide
      rw [if_neg (not_not.mpr hsum), if_neg hudp, if_pos hnot.1, if_pos hnot.2]
      split_ifs <;> rfl
    · rw [if_pos hsum]
  · rw [if_neg (not_not.mpr h.1), if_neg (not_not.mpr hv)]
    split_ifs with hudp hicmp hbad
    · exact hfate _
    · exact absurd (h.2 hicmp) hbad
    · exact hfate _
    · exact hfate _

/-! ## The result -/

/-- The checksums are right exactly where the fold makes no carry. What `ip_out` sends passes the
checks, except ICMP messages whose checksum is wrong for this reason. A header with a wrong checksum
is dropped, except where its sum folds to `2 ^ 16`; an ICMP message with a wrong checksum always. -/
theorem cksum_right (m : ℕ → UInt8) :
    (∀ j, 14 ≤ j → j < 34 → m j ≠ 0 → ((ipcksum m).1 = checksum (ipWords m) ↔ NoCarry (ipWords m))) ∧
    (∀ buf n : ℕ, n < 2 ^ 16 → ((icmp_cksum m buf n).1 = checksum (icmpWords m buf n) ↔
      NoCarry (icmpWords m buf n))) ∧
    ((net_ipproto m = IP_ICMP → 28 ≤ Bytes.le16 m 16) → (ChecksPass (ip_out m).1 ↔ (net_ipproto m = IP_ICMP →
      NoCarry (icmpWords (Bytes.store16 (icmp_hton m) 36 0) 34 (Bytes.le16 m 16 - 20))))) ∧
    ((¬ SameOnes (be16 m 24) (checksum (ipWords (Bytes.store16 m 24 0))) → (ipcksum m).1 ≠ 0) ↔
      fold (2 ^ 16) (ipWords m).sum ≠ 2 ^ 16) ∧
    (∀ n : ℕ, 4 ≤ n → n < 2 ^ 16 →
      ¬ SameOnes (be16 m 36) (checksum (icmpWords (Bytes.store16 m 36 0) 34 n)) →
      (icmp_cksum m 34 n).1 ≠ 0) :=
  ⟨fun _ hlo hhi h => ipcksum_right (ipWords_sum_ne_zero hlo hhi h),
    fun _ _ hn => icmp_cksum_right hn, ip_out_passes m, ip_rejects m,
    fun _ hn hlen h => icmp_rejects m hn hlen h⟩

/-- A header from 10.0.0.1 to 10.0.0.2 with a sum of `0x1ffff`. -/
def carryHeader : ℕ → UInt8 := Bytes.ofList
  ([0, 0, 0, 0, 0, 0, 0, 0, 0, 0, 0, 0, 8, 0] ++ [0x45, 0,
    0, 0x1c, 0xa7, 0xdf, 0, 0, 0xff, 1, 0, 0, 10, 0, 0, 1, 10, 0, 0, 2])

/-- An echo reply in host byte order, with a sum of `0x1ffff`. -/
def carryReply : ℕ → UInt8 := Bytes.ofList
  ([0, 0, 0, 0, 0, 0, 0, 0, 0, 0, 0, 0, 0, 8] ++ [0x45, 0,
    0x1e, 0, 1, 0, 0, 0, 0xff, 1, 0, 0, 1, 0, 0, 10, 2, 0, 0, 10] ++
    [0, 0, 0, 0, 0xff, 0xff, 0xff, 0xff, 0, 1])

/-- The checksum of the header is `0xfffe`, and `ipcksum` finds 0: with a stored checksum of 0 it
passes. The reply does not pass. -/
theorem cksum_wrong :
    (checksum (ipWords carryHeader) = 0xfffe ∧ (ipcksum carryHeader).1 = 0 ∧ be16 carryHeader 24 = 0) ∧
    ¬ ChecksPass (ip_out carryReply).1 := by
  refine ⟨by decide +kernel, fun h => ?_⟩
  have hsum : (icmp_cksum (ip_out carryReply).1 34
      ((netpacket (ip_out carryReply).1).net_iplen - IP_HDR_LEN)).1 ≠ 0 := by
    decide +kernel
  exact hsum (h.2 (by decide +kernel))

end Xinu
