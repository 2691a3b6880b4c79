import Mathlib.Tactic.NormNum
import Xinu.Lib.Bytes

/-!
# Byte order

`ntohs` and `ntohl` of `include/prototypes.h`, which exchange the bytes of a number, as `htons` and
`htonl` do. The processor has the lowest byte of a number first, the network the highest one.
-/

namespace Xinu

/-- `ntohs(x)`, and `htons(x)`. -/
def ntohs (x : ℕ) : ℕ := (0xff &&& (x >>> 8)) ||| ((0xff &&& x) <<< 8)

/-- `ntohl(x)`, and `htonl(x)`, of a `uint32`. -/
def ntohl (x : ℕ) : ℕ :=
  (((x >>> 24) &&& 0x000000ff) ||| ((x >>> 8) &&& 0x0000ff00)) |||
    (((x <<< 8) &&& 0x00ff0000) ||| ((x <<< 24) &&& 0xff000000))

open Bytes

/-- The bytes of a 16-bit number in the other order. -/
theorem ntohs_bytes {lo hi : ℕ} (hlo : lo < 256) (hhi : hi < 256) :
    ntohs (lo + 256 * hi) = 256 * lo + hi := by
  have hmask (x : ℕ) : 0xff &&& x = x % 256 := by
    rw [Nat.and_comm]
    exact Nat.and_two_pow_sub_one_eq_mod x 8
  have hhigh : (lo + 256 * hi) >>> 8 % 256 = hi := by
    rw [Nat.shiftRight_eq_div_pow]
    omega
  have hlow : (lo + 256 * hi) % 256 = lo := by omega
  unfold ntohs
  rw [hmask, hmask, hhigh, hlow, Nat.or_comm, ← Nat.shiftLeft_add_eq_or_of_lt hhi, Nat.shiftLeft_eq]
  omega

/-- A number of 16 bits is one again in the other order. -/
theorem ntohs_lt {x : ℕ} (h : x < 2 ^ 16) : ntohs x < 2 ^ 16 := by
  have hx : x = x % 256 + 256 * (x / 256) := by omega
  rw [hx, ntohs_bytes (by omega) (by omega)]
  omega

/-- The order of the bytes comes back. -/
theorem ntohs_ntohs {x : ℕ} (h : x < 2 ^ 16) : ntohs (ntohs x) = x := by
  have hx : x = x % 256 + 256 * (x / 256) := by omega
  have hswap : ntohs x = x / 256 + 256 * (x % 256) := by
    rw [hx, ntohs_bytes (by omega) (by omega)]
    omega
  rw [hswap, ntohs_bytes (by omega) (by omega)]
  omega

/-- What is read from memory, and converted, is the number in network byte order. -/
theorem ntohs_le16 (b : ℕ → UInt8) (i : ℕ) : ntohs (le16 b i) = be16 b i :=
  ntohs_bytes (b i).toNat_lt (b (i + 1)).toNat_lt

/-- A mask over one byte of a number keeps that byte in its place. -/
theorem and_byte (y k : ℕ) : y &&& (0xff <<< k) = (y / 2 ^ k % 256) <<< k := by
  rw [show (256 : ℕ) = 2 ^ 8 from rfl, ← Nat.and_two_pow_sub_one_eq_mod, ← Nat.shiftRight_eq_div_pow]
  refine Nat.eq_of_testBit_eq fun j => ?_
  rcases Nat.lt_or_ge j k with h | h
  · have hno : ¬ k ≤ j := Nat.not_le.mpr h
    simp [Nat.testBit_and, Nat.testBit_shiftLeft, hno]
  · simp [Nat.testBit_and, Nat.testBit_shiftLeft, Nat.testBit_shiftRight, h, Nat.add_sub_cancel' h]

/-- A word loaded from four bytes and brought into host order is the number in network order. -/
theorem ntohl_le32 (b : ℕ → UInt8) (i : ℕ) : ntohl (le32 b i) = be32 b i := by
  have h₀ := (b i).toNat_lt
  have h₁ := (b (i + 1)).toNat_lt
  have h₂ := (b (i + 2)).toNat_lt
  have h₃ := (b (i + 2 + 1)).toNat_lt
  unfold ntohl le32 be32 le16 be16
  generalize (b i).toNat = p at *
  generalize (b (i + 1)).toNat = q at *
  generalize (b (i + 2)).toNat = r at *
  generalize (b (i + 2 + 1)).toNat = s at *
  -- The word as a number; its four bytes are then moved one by one.
  have hx : p + 256 * q + 2 ^ 16 * (r + 256 * s) = p + 256 * q + 65536 * r + 16777216 * s := by omega
  generalize hX : p + 256 * q + 2 ^ 16 * (r + 256 * s) = X at *
  -- The bytes that the masks leave, at the places where the shifts put them.
  have e₀ : X >>> 24 &&& 0x000000ff = s := by
    rw [show (0x000000ff : ℕ) = 0xff <<< 0 from rfl, and_byte, Nat.shiftRight_eq_div_pow, Nat.shiftLeft_zero]
    omega
  have e₁ : X >>> 8 &&& 0x0000ff00 = r <<< 8 := by
    rw [show (0x0000ff00 : ℕ) = 0xff <<< 8 from rfl, and_byte, Nat.shiftRight_eq_div_pow]
    congr 1
    omega
  have e₂ : X <<< 8 &&& 0x00ff0000 = q <<< 16 := by
    rw [show (0x00ff0000 : ℕ) = 0xff <<< 16 from rfl, and_byte, Nat.shiftLeft_eq X]
    congr 1
    omega
  have e₃ : X <<< 24 &&& 0xff000000 = p <<< 24 := by
    rw [show (0xff000000 : ℕ) = 0xff <<< 24 from rfl, and_byte, Nat.shiftLeft_eq X]
    congr 1
    omega
  -- Numbers whose bits do not overlap are put together by adding them.
  have hlow : s ||| r <<< 8 = 256 * r + s := by
    rw [Nat.or_comm, ← Nat.shiftLeft_add_eq_or_of_lt h₃, Nat.shiftLeft_eq]
    omega
  have hhigh : q <<< 16 ||| p <<< 24 = (256 * p + q) <<< 16 := by
    rw [Nat.or_comm, Nat.shiftLeft_add p 8 16, ← Nat.shiftLeft_or_distrib,
      ← Nat.shiftLeft_add_eq_or_of_lt h₁, Nat.shiftLeft_eq p]
    congr 1
    omega
  have hlt : 256 * r + s < 2 ^ 16 := by omega
  rw [e₀, e₁, e₂, e₃, hlow, hhigh, Nat.or_comm, ← Nat.shiftLeft_add_eq_or_of_lt hlt, Nat.shiftLeft_eq]
  omega

end Xinu
