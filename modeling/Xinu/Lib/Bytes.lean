import Mathlib.Algebra.Ring.Nat
import Mathlib.Logic.Function.Basic

/-!
# Bytes in memory

A region of memory is a function from offsets to bytes. A number in it is read with its first byte
as the lowest one, or as the highest one.
-/

namespace Xinu.Bytes

variable {b : ℕ → UInt8} {i : ℕ}

/-- Two bytes, the lowest one first. -/
def le16 (b : ℕ → UInt8) (i : ℕ) : ℕ := (b i).toNat + 256 * (b (i + 1)).toNat

/-- Two bytes, the highest one first. -/
def be16 (b : ℕ → UInt8) (i : ℕ) : ℕ := 256 * (b i).toNat + (b (i + 1)).toNat

/-- Four bytes, the lowest one first. -/
def le32 (b : ℕ → UInt8) (i : ℕ) : ℕ := le16 b i + 2 ^ 16 * le16 b (i + 2)

/-- Four bytes, the highest one first. -/
def be32 (b : ℕ → UInt8) (i : ℕ) : ℕ := 2 ^ 16 * be16 b i + be16 b (i + 2)

/-- The first `n` bytes are those of `data`; the others stay. -/
def overlay (b data : ℕ → UInt8) (n : ℤ) : ℕ → UInt8 := fun i => if (i : ℤ) < n then data i else b i

/-- The bytes of a list, from `i` on. -/
def put (b : ℕ → UInt8) (i : ℕ) (l : List UInt8) : ℕ → UInt8 :=
  fun j => if i ≤ j then l.getD (j - i) (b j) else b j

/-- The bytes of a list, followed by zeros. -/
def ofList (l : List UInt8) : ℕ → UInt8 := fun i => l.getD i 0

/-- Store two bytes, the lowest one first. -/
def store16 (b : ℕ → UInt8) (i x : ℕ) : ℕ → UInt8 :=
  Function.update (Function.update b i (UInt8.ofNat x)) (i + 1) (UInt8.ofNat (x / 256))

/-- Store four bytes, the lowest one first. -/
def store32 (b : ℕ → UInt8) (i x : ℕ) : ℕ → UInt8 := store16 (store16 b i x) (i + 2) (x / 2 ^ 16)

/-- Two bytes are a number of 16 bits. -/
theorem be16_lt (b : ℕ → UInt8) (i : ℕ) : be16 b i < 2 ^ 16 := by
  have h₀ := (b i).toNat_lt
  have h₁ := (b (i + 1)).toNat_lt
  unfold be16
  omega

/-- Two bytes are a number of 16 bits. -/
theorem le16_lt (b : ℕ → UInt8) (i : ℕ) : le16 b i < 2 ^ 16 := by
  have h₀ := (b i).toNat_lt
  have h₁ := (b (i + 1)).toNat_lt
  unfold le16
  omega

/-- Four bytes are a number of 32 bits. -/
theorem be32_lt (b : ℕ → UInt8) (i : ℕ) : be32 b i < 2 ^ 32 := by
  have h₀ := be16_lt b i
  have h₁ := be16_lt b (i + 2)
  unfold be32
  omega

/-- A store of two bytes leaves every other byte. -/
theorem store16_of_ne {x j : ℕ} (h₀ : j ≠ i) (h₁ : j ≠ i + 1) : store16 b i x j = b j := by
  rw [store16, Function.update_of_ne h₁, Function.update_of_ne h₀]

/-- A store of four bytes leaves every other byte. -/
theorem store32_of_ne {x j : ℕ} (h : j < i ∨ i + 4 ≤ j) : store32 b i x j = b j := by
  rw [store32, store16_of_ne (by omega) (by omega), store16_of_ne (by omega) (by omega)]

/-- Of a number that is stored in two bytes, its low half is read. -/
theorem le16_store16_mod (b : ℕ → UInt8) (i x : ℕ) : le16 (store16 b i x) i = x % 2 ^ 16 := by
  have h₁ : store16 b i x (i + 1) = UInt8.ofNat (x / 256) := Function.update_self ..
  have h₀ : store16 b i x i = UInt8.ofNat x := by
    rw [store16, Function.update_of_ne (by omega), Function.update_self]
  rw [le16, h₀, h₁, UInt8.toNat_ofNat', UInt8.toNat_ofNat']
  omega

/-- A number of 16 bits that is stored is read back at its place. -/
theorem le16_store16 {x : ℕ} (h : x < 2 ^ 16) : le16 (store16 b i x) i = x := by
  rw [le16_store16_mod, Nat.mod_eq_of_lt h]

/-- A number of 32 bits that is stored is read back at its place. -/
theorem le32_store32 {x : ℕ} (h : x < 2 ^ 32) : le32 (store32 b i x) i = x := by
  have hlow : le16 (store32 b i x) i = x % 2 ^ 16 := by
    rw [← le16_store16_mod b i x]
    have hfirst : ∀ j, j < i + 2 → store32 b i x j = store16 b i x j :=
      fun j hj => store16_of_ne (by omega) (by omega)
    rw [le16, le16, hfirst i (by omega), hfirst (i + 1) (by omega)]
  have hhigh : le16 (store32 b i x) (i + 2) = x / 2 ^ 16 % 2 ^ 16 := le16_store16_mod ..
  rw [le32, hlow, hhigh]
  omega

/-- What is read of four bytes depends on these. -/
theorem le32_congr {c : ℕ → UInt8} (h : ∀ j, i ≤ j → j < i + 4 → b j = c j) : le32 b i = le32 c i := by
  unfold le32 le16
  rw [h i (by omega) (by omega), h (i + 1) (by omega) (by omega),
    h (i + 2) (by omega) (by omega), h (i + 2 + 1) (by omega) (by omega)]

/-- What is read of two bytes depends on these. -/
theorem be16_congr {c : ℕ → UInt8} (h₀ : b i = c i) (h₁ : b (i + 1) = c (i + 1)) : be16 b i = be16 c i := by
  unfold be16
  rw [h₀, h₁]

/-- So many bytes from a place on. -/
def bytesAt (b : ℕ → UInt8) : ℕ → ℕ → List UInt8
  | _, 0 => []
  | i, n + 1 => b i :: bytesAt b (i + 1) n

/-- How many they are. -/
@[simp] theorem length_bytesAt (b : ℕ → UInt8) : ∀ i n : ℕ, (bytesAt b i n).length = n
  | _, 0 => rfl
  | i, n + 1 => by rw [bytesAt, List.length_cons, length_bytesAt b (i + 1) n]

/-- Nothing is put. -/
@[simp] theorem put_nil (b : ℕ → UInt8) (i : ℕ) : put b i [] = b := by
  funext j
  simp [put]

/-- The first byte is put, and then the others. -/
theorem put_cons (b : ℕ → UInt8) (i : ℕ) (x : UInt8) (l : List UInt8) :
    put b i (x :: l) = put (Function.update b i x) (i + 1) l := by
  funext j
  unfold put
  rcases lt_trichotomy j i with h | h | h
  · rw [if_neg (by omega), if_neg (by omega), Function.update_of_ne (by omega)]
  · subst h
    rw [if_pos (Nat.le_refl j), if_neg (by omega), Nat.sub_self, List.getD_cons_zero, Function.update_self]
  · have hsub : j - i = j - (i + 1) + 1 := by omega
    rw [if_pos (by omega), if_pos (by omega), hsub, List.getD_cons_succ, Function.update_of_ne (by omega)]

/-- Some bytes are put, and then others behind them. -/
theorem put_append (l l' : List UInt8) :
    ∀ (b : ℕ → UInt8) (i : ℕ), put (put b i l) (i + l.length) l' = put b i (l ++ l') := by
  induction l with
  | nil =>
    intro b i
    rw [put_nil]
    rfl
  | cons x l ih =>
    intro b i
    have hlen : i + (x :: l).length = i + 1 + l.length := by
      rw [List.length_cons]
      omega
    rw [put_cons, List.cons_append, put_cons, ← ih, hlen]

/-- A byte in front of the bytes that are put stays. -/
theorem put_of_lt {l : List UInt8} {j : ℕ} (b : ℕ → UInt8) (h : j < i) : put b i l j = b j :=
  if_neg (Nat.not_le.mpr h)

/-- A byte behind the bytes that are put stays. -/
theorem put_of_ge {l : List UInt8} {j : ℕ} (b : ℕ → UInt8) (h : i + l.length ≤ j) : put b i l j = b j := by
  unfold put
  rw [if_pos (by omega), List.getD_eq_getElem?_getD, List.getElem?_eq_none (by omega), Option.getD_none]

/-- One of the bytes that are put is read back. -/
theorem put_self (b : ℕ → UInt8) (i : ℕ) (l : List UInt8) (x : UInt8) (l' : List UInt8) :
    put b i (l ++ x :: l') (i + l.length) = x := by
  rw [← put_append, put_cons, put_of_lt _ (Nat.lt_succ_self _), Function.update_self]

/-- A byte is put behind the others. -/
theorem put_concat (b : ℕ → UInt8) (i : ℕ) (l : List UInt8) (x : UInt8) :
    Function.update (put b i l) (i + l.length) x = put b i (l ++ [x]) := by
  rw [← put_append, put_cons, put_nil]

/-- One of the bytes that are put is changed. -/
theorem update_put (b : ℕ → UInt8) (i : ℕ) (l : List UInt8) (x y : UInt8) (l' : List UInt8) :
    Function.update (put b i (l ++ x :: l')) (i + l.length) y = put b i (l ++ y :: l') := by
  have hcomm (c : ℕ → UInt8) (k : ℕ) :
      Function.update (put c (k + 1) l') k y = put (Function.update c k y) (k + 1) l' := by
    funext j
    rcases eq_or_ne j k with rfl | hj
    · rw [Function.update_self, put_of_lt _ (Nat.lt_succ_self j), Function.update_self]
    · unfold put
      rw [Function.update_of_ne hj, Function.update_of_ne hj]
  rw [← put_append, ← put_append, put_cons, put_cons, hcomm, Function.update_idem]

/-- The bytes that are put are there. -/
theorem bytesAt_put (b : ℕ → UInt8) (l : List UInt8) : ∀ i : ℕ, bytesAt (put b i l) i l.length = l := by
  induction l generalizing b with
  | nil => exact fun i => rfl
  | cons x l ih =>
    intro i
    rw [List.length_cons, bytesAt, put_cons, ih]
    rw [put_of_lt _ (Nat.lt_succ_self i), Function.update_self]

/-- The bytes of a stretch are those of its first part and those behind it. -/
theorem bytesAt_add (b : ℕ → UInt8) (n : ℕ) :
    ∀ i m : ℕ, bytesAt b i (m + n) = bytesAt b i m ++ bytesAt b (i + m) n
  | i, 0 => by rw [Nat.zero_add]; rfl
  | i, m + 1 => by
    have hnext : i + (m + 1) = i + 1 + m := by omega
    rw [Nat.succ_add, bytesAt, bytesAt_add b n (i + 1) m, bytesAt, hnext, List.cons_append]

end Xinu.Bytes
