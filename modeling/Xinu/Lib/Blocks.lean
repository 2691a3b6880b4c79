import Xinu.Lib.Bytes
import Xinu.Lib.Linked
import Xinu.Lib.Regions

/-!
# Blocks that are linked through themselves

A piece of memory cut into blocks of one size, `List.range' base count size`, and lists of blocks
whose first four bytes hold the address of the next one, or 0. Two blocks of a piece are apart, and
so are the blocks of pieces that are apart: a store into the first word of one block leaves the
links of the others.
-/

namespace Xinu.Blocks

open Bytes

variable {b : ℕ → UInt8} {base count size base' count' size' x y v a n : ℕ} {l : List ℕ}

/-- An address, or a null pointer. -/
def ptr (a : ℕ) : Option ℕ := if a = 0 then none else some a

/-- The block that a block is linked to. -/
def link (b : ℕ → UInt8) (a : ℕ) : Option ℕ := ptr (le32 b a)

/-- Addresses other than 0. -/
theorem ptr_of_pos (h : 0 < a) : ptr a = some a := if_neg h.ne'

/-- A word is a pointer to a node exactly if it is that address, and not 0. -/
theorem ptr_eq_some : ptr a = some x ↔ a = x ∧ a ≠ 0 := by
  unfold ptr
  split_ifs with h
  · exact ⟨by rintro ⟨⟩, fun hx => absurd h hx.2⟩
  · exact ⟨fun hx => ⟨Option.some.inj hx, h⟩, fun hx => congrArg some hx.1⟩

/-- Words that do not overlap. -/
def WordsApart (x y : ℕ) : Prop := x + 4 ≤ y ∨ y + 4 ≤ x

/-- A store leaves the other words. -/
theorem le32_store32_of_apart (h : WordsApart x y) : le32 (store32 b x v) y = le32 b y := by
  unfold WordsApart at h
  exact le32_congr fun j h₁ h₂ => store32_of_ne (by omega)

/-- A byte that is written leaves the other words. -/
theorem le32_update_of_apart {z : UInt8} (h : a < x ∨ x + 4 ≤ a) :
    le32 (Function.update b a z) x = le32 b x :=
  le32_congr fun j h₁ h₂ => Function.update_of_ne (by omega) _ _

/-- The link of a block that has been stored. -/
theorem link_store32 (h : v < 2 ^ 32) : link (store32 b x v) x = ptr v := by rw [link, le32_store32 h]

/-- A store leaves the links of the other blocks. -/
theorem link_store32_of_apart (h : WordsApart x y) : link (store32 b x v) y = link b y := by
  rw [link, le32_store32_of_apart h, link]

/-- Each block of a piece of memory lies within it. -/
theorem mem_bounds (h : x ∈ List.range' base count size) : base ≤ x ∧ x + size ≤ base + count * size := by
  obtain ⟨i, hi, rfl⟩ := List.mem_range'.mp h
  have hle : (i + 1) * size ≤ count * size := Nat.mul_le_mul_right size hi
  rw [Nat.add_mul, Nat.one_mul, Nat.mul_comm i] at hle
  omega

/-- Two blocks of a piece are apart. -/
theorem apart (hx : x ∈ List.range' base count size) (hy : y ∈ List.range' base count size) (hne : x ≠ y) :
    x + size ≤ y ∨ y + size ≤ x := by
  obtain ⟨i, -, rfl⟩ := List.mem_range'.mp hx
  obtain ⟨j, -, rfl⟩ := List.mem_range'.mp hy
  rcases Nat.lt_trichotomy i j with hij | rfl | hij
  · have hle : size * (i + 1) ≤ size * j := Nat.mul_le_mul_left size hij
    rw [Nat.mul_add, Nat.mul_one] at hle
    omega
  · exact absurd rfl hne
  · have hle : size * (j + 1) ≤ size * i := Nat.mul_le_mul_left size hij
    rw [Nat.mul_add, Nat.mul_one] at hle
    omega

/-- Blocks of two pieces that are apart. -/
theorem apart_of_pieces (h : Regions.Apart (base, count * size) (base', count' * size'))
    (hx : x ∈ List.range' base count size)
    (hy : y ∈ List.range' base' count' size') : x + size ≤ y ∨ y + size' ≤ x := by
  have hbx := mem_bounds hx
  have hby := mem_bounds hy
  unfold Regions.Apart at h
  dsimp only at h
  omega

/-- The loop that links the blocks of a piece, each to the next one. It has so many blocks but the last. -/
def linkLoop (size : ℕ) : ℕ → ℕ → (ℕ → UInt8) → ℕ → UInt8
  | 0, buf, b => store32 b buf 0
  | n + 1, buf, b => linkLoop size n (buf + size) (store32 b buf (buf + size))

/-- The loop writes to the blocks only. -/
theorem linkLoop_of_apart (hs : 4 ≤ size) : ∀ (n x : ℕ) (b : ℕ → UInt8), y + 4 ≤ x ∨ x + (n + 1) * size ≤ y →
    le32 (linkLoop size n x b) y = le32 b y := by
  intro n
  induction n with
  | zero =>
    intro x b h
    exact le32_store32_of_apart (by unfold WordsApart; omega)
  | succ n ih =>
    intro x b h
    have hmul : (n + 1 + 1) * size = (n + 1) * size + size := Nat.succ_mul ..
    rw [linkLoop, ih (x + size) _ (by omega)]
    refine le32_store32_of_apart ?_
    unfold WordsApart
    omega

/-- After the loop, the blocks are linked in the order of their addresses. -/
theorem linkLoop_path (hs : 4 ≤ size) : ∀ (n x : ℕ) (b : ℕ → UInt8), 0 < x → x + (n + 1) * size ≤ 2 ^ 32 →
    LinkPath (link (linkLoop size n x b)) (some x) (List.range' x (n + 1) size) none := by
  intro n
  induction n with
  | zero =>
    intro x b _ _
    exact ⟨rfl, link_store32 (by decide)⟩
  | succ n ih =>
    intro x b hx hfit
    have hmul : (n + 1 + 1) * size = (n + 1) * size + size := Nat.succ_mul ..
    have hmul' : (n + 1) * size = n * size + size := Nat.succ_mul ..
    have hnext : link (linkLoop size (n + 1) x b) x = some (x + size) := by
      rw [link, linkLoop, linkLoop_of_apart hs n (x + size) _ (by omega),
        le32_store32 (by omega), ptr_of_pos (by omega)]
    rw [List.range'_succ]
    refine ⟨rfl, ?_⟩
    rw [hnext]
    exact ih (x + size) _ (by omega) (by omega)

/-- A path through blocks that the store does not touch. -/
theorem path_store32 {p : Option ℕ} (h : LinkPath (link b) p l none) (hx : ∀ y ∈ l, WordsApart x y) :
    LinkPath (link (store32 b x v)) p l none :=
  h.congr fun y hy => link_store32_of_apart (hx y hy)

end Xinu.Blocks
