import Xinu.Lib.Bytes

/-!
# Words in memory

Words of four bytes that stand behind each other, the lowest byte first. They are stored upwards, or
pushed downwards as on a stack; either way they are read back, and the rest of memory stays.
-/

namespace Xinu.Words

open Bytes

variable {b c : ℕ → UInt8} {a n : ℕ} {ws : List ℕ}

/-- So many words from a place on. -/
def wordsAt (b : ℕ → UInt8) : ℕ → ℕ → List ℕ
  | _, 0 => []
  | a, n + 1 => le32 b a :: wordsAt b (a + 4) n

/-- Words are stored from a place on. -/
def storeWords : (ℕ → UInt8) → ℕ → List ℕ → (ℕ → UInt8)
  | b, _, [] => b
  | b, a, w :: ws => storeWords (store32 b a w) (a + 4) ws

/-- Words are pushed below a place; with the memory, the place of the last one is returned. -/
def pushWords : (ℕ → UInt8) → ℕ → List ℕ → (ℕ → UInt8) × ℕ
  | b, a, [] => (b, a)
  | b, a, w :: ws => pushWords (store32 b (a - 4) w) (a - 4) ws

/-- Words of two stretches. -/
theorem wordsAt_add (b : ℕ → UInt8) (n : ℕ) :
    ∀ a m : ℕ, wordsAt b a (m + n) = wordsAt b a m ++ wordsAt b (a + 4 * m) n
  | a, 0 => by rw [Nat.zero_add]; rfl
  | a, m + 1 => by
    have hnext : a + 4 * (m + 1) = a + 4 + 4 * m := by omega
    rw [Nat.succ_add, wordsAt, wordsAt_add b n (a + 4) m, wordsAt, hnext, List.cons_append]

/-- The words of a stretch depend only on the bytes of the stretch. -/
theorem wordsAt_congr : ∀ {a n : ℕ}, (∀ j, a ≤ j → j < a + 4 * n → b j = c j) → wordsAt b a n = wordsAt c a n
  | _, 0, _ => rfl
  | a, n + 1, h => by
    rw [wordsAt, wordsAt, le32_congr fun j hj hlt => h j hj (by omega),
      wordsAt_congr fun j hj hlt => h j (by omega) (by omega)]

/-- A store into one word of a stretch sets it, and leaves the others. -/
theorem wordsAt_store32 {w : ℕ} (hw : w < 2 ^ 32) :
    ∀ {a n i : ℕ}, i < n → wordsAt (store32 b (a + 4 * i) w) a n = (wordsAt b a n).set i w
  | _, 0, i, hi => absurd hi (Nat.not_lt_zero i)
  | a, n + 1, 0, _ => by
    rw [wordsAt, wordsAt, List.set_cons_zero, Nat.mul_zero, Nat.add_zero, le32_store32 hw]
    congr 1
    exact wordsAt_congr fun j hj _ => store32_of_ne (Or.inr hj)
  | a, n + 1, i + 1, hi => by
    have hplace : a + 4 * (i + 1) = a + 4 + 4 * i := by omega
    rw [wordsAt, wordsAt, List.set_cons_succ, hplace, wordsAt_store32 hw (Nat.lt_of_succ_lt_succ hi)]
    congr 1
    exact le32_congr fun j _ hj => store32_of_ne (Or.inl (by omega))

/-! ## Words that are stored -/

/-- A store of words leaves every byte outside their stretch. -/
theorem storeWords_of_ne {j : ℕ} :
    ∀ {ws : List ℕ} {b : ℕ → UInt8} {a : ℕ}, j < a ∨ a + 4 * ws.length ≤ j → storeWords b a ws j = b j
  | [], _, _, _ => rfl
  | w :: ws, b, a, h => by
    rw [List.length_cons] at h
    rw [storeWords, storeWords_of_ne (by omega), store32_of_ne (by omega)]

/-- The words that are stored are read back at their place. -/
theorem wordsAt_storeWords : ∀ {ws : List ℕ} {b : ℕ → UInt8} {a : ℕ}, (∀ w ∈ ws, w < 2 ^ 32) →
    wordsAt (storeWords b a ws) a ws.length = ws
  | [], _, _, _ => rfl
  | w :: ws, b, a, h => by
    have hw : w < 2 ^ 32 := h w List.mem_cons_self
    have hfirst : le32 (storeWords (store32 b a w) (a + 4) ws) a = w := calc
      le32 (storeWords (store32 b a w) (a + 4) ws) a
      _ = le32 (store32 b a w) a := le32_congr fun j _ hj => storeWords_of_ne (Or.inl hj)
      _ = w := le32_store32 hw
    rw [List.length_cons, wordsAt, storeWords, hfirst, wordsAt_storeWords fun x hx =>
      h x (List.mem_cons_of_mem _ hx)]

/-! ## Words that are pushed -/

/-- The stack pointer ends below the words that are pushed. -/
theorem pushWords_snd : ∀ (ws : List ℕ) (b : ℕ → UInt8) (a : ℕ), (pushWords b a ws).2 = a - 4 * ws.length
  | [], _, _ => rfl
  | w :: ws, b, a => by
    rw [pushWords, pushWords_snd ws, List.length_cons]
    omega

/-- Words are pushed, and then others. -/
theorem pushWords_append (vs : List ℕ) : ∀ (ws : List ℕ) (b : ℕ → UInt8) (a : ℕ),
    pushWords b a (ws ++ vs) = pushWords (pushWords b a ws).1 (pushWords b a ws).2 vs
  | [], _, _ => rfl
  | _ :: ws, _, _ => pushWords_append vs ws ..

/-- Words that are pushed leave every byte outside their stretch. -/
theorem pushWords_of_ne {j : ℕ} :
    ∀ {ws : List ℕ} {b : ℕ → UInt8} {a : ℕ}, 4 * ws.length ≤ a → j < a - 4 * ws.length ∨ a ≤ j →
    (pushWords b a ws).1 j = b j
  | [], _, _, _, _ => rfl
  | w :: ws, b, a, ha, h => by
    rw [List.length_cons] at ha h
    rw [pushWords, pushWords_of_ne (by omega) (by omega), store32_of_ne (by omega)]

/-- The words that are pushed stand there, the last one first. -/
theorem wordsAt_pushWords :
    ∀ {ws : List ℕ} {b : ℕ → UInt8} {a : ℕ}, 4 * ws.length ≤ a → (∀ w ∈ ws, w < 2 ^ 32) →
    wordsAt (pushWords b a ws).1 (a - 4 * ws.length) ws.length = ws.reverse
  | [], _, _, _, _ => rfl
  | w :: ws, b, a, ha, h => by
    rw [List.length_cons] at ha
    have hplace : a - 4 * (ws.length + 1) = a - 4 - 4 * ws.length := by omega
    have hlast : a - 4 - 4 * ws.length + 4 * ws.length = a - 4 := by omega
    have hw : w < 2 ^ 32 := h w List.mem_cons_self
    have hword : le32 (pushWords (store32 b (a - 4) w) (a - 4) ws).1 (a - 4) = w := calc
      le32 (pushWords (store32 b (a - 4) w) (a - 4) ws).1 (a - 4)
      _ = le32 (store32 b (a - 4) w) (a - 4) :=
        le32_congr fun j hj _ => pushWords_of_ne (by omega) (Or.inr hj)
      _ = w := le32_store32 hw
    have hrest := wordsAt_pushWords (b := store32 b (a - 4) w) (a := a - 4) (by omega) fun x hx =>
      h x (List.mem_cons_of_mem _ hx)
    rw [List.length_cons, pushWords, hplace, wordsAt_add, hrest,
      hlast, wordsAt, hword, wordsAt, List.reverse_cons]

end Xinu.Words
