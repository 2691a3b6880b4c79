import Mathlib.Data.List.TakeWhile
import Mathlib.Data.Nat.Digits.Lemmas
import Xinu.Lib.Strings

/-!
# Printed numerals

A number is printed by cutting off a fixed count of digits, the lowest first, and showing them from
the highest digit that is not zero on. If the count is large enough, what is shown is the numeral of
the number, and who reads its digits back gets the number.
-/

namespace Xinu.Numerals

variable {b n k d : ℕ} {ds : List ℕ}

/-- The lowest `k` digits of `n`, the lowest first. -/
def low (b : ℕ) : ℕ → ℕ → List ℕ
  | 0, _ => []
  | k + 1, n => n % b :: low b k (n / b)

/-- The digits of a list, lowest first, from the highest on that is not zero; if all are zero, the lowest. -/
def shown {α : Type} (zero : α → Bool) (ds : List α) : List α :=
  if ds.reverse.dropWhile zero = [] then ds.take 1 else ds.reverse.dropWhile zero

/-- The number that digits denote, the highest first. -/
def value (b : ℕ) (ds : List ℕ) : ℕ := ds.foldl (fun v d => b * v + d) 0

/-- The digits of a number, the highest first. -/
def numeral (b n : ℕ) : List ℕ := if n = 0 then [0] else (b.digits n).reverse

/-- The number is that of the reversed list in Mathlib's order of digits. -/
theorem value_eq (b : ℕ) (ds : List ℕ) : value b ds = Nat.ofDigits b ds.reverse := by
  unfold value
  rw [Strings.foldl_digits, Nat.mul_zero, Nat.zero_add]

/-- Digits in front of others count as many powers of the base more as there are others. -/
theorem value_append (b : ℕ) (ds es : List ℕ) :
    value b (ds ++ es) = value b ds * b ^ es.length + value b es := by
  rw [value_eq, List.reverse_append, Nat.ofDigits_append, List.length_reverse, ← value_eq, ← value_eq]
  ring

/-- A digit in front of others counts the power of the base of its place. -/
theorem value_cons (b d : ℕ) (ds : List ℕ) : value b (d :: ds) = d * b ^ ds.length + value b ds := by
  have hone : value b [d] = d := by
    rw [value_eq]
    exact Nat.ofDigits_singleton
  rw [← List.singleton_append, value_append, hone]

/-- A number is not less with more digits. -/
theorem value_le_append (hb : 0 < b) (ds es : List ℕ) : value b ds ≤ value b (ds ++ es) := by
  have hpow : 1 ≤ b ^ es.length := Nat.one_le_pow _ _ hb
  calc value b ds = value b ds * 1 := (Nat.mul_one _).symm
    _ ≤ value b ds * b ^ es.length := Nat.mul_le_mul_left _ hpow
    _ ≤ value b ds * b ^ es.length + value b es := Nat.le_add_right _ _
    _ = value b (ds ++ es) := (value_append b ds es).symm

/-- A number is greater with more digits, unless it begins with zero. -/
theorem value_lt_append {es : List ℕ} (hb : 1 < b) (hd : 0 < d) (ds : List ℕ) (hes : es ≠ []) :
    value b (d :: ds) < value b (d :: ds ++ es) := by
  have hpos : 0 < value b (d :: ds) := by
    rw [value_cons]
    exact Nat.add_pos_left (Nat.mul_pos hd (Nat.pow_pos (Nat.zero_lt_of_lt hb))) _
  have hpow : 1 < b ^ es.length := Nat.one_lt_pow (fun h => hes (List.length_eq_zero_iff.mp h)) hb
  calc value b (d :: ds) = value b (d :: ds) * 1 := (Nat.mul_one _).symm
    _ < value b (d :: ds) * b ^ es.length := Nat.mul_lt_mul_of_pos_left hpow hpos
    _ ≤ value b (d :: ds) * b ^ es.length + value b es := Nat.le_add_right _ _
    _ = value b (d :: ds ++ es) := (value_append b (d :: ds) es).symm

/-- Zeros in front of the digits do not change the number. -/
theorem value_zeros_append (b k : ℕ) (ds : List ℕ) : value b (List.replicate k 0 ++ ds) = value b ds := by
  rw [value_eq, List.reverse_append, List.reverse_replicate, Nat.ofDigits_append_replicate_zero, ← value_eq]

/-- Zeros behind the digits multiply the number by a power of the base. -/
theorem value_append_zeros (b k : ℕ) (ds : List ℕ) :
    value b (ds ++ List.replicate k 0) = b ^ k * value b ds := by
  rw [value_eq, List.reverse_append, List.reverse_replicate,
    Nat.ofDigits_append, Nat.ofDigits_replicate_zero, List.length_replicate,
    Nat.zero_add, ← value_eq]

/-- The numeral of a number denotes this number. -/
theorem value_numeral (b n : ℕ) : value b (numeral b n) = n := by
  unfold numeral
  split_ifs with h
  · rw [h]
    rfl
  · rw [value_eq, List.reverse_reverse, Nat.ofDigits_digits]

/-- A numeral has at least one digit, also that of 0. -/
theorem numeral_ne_nil (b n : ℕ) : numeral b n ≠ [] := by
  unfold numeral
  split_ifs with h
  · exact List.cons_ne_nil _ _
  · rw [Ne, List.reverse_eq_nil_iff, Nat.digits_eq_nil_iff_eq_zero]
    exact h

/-- The digits of a numeral are digits. -/
theorem lt_of_mem_numeral (hb : 1 < b) (hd : d ∈ numeral b n) : d < b := by
  unfold numeral at hd
  split_ifs at hd with h
  · rw [List.mem_singleton.mp hd]
    omega
  · exact Nat.digits_lt_base hb (List.mem_reverse.mp hd)

/-- A number below a power of the base has no more digits than the exponent. -/
theorem length_numeral_le_iff (hb : 1 < b) (hk : 0 < k) : (numeral b n).length ≤ k ↔ n < b ^ k := by
  unfold numeral
  split_ifs with h
  · rw [h]
    exact ⟨fun _ => Nat.pow_pos (by omega), fun _ => hk⟩
  · rw [List.length_reverse, Nat.digits_length_le_iff hb]

/-- Digits that denote a number are its numeral, if the first is not zero. -/
theorem eq_numeral (hb : 1 < b) (hds : ∀ d ∈ ds, d < b) (hne : ds ≠ []) (hhead : ds.head hne ≠ 0) :
    numeral b (value b ds) = ds := by
  have hdigits : b.digits (value b ds) = ds.reverse := by
    rw [value_eq]
    apply Nat.digits_ofDigits b hb
    · exact fun d hd => hds d (List.mem_reverse.mp hd)
    · intro _
      rw [List.getLast_reverse]
      exact hhead
  have hpos : value b ds ≠ 0 := by
    intro hzero
    rw [hzero, Nat.digits_zero] at hdigits
    exact hne (List.reverse_eq_nil_iff.mp hdigits.symm)
  unfold numeral
  rw [if_neg hpos, hdigits, List.reverse_reverse]

/-- The lowest digits denote the number up to a multiple of the power. -/
theorem ofDigits_low (b k n : ℕ) : Nat.ofDigits b (low b k n) = n % b ^ k := by
  induction k generalizing n with
  | zero => rw [low, Nat.ofDigits_nil, Nat.pow_zero, Nat.mod_one]
  | succ k ih =>
    rw [low, Nat.ofDigits_cons, ih]
    calc n % b + b * (n / b % b ^ k) = n % (b * b ^ k) := (Nat.mod_mul).symm
      _ = n % b ^ (k + 1) := by rw [Nat.pow_succ, Nat.mul_comm]

/-- The lowest digits of a number are digits of the base. -/
theorem lt_of_mem_low (hb : 0 < b) (hd : d ∈ low b k n) : d < b := by
  induction k generalizing n with
  | zero => exact absurd hd (List.not_mem_nil)
  | succ k ih =>
    rcases List.mem_cons.mp hd with rfl | hd
    · exact Nat.mod_lt n hb
    · exact ih hd

/-- The lowest `k` digits are `k` in number, with zeros in front where the number is short. -/
theorem length_low (b k n : ℕ) : (low b k n).length = k := by
  induction k generalizing n with
  | zero => rfl
  | succ k ih => rw [low, List.length_cons, ih]

/-- One more digit is the next one above. -/
theorem low_succ (b k n : ℕ) : low b (k + 1) n = low b k n ++ [n / b ^ k % b] := by
  induction k generalizing n with
  | zero => simp [low]
  | succ k ih =>
    calc low b (k + 1 + 1) n = n % b :: low b (k + 1) (n / b) := rfl
      _ = n % b :: (low b k (n / b) ++ [n / b / b ^ k % b]) := by rw [ih]
      _ = low b (k + 1) n ++ [n / b ^ (k + 1) % b] := by
        rw [Nat.div_div_eq_div_mul, Nat.pow_succ', low, List.cons_append]

/-- The lowest digits, shown from the first that is not zero on, are the numeral if there are enough
of them. -/
theorem shown_low (hb : 1 < b) (hk : 0 < k) (hn : n < b ^ k) : shown (· == 0) (low b k n) = numeral b n := by
  have hvalue : value b ((low b k n).reverse) = n := by
    rw [value_eq, List.reverse_reverse, ofDigits_low, Nat.mod_eq_of_lt hn]
  generalize hds : (low b k n).reverse = ds at hvalue
  have hsplit : ∃ j, ds = List.replicate j 0 ++ ds.dropWhile (· == 0) := by
    refine ⟨(ds.takeWhile (· == 0)).length, ?_⟩
    have hzero : ds.takeWhile (· == 0) = List.replicate (ds.takeWhile (· == 0)).length 0 := by
      apply List.eq_replicate_of_mem
      intro d hd
      have hp := List.mem_takeWhile_imp hd
      simpa using hp
    rw [← hzero, List.takeWhile_append_dropWhile]
  obtain ⟨j, hj⟩ := hsplit
  have hrest : value b (ds.dropWhile (· == 0)) = n := by
    rw [← hvalue]
    conv_rhs => rw [hj]
    rw [value_zeros_append]
  unfold shown
  rw [hds]
  split_ifs with hnil
  -- All digits are zero.
  · rw [hnil] at hrest
    have hzero : n = 0 := hrest.symm
    obtain ⟨k, rfl⟩ : ∃ m, k = m + 1 := ⟨k - 1, by omega⟩
    rw [hzero, low, List.take_succ_cons, List.take_zero, Nat.zero_mod]
    rfl
  · have hdigits : ∀ d ∈ ds.dropWhile (· == 0), d < b := by
      intro d hd
      have hmem : d ∈ ds := (List.dropWhile_sublist _).mem hd
      rw [← hds] at hmem
      exact lt_of_mem_low (by omega) (List.mem_reverse.mp hmem)
    have hhead : (ds.dropWhile (· == 0)).head hnil ≠ 0 := by
      have hnot := List.head_dropWhile_not (· == 0) hnil
      simpa using hnot
    rw [← eq_numeral hb hdigits hnil hhead, hrest]

/-- A number with a known highest digit. -/
theorem numeral_of_high {q r : ℕ} (hb : 1 < b) (hq : q ≠ 0) (hqb : q < b) (hr : r < b ^ k) :
    numeral b (q * b ^ k + r) = q :: (low b k r).reverse := by
  have hvalue : value b (q :: (low b k r).reverse) = q * b ^ k + r := by
    rw [value_cons, List.length_reverse, length_low, value_eq,
      List.reverse_reverse, ofDigits_low, Nat.mod_eq_of_lt hr]
  have hdigits : ∀ d ∈ q :: (low b k r).reverse, d < b := by
    intro d hd
    rcases List.mem_cons.mp hd with rfl | hd
    · exact hqb
    · exact lt_of_mem_low (by omega) (List.mem_reverse.mp hd)
  rw [← hvalue]
  exact eq_numeral hb hdigits (List.cons_ne_nil _ _) hq

/-- Digits that are cut off do not depend on what is above them. -/
theorem low_mod (b k n : ℕ) : low b k (n % b ^ k) = low b k n := by
  induction k generalizing n with
  | zero => rfl
  | succ k ih =>
    have hfirst : n % b ^ (k + 1) % b = n % b :=
      Nat.mod_mod_of_dvd n (Dvd.intro_left (b ^ k) (Nat.pow_succ ..).symm)
    have hrest : n % b ^ (k + 1) / b = n / b % b ^ k := by rw [Nat.pow_succ', Nat.mod_mul_right_div_self]
    rw [low, low, hfirst, hrest, ih]

/-- What is shown of digits that are written as characters. -/
theorem shown_map {α β : Type} {zero : α → Bool} {zero' : β → Bool}
    {char : α → β} (ds : List α) (h : ∀ d ∈ ds, zero' (char d) = zero d) :
    shown zero' (ds.map char) = (shown zero ds).map char := by
  have hdrop : ∀ l : List α, (∀ d ∈ l, zero' (char d) = zero d) →
      (l.map char).dropWhile zero' = (l.dropWhile zero).map char := by
    intro l hl
    induction l with
    | nil => rfl
    | cons d l ih =>
      rw [List.map_cons, List.dropWhile_cons, List.dropWhile_cons,
        hl d List.mem_cons_self, ih fun e he => hl e (List.mem_cons_of_mem _ he)]
      split_ifs <;> rfl
  have hrev := hdrop ds.reverse fun d hd => h d (List.mem_reverse.mp hd)
  unfold shown
  rw [← List.map_reverse, hrev, ← List.map_take]
  by_cases hnil : ds.reverse.dropWhile zero = []
  · rw [hnil, if_pos rfl, List.map_nil, if_pos rfl]
  · rw [if_neg hnil, if_neg (by rwa [List.map_eq_nil_iff])]

/-- What a character is worth as a digit; 255 if it is none. -/
def digitValue (ch : UInt8) : ℕ :=
  if 48 ≤ ch ∧ ch ≤ 57 then ch.toNat - 48
  else if 97 ≤ ch ∧ ch ≤ 102 then ch.toNat - 87
  else if 65 ≤ ch ∧ ch ≤ 70 then ch.toNat - 55
  else 255

/-- The number that characters denote, if they are digits. -/
def readDigits (b : ℕ) (s : List UInt8) : Option ℕ :=
  if s ≠ [] ∧ s.all (fun ch => digitValue ch < b) = true then some (value b (s.map digitValue)) else none

/-- All characters are digits. -/
theorem all_digits_iff {s : List UInt8} :
    s.all (fun ch => digitValue ch < b) = true ↔ ∀ ch ∈ s, digitValue ch < b := by
  rw [List.all_eq_true]
  exact forall₂_congr fun ch _ => decide_eq_true_iff

/-- A text without the blanks around it. -/
def unblank (s : List UInt8) : List UInt8 := ((s.dropWhile (· == 32)).reverse.dropWhile (· == 32)).reverse

/-- A number with a sign. -/
def signed (minus : Bool) (n : ℕ) : ℤ := if minus then -n else n

/-- The number that a text denotes: digits, which a minus sign may precede, with blanks around. -/
def read (b : ℕ) (s : List UInt8) : Option ℤ :=
  if (unblank s).head? = some 45 then (readDigits b (unblank s).tail).map (signed true)
  else (readDigits b (unblank s)).map (signed false)

/-- Characters for the digits. -/
structure Alphabet (b : ℕ) (char : ℕ → UInt8) : Prop where
  /-- The character for 0 is `0`. -/
  char_zero : char 0 = 48
  /-- A character is read as its digit. -/
  digitValue_char : ∀ d < b, digitValue (char d) = d

/-- No blank and no minus sign is a digit. -/
theorem ne_of_digitValue {ch : UInt8} (h : digitValue ch < 255) : ch ≠ 32 ∧ ch ≠ 45 := by
  constructor
  · rintro rfl
    exact absurd h (by decide)
  · rintro rfl
    exact absurd h (by decide)

/-- In an alphabet only the digit 0 has the character `0`. -/
theorem Alphabet.char_eq {char : ℕ → UInt8} (h : Alphabet b char) (hd : d < b) : char d = 48 ↔ d = 0 := by
  constructor
  · intro hchar
    rw [← h.digitValue_char d hd, hchar]
    rfl
  · rintro rfl
    exact h.char_zero

/-- The characters of digits denote these digits. -/
theorem Alphabet.map_digitValue {char : ℕ → UInt8} (h : Alphabet b char) (hds : ∀ d ∈ ds, d < b) :
    (ds.map char).map digitValue = ds := by
  rw [List.map_map]
  conv_rhs => rw [← List.map_id ds]
  exact List.map_congr_left fun d hd => h.digitValue_char d (hds d hd)

/-- A text of characters of digits is read as the number that the digits denote. -/
theorem Alphabet.readDigits {char : ℕ → UInt8} (h : Alphabet b char) (hne : ds ≠ []) (hds : ∀ d ∈ ds, d < b) :
    readDigits b (ds.map char) = some (value b ds) := by
  have hall : ∀ ch ∈ ds.map char, digitValue ch < b := by
    intro ch hch
    obtain ⟨d, hd, rfl⟩ := List.mem_map.mp hch
    rw [h.digitValue_char d (hds d hd)]
    exact hds d hd
  unfold Numerals.readDigits
  rw [if_pos ⟨by rwa [Ne, List.map_eq_nil_iff], all_digits_iff.mpr hall⟩, h.map_digitValue hds]

/-- The blanks around a text that neither begins nor ends with one. -/
theorem unblank_blanks (i j : ℕ) {s : List UInt8} (hhead : ∀ ch ∈ s.head?, ch ≠ 32)
    (hlast : ∀ ch ∈ s.getLast?, ch ≠ 32) :
    unblank (List.replicate i 32 ++ s ++ List.replicate j 32) = s := by
  have hdrop : ∀ (k : ℕ) (l : List UInt8), (List.replicate k 32 ++ l).dropWhile
      (· == 32) = l.dropWhile (· == 32) := by
    intro k l
    induction k with
    | zero => rfl
    | succ k ih =>
      rw [List.replicate_succ, List.cons_append, List.dropWhile_cons, if_pos (beq_self_eq_true 32), ih]
  have hkeep : ∀ l : List UInt8, (∀ ch ∈ l.head?, ch ≠ 32) → l.dropWhile (· == 32) = l := by
    intro l hl
    cases l with
    | nil => rfl
    | cons ch l => rw [List.dropWhile_cons, if_neg (by simpa using hl ch rfl)]
  unfold unblank
  rw [List.append_assoc, hdrop]
  cases s with
  | nil =>
    have hblank := hdrop j []
    rw [List.append_nil] at hblank
    rw [List.nil_append, hblank]
    rfl
  | cons ch s =>
    rw [hkeep (ch :: s ++ List.replicate j 32) (by simpa using hhead),
      List.reverse_append, List.reverse_replicate, hdrop,
      hkeep _ (by rwa [List.head?_reverse]), List.reverse_reverse]

/-- A text of digits with blanks around it. -/
theorem read_digits {s : List UInt8} (hb : b ≤ 255) (i j : ℕ)
    (minus : Bool) (hs : ∀ ch ∈ s, digitValue ch < b) (hne : s ≠ []) :
    read b (List.replicate i 32 ++ ((if minus then [45] else []) ++ s) ++ List.replicate j 32) =
      some (signed minus (value b (s.map digitValue))) := by
  have hclean : ∀ ch ∈ s, ch ≠ 32 ∧ ch ≠ 45 := fun ch hch => ne_of_digitValue (lt_of_lt_of_le (hs ch hch) hb)
  have hread : Numerals.readDigits b s = some (value b (s.map digitValue)) :=
    if_pos ⟨hne, all_digits_iff.mpr hs⟩
  have hlast : ∀ ch ∈ s.getLast?, ch ≠ 32 := fun ch hch => (hclean ch (List.mem_of_getLast? hch)).1
  unfold read
  cases minus with
  | false =>
    rw [if_neg Bool.false_ne_true, List.nil_append,
      unblank_blanks i j (fun ch hch => (hclean ch (List.mem_of_mem_head? hch)).1) hlast, if_neg,
      hread]
    · rfl
    · intro hhead
      exact (hclean 45 (List.mem_of_mem_head? hhead)).2 rfl
  | true =>
    have hlast' : ∀ ch ∈ (45 :: s).getLast?, ch ≠ 32 := by
      intro ch hch
      rw [List.getLast?_cons_of_ne_nil hne] at hch
      exact hlast ch hch
    have hhead' : ∀ ch ∈ (45 :: s).head?, ch ≠ 32 := by
      rintro ch hch
      rw [← Option.some.inj hch]
      decide
    rw [if_pos rfl, List.singleton_append, unblank_blanks i j hhead' hlast',
      List.head?_cons, if_pos rfl, List.tail_cons, hread]
    rfl

/-- A text is its inside with the blanks around it. -/
theorem exists_unblank (s : List UInt8) :
    ∃ i j, s = List.replicate i 32 ++ unblank s ++ List.replicate j 32 := by
  have hfront : ∀ l : List UInt8, l = List.replicate (l.takeWhile (· == 32)).length 32 ++
      l.dropWhile (· == 32) := by
    intro l
    have hblanks : l.takeWhile (· == 32) = List.replicate (l.takeWhile (· == 32)).length 32 :=
      List.eq_replicate_iff.mpr ⟨rfl, fun ch hch =>
        beq_iff_eq.mp (List.mem_takeWhile_imp (p := fun ch => ch == 32) hch)⟩
    rw [← hblanks, List.takeWhile_append_dropWhile]
  have hback := congrArg List.reverse (hfront (s.dropWhile (· == 32)).reverse)
  rw [List.reverse_reverse, List.reverse_append, List.reverse_replicate] at hback
  refine ⟨(s.takeWhile (· == 32)).length, ((s.dropWhile (· == 32)).reverse.takeWhile (· == 32)).length, ?_⟩
  unfold unblank
  rw [List.append_assoc, ← hback]
  exact hfront s

/-- A text that is read as a number has blanks around a sign and digits. -/
theorem exists_of_read {s : List UInt8} {v : ℤ} (h : read b s = some v) :
    ∃ i j minus l, s = List.replicate i 32 ++ ((if minus then [45] else []) ++ l) ++
    List.replicate j 32 ∧ l ≠ [] ∧ (∀ ch ∈ l, digitValue ch < b) ∧
    v = signed minus (value b (l.map digitValue)) := by
  obtain ⟨i, j, hs⟩ := exists_unblank s
  have hdigits : ∀ {l : List UInt8} {minus : Bool}, (readDigits b l).map (signed minus) = some v →
      l ≠ [] ∧ (∀ ch ∈ l, digitValue ch < b) ∧ v = signed minus (value b (l.map digitValue)) := by
    intro l minus hl
    obtain ⟨n, hn, rfl⟩ := Option.map_eq_some_iff.mp hl
    unfold readDigits at hn
    split_ifs at hn with hall
    exact ⟨hall.1, all_digits_iff.mp hall.2, by rw [Option.some.inj hn]⟩
  unfold read at h
  split_ifs at h with hminus
  · obtain ⟨hne, hall, hv⟩ := hdigits h
    refine ⟨i, j, true, (unblank s).tail, ?_, hne, hall, hv⟩
    rw [if_pos rfl, List.singleton_append, List.cons_head?_tail hminus]
    exact hs
  · obtain ⟨hne, hall, hv⟩ := hdigits h
    exact ⟨i, j, false, unblank s, hs, hne, hall, hv⟩

/-- All characters of a text that denotes a number are blanks, minus signs or digits. -/
theorem chars_of_read {s : List UInt8} {v : ℤ} (h : read b s = some v) :
    ∀ ch ∈ s, ch = 32 ∨ ch = 45 ∨ digitValue ch < b := by
  obtain ⟨i, j, minus, l, rfl, -, hl, -⟩ := exists_of_read h
  intro ch hch
  rw [List.mem_append, List.mem_append, List.mem_append] at hch
  rcases hch with (hblank | hsign | hdigit) | hblank
  · exact Or.inl (List.eq_of_mem_replicate hblank)
  · cases minus with
    | false => exact absurd hsign List.not_mem_nil
    | true => exact Or.inr (Or.inl (List.mem_singleton.mp hsign))
  · exact Or.inr (Or.inr (hl ch hdigit))
  · exact Or.inl (List.eq_of_mem_replicate hblank)

end Xinu.Numerals
