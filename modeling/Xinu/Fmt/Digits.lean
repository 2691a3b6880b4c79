import Xinu.Fmt.Doprnt
import Xinu.Rds.Comm

/-!
# The digits that the formatters store

Each of the conversion functions stores the numeral of its argument in its base: of the absolute
value for `%d`, of the argument as an unsigned number for the others. The exception is the `_prtl10`
of `fdoprnt.c` at the one negative number that it is called with.
-/

namespace Xinu

open Numerals

variable {b k : ℕ} {num : ℤ}

namespace Doprnt

/-- The characters of the digits up to nine. -/
def decimals (d : ℕ) : UInt8 := digit d

/-- The lower-case characters of the digits up to fifteen. -/
def lower (d : ℕ) : UInt8 := lowerDigits.getD d 0

/-- The upper-case characters of the digits up to fifteen. -/
def upper (d : ℕ) : UInt8 := upperDigits.getD d 0

/-- The decimal characters are an alphabet. -/
theorem decimals_alphabet (hb : b ≤ 10) : Alphabet b decimals := by
  have hall : ∀ d < 10, digitValue (decimals d) = d := by decide
  exact ⟨rfl, fun d hd => hall d (by omega)⟩

/-- The lower-case characters denote the hexadecimal digits that they stand for. -/
theorem lower_alphabet : Alphabet 16 lower := ⟨rfl, by decide⟩

/-- The upper-case characters denote the hexadecimal digits that they stand for. -/
theorem upper_alphabet : Alphabet 16 upper := ⟨rfl, by decide⟩

/-- The digits of a number that is not negative. -/
theorem temps_nat {char : ℕ → UInt8} {c : ℤ → UInt8} {next : ℤ → ℤ} (hc : ∀ n : ℕ, c n = char (n % b))
    (hnext : ∀ n : ℕ, next n = (n / b : ℕ)) (k n : ℕ) : temps c next k n = (low b k n).map char := by
  induction k generalizing n with
  | zero => rfl
  | succ k ih => rw [temps, low, List.map_cons, hc, hnext, ih]

/-- The digits that are cut off with remainders that are not negative and quotients that are rounded down. -/
theorem temps_int {char : ℕ → UInt8} {c : ℤ → UInt8} {next : ℤ → ℤ}
    {m : ℤ} (hb : 0 < b) (hm : m = b) (hc : ∀ z, c z = char (z % m).toNat)
    (hnext : ∀ z, next z = z / m) (k : ℕ) (z : ℤ) :
    temps c next k z = (low b k (z % (b ^ k : ℕ)).toNat).map char := by
  subst hm
  induction k generalizing z with
  | zero => rfl
  | succ k ih =>
    obtain ⟨r, hr⟩ : ∃ r : ℕ, z % (b ^ (k + 1) : ℕ) = r :=
      ⟨_, (Int.toNat_of_nonneg (Int.emod_nonneg z (by positivity))).symm⟩
    have hlt : r < b ^ (k + 1) := by
      have hmod := Int.emod_lt_of_pos z (show (0 : ℤ) < (b ^ (k + 1) : ℕ) by positivity)
      omega
    -- The number is its last digits and a multiple of the power behind them.
    have hz : z = r + b * (b ^ k * (z / (b ^ (k + 1) : ℕ))) := by
      conv_lhs => rw [← Int.emod_add_mul_ediv z (b ^ (k + 1) : ℕ), hr]
      push_cast
      ring
    generalize hq : z / (b ^ (k + 1) : ℕ) = q at hz
    -- The first character that is cut off is the lowest digit of the rest, whatever its sign.
    have hdigit : z % b = (r % b : ℕ) := by
      rw [hz, Int.add_mul_emod_self_left]
      exact (Int.natCast_emod r b).symm
    have hquot : z / b = (r / b : ℕ) + b ^ k * q := by
      rw [hz, Int.add_mul_ediv_left _ _ (by omega)]
      push_cast
      rfl
    -- And the quotient has the other digits of the rest.
    have hrest : (z / b) % (b ^ k : ℕ) = (r / b : ℕ) := by
      have hsmall : r / b < b ^ k := by
        apply Nat.div_lt_of_lt_mul
        rwa [← Nat.pow_succ']
      rw [hquot]
      push_cast
      rw [Int.add_mul_emod_self_left]
      apply Int.emod_eq_of_lt
      · positivity
      · exact_mod_cast hsmall
    rw [temps, hc, hnext, ih, hrest, hdigit, hr, Int.toNat_natCast,
      Int.toNat_natCast, Int.toNat_natCast, low, List.map_cons]

/-- What is shown of the digits in `temp`. -/
theorem fromTop_map {char : ℕ → UInt8} {n : ℕ} (h : Alphabet b char)
    (hb : 1 < b) (hk : 0 < k) (hn : n < b ^ k) :
    fromTop ((low b k n).map char) = (numeral b n).map char := by
  have hzero : ∀ d ∈ low b k n, (char d == '0'.toUInt8) = (d == 0) := by
    intro d hd
    rw [Bool.eq_iff_iff, beq_iff_eq, beq_iff_eq]
    exact h.char_eq (lt_of_mem_low (by omega) hd)
  have hmap : shown (· == '0'.toUInt8) ((low b k n).map char) = (shown (· == 0) (low b k n)).map char :=
    shown_map _ hzero
  unfold fromTop
  rw [hmap, shown_low hb hk hn]

/-- What is shown of the digits in `temp`, of a number that may be negative. -/
theorem fromTop_temps {char : ℕ → UInt8} {c : ℤ → UInt8}
    {next : ℤ → ℤ} {m : ℤ} (h : Alphabet b char) (hb : 1 < b) (hk : 0 < k) (hm : m = b)
    (hc : ∀ z, c z = char (z % m).toNat) (hnext : ∀ z, next z = z / m) (hpow : b ^ k = 2 ^ 32) (num : ℤ) :
    fromTop (temps c next k num) = (numeral b (uint32 num)).map char := by
  have hmod : (num % (b ^ k : ℕ)).toNat = uint32 num := by
    rw [hpow]
    rfl
  have hlt : uint32 num < b ^ k := by
    unfold uint32
    omega
  calc
    fromTop (temps c next k num) = fromTop ((low b k (num % (b ^ k : ℕ)).toNat).map char) := by
      rw [temps_int (by omega) hm hc hnext]
    _ = (numeral b (uint32 num)).map char := by rw [hmod, fromTop_map h hb hk hlt]

/-- `_prtl16` stores the hexadecimal numeral of the number as an unsigned word, in lower case. -/
theorem prtl16_eq (num : ℤ) : prtl16 num = (numeral 16 (uint32 num)).map lower :=
  fromTop_temps (m := 16) lower_alphabet (by decide) (by decide) rfl
    (fun _ => rfl) (fun _ => rfl) (by decide) num

/-- `_prtX16` stores the hexadecimal numeral of the number as an unsigned word, in upper case. -/
theorem prtX16_eq (num : ℤ) : prtX16 num = (numeral 16 (uint32 num)).map upper :=
  fromTop_temps (m := 16) upper_alphabet (by decide) (by decide) rfl
    (fun _ => rfl) (fun _ => rfl) (by decide) num

/-- `_prtl2` stores the binary numeral of the number as an unsigned word. -/
theorem prtl2_eq (num : ℤ) : prtl2 num = (numeral 2 (uint32 num)).map decimals := by
  have hdigit : ∀ z : ℤ, (if z.tmod 2 = 0 then '0'.toUInt8 else '1'.toUInt8) = decimals (z % 2).toNat := by
    intro z
    have hmod : z.tmod 2 = 0 ↔ z % 2 = 0 := by rw [← Int.dvd_iff_tmod_eq_zero, Int.dvd_iff_emod_eq_zero]
    rcases Int.emod_two_eq_zero_or_one z with h | h
    · rw [if_pos (hmod.mpr h), h]
      rfl
    · rw [if_neg (by rw [hmod, h]; decide), h]
      rfl
  exact fromTop_temps (m := 2) (decimals_alphabet (by decide))
    (by decide) (by decide) rfl hdigit (fun _ => rfl) (by decide) num

/-- Another round of the loop puts one more character behind those in `temp`. -/
theorem temps_succ {c : ℤ → UInt8} {next : ℤ → ℤ} (k : ℕ) (num : ℤ) :
    temps c next (k + 1) num = temps c next k num ++ [c (next^[k] num)] := by
  induction k generalizing num with
  | zero => rfl
  | succ k ih =>
    calc temps c next (k + 1 + 1) num = c num :: temps c next (k + 1) (next num) := rfl
      _ = c num :: (temps c next k (next num) ++ [c (next^[k] (next num))]) := by rw [ih]
      _ = temps c next (k + 1) num ++ [c (next^[k + 1] num)] := rfl

/-- `_prtl8` stores the numeral: of the eleventh digit, which the sign extends, two bits are kept. -/
theorem prtl8_eq (num : ℤ) : prtl8 num = (numeral 8 (uint32 num)).map decimals := by
  -- Ten octal digits of the signed number are those of the word.
  have hlow : (low 8 10 (num % (8 ^ 10 : ℕ)).toNat).map decimals = (low 8 10 (uint32 num)).map decimals := by
    rw [← low_mod 8 10 (uint32 num)]
    congr 2
    unfold uint32
    omega
  have htemps : temps (fun n => digit (n % 8)) (fun n => n / 8) 10 num =
      (low 8 10 (uint32 num)).map decimals := by
    rw [← hlow]
    apply temps_int (m := 8) (by decide) rfl
    · intro z
      unfold decimals
      rw [Int.toNat_of_nonneg (Int.emod_nonneg z (by decide))]
    · exact fun _ => rfl
  -- The eleventh has the sign in its third bit, which the mask takes off.
  have hlast : digit ((fun n : ℤ => n / 8)^[10] num % 8) &&& '3'.toUInt8 = decimals
      (uint32 num / 8 ^ 10 % 8) := by
    have hquot : (fun n : ℤ => n / 8)^[10] num % 8 = ((num / 8 ^ 10 % 8).toNat : ℤ) := by
      simp only [Function.iterate_succ, Function.iterate_zero, Function.comp, id]
      omega
    have hmask : ∀ d < 8, decimals d &&& '3'.toUInt8 = decimals (d % 4) := by decide
    have heq : (num / 8 ^ 10 % 8).toNat % 4 = uint32 num / 8 ^ 10 % 8 := by
      unfold uint32
      omega
    calc
      digit ((fun n : ℤ => n / 8)^[10] num % 8) &&& '3'.toUInt8 =
          decimals (num / 8 ^ 10 % 8).toNat &&& '3'.toUInt8 := by
        rw [hquot]
        rfl
      _ = decimals (uint32 num / 8 ^ 10 % 8) := by rw [hmask _ (by omega), heq]
  have hmodify : ∀ l : List UInt8, l.length = 10 →
      ∀ x, (l ++ [x]).modify 10 (fun ch => ch &&& '3'.toUInt8) = l ++ [x &&& '3'.toUInt8] := by
    intro l hl x
    rw [List.modify_eq_take_cons_drop (by rw [List.length_append, hl, List.length_singleton]; decide)]
    simp [← hl]
  unfold prtl8
  rw [temps_succ, htemps, hmodify _ (by rw [List.length_map, length_low]),
    hlast, ← List.map_singleton, ← List.map_append, ← low_succ]
  apply fromTop_map (decimals_alphabet (by decide)) (by decide) (by decide)
  unfold uint32
  omega

/-- The loop on a natural number leaves its lowest `k` decimal digits in `temp`. -/
theorem temps_decimal (k n : ℕ) :
    temps (fun n => digit (n.tmod 10)) (fun n => n.tdiv 10) k n = (low 10 k n).map decimals := by
  apply temps_nat
  · exact fun m => congrArg digit (Int.ofNat_tmod m 10).symm
  · exact fun m => (Int.ofNat_tdiv m 10).symm

/-- `_prtl10` of `doprnt.c` stores the numeral of the absolute value. -/
theorem prtl10_eq (h₁ : -2 ^ 31 ≤ num) (h₂ : num < 2 ^ 31) :
    prtl10 num = (numeral 10 num.natAbs).map decimals := by
  have hstart : ∃ n : ℕ, n = num.natAbs ∧ (if num < 0 then -(num.tmod 10) else num.tmod 10) = (n % 10 : ℕ) ∧
      num.tdiv (if num < 0 then -10 else 10) = (n / 10 : ℕ) := by
    refine ⟨num.natAbs, rfl, ?_⟩
    rcases Int.natAbs_eq num with hn | hn
    · have hneg : ¬ num < 0 := by omega
      rw [if_neg hneg, if_neg hneg]
      generalize num.natAbs = n at hn
      subst hn
      exact ⟨(Int.ofNat_tmod n 10).symm, (Int.ofNat_tdiv n 10).symm⟩
    · rcases Nat.eq_zero_or_pos num.natAbs with hzero | hpos
      · have hnum : num = 0 := Int.natAbs_eq_zero.mp hzero
        subst hnum
        exact ⟨rfl, rfl⟩
      · have hneg : num < 0 := by omega
        rw [if_pos hneg, if_pos hneg]
        generalize num.natAbs = n at hn
        subst hn
        rw [Int.neg_tmod, neg_neg, Int.neg_tdiv_neg]
        exact ⟨(Int.ofNat_tmod n 10).symm, (Int.ofNat_tdiv n 10).symm⟩
  obtain ⟨n, hn, hfirst, hrest⟩ := hstart
  unfold prtl10
  rw [hfirst, hrest, temps_decimal, ← hn]
  exact fromTop_map (k := 10) (decimals_alphabet (by decide)) (by decide) (by decide) (by omega)

/-- The loop of `case 'u'` takes off as much as it counts, and ends with a number that has ten digits. -/
theorem unsignedLoop_spec (h₁ : -2 ^ 31 ≤ num) (h₂ : num < 0) :
    ∃ j : ℕ, j ≤ 3 ∧ ∃ n : ℕ, uint32 num = n + j * 10 ^ 9 ∧
    10 ^ 9 ≤ n ∧ n < 2 ^ 31 ∧ unsignedLoop 3 num 0 = ((n : ℤ), j.toUInt8) := by
  unfold uint32
  by_cases hone : num < -2 ^ 31 + 10 ^ 9
  -- The first subtraction wraps around.
  · have hfirst : int32 (num - 1000000000) = num - 1000000000 + 2 ^ 32 := by
      unfold int32
      rw [Int.bmod_def]
      omega
    refine ⟨1, by decide, (num - 1000000000 + 2 ^ 32).toNat, by omega, by omega, by omega, ?_⟩
    rw [unsignedLoop, if_pos h₂, hfirst, unsignedLoop, if_neg (by omega), Int.toNat_of_nonneg (by omega)]
    rfl
  · have hfirst : int32 (num - 1000000000) = num - 1000000000 := int32_of_mem (by omega) (by omega)
    by_cases htwo : num < -2 ^ 31 + 2 * 10 ^ 9
    · have hsecond : int32 (num - 1000000000 - 1000000000) = num - 2000000000 + 2 ^ 32 := by
        unfold int32
        rw [Int.bmod_def]
        omega
      refine ⟨2, by decide, (num - 2000000000 + 2 ^ 32).toNat, by omega, by omega, by omega, ?_⟩
      rw [unsignedLoop, if_pos h₂, hfirst, unsignedLoop, if_pos (by omega),
        hsecond, unsignedLoop, if_neg (by omega),
        Int.toNat_of_nonneg (by omega)]
      rfl
    · have hsecond : int32 (num - 1000000000 - 1000000000) = num - 1000000000 - 1000000000 :=
        int32_of_mem (by omega) (by omega)
      have hthird : int32 (num - 1000000000 - 1000000000 - 1000000000) = num - 3000000000 + 2 ^ 32 := by
        unfold int32
        rw [Int.bmod_def]
        omega
      refine ⟨3, by decide, (num - 3000000000 + 2 ^ 32).toNat, by omega, by omega, by omega, ?_⟩
      rw [unsignedLoop, if_pos h₂, hfirst, unsignedLoop, if_pos (by omega),
        hsecond, unsignedLoop, if_pos (by omega), hthird, unsignedLoop,
        Int.toNat_of_nonneg (by omega)]
      rfl

/-- `case 'u'` stores the numeral of the argument as an unsigned number, whichever `_prtl10` it uses. -/
theorem prtu_eq {f : ℤ → CString} (hf : ∀ n : ℕ, n < 2 ^ 31 → f n = (numeral 10 n).map decimals)
    (h₁ : -2 ^ 31 ≤ num) (h₂ : num < 2 ^ 31) :
    prtu f num = (numeral 10 (uint32 num)).map decimals := by
  unfold prtu
  by_cases hneg : num < 0
  -- A negative argument: its first digit has been counted up, and the loop gives the rest.
  · obtain ⟨j, hj, n, hu, hlow, hhigh, hloop⟩ := unsignedLoop_spec h₁ hneg
    have hn : n = n / 10 ^ 9 * 10 ^ 9 + n % 10 ^ 9 := (Nat.div_add_mod' n (10 ^ 9)).symm
    have hq : n / 10 ^ 9 = 1 ∨ n / 10 ^ 9 = 2 := by omega
    have hsame : numeral 10 n = n / 10 ^ 9 :: (low 10 9 (n % 10 ^ 9)).reverse := by
      conv_lhs => rw [hn]
      exact numeral_of_high (by decide) (by omega) (by omega) (by omega)
    have hlast : numeral 10 (uint32 num) = (n / 10 ^ 9 + j) :: (low 10 9 (n % 10 ^ 9)).reverse := by
      have hsum : uint32 num = (n / 10 ^ 9 + j) * 10 ^ 9 + n % 10 ^ 9 := by omega
      rw [hsum]
      apply numeral_of_high
      · decide
      · omega
      · unfold uint32 at hu
        omega
      · omega
    -- The characters of the digits are counted up as the digits are.
    have hadd : ∀ q < 3, ∀ j < 4, decimals q + j.toUInt8 = decimals (q + j) := by decide
    rw [hloop]
    dsimp only
    rw [hf n hhigh, hsame, hlast, List.map_cons, List.map_cons]
    dsimp only
    rw [hadd _ (by omega) _ (by omega)]
  · obtain ⟨n, rfl⟩ := Int.eq_ofNat_of_zero_le (not_lt.mp hneg)
    have hu : uint32 n = n := by
      unfold uint32
      omega
    rw [unsignedLoop, if_neg hneg]
    dsimp only
    rw [hf n (by omega), hu]
    cases hs : (numeral 10 n).map decimals with
    | nil => rfl
    | cons ch s =>
      dsimp only
      rw [UInt8.add_zero]

end Doprnt

namespace Fdoprnt

open Doprnt

/-- `_prtl10` of `fdoprnt.c` stores the numeral of a number that is not negative. -/
theorem prtl10_eq {n : ℕ} (hn : n < 2 ^ 31) : prtl10 n = (numeral 10 n).map decimals := by
  unfold prtl10
  rw [temps_decimal]
  exact fromTop_map (decimals_alphabet (by decide)) (by decide) (by decide) (by omega)

/-- What it stores for the number that cannot be negated. -/
theorem prtl10_min :
    prtl10 (-2 ^ 31) = ['.', '/', ',', ')', ',', '(', '-', '*', ',', '('].map Char.toUInt8 := by
  decide

end Fdoprnt

end Xinu
