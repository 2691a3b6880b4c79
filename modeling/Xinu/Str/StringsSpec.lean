import Mathlib.Algebra.Ring.Nat
import Mathlib.Data.List.Lex
import Xinu.Fmt.DoscanSpec
import Xinu.Lib.Strings
import Xinu.Str.Strings

/-!
# What the string functions compute

`strstr` finds the first occurrence, but none of the empty string. `strcmp` and `strncmp` order
strings by their characters as signed numbers, and so differ from `memcmp`, which takes them as
unsigned ones. `atoi` reads every numeral that the formatters print.
-/

namespace Xinu

open Numerals Strings

variable {front s t : CString} {c d : UInt8} {p q : ℕ}

/-! ## Search -/

/-- The inner loop compares with the beginning. -/
theorem strstrLoop_iff : ∀ {cq cr : CString}, strstrLoop cq cr = true ↔ cr <+: cq
  | [], [] => iff_of_true rfl List.nil_prefix
  | c :: cq, [] => iff_of_true rfl List.nil_prefix
  | [], d :: cr => iff_of_false Bool.false_ne_true fun h => List.cons_ne_nil _ _ (List.prefix_nil.mp h)
  | c :: cq, d :: cr => by
    rw [strstrLoop]
    by_cases hcd : c = d
    · subst hcd
      rw [if_neg (not_not.mpr rfl), strstrLoop_iff, List.cons_prefix_cons]
      exact ⟨fun h => ⟨rfl, h⟩, And.right⟩
    · rw [if_pos hcd]
      exact iff_of_false Bool.false_ne_true fun h => hcd (List.cons_prefix_cons.mp h).1.symm

/-- The outer loop stops at a place exactly if the substring begins there. -/
theorem strstr_here {c : UInt8} {cs ct : CString} (hct : ct ≠ []) :
    (c = ct.headD 0 ∧ strstrLoop (c :: cs) ct = true) ↔ ct <+: c :: cs := by
  rw [strstrLoop_iff]
  obtain ⟨d, cr, rfl⟩ := List.exists_cons_of_ne_nil hct
  exact ⟨And.right, fun h => ⟨(List.cons_prefix_cons.mp h).1.symm, h⟩⟩

/-- The place of the first occurrence. -/
theorem strstr_eq_some {ct : CString} (hct : ct ≠ []) : ∀ {cs : CString} {i : ℕ},
    strstr cs ct = some i ↔ ct <+: cs.drop i ∧ ∀ j < i, ¬ ct <+: cs.drop j
  | [], i => by
    rw [strstr, List.drop_nil, List.prefix_nil]
    exact iff_of_false (Option.some_ne_none i).symm fun h => hct h.1
  | c :: cs, i => by
    rw [strstr]
    -- Here is the first place, or the search goes on one character later.
    by_cases hhere : ct <+: c :: cs
    · rw [if_pos ((strstr_here hct).mpr hhere)]
      cases i with
      | zero => exact iff_of_true rfl ⟨hhere, fun j hj => absurd hj (Nat.not_lt_zero j)⟩
      | succ i =>
        exact iff_of_false (fun h => Nat.succ_ne_zero i (Option.some.inj h).symm) fun h =>
          h.2 0 (Nat.succ_pos i) hhere
    · rw [if_neg fun h => hhere ((strstr_here hct).mp h)]
      cases i with
      | zero =>
        refine iff_of_false (fun h => ?_) fun h => hhere h.1
        obtain ⟨i, -, hi⟩ := Option.map_eq_some_iff.mp h
        exact Nat.succ_ne_zero i hi
      | succ i =>
        have hmap : (strstr cs ct).map (· + 1) = some (i + 1) ↔ strstr cs ct = some i := by
          rw [Option.map_eq_some_iff]
          constructor
          · rintro ⟨k, hk, heq⟩
            rw [hk, Nat.succ_injective heq]
          · exact fun h => ⟨i, h, rfl⟩
        rw [hmap, strstr_eq_some hct, List.drop_succ_cons]
        refine and_congr_right fun _ => ⟨fun h j hj => ?_, fun h j hj => h (j + 1) (Nat.succ_lt_succ hj)⟩
        cases j with
        | zero => exact hhere
        | succ j => exact h j (Nat.lt_of_succ_lt_succ hj)

/-- Nothing is found of the empty string. -/
theorem strstr_empty : ∀ {cs : CString}, (∀ ch ∈ cs, ch ≠ 0) → strstr cs [] = none
  | [], _ => rfl
  | c :: cs, h => by
    rw [strstr, if_neg fun hc => h c List.mem_cons_self hc.1,
      strstr_empty fun ch hch => h ch (List.mem_cons_of_mem _ hch)]
    rfl

/-- `strstr` returns the place of the first occurrence, or nothing if there is none, if and only if
the string to be found is not empty. -/
theorem strstr_right (cs ct : CString) (hcs : ∀ ch ∈ cs, ch ≠ 0) :
    ((∀ i, strstr cs ct = some i ↔ ct <+: cs.drop i ∧ ∀ j < i, ¬ ct <+: cs.drop j) ∧
      (strstr cs ct = none ↔ ¬ ct <:+: cs)) ↔ ct ≠ [] := by
  constructor
  · rintro ⟨hfound, -⟩ rfl
    have hzero := (hfound 0).mpr ⟨List.nil_prefix, fun j hj => absurd hj (Nat.not_lt_zero j)⟩
    rw [strstr_empty hcs] at hzero
    cases hzero
  · intro hct
    refine ⟨fun i => strstr_eq_some hct, ?_⟩
    constructor
    · rintro hnone ⟨front, back, rfl⟩
      -- There is a first place where the substring begins.
      have hex : ∃ i, ct <+: (front ++ ct ++ back).drop i :=
        ⟨front.length, by rw [List.append_assoc, List.drop_left]; exact List.prefix_append _ _⟩
      classical
      have hsome := (strstr_eq_some hct).mpr ⟨Nat.find_spec hex, fun j hj => Nat.find_min hex hj⟩
      rw [hnone] at hsome
      cases hsome
    · intro hno
      refine Option.eq_none_iff_forall_ne_some.mpr fun i hi => hno ?_
      exact ((strstr_eq_some hct).mp hi).1.isInfix.trans (List.drop_suffix i cs).isInfix

/-- The string `ss` is found at 1 in `iss`, and not at 0. -/
theorem strstr_right_ss :
    ((∀ i, strstr [105, 115, 115] [115, 115] = some i ↔
    ([115, 115] : CString) <+: List.drop i [105, 115, 115] ∧
    ∀ j < i, ¬ ([115, 115] : CString) <+: List.drop j [105, 115, 115]) ∧
    (strstr [105, 115, 115] [115, 115] = none ↔ ¬ ([115, 115] : CString) <:+: [105, 115, 115])) ↔
      ([115, 115] : CString) ≠ [] :=
  strstr_right [105, 115, 115] [115, 115] (by simp)

/-! ## Comparison -/

/-- Behind the same beginning, `c` stands in the one string and `d` in the other; the null character
may be one of them. -/
def DifferAt (front : CString) (c d : UInt8) (s t : CString) : Prop :=
  c ≠ d ∧ front ++ [c] <+: s ++ [0] ∧ front ++ [d] <+: t ++ [0]

/-- A string as the numbers of its characters and of the null character. -/
def charKeys (s : CString) : List ℤ := (s ++ [0]).map schar

/-- The first characters differ. -/
theorem differAt_nil : DifferAt [] c d s t ↔ c ≠ d ∧ c = s.headD 0 ∧ d = t.headD 0 := by
  have hfirst : ∀ (c : UInt8) (s : CString), [c] <+: s ++ [0] ↔ c = s.headD 0 := by
    intro c s
    cases s <;> simp
  unfold DifferAt
  rw [List.nil_append, List.nil_append, hfirst, hfirst]

/-- The first characters are the same. -/
theorem DifferAt.cons {f : UInt8} (h : DifferAt (f :: front) c d s t) :
    ∃ s' t', s = f :: s' ∧ t = f :: t' ∧ DifferAt front c d s' t' := by
  have hrest : ∀ {c : UInt8} {s : CString}, f :: front ++ [c] <+: s ++ [0] →
      ∃ s', s = f :: s' ∧ front ++ [c] <+: s' ++ [0] := by
    intro c s hpre
    cases s with
    | nil =>
      have hlen := hpre.length_le
      simp at hlen
    | cons g s =>
      obtain ⟨rfl, hs⟩ := List.cons_prefix_cons.mp hpre
      exact ⟨s, rfl, hs⟩
  obtain ⟨hne, hs, ht⟩ := h
  obtain ⟨s', rfl, hs'⟩ := hrest hs
  obtain ⟨t', rfl, ht'⟩ := hrest ht
  exact ⟨s', t', rfl, rfl, hne, hs', ht'⟩

/-- Strings without null characters are the same, or they differ at a first place. -/
theorem first_difference (hs : ∀ ch ∈ s, ch ≠ 0) (ht : ∀ ch ∈ t, ch ≠ 0) :
    s = t ∨ ∃ front c d, DifferAt front c d s t := by
  induction s generalizing t with
  | nil =>
    cases t with
    | nil => exact .inl rfl
    | cons d t => exact .inr ⟨[], 0, d, differAt_nil.mpr ⟨(ht d List.mem_cons_self).symm, rfl, rfl⟩⟩
  | cons c s ih =>
    cases t with
    | nil => exact .inr ⟨[], c, 0, differAt_nil.mpr ⟨hs c List.mem_cons_self, rfl, rfl⟩⟩
    | cons d t =>
      by_cases hcd : c = d
      · subst hcd
        rcases ih (fun ch hch => hs ch (List.mem_cons_of_mem _ hch)) fun ch hch =>
            ht ch (List.mem_cons_of_mem _ hch) with
          rfl | ⟨front, c', d', hne, hs', ht'⟩
        · exact .inl rfl
        · exact .inr ⟨c :: front, c', d', hne, List.cons_prefix_cons.mpr ⟨rfl, hs'⟩,
            List.cons_prefix_cons.mpr ⟨rfl, ht'⟩⟩
      · exact .inr ⟨[], c, d, differAt_nil.mpr ⟨hcd, rfl, rfl⟩⟩

/-- `strcmp` goes to the first difference. -/
theorem strcmp_differ (h : DifferAt front c d s t) : strcmp s t = charOrder c d := by
  induction front generalizing s t with
  | nil =>
    obtain ⟨hne, rfl, rfl⟩ := differAt_nil.mp h
    cases s with
    | nil =>
      cases t with
      | nil => exact absurd rfl hne
      | cons d t => rfl
    | cons c s =>
      cases t with
      | nil => rfl
      | cons d t => exact if_neg hne
  | cons f front ih =>
    obtain ⟨s', t', rfl, rfl, h'⟩ := h.cons
    rw [strcmp, if_pos rfl, ih h']

/-- A string compares as equal with itself. -/
theorem strcmp_self (s : CString) : strcmp s s = 0 := by
  induction s with
  | nil => rfl
  | cons c s ih => rw [strcmp, if_pos rfl, ih]

/-- Lists are in the order of the first difference. -/
theorem append_lt_iff {x y : ℤ} (hne : x ≠ y) (l l₁ l₂ : List ℤ) : l ++ x :: l₁ < l ++ y :: l₂ ↔ x < y := by
  induction l with
  | nil =>
    rw [List.nil_append, List.nil_append, List.cons_lt_cons_iff]
    exact or_iff_left fun h => hne h.1
  | cons z l ih =>
    rw [List.cons_append, List.cons_append, List.cons_lt_cons_iff, ih]
    exact ⟨fun h => h.elim (fun hz => absurd hz (lt_irrefl z)) And.right, fun h => Or.inr ⟨rfl, h⟩⟩

/-- Strings are in the order of the first difference. -/
theorem DifferAt.lt_iff (h : DifferAt front c d s t) : charKeys s < charKeys t ↔ schar c < schar d := by
  obtain ⟨hne, ⟨s', hs⟩, ⟨t', ht⟩⟩ := h
  have hkey : schar c ≠ schar d := fun h => hne (schar_inj h)
  unfold charKeys
  rw [← hs, ← ht]
  simp only [List.append_assoc, List.map_append, List.singleton_append, List.map_cons]
  exact append_lt_iff hkey _ _ _

/-- The difference is the other way around, too. -/
theorem DifferAt.symm (h : DifferAt front c d s t) : DifferAt front d c t s := ⟨h.1.symm, h.2.2, h.2.1⟩

/-- The order of two different characters is that of their signed numbers. -/
theorem charOrder_iff (hne : c ≠ d) : (charOrder c d = -1 ↔ schar c < schar d) ∧
    (charOrder c d = 1 ↔ schar d < schar c) ∧ charOrder c d ≠ 0 := by
  have hkey : schar c ≠ schar d := fun h => hne (schar_inj h)
  unfold charOrder
  split_ifs with hlt
  · exact ⟨iff_of_true rfl hlt, iff_of_false (by decide) (by omega), by decide⟩
  · exact ⟨iff_of_false (by decide) hlt, iff_of_true rfl (by omega), by decide⟩

/-- The sign of the difference of two characters. -/
theorem sign_schar (hne : c ≠ d) : Int.sign (schar c - schar d) = charOrder c d := by
  have hkey : schar c ≠ schar d := fun h => hne (schar_inj h)
  rcases lt_or_gt_of_ne hkey with hlt | hgt
  · rw [(charOrder_iff hne).1.mpr hlt, Int.sign_eq_neg_one_of_neg (by omega)]
  · rw [(charOrder_iff hne).2.1.mpr hgt, Int.sign_eq_one_of_pos (by omega)]

/-- `strncmp` compares the beginnings. -/
theorem strncmp_take : ∀ {n : ℕ} {s t : CString}, (∀ ch ∈ s, ch ≠ 0) → (∀ ch ∈ t, ch ≠ 0) →
    Int.sign (strncmp n s t) = strcmp (s.take n) (t.take n)
  | 0, _, _, _, _ => rfl
  | _ + 1, [], [], _, _ => rfl
  | _ + 1, [], d :: _, _, ht => sign_schar (ht d List.mem_cons_self).symm
  | _ + 1, c :: _, [], hs, _ => sign_schar (hs c List.mem_cons_self)
  | n + 1, c :: s, d :: t, hs, ht => by
    rw [strncmp, List.take_succ_cons, List.take_succ_cons, strcmp]
    by_cases hcd : c = d
    · rw [if_pos hcd, if_pos hcd]
      exact strncmp_take (fun ch hch => hs ch (List.mem_cons_of_mem _ hch)) fun ch hch =>
        ht ch (List.mem_cons_of_mem _ hch)
    · rw [if_neg hcd, if_neg hcd, sign_schar hcd]

/-- The first character of a string in memory. -/
theorem stringAt_head {m : ℕ → UInt8} (h : StringAt m p s) : m p = s.headD 0 := by
  cases s with
  | nil => exact h
  | cons c s => exact h.1

/-- `memcmp` goes to the first difference. -/
theorem memcmp_differ {m : ℕ → UInt8} {k : ℕ} (h : DifferAt front c d s t)
    (hp : StringAt m p s) (hq : StringAt m q t) (hk : front.length < k) :
    memcmp m p q k = c.toNat - d.toNat := by
  induction front generalizing s t p q k with
  | nil =>
    obtain ⟨hne, hc, hd⟩ := differAt_nil.mp h
    obtain ⟨k, rfl⟩ := Nat.exists_eq_add_one_of_ne_zero (Nat.ne_of_gt hk)
    rw [memcmp, stringAt_head hp, stringAt_head hq, ← hc, ← hd, if_pos hne]
  | cons f front ih =>
    obtain ⟨s', t', rfl, rfl, h'⟩ := h.cons
    obtain ⟨k, rfl⟩ := Nat.exists_eq_add_one_of_ne_zero (Nat.ne_of_gt (Nat.zero_lt_of_lt hk))
    rw [memcmp, hp.1, hq.1, if_neg (not_not.mpr rfl)]
    exact ih h' hp.2.2 hq.2.2 (Nat.lt_of_succ_lt_succ hk)

/-- `memcmp` of the same string in two places. -/
theorem memcmp_same {m : ℕ → UInt8} (hp : StringAt m p s) (hq : StringAt m q s) :
    memcmp m p q (s.length + 1) = 0 := by
  induction s generalizing p q with
  | nil =>
    have hnull : m p = m q := Eq.trans hp (Eq.symm hq)
    rw [memcmp, hnull, if_neg (not_not.mpr rfl)]
    rfl
  | cons c s ih =>
    rw [List.length_cons, memcmp, hp.1, hq.1, if_neg (not_not.mpr rfl)]
    exact ih hp.2.2 hq.2.2

/-- Signed and unsigned characters are in the same order if and only if they are in the same half of
the range. -/
theorem sign_toNat_iff (hne : c ≠ d) :
    Int.sign ((c.toNat : ℤ) - d.toNat) = charOrder c d ↔ (c < 128 ↔ d < 128) := by
  have hc := c.toNat_lt
  have hd := d.toNat_lt
  have hnat : c.toNat ≠ d.toNat := fun h => hne (UInt8.toNat_inj.mp h)
  have hkey : ∀ ch : UInt8, schar ch = if ch.toNat < 128 then (ch.toNat : ℤ) else ch.toNat - 256 := by
    intro ch
    have hlt := ch.toNat_lt
    unfold schar
    rw [Int.bmod_def]
    split_ifs <;> omega
  have hhalf : ∀ ch : UInt8, ch < 128 ↔ ch.toNat < 128 := fun ch => UInt8.lt_iff_toNat_lt
  rw [hhalf, hhalf, eq_comm]
  rcases lt_or_gt_of_ne hnat with hlt | hgt
  · rw [Int.sign_eq_neg_one_of_neg (by omega), (charOrder_iff hne).1, hkey, hkey]
    split_ifs <;> omega
  · rw [Int.sign_eq_one_of_pos (by omega), (charOrder_iff hne).2.1, hkey, hkey]
    split_ifs <;> omega

/-- `strcmp` is the lexicographic order of signed characters, and `strncmp` has the sign of `strcmp`
on the beginnings. `memcmp` over the shorter string and its null character agrees with them if and
only if the first characters that differ are in the same half of the range. -/
theorem string_order {m : ℕ → UInt8} {p q : ℕ} {s t : CString} (hp : StringAt m p s) (hq : StringAt m q t) :
    ((strcmp s t = -1 ↔ charKeys s < charKeys t) ∧ (strcmp s t = 0 ↔ s = t) ∧
      (strcmp s t = 1 ↔ charKeys t < charKeys s)) ∧
    (∀ n, Int.sign (strncmp n s t) = strcmp (s.take n) (t.take n)) ∧
    (Int.sign (memcmp m p q (min s.length t.length + 1)) = strcmp s t ↔
      ∀ front c d, DifferAt front c d s t → (c < 128 ↔ d < 128)) := by
  -- The strings are equal, or there is a first place where they differ.
  refine ⟨?_, fun n => strncmp_take hp.ne_zero hq.ne_zero, ?_⟩
  · rcases first_difference hp.ne_zero hq.ne_zero with rfl | ⟨front, c, d, h⟩
    · rw [strcmp_self]
      have hirrefl : ¬ charKeys s < charKeys s := lt_irrefl _
      exact ⟨iff_of_false (by decide) hirrefl, iff_of_true rfl rfl, iff_of_false (by decide) hirrefl⟩
    · have hst : s ≠ t := by
        rintro rfl
        exact (charOrder_iff h.1).2.2 ((strcmp_differ h).symm.trans (strcmp_self s))
      obtain ⟨hlt, hgt, hzero⟩ := charOrder_iff h.1
      rw [strcmp_differ h, h.lt_iff, h.symm.lt_iff]
      exact ⟨hlt, iff_of_false hzero hst, hgt⟩
  · -- At every place where the strings differ, `memcmp` and `strcmp` have read the same two characters.
    have hplace : ∀ front c d, DifferAt front c d s t →
        (Int.sign (memcmp m p q (min s.length t.length + 1)) = strcmp s t ↔ (c < 128 ↔ d < 128)) := by
      intro front c d h
      have hs := h.2.1.length_le
      have ht := h.2.2.length_le
      simp only [List.length_append, List.length_singleton] at hs ht
      rw [memcmp_differ h hp hq (by omega), strcmp_differ h, sign_toNat_iff h.1]
    constructor
    · exact fun hsame front c d h => (hplace front c d h).mp hsame
    · intro hhalf
      rcases first_difference hp.ne_zero hq.ne_zero with rfl | ⟨front, c, d, h⟩
      · rw [min_self, memcmp_same hp hq, strcmp_self]
        rfl
      · exact (hplace front c d h).mpr (hhalf front c d h)

/-- The strings `a` and `b` compare by their first characters. -/
theorem string_order_two : ((strcmp [97] [98] = -1 ↔ charKeys [97] < charKeys [98]) ∧
    (strcmp [97] [98] = 0 ↔ ([97] : CString) = [98]) ∧
    (strcmp [97] [98] = 1 ↔ charKeys [98] < charKeys [97])) ∧
    (∀ n, Int.sign (strncmp n [97] [98]) = strcmp (List.take n [97]) (List.take n [98])) ∧
    (Int.sign (memcmp (fun i => [97, 0, 98, 0].getD i 0) 0 2 2) = strcmp [97] [98] ↔
      ∀ front c d, DifferAt front c d [97] [98] → (c < 128 ↔ d < 128)) :=
  string_order (m := fun i => [97, 0, 98, 0].getD i 0) (p := 0) (q := 2) (by decide) (by decide)

/-! ## Numbers -/

/-- The signed number of a decimal digit is that of `0` and the digit more. -/
theorem schar_digit {ch : UInt8} (h : digitValue ch < 10) : schar ch = 48 + digitValue ch := by
  have hlt := ch.toNat_lt
  unfold schar digitValue at *
  rw [Int.bmod_def]
  simp only [UInt8.le_iff_toNat_le, show (48 : UInt8).toNat = 48 from rfl,
    show (57 : UInt8).toNat = 57 from rfl,
    show (97 : UInt8).toNat = 97 from rfl, show (102 : UInt8).toNat = 102 from rfl,
      show (65 : UInt8).toNat = 65 from rfl,
    show (70 : UInt8).toNat = 70 from rfl] at *
  split_ifs at * <;> omega

/-- A decimal digit is not skipped, and is no sign. -/
theorem digit_kept {ch : UInt8} (h : digitValue ch < 10) : atoiBlank ch = false ∧ ch ≠ 45 ∧ ch ≠ 43 := by
  have hchar := schar_digit h
  refine ⟨?_, ?_, ?_⟩
  · by_contra hblank
    rcases Bool.or_eq_true_iff.mp ((Bool.not_eq_false _).mp hblank) with hc | hc
    · rw [of_decide_eq_true hc] at h
      exact absurd h (by decide)
    · rw [of_decide_eq_true hc] at h
      exact absurd h (by decide)
  · rintro rfl
    exact absurd h (by decide)
  · rintro rfl
    exact absurd h (by decide)

/-- The loop of `atoi` shifts in the digits up to the first blank. -/
theorem atoiDigits_eq {l rest : CString} (hl : ∀ ch ∈ l, digitValue ch < 10)
    (hrest : ∀ ch ∈ rest.head?, ch = 32) (z : ℤ) :
    atoiDigits (int32 z) (l ++ rest) = int32 (z * 10 ^ l.length + value 10 (l.map digitValue)) := by
  induction l generalizing z with
  | nil =>
    have hstop : atoiDigits (int32 z) rest = int32 z := by
      cases rest with
      | nil => rfl
      | cons ch rest =>
        rw [hrest ch rfl, atoiDigits, if_neg (by decide)]
    simpa [value] using hstop
  | cons ch l ih =>
    have hlt := hl ch List.mem_cons_self
    have hdigit := schar_digit hlt
    have hshift : int32 (int32 z * 10 + schar ch - 48) = int32 (z * 10 + digitValue ch) := by
      have hsum : int32 z * 10 + schar ch - 48 = int32 z * 10 + digitValue ch := by omega
      rw [hsum]
      unfold int32
      calc
        (z.bmod (2 ^ 32) * 10 + digitValue ch).bmod (2 ^ 32) =
            ((z.bmod (2 ^ 32) * 10).bmod (2 ^ 32) + digitValue ch).bmod (2 ^ 32) :=
          Int.bmod_add_bmod.symm
        _ = (z * 10 + digitValue ch).bmod (2 ^ 32) := by rw [Int.bmod_mul_bmod, Int.bmod_add_bmod]
    have hsum : (z * 10 + digitValue ch) * 10 ^ l.length + value 10 (l.map digitValue) =
        z * 10 ^ (ch :: l).length + value 10 ((ch :: l).map digitValue) := by
      rw [List.map_cons, value_cons, List.length_map, List.length_cons, pow_succ]
      push_cast
      ring
    rw [List.cons_append, atoiDigits, if_pos (by omega), hshift,
      ih (fun c hc => hl c (List.mem_cons_of_mem _ hc)), hsum]

/-- `atoi` skips the blanks in front of a number. -/
theorem dropWhile_blanks (i : ℕ) {u : CString} (hu : ∀ ch ∈ u.head?, atoiBlank ch = false) :
    (List.replicate i 32 ++ u).dropWhile atoiBlank = u := by
  induction i with
  | zero =>
    cases u with
    | nil => rfl
    | cons ch u =>
      rw [List.replicate_zero, List.nil_append, List.dropWhile_cons, hu ch rfl]
      rfl
  | succ i ih =>
    rw [List.replicate_succ, List.cons_append, List.dropWhile_cons, if_pos (by decide), ih]

/-- `atoi` of digits, behind blanks and a sign and in front of blanks. -/
theorem atoi_digits (i j : ℕ) (minus : Bool) {l : CString}
    (hne : l ≠ []) (hl : ∀ ch ∈ l, digitValue ch < 10) :
    atoi (List.replicate i 32 ++ ((if minus then [45] else []) ++ l) ++ List.replicate j 32) =
      int32 (signed minus (value 10 (l.map digitValue))) := by
  have hrest : ∀ ch ∈ (List.replicate j (32 : UInt8)).head?, ch = 32 :=
    fun ch hch => List.eq_of_mem_replicate (List.mem_of_mem_head? hch)
  have hvalue : atoiDigits 0 (l ++ List.replicate j 32) = int32 (value 10 (l.map digitValue)) := by
    have hloop := atoiDigits_eq hl hrest 0
    rwa [zero_mul, zero_add] at hloop
  unfold atoi
  cases minus with
  | true =>
    rw [if_pos rfl, List.append_assoc, List.singleton_append,
      List.cons_append, dropWhile_blanks i (by rintro ch ⟨⟩; rfl)]
    dsimp only
    rw [if_pos rfl, hvalue]
    unfold int32
    rw [Int.bmod_neg_bmod]
    rfl
  | false =>
    obtain ⟨ch, l, rfl⟩ := List.exists_cons_of_ne_nil hne
    obtain ⟨hblank, hminus, hplus⟩ := digit_kept (hl ch List.mem_cons_self)
    rw [if_neg Bool.false_ne_true, List.nil_append, List.append_assoc,
      List.cons_append, dropWhile_blanks i (by rintro _ ⟨⟩; exact hblank)]
    dsimp only
    rw [if_neg hminus, if_neg hplus]
    exact hvalue

/-- `atoi` reads every text that denotes a decimal number, modulo the size of an integer; and it
reads back what `sprintf` prints with `%d` if and only if the number is not the least one. -/
theorem atoi_right (s : CString) (args : FmtArgs) (string : CString) :
    (∀ v, Numerals.read 10 s = some v → atoi s = int32 v) ∧
    (atoi (Fdoprnt.fdoprnt args (single 'd') string) = args.word 0 ↔ args.word 0 ≠ -2 ^ 31) := by
  constructor
  · intro v h
    obtain ⟨i, j, minus, l, rfl, hne, hl, rfl⟩ := exists_of_read h
    exact atoi_digits i j minus hne hl
  · obtain ⟨hlow, hhigh⟩ := args.word_mem 0
    -- The text printed is the sign and the digits of the number.
    have htext : Fdoprnt.fdoprnt args (single 'd') string =
        (if decide (args.word 0 < 0) = true then [45] else []) ++
        Fdoprnt.prtl10 (if args.word 0 < 0 then int32 (-args.word 0) else args.word 0) :=
          sprintf_single (Or.inl rfl) args string
    rw [htext, Fdoprnt.decimal_eq hlow hhigh]
    -- The least number prints a digit that is none.
    by_cases hmin : args.word 0 = -2 ^ 31
    · rw [if_pos hmin, hmin]
      exact iff_of_false (by decide) (not_not.mpr rfl)
    · rw [if_neg hmin]
      apply iff_of_true _ hmin
      -- The digits printed are read back by their values.
      have hdigits : ∀ d ∈ numeral 10 (args.word 0).natAbs, d < 10 :=
        fun d hd => lt_of_mem_numeral (by decide) hd
      have hchars : ((numeral 10 (args.word 0).natAbs).map Doprnt.decimals).map digitValue =
          numeral 10 (args.word 0).natAbs :=
        (Doprnt.decimals_alphabet le_rfl).map_digitValue hdigits
      have hread := atoi_digits 0 0 (decide (args.word 0 < 0))
        (l := (numeral 10 (args.word 0).natAbs).map Doprnt.decimals)
        (by rw [Ne, List.map_eq_nil_iff]; exact numeral_ne_nil 10 _) (by
          intro ch hch
          obtain ⟨d, hd, rfl⟩ := List.mem_map.mp hch
          rw [(Doprnt.decimals_alphabet le_rfl).digitValue_char d (hdigits d hd)]
          exact hdigits d hd)
      rw [hchars, value_numeral, List.replicate_zero, List.nil_append, List.append_nil] at hread
      rw [hread]
      -- With the sign the value is the number again.
      have hsigned : signed (decide (args.word 0 < 0)) (args.word 0).natAbs = args.word 0 := by
        unfold signed
        by_cases hneg : args.word 0 < 0
        · rw [decide_eq_true hneg, if_pos rfl]
          omega
        · rw [decide_eq_false hneg, if_neg Bool.false_ne_true]
          omega
      rw [hsigned, int32_of_mem hlow hhigh]

end Xinu
