import Mathlib.Tactic.Common
import Xinu.Net.Dhcp

/-!
# Which options are found

Both scanners take a pad for an option with a length, and do not stop at the end of the options:
they come past the same places (`visits`). They find exactly the options that are there if and only
if the pads before each option are even in number, so that they take them in pairs, and what is
behind the last option does not look like another one.
-/

namespace Xinu

open Bytes

/-- The type of the option at a place. -/
def optType (m : ℕ → UInt8) (p : ℕ) : ℕ := (m p).toNat

/-- The options in the rest of a message, by their places: there are pads between them, and the end
behind them. -/
inductive OptionsAt (m : ℕ → UInt8) (size : ℕ) : ℕ → List ℕ → Prop where
  | pad {p : ℕ} {A : List ℕ} (hp : p < size) (h : optType m p = 0) (rest : OptionsAt m size (p + 1) A) :
    OptionsAt m size p A
  | opt {p : ℕ} {A : List ℕ} (hpos : optType m p ≠ 0) (hlt : optType m p ≠ 255)
      (rest : OptionsAt m size (p + 2 + (m (p + 1)).toNat) A) : OptionsAt m size p (p :: A)
  | fin {p : ℕ} (hp : p < size) (h : optType m p = 255) : OptionsAt m size p []

/-- The places that a scanner comes past, in steps of type and length. -/
def visits (m : ℕ → UInt8) (size p : ℕ) : List ℕ :=
  if p + 1 < size then p :: visits m size (p + 2 + (m (p + 1)).toNat) else []
termination_by size - p

/-- The types that `getlocalip` reads. -/
abbrev optTypes : List ℕ := [53, 1, 3, 6, 42]

/-- The places that are read for the value of an option by `getlocalip`. -/
def valueReads (m : ℕ → UInt8) (p : ℕ) : List ℕ :=
  if optType m p = 53 then [p + 2] else if optType m p ∈ optTypes then addrReads p else []

/-- The bytes of a value that `getlocalip` reads. -/
def valueLen (t : ℕ) : ℕ := if t = 53 then 1 else if t ∈ optTypes then 4 else 0

/-- The last place with an option of the type. -/
def lastPlace (m : ℕ → UInt8) (l : List ℕ) (t : ℕ) : Option ℕ := l.reverse.find? fun p => optType m p = t

/-- What was found is the value of the option of the type, and nothing if there is none. -/
def Finds (m : ℕ → UInt8) (A : List ℕ) (t : ℕ) (r : Option ℕ) : Prop :=
  ∀ v, r = some v ↔ ∃ a ∈ A, optType m a = t ∧ v = a + 2

/-- Both scanners find exactly the options of a message, take no other bytes for their values, and
read within the message. -/
structure ReadsOptions (m : ℕ → UInt8) (size : ℕ) (A : List ℕ) : Prop where
  /-- `dhcp_get_opt_val` finds an option exactly if there is one. -/
  get : ∀ t, 0 < t → t < 255 → Finds m A t (dhcp_get_opt_val m size t).1
  /-- The loop of `getlocalip` finds the same options, and takes the last one of a type. -/
  loop : ∀ t ∈ optTypes, Finds m A t ((lastPlace m (getlocalipOptions m size).places t).map (· + 2))
  /-- The values that are read lie in their options. -/
  value : ∀ a ∈ A, ∀ o ∈ valueReads m a, o < a + 2 + (m (a + 1)).toNat
  /-- `dhcp_get_opt_val` reads within the message. -/
  getReads : ∀ t, ∀ o ∈ (dhcp_get_opt_val m size t).2, o < size
  /-- The loop of `getlocalip` reads within the message. -/
  loopReads : ∀ o ∈ (getlocalipOptions m size).reads, o < size

/-- The options are aligned: the pads before each one come in pairs. `e` is the place behind, where
the end is, or one pad and the end. -/
inductive AlignedAt (m : ℕ → UInt8) (size : ℕ) : ℕ → List ℕ → ℕ → Prop where
  | pads {p e : ℕ} {A : List ℕ} (h₀ : optType m p = 0) (h₁ : optType m (p + 1) = 0)
    (rest : AlignedAt m size (p + 2) A e) : AlignedAt m size p A e
  | opt {p e : ℕ} {A : List ℕ} (hpos : optType m p ≠ 0) (hlt : optType m p ≠ 255)
      (rest : AlignedAt m size (p + 2 + (m (p + 1)).toNat) A e) : AlignedAt m size p (p :: A) e
  | fin {p : ℕ} (hp : p < size) (h : optType m p = 255 ∨ optType m p = 0 ∧ optType m (p + 1) = 255) :
    AlignedAt m size p [] p

/-- The options are aligned, with no type twice and with values that are long enough. What is behind
them, in steps of type and length, does not look like an option, unless it is one that is there and
that `getlocalip` does not read. -/
def InStep (m : ℕ → UInt8) (size : ℕ) (A : List ℕ) : Prop := ∃ e, AlignedAt m size DC_OPT_AT A e ∧
  (∀ a ∈ A, ∀ b ∈ A, optType m a = optType m b → a = b) ∧
    (∀ a ∈ A, valueLen (optType m a) ≤ (m (a + 1)).toNat) ∧
  ∀ v ∈ visits m size e, optType m v = 0 ∨ optType m v = 255 ∨
    optType m v ∉ optTypes ∧ ∃ a ∈ A, optType m a = optType m v

variable {m : ℕ → UInt8} {size p : ℕ}

/-! ## The places -/

/-- The next place. -/
theorem visits_of_lt (h : p + 1 < size) :
    visits m size p = p :: visits m size (p + 2 + (m (p + 1)).toNat) := by
  rw [visits, if_pos h]

/-- Behind the last option that fits the loop visits no further place. -/
theorem visits_of_ge (h : ¬ p + 1 < size) : visits m size p = [] := by rw [visits, if_neg h]

/-- The places are from `p` on, and each has another byte of the message behind it. -/
theorem visits_bounds {v : ℕ} (h : v ∈ visits m size p) : p ≤ v ∧ v + 1 < size := by
  induction p using visits.induct m size with
  | case1 p hp ih =>
    rw [visits_of_lt hp] at h
    rcases List.mem_cons.mp h with rfl | h
    · exact ⟨Nat.le_refl v, hp⟩
    · have hv := ih h
      omega
  | case2 p hp =>
    rw [visits_of_ge hp] at h
    exact absurd h List.not_mem_nil

/-- Each place that the loop visits lies behind the one before. -/
theorem visits_sorted (m : ℕ → UInt8) (size p : ℕ) : (visits m size p).Pairwise (· < ·) := by
  induction p using visits.induct m size with
  | case1 p hp ih =>
    rw [visits_of_lt hp]
    refine List.pairwise_cons.mpr ⟨fun v hv => ?_, ih⟩
    have hle := (visits_bounds hv).1
    omega
  | case2 p hp =>
    rw [visits_of_ge hp]
    exact List.Pairwise.nil

/-! ## The loops -/

/-- `dhcp_get_opt_val` stops at the first place with the type. -/
theorem getOptLoop_fst (m : ℕ → UInt8) (size key : ℕ) : ∀ {fuel p : ℕ}, size ≤ p + fuel →
    (getOptLoop m size key fuel p).1 = ((visits m size p).find? fun v => optType m v = key).map (· + 2) := by
  intro fuel
  induction fuel with
  | zero =>
    intro p hle
    rw [visits_of_ge (by omega)]
    rfl
  | succ fuel ih =>
    intro p hle
    rw [getOptLoop]
    by_cases hp : p + 1 < size
    · rw [if_pos hp, visits_of_lt hp]
      by_cases hkey : (m p).toNat = key
      · have hty : optType m p = key := hkey
        rw [if_pos hkey, List.find?_cons_of_pos (by simpa using hty)]
        rfl
      · have hty : ¬ optType m p = key := hkey
        have hnext : p + 1 + ((m (p + 1)).toNat + 1) = p + 2 + (m (p + 1)).toNat := by omega
        rw [if_neg hkey, List.find?_cons_of_neg (by simpa using hty), hnext]
        exact ih (by omega)
    · rw [if_neg hp, visits_of_ge hp]
      rfl

/-- The search for an option reads types and lengths only. -/
theorem getOptLoop_reads (m : ℕ → UInt8) (size key : ℕ) :
    ∀ {fuel p o : ℕ}, o ∈ (getOptLoop m size key fuel p).2 → o < size := by
  intro fuel
  induction fuel with
  | zero =>
    intro p o h
    exact absurd h List.not_mem_nil
  | succ fuel ih =>
    intro p o h
    rw [getOptLoop] at h
    split_ifs at h with hp hkey
    · have ho : o = p := List.mem_singleton.mp h
      omega
    · rcases List.mem_cons.mp h with rfl | h
      · omega
      rcases List.mem_cons.mp h with rfl | h
      · exact hp
      · exact ih h
    · exact absurd h List.not_mem_nil

/-- One option: its place is kept if it sets a variable. -/
theorem OptScan.option_places (s : OptScan) (m : ℕ → UInt8) (p : ℕ) :
    (s.option m p).places = s.places ++ if optType m p ∈ optTypes then [p] else [] := by
  unfold OptScan.option optType
  split <;> simp_all [OptScan.taken]

/-- The turn for one option reads its code, and the value where it is wanted. -/
theorem OptScan.option_reads (s : OptScan) (m : ℕ → UInt8) (p : ℕ) :
    (s.option m p).reads = s.reads ++ p :: valueReads m p := by
  unfold OptScan.option valueReads optType
  split <;> simp_all [OptScan.taken]

/-- The options that set variables are those at the places. -/
theorem optLoop_places (m : ℕ → UInt8) (size : ℕ) : ∀ {fuel p : ℕ} (s : OptScan), size ≤ p + fuel →
    (optLoop m size fuel p s).places = s.places ++ (visits m size p).filter fun v =>
      optType m v ∈ optTypes := by
  intro fuel
  induction fuel with
  | zero =>
    intro p s hle
    rw [visits_of_ge (by omega), List.filter_nil, List.append_nil]
    rfl
  | succ fuel ih =>
    intro p s hle
    rw [optLoop]
    by_cases hp : p + 1 < size
    · have hnext : p + 1 + ((m (p + 1)).toNat + 1) = p + 2 + (m (p + 1)).toNat := by omega
      rw [if_pos hp, visits_of_lt hp, hnext]
      dsimp only
      rw [ih _ (by omega), OptScan.option_places, List.append_assoc, List.filter_cons]
      congr 1
      split_ifs <;> simp_all
    · rw [if_neg hp, visits_of_ge hp, List.filter_nil, List.append_nil]

/-- The loop reads, at each place that it visits, the code, the value and the length. -/
theorem optLoop_reads (m : ℕ → UInt8) (size : ℕ) : ∀ {fuel p : ℕ} (s : OptScan), size ≤ p + fuel →
    (optLoop m size fuel p s).reads = s.reads ++ (visits m size p).flatMap fun v =>
      v :: valueReads m v ++ [v + 1] := by
  intro fuel
  induction fuel with
  | zero =>
    intro p s hle
    rw [visits_of_ge (by omega), List.flatMap_nil, List.append_nil]
    rfl
  | succ fuel ih =>
    intro p s hle
    rw [optLoop]
    by_cases hp : p + 1 < size
    · have hnext : p + 1 + ((m (p + 1)).toNat + 1) = p + 2 + (m (p + 1)).toNat := by omega
      rw [if_pos hp, visits_of_lt hp, hnext]
      dsimp only
      rw [ih _ (by omega), OptScan.option_reads, List.flatMap_cons]
      simp only [List.append_assoc]
    · rw [if_neg hp, visits_of_ge hp, List.flatMap_nil, List.append_nil]

/-- The bytes that are read for a value. -/
theorem mem_valueReads {o : ℕ} : o ∈ valueReads m p ↔ p + 2 ≤ o ∧ o < p + 2 + valueLen (optType m p) := by
  unfold valueReads valueLen
  by_cases h53 : optType m p = 53
  · rw [if_pos h53, if_pos h53, List.mem_singleton]
    omega
  rw [if_neg h53, if_neg h53]
  by_cases hty : optType m p ∈ optTypes
  · rw [if_pos hty, if_pos hty]
    simp only [addrReads, List.mem_cons, List.not_mem_nil, or_false]
    omega
  · rw [if_neg hty, if_neg hty]
    exact iff_of_false List.not_mem_nil (by omega)

/-! ## Options that are aligned -/

variable {A : List ℕ} {e : ℕ}

/-- The place where options begin is in the message. -/
theorem OptionsAt.lt (h : OptionsAt m size p A) : p < size := by
  induction h with
  | pad hp _ _ _ => exact hp
  | opt _ _ _ ih => omega
  | fin hp _ => exact hp

/-- The options of a message that starts at `p` lie from `p` on. -/
theorem OptionsAt.le {a : ℕ} (h : OptionsAt m size p A) (ha : a ∈ A) : p ≤ a := by
  induction h with
  | pad _ _ _ ih =>
    have hle := ih ha
    omega
  | opt _ _ _ ih =>
    rcases List.mem_cons.mp ha with rfl | ha
    · exact Nat.le_refl a
    · have hle := ih ha
      omega
  | fin _ _ => exact absurd ha List.not_mem_nil

/-- The value of an option is within the message. -/
theorem OptionsAt.value_lt {a : ℕ} (h : OptionsAt m size p A) (ha : a ∈ A) :
    a + 2 + (m (a + 1)).toNat < size := by
  induction h with
  | pad _ _ _ ih => exact ih ha
  | opt _ _ rest ih =>
    rcases List.mem_cons.mp ha with rfl | ha
    · exact rest.lt
    · exact ih ha
  | fin _ _ => exact absurd ha List.not_mem_nil

/-- An option is of a type from 1 to 254. -/
theorem OptionsAt.type {a : ℕ} (h : OptionsAt m size p A) (ha : a ∈ A) :
    0 < optType m a ∧ optType m a < 255 := by
  induction h with
  | pad _ _ _ ih => exact ih ha
  | @opt p A hpos hlt rest ih =>
    rcases List.mem_cons.mp ha with rfl | ha
    · have hbyte : optType m a < 256 := (m a).toNat_lt
      omega
    · exact ih ha
  | fin _ _ => exact absurd ha List.not_mem_nil

/-- Either the options are aligned, or the scanners miss one: the option behind a single pad. The
induction is on what is left of the message. -/
theorem aligned_or_missed {n : ℕ} : ∀ {p : ℕ} {A : List ℕ}, size ≤ p + n → OptionsAt m size p A →
    (∃ e, AlignedAt m size p A e) ∨ ∃ a ∈ A, a ∉ visits m size p := by
  induction n using Nat.strong_induction_on with
  | _ n ih =>
    intro p A hn h
    cases h with
    | fin hp h => exact .inl ⟨p, .fin hp (.inl h)⟩
    | opt hpos hlt rest =>
      have hin : p + 1 < size := by
        have hlt := rest.lt
        omega
      rcases ih (n - 2) (by omega) (by omega) rest with ⟨e, he⟩ | ⟨a, ha, hmiss⟩
      · exact .inl ⟨e, .opt hpos hlt he⟩
      · refine .inr ⟨a, List.mem_cons_of_mem p ha, ?_⟩
        have hle := rest.le ha
        rw [visits_of_lt hin, List.mem_cons]
        rintro (rfl | hv)
        · omega
        · exact hmiss hv
    | pad hp h rest =>
      have hin : p + 1 < size := rest.lt
      cases rest with
      | fin hp₁ h₁ => exact .inl ⟨p, .fin hp (.inr ⟨h, h₁⟩)⟩
      | pad hp₁ h₁ rest =>
        rcases ih (n - 2) (by omega) (by omega) rest with ⟨e, he⟩ | ⟨a, ha, hmiss⟩
        · exact .inl ⟨e, .pads h h₁ he⟩
        · refine .inr ⟨a, ha, ?_⟩
          have hle := rest.le ha
          have hlen : (m (p + 1)).toNat = 0 := h₁
          rw [visits_of_lt hin, hlen, Nat.add_zero, List.mem_cons]
          rintro (rfl | hv)
          · omega
          · exact hmiss hv
      | opt hpos hlt rest =>
        -- the type of the option is taken for the length of the pad
        refine .inr ⟨p + 1, List.mem_cons_self, ?_⟩
        rw [visits_of_lt hin, List.mem_cons]
        rintro (heq | hv)
        · omega
        · have hle := (visits_bounds hv).1
          have hlen : (m (p + 1)).toNat ≠ 0 := hpos
          omega

/-- What is behind aligned options begins within the message. -/
theorem AlignedAt.lt (h : AlignedAt m size p A e) : e < size ∧ p ≤ e := by
  induction h with
  | pads _ _ _ ih => omega
  | opt _ _ _ ih => omega
  | fin hp _ => exact ⟨hp, Nat.le_refl _⟩

/-- Aligned options are before what is behind them. -/
theorem AlignedAt.before {a : ℕ} (h : AlignedAt m size p A e) (ha : a ∈ A) : a < e := by
  induction h with
  | pads _ _ _ ih => exact ih ha
  | opt _ _ rest ih =>
    rcases List.mem_cons.mp ha with rfl | ha
    · have hle := rest.lt.2
      omega
    · exact ih ha
  | fin _ _ => exact absurd ha List.not_mem_nil

/-- The scanners come past aligned options, past what is behind them, and past pads. -/
theorem AlignedAt.visits {v : ℕ} (h : AlignedAt m size p A e) :
    (v ∈ A ∨ v ∈ visits m size e → v ∈ visits m size p) ∧
    (v ∈ visits m size p → v ∈ A ∨ v ∈ visits m size e ∨ optType m v = 0) := by
  induction h with
  | @pads p e A h₀ h₁ rest ih =>
    have hin : p + 1 < size := by
      have hlt := rest.lt
      omega
    have hlen : (m (p + 1)).toNat = 0 := h₁
    rw [visits_of_lt hin, hlen, Nat.add_zero, List.mem_cons]
    refine ⟨fun hv => .inr (ih.1 hv), fun hv => ?_⟩
    rcases hv with rfl | hv
    · exact .inr (.inr h₀)
    · exact ih.2 hv
  | @opt p e A hpos hlt rest ih =>
    have hin : p + 1 < size := by
      have hlt := rest.lt
      omega
    rw [visits_of_lt hin, List.mem_cons, List.mem_cons]
    constructor
    · rintro ((rfl | hv) | hv)
      · exact .inl rfl
      · exact .inr (ih.1 (.inl hv))
      · exact .inr (ih.1 (.inr hv))
    · rintro (rfl | hv)
      · exact .inl (.inl rfl)
      · exact (ih.2 hv).imp_left .inr
  | fin _ _ => exact ⟨fun hv => hv.elim (fun h => absurd h List.not_mem_nil) id, fun hv => .inr (.inl hv)⟩

/-! ## What is found -/

/-- The first place of the list with a type. -/
theorem find_first {l : List ℕ} (hl : l.Pairwise (· < ·))
    {t a : ℕ} (h : (l.find? fun v => optType m v = t) = some a) :
    a ∈ l ∧ optType m a = t ∧ ∀ b ∈ l, optType m b = t → a ≤ b := by
  obtain ⟨hty, before, after, rfl, hbefore⟩ := List.find?_eq_some_iff_append.mp h
  have hty : optType m a = t := by simpa using hty
  refine ⟨List.mem_append_right before List.mem_cons_self, hty, fun b hb ht => ?_⟩
  have hafter := List.pairwise_cons.mp (List.pairwise_append.mp hl).2.1
  rcases List.mem_append.mp hb with hb | hb
  · exact absurd ht (by simpa using hbefore b hb)
  rcases List.mem_cons.mp hb with rfl | hb
  · exact Nat.le_refl b
  · exact (hafter.1 b hb).le

/-- The last place of the list with a type. -/
theorem lastPlace_some {l : List ℕ} (hl : l.Pairwise (· < ·)) {t a : ℕ} (h : lastPlace m l t = some a) :
    a ∈ l ∧ optType m a = t ∧ ∀ b ∈ l, optType m b = t → b ≤ a := by
  obtain ⟨hty, after, before, hrev, hafter⟩ := List.find?_eq_some_iff_append.mp h
  have hty : optType m a = t := by simpa using hty
  have hdown : l.reverse.Pairwise fun x y => y < x := List.pairwise_reverse.mpr hl
  rw [hrev] at hdown
  have hbefore := List.pairwise_cons.mp (List.pairwise_append.mp hdown).2.1
  have hmem (b : ℕ) : b ∈ l ↔ b ∈ after ++ a :: before := by rw [← hrev, List.mem_reverse]
  refine ⟨(hmem a).mpr (List.mem_append_right after List.mem_cons_self), hty, fun b hb ht => ?_⟩
  rcases List.mem_append.mp ((hmem b).mp hb) with hb | hb
  · exact absurd ht (by simpa using hafter b hb)
  rcases List.mem_cons.mp hb with rfl | hb
  · exact Nat.le_refl b
  · exact (hbefore.1 b hb).le

/-- What `dhcp_get_opt_val` finds is the first place with the type. -/
theorem get_eq (m : ℕ → UInt8) (size t : ℕ) :
    (dhcp_get_opt_val m size t).1 = ((visits m size DC_OPT_AT).find? fun v => optType m v = t).map (· + 2) :=
  getOptLoop_fst m size t (Nat.le_add_left size DC_OPT_AT)

/-- The options that set variables of `getlocalip`. -/
theorem places_eq (m : ℕ → UInt8) (size : ℕ) :
    (getlocalipOptions m size).places = (visits m size DC_OPT_AT).filter fun v => optType m v ∈ optTypes :=
  (optLoop_places m size _ (Nat.le_add_left size DC_OPT_AT)).trans (List.nil_append _)

/-- `getlocalip` reads the code, the value and the length at each place that it visits. -/
theorem mem_reads {o : ℕ} : o ∈ (getlocalipOptions m size).reads ↔
    ∃ v ∈ visits m size DC_OPT_AT, o = v ∨ o ∈ valueReads m v ∨ o = v + 1 := by
  have hreads := (optLoop_reads m size ⟨0, 0, 0, 0, 0, [], []⟩ (Nat.le_add_left size DC_OPT_AT)).trans
    (List.nil_append _)
  unfold getlocalipOptions
  rw [hreads, List.mem_flatMap]
  simp only [List.cons_append, List.mem_cons, List.mem_append, List.not_mem_nil, or_false]

/-- If a type is found where there is no other option of it, the option is found. -/
theorem finds_of {r : Option ℕ} {t : ℕ} (hone : ∀ a ∈ A, ∀ b ∈ A, optType m a = optType m b → a = b)
    (hsound : ∀ w, r = some w → w ∈ A ∧ optType m w = t) (hfound : (∃ a ∈ A, optType m a = t) → r.isSome) :
    Finds m A t (r.map (· + 2)) := by
  intro v
  constructor
  · intro hv
    obtain ⟨w, hw, rfl⟩ := Option.map_eq_some_iff.mp hv
    obtain ⟨hmem, hty⟩ := hsound w hw
    exact ⟨w, hmem, hty, rfl⟩
  · rintro ⟨a, ha, hty, rfl⟩
    obtain ⟨w, hw⟩ := Option.isSome_iff_exists.mp (hfound ⟨a, ha, hty⟩)
    obtain ⟨hmem, hwty⟩ := hsound w hw
    obtain rfl := hone w hmem a ha (hwty.trans hty.symm)
    rw [hw]
    rfl

/-- Messages in step are read right. -/
theorem InStep.reads (hA : OptionsAt m size DC_OPT_AT A) (h : InStep m size A) : ReadsOptions m size A := by
  obtain ⟨e, hal, hone, hlong, hquiet⟩ := h
  -- A value ends in front of the next option, since none is shorter than what is read of it.
  have hvalue : ∀ a ∈ A, ∀ o ∈ valueReads m a, o < a + 2 + (m (a + 1)).toNat := by
    intro a ha o ho
    have hlen := hlong a ha
    have hread := (mem_valueReads.mp ho).2
    omega
  refine ⟨fun t hpos hlt => ?_, fun t ht => ?_, hvalue, fun t o ho => getOptLoop_reads m size t ho,
    fun o ho => ?_⟩
  -- What `dhcp_get_opt` finds: the first place visited that has the type.
  · rw [get_eq]
    refine finds_of hone (fun w hw => ?_) fun ⟨a, ha, hty⟩ => ?_
    · obtain ⟨hmem, hty, hfirst⟩ := find_first (visits_sorted m size DC_OPT_AT) hw
      rcases hal.visits.2 hmem with hw | hw | hw
      · exact ⟨hw, hty⟩
      · -- behind the options, the type is one of an option, which is found first
        rcases hquiet w hw with h | h | ⟨-, a, ha, hsame⟩
        · omega
        · omega
        · have hle := hfirst a (hal.visits.1 (.inl ha)) (hsame.trans hty)
          have hlt := hal.before ha
          have hge := (visits_bounds hw).1
          omega
      · omega
    · rw [List.find?_isSome]
      exact ⟨a, hal.visits.1 (.inl ha), by simpa using hty⟩
  -- What the switch over the options finds: the last place visited that has the type.
  · rw [places_eq]
    have hne : t ≠ 0 ∧ t ≠ 255 := by
      have hall : ∀ t ∈ optTypes, t ≠ 0 ∧ t ≠ 255 := by decide
      exact hall t ht
    refine finds_of hone (fun w hw => ?_) fun ⟨a, ha, hty⟩ => ?_
    · obtain ⟨hmem, hty, -⟩ := lastPlace_some ((visits_sorted m size DC_OPT_AT).filter _) hw
      rcases hal.visits.2 (List.mem_filter.mp hmem).1 with hw | hw | hw
      · exact ⟨hw, hty⟩
      · rcases hquiet w hw with h | h | ⟨hno, -⟩
        · exact absurd (hty.symm.trans h) hne.1
        · exact absurd (hty.symm.trans h) hne.2
        · rw [hty] at hno
          exact absurd ht hno
      · exact absurd (hty.symm.trans hw) hne.1
    · unfold lastPlace
      rw [List.find?_isSome]
      refine ⟨a, List.mem_reverse.mpr (List.mem_filter.mpr ⟨hal.visits.1 (.inl ha), ?_⟩), by simpa using hty⟩
      rw [hty]
      simpa using ht
  -- Every read lies in the message: a type, a length or a value.
  · obtain ⟨v, hv, ho⟩ := mem_reads.mp ho
    have hend := (visits_bounds hv).2
    rcases ho with rfl | ho | rfl
    · omega
    · -- a value is read of an option only
      have hty : optType m v ∈ optTypes := by
        by_contra hno
        have h53 : optType m v ≠ 53 := fun h => hno (h ▸ by decide)
        rw [valueReads, if_neg h53, if_neg hno] at ho
        exact absurd ho List.not_mem_nil
      have hne : optType m v ≠ 0 ∧ optType m v ≠ 255 := by
        have hall : ∀ t ∈ optTypes, t ≠ 0 ∧ t ≠ 255 := by decide
        exact hall _ hty
      rcases hal.visits.2 hv with hv | hv | h
      · exact (hvalue v hv o ho).trans (hA.value_lt hv)
      · rcases hquiet v hv with h | h | ⟨hno, -⟩
        · exact absurd h hne.1
        · exact absurd h hne.2
        · exact absurd hty hno
      · exact absurd h hne.1
    · exact hend

/-- A message from which the options are read right is one in step. -/
theorem ReadsOptions.inStep (hA : OptionsAt m size DC_OPT_AT A) (h : ReadsOptions m size A) :
    InStep m size A := by
  -- each option is found, so the scanners come past it
  have hpast : ∀ a ∈ A, a ∈ visits m size DC_OPT_AT := by
    intro a ha
    have hty := hA.type ha
    have hfind := (h.get _ hty.1 hty.2 (a + 2)).mpr ⟨a, ha, rfl, rfl⟩
    rw [get_eq] at hfind
    obtain ⟨w, hw, heq⟩ := Option.map_eq_some_iff.mp hfind
    obtain rfl : w = a := Nat.add_right_cancel heq
    exact (find_first (visits_sorted m size DC_OPT_AT) hw).1
  obtain ⟨e, hal⟩ : ∃ e, AlignedAt m size DC_OPT_AT A e := by
    rcases aligned_or_missed (Nat.le_add_left size DC_OPT_AT) hA with hal | ⟨a, ha, hmiss⟩
    · exact hal
    · exact absurd (hpast a ha) hmiss
  refine ⟨e, hal, fun a ha b hb hsame => ?_, fun a ha => ?_, fun v hv => ?_⟩
  · have hty := hA.type ha
    have hfa := (h.get _ hty.1 hty.2 (a + 2)).mpr ⟨a, ha, rfl, rfl⟩
    have hfb := (h.get _ hty.1 hty.2 (b + 2)).mpr ⟨b, hb, hsame.symm, rfl⟩
    rw [hfa] at hfb
    exact Nat.add_right_cancel (Option.some.inj hfb)
  · by_contra hshort
    have hlast := h.value a ha (a + 2 + (m (a + 1)).toNat) (mem_valueReads.mpr ⟨by omega, by omega⟩)
    omega
  · by_cases h0 : optType m v = 0
    · exact .inl h0
    by_cases h255 : optType m v = 255
    · exact .inr (.inl h255)
    have hpastv : v ∈ visits m size DC_OPT_AT := hal.visits.1 (.inr hv)
    have hlt : optType m v < 255 := by
      have hbyte : optType m v < 256 := (m v).toNat_lt
      omega
    refine .inr (.inr ⟨fun hty => ?_, ?_⟩)
    · -- `getlocalip` would take the last place with the type, which is no option
      have hmem : v ∈ (getlocalipOptions m size).places := by
        rw [places_eq]
        exact List.mem_filter.mpr ⟨hpastv, by simpa using hty⟩
      have hsome : (lastPlace m (getlocalipOptions m size).places (optType m v)).isSome := by
        unfold lastPlace
        rw [List.find?_isSome]
        exact ⟨v, List.mem_reverse.mpr hmem, by simp⟩
      obtain ⟨w, hw⟩ := Option.isSome_iff_exists.mp hsome
      have hsorted : (getlocalipOptions m size).places.Pairwise (· < ·) := by
        rw [places_eq]
        exact (visits_sorted m size DC_OPT_AT).filter _
      have hle := (lastPlace_some hsorted hw).2.2 v hmem rfl
      obtain ⟨a, ha, -, heq⟩ := (h.loop _ hty (w + 2)).mp (by rw [hw]; rfl)
      have hbefore := hal.before ha
      have hge := (visits_bounds hv).1
      omega
    · have hsome : ((visits m size DC_OPT_AT).find? fun u => optType m u = optType m v).isSome := by
        rw [List.find?_isSome]
        exact ⟨v, hpastv, by simp⟩
      obtain ⟨w, hw⟩ := Option.isSome_iff_exists.mp hsome
      obtain ⟨a, ha, hty, -⟩ := (h.get _ (Nat.pos_of_ne_zero h0) hlt (w + 2)).mp (by rw [get_eq, hw]; rfl)
      exact ⟨a, ha, hty⟩

/-! ## The variables -/

/-- The variables have the values of the last options of their types, and 0 without one. -/
structure OptScan.Reflects (s : OptScan) (m : ℕ → UInt8) : Prop where
  /-- The type of the message, from option 53. -/
  msgtype : s.msgtype = (lastPlace m s.places 53).elim 0 fun p => (m (p + 2)).toNat
  /-- The mask, from option 1. -/
  addrmask : s.addrmask = (lastPlace m s.places 1).elim 0 fun p => be32 m (p + 2)
  /-- The router, from option 3. -/
  routeraddr : s.routeraddr = (lastPlace m s.places 3).elim 0 fun p => be32 m (p + 2)
  /-- The name server, from option 6. -/
  dnsaddr : s.dnsaddr = (lastPlace m s.places 6).elim 0 fun p => be32 m (p + 2)
  /-- The time server, from option 42. -/
  ntpaddr : s.ntpaddr = (lastPlace m s.places 42).elim 0 fun p => be32 m (p + 2)

/-- The last place of a list with one more. -/
theorem lastPlace_concat (m : ℕ → UInt8) (l : List ℕ) (p t : ℕ) :
    lastPlace m (l ++ [p]) t = if optType m p = t then some p else lastPlace m l t := by
  unfold lastPlace
  rw [List.reverse_append, List.reverse_singleton, List.singleton_append, List.find?_cons]
  split_ifs with h <;> simp [h]

/-- One option keeps the variables so. -/
theorem OptScan.Reflects.option {s : OptScan} (h : s.Reflects m) (p : ℕ) : (s.option m p).Reflects m := by
  have hty : (m p).toNat = optType m p := rfl
  unfold OptScan.option
  rw [hty]
  split
  case h_6 => exact ⟨h.msgtype, h.addrmask, h.routeraddr, h.dnsaddr, h.ntpaddr⟩
  all_goals
    next heq =>
      constructor <;>
        simp only [OptScan.taken, lastPlace_concat, heq, Nat.reduceEqDiff,
          if_true, if_false, Option.elim_some, optAddr, ntohl_le32,
          h.msgtype, h.addrmask, h.routeraddr, h.dnsaddr, h.ntpaddr]

/-- What the loop has found stays the value of an option of the message. -/
theorem OptScan.Reflects.loop :
    ∀ {fuel p : ℕ} {s : OptScan}, s.Reflects m → (optLoop m size fuel p s).Reflects m := by
  intro fuel
  induction fuel with
  | zero => exact id
  | succ fuel ih =>
    intro p s h
    rw [optLoop]
    split_ifs
    · have ho := h.option p
      exact ih ⟨ho.msgtype, ho.addrmask, ho.routeraddr, ho.dnsaddr, ho.ntpaddr⟩
    · exact h

/-! ## The builders -/

/-- A message in which the scanners miss an option is not read right. -/
theorem ReadsOptions.past {a : ℕ} (hA : OptionsAt m size DC_OPT_AT A)
    (ha : a ∈ A) (hmiss : a ∉ visits m size DC_OPT_AT) :
    ¬ ReadsOptions m size A := by
  intro h
  obtain ⟨e, hal, -⟩ := h.inStep hA
  exact hmiss (hal.visits.1 (.inl ha))

/-- In a message that begins with an option of one byte and a pad, the scanners skip as many bytes
behind the pad as the type of the next option says. -/
theorem missed_behind_pad (h₁ : m 241 = 1) (h₄ : size ≤ 245 + optType m 244) :
    244 ∉ visits m size DC_OPT_AT := by
  have hlen : (m (DC_OPT_AT + 1)).toNat = 1 := congrArg UInt8.toNat h₁
  have hnext : (m (243 + 1)).toNat = optType m 244 := rfl
  by_cases h240 : DC_OPT_AT + 1 < size
  swap
  · rw [visits_of_ge h240]
    exact List.not_mem_nil
  rw [visits_of_lt h240, hlen]
  by_cases h243 : 243 + 1 < size
  · rw [visits_of_lt h243, hnext, visits_of_ge (by omega)]
    decide
  · rw [visits_of_ge h243]
    decide

/-- The options of a discover message, and what is read of it. -/
theorem dhcp_bld_disc_options (ethucast : ℕ → UInt8) :
    OptionsAt (dhcp_bld_disc ethucast).1 (dhcp_bld_disc ethucast).2 DC_OPT_AT [240, 244] ∧
    ¬ ReadsOptions (dhcp_bld_disc ethucast).1 (dhcp_bld_disc ethucast).2 [240, 244] := by
  obtain ⟨m, hm⟩ : ∃ m, m = (dhcp_bld_disc ethucast).1 := ⟨_, rfl⟩
  have hsize : (dhcp_bld_disc ethucast).2 = 250 := rfl
  have b₀ : m 240 = 53 := by rw [hm]; rfl
  have b₁ : m 241 = 1 := by rw [hm]; rfl
  have b₃ : m 243 = 0 := by rw [hm]; rfl
  have b₄ : m 244 = 55 := by rw [hm]; rfl
  have b₅ : m 245 = 2 := by rw [hm]; rfl
  have b₈ : m 248 = 255 := by rw [hm]; rfl
  rw [← hm, hsize]
  have at₈ : OptionsAt m 250 248 [] := .fin (by decide) (by rw [optType, b₈]; rfl)
  have at₄ : OptionsAt m 250 244 [244] :=
    .opt (by rw [optType, b₄]; decide) (by rw [optType, b₄]; decide) (by rw [b₅]; exact at₈)
  have at₃ : OptionsAt m 250 243 [244] := .pad (by decide) (by rw [optType, b₃]; rfl) at₄
  have at₀ : OptionsAt m 250 240 [240, 244] :=
    .opt (by rw [optType, b₀]; decide) (by rw [optType, b₀]; decide) (by rw [b₁]; exact at₃)
  refine ⟨at₀, ReadsOptions.past at₀ (List.mem_cons_of_mem _ List.mem_cons_self) (missed_behind_pad b₁ ?_)⟩
  rw [optType, b₄]
  decide

/-- The options of a request, and what is read of it. -/
theorem dhcp_bld_req_options {ethucast offer : ℕ → UInt8}
    {n : ℕ} {r : (ℕ → UInt8) × ℕ} (h : dhcp_bld_req ethucast offer n = some r) :
    OptionsAt r.1 r.2 DC_OPT_AT [240, 244, 250] ∧ ¬ ReadsOptions r.1 r.2 [240, 244, 250] := by
  -- The request exists only if the offer names its server.
  obtain ⟨server_ip, -, rfl⟩ : ∃ server_ip, (dhcp_get_opt_val offer n DHCP_SERVER_ID).1 = some server_ip ∧
      r = (put (put (dhcp_bld_bootp_msg ethucast) 20 (bytesAt offer 20 4)) DC_OPT_AT
        ([53, 1, 3, 0] ++ ([50, 4] ++ bytesAt offer 16 4) ++
          ([54, 4] ++ bytesAt offer server_ip 4) ++ [0xff]), 258) := by
    unfold dhcp_bld_req at h
    dsimp only at h
    split at h
    · exact absurd h (Option.some_ne_none r).symm
    · next server_ip hserver => exact ⟨server_ip, hserver, (Option.some.inj h).symm⟩
  dsimp only
  obtain ⟨m, hm⟩ : ∃ m, m = put (put (dhcp_bld_bootp_msg ethucast) 20 (bytesAt offer 20 4)) DC_OPT_AT
    ([53, 1, 3, 0] ++ ([50, 4] ++ bytesAt offer 16 4) ++ ([54, 4] ++ bytesAt offer server_ip 4) ++ [0xff]) :=
      ⟨_, rfl⟩
  -- The bytes that say where the options are, and how long each is.
  have b₀ : m 240 = 53 := by rw [hm]; rfl
  have b₁ : m 241 = 1 := by rw [hm]; rfl
  have b₃ : m 243 = 0 := by rw [hm]; rfl
  have b₄ : m 244 = 50 := by rw [hm]; rfl
  have b₅ : m 245 = 4 := by rw [hm]; rfl
  have b₁₀ : m 250 = 54 := by rw [hm]; rfl
  have b₁₁ : m 251 = 4 := by rw [hm]; rfl
  have b₁₆ : m 256 = 255 := by rw [hm]; rfl
  rw [← hm]
  -- The options are read from the end: the three, and the pad between the first two.
  have at₁₆ : OptionsAt m 258 256 [] := .fin (by decide) (by rw [optType, b₁₆]; rfl)
  have at₁₀ : OptionsAt m 258 250 [250] :=
    .opt (by rw [optType, b₁₀]; decide) (by rw [optType, b₁₀]; decide) (by rw [b₁₁]; exact at₁₆)
  have at₄ : OptionsAt m 258 244 [244, 250] :=
    .opt (by rw [optType, b₄]; decide) (by rw [optType, b₄]; decide) (by rw [b₅]; exact at₁₀)
  have at₃ : OptionsAt m 258 243 [244, 250] := .pad (by decide) (by rw [optType, b₃]; rfl) at₄
  have at₀ : OptionsAt m 258 240 [240, 244, 250] :=
    .opt (by rw [optType, b₀]; decide) (by rw [optType, b₀]; decide) (by rw [b₁]; exact at₃)
  -- The client steps over the pad as if it were an option, and misses the one behind it.
  refine ⟨at₀, ReadsOptions.past at₀ (List.mem_cons_of_mem _ List.mem_cons_self) (missed_behind_pad b₁ ?_)⟩
  rw [optType, b₄]
  decide

/-- A message of a server: an option with the mask, the type of the message, and the server, with
two pads before the last one. -/
def alignedMessage : ℕ → UInt8 :=
  put (fun _ => 0) DC_OPT_AT [1, 4, 255, 255, 255, 0, 53, 1, 5, 0, 0, 54, 4, 10, 0, 0, 1, 255]

/-- What `getlocalip` reads of the message. -/
example : let s := getlocalipOptions alignedMessage 258
    (s.addrmask, s.msgtype, s.places) = (0xffffff00, 5, [240, 246]) ∧
      (dhcp_get_opt_val alignedMessage 258 54).1 = some 253 := by
  decide

/-! ## Both scanners -/

/-- For every message with options, both scanners find exactly these options, and take and read no
other bytes, if and only if the message is in step. The variables of `getlocalip` are always the
values of the last options that it came past. No message that `dhcp_bld_disc` or `dhcp_bld_req`
builds is read right. -/
theorem options_found (m : ℕ → UInt8) (size : ℕ) :
    (∀ A, OptionsAt m size DC_OPT_AT A → (ReadsOptions m size A ↔ InStep m size A)) ∧
    (getlocalipOptions m size).Reflects m ∧
    (∀ ethucast : ℕ → UInt8, OptionsAt (dhcp_bld_disc ethucast).1
      (dhcp_bld_disc ethucast).2 DC_OPT_AT [240, 244] ∧
      ¬ ReadsOptions (dhcp_bld_disc ethucast).1 (dhcp_bld_disc ethucast).2 [240, 244]) ∧
    ∀ (ethucast offer : ℕ → UInt8) (n : ℕ) (r : (ℕ → UInt8) × ℕ), dhcp_bld_req ethucast offer n = some r →
      OptionsAt r.1 r.2 DC_OPT_AT [240, 244, 250] ∧ ¬ ReadsOptions r.1 r.2 [240, 244, 250] := by
  refine ⟨fun A hA => ⟨fun h => h.inStep hA, fun h => h.reads hA⟩, ?_, dhcp_bld_disc_options,
    fun ethucast offer n r h => dhcp_bld_req_options h⟩
  apply OptScan.Reflects.loop
  exact ⟨rfl, rfl, rfl, rfl, rfl⟩

/-- The list of requested parameters in a discover message is not found. -/
theorem options_missed :
    ∃ (m : ℕ → UInt8) (size : ℕ) (A : List ℕ), OptionsAt m size DC_OPT_AT A ∧ 244 ∈ A ∧ optType m 244 = 55 ∧
    (dhcp_get_opt_val m size 55).1 = none ∧ ¬ ReadsOptions m size A := by
  have hdisc := dhcp_bld_disc_options fun _ => 0
  exact ⟨_, _, _, hdisc.1, by decide, by rfl, by rfl, hdisc.2⟩

end Xinu
