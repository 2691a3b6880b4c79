import Xinu.Lib.Strings
import Xinu.Net.Clients

/-!
# Dotted decimal

`dot2ip` of `net/dot2ip.c`, with the pointer that it moves over the string: the bytes that it reads
are those which the pointer comes past. Its inner loop takes up to four digits for a segment, and
behind four of them it begins the next segment without a dot.
-/

namespace Xinu

open Strings

/-- The inner loop of `dot2ip`, with `n` characters left in a segment, and the next one at `p`: the
value, the last character, and the pointer. -/
def dotSegmentAt (m : ℕ → UInt8) : ℕ → ℕ → ℕ → UInt8 → Option (ℕ × UInt8) × ℕ
  | 0, p, val, ch => (some (val, ch), p)
  | n + 1, p, val, _ =>
    let ch := m p
    let p := p + 1
    if ch = 0 ∨ ch = DOT then if n + 1 = 4 then (none, p) else (some (val, ch), p)
    else if ch < 48 ∨ ch > 57 then (none, p)
    else dotSegmentAt m n p (10 * val + (ch.toNat - 48)) ch

/-- The outer loop of `dot2ip`, with `n` segments left. -/
def dotSegmentsAt (m : ℕ → UInt8) : ℕ → ℕ → ℕ → Option ℕ × ℕ
  | 0, p, _ => (none, p)
  | n + 1, p, ipaddr =>
    match dotSegmentAt m 4 p 0 0 with
    | (none, p) => (none, p)
    | (some (val, ch), p) =>
      if val > 255 then (none, p)
      else
        let ipaddr := ipaddr <<< 8 % 2 ^ 32 ||| val
        if ch = 0 then if n = 0 then (some ipaddr, p) else (none, p)
        else dotSegmentsAt m n p ipaddr

/-- `dot2ip(dotted, result)` for the string at `p`: nothing for `SYSERR`, and the pointer `dotted`
at the end. -/
def dot2ipAt (m : ℕ → UInt8) (p : ℕ) : Option ℕ × ℕ := dotSegmentsAt m 4 p 0

/-! ## The grammar -/

/-- One digit or more. -/
def Digits (ds : CString) : Prop := 1 ≤ ds.length ∧ ∀ ch ∈ ds, 48 ≤ ch ∧ ch ≤ 57

/-- The value of a decimal number. -/
def decimal (ds : CString) : ℕ := Nat.ofDigits 10 (ds.reverse.map fun ch => ch.toNat - 48)

/-- One to three digits, with a value of at most 255. -/
def Octet (ds : CString) : Prop := Digits ds ∧ ds.length ≤ 3 ∧ decimal ds ≤ 255

/-- The string is `D.D.D.D`, and this is the address. -/
def DottedDecimal (s : CString) (ip : ℕ) : Prop :=
  ∃ d₁ d₂ d₃ d₄, Octet d₁ ∧ Octet d₂ ∧ Octet d₃ ∧ Octet d₄ ∧
    s = d₁ ++ DOT :: (d₂ ++ DOT :: (d₃ ++ DOT :: d₄)) ∧
    ip = ((decimal d₁ * 256 + decimal d₂) * 256 + decimal d₃) * 256 + decimal d₄

/-- A segment as the code takes it: an octet with the dot behind it, or four digits and no dot. -/
structure Segment (ds : CString) (long : Bool) : Prop where
  /-- It is made of digits. -/
  digits : Digits ds
  /-- Its value is one of a byte. -/
  value : decimal ds ≤ 255
  /-- It has four digits, or at most three. -/
  length : if long then ds.length = 4 else ds.length ≤ 3

/-- The text of the segments that are not the last one. -/
def segmentText : List (CString × Bool) → CString
  | [] => []
  | (ds, long) :: ps => ds ++ (if long then segmentText ps else DOT :: segmentText ps)

/-- The string consists of these segments, and of this last one. -/
structure Segmented (s : CString) (ps : List (CString × Bool)) (last : CString) : Prop where
  /-- The string is made of the segments, with their dots, and the last one. -/
  text : s = segmentText ps ++ last
  /-- Each of them is taken by the code. -/
  parts : ∀ q ∈ ps, Segment q.1 q.2
  /-- The last one is an octet. -/
  last : Octet last

/-- The string is made of four numbers of at most 255, and one of the first three is written with
four digits and has no dot behind it. -/
def Undotted (s : CString) : Prop := ∃ ps last, Segmented s ps last ∧ ps.length = 3 ∧ ∃ q ∈ ps, q.2 = true

/-! ## One segment -/

variable {s rest ds : CString} {n val v : ℕ} {ch c : UInt8}

/-- The value after some digits. -/
def decimalFrom (val : ℕ) (ds : CString) : ℕ := ds.foldl (fun v ch => 10 * v + (ch.toNat - 48)) val

/-- From zero on it is the decimal value. -/
theorem decimalFrom_zero (ds : CString) : decimalFrom 0 ds = decimal ds := by
  have hfold := foldl_digits 10 0 (ds.map fun ch => ch.toNat - 48)
  rw [List.foldl_map, Nat.mul_zero, Nat.zero_add, ← List.map_reverse] at hfold
  exact hfold

/-- A digit is neither the end of the string nor a dot. -/
theorem digit_ne (h : 48 ≤ ch ∧ ch ≤ 57) : ¬ (ch = 0 ∨ ch = DOT) ∧ ¬ (ch < 48 ∨ ch > 57) := by
  rw [UInt8.le_iff_toNat_le, UInt8.le_iff_toNat_le] at h
  refine ⟨?_, ?_⟩
  · rintro (rfl | rfl)
    · exact absurd h.1 (by decide)
    · exact absurd h.1 (by decide)
  · rintro (hlt | hlt)
    · exact absurd (UInt8.lt_iff_toNat_lt.mp hlt) (by have := h.1; exact Nat.not_lt.mpr this)
    · exact absurd (UInt8.lt_iff_toNat_lt.mp hlt) (by have := h.2; exact Nat.not_lt.mpr this)

/-- What the loop does with the next character: end the segment, add a digit, or refuse. -/
theorem dotSegment_cons (n val : ℕ) (ch x : UInt8) (s : CString) : dotSegment (n + 1) (x :: s) val ch =
    if x = 0 ∨ x = DOT then if n + 1 = 4 then none else some (val, x, s)
    else if x < 48 ∨ x > 57 then none
    else dotSegment n s (10 * val + (x.toNat - 48)) x := rfl

/-- What the loop does at the end of the string: end the segment, or refuse the fourth. -/
theorem dotSegment_nil (n val : ℕ) (ch : UInt8) :
    dotSegment (n + 1) [] val ch = if n + 1 = 4 then none else some (val, 0, []) := by
  rw [dotSegment]
  exact if_pos (.inl rfl)

/-- The last digit of a number is not the null character. -/
theorem Digits.getLastD_ne (h : Digits ds) : ds.getLastD 0 ≠ 0 := by
  rcases List.eq_nil_or_concat ds with rfl | ⟨ds', x, rfl⟩
  · exact absurd h.1 (by decide)
  · rw [List.concat_eq_append, List.getLastD_concat]
    exact fun hx => (digit_ne (h.2 x (by simp))).1 (.inl hx)

/-- Digits are taken as long as there may be more. -/
theorem dotSegment_append (h : ∀ ch ∈ ds, 48 ≤ ch ∧ ch ≤ 57) (hle : ds.length ≤ n) :
    dotSegment n (ds ++ s) val ch = dotSegment (n - ds.length) s (decimalFrom val ds) (ds.getLastD ch) := by
  induction ds generalizing n val ch with
  | nil => rfl
  | cons x ds ih =>
    obtain ⟨n, rfl⟩ : ∃ k, n = k + 1 := ⟨n - 1, by rw [List.length_cons] at hle; omega⟩
    obtain ⟨hno, hin⟩ := digit_ne (h x List.mem_cons_self)
    rw [List.cons_append, dotSegment_cons, if_neg hno, if_neg hin,
      ih (fun ch hch => h ch (List.mem_cons_of_mem _ hch)) (Nat.le_of_succ_le_succ hle),
        List.length_cons, Nat.succ_sub_succ,
      List.getLastD_cons]
    rfl

/-- What the loop over a segment takes: digits, what has ended it, and what is behind that. -/
inductive Split : CString → CString → UInt8 → CString → Prop
  | dot {ds rest : CString} (h : Digits ds) (hle : ds.length ≤ 3) : Split (ds ++ DOT :: rest) ds DOT rest
  | stop {ds : CString} (h : Digits ds) (hle : ds.length ≤ 3) : Split ds ds 0 []
  | full {ds rest : CString} (h : Digits ds) (heq : ds.length = 4) :
    Split (ds ++ rest) ds (ds.getLastD 0) rest

/-- The loop over a segment ends there, or fails. -/
theorem dotSegment_iff (hz : ∀ ch ∈ s, ch ≠ 0) :
    dotSegment 4 s 0 0 = some (v, c, rest) ↔ ∃ ds, Split s ds c rest ∧ v = decimal ds := by
  constructor
  · intro h
    -- The digits at the front, at most four of them; what follows decides how the segment ends.
    obtain ⟨ds, tail, rfl, hds, hle, hend⟩ := exists_run (fun ch : UInt8 => 48 ≤ ch ∧ ch ≤ 57) 4 s
    rw [dotSegment_append hds hle, decimalFrom_zero] at h
    -- Four digits: the loop has used its four turns and did not see what follows.
    by_cases heq : ds.length = 4
    · rw [heq] at h
      obtain ⟨rfl, hend'⟩ := Prod.mk.inj (Option.some.inj h)
      obtain ⟨rfl, rfl⟩ := Prod.mk.inj hend'
      exact ⟨ds, .full ⟨by omega, hds⟩ heq, rfl⟩
    obtain ⟨n, hn⟩ : ∃ n, 4 - ds.length = n + 1 := ⟨3 - ds.length, by omega⟩
    rw [hn] at h
    -- Otherwise a turn is left for what follows: the null, a dot, or a wrong character.
    cases tail with
    | nil =>
      rw [dotSegment_nil] at h
      split at h
      · cases h
      · obtain ⟨rfl, hend'⟩ := Prod.mk.inj (Option.some.inj h)
        obtain ⟨rfl, rfl⟩ := Prod.mk.inj hend'
        rw [List.append_nil]
        exact ⟨ds, .stop ⟨by omega, hds⟩ (by omega), rfl⟩
    | cons x tail =>
      have hx : ¬ (48 ≤ x ∧ x ≤ 57) := (hend.resolve_left heq) x rfl
      have hout : x < 48 ∨ x > 57 := by
        rw [not_and_or, UInt8.not_le, UInt8.not_le] at hx
        exact hx
      have hnull : x ≠ 0 := hz x (List.mem_append_right _ List.mem_cons_self)
      rw [dotSegment_cons] at h
      by_cases hdot : x = DOT
      · rw [if_pos (.inr hdot)] at h
        split at h
        · cases h
        · obtain ⟨rfl, hend'⟩ := Prod.mk.inj (Option.some.inj h)
          obtain ⟨rfl, rfl⟩ := Prod.mk.inj hend'
          rw [hdot]
          exact ⟨ds, .dot ⟨by omega, hds⟩ (by omega), rfl⟩
      · rw [if_neg (not_or.mpr ⟨hnull, hdot⟩), if_pos hout] at h
        cases h
  -- Conversely the loop takes the digits of each kind of segment, and stops where it ends.
  · rintro ⟨ds, hsplit, rfl⟩
    rw [← decimalFrom_zero]
    cases hsplit with
    | dot hd hle =>
      obtain ⟨n, hn⟩ : ∃ n, 4 - ds.length = n + 1 := ⟨3 - ds.length, by omega⟩
      have h1 := hd.1
      rw [dotSegment_append hd.2 (by omega), hn, dotSegment_cons, if_pos (.inr rfl), if_neg (by omega)]
    | stop hd hle =>
      obtain ⟨n, hn⟩ : ∃ n, 4 - s.length = n + 1 := ⟨3 - s.length, by omega⟩
      have happ : dotSegment 4 (s ++ []) 0 0 = dotSegment (4 - s.length) []
        (decimalFrom 0 s) (s.getLastD 0) := dotSegment_append hd.2 (by omega)
      have h1 := hd.1
      rw [List.append_nil, hn, dotSegment_nil, if_neg (by omega)] at happ
      exact happ
    | full hd heq =>
      rw [dotSegment_append hd.2 (by omega), heq]
      rfl

/-! ## All segments -/

variable {a ip : ℕ} {ps : List (CString × Bool)} {last : CString}

/-- The address of some numbers, behind `a`. -/
def addressFrom (a : ℕ) (l : List CString) : ℕ := l.foldl (fun a ds => a * 256 + decimal ds) a

/-- A number is put behind the address. -/
theorem shift_or (ha : a < 2 ^ 24) (hv : v ≤ 255) : a <<< 8 % 2 ^ 32 ||| v = a * 256 + v := by
  have hshift : a <<< 8 = a * 256 := Nat.shiftLeft_eq a 8
  have hmod : a <<< 8 % 2 ^ 32 = a <<< 8 := Nat.mod_eq_of_lt (by omega)
  rw [hmod, ← Nat.shiftLeft_add_eq_or_of_lt (show v < 2 ^ 8 by omega), hshift]

/-- One turn of the outer loop: the last segment, or another one. -/
theorem dotSegments_step (hz : ∀ ch ∈ s, ch ≠ 0) (ha : a < 2 ^ 24) : dotSegments (n + 1) s a = some ip ↔
    (n = 0 ∧ Octet s ∧ ip = a * 256 + decimal s) ∨
    ∃ ds long rest, Segment ds long ∧ s = ds ++ (if long then rest else DOT :: rest) ∧
      dotSegments n rest (a * 256 + decimal ds) = some ip := by
  rw [dotSegments]
  constructor
  · intro h
    cases hseg : dotSegment 4 s 0 0 with
    | none =>
      rw [hseg] at h
      cases h
    | some r =>
      obtain ⟨v, c, rest⟩ := r
      -- The segment that the inner loop has read, and how it ended.
      obtain ⟨ds, hsplit, rfl⟩ := (dotSegment_iff hz).mp hseg
      rw [hseg] at h
      dsimp only at h
      split at h
      · cases h
      -- Its value fits in a byte, so it is put in behind those before it.
      · rename_i hval
        rw [shift_or ha (by omega)] at h
        cases hsplit with
        | dot hd hle =>
          rw [if_neg (by decide)] at h
          exact .inr ⟨ds, false, rest, ⟨hd, by omega, hle⟩, rfl, h⟩
        | stop hd hle =>
          rw [if_pos rfl] at h
          split at h
          · exact .inl ⟨‹_›, ⟨hd, hle, by omega⟩, (Option.some.inj h).symm⟩
          · cases h
        | full hd heq =>
          rw [if_neg hd.getLastD_ne] at h
          exact .inr ⟨ds, true, rest, ⟨hd, by omega, heq⟩, rfl, h⟩
  -- Conversely each turn takes the segment that is given.
  · rintro (⟨rfl, ⟨hd, hle, hval⟩, rfl⟩ | ⟨ds, long, rest, ⟨hd, hval, hlen⟩, rfl, h⟩)
    · rw [(dotSegment_iff hz).mpr ⟨s, .stop hd hle, rfl⟩]
      dsimp only
      rw [if_neg (by omega), shift_or ha hval, if_pos rfl, if_pos rfl]
    · cases long with
      | true =>
        rw [(dotSegment_iff hz).mpr ⟨ds, .full hd hlen, rfl⟩]
        dsimp only
        rw [if_neg (by omega), shift_or ha hval, if_neg hd.getLastD_ne]
        exact h
      | false =>
        rw [(dotSegment_iff hz).mpr ⟨ds, .dot hd hlen, rfl⟩]
        dsimp only
        rw [if_neg (by omega), shift_or ha hval, if_neg (by decide)]
        exact h

/-- The text of one segment and others has a dot between them, unless the segment is a long one. -/
theorem segmentText_cons (ds : CString) (long : Bool) (ps : List (CString × Bool)) (last : CString) :
    segmentText ((ds, long) :: ps) ++ last = ds ++ (if long then segmentText ps ++ last
      else DOT :: (segmentText ps ++ last)) := by
  cases long <;> simp [segmentText]

/-- The outer loop takes the segments of the string, and the value is their address: by induction on
the segments that are left. -/
theorem dotSegments_iff (hz : ∀ ch ∈ s, ch ≠ 0) (hn : n ≤ 3) (ha : a < 256 ^ (3 - n)) :
    dotSegments (n + 1) s a = some ip ↔
    ∃ ps last, Segmented s ps last ∧ ps.length = n ∧ ip = addressFrom a (ps.map Prod.fst ++ [last]) := by
  -- The address so far takes at most three bytes, so shifting loses nothing.
  have ha24 : a < 2 ^ 24 :=
    lt_of_lt_of_le ha (Nat.pow_le_pow_right (by decide) (by omega) : 256 ^ (3 - n) ≤ 256 ^ 3)
  induction n generalizing s a with
  | zero =>
    rw [dotSegments_step hz ha24]
    constructor
    · rintro (⟨-, hlast, rfl⟩ | ⟨ds, long, rest, -, -, h⟩)
      · exact ⟨[], s, ⟨rfl, nofun, hlast⟩, rfl, rfl⟩
      · cases h
    · rintro ⟨ps, last, ⟨rfl, -, hlast⟩, hlen, rfl⟩
      rw [List.length_eq_zero_iff.mp hlen]
      exact .inl ⟨rfl, hlast, rfl⟩
  | succ n ih =>
    rw [dotSegments_step hz ha24]
    -- The rest of the string is read by induction, with one segment less.
    have hnext : ∀ {ds long rest}, Segment ds long → s = ds ++ (if long then rest else DOT :: rest) →
        (dotSegments (n + 1) rest (a * 256 + decimal ds) = some ip ↔
          ∃ ps last, Segmented rest ps last ∧ ps.length = n ∧
          ip = addressFrom (a * 256 + decimal ds) (ps.map Prod.fst ++ [last])) := by
      intro ds long rest hseg hs
      have hval := hseg.value
      have hpow : 256 ^ (3 - n) = 256 ^ (3 - (n + 1)) * 256 := by
        rw [← Nat.pow_succ, show 3 - n = 3 - (n + 1) + 1 by omega]
      have hnew : a * 256 + decimal ds < 256 ^ (3 - n) := by omega
      refine ih (fun ch hch => hz ch ?_) (by omega) hnew
        (lt_of_lt_of_le hnew (Nat.pow_le_pow_right (by decide) (by omega) : 256 ^ (3 - n) ≤ 256 ^ 3))
      rw [hs]
      cases long with
      | true => exact List.mem_append_right _ hch
      | false => exact List.mem_append_right _ (List.mem_cons_of_mem _ hch)
    constructor
    · rintro (⟨hn, -⟩ | ⟨ds, long, rest, hseg, hs, h⟩)
      · cases hn
      · obtain ⟨ps, last, ⟨rfl, hparts, hlast⟩, hlen, rfl⟩ := (hnext hseg hs).mp h
        refine ⟨(ds, long) :: ps, last, ⟨hs.trans (segmentText_cons ..).symm, ?_, hlast⟩,
          congrArg Nat.succ hlen, rfl⟩
        intro q hq
        rcases List.mem_cons.mp hq with rfl | hq
        · exact hseg
        · exact hparts q hq
    · rintro ⟨_ | ⟨⟨ds, long⟩, ps⟩, last, ⟨hs, hparts, hlast⟩, hlen, hip⟩
      · cases hlen
      · rw [segmentText_cons] at hs
        have hseg := hparts _ List.mem_cons_self
        exact .inr ⟨ds, long, _, hseg, hs, (hnext hseg hs).mpr
          ⟨ps, last, ⟨rfl, fun q hq => hparts q (List.mem_cons_of_mem _ hq), hlast⟩, Nat.succ.inj hlen, hip⟩⟩

/-- `dot2ip` accepts what it can take for four segments. -/
theorem dot2ip_iff (hz : ∀ ch ∈ s, ch ≠ 0) : dot2ip s = some ip ↔
    ∃ ps last, Segmented s ps last ∧ ps.length = 3 ∧ ip = addressFrom 0 (ps.map Prod.fst ++ [last]) :=
  dotSegments_iff hz (le_refl 3) (by decide)

/-! ## Dots -/

/-- The digits of a number contain no dot. -/
theorem Digits.count_dot (h : Digits ds) : ds.count DOT = 0 :=
  List.count_eq_zero.mpr fun hd => (digit_ne (h.2 _ hd)).1 (.inr rfl)

/-- There is a dot behind each segment with fewer than four digits. -/
theorem Segmented.count_dot (h : Segmented s ps last) : s.count DOT = (ps.filter fun q => ! q.2).length := by
  obtain ⟨rfl, hparts, hlast⟩ := h
  induction ps with
  | nil => exact hlast.1.count_dot
  | cons q ps ih =>
    obtain ⟨ds, long⟩ := q
    have hds := (hparts _ List.mem_cons_self).digits.count_dot
    have hps := ih fun q hq => hparts q (List.mem_cons_of_mem _ hq)
    dsimp only at hds
    rw [segmentText_cons, List.count_append, hds]
    cases long with
    | true => simpa using hps
    | false => simpa using hps

/-- Dotted decimal is a way to take a string, with a dot behind each of the first three numbers. -/
theorem dottedDecimal_iff : DottedDecimal s ip ↔
    ∃ ps last, Segmented s ps last ∧ ps.length = 3 ∧ ip = addressFrom 0
      (ps.map Prod.fst ++ [last]) ∧ ∀ q ∈ ps, q.2 = false := by
  constructor
  · rintro ⟨d₁, d₂, d₃, d₄, h₁, h₂, h₃, h₄, rfl, rfl⟩
    refine ⟨[(d₁, false), (d₂, false), (d₃, false)], d₄, ⟨?_, ?_, h₄⟩, rfl, ?_, ?_⟩
    · simp [segmentText]
    · intro q hq
      simp only [List.mem_cons, List.not_mem_nil, or_false] at hq
      rcases hq with rfl | rfl | rfl
      · exact ⟨h₁.1, h₁.2.2, h₁.2.1⟩
      · exact ⟨h₂.1, h₂.2.2, h₂.2.1⟩
      · exact ⟨h₃.1, h₃.2.2, h₃.2.1⟩
    · simp [addressFrom]
    · simp
  · rintro ⟨ps, last, ⟨rfl, hparts, hlast⟩, hlen, rfl, hshort⟩
    obtain ⟨⟨d₁, l₁⟩, ⟨d₂, l₂⟩, ⟨d₃, l₃⟩, rfl⟩ := List.length_eq_three.mp hlen
    obtain rfl : l₁ = false := hshort (d₁, l₁) (by simp)
    obtain rfl : l₂ = false := hshort (d₂, l₂) (by simp)
    obtain rfl : l₃ = false := hshort (d₃, l₃) (by simp)
    have h₁ := hparts (d₁, false) (by simp)
    have h₂ := hparts (d₂, false) (by simp)
    have h₃ := hparts (d₃, false) (by simp)
    refine ⟨d₁, d₂, d₃, last, ⟨h₁.digits, h₁.length, h₁.value⟩, ⟨h₂.digits, h₂.length, h₂.value⟩,
      ⟨h₃.digits, h₃.length, h₃.value⟩, hlast, ?_, ?_⟩
    · simp [segmentText]
    · simp [addressFrom]

/-- An address in dotted decimal contains three dots. -/
theorem DottedDecimal.count_dot (h : DottedDecimal s ip) : s.count DOT = 3 := by
  obtain ⟨ps, last, htaken, hlen, -, hshort⟩ := dottedDecimal_iff.mp h
  rw [htaken.count_dot, List.filter_eq_self.mpr fun q hq => by rw [hshort q hq]; rfl, hlen]

/-- A string that is taken without a dot behind some number has fewer. -/
theorem Undotted.count_dot_lt (h : Undotted s) : s.count DOT < 3 := by
  obtain ⟨ps, last, htaken, hlen, q, hq, hlong⟩ := h
  rw [htaken.count_dot, ← hlen]
  exact List.length_filter_lt_length_iff_exists.mpr ⟨q, hq, by rw [hlong]; decide⟩

/-! ## The pointer -/

variable {m : ℕ → UInt8} {p : ℕ}

/-- What is done with the pointer is what is done with the string: it comes behind the null
character only when that is the last character read. -/
structure Follows (m : ℕ → UInt8) (p : ℕ) (s : CString)
    (r : Option (ℕ × UInt8) × ℕ) (r' : Option (ℕ × UInt8 × CString)) : Prop where
  /-- The value is the same, and so is the character that ends the segment. -/
  value : r.1 = r'.map fun x => (x.1, x.2.1)
  /-- The pointer is at most one byte behind the null character. -/
  le : r.2 ≤ p + s.length + 1
  /-- If the segment does not end the string, the pointer is at what follows. -/
  rest : ∀ x ∈ r', x.2.1 ≠ 0 → StringAt m r.2 x.2.2 ∧ r.2 + x.2.2.length = p + s.length

/-- The pointer follows the string in the loop over a segment. -/
theorem dotSegmentAt_follows (h : StringAt m p s) (n val : ℕ) (ch : UInt8) :
    Follows m p s (dotSegmentAt m n p val ch) (dotSegment n s val ch) := by
  -- The induction is on the turns that are left.
  induction n generalizing p s val ch with
  | zero =>
    refine ⟨rfl, by rw [dotSegmentAt]; omega, fun x hx _ => ?_⟩
    obtain rfl := Option.some.inj hx
    exact ⟨h, rfl⟩
  | succ n ih =>
    cases s with
    -- At the null the pointer stops, so it stays in the string.
    | nil =>
      have hnull : m p = 0 := h
      rw [dotSegmentAt, dotSegment_nil, if_pos (.inl hnull), hnull]
      split
      · exact ⟨rfl, le_refl _, nofun⟩
      · exact ⟨rfl, le_refl _, fun x hx hne =>
          absurd (congrArg (fun x => x.2.1) (Option.some.inj hx)).symm hne⟩
    | cons x s =>
      obtain ⟨hx, -, hs⟩ := h
      have hlen : (x :: s).length = s.length + 1 := List.length_cons
      rw [dotSegmentAt, dotSegment_cons, hx]
      split
      · split
        · exact ⟨rfl, by dsimp only; omega, nofun⟩
        · refine ⟨rfl, by dsimp only; omega, fun y hy _ => ?_⟩
          obtain rfl := Option.some.inj hy
          exact ⟨hs, by dsimp only; omega⟩
      · split
        · exact ⟨rfl, by dsimp only; omega, nofun⟩
        -- A digit: the next turn starts one character later.
        · have hnext := ih hs (10 * val + (x.toNat - 48)) x
          have hle := hnext.le
          refine ⟨hnext.value, by omega, fun y hy hne => ?_⟩
          obtain ⟨hstr, hlen⟩ := hnext.rest y hy hne
          exact ⟨hstr, by omega⟩

/-- The pointer follows the string in the outer loop. -/
theorem dotSegmentsAt_eq (h : StringAt m p s) (n a : ℕ) :
    (dotSegmentsAt m n p a).1 = dotSegments n s a ∧ (dotSegmentsAt m n p a).2 ≤ p + s.length + 1 := by
  induction n generalizing p s a with
  | zero => exact ⟨rfl, by rw [dotSegmentsAt]; omega⟩
  | succ n ih =>
    obtain ⟨hval, hle, hrest⟩ := dotSegmentAt_follows h 4 0 0
    rw [dotSegmentsAt, dotSegments]
    generalize dotSegmentAt m 4 p 0 0 = r at *
    generalize dotSegment 4 s 0 0 = r' at *
    obtain ⟨r, q⟩ := r
    obtain rfl : r = _ := hval
    cases r' with
    | none => exact ⟨rfl, hle⟩
    | some x =>
      obtain ⟨v, c, rest⟩ := x
      dsimp only [Option.map_some]
      split
      · exact ⟨rfl, hle⟩
      · split
        · split
          · exact ⟨rfl, hle⟩
          · exact ⟨rfl, hle⟩
        · obtain ⟨hstr, hlen⟩ := hrest _ rfl ‹_›
          obtain ⟨heq, hend⟩ := ih hstr (a <<< 8 % 2 ^ 32 ||| v)
          exact ⟨heq, by dsimp only at hlen hend; omega⟩

/-- **`dot2ip` accepts dotted decimal** with the address that it stands for, and nothing else, and
reads nothing behind the null character, exactly when the string is not `Undotted`. -/
theorem dot2ip_exact (h : StringAt m p s) :
    ((∀ ip, (dot2ipAt m p).1 = some ip ↔ DottedDecimal s ip) ∧ (dot2ipAt m p).2 ≤ p + s.length + 1) ↔
    ¬ Undotted s := by
  obtain ⟨heq, hle⟩ := dotSegmentsAt_eq h 4 0
  have hiff : ∀ ip, (dot2ipAt m p).1 = some ip ↔
      ∃ ps last, Segmented s ps last ∧ ps.length = 3 ∧ ip = addressFrom 0 (ps.map Prod.fst ++ [last]) := by
    intro ip
    rw [← dot2ip_iff h.ne_zero, dot2ipAt, heq, dot2ip]
  refine Iff.trans (and_iff_left hle) ⟨fun hright hundotted => ?_, fun hno ip => ?_⟩
  · -- The string is accepted, though dotted decimal has more dots.
    have hfewer := hundotted.count_dot_lt
    obtain ⟨ps, last, htaken, hlen, -⟩ := hundotted
    have hdots := ((hright _).mp ((hiff _).mpr ⟨ps, last, htaken, hlen, rfl⟩)).count_dot
    omega
  · rw [hiff, dottedDecimal_iff]
    constructor
    · rintro ⟨ps, last, htaken, hlen, hip⟩
      refine ⟨ps, last, htaken, hlen, hip, fun q hq => ?_⟩
      rw [← Bool.not_eq_true]
      exact fun hlong => hno ⟨ps, last, htaken, hlen, q, hq, hlong⟩
    · rintro ⟨ps, last, htaken, hlen, hip, -⟩
      exact ⟨ps, last, htaken, hlen, hip⟩

/-- The characters of `10.0.254.7`. -/
def dottedText : CString := [49, 48, 46, 48, 46, 50, 53, 52, 46, 55]

/-- In memory, they are accepted with the address that they stand for, and it is the only one. -/
theorem dot2ip_exact_dotted :
    (dot2ipAt (Bytes.ofList dottedText) 0).1 = some 0x0a00fe07 ∧ DottedDecimal dottedText 0x0a00fe07 ∧
    (∀ ip, (dot2ipAt (Bytes.ofList dottedText) 0).1 = some ip ↔ DottedDecimal dottedText ip) ∧
    (dot2ipAt (Bytes.ofList dottedText) 0).2 ≤ 11 := by
  have hstring : StringAt (Bytes.ofList dottedText) 0 dottedText := by decide
  -- There are three dots, so that no number is without one.
  have hdots : ¬ dottedText.count DOT < 3 := by decide
  obtain ⟨hiff, hread⟩ := (dot2ip_exact hstring).mpr fun h => hdots h.count_dot_lt
  have haddress : (dot2ipAt (Bytes.ofList dottedText) 0).1 = some 0x0a00fe07 := by decide
  exact ⟨haddress, (hiff _).mp haddress, hiff, hread⟩

/-- The string `00012.3.4` is accepted, and is not dotted decimal. -/
theorem dot2ip_undotted :
    StringAt (Bytes.ofList [48, 48, 48, 49, 50, 46, 51, 46, 52]) 0 [48, 48, 48, 49, 50, 46, 51, 46, 52] ∧
    (dot2ipAt (Bytes.ofList [48, 48, 48, 49, 50, 46, 51, 46, 52]) 0).1 = some 0x01020304 ∧
    ¬ DottedDecimal [48, 48, 48, 49, 50, 46, 51, 46, 52] 0x01020304 := by
  have h : StringAt (Bytes.ofList [48, 48, 48, 49, 50, 46, 51, 46, 52]) 0 [48,
      48, 48, 49, 50, 46, 51, 46, 52] := by
    decide
  exact ⟨h, by decide, fun hd => absurd hd.count_dot (by decide)⟩

end Xinu
