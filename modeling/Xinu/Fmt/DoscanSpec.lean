import Xinu.Fmt.Doscan
import Xinu.Fmt.DoprntSpec

/-!
# What the scanner reads

The loop of `_innum` asks for a digit and a letter at once, or for base 16 and a letter: it takes
letters only. So a number is scanned back exactly if it has been printed in base 16 with letters
alone.
-/

namespace Xinu

open Numerals Doscan

variable {base : ℤ} {past u str : CString} {sctab : ℤ → UInt8}

/-- The loop of `_innum` takes the six letters, in base 16. -/
theorem Doscan.takes_iff {c : ℤ} :
    takes base c = true ↔ base = 16 ∧ ((97 ≤ c ∧ c ≤ 102) ∨ (65 ≤ c ∧ c ≤ 70)) := by
  unfold takes isdigit
  simp only [Bool.and_eq_true, Bool.or_eq_true, decide_eq_true_eq]
  omega

/-- A character of the first half of the range. -/
theorem schar_of_lt {ch : UInt8} (h : ch < 128) : schar ch = ch.toNat := by
  have hlt : ch.toNat < 128 := UInt8.lt_iff_toNat_lt.mp h
  unfold schar
  rw [Int.bmod_def]
  omega

/-- A character is known by its number. -/
theorem schar_inj {ch ch' : UInt8} (h : schar ch = schar ch') : ch = ch' := by
  have hlt := ch.toNat_lt
  have hlt' := ch'.toNat_lt
  apply UInt8.toNat_inj.mp
  unfold schar at h
  rw [Int.bmod_def, Int.bmod_def] at h
  omega

/-- At the end of the string `sgetch` answers `EOF`, and takes nothing. -/
theorem ScanIn.sgetch_nil (past : CString) : ScanIn.sgetch ⟨past, []⟩ = (EOF, ⟨past, []⟩) := rfl

/-- `sgetch` answers the next character of the string as a signed number, and takes it. -/
theorem ScanIn.sgetch_cons (past : CString) (ch : UInt8) (u : CString) :
    ScanIn.sgetch ⟨past, ch :: u⟩ = (schar ch, ⟨ch :: past, u⟩) := rfl

/-- The letters that are taken as digits. -/
def scanLetter (base : ℤ) (ch : UInt8) : Bool := Doscan.takes base (schar ch)

/-- The digits of a number in the string: at most `n`. -/
def scanRun (base : ℤ) (n : ℕ) (u : CString) : CString := (u.takeWhile (scanLetter base)).take n

/-- What the loop of `_innum` takes. -/
theorem Doscan.innumLoop_eq (n : ℕ) (past u : CString) (lcval : ℤ) (np : ℕ) :
    innumLoop base n ⟨ScanIn.sgetch ⟨past, u⟩, lcval, np⟩ =
      ⟨ScanIn.sgetch ⟨(scanRun base n u).reverse ++ past, u.drop (scanRun base n u).length⟩,
        (scanRun base n u).foldl (fun v ch => shiftIn base v (schar ch)) lcval,
          np + (scanRun base n u).length⟩ := by
  induction n generalizing past u lcval np with
  | zero => rfl
  | succ n ih =>
    cases u with
    | nil =>
      have hend : ¬ Doscan.takes base EOF = true := by
        rw [takes_iff]
        unfold EOF
        omega
      rw [innumLoop, ScanIn.sgetch_nil, if_neg hend]
      rfl
    | cons ch u =>
      rw [innumLoop, ScanIn.sgetch_cons]
      by_cases ht : Doscan.takes base (schar ch) = true
      · have hrun : scanRun base (n + 1) (ch :: u) = ch :: scanRun base n u := by
          unfold scanRun scanLetter
          rw [List.takeWhile_cons, if_pos ht, List.take_succ_cons]
        rw [if_pos ht, hrun, ih, List.reverse_cons, List.append_assoc,
          List.singleton_append, List.length_cons, List.drop_succ_cons,
          List.foldl_cons, Nat.add_assoc, Nat.add_comm 1]
      · have hrun : scanRun base (n + 1) (ch :: u) = [] := by
          unfold scanRun scanLetter
          rw [List.takeWhile_cons, if_neg ht, List.take_nil]
        rw [if_neg ht, hrun]
        rfl

/-- A blank for the scanner. -/
def scanBlank (ch : UInt8) : Bool := schar ch = 32 ∨ schar ch = 9 ∨ schar ch = 10

/-- The blanks that are skipped. -/
theorem Doscan.skipSpaces_eq (past u : CString) :
    skipSpaces past u = ScanIn.sgetch ⟨(u.takeWhile scanBlank).reverse ++ past, u.dropWhile scanBlank⟩ := by
  induction u generalizing past with
  | nil => rfl
  | cons ch u ih =>
    rw [skipSpaces, List.takeWhile_cons, List.dropWhile_cons]
    unfold scanBlank
    simp only [decide_eq_true_eq]
    split_ifs with hb
    · rw [ih, List.reverse_cons, List.append_assoc, List.singleton_append]
      rfl
    · exact (ScanIn.sgetch_cons past ch u).symm

/-- The sign in front of a number. -/
def scanSign : CString → Bool × CString × CString
  | [] => (false, [], [])
  | ch :: u => if ch = 45 then (true, [ch], u) else if ch = 43 then (false, [ch], u) else (false, [], ch :: u)

/-- The sign that is read. -/
theorem Doscan.innumSign_eq (len : ℤ) (past u : CString) : innumSign len (ScanIn.sgetch ⟨past, u⟩) =
    ((scanSign u).1, if (scanSign u).1 then 1 else 0, len - (scanSign u).2.1.length,
      ScanIn.sgetch ⟨(scanSign u).2.1.reverse ++ past, (scanSign u).2.2⟩) := by
  cases u with
  | nil =>
    unfold innumSign
    rw [ScanIn.sgetch_nil, if_neg (show ¬ EOF = 45 by decide), if_neg (show ¬ EOF = 43 by decide)]
    simp [scanSign, ScanIn.sgetch_nil]
  | cons ch u =>
    have h45 : schar 45 = 45 := by decide
    have h43 : schar 43 = 43 := by decide
    have hminus : schar ch = 45 ↔ ch = 45 := ⟨fun h => schar_inj (h.trans h45.symm), fun h => h ▸ h45⟩
    have hplus : schar ch = 43 ↔ ch = 43 := ⟨fun h => schar_inj (h.trans h43.symm), fun h => h ▸ h43⟩
    unfold innumSign scanSign
    rw [ScanIn.sgetch_cons]
    dsimp only
    rw [if_congr hminus rfl rfl, if_congr hplus rfl rfl]
    by_cases h₁ : ch = 45 <;> by_cases h₂ : ch = 43 <;> simp [h₁, h₂, ScanIn.sgetch_cons]

/-- The letters are the digits from ten on. -/
theorem scanLetter_iff {ch : UInt8} :
    scanLetter base ch = true ↔ base = 16 ∧ 10 ≤ digitValue ch ∧ digitValue ch < 16 := by
  have hlt := ch.toNat_lt
  unfold scanLetter digitValue schar
  rw [takes_iff, Int.bmod_def]
  simp only [UInt8.le_iff_toNat_le, show (48 : UInt8).toNat = 48 from rfl,
    show (57 : UInt8).toNat = 57 from rfl,
    show (97 : UInt8).toNat = 97 from rfl, show (102 : UInt8).toNat = 102 from rfl,
      show (65 : UInt8).toNat = 65 from rfl,
    show (70 : UInt8).toNat = 70 from rfl]
  split_ifs <;> omega

/-- A hexadecimal character puts the digit that it denotes behind the digits in `lcval`. -/
theorem Doscan.shiftIn_letter {ch : UInt8} (h : scanLetter 16 ch = true) (n : ℕ) :
    shiftIn 16 (int32 n) (schar ch) = int32 (16 * n + digitValue ch : ℕ) := by
  obtain ⟨-, hrange⟩ := takes_iff.mp h
  have hvalue : (if 48 ≤ schar ch ∧ schar ch ≤ 57 then schar ch - 48
      else if 97 ≤ schar ch ∧ schar ch ≤ 102 then schar ch - 87
      else schar ch - 55 : ℤ) = digitValue ch := by
    have hlt := ch.toNat_lt
    unfold schar digitValue at *
    rw [Int.bmod_def] at *
    simp only [UInt8.le_iff_toNat_le, show (48 : UInt8).toNat = 48 from rfl,
      show (57 : UInt8).toNat = 57 from rfl,
      show (97 : UInt8).toNat = 97 from rfl, show (102 : UInt8).toNat = 102 from rfl,
        show (65 : UInt8).toNat = 65 from rfl,
      show (70 : UInt8).toNat = 70 from rfl]
    split_ifs <;> omega
  unfold shiftIn
  rw [if_neg (by decide), if_neg (by decide), hvalue]
  have hsum : (n : ℤ) * 16 + digitValue ch = (16 * n + digitValue ch : ℕ) := by
    push_cast
    ring
  unfold int32
  calc
    (((n : ℤ).bmod (2 ^ 32) * 16).bmod (2 ^ 32) + digitValue ch).bmod (2 ^ 32) =
        ((n : ℤ) * 16 + digitValue ch).bmod (2 ^ 32) := by
      rw [Int.bmod_mul_bmod, Int.bmod_add_bmod]
    _ = ((16 * n + digitValue ch : ℕ) : ℤ).bmod (2 ^ 32) := by rw [hsum]

/-- What the digits that are taken denote. -/
theorem Doscan.foldl_shiftIn {l : CString} (h : ∀ ch ∈ l, scanLetter 16 ch = true) :
    l.foldl (fun v ch => shiftIn 16 v (schar ch)) 0 = int32 (value 16 (l.map digitValue)) := by
  have hgen : ∀ n : ℕ, l.foldl (fun v ch => shiftIn 16 v (schar ch)) (int32 n) =
      int32 ((l.map digitValue).foldl (fun v d => 16 * v + d) n : ℕ) := by
    induction l with
    | nil =>
      intro n
      rw [List.map_nil, List.foldl_nil, List.foldl_nil]
    | cons ch l ih =>
      intro n
      rw [List.foldl_cons, List.map_cons, List.foldl_cons, shiftIn_letter (h ch List.mem_cons_self)]
      exact ih (fun x hx => h x (List.mem_cons_of_mem _ hx)) _
  exact hgen 0

/-- The digits that are taken are letters. -/
theorem scanRun_letter {n : ℕ} {ch : UInt8} (h : ch ∈ scanRun base n u) : scanLetter base ch = true :=
  List.mem_takeWhile_imp ((List.take_sublist _ _).mem h)

/-- In another base than 16 no digit is taken. -/
theorem scanRun_other (hbase : base ≠ 16) (n : ℕ) (u : CString) : scanRun base n u = [] := by
  rw [List.eq_nil_iff_forall_not_mem]
  intro ch hch
  exact hbase (scanLetter_iff.mp (scanRun_letter hch)).1

/-- After the digits that are taken, `lcval` is the number that they denote, as a signed word. -/
theorem Doscan.lcval_eq (n : ℕ) (u : CString) :
    (scanRun base n u).foldl (fun v ch => shiftIn base v (schar ch)) 0 = int32
      (value 16 ((scanRun base n u).map digitValue)) := by
  by_cases hbase : base = 16
  · subst hbase
    exact foldl_shiftIn fun ch hch => scanRun_letter hch
  · rw [scanRun_other hbase]
    rfl

/-- What a numeric conversion finds in the string: the sign and the digits. -/
def scanNumber (type : UInt8) (len : ℤ) (u : CString) : Bool × CString :=
  let sign := scanSign (u.dropWhile scanBlank)
  (sign.1, scanRun (scanBase type) (len - sign.2.1.length).toNat sign.2.2)

/-- What a numeric conversion stores and writes. -/
theorem Doscan.innum_eq {type : UInt8}
    (htype : ¬ (type = 'c'.toUInt8 ∨ type = 's'.toUInt8 ∨ type = '['.toUInt8)) (sctab : ℤ → UInt8)
    (ptr : Bool) (len : ℤ) (size : ScanSize) (s : ScanIn) :
    let r := scanNumber type len s.rest
    let np := (if r.1 then 1 else 0) + r.2.length
    let lcval := int32 (value 16 (r.2.map digitValue))
    let stores : Bool := ptr && np ≠ 0
    (innum sctab ptr type len size s).ret = stores ∧
      (innum sctab ptr type len size s).stored =
        (if stores then some (ScanStored.ofSize size (if r.1 then int32 (-lcval) else lcval)) else none) ∧
      (innum sctab ptr type len size s).written = np + (if stores then 1 else 0) := by
  unfold innum scanNumber
  rw [if_neg htype]
  dsimp only
  rw [skipSpaces_eq, innumSign_eq]
  dsimp only
  rw [innumLoop_eq]
  dsimp only
  rw [lcval_eq]
  generalize scanRun _ _ _ = l
  cases ptr with
  | false => simp
  | true =>
    by_cases hnp : (if (scanSign (s.rest.dropWhile scanBlank)).1 = true then 1 else 0) + l.length = 0
    · rw [if_pos (Or.inr hnp)]
      simp [hnp]
    · rw [if_neg (by simp only [Bool.true_eq_false, false_or]; exact hnp)]
      simp only [Bool.true_and, ne_eq, hnp, not_false_eq_true, decide_true, if_true, and_self]

/-- The format of one conversion. -/
def single (f : Char) : CString := ['%'.toUInt8, f.toUInt8]

/-! ## The rounds of the scanner -/

/-- What follows a class stands behind it in the format. -/
theorem Doscan.getcclLoop_suffix {t : Bool} {s : CString} {sctab : ℤ → UInt8} {r : CString × (ℤ → UInt8)}
    (h : getcclLoop t s sctab = some r) : r.1 <:+ s := by
  induction s generalizing sctab with
  | nil => exact absurd h (by rintro ⟨⟩)
  | cons ch s ih =>
    rw [getcclLoop] at h
    by_cases hclose : ch &&& 127 = ']'.toUInt8
    · rw [if_pos hclose] at h
      obtain rfl := Option.some.inj h
      exact List.suffix_cons ch s
    · rw [if_neg hclose] at h
      dsimp only at h
      by_cases heof : schar ch + 1 = 0
      · rw [if_pos heof] at h
        obtain rfl := Option.some.inj h
        exact List.suffix_refl _
      · rw [if_neg heof] at h
        exact (ih h).trans (List.suffix_cons ch s)

/-- What follows a conversion character stands behind it. -/
theorem Doscan.scanType_suffix {fmt : CString} {r : ScanSize × UInt8 × CString × (ℤ → UInt8)}
    (h : scanType sctab fmt = some r) :
    r.2.2.1 <:+ fmt := by
  unfold scanType at h
  have htail : fmt.tail <:+ fmt := List.tail_suffix fmt
  split_ifs at h
  · obtain rfl := Option.some.inj h
    exact (List.tail_suffix _).trans htail
  · obtain rfl := Option.some.inj h
    exact (List.tail_suffix _).trans htail
  · obtain ⟨r', hclass, rfl⟩ := Option.map_eq_some_iff.mp h
    unfold getccl at hclass
    have hloop := getcclLoop_suffix hclass
    split at hloop
    · exact (hloop.trans (List.tail_suffix _)).trans htail
    · exact hloop.trans htail
  · obtain rfl := Option.some.inj h
    exact htail

/-- What follows a conversion stands behind it. -/
theorem Doscan.scanConv_suffix {fmt : CString} {r : ScanConv × CString × (ℤ → UInt8)}
    (h : scanConv sctab fmt = some r) : r.2.1 <:+ fmt := by
  obtain ⟨r', htype, rfl⟩ := Option.map_eq_some_iff.mp h
  have hdigits := (scanType_suffix htype).trans (fmtDigits_suffix 0 _)
  dsimp only
  split at hdigits
  · exact hdigits.trans (List.tail_suffix fmt)
  · exact hdigits

/-- A conversion is taken, unless a class begins in the format. -/
theorem Doscan.scanConv_isSome {fmt : CString} (h : '['.toUInt8 ∉ fmt) :
    ∃ r, scanConv sctab fmt = some r := by
  unfold scanConv
  dsimp only
  have hdigits (u : CString) (hu : u <:+ fmt) : (Doprnt.fmtDigits 0 u).2.head? ≠ some '['.toUInt8 := by
    intro hhead
    have hmem : '['.toUInt8 ∈ (Doprnt.fmtDigits 0 u).2 := List.mem_of_mem_head? hhead
    exact h (((fmtDigits_suffix 0 u).trans hu).subset hmem)
  have htype (u : CString) (hu : u.head? ≠ some '['.toUInt8) : ∃ r, scanType sctab u = some r := by
    unfold scanType
    rw [if_neg hu]
    split_ifs <;> exact ⟨_, rfl⟩
  obtain ⟨r, hr⟩ : ∃ r, scanType sctab (Doprnt.fmtDigits 0
      (if decide (fmt.head? = some '*'.toUInt8) = true then fmt.tail else fmt)).2 = some r := by
    apply htype
    apply hdigits
    split
    · exact List.tail_suffix fmt
    · exact List.suffix_refl fmt
  exact ⟨_, by rw [hr]; rfl⟩

/-- One round more than the format has characters is enough. -/
theorem Doscan.scanLoop_enough {n : ℕ} {fmt : CString} (h : fmt.length < n) (s : ScanState) :
    scanLoop n fmt s = scanLoop (fmt.length + 1) fmt s := by
  -- The format gets shorter with each round: the two counts go down together.
  have hgen : ∀ m n : ℕ, ∀ fmt : CString, fmt.length < m →
      fmt.length < n → ∀ s, scanLoop m fmt s = scanLoop n fmt s := by
    intro m
    induction m with
    | zero => exact fun n fmt hm => absurd hm (Nat.not_lt_zero _)
    | succ m ih =>
      intro n fmt hm hn s
      obtain ⟨n, rfl⟩ : ∃ k, n = k + 1 := ⟨n - 1, by omega⟩
      cases fmt with
      | nil => rfl
      | cons ch fmt =>
        have hlen (fmt' : CString) (hsuffix : fmt' <:+ fmt) (s' : ScanState) :
            scanLoop m fmt' s' = scanLoop n fmt' s' := by
          have hle := hsuffix.length_le
          rw [List.length_cons] at hm hn
          exact ih n fmt' (by omega) (by omega) s'
        rw [scanLoop, scanLoop]
        split
        · cases hconv : scanConv s.sctab fmt with
          | none => rfl
          | some w =>
            dsimp only
            rw [hlen w.2.1 (scanConv_suffix hconv)]
        · split
          · exact hlen fmt (List.suffix_refl fmt) _
          · dsimp only
            rw [hlen]
            split
            · exact List.tail_suffix fmt
            · exact List.suffix_refl fmt
  exact hgen n (fmt.length + 1) fmt h (Nat.lt_succ_self _) s

/-- So a scan of a format without a class ends with a result, as only a class that is not closed
lets `_doscan` leave the format. -/
theorem Doscan.scanLoop_isSome {n : ℕ} {fmt : CString} (h : fmt.length < n)
    (hclass : '['.toUInt8 ∉ fmt) (s : ScanState) :
    ∃ r, scanLoop n fmt s = some r := by
  induction n generalizing fmt s with
  | zero => exact absurd h (Nat.not_lt_zero _)
  | succ n ih =>
    cases fmt with
    | nil => exact ⟨_, rfl⟩
    | cons ch fmt =>
      -- What is left of the format after this round is a part of it, and shorter.
      have hnext (fmt' : CString) (hsuffix : fmt' <:+ fmt) (s' : ScanState) :
          ∃ r, scanLoop n fmt' s' = some r := by
        have hle := hsuffix.length_le
        rw [List.length_cons] at h
        exact ih (by omega) (fun hmem => hclass (List.mem_cons_of_mem ch (hsuffix.subset hmem))) s'
      rw [scanLoop]
      split
      -- A conversion ends inside the format, as no class is open.
      · obtain ⟨r, hconv⟩ : ∃ r, scanConv s.sctab fmt = some r := by
          apply scanConv_isSome
          exact fun hmem => hclass (List.mem_cons_of_mem ch hmem)
        rw [hconv]
        dsimp only
        split_ifs
        · exact ⟨_, rfl⟩
        · exact ⟨_, rfl⟩
        · exact ⟨_, rfl⟩
        · exact hnext r.2.1 (scanConv_suffix hconv) _
      · split
        · exact hnext fmt (List.suffix_refl fmt) _
        -- Another character has to match the next one of the string, or ends the scan.
        · dsimp only
          have htail : (if ch = '%'.toUInt8 then fmt.tail else fmt) <:+ fmt := by
            split
            · exact List.tail_suffix fmt
            · exact List.suffix_refl fmt
          generalize (if ch = '%'.toUInt8 then fmt.tail else fmt) = fmt' at htail ⊢
          split_ifs
          · exact ⟨_, rfl⟩
          · exact ⟨_, rfl⟩
          · exact hnext fmt' htail _

/-- `sscanf` with a format that has no class has a result. -/
theorem sscanf_isSome {fmt : CString} (hclass : '['.toUInt8 ∉ fmt) (sctab : ℤ → UInt8) (str : CString) :
    ∃ r, sscanf sctab str fmt = some r :=
  scanLoop_isSome (Nat.lt_succ_self _) hclass _

/-- What `sscanf` returns and stores for a format of one conversion is what its call of `_innum`
does. -/
theorem sscanf_single {f : Char} (hf : f = 'd' ∨ f = 'x' ∨ f = 'o' ∨ f = 's')
    (sctab : ℤ → UInt8) (str : CString) :
    let r := innum sctab true f.toUInt8 30000 .regular ⟨[], str⟩
    ∃ n s, sscanf sctab str (single f) = some (n, s) ∧ (n = 1 ↔ r.ret = true) ∧
      s.stored = (r.stored.map fun x => (0, x)).toList ∧
      s.written = [r.written] := by
  intro r
  -- The format asks for one word, without a field width.
  have hconv : scanConv sctab [f.toUInt8] = some (⟨false, 30000, .regular, f.toUInt8⟩, [], sctab) := by
    rcases hf with rfl | rfl | rfl | rfl <;> rfl
  have hchar : f.toUInt8 ≠ '%'.toUInt8 ∧ f.toUInt8 ≠ 0 := by rcases hf with rfl | rfl | rfl | rfl <;> decide
  have hfirst : '%'.toUInt8 = '%'.toUInt8 ∧ [f.toUInt8].head? ≠ some '%'.toUInt8 :=
    ⟨rfl, fun h => hchar.1 (Option.some.inj h)⟩
  let s : ScanState := ⟨⟨[], str⟩, sctab, 0, 0, [], []⟩
  have hs : (s.convert sctab ⟨false, 30000, .regular, f.toUInt8⟩ r).stored =
      (r.stored.map fun x => (0, x)).toList ∧
      (s.convert sctab ⟨false, 30000, .regular, f.toUInt8⟩ r).written = [r.written] :=
        ⟨List.nil_append _, rfl⟩
  have hn : (s.convert sctab ⟨false, 30000, .regular, f.toUInt8⟩ r).nmatch = if r.ret = true then 1
      else 0 := by
    unfold ScanState.convert
    simp [s]
  -- The scan stops after the conversion, as the format ends.
  have hscan : sscanf sctab str (single f) = if r.eof then
      some (if (s.convert sctab ⟨false, 30000, .regular, f.toUInt8⟩ r).nmatch ≠ 0 then
        ((s.convert sctab ⟨false, 30000, .regular, f.toUInt8⟩ r).nmatch : ℤ) else -1,
          s.convert sctab ⟨false, 30000, .regular, f.toUInt8⟩ r)
      else some ((s.convert sctab ⟨false, 30000, .regular, f.toUInt8⟩ r).nmatch,
        s.convert sctab ⟨false, 30000, .regular, f.toUInt8⟩ r) := by
    unfold sscanf single
    rw [scanLoop, if_pos hfirst, hconv]
    dsimp only
    rw [if_neg hchar.2]
    rfl
  rw [hscan, hn]
  cases r.eof <;> cases r.ret
  · exact ⟨_, _, rfl, by decide, hs⟩
  · exact ⟨_, _, rfl, by decide, hs⟩
  · exact ⟨_, _, rfl, by decide, hs⟩
  · exact ⟨_, _, rfl, by decide, hs⟩

/-- A field without a width and a precision. -/
theorem field_plain (sign : Bool) (str : CString) :
    Doprnt.field false false 0 0 sign str = (if sign then [45] else []) ++ str := by
  have hshow : str.take (fieldLength 0 str.length).toNat = str := List.take_length
  have hlead : fieldLeading 0 0 sign str.length = 0 := by cases sign <;> rfl
  rw [field_eq, hshow, hlead]
  cases sign
  · exact List.append_nil str
  · exact congrArg (List.cons 45) (List.append_nil str)

/-- The text for a format of one conversion is the sign, if there is one, and the digits or
characters. -/
theorem sprintf_single {f : Char} (hf : f = 'd' ∨ f = 'x' ∨ f = 'o' ∨ f = 's')
    (args : FmtArgs) (string : CString) :
    let r := Fdoprnt.switch args ⟨f.toUInt8, false, false, 0, false, 0, 0⟩ string
    Fdoprnt.fdoprnt args (single f) string = (if r.sign then [45] else []) ++ r.str := by
  intro r
  have hr : r.out = [] ∧ r.zero = false ∧ r.fmax = 0 := by
    rcases hf with rfl | rfl | rfl | rfl <;> exact ⟨rfl, rfl, rfl⟩
  have htext : Fdoprnt.fdoprnt args (single f) string = r.out ++
      Doprnt.field false r.zero 0 r.fmax r.sign r.str ++ [] := by
    rcases hf with rfl | rfl | rfl | rfl <;> rfl
  rw [htext, hr.1, hr.2.1, hr.2.2, List.nil_append, List.append_nil, field_plain]

/-- A text without blanks and signs in front. -/
theorem scanNumber_eq {type ch : UInt8} {n : ℕ} {u : CString}
    (hblank : scanBlank ch = false) (h₁ : ch ≠ 45) (h₂ : ch ≠ 43) :
    scanNumber type n (ch :: u) = (false, scanRun (scanBase type) n (ch :: u)) := by
  have hsign : scanSign (ch :: u) = (false, [], ch :: u) := by
    unfold scanSign
    dsimp only
    rw [if_neg h₁, if_neg h₂]
  unfold scanNumber
  rw [List.dropWhile_cons, if_neg (by rw [hblank]; decide), hsign]
  rfl

/-- A hexadecimal digit is no blank and no sign. -/
theorem digit_clean {ch : UInt8} (h : digitValue ch < 16) : scanBlank ch = false ∧ ch ≠ 45 ∧ ch ≠ 43 := by
  refine ⟨?_, ?_, ?_⟩
  · by_contra hblank
    have hor : schar ch = 32 ∨ schar ch = 9 ∨ schar ch = 10 :=
      of_decide_eq_true ((Bool.not_eq_false _).mp hblank)
    have hchars : schar 32 = 32 ∧ schar 9 = 9 ∧ schar 10 = 10 := by decide
    rcases hor with hc | hc | hc
    · rw [schar_inj (hc.trans hchars.1.symm)] at h
      exact absurd h (by decide)
    · rw [schar_inj (hc.trans hchars.2.1.symm)] at h
      exact absurd h (by decide)
    · rw [schar_inj (hc.trans hchars.2.2.symm)] at h
      exact absurd h (by decide)
  · rintro rfl
    exact absurd h (by decide)
  · rintro rfl
    exact absurd h (by decide)

/-- Runs of one property are runs of another that agrees with it on the list. -/
theorem runs_congr {α : Type} {p q : α → Bool} {l : List α} (h : ∀ x ∈ l, p x = q x) :
    l.takeWhile p = l.takeWhile q ∧ l.dropWhile p = l.dropWhile q := by
  induction l with
  | nil => exact ⟨rfl, rfl⟩
  | cons x l ih =>
    obtain ⟨htake, hdrop⟩ := ih fun y hy => h y (List.mem_cons_of_mem _ hy)
    rw [List.takeWhile_cons, List.takeWhile_cons, List.dropWhile_cons,
      List.dropWhile_cons, h x List.mem_cons_self, htake, hdrop]
    exact ⟨rfl, rfl⟩

/-- The digits of a number are scanned back exactly if all of them are letters. -/
theorem run_numeral_iff {m : ℕ} (hm : m < 2 ^ 32) :
    let l := scanRun 16 30000 ((numeral 16 m).map Doprnt.lower)
    (l ≠ [] ∧ int32 (value 16 (l.map digitValue)) = int32 m) ↔ ∀ d ∈ numeral 16 m, 10 ≤ d := by
  intro l
  have hlt : ∀ d ∈ numeral 16 m, d < 16 := fun d hd => lt_of_mem_numeral (by decide) hd
  have hletter : ∀ d < 16, scanLetter 16 (Doprnt.lower d) = decide (10 ≤ d) := by
    intro d hd
    have hvalue := Doprnt.lower_alphabet.digitValue_char d hd
    rw [Bool.eq_iff_iff, scanLetter_iff, hvalue, decide_eq_true_eq]
    omega
  have hlen : (numeral 16 m).length ≤ 8 := (length_numeral_le_iff (by decide) (by decide)).mpr hm
  -- The digits that are taken are the first ones of the numeral.
  have hl : l = ((numeral 16 m).takeWhile fun d => decide (10 ≤ d)).map Doprnt.lower := by
    have htake : ((numeral 16 m).map Doprnt.lower).takeWhile
        (scanLetter 16) = ((numeral 16 m).takeWhile fun d => decide (10 ≤ d)).map Doprnt.lower := by
      have hsame : ∀ d ∈ numeral 16 m, (scanLetter 16 ∘ Doprnt.lower) d = decide (10 ≤ d) := by
        intro d hd
        rw [Function.comp_apply]
        exact hletter d (hlt d hd)
      rw [List.takeWhile_map, (runs_congr hsame).1]
    have hle := (List.takeWhile_sublist (fun d => decide (10 ≤ d)) (l := numeral 16 m)).length_le
    show ((numeral 16 m).map Doprnt.lower |>.takeWhile (scanLetter 16)).take 30000 = _
    rw [htake, List.take_of_length_le (by rw [List.length_map]; omega)]
  have hback : l.map digitValue = (numeral 16 m).takeWhile fun d => decide (10 ≤ d) := by
    rw [hl]
    exact Doprnt.lower_alphabet.map_digitValue fun d hd => hlt d ((List.takeWhile_sublist _).mem hd)
  have hsplit : numeral 16 m = ((numeral 16 m).takeWhile fun d => decide (10 ≤ d)) ++ (numeral 16 m).dropWhile
      fun d => decide (10 ≤ d) :=
    (List.takeWhile_append_dropWhile ..).symm
  rw [hback]
  generalize hfront : (numeral 16 m).takeWhile (fun d => decide (10 ≤ d)) = front at *
  generalize hrest : (numeral 16 m).dropWhile (fun d => decide (10 ≤ d)) = rest at *
  have hten : ∀ d ∈ front, 10 ≤ d := by
    intro d hd
    rw [← hfront] at hd
    have hmem := List.mem_takeWhile_imp hd
    exact of_decide_eq_true hmem
  have hm' : value 16 (front ++ rest) = m := by rw [← hsplit, value_numeral]
  have hinj : int32 (value 16 front) = int32 m → value 16 front = m := by
    have hle : value 16 front ≤ m := (value_le_append (by decide) front rest).trans_eq hm'
    unfold int32
    rw [Int.bmod_def, Int.bmod_def]
    omega
  constructor
  · rintro ⟨hne, heq⟩
    have hsame := hinj heq
    -- Digits behind those that are taken would make the number larger.
    have hnil : rest = [] := by
      by_contra hrest'
      cases front with
      | nil => exact hne (by rw [hl]; rfl)
      | cons d front =>
        have hd := hten d List.mem_cons_self
        have hmore := value_lt_append (b := 16) (d := d) (by decide) (by omega) front hrest'
        rw [hm', hsame] at hmore
        exact lt_irrefl m hmore
    rw [hsplit, hnil, List.append_nil]
    exact hten
  · intro hall
    have hfull : front = numeral 16 m := by
      rw [← hfront, List.takeWhile_eq_self_iff]
      exact fun d hd => decide_eq_true (hall d hd)
    refine ⟨?_, by rw [hfull, value_numeral]⟩
    rw [hl, hfull, Ne, List.map_eq_nil_iff]
    exact numeral_ne_nil 16 m

/-- A conversion returns a match and stores a number. -/
theorem sscanf_single_iff {f : Char} (hf : f = 'd' ∨ f = 'x' ∨ f = 'o')
    (sctab : ℤ → UInt8) (str : CString) (num : ℤ) :
    (∃ s, sscanf sctab str (single f) = some (1, s) ∧ s.stored = [(0, .word num)]) ↔
      ((scanNumber f.toUInt8 30000 str).1 = true ∨ (scanNumber f.toUInt8 30000 str).2 ≠ []) ∧
        (if (scanNumber f.toUInt8 30000 str).1 then
          int32 (-int32 (value 16 ((scanNumber f.toUInt8 30000 str).2.map digitValue)))
          else int32 (value 16 ((scanNumber f.toUInt8 30000 str).2.map digitValue))) = num := by
  have hf' : f = 'd' ∨ f = 'x' ∨ f = 'o' ∨ f = 's' := by tauto
  have htype : ¬ (f.toUInt8 = 'c'.toUInt8 ∨ f.toUInt8 = 's'.toUInt8 ∨ f.toUInt8 = '['.toUInt8) := by
    rcases hf with rfl | rfl | rfl <;> decide
  obtain ⟨n, s, hscan, hn, hs, -⟩ := sscanf_single hf' sctab str
  obtain ⟨hret, hstored, -⟩ := innum_eq htype sctab true 30000 .regular ⟨[], str⟩
  rw [hscan]
  rw [hret] at hn
  rw [hstored] at hs
  dsimp only at hn hs
  generalize scanNumber f.toUInt8 30000 str = r at *
  -- Something has been taken if there is a sign or a digit.
  have hnp : (true && decide ((if r.1 = true then 1 else 0) + r.2.length ≠ 0)) = true ↔
      r.1 = true ∨ r.2 ≠ [] := by
    rw [Bool.true_and, decide_eq_true_eq, ← List.length_pos_iff]
    cases r.1
    · rw [if_neg Bool.false_ne_true, Nat.zero_add]
      exact ⟨fun h => Or.inr (Nat.pos_of_ne_zero h), fun h => (h.resolve_left Bool.false_ne_true).ne'⟩
    · exact ⟨fun _ => Or.inl rfl, fun _ => by rw [if_pos rfl]; omega⟩
  rw [← hnp]
  constructor
  -- A stored number is the one that the digits denote, after a match.
  · rintro ⟨s', heq, hst⟩
    obtain ⟨rfl, rfl⟩ := Prod.mk.inj (Option.some.inj heq)
    have htrue := hn.mp rfl
    rw [hs, if_pos htrue] at hst
    refine ⟨htrue, ?_⟩
    simpa [ScanStored.ofSize] using hst
  · rintro ⟨htrue, hnum⟩
    rw [if_pos htrue, hnum] at hs
    exact ⟨s, by rw [hn.mpr htrue], hs⟩

/-- A number is itself behind the conversion to unsigned and back. -/
theorem int32_uint32 {num : ℤ} (h₁ : -2 ^ 31 ≤ num) (h₂ : num < 2 ^ 31) : int32 (uint32 num) = num := by
  unfold int32 uint32
  rw [Int.bmod_def]
  omega

/-- What is printed with one numeric conversion is scanned back by the same conversion exactly if it
is `%x` and all hexadecimal digits of the number are letters. -/
theorem scan_print {f : Char} (hf : f = 'd' ∨ f = 'x' ∨ f = 'o')
    (args : FmtArgs) (sctab : ℤ → UInt8) (string : CString) :
    (∃ s, sscanf sctab (Fdoprnt.fdoprnt args (single f) string) (single f) = some (1, s) ∧
      s.stored = [(0, .word (args.word 0))]) ↔
      f = 'x' ∧ ∀ d ∈ numeral 16 (uint32 (args.word 0)), 10 ≤ d := by
  obtain ⟨hlow, hhigh⟩ := args.word_mem 0
  have hf' : f = 'd' ∨ f = 'x' ∨ f = 'o' ∨ f = 's' := by tauto
  rw [sscanf_single_iff hf]
  have htext := sprintf_single hf' args string
  by_cases hx : f = 'x'
  · subst hx
    have hstr : Fdoprnt.fdoprnt args (single 'x') string =
        (numeral 16 (uint32 (args.word 0))).map Doprnt.lower := by
      rw [htext, ← Doprnt.prtl16_eq]
      rfl
    have hnumber : scanNumber 'x'.toUInt8 30000 (Fdoprnt.fdoprnt args (single 'x') string) =
        (false, scanRun 16 30000 ((numeral 16 (uint32 (args.word 0))).map Doprnt.lower)) := by
      rw [hstr]
      cases hds : numeral 16 (uint32 (args.word 0)) with
      | nil => exact absurd hds (numeral_ne_nil _ _)
      | cons d ds =>
        have hd : d < 16 :=
          lt_of_mem_numeral (n := uint32 (args.word 0)) (by decide) (by rw [hds]; exact List.mem_cons_self)
        have hvalue : digitValue (Doprnt.lower d) < 16 := by rwa [Doprnt.lower_alphabet.digitValue_char d hd]
        obtain ⟨hblank, hminus, hplus⟩ := digit_clean hvalue
        rw [List.map_cons]
        exact scanNumber_eq hblank hminus hplus
    have hiff := run_numeral_iff (uint32_lt (args.word 0))
    rw [int32_uint32 hlow hhigh] at hiff
    rw [hnumber]
    dsimp only at hiff ⊢
    rw [if_neg Bool.false_ne_true, ← hiff]
    simp only [Bool.false_eq_true, false_or, true_and]
  -- In the other bases no digit is taken, and a minus sign alone is read as zero.
  · have hbase : scanBase f.toUInt8 ≠ 16 := by
      rcases hf with rfl | rfl | rfl
      · decide
      · exact absurd rfl hx
      · decide
    have hnone : ∀ u, (scanNumber f.toUInt8 30000 u).2 = [] := fun u => scanRun_other hbase _ _
    rw [hnone]
    constructor
    · rintro ⟨hsign, hnum⟩
      exfalso
      have hzero : args.word 0 = 0 := by
        rw [← hnum]
        split_ifs <;> rfl
      have hstr : Fdoprnt.fdoprnt args (single f) string = ['0'.toUInt8] := by
        rw [htext]
        rcases hf with rfl | rfl | rfl
        · unfold Fdoprnt.switch Doprnt.cases
          dsimp only
          rw [hzero]
          rfl
        · exact absurd rfl hx
        · unfold Fdoprnt.switch Doprnt.cases
          dsimp only
          rw [hzero]
          rfl
      rw [hstr] at hsign
      rcases hf with rfl | rfl | rfl
      · exact absurd hsign (by decide)
      · exact absurd rfl hx
      · exact absurd hsign (by decide)
    · rintro ⟨rfl, -⟩
      exact absurd rfl hx

/-- The text `7` that `%d` prints is not scanned back by `%d`: there is no match. -/
theorem scan_print_digit : ¬ ∃ s, sscanf (sctabAt fun _ => 0)
      (Fdoprnt.fdoprnt (sameArgs 7 (by decide)) (single 'd') []) (single 'd') = some (1, s) ∧
        s.stored = [(0, .word 7)] := by
  have hscan : (sscanf (sctabAt fun _ => 0) (Fdoprnt.fdoprnt (sameArgs 7 (by decide)) (single 'd') [])
      (single 'd')).map Prod.fst = some 0 := by decide +kernel
  rintro ⟨s, hs, -⟩
  rw [hs] at hscan
  exact absurd (Option.some.inj hscan) (by decide : (1 : ℤ) ≠ 0)

/-- The argument `0xab`, which is also the address of a word. -/
def letterArgs : FmtArgs where
  word _ := 171
  text _ := ['h', 'i'].map Char.toUInt8
  dbl _ _ := (false, [])
  word_mem _ := by omega

/-- It is scanned back. -/
theorem scan_print_letters :
    ∃ s, sscanf (sctabAt fun _ => 0) (Fdoprnt.fdoprnt letterArgs (single 'x') []) (single 'x') = some (1, s) ∧
    s.stored = [(0, .word 171)] :=
  (scan_print (by tauto) letterArgs (sctabAt fun _ => 0) []).mpr ⟨rfl, by decide⟩

/-! ## Words -/

/-- A character is itself behind the conversion to `int` and back. -/
theorem ofInt_schar {ch : UInt8} (h : ch < 128) : UInt8.ofInt (schar ch) = ch := by
  have hlt : ch.toNat < 128 := UInt8.lt_iff_toNat_lt.mp h
  have hmod : ((ch.toNat : ℤ) % 2 ^ 8).toNat = ch.toNat := by omega
  rw [schar_of_lt h]
  unfold UInt8.ofInt
  rw [hmod, UInt8.ofNat_toNat]

/-- What the loop of `_instr` stores. -/
theorem Doscan.instrLoop_eq (stops : ℤ → Bool) {len : ℤ}
    (hlen : 1 ≤ len) (past : CString) {u : CString} (hu : ∀ ch ∈ u, ch < 128) :
    (instrLoop stops len (ScanIn.sgetch ⟨past, u⟩).1 (ScanIn.sgetch ⟨past, u⟩).2.past
      (ScanIn.sgetch ⟨past, u⟩).2.rest).1 =
      (u.takeWhile fun ch => !stops (schar ch)).take len.toNat := by
  -- The loop takes no character of the string for the end of the input.
  have heof : ∀ ch ∈ u, schar ch ≠ EOF := by
    intro ch hch heq
    rw [schar_of_lt (hu ch hch)] at heq
    unfold EOF at heq
    omega
  induction u generalizing past len with
  | nil =>
    rw [ScanIn.sgetch_nil, instrLoop, if_pos (Or.inl rfl), List.takeWhile_nil, List.take_nil]
  | cons ch u ih =>
    have hch := ofInt_schar (hu ch List.mem_cons_self)
    have hne := heof ch List.mem_cons_self
    obtain ⟨k, hk⟩ : ∃ k : ℕ, len = k + 1 := ⟨(len - 1).toNat, by omega⟩
    have htake : (len - 1).toNat = k ∧ len.toNat = k + 1 := by omega
    rw [ScanIn.sgetch_cons]
    dsimp only
    -- The loop stops at this character, before it is stored.
    by_cases hs : stops (schar ch) = true
    · rw [List.takeWhile_cons, if_neg (by rw [hs]; decide), List.take_nil]
      cases u <;> rw [instrLoop, if_pos (Or.inr hs)]
    -- It stores the character, and goes on if the field is not full.
    · have hstop : ¬ (schar ch = EOF ∨ stops (schar ch) = true) := fun h => h.elim hne hs
      rw [List.takeWhile_cons, if_pos (by simpa using hs), htake.2, List.take_succ_cons]
      cases u with
      | nil => rw [instrLoop, if_neg hstop, hch, List.takeWhile_nil, List.take_nil]
      | cons next u =>
        rw [instrLoop, if_neg hstop]
        -- The field width has been used up.
        split_ifs with hend
        · obtain rfl : k = 0 := by omega
          rw [hch, List.take_zero]
        · have hpos : 1 ≤ len - 1 := by omega
          have hrest := ih hpos (ch :: past) (fun x hx => hu x (List.mem_cons_of_mem _ hx))
            fun x hx => heof x (List.mem_cons_of_mem _ hx)
          rw [ScanIn.sgetch_cons, htake.1] at hrest
          dsimp only at hrest ⊢
          rw [hrest, hch]

/-- What the loop of `_instr` skips. -/
theorem Doscan.instrSkip_eq {skips : ℤ → Bool} (past : CString) {u : CString} (hu : ∀ ch ∈ u, ch < 128) :
    instrSkip skips past u = ScanIn.sgetch ⟨(u.takeWhile fun ch => skips (schar ch)).reverse ++ past,
      u.dropWhile fun ch => skips (schar ch)⟩ := by
  induction u generalizing past with
  | nil => rfl
  | cons ch u ih =>
    have hne : schar ch ≠ EOF := by
      intro heq
      rw [schar_of_lt (hu ch List.mem_cons_self)] at heq
      unfold EOF at heq
      omega
    rw [instrSkip, List.takeWhile_cons, List.dropWhile_cons]
    by_cases hs : skips (schar ch) = true
    · rw [if_pos ⟨hs, hne⟩, if_pos hs, if_pos hs, ih _ fun x hx => hu x (List.mem_cons_of_mem _ hx),
        List.reverse_cons, List.append_assoc,
        List.singleton_append]
    · rw [if_neg fun h => hs h.1, if_neg hs, if_neg hs]
      exact (ScanIn.sgetch_cons past ch u).symm

/-- The blanks of the table, for characters below 128, are those of the specification. -/
theorem sctabAt_blank (around : ℤ → UInt8) {ch : UInt8} (h : ch < 128) :
    sctabAt around (schar ch) &&& SPC ≠ 0 ↔ scanBlank ch = true := by
  have hlt : ch.toNat < 128 := UInt8.lt_iff_toNat_lt.mp h
  unfold sctabAt scanBlank
  rw [schar_of_lt h, if_pos (by omega), decide_eq_true_eq]
  by_cases hb : (ch.toNat : ℤ) = 9 ∨ (ch.toNat : ℤ) = 10 ∨ (ch.toNat : ℤ) = 32
  · rw [if_pos hb]
    exact ⟨fun _ => by omega, fun _ => by decide⟩
  · rw [if_neg hb]
    exact ⟨fun h => absurd rfl h, fun h => by omega⟩

/-- What `%s` reads in a text of the first half of the characters. -/
theorem Doscan.instr_word {str : CString} (hstr : ∀ ch ∈ str, ch < 128) (around : ℤ → UInt8) :
    let w := ((str.dropWhile scanBlank).takeWhile fun ch => !scanBlank ch).take 30000
    (instr (sctabAt around) true 's'.toUInt8 30000 ⟨[], str⟩).ret = decide (w ≠ []) ∧
      (instr (sctabAt around) true 's'.toUInt8 30000 ⟨[], str⟩).stored =
        if w ≠ [] then some (.chars (w ++ [0])) else none := by
  intro w
  -- The blanks that are skipped are those of the specification, and so are those that end the word.
  have hskip : ∀ ch ∈ str, decide ('s'.toUInt8 = 's'.toUInt8 ∧ sctabAt around (schar ch) &&& SPC ≠ 0) =
      scanBlank ch := by
    intro ch hch
    rw [Bool.eq_iff_iff, decide_eq_true_eq, ← sctabAt_blank around (hstr ch hch)]
    exact and_iff_right rfl
  have hstop : ∀ ch ∈ str.dropWhile scanBlank, (!decide (sctabAt around (schar ch) &&& SPC ≠ 0)) =
      !scanBlank ch := by
    intro ch hch
    rw [Bool.eq_iff_iff, Bool.not_eq_true', Bool.not_eq_true', decide_eq_false_iff_not, sctabAt_blank around
      (hstr ch ((List.dropWhile_sublist _).mem hch)), Bool.not_eq_true]
  have hrest : ∀ ch ∈ str.dropWhile scanBlank, ch < 128 :=
    fun ch hch => hstr ch ((List.dropWhile_sublist _).mem hch)
  -- The loop starts behind the blanks.
  have hstart :
      instrSkip (fun c => decide ('s'.toUInt8 = 's'.toUInt8 ∧ sctabAt around c &&& SPC ≠ 0)) [] str =
      ScanIn.sgetch ⟨(str.takeWhile scanBlank).reverse, str.dropWhile scanBlank⟩ := by
    rw [instrSkip_eq [] hstr, List.append_nil, (runs_congr hskip).1, (runs_congr hskip).2]
  have hlen : (1 : ℤ) ≤ 30000 := by decide
  have hloop := instrLoop_eq (fun c => decide (sctabAt around c &&& SPC ≠ 0)) hlen
    (str.takeWhile scanBlank).reverse hrest
  rw [(runs_congr hstop).1] at hloop
  have hc : ('s'.toUInt8 = 'c'.toUInt8) = False := by decide
  have hb : ('s'.toUInt8 = '['.toUInt8) = False := by decide
  unfold instr
  dsimp only
  rw [hstart]
  simp only [hc, hb, false_and, if_false]
  rw [hloop]
  simp only [Bool.true_and, decide_eq_true_eq]
  exact ⟨rfl, rfl⟩

/-- A word that is printed with `%s` is scanned back with `%s` exactly if it has a character, no
blanks and no more characters than the scanner reads. -/
theorem scan_word (args : FmtArgs) (around : ℤ → UInt8) (string : CString) (hword : args.word 0 ≠ 0)
    (hascii : ∀ ch ∈ args.text (args.word 0), ch < 128) :
    (∃ s, sscanf (sctabAt around) (Fdoprnt.fdoprnt args (single 's') string) (single 's') = some (1, s) ∧
        s.stored = [(0, .chars (args.text (args.word 0) ++ [0]))]) ↔
      args.text (args.word 0) ≠ [] ∧ (∀ ch ∈ args.text (args.word 0), scanBlank ch = false) ∧
      (args.text (args.word 0)).length ≤ 30000 := by
  -- The text that is scanned is that of the argument, as it is no null pointer.
  have htext : Fdoprnt.fdoprnt args (single 's') string = args.text (args.word 0) := by
    rw [sprintf_single (by tauto) args string]
    show [] ++ (if args.word 0 = 0 then _ else args.text (args.word 0)) = _
    rw [if_neg hword, List.nil_append]
  rw [htext]
  generalize args.text (args.word 0) = str at *
  obtain ⟨n, s, hscan, hn, hs, -⟩ := sscanf_single (f := 's') (by tauto) (sctabAt around) str
  have hinnum : innum (sctabAt around) true 's'.toUInt8 30000 .regular
      ⟨[], str⟩ = instr (sctabAt around) true 's'.toUInt8 30000 ⟨[], str⟩ :=
    if_pos (Or.inr (Or.inl rfl))
  obtain ⟨hret, hstored⟩ := instr_word hascii around
  rw [hinnum, hret, decide_eq_true_eq] at hn
  rw [hinnum, hstored] at hs
  rw [hscan]
  -- The word that is taken is the whole text if it has no blank and is not too long.
  have hfull : ((str.dropWhile scanBlank).takeWhile fun ch => !scanBlank ch).take 30000 = str ↔
      (∀ ch ∈ str, scanBlank ch = false) ∧ str.length ≤ 30000 := by
    constructor
    · intro heq
      constructor
      · intro ch hch
        rw [← heq] at hch
        have hmem := List.mem_takeWhile_imp ((List.take_sublist _ _).mem hch)
        simpa using hmem
      · rw [← heq]
        exact List.length_take_le _ _
    · rintro ⟨hclean, hlen⟩
      have hdrop : str.dropWhile scanBlank = str := by
        cases str with
        | nil => rfl
        | cons ch str => rw [List.dropWhile_cons, if_neg (by rw [hclean ch List.mem_cons_self]; decide)]
      have htake : (str.takeWhile fun ch => !scanBlank ch) = str := by
        rw [List.takeWhile_eq_self_iff]
        exact fun ch hch => by rw [hclean ch hch]; rfl
      rw [hdrop, htake, List.take_of_length_le hlen]
  generalize ((str.dropWhile scanBlank).takeWhile fun ch => !scanBlank ch).take 30000 = w at *
  constructor
  -- The text is stored, so it is the word that is taken.
  · rintro ⟨s', heq, hst⟩
    obtain ⟨rfl, rfl⟩ := Prod.mk.inj (Option.some.inj heq)
    have hne := hn.mp rfl
    rw [hs, if_pos hne] at hst
    have hw : w = str := by
      simpa using hst
    exact ⟨hw ▸ hne, hfull.mp hw⟩
  · rintro ⟨hne, hrest⟩
    have hw := hfull.mpr hrest
    rw [hw] at hn hs
    rw [if_pos hne] at hs
    exact ⟨s, by rw [hn.mpr hne], hs⟩

/-- The word `hi` is printed and scanned back. -/
theorem scan_word_hi :
    ∃ s, sscanf (sctabAt fun _ => 0) (Fdoprnt.fdoprnt letterArgs (single 's') []) (single 's') = some (1, s) ∧
    s.stored = [(0, .chars (['h', 'i'].map Char.toUInt8 ++ [0]))] :=
  (scan_word letterArgs (fun _ => 0) [] (by decide)
    (by intro ch hch; rcases List.mem_pair.mp hch with rfl | rfl <;> decide)).mpr
    ⟨by decide, by intro ch hch; rcases List.mem_pair.mp hch with rfl | rfl <;> decide, by decide⟩

/-! ## The number buffer -/

/-- `sizeof(numbuf)`. -/
abbrev NUMBUF : ℕ := 64

/-- The whole string. -/
def ScanIn.text (s : ScanIn) : CString := s.past.reverse ++ s.rest

/-- No letters in a row are too many for the number buffer, with a minus sign in front of them or without. -/
def FitsNumbuf (str : CString) : Prop :=
  ∀ l : CString, (∀ ch ∈ l, scanLetter 16 ch = true) → (l <:+: str → l.length ≤ 63) ∧
    ((45 :: l) <:+: str → l.length ≤ 62)

/-- Reading moves the place alone. -/
theorem ScanIn.text_sgetch (s : ScanIn) : s.sgetch.2.text = s.text := by
  obtain ⟨past, rest⟩ := s
  cases rest with
  | nil => rfl
  | cons ch rest =>
    show (ch :: past).reverse ++ rest = past.reverse ++ ch :: rest
    rw [List.reverse_cons, List.append_assoc, List.singleton_append]

/-- Putting a character back leaves the text that has been taken and that is still to come. -/
theorem ScanIn.text_sungetch (s : ScanIn) : s.sungetch.text = s.text := by
  obtain ⟨past, rest⟩ := s
  cases past with
  | nil => rfl
  | cons ch past =>
    show past.reverse ++ ch :: rest = (ch :: past).reverse ++ rest
    rw [List.reverse_cons, List.append_assoc, List.singleton_append]

/-- Putting a character back under a condition leaves the text as it is. -/
theorem ScanIn.text_unget (p : Prop) [Decidable p] (s : ScanIn) :
    (if p then s.sungetch else s).text = s.text := by
  split_ifs
  · exact s.text_sungetch
  · rfl

/-- The loop over blanks moves through the text, and leaves it as it is. -/
theorem Doscan.text_skipSpaces (past u : CString) : (skipSpaces past u).2.text = past.reverse ++ u := by
  rw [skipSpaces_eq, ScanIn.text_sgetch]
  show ((u.takeWhile scanBlank).reverse ++ past).reverse ++ u.dropWhile scanBlank = _
  rw [List.reverse_append, List.reverse_reverse, List.append_assoc, List.takeWhile_append_dropWhile]

/-- The look at a sign takes at most a character, and leaves the text as it is. -/
theorem Doscan.text_innumSign (len : ℤ) (look : ℤ × ScanIn) :
    (innumSign len look).2.2.2.2.text = look.2.text := by
  unfold innumSign
  split_ifs
  · exact look.2.text_sgetch
  · exact look.2.text_sgetch
  · rfl

/-- The loop of `_innum` over digits moves through the text, and leaves it as it is. -/
theorem Doscan.text_innumLoop (base : ℤ) (n : ℕ) (d : Digits) :
    (innumLoop base n d).look.2.text = d.look.2.text := by
  induction n generalizing d with
  | zero => rfl
  | succ n ih =>
    rw [innumLoop]
    split_ifs
    · rw [ih]
      exact d.look.2.text_sgetch
    · rfl

/-- The loop of `_instr` that skips moves through the text, and leaves it as it is. -/
theorem Doscan.text_instrSkip (skips : ℤ → Bool) (past u : CString) :
    (instrSkip skips past u).2.text = past.reverse ++ u := by
  induction u generalizing past with
  | nil => rfl
  | cons ch u ih =>
    have hmove : (ch :: past).reverse ++ u = past.reverse ++ ch :: u := by
      rw [List.reverse_cons, List.append_assoc, List.singleton_append]
    rw [instrSkip]
    split_ifs
    · rw [ih, hmove]
    · exact hmove

/-- The loop of `_instr` that stores characters leaves the text as it is. -/
theorem Doscan.text_instrLoop (stops : ℤ → Bool) (len ch : ℤ) (past u : CString) :
    (instrLoop stops len ch past u).2.2.2.text = past.reverse ++ u := by
  induction u generalizing len ch past with
  | nil =>
    rw [instrLoop]
    split_ifs <;> rfl
  | cons next u ih =>
    rw [instrLoop]
    split_ifs
    · rfl
    · rfl
    · dsimp only
      rw [ih, List.reverse_cons, List.append_assoc, List.singleton_append]

/-- A conversion moves the place alone. -/
theorem Doscan.text_innum (sctab : ℤ → UInt8) (ptr : Bool)
    (type : UInt8) (len : ℤ) (size : ScanSize) (s : ScanIn) :
    (innum sctab ptr type len size s).rd.text = s.text := by
  unfold innum
  by_cases htype : type = 'c'.toUInt8 ∨ type = 's'.toUInt8 ∨ type = '['.toUInt8
  · rw [if_pos htype]
    unfold instr
    dsimp only
    rw [ScanIn.text_unget, text_instrLoop]
    exact text_instrSkip _ s.past s.rest
  · rw [if_neg htype]
    dsimp only
    rw [apply_ite Scanned.rd, ite_self, ScanIn.text_unget, text_innumLoop, text_innumSign]
    exact text_skipSpaces s.past s.rest

/-- The parts of a string that a numeric conversion finds. -/
theorem scanSign_append (u : CString) :
    (scanSign u).2.1 ++ (scanSign u).2.2 = u ∧ ((scanSign u).1 = true → (scanSign u).2.1 = [45]) := by
  cases u with
  | nil => exact ⟨rfl, by rintro ⟨⟩⟩
  | cons ch u =>
    unfold scanSign
    dsimp only
    split_ifs with h₁
    · exact ⟨rfl, fun _ => by rw [h₁]⟩
    · exact ⟨rfl, by rintro ⟨⟩⟩
    · exact ⟨rfl, by rintro ⟨⟩⟩

/-- A conversion does not write outside the number buffer, if no letters in a row are too many. -/
theorem Doscan.innum_written (sctab : ℤ → UInt8) (ptr : Bool)
    (type : UInt8) (len : ℤ) (size : ScanSize) {s : ScanIn} (h : FitsNumbuf s.text) :
    (innum sctab ptr type len size s).written ≤ NUMBUF := by
  -- The other conversions do not use the number buffer.
  by_cases htype : type = 'c'.toUInt8 ∨ type = 's'.toUInt8 ∨ type = '['.toUInt8
  · have hinstr : innum sctab ptr type len size s = instr sctab ptr type len s := if_pos htype
    rw [hinstr]
    exact Nat.zero_le _
  · rw [(innum_eq htype sctab ptr len size s).2.2]
    obtain ⟨happend, hminus⟩ := scanSign_append (s.rest.dropWhile scanBlank)
    have hletters : ∀ ch ∈ (scanNumber type len s.rest).2, scanLetter 16 ch = true := by
      intro ch hch
      have hletter := scanRun_letter hch
      rwa [(scanLetter_iff.mp hletter).1] at hletter
    obtain ⟨hplain, hsigned⟩ := h _ hletters
    -- The digits that are taken stand one behind the other in the text.
    have hrun : (scanNumber type len s.rest).2 <+: (scanSign (s.rest.dropWhile scanBlank)).2.2 :=
      (List.take_prefix _ _).trans (List.takeWhile_prefix _)
    have hsuffix : s.rest.dropWhile scanBlank <:+ s.text :=
      (List.dropWhile_suffix _).trans (List.suffix_append _ _)
    have hinfix : (scanSign (s.rest.dropWhile scanBlank)).2.1 ++
        (scanNumber type len s.rest).2 <:+: s.text := by
      refine List.IsInfix.trans (List.IsPrefix.isInfix ?_) hsuffix.isInfix
      conv_rhs => rw [← happend]
      exact (List.prefix_append_right_inj _).mpr hrun
    -- The null behind them takes one byte more.
    have hone : ∀ b : Bool, (if b = true then 1 else 0) ≤ 1 := by decide
    have hlast := hone (ptr && decide ((if (scanNumber type len s.rest).1 = true then 1 else 0) +
      (scanNumber type len s.rest).2.length ≠ 0))
    unfold NUMBUF
    -- A sign is stored too, so the bound is that for a sign with letters behind it.
    by_cases hsign : (scanNumber type len s.rest).1 = true
    · rw [hminus hsign] at hinfix
      have hle := hsigned hinfix
      rw [if_pos hsign] at hlast ⊢
      omega
    · have hle := hplain ((List.suffix_append _ _).isInfix.trans hinfix)
      rw [if_neg hsign] at hlast ⊢
      omega

/-- What the scanner keeps, if no letters in a row are too many: nothing has been written outside
the number buffer. -/
structure ScanOk (str : CString) (s : ScanState) : Prop where
  /-- The string is the one that was given. -/
  text : s.rd.text = str
  /-- Each conversion has stayed within the number buffer. -/
  written : ∀ n ∈ s.written, n ≤ NUMBUF

/-- The main loop keeps it. -/
theorem Doscan.scanLoop_ok (hfits : FitsNumbuf str) (n : ℕ)
    (fmt : CString) {s : ScanState} (h : ScanOk str s) {r : ℤ × ScanState}
    (hr : scanLoop n fmt s = some r) : ScanOk str r.2 := by
  induction n generalizing fmt s with
  | zero => exact absurd hr (by rintro ⟨⟩)
  | succ n ih =>
    have hmove : ∀ rd : ScanIn, rd.text = s.rd.text → ScanOk str { s with rd } :=
      fun rd hrd => ⟨hrd.trans h.text, h.written⟩
    cases fmt with
    | nil =>
      obtain rfl := Option.some.inj hr
      exact h
    | cons ch fmt =>
      rw [scanLoop] at hr
      by_cases hpercent : ch = '%'.toUInt8 ∧ fmt.head? ≠ some '%'.toUInt8
      · rw [if_pos hpercent] at hr
        cases hconv : scanConv s.sctab fmt with
        | none =>
          rw [hconv] at hr
          exact absurd hr (by rintro ⟨⟩)
        | some w =>
          obtain ⟨v, fmt', sctab⟩ := w
          rw [hconv] at hr
          dsimp only at hr
          have hnext :
              ScanOk str (s.convert sctab v (innum sctab (!v.suppress) v.type v.len v.size s.rd)) := by
            refine ⟨(text_innum ..).trans h.text, fun x hx => ?_⟩
            rcases List.mem_append.mp hx with hx | hx
            · exact h.written x hx
            · rw [List.mem_singleton.mp hx]
              apply innum_written
              rwa [h.text]
          split_ifs at hr
          · obtain rfl := Option.some.inj hr
            exact h
          · obtain rfl := Option.some.inj hr
            exact hnext
          · obtain rfl := Option.some.inj hr
            exact hnext
          · exact ih fmt' hnext hr
      rw [if_neg hpercent] at hr
      by_cases hspace : ch = 32 ∨ ch = 10 ∨ ch = 9
      · rw [if_pos hspace] at hr
        apply ih fmt _ hr
        apply hmove
        rw [ScanIn.text_unget]
        exact text_skipSpaces s.rd.past s.rd.rest
      · rw [if_neg hspace] at hr
        dsimp only at hr
        generalize (if ch = '%'.toUInt8 then fmt.tail else fmt) = fmt' at hr
        split_ifs at hr
        · obtain rfl := Option.some.inj hr
          exact hmove _ s.rd.text_sgetch
        · obtain rfl := Option.some.inj hr
          apply hmove
          rw [ScanIn.text_sungetch, ScanIn.text_sgetch]
        · exact ih _ (hmove _ s.rd.text_sgetch) hr

/-- A string of at most 62 characters has not too many letters in a row. -/
theorem FitsNumbuf.of_length (h : str.length ≤ 62) : FitsNumbuf str := by
  intro l _
  constructor
  · intro hinfix
    have hle := hinfix.length_le
    omega
  · intro hinfix
    have hle := hinfix.length_le
    rw [List.length_cons] at hle
    omega

/-- When a string without too many hexadecimal letters in a row is scanned, nothing is written
outside the number buffer, whatever the format; and `%x` alone does so exactly if it finds at most
63 characters. A format with a class that is not closed has no result (`_getccl` then reads behind
the format), and nothing is said of it; every format without a class has one (`sscanf_isSome`). -/
theorem numbuf_kept (sctab : ℤ → UInt8) (str : CString) :
    (FitsNumbuf str → ∀ fmt r, sscanf sctab str fmt = some r → ∀ n ∈ r.2.written, n ≤ NUMBUF) ∧
      ∃ r, sscanf sctab str (single 'x') = some r ∧ ((∀ n ∈ r.2.written, n ≤ NUMBUF) ↔
        (if (scanNumber 'x'.toUInt8 30000 str).1 then 1 else 0) +
          (scanNumber 'x'.toUInt8 30000 str).2.length ≤ 63) := by
  constructor
  · intro hfits fmt r hr
    exact (scanLoop_ok hfits _ fmt ⟨rfl, by rintro n ⟨⟩⟩ hr).written
  · obtain ⟨n, s, hscan, -, -, hwritten⟩ := sscanf_single (f := 'x') (by tauto) sctab str
    refine ⟨(n, s), hscan, ?_⟩
    have htype : ¬ ('x'.toUInt8 = 'c'.toUInt8 ∨ 'x'.toUInt8 = 's'.toUInt8 ∨ 'x'.toUInt8 = '['.toUInt8) := by
      decide
    have hinnum := (innum_eq htype sctab true 30000 .regular ⟨[], str⟩).2.2
    dsimp only at hinnum
    rw [hwritten, List.forall_mem_singleton, hinnum]
    generalize (if (scanNumber 'x'.toUInt8 30000 str).1 = true then 1 else 0) +
      (scanNumber 'x'.toUInt8 30000 str).2.length = np
    unfold NUMBUF
    by_cases hnp : np = 0
    · rw [hnp]
      decide
    · rw [if_pos (by simpa using hnp)]
      omega

/-- The string `ff e` is scanned with `%x %x`: two numbers are found, and three and two characters
of the number buffer are written. -/
theorem numbuf_kept_pair : ∃ r, sscanf (fun _ => 0) [102, 102, 32, 101]
    [37, 120, 32, 37, 120] = some r ∧ r.1 = 2 ∧ r.2.written = [3, 2] ∧
    ∀ n ∈ r.2.written, n ≤ NUMBUF := by
  obtain ⟨r, hr⟩ : ∃ r, sscanf (fun _ => 0) [102, 102, 32, 101] [37, 120, 32, 37, 120] = some r := by
    apply sscanf_isSome
    decide
  have hrun : (sscanf (fun _ => 0) [102, 102, 32, 101] [37, 120, 32, 37, 120]).map
      (fun r => (r.1, r.2.written)) = some (2, [3, 2]) := by
    decide
  rw [hr] at hrun
  obtain ⟨hn, hwritten⟩ := Prod.mk.inj (Option.some.inj hrun)
  exact ⟨r, hr, hn, hwritten, (numbuf_kept (fun _ => 0) [102, 102, 32, 101]).1
    (.of_length (by decide)) _ r hr⟩

end Xinu
