import Xinu.Fmt.Digits

/-!
# What the formatters print

The rounds of the main loop follow the items of the format, which do not depend on what is printed.
So both formatters print the same items, and they differ only where a conversion does.
-/

namespace Xinu

open Numerals Doprnt

variable {args : FmtArgs} {v : FmtConv}

/-- The cases that both formatters have. -/
def Conv.Shared (conv : Conv) : Prop := conv ≠ .f ∧ conv ≠ .H ∧ conv ≠ .h ∧ conv ≠ .other

instance (conv : Conv) : Decidable conv.Shared := inferInstanceAs (Decidable (_ ∧ _ ∧ _ ∧ _))

/-- The arguments that a case takes. -/
def Doprnt.taken : Conv → ℕ
  | .f | .H | .h => 2
  | .other => 0
  | _ => 1

/-- The arguments that a case takes. -/
def Fdoprnt.taken : Conv → ℕ
  | .f | .H | .h | .other => 0
  | _ => 1

/-- The items of a format. -/
def fmtItems (taken : Conv → ℕ) (args : FmtArgs) : ℕ → CString → ℕ → List FmtItem
  | 0, _, _ => []
  | n + 1, fmt, argno =>
    match fmtItem args fmt argno with
    | none => []
    | some (.plain ch, fmt) => .plain ch :: fmtItems taken args n fmt argno
    | some (.conversion v, fmt) =>
      .conversion v :: fmtItems taken args n fmt (v.argno + taken (Conv.ofChar v.f))

/-- The items of a format as `_doprnt` takes its arguments. -/
def Doprnt.items (args : FmtArgs) (fmt : CString) : List FmtItem := fmtItems taken args fmt.length fmt 0

/-- The items of a format as `_fdoprnt` takes its arguments. -/
def Fdoprnt.items (args : FmtArgs) (fmt : CString) : List FmtItem := fmtItems taken args fmt.length fmt 0

/-- What follows the digits of a number stands behind them in the format. -/
theorem fmtDigits_suffix (n : ℤ) (fmt : CString) : (fmtDigits n fmt).2 <:+ fmt := by
  induction fmt generalizing n with
  | nil => exact List.suffix_refl _
  | cons ch fmt ih =>
    rw [fmtDigits]
    split_ifs
    · exact (ih _).trans (List.suffix_cons ch fmt)
    · exact List.suffix_refl _

/-- A number, digits or a star, takes nothing but characters of the format: what is left is not longer. -/
theorem fmtNumber_length (args : FmtArgs) (fmt : CString) (argno : ℕ) :
    (fmtNumber args fmt argno).2.1.length ≤ fmt.length := by
  unfold fmtNumber
  split_ifs
  · rw [List.length_tail]
    omega
  · exact (fmtDigits_suffix 0 fmt).length_le

/-- What stands before the format character of a conversion does not make the format longer. -/
theorem fmtSpec_length (args : FmtArgs) (fmt : CString) (argno : ℕ) :
    (fmtSpec args fmt argno).2.length ≤ fmt.length := by
  have htail : ∀ (p : Prop) [Decidable p] (l : CString), (if p then l.tail else l).length ≤ l.length := by
    intro p _ l
    split_ifs
    · rw [List.length_tail]
      omega
    · exact le_refl _
  have hfmax : ∀ (p : Prop) [Decidable p] (l : CString) (n m : ℕ),
      (if p then fmtNumber args l.tail n else (0, l, m)).2.1.length ≤ l.length := by
    intro p _ l n m
    split_ifs
    · apply le_trans (fmtNumber_length args l.tail n)
      rw [List.length_tail]
      omega
    · exact le_refl _
  unfold fmtSpec
  dsimp only
  apply le_trans (hfmax _ _ _ _)
  apply le_trans (fmtNumber_length args _ argno)
  exact le_trans (htail _ _) (htail _ _)

/-- Every round takes a character of the format. -/
theorem fmtItem_length {fmt fmt' : CString} {argno : ℕ}
    {i : FmtItem} (h : fmtItem args fmt argno = some (i, fmt')) :
    fmt'.length < fmt.length := by
  cases fmt with
  | nil => exact absurd h (by rintro ⟨⟩)
  | cons ch fmt =>
    have htail : fmt.tail.length ≤ fmt.length := by
      rw [List.length_tail]
      omega
    have hspec := fmtSpec_length args fmt argno
    rw [fmtItem] at h
    dsimp only at h
    rw [List.length_cons]
    split_ifs at h
    · obtain ⟨-, rfl⟩ := Prod.mk.inj (Option.some.inj h)
      omega
    · obtain ⟨-, rfl⟩ := Prod.mk.inj (Option.some.inj h)
      omega
    · obtain ⟨-, rfl⟩ := Prod.mk.inj (Option.some.inj h)
      exact Nat.succ_pos _
    · obtain ⟨-, rfl⟩ := Prod.mk.inj (Option.some.inj h)
      rw [List.length_tail]
      omega

/-- As many rounds as the format has characters are enough. -/
theorem prntLoop_enough (switch : FmtArgs → FmtConv → CString → Converted)
    {n : ℕ} {fmt : CString} (h : fmt.length ≤ n) (argno : ℕ)
    (string : CString) :
    prntLoop switch args n fmt argno string = prntLoop switch args fmt.length fmt argno string := by
  -- For any two numbers of rounds that are enough, by induction on one of them.
  have hgen : ∀ m n : ℕ, ∀ fmt : CString, fmt.length ≤ m → fmt.length ≤ n → ∀ argno string,
      prntLoop switch args m fmt argno string = prntLoop switch args n fmt argno string := by
    intro m
    induction m with
    | zero =>
      intro n fmt hm hn argno string
      obtain rfl : fmt = [] := List.length_eq_zero_iff.mp (Nat.le_zero.mp hm)
      cases n <;> rfl
    | succ m ih =>
      intro n fmt hm hn argno string
      cases n with
      | zero =>
        obtain rfl : fmt = [] := List.length_eq_zero_iff.mp (Nat.le_zero.mp hn)
        rfl
      | succ n =>
        rw [prntLoop, prntLoop]
        cases hitem : fmtItem args fmt argno with
        | none => rfl
        | some r =>
          obtain ⟨i, fmt'⟩ := r
          -- Every item takes at least one character of the format.
          have hlt := fmtItem_length hitem
          cases i with
          | plain ch =>
            dsimp only
            rw [ih n fmt' (by omega) (by omega)]
          | conversion v =>
            dsimp only
            rw [ih n fmt' (by omega) (by omega)]
  exact hgen n fmt.length fmt h (le_refl _) argno string

/-- The rounds of the loop print the items of the format one by one, each with the arguments that
the conversions before it have left. -/
theorem prntLoop_items {switch : FmtArgs → FmtConv → CString → Converted} {taken : Conv → ℕ}
    (h : ∀ v string, (switch args v string).argno = v.argno + taken (Conv.ofChar v.f))
    (n : ℕ) (fmt : CString) (argno : ℕ) (string : CString) :
    List.Forall₂ (fun i p => ∃ string, p = piece switch args string i) (fmtItems taken args n fmt argno)
      (prntLoop switch args n fmt argno string) := by
  induction n generalizing fmt argno string with
  | zero => exact .nil
  | succ n ih =>
    rw [fmtItems, prntLoop]
    cases fmtItem args fmt argno with
    | none => exact .nil
    | some r =>
      obtain ⟨i, fmt'⟩ := r
      cases i with
      | plain ch => exact .cons ⟨string, rfl⟩ (ih ..)
      | conversion v =>
        dsimp only
        rw [← h v string]
        exact .cons ⟨string, rfl⟩ (ih ..)

/-- The arguments of the cases that the formatters share. -/
theorem Doprnt.cases_argno (f g : ℤ → CString) (args : FmtArgs) (v : FmtConv) (string : CString) :
    (Doprnt.cases f g args v string).argno = v.argno + Fdoprnt.taken (Conv.ofChar v.f) := by
  unfold Doprnt.cases
  cases Conv.ofChar v.f <;> rfl

/-- The pieces that `_doprnt` prints are those of the items of the format, one by one. -/
theorem Doprnt.pieces_items (args : FmtArgs) (fmt string : CString) :
    List.Forall₂ (fun i p => ∃ string, p = piece switch args string i)
    (items args fmt) (pieces args fmt string) := by
  apply prntLoop_items
  intro v string
  have hcases := cases_argno prtl10 prtl10 args v string
  unfold switch
  cases hc : Conv.ofChar v.f <;> rw [hc] at hcases
  case f | H | h => rfl
  all_goals exact hcases

/-- The pieces that `_fdoprnt` prints are those of the items of the format, one by one. -/
theorem Fdoprnt.pieces_items (args : FmtArgs) (fmt string : CString) :
    List.Forall₂ (fun i p => ∃ string, p = piece switch args string i)
    (items args fmt) (pieces args fmt string) := by
  apply prntLoop_items
  exact fun v string => cases_argno ..

/-! ## The field -/

/-- How many characters of a string are shown. -/
def fieldLength (fmax : ℤ) (n : ℕ) : ℤ :=
  if inRange fmax ≠ 0 ∧ (n : ℤ) > inRange fmax then inRange fmax else n

/-- How many fill characters stand beside it. -/
def fieldLeading (fmin fmax : ℤ) (sign : Bool) (n : ℕ) : ℕ :=
  (if inRange fmax ≠ 0 ∨ inRange fmin ≠ 0 then (if inRange fmin ≠ 0 then inRange fmin - fieldLength fmax n
    else 0) - (if sign then 1 else 0)
    else 0 : ℤ).toNat

/-- The fill characters. -/
def fillChars (zero : Bool) (n : ℕ) : CString := List.replicate n (if zero then '0'.toUInt8 else ' '.toUInt8)

/-- What stands in front of a string in its field. -/
def fieldFront (leftjust zero sign : Bool) (n : ℕ) : CString :=
  (if sign && zero then ['-'.toUInt8] else []) ++ (if leftjust then [] else fillChars zero n) ++
    (if sign && !zero then ['-'.toUInt8] else [])

/-- What stands behind it. -/
def fieldBack (leftjust zero : Bool) (n : ℕ) : CString := if leftjust then fillChars zero n else []

/-- The parts of a field. -/
theorem field_eq (leftjust zero : Bool) (fmin fmax : ℤ) (sign : Bool) (str : CString) :
    Doprnt.field leftjust zero fmin fmax sign str =
    fieldFront leftjust zero sign (fieldLeading fmin fmax sign str.length) ++ str.take
      (fieldLength fmax str.length).toNat ++
      fieldBack leftjust zero (fieldLeading fmin fmax sign str.length) := rfl

/-- At least one character of a string is shown. -/
theorem fieldLength_pos {n : ℕ} (hn : 0 < n) (fmax : ℤ) : 0 < (fieldLength fmax n).toNat := by
  unfold fieldLength inRange MAXSTR
  split_ifs <;> omega

/-- Two strings of one length take fields of one length, which differ if the strings differ in the
first character. -/
theorem field_same_length {str str' : CString} (h : str.length = str'.length)
    (leftjust zero : Bool) (fmin fmax : ℤ) (sign : Bool) :
    (Doprnt.field leftjust zero fmin fmax sign str).length =
      (Doprnt.field leftjust zero fmin fmax sign str').length ∧
      (str.head? ≠ str'.head? → Doprnt.field leftjust zero fmin fmax sign str ≠
        Doprnt.field leftjust zero fmin fmax sign str') := by
  rw [field_eq, field_eq, ← h]
  constructor
  · rw [List.length_append, List.length_append, List.length_append,
      List.length_append, List.length_take, List.length_take, h]
  · intro hhead heq
    have htake := List.append_cancel_left (List.append_cancel_right heq)
    apply hhead
    cases str with
    | nil => rw [List.length_eq_zero_iff.mp h.symm]
    | cons ch str =>
      have hpos : 0 < (fieldLength fmax (str.length + 1)).toNat :=
        fieldLength_pos (Nat.succ_pos str.length) fmax
      have hfirst : ∀ l : CString, (l.take (fieldLength fmax (str.length + 1)).toNat).head? = l.head? := by
        intro l
        rw [List.head?_take, if_neg (by omega)]
      rw [← hfirst, ← hfirst str', ← List.length_cons, htake]

/-! ## The two formatters -/

/-- The `switch` of `_doprnt` in the cases that it shares. -/
theorem Doprnt.switch_eq (h : (Conv.ofChar v.f).Shared) (args : FmtArgs) (string : CString) :
    switch args v string = Doprnt.cases prtl10 prtl10 args v string := by
  obtain ⟨hf, hH, hh, -⟩ := h
  unfold switch
  cases hc : Conv.ofChar v.f <;> first | rfl | (exfalso; rw [hc] at hf hH hh; simp at hf hH hh)

/-- What `_fdoprnt` stores in `case 'd'`. -/
theorem Fdoprnt.decimal_eq {num : ℤ} (h₁ : -2 ^ 31 ≤ num) (h₂ : num < 2 ^ 31) :
    prtl10 (if num < 0 then int32 (-num) else num) =
    if num = -2 ^ 31 then ['.', '/', ',', ')', ',', '(', '-', '*', ',', '('].map Char.toUInt8
      else (numeral 10 num.natAbs).map decimals := by
  by_cases hmin : num = -2 ^ 31
  · have hwrap : int32 (-num) = -2 ^ 31 := by
      rw [hmin]
      rfl
    rw [if_pos (by omega), if_pos hmin, hwrap, prtl10_min]
  · have habs : (if num < 0 then int32 (-num) else num) = (num.natAbs : ℤ) := by
      split_ifs with hneg
      · rw [int32_of_mem (by omega) (by omega)]
        omega
      · omega
    rw [if_neg hmin, habs, prtl10_eq (by omega)]

/-- The two formatters put out the same number of characters in a shared case, and the same
characters but for one argument. -/
theorem pieces_agree (h : (Conv.ofChar v.f).Shared) (args : FmtArgs) (string string' : CString) :
    let p := piece Doprnt.switch args string (.conversion v)
    let p' := piece Fdoprnt.switch args string' (.conversion v)
    p.out.length = p'.out.length ∧ (p.out = p'.out ↔
      (Conv.ofChar v.f = .d → args.word v.argno ≠ -2 ^ 31)) := by
  obtain ⟨hlow, hhigh⟩ := args.word_mem v.argno
  dsimp only [piece]
  rw [Doprnt.switch_eq h]
  unfold Fdoprnt.switch Doprnt.cases
  cases hc : Conv.ofChar v.f
  case f | H | h | other =>
    rw [hc] at h
    exact absurd h (by decide)
  case d =>
    have hdoprnt := Doprnt.prtl10_eq hlow hhigh
    have hfdoprnt := Fdoprnt.decimal_eq hlow hhigh
    dsimp only [number]
    rw [List.nil_append, List.nil_append, hdoprnt, hfdoprnt]
    -- The least number has no positive counterpart: `_doprnt` prints ten wrong characters for it.
    by_cases hmin : args.word v.argno = -2 ^ 31
    · have hlen : ((numeral 10 (args.word v.argno).natAbs).map decimals).length =
          (['.', '/', ',', ')', ',', '(', '-', '*', ',', '('].map Char.toUInt8).length := by
        rw [hmin]
        decide
      have hfirst : ((numeral 10 (args.word v.argno).natAbs).map decimals).head? ≠
          (['.', '/', ',', ')', ',', '(', '-', '*', ',', '('].map Char.toUInt8).head? := by
        rw [hmin]
        decide
      obtain ⟨hsame, hdiff⟩ :=
        field_same_length hlen v.leftjust v.zero v.fmin v.fmax (decide (args.word v.argno < 0))
      rw [if_pos hmin]
      exact ⟨hsame, fun heq => absurd heq (hdiff hfirst), fun hne => absurd hmin (hne rfl)⟩
    · rw [if_neg hmin]
      exact ⟨rfl, fun _ _ => hmin, fun _ => rfl⟩
  -- `%u` prints the same whichever `_prtl10` it uses.
  case u =>
    have hdoprnt :=
      prtu_eq (f := Doprnt.prtl10) (fun n hn => Doprnt.prtl10_eq (by omega) (by omega)) hlow hhigh
    have hfdoprnt := prtu_eq (f := Fdoprnt.prtl10) (fun n hn => Fdoprnt.prtl10_eq hn) hlow hhigh
    dsimp only
    rw [hdoprnt, hfdoprnt]
    exact ⟨rfl, by rintro _ ⟨⟩, fun _ => rfl⟩
  all_goals exact ⟨rfl, by rintro _ ⟨⟩, fun _ => rfl⟩

/-- Items that the formatters share are printed alike, but for one argument. -/
theorem flatMap_agree {items : List FmtItem} {ps qs : List Piece}
    (hp : List.Forall₂ (fun i p => ∃ string, p = piece Doprnt.switch args string i) items ps)
    (hq : List.Forall₂ (fun i p => ∃ string, p = piece Fdoprnt.switch args string i) items qs)
    (h : ∀ v, .conversion v ∈ items → (Conv.ofChar v.f).Shared) : ps.flatMap Piece.out =
      qs.flatMap Piece.out ↔
      ∀ v, .conversion v ∈ items → Conv.ofChar v.f = .d → args.word v.argno ≠ -2 ^ 31 := by
  induction hp generalizing qs with
  | nil =>
    cases hq
    exact ⟨by rintro _ v ⟨⟩, fun _ => rfl⟩
  | @cons i p items ps hi hps ih =>
    cases hq with
    | @cons _ q _ qs hj hqs =>
      obtain ⟨string, rfl⟩ := hi
      obtain ⟨string', rfl⟩ := hj
      -- The items are compared one by one, as the pieces have the same lengths.
      have hrest := ih hqs fun v hv => h v (List.mem_cons_of_mem _ hv)
      rw [List.flatMap_cons, List.flatMap_cons]
      cases i with
      | plain ch =>
        dsimp only [piece]
        rw [List.append_cancel_left_eq, hrest]
        constructor
        · intro hall v hv
          rcases List.mem_cons.mp hv with hv | hv
          · exact absurd hv (by rintro ⟨⟩)
          · exact hall v hv
        · exact fun hall v hv => hall v (List.mem_cons_of_mem _ hv)
      | conversion w =>
        obtain ⟨hlen, hout⟩ := pieces_agree (h w List.mem_cons_self) args string string'
        constructor
        · intro heq v hv
          -- The pieces in front have the same length, so equal texts have equal pieces.
          obtain ⟨hfirst, htail⟩ := List.append_inj heq hlen
          rcases List.mem_cons.mp hv with hv | hv
          · obtain rfl := FmtItem.conversion.inj hv
            exact hout.mp hfirst
          · exact hrest.mp htail v hv
        · intro hall
          rw [hout.mpr (hall w List.mem_cons_self), hrest.mpr fun v hv => hall v (List.mem_cons_of_mem _ hv)]

/-- Formats of shared conversions have the same items in both formatters. -/
theorem fmtItems_same (n : ℕ) (fmt : CString) (argno : ℕ)
    (h : ∀ v, .conversion v ∈ fmtItems Doprnt.taken args n fmt argno → (Conv.ofChar v.f).Shared) :
    fmtItems Fdoprnt.taken args n fmt argno = fmtItems Doprnt.taken args n fmt argno := by
  induction n generalizing fmt argno with
  | zero => rfl
  | succ n ih =>
    rw [fmtItems] at h
    rw [fmtItems, fmtItems]
    cases hitem : fmtItem args fmt argno with
    | none => rfl
    | some r =>
      obtain ⟨i, fmt'⟩ := r
      rw [hitem] at h
      cases i with
      | plain ch =>
        dsimp only at h ⊢
        rw [ih fmt' argno fun v hv => h v (List.mem_cons_of_mem _ hv)]
      | conversion v =>
        have htaken : Fdoprnt.taken (Conv.ofChar v.f) = Doprnt.taken (Conv.ofChar v.f) := by
          have hshared := h v List.mem_cons_self
          cases hc : Conv.ofChar v.f
          case f | H | h =>
            rw [hc] at hshared
            exact absurd hshared (by decide)
          all_goals rfl
        dsimp only at h ⊢
        rw [htaken, ih fmt' _ fun w hw => h w (List.mem_cons_of_mem _ hw)]

/-- On formats of conversions that both have, the two formatters put out the same characters exactly
if no `%d` takes the least number. This is about conversion buffers that are as long as is needed:
the code has 20 bytes for them, which a `%b` with a number from `2 ^ 19` on overruns. -/
theorem formatters_agree (args : FmtArgs) (fmt string string' : CString)
    (h : ∀ v, .conversion v ∈ Doprnt.items args fmt → (Conv.ofChar v.f).Shared) :
    Doprnt.doprnt args fmt string = Fdoprnt.fdoprnt args fmt string' ↔
      ∀ v, .conversion v ∈ Doprnt.items args fmt → Conv.ofChar v.f = .d → args.word v.argno ≠ -2 ^ 31 := by
  have hq := Fdoprnt.pieces_items args fmt string'
  rw [show Fdoprnt.items args fmt = Doprnt.items args fmt from fmtItems_same _ _ _ h] at hq
  exact flatMap_agree (Doprnt.pieces_items args fmt string) hq h

/-- The arguments `-42` and `46`, again and again. -/
def twoArgs : FmtArgs where
  word i := if i % 2 = 0 then -42 else 46
  text _ := []
  dbl _ _ := (false, [])
  word_mem i := by split_ifs <;> omega

/-- The format `%5d%%%-08x`. -/
def twoFormat : CString := ['%', '5', 'd', '%', '%', '%', '-', '0', '8', 'x'].map Char.toUInt8

/-- Its conversions, in both formatters. -/
theorem twoFormat_items : (∀ v, .conversion v ∈ Doprnt.items twoArgs twoFormat →
      v = ⟨'d'.toUInt8, false, false, 5, false, 0, 0⟩ ∨ v = ⟨'x'.toUInt8, true, true, 8, false, 0, 1⟩) ∧
    Fdoprnt.items twoArgs twoFormat = Doprnt.items twoArgs twoFormat := by
  have hitems : Doprnt.items twoArgs twoFormat = [.conversion ⟨'d'.toUInt8, false, false, 5, false, 0, 0⟩,
      .plain '%'.toUInt8, .conversion ⟨'x'.toUInt8, true, true, 8, false, 0, 1⟩] := by decide
  refine ⟨fun v hv => ?_, by decide⟩
  rw [hitems] at hv
  simpa using hv

/-! ## The conversion buffer -/

/-- `sizeof(string)`. -/
abbrev Doprnt.BUFSIZE : ℕ := 20

/-- The digits of a number below a power. -/
theorem length_digits_le {b k n : ℕ} {char : ℕ → UInt8} (hb : 1 < b) (hk : 0 < k) (hn : n < b ^ k) :
    ((numeral b n).map char).length ≤ k := by
  rw [List.length_map]
  exact (length_numeral_le_iff hb hk).mpr hn

/-- An argument as an unsigned number. -/
theorem uint32_lt (num : ℤ) : uint32 num < 2 ^ 32 := by
  unfold uint32
  omega

/-- What the shared cases write: only `%b` can write more than the buffer holds. -/
theorem Doprnt.cases_written {f g : ℤ → CString}
    (hf : ∀ n : ℕ, n < 2 ^ 31 → f n = (numeral 10 n).map decimals)
    (hg : (g (args.word v.argno)).length ≤ 10) (string : CString) :
    (Doprnt.cases f g args v string).written ≤ BUFSIZE ↔
    (Conv.ofChar v.f = .b → uint32 (args.word v.argno) < 2 ^ 19) := by
  obtain ⟨hlow, hhigh⟩ := args.word_mem v.argno
  have hlt := uint32_lt (args.word v.argno)
  -- Eleven characters and a null fit in the buffer.
  have hnumber : ∀ (sign : Bool) (fmax : ℤ) {str : CString}, str.length ≤ 11 →
      (number v sign fmax str).written ≤ BUFSIZE := by
    intro sign fmax str hstr
    dsimp only [number, BUFSIZE]
    omega
  have hnibbles : ∀ char : ℕ → UInt8, ((numeral 16 (uint32 (args.word v.argno))).map char).length ≤
      11 := fun char =>
    le_trans (length_digits_le (k := 8) (by decide) (by decide) (by omega)) (by decide)
  unfold Doprnt.cases
  cases hc : Conv.ofChar v.f
  -- `%b` is the only case with a longer numeral.
  case b =>
    have hiff := length_numeral_le_iff (b := 2) (k := 19) (n := uint32 (args.word v.argno))
      (by decide) (by decide)
    dsimp only [number, BUFSIZE]
    rw [prtl2_eq, List.length_map]
    constructor
    · exact fun hle _ => hiff.mp (by omega)
    · intro h
      have hle := hiff.mpr (h rfl)
      omega
  case d => exact ⟨by rintro _ ⟨⟩, fun _ => hnumber _ _ (le_trans hg (by decide))⟩
  case u =>
    dsimp only
    rw [prtu_eq hf hlow hhigh]
    exact ⟨by rintro _ ⟨⟩, fun _ =>
      hnumber _ _ (le_trans (length_digits_le (k := 10) (by decide) (by decide) (by omega)) (by decide))⟩
  case o =>
    dsimp only
    rw [prtl8_eq]
    exact ⟨by rintro _ ⟨⟩, fun _ => hnumber _ _ (length_digits_le (by decide) (by decide) (by omega))⟩
  case X =>
    dsimp only
    rw [prtX16_eq]
    exact ⟨by rintro _ ⟨⟩, fun _ => hnumber _ _ (hnibbles _)⟩
  case x =>
    dsimp only
    rw [prtl16_eq]
    exact ⟨by rintro _ ⟨⟩, fun _ => hnumber _ _ (hnibbles _)⟩
  case c => exact ⟨by rintro _ ⟨⟩, fun _ => (by decide : 2 ≤ BUFSIZE)⟩
  all_goals exact ⟨by rintro _ ⟨⟩, fun _ => Nat.zero_le _⟩

/-- What `_doprnt` writes; doubles are left out. -/
theorem Doprnt.switch_written (hf : Conv.ofChar v.f ≠ .f) (string : CString) :
    (switch args v string).written ≤ BUFSIZE ↔
    (Conv.ofChar v.f = .b → uint32 (args.word v.argno) < 2 ^ 19) := by
  obtain ⟨hlow, hhigh⟩ := args.word_mem v.argno
  have hdecimal : (prtl10 (args.word v.argno)).length ≤ 10 := by
    rw [prtl10_eq hlow hhigh]
    exact length_digits_le (by decide) (by decide) (by omega)
  have hcases : (Doprnt.cases prtl10 prtl10 args v string).written ≤ BUFSIZE ↔
      (Conv.ofChar v.f = .b → uint32 (args.word v.argno) < 2 ^ 19) :=
    cases_written (fun n hn => prtl10_eq (by omega) (by omega)) hdecimal string
  -- `%H` and `%h` write two numerals of at most eight digits.
  have htwice : ∀ first second : CString, second.length ≤ 8 →
      (numberTwice v first second).written ≤ BUFSIZE := by
    intro first second hsecond
    dsimp only [numberTwice, BUFSIZE]
    omega
  have hnibbles :
      ∀ char : ℕ → UInt8, ((numeral 16 (uint32 (args.word (v.argno + 1)))).map char).length ≤ 8 := by
    intro char
    have hlt := uint32_lt (args.word (v.argno + 1))
    exact length_digits_le (by decide) (by decide) (by omega)
  unfold switch
  cases hc : Conv.ofChar v.f
  case f => exact absurd hc hf
  case H =>
    dsimp only
    rw [prtX16_eq (args.word (v.argno + 1))]
    exact ⟨by rintro _ ⟨⟩, fun _ => htwice _ _ (hnibbles _)⟩
  case h =>
    dsimp only
    rw [prtl16_eq (args.word (v.argno + 1))]
    exact ⟨by rintro _ ⟨⟩, fun _ => htwice _ _ (hnibbles _)⟩
  all_goals
    rw [hc] at hcases
    exact hcases

/-- A conversion of `_fdoprnt` writes within its buffer, unless it is `%b` with a number of 20 or
more binary digits. -/
theorem Fdoprnt.switch_written (string : CString) :
    (switch args v string).written ≤ BUFSIZE ↔
    (Conv.ofChar v.f = .b → uint32 (args.word v.argno) < 2 ^ 19) := by
  obtain ⟨hlow, hhigh⟩ := args.word_mem v.argno
  apply cases_written
  · exact fun n hn => prtl10_eq hn
  · rw [decimal_eq hlow hhigh]
    split_ifs
    · decide
    · exact length_digits_le (by decide) (by decide) (by omega)

/-- What holds of every round holds of every item. -/
theorem forall_pieces_iff {switch : FmtArgs → FmtConv → CString → Converted}
    {items : List FmtItem} {ps : List Piece} {p : FmtConv → Prop}
    (h : List.Forall₂ (fun i p => ∃ string, p = piece switch args string i) items ps)
    (hp : ∀ v, .conversion v ∈ items → ∀ string, (switch args v string).written ≤ BUFSIZE ↔ p v) :
    (∀ q ∈ ps, q.written ≤ BUFSIZE) ↔ ∀ v, .conversion v ∈ items → p v := by
  induction h with
  | nil => exact ⟨by rintro _ v ⟨⟩, by rintro _ q ⟨⟩⟩
  | @cons i q items ps hi hps ih =>
    obtain ⟨string, rfl⟩ := hi
    have hrest := ih fun v hv => hp v (List.mem_cons_of_mem _ hv)
    rw [List.forall_mem_cons, hrest]
    cases i with
    | plain ch =>
      constructor
      · rintro ⟨-, hall⟩ v hv
        rcases List.mem_cons.mp hv with hv | hv
        · exact absurd hv (by rintro ⟨⟩)
        · exact hall v hv
      · exact fun hall => ⟨Nat.zero_le _, fun v hv => hall v (List.mem_cons_of_mem _ hv)⟩
    | conversion w =>
      have hfirst := hp w List.mem_cons_self string
      constructor
      · rintro ⟨hw, hall⟩ v hv
        rcases List.mem_cons.mp hv with hv | hv
        · obtain rfl := FmtItem.conversion.inj hv
          exact hfirst.mp hw
        · exact hall v hv
      · exact fun hall =>
          ⟨hfirst.mpr (hall w List.mem_cons_self), fun v hv => hall v (List.mem_cons_of_mem _ hv)⟩

/-- Neither formatter writes outside its conversion buffer, doubles left out, exactly if every
number that is printed in binary is below `2 ^ 19`. -/
theorem buffer_kept (args : FmtArgs) (fmt string : CString)
    (h : ∀ v, .conversion v ∈ Doprnt.items args fmt → Conv.ofChar v.f ≠ .f) :
    ((∀ p ∈ Doprnt.pieces args fmt string, p.written ≤ BUFSIZE) ↔
        ∀ v, .conversion v ∈ Doprnt.items args fmt → Conv.ofChar v.f = .b →
        uint32 (args.word v.argno) < 2 ^ 19) ∧
      ((∀ p ∈ Fdoprnt.pieces args fmt string, p.written ≤ BUFSIZE) ↔
        ∀ v, .conversion v ∈ Fdoprnt.items args fmt → Conv.ofChar v.f = .b →
        uint32 (args.word v.argno) < 2 ^ 19) :=
  ⟨forall_pieces_iff (Doprnt.pieces_items args fmt string) fun v hv string =>
    Doprnt.switch_written (h v hv) string,
    forall_pieces_iff (Fdoprnt.pieces_items args fmt string) fun _ _ string => Fdoprnt.switch_written string⟩

/-- Nothing is written outside for it. -/
theorem buffer_kept_two : (∀ p ∈ Doprnt.pieces twoArgs twoFormat [], p.written ≤ BUFSIZE) ∧
    (∀ p ∈ Fdoprnt.pieces twoArgs twoFormat [], p.written ≤ BUFSIZE) := by
  have hkept := buffer_kept twoArgs twoFormat []
    fun v hv => by rcases twoFormat_items.1 v hv with rfl | rfl <;> decide
  rw [twoFormat_items.2] at hkept
  refine ⟨hkept.1.mpr fun v hv => ?_, hkept.2.mpr fun v hv => ?_⟩
  all_goals rcases twoFormat_items.1 v hv with rfl | rfl
  all_goals decide

/-! ## Numerals -/

/-- The base of a numeric case; zero for the others. -/
def Conv.base : Conv → ℕ
  | .d | .u => 10
  | .o => 8
  | .X | .x => 16
  | .b => 2
  | _ => 0

/-- The number that a numeric conversion prints. -/
def FmtConv.number (args : FmtArgs) (v : FmtConv) : ℤ :=
  if Conv.ofChar v.f = .d then args.word v.argno else uint32 (args.word v.argno)

/-- Zeros are filled in behind the digits of a number that is not zero: the width is larger than the
numeral with its sign. -/
def FmtConv.Shifted (args : FmtArgs) (v : FmtConv) : Prop :=
  v.leftjust = true ∧ v.zero = true ∧ v.number args ≠ 0 ∧
    (numeral (Conv.ofChar v.f).base (v.number args).natAbs).length +
      (if v.number args < 0 then 1 else 0) < inRange v.fmin

instance (args : FmtArgs) (v : FmtConv) : Decidable (v.Shifted args) :=
  inferInstanceAs (Decidable (_ ∧ _ ∧ _ ∧ _))

/-- The fill characters of a numeral without a precision. -/
theorem fieldLeading_eq {fmax : ℤ} (hfmax : inRange fmax = 0) (fmin : ℤ) (sign : Bool) (n : ℕ) :
    fieldLeading fmin fmax sign n = (inRange fmin - n - if sign then 1 else 0 : ℤ).toNat := by
  have hlength : fieldLength fmax n = n := by
    unfold fieldLength
    rw [hfmax, if_neg (by omega)]
  unfold fieldLeading
  rw [hfmax, hlength]
  by_cases hfmin : inRange fmin = 0
  · rw [hfmin, if_neg (by omega)]
    split_ifs <;> omega
  · rw [if_pos (Or.inr hfmin), if_pos hfmin]

/-- A numeral in its field, without a precision: what it reads as. -/
theorem read_field {b : ℕ} {char : ℕ → UInt8} {ds : List ℕ}
    (hchar : Alphabet b char) (hb : b ≤ 16) (hne : ds ≠ []) (hds : ∀ d ∈ ds, d < b)
    (leftjust zero : Bool) (fmin : ℤ) {fmax : ℤ} (hfmax : inRange fmax = 0) (sign : Bool) :
    Numerals.read b (Doprnt.field leftjust zero fmin fmax sign (ds.map char)) =
      some (signed sign ((if leftjust && zero then b ^ fieldLeading fmin fmax sign ds.length else 1) *
        value b ds)) := by
  -- The digits with zeros around them, and blanks around these.
  have hread : ∀ i j k l : ℕ, Numerals.read b (List.replicate i 32 ++ ((if sign then [45] else []) ++
      (List.replicate k 0 ++ ds ++ List.replicate l 0).map char) ++ List.replicate j 32) =
        some (signed sign (b ^ l * value b ds)) := by
    intro i j k l
    have hall : ∀ d ∈ List.replicate k 0 ++ ds ++ List.replicate l 0, d < b := by
      have hpos : 0 < b := by
        obtain ⟨d, hd⟩ := List.exists_mem_of_ne_nil ds hne
        exact lt_of_le_of_lt (Nat.zero_le d) (hds d hd)
      intro d hd
      rcases List.mem_append.mp hd with hd | hd
      · rcases List.mem_append.mp hd with hd | hd
        · rwa [List.eq_of_mem_replicate hd]
        · exact hds d hd
      · rwa [List.eq_of_mem_replicate hd]
    have hchars : ∀ ch ∈ (List.replicate k 0 ++ ds ++ List.replicate l 0).map char, digitValue ch < b := by
      intro ch hch
      obtain ⟨d, hd, rfl⟩ := List.mem_map.mp hch
      rw [hchar.digitValue_char d (hall d hd)]
      exact hall d hd
    have hback : ((List.replicate k 0 ++ ds ++ List.replicate l 0).map char).map digitValue =
        List.replicate k 0 ++ ds ++ List.replicate l 0 := by
      rw [List.map_map]
      conv_rhs => rw [← List.map_id (List.replicate k 0 ++ ds ++ List.replicate l 0)]
      exact List.map_congr_left fun d hd => hchar.digitValue_char d (hall d hd)
    rw [read_digits (by omega) i j sign hchars (by simp [hne]), hback, value_append_zeros, value_zeros_append]
  have hshow : (ds.map char).take (fieldLength fmax (ds.map char).length).toNat = ds.map char := by
    unfold fieldLength
    rw [hfmax, if_neg (by omega), Int.toNat_natCast, List.take_length]
  have hzeros : ∀ n, fillChars true n = (List.replicate n 0).map char := by
    intro n
    rw [List.map_replicate, hchar.char_zero]
    rfl
  have hblanks : ∀ n, fillChars false n = List.replicate n 32 := fun n => rfl
  have hminus : '-'.toUInt8 = 45 := rfl
  rw [field_eq, hshow, List.length_map]
  generalize fieldLeading fmin fmax sign ds.length = n
  unfold fieldFront fieldBack
  rw [hminus]
  cases leftjust <;> cases zero
  case false.false =>
    have h := hread n 0 0 0
    cases sign <;> simpa [hblanks] using h
  case false.true =>
    have h := hread 0 0 n 0
    cases sign <;> simpa [hzeros] using h
  case true.false =>
    have h := hread 0 n 0 0
    cases sign <;> simpa [hblanks] using h
  case true.true =>
    have h := hread 0 0 0 n
    cases sign <;> simpa [hzeros] using h

/-- What a text shows of a number with zeros behind its digits. -/
theorem signed_shifted_iff {b n : ℕ} (hb : 1 < b) (sign : Bool) (k : ℕ) :
    signed sign (b ^ k * n) = signed sign n ↔ ¬ (n ≠ 0 ∧ 0 < k) := by
  have hinj : signed sign (b ^ k * n) = signed sign n ↔ b ^ k * n = n := by
    unfold signed
    cases sign <;> simp only [if_true, if_false, Bool.false_eq_true, neg_inj, Nat.cast_inj]
  rw [hinj]
  constructor
  · rintro heq ⟨hn, hk⟩
    have hlt : 1 * n < b ^ k * n :=
      Nat.mul_lt_mul_of_pos_right (Nat.one_lt_pow (by omega) hb) (Nat.pos_of_ne_zero hn)
    omega
  · intro hnot
    rcases Nat.eq_zero_or_pos n with rfl | hn
    · rw [Nat.mul_zero]
    · obtain rfl : k = 0 := by
        by_contra hk
        exact hnot ⟨by omega, Nat.pos_of_ne_zero hk⟩
      rw [Nat.pow_zero, Nat.one_mul]

/-- A numeral of the right base in its field reads as the number, if the zeros do not stand behind it. -/
theorem read_numeral_iff {char : ℕ → UInt8} {num : ℤ} (hchar : Alphabet (Conv.ofChar v.f).base char)
    (hb : 1 < (Conv.ofChar v.f).base)
    (hb' : (Conv.ofChar v.f).base ≤ 16) (hnum : v.number args = num) {fmax : ℤ} (hfmax : inRange fmax = 0) :
    Numerals.read (Conv.ofChar v.f).base
        (Doprnt.field v.leftjust v.zero v.fmin fmax (decide (num < 0))
          ((numeral (Conv.ofChar v.f).base num.natAbs).map char)) = some num ↔
      ¬ v.Shifted args := by
  have hvalue : signed (decide (num < 0)) num.natAbs = num := by
    unfold signed
    by_cases hneg : num < 0
    · rw [if_pos (decide_eq_true hneg)]
      omega
    · rw [if_neg (by rwa [decide_eq_true_eq])]
      omega
  -- Zeros or blanks are filled in where the numeral is shorter than its field.
  have hlead : 0 < fieldLeading v.fmin fmax (decide (num < 0))
      (numeral (Conv.ofChar v.f).base num.natAbs).length ↔
      (numeral (Conv.ofChar v.f).base num.natAbs).length + (if num < 0 then 1 else 0) < inRange v.fmin := by
    rw [fieldLeading_eq hfmax]
    simp only [decide_eq_true_eq]
    split_ifs <;> omega
  have hnil := numeral_ne_nil (Conv.ofChar v.f).base num.natAbs
  have hiff : ∀ x : ℤ, x = num ↔ x = signed (decide (num < 0)) num.natAbs := by
    intro x
    rw [hvalue]
  -- The field is read as the number, times a power of the base for zeros behind it.
  rw [read_field hchar hb' hnil (fun d hd => lt_of_mem_numeral hb hd) _ _ _ hfmax,
    value_numeral, Option.some_inj, hiff]
  unfold FmtConv.Shifted
  rw [hnum, ← hlead]
  -- Left-justified with zeros: the zeros stand behind the digits, which only 0 survives.
  by_cases hboth : v.leftjust = true ∧ v.zero = true
  · rw [if_pos (by rw [hboth.1, hboth.2]; rfl), signed_shifted_iff hb, Int.natAbs_ne_zero]
    exact not_congr ⟨fun h => ⟨hboth.1, hboth.2, h⟩, fun h => h.2.2⟩
  -- Otherwise what is filled in stands in front of the digits, or is blank.
  · rw [if_neg (by rwa [Bool.and_eq_true]), Nat.one_mul]
    exact ⟨fun _ h => hboth ⟨h.1, h.2.1⟩, fun _ => rfl⟩

/-- What a round must print for a numeric conversion without a precision: its numeral reads as the
number, unless zeros stand behind it or the formatter `bad`. -/
def NumeralRight (bad : FmtConv → Prop) (args : FmtArgs) : FmtItem → Piece → Prop
  | .plain ch, p => p.out = [ch]
  | .conversion v, p => (Conv.ofChar v.f).base ≠ 0 → (Conv.ofChar v.f = .d → inRange v.fmax = 0) →
      (Numerals.read (Conv.ofChar v.f).base p.out = some (v.number args) ↔ ¬ v.Shifted args ∧ ¬ bad v)

/-- The numeric cases but `%d`. -/
theorem Doprnt.cases_numeral (args : FmtArgs) (f g : ℤ → CString)
    (hf : ∀ n : ℕ, n < 2 ^ 31 → f n = (numeral 10 n).map decimals)
    (hbase : (Conv.ofChar v.f).base ≠ 0) (hd : Conv.ofChar v.f ≠ .d) (string : CString) :
    ∃ char, Alphabet (Conv.ofChar v.f).base char ∧ Doprnt.cases f g args v string =
      Doprnt.number v (decide (v.number args < 0)) 0
        ((numeral (Conv.ofChar v.f).base (v.number args).natAbs).map char) := by
  obtain ⟨hlow, hhigh⟩ := args.word_mem v.argno
  have hnumber : v.number args = uint32 (args.word v.argno) := if_neg hd
  have hneg : decide (v.number args < 0) = false := by
    rw [hnumber, decide_eq_false_iff_not]
    omega
  rw [hneg, hnumber, Int.natAbs_natCast]
  unfold Doprnt.cases
  cases hc : Conv.ofChar v.f
  case d => exact absurd hc hd
  case u => exact ⟨decimals, decimals_alphabet (by decide), by dsimp only; rw [prtu_eq hf hlow hhigh]; rfl⟩
  case o => exact ⟨decimals, decimals_alphabet (by decide), by dsimp only; rw [prtl8_eq]; rfl⟩
  case X => exact ⟨upper, upper_alphabet, by dsimp only; rw [prtX16_eq]; rfl⟩
  case x => exact ⟨lower, lower_alphabet, by dsimp only; rw [prtl16_eq]; rfl⟩
  case b => exact ⟨decimals, decimals_alphabet (by decide), by dsimp only; rw [prtl2_eq]; rfl⟩
  all_goals
    rw [hc] at hbase
    exact absurd rfl hbase

/-- The base of a conversion that has one is between 2 and 16. -/
theorem Conv.base_bounds {conv : Conv} (h : conv.base ≠ 0) : 1 < conv.base ∧ conv.base ≤ 16 := by
  cases conv
  case c | s | f | H | h | other => exact absurd rfl h
  all_goals decide

/-- A numeric conversion of `_doprnt`. -/
theorem Doprnt.piece_right (args : FmtArgs) (string : CString) (i : FmtItem) :
    NumeralRight (fun _ => False) args i (piece switch args string i) := by
  cases i with
  | plain ch => rfl
  | conversion v =>
    intro hbase hfmax
    obtain ⟨hb, hb'⟩ := Conv.base_bounds hbase
    obtain ⟨hlow, hhigh⟩ := args.word_mem v.argno
    have hshared : (Conv.ofChar v.f).Shared := by
      refine ⟨?_, ?_, ?_, ?_⟩ <;> exact fun h => hbase (by rw [h]; rfl)
    rw [not_false_iff, and_true]
    dsimp only [piece]
    rw [switch_eq hshared]
    -- `%d` prints the numeral of the absolute value, and a sign of its own.
    by_cases hd : Conv.ofChar v.f = .d
    · have hnumber : v.number args = args.word v.argno := if_pos hd
      have hcases : Doprnt.cases prtl10 prtl10 args v string =
          number v (decide (args.word v.argno < 0)) v.fmax
            ((numeral (Conv.ofChar v.f).base (args.word v.argno).natAbs).map decimals) := by
        unfold Doprnt.cases
        rw [hd]
        dsimp only
        rw [prtl10_eq hlow hhigh]
        rfl
      have halphabet : Alphabet (Conv.ofChar v.f).base decimals := by
        rw [hd]
        exact decimals_alphabet (by decide)
      rw [hcases, hnumber]
      exact read_numeral_iff halphabet hb hb' hnumber (hfmax hd)
    -- The other conversions print the word as an unsigned number.
    · obtain ⟨char, halphabet, hcases⟩ :=
        cases_numeral args prtl10 prtl10 (fun n hn => prtl10_eq (by omega) (by omega)) hbase hd string
      rw [hcases]
      exact read_numeral_iff halphabet hb hb' rfl rfl

/-- A numeric conversion of `_fdoprnt`. -/
theorem Fdoprnt.piece_right (args : FmtArgs) (string : CString) (i : FmtItem) :
    NumeralRight (fun v => Conv.ofChar v.f = .d ∧ args.word v.argno = -2 ^ 31) args i
      (piece switch args string i) := by
  cases i with
  | plain ch => rfl
  | conversion v =>
    intro hbase hfmax
    have hshared : (Conv.ofChar v.f).Shared := by
      refine ⟨?_, ?_, ?_, ?_⟩ <;> exact fun h => hbase (by rw [h]; rfl)
    by_cases hbad : Conv.ofChar v.f = .d ∧ args.word v.argno = -2 ^ 31
    -- What is printed has a character that is no digit.
    · obtain ⟨hd, hmin⟩ := hbad
      refine ⟨fun hread => ?_, fun hnot => absurd ⟨hd, hmin⟩ hnot.2⟩
      exfalso
      have hchars := chars_of_read hread 46
      have hmem : (46 : UInt8) ∈ (piece switch args string (.conversion v)).out := by
        have hstr := decimal_eq (args.word_mem v.argno).1 (args.word_mem v.argno).2
        rw [if_pos hmin] at hstr
        dsimp only [piece]
        unfold switch Doprnt.cases
        rw [hd]
        dsimp only [number]
        rw [hstr, field_eq, List.nil_append]
        unfold fieldLength
        rw [hfmax hd, if_neg (by omega), Int.toNat_natCast, List.take_length]
        apply List.mem_append_left
        apply List.mem_append_right
        decide
      rw [hd] at hchars
      exact absurd (hchars hmem) (by decide)
    · have hagree := (pieces_agree hshared args string string).2.mpr fun hd hmin => hbad ⟨hd, hmin⟩
      have hright := Doprnt.piece_right args string (.conversion v) hbase hfmax
      rw [hagree] at hright
      rw [hright, not_false_iff, iff_true_intro hbad]

/-- A numeral that is printed without a precision reads as the number in its base, whatever the
width: in `_doprnt` unless zeros have been filled in behind its digits, and in `_fdoprnt` also
unless it is the least number in `%d`. -/
theorem numerals_right (args : FmtArgs) (fmt string : CString) :
    List.Forall₂ (NumeralRight (fun _ => False) args) (Doprnt.items args fmt)
    (Doprnt.pieces args fmt string) ∧
      List.Forall₂ (NumeralRight (fun v => Conv.ofChar v.f = .d ∧ args.word v.argno = -2 ^ 31) args)
        (Fdoprnt.items args fmt)
        (Fdoprnt.pieces args fmt string) := by
  constructor
  · apply List.Forall₂.imp _ (Doprnt.pieces_items args fmt string)
    rintro i _ ⟨string', rfl⟩
    exact Doprnt.piece_right args string' i
  · apply List.Forall₂.imp _ (Fdoprnt.pieces_items args fmt string)
    rintro i _ ⟨string', rfl⟩
    exact Fdoprnt.piece_right args string' i

/-! ## Both formatters -/

/-- What a round must print: the numeral of a conversion without a precision denotes the argument in
its base. -/
def Denotes (args : FmtArgs) : FmtItem → Piece → Prop
  | .plain ch, p => p.out = [ch]
  | .conversion v, p => (Conv.ofChar v.f).base ≠ 0 → v.dot = false →
      Numerals.read (Conv.ofChar v.f).base p.out = some (v.number args)

/-- What is expected of the two formatters on a format. -/
structure FormatsRight (args : FmtArgs) (fmt string string' : CString) : Prop where
  /-- They put out the same characters. -/
  same : Doprnt.doprnt args fmt string = Fdoprnt.fdoprnt args fmt string'
  /-- The numerals of `_doprnt` denote their numbers. -/
  doprnt : List.Forall₂ (Denotes args) (Doprnt.items args fmt) (Doprnt.pieces args fmt string)
  /-- The pieces that `_fdoprnt` prints denote its items. -/
  fdoprnt : List.Forall₂ (Denotes args) (Fdoprnt.items args fmt) (Fdoprnt.pieces args fmt string')
  /-- `_doprnt` writes nothing outside its conversion buffer. -/
  doprnt_kept : ∀ p ∈ Doprnt.pieces args fmt string, p.written ≤ BUFSIZE
  /-- `_fdoprnt` writes nothing outside its conversion buffer. -/
  fdoprnt_kept : ∀ p ∈ Fdoprnt.pieces args fmt string', p.written ≤ BUFSIZE

/-- The conversion is none of those that go wrong: the least number in `%d`, a long number in `%b`,
or zeros that are filled in behind the digits. -/
structure FmtConv.Clean (args : FmtArgs) (v : FmtConv) : Prop where
  /-- It is not `%d` with the least number, whose negation overflows. -/
  decimal : Conv.ofChar v.f = .d → args.word v.argno ≠ -2 ^ 31
  /-- It is not `%b` with a number that leaves the buffer. -/
  binary : Conv.ofChar v.f = .b → uint32 (args.word v.argno) < 2 ^ 19
  /-- It is not left-justified with zeros behind the digits. -/
  unshifted : (Conv.ofChar v.f).base ≠ 0 → v.dot = false → ¬ v.Shifted args

/-- Without a `.` there is no precision. -/
theorem fmtItem_dot {fmt fmt' : CString} {argno : ℕ} (h : fmtItem args fmt argno = some (.conversion v, fmt'))
    (hdot : v.dot = false) : v.fmax = 0 := by
  cases fmt with
  | nil => exact absurd h (by rintro ⟨⟩)
  | cons ch fmt =>
    rw [fmtItem] at h
    dsimp only at h
    split_ifs at h
    · exact absurd (congrArg Prod.fst (Option.some.inj h)) (by rintro ⟨⟩)
    · exact absurd (congrArg Prod.fst (Option.some.inj h)) (by rintro ⟨⟩)
    · exact absurd (congrArg Prod.fst (Option.some.inj h)) (by rintro ⟨⟩)
    · obtain rfl := FmtItem.conversion.inj (congrArg Prod.fst (Option.some.inj h))
      unfold fmtSpec at hdot ⊢
      dsimp only at hdot ⊢
      rw [hdot]
      rfl

/-- A conversion of a format that has no dot has no maximal width. -/
theorem fmtItems_dot {taken : Conv → ℕ} {n argno : ℕ} {fmt : CString}
    (hv : .conversion v ∈ fmtItems taken args n fmt argno)
    (hdot : v.dot = false) : v.fmax = 0 := by
  induction n generalizing fmt argno with
  | zero => exact absurd hv List.not_mem_nil
  | succ n ih =>
    rw [fmtItems] at hv
    cases hitem : fmtItem args fmt argno with
    | none =>
      rw [hitem] at hv
      exact absurd hv List.not_mem_nil
    | some r =>
      obtain ⟨i, fmt'⟩ := r
      rw [hitem] at hv
      cases i with
      | plain ch =>
        rcases List.mem_cons.mp hv with hv | hv
        · exact absurd hv (by rintro ⟨⟩)
        · exact ih hv
      | conversion w =>
        rcases List.mem_cons.mp hv with hv | hv
        · obtain rfl := FmtItem.conversion.inj hv
          exact fmtItem_dot hitem hdot
        · exact ih hv

/-- The numerals of all rounds denote their numbers exactly if no conversion without a precision is
shifted or bad. -/
theorem denotes_iff {switch : FmtArgs → FmtConv → CString → Converted}
    {items : List FmtItem} {ps : List Piece}
    {bad : FmtConv → Prop} (h : List.Forall₂ (fun i p => ∃ string, p = piece switch args string i) items ps)
    (hright : ∀ i string, NumeralRight bad args i (piece switch args string i))
    (hdot : ∀ v, .conversion v ∈ items → v.dot = false → v.fmax = 0) :
    List.Forall₂ (Denotes args) items ps ↔ ∀ v, .conversion v ∈ items →
      (Conv.ofChar v.f).base ≠ 0 → v.dot = false →
      ¬ v.Shifted args ∧ ¬ bad v := by
  induction h with
  | nil => exact ⟨by rintro _ v ⟨⟩, fun _ => .nil⟩
  | @cons i p items ps hi hps ih =>
    -- The induction is on the items, with the piece that each of them has printed.
    obtain ⟨string, rfl⟩ := hi
    have hrest := ih fun v hv => hdot v (List.mem_cons_of_mem _ hv)
    have hround := hright i string
    rw [List.forall₂_cons, hrest]
    cases i with
    | plain ch =>
      constructor
      · rintro ⟨-, hall⟩ v hv
        rcases List.mem_cons.mp hv with hv | hv
        · exact absurd hv (by rintro ⟨⟩)
        · exact hall v hv
      · exact fun hall => ⟨hround, fun v hv => hall v (List.mem_cons_of_mem _ hv)⟩
    | conversion w =>
      -- A conversion without a precision has none that cuts its numeral.
      have hread : ∀ hb : (Conv.ofChar w.f).base ≠ 0, w.dot = false →
          (Numerals.read (Conv.ofChar w.f).base (piece switch args string (.conversion w)).out =
            some (w.number args) ↔
            ¬ w.Shifted args ∧ ¬ bad w) := by
        intro hb hd
        apply hround hb
        intro _
        rw [hdot w List.mem_cons_self hd]
        decide
      constructor
      · rintro ⟨hw, hall⟩ v hv
        rcases List.mem_cons.mp hv with hv | hv
        · obtain rfl := FmtItem.conversion.inj hv
          exact fun hb hd => (hread hb hd).mp (hw hb hd)
        · exact hall v hv
      · exact fun hall => ⟨fun hb hd => (hread hb hd).mpr (hall w List.mem_cons_self hb hd),
          fun v hv => hall v (List.mem_cons_of_mem _ hv)⟩

/-- Both formatters write inside their buffers, on the conversions that they share, exactly if `%b`
takes small numbers. -/
theorem kept_iff (fmt string string' : CString)
    (h : ∀ v, .conversion v ∈ Doprnt.items args fmt → (Conv.ofChar v.f).Shared) :
    ((∀ p ∈ Doprnt.pieces args fmt string, p.written ≤ BUFSIZE) ∧
      ∀ p ∈ Fdoprnt.pieces args fmt string', p.written ≤ BUFSIZE) ↔
      ∀ v, .conversion v ∈ Doprnt.items args fmt → Conv.ofChar v.f = .b →
      uint32 (args.word v.argno) < 2 ^ 19 := by
  have hsame : Fdoprnt.items args fmt = Doprnt.items args fmt := fmtItems_same _ _ _ h
  have hdoprnt := forall_pieces_iff (Doprnt.pieces_items args fmt string)
    fun v hv string => Doprnt.switch_written (h v hv).1 string
  have hfdoprnt := forall_pieces_iff (Fdoprnt.pieces_items args fmt string') fun _ _ string =>
    Fdoprnt.switch_written string
  rw [hsame] at hfdoprnt
  rw [hdoprnt, hfdoprnt, and_self_iff]

/-- What is expected holds only of formats without such a conversion. -/
theorem FormatsRight.clean {fmt string string' : CString} (hr : FormatsRight args fmt string string')
    (h : ∀ v, .conversion v ∈ Doprnt.items args fmt → (Conv.ofChar v.f).Shared) :
    ∀ v, .conversion v ∈ Doprnt.items args fmt → v.Clean args := by
  have hdecimal := (formatters_agree args fmt string string' h).mp hr.same
  have hbinary := (kept_iff fmt string string' h).mp ⟨hr.doprnt_kept, hr.fdoprnt_kept⟩
  have hread := (denotes_iff (Doprnt.pieces_items args fmt string) (fun i s => Doprnt.piece_right args s i)
    fun v hv => fmtItems_dot hv).mp hr.doprnt
  exact fun v hv => ⟨hdecimal v hv, hbinary v hv, fun hb hd => (hread v hv hb hd).1⟩

/-- On every format of conversions that both have, for all arguments: the two formatters put out the
same characters, the numerals without a precision denote their numbers, and nothing is written
outside the conversion buffers, exactly if no conversion is one of those that go wrong. -/
theorem formatters_right (args : FmtArgs) (fmt string string' : CString)
    (h : ∀ v, .conversion v ∈ Doprnt.items args fmt → (Conv.ofChar v.f).Shared) :
    FormatsRight args fmt string string' ↔ ∀ v, .conversion v ∈ Doprnt.items args fmt → v.Clean args := by
  constructor
  · exact fun hr => hr.clean h
  · intro hclean
    have hsame : Fdoprnt.items args fmt = Doprnt.items args fmt := fmtItems_same _ _ _ h
    obtain ⟨hkept, hkept'⟩ := (kept_iff fmt string string' h).mpr fun v hv => (hclean v hv).binary
    refine ⟨(formatters_agree args fmt string string' h).mpr fun v hv => (hclean v hv).decimal,
      ?_, ?_, hkept, hkept'⟩
    · apply (denotes_iff (Doprnt.pieces_items args fmt string) (fun i s => Doprnt.piece_right args s i)
        fun v hv => fmtItems_dot hv).mpr
      exact fun v hv hb hd => ⟨(hclean v hv).unshifted hb hd, not_false⟩
    · apply (denotes_iff (Fdoprnt.pieces_items args fmt string') (fun i s => Fdoprnt.piece_right args s i)
        fun v hv => fmtItems_dot hv).mpr
      rw [hsame]
      -- The least number is the only decimal one that `_fdoprnt` gets wrong.
      exact fun v hv hb hd => ⟨(hclean v hv).unshifted hb hd, fun hbad => (hclean v hv).decimal hbad.1 hbad.2⟩

/-- The format `%08x%%%-6b`. -/
def padFormat : CString := ['%', '0', '8', 'x', '%', '%', '%', '-', '6', 'b'].map Char.toUInt8

/-- Its conversions. -/
theorem padFormat_items (hv : .conversion v ∈ Doprnt.items twoArgs padFormat) :
    v = ⟨'x'.toUInt8, false, true, 8, false, 0, 0⟩ ∨ v = ⟨'b'.toUInt8, true, false, 6, false, 0, 1⟩ := by
  have hitems : Doprnt.items twoArgs padFormat = [.conversion ⟨'x'.toUInt8, false, true, 8, false, 0, 0⟩,
      .plain '%'.toUInt8, .conversion ⟨'b'.toUInt8, true, false, 6, false, 0, 1⟩] := by decide
  rw [hitems] at hv
  simpa using hv

/-- Both formatters print `-42` as an unsigned number and `46` in binary, and nothing goes wrong. -/
theorem formatters_right_pad : FormatsRight twoArgs padFormat [] [] ∧
    Doprnt.doprnt twoArgs padFormat [] = ['f', 'f', 'f', 'f',
      'f', 'f', 'd', '6', '%', '1', '0', '1', '1', '1', '0'].map Char.toUInt8 := by
  refine ⟨(formatters_right twoArgs padFormat [] [] fun v hv => ?_).mpr fun v hv => ?_, by decide +kernel⟩
  · rcases padFormat_items hv with rfl | rfl <;> decide
  · rcases padFormat_items hv with rfl | rfl <;> exact ⟨by decide, by decide, by decide⟩

/-- A format of one conversion that is not clean is not printed as the specification says. -/
theorem not_formatsRight {w : FmtConv} {fmt : CString} (hitems : Doprnt.items args fmt = [.conversion w])
    (hshared : (Conv.ofChar w.f).Shared) (hclean : ¬ w.Clean args) (string string' : CString) :
    ¬ FormatsRight args fmt string string' := by
  intro hr
  apply hclean
  apply hr.clean
  · intro v hv
    rw [hitems, List.mem_singleton] at hv
    obtain rfl := FmtItem.conversion.inj hv
    exact hshared
  · rw [hitems]
    exact List.mem_cons_self

/-- The same number in all arguments. -/
def sameArgs (n : ℤ) (h : -2 ^ 31 ≤ n ∧ n < 2 ^ 31) : FmtArgs :=
  ⟨fun _ => n, fun _ => [], fun _ _ => (false, []), fun _ => h⟩

/-- The least number in `%d`; `2 ^ 19` in `%b`, of which 21 bytes are written; and 46 in `%-08x`,
which is printed as `2e000000`. -/
theorem formatters_wrong :
    ¬ FormatsRight (sameArgs (-2 ^ 31) (by decide)) (['%', 'd'].map Char.toUInt8) [] [] ∧
    ¬ FormatsRight (sameArgs (2 ^ 19) (by decide)) (['%', 'b'].map Char.toUInt8) [] [] ∧
    ¬ FormatsRight (sameArgs 46 (by decide)) (['%', '-', '0', '8', 'x'].map Char.toUInt8) [] [] := by
  refine ⟨not_formatsRight (w := ⟨'d'.toUInt8, false, false, 0, false, 0, 0⟩)
    (by decide) (by decide) ?_ [] [],
    not_formatsRight (w := ⟨'b'.toUInt8, false, false, 0, false, 0, 0⟩) (by decide) (by decide) ?_ [] [],
    not_formatsRight (w := ⟨'x'.toUInt8, true, true, 8, false, 0, 0⟩) (by decide) (by decide) ?_ [] []⟩
  · exact fun hc => hc.decimal (by decide) (by decide)
  · exact fun hc => absurd (hc.binary (by decide)) (by decide)
  · exact fun hc => hc.unshifted (by decide) rfl (by decide)

end Xinu
