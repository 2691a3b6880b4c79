import Xinu.Lib.Numerals
import Xinu.Lfs.Open
import Xinu.Kernel.Sys

/-!
# The two formatters

`_doprnt` of `lib/doprnt.c` and `_fdoprnt` of `lib/fdoprnt.c`. A format is the list of its
characters up to the null character. The conversion buffer `string` is the list of its characters up
to the first null character; it is not cleared between conversions, and the formatters do not look
at its size, so that the list may be longer than the buffer: what each conversion writes is counted.
A `long` has 32 bits.
-/

namespace Xinu

/-- `MAXSTR`. -/
abbrev MAXSTR : ℤ := 80

/-- The arguments behind the format. -/
structure FmtArgs where
  /-- An argument of four bytes, as a number. -/
  word : ℕ → ℤ
  /-- The string at an address. -/
  text : ℤ → CString
  /-- What is known of a double, that takes two arguments: whether it is negative, and what
  `_prtdbl` stores for it. -/
  dbl : ℤ → ℤ → Bool × CString
  /-- An argument is an `int32`. -/
  word_mem : ∀ i, -2 ^ 31 ≤ word i ∧ word i < 2 ^ 31

/-- The cases of the two `switch` statements. -/
inductive Conv
  | c | s | d | f | u | o | X | x | H | h | b | other
  deriving DecidableEq

/-- The case of a format character. -/
def Conv.ofChar (f : UInt8) : Conv :=
  if f = 'c'.toUInt8 then .c
  else if f = 's'.toUInt8 then .s
  else if f = 'd'.toUInt8 then .d
  else if f = 'f'.toUInt8 then .f
  else if f = 'u'.toUInt8 then .u
  else if f = 'o'.toUInt8 then .o
  else if f = 'X'.toUInt8 then .X
  else if f = 'x'.toUInt8 then .x
  else if f = 'H'.toUInt8 then .H
  else if f = 'h'.toUInt8 then .h
  else if f = 'b'.toUInt8 then .b
  else .other

/-- A conversion of a format: its format character, and what stands between it and the `%`. -/
structure FmtConv where
  /-- The format character, or the null character at the end of the format. -/
  f : UInt8
  /-- There is a `-`: the string stands at the left of its field. -/
  leftjust : Bool
  /-- There is a `0`: the field is filled with `'0'`, and not with `' '`. -/
  zero : Bool
  /-- The width of the field. -/
  fmin : ℤ
  /-- There is a `.`: a precision is given. -/
  dot : Bool
  /-- The precision, 0 if there is none. -/
  fmax : ℤ
  /-- The number of the first argument that is left for the conversion itself. -/
  argno : ℕ
  deriving DecidableEq

/-- One round of the main loop deals with a character or with a conversion. -/
inductive FmtItem
  | plain (ch : UInt8)
  | conversion (v : FmtConv)
  deriving DecidableEq

namespace Doprnt

/-- A digit as a character: `d + '0'`. -/
def digit (d : ℤ) : UInt8 := UInt8.ofInt (d + 48)

/-- The loop that stores digits at `temp[i]` and goes on with what is left of the number. -/
def temps (char : ℤ → UInt8) (next : ℤ → ℤ) : ℕ → ℤ → List UInt8
  | 0, _ => []
  | k + 1, num => char num :: temps char next k (next num)

/-- What is copied from `temp` to `str`, from the last digit on that is not `'0'`. -/
def fromTop (temp : List UInt8) : CString := Numerals.shown (· == '0'.toUInt8) temp

/-- `_prtl10` of `doprnt.c`. -/
def prtl10 (num : ℤ) : CString :=
  fromTop (digit (if num < 0 then -(num.tmod 10) else num.tmod 10) ::
    temps (fun n => digit (n.tmod 10)) (fun n => n.tdiv 10) 9 (num.tdiv (if num < 0 then -10 else 10)))

/-- `_prtl8`. In two's complement `& 07` is the remainder and `>> 3` the quotient that is rounded down. -/
def prtl8 (num : ℤ) : CString :=
  fromTop ((temps (fun n => digit (n % 8)) (fun n => n / 8) 11 num).modify 10 fun ch => ch &&& '3'.toUInt8)

/-- The digits of `_prtl16`. -/
def lowerDigits : List UInt8 :=
  ['0', '1', '2', '3', '4', '5', '6', '7', '8', '9', 'a', 'b', 'c', 'd', 'e', 'f'].map Char.toUInt8

/-- The digits of `_prtX16`. -/
def upperDigits : List UInt8 :=
  ['0', '1', '2', '3', '4', '5', '6', '7', '8', '9', 'A', 'B', 'C', 'D', 'E', 'F'].map Char.toUInt8

/-- `_prtl16`. -/
def prtl16 (num : ℤ) : CString :=
  fromTop (temps (fun n => lowerDigits.getD (n % 16).toNat 0) (fun n => n / 16) 8 num)

/-- `_prtX16`. -/
def prtX16 (num : ℤ) : CString :=
  fromTop (temps (fun n => upperDigits.getD (n % 16).toNat 0) (fun n => n / 16) 8 num)

/-- `_prtl2`. -/
def prtl2 (num : ℤ) : CString :=
  fromTop (temps (fun n => if n.tmod 2 = 0 then '0'.toUInt8 else '1'.toUInt8) (fun n => n / 2) 32 num)

/-- The loop of `case 'u'`: `larg` is made positive, and `digit1` counts what has been taken off. -/
def unsignedLoop : ℕ → ℤ → UInt8 → ℤ × UInt8
  | 0, larg, digit1 => (larg, digit1)
  | n + 1, larg, digit1 =>
    if larg < 0 then unsignedLoop n (int32 (larg - 1000000000)) (digit1 + 1) else (larg, digit1)

/-- `case 'u'`, where three rounds of its loop are enough. -/
def prtu (prtl10 : ℤ → CString) (larg : ℤ) : CString :=
  let r := unsignedLoop 3 larg 0
  match prtl10 r.1 with
  | [] => []
  | ch :: s => (ch + r.2) :: s

/-- The digits of a width or a precision. -/
def fmtDigits : ℤ → CString → ℤ × CString
  | n, [] => (n, [])
  | n, ch :: fmt =>
    if 48 ≤ ch ∧ ch ≤ 57 then fmtDigits (int32 (n * 10 + ch.toNat - 48)) fmt else (n, ch :: fmt)

/-- A width or a precision: `*` takes an argument. -/
def fmtNumber (args : FmtArgs) (fmt : CString) (argno : ℕ) : ℤ × CString × ℕ :=
  if fmt.head? = some '*'.toUInt8 then (args.word argno, fmt.tail, argno + 1)
  else ((fmtDigits 0 fmt).1, (fmtDigits 0 fmt).2, argno)

/-- What stands between a `%` and the format character. -/
def fmtSpec (args : FmtArgs) (fmt : CString) (argno : ℕ) : FmtConv × CString :=
  let leftjust : Bool := fmt.head? = some '-'.toUInt8
  let fmt := if leftjust then fmt.tail else fmt
  let zero : Bool := fmt.head? = some '0'.toUInt8
  let fmt := if zero then fmt.tail else fmt
  let fmin := fmtNumber args fmt argno
  let dot : Bool := fmin.2.1.head? = some '.'.toUInt8
  let fmax := if dot then fmtNumber args fmin.2.1.tail fmin.2.2 else (0, fmin.2.1, fmin.2.2)
  ({ f := fmax.2.1.headD 0, leftjust, zero, fmin := fmin.1, dot, fmax := fmax.1, argno := fmax.2.2 },
    fmax.2.1)

/-- What one round of the main loop finds: nothing at the end of the format. -/
def fmtItem (args : FmtArgs) : CString → ℕ → Option (FmtItem × CString)
  | [], _ => none
  | ch :: fmt, argno =>
    if ch ≠ '%'.toUInt8 then some (.plain ch, fmt)
    else if fmt.head? = some '%'.toUInt8 then some (.plain '%'.toUInt8, fmt.tail)
    else
      let spec := fmtSpec args fmt argno
      if spec.2 = [] then some (.plain '%'.toUInt8, [])
      else some (.conversion spec.1, spec.2.tail)

/-- What the `switch` leaves. -/
structure Converted where
  /-- The characters that it has put out itself. -/
  out : CString
  /-- The string that is to be shown in the field. -/
  str : CString
  /-- What the conversion buffer holds then. -/
  string : CString
  /-- A minus sign belongs in front of the string. -/
  sign : Bool
  /-- The fill character is `'0'`. -/
  zero : Bool
  /-- The precision that counts: numerals other than decimal ones have none. -/
  fmax : ℤ
  /-- The next argument. -/
  argno : ℕ
  /-- How many characters of the buffer have been written, the null character included. -/
  written : ℕ

/-- A numeral in the buffer. -/
def number (v : FmtConv) (sign : Bool) (fmax : ℤ) (str : CString) : Converted :=
  { out := [], str, string := str, sign, zero := v.zero, fmax, argno := v.argno + 1,
    written := str.length + 1 }

/-- The cases that the two formatters share, where `decimal` is `case 'd'`. -/
def cases (prtl10 decimal : ℤ → CString) (args : FmtArgs) (v : FmtConv) (string : CString) : Converted :=
  let larg := args.word v.argno
  match Conv.ofChar v.f with
  | .c =>
    let str := if UInt8.ofInt larg = 0 then [] else [UInt8.ofInt larg]
    { out := [], str, string := str, sign := false, zero := false, fmax := 0, argno := v.argno + 1,
      written := 2 }
  | .s =>
    let str := if larg = 0 then ['(', 'n', 'u', 'l', 'l', ')'].map Char.toUInt8 else args.text larg
    { out := [], str, string, sign := false, zero := false, fmax := v.fmax, argno := v.argno + 1,
      written := 0 }
  | .d => number v (larg < 0) v.fmax (decimal larg)
  | .u => number v false 0 (prtu prtl10 larg)
  | .o => number v false 0 (prtl8 larg)
  | .X => number v false 0 (prtX16 larg)
  | .x => number v false 0 (prtl16 larg)
  | .b => number v false 0 (prtl2 larg)
  -- An unknown character is put out, and behind it what the buffer still holds.
  | _ => { out := [v.f], str := string, string, sign := false, zero := v.zero, fmax := v.fmax,
           argno := v.argno, written := 0 }

/-- Two numerals in the buffer, the second eight characters behind the first. -/
def numberTwice (v : FmtConv) (first second : CString) : Converted :=
  let str := if first.length = 8 then first ++ second else first
  { out := [], str, string := str, sign := false, zero := v.zero, fmax := 0, argno := v.argno + 2,
    written := 8 + second.length + 1 }

/-- The `switch` of `_doprnt`. -/
def switch (args : FmtArgs) (v : FmtConv) (string : CString) : Converted :=
  let larg := args.word v.argno
  let larg' := args.word (v.argno + 1)
  match Conv.ofChar v.f with
  | .f =>
    let str := (args.dbl larg larg').2
    { out := [], str, string := str, sign := (args.dbl larg larg').1, zero := v.zero, fmax := v.fmax,
      argno := v.argno + 2, written := str.length + 1 }
  | .H => numberTwice v (prtX16 larg) (prtX16 larg')
  | .h => numberTwice v (prtl16 larg) (prtl16 larg')
  | _ => cases prtl10 prtl10 args v string

/-- A width or a precision that is out of range counts as none. -/
def inRange (n : ℤ) : ℤ := if n > MAXSTR ∨ n < 0 then 0 else n

/-- The end of a round: the string in its field. -/
def field (leftjust zero : Bool) (fmin fmax : ℤ) (sign : Bool) (str : CString) : CString :=
  let fmin := inRange fmin
  let fmax := inRange fmax
  let length : ℤ := if fmax ≠ 0 ∧ str.length > fmax then fmax else str.length
  let leading : ℤ :=
    if fmax ≠ 0 ∨ fmin ≠ 0 then (if fmin ≠ 0 then fmin - length else 0) - (if sign then 1 else 0) else 0
  let fill := List.replicate leading.toNat (if zero then '0'.toUInt8 else ' '.toUInt8)
  (if sign && zero then ['-'.toUInt8] else []) ++ (if leftjust then [] else fill) ++
    (if sign && !zero then ['-'.toUInt8] else []) ++
    str.take length.toNat ++ (if leftjust then fill else [])

/-- What a round of the main loop does. -/
structure Piece where
  /-- The characters that it puts out. -/
  out : CString
  /-- How many characters of the conversion buffer it has written. -/
  written : ℕ
  deriving DecidableEq

/-- What a round puts out. -/
def piece (switch : FmtArgs → FmtConv → CString → Converted) (args : FmtArgs) (string : CString) :
    FmtItem → Piece
  | .plain ch => ⟨[ch], 0⟩
  | .conversion v =>
    let r := switch args v string
    ⟨r.out ++ field v.leftjust r.zero v.fmin r.fmax r.sign r.str, r.written⟩

/-- The main loop, of which every round takes at least one character of the format. -/
def prntLoop (switch : FmtArgs → FmtConv → CString → Converted) (args : FmtArgs) :
    ℕ → CString → ℕ → CString → List Piece
  | 0, _, _, _ => []
  | n + 1, fmt, argno, string =>
    match fmtItem args fmt argno with
    | none => []
    | some (.plain ch, fmt) => piece switch args string (.plain ch) :: prntLoop switch args n fmt argno string
    | some (.conversion v, fmt) =>
      piece switch args string (.conversion v) ::
        prntLoop switch args n fmt (switch args v string).argno (switch args v string).string

/-- What `_doprnt` puts out, round by round; `string` is what the buffer holds at first. -/
def pieces (args : FmtArgs) (fmt string : CString) : List Piece :=
  prntLoop switch args fmt.length fmt 0 string

/-- `_doprnt`. -/
def doprnt (args : FmtArgs) (fmt string : CString) : CString := (pieces args fmt string).flatMap Piece.out

end Doprnt

namespace Fdoprnt

open Doprnt

/-- `_prtl10` of `fdoprnt.c`. -/
def prtl10 (num : ℤ) : CString := fromTop (temps (fun n => digit (n.tmod 10)) (fun n => n.tdiv 10) 10 num)

/-- The `switch` of `_fdoprnt`, where a negative number of `case 'd'` is negated first. -/
def switch : FmtArgs → FmtConv → CString → Converted :=
  cases prtl10 fun larg => prtl10 (if larg < 0 then int32 (-larg) else larg)

/-- What `_fdoprnt` puts out, round by round. -/
def pieces (args : FmtArgs) (fmt string : CString) : List Piece :=
  prntLoop switch args fmt.length fmt 0 string

/-- `_fdoprnt`. -/
def fdoprnt (args : FmtArgs) (fmt string : CString) : CString := (pieces args fmt string).flatMap Piece.out

end Fdoprnt

/-- `sprintf`: the characters that are stored at `str`. -/
def sprintf (args : FmtArgs) (fmt string : CString) : List UInt8 := Fdoprnt.fdoprnt args fmt string ++ [0]

end Xinu
