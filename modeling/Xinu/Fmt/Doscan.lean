import Xinu.Fmt.Doprnt

/-!
# The scanner

`_doscan`, `_innum`, `_instr` and `_getccl` of `lib/doscan.c`, and `sscanf` with `sgetch` and
`sungetch` of `lib/sscanf.c`. A `char` has a sign. The table `_sctab` is looked up with any
character, so that it is a function on all numbers, of which the source fixes those from 0 to 127.
`none` is the result where `_getccl` runs past the end of the format.
-/

namespace Xinu

/-- A `char` as an `int`. -/
def schar (ch : UInt8) : ℤ := (ch.toNat : ℤ).bmod 256

/-- The string that is scanned, as `s` divides it: the characters passed, the last first, and those
to come. -/
structure ScanIn where
  /-- The characters that have been read, the last first. -/
  past : CString
  /-- Those to come. -/
  rest : CString
  deriving DecidableEq

/-- `sgetch`. -/
def ScanIn.sgetch (s : ScanIn) : ℤ × ScanIn :=
  match s.rest with
  | [] => (EOF, s)
  | ch :: rest => (schar ch, ⟨ch :: s.past, rest⟩)

/-- `sungetch`. -/
def ScanIn.sungetch (s : ScanIn) : ScanIn :=
  match s.past with
  | [] => s
  | ch :: past => ⟨past, ch :: s.rest⟩

/-- What is stored through an argument. -/
inductive ScanStored
  | short (n : ℤ)
  | word (n : ℤ)
  | chars (s : List UInt8)
  deriving DecidableEq

/-- The sizes `SHORT`, `REGULAR` and `LONG`. -/
inductive ScanSize
  | short | regular | long
  deriving DecidableEq

/-- `SPC`. -/
abbrev SPC : UInt8 := 1

/-- `STP`. -/
abbrev STP : UInt8 := 2

/-- `_sctab` as it is linked, with what lies around it in memory. -/
def sctabAt (around : ℤ → UInt8) (c : ℤ) : UInt8 :=
  if 0 ≤ c ∧ c < 128 then (if c = 9 ∨ c = 10 ∨ c = 32 then SPC else 0) else around c

/-- What a conversion of the scanner returns, whether the string is at its end, what it stores, how
many characters of `numbuf` it writes, and the rest of the string. -/
structure Scanned where
  /-- Whether something was found. -/
  ret : Bool
  /-- Whether the string has ended. -/
  eof : Bool
  /-- What is stored through the argument. -/
  stored : Option ScanStored
  /-- How many characters of `numbuf` have been written. -/
  written : ℕ
  /-- The string behind what was read. -/
  rd : ScanIn
  deriving DecidableEq

namespace Doscan

/-- The loop that skips blanks; it returns the first other character. -/
def skipSpaces (past : CString) : CString → ℤ × ScanIn
  | [] => (EOF, ⟨past, []⟩)
  | ch :: rest =>
    if schar ch = 32 ∨ schar ch = 9 ∨ schar ch = 10 then skipSpaces (ch :: past) rest
      else (schar ch, ⟨ch :: past, rest⟩)

/-- `isdigit`. -/
def isdigit (c : ℤ) : Bool := 48 ≤ c && c ≤ 57

/-- Where the loop of `_innum` stands: the character that has been read, the string, `lcval`, and
how many characters are in `numbuf`. -/
structure Digits where
  /-- The character that has been read, and the string behind it. -/
  look : ℤ × ScanIn
  /-- The value of the digits so far. -/
  lcval : ℤ
  /-- How many characters are in `numbuf`. -/
  np : ℕ
  deriving DecidableEq

/-- Whether the loop takes a character. -/
def takes (base c : ℤ) : Bool := (isdigit c || base = 16) && ((97 ≤ c && c ≤ 102) || (65 ≤ c && c ≤ 70))

/-- A digit is put behind `lcval`. -/
def shiftIn (base lcval c : ℤ) : ℤ :=
  let lcval := if base = 8 then int32 (lcval * 8) else if base = 10 then int32 (lcval * 10)
    else int32 (lcval * 16)
  int32 (lcval + (if 48 ≤ c ∧ c ≤ 57 then c - 48 else if 97 ≤ c ∧ c ≤ 102 then c - 87 else c - 55))

/-- The loop of `_innum`; at most `len` characters are taken. -/
def innumLoop (base : ℤ) : ℕ → Digits → Digits
  | 0, d => d
  | len + 1, d =>
    if takes base d.look.1 then innumLoop base len
      ⟨d.look.2.sgetch, shiftIn base d.lcval d.look.1, d.np + 1⟩ else d

/-- The sign of a number: whether it is negative, what `numbuf` holds, the length that is left, and
what has been read. -/
def innumSign (len : ℤ) (look : ℤ × ScanIn) : Bool × ℕ × ℤ × (ℤ × ScanIn) :=
  if look.1 = 45 then (true, 1, len - 1, look.2.sgetch)
  else if look.1 = 43 then (false, 0, len - 1, look.2.sgetch)
  else (false, 0, len, look)

/-- The base of a conversion. -/
def scanBase (type : UInt8) : ℤ := if type = 'o'.toUInt8 then 8 else if type = 'x'.toUInt8 then 16 else 10

/-- What is stored of a number. -/
def ScanStored.ofSize (size : ScanSize) (lcval : ℤ) : ScanStored :=
  match size with
  | .short => .short (lcval.bmod (2 ^ 16))
  | .regular | .long => .word lcval

/-- The loop of `_instr` behind the blanks: the characters that are stored, the length that is left,
and what has been read last. -/
def instrLoop (stops : ℤ → Bool) (len ch : ℤ) (past : CString) : CString → CString × ℤ × (ℤ × ScanIn)
  | [] =>
    if ch = EOF ∨ stops ch then ([], len, ch, ⟨past, []⟩)
    else ([UInt8.ofInt ch], len - 1, if len - 1 ≤ 0 then ch else EOF, ⟨past, []⟩)
  | next :: rest =>
    if ch = EOF ∨ stops ch then ([], len, ch, ⟨past, next :: rest⟩)
    else if len - 1 ≤ 0 then ([UInt8.ofInt ch], len - 1, ch, ⟨past, next :: rest⟩)
    else
      let r := instrLoop stops (len - 1) (schar next) (next :: past) rest
      (UInt8.ofInt ch :: r.1, r.2)

/-- The loop of `_instr` that skips what the table marks. -/
def instrSkip (skips : ℤ → Bool) (past : CString) : CString → ℤ × ScanIn
  | [] => (EOF, ⟨past, []⟩)
  | ch :: rest =>
    if skips (schar ch) ∧ schar ch ≠ EOF then instrSkip skips (ch :: past) rest
      else (schar ch, ⟨ch :: past, rest⟩)

/-- `_instr`. -/
def instr (sctab : ℤ → UInt8) (ptr : Bool) (type : UInt8) (len : ℤ) (s : ScanIn) : Scanned :=
  let len := if type = 'c'.toUInt8 ∧ len = 30000 then 1 else len
  let start := instrSkip (fun c => type = 's'.toUInt8 ∧ sctab c &&& SPC ≠ 0) s.past s.rest
  let ignstp := if type = 'c'.toUInt8 then 0 else if type = '['.toUInt8 then STP else SPC
  let r := instrLoop (fun c => sctab c &&& ignstp ≠ 0) len start.1 start.2.past start.2.rest
  let look := r.2.2
  { ret := ptr && r.1 ≠ []
    eof := look.1 = EOF
    stored := if ptr && r.1 ≠ [] then some (.chars (if type = 'c'.toUInt8 then r.1 else r.1 ++ [0])) else none
    written := 0
    rd := if look.1 ≠ EOF ∧ r.2.1 > 0 then look.2.sungetch else look.2 }

/-- `_innum`. -/
def innum (sctab : ℤ → UInt8) (ptr : Bool) (type : UInt8)
    (len : ℤ) (size : ScanSize) (s : ScanIn) : Scanned :=
  if type = 'c'.toUInt8 ∨ type = 's'.toUInt8 ∨ type = '['.toUInt8 then instr sctab ptr type len s
  else
    let base := scanBase type
    let sign := innumSign len (skipSpaces s.past s.rest)
    let d := innumLoop base sign.2.2.1.toNat ⟨sign.2.2.2, 0, sign.2.1⟩
    let lcval := if sign.1 then int32 (-d.lcval) else d.lcval
    let rd := if d.look.1 ≠ EOF then d.look.2.sungetch else d.look.2
    if ptr = false ∨ d.np = 0 then
      { ret := false, eof := d.look.1 = EOF, stored := none, written := d.np, rd }
    else { ret := true, eof := d.look.1 = EOF, stored := some (ScanStored.ofSize size lcval),
           written := d.np + 1, rd }

/-- The characters of a class are marked or unmarked. -/
def getcclLoop (t : Bool) : CString → (ℤ → UInt8) → Option (CString × (ℤ → UInt8))
  | [], _ => none
  | ch :: s, sctab =>
    if ch &&& 127 = ']'.toUInt8 then some (s, sctab)
    else
      let c := schar ch
      let sctab := Function.update sctab c (if t then sctab c ||| STP else sctab c &&& ~~~STP)
      if c + 1 = 0 then some (ch :: s, sctab) else getcclLoop t s sctab

/-- `_getccl`. -/
def getccl (s : CString) (sctab : ℤ → UInt8) : Option (CString × (ℤ → UInt8)) :=
  let t : Bool := s.head? = some '^'.toUInt8
  let s := if t then s.tail else s
  getcclLoop t s fun c =>
    if 0 ≤ c ∧ c < 128 then (if t then sctab c &&& ~~~STP else sctab c ||| STP) else sctab c

/-- A conversion of a scanner format. -/
structure ScanConv where
  /-- A star stands behind the `%`: nothing is stored. -/
  suppress : Bool
  /-- The width, 30000 if there is none. -/
  len : ℤ
  /-- The size of what is stored. -/
  size : ScanSize
  /-- The conversion character. -/
  type : UInt8
  deriving DecidableEq

/-- What follows the length: the size, the conversion character, the rest of the format and the table. -/
def scanType (sctab : ℤ → UInt8) (fmt : CString) : Option (ScanSize × UInt8 × CString × (ℤ → UInt8)) :=
  if fmt.head? = some 'l'.toUInt8 then some (.long, fmt.tail.headD 0, fmt.tail.tail, sctab)
  else if fmt.head? = some 'h'.toUInt8 then some (.short, fmt.tail.headD 0, fmt.tail.tail, sctab)
  else if fmt.head? = some '['.toUInt8 then (getccl fmt.tail sctab).map fun r =>
    (.regular, '['.toUInt8, r.1, r.2)
  else some (.regular, fmt.headD 0, fmt.tail, sctab)

/-- `isupper`. -/
def isupper (ch : UInt8) : Bool := 65 ≤ ch && ch ≤ 90

/-- What stands behind a `%`. -/
def scanConv (sctab : ℤ → UInt8) (fmt : CString) : Option (ScanConv × CString × (ℤ → UInt8)) :=
  let suppress : Bool := fmt.head? = some '*'.toUInt8
  let num := Doprnt.fmtDigits 0 (if suppress then fmt.tail else fmt)
  let len := if num.1 = 0 then 30000 else num.1
  (scanType sctab num.2).map fun r =>
    ({ suppress, len, size := if isupper r.2.1 then .long else r.1,
       type := if isupper r.2.1 then r.2.1 + 32 else r.2.1 }, r.2.2.1, r.2.2.2)

/-- Where the scanner stands: the string, the table, the next argument, the conversions that have
been stored, what has been stored through which argument, and how much of `numbuf` each conversion
has written. -/
structure ScanState where
  /-- The string. -/
  rd : ScanIn
  /-- The character table, which classes change. -/
  sctab : ℤ → UInt8
  /-- The number of the next argument. -/
  argno : ℕ
  /-- How many conversions have been stored. -/
  nmatch : ℕ
  /-- What has been stored through which argument. -/
  stored : List (ℕ × ScanStored)
  /-- How many characters of `numbuf` each conversion has written. -/
  written : List ℕ

/-- The state behind a conversion. -/
def ScanState.convert (s : ScanState) (sctab : ℤ → UInt8) (v : ScanConv) (r : Scanned) : ScanState :=
  { rd := r.rd
    sctab
    argno := if v.suppress then s.argno else s.argno + 1
    nmatch := if r.ret && !v.suppress then s.nmatch + 1 else s.nmatch
    stored := s.stored ++ (r.stored.map fun x => (s.argno, x)).toList
    written := s.written ++ [r.written] }

/-- The main loop. -/
def scanLoop : ℕ → CString → ScanState → Option (ℤ × ScanState)
  | 0, _, _ => none
  | _ + 1, [], s => some (s.nmatch, s)
  | n + 1, ch :: fmt, s =>
    if ch = '%'.toUInt8 ∧ fmt.head? ≠ some '%'.toUInt8 then
      match scanConv s.sctab fmt with
      | none => none
      | some (v, fmt, sctab) =>
        if v.type = 0 then some (-1, s)
        else
          let r := innum sctab (!v.suppress) v.type v.len v.size s.rd
          let s := s.convert sctab v r
          if r.eof then some (if s.nmatch ≠ 0 then (s.nmatch : ℤ) else -1, s) else scanLoop n fmt s
    else if ch = 32 ∨ ch = 10 ∨ ch = 9 then
      let look := skipSpaces s.rd.past s.rd.rest
      scanLoop n fmt { s with rd := if look.1 ≠ EOF then look.2.sungetch else look.2 }
    else
      -- A literal character, also for `%%`.
      let look := s.rd.sgetch
      let fmt := if ch = '%'.toUInt8 then fmt.tail else fmt
      if look.1 ≠ schar ch then
        if look.1 = EOF then some (-1, { s with rd := look.2 })
          else some (s.nmatch, { s with rd := look.2.sungetch })
      else scanLoop n fmt { s with rd := look.2 }

end Doscan

/-- `sscanf`. -/
def sscanf (sctab : ℤ → UInt8) (str fmt : CString) : Option (ℤ × Doscan.ScanState) :=
  Doscan.scanLoop (fmt.length + 1) fmt ⟨⟨[], str⟩, sctab, 0, 0, [], []⟩

end Xinu
