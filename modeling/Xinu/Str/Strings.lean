import Xinu.Fmt.Doscan

/-!
# String functions

`strstr`, `strcmp`, `strncmp`, `memcmp` and `atoi` of `lib/`. A string is the list of its characters
up to the null character: where the list ends, the null character is read. A `char` is signed.
Places in a string are counted from its beginning.
-/

namespace Xinu

/-- The inner loop of `strstr`: whether it stops at the end of `ct`. -/
def strstrLoop : CString → CString → Bool
  | _, [] => true
  | [], _ :: _ => false
  | c :: cq, d :: cr => if c ≠ d then false else strstrLoop cq cr

/-- `strstr(cs, ct)`: the place that is returned. -/
def strstr : CString → CString → Option ℕ
  | [], _ => none
  | c :: cs, ct =>
    if c = ct.headD 0 ∧ strstrLoop (c :: cs) ct = true then some 0 else (strstr cs ct).map (· + 1)

/-- The end of `strcmp`. -/
def charOrder (c d : UInt8) : ℤ := if schar c < schar d then -1 else 1

/-- `strcmp(str1, str2)`. -/
def strcmp : CString → CString → ℤ
  | [], [] => 0
  | [], d :: _ => charOrder 0 d
  | c :: _, [] => charOrder c 0
  | c :: str1, d :: str2 => if c = d then strcmp str1 str2 else charOrder c d

/-- `strncmp(s1, s2, n)`, for a number that is not negative. -/
def strncmp : ℕ → CString → CString → ℤ
  | 0, _, _ => 0
  | _ + 1, [], [] => 0
  | _ + 1, [], d :: _ => schar 0 - schar d
  | _ + 1, c :: _, [] => schar c - schar 0
  | n + 1, c :: s1, d :: s2 => if c = d then strncmp n s1 s2 else schar c - schar d

/-- `memcmp(s1, s2, n)`, for a number that is not negative. -/
def memcmp (m : ℕ → UInt8) : ℕ → ℕ → ℕ → ℤ
  | _, _, 0 => 0
  | s1, s2, n + 1 => if m s1 ≠ m s2 then (m s1).toNat - (m s2).toNat else memcmp m (s1 + 1) (s2 + 1) n

/-- The loop for the digits of `atoi`. -/
def atoiDigits (n : ℤ) : CString → ℤ
  | [] => n
  | ch :: p => if 48 ≤ schar ch ∧ schar ch ≤ 57 then atoiDigits (int32 (n * 10 + schar ch - 48)) p else n

/-- A character that `atoi` skips. -/
def atoiBlank (ch : UInt8) : Bool := ch = 32 || ch = 9

/-- `atoi(p)`. The sums wrap. -/
def atoi (p : CString) : ℤ :=
  match p.dropWhile atoiBlank with
  | [] => 0
  | ch :: q =>
    if ch = 45 then int32 (-atoiDigits 0 q)
    else if ch = 43 then atoiDigits 0 q
    else atoiDigits 0 (ch :: q)

end Xinu
