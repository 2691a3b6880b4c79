import Xinu.Lib.FatPivot
import Mathlib.Algebra.Order.Ring.Int

/-!
# Quicksort

`lib/qsort.c`. Pointers are integers and memory is a function of them. The addresses of the bytes
that are read or written are noted on the way. The loops have a number of rounds left, and there is
no result if it does not suffice.

The source keeps the comparison and the size of an element in static variables, `qscmp` and `qses`.
Here they are parameters: the comparison is a function of two elements, and one that called `qsort`
itself, and so changed these variables, is left out.
-/

namespace Xinu

/-- An `unsigned` variable. -/
def unsigned (x : ℤ) : ℤ := x % 2 ^ 32

/-- Memory, and the addresses of the bytes that have been used. -/
structure QsMem where
  /-- The byte at each address. -/
  mem : ℤ → UInt8
  /-- The addresses that have been read or written, the first ones first. -/
  used : List ℤ

/-- The element of so many bytes at an address. -/
def element (es : ℕ) (mem : ℤ → UInt8) (x : ℤ) : Fin es → UInt8 := fun t => mem (x + (t : ℕ))

/-- The addresses of its bytes. -/
def elementBytes (es : ℕ) (x : ℤ) : List ℤ := (List.range es).map fun t : ℕ => x + t

/-- The calls of the comparison function, which reads two elements. -/
def qscmp {es : ℕ} (cmp : (Fin es → UInt8) → (Fin es → UInt8) → ℤ) (x y : ℤ) (s : QsMem) : ℤ × QsMem :=
  (cmp (element es s.mem x) (element es s.mem y),
    { s with used := s.used ++ elementBytes es x ++ elementBytes es y })

/-- The loop of `qsexc`. -/
def qsexcLoop : ℕ → ℤ → ℤ → QsMem → QsMem
  | 0, _, _, s => s
  | n + 1, ri, rj, s =>
    let c := s.mem ri
    let mem := Function.update s.mem ri (s.mem rj)
    let mem := Function.update mem rj c
    qsexcLoop n (ri + 1) (rj + 1) ⟨mem, s.used ++ [ri, rj]⟩

/-- `qsexc(i, j)`. Elements have a byte at least, so that the test behind the round is one before it. -/
def qsexc (es : ℕ) (i j : ℤ) (s : QsMem) : QsMem := qsexcLoop es i j s

/-- The loop of `qstexc`. -/
def qstexcLoop : ℕ → ℤ → ℤ → ℤ → QsMem → QsMem
  | 0, _, _, _, s => s
  | n + 1, ri, rj, rk, s =>
    let c := s.mem ri
    let mem := Function.update s.mem ri (s.mem rk)
    let mem := Function.update mem rk (mem rj)
    let mem := Function.update mem rj c
    qstexcLoop n (ri + 1) (rj + 1) (rk + 1) ⟨mem, s.used ++ [ri, rj, rk]⟩

/-- `qstexc(i, j, k)`. -/
def qstexc (es : ℕ) (i j k : ℤ) (s : QsMem) : QsMem := qstexcLoop es i j k s

/-- The variables of the loop of `qs1`. -/
structure QsVars where
  /-- The element that is compared from below. -/
  i : ℤ
  /-- The element that is compared from above. -/
  j : ℤ
  /-- The first element that is equal to the pivot. -/
  lp : ℤ
  /-- The last one. -/
  hp : ℤ
  /-- Memory. -/
  st : QsMem

/-- Where the loop goes on: at its top, at the label `loop`, or behind it, with `i == lp`. -/
inductive QsNext where
  | top (r : QsVars)
  | loop (r : QsVars)
  | done (r : QsVars)

variable {es : ℕ} (cmp : (Fin es → UInt8) → (Fin es → UInt8) → ℤ)

/-- From the label `loop` on. -/
def qsLabel (r : QsVars) : QsNext :=
  if r.j > r.hp then
    let c := qscmp cmp r.hp r.j r.st
    let r := { r with st := c.2 }
    if c.1 = 0 then .loop { r with hp := r.hp + es, st := qsexc es (r.hp + es) r.j r.st }
    else if c.1 > 0 then
      if r.i = r.lp then
        .loop { r with hp := r.hp + es, lp := r.lp + es, i := r.lp + es,
                       st := qstexc es r.i (r.hp + es) r.j r.st }
      else .top { r with j := r.j - es, i := r.i + es, st := qsexc es r.i r.j r.st }
    else .loop { r with j := r.j - es }
  else if r.i = r.lp then .done r
  else .top
    { r with lp := r.lp - es, hp := r.hp - es, j := r.hp - es, st := qstexc es r.j (r.lp - es) r.i r.st }

/-- From the top of the loop on. -/
def qsTop (r : QsVars) : QsNext :=
  if r.i < r.lp then
    let c := qscmp cmp r.i r.lp r.st
    let r := { r with st := c.2 }
    if c.1 = 0 then .top { r with lp := r.lp - es, st := qsexc es r.i (r.lp - es) r.st }
    else if c.1 < 0 then .top { r with i := r.i + es }
    else qsLabel cmp r
  else qsLabel cmp r

/-- The loop of `qs1`. -/
def qsLoop : ℕ → QsNext → Option QsVars
  | _, .done r => some r
  | 0, _ => none
  | n + 1, .top r => qsLoop n (qsTop cmp r)
  | n + 1, .loop r => qsLoop n (qsLabel cmp r)

/-- `qs1(a, l)`. The jump to `start` is a call, with `a` or `l` changed. -/
def qs1 : ℕ → ℤ → ℤ → QsMem → Option QsMem
  | 0, _, _, _ => none
  | fuel + 1, a, l, s =>
    let n := unsigned (l - a)
    if n ≤ es then some s
    else
      let n := unsigned (es * (n / unsigned (2 * es)))
      let lp := a + n
      (qsLoop cmp fuel (.top { i := a, j := l - es, lp := lp, hp := lp, st := s })).bind fun r =>
        if r.lp - a ≥ l - r.hp then (qs1 fuel (r.hp + es) l r.st).bind fun s => qs1 fuel a r.lp s
        else (qs1 fuel a r.lp r.st).bind fun s => qs1 fuel (r.hp + es) l s

/-- `qsort(a, n, es, fc)`. -/
def qsort (a : ℤ) (n : ℕ) (s : QsMem) : Option QsMem := qs1 cmp (n + 1) a (a + unsigned (n * es)) s

end Xinu
