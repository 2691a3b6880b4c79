import Xinu.Kernel.Calls

/-!
# The heap

`meminit`, `getmem`, `getstk` and `freemem` on the list of free blocks of `include/memory.h`. The
list is threaded through the free blocks themselves: a block begins with a structure `memblk`, which
holds the address of the next free block and the length of its own. The walks along the list have no
bound in the source: here they run for as many turns as there are addresses, and a walk that is not
over by then never ends (`none`).
-/

namespace Xinu

/-- `HOLESTART`: where the hole between 640K and 1024K begins. -/
abbrev HOLESTART : ℕ := 640 * 1024

/-- `HOLEEND`: where it ends. -/
abbrev HOLEEND : ℕ := 1024 * 1024

/-- The number of addresses, which no list without a cycle exceeds. -/
def ADDRESSES : ℕ := 2 ^ 32

/-- `truncmb(x)`. -/
def truncmb (x : ℕ) : ℕ := x % 2 ^ 32 / 8 * 8

/-- A structure `memblk`: the variable `memlist`, or the first words of a block of memory. -/
inductive Memblk where
  /-- The head of the list. -/
  | memlist
  /-- The structure at an address. -/
  | block (a : ℕ)
  deriving DecidableEq, Repr

/-- The structures `memblk` of the memory and the bounds of the heap. -/
structure Heap where
  /-- `mnext`: the address of the next free block, or `NULL`. -/
  mnext : Memblk → ℕ
  /-- `mlength`: the length of the block. -/
  mlength : Memblk → ℕ
  /-- The address of the variable `memlist`. -/
  memlist : ℕ
  /-- The first address of the heap. -/
  minheap : ℕ
  /-- The last address of the heap. -/
  maxheap : ℕ

namespace Heap

/-- `b->mnext = next`. -/
def setNext (h : Heap) (b : Memblk) (next : ℕ) : Heap := { h with mnext := Function.update h.mnext b next }

/-- `b->mlength = n`. -/
def setLength (h : Heap) (b : Memblk) (n : ℕ) : Heap := { h with mlength := Function.update h.mlength b n }

/-- `memlist.mlength -= nbytes`. -/
def subLength (h : Heap) (nbytes : ℕ) : Heap :=
  h.setLength .memlist ((h.mlength .memlist + 2 ^ 32 - nbytes) % 2 ^ 32)

/-- `b->mlength += nbytes`. -/
def addLength (h : Heap) (b : Memblk) (nbytes : ℕ) : Heap := h.setLength b ((h.mlength b + nbytes) % 2 ^ 32)

/-- `(uint32)b`. -/
def addr (h : Heap) : Memblk → ℕ
  | .memlist => h.memlist
  | .block a => a

/-! ## `getmem` -/

/-- The walk of `getmem`, which takes the first block that is large enough. -/
def getmemLoop (h : Heap) (nbytes : ℕ) : ℕ → Memblk → ℕ → Option (Option ℕ × Heap)
  | 0, _, _ => none
  | n + 1, prev, curr =>
    if curr = 0 then some (none, h)
    else if h.mlength (.block curr) = nbytes then
      -- the block is an exact match
      some (some curr, (h.setNext prev (h.mnext (.block curr))).subLength nbytes)
    else if h.mlength (.block curr) > nbytes then
      -- the low end of a big block is split off
      let leftover := (curr + nbytes) % 2 ^ 32
      let h := h.setNext prev leftover
      let h := h.setNext (.block leftover) (h.mnext (.block curr))
      let h := h.setLength (.block leftover) (h.mlength (.block curr) - nbytes)
      some (some curr, h.subLength nbytes)
    else h.getmemLoop nbytes n (.block curr) (h.mnext (.block curr))

/-- `getmem(nbytes)`: the address of a block, or no address for `SYSERR`. -/
def getmem (h : Heap) (nbytes : ℕ) : Option (Option ℕ × Heap) :=
  if nbytes = 0 then some (none, h)
  else h.getmemLoop (roundmb nbytes) ADDRESSES .memlist (h.mnext .memlist)

/-! ## `getstk` -/

/-- The walk of `getstk`: the last block that is large enough and the structure before it. -/
def getstkLoop (h : Heap) (nbytes : ℕ) : ℕ → Memblk → ℕ → Option (Memblk × ℕ) → Option (Option (Memblk × ℕ))
  | 0, _, _, _ => none
  | n + 1, prev, curr, fits =>
    if curr = 0 then some fits
    else
      h.getstkLoop nbytes n (.block curr) (h.mnext (.block curr))
        (if h.mlength (.block curr) ≥ nbytes then some (prev, curr) else fits)

/-- `getstk(nbytes)`: the address of the highest word of a block. -/
def getstk (h : Heap) (nbytes : ℕ) : Option (Option ℕ × Heap) :=
  if nbytes = 0 then some (none, h)
  else
    let nbytes := roundmb nbytes
    match h.getstkLoop nbytes ADDRESSES .memlist (h.mnext .memlist) none with
    | none => none
    | some none => some (none, h)
    | some (some (fitsprev, fits)) =>
      let (fits, h) :=
        if nbytes = h.mlength (.block fits) then (fits, h.setNext fitsprev (h.mnext (.block fits)))
        else
          -- the top section of the block is removed
          let h := h.setLength (.block fits) (h.mlength (.block fits) - nbytes)
          ((fits + h.mlength (.block fits)) % 2 ^ 32, h)
      some (some ((fits + nbytes - 4) % 2 ^ 32), h.subLength nbytes)

/-! ## `freemem` -/

/-- The walk of `freemem`: the structure before a block, and the address of the block after it. -/
def freememLoop (h : Heap) (block : ℕ) : ℕ → Memblk → ℕ → Option (Memblk × ℕ)
  | 0, _, _ => none
  | n + 1, prev, next =>
    if next ≠ 0 ∧ next < block then h.freememLoop block n (.block next) (h.mnext (.block next))
    else some (prev, next)

/-- Either the block is joined with the one before it, or it is linked into the list: the structure
of the block. -/
def linkPrev (h : Heap) (prev : Memblk) (next top block nbytes : ℕ) : Memblk × Heap :=
  if top = block then (prev, h.addLength prev nbytes)
  else (.block block, ((h.setNext (.block block) next).setLength (.block block) nbytes).setNext prev block)

/-- The block is joined with the one after it if they are adjacent. -/
def linkNext (h : Heap) (block : Memblk) (next : ℕ) : Heap :=
  if (h.addr block + h.mlength block) % 2 ^ 32 = next then
    (h.addLength block (h.mlength (.block next))).setNext block (h.mnext (.block next))
  else h

/-- `freemem(blkaddr, nbytes)`: whether the block is taken back. -/
def freemem (h : Heap) (blkaddr nbytes : ℕ) : Option (Bool × Heap) :=
  if nbytes = 0 ∨ blkaddr < h.minheap ∨ h.maxheap < blkaddr then some (false, h)
  else
    let nbytes := roundmb nbytes
    match h.freememLoop blkaddr ADDRESSES .memlist (h.mnext .memlist) with
    | none => none
    | some (prev, next) =>
      let top := if prev = .memlist then 0 else (h.addr prev + h.mlength prev) % 2 ^ 32
      -- the block must not overlap the one before it, or the one after it
      if (prev ≠ .memlist ∧ blkaddr < top) ∨ (next ≠ 0 ∧ next < (blkaddr + nbytes) % 2 ^ 32) then
        some (false, h)
      else
        let (block, h) := (h.addLength .memlist nbytes).linkPrev prev next top blkaddr nbytes
        some (true, h.linkNext block next)

/-- `freestk(p, len)`. -/
def freestk (h : Heap) (p len : ℕ) : Option (Bool × Heap) :=
  h.freemem ((p + 2 ^ 32 - roundmb len + 4) % 2 ^ 32) (roundmb len)

/-! ## `meminit` -/

/-- `meminit()`, with the end of the image that the linker gives. -/
def meminit (h : Heap) (ending : ℕ) : Heap :=
  let h := { h with minheap := ending }
  let memptr := roundmb h.minheap
  let h := h.setNext .memlist memptr
  if h.maxheap + 1 > HOLESTART then
    -- two blocks that straddle the hole
    let h := h.setNext (.block memptr) HOLEEND
    let h := h.setLength (.block memptr) (truncmb (HOLESTART + 2 ^ 32 - ending - 4))
    let memptr := HOLEEND
    let h := h.setNext (.block memptr) 0
    h.setLength (.block memptr) (truncmb (h.maxheap + 2 ^ 32 - HOLEEND - NULLSTK))
  else
    let memptr := roundmb ending
    let h := h.setNext .memlist memptr
    let h := h.setNext (.block memptr) 0
    h.setLength (.block memptr) (truncmb (h.maxheap + 2 ^ 32 - ending - NULLSTK))

/-- `maxheap = (char *)(npages * PAGE_SIZE - 1)` of `setsegs`, which runs before `meminit`. -/
def setsegs (h : Heap) : Heap := { h with maxheap := XINU_PAGES * PAGE_SIZE - 1 }

end Heap

end Xinu
