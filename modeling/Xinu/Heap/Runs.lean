import Xinu.Heap.Links

/-!
# Runs of the heap

Calls of `getmem`, `getstk`, `freemem` and `freestk` in any order, from the heap that `meminit` sets
up, while the holders of blocks write into them. Whether the free list is in order in every run
depends on where the image ends: `meminit` takes for granted that it ends below the hole
(`heap_ok`).
-/

namespace Xinu

open Regions

/-- A block that is given out: its first address, and the size that was asked for, as the memory it takes. -/
def held (o : ℕ × ℕ) : ℕ × ℕ := (o.1, roundmb o.2)

/-- A structure that lies in a block given out. -/
def Lent (out : List (ℕ × ℕ)) (x : Memblk) : Prop :=
  ∃ o ∈ out, ∃ a, x = .block a ∧ o.1 ≤ a ∧ a < o.1 + roundmb o.2

/-- One call, or a write of a holder into a block: the heap and the blocks given out. A request is
for `2^31` bytes at most, and a block is given back once and with its own size. -/
inductive HeapStep : Heap × List (ℕ × ℕ) → Heap × List (ℕ × ℕ) → Prop
  | getmem {h h' out n r} (hn : n ≤ 2 ^ 31) (he : h.getmem n = some (r, h')) :
    HeapStep (h, out) (h', r.elim out fun a => (a, n) :: out)
  | getstk {h h' out n r} (hn : n ≤ 2 ^ 31) (he : h.getstk n = some (r, h')) :
    HeapStep (h, out) (h', r.elim out fun p => (p + 4 - roundmb n, n) :: out)
  | freemem {h h' out a n r} (ho : (a, n) ∈ out) (he : h.freemem a n = some (r, h')) :
    HeapStep (h, out) (h', out.erase (a, n))
  | freestk {h h' out a n r} (ho : (a, n) ∈ out) (he : h.freestk (a + roundmb n - 4) n = some (r, h')) :
    HeapStep (h, out) (h', out.erase (a, n))
  | write {h h' out} (hnext : ∀ x, ¬ Lent out x → h'.mnext x = h.mnext x)
    (hlen : ∀ x, ¬ Lent out x → h'.mlength x = h.mlength x)
    (hmin : h'.minheap = h.minheap) (hmax : h'.maxheap = h.maxheap) :
    HeapStep (h, out) (h', out)

/-- The free list is in order, beside the blocks given out. -/
structure FreeListOk (l out : List (ℕ × ℕ)) (total : ℕ) : Prop where
  /-- The free blocks are in the order of their addresses. -/
  ascending : l.Pairwise fun b c => b.1 < c.1
  /-- They do not overlap. -/
  disjoint : l.Pairwise Apart
  /-- They do not overlap a block given out. -/
  apart : ∀ b ∈ l, ∀ o ∈ out, Apart b (held o)
  /-- No two of them touch. -/
  coalesced : l.IsChain fun b c => b.1 + b.2 ≠ c.1
  /-- Their lengths are multiples of 8, and not 0. -/
  lengths : ∀ b ∈ l, 0 < b.2 ∧ 8 ∣ b.2
  /-- Free and given out, the memory is what there was at first. -/
  total : size l + size (out.map held) = total

/-- The links are those of a free list in order, every call returns, and every block given out can
be given back. -/
structure HeapOk (h : Heap) (out : List (ℕ × ℕ)) (total : ℕ) : Prop where
  /-- The free list is in order. -/
  list : ∃ l, h.Lists l ∧ FreeListOk l out total
  /-- `getmem` returns. -/
  getmem : ∀ n ≤ 2 ^ 31, (h.getmem n).isSome
  /-- `getstk` returns. -/
  getstk : ∀ n ≤ 2 ^ 31, (h.getstk n).isSome
  /-- A block given out by `getmem` is taken back. -/
  freemem : ∀ o ∈ out, ∃ h', h.freemem o.1 o.2 = some (true, h')
  /-- A stack is taken back by the address of its last word. -/
  freestk : ∀ o ∈ out, ∃ h', h.freestk (o.1 + roundmb o.2 - 4) o.2 = some (true, h')

/-- The heap is in order in every run from its start. -/
def HeapSafe (h : Heap) : Prop :=
  ∃ total, ∀ h' out, Relation.ReflTransGen HeapStep (h, []) (h', out) → HeapOk h' out total

/-! ## The invariant -/

/-- The memory between two addresses of the heap is divided among the free list and the blocks given out. -/
structure HeapInv (low high total : ℕ) (h : Heap) (out : List (ℕ × ℕ)) (l : List (ℕ × ℕ)) : Prop where
  /-- The links lead through the free blocks. -/
  lists : h.Lists l
  /-- The memory is divided. -/
  divided : Divided low high l (out.map held)
  /-- Nothing is lost. -/
  total : size l + size (out.map held) = total
  /-- The memory does not begin at the null pointer. -/
  low_pos : 0 < low
  /-- It begins in the heap. -/
  min_le : h.minheap ≤ low
  /-- It ends in the heap. -/
  le_max : high ≤ h.maxheap + 1
  /-- It ends below the last address. -/
  high_lt : high < 2 ^ 32

section

variable {h h' : Heap} {out l l' : List (ℕ × ℕ)} {low high total n a : ℕ}

/-- The length of a block is a number of structures `memblk`. -/
theorem roundmb_dvd (n : ℕ) : 8 ∣ roundmb n := Nat.dvd_mul_left 8 _

/-- The memory that a request takes. -/
theorem roundmb_pos (h0 : n ≠ 0) (hn : n ≤ 2 ^ 31) : 0 < roundmb n := by
  unfold roundmb
  omega

/-- The free list of a divided heap. -/
theorem HeapInv.isHeld (hi : HeapInv low high total h out l) : h.Held l := by
  refine ⟨hi.lists, hi.divided.free, fun b hb => ?_⟩
  have := (hi.divided.free_inside b hb).le_high
  have := hi.high_lt
  omega

/-- The free list of a divided heap is in order. -/
theorem HeapInv.ok (hi : HeapInv low high total h out l) : FreeListOk l out total := by
  refine ⟨hi.divided.free.ascending, hi.divided.free.disjoint,
    fun b hb o ho => ?_, ?_, fun b hb => ?_, hi.total⟩
  · exact hi.divided.apart b hb _ (List.mem_map_of_mem ho)
  · exact (hi.divided.free.gap.imp fun hg => ne_of_lt hg).isChain
  · exact ⟨hi.divided.free.pos b hb, (hi.divided.free_inside b hb).length⟩

/-- The invariant is kept if a request is taken from one end of a free block. -/
theorem HeapInv.take (hi : HeapInv low high total h out l)
    (ht : Taken (roundmb n) l a l') (hr : 0 < roundmb n)
    (hl : h'.Lists l') (hmin : h'.minheap = h.minheap) (hmax : h'.maxheap = h.maxheap) :
    HeapInv low high total h' ((a, n) :: out) l' := by
  obtain ⟨hdiv, hsize⟩ := hi.divided.take ht hr (roundmb_dvd n)
  refine ⟨hl, hdiv, ?_, hi.low_pos, hmin ▸ hi.min_le, hmax ▸ hi.le_max, hi.high_lt⟩
  have htotal := hi.total
  rw [List.map_cons, size_cons]
  dsimp only [held]
  omega

/-- `getmem` of up to `2 ^ 31` bytes returns, and keeps the invariant with the block it gives out.
-/
theorem HeapInv.getmem (hi : HeapInv low high total h out l) (hn : n ≤ 2 ^ 31) :
    ∃ r h' l', h.getmem n = some (r, h') ∧ HeapInv low high total h'
      (r.elim out fun a => (a, n) :: out) l' := by
  by_cases h0 : n = 0
  · exact ⟨none, h, l, if_pos h0, hi⟩
  have hr := roundmb_pos h0 hn
  rcases Heap.getmem_spec hi.isHeld h0 hr with ⟨-, he⟩ | ⟨a, l', h', ht, he, hl, hmin, hmax⟩
  · exact ⟨none, h, l, he, hi⟩
  · exact ⟨some a, h', l', he, hi.take (takeFirst_taken ht) hr hl hmin hmax⟩

/-- `getstk` of up to `2 ^ 31` bytes returns, and keeps the invariant with the block it gives out.
-/
theorem HeapInv.getstk (hi : HeapInv low high total h out l) (hn : n ≤ 2 ^ 31) :
    ∃ r h' l', h.getstk n = some (r, h') ∧
      HeapInv low high total h' (r.elim out fun p => (p + 4 - roundmb n, n) :: out) l' := by
  by_cases h0 : n = 0
  · exact ⟨none, h, l, if_pos h0, hi⟩
  have hr := roundmb_pos h0 hn
  rcases Heap.getstk_spec hi.isHeld h0 hr with ⟨-, he⟩ | ⟨p, l', h', ht, he, hl, hmin, hmax⟩
  · exact ⟨none, h, l, he, hi⟩
  refine ⟨some p, h', l', he, ?_⟩
  unfold Xinu.getstk at ht
  rw [if_neg h0] at ht
  obtain ⟨⟨top, l''⟩, htake, heq⟩ := Option.map_eq_some_iff.mp ht
  obtain ⟨rfl, rfl⟩ := Prod.mk.inj heq
  obtain ⟨hle, htaken⟩ := takeLast_taken htake
  have h8 := Nat.le_of_dvd hr (roundmb_dvd n)
  have hbase : top - 4 + 4 - roundmb n = top - roundmb n := by omega
  change HeapInv low high total h' ((top - 4 + 4 - roundmb n, n) :: out) l''
  rw [hbase]
  exact hi.take htaken hr hl hmin hmax

/-- `freemem` takes back a block that was given out, and keeps the invariant. -/
theorem HeapInv.freemem {k : ℕ} (hi : HeapInv low high total h out l)
    (ho : (a, n) ∈ out) (hk : roundmb k = roundmb n) :
    ∃ h' l', h.freemem a k = some (true, h') ∧ HeapInv low high total h' (out.erase (a, n)) l' := by
  have hperm : (out.map held).Perm (held (a, n) :: (out.erase (a, n)).map held) :=
    (List.perm_cons_erase ho).map held
  have hdiv : Divided low high l ((a, roundmb n) :: (out.erase (a, n)).map held) := hi.divided.perm hperm
  have h0 : k ≠ 0 := by
    rintro rfl
    have := (hdiv.given_inside _ List.mem_cons_self).pos
    rw [← hk] at this
    exact lt_irrefl _ this
  rw [← hk] at hdiv
  obtain ⟨h', he, hl, hmin, hmax⟩ :=
    Heap.freemem_spec hi.isHeld h0 hdiv hi.low_pos hi.min_le hi.le_max hi.high_lt
  obtain ⟨hput, hsize⟩ := hdiv.put
  refine ⟨h', _, he, ⟨hl, hput, ?_, hi.low_pos, hmin ▸ hi.min_le, hmax ▸ hi.le_max, hi.high_lt⟩⟩
  have htotal := hi.total
  have hgiven : size (out.map held) = roundmb n + size ((out.erase (a, n)).map held) := by
    unfold size
    rw [(hperm.map Prod.snd).sum_eq]
    rfl
  omega

/-- `freestk` is `freemem` on the block that ends with a stack. -/
theorem HeapInv.freestk (hi : HeapInv low high total h out l) (ho : (a, n) ∈ out) :
    h.freestk (a + roundmb n - 4) n = h.freemem a (roundmb n) ∧ roundmb (roundmb n) = roundmb n := by
  have hin := hi.divided.given_inside _ (List.mem_map_of_mem ho)
  have hpos : 0 < roundmb n := hin.pos
  have hle : a + roundmb n ≤ high := hin.le_high
  have hhigh := hi.high_lt
  have h8 := Nat.le_of_dvd hpos (roundmb_dvd n)
  have hbase : (a + roundmb n - 4 + 2 ^ 32 - roundmb n + 4) % 2 ^ 32 = a := by omega
  constructor
  · unfold Heap.freestk
    rw [hbase]
  · have : roundmb n < 2 ^ 32 := by omega
    have h8' := roundmb_dvd n
    generalize roundmb n = k at *
    unfold roundmb
    omega

/-- A write into a block that is given out leaves the free list alone. -/
theorem HeapInv.write (hi : HeapInv low high total h out l)
    (hnext : ∀ x, ¬ Lent out x → h'.mnext x = h.mnext x)
    (hlen : ∀ x, ¬ Lent out x → h'.mlength x = h.mlength x)
    (hmin : h'.minheap = h.minheap) (hmax : h'.maxheap = h.maxheap) :
    HeapInv low high total h' out l := by
  have hfree : ∀ x ∈ Heap.nodes l, ¬ Lent out x := by
    rintro x hx ⟨o, ho, a, rfl, hle, hlt⟩
    obtain ⟨b, hb, he⟩ := List.mem_map.mp hx
    have hap := hi.divided.apart b hb _ (List.mem_map_of_mem (f := held) ho)
    have := hi.divided.free.pos b hb
    have := Memblk.block.inj he
    unfold Apart held at hap
    dsimp only at hap
    omega
  refine ⟨hi.lists.of_eq (List.forall_mem_cons.mpr ⟨hnext _ ?_, fun x hx => hnext x (hfree x hx)⟩)
    fun x hx => hlen x (hfree x hx), hi.divided, hi.total, hi.low_pos,
      hmin ▸ hi.min_le, hmax ▸ hi.le_max, hi.high_lt⟩
  rintro ⟨o, -, a, ha, -⟩
  cases ha

/-- Every call of a run keeps the invariant, with some list of free blocks. -/
theorem HeapInv.step {out' : List (ℕ × ℕ)} (hi : HeapInv low high total h out l)
    (hs : HeapStep (h, out) (h', out')) :
    ∃ l', HeapInv low high total h' out' l' := by
  cases hs with
  | getmem hn he =>
    obtain ⟨r, h₁, l', he', hi'⟩ := hi.getmem hn
    obtain ⟨rfl, rfl⟩ := Prod.mk.inj (Option.some.inj (he.symm.trans he'))
    exact ⟨l', hi'⟩
  | getstk hn he =>
    obtain ⟨r, h₁, l', he', hi'⟩ := hi.getstk hn
    obtain ⟨rfl, rfl⟩ := Prod.mk.inj (Option.some.inj (he.symm.trans he'))
    exact ⟨l', hi'⟩
  | freemem ho he =>
    obtain ⟨h₁, l', he', hi'⟩ := hi.freemem ho rfl
    obtain ⟨-, rfl⟩ := Prod.mk.inj (Option.some.inj (he.symm.trans he'))
    exact ⟨l', hi'⟩
  | freestk ho he =>
    obtain ⟨heq, hround⟩ := hi.freestk ho
    obtain ⟨h₁, l', he', hi'⟩ := hi.freemem ho hround
    obtain ⟨-, rfl⟩ := Prod.mk.inj (Option.some.inj ((heq ▸ he).symm.trans he'))
    exact ⟨l', hi'⟩
  | write hnext hlen hmin hmax => exact ⟨l, hi.write hnext hlen hmin hmax⟩

/-- The invariant says that the heap is in order. -/
theorem HeapInv.heapOk (hi : HeapInv low high total h out l) : HeapOk h out total := by
  refine ⟨⟨l, hi.lists, hi.ok⟩, fun n hn => ?_, fun n hn => ?_, fun o ho => ?_, fun o ho => ?_⟩
  · obtain ⟨r, h', -, he, -⟩ := hi.getmem hn
    rw [he]
    rfl
  · obtain ⟨r, h', -, he, -⟩ := hi.getstk hn
    rw [he]
    rfl
  · obtain ⟨h', -, he, -⟩ := hi.freemem ho rfl
    exact ⟨h', he⟩
  · obtain ⟨heq, hround⟩ := hi.freestk ho
    obtain ⟨h', -, he, -⟩ := hi.freemem ho hround
    exact ⟨h', heq.trans he⟩

/-- The heap is in order in every run from a state with the invariant. -/
theorem HeapInv.safe (hi : HeapInv low high total h [] l) : HeapSafe h := by
  refine ⟨total, fun h' out hrun => ?_⟩
  suffices hinv : ∀ s : Heap × List (ℕ × ℕ), Relation.ReflTransGen HeapStep (h, []) s →
      ∃ l', HeapInv low high total s.1 s.2 l' by
    obtain ⟨l', hi'⟩ := hinv _ hrun
    exact hi'.heapOk
  intro s hs
  induction hs with
  | refl => exact ⟨l, hi⟩
  | tail _ hstep ih =>
    obtain ⟨l', hi'⟩ := ih
    exact hi'.step hstep

end

/-! ## The start -/

section

variable (h : Heap) {l l' : List (ℕ × ℕ)} {ending : ℕ}

/-- The links of a memory are those of one list. -/
theorem Heap.Lists.unique {h : Heap} (hl : h.Lists l) (hl' : h.Lists l') : l = l' := by
  obtain ⟨h₁, hn₁⟩ := hl
  obtain ⟨h₂, hn₂⟩ := hl'
  generalize Memblk.memlist = m at *
  induction l generalizing m l' with
  | nil =>
    cases l' with
    | nil => rfl
    | cons c l' => exact absurd (h₂.1.symm.trans hn₁) h₂.2.1
  | cons b l ih =>
    cases l' with
    | nil => exact absurd (h₁.1.symm.trans hn₂) h₁.2.1
    | cons c l' =>
      have hstart : b.1 = c.1 := h₁.1.symm.trans h₂.1
      have hlen : b.2 = c.2 := by rw [← h₁.2.2.1, ← h₂.2.2.1, hstart]
      obtain rfl : b = c := Prod.ext hstart hlen
      rw [ih _ h₁.2.2.2 hn₁ h₂.2.2.2 hn₂]

/-- The length of the first block that `meminit` makes: what is left below the hole. -/
def lowLength (ending : ℕ) : ℕ := truncmb (HOLESTART + 2 ^ 32 - ending - 4)

/-- The length of the second one, between the hole and the stack of the null process. -/
def highLength : ℕ := truncmb (XINU_PAGES * PAGE_SIZE - 1 + 2 ^ 32 - HOLEEND - NULLSTK)

/-- The memory reaches beyond the hole: `meminit` sets up two blocks. -/
theorem meminit_eq : h.setsegs.meminit ending =
    { mnext := Function.update (Function.update (Function.update h.mnext .memlist (roundmb ending))
        (.block (roundmb ending)) HOLEEND) (.block HOLEEND) 0,
      mlength := Function.update (Function.update h.mlength (.block (roundmb ending)) (lowLength ending))
        (.block HOLEEND) highLength,
      memlist := h.memlist, minheap := ending, maxheap := XINU_PAGES * PAGE_SIZE - 1 } := by
  simp only [Heap.meminit, Heap.setsegs, Heap.setNext, Heap.setLength, lowLength, highLength]
  exact if_pos (by decide)

/-- The two blocks of `meminit`, if the image does not end at the end of the hole. -/
theorem meminit_two (h0 : roundmb ending ≠ 0) (hne : roundmb ending ≠ HOLEEND) :
    (h.setsegs.meminit ending).Lists [(roundmb ending, lowLength ending), (HOLEEND, highLength)] := by
  rw [meminit_eq]
  constructor
  · simp [Heap.Links, h0, hne]
  · simp [Heap.lastNode]

/-- If it does, the second block takes the place of the first one. -/
theorem meminit_one (he : roundmb ending = HOLEEND) :
    (h.setsegs.meminit ending).Lists [(HOLEEND, highLength)] := by
  rw [meminit_eq, he]
  constructor
  · simp [Heap.Links]
  · simp [Heap.lastNode]

/-- An image that ends at the last address leaves no block. -/
theorem meminit_none (he : roundmb ending = 0) : (h.setsegs.meminit ending).Lists [] := by
  rw [meminit_eq, he]
  constructor
  · trivial
  · simp [Heap.lastNode]

/-- Nothing is given out at the start: a list of separated blocks is all there is. -/
theorem HeapInv.start {low high : ℕ} {h : Heap} (hl : h.Lists l)
    (hfree : Separated l) (hin : ∀ b ∈ l, Inside low high b)
    (hlow : 0 < low) (hmin : h.minheap ≤ low) (hmax : high ≤ h.maxheap + 1) (hhigh : high < 2 ^ 32) :
    HeapInv low high (size l) h [] l :=
  ⟨hl, ⟨hfree, .nil, fun _ _ _ ho => absurd ho List.not_mem_nil, hin, fun _ ho => absurd ho List.not_mem_nil⟩,
    by rw [List.map_nil, size_nil, add_zero], hlow, hmin, hmax, hhigh⟩

/-- The second block lies between the hole and the end of the memory. -/
theorem inside_high {low : ℕ} (hlow : low ≤ HOLEEND) :
    Inside low (XINU_PAGES * PAGE_SIZE) (HOLEEND, highLength) :=
  ⟨by decide, hlow, by decide, by decide, by decide⟩

/-- The first block ends before the hole does. -/
theorem inside_low (hend : ending + 12 ≤ HOLESTART) :
    Inside (roundmb ending) (XINU_PAGES * PAGE_SIZE) (roundmb ending, lowLength ending) ∧
      Gap (roundmb ending, lowLength ending) (HOLEEND, highLength) := by
  have h8 := roundmb_dvd ending
  have h8' : 8 ∣ lowLength ending := Nat.dvd_mul_left 8 _
  have hbounds : 0 < lowLength ending ∧ roundmb ending + lowLength ending < HOLEEND := by
    unfold lowLength truncmb roundmb
    dsimp only [HOLESTART, HOLEEND] at *
    omega
  have hmem : HOLEEND ≤ XINU_PAGES * PAGE_SIZE := by decide
  exact ⟨⟨hbounds.1, le_rfl, (le_of_lt hbounds.2).trans hmem, h8, h8'⟩, hbounds.2⟩

/-- The memory is divided at the start, if the image ends at least 12 bytes below the hole, or at
its end, or at the last address. -/
theorem meminit_inv (he : ending < 2 ^ 32)
    (hcond : ending + 12 ≤ HOLESTART ∨ roundmb ending = HOLEEND ∨ roundmb ending = 0) :
    ∃ low high total l, HeapInv low high total (h.setsegs.meminit ending) [] l := by
  have hmem : XINU_PAGES * PAGE_SIZE ≤ XINU_PAGES * PAGE_SIZE - 1 + 1 := by decide
  have hlt : XINU_PAGES * PAGE_SIZE < 2 ^ 32 := by decide
  have hmin : (h.setsegs.meminit ending).minheap = ending := by rw [meminit_eq]
  have hmax : (h.setsegs.meminit ending).maxheap + 1 = XINU_PAGES * PAGE_SIZE - 1 + 1 := by rw [meminit_eq]
  have hle : roundmb ending = 0 ∨ ending ≤ roundmb ending := by
    unfold roundmb
    omega
  -- An image that ends above the last multiple of 8 leaves no free block.
  by_cases h0 : roundmb ending = 0
  · have hin : ∀ b ∈ ([] : List (ℕ × ℕ)), Inside (ending + 1) 0 b := fun b hb => absurd hb List.not_mem_nil
    exact ⟨_, _, _, _, HeapInv.start (meminit_none h h0) separated_nil hin
      (Nat.succ_pos _) (hmin ▸ Nat.le_succ _) (Nat.zero_le _)
      (by decide)⟩
  have hle' := hle.resolve_left h0
  -- An image that ends at the end of the hole leaves the block above it.
  by_cases hone : roundmb ending = HOLEEND
  · have hsep : Separated [(HOLEEND, highLength)] :=
      separated_cons.mpr ⟨separated_nil, by decide, fun c hc => absurd hc List.not_mem_nil⟩
    have hin : ∀ b ∈ [(HOLEEND, highLength)], Inside HOLEEND (XINU_PAGES * PAGE_SIZE) b :=
      List.forall_mem_singleton.mpr (inside_high le_rfl)
    exact ⟨_, _, _, _, HeapInv.start (meminit_one h hone) hsep hin
      (by decide) (hmin ▸ hone ▸ hle') (hmax ▸ hmem) hlt⟩
  -- In all other cases there is a free block on each side of the hole.
  have hend : ending + 12 ≤ HOLESTART := by tauto
  obtain ⟨hinlow, hgap⟩ := inside_low hend
  have hlow : roundmb ending ≤ HOLEEND := (Nat.le_add_right _ _).trans (le_of_lt hgap)
  have hsep : Separated [(roundmb ending, lowLength ending), (HOLEEND, highLength)] :=
    separated_cons.mpr ⟨separated_cons.mpr ⟨separated_nil, by decide, fun c hc => absurd hc List.not_mem_nil⟩,
      hinlow.pos, List.forall_mem_singleton.mpr hgap⟩
  have hin : ∀ b ∈ [(roundmb ending, lowLength ending), (HOLEEND, highLength)],
      Inside (roundmb ending) (XINU_PAGES * PAGE_SIZE) b :=
    List.forall_mem_cons.mpr ⟨hinlow, List.forall_mem_singleton.mpr (inside_high hlow)⟩
  exact ⟨_, _, _, _, HeapInv.start (meminit_two h h0 hone) hsep hin
    (Nat.pos_of_ne_zero h0) (hmin ▸ hle') (hmax ▸ hmem) hlt⟩

/-- The free list is in order in every run from `meminit` if and only if the image ends at least 12
bytes below the hole, or at its end (or at the last address, so that nothing is free). Otherwise the
length of the block below the hole is computed from `HOLESTART - &end - 4`, which is not positive.
-/
theorem heap_ok (he : ending < 2 ^ 32) : HeapSafe (h.setsegs.meminit ending) ↔
    ending + 12 ≤ HOLESTART ∨ roundmb ending = HOLEEND ∨ roundmb ending = 0 := by
  constructor
  · intro hsafe
    by_contra hnot
    obtain ⟨hlow, hne, h0⟩ : ¬ ending + 12 ≤ HOLESTART ∧ roundmb ending ≠ HOLEEND ∧ roundmb ending ≠ 0 := by
      tauto
    obtain ⟨total, hok⟩ := hsafe
    obtain ⟨l, hl, hord⟩ := (hok _ [] .refl).list
    obtain rfl := hl.unique (meminit_two h h0 hne)
    have hasc := (List.pairwise_cons.mp hord.ascending).1 _ List.mem_cons_self
    have hdis := (List.pairwise_cons.mp hord.disjoint).1 _ List.mem_cons_self
    have hpos := (hord.lengths _ List.mem_cons_self).1
    unfold Apart lowLength truncmb at *
    unfold roundmb at *
    dsimp only [HOLESTART, HOLEEND] at *
    omega
  · intro hcond
    obtain ⟨low, high, total, l, hi⟩ := meminit_inv h he hcond
    exact hi.safe

/-- A memory without any structure, as the loader leaves it. -/
def clearedHeap : Heap := ⟨fun _ => 0, fun _ => 0, 0, 0, 0⟩

/-- An image that ends at 512K leaves the heap in order. -/
theorem heap_ok_low : HeapSafe (clearedHeap.setsegs.meminit 0x80000) :=
  (heap_ok clearedHeap (by decide)).mpr (.inl (by decide))

/-- The image of the repository starts at 1024K and ends at `0x146000`: the free list does not increase. -/
theorem heap_wraps : ¬ HeapSafe (clearedHeap.setsegs.meminit 0x146000) := by
  rintro ⟨total, hok⟩
  obtain ⟨l, hl, hord⟩ := (hok _ [] .refl).list
  obtain rfl := hl.unique (meminit_two clearedHeap (by decide) (by decide))
  exact absurd ((List.pairwise_cons.mp hord.ascending).1 _ List.mem_cons_self) (by decide)

end

end Xinu
