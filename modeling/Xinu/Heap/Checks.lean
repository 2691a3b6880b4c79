import Xinu.Heap.Runs

/-!
# What the heap checks

Every request and every block that is given back, of any size: `getmem` and `getstk` round the size
up in 32 bits, so that the largest sizes become 0 (`blocks_ok`), and `freemem` compares the start of
the block with the bounds of the heap but not its end (`freed_ok`).
-/

namespace Xinu

open Regions Heap

/-- A free list in order: its blocks lie in the heap, are a number of structures `memblk` and do not touch. -/
structure WellFormed (h : Heap) (l : List (ℕ × ℕ)) : Prop where
  /-- The links lead through the blocks. -/
  lists : h.Lists l
  /-- The blocks ascend, and do not touch. -/
  free : Separated l
  /-- They lie in the heap. -/
  inside : ∀ b ∈ l, Inside h.minheap (h.maxheap + 1) b
  /-- The heap does not begin at the null pointer. -/
  min_pos : 0 < h.minheap
  /-- It ends below the last address. -/
  max_lt : h.maxheap + 1 < 2 ^ 32

/-- The size in bytes, rounded up without a bound. -/
def memBytes (n : ℕ) : ℕ := (n + 7) / 8 * 8

/-- A call is refused and changes nothing, or it gives out a block of at least `n` bytes, which lay
in a free block and shares no address with one that is free now. From the address that is returned
and the length comes the block. -/
def GivesOut (h : Heap) (l : List (ℕ × ℕ)) (n : ℕ) (block : ℕ → ℕ → ℕ × ℕ)
    (call : Option (Option ℕ × Heap)) : Prop :=
  call = some (none, h) ∨
  ∃ r h' l' k, call = some (some r, h') ∧ h'.Lists l' ∧ n ≤ k ∧ (block r k).2 = k ∧
    (∃ b ∈ l, b.1 ≤ (block r k).1 ∧ (block r k).1 + k ≤ b.1 + b.2) ∧ ∀ c ∈ l', Apart c (block r k)

/-- `getmem` returns the lowest address of a block. -/
def fromLowest (r k : ℕ) : ℕ × ℕ := (r, k)

/-- `getstk` returns the address of its highest word. -/
def fromHighest (r k : ℕ) : ℕ × ℕ := (r + 4 - k, k)

/-- The block can be taken back: it lies in the heap and overlaps no free block. -/
structure Returnable (h : Heap) (l : List (ℕ × ℕ)) (a n : ℕ) : Prop where
  /-- It begins in the heap. -/
  min_le : h.minheap ≤ a
  /-- It ends in the heap. -/
  le_max : a + memBytes n ≤ h.maxheap + 1
  /-- It overlaps no free block. -/
  apart : ∀ b ∈ l, Apart b (a, memBytes n)

/-- `freemem` takes back the blocks that can be taken back, so that their addresses are free as
well, and refuses the others. -/
structure FreesOnly (h : Heap) (l : List (ℕ × ℕ)) (a n : ℕ) : Prop where
  /-- A block that cannot be taken back is refused, and the heap stays as it is. -/
  refused : ¬ Returnable h l a n → h.freemem a n = some (false, h)
  /-- One that can is taken back, and exactly its addresses are free in addition. -/
  taken : Returnable h l a n → ∃ h' l', h.freemem a n = some (true, h') ∧ WellFormed h' l' ∧
    ∀ x, Covers l' x ↔ Covers l x ∨ (a ≤ x ∧ x < a + memBytes n)

/-- The checks of `freemem` against the free blocks: the address lies inside one, or one starts
between the address and the end of the block, as a sum of 32 bits. -/
def Meets (l : List (ℕ × ℕ)) (a n : ℕ) : Prop :=
  (∃ b ∈ l, b.1 < a ∧ a < b.1 + b.2) ∨ ∃ c ∈ l, a ≤ c.1 ∧ c.1 < (a + memBytes n) % 2 ^ 32

section

variable {h h' : Heap} {l l' lo hi : List (ℕ × ℕ)} {a n k : ℕ}

/-! ## Sizes -/

/-- The size is rounded up to what the block takes, up to the last multiple of 8. -/
theorem roundmb_of_le (hn : n ≤ 2 ^ 32 - 8) : roundmb n = memBytes n := by
  unfold roundmb memBytes
  omega

/-- Above the largest size, rounding adds up to `2 ^ 32`, which is 0 in a word. -/
theorem roundmb_of_gt (hn : ¬ n ≤ 2 ^ 32 - 8) (hlt : n < 2 ^ 32) : roundmb n = 0 ∧ memBytes n = 2 ^ 32 := by
  unfold roundmb memBytes
  omega

/-- In sums of 32 bits the two are the same. -/
theorem add_roundmb (hn : n < 2 ^ 32) : (a + roundmb n) % 2 ^ 32 = (a + memBytes n) % 2 ^ 32 := by
  by_cases hle : n ≤ 2 ^ 32 - 8
  · rw [roundmb_of_le hle]
  · obtain ⟨h0, hmax⟩ := roundmb_of_gt hle hn
    omega

/-- A block takes at least the bytes that are asked for. -/
theorem le_memBytes (n : ℕ) : n ≤ memBytes n := by
  unfold memBytes
  omega

/-! ## Requests -/

/-- A free list in order is one that the walks get through. -/
theorem WellFormed.held (hw : WellFormed h l) : h.Held l :=
  ⟨hw.lists, hw.free, fun b hb => lt_of_le_of_lt (hw.inside b hb).le_high hw.max_lt⟩

/-- Nothing is given out: the free blocks are all there is. -/
theorem WellFormed.divided (hw : WellFormed h l) : Divided h.minheap (h.maxheap + 1) l [] :=
  ⟨hw.free, .nil, fun _ _ _ ho => absurd ho List.not_mem_nil,
    hw.inside, fun _ ho => absurd ho List.not_mem_nil⟩

/-- A part of a free block that is taken is apart from the blocks left. -/
theorem Taken.apart (ht : Taken k l a l') (hk : 0 < k) (h8 : 8 ∣ k) (hw : WellFormed h l) :
    (∃ b ∈ l, b.1 ≤ a ∧ a + k ≤ b.1 + b.2) ∧ ∀ c ∈ l', Apart c (a, k) := by
  constructor
  · obtain ⟨lo, b, mid, hi, rfl, -, hcut⟩ := ht
    obtain ⟨ha, hend, -⟩ := hcut.parts hk
    exact ⟨b, List.mem_append_right _ List.mem_cons_self, ha, hend⟩
  · intro c hc
    exact (hw.divided.take ht hk h8).1.apart c hc (a, k) List.mem_cons_self

/-- A size that is not rounded to 0 is served by `getmem`. -/
theorem WellFormed.getmem (hw : WellFormed h l) (hn : n ≤ 2 ^ 32 - 8) :
    GivesOut h l n fromLowest (h.getmem n) := by
  by_cases h0 : n = 0
  · exact .inl (if_pos h0)
  have hround := roundmb_of_le hn
  have hge := le_memBytes n
  have hr : 0 < roundmb n := by omega
  rcases Heap.getmem_spec hw.held h0 hr with ⟨-, he⟩ | ⟨a, l', h', ht, he, hl, -⟩
  · exact .inl he
  · obtain ⟨hin, hapart⟩ := (takeFirst_taken ht).apart hr (roundmb_dvd n) hw
    exact .inr ⟨a, h', l', roundmb n, he, hl, by omega, rfl, hin, hapart⟩

/-- `getstk` gives out the request from the highest block that is large enough. -/
theorem WellFormed.getstk (hw : WellFormed h l) (hn : n ≤ 2 ^ 32 - 8) :
    GivesOut h l n fromHighest (h.getstk n) := by
  by_cases h0 : n = 0
  · exact .inl (if_pos h0)
  have hround := roundmb_of_le hn
  have hge := le_memBytes n
  have hr : 0 < roundmb n := by omega
  rcases Heap.getstk_spec hw.held h0 hr with ⟨-, he⟩ | ⟨p, l', h', ht, he, hl, -⟩
  · exact .inl he
  unfold Xinu.getstk at ht
  rw [if_neg h0] at ht
  obtain ⟨⟨top, l''⟩, htake, heq⟩ := Option.map_eq_some_iff.mp ht
  obtain ⟨rfl, rfl⟩ := Prod.mk.inj heq
  obtain ⟨hle, htaken⟩ := takeLast_taken htake
  have h8 := Nat.le_of_dvd hr (roundmb_dvd n)
  have hblock : fromHighest (top - 4) (roundmb n) = (top - roundmb n, roundmb n) := by
    unfold fromHighest
    rw [Nat.sub_add_cancel (by omega)]
  obtain ⟨hin, hapart⟩ := htaken.apart hr (roundmb_dvd n) hw
  refine .inr ⟨top - 4, h', l'', roundmb n, he, hl, by omega, ?_, ?_, ?_⟩
  · rw [hblock]
  · rw [hblock]
    exact hin
  · rw [hblock]
    exact hapart

/-- An empty free list serves no request. -/
theorem WellFormed.getmem_nil (hw : WellFormed h []) : h.getmem n = some (none, h) := by
  unfold Heap.getmem
  split_ifs with h0
  · rfl
  · exact Heap.getmemLoop_none hw.lists.links hw.lists.null
      (fun c hc => absurd hc List.not_mem_nil) (by decide)

/-- `getstk` on an empty list of free memory finds no block. -/
theorem WellFormed.getstk_nil (hw : WellFormed h []) : h.getstk n = some (none, h) := by
  unfold Heap.getstk
  split_ifs with h0
  · rfl
  dsimp only
  rw [Heap.getstkLoop_small hw.lists.links hw.lists.null (fun c hc => absurd hc List.not_mem_nil) (by decide)]

/-- No free block is as large as the sizes that are rounded to 0. -/
theorem WellFormed.not_fits (hw : WellFormed h l) (hn : ¬ n ≤ 2 ^ 32 - 8) {b : ℕ × ℕ} (hb : b ∈ l) :
    b.2 < n := by
  have hin := hw.inside b hb
  have := hin.le_high
  have := hw.max_lt
  have := hw.min_pos
  have := hin.low_le
  have := hin.start
  have := hin.length
  omega

/-- A request that is rounded to 0 takes the first block of the list, whatever its length. -/
theorem WellFormed.getmem_zero (hw : WellFormed h l) (hl : l ≠ [])
    (hn : ¬ n ≤ 2 ^ 32 - 8) (hlt : n < 2 ^ 32) :
    ∃ r h', h.getmem n = some (some r, h') := by
  obtain ⟨b, hi, rfl⟩ := List.exists_cons_of_ne_nil hl
  obtain ⟨hm, hb0, hlb, -⟩ := hw.lists.links
  have hpos := hw.free.pos b List.mem_cons_self
  have h0 : n ≠ 0 := by omega
  have hfuel : ADDRESSES = ADDRESSES - 1 + 1 := rfl
  unfold Heap.getmem
  rw [if_neg h0, (roundmb_of_gt hn hlt).1, hm, hfuel, Heap.getmemLoop,
    if_neg hb0, hlb, if_neg (by omega), if_pos hpos]
  exact ⟨_, _, rfl⟩

/-- A request that is rounded to 0 takes nothing off the last block: `getstk` returns an address all
the same. -/
theorem WellFormed.getstk_zero (hw : WellFormed h l) (hl : l ≠ [])
    (hn : ¬ n ≤ 2 ^ 32 - 8) (hlt : n < 2 ^ 32) :
    ∃ r h', h.getstk n = some (some r, h') := by
  obtain ⟨lo, b, rfl⟩ := (List.eq_nil_or_concat l).resolve_left hl
  rw [List.concat_eq_append] at *
  have h0 : n ≠ 0 := by omega
  unfold Heap.getstk
  rw [if_neg h0, (roundmb_of_gt hn hlt).1]
  dsimp only
  rw [Heap.getstkLoop_fits hw.lists.links hw.lists.null (Nat.zero_le _)
    (fun c hc => absurd hc List.not_mem_nil)
    hw.held.length_lt]
  exact ⟨_, _, rfl⟩

/-- A call that does not refuse such a request breaks the promise. -/
theorem WellFormed.not_givesOut (hw : WellFormed h l) (hn : ¬ n ≤ 2 ^ 32 - 8) {block : ℕ → ℕ → ℕ × ℕ}
    {call : Option (Option ℕ × Heap)} (hc : ∃ r h', call = some (some r, h')) :
    ¬ GivesOut h l n block call := by
  obtain ⟨r, h', rfl⟩ := hc
  rintro (he | ⟨r', h'', l', k, -, -, hk, -, ⟨b, hb, hlow, hhigh⟩, -⟩)
  · cases he
  · have := hw.not_fits hn hb
    omega

/-- `getmem` and `getstk` refuse a request or give out a block that is large enough and free, if and
only if the size is at most `2^32 - 8` or there is no free block: a larger size is rounded to 0. -/
theorem blocks_ok (hw : WellFormed h l) (hn : n < 2 ^ 32) :
    (GivesOut h l n fromLowest (h.getmem n) ∧ GivesOut h l n fromHighest (h.getstk n)) ↔
    n ≤ 2 ^ 32 - 8 ∨ l = [] := by
  constructor
  · rintro ⟨hg, -⟩
    by_contra hnot
    obtain ⟨hgt, hne⟩ := not_or.mp hnot
    exact hw.not_givesOut hgt (hw.getmem_zero hne hgt hn) hg
  · rintro (hle | rfl)
    · exact ⟨hw.getmem hle, hw.getstk hle⟩
    · exact ⟨.inl hw.getmem_nil, .inl hw.getstk_nil⟩

/-- A heap of 4096 bytes at the address 4096, with one free block of 1024 bytes at 5120. -/
def smallHeap : Heap where
  mnext
    | .memlist => 5120
    | .block _ => 0
  mlength
    | .memlist => 1024
    | .block a => if a = 5120 then 1024 else 0
  memlist := 1024
  minheap := 4096
  maxheap := 8191

/-- The free list of this heap is in order. -/
theorem smallHeap_wellFormed : WellFormed smallHeap [(5120, 1024)] where
  lists := ⟨⟨rfl, by decide, rfl, trivial⟩, rfl⟩
  free := separated_cons.mpr ⟨separated_nil, by decide, fun c hc => absurd hc List.not_mem_nil⟩
  inside := List.forall_mem_singleton.mpr ⟨by decide, by decide, by decide, by decide, by decide⟩
  min_pos := by decide
  max_lt := by decide

/-- A request for 100 bytes of a heap with one block of 1024 is given out as it should be. -/
theorem blocks_ok_small : GivesOut smallHeap [(5120, 1024)] 100 fromLowest (smallHeap.getmem 100) :=
  ((blocks_ok smallHeap_wellFormed (by decide)).mpr (.inl (by decide))).1

/-- A request for `2^32 - 1` bytes gets the free block of 1024 bytes, and the block stays in the free list. -/
theorem blocks_wrap :
    ¬ GivesOut smallHeap [(5120, 1024)] 0xFFFFFFFF fromLowest (smallHeap.getmem 0xFFFFFFFF) :=
  smallHeap_wellFormed.not_givesOut (by decide)
    (smallHeap_wellFormed.getmem_zero (by decide) (by decide) (by decide))

/-! ## Blocks that are given back -/

/-- The place before the block in the list: the address lies inside the free block there, if it lies
inside one. -/
theorem WellFormed.top (hw : WellFormed h (lo ++ hi)) :
    (lastNode .memlist lo ≠ .memlist ∧ a < if lastNode .memlist lo = .memlist then 0
      else (h.addr (lastNode .memlist lo) + h.mlength (lastNode .memlist lo)) % 2 ^ 32) ↔
        ∃ b ∈ lo, a < b.1 + b.2 := by
  rcases List.eq_nil_or_concat lo with rfl | ⟨lo', p, rfl⟩
  · simp [lastNode]
  rw [List.concat_eq_append] at *
  have hlast : lastNode .memlist (lo' ++ [p]) = .block p.1 := lastNode_append
  have hp : p ∈ lo' ++ [p] ++ hi := List.mem_append_left _ (List.mem_append_right _ List.mem_cons_self)
  obtain ⟨-, -, hlp, -⟩ := (links_append.mp (links_append.mp hw.lists.links).1).2
  have hne : lastNode .memlist (lo' ++ [p]) ≠ .memlist := by
    rw [hlast]
    intro he
    cases he
  rw [if_neg hne, hlast, hlp, Heap.addr, Nat.mod_eq_of_lt (hw.held.below p hp)]
  constructor
  · rintro ⟨-, hlt⟩
    exact ⟨p, List.mem_append_right _ List.mem_cons_self, hlt⟩
  · -- The last block ends behind the others.
    rintro ⟨b, hb, hlt⟩
    refine ⟨hlast ▸ hne, ?_⟩
    rcases List.mem_append.mp hb with hb | hb
    · obtain ⟨-, -, -, hgap, -⟩ := separated_append_cons.mp hw.free.of_append.1
      have := hgap b hb
      unfold Gap at this
      omega
    · rwa [List.mem_singleton.mp hb] at hlt

/-- The place behind it: the sum of 32 bits goes beyond the start of the free block there, if it
goes beyond one. -/
theorem WellFormed.next {e : ℕ} (hw : WellFormed h (lo ++ hi)) :
    (h.mnext (lastNode .memlist lo) ≠ 0 ∧ h.mnext (lastNode .memlist lo) < e) ↔ ∃ c ∈ hi, c.1 < e := by
  cases hi with
  | nil =>
    have hnull := hw.lists.null
    rw [List.append_nil] at hnull
    simp [hnull]
  | cons c hi =>
    obtain ⟨hc, hc0, -⟩ := (links_append.mp hw.lists.links).2
    rw [hc]
    constructor
    · rintro ⟨-, hlt⟩
      exact ⟨c, List.mem_cons_self, hlt⟩
    · rintro ⟨d, hd, hlt⟩
      refine ⟨hc0, ?_⟩
      rcases List.mem_cons.mp hd with rfl | hd
      · exact hlt
      · obtain ⟨-, -, hgap⟩ := separated_cons.mp hw.free.of_append.2
        have := hgap d hd
        unfold Gap at this
        omega

/-- Around the place of an address, the checks are those of the two parts of the list. -/
theorem meets_append (hlo : ∀ b ∈ lo, b.1 < a) (hhi : ∀ c ∈ hi, ¬ c.1 < a) :
    Meets (lo ++ hi) a n ↔ (∃ b ∈ lo, a < b.1 + b.2) ∨ ∃ c ∈ hi, c.1 < (a + memBytes n) % 2 ^ 32 := by
  unfold Meets
  refine or_congr ⟨?_, ?_⟩ ⟨?_, ?_⟩
  · rintro ⟨b, hb, hlt, hin⟩
    rcases List.mem_append.mp hb with hb | hb
    · exact ⟨b, hb, hin⟩
    · exact absurd hlt (hhi b hb)
  · rintro ⟨b, hb, hin⟩
    exact ⟨b, List.mem_append_left _ hb, hlo b hb, hin⟩
  · rintro ⟨c, hc, hle, hlt⟩
    rcases List.mem_append.mp hc with hc | hc
    · exact absurd (hlo c hc) (not_lt.mpr hle)
    · exact ⟨c, hc, hlt⟩
  · rintro ⟨c, hc, hlt⟩
    exact ⟨c, List.mem_append_right _ hc, not_lt.mp (hhi c hc), hlt⟩

/-- A block that starts in the heap is refused if and only if it meets a free block. -/
theorem WellFormed.freemem_checks (hw : WellFormed h l)
    (h0 : n ≠ 0) (hn : n < 2 ^ 32) (hmin : h.minheap ≤ a) (hmax : a ≤ h.maxheap) :
    (Meets l a n → h.freemem a n = some (false, h)) ∧
    (¬ Meets l a n → ∃ h', h.freemem a n = some (true, h')) := by
  unfold Heap.freemem
  rw [if_neg (by omega)]
  have hfuel := hw.held.length_lt
  obtain ⟨lo, hi, rfl, hlo, hhi⟩ := hw.free.split a
  have hlen : lo.length < ADDRESSES := lt_of_le_of_lt (by simp) hfuel
  dsimp only
  rw [freememLoop_eq hw.lists.links hw.lists.null hlo hhi hlen, meets_append hlo hhi, add_roundmb hn]
  dsimp only
  have hchecks := or_congr (hw.top (a := a)) (hw.next (e := (a + memBytes n) % 2 ^ 32))
  refine ⟨fun hm => if_pos (hchecks.mpr hm), fun hm => ?_⟩
  rw [if_neg fun hc => hm (hchecks.mp hc)]
  exact ⟨_, rfl⟩

/-- A block that starts outside the heap is refused. -/
theorem Heap.freemem_outside (h : Heap) (n : ℕ) (ha : a < h.minheap ∨ h.maxheap < a) :
    h.freemem a n = some (false, h) := by
  unfold Heap.freemem
  exact if_pos (.inr ha)

/-- The join with the block before adds the addresses of the block. -/
theorem covers_joinLow {x : ℕ} : Covers (joinLow lo a k).1 x ∨
    ((joinLow lo a k).2.1 ≤ x ∧ x < (joinLow lo a k).2.1 + (joinLow lo a k).2.2) ↔
    Covers lo x ∨ (a ≤ x ∧ x < a + k) := by
  rcases List.eq_nil_or_concat lo with rfl | ⟨lo', p, rfl⟩
  · rfl
  rw [List.concat_eq_append]
  unfold joinLow
  rw [List.getLast?_concat, List.dropLast_concat]
  dsimp only
  split_ifs with hp
  · rw [covers_append, covers_cons, or_assoc]
    refine or_congr_right ?_
    simp only [covers_nil, or_false]
    omega
  · rfl

/-- The join with the block after covers what the two cover. -/
theorem covers_joinHigh {x : ℕ} (r : ℕ × ℕ) :
    Covers (joinHigh r hi) x ↔ (r.1 ≤ x ∧ x < r.1 + r.2) ∨ Covers hi x := by
  cases hi with
  | nil => exact covers_cons
  | cons c hi =>
    unfold joinHigh
    dsimp only
    split_ifs with hc
    · rw [covers_cons, covers_cons, ← or_assoc]
      refine or_congr_left ?_
      omega
    · exact covers_cons

/-- A block that can be taken back is taken back, and its addresses are free. -/
theorem WellFormed.freemem_taken (hw : WellFormed h l) (h0 : n ≠ 0) (ha : 8 ∣ a) (hr : Returnable h l a n) :
    ∃ h' l', h.freemem a n = some (true, h') ∧ WellFormed h' l' ∧
      ∀ x, Covers l' x ↔ Covers l x ∨ (a ≤ x ∧ x < a + memBytes n) := by
  have hge := le_memBytes n
  have hmax := hr.le_max
  have hlt := hw.max_lt
  have hle : n ≤ 2 ^ 32 - 8 := by
    unfold memBytes at hmax
    omega
  have hround := roundmb_of_le hle
  have hin : Inside h.minheap (h.maxheap + 1) (a, roundmb n) :=
    ⟨by dsimp only; omega, hr.min_le, by dsimp only; omega, ha, roundmb_dvd n⟩
  have hdiv : Divided h.minheap (h.maxheap + 1) l ((a, roundmb n) :: []) := by
    refine ⟨hw.free, List.pairwise_singleton .., fun b hb => ?_, hw.inside, List.forall_mem_singleton.mpr hin⟩
    rw [List.forall_mem_singleton, hround]
    exact hr.apart b hb
  obtain ⟨h', he, hl, hmin', hmax'⟩ := Heap.freemem_spec hw.held h0 hdiv hw.min_pos le_rfl le_rfl hlt
  obtain ⟨hput, -⟩ := hdiv.put
  refine ⟨h', _, he, ⟨hl, hput.free, hmin' ▸ hmax' ▸ hput.free_inside, hmin' ▸ hw.min_pos, hmax' ▸ hlt⟩,
    fun x => ?_⟩
  obtain ⟨lo, hi, rfl, hlo, hhi⟩ := hw.free.split a
  have hopen := hdiv.opened hlo hhi
  rw [putBlock_eq hlo hhi hopen.le_start hopen.end_le, covers_append,
    covers_joinHigh, ← or_assoc, covers_joinLow, covers_append,
    hround]
  tauto

/-- A block that lies in the heap meets a free block if it overlaps one. -/
theorem meets_of_not_apart {b : ℕ × ℕ} (hb : b ∈ l) (hap : ¬ Apart b (a, memBytes n))
    (hlt : a + memBytes n < 2 ^ 32) : Meets l a n := by
  unfold Apart at hap
  dsimp only at hap
  unfold Meets
  rw [Nat.mod_eq_of_lt hlt]
  by_cases hlow : b.1 < a
  · exact .inl ⟨b, hb, hlow, by omega⟩
  · exact .inr ⟨b, hb, by omega, by omega⟩

/-- `freemem` takes back what lies in the heap and is not free, and refuses everything else, if and
only if the block starts outside the heap, ends inside it, or meets a free block: that it ends
inside the heap is not checked, and its end is a sum of 32 bits. -/
theorem freed_ok (hw : WellFormed h l) (ha : 8 ∣ a) (h0 : n ≠ 0) (hn : n < 2 ^ 32) :
    FreesOnly h l a n ↔ a < h.minheap ∨ h.maxheap < a ∨ a + memBytes n ≤ h.maxheap + 1 ∨ Meets l a n := by
  have hmax := hw.max_lt
  constructor
  · intro hf
    by_contra hnot
    obtain ⟨hmin, hle, hend, hmeets⟩ :
        ¬ a < h.minheap ∧ ¬ h.maxheap < a ∧ ¬ a + memBytes n ≤ h.maxheap + 1 ∧ ¬ Meets l a n := by
      tauto
    obtain ⟨h', he⟩ := (hw.freemem_checks h0 hn (not_lt.mp hmin) (not_lt.mp hle)).2 hmeets
    have href := hf.refused fun hr => hend hr.le_max
    rw [he] at href
    cases href
  · intro hcond
    refine ⟨fun hr => ?_, fun hr => hw.freemem_taken h0 ha hr⟩
    by_cases hout : a < h.minheap ∨ h.maxheap < a
    · exact h.freemem_outside n hout
    obtain ⟨hmin, hle⟩ := not_or.mp hout
    refine (hw.freemem_checks h0 hn (not_lt.mp hmin) (not_lt.mp hle)).1 ?_
    by_cases hend : a + memBytes n ≤ h.maxheap + 1
    · -- The block overlaps a free one.
      have hap : ¬ ∀ b ∈ l, Apart b (a, memBytes n) := fun hap => hr ⟨not_lt.mp hmin, hend, hap⟩
      push Not at hap
      obtain ⟨b, hb, hap⟩ := hap
      exact meets_of_not_apart hb hap (by omega)
    · exact ((hcond.resolve_left hmin).resolve_left hle).resolve_left hend

/-- The block at 6144, behind the free block, is taken back. -/
theorem freed_ok_small : FreesOnly smallHeap [(5120, 1024)] 6144 64 :=
  (freed_ok smallHeap_wellFormed (by decide) (by decide) (by decide)).mpr (.inr (.inr (.inl (by decide))))

/-- A block of 4096 bytes at 6144, which ends 2048 bytes behind the heap, is taken back as well. -/
theorem freed_outside : ¬ FreesOnly smallHeap [(5120, 1024)] 6144 4096 := by
  intro hf
  have href := hf.refused fun hr => absurd hr.le_max (by decide)
  have hok : (smallHeap.freemem 6144 4096).map Prod.fst = some true := by decide
  rw [href] at hok
  cases hok

end

end Xinu
