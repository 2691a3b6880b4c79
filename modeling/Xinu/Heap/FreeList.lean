import Xinu.Heap.Memlist
import Xinu.Lib.Regions

/-!
# The free list

The free blocks of the heap as a list of regions, in the order of the links. `takeFirst` and
`takeLast` are what `getmem` and `getstk` do to it, `putBlock` is what `freemem` does. `Divided`
says how the memory of the heap is divided among the free blocks and the blocks given out, and each
operation keeps it.
-/

namespace Xinu

open Regions

variable {l lo hi mid given : List (ℕ × ℕ)} {b t : ℕ × ℕ} {n a low high : ℕ}

/-! ## Taking a block -/

/-- The first free block of at least `n` bytes gives its first `n` bytes: their address, and the
blocks left. -/
def takeFirst (n : ℕ) : List (ℕ × ℕ) → Option (ℕ × List (ℕ × ℕ))
  | [] => none
  | b :: l =>
    if b.2 ≥ n then some (b.1, if b.2 = n then l else (b.1 + n, b.2 - n) :: l)
    else (takeFirst n l).map fun r => (r.1, b :: r.2)

/-- The `n` bytes at an address are cut off a block, and a list is what is left of it. -/
inductive Cut (n : ℕ) (b : ℕ × ℕ) : ℕ → List (ℕ × ℕ) → Prop
  | whole (h : b.2 = n) : Cut n b b.1 []
  | low (h : n < b.2) : Cut n b b.1 [(b.1 + n, b.2 - n)]
  | high (h : n < b.2) : Cut n b (b.1 + b.2 - n) [(b.1, b.2 - n)]

/-- A block is cut off one of the free blocks. -/
structure Taken (n : ℕ) (l : List (ℕ × ℕ)) (a : ℕ) (l' : List (ℕ × ℕ)) : Prop where
  /-- The block is the beginning or the end of one free block, whose rest stays in its place. -/
  cut : ∃ lo b mid hi, l = lo ++ b :: hi ∧ l' = lo ++ mid ++ hi ∧ Cut n b a mid

/-- The first block that is large enough. -/
theorem takeFirst_fits (h : ∀ b ∈ lo, b.2 < n) (hb : n ≤ b.2) :
    takeFirst n (lo ++ b :: hi) = some (b.1, lo ++ (if b.2 = n then hi else (b.1 + n, b.2 - n) :: hi)) := by
  induction lo with
  | nil => exact if_pos hb
  | cons c lo ih =>
    have hc := h c List.mem_cons_self
    rw [List.cons_append, takeFirst, if_neg (by omega), ih fun b hb => h b (List.mem_cons_of_mem _ hb)]
    rfl

/-- If every free block is smaller than the request, none is taken. -/
theorem takeFirst_none (h : ∀ b ∈ l, b.2 < n) : takeFirst n l = none := by
  induction l with
  | nil => rfl
  | cons c l ih =>
    have hc := h c List.mem_cons_self
    rw [takeFirst, if_neg (by omega), ih fun b hb => h b (List.mem_cons_of_mem _ hb)]
    rfl

/-- No block is large enough, from the other end. -/
theorem takeLast_none (h : ∀ b ∈ l, b.2 < n) : takeLast n l = none := by
  induction l with
  | nil => rfl
  | cons c l ih =>
    have hc := h c List.mem_cons_self
    rw [takeLast, ih fun b hb => h b (List.mem_cons_of_mem _ hb)]
    exact if_neg (by omega)

/-- The last block that is large enough. -/
theorem takeLast_fits (hb : n ≤ b.2) (h : ∀ c ∈ hi, c.2 < n) :
    takeLast n (lo ++ b :: hi) = some (b.1 + b.2, lo ++ (if b.2 = n then hi else (b.1, b.2 - n) :: hi)) := by
  induction lo with
  | nil =>
    rw [List.nil_append, takeLast, takeLast_none h]
    exact if_pos hb
  | cons c lo ih =>
    rw [List.cons_append, takeLast, ih]
    rfl

/-- A list has a first element that satisfies a condition, or none. -/
theorem split_first (l : List (ℕ × ℕ)) (n : ℕ) :
    (∀ b ∈ l, b.2 < n) ∨ ∃ lo b hi, l = lo ++ b :: hi ∧ (∀ c ∈ lo, c.2 < n) ∧ n ≤ b.2 := by
  induction l with
  | nil => exact .inl fun b hb => absurd hb List.not_mem_nil
  | cons c l ih =>
    by_cases hc : n ≤ c.2
    · exact .inr ⟨[], c, l, rfl, fun b hb => absurd hb List.not_mem_nil, hc⟩
    rcases ih with h | ⟨lo, b, hi, rfl, hlo, hb⟩
    · exact .inl (List.forall_mem_cons.mpr ⟨by omega, h⟩)
    · exact .inr ⟨c :: lo, b, hi, rfl, List.forall_mem_cons.mpr ⟨by omega, hlo⟩, hb⟩

/-- A list has a last element that satisfies a condition, or none. -/
theorem split_last (l : List (ℕ × ℕ)) (n : ℕ) :
    (∀ b ∈ l, b.2 < n) ∨ ∃ lo b hi, l = lo ++ b :: hi ∧ n ≤ b.2 ∧ ∀ c ∈ hi, c.2 < n := by
  induction l with
  | nil => exact .inl fun b hb => absurd hb List.not_mem_nil
  | cons c l ih =>
    rcases ih with h | ⟨lo, b, hi, rfl, hb, hhi⟩
    · by_cases hc : n ≤ c.2
      · exact .inr ⟨[], c, l, rfl, hc, h⟩
      · exact .inl (List.forall_mem_cons.mpr ⟨by omega, h⟩)
    · exact .inr ⟨c :: lo, b, hi, rfl, hb, hhi⟩

/-- What `takeFirst` gives is the low end of a block. -/
theorem takeFirst_taken {l' : List (ℕ × ℕ)} (h : takeFirst n l = some (a, l')) : Taken n l a l' := by
  rcases split_first l n with hl | ⟨lo, b, hi, rfl, hlo, hb⟩
  · rw [takeFirst_none hl] at h
    cases h
  rw [takeFirst_fits hlo hb] at h
  obtain ⟨rfl, rfl⟩ := Prod.mk.inj (Option.some.inj h)
  by_cases hn : b.2 = n
  · refine ⟨lo, b, [], hi, rfl, ?_, .whole hn⟩
    rw [if_pos hn, List.append_nil]
  · refine ⟨lo, b, [(b.1 + n, b.2 - n)], hi, rfl, ?_, .low (by omega)⟩
    rw [if_neg hn, List.append_assoc, List.singleton_append]

/-- What `takeLast` gives is the high end of a block. -/
theorem takeLast_taken {l' : List (ℕ × ℕ)} {top : ℕ} (h : takeLast n l = some (top, l')) :
    n ≤ top ∧ Taken n l (top - n) l' := by
  rcases split_last l n with hl | ⟨lo, b, hi, rfl, hb, hhi⟩
  · rw [takeLast_none hl] at h
    cases h
  rw [takeLast_fits hb hhi] at h
  obtain ⟨rfl, rfl⟩ := Prod.mk.inj (Option.some.inj h)
  refine ⟨by omega, ?_⟩
  by_cases hn : b.2 = n
  · refine ⟨lo, b, [], hi, rfl, ?_, ?_⟩
    · rw [if_pos hn, List.append_nil]
    · have hsub : b.1 + b.2 - n = b.1 := by omega
      rw [hsub]
      exact .whole hn
  · refine ⟨lo, b, [(b.1, b.2 - n)], hi, rfl, ?_, .high (by omega)⟩
    rw [if_neg hn, List.append_assoc, List.singleton_append]

/-! ## Putting a block back -/

/-- The block is joined with the last of the blocks before it if it touches it. -/
def joinLow (lo : List (ℕ × ℕ)) (block nbytes : ℕ) : List (ℕ × ℕ) × (ℕ × ℕ) :=
  match lo.getLast? with
  | some b => if b.1 + b.2 = block then (lo.dropLast, (b.1, b.2 + nbytes)) else (lo, (block, nbytes))
  | none => (lo, (block, nbytes))

/-- A region joined with the first of the blocks after it, if that begins where it ends. -/
def joinHigh (r : ℕ × ℕ) : List (ℕ × ℕ) → List (ℕ × ℕ)
  | b :: hi => if r.1 + r.2 = b.1 then (r.1, r.2 + b.2) :: hi else r :: b :: hi
  | [] => [r]

/-- The two ways to write the join with the block after. -/
theorem append_joinHigh (r : List (ℕ × ℕ) × (ℕ × ℕ)) (hi : List (ℕ × ℕ)) :
    (match hi with
    | b :: hi' =>
      if r.2.1 + r.2.2 = b.1 then r.1 ++ (r.2.1, r.2.2 + b.2) :: hi' else r.1 ++ r.2 :: hi
    | [] => r.1 ++ [r.2]) = r.1 ++ joinHigh r.2 hi := by
  cases hi with
  | nil => rfl
  | cons c hi =>
    unfold joinHigh
    dsimp only
    split <;> rfl

/-- A block that overlaps no block around its place is put back. -/
theorem putBlock_eq (hlo : ∀ b ∈ lo, b.1 < a) (hhi : ∀ c ∈ hi, ¬ c.1 < a) (hl : ∀ b ∈ lo, b.1 + b.2 ≤ a)
    (hh : ∀ c ∈ hi, a + n ≤ c.1) :
    putBlock (lo ++ hi) a n = (joinLow lo a n).1 ++ joinHigh (joinLow lo a n).2 hi := by
  -- The blocks in front of the address are those before, and the rest those after it.
  have htake : (lo ++ hi).takeWhile (fun b => decide (b.1 < a)) = lo := by
    rw [List.takeWhile_append_of_pos fun b hb => decide_eq_true (hlo b hb)]
    cases hi with
    | nil => rw [List.takeWhile_nil, List.append_nil]
    | cons c hi =>
      rw [List.takeWhile_cons_of_neg, List.append_nil]
      exact fun h => hhi c List.mem_cons_self (of_decide_eq_true h)
  have hdrop : (lo ++ hi).dropWhile (fun b => decide (b.1 < a)) = hi := by
    have h := List.takeWhile_append_dropWhile (p := fun b : ℕ × ℕ => decide (b.1 < a)) (l := lo ++ hi)
    rw [htake] at h
    exact List.append_cancel_left h
  -- The next block begins behind the one that goes back, so the check of the kernel passes.
  have hhead : hi.head?.any (fun b => decide (b.1 < a + n)) = false := by
    cases hi with
    | nil => rfl
    | cons c hi =>
      have := hh c List.mem_cons_self
      exact decide_eq_false (by omega)
  unfold putBlock joinLow
  rw [htake, hdrop]
  cases hlast : lo.getLast? with
  | none =>
    obtain rfl := List.getLast?_eq_none_iff.mp hlast
    rw [if_neg (by simp [hhead])]
    exact append_joinHigh _ hi
  | some b =>
    have hb := hl b (List.mem_of_getLast? hlast)
    -- The last block before ends in front of it, so this check passes as well.
    have hok : ¬ ((lo ≠ [] ∧ a < b.1 + b.2) ∨ (hi.head?.any fun b => decide (b.1 < a + n)) = true) := by
      rintro (h | h)
      · omega
      · exact Bool.false_ne_true (hhead.symm.trans h)
    simp only [hlast]
    rw [if_neg hok]
    exact append_joinHigh _ hi

/-- The two results of the join with the block before. -/
theorem joinLow_cases (h : Separated lo) (hlo : ∀ b ∈ lo, b.1 + b.2 ≤ a) :
    (joinLow lo a n = (lo, (a, n)) ∧ ∀ b ∈ lo, Gap b (a, n)) ∨
    ∃ lo' p, lo = lo' ++ [p] ∧ p.1 + p.2 = a ∧ joinLow lo a n = (lo', (p.1, p.2 + n)) := by
  rcases List.eq_nil_or_concat lo with rfl | ⟨lo', p, rfl⟩
  · exact .inl ⟨rfl, fun b hb => absurd hb List.not_mem_nil⟩
  rw [List.concat_eq_append] at *
  have hjoin : joinLow (lo' ++ [p]) a n =
      if p.1 + p.2 = a then (lo', (p.1, p.2 + n)) else (lo' ++ [p], (a, n)) := by
    unfold joinLow
    rw [List.getLast?_concat, List.dropLast_concat]
  by_cases hp : p.1 + p.2 = a
  · exact .inr ⟨lo', p, rfl, hp, by rw [hjoin, if_pos hp]⟩
  refine .inl ⟨by rw [hjoin, if_neg hp], fun b hb => ?_⟩
  obtain ⟨-, -, hpos, hgap, -⟩ := separated_append_cons.mp h
  have hpa := hlo p (List.mem_append_right _ List.mem_cons_self)
  rcases List.mem_append.mp hb with hb | hb
  · have := hgap b hb
    unfold Gap at *
    omega
  · obtain rfl := List.mem_singleton.mp hb
    exact lt_of_le_of_ne hpa hp

/-- The two results of the join with the block after. -/
theorem joinHigh_cases (h : Separated hi) (hhi : ∀ c ∈ hi, b.1 + b.2 ≤ c.1) :
    (joinHigh b hi = b :: hi ∧ ∀ c ∈ hi, Gap b c) ∨
    ∃ c hi', hi = c :: hi' ∧ b.1 + b.2 = c.1 ∧ joinHigh b hi = (b.1, b.2 + c.2) :: hi' := by
  cases hi with
  | nil => exact .inl ⟨rfl, fun c hc => absurd hc List.not_mem_nil⟩
  | cons c hi =>
    by_cases hc : b.1 + b.2 = c.1
    · exact .inr ⟨c, hi, rfl, hc, if_pos hc⟩
    refine .inl ⟨if_neg hc, ?_⟩
    obtain ⟨-, hpos, hgap⟩ := separated_cons.mp h
    have hbc := hhi c List.mem_cons_self
    refine List.forall_mem_cons.mpr ⟨lt_of_le_of_ne hbc hc, fun d hd => ?_⟩
    have := hgap d hd
    unfold Gap at *
    omega

/-! ## The division of the heap -/

/-- A block lies between two addresses, and is a number of structures `memblk`. -/
structure Inside (low high : ℕ) (b : ℕ × ℕ) : Prop where
  /-- It is not empty. -/
  pos : 0 < b.2
  /-- It begins at the first address or behind it. -/
  low_le : low ≤ b.1
  /-- It ends at the last one or before it. -/
  le_high : b.1 + b.2 ≤ high
  /-- Its address is a multiple of 8. -/
  start : 8 ∣ b.1
  /-- Its length is a multiple of 8. -/
  length : 8 ∣ b.2

/-- The memory between two addresses is divided among free blocks and blocks given out. -/
structure Divided (low high : ℕ) (l given : List (ℕ × ℕ)) : Prop where
  /-- The free blocks ascend, and do not touch. -/
  free : Separated l
  /-- Blocks given out do not overlap. -/
  given_apart : given.Pairwise Apart
  /-- No free block overlaps one of them. -/
  apart : ∀ b ∈ l, ∀ o ∈ given, Apart b o
  /-- The free blocks lie between the addresses. -/
  free_inside : ∀ b ∈ l, Inside low high b
  /-- The blocks given out lie between the addresses. -/
  given_inside : ∀ o ∈ given, Inside low high o

/-- What is cut off a block and what is left of it are parts of it that share no address. -/
theorem Cut.parts (h : Cut n b a mid) (hn : 0 < n) :
    b.1 ≤ a ∧ a + n ≤ b.1 + b.2 ∧ mid.length ≤ 1 ∧ size mid + n = b.2 ∧
    ∀ c ∈ mid, 0 < c.2 ∧ b.1 ≤ c.1 ∧ c.1 + c.2 ≤ b.1 + b.2 ∧ Apart c (a, n) ∧
      ((c.1 = b.1 ∨ c.1 = b.1 + n) ∧ c.2 = b.2 - n) := by
  cases h with
  | whole h =>
    exact ⟨le_rfl, by omega, Nat.zero_le _, by rw [size_nil]; omega, fun c hc => absurd hc List.not_mem_nil⟩
  | low h =>
    refine ⟨le_rfl, by omega, le_rfl, by rw [size_cons, size_nil]; dsimp only; omega, fun c hc => ?_⟩
    obtain rfl := List.mem_singleton.mp hc
    unfold Apart
    dsimp only
    omega
  | high h =>
    refine ⟨by omega, by omega, le_rfl, by rw [size_cons, size_nil]; dsimp only; omega, fun c hc => ?_⟩
    obtain rfl := List.mem_singleton.mp hc
    unfold Apart
    dsimp only
    omega

/-- Where the part that is cut off starts is aligned like the block. -/
theorem Cut.start (h : Cut n b a mid) (hn : 8 ∣ n) (h₁ : 8 ∣ b.1) (h₂ : 8 ∣ b.2) : 8 ∣ a := by
  cases h with
  | whole | low => exact h₁
  | high h => exact Nat.dvd_sub (Nat.dvd_add h₁ h₂) hn

/-- Taking a block keeps the division. -/
theorem Divided.take {l' : List (ℕ × ℕ)} (h : Divided low high l given)
    (ht : Taken n l a l') (hn : 0 < n) (h8 : 8 ∣ n) :
    Divided low high l' ((a, n) :: given) ∧ size l' + n = size l := by
  obtain ⟨lo, b, mid, hi, rfl, rfl, hcut⟩ := ht
  obtain ⟨ha, hend, hlen, hsize, hmid⟩ := hcut.parts hn
  have hb : b ∈ lo ++ b :: hi := List.mem_append_right _ List.mem_cons_self
  have hin := h.free_inside b hb
  -- A block of the new list is one of the old list, or the rest of the block that was cut.
  have hmem : ∀ c ∈ lo ++ mid ++ hi, c ∈ mid ∨ (c ∈ lo ++ b :: hi ∧ Apart c b) := by
    intro c hc
    obtain ⟨-, -, -, hlo, hhi⟩ := separated_append_cons.mp h.free
    rcases List.mem_append.mp hc with hc | hc
    · rcases List.mem_append.mp hc with hc | hc
      · exact .inr ⟨List.mem_append_left _ hc, (hlo c hc).apart⟩
      · exact .inl hc
    · exact .inr ⟨List.mem_append_right _ (List.mem_cons_of_mem _ hc), (hhi c hc).apart.symm⟩
  refine ⟨⟨h.free.shrink hlen fun c hc => ⟨(hmid c hc).1, (hmid c hc).2.1, (hmid c hc).2.2.1⟩,
    List.pairwise_cons.mpr ⟨fun o ho => (h.apart b hb o ho).sub ha hend, h.given_apart⟩, fun c hc o ho => ?_,
    fun c hc => ?_, List.forall_mem_cons.mpr ⟨⟨hn, ?_, ?_, hcut.start h8 hin.start hin.length, h8⟩,
      h.given_inside⟩⟩, ?_⟩
  · rcases hmem c hc with hm | ⟨hold, hapart⟩
    · obtain ⟨-, hlo, hhi, hapart, -⟩ := hmid c hm
      rcases List.mem_cons.mp ho with rfl | ho
      · exact hapart
      · exact (h.apart b hb o ho).sub hlo hhi
    · rcases List.mem_cons.mp ho with rfl | ho
      · exact (hapart.symm.sub ha hend).symm
      · exact h.apart c hold o ho
  · rcases hmem c hc with hm | ⟨hold, -⟩
    · obtain ⟨hpos, hlo, hhi, -, hstart, hlen⟩ := hmid c hm
      refine ⟨hpos, hin.low_le.trans hlo, hhi.trans hin.le_high, ?_, ?_⟩
      · rcases hstart with he | he <;> rw [he]
        · exact hin.start
        · exact Nat.dvd_add hin.start h8
      · rw [hlen]
        exact Nat.dvd_sub hin.length h8
    · exact h.free_inside c hold
  · exact hin.low_le.trans ha
  · exact hend.trans hin.le_high
  · rw [size_append, size_append, size_append, size_cons]
    omega

/-- Two blocks that touch and lie between the addresses lie between them as one block. -/
theorem Inside.join {p : ℕ × ℕ} (hp : Inside low high p) (hb : Inside low high b) (h : p.1 + p.2 = b.1) :
    Inside low high (p.1, p.2 + b.2) := by
  have := hp.pos
  have := hb.le_high
  exact ⟨by dsimp only; omega, hp.low_le, by dsimp only; omega, hp.start, Nat.dvd_add hp.length hb.length⟩

/-- A block is going back to its place between the free blocks, which it may touch. -/
structure Opened (low high : ℕ) (lo : List (ℕ × ℕ)) (b : ℕ × ℕ) (hi given : List (ℕ × ℕ)) : Prop where
  /-- The free blocks before it ascend, and do not touch. -/
  before : Separated lo
  /-- The blocks behind it do not touch each other either. -/
  after : Separated hi
  /-- Those before it end where it begins, or before. -/
  le_start : ∀ c ∈ lo, c.1 + c.2 ≤ b.1
  /-- Those behind it begin where it ends, or behind. -/
  end_le : ∀ c ∈ hi, b.1 + b.2 ≤ c.1
  /-- Blocks given out do not overlap. -/
  given_apart : given.Pairwise Apart
  /-- None of them overlaps a free block or the one that goes back. -/
  apart : ∀ c ∈ lo ++ b :: hi, ∀ o ∈ given, Apart c o
  /-- The free blocks and the one that goes back lie between the addresses. -/
  free_inside : ∀ c ∈ lo ++ b :: hi, Inside low high c
  /-- The blocks that stay given out lie between the addresses. -/
  given_inside : ∀ o ∈ given, Inside low high o

/-- A block that is taken back overlaps no free block. -/
theorem Divided.opened (h : Divided low high (lo ++ hi) ((a, n) :: given)) (hlo : ∀ b ∈ lo, b.1 < a)
    (hhi : ∀ c ∈ hi, ¬ c.1 < a) : Opened low high lo (a, n) hi given := by
  have hin := h.given_inside (a, n) List.mem_cons_self
  have hn : 0 < n := hin.pos
  obtain ⟨hbefore, hafter⟩ := h.free.of_append
  obtain ⟨hnew, hgiven⟩ := List.pairwise_cons.mp h.given_apart
  refine ⟨hbefore, hafter, fun b hb => ?_, fun c hc => ?_, hgiven, fun c hc o ho => ?_, fun c hc => ?_,
    fun o ho => h.given_inside o (List.mem_cons_of_mem _ ho)⟩
  · have hap := h.apart b (List.mem_append_left _ hb) (a, n) List.mem_cons_self
    have := hlo b hb
    unfold Apart at hap
    dsimp only at *
    omega
  · have hap := h.apart c (List.mem_append_right _ hc) (a, n) List.mem_cons_self
    have := hhi c hc
    have := h.free.pos c (List.mem_append_right _ hc)
    unfold Apart at hap
    dsimp only at *
    omega
  · rw [List.mem_append, List.mem_cons] at hc
    rcases hc with hc | rfl | hc
    · exact h.apart c (List.mem_append_left _ hc) o (List.mem_cons_of_mem _ ho)
    · exact hnew o ho
    · exact h.apart c (List.mem_append_right _ hc) o (List.mem_cons_of_mem _ ho)
  · rw [List.mem_append, List.mem_cons] at hc
    rcases hc with hc | rfl | hc
    · exact h.free_inside c (List.mem_append_left _ hc)
    · exact hin
    · exact h.free_inside c (List.mem_append_right _ hc)

/-- After the join with the block before it, the block that is taken back does not touch the blocks before. -/
theorem Opened.joinLow (h : Opened low high lo (a, n) hi given) :
    Opened low high (joinLow lo a n).1 (joinLow lo a n).2 hi given ∧
    (∀ c ∈ (joinLow lo a n).1, Gap c (joinLow lo a n).2) ∧
      size (joinLow lo a n).1 + (joinLow lo a n).2.2 = size lo + n := by
  rcases joinLow_cases (n := n) h.before h.le_start with ⟨he, hgap⟩ | ⟨lo', p, rfl, hp, he⟩
  · rw [he]
    exact ⟨h, hgap, rfl⟩
  rw [he]
  have hmem : p ∈ lo' ++ [p] ++ (a, n) :: hi :=
    List.mem_append_left _ (List.mem_append_right _ List.mem_cons_self)
  have hnew : (a, n) ∈ lo' ++ [p] ++ (a, n) :: hi := List.mem_append_right _ List.mem_cons_self
  obtain ⟨hbefore, -, -, hgap, -⟩ := separated_append_cons.mp h.before
  -- The other blocks are the same.
  have hold : ∀ c ∈ lo' ++ (p.1, p.2 + n) :: hi, c = (p.1, p.2 + n) ∨ c ∈ lo' ++ [p] ++ (a, n) :: hi := by
    intro c hc
    rw [List.mem_append, List.mem_cons] at hc
    rcases hc with hc | rfl | hc
    · exact .inr (List.mem_append_left _ (List.mem_append_left _ hc))
    · exact .inl rfl
    · exact .inr (List.mem_append_right _ (List.mem_cons_of_mem _ hc))
  refine ⟨⟨hbefore, h.after, fun c hc => le_of_lt (hgap c hc),
    fun c hc => ?_, h.given_apart, fun c hc o ho => ?_,
    fun c hc => ?_, h.given_inside⟩, hgap, ?_⟩
  · have := h.end_le c hc
    dsimp only at *
    omega
  · rcases hold c hc with rfl | hc
    · exact (h.apart p hmem o ho).join (h.apart _ hnew o ho) hp (h.given_inside o ho).pos
    · exact h.apart c hc o ho
  · rcases hold c hc with rfl | hc
    · exact (h.free_inside p hmem).join (h.free_inside _ hnew) hp
    · exact h.free_inside c hc
  · rw [size_append, size_cons, size_nil]
    dsimp only
    omega

/-- After the join with the block after it as well, the heap is divided again. -/
theorem Opened.joinHigh (h : Opened low high lo b hi given) (hgap : ∀ c ∈ lo, Gap c b) :
    Divided low high (lo ++ joinHigh b hi) given ∧ size (lo ++ joinHigh b hi) = size lo + b.2 + size hi := by
  have hb : b ∈ lo ++ b :: hi := List.mem_append_right _ List.mem_cons_self
  -- Either the next block does not touch, or it becomes a part of this one.
  rcases joinHigh_cases h.after h.end_le with ⟨he, hafter⟩ | ⟨c, hi', rfl, hc, he⟩
  · rw [he]
    refine ⟨⟨separated_append_cons.mpr ⟨h.before, h.after, (h.free_inside b hb).pos, hgap, hafter⟩,
      h.given_apart,
      h.apart, h.free_inside, h.given_inside⟩, ?_⟩
    rw [size_append, size_cons, add_assoc]
  rw [he]
  have hmem : c ∈ lo ++ b :: c :: hi' := List.mem_append_right _ (List.mem_cons_of_mem _ List.mem_cons_self)
  obtain ⟨hafter, hpos, hnext⟩ := separated_cons.mp h.after
  -- The joined block is the only one that is not of the old list.
  have hold : ∀ d ∈ lo ++ (b.1, b.2 + c.2) :: hi', d = (b.1, b.2 + c.2) ∨ d ∈ lo ++ b :: c :: hi' := by
    intro d hd
    rw [List.mem_append, List.mem_cons] at hd
    rcases hd with hd | rfl | hd
    · exact .inr (List.mem_append_left _ hd)
    · exact .inl rfl
    · exact .inr (List.mem_append_right _ (List.mem_cons_of_mem _ (List.mem_cons_of_mem _ hd)))
  refine ⟨⟨separated_append_cons.mpr ⟨h.before, hafter, ?_, hgap, fun d hd => ?_⟩,
    h.given_apart, fun d hd o ho => ?_,
    fun d hd => ?_, h.given_inside⟩, ?_⟩
  · exact Nat.add_pos_right _ hpos
  · have := hnext d hd
    unfold Gap at *
    dsimp only
    omega
  · rcases hold d hd with rfl | hd
    · exact (h.apart b hb o ho).join (h.apart c hmem o ho) hc (h.given_inside o ho).pos
    · exact h.apart d hd o ho
  · rcases hold d hd with rfl | hd
    · exact (h.free_inside b hb).join (h.free_inside c hmem) hc
    · exact h.free_inside d hd
  · rw [size_append, size_cons, size_cons]
    dsimp only
    omega

/-- Giving a block back keeps the division. -/
theorem Divided.put (h : Divided low high l ((a, n) :: given)) :
    Divided low high (putBlock l a n) given ∧ size (putBlock l a n) = size l + n := by
  obtain ⟨lo, hi, rfl, hlo, hhi⟩ := h.free.split a
  have hopen := h.opened hlo hhi
  obtain ⟨hlow, hgap, hsize⟩ := hopen.joinLow
  obtain ⟨hdiv, hsize'⟩ := hlow.joinHigh hgap
  rw [putBlock_eq hlo hhi hopen.le_start hopen.end_le]
  refine ⟨hdiv, ?_⟩
  rw [hsize', hsize, size_append]
  omega

/-- The order in which the blocks were given out does not matter. -/
theorem Divided.perm {given' : List (ℕ × ℕ)} (h : Divided low high l given) (hp : given.Perm given') :
    Divided low high l given' :=
  ⟨h.free, (hp.pairwise_iff Apart.symm).mp h.given_apart,
    fun b hb o ho => h.apart b hb o (hp.mem_iff.mpr ho), h.free_inside,
    fun o ho => h.given_inside o (hp.mem_iff.mpr ho)⟩

end Xinu
