import Xinu.Buf.PoolsSpec
import Xinu.Heap.Runs

/-!
# The memory of the buffer pools

`mkbufpool` asks `getmem` for the memory of a pool. Here the pools run beside the heap: other code
takes blocks from the heap and gives them back, and `mkbufpool` gives its block back if there is no
semaphore for the pool. What `getmem` returns is then fresh: a run of the heap and the pools is a
run of the pools as `pools_ok` asks for.
-/

namespace Xinu

open BufPools

/-- How many bytes `mkbufpool` asks for. -/
def poolSize (bufsiz numbufs : ℤ) : ℕ := numbufs.toNat * (roundbuf bufsiz + 4)

/-- The heap and the pools. -/
structure PoolHeap where
  /-- The memory that is not given out. -/
  heap : Heap
  /-- The blocks of the heap that have been given out. -/
  out : List (ℕ × ℕ)
  /-- The buffer pools. -/
  pools : BufPools

/-- One step. Nobody else gives back the memory of a pool. -/
inductive PoolHeapStep : PoolHeap → PoolHeap → Prop
  /-- A call of `getmem`, `getstk`, `freemem` or `freestk` by others, or a write into a block. -/
  | heap {h h' out out' s} (hs : HeapStep (h, out) (h', out')) (hown : ∀ p < s.nbpools, s.piece p ∈ out') :
    PoolHeapStep ⟨h, out, s⟩ ⟨h', out', s⟩
  /-- `mkbufpool`, with what `getmem` returns. -/
  | mkbufpool {h h' out s bufsiz numbufs r} (hacc : s.Accepts bufsiz numbufs)
    (he : h.getmem (poolSize bufsiz numbufs) = some (r, h')) :
    PoolHeapStep ⟨h, out, s⟩
      ⟨h', r.elim out fun a => (a, poolSize bufsiz numbufs) :: out, (s.mkbufpool bufsiz numbufs r true).2⟩
  /-- `mkbufpool` without a semaphore. -/
  | nosem {h h' h'' out s bufsiz numbufs a r} (hacc : s.Accepts bufsiz numbufs)
    (he : h.getmem (poolSize bufsiz numbufs) = some (some a, h'))
    (hf : h'.freemem a (poolSize bufsiz numbufs) = some (r, h'')) :
    PoolHeapStep ⟨h, out, s⟩ ⟨h'', out, (s.mkbufpool bufsiz numbufs (some a) false).2⟩
  /-- A call of `getbuf` or `freebuf`, or a write that is not in front of a buffer. -/
  | call {h out s s' e} (hmk : ∀ bufsiz numbufs getmem sem, e ≠ .mkbufpool bufsiz numbufs getmem sem)
    (hC : BpFair s e)
    (he : s.exec e = some s') : PoolHeapStep ⟨h, out, s⟩ ⟨h, out, s'⟩

/-- The heap is divided, and each pool has a block of its own. -/
structure PoolHeapOk (low high total : ℕ) (x : PoolHeap) : Prop where
  /-- Free blocks and blocks given out divide the heap. -/
  heap : ∃ l, HeapInv low high total x.heap x.out l
  /-- The memory of each pool has been given out. -/
  own : ∀ p < x.pools.nbpools, x.pools.piece p ∈ x.out
  /-- No pool is larger than `mkbufpool` makes it. -/
  small : ∀ p < x.pools.nbpools, (x.pools.piece p).2 ≤ 2 ^ 25

variable {x y : PoolHeap} {s s' : BufPools} {h h' : Heap}
  {out l : List (ℕ × ℕ)} {low high total a : ℕ} {bufsiz numbufs : ℤ}

/-- A request that `mkbufpool` accepts is for less than `2 ^ 25` bytes. -/
theorem poolSize_bounds (hacc : s.Accepts bufsiz numbufs) :
    0 < poolSize bufsiz numbufs ∧ poolSize bufsiz numbufs ≤ 2 ^ 25 := by
  unfold BufPools.Accepts at hacc
  push Not at hacc
  obtain ⟨-, hsize, hpos, hnum, -⟩ := hacc
  dsimp only [BP_MAXB, BP_MAXN] at hsize hnum
  have hround : roundbuf bufsiz + 4 ≤ 8196 := by
    unfold roundbuf
    omega
  constructor
  · exact Nat.mul_pos (by omega) (Nat.succ_pos _)
  · calc poolSize bufsiz numbufs ≤ 2048 * 8196 := Nat.mul_le_mul (by omega) hround
      _ ≤ 2 ^ 25 := by decide

/-- The memory of a small block is not less than what was asked for. -/
theorem le_held {n : ℕ} (hn : n ≤ 2 ^ 25) : n ≤ roundmb n := by
  unfold roundmb
  omega

/-- What `getmem` has just returned is fresh for the pools. -/
theorem HeapInv.fresh (hi : HeapInv low high total h' ((a, poolSize bufsiz numbufs) :: out) l)
    (hown : ∀ p < s.nbpools, s.piece p ∈ out) (hsmall : ∀ p < s.nbpools, (s.piece p).2 ≤ 2 ^ 25)
    (hacc : s.Accepts bufsiz numbufs) :
    s.Fresh bufsiz numbufs a := by
  have hle := le_held (poolSize_bounds hacc).2
  have hin := hi.divided.given_inside _ List.mem_cons_self
  have hhigh := hi.high_lt
  have hend := hin.le_high
  have hlow := hin.low_le
  have hlowpos := hi.low_pos
  unfold held at hend hlow
  dsimp only at hend hlow
  refine ⟨by omega, ?_, fun p hp => ?_⟩
  · show a + poolSize bufsiz numbufs ≤ 2 ^ 32
    omega
  · -- The two blocks are apart, and the memory of each pool is a part of its block.
    have hapart := (List.pairwise_cons.mp hi.divided.given_apart).1 _
      (List.mem_map_of_mem (f := held) (hown p hp))
    have hpiece := le_held (hsmall p hp)
    unfold Regions.Apart held at hapart
    unfold Regions.Apart
    dsimp only at hapart ⊢
    show (s.piece p).1 + (s.piece p).2 ≤ a ∨ a + poolSize bufsiz numbufs ≤ (s.piece p).1
    omega

/-! ## What a step leaves -/

/-- The pools have the same memory as before. -/
structure SamePieces (s s' : BufPools) : Prop where
  /-- There are as many pools. -/
  nbpools : s'.nbpools = s.nbpools
  /-- Each has the same block of memory. -/
  piece : ∀ p < s.nbpools, s'.piece p = s.piece p

/-- What holds of the memory of every pool still does. -/
theorem SamePieces.all {P : ℕ × ℕ → Prop} (hsame : SamePieces s s') (hP : ∀ p < s.nbpools, P (s.piece p)) :
    ∀ p < s'.nbpools, P (s'.piece p) := by
  intro p hp
  rw [hsame.nbpools] at hp
  rw [hsame.piece p hp]
  exact hP p hp

/-- An entry of the pool table changes, and keeps the size of the buffers. -/
theorem bpsize_update {t : ℕ → BpEntry} {i : ℕ} {e : BpEntry} (hsize : e.bpsize = (t i).bpsize) (p : ℕ) :
    (Function.update t i e p).bpsize = (t p).bpsize := by
  by_cases hp : p = i
  · rw [hp, Function.update_self]
    exact hsize
  · rw [Function.update_of_ne hp]

/-- An entry of the pool table, the memory and the loans change. -/
theorem SamePieces.entry (s : BufPools) (i : ℕ) (e : BpEntry) (mem : ℕ → UInt8) (loans : List BufLoan)
    (hsize : e.bpsize = (s.buftab i).bpsize) :
    SamePieces s { s with buftab := Function.update s.buftab i e, mem := mem, loans := loans } := by
  refine ⟨rfl, fun p _ => ?_⟩
  unfold BufPools.piece BpEntry.stride
  dsimp only
  rw [bpsize_update hsize]

/-- A change of the semaphore of a pool leaves the block of memory of each pool. -/
theorem SamePieces.setSem (s : BufPools) (i : ℕ) (y : Semaphore ℕ) :
    SamePieces s { s with buftab := Function.update s.buftab i { s.buftab i with bpsem := y } } :=
  .entry s i _ s.mem s.loans rfl

/-- A process that takes a buffer leaves the memory of the pools. -/
theorem SamePieces.take (s : BufPools) (pid p : ℕ) : SamePieces s (s.take pid p) := by
  unfold BufPools.take
  dsimp only
  split_ifs
  · exact ⟨rfl, fun _ _ => rfl⟩
  · exact .entry s p _ _ _ rfl

/-- `freebuf` is refused, or changes one entry and the memory. -/
theorem freebuf_cases (s : BufPools) (bufaddr : ℕ) :
    s.freebuf bufaddr = (SYSERR, s) ∨ ∃ i mem y next, s.freebuf bufaddr =
    (OK, { s with mem := mem,
                  buftab := Function.update s.buftab i { s.buftab i with bpnext := next, bpsem := y } }) := by
  obtain ⟨n, hid⟩ : ∃ n, int32 (Bytes.le32 s.mem (bufaddr - 4)) = n := ⟨_, rfl⟩
  by_cases hbad : n < 0 ∨ n ≥ s.nbpools
  · left
    simp only [BufPools.freebuf, hid, if_pos hbad]
  · right
    refine ⟨n.toNat, Bytes.store32 s.mem (bufaddr - 4) (s.buftab n.toNat).bpnext,
      (s.buftab n.toNat).bpsem.signal, bufaddr - 4, ?_⟩
    simp only [BufPools.freebuf, hid, if_neg hbad]

/-- Giving a buffer back leaves the pieces of memory that the pools have. -/
theorem SamePieces.freebuf (s : BufPools) (bufaddr : ℕ) : SamePieces s (s.freebuf bufaddr).2 := by
  rcases freebuf_cases s bufaddr with heq | ⟨i, mem, y, next, heq⟩
  · rw [heq]
    exact ⟨rfl, fun _ _ => rfl⟩
  · rw [heq]
    exact .entry s i _ mem s.loans rfl

/-- Two changes that leave the blocks of memory of the pools, one after the other, leave them too.
-/
theorem SamePieces.trans {s'' : BufPools} (h : SamePieces s s') (h' : SamePieces s' s'') : SamePieces s s'' :=
  ⟨h'.nbpools.trans h.nbpools, fun p hp => (h'.piece p (h.nbpools.symm ▸ hp)).trans (h.piece p hp)⟩

/-- Every call but `mkbufpool` leaves the pieces of memory that the pools have. -/
theorem SamePieces.exec {e : BpEvent}
    (hmk : ∀ bufsiz numbufs getmem sem, e ≠ .mkbufpool bufsiz numbufs getmem sem)
    (he : s.exec e = some s') : SamePieces s s' := by
  cases e with
  | mkbufpool bufsiz numbufs getmem sem => exact absurd rfl (hmk bufsiz numbufs getmem sem)
  | getbuf pid poolid =>
    obtain rfl := Option.some.inj he
    unfold BufPools.getbuf
    dsimp only
    split_ifs
    · exact ⟨rfl, fun _ _ => rfl⟩
    · exact (SamePieces.setSem s _ _).trans (.take _ pid _)
    · exact .setSem s _ _
  | woken p k =>
    obtain ⟨-, he⟩ := Option.ite_none_right_eq_some.mp he
    obtain ⟨⟨pid, y⟩, -, rfl⟩ := Option.map_eq_some_iff.mp he
    exact (SamePieces.setSem s p y).trans (.take _ pid p)
  | freebuf k =>
    obtain ⟨b, -, rfl⟩ := Option.map_eq_some_iff.mp he
    have hloans : SamePieces s { s with loans := s.loans.eraseIdx k } := ⟨rfl, fun _ _ => rfl⟩
    exact hloans.trans (.freebuf _ _)
  | write a y =>
    obtain rfl := Option.some.inj he
    exact ⟨rfl, fun _ _ => rfl⟩

/-- `mkbufpool` without memory or a semaphore makes no pool. -/
theorem SamePieces.mkbufpool {getmem : Option ℕ} {sem : Bool} (hno : getmem = none ∨ sem = false) :
    SamePieces s (s.mkbufpool bufsiz numbufs getmem sem).2 := by
  have hsame : SamePieces s s := ⟨rfl, fun _ _ => rfl⟩
  unfold BufPools.mkbufpool
  by_cases hacc : s.Accepts bufsiz numbufs
  · rw [if_neg (not_not.mpr hacc)]
    cases getmem with
    | none => exact hsame
    | some a =>
      obtain rfl := hno.resolve_left (by rintro ⟨⟩)
      refine ⟨rfl, fun p hp => ?_⟩
      -- The entry that has been written is that of no pool.
      have hne : p ≠ s.nbpools := hp.ne
      simp only [BufPools.piece, Bool.false_eq_true, if_false, Function.update_of_ne hne]
  · rw [if_pos hacc]
    exact hsame

/-- `mkbufpool` with memory and a semaphore makes a pool there, and leaves the others. -/
theorem piece_mkbufpool (hacc : s.Accepts bufsiz numbufs) :
    (s.mkbufpool bufsiz numbufs (some a) true).2.nbpools = s.nbpools + 1 ∧
      (s.mkbufpool bufsiz numbufs (some a) true).2.piece s.nbpools = (a, poolSize bufsiz numbufs) ∧
      ∀ p < s.nbpools, (s.mkbufpool bufsiz numbufs (some a) true).2.piece p = s.piece p := by
  unfold BufPools.mkbufpool
  rw [if_neg (not_not.mpr hacc)]
  dsimp only
  rw [if_pos rfl]
  refine ⟨rfl, ?_, fun p hp => ?_⟩
  · unfold BufPools.piece
    dsimp only
    rw [Function.update_self, Function.update_self, Function.update_self]
    rfl
  · have hne : p ≠ s.nbpools := hp.ne
    unfold BufPools.piece
    dsimp only
    rw [Function.update_of_ne hne, Function.update_of_ne hne, Function.update_of_ne hne]

/-! ## Runs -/

/-- A step of the heap and the pools keeps the heap divided, and it is a step of the pools with
fresh memory, or none. -/
theorem PoolHeapOk.step (hx : PoolHeapOk low high total x) (hs : PoolHeapStep x y) :
    PoolHeapOk low high total y ∧
    (y.pools = x.pools ∨ ∃ e, BpFair x.pools e ∧ x.pools.exec e = some y.pools) := by
  obtain ⟨⟨l, hi⟩, hown, hsmall⟩ := hx
  cases hs with
  | heap hs hown' => exact ⟨⟨hi.step hs, hown', hsmall⟩, .inl rfl⟩
  | @mkbufpool h h' out s bufsiz numbufs r hacc he =>
    dsimp only at hi hown hsmall ⊢
    have hbounds := poolSize_bounds hacc
    -- `getmem` has found a block, so the heap gives it out as its invariant says.
    obtain ⟨r', h₁, l', he', hi'⟩ := hi.getmem (n := poolSize bufsiz numbufs) (by omega)
    obtain ⟨rfl, rfl⟩ := Prod.mk.inj (Option.some.inj (he.symm.trans he'))
    cases r with
    | none =>
      have hsame : SamePieces s (s.mkbufpool bufsiz numbufs none true).2 := .mkbufpool (.inl rfl)
      refine ⟨⟨⟨l', hi'⟩, hsame.all hown, hsame.all (P := fun b => b.2 ≤ 2 ^ 25) hsmall⟩,
        .inr ⟨.mkbufpool bufsiz numbufs none true, ?_, rfl⟩⟩
      exact fun buf hbuf _ => absurd hbuf (by rintro ⟨⟩)
    -- The new pool gets the block, and the others keep theirs.
    | some a =>
      obtain ⟨hn, hnew, hold⟩ := piece_mkbufpool (a := a) hacc
      refine ⟨⟨⟨l', hi'⟩, fun p hp => ?_, fun p hp => ?_⟩,
        .inr ⟨.mkbufpool bufsiz numbufs (some a) true, ?_, rfl⟩⟩
      · rcases Nat.lt_succ_iff_lt_or_eq.mp (hn ▸ hp) with hlt | rfl
        · rw [hold p hlt]
          exact List.mem_cons_of_mem _ (hown p hlt)
        · rw [hnew]
          exact List.mem_cons_self
      · rcases Nat.lt_succ_iff_lt_or_eq.mp (hn ▸ hp) with hlt | rfl
        · rw [hold p hlt]
          exact hsmall p hlt
        · rw [hnew]
          exact hbounds.2
      -- The block is fresh: it overlaps no pool, as blocks given out are apart.
      · intro buf hbuf _
        obtain rfl := Option.some.inj hbuf
        exact hi'.fresh hown hsmall hacc
  | @nosem h h' h'' out s bufsiz numbufs a r hacc he hf =>
    dsimp only at hi hown hsmall ⊢
    have hbounds := poolSize_bounds hacc
    obtain ⟨r', h₁, l', he', hi'⟩ := hi.getmem (n := poolSize bufsiz numbufs) (by omega)
    obtain ⟨rfl, rfl⟩ := Prod.mk.inj (Option.some.inj (he.symm.trans he'))
    -- Without a semaphore the block goes back at once, and the heap is as before.
    obtain ⟨h₂, l'', hf', hi''⟩ := hi'.freemem (a := a) List.mem_cons_self rfl
    obtain ⟨-, rfl⟩ := Prod.mk.inj (Option.some.inj (hf.symm.trans hf'))
    have hback : ((a, poolSize bufsiz numbufs) :: out).erase (a, poolSize bufsiz numbufs) = out :=
      List.erase_cons_head ..
    have hsame : SamePieces s (s.mkbufpool bufsiz numbufs (some a) false).2 := .mkbufpool (.inr rfl)
    refine ⟨⟨⟨l'', hback ▸ hi''⟩, hsame.all hown, hsame.all (P := fun b => b.2 ≤ 2 ^ 25) hsmall⟩,
      .inr ⟨.mkbufpool bufsiz numbufs (some a) false, ?_, rfl⟩⟩
    intro buf hbuf _
    obtain rfl := Option.some.inj hbuf
    exact hi'.fresh hown hsmall hacc
  | @call h out s s' e hmk hC he =>
    dsimp only at hi hown hsmall ⊢
    have hsame := SamePieces.exec hmk he
    exact ⟨⟨⟨l, hi⟩, hsame.all hown, hsame.all (P := fun b => b.2 ≤ 2 ^ 25) hsmall⟩, .inr ⟨e, hC, he⟩⟩

/-- A run of the heap and the pools, from where `meminit` and `bufinit` leave them, is a run of the
pools in which `getmem` returns fresh memory, if the image ends where `meminit` expects it. -/
theorem pools_run {ending : ℕ} {mem : ℕ → UInt8} (hend : ending < 2 ^ 32)
    (hcond : ending + 12 ≤ HOLESTART ∨ roundmb ending = HOLEEND ∨ roundmb ending = 0)
    (hr : Relation.ReflTransGen PoolHeapStep ⟨h.setsegs.meminit ending, [], .bufinit mem⟩ x) :
    BpRun BpFair (.bufinit mem) x.pools := by
  obtain ⟨low, high, total, l, hi⟩ := meminit_inv h hend hcond
  suffices hinv : PoolHeapOk low high total x ∧ BpRun BpFair (.bufinit mem) x.pools from hinv.2
  induction hr with
  | refl =>
    exact ⟨⟨⟨l, hi⟩, fun p hp => absurd hp (Nat.not_lt_zero p),
      fun p hp => absurd hp (Nat.not_lt_zero p)⟩, .start⟩
  | tail _ hs ih =>
    obtain ⟨hok, hrun⟩ := ih
    obtain ⟨hok', hpools⟩ := hok.step hs
    refine ⟨hok', ?_⟩
    rcases hpools with hsame | ⟨e, hC, he⟩
    · rw [hsame]
      exact hrun
    · exact hrun.step hC he

end Xinu
