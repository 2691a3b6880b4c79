import Xinu.Buf.Pools

/-!
# Each buffer is lent to one process at a time

`PoolsOk` is the invariant: the blocks of a pool are those of its free list and those that are lent,
its semaphore counts the free ones, and a buffer that is lent bears the ID of its pool. It holds
also while a process has used a permit and has not taken its buffer: `hand` is the pool then. There
is a lemma for each call; what it does to one pool leaves the others, `PoolOk.congr`.
-/

namespace Xinu

open Bytes Blocks

/-- The bytes from one buffer of a pool to the next. -/
def BpEntry.stride (e : BpEntry) : ℕ := e.bpsize + 4

namespace BufPools

/-- The buffers of a pool, by their first bytes. -/
def blocks (s : BufPools) (p : ℕ) : List ℕ := List.range' (s.base p) (s.count p) (s.buftab p).stride

/-- The buffers of a pool that are lent, by the addresses of their blocks. -/
def lent (s : BufPools) (p : ℕ) : List ℕ := (s.loans.filter (·.poolid = p)).map (·.bufaddr - 4)

/-- The memory of a pool. -/
def piece (s : BufPools) (p : ℕ) : ℕ × ℕ := (s.base p, s.count p * (s.buftab p).stride)

end BufPools

/-- What holds of a pool whose free list is `q`. `n` processes have used a permit and have not taken
their buffer. -/
structure PoolOk (s : BufPools) (p : ℕ) (q : List ℕ) (n : ℕ) : Prop where
  /-- The links lead through the buffers of the free list. -/
  path : LinkPath (link s.mem) (ptr (s.buftab p).bpnext) q none
  /-- The free buffers and those lent out are all buffers of the pool, each once. -/
  all : (q ++ s.lent p).Perm (s.blocks p)
  /-- The pool number stands in front of each buffer lent out. -/
  marked : ∀ l ∈ s.loans, l.poolid = p → 4 ≤ l.bufaddr ∧ le32 s.mem (l.bufaddr - 4) = p
  /-- The count of the semaphore agrees with its waiting processes. -/
  sem : (s.buftab p).bpsem.Ok
  /-- The permits that are left, and those used by a process that has not taken its buffer yet, are the free
  buffers. -/
  permits : (s.buftab p).bpsem.unused + n = q.length
  /-- The pool does not begin at the null pointer. -/
  pos : 0 < s.base p
  /-- It ends within the address space. -/
  fits : s.base p + s.count p * (s.buftab p).stride ≤ 2 ^ 32

/-- The invariant. A process has used a permit of the pool `hand`. -/
structure PoolsOk (s : BufPools) (q : ℕ → List ℕ) (hand : Option ℕ) : Prop where
  /-- There are no more pools than the table has entries. -/
  few : s.nbpools ≤ NBPOOLS
  /-- Each pool is in order. -/
  pool : ∀ p < s.nbpools, PoolOk s p (q p) (if hand = some p then 1 else 0)
  /-- The memory of two pools does not overlap. -/
  apart : ∀ p < s.nbpools, ∀ p' < s.nbpools, p ≠ p' → Regions.Apart (s.piece p) (s.piece p')
  /-- A buffer lent out belongs to a pool that has been made. -/
  loans : ∀ l ∈ s.loans, l.poolid < s.nbpools
  /-- No null pointer has been followed. -/
  fault : s.fault = false

variable {s s' : BufPools} {p p' n x y : ℕ} {q : ℕ → List ℕ} {l : List ℕ} {hand : Option ℕ}

/-- A free buffer is one of the pool. -/
theorem PoolOk.mem_free (h : PoolOk s p l n) (hx : x ∈ l) : x ∈ s.blocks p :=
  h.all.mem_iff.mp (List.mem_append_left _ hx)

/-- A buffer that is lent is one of the pool. -/
theorem PoolOk.mem_lent (h : PoolOk s p l n) {b : BufLoan} (hb : b ∈ s.loans) (hp : b.poolid = p) :
    b.bufaddr - 4 ∈ s.blocks p := by
  refine h.all.mem_iff.mp (List.mem_append_right _ (List.mem_map.mpr ⟨b, List.mem_filter.mpr ⟨hb, ?_⟩, rfl⟩))
  exact decide_eq_true hp

/-- No buffer of a pool is there twice. -/
theorem PoolOk.nodup (h : PoolOk s p l n) : (l ++ s.lent p).Nodup :=
  h.all.nodup_iff.mpr (List.nodup_range' _ (Nat.succ_pos _))

/-- The first free buffer of a pool, if there is one, has an address of 32 bits. -/
theorem PoolOk.next_lt (h : PoolOk s p l n) : (s.buftab p).bpnext < 2 ^ 32 := by
  by_cases hzero : (s.buftab p).bpnext = 0
  · omega
  · have hpath := h.path
    rw [ptr_of_pos (Nat.pos_of_ne_zero hzero)] at hpath
    cases l with
    | nil => exact absurd hpath (by rintro ⟨⟩)
    | cons x l =>
      obtain rfl := Option.some.inj hpath.1
      have hbounds := mem_bounds (h.mem_free List.mem_cons_self)
      have hfits := h.fits
      have hstride : (s.buftab p).stride = (s.buftab p).bpsize + 4 := rfl
      omega

/-- The buffers of a pool are apart. -/
theorem blocks_apart (hx : x ∈ s.blocks p) (hy : y ∈ s.blocks p) (hne : x ≠ y) : WordsApart x y := by
  have happart := apart hx hy hne
  unfold BpEntry.stride at happart
  unfold WordsApart
  omega

/-- The buffers of two pools are apart. -/
theorem PoolsOk.words_apart (h : PoolsOk s q hand) (hp : p < s.nbpools)
    (hp' : p' < s.nbpools) (hne : p ≠ p') (hx : x ∈ s.blocks p)
    (hy : y ∈ s.blocks p') : WordsApart x y := by
  have happart := apart_of_pieces (h.apart p hp p' hp' hne) hx hy
  unfold BpEntry.stride at happart
  unfold WordsApart
  omega

/-- What is known of a pool depends on its entry, its loans and the first words of its buffers. -/
theorem PoolOk.congr (h : PoolOk s p l n) (htab : s'.buftab p = s.buftab p)
    (hbase : s'.base p = s.base p) (hcount : s'.count p = s.count p)
    (hlent : (s'.lent p).Perm (s.lent p)) (hloans : ∀ b ∈ s'.loans, b.poolid = p → b ∈ s.loans)
    (hmem : ∀ x ∈ s.blocks p, le32 s'.mem x = le32 s.mem x) : PoolOk s' p l n := by
  have hblocks : s'.blocks p = s.blocks p := by rw [BufPools.blocks, BufPools.blocks, htab, hbase, hcount]
  constructor
  · rw [htab]
    exact h.path.congr fun x hx => by rw [link, link, hmem x (h.mem_free hx)]
  · rw [hblocks]
    exact (hlent.append_left l).trans h.all
  · intro b hb hp
    obtain ⟨hfour, hmark⟩ := h.marked b (hloans b hb hp) hp
    exact ⟨hfour, by rw [hmem _ (h.mem_lent (hloans b hb hp) hp), hmark]⟩
  · rw [htab]
    exact h.sem
  · rw [htab]
    exact h.permits
  · rw [hbase]
    exact h.pos
  · rw [htab, hbase, hcount]
    exact h.fits

/-- What a step at one pool has to show. -/
structure PoolChange (s s' : BufPools) (p : ℕ) (l : List ℕ) (n : ℕ) : Prop where
  /-- No other entry of the table changes, and the buffers keep their size. -/
  entry : ∃ e : BpEntry, s'.buftab = Function.update s.buftab p e ∧ e.bpsize = (s.buftab p).bpsize
  /-- The pools stay where they are. -/
  base : s'.base = s.base
  /-- They have as many buffers as before. -/
  count : s'.count = s.count
  /-- There are as many pools. -/
  nbpools : s'.nbpools = s.nbpools
  /-- No null pointer is followed. -/
  fault : s'.fault = false
  /-- What is lent out anew is a buffer of this pool. -/
  loans : ∀ b ∈ s'.loans, b ∈ s.loans ∨ b.poolid = p
  /-- The buffers that other pools have lent stay lent. -/
  lent : ∀ p', p' ≠ p → (s'.lent p').Perm (s.lent p')
  /-- Memory changes only in words of buffers of this pool. -/
  mem : ∀ y, (∀ x ∈ s.blocks p, WordsApart x y) → le32 s'.mem y = le32 s.mem y
  /-- The links lead through the new free list. -/
  path : LinkPath (link s'.mem) (ptr (s'.buftab p).bpnext) l none
  /-- The free buffers and those lent out are again all buffers of the pool. -/
  all : (l ++ s'.lent p).Perm (s.blocks p)
  /-- The pool number stands in front of each buffer that this pool has lent. -/
  marked : ∀ b ∈ s'.loans, b.poolid = p → 4 ≤ b.bufaddr ∧ le32 s'.mem (b.bufaddr - 4) = p
  /-- The semaphore is in order again. -/
  sem : (s'.buftab p).bpsem.Ok
  /-- Its permits, with those in use, are the free buffers again. -/
  permits : (s'.buftab p).bpsem.unused + n = l.length

/-- A change of one pool keeps the invariant, if the new pool is in order. -/
theorem PoolsOk.change {hand' : Option ℕ} (h : PoolsOk s q hand)
    (hp : p < s.nbpools) (hhand : hand = none ∨ hand = some p)
    (hhand' : hand' = none ∨ hand' = some p) (hc : PoolChange s s' p l (if hand' = some p then 1 else 0)) :
    PoolsOk s' (Function.update q p l) hand' := by
  obtain ⟨e, htab, hsize⟩ := hc.entry
  -- What the places of buffers depend on has not changed.
  have hstride : ∀ k, (s'.buftab k).stride = (s.buftab k).stride := by
    intro k
    unfold BpEntry.stride
    rw [htab]
    by_cases hk : k = p
    · rw [hk, Function.update_self, hsize]
    · rw [Function.update_of_ne hk]
  have hblocks : ∀ k, s'.blocks k = s.blocks k :=
    fun k => by rw [BufPools.blocks, BufPools.blocks, hc.base, hc.count, hstride]
  have hpiece : ∀ k, s'.piece k = s.piece k :=
    fun k => by rw [BufPools.piece, BufPools.piece, hc.base, hc.count, hstride]
  constructor
  · rw [hc.nbpools]
    exact h.few
  · intro k hk
    rw [hc.nbpools] at hk
    -- The pool of the change is in order by the change itself, the others as they were.
    by_cases hkp : k = p
    · have hpool := h.pool p hp
      subst hkp
      rw [Function.update_self]
      refine ⟨hc.path, (hblocks k).symm ▸ hc.all, hc.marked, hc.sem, hc.permits, ?_, ?_⟩
      · rw [hc.base]
        exact hpool.pos
      · rw [hc.base, hc.count, hstride]
        exact hpool.fits
    · have hne : ∀ o : Option ℕ, o = none ∨ o = some p → ¬ o = some k := by
        rintro o (rfl | rfl) ho
        · cases ho
        · exact hkp (Option.some.inj ho).symm
      have hpool := h.pool k hk
      rw [if_neg (hne _ hhand)] at hpool
      rw [Function.update_of_ne hkp, if_neg (hne _ hhand')]
      refine hpool.congr (by rw [htab, Function.update_of_ne hkp])
        (by rw [hc.base]) (by rw [hc.count]) (hc.lent k hkp) ?_ ?_
      · intro b hb hbk
        exact (hc.loans b hb).resolve_right fun hbp => hkp (hbk.symm.trans hbp)
      -- A word written is one of this pool, and pools do not overlap.
      · exact fun y hy => hc.mem y fun x hx => h.words_apart hp hk (Ne.symm hkp) hx hy
  · intro i hi j hj hij
    rw [hpiece, hpiece]
    rw [hc.nbpools] at hi hj
    exact h.apart i hi j hj hij
  · intro b hb
    rw [hc.nbpools]
    rcases hc.loans b hb with hb | hb
    · exact h.loans b hb
    · rw [hb]
      exact hp
  · exact hc.fault

/-- The loans, if one more buffer is lent. -/
theorem BufPools.lent_concat {b : BufLoan} (hloans : s'.loans = s.loans ++ [b]) :
    s'.lent p = s.lent p ++ if b.poolid = p then [b.bufaddr - 4] else [] := by
  unfold BufPools.lent
  rw [hloans, List.filter_append, List.map_append, List.filter_singleton]
  by_cases hp : b.poolid = p
  · rw [decide_eq_true hp, if_pos hp, cond_true, List.map_singleton]
  · rw [decide_eq_false hp, if_neg hp, cond_false, List.map_nil]

/-- The loans, if a buffer is given back. -/
theorem BufPools.lent_cons {b : BufLoan} (hloans : s.loans.Perm (b :: s'.loans)) :
    (s.lent p).Perm ((if b.poolid = p then [b.bufaddr - 4] else []) ++ s'.lent p) := by
  unfold BufPools.lent
  refine ((hloans.filter _).map _).trans ?_
  rw [List.filter_cons]
  by_cases hp : b.poolid = p
  · rw [if_pos (decide_eq_true hp), if_pos hp]
    exact .refl _
  · rw [if_neg (by simpa using hp), if_neg hp]
    exact .refl _

/-! ## Calls -/

/-- The process that has used a permit takes a buffer: the free list is not empty. -/
theorem PoolsOk.take {pid : ℕ} (h : PoolsOk s q (some p)) (hp : p < s.nbpools) :
    ∃ q, PoolsOk (s.take pid p) q none := by
  have hpool := h.pool p hp
  rw [if_pos rfl] at hpool
  -- The permit stands for a buffer.
  obtain ⟨x, l, hq⟩ : ∃ x l, q p = x :: l := by
    refine List.exists_cons_of_ne_nil fun hnil => ?_
    have hwoken := hpool.sem.woken_le
    have hpermits := hpool.permits
    rw [hnil, List.length_nil] at hpermits
    omega
  have hpath := hpool.path
  rw [hq] at hpath
  obtain ⟨hhead, hpath⟩ := hpath
  obtain ⟨hnext, hne⟩ := ptr_eq_some.mp hhead
  rw [hnext] at hne
  have hnodup := hpool.nodup
  rw [hq] at hnodup
  have hxl : x ∉ l ++ s.lent p := (List.nodup_cons.mp hnodup).1
  have hx : x ∈ s.blocks p := hpool.mem_free (hq ▸ List.mem_cons_self)
  have hp32 : p < 2 ^ 32 := by
    have hfew := h.few
    unfold NBPOOLS at hfew
    omega
  have heq : s.take pid p = { s with
      buftab := Function.update s.buftab p { s.buftab p with bpnext := le32 s.mem x }
      mem := store32 s.mem x p
      loans := s.loans ++ [⟨pid, p, x + 4⟩] } := by
    rw [BufPools.take]
    dsimp only
    rw [hnext, if_neg hne]
  rw [heq]
  refine ⟨_, h.change (l := l) hp (Or.inr rfl) (Or.inl rfl)
    ⟨⟨_, rfl, rfl⟩, rfl, rfl, rfl, h.fault, ?_, ?_, ?_, ?_, ?_, ?_, ?_, ?_⟩⟩
  · intro b hb
    rcases List.mem_append.mp hb with hb | hb
    · exact Or.inl hb
    · rw [List.mem_singleton.mp hb]
      exact Or.inr rfl
  · intro p' hne
    rw [BufPools.lent_concat (s := s) rfl, if_neg (Ne.symm hne), List.append_nil]
  · exact fun y hy => le32_store32_of_apart (hy x hx)
  · dsimp only
    rw [Function.update_self]
    exact path_store32 hpath fun y hy => blocks_apart hx (hpool.mem_free (hq ▸ List.mem_cons_of_mem _ hy))
      (ne_of_mem_of_not_mem (List.mem_append_left _ hy) hxl).symm
  · rw [BufPools.lent_concat (s := s) rfl, if_pos rfl, Nat.add_sub_cancel, ← List.append_assoc]
    have hall := hpool.all
    rw [hq] at hall
    exact (List.perm_append_singleton x (l ++ s.lent p)).trans hall
  · intro b hb hbp
    rcases List.mem_append.mp hb with hb | hb
    · obtain ⟨hfour, hmark⟩ := hpool.marked b hb hbp
      have hmem : b.bufaddr - 4 ∈ s.lent p :=
        List.mem_map.mpr ⟨b, List.mem_filter.mpr ⟨hb, decide_eq_true hbp⟩, rfl⟩
      refine ⟨hfour, ?_⟩
      rw [le32_store32_of_apart (blocks_apart hx (hpool.mem_lent hb hbp)
        (ne_of_mem_of_not_mem (List.mem_append_right _ hmem) hxl).symm), hmark]
    · rw [List.mem_singleton.mp hb]
      exact ⟨Nat.le_add_left 4 x, by rw [Nat.add_sub_cancel, le32_store32 hp32]⟩
  · dsimp only
    rw [Function.update_self]
    exact hpool.sem
  · dsimp only
    rw [Function.update_self, if_neg (by rintro ⟨⟩)]
    have hpermits := hpool.permits
    rw [hq, List.length_cons] at hpermits
    push_cast at hpermits ⊢
    omega

/-- The semaphore of a pool changes. -/
theorem PoolsOk.setSem {y : Semaphore ℕ} {hand' : Option ℕ} (h : PoolsOk s q none) (hp : p < s.nbpools)
    (hhand' : hand' = none ∨ hand' = some p) (hok : (s.buftab p).bpsem.Ok → y.Ok)
    (hu : (s.buftab p).bpsem.unused = y.unused + if hand' = some p then 1 else 0) :
    PoolsOk { s with buftab := Function.update s.buftab p { s.buftab p with bpsem := y } } q hand' := by
  have hpool := h.pool p hp
  rw [if_neg (by rintro ⟨⟩)] at hpool
  have hchange : PoolsOk { s with buftab := Function.update s.buftab p { s.buftab p with bpsem := y } }
      (Function.update q p (q p)) hand' :=
    h.change hp (Or.inl rfl) hhand' ⟨⟨_, rfl, rfl⟩, rfl, rfl,
      rfl, h.fault, fun _ hb => Or.inl hb, fun _ _ => .refl _, fun _ _ => rfl, ?_, hpool.all,
      hpool.marked, ?_, ?_⟩
  · rw [Function.update_eq_self] at hchange
    exact hchange
  · dsimp only
    rw [Function.update_self]
    exact hpool.path
  · dsimp only
    rw [Function.update_self]
    exact hok hpool.sem
  · dsimp only
    rw [Function.update_self]
    have hpermits := hpool.permits
    rw [hu] at hpermits
    push_cast at hpermits ⊢
    split_ifs at hpermits ⊢ <;> omega

/-- `getbuf` keeps the invariant, with one buffer less on the free list of a pool that has one. -/
theorem PoolsOk.getbuf {pid : ℕ} {poolid : ℤ} (h : PoolsOk s q none) :
    ∃ q, PoolsOk (s.getbuf pid poolid) q none := by
  unfold BufPools.getbuf
  by_cases hbad : poolid < 0 ∨ poolid ≥ s.nbpools
  · rw [if_pos hbad]
    exact ⟨q, h⟩
  · rw [if_neg hbad]
    have hp : poolid.toNat < s.nbpools := by omega
    dsimp only
    by_cases hgo : ((s.buftab poolid.toNat).bpsem.wait pid).1 = true
    · rw [if_pos hgo]
      refine (h.setSem hp (Or.inr rfl) (fun hok => hok.wait) ?_).take hp
      rw [Semaphore.unused_wait_go hgo, if_pos rfl]
      omega
    · rw [if_neg hgo]
      refine ⟨q, h.setSem hp (Or.inl rfl) (fun hok => hok.wait) ?_⟩
      rw [Semaphore.unused_wait_block (Bool.eq_false_iff.mpr hgo), if_neg (by rintro ⟨⟩), add_zero]

/-- A process goes on that has been woken in `getbuf`. -/
theorem PoolsOk.resume {k : ℕ} (h : PoolsOk s q none) (hp : p < s.nbpools) (hr : s.resume p k = some s') :
    ∃ q, PoolsOk s' q none := by
  obtain ⟨⟨pid, y⟩, hres, rfl⟩ := Option.map_eq_some_iff.mp hr
  refine (h.setSem hp (Or.inr rfl) (fun hok => hok.resume hres) ?_).take hp
  rw [Semaphore.unused_resume hres, if_pos rfl]
  omega

/-- `freebuf`, for a buffer that bears the ID of a pool. -/
theorem BufPools.freebuf_eq {bufaddr : ℕ} (hid : int32 (le32 s.mem (bufaddr - 4)) = p) (hp : p < s.nbpools) :
    s.freebuf bufaddr = (OK, { s with
      mem := store32 s.mem (bufaddr - 4) (s.buftab p).bpnext
      buftab := Function.update s.buftab p
        { s.buftab p with bpnext := bufaddr - 4, bpsem := (s.buftab p).bpsem.signal } }) := by
  have hok : ¬ ((p : ℤ) < 0 ∨ (p : ℤ) ≥ s.nbpools) := by omega
  simp only [freebuf, hid, if_neg hok, Int.toNat_natCast]

/-- `freebuf`, for a buffer that is lent, gives it back to its pool. -/
theorem PoolsOk.freebuf {k : ℕ} {b : BufLoan} (h : PoolsOk s q none) (hk : s.loans[k]? = some b) :
    ∃ q, PoolsOk (BufPools.freebuf { s with loans := s.loans.eraseIdx k } b.bufaddr).2 q none := by
  obtain ⟨hlt, hget⟩ := List.getElem?_eq_some_iff.mp hk
  have hb : b ∈ s.loans := hget ▸ List.getElem_mem hlt
  have hperm : s.loans.Perm (b :: s.loans.eraseIdx k) := by
    rw [← hget]
    exact (List.getElem_cons_eraseIdx_perm hlt).symm
  have hp := h.loans b hb
  have hpool := h.pool b.poolid hp
  rw [if_neg (by rintro ⟨⟩)] at hpool
  obtain ⟨hfour, hmark⟩ := hpool.marked b hb rfl
  have hmem : b.bufaddr - 4 ∈ s.lent b.poolid :=
    List.mem_map.mpr ⟨b, List.mem_filter.mpr ⟨hb, decide_eq_true rfl⟩, rfl⟩
  have hx := hpool.mem_lent hb rfl
  -- It is found by the ID in front of the buffer.
  have hid : int32 (le32 s.mem (b.bufaddr - 4)) = b.poolid := by
    rw [hmark]
    have hfew := h.few
    unfold NBPOOLS at hfew
    exact int32_of_mem (by omega) (by omega)
  have heq : (BufPools.freebuf { s with loans := s.loans.eraseIdx k } b.bufaddr).2 = { s with
      loans := s.loans.eraseIdx k
      mem := store32 s.mem (b.bufaddr - 4) (s.buftab b.poolid).bpnext
      buftab := Function.update s.buftab b.poolid
        { s.buftab b.poolid with bpnext := b.bufaddr - 4, bpsem := (s.buftab b.poolid).bpsem.signal } } := by
    rw [BufPools.freebuf_eq (s := { s with loans := s.loans.eraseIdx k }) hid hp]
  have hlent : (s.lent b.poolid).Perm ((if b.poolid = b.poolid then [b.bufaddr - 4] else []) ++
      BufPools.lent { s with loans := s.loans.eraseIdx k } b.poolid) := BufPools.lent_cons hperm
  rw [if_pos rfl] at hlent
  have hnodup := hpool.nodup
  have hnext := hpool.next_lt
  have hpos : 0 < b.bufaddr - 4 := lt_of_lt_of_le hpool.pos (mem_bounds hx).1
  have hnotfree : b.bufaddr - 4 ∉ q b.poolid :=
    fun hfree => (List.nodup_append.mp hnodup).2.2 _ hfree _ hmem rfl
  rw [heq]
  refine ⟨_, h.change (l := (b.bufaddr - 4) :: q b.poolid) hp
    (Or.inl rfl) (Or.inl rfl) ⟨⟨_, rfl, rfl⟩, rfl, rfl, rfl, h.fault, ?_, ?_, ?_, ?_, ?_,
    ?_, ?_, ?_⟩⟩
  · exact fun c hc => Or.inl (List.mem_of_mem_eraseIdx hc)
  · intro p' hne
    have hother : (s.lent p').Perm ((if b.poolid = p' then [b.bufaddr - 4] else []) ++
        BufPools.lent { s with loans := s.loans.eraseIdx k } p') := BufPools.lent_cons hperm
    rw [if_neg (Ne.symm hne), List.nil_append] at hother
    exact hother.symm
  · exact fun y hy => le32_store32_of_apart (hy _ hx)
  · dsimp only
    rw [Function.update_self]
    refine ⟨ptr_of_pos hpos, ?_⟩
    rw [link_store32 hnext]
    exact path_store32 hpool.path fun y hy =>
      blocks_apart hx (hpool.mem_free hy) (ne_of_mem_of_not_mem hy hnotfree).symm
  · refine List.Perm.trans ?_ hpool.all
    refine List.Perm.trans ?_ (hlent.symm.append_left _)
    exact List.perm_middle.symm
  · intro c hc hcp
    have hcl : c ∈ s.loans := List.mem_of_mem_eraseIdx hc
    obtain ⟨hcfour, hcmark⟩ := hpool.marked c hcl hcp
    -- No two loans of a pool are of one buffer.
    have hne : b.bufaddr - 4 ≠ c.bufaddr - 4 := by
      intro heq
      have hlentd :
          ((b.bufaddr - 4) :: BufPools.lent { s with loans := s.loans.eraseIdx k } b.poolid).Nodup :=
        hlent.nodup_iff.mp (List.nodup_append.mp hnodup).2.1
      refine (List.nodup_cons.mp hlentd).1
        (List.mem_map.mpr ⟨c, List.mem_filter.mpr ⟨hc, decide_eq_true hcp⟩, heq.symm⟩)
    exact ⟨hcfour, by rw [le32_store32_of_apart (blocks_apart hx (hpool.mem_lent hcl hcp) hne), hcmark]⟩
  · dsimp only
    rw [Function.update_self]
    exact hpool.sem.signal
  · dsimp only
    rw [Function.update_self, if_neg (by rintro ⟨⟩)]
    have hpermits := hpool.permits
    rw [hpool.sem.unused_signal, List.length_cons]
    push_cast at hpermits ⊢
    omega

/-- Only the memory changes, and not in front of the buffers. -/
theorem PoolsOk.setMem {mem : ℕ → UInt8} (h : PoolsOk s q none)
    (hmem : ∀ p < s.nbpools, ∀ x ∈ s.blocks p, le32 mem x = le32 s.mem x) :
    PoolsOk { s with mem := mem } q none := by
  refine ⟨h.few, fun p hp => ?_, h.apart, h.loans, h.fault⟩
  exact (h.pool p hp).congr rfl rfl rfl (.refl _) (fun _ hb _ => hb) (hmem p hp)

/-- The memory that `getmem` returns for a request is not null, ends where addresses end, and is
apart from that of the other pools. -/
def BufPools.Fresh (s : BufPools) (bufsiz numbufs : ℤ) (buf : ℕ) : Prop :=
  0 < buf ∧ buf + numbufs.toNat * (roundbuf bufsiz + 4) ≤ 2 ^ 32 ∧
    ∀ p < s.nbpools, Regions.Apart (s.piece p) (buf, numbufs.toNat * (roundbuf bufsiz + 4))

/-- A pool that has just been made: all its buffers are free. -/
theorem PoolOk.made {e : BpEntry} {m : ℕ} (htab : s'.buftab p = e)
    (hmem : s'.mem = linkLoop e.stride m e.bpnext s.mem) (hbase : s'.base p = e.bpnext)
    (hcount : s'.count p = m + 1) (hloans : ∀ b ∈ s'.loans, b.poolid ≠ p)
    (hpos : 0 < e.bpnext) (hfit : e.bpnext + (m + 1) * e.stride ≤ 2 ^ 32)
    (hsem : e.bpsem = .create (m + 1 : ℕ)) : PoolOk s' p (List.range' e.bpnext (m + 1) e.stride) 0 := by
  have hfour : 4 ≤ e.stride := Nat.le_add_left ..
  have hnobody : s'.lent p = [] := by
    unfold BufPools.lent
    rw [List.filter_eq_nil_iff.mpr, List.map_nil]
    intro b hb
    rw [decide_eq_true_eq]
    exact hloans b hb
  constructor
  · rw [htab, hmem, ptr_of_pos hpos]
    exact linkLoop_path hfour m e.bpnext s.mem hpos hfit
  · rw [hnobody, List.append_nil, BufPools.blocks, hbase, hcount, htab]
  · exact fun b hb hbp => absurd hbp (hloans b hb)
  · rw [htab, hsem]
    exact .create (Int.natCast_nonneg _)
  · rw [htab, hsem, Semaphore.unused_create, List.length_range']
    simp
  · rw [hbase]
    exact hpos
  · rw [hbase, hcount, htab]
    exact hfit

/-- The entry behind the pools is none of theirs. -/
theorem PoolsOk.setSpare (h : PoolsOk s q none) (e : BpEntry) :
    PoolsOk { s with buftab := Function.update s.buftab s.nbpools e } q none := by
  have htab : ∀ p < s.nbpools, Function.update s.buftab s.nbpools e p = s.buftab p :=
    fun p hp => Function.update_of_ne hp.ne _ _
  refine ⟨h.few, fun p hp => (h.pool p hp).congr (htab p hp) rfl rfl
    (.refl _) (fun _ hb _ => hb) fun _ _ => rfl, ?_, h.loans, h.fault⟩
  intro i hi j hj hij
  unfold BufPools.piece
  dsimp only
  rw [htab i hi, htab j hj]
  exact h.apart i hi j hj hij

/-- A pool behind the others, with all its buffers on its list. -/
def BufPools.addPool (s : BufPools) (buf bufsiz n : ℕ) : BufPools :=
  { s with
    buftab := Function.update s.buftab s.nbpools ⟨buf, .create (n + 1 : ℕ), bufsiz⟩
    nbpools := s.nbpools + 1
    mem := linkLoop (bufsiz + 4) n buf s.mem
    base := Function.update s.base s.nbpools buf
    count := Function.update s.count s.nbpools (n + 1) }

section

variable {buf bufsiz n : ℕ}

/-- The memory of the other pools stays theirs. -/
theorem BufPools.addPool_piece (hp : p < s.nbpools) : (s.addPool buf bufsiz n).piece p = s.piece p := by
  unfold BufPools.piece BufPools.addPool
  dsimp only
  rw [Function.update_of_ne hp.ne, Function.update_of_ne hp.ne, Function.update_of_ne hp.ne]

/-- The memory of the new pool. -/
theorem BufPools.addPool_piece_self :
    (s.addPool buf bufsiz n).piece s.nbpools = (buf, (n + 1) * (bufsiz + 4)) := by
  unfold BufPools.piece BufPools.addPool
  dsimp only
  rw [Function.update_self, Function.update_self, Function.update_self]
  rfl

/-- A pool in memory of its own keeps the invariant. -/
theorem PoolsOk.addPool (h : PoolsOk s q none) (hfew : s.nbpools < NBPOOLS) (hpos : 0 < buf)
    (hfit : buf + (n + 1) * (bufsiz + 4) ≤ 2 ^ 32)
    (hapart : ∀ p < s.nbpools, Regions.Apart (s.piece p) (buf, (n + 1) * (bufsiz + 4))) :
    PoolsOk (s.addPool buf bufsiz n)
      (Function.update q s.nbpools (List.range' buf (n + 1) (bufsiz + 4))) none := by
  refine ⟨hfew, fun p hp => ?_, fun i hi j hj hij => ?_,
    fun b hb => Nat.lt_succ_of_lt (h.loans b hb), h.fault⟩
  · rw [if_neg (by rintro ⟨⟩)]
    rcases Nat.lt_succ_iff_lt_or_eq.mp hp with hlt | rfl
    · rw [Function.update_of_ne hlt.ne]
      have hpool := h.pool p hlt
      rw [if_neg (by rintro ⟨⟩)] at hpool
      refine hpool.congr (Function.update_of_ne hlt.ne _ _)
        (Function.update_of_ne hlt.ne _ _)
        (Function.update_of_ne hlt.ne _ _) (.refl _) (fun _ hb _ => hb) fun x hx => ?_
      -- The links are written to other memory.
      have hbounds := mem_bounds hx
      have hpieces := hapart p hlt
      have hlong : (s.buftab p).stride = (s.buftab p).bpsize + 4 := rfl
      unfold Regions.Apart BufPools.piece at hpieces
      dsimp only at hpieces
      exact linkLoop_of_apart (Nat.le_add_left ..) n buf s.mem (by omega)
    · rw [Function.update_self]
      exact .made (s := s) (e := ⟨buf, .create (n + 1 : ℕ), bufsiz⟩) (Function.update_self ..) rfl
        (Function.update_self ..) (Function.update_self ..)
        (fun b hb => (h.loans b hb).ne) hpos hfit rfl
  -- Two old pools are apart, and the new one is apart from each of them.
  · rcases Nat.lt_succ_iff_lt_or_eq.mp hi with hi | rfl
    · rcases Nat.lt_succ_iff_lt_or_eq.mp hj with hj | rfl
      · rw [BufPools.addPool_piece hi, BufPools.addPool_piece hj]
        exact h.apart i hi j hj hij
      · rw [BufPools.addPool_piece hi, BufPools.addPool_piece_self]
        exact hapart i hi
    · rcases Nat.lt_succ_iff_lt_or_eq.mp hj with hj | rfl
      · rw [BufPools.addPool_piece hj, BufPools.addPool_piece_self]
        exact (hapart j hj).symm
      · exact absurd rfl hij

end

/-- `mkbufpool` keeps the invariant. -/
theorem PoolsOk.mkbufpool {bufsiz numbufs : ℤ} {buf : Option ℕ} {sem : Bool} (h : PoolsOk s q none)
    (hfresh : ∀ b, buf = some b → s.Accepts bufsiz numbufs → s.Fresh bufsiz numbufs b) :
    ∃ q, PoolsOk (s.mkbufpool bufsiz numbufs buf sem).2 q none := by
  by_cases hacc : s.Accepts bufsiz numbufs
  · cases buf with
    | none =>
      refine ⟨q, ?_⟩
      rw [BufPools.mkbufpool, if_neg (not_not.mpr hacc)]
      exact h
    | some buf =>
      obtain ⟨hpos, hfit, hapart⟩ := hfresh buf rfl hacc
      obtain ⟨hfew, hnum⟩ : s.nbpools < NBPOOLS ∧ 1 ≤ numbufs := by
        unfold BufPools.Accepts at hacc
        push Not at hacc
        exact ⟨hacc.2.2.2.2, hacc.2.2.1⟩
      obtain ⟨n, hn⟩ : ∃ n, numbufs.toNat = n + 1 := ⟨numbufs.toNat - 1, by omega⟩
      rw [BufPools.mkbufpool, if_neg (not_not.mpr hacc)]
      cases sem with
      -- Without a semaphore, the entry that is written is none of a pool.
      | false => exact ⟨q, h.setSpare _⟩
      | true =>
        rw [hn] at hfit hapart
        obtain rfl : numbufs = (n + 1 : ℕ) := by omega
        exact ⟨_, h.addPool hfew hpos hfit hapart⟩
  · refine ⟨q, ?_⟩
    rw [BufPools.mkbufpool, if_pos hacc]
    exact h

/-! ## Runs -/

/-- What other code is asked for: `getmem` returns fresh memory, and nobody writes in front of a buffer. -/
def BpFair (s : BufPools) : BpEvent → Prop
  | .mkbufpool bufsiz numbufs getmem _ =>
    ∀ buf, getmem = some buf → s.Accepts bufsiz numbufs → s.Fresh bufsiz numbufs buf
  | .write a _ => ∀ p < s.nbpools, ∀ x ∈ s.blocks p, a < x ∨ x + 4 ≤ a
  | _ => True

/-- A step keeps the invariant. -/
theorem PoolsOk.exec {ev : BpEvent} (h : PoolsOk s q none) (hC : BpFair s ev) (he : s.exec ev = some s') :
    ∃ q, PoolsOk s' q none := by
  cases ev with
  | mkbufpool bufsiz numbufs getmem semcreate =>
    obtain rfl := Option.some.inj he
    exact h.mkbufpool hC
  | getbuf pid poolid =>
    obtain rfl := Option.some.inj he
    exact h.getbuf
  | woken p k =>
    obtain ⟨hp, he⟩ := Option.ite_none_right_eq_some.mp he
    exact h.resume hp he
  | freebuf k =>
    obtain ⟨b, hk, rfl⟩ := Option.map_eq_some_iff.mp he
    exact h.freebuf hk
  | write a x =>
    obtain rfl := Option.some.inj he
    exact ⟨q, h.setMem fun p hp y hy => le32_update_of_apart (hC p hp y hy)⟩

/-- A run of such steps keeps the invariant. -/
theorem BpRun.poolsOk {mem : ℕ → UInt8} (hr : BpRun BpFair (.bufinit mem) s) : ∃ q, PoolsOk s q none := by
  induction hr with
  | start =>
    exact ⟨fun _ => [], Nat.zero_le _, fun p hp => absurd hp (Nat.not_lt_zero p),
      fun p hp => absurd hp (Nat.not_lt_zero p),
      fun _ hb => absurd hb List.not_mem_nil, rfl⟩
  | step _ hC he ih =>
    obtain ⟨q, h⟩ := ih
    exact h.exec hC he

/-- What the users of the pools can rely on. -/
structure BuffersLaw (s : BufPools) (q : ℕ → List ℕ) : Prop where
  /-- The links lead through the free buffers. -/
  path : ∀ p < s.nbpools, LinkPath (link s.mem) (ptr (s.buftab p).bpnext) (q p) none
  /-- Each buffer of a pool is free or lent, and not twice. -/
  all : ∀ p < s.nbpools, (q p ++ s.lent p).Perm (s.blocks p)
  /-- The free buffers are those that the semaphore shows, and those that woken processes will take. -/
  number : ∀ p < s.nbpools, ((q p).length : ℤ) = max 0
    (s.buftab p).bpsem.count + (s.buftab p).bpsem.woken.length
  /-- The bytes that two processes may use are apart. -/
  exclusive : s.loans.Pairwise fun b c => Regions.Apart (b.bufaddr, (s.buftab b.poolid).bpsize)
    (c.bufaddr, (s.buftab c.poolid).bpsize)
  /-- They are in the memory of the pool, behind the first word of the buffer. -/
  inside : ∀ b ∈ s.loans, b.poolid < s.nbpools ∧ s.base b.poolid + 4 ≤ b.bufaddr ∧
    b.bufaddr + (s.buftab b.poolid).bpsize ≤ s.base b.poolid + s.count b.poolid * (s.buftab b.poolid).stride
  /-- Who writes to them writes in front of no buffer. -/
  safe : ∀ b ∈ s.loans, ∀ a, b.bufaddr ≤ a → a < b.bufaddr + (s.buftab b.poolid).bpsize →
    ∀ x, BpFair s (.write a x)
  /-- A buffer that is lent bears the ID of its pool, to which `freebuf` gives it back. -/
  home : ∀ b ∈ s.loans, le32 s.mem (b.bufaddr - 4) = b.poolid
  /-- No `getbuf` that goes on finds an empty free list. -/
  fault : s.fault = false

/-- Where the values of each key are different, so are those of two members that have the same key. -/
theorem List.pairwise_of_nodup_filter {α : Type*} (key : α → ℕ) (f : α → ℕ) {m : List α}
    (h : ∀ k, ((m.filter (key · = k)).map f).Nodup) : m.Pairwise fun a b => key a = key b → f a ≠ f b := by
  induction m with
  | nil => exact .nil
  | cons a m ih =>
    refine List.pairwise_cons.mpr ⟨fun b hb hab heq => ?_, ih fun k => ?_⟩
    · have hnodup := h (key a)
      rw [List.filter_cons, if_pos (decide_eq_true rfl), List.map_cons, List.nodup_cons] at hnodup
      exact hnodup.1 (List.mem_map.mpr ⟨b, List.mem_filter.mpr ⟨hb, decide_eq_true hab.symm⟩, heq.symm⟩)
    · exact (h k).sublist (((List.sublist_cons_self a m).filter _).map f)

/-- The law of the buffers follows from the invariant between two calls. -/
theorem PoolsOk.law (h : PoolsOk s q none) : BuffersLaw s q := by
  have hpool : ∀ p < s.nbpools, PoolOk s p (q p) 0 := by
    intro p hp
    have := h.pool p hp
    rw [if_neg (by rintro ⟨⟩)] at this
    exact this
  -- The word in front of a buffer, and the bytes behind it.
  have hblock : ∀ b ∈ s.loans, b.bufaddr - 4 ∈ s.blocks b.poolid ∧ 4 ≤ b.bufaddr := fun b hb =>
    ⟨(hpool _ (h.loans b hb)).mem_lent hb rfl, ((hpool _ (h.loans b hb)).marked b hb rfl).1⟩
  have hstride : ∀ p, (s.buftab p).stride = (s.buftab p).bpsize + 4 := fun _ => rfl
  have happart : ∀ p < s.nbpools, ∀ p' < s.nbpools, ∀ x ∈ s.blocks p, ∀ y ∈ s.blocks p', (p = p' → x ≠ y) →
      x + (s.buftab p).stride ≤ y ∨ y + (s.buftab p').stride ≤ x := by
    intro p hp p' hp' x hx y hy hne
    by_cases hpp : p = p'
    · subst hpp
      exact Blocks.apart hx hy (hne rfl)
    · exact apart_of_pieces (h.apart p hp p' hp' hpp) hx hy
  refine ⟨fun p hp => (hpool p hp).path, fun p hp => (hpool p hp).all,
    fun p hp => ?_, ?_, fun b hb => ?_, fun b hb a hlo hhi x p hp y hy => ?_,
    fun b hb => ((hpool _ (h.loans b hb)).marked b hb rfl).2, h.fault⟩
  · have hpermits := (hpool p hp).permits
    rw [(hpool p hp).sem.unused_eq] at hpermits
    push_cast at hpermits
    omega
  · have hpairwise :=
      List.pairwise_of_nodup_filter BufLoan.poolid (fun b => b.bufaddr - 4) (m := s.loans) fun k => ?_
    · refine (List.pairwise_iff_getElem.mpr fun i j hi hj hij => ?_)
      have hne := List.pairwise_iff_getElem.mp hpairwise i j hi hj hij
      obtain ⟨hb, hbfour⟩ := hblock _ (List.getElem_mem hi)
      obtain ⟨hc, hcfour⟩ := hblock _ (List.getElem_mem hj)
      have := happart _ (h.loans _ (List.getElem_mem hi)) _ (h.loans _ (List.getElem_mem hj)) _ hb _ hc hne
      rw [hstride, hstride] at this
      unfold Regions.Apart
      dsimp only
      omega
    · by_cases hk : k < s.nbpools
      · exact (List.nodup_append.mp (hpool k hk).nodup).2.1
      · rw [List.filter_eq_nil_iff.mpr, List.map_nil]
        · exact List.nodup_nil
        · intro b hb
          rw [decide_eq_true_eq]
          rintro rfl
          exact hk (h.loans b hb)
  · obtain ⟨hmem, hfour⟩ := hblock b hb
    have hbounds := mem_bounds hmem
    rw [hstride] at hbounds ⊢
    refine ⟨h.loans b hb, ?_, ?_⟩ <;> omega
  · obtain ⟨hmem, hfour⟩ := hblock b hb
    by_cases hsame : b.poolid = p ∧ b.bufaddr - 4 = y
    · omega
    · have hne : b.poolid = p → b.bufaddr - 4 ≠ y := fun hbp heq => hsame ⟨hbp, heq⟩
      have := happart _ (h.loans b hb) p hp _ hmem y hy hne
      rw [hstride, hstride] at this
      omega

/-- In every run in which `getmem` returns fresh memory and nobody writes in front of a buffer, each
buffer is free or lent to one process, which has its bytes for itself, and it goes back to its pool.
No process that goes on in `getbuf` finds the free list empty. -/
theorem pools_ok {mem : ℕ → UInt8} (hr : BpRun BpFair (.bufinit mem) s) : ∃ q, BuffersLaw s q := by
  obtain ⟨q, h⟩ := hr.poolsOk
  exact ⟨q, h.law⟩

/-- A list of steps, one after the other. -/
def BufPools.runs (s : BufPools) : List BpEvent → Option BufPools
  | [] => some s
  | e :: es => (s.exec e).bind fun s => s.runs es

/-- The step is one of `getbuf` or `freebuf`. -/
def BpEvent.isCall : BpEvent → Bool
  | .getbuf .. | .woken .. | .freebuf _ => true
  | _ => false

/-- A list of such steps makes a run. -/
theorem BpRun.of_runs {s₀ : BufPools} {es : List BpEvent}
    (hr : BpRun BpFair s₀ s) (hes : ∀ ev ∈ es, ev.isCall = true) (he : s.runs es = some s') :
    BpRun BpFair s₀ s' := by
  induction es generalizing s with
  | nil => exact Option.some.inj he ▸ hr
  | cons ev es ih =>
    obtain ⟨s₁, hs, he⟩ := Option.bind_eq_some_iff.mp he
    have hfair : BpFair s ev := by
      have hcall := hes ev List.mem_cons_self
      cases ev with
      | mkbufpool bufsiz numbufs getmem semcreate => cases hcall
      | write a x => cases hcall
      | _ => trivial
    exact ih (hr.step hfair hs) (fun ev hev => hes ev (List.mem_cons_of_mem _ hev)) he

/-- A pool of two buffers: a third process waits until the first one gives its buffer back, and gets it. -/
theorem pools_ok_two : ∃ s q, BuffersLaw s q ∧ s.loans = [⟨2, 0, 1016⟩, ⟨3, 0, 1004⟩] := by
  have hstart : BpRun BpFair (.bufinit fun _ => 0)
      ((BufPools.bufinit fun _ => 0).mkbufpool 8 2 (some 1000) true).2 := by
    refine .step .start (e := .mkbufpool 8 2 (some 1000) true) (fun buf hbuf _ => ?_) rfl
    obtain rfl := Option.some.inj hbuf
    exact ⟨by decide, by decide, fun p hp => absurd hp (Nat.not_lt_zero p)⟩
  have hrun : (((BufPools.bufinit fun _ => 0).mkbufpool 8 2 (some 1000) true).2.runs [.getbuf 1 0,
      .getbuf 2 0, .getbuf 3 0, .freebuf 0, .woken 0 0]).map
      (fun s => s.loans) = some [⟨2, 0, 1016⟩, ⟨3, 0, 1004⟩] := by decide +kernel
  obtain ⟨s, hs, he⟩ := Option.map_eq_some_iff.mp hrun
  obtain ⟨q, hq⟩ := pools_ok (hstart.of_runs (by decide) hs)
  exact ⟨s, q, hq, he⟩

end Xinu
