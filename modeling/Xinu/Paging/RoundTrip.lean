import Xinu.Paging.FaultSpec
import Xinu.Paging.VmallocSpec

/-!
# Blocks that can be given back

What `vmalloc` hands out, `vfree` takes back when it finds the entries of the block in a row and the
block lies below its bound (`Freeable`). In between, page faults make pages of the block present.
`OnLoan` is what holds of memory during that time: the valid pages are those from before and those
of the block, and the frames that are missing are those that the block maps.
-/

namespace Xinu

open FlatMemory Scan

/-- The page from which a request is served: the first window of the table at which the walk ends,
the free entries that end this table, or the first absent directory entry. -/
inductive ServedAt (m : Mem) (d n : ℕ) : ℕ → Prop
  | fit (i j : ℕ) (hn : n < 1024 ∨ n = 1024 ∧ i = 8) (hs : FirstStop m d n i) (hj : j + n ≤ 1024)
    (hw : Window (FreeEntry m d i) n j) (hfirst : ∀ e < j, ¬ Window (FreeEntry m d i) n e) :
    ServedAt m d n (i * 1024 + j)
  | spill (i : ℕ) (hn : n < 1024 ∨ n = 1024 ∧ i = 8) (hs : FirstStop m d n i) (hsp : Spills m d n i) :
    ServedAt m d n (i * 1024 + (1024 - freeTail m d i))
  | fresh (hplace : NoPlace m d n) (hroom : presentEntries m d + tablesFor n ≤ 1024)
    (hrun : ¬ NoFreeRun m (tablesFor n)) :
    ServedAt m d n (presentEntries m d * 1024)

/-- `vfree` finds its way through a block: its address is not a negative number, the tables of the
pages that have one lie one behind the other, and the last present table has an allocated page or
lies, as a frame, above the page. -/
structure Freeable (m : Mem) (d n p : ℕ) : Prop where
  /-- The address is not a negative number. -/
  low : p < 2 ^ 19
  /-- The tables of the pages that have one lie one behind the other. -/
  tables : ∀ k < n, p + k < presentEntries m d * 1024 →
    tableOf m d ((p + k) / 1024) = tableOf m d (p / 1024) + ((p + k) / 1024 - p / 1024)
  /-- If the block ends before the last present table, that has an allocated page or lies above the page. -/
  bound : p + n ≤ (presentEntries m d - 1) * 1024 →
    (∃ e < 1024, ¬ FreeEntry m d (presentEntries m d - 1) e) ∨ p < tableOf m d (presentEntries m d - 1)

/-- A safe call that returns an address has served the request where it should. -/
theorem SafeResult.servedAt {c c' : Cpu} {g : PageMap} {d n va : ℕ}
    (h : Layout c.mem g) (hd : g.role d = .dir)
    (hr : SafeResult c g d n (some va) c') : ∃ p, va = p * 4096 ∧ ServedAt c.mem d n p := by
  have hlen := h.presentEntries_eq hd
  cases hr with
  | stop i m' va hi hn hs hr =>
    cases hr with
    | fit j hj hw hfirst => exact ⟨_, rfl, .fit i j hn hs hj hw hfirst⟩
    | absent hsp ha => exact ⟨_, rfl, .spill i hn hs hsp⟩
    | present hsp hp => exact ⟨_, rfl, .spill i hn hs hsp⟩
  | fresh s frames m' hf hplace hn hs hlen' hfree hm =>
    refine ⟨g.len d * 1024, rfl, ?_⟩
    rw [← hlen]
    refine .fresh hplace (by rwa [hlen]) fun hno => hno s hs fun k hk => ?_
    have := h.free_avail (hfree k hk)
    rwa [add_assoc] at this

/-! ## Allocation -/

/-- Memory after the block of `n` pages from `p` has been allocated: no page is present that was
not, and `vfree` finds its way. -/
structure Lends (m m' : Mem) (d n p : ℕ) : Prop where
  /-- The block lies in the heap. -/
  heap : 8192 ≤ p
  /-- None of its pages was valid. -/
  new : ∀ k < n, ¬ PageValid m d (p + k)
  /-- They are valid now, and no other page in addition. -/
  valid : ∀ vp, PageValid m' d vp ↔ PageValid m d vp ∨ p ≤ vp ∧ vp < p + n
  /-- The same pages are present. -/
  present : ∀ vp, PagePresent m' d vp ↔ PagePresent m d vp
  /-- The frames stay as they are. -/
  ffs : ∀ k < 16384, m' (FFS_WORD + k) = m (FFS_WORD + k)
  /-- The bound of `vfree` is above the block. -/
  below : BelowBound m' d (p * 4096)
  /-- The entries of its pages lie one behind the other. -/
  row : ∀ k < n, pteWord m' d (p + k) = pteWord m' d p + k

section

variable {m m' : Mem} {g : PageMap} (h : Layout m g) {d n p : ℕ} (hd : g.role d = .dir)

include h hd

/-- Marked pages are on loan. -/
theorem Marks.lends (h1 : 1 ≤ n) (hm : Marks m m' d p n) (hnew : ∀ k < n, ¬ PageValid m d (p + k))
    (hf : Freeable m d n p) : Lends m m' d n p := by
  have hD := h.dir d hd
  have hlen := h.presentEntries_eq hd
  have h8 := (hm.heap 0 h1).1
  have hl' := hm.layout h hd
  have hlen' := hl'.presentEntries_eq hd
  have hpages : ∀ k < n, p + k < g.len d * 1024 := fun k hk => (h.hasPte_iff hd _).mp (hm.heap k hk).2
  -- Marking writes no entry of a directory, so the words of the pages stay where they were.
  have hword : ∀ vp, HasPte m d vp → pteWord m' d vp = pteWord m d vp := by
    rintro vp ⟨hvp, -⟩
    rw [pteWord, hm.pteWord_eq h hd hvp, pteWord]
  -- The tables are adjacent, so the words of the block are.
  have hrow : ∀ k < n, pteWord m d (p + k) = pteWord m d p + k := by
    intro k hk
    have ht := hf.tables k hk (by rw [hlen]; exact hpages k hk)
    change tableOf m d ((p + k) / 1024) * 1024 + (p + k) % 1024 = tableOf m d (p / 1024) * 1024 + p % 1024 + k
    omega
  refine ⟨h8, hnew, hm.valid_iff h hd, fun vp => ?_, fun k hk => ?_, ?_, fun k hk => ?_⟩
  · -- Marking changes no present bit.
    unfold PagePresent
    rw [hm.hasPte_iff h hd]
    refine and_congr_right fun hp => ?_
    rw [hword vp hp]
    by_cases hr : RangeWord m d p n (pteWord m d vp)
    · obtain ⟨j, hj, he⟩ := hr
      rw [he, hm.marked j hj]
    · rw [hm.other _ hr]
  -- The words of the frames are not marked.
  · exact hm.other _ fun hr => h.not_ffs_of_heap (hm.heap_word h hd hr) (Layout.isFfs_add hk)
  · -- The last present table is the same, and it has an allocated page or lies above.
    have hle := hD.len_le
    have hge := hD.len_ge
    have hlow := hf.low
    have htop := hpages 0 h1
    unfold BelowBound
    dsimp only
    rw [hlen', hm.pteWord_eq h hd (i := g.len d - 1) (by omega)]
    change (∃ e < 1024, (m' (tableOf m d (g.len d - 1) * 1024 + e)).avail = 3#3 ∧ _) ∨ _
    by_cases hany : ∃ e < 1024, (m' (tableOf m d (g.len d - 1) * 1024 + e)).avail = 3#3
    · obtain ⟨e, he, ha⟩ := hany
      exact .inl ⟨e, he, ha, by omega⟩
    · refine .inr ⟨fun e he ha => hany ⟨e, he, ha⟩, ?_⟩
      have hlt : p < tableOf m d (g.len d - 1) := by
        rcases Nat.lt_or_ge ((g.len d - 1) * 1024) (p + n) with hover | hin
        · -- The block reaches the last table.
          exfalso
          have hlast := hm.marked (n - 1) (by omega)
          have hpg := hpages (n - 1) (by omega)
          refine hany ⟨(p + (n - 1)) % 1024, Nat.mod_lt _ (by decide), ?_⟩
          rw [show tableOf m d (g.len d - 1) * 1024 + (p + (n - 1)) % 1024 = pteWord m d (p + (n - 1)) by
            rw [pteWord, show (p + (n - 1)) / 1024 = g.len d - 1 by omega, tableOf], hlast]
        · have hb := hf.bound (by rwa [hlen])
          rw [hlen] at hb
          refine hb.resolve_left ?_
          rintro ⟨e, he, hfree⟩
          refine hany ⟨e, he, ?_⟩
          have ha : (m (tableOf m d (g.len d - 1) * 1024 + e)).avail = 3#3 := not_not.mp hfree
          by_cases hr : RangeWord m d p n (tableOf m d (g.len d - 1) * 1024 + e)
          · obtain ⟨j, hj, he'⟩ := hr
            rw [he', hm.marked j hj]
          · rw [hm.other _ hr, ha]
      change p * 4096 < tableOf m d (g.len d - 1) * 4096
      omega
  -- Adjacent tables: the words of the block stand in a row.
  · rw [hword _ (hm.heap k hk).2, hword _ (by simpa using (hm.heap 0 h1).2), hrow k hk]

/-- The pages of fresh tables are on loan to the caller. -/
theorem FreshTables.lends {s frames need : ℕ} (hneed : 1 ≤ need) (hf : frames ≤ 1024) (hs : s + need ≤ 1024)
    (hlen : g.len d + need ≤ 1024) (hfree : ∀ k < need, g.role (PT_FRAME + s + k) = .free)
    (hm : FreshTables m m' d (g.len d) (PT_FRAME + s) need frames) (hn : n = freshPages need frames)
    (hlow : g.len d * 1024 < 2 ^ 19) : Lends m m' d n (g.len d * 1024) := by
  have h8 := (h.dir d hd).len_ge
  -- The request takes `need` tables, and the last of them is not empty.
  have hbound : (need - 1) * 1024 < n ∧ n ≤ need * 1024 := by
    rw [hn, freshPages]
    split_ifs <;> omega
  -- In the new layout the directory has that many tables more.
  obtain ⟨g', hl', hdirs⟩ := hm.layout h hd hf hlen hfree
  have hd' := (hdirs d).mpr hd
  have hpte := hm.hasPte_iff h hd hlen hfree
  have hlen' : presentEntries m' d = g.len d + need := by
    rw [hl'.presentEntries_eq hd']
    have h₁ := (hl'.hasPte_iff hd' _).symm.trans (hpte ((g.len d + need) * 1024))
    have h₂ := (hl'.hasPte_iff hd' _).symm.trans (hpte (g'.len d * 1024))
    omega
  -- The pages are behind the kernel, and they were not valid before.
  refine ⟨by omega, fun k hk hv => ?_, ?_, fun vp => ?_, fun k hk => ?_, ?_, fun k hk => ?_⟩
  · have := (h.hasPte_iff hd _).mp hv.1
    omega
  · rw [hn]
    exact hm.valid_iff h hd hneed hf hs hlen hfree
  -- A page of an old table is as it was.
  · rcases Nat.lt_or_ge vp (g.len d * 1024) with hlt | hge
    · obtain ⟨hword, hval⟩ := hm.old h hd hlen hfree hlt
      unfold PagePresent
      rw [hword, hval, hpte, h.hasPte_iff hd]
      exact and_congr_left fun _ =>
        ⟨fun _ => hlt, fun _ => lt_of_lt_of_le hlt (Nat.mul_le_mul_right _ (Nat.le_add_right _ _))⟩
    · -- The pages of the new tables are not present.
      refine iff_of_false ?_ fun hp => absurd ((h.hasPte_iff hd vp).mp hp.1) (by omega)
      rintro ⟨hp, hpres⟩
      obtain ⟨k, rfl⟩ : ∃ k, vp = g.len d * 1024 + k := ⟨vp - g.len d * 1024, by omega⟩
      have hk : k < need * 1024 := by
        have := (hpte _).mp hp
        rw [add_mul] at this
        omega
      rw [hm.pteWord_eq hs hk, hm.pte _ (by omega) _ (Nat.mod_lt _ (by decide))] at hpres
      split_ifs at hpres <;> cases hpres
  · refine hm.heap_eq h hd hlen hfree (.inr ?_)
    have := ((isFfs_iff _).mp (Layout.isFfs_add hk)).2
    omega
  · -- The first page of the last new table is allocated.
    have hlast : (need - 1) * 1024 < need * 1024 := Nat.mul_lt_mul_of_pos_right (by omega) (by decide)
    have ha := (hm.alloc_iff hs hlen hneed hlast).mpr (by rw [← hn]; exact hbound.1)
    have hword : pteWord m' d (g.len d * 1024 + (need - 1) * 1024) =
        (m' (d * 1024 + (g.len d + need - 1))).base.toNat * 1024 + 0 := by
      rw [pteWord, show (g.len d * 1024 + (need - 1) * 1024) / 1024 = g.len d + need - 1 by omega,
        show (g.len d * 1024 + (need - 1) * 1024) % 1024 = 0 by omega]
    have hav := ha.2
    rw [hword] at hav
    unfold BelowBound
    dsimp only
    rw [hlen']
    have hmin : g.len d < min (g.len d + need) 1023 := by omega
    have hptr : g.len d * 1024 * 4096 < (min (g.len d + need) 1023 * 1024 + 0) * 4096 := by
      rw [add_zero]
      exact Nat.mul_lt_mul_of_pos_right (Nat.mul_lt_mul_of_pos_right hmin (Nat.succ_pos 1023))
        (Nat.succ_pos 4095)
    exact .inl ⟨0, by decide, hav, hptr⟩
  -- The words of the fresh tables stand in a row, since their pages do.
  · have h₀ := hm.pteWord_eq hs (k := 0) (by omega)
    rw [add_zero] at h₀
    rw [h₀, hm.pteWord_eq hs (by omega)]
    omega

end

/-- **What a clean call lends.** A clean call that returns an address has allocated a block, which
can be given back. -/
theorem SafeResult.lends {c c' : Cpu} {g : PageMap} {d n p : ℕ}
    (h : Layout c.mem g) (hd : g.role d = .dir) (h1 : 1 ≤ n)
    (hok : SoundOk c.mem d n) (hr : SafeResult c g d n (some (p * 4096)) c') (hf : Freeable c.mem d n p) :
    Lends c.mem c'.mem d n p := by
  generalize hva : some (p * 4096) = res at hr
  cases hr with
  | stop i m' va hi hn hs hr =>
    obtain ⟨-, hm, hnew⟩ := hr.marks h hd (by omega) hs.1 hi (hok i hs hn)
    injection hva with hva
    rw [← hva, Nat.mul_div_cancel _ (by decide)] at hm hnew
    exact hm.lends h hd h1 hnew hf
  | fresh s frames m' hf' hplace hn hs hlen hfree hm =>
    injection hva with hva
    obtain rfl : p = g.len d * 1024 := by omega
    exact hm.lends h hd (by unfold tablesFor; omega) hf'.le hs hlen hfree hn hf.low
  | noRun hplace hlen hroom hrun => cases hva
  | full hplace hlen => cases hva

/-! ## Page faults -/

/-- Memory while the block of `n` pages from `p` is on loan: the valid pages are those from before
and those of the block, the other pages are present when they were, and the frames from before are
those that are free and those that the block maps. -/
structure OnLoan (m m' : Mem) (d n p : ℕ) : Prop where
  /-- The block lies in the heap. -/
  heap : 8192 ≤ p
  /-- None of its pages was valid. -/
  new : ∀ k < n, ¬ PageValid m d (p + k)
  /-- None of them was present. -/
  absent : ∀ k < n, ¬ PagePresent m d (p + k)
  /-- They are valid now, and no other page in addition. -/
  valid : ∀ vp, PageValid m' d vp ↔ PageValid m d vp ∨ p ≤ vp ∧ vp < p + n
  /-- The other pages are present when they were. -/
  present : ∀ vp, (vp < p ∨ p + n ≤ vp) → (PagePresent m' d vp ↔ PagePresent m d vp)
  /-- The frames that were free are free, or mapped by the block. -/
  frames : ∀ k < 16384, FrameFree m k ↔ FrameFree m' k ∨ RangeFrame m' d p n k
  /-- The bound of `vfree` is above the block. -/
  below : BelowBound m' d (p * 4096)
  /-- The entries of its pages lie one behind the other. -/
  row : ∀ k < n, pteWord m' d (p + k) = pteWord m' d p + k

/-- The loan begins with the allocation. -/
theorem Lends.onLoan {m m' : Mem} {g : PageMap} {d n p : ℕ} (h : Layout m g) (hd : g.role d = .dir)
    (hl : Lends m m' d n p) : OnLoan m m' d n p := by
  have h8 := hl.heap
  have habs : ∀ k < n, ¬ PagePresent m d (p + k) := fun k hk hp =>
    hl.new k hk ((h.valid_iff hd _).mpr (h.alloc_of_present hd (by omega) hp))
  refine ⟨h8, hl.new, habs, hl.valid, fun vp _ => hl.present vp, fun k hk => ?_, hl.below, hl.row⟩
  -- No page of the block is present yet.
  have hno : ¬ RangeFrame m' d p n k := fun ⟨j, hj, hp, _⟩ => habs j hj ((hl.present _).mp hp)
  unfold FrameFree
  rw [hl.ffs k hk]
  exact (or_iff_left hno).symm

section

variable {m : Mem} {g : PageMap} (h : Layout m g) {d : ℕ} (hd : g.role d = .dir)

include h hd

/-- The entry of a page is not an entry of the FFS frames. -/
theorem pteWord_not_ffs {vp : ℕ} (hp : HasPte m d vp) : ¬ IsFfs (pteWord m d vp) := by
  rcases Nat.lt_or_ge vp 8192 with hx | hx
  · rw [h.pteWord_xinu hd hx, isFfs_iff]
    omega
  · exact h.not_ffs_of_heap (h.heap_pteWord hd hx ((h.hasPte_iff hd vp).mp hp))

/-- The entry of a heap page is that of no other page. -/
theorem pteWord_ne {vp vp' : ℕ} (hp : HasPte m d vp) (hp' : HasPte m d vp')
    (h8 : 8192 ≤ vp) (hne : vp' ≠ vp) :
    pteWord m d vp' ≠ pteWord m d vp := by
  intro he
  have hlt := (h.hasPte_iff hd vp).mp hp
  rcases Nat.lt_or_ge vp' 8192 with hx | hx
  · have hb := h.heap_bounds (h.heap_pteWord hd h8 hlt)
    rw [← he, h.pteWord_xinu hd hx] at hb
    omega
  · exact hne (h.pteWord_inj hd hx ((h.hasPte_iff hd vp').mp hp') hd h8 hlt he).2

/-- The bound of `vfree` depends on the directory and on what is allocated. -/
theorem BelowBound.congr {m' : Mem} {ptr : ℕ} (hdir : ∀ i < 1024, m' (d * 1024 + i) = m (d * 1024 + i))
    (hav : ∀ w, ¬ IsFfs w → ((m' w).avail = 3#3 ↔ (m w).avail = 3#3)) (hb : BelowBound m d ptr) :
    BelowBound m' d ptr := by
  have hD := h.dir d hd
  have hge := hD.len_ge
  have hle := hD.len_le
  have hlen := h.presentEntries_eq hd
  have hlen' : presentEntries m' d = presentEntries m d := by
    unfold presentEntries
    rw [Nat.count_eq_card_filter_range, Nat.count_eq_card_filter_range]
    refine congrArg Finset.card (Finset.filter_congr fun i hi => ?_)
    rw [hdir i (Finset.mem_range.mp hi)]
  have hlast : ∀ e < 1024, ¬ IsFfs ((m (d * 1024 + (g.len d - 1))).base.toNat * 1024 + e) := by
    intro e he
    have hw : (m (d * 1024 + (g.len d - 1))).base.toNat * 1024 + e = pteWord m d ((g.len d - 1) * 1024 + e) :=
      (pteWord_add he).symm
    rw [hw]
    refine pteWord_not_ffs h hd ((h.hasPte_iff hd _).mpr ?_)
    omega
  unfold BelowBound at hb ⊢
  dsimp only at hb ⊢
  rw [hlen', hlen, hdir _ (by omega)]
  rw [hlen] at hb
  rcases hb with ⟨e, he, ha, hlt⟩ | ⟨hno, hlt⟩
  · exact .inl ⟨e, he, (hav _ (hlast e he)).mpr ha, hlt⟩
  · exact .inr ⟨fun e he ha => hno e he ((hav _ (hlast e he)).mp ha), hlt⟩

end

/-- A page fault of the block leaves the block on loan. -/
theorem OnLoan.fault {m₀ m m' : Mem} {g : PageMap} {d n p vp : ℕ} (ho : OnLoan m₀ m d n p) (h : Layout m g)
    (h' : Layout m' g) (hd : g.role d = .dir) (hvp : p ≤ vp ∧ vp < p + n) (habs : ¬ PagePresent m d vp)
    (hf : FaultProgress m m' d vp) : OnLoan m₀ m' d n p := by
  obtain ⟨k₀, hm⟩ := hf
  have h8 := ho.heap
  have ha : PageAlloc m d vp := (h.valid_iff hd vp).mp ((ho.valid vp).mpr (.inr hvp))
  have hheap := h.heap_pteWord hd (by omega) ((h.hasPte_iff hd vp).mp ha.1)
  have hdir : ∀ i < 1024, m' (d * 1024 + i) = m (d * 1024 + i) := fun i hi =>
    hm.other _ (fun he => pde_not_heap hd hi (he ▸ hheap)) fun he =>
      h.pde_not_ffs hd (he ▸ Layout.isFfs_add hm.bound)
  have hpte : ∀ vp', HasPte m' d vp' ↔ HasPte m d vp' := by
    intro vp'
    unfold HasPte
    exact and_congr_right fun hlt => by rw [hdir _ hlt]
  have hword : ∀ vp', HasPte m d vp' → pteWord m' d vp' = pteWord m d vp' := by
    rintro vp' ⟨hlt, -⟩
    rw [pteWord, hdir _ hlt, pteWord]
  have hsame : ∀ vp', HasPte m d vp' → vp' ≠ vp → m' (pteWord m d vp') = m (pteWord m d vp') :=
    fun vp' hp hne =>
    hm.other _ (pteWord_ne h hd ha.1 hp (by omega) hne) fun he =>
      pteWord_not_ffs h hd hp (he ▸ Layout.isFfs_add hm.bound)
  -- The page that has become present is allocated before and after.
  have ha' : (m' (pteWord m d vp)).avail = 3#3 := by
    have := (h'.alloc_of_present hd (by omega) hm.present).2
    rwa [hword vp ha.1] at this
  have hav : ∀ w, ¬ IsFfs w → ((m' w).avail = 3#3 ↔ (m w).avail = 3#3) := by
    intro w hw
    by_cases he : w = pteWord m d vp
    · rw [he]
      exact iff_of_true ha' ha.2
    · rw [hm.other w he fun hk => hw (hk ▸ Layout.isFfs_add hm.bound)]
  have hpres : ∀ vp', vp' ≠ vp → (PagePresent m' d vp' ↔ PagePresent m d vp') := by
    intro vp' hne
    unfold PagePresent
    rw [hpte]
    exact and_congr_right fun hp => by rw [hword vp' hp, hsame vp' hp hne]
  refine ⟨h8, ho.new, ho.absent, fun vp' => (Iff.trans ?_ (ho.valid vp')),
    fun vp' hout => ?_, fun k hk => ?_, ?_, fun k hk => ?_⟩
  · rw [h'.valid_iff hd, h.valid_iff hd]
    unfold PageAlloc
    rw [hpte]
    exact and_congr_right fun hp => by rw [hword vp' hp, hav _ (pteWord_not_ffs h hd hp)]
  · exact (hpres vp' (by omega)).trans (ho.present vp' hout)
  · rw [ho.frames k hk]
    rcases eq_or_ne k k₀ with rfl | hne
    · refine iff_of_true (.inl hm.free) (.inr ⟨vp - p, by omega, ?_, ?_⟩) <;> rw [Nat.add_sub_cancel' hvp.1]
      · exact hm.present
      · rw [hword vp ha.1]
        exact hm.base
    · -- Another frame is free and mapped as before.
      have hfree : FrameFree m' k ↔ FrameFree m k := by
        unfold FrameFree
        rw [hm.other (FFS_WORD + k) (fun he => h.not_ffs_of_heap hheap (he ▸ Layout.isFfs_add hk)) (by omega)]
      refine or_congr hfree.symm ?_
      unfold RangeFrame
      refine exists_congr fun j => and_congr_right fun hj => ?_
      rcases eq_or_ne (p + j) vp with he | hj'
      · rw [he, hword vp ha.1, hm.base]
        exact iff_of_false (fun hc => habs hc.1) fun hc => hne (by omega)
      · rw [hpres _ hj']
        refine and_congr_right fun hp => ?_
        rw [hword _ hp.1, hsame _ hp.1 hj']
  · exact BelowBound.congr h hd hdir hav ho.below
  · have hin : HasPte m d (p + k) := ((ho.valid _).mpr (.inr ⟨by omega, by omega⟩)).1
    have hfirst : HasPte m d p := ((ho.valid _).mpr (.inr ⟨le_refl p, by omega⟩)).1
    rw [hword _ hin, hword _ hfirst]
    exact ho.row k hk

/-! ## Release -/

/-- The pages of a process and the frames are as they were. -/
structure Restored (m m' : Mem) (d : ℕ) : Prop where
  /-- The same pages are valid. -/
  valid : ∀ vp, PageValid m' d vp ↔ PageValid m d vp
  /-- The same pages are present. -/
  present : ∀ vp, PagePresent m' d vp ↔ PagePresent m d vp
  /-- The same frames are free. -/
  frames : ∀ k < 16384, FrameFree m' k ↔ FrameFree m k

/-- The number of bytes matters to `vfree` only as a number of pages. -/
theorem vfree_pages (c : Cpu) (a ptr nbytes : ℕ) :
    vfree c a ptr nbytes = vfree c a ptr (nbytes / 4096 * 4096) := by
  unfold vfree
  simp only [PAGE_SIZE]
  rw [Nat.mul_div_cancel _ (by decide)]

/-- The walk of `vfree` over the block. -/
theorem OnLoan.vfreeOk {m₀ m : Mem} {d n p : ℕ} (ho : OnLoan m₀ m d n p) (hlow : p < 2 ^ 19) :
    HeapRange m d p n ∧ VfreeOk m d p n := by
  have h8 := ho.heap
  have hV : HeapRange m d p n := fun k hk => ⟨by omega, (ho.valid _).mpr (.inr ⟨by omega, by omega⟩)⟩
  refine ⟨hV, fun _ => ⟨ho.below, fun w => ?_⟩, fun hc => absurd hV hc⟩
  have hstart : walkStart m d (p * 4096) = (pteWord m d p : ℕ) := by
    unfold walkStart pteWord
    rw [if_pos (by omega), show p * 4096 / 4194304 = p / 1024 by omega,
      show p * 4096 / 4096 % 1024 = p % 1024 by omega]
    push_cast
    rfl
  have hwalk : walkLen (p * 4096) n = n := by
    unfold walkLen
    exact if_neg fun hc => absurd hc.1 (by omega)
  unfold Walked
  rw [hstart, hwalk, Int.toNat_natCast]
  constructor
  · intro hw
    refine ⟨w - pteWord m d p, by omega, ?_⟩
    rw [ho.row _ (by omega)]
    omega
  · rintro ⟨k, hk, rfl⟩
    rw [ho.row k hk]
    omega

/-- **The block is given back.** `vfree` of a block on loan returns `OK`, and the pages and frames
are as they were before. -/
theorem OnLoan.release {m₀ : Mem} {c : Cpu} {g : PageMap} {d n p nbytes : ℕ} (ho : OnLoan m₀ c.mem d n p)
    (h : Layout c.mem g) (hd : g.role d = .dir) (h1 : 1 ≤ n) (hlow : p < 2 ^ 19) (hn : nbytes / 4096 = n)
    (h32 : nbytes < 2 ^ 32) :
    ∃ c', vfree c (d * 4096) (p * 4096) nbytes = .ok (.ok, c') ∧ Restored m₀ c'.mem d := by
  obtain ⟨hV, hok⟩ := ho.vfreeOk hlow
  obtain ⟨st, c', he, hst, heff, -⟩ := (vfree_correct_iff h hd (by omega) (by omega) h1).mpr hok
  obtain rfl := hst.mpr hV
  obtain ⟨hrel, hfreed, hother⟩ := heff rfl
  have h8 := ho.heap
  refine ⟨c', by rw [vfree_pages, hn]; exact he, ?_⟩
  have hheap : ∀ j < n, g.Heap (pteWord c.mem d (p + j)) := fun j hj =>
    h.heap_of_own hd (own_of_range hV ⟨j, hj, rfl⟩)
  have hdir : ∀ i < 1024, c'.mem (d * 1024 + i) = c.mem (d * 1024 + i) := fun i hi =>
    hother _ (fun hx => hx.elim fun j hj => pde_not_heap hd hi (hj.2 ▸ hheap j hj.1)) fun k hk _ hw =>
      h.pde_not_ffs hd (hw ▸ Layout.isFfs_add hk)
  -- Outside the block a page keeps its entry, and the entry its value.
  have hout : ∀ vp, (vp < p ∨ p + n ≤ vp) → HasPte c.mem d vp →
      pteWord c'.mem d vp = pteWord c.mem d vp ∧ c'.mem (pteWord c.mem d vp) = c.mem
        (pteWord c.mem d vp) := by
    intro vp hvp hp
    refine ⟨by rw [pteWord, hdir _ hp.1, pteWord], hother _ ?_ fun k hk _ hw => ?_⟩
    · rintro ⟨j, hj, hw⟩
      exact pteWord_ne h hd (hV j hj).2.1 hp (by omega) (by omega) hw
    · exact pteWord_not_ffs h hd hp (hw ▸ Layout.isFfs_add hk)
  have hpte : ∀ vp, HasPte c'.mem d vp ↔ HasPte c.mem d vp := fun vp =>
    and_congr_right fun hlt => by rw [hdir _ hlt]
  refine ⟨fun vp => ?_, fun vp => ?_, fun k hk => ?_⟩
  · by_cases hvp : p ≤ vp ∧ vp < p + n
    · obtain ⟨k, rfl⟩ : ∃ k, vp = p + k := ⟨vp - p, by omega⟩
      exact iff_of_false (hrel k (by omega)).1 (ho.new k (by omega))
    · refine Iff.trans ?_ ((ho.valid vp).trans (or_iff_left hvp))
      unfold PageValid
      rw [hpte]
      refine and_congr_right fun hp => ?_
      rw [(hout vp (by omega) hp).1, (hout vp (by omega) hp).2]
  · by_cases hvp : p ≤ vp ∧ vp < p + n
    · obtain ⟨k, rfl⟩ : ∃ k, vp = p + k := ⟨vp - p, by omega⟩
      exact iff_of_false (hrel k (by omega)).2 (ho.absent k (by omega))
    · refine Iff.trans ?_ (ho.present vp (by omega))
      unfold PagePresent
      rw [hpte]
      refine and_congr_right fun hp => ?_
      rw [(hout vp (by omega) hp).1, (hout vp (by omega) hp).2]
  · rw [ho.frames k hk]
    by_cases hr : RangeFrame c.mem d p n k
    · refine iff_of_true ?_ (.inr hr)
      unfold FrameFree
      rw [hfreed k hk hr]
      exact Entry.valid_of_avail_two rfl
    · rw [or_iff_left hr]
      unfold FrameFree
      rw [hother _ (fun hx => hx.elim fun j hj =>
        h.not_ffs_of_heap (hheap j hj.1) (hj.2 ▸ Layout.isFfs_add hk))
        fun k' _ hr' hw => hr (by rwa [show k = k' by omega])]

end Xinu
