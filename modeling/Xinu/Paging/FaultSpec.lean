import Xinu.Paging.VfreeSpec

/-!
# What the page-fault handler does

The processor faults on a page that is not present. For a valid page the handler maps the first free FFS
frame, and `FaultProgress` says that it has done so; when no frame is free it changes nothing and returns
all the same. For any other page it goes on to kill the process.
-/

namespace Xinu

open FlatMemory

/-- FFS frame `k` is free. -/
def FrameFree (m : Mem) (k : ℕ) : Prop := (m (FFS_WORD + k)).valid = false

/-- Page `vp` is present now, in frame `k`, which was free and is used; nothing else has changed. -/
structure MapsFree (m m' : Mem) (d vp k : ℕ) : Prop where
  /-- The frame is one of the FFS area. -/
  bound : k < 16384
  /-- It was free. -/
  free : FrameFree m k
  /-- It is used now. -/
  used : ¬ FrameFree m' k
  /-- The page is present. -/
  present : PagePresent m' d vp
  /-- Its entry has the address of the frame. -/
  base : (m' (pteWord m d vp)).base.toNat = 8192 + k
  /-- Only that entry and the one of the frame have changed. -/
  other : ∀ w, w ≠ pteWord m d vp → w ≠ FFS_WORD + k → m' w = m w

/-- The handler has mapped a frame that was free. -/
def FaultProgress (m m' : Mem) (d vp : ℕ) : Prop := ∃ k, MapsFree m m' d vp k

/-- The search of the handler finds a free frame if there is one. -/
theorem firstFreeFrame_spec (m : Mem) :
    (∃ k < 16384, firstFreeFrame m = some k ∧ FrameFree m k) ∨
      (firstFreeFrame m = none ∧ ∀ k < 16384, ¬ FrameFree m k) := by
  cases hf : firstFreeFrame m with
  | some k =>
    unfold firstFreeFrame at hf
    rw [List.find?_range_eq_some] at hf
    refine .inl ⟨k, List.mem_range.mp hf.2.1, rfl, ?_⟩
    simpa [FrameFree] using hf.1
  | none =>
    unfold firstFreeFrame at hf
    rw [List.find?_range_eq_none] at hf
    refine .inr ⟨rfl, fun k hk hfree => ?_⟩
    have := hf k hk
    unfold FrameFree at hfree
    simp [hfree] at this

/-- The flags of CR3 survive a switch of directories. -/
theorem cr3At_writeCr3 (c : Cpu) (a b : ℕ) : (c.writeCr3 (c.cr3At a)).cr3At b = c.cr3At b := by
  unfold Cpu.cr3At Cpu.writeCr3
  simp only [PAGE_SIZE]
  omega

section

variable {m : Mem} {g : PageMap} (h : Layout m g)

include h

/-- A frame is free exactly when its entry is not used. -/
theorem frameFree_iff {k : ℕ} (hk : k < 16384) : FrameFree m k ↔ (m (FFS_WORD + k)).avail ≠ 3#3 := by
  unfold FrameFree
  rcases (h.ffs k hk).avail with ha | ha <;> simp [ha]

/-- A directory entry is valid exactly when it is present. -/
theorem pde_valid_iff {d i : ℕ} (hd : g.role d = .dir) (hi : i < 1024) :
    (m (d * 1024 + i)).valid = true ↔ (m (d * 1024 + i)).pres = true := by
  have hD := h.dir d hd
  rw [hD.pres_iff i hi]
  rcases Nat.lt_or_ge i (g.len d) with hlt | hge
  · simp [Entry.valid_of_avail_three (hD.avail_pres i hlt), hlt]
  · simp [Entry.valid_of_avail_two (hD.avail_abs i hi hge), hge]

/-- A page that faults is a heap page. -/
theorem heap_of_fault {d vp : ℕ} (hd : g.role d = .dir) (hf : ¬ PagePresent m d vp) : 8192 ≤ vp := by
  by_contra hlt
  refine hf ⟨(h.alloc_xinu hd (by omega)).1, ?_⟩
  rw [h.pteWord_xinu hd (by omega)]
  exact (h.xinu vp (by omega)).1

end

/-- The handler on a page that has an entry, in closed form. -/
theorem pagefaultHandler_hasPte {c : Cpu} {g : PageMap} (h : Layout c.mem g) {d v : ℕ}
    (hd : g.role d = .dir) (hp : HasPte c.mem d (v / 4096))
    (hmap : Mapped (pteWord c.mem d (v / 4096))) :
    pagefaultHandler c (d * 4096) v =
      if (c.mem (pteWord c.mem d (v / 4096))).valid then
        .ok (.handled ((c.withMem (mapFreeFrame c.mem (pteWord c.mem d (v / 4096)))).writeCr3
          (c.cr3At (d * 4096))))
      else .ok (.segv (c.writeCr3 (c.cr3At PAGE_DIR_ADDR_START))) := by
  have hidx : v / 2 ^ 22 = v / 4096 / 1024 := by omega
  have hval := (pde_valid_iff h hd hp.1).mpr hp.2
  unfold pagefaultHandler
  simp only [PAGE_SIZE, MAX_PT_SIZE, Cpu.writeCr3_mem]
  rw [hidx, show d * 4096 / 4 = d * 1024 by omega]
  generalize v / 4096 = vp at *
  have hw : (c.mem (d * 1024 + vp / 1024)).table + vp % 1024 = pteWord c.mem d vp := rfl
  simp only [hw, hval, hmap, not_true_eq_false, if_true, if_false, cr3At_writeCr3,
    Cpu.writeCr3_withMem_writeCr3]

/-- The handler on a page without an entry goes on to kill the process. -/
theorem pagefaultHandler_not_hasPte {c : Cpu} {g : PageMap} (h : Layout c.mem g) {d v : ℕ}
    (hd : g.role d = .dir) (hv : v < 2 ^ 32) (hp : ¬ HasPte c.mem d (v / 4096)) :
    pagefaultHandler c (d * 4096) v = .ok (.segv (c.writeCr3 (c.cr3At PAGE_DIR_ADDR_START))) := by
  have hidx : v / 2 ^ 22 = v / 4096 / 1024 := by omega
  have hvp : v / 4096 / 1024 < 1024 := by omega
  have hval : ¬ (c.mem (d * 1024 + v / 4096 / 1024)).valid = true := fun hc =>
    hp ⟨hvp, (pde_valid_iff h hd hvp).mp hc⟩
  unfold pagefaultHandler
  simp only [PAGE_SIZE, MAX_PT_SIZE, Cpu.writeCr3_mem]
  rw [hidx, show d * 4096 / 4 = d * 1024 by omega]
  exact if_neg hval

/-- Giving the free frame `k` to an allocated heap page that is not present keeps the layout. -/
theorem useFrame_spec {m : Mem} {g : PageMap} (h : Layout m g) {d vp k : ℕ}
    (hd : g.role d = .dir) (h8 : 8192 ≤ vp) (ha : PageAlloc m d vp) (hf : ¬ PagePresent m d vp)
    (hk : k < 16384) (hfree : FrameFree m k) :
    Layout (useFrame m (pteWord m d vp) k) g ∧
      MapsFree m (useFrame m (pteWord m d vp) k) d vp k := by
  have hheap := h.heap_pteWord hd h8 ((h.hasPte_iff hd _).mp ha.1)
  have hpres : (m (pteWord m d vp)).pres = false := by
    by_contra hc
    exact hf ⟨ha.1, by simpa using hc⟩
  -- The entry of the page and that of the frame are different words.
  have hne : FFS_WORD + k ≠ pteWord m d vp := fun he =>
    h.not_ffs_of_heap hheap (he ▸ Layout.isFfs_add hk)
  have hcell : useFrame m (pteWord m d vp) k (pteWord m d vp) =
      { m (pteWord m d vp) with base := (m (FFS_WORD + k)).base, pres := true } := by
    unfold useFrame
    rw [write_other hne.symm, write_same]
  have hffs : useFrame m (pteWord m d vp) k (FFS_WORD + k) =
      { m (FFS_WORD + k) with avail := 3#3 } := by
    unfold useFrame
    rw [write_same, write_other hne]
  have hother : ∀ w, w ≠ pteWord m d vp → w ≠ FFS_WORD + k →
      useFrame m (pteWord m d vp) k w = m w := by
    intro w h₁ h₂
    unfold useFrame
    rw [write_other h₂, write_other h₁]
  have hpde : useFrame m (pteWord m d vp) k (d * 1024 + vp / 1024) = m (d * 1024 + vp / 1024) :=
    hother _ (fun he => pde_not_heap hd ha.1.1 (he ▸ hheap))
      fun he => h.pde_not_ffs hd (he ▸ Layout.isFfs_add hk)
  refine ⟨h.mapFrame hheap ha.2 hpres hk ((frameFree_iff h hk).mp hfree) hcell hffs hother,
    hk, hfree, ?_, ⟨⟨ha.1.1, by rw [hpde]; exact ha.1.2⟩, ?_⟩, ?_, hother⟩
  · unfold FrameFree
    rw [hffs]
    simp [Entry.valid]
  · have hsame : pteWord (useFrame m (pteWord m d vp) k) d vp = pteWord m d vp := by
      rw [pteWord, hpde, pteWord]
    rw [hsame, hcell]
  · rw [hcell]
    exact (h.ffs k hk).base

/-- The handler in a laid out memory: a valid page gets a free frame, or nothing when there is none;
any other page is a segmentation fault. -/
theorem pagefaultHandler_spec {c : Cpu} {g : PageMap} (h : Layout c.mem g) {d v : ℕ}
    (hd : g.role d = .dir) (hv : v < 2 ^ 32) (hf : ¬ PagePresent c.mem d (v / 4096)) :
    (PageValid c.mem d (v / 4096) ∧ ∃ m',
      pagefaultHandler c (d * 4096) v = .ok (.handled ((c.withMem m').writeCr3 (c.cr3At (d * 4096)))) ∧
      Layout m' g ∧ (FaultProgress c.mem m' d (v / 4096) ∨
        m' = c.mem ∧ ∀ k < 16384, ¬ FrameFree c.mem k)) ∨
    (¬ PageValid c.mem d (v / 4096) ∧
      pagefaultHandler c (d * 4096) v =
        .ok (.segv (c.writeCr3 (c.cr3At PAGE_DIR_ADDR_START)))) := by
  by_cases hp : HasPte c.mem d (v / 4096)
  · have h8 := heap_of_fault h hd hf
    have hheap := h.heap_pteWord hd h8 ((h.hasPte_iff hd _).mp hp)
    have hmap : Mapped (pteWord c.mem d (v / 4096)) := by
      rw [mapped_iff]
      exact (h.heap_bounds hheap).2
    rw [pagefaultHandler_hasPte h hd hp hmap]
    by_cases hval : (c.mem (pteWord c.mem d (v / 4096))).valid = true
    · have ha : PageAlloc c.mem d (v / 4096) := (h.valid_iff hd _).mp ⟨hp, hval⟩
      rw [if_pos hval]
      refine .inl ⟨⟨hp, hval⟩, _, rfl, ?_⟩
      unfold mapFreeFrame
      rcases firstFreeFrame_spec c.mem with ⟨k, hk, hfind, hfree⟩ | ⟨hfind, hnone⟩
      · obtain ⟨hlay, hmaps⟩ := useFrame_spec h hd h8 ha hf hk hfree
        rw [hfind]
        exact ⟨hlay, .inl ⟨k, hmaps⟩⟩
      · rw [hfind]
        exact ⟨h, .inr ⟨rfl, hnone⟩⟩
    · exact .inr ⟨fun hc => hval hc.2, by rw [if_neg hval]⟩
  · exact .inr ⟨fun hc => hp hc.1, pagefaultHandler_not_hasPte h hd hv hp⟩

end Xinu
