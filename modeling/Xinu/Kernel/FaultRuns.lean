import Xinu.Kernel.VmRuns
import Mathlib.Data.Fintype.Card

/-!
# Page faults in every safe run

The page-fault handler maps a free frame, or it starts to kill the process. It does neither when the
page is valid and no frame is free (`fault_returns`), and a run from boot to such a state exists
(`fault_stuck`): a process may allocate more pages than there are frames, and touch them all.
-/

namespace Xinu

open Sys FlatMemory

/-- After the handler has returned, the faulting page maps a frame that was free before, and nothing else has
changed; or the processor has halted; or the process is being killed. -/
def FaultOk (k k' : Kernel) (v : ℕ) : Prop :=
  FaultProgress k.mem k'.mem (k.sys.dirFrame k.sys.currpid) (v / 4096) ∨ k'.sys.halted = true ∨
    k'.sys.pend k.sys.currpid = .kill k.sys.currpid

section

variable {k : Kernel} {g : PageMap} {v : ℕ}

/-- The handler returns, and it makes progress unless the page is valid and no frame is free. -/
theorem fault_spec (hg : VmInv k g) (hh : k.sys.halted = false) (hu : IsUser k.sys k.sys.currpid)
    (he : k.Enabled (.fault v)) : ∃ k', k.fault v = .ok k' ∧ (FaultOk k k' v ↔
      (PageValid k.mem (k.sys.dirFrame k.sys.currpid) (v / 4096) → ∃ i < 16384, FrameFree k.mem i)) := by
  obtain ⟨haddr, hd⟩ := hg.user hu
  obtain ⟨hpend, hn, ha⟩ := he
  have hcr3 := hg.cr3Ok hh (by rw [hpend]; exact nofun)
  have habs := not_present_of_absent hcr3 hu ha
  unfold Kernel.fault Kernel.currAddr
  rw [haddr]
  rcases pagefaultHandler_spec (c := k.cpu) hg.layout hd ha.1 habs with ⟨hval, m', hr, -, hm⟩ | ⟨hval, hr⟩
  · rw [hr]
    refine ⟨_, rfl, ?_⟩
    constructor
    · rintro (⟨i, hi⟩ | hhalt | hkill) -
      · exact ⟨i, hi.bound, hi.free⟩
      · exact absurd (hhalt.symm.trans hh) nofun
      · exact absurd (hkill.symm.trans hpend) nofun
    · intro hfree
      rcases hm with hp | ⟨-, hnone⟩
      · exact .inl hp
      · obtain ⟨i, hi, hf⟩ := hfree hval
        exact absurd hf (hnone i hi)
  · have hi : Idle { k.sys with cr3 := (k.cpu.writeCr3 (k.cpu.cr3At PAGE_DIR_ADDR_START)).cr3 } :=
      hg.idle.congr rfl rfl rfl (fun _ => rfl) rfl (fun _ => rfl) (fun _ => rfl) rfl rfl
    obtain ⟨s', hs', hself⟩ := killStart_self hi hn
    change Sys.killStart _ k.sys.currpid = _ at hs'
    rw [hr]
    simp only [Res.ok_bind]
    rw [if_neg hn, hs']
    exact ⟨_, rfl, fun _ hp => absurd hp hval, fun _ => .inr (hself.imp id And.left)⟩

/-- **Every return of the page-fault handler makes progress** exactly when the page is not valid or
a frame is free, in every state that a safe run reaches; and a process that is being killed releases
its memory when it goes on. -/
theorem fault_returns (h : k.SafeReach) (hh : k.sys.halted = false) (hu : IsUser k.sys k.sys.currpid) :
    (∀ v, k.Enabled (.fault v) → ∃ k', k.fault v = .ok k' ∧ (FaultOk k k' v ↔
      (PageValid k.mem (k.sys.dirFrame k.sys.currpid) (v / 4096) → ∃ i < 16384, FrameFree k.mem i))) ∧
    (k.sys.pend k.sys.currpid = .kill k.sys.currpid → KillReclaims k k.sys.currpid) := by
  obtain ⟨g, hg⟩ := safe_inv h
  exact ⟨fun v he => fault_spec hg hh hu he, fun hp => kill_self_reclaims hg hu hp⟩

end

/-- A process without heap is killed when it touches its first heap page. -/
theorem fault_returns_first : (∀ v, userRuns.Enabled (.fault v) → ∃ k', userRuns.fault v = .ok k' ∧
    (FaultOk userRuns k' v ↔ (PageValid userRuns.mem (userRuns.sys.dirFrame userRuns.sys.currpid) (v / 4096) →
      ∃ i < 16384, FrameFree userRuns.mem i))) ∧
    (userRuns.sys.pend userRuns.sys.currpid = .kill userRuns.sys.currpid →
      KillReclaims userRuns userRuns.sys.currpid) :=
  fault_returns userRuns_reach userRuns_facts.2.1 userRuns_user

/-! ## Running out of frames -/

/-- The running process is a user process with more valid heap pages than there are frames. -/
structure Filling (k : Kernel) : Prop where
  /-- The state is reached by safe steps. -/
  reach : k.SafeReach
  /-- The machine has not stopped. -/
  halted : k.sys.halted = false
  /-- Process 2 is running. -/
  curr : k.sys.currpid = 2
  /-- It is a user process. -/
  user : IsUser k.sys 2
  /-- It is not in the kernel. -/
  pend : k.sys.pend 2 = .user
  /-- It has 16385 valid pages from the first heap page on. -/
  valid : ∀ j < 16385, PageValid k.mem (k.sys.dirFrame 2) (8192 + j)

instance (m : Mem) (i : ℕ) : Decidable (FrameFree m i) := inferInstanceAs (Decidable (_ = _))

/-- The number of free frames. -/
def freeFrames (m : Mem) : ℕ := Nat.count (FrameFree m) 16384

/-- One free frame less when a page has been mapped. -/
theorem MapsFree.freeFrames_lt {m m' : Mem} {d vp i : ℕ} (hm : MapsFree m m' d vp i)
    (hp : ¬ IsFfs (pteWord m d vp)) : freeFrames m' < freeFrames m := by
  unfold freeFrames
  rw [Nat.count_eq_card_filter_range, Nat.count_eq_card_filter_range]
  refine Finset.card_lt_card ?_
  rw [Finset.ssubset_iff_of_subset]
  · refine ⟨i, ?_, ?_⟩
    · exact Finset.mem_filter.mpr ⟨Finset.mem_range.mpr hm.bound, hm.free⟩
    · exact fun hc => hm.used (Finset.mem_filter.mp hc).2
  · intro j hj
    obtain ⟨hlt, hf⟩ := Finset.mem_filter.mp hj
    refine Finset.mem_filter.mpr ⟨hlt, ?_⟩
    have hlt' := Finset.mem_range.mp hlt
    rcases eq_or_ne j i with rfl | hne
    · exact hm.free
    · have hsame := hm.other (FFS_WORD + j) (fun hw => hp (hw ▸ Layout.isFfs_add hlt')) (by omega)
      unfold FrameFree at hf ⊢
      rw [← hsame]
      exact hf

/-- Of more pages than there are frames, one is not present. -/
theorem Layout.exists_absent {m : Mem} {g : PageMap} (h : Layout m g) {d : ℕ} (hd : g.role d = .dir) :
    ∃ j < 16385, ¬ PagePresent m d (8192 + j) := by
  by_contra hc
  have hall : ∀ j < 16385, PagePresent m d (8192 + j) := fun j hj => by
    by_contra hp
    exact hc ⟨j, hj, hp⟩
  have hmaps : ∀ j < 16385, ∃ i < 16384, MapsFrame m g i (pteWord m d (8192 + j)) := by
    intro j hj
    obtain ⟨hp, hpres⟩ := hall j hj
    have hheap := h.heap_pteWord hd (by omega) ((h.hasPte_iff hd (8192 + j)).mp hp)
    obtain ⟨hlo, hhi⟩ := (h.pte _ hheap).base_of_pres hpres
    exact ⟨(m (pteWord m d (8192 + j))).base.toNat - 8192, by omega, hheap, hpres, by omega⟩
  choose! f hf hmap using hmaps
  -- Two of the pages share a frame.
  obtain ⟨a, ha, b, hb, hne, hab⟩ := Finset.exists_ne_map_eq_of_card_lt_of_maps_to
    (s := Finset.range 16385) (t := Finset.range 16384) (f := f) (by simp)
    (fun j hj =>
      Finset.mem_coe.mpr (Finset.mem_range.mpr (hf j (Finset.mem_range.mp (Finset.mem_coe.mp hj)))))
  rw [Finset.mem_range] at ha hb
  have hwa := hmap a ha
  have hwb := hmap b hb
  rw [hab] at hwa
  have hw := h.frame_inj _ _ _ hwa hwb
  have hpage := h.pteWord_inj hd (by omega) ((h.hasPte_iff hd _).mp (hall a ha).1) hd (by omega)
    ((h.hasPte_iff hd _).mp (hall b hb).1) hw
  omega

/-- The entries of a directory do not change when one of its pages is mapped. -/
theorem MapsFree.pteWord_eq {m m' : Mem} {g : PageMap} (h : Layout m g) {d vp i : ℕ} (hd : g.role d = .dir)
    (h8 : 8192 ≤ vp) (hp : HasPte m d vp) (hm : MapsFree m m' d vp i) {j : ℕ} (hj : j < 1024) :
    m' (d * 1024 + j) = m (d * 1024 + j) := by
  have hheap := h.heap_pteWord hd h8 ((h.hasPte_iff hd vp).mp hp)
  refine hm.other _ (fun hw => pde_not_heap hd hj (hw ▸ hheap)) fun hw => ?_
  exact h.pde_not_ffs hd (hw ▸ Layout.isFfs_add hm.bound)

/-- Valid heap pages stay valid when one of them is mapped. -/
theorem MapsFree.valid {m m' : Mem} {g : PageMap} (h : Layout m g) (h' : Layout m' g) {d vp i : ℕ}
    (hd : g.role d = .dir) (h8 : 8192 ≤ vp) (hp : HasPte m d vp)
    (hm : MapsFree m m' d vp i) {x : ℕ} (hx8 : 8192 ≤ x)
    (hx : PageValid m d x) : PageValid m' d x := by
  have hlt := hx.1.1
  have hpde := hm.pteWord_eq h hd h8 hp hlt
  have hpte : HasPte m' d x := by
    unfold HasPte
    rw [hpde]
    exact hx.1
  have hword : pteWord m' d x = pteWord m d x := by
    unfold pteWord
    rw [hpde]
  by_cases hw : pteWord m d x = pteWord m d vp
  · -- The page that has been mapped is present, and so it is valid.
    obtain ⟨-, rfl⟩ :=
      h.pteWord_inj hd hx8 ((h.hasPte_iff hd x).mp hx.1) hd h8 ((h.hasPte_iff hd vp).mp hp) hw
    exact (h'.valid_iff hd x).mpr (h'.alloc_of_present hd hx8 hm.present)
  · have hheap := h.heap_pteWord hd hx8 ((h.hasPte_iff hd x).mp hx.1)
    have hsame := hm.other _ hw fun hf => h.not_ffs_of_heap hheap (hf ▸ Layout.isFfs_add hm.bound)
    refine ⟨hpte, ?_⟩
    rw [hword, hsame]
    exact hx.2

/-- A process that fills memory either meets a fault that maps nothing, or maps one more frame. -/
theorem Filling.step {k : Kernel} (h : Filling k) :
    (∃ v, k.Enabled (.fault v) ∧ ∃ k', k.fault v = .ok k' ∧ ¬ FaultOk k k' v) ∨
      ∃ k', Filling k' ∧ freeFrames k'.mem < freeFrames k.mem := by
  obtain ⟨g, hg⟩ := safe_inv h.reach
  obtain ⟨haddr, hd⟩ := hg.user h.user
  -- One of the pages that the process may touch is not present; the fault is on it.
  obtain ⟨j, hj, habs⟩ := hg.layout.exists_absent hd
  have hpend : k.sys.pend k.sys.currpid = .user := by
    rw [h.curr]
    exact h.pend
  have hcr3 := hg.cr3Ok h.halted (by rw [hpend]; exact nofun)
  have hdir : k.sys.cr3 / PAGE_SIZE = k.sys.dirFrame 2 := by
    rw [← h.curr]
    exact hcr3.1
  have hv : (8192 + j) * 4096 / 4096 = 8192 + j := Nat.mul_div_cancel _ (by decide)
  have he : k.Enabled (.fault ((8192 + j) * 4096)) := by
    refine ⟨hpend, by rw [h.curr]; decide, by omega, ?_⟩
    rw [hdir, if_neg h.user.2.2, show (8192 + j) * 4096 / PAGE_SIZE = 8192 + j from hv]
    exact fun hc => habs ⟨⟨hc.1, hc.2.1⟩, hc.2.2⟩
  have hu := h.user
  rw [← h.curr] at hu
  -- The fault returns, and the claim about it is that of the free frame.
  obtain ⟨k', hf, hiff⟩ := fault_spec hg h.halted hu he
  rcases pagefaultHandler_spec (c := k.cpu) (v := (8192 + j) * 4096) hg.layout hd he.2.2.1
    (by rw [hv]; exact habs)
    with ⟨-, m', hr, hl, hm⟩ | ⟨hval, -⟩
  · rw [hv] at hm
    have hk' : k.fault ((8192 + j) * 4096) =
        .ok (k.withCpu ((k.cpu.withMem m').writeCr3 (k.cpu.cr3At (k.sys.dirFrame 2 * 4096)))) := by
      unfold Kernel.fault Kernel.currAddr
      rw [h.curr, haddr, hr]
      rfl
    -- Either a free frame has been mapped, and there is one less, or there was none.
    rcases hm with ⟨i, hi⟩ | ⟨-, hnone⟩
    · have hpte := (h.valid j hj).1
      have hstep : k.Step (.fault ((8192 + j) * 4096)) _ := ⟨h.halted, he, 0, 0, .inl hk'⟩
      refine .inr ⟨_, ⟨.step (e := .fault ((8192 + j) * 4096)) h.reach trivial hstep,
        h.halted, h.curr, h.user, h.pend, fun x hx => ?_⟩, ?_⟩
      · exact hi.valid hg.layout hl hd (by omega) hpte (by omega) (h.valid x hx)
      · exact hi.freeFrames_lt (hg.layout.not_ffs_of_heap
          (hg.layout.heap_pteWord hd (by omega) ((hg.layout.hasPte_iff hd _).mp hpte)))
    · refine .inl ⟨_, he, k', hf, fun hok => ?_⟩
      obtain ⟨i, hi, hfree⟩ := hiff.mp hok (by rw [h.curr, hv]; exact h.valid j hj)
      exact hnone i hi hfree
  · rw [hv] at hval
    exact absurd (h.valid j hj) hval

/-- A process that fills memory meets a fault that maps nothing: by induction on the number of free frames. -/
theorem Filling.stuck {k : Kernel} (h : Filling k) : ∃ k k' v, k.SafeReach ∧ IsUser k.sys k.sys.currpid ∧
    k.Enabled (.fault v) ∧ k.fault v = .ok k' ∧ ¬ FaultOk k k' v := by
  generalize hn : freeFrames k.mem = n
  induction n using Nat.strong_induction_on generalizing k with
  | _ n ih =>
    rcases h.step with ⟨v, he, k', hf, hno⟩ | ⟨k', h', hlt⟩
    · exact ⟨k, k', v, h.reach, by rw [h.curr]; exact h.user, he, hf, hno⟩
    · exact ih _ (hn ▸ hlt) h' rfl

/-- A process without heap may ask for more than one table. -/
theorem vmallocSafe_of_absent {m : Mem} {g : PageMap} (h : Layout m g) {d n : ℕ} (hd : g.role d = .dir)
    (habs : (m (d * 1024 + 8)).pres = false) (hn : 1024 < n) : VmallocSafe m d n := by
  have hD := h.dir d hd
  have hlen : presentEntries m d = 8 := by
    rw [h.presentEntries_eq hd]
    refine le_antisymm ?_ hD.len_ge
    by_contra hlt
    exact absurd (habs.symm.trans ((hD.pres_iff 8 (by decide)).mpr (by omega))) nofun
  refine .inr (.inr ⟨hn, .inr ⟨?_, ?_, ?_⟩⟩)
  all_goals
    rw [hlen]
    intros
    omega

/-- Process 2 has 16385 pages. -/
def fillRuns : Kernel := userRuns.after (.call (.vmalloc (16385 * 4096)))

set_option maxRecDepth 100000 in
/-- What is computed about the process with so many pages. -/
theorem fillRuns_facts :
    userRuns.CanStep (.call (.vmalloc (16385 * 4096))) ∧ fillRuns.RunsSecond ∧ fillRuns.sys.halted = false ∧
    fillRuns.sys.pend 2 = .user ∧ fillRuns.sys.result userRuns.sys.currpid = (8 * 1024 * 4096 : ℕ) := by
  decide +kernel

/-- Process 2 has heap pages left that it may touch, and no frame is left for them. -/
theorem fillRuns_filling : Filling fillRuns := by
  obtain ⟨hstep, ⟨hcurr, hlive, hframe'⟩, hh, hpend, hva⟩ := fillRuns_facts
  have hu := userRuns_user
  have hreach := userRuns_reach
  have hheap := userRuns_heap
  have hframe := userRuns_frame
  unfold fillRuns at *
  generalize userRuns = k at *
  obtain ⟨g, hg⟩ := safe_inv hreach
  have hd := (hg.user hu).2
  rw [hframe] at hd
  have hsafe : k.Safe (.call (.vmalloc (16385 * 4096))) := by
    refine ⟨hu, ?_⟩
    rw [hframe]
    exact vmallocSafe_of_absent hg.layout hd (hheap 8 (by decide) (le_refl 8)) (by decide)
  have hr := hstep.reach hreach hsafe
  obtain ⟨g', hg'⟩ := safe_inv hr
  have hu' : IsUser (k.after (.call (.vmalloc (16385 * 4096)))).sys 2 :=
    ⟨⟨by decide, by decide⟩, hlive, by rw [hframe']; omega⟩
  have hsound := (hg.vmalloc_sound (n := 16385) hu (by decide)).mpr (by
    rw [hframe]
    exact soundOk_of_absent hheap)
  have halloc := (hsound 4096 0 _ _ hstep.exec hva).alloc
  rw [hframe] at halloc
  refine ⟨hr, hh, hcurr, hu', hpend, fun j hj => ?_⟩
  rw [(hg'.layout.valid_iff (hg'.user hu').2), hframe']
  exact halloc j hj

/-- A process that has more valid pages than there are frames meets a fault that maps nothing. -/
theorem fault_stuck : ∃ k k' v, k.SafeReach ∧ IsUser k.sys k.sys.currpid ∧ k.Enabled (.fault v) ∧
    k.fault v = .ok k' ∧ ¬ FaultOk k k' v := fillRuns_filling.stuck

end Xinu
