import Xinu.Kernel.FaultRuns
import Mathlib.Algebra.BigOperators.Group.Finset.Basic
import Mathlib.Algebra.Order.BigOperators.Group.Finset

/-!
# Who owns the memory

Every page of the page-table area and every FFS frame belongs to the system, to one live process, or
to nobody. A directory whose process is gone is an orphan: `kill` makes one when it kills a process
that is not running. In a run without such kills there are no orphans (`page_ownership`), and in a
run in which only processes without frames are killed by others the frames are owned
(`frame_ownership`).
-/

namespace Xinu

open Sys FlatMemory

/-! ## Orphans -/

/-- The directory belongs to no live process. -/
def Orphan (k : Kernel) (g : PageMap) (d : ℕ) : Prop :=
  g.role d = .dir ∧ ∀ p, IsUser k.sys p → k.sys.dirFrame p ≠ d

/-- A safe event that kills no user process but the running one. -/
def Kernel.PageSafe (k : Kernel) (e : Event) : Prop :=
  k.Safe e ∧ ∀ pid, k.sys.pend k.sys.currpid = .kill pid → IsUser k.sys pid → pid = k.sys.currpid

/-- A safe event that kills no user process with frames but the running one. -/
def Kernel.FrameSafe (k : Kernel) (e : Event) : Prop :=
  k.Safe e ∧ ∀ pid, k.sys.pend k.sys.currpid = .kill pid → IsUser k.sys pid → pid = k.sys.currpid ∨
    ∀ i < 16384, ¬ OwnFrame k.mem (k.sys.dirFrame pid) i

/-- The states that runs of such events reach from boot. -/
def Kernel.PageReach : Kernel → Prop := Kernel.Reach Kernel.PageSafe

/-- The states that runs of such events reach from boot. -/
def Kernel.FrameReach : Kernel → Prop := Kernel.Reach Kernel.FrameSafe

section

variable {k k' : Kernel} {g g' : PageMap} {d : ℕ}

/-- An orphan after a step was one before, or its process has just been killed by another one. -/
theorem VmStep.orphan (hg : VmInv k g) (hs : VmStep k g k' g') (ho : Orphan k' g' d) :
    g.role d = .dir ∧ d ≠ k.sys.dirFrame k.sys.currpid ∧ (Orphan k g d ∨
      ∃ p, IsUser k.sys p ∧ k.sys.dirFrame p = d ∧ k.sys.pend k.sys.currpid = .kill p ∧
      p ≠ k.sys.currpid) := by
  obtain ⟨hd', hno⟩ := ho
  have hd : g.role d = .dir := by
    rcases hs.dirs d hd' with hd | ⟨p, -, hu, hp⟩
    · exact hd
    · exact absurd hp (hno p hu)
  -- A live process keeps its directory, so the owner must have died.
  have hdead : ∀ p, IsUser k.sys p → k.sys.dirFrame p = d → k'.sys.state p = .free := by
    intro p hu hp
    by_contra hf
    have he : k'.sys.dirFrame p = k.sys.dirFrame p := by
      unfold dirFrame
      rw [hs.page p hu.2.1 hf]
    exact hno p ⟨hu.1, hf, by rw [he]; exact hu.2.2⟩ (he.trans hp)
  have hcurr : d ≠ k.sys.dirFrame k.sys.currpid := by
    intro hc
    by_cases hu : IsUser k.sys k.sys.currpid
    · exact hs.gone hu (hdead _ hu hc.symm) (hc ▸ hd')
    · have hsys : k.sys.dirFrame k.sys.currpid = PT_FRAME := by
        by_contra hne
        exact hu ⟨hg.idle.states.currpid, hg.idle.curr_live, hne⟩
      have hb := hg.layout.dir_bounds hd
      omega
  refine ⟨hd, hcurr, ?_⟩
  by_cases howner : ∃ p, IsUser k.sys p ∧ k.sys.dirFrame p = d
  · obtain ⟨p, hu, hp⟩ := howner
    refine .inr ⟨p, hu, hp, ?_, fun hc => hcurr (by rw [← hp, hc])⟩
    exact (hs.live p hu.2.1).resolve_left fun hl => hl (hdead p hu hp)
  · exact .inl ⟨hd, fun p hu hp => howner ⟨p, hu, hp⟩⟩

/-- The frames of a directory that is kept are the same. -/
theorem DirKept.ownFrame {m m' : Mem} (hk : DirKept m m' d) {i : ℕ} (hf : OwnFrame m' d i) :
    OwnFrame m d i := by
  obtain ⟨vp, h8, ⟨⟨hlt, hpde⟩, hpres⟩, hb⟩ := hf
  have hsame := hk.dir (vp / 1024) hlt
  have hword : pteWord m' d vp = pteWord m d vp := by
    unfold pteWord
    rw [hsame]
  rw [hsame] at hpde
  have hpte := hk.heap _ ⟨vp, h8, ⟨hlt, hpde⟩, rfl⟩
  rw [hword, hpte] at hpres hb
  exact ⟨vp, h8, ⟨⟨hlt, hpde⟩, hpres⟩, hb⟩

end

/-- In a run without kills of other user processes there are no orphans. -/
theorem page_inv {k : Kernel} (h : k.PageReach) : ∃ g, VmInv k g ∧ ∀ d, ¬ Orphan k g d := by
  induction h with
  | boot b hz =>
    refine ⟨bootMap, sysinit_vm b hz, fun d hd => ?_⟩
    have hrole := hd.1
    unfold bootMap at hrole
    dsimp only at hrole
    split_ifs at hrole
  | step hk ha hst ih =>
    obtain ⟨g, hg, hno⟩ := ih
    obtain ⟨g', hg', hs⟩ := step_safe hg ha.1 hst
    refine ⟨g', hg', fun d ho => ?_⟩
    obtain ⟨-, -, ho | ⟨p, hu, -, hp, hne⟩⟩ := hs.orphan hg ho
    · exact hno d ho
    · exact hne (ha.2 p hp hu)

/-- In a run without kills of other processes with frames the orphans map no frames. -/
theorem frame_inv {k : Kernel} (h : k.FrameReach) :
    ∃ g, VmInv k g ∧ ∀ d, Orphan k g d → ∀ i < 16384, ¬ OwnFrame k.mem d i := by
  induction h with
  | boot b hz =>
    refine ⟨bootMap, sysinit_vm b hz, fun d hd => ?_⟩
    have hrole := hd.1
    unfold bootMap at hrole
    dsimp only at hrole
    split_ifs at hrole
  | step hk ha hst ih =>
    obtain ⟨g, hg, hno⟩ := ih
    obtain ⟨g', hg', hs⟩ := step_safe hg ha.1 hst
    refine ⟨g', hg', fun d ho i hi hf => ?_⟩
    obtain ⟨hd, hne, hcase⟩ := hs.orphan hg ho
    -- The orphan is not the directory of the running process, so its tables are as before.
    have hold := (hs.kept d hd hne).2.ownFrame hf
    rcases hcase with ho | ⟨p, hu, hpd, hp, hpc⟩
    · exact hno d ho i hi hold
    · rcases ha.2 p hp hu with hc | hnone
      · exact hpc hc
      · exact hnone i hi (by rw [hpd]; exact hold)

/-! ## FFS frames -/

/-- Heap page `vp` of the live process `p` maps FFS frame `i`. -/
def Uses (k : Kernel) (p : ℤ) (vp i : ℕ) : Prop :=
  IsUser k.sys p ∧ 8192 ≤ vp ∧ PagePresent k.mem (k.sys.dirFrame p) vp ∧
    (k.mem (pteWord k.mem (k.sys.dirFrame p) vp)).base.toNat = 8192 + i

instance (s : Sys) (p : ℤ) : Decidable (IsUser s p) := inferInstanceAs (Decidable (_ ∧ _))

/-- The live user processes. -/
def users (s : Sys) : Finset ℤ := (@Finset.Ico ℤ _ Int.instLocallyFiniteOrder 0 NPROC).filter (IsUser s)

/-- A process is listed exactly when it is a live user process. -/
theorem mem_users (s : Sys) (p : ℤ) : p ∈ users s ↔ IsUser s p := by
  unfold users
  rw [Finset.mem_filter, Finset.mem_Ico]
  exact ⟨And.right, fun h => ⟨h.1, h⟩⟩

/-- The frames are owned by the live processes: none is mapped twice, the used ones are those that
are mapped, and the two counters add up to all frames. -/
structure FrameOwnership (k : Kernel) : Prop where
  /-- No frame is mapped twice, in one process or in two. -/
  inj : ∀ i p vp q wp, Uses k p vp i → Uses k q wp i → p = q ∧ vp = wp
  /-- A frame is in use exactly if some process maps it. -/
  used : ∀ i < 16384, ¬ FrameFree k.mem i ↔ ∃ p vp, Uses k p vp i
  /-- `free_ffs_pages()` and the values of `used_ffs_frames(p)`. -/
  total : ∃ n : ℤ → ℕ, (∀ p ∈ users k.sys, ∃ c,
    usedFfsFrames k.cpu k.currAddr (k.sys.proctab p).page_addr = .ok (n p, c)) ∧
    (freeFfsPages k.cpu k.currAddr).1 + ∑ p ∈ users k.sys, n p = MAX_FFS_SIZE

section

variable {k : Kernel} {g : PageMap}

/-- A live process maps a frame through a word of a private table. -/
theorem Uses.maps (hg : VmInv k g) {p : ℤ} {vp i : ℕ} (h : Uses k p vp i) :
    MapsFrame k.mem g i (pteWord k.mem (k.sys.dirFrame p) vp) := by
  obtain ⟨hu, h8, ⟨hp, hpres⟩, hb⟩ := h
  have hd := (hg.user hu).2
  exact ⟨hg.layout.heap_pteWord hd h8 ((hg.layout.hasPte_iff hd vp).mp hp), hpres, hb⟩

/-- No frame is mapped for two pages, of one process or of two. -/
theorem Uses.inj (hg : VmInv k g) {p q : ℤ} {vp wp i : ℕ} (hp : Uses k p vp i) (hq : Uses k q wp i) :
    p = q ∧ vp = wp := by
  have hdp := (hg.user hp.1).2
  have hdq := (hg.user hq.1).2
  have hw := hg.layout.frame_inj i _ _ (hp.maps hg) (hq.maps hg)
  obtain ⟨hd, hv⟩ := hg.layout.pteWord_inj hdp hp.2.1 ((hg.layout.hasPte_iff hdp vp).mp hp.2.2.1.1) hdq hq.2.1
    ((hg.layout.hasPte_iff hdq wp).mp hq.2.2.1.1) hw
  exact ⟨hg.inj p q hp.1 hq.1 hd, hv⟩

/-- When orphans map no frames, the frames in use are those that a live process maps. -/
theorem used_iff (hg : VmInv k g) (ho : ∀ d, Orphan k g d → ∀ i < 16384, ¬ OwnFrame k.mem d i) {i : ℕ}
    (hi : i < 16384) : ¬ FrameFree k.mem i ↔ ∃ p vp, Uses k p vp i := by
  rw [frameFree_iff hg.layout hi, not_not, hg.layout.frame_used i hi]
  constructor
  · rintro ⟨w, hw⟩
    obtain ⟨d, vp, hd, h8, hlt, rfl⟩ := hg.layout.page_of_heap hw.1
    have hown : OwnFrame k.mem d i := ⟨vp, h8, ⟨(hg.layout.hasPte_iff hd vp).mpr hlt, hw.2.1⟩, hw.2.2⟩
    by_contra hno
    refine ho d ⟨hd, fun p hu hp => hno ⟨p, vp, hu, h8, ?_⟩⟩ i hi hown
    rw [hp]
    exact ⟨⟨(hg.layout.hasPte_iff hd vp).mpr hlt, hw.2.1⟩, hw.2.2⟩
  · rintro ⟨p, vp, h⟩
    exact ⟨_, h.maps hg⟩

open Classical in
/-- The frames that the process maps. -/
noncomputable def usedFrames (k : Kernel) (p : ℤ) : Finset ℕ :=
  (Finset.range 16384).filter fun i => ∃ vp, Uses k p vp i

/-- A frame is listed when a page of the process maps it. -/
theorem mem_usedFrames {p : ℤ} {i : ℕ} : i ∈ usedFrames k p ↔ i < 16384 ∧ ∃ vp, Uses k p vp i := by
  classical
  unfold usedFrames
  rw [Finset.mem_filter, Finset.mem_range]

/-- The frames of different processes are different. -/
theorem usedFrames_disjoint (hg : VmInv k g) {p q : ℤ} (hne : p ≠ q) :
    Disjoint (usedFrames k p) (usedFrames k q) := by
  rw [Finset.disjoint_left]
  intro i hp hq
  obtain ⟨-, vp, hvp⟩ := mem_usedFrames.mp hp
  obtain ⟨-, wp, hwp⟩ := mem_usedFrames.mp hq
  exact hne (hvp.inj hg hwp).1

/-- The loop of `used_ffs_frames` counts the present heap pages, each of which maps its own frame. -/
theorem countEntries_used (hg : VmInv k g) {p : ℤ} (hu : IsUser k.sys p) :
    countEntries k.mem (k.sys.dirFrame p * 1024) 8 Entry.pres = (usedFrames k p).card := by
  have hd := (hg.user hu).2
  rw [countEntries_eq _ _ _ _ (by decide), Nat.count_eq_card_filter_range]
  -- The frame of a present heap page.
  have hframe : ∀ vp, 8192 ≤ vp → PagePresent k.mem (k.sys.dirFrame p) vp →
      ∃ i < 16384, (k.mem (pteWord k.mem (k.sys.dirFrame p) vp)).base.toNat = 8192 + i := by
    rintro vp h8 ⟨hp, hpres⟩
    have hheap := hg.layout.heap_pteWord hd h8 ((hg.layout.hasPte_iff hd vp).mp hp)
    obtain ⟨hlo, hhi⟩ := (hg.layout.pte _ hheap).base_of_pres hpres
    exact ⟨_ - 8192, by omega, (Nat.add_sub_cancel' hlo).symm⟩
  refine Finset.card_bij
    (fun vp _ => (k.mem (pteWord k.mem (k.sys.dirFrame p) vp)).base.toNat - 8192) ?_ ?_ ?_
  · intro vp hvp
    obtain ⟨-, h8, hp, hpres⟩ := Finset.mem_filter.mp hvp
    obtain ⟨i, hi, hb⟩ := hframe vp (by omega) ⟨hp, hpres⟩
    rw [hb, Nat.add_sub_cancel_left]
    exact mem_usedFrames.mpr ⟨hi, vp, hu, by omega, ⟨hp, hpres⟩, hb⟩
  · intro vp hvp wp hwp he
    obtain ⟨-, h8, hp, hpres⟩ := Finset.mem_filter.mp hvp
    obtain ⟨-, h8', hp', hpres'⟩ := Finset.mem_filter.mp hwp
    obtain ⟨i, hi, hb⟩ := hframe vp (by omega) ⟨hp, hpres⟩
    obtain ⟨j, hj, hb'⟩ := hframe wp (by omega) ⟨hp', hpres'⟩
    rw [hb, hb', Nat.add_sub_cancel_left, Nat.add_sub_cancel_left] at he
    subst he
    have hv : Uses k p vp i := ⟨hu, by omega, ⟨hp, hpres⟩, hb⟩
    exact (hv.inj hg ⟨hu, by omega, ⟨hp', hpres'⟩, hb'⟩).2
  · intro i hi
    obtain ⟨-, vp, -, h8, ⟨hp, hpres⟩, hb⟩ := mem_usedFrames.mp hi
    have hlt := hp.1
    refine ⟨vp, Finset.mem_filter.mpr ⟨Finset.mem_range.mpr (by omega), by omega, hp, hpres⟩, ?_⟩
    rw [hb, Nat.add_sub_cancel_left]

/-- `used_ffs_frames(p)` answers the number of frames that the process maps. -/
theorem usedFfsFrames_eq (hg : VmInv k g) {p : ℤ} (hu : IsUser k.sys p) :
    ∃ c, usedFfsFrames k.cpu k.currAddr (k.sys.proctab p).page_addr = .ok ((usedFrames k p).card, c) := by
  obtain ⟨haddr, hd⟩ := hg.user hu
  have hb := hg.layout.dir_bounds hd
  have hmapped : Mapped (k.sys.dirFrame p * 1024 + (MAX_PT_SIZE - 1)) := by
    rw [mapped_iff]
    simp only [MAX_PT_SIZE]
    omega
  have htables : TablesMapped k.mem (k.sys.dirFrame p * 1024) (XINU_PAGES / MAX_PT_SIZE) := by
    intro i hi h8 hp
    exact tableOf_mapped hg.layout hd h8 (((hg.layout.dir _ hd).pres_iff i hi).mp hp)
  rw [← countEntries_used hg hu]
  unfold usedFfsFrames countPages
  dsimp only
  rw [haddr, show k.sys.dirFrame p * 4096 / 4 = k.sys.dirFrame p * 1024 by omega, if_pos ⟨hmapped, htables⟩]
  exact ⟨_, rfl⟩

/-- `free_ffs_pages()` answers the number of free frames. -/
theorem freeFfsPages_eq (c : Cpu) (cur_addr : ℕ) :
    (freeFfsPages c cur_addr).1 = ((Finset.range 16384).filter (FrameFree c.mem)).card := by
  have hcount : ∀ n, Nat.count (fun i => (c.mem (FFS_WORD + i)).valid = false) n =
      ((Finset.range n).filter (FrameFree c.mem)).card := fun n => Nat.count_eq_card_filter_range _ n
  unfold freeFfsPages
  dsimp only
  exact hcount _

/-- **Frames are owned by the live processes** in every state that a run reaches in which only
processes without frames are killed by others. -/
theorem frame_ownership (h : k.FrameReach) : FrameOwnership k := by
  classical
  obtain ⟨g, hg, ho⟩ := frame_inv h
  refine ⟨fun i p vp q wp hp hq => hp.inj hg hq, fun i hi => used_iff hg ho hi,
    fun p => (usedFrames k p).card, fun p hp => usedFfsFrames_eq hg ((mem_users _ p).mp hp), ?_⟩
  -- The used frames are the disjoint union of those of the processes.
  have hunion : (Finset.range 16384).filter (fun i => ¬ FrameFree k.mem i) =
      (users k.sys).biUnion (usedFrames k) := by
    ext i
    rw [Finset.mem_filter, Finset.mem_range, Finset.mem_biUnion]
    constructor
    · rintro ⟨hi, hused⟩
      obtain ⟨p, vp, hp⟩ := (used_iff hg ho hi).mp hused
      exact ⟨p, (mem_users _ p).mpr hp.1, mem_usedFrames.mpr ⟨hi, vp, hp⟩⟩
    · rintro ⟨p, -, hp⟩
      obtain ⟨hi, vp, hvp⟩ := mem_usedFrames.mp hp
      exact ⟨hi, (used_iff hg ho hi).mpr ⟨p, vp, hvp⟩⟩
  have hfree := freeFfsPages_eq k.cpu k.currAddr
  calc (freeFfsPages k.cpu k.currAddr).1 + ∑ p ∈ users k.sys, (usedFrames k p).card
      = ((Finset.range 16384).filter (FrameFree k.cpu.mem)).card +
          ((Finset.range 16384).filter fun i => ¬ FrameFree k.mem i).card := by
        rw [hfree, hunion, Finset.card_biUnion fun p _ q _ hne => usedFrames_disjoint hg hne]
    _ = (Finset.range 16384).card := Finset.card_filter_add_card_filter_not _
    _ = MAX_FFS_SIZE := Finset.card_range _

end

/-- The frames are owned when process 2 has touched its page: the first frame is used, and it is the
frame of a page of a process. -/
theorem frame_ownership_user : FrameOwnership touchedRuns ∧ ∃ p vp, Uses touchedRuns p vp 0 := by
  have hquiet := touchedRuns_quiet
  have hused := touchedRuns_facts.2
  generalize touchedRuns = k at *
  have hown : FrameOwnership k := by
    refine frame_ownership (hquiet.mono fun k e he => ⟨he.1, fun pid hp => ?_⟩)
    exact absurd (he.2.symm.trans hp) nofun
  exact ⟨hown, (hown.used 0 (by decide)).mp fun hfree => absurd (hused.symm.trans hfree) nofun⟩

/-- Process 2 has touched its page, and waits for a message. -/
def touchRuns : Kernel := touchedRuns.after (.call .receive)

/-- Process 1 has killed process 2. -/
def leakRuns : Kernel := (touchRuns.after (.call (.kill 2))).after .cont

set_option maxRecDepth 100000 in
/-- What is computed about this run: no user process is left, and neither the frame that process 2
has touched nor its directory is free. -/
theorem leakRuns_facts : touchedRuns.CanStep (.call .receive) ∧ touchRuns.CanStep (.call (.kill 2)) ∧
    (touchRuns.after (.call (.kill 2))).CanStep .cont ∧
    (∀ n < 100, leakRuns.sys.state (n : ℕ) = .free ∨ leakRuns.sys.dirFrame (n : ℕ) = PT_FRAME) ∧
    ¬ FrameFree leakRuns.mem 0 ∧ ¬ PageFree leakRuns.mem (PT_FRAME + 26) := by
  decide +kernel

/-- The run that leaks the frames of a killed process is a safe one. -/
theorem leakRuns_reach : leakRuns.SafeReach := by
  obtain ⟨h₁, h₂, h₃, -⟩ := leakRuns_facts
  have hreach := touchedRuns_quiet.safe
  unfold leakRuns touchRuns at *
  generalize touchedRuns = k at *
  exact h₃.reach (h₂.reach (h₁.reach hreach trivial) trivial) trivial

/-- No user process is left at its end. -/
theorem leakRuns_users (p : ℤ) : ¬ IsUser leakRuns.sys p := by
  obtain ⟨-, -, -, hall, -⟩ := leakRuns_facts
  generalize leakRuns = k at *
  rintro ⟨⟨h0, h100⟩, hf, hd⟩
  obtain ⟨n, rfl⟩ := Int.eq_ofNat_of_zero_le h0
  have hn : (n : ℤ) < 100 := h100
  exact (hall n (by omega)).elim hf hd

/-- The frame that the killed process mapped stays in use. -/
theorem frame_leaked : ∃ k, k.SafeReach ∧ ¬ FrameOwnership k := by
  obtain ⟨-, -, -, -, hused, -⟩ := leakRuns_facts
  have hno := leakRuns_users
  have hreach := leakRuns_reach
  generalize leakRuns = k at *
  refine ⟨k, hreach, fun ho => ?_⟩
  obtain ⟨p, vp, hp⟩ := (ho.used 0 (by decide)).mp hused
  exact hno p hp.1

/-! ## Pages of the page-table area -/

/-- The page is one of the system directory and its tables. -/
def IsSystem (f : ℕ) : Prop := PT_FRAME ≤ f ∧ f < PT_FRAME + 26

/-- The page is the directory of the live process `p`. -/
def IsDirOf (k : Kernel) (p : ℤ) (f : ℕ) : Prop := IsUser k.sys p ∧ k.sys.dirFrame p = f

/-- The page is the private table of the present entry `i` of the directory of the live process `p`. -/
def IsTableOf (k : Kernel) (p : ℤ) (i f : ℕ) : Prop :=
  IsUser k.sys p ∧ 8 ≤ i ∧ i < 1024 ∧ (k.mem (k.sys.dirFrame p * 1024 + i)).pres = true ∧
    (k.mem (k.sys.dirFrame p * 1024 + i)).base.toNat = f

/-- The page has a role. -/
def HasRole (k : Kernel) (f : ℕ) : Prop :=
  IsSystem f ∨ (∃ p, IsDirOf k p f) ∨ ∃ p i, IsTableOf k p i f

/-- The page is one of the 1024 pages of the page-table area, which ends at `PD_PT_AREA_END`. -/
def InArea (f : ℕ) : Prop := PT_FRAME ≤ f ∧ f < PT_FRAME + MAX_PT_SIZE

/-- Every page of the page-table area has at most one role, and it is free for the allocators when
it has none. -/
structure PageOwnership (k : Kernel) : Prop where
  /-- A page with a role is one of the area. -/
  inArea : ∀ f, HasRole k f → InArea f
  /-- A directory belongs to one process. -/
  dir_inj : ∀ p q f, IsDirOf k p f → IsDirOf k q f → p = q
  /-- A page table belongs to one process, and to one entry of its directory. -/
  table_inj : ∀ p q i j f, IsTableOf k p i f → IsTableOf k q j f → p = q ∧ i = j
  /-- No page is a directory and a page table. -/
  not_dir_table : ∀ p q j f, IsDirOf k p f → ¬ IsTableOf k q j f
  /-- A page of the system tables is neither. -/
  not_system : ∀ f, IsSystem f → (∀ p, ¬ IsDirOf k p f) ∧ ∀ p i, ¬ IsTableOf k p i f
  /-- The allocators see a page as free exactly if it has no role. -/
  free_iff : ∀ f, InArea f → (PageFree k.mem f ↔ ¬ HasRole k f)

section

variable {k k' : Kernel} {g : PageMap}

/-- The directory of a live process has the role of a directory. -/
theorem IsDirOf.role (hg : VmInv k g) {p : ℤ} {f : ℕ} (h : IsDirOf k p f) : g.role f = .dir :=
  h.2 ▸ (hg.user h.1).2

/-- The table of a present entry has the role of a table. -/
theorem IsTableOf.role (hg : VmInv k g) {p : ℤ} {i f : ℕ} (h : IsTableOf k p i f) :
    g.role f = .table (k.sys.dirFrame p) i := by
  obtain ⟨hu, h8, hi, hp, rfl⟩ := h
  have hd := (hg.user hu).2
  exact hg.layout.table_role hd h8 (((hg.layout.dir _ hd).pres_iff i hi).mp hp)

/-- Without orphans, a page of the area without a role is free. -/
theorem hasRole_iff (hg : VmInv k g) (ho : ∀ d, ¬ Orphan k g d) {f : ℕ} (hf : InArea f) :
    HasRole k f ↔ g.role f ≠ .free := by
  -- Each directory has a process whose it is.
  have howner : ∀ d, g.role d = .dir → ∃ p, IsUser k.sys p ∧ k.sys.dirFrame p = d := by
    intro d hd
    by_contra hno
    exact ho d ⟨hd, fun p hu hp => hno ⟨p, hu, hp⟩⟩
  constructor
  · rintro (hs | ⟨p, hp⟩ | ⟨p, i, hp⟩)
    · rw [(hg.layout.role_system f).mpr hs]
      exact nofun
    · rw [hp.role hg]
      exact nofun
    · rw [hp.role hg]
      exact nofun
  -- A page that is not free is of the system, a directory or a private table.
  · intro hne
    cases hr : g.role f with
    | system => exact .inl ((hg.layout.role_system f).mp hr)
    | dir =>
      obtain ⟨p, hp⟩ := howner f hr
      exact .inr (.inl ⟨p, hp⟩)
    | table d i =>
      obtain ⟨hd, h8, hi, hb⟩ := hg.layout.table_dir f d i hr
      obtain ⟨p, hu, rfl⟩ := howner d hd
      have hD := hg.layout.dir _ hd
      have hle := hD.len_le
      exact .inr (.inr ⟨p, i, hu, h8, by omega, (hD.pres_iff i (by omega)).mpr hi, hb⟩)
    | free => exact absurd hr hne
    | outside =>
      have hout := (hg.layout.role_outside f).mp hr
      unfold InArea MAX_PT_SIZE at hf
      omega

/-- Without orphans the pages are owned. -/
theorem VmInv.pageOwnership (hg : VmInv k g) (ho : ∀ d, ¬ Orphan k g d) : PageOwnership k := by
  have huser : ∀ f, g.role f = .dir ∨ (∃ d i, g.role f = .table d i) →
      PT_FRAME + 26 ≤ f ∧ f < PT_FRAME + 1024 := by
    rintro f (hd | ⟨d, i, ht⟩)
    · exact hg.layout.dir_bounds hd
    · exact hg.layout.table_bounds ht
  refine ⟨?_, fun p q f hp hq => hg.inj p q hp.1 hq.1 (hp.2.trans hq.2.symm), fun p q i j f hp hq => ?_,
    fun p q j f hp hq => ?_, fun f hf => ⟨fun p hp => ?_, fun p i hp => ?_⟩, fun f hf => ?_⟩
  · rintro f (hs | ⟨p, hp⟩ | ⟨p, i, hp⟩)
    · have := hs.2
      exact ⟨hs.1, by simp only [MAX_PT_SIZE]; omega⟩
    · have := huser f (.inl (hp.role hg))
      exact ⟨by omega, this.2⟩
    · have := huser f (.inr ⟨_, _, hp.role hg⟩)
      exact ⟨by omega, this.2⟩
  · have he := (hp.role hg).symm.trans (hq.role hg)
    injection he with hd hi
    exact ⟨hg.inj p q hp.1 hq.1 hd, hi⟩
  · exact absurd ((hp.role hg).symm.trans (hq.role hg)) nofun
  · have := huser f (.inl (hp.role hg))
    have := hf.2
    omega
  · have := huser f (.inr ⟨_, _, hp.role hg⟩)
    have := hf.2
    omega
  · have hout : g.role f ≠ .outside := by
      rw [Ne, hg.layout.role_outside]
      unfold InArea MAX_PT_SIZE at hf
      omega
    rw [hg.layout.pageFree_iff hout, hasRole_iff hg ho hf, not_not]

/-- A request that finds no place in the present tables answers `SYSERR` when no page of the area is free. -/
theorem vmallocCall_full (hg : VmInv k g) (hu : IsUser k.sys k.sys.currpid) {nbytes fuel junk : ℕ}
    (hs : VmallocSafe k.mem (k.sys.dirFrame k.sys.currpid) (requestPages nbytes))
    (hplace : NoPlace k.mem (k.sys.dirFrame k.sys.currpid) (requestPages nbytes))
    (hfull : ∀ f, InArea f → ¬ PageFree k.mem f) (he : k.vmallocCall fuel nbytes junk = .ok k') :
    k'.sys.result k.sys.currpid = SYSERR := by
  obtain ⟨haddr, hd⟩ := hg.user hu
  obtain ⟨⟨res, c'⟩, hv, -, rfl⟩ := vmallocCall_ok.mp he
  rw [ret_result]
  have hspec := vmalloc_safe (c := k.cpu) hg.layout hd rfl hs fuel junk
  rw [← haddr] at hspec
  rcases hspec with ⟨hh, -⟩ | ⟨res', c'', hv', hres⟩
  · exact absurd (hh.symm.trans hv) nofun
  · have heq : (res', c'') = (res, c') := Res.ok.inj (hv'.symm.trans hv)
    injection heq with hr hc
    subst hr hc
    cases hres with
    | stop i m' va hi hn hfs hr =>
      exact absurd hplace (SafeResult.not_fresh_of_stop (c := k.cpu) hg.layout hd hfs hn)
    | fresh s frames m' hf hp hn hs' hlen hfree hm =>
      have hr := hfree 0 (by
        unfold tablesFor requestPages
        split_ifs <;> omega)
      have hb := hg.layout.free_bounds hr
      exact absurd (hg.layout.free_avail hr) (hfull _ ⟨by omega, by simp only [MAX_PT_SIZE]; omega⟩)
    | noRun hp hlen hroom hrun => rfl
    | full hp hlen => rfl

end

/-- **Pages are owned**: in every state that a run without kills of other user processes reaches,
every page of the area has at most one role and is free when it has none; an event gives a role to
free pages of the area only; and a `vmalloc` that needs a table when no page is left answers
`SYSERR`. -/
theorem page_ownership {k : Kernel} (h : k.PageReach) : PageOwnership k ∧
    (∀ e k' f, k.PageSafe e → k.Step e k' → HasRole k' f → HasRole k f ∨ PageFree k.mem f ∧ InArea f) ∧
    ∀ nbytes fuel junk k', k.Safe (.call (.vmalloc nbytes)) →
      NoPlace k.mem (k.sys.dirFrame k.sys.currpid) (requestPages nbytes) →
      (∀ f, InArea f → ¬ PageFree k.mem f) → k.vmallocCall fuel nbytes junk = .ok k' →
      k'.sys.result k.sys.currpid = SYSERR := by
  obtain ⟨g, hg, ho⟩ := page_inv h
  have hown := hg.pageOwnership ho
  refine ⟨hown, fun e k' f he hst hf => ?_, fun nbytes fuel junk k' hs hp hfull he =>
    vmallocCall_full hg hs.1 hs.2 hp hfull he⟩
  obtain ⟨g', hg', ho'⟩ := page_inv (.step h he hst)
  by_cases hr : HasRole k f
  · exact .inl hr
  · have hin := (hg'.pageOwnership ho').inArea f hf
    exact .inr ⟨(hown.free_iff f hin).mpr hr, hin⟩

/-- The pages are owned when process 2 has a heap: page 27 of the area, which is its table, is not
free and has a role. -/
theorem page_ownership_user : PageOwnership pageRuns ∧ HasRole pageRuns (PT_FRAME + 27) := by
  obtain ⟨-, -, -, havail⟩ := pageRuns_heap
  have hquiet := pageRuns_quiet
  generalize pageRuns = k at *
  have hown : PageOwnership k := by
    refine (page_ownership (hquiet.mono fun k e he => ⟨he.1, fun pid hp => ?_⟩)).1
    exact absurd (he.2.symm.trans hp) nofun
  have hin : InArea (PT_FRAME + 27) := ⟨Nat.le_add_right _ _, Nat.add_lt_add_left (by decide) _⟩
  refine ⟨hown, ?_⟩
  by_contra hno
  have hfree := (hown.free_iff _ hin).mpr hno
  exact absurd (hfree.symm.trans havail) (by decide)

/-- The directory of the killed process has no role and is not free. -/
theorem page_leaked : ∃ k, k.SafeReach ∧ ¬ PageOwnership k := by
  obtain ⟨-, -, -, -, -, hused⟩ := leakRuns_facts
  have hno := leakRuns_users
  have hreach := leakRuns_reach
  generalize leakRuns = k at *
  refine ⟨k, hreach, fun ho => hused ?_⟩
  refine (ho.free_iff (PT_FRAME + 26) ⟨Nat.le_add_right _ _, Nat.add_lt_add_left (by decide) _⟩).mpr ?_
  rintro (hs | ⟨p, hp⟩ | ⟨p, i, hp⟩)
  · exact absurd hs.2 (lt_irrefl _)
  · exact hno p hp.1
  · exact hno p hp.1

end Xinu
