import Xinu.Kernel.QueueRuns
import Xinu.Paging.BootSpec
import Xinu.Paging.FaultSpec
import Xinu.Paging.KillSpec
import Xinu.Paging.VmallocSpec

/-!
# Address spaces

`VmInv k g` ties the process table to the page-table area: every process has the system directory or
a user directory of the page map `g`, and no two processes share one. A step of the machine that is
safe (`Kernel.Safe`) keeps this, and `VmStep` lists what the step leaves of the directories: those
of other processes stay as they are.
-/

namespace Xinu

open Sys

/-! ## User processes -/

/-- The frame of the directory of a process. -/
def Sys.dirFrame (s : Sys) (p : ℤ) : ℕ := (s.proctab p).page_addr / PAGE_SIZE

/-- The process has been made by `vcreate`: it is in use, and its directory is not the system directory. -/
def IsUser (s : Sys) (p : ℤ) : Prop := IsPid p ∧ s.state p ≠ .free ∧ s.dirFrame p ≠ PT_FRAME

/-- What a process has for a directory. -/
inductive Space (g : PageMap) (p : ℤ) (addr : ℕ) : Prop where
  /-- The system directory. The address of the null process carries the flags of CR3. -/
  | system (hf : addr / PAGE_SIZE = PT_FRAME) (ha : p ≠ NULLPROC → addr = PAGE_DIR_ADDR_START)
  /-- A user directory. -/
  | user (d : ℕ) (ha : addr = d * 4096) (hd : g.role d = .dir)

/-- The process table agrees with the page map. -/
structure VmInv (k : Kernel) (g : PageMap) : Prop where
  /-- The tables of the kernel are in order. -/
  idle : Idle k.sys
  /-- Memory is laid out as the page map says. -/
  layout : Layout k.mem g
  /-- Every process has a directory, the system one or one of its own. -/
  space : ∀ p, IsPid p → k.sys.state p ≠ .free → Space g p (k.sys.proctab p).page_addr
  /-- Two user processes do not share a directory. -/
  inj : ∀ p q, IsUser k.sys p → IsUser k.sys q → k.sys.dirFrame p = k.sys.dirFrame q → p = q
  /-- CR3 points at the directory of the running process, unless that is about to release its memory. -/
  cr3 : k.sys.halted = false → k.sys.Cr3Ok ∨ k.sys.pend k.sys.currpid = .kill k.sys.currpid

/-- The address and the role of the directory of a user process. -/
theorem VmInv.user {k : Kernel} {g : PageMap} (h : VmInv k g) {p : ℤ} (hu : IsUser k.sys p) :
    (k.sys.proctab p).page_addr = k.sys.dirFrame p * 4096 ∧ g.role (k.sys.dirFrame p) = .dir := by
  obtain ⟨hp, hf, hd⟩ := hu
  cases h.space p hp hf with
  | system hs ha => exact absurd hs hd
  | user d ha hr =>
    have hdir : k.sys.dirFrame p = d := by
      unfold dirFrame
      rw [ha]
      exact Nat.mul_div_cancel d (by decide)
    rw [hdir]
    exact ⟨ha, hr⟩

/-! ## What a step leaves alone -/

/-- The entries of a directory and of its private tables are the same. -/
structure DirKept (m m' : Mem) (d : ℕ) : Prop where
  /-- The entries of the directory stay. -/
  dir : ∀ i < 1024, m' (d * 1024 + i) = m (d * 1024 + i)
  /-- The entries of its private tables stay. -/
  heap : ∀ w, OwnWord m d w → m' w = m w

/-- The word belongs neither to the directory nor to one of its tables. -/
def Outside (g : PageMap) (d w : ℕ) : Prop := w / 1024 ≠ d ∧ ∀ i, g.role (w / 1024) ≠ .table d i

section

variable {m m' : Mem} {g : PageMap} (h : Layout m g)

include h

/-- The entry of a heap page lies in a table of its directory. -/
theorem Layout.role_of_own {d w : ℕ} (hd : g.role d = .dir) (hw : OwnWord m d w) :
    ∃ i, g.role (w / 1024) = .table d i := by
  obtain ⟨vp, h8, hp, rfl⟩ := hw
  have hvp := (h.hasPte_iff hd vp).mp hp
  refine ⟨vp / 1024, ?_⟩
  rw [pteWord, show ((m (d * 1024 + vp / 1024)).base.toNat * 1024 + vp % 1024) / 1024 =
    (m (d * 1024 + vp / 1024)).base.toNat by omega]
  exact h.table_role hd (by omega) (by omega)

/-- A directory is kept when no word of it or of its tables changes. -/
theorem DirKept.of_changed {d : ℕ} (hd : g.role d = .dir)
    (hc : ∀ w, m' w ≠ m w → Outside g d w) : DirKept m m' d := by
  refine ⟨fun i hi => ?_, fun w hw => ?_⟩
  · by_contra hne
    exact (hc _ hne).1 (by omega)
  · by_contra hne
    obtain ⟨i, hi⟩ := h.role_of_own hd hw
    exact (hc w hne).2 i hi

/-- The entries of one user directory lie outside every other. -/
theorem outside_of_own {c d w : ℕ} (hc : g.role c = .dir) (hd : g.role d = .dir) (hne : d ≠ c)
    (hw : OwnWord m c w) : Outside g d w := by
  obtain ⟨i, hi⟩ := h.role_of_own hc hw
  refine ⟨fun he => ?_, fun j hj => ?_⟩
  · rw [he, hd] at hi
    cases hi
  · rw [hi] at hj
    injection hj with hj
    exact hne hj.symm

omit h in
/-- One user directory lies outside every other. -/
theorem outside_of_dir {c d w : ℕ} (hc : g.role c = .dir) (hne : d ≠ c) (hw : w / 1024 = c) :
    Outside g d w := by
  refine ⟨fun he => hne (he.symm.trans hw), fun j hj => ?_⟩
  rw [hw, hc] at hj
  cases hj

omit h in
/-- A free page lies outside every directory. -/
theorem outside_of_free {d w : ℕ} (hd : g.role d = .dir) (hf : g.role (w / 1024) = .free) :
    Outside g d w := by
  refine ⟨fun he => ?_, fun j hj => ?_⟩
  · rw [he, hd] at hf
    cases hf
  · rw [hf] at hj
    cases hj

/-- The entries of the FFS frames lie outside every directory. -/
theorem outside_of_ffs {d w : ℕ} (hd : g.role d = .dir) (hf : IsFfs w) : Outside g d w := by
  have hsys : g.role (w / 1024) = .system := by
    rw [h.role_system]
    rw [isFfs_iff] at hf
    omega
  refine ⟨fun he => ?_, fun j hj => ?_⟩
  · rw [he, hd] at hsys
    cases hsys
  · rw [hsys] at hj
    cases hj

end

/-- What a safe step leaves of the directories and of the processes. -/
structure VmStep (k : Kernel) (g : PageMap) (k' : Kernel) (g' : PageMap) : Prop where
  /-- The directories of the processes that are not running stay, with their entries. -/
  kept : ∀ d, g.role d = .dir → d ≠ k.sys.dirFrame k.sys.currpid →
    g'.role d = .dir ∧ DirKept k.mem k'.mem d
  /-- A new directory is that of a new process. -/
  dirs : ∀ d, g'.role d = .dir → g.role d = .dir ∨
    ∃ p, k.sys.state p = .free ∧ IsUser k'.sys p ∧ k'.sys.dirFrame p = d
  /-- The running process gives up its directory when it dies. -/
  gone : IsUser k.sys k.sys.currpid → k'.sys.state k.sys.currpid = .free →
    g'.role (k.sys.dirFrame k.sys.currpid) ≠ .dir
  /-- A process is freed by the end of a `kill` only. -/
  live : ∀ p, k.sys.state p ≠ .free → k'.sys.state p ≠ .free ∨ k.sys.pend k.sys.currpid = .kill p
  /-- A process that goes on living keeps its directory. -/
  page : ∀ p, k.sys.state p ≠ .free → k'.sys.state p ≠ .free →
    (k'.sys.proctab p).page_addr = (k.sys.proctab p).page_addr

/-- A result of a step is safe: it is not a wild one, and the state that it ends with satisfies the
invariant. -/
def SafeEnd (k : Kernel) (g : PageMap) (r : Res Kernel) : Prop :=
  r ≠ .wild ∧ ∀ k', r = .ok k' → ∃ g', VmInv k' g' ∧ VmStep k g k' g'

/-! ## Steps on the tables of the kernel -/

section

variable {k k' : Kernel} {g : PageMap}

/-- When the running process has nothing left to do in the kernel, CR3 points at its directory. -/
theorem VmInv.cr3Ok (h : VmInv k g) (hh : k.sys.halted = false)
    (hp : k.sys.pend k.sys.currpid ≠ .kill k.sys.currpid) : k.sys.Cr3Ok := (h.cr3 hh).resolve_right hp

/-- A change of the tables that keeps directories, or gives out the system directory. It may start
with another CR3. -/
theorem VmInv.keeps (h : VmInv k g) {s : Sys} (hs : s.proctab = k.sys.proctab) (hi : Idle k'.sys)
    (hk : Keeps s k'.sys) (hm : k'.mem = k.mem) (hc : k'.sys.halted = false → k'.sys.Cr3Ok ∨
      k'.sys.pend k'.sys.currpid = .kill k'.sys.currpid) :
    VmInv k' g ∧ VmStep k g k' g := by
  have hst : ∀ p, s.state p = k.sys.state p := fun p => by
    unfold state
    -- The tables of the processes that lived before are those of the state in between.
    rw [hs]
  have hpage : ∀ p, k.sys.state p ≠ .free → (k'.sys.proctab p).page_addr = (k.sys.proctab p).page_addr := by
    intro p hp
    rw [← hs]
    exact hk.page p (by rw [hst]; exact hp)
  have hfresh : ∀ p, k.sys.state p = .free → k'.sys.state p ≠ .free →
      (k'.sys.proctab p).page_addr = PAGE_DIR_ADDR_START := fun p hp => hk.fresh p ((hst p).trans hp)
  have hlive : ∀ p, k.sys.state p ≠ .free → k'.sys.state p ≠ .free :=
    fun p hp => hk.live p (by rw [hst]; exact hp)
  -- A user process was one before, in the same directory.
  have hold : ∀ p, IsUser k'.sys p → IsUser k.sys p ∧ k'.sys.dirFrame p = k.sys.dirFrame p := by
    rintro p ⟨hp, hf, hd⟩
    by_cases hf' : k.sys.state p = .free
    · -- A process made in the meantime has the system directory.
      exfalso
      refine hd ?_
      unfold dirFrame
      rw [hfresh p hf' hf]
    · have he : k'.sys.dirFrame p = k.sys.dirFrame p := by
        unfold dirFrame
        rw [hpage p hf']
      exact ⟨⟨hp, hf', he ▸ hd⟩, he⟩
  refine ⟨⟨hi, hm ▸ h.layout, fun p hp hf => ?_, fun p q hp hq he => ?_, hc⟩, fun d hd _ => ⟨hd, ?_⟩,
    fun d hd => .inl hd, fun hu hf => absurd hf (hlive _ hu.2.1), fun p hp => .inl (hlive p hp),
    fun p hp _ => hpage p hp⟩
  · by_cases hf' : k.sys.state p = .free
    · rw [hfresh p hf' hf]
      exact .system rfl fun _ => rfl
    · rw [hpage p hf']
      exact h.space p hp hf'
  · obtain ⟨hp', hpe⟩ := hold p hp
    obtain ⟨hq', hqe⟩ := hold q hq
    exact h.inj p q hp' hq' (hpe.symm.trans (he.trans hqe))
  · rw [hm]
    exact ⟨fun _ _ => rfl, fun _ _ => rfl⟩

/-- A step on the tables, when CR3 points at the directory of the running process. -/
theorem VmInv.keeps_ok (h : VmInv k g) (hi : Idle k'.sys) (hk : Keeps k.sys k'.sys)
    (hm : k'.mem = k.mem) (hc : k.sys.Cr3Ok) : VmInv k' g ∧ VmStep k g k' g := by
  refine h.keeps rfl hi hk hm fun _ => .inl ?_
  rcases hk.cr3 with ⟨hcur, hr⟩ | hok
  · exact hc.congr hcur hr (hk.page _ hc.2) (hk.live _ hc.2)
  · exact hok

/-- A call that works on the tables only, and keeps the directories, ends safely. -/
theorem SafeEnd.of_keeps (h : VmInv k g) (hc : k.sys.Cr3Ok) {r : Res Kernel}
    (hr : r.Ends fun k' => (Idle k'.sys ∧ Keeps k.sys k'.sys) ∧ k'.mem = k.mem) : SafeEnd k g r := by
  obtain ⟨k', rfl, ⟨hi, hk⟩, hm⟩ := hr
  refine ⟨nofun, fun k'' he => ?_⟩
  injection he with he
  subst he
  exact ⟨g, h.keeps_ok hi hk hm hc⟩

end

/-! ## Steps on memory -/

section

variable {k k' : Kernel} {g g' : PageMap}

/-- A change of memory within the directory of the running process. -/
theorem VmInv.mem_step (h : VmInv k g) (hi : Idle k'.sys) (hp : k'.sys.proctab = k.sys.proctab)
    (hok : k'.sys.Cr3Ok) (hl : Layout k'.mem g') (hdir : ∀ d, g'.role d = .dir ↔ g.role d = .dir)
    (hkept : ∀ d, g.role d = .dir → d ≠ k.sys.dirFrame k.sys.currpid → DirKept k.mem k'.mem d) :
    VmInv k' g' ∧ VmStep k g k' g' := by
  have huser : ∀ p, IsUser k'.sys p ↔ IsUser k.sys p := by
    intro p
    unfold IsUser dirFrame state
    rw [hp]
  refine ⟨⟨hi, hl, fun p hpid hf => ?_, fun p q hup huq he => ?_, fun _ => .inl hok⟩,
    fun d hd hne => ⟨(hdir d).mpr hd, hkept d hd hne⟩, fun d hd => .inl ((hdir d).mp hd),
    fun hu hf => absurd hf ((huser _).mpr hu).2.1, fun p hf => .inl ?_, fun p _ _ => by rw [hp]⟩
  · unfold state at hf
    rw [hp] at hf ⊢
    cases h.space p hpid hf with
    | system hs ha => exact .system hs ha
    | user d ha hd => exact .user d ha ((hdir d).mpr hd)
  · unfold dirFrame at he
    rw [hp] at he
    exact h.inj p q ((huser p).mp hup) ((huser q).mp huq) he
  · unfold state at hf ⊢
    rw [hp]
    exact hf

/-- The queues do not depend on CR3, the interrupt masks and the answers. -/
theorem Idle.withCpu (h : Idle k.sys) (c : Cpu) : Idle (k.withCpu c).sys :=
  h.congr rfl rfl rfl (fun _ => rfl) rfl (fun _ => rfl) (fun _ => rfl) rfl rfl

/-- CR3 as the paging functions leave it. -/
theorem cr3Ok_withCpu {c : Cpu} (hf : k.sys.state k.sys.currpid ≠ .free)
    (hc : c.cr3 / PAGE_SIZE = k.sys.dirFrame k.sys.currpid) : (k.withCpu c).sys.Cr3Ok := ⟨hc, hf⟩

/-- While CR3 has not changed, it holds the directory of the current process. -/
theorem dirFrame_of_cr3Ok (h : k.sys.Cr3Ok) : k.sys.cr3 / PAGE_SIZE = k.sys.dirFrame k.sys.currpid := h.1

/-- Giving an answer changes nothing that matters to address spaces. -/
theorem SafeEnd.ret (h : ∃ g', VmInv k' g' ∧ VmStep k g k' g') (v : ℤ) :
    ∃ g', VmInv (k'.ret v) g' ∧ VmStep k g (k'.ret v) g' := by
  obtain ⟨g', hinv, hstep⟩ := h
  exact ⟨g', ⟨hinv.idle.ret v, hinv.layout, hinv.space, hinv.inj, hinv.cr3⟩,
    ⟨hstep.kept, hstep.dirs, hstep.gone, hstep.live, hstep.page⟩⟩

/-- A safe `vmalloc` of a user process. -/
theorem vmallocCall_safe (h : VmInv k g) (hc : k.sys.Cr3Ok) (hu : IsUser k.sys k.sys.currpid) {nbytes : ℕ}
    (hs : VmallocSafe k.mem (k.sys.dirFrame k.sys.currpid) (requestPages nbytes)) (fuel junk : ℕ) :
    SafeEnd k g (k.vmallocCall fuel nbytes junk) := by
  obtain ⟨haddr, hd⟩ := h.user hu
  unfold Kernel.vmallocCall Kernel.currAddr
  rw [haddr]
  rcases vmalloc_safe (c := k.cpu) h.layout hd rfl hs fuel junk with ⟨hh, -⟩ | ⟨res, c', he, hr⟩
  · rw [hh]
    exact ⟨nofun, nofun⟩
  · rw [he]
    refine ⟨nofun, fun k' hk' => ?_⟩
    injection hk' with hk'
    subst hk'
    refine SafeEnd.ret ?_ _
    obtain ⟨⟨g', hl, hdir⟩, hchg⟩ := hr.layout h.layout hd
    have hcr3 : c'.cr3 = k.sys.cr3 := by cases hr <;> rfl
    refine ⟨g', h.mem_step (Idle.withCpu h.idle c') rfl (cr3Ok_withCpu hc.2 ?_) hl hdir fun d hd' hne => ?_⟩
    · rw [hcr3]
      exact hc.1
    · refine DirKept.of_changed h.layout hd' fun w hw => ?_
      rcases hchg w hw with ho | ⟨i, -, hi, hwd, -⟩ | hf
      · exact outside_of_own h.layout hd hd' hne ho
      · exact outside_of_dir hd hne (by omega)
      · by_cases hout : g.role (w / 1024) = .outside
        · refine ⟨fun he => ?_, fun j hj => ?_⟩
          · rw [he, hd'] at hout
            cases hout
          · rw [hout] at hj
            cases hj
        · exact outside_of_free hd' ((h.layout.pageFree_iff hout).mp hf)

/-- A safe `vfree` of a user process. -/
theorem vfreeCall_safe (h : VmInv k g) (hc : k.sys.Cr3Ok) (hu : IsUser k.sys k.sys.currpid) {ptr nbytes : ℕ}
    (hp : ptr < 2 ^ 32) (hn : nbytes < 2 ^ 32)
    (hs : VfreeSafe k.mem (k.sys.dirFrame k.sys.currpid) ptr (nbytes / 4096)) :
    SafeEnd k g (k.vfreeCall ptr nbytes) := by
  obtain ⟨haddr, hd⟩ := h.user hu
  obtain ⟨s, m', he, hl, hother⟩ := vfree_layout (c := k.cpu) h.layout hd hp hn hs
  unfold Kernel.vfreeCall Kernel.currAddr
  rw [haddr, he]
  refine ⟨nofun, fun k' hk' => ?_⟩
  injection hk' with hk'
  subst hk'
  refine SafeEnd.ret ⟨g, h.mem_step (Idle.withCpu h.idle (k.cpu.withMem m')) rfl (cr3Ok_withCpu hc.2 hc.1) hl
    (fun _ => Iff.rfl) fun d hd' hne => DirKept.of_changed h.layout hd' fun w hw => ?_⟩ _
  by_cases ho : OwnWord k.mem (k.sys.dirFrame k.sys.currpid) w
  · exact outside_of_own h.layout hd hd' hne ho
  · by_cases hf : IsFfs w
    · exact outside_of_ffs h.layout hd' hf
    · exact absurd (hother w ho hf) hw

/-- A step that changes nothing but CR3 and the interrupt mask, and leaves CR3 right. -/
theorem withCpu_safe (h : VmInv k g) {c : Cpu} (hm : c.mem = k.mem) (hf : k.sys.state k.sys.currpid ≠ .free)
    (hc : c.cr3 / PAGE_SIZE = k.sys.dirFrame k.sys.currpid) :
    ∃ g', VmInv (k.withCpu c) g' ∧ VmStep k g (k.withCpu c) g' := by
  refine ⟨g, h.mem_step (Idle.withCpu h.idle c) rfl (cr3Ok_withCpu hf hc) ?_
    (fun _ => Iff.rfl) fun d hd _ => ?_⟩
  · change Layout c.mem g
    rw [hm]
    exact h.layout
  · change DirKept k.mem c.mem d
    rw [hm]
    exact ⟨fun _ _ => rfl, fun _ _ => rfl⟩

/-- `free_ffs_pages` keeps the invariant of memory. -/
theorem freeFfsPagesCall_safe (h : VmInv k g) (hc : k.sys.Cr3Ok) : SafeEnd k g (.ok k.freeFfsPagesCall) := by
  refine ⟨nofun, fun k' hk' => ?_⟩
  injection hk' with hk'
  subst hk'
  refine SafeEnd.ret (withCpu_safe h rfl hc.2 ?_) _
  exact Cpu.cr3At_div _ _

/-- The two counters that take a process are safe when the directory and the tables that they read
are mapped. -/
theorem countPages_safe (h : VmInv k g) (hc : k.sys.Cr3Ok) {addr start : ℕ} {p : Entry → Bool}
    (hm : Mapped (addr / 4 + (MAX_PT_SIZE - 1)) ∧ TablesMapped k.mem (addr / 4) start) :
    SafeEnd k g (do
      let r ← countPages k.cpu k.currAddr addr start p
      .ok ((k.withCpu r.2).ret r.1)) := by
  have he : countPages k.cpu k.currAddr addr start p = .ok (countEntries k.mem (addr / 4) start p,
      (((k.cpu.disable.2.writeCr3 (k.cpu.disable.2.cr3At PAGE_DIR_ADDR_START)).writeCr3
        ((k.cpu.disable.2.writeCr3 (k.cpu.disable.2.cr3At PAGE_DIR_ADDR_START)).cr3At k.currAddr)).restore
          k.cpu.disable.1)) := by
    unfold countPages
    exact if_pos hm
  rw [he]
  refine ⟨nofun, fun k' hk' => ?_⟩
  injection hk' with hk'
  subst hk'
  refine SafeEnd.ret (withCpu_safe h rfl hc.2 ?_) _
  exact Cpu.cr3At_div _ _

/-! ## Page faults -/

/-- The address of an absent page is not below the end of what the system directory maps, so it is
not valid there. -/
theorem pagefaultHandler_system {c : Cpu} (h : Layout c.mem g) {v : ℕ} (hv : v < 2 ^ 32)
    (ha : PD_PT_AREA_END ≤ v) :
    pagefaultHandler c PAGE_DIR_ADDR_START v = .ok (.segv (c.writeCr3 (c.cr3At PAGE_DIR_ADDR_START))) := by
  have h25 : 25 ≤ v / 2 ^ 22 := by
    have hend : PD_PT_AREA_END = 25 * 2 ^ 22 := by decide
    omega
  have hinv := h.system_absent (v / 2 ^ 22) (by omega) h25
  unfold pagefaultHandler
  refine if_neg fun hc => ?_
  exact absurd (hinv.symm.trans hc) nofun

/-- The process that has touched an absent address does not have it present. -/
theorem not_present_of_absent (hc : k.sys.Cr3Ok) (hu : IsUser k.sys k.sys.currpid) {v : ℕ} (ha : k.Absent v) :
    ¬ PagePresent k.mem (k.sys.dirFrame k.sys.currpid) (v / 4096) := by
  have h := ha.2
  rw [dirFrame_of_cr3Ok hc, if_neg hu.2.2] at h
  exact fun hp => h ⟨hp.1.1, hp.1.2, hp.2⟩

/-- A segmentation fault starts the killing of the running process. -/
theorem segv_safe (h : VmInv k g) (hn : k.sys.currpid ≠ NULLPROC) (c : ℕ) :
    SafeEnd k g (do
      let s ← { k.sys with cr3 := c }.killStart k.sys.currpid
      .ok ⟨s, k.mem⟩) := by
  have hi : Idle { k.sys with cr3 := c } :=
    h.idle.congr rfl rfl rfl (fun _ => rfl) rfl (fun _ => rfl) (fun _ => rfl) rfl rfl
  obtain ⟨s', hs', hi', hk⟩ := killStart_spec hi k.sys.currpid
  obtain ⟨s'', hs'', hself⟩ := killStart_self hi hn
  change Sys.killStart _ k.sys.currpid = _ at hs''
  rw [hs'] at hs''
  injection hs'' with he
  subst he
  rw [hs']
  refine ⟨nofun, fun k' hk' => ?_⟩
  injection hk' with hk'
  subst hk'
  refine ⟨g, h.keeps (s := { k.sys with cr3 := c }) rfl hi' hk rfl fun hh => ?_⟩
  rcases hself with hhalt | ⟨hpend, hcur | hok⟩
  · exact absurd (hhalt.symm.trans hh) nofun
  · exact .inr (by rw [hcur]; exact hpend)
  · exact .inl hok

/-- A page fault of a user process returns or ends the process, and keeps the invariant. -/
theorem fault_safe (h : VmInv k g) (hc : k.sys.Cr3Ok) (hn : k.sys.currpid ≠ NULLPROC)
    {v : ℕ} (ha : k.Absent v) :
    SafeEnd k g (k.fault v) := by
  have hpid := h.idle.states.currpid
  by_cases hu : k.sys.dirFrame k.sys.currpid = PT_FRAME
  · -- The process has the system directory.
    have hv : PD_PT_AREA_END ≤ v := by
      have := ha.2
      rwa [dirFrame_of_cr3Ok hc, if_pos hu] at this
    have haddr : k.currAddr = PAGE_DIR_ADDR_START := by
      cases h.space _ hpid hc.2 with
      | system hs haddr => exact haddr hn
      | user d hd hr =>
        have hb := h.layout.dir_bounds hr
        unfold dirFrame at hu
        rw [hd, show d * 4096 / PAGE_SIZE = d from Nat.mul_div_cancel d (by decide)] at hu
        omega
    unfold Kernel.fault
    rw [haddr, pagefaultHandler_system (c := k.cpu) h.layout ha.1 hv]
    simp only [Res.ok_bind]
    rw [if_neg hn]
    exact segv_safe h hn _
  · have hu' : IsUser k.sys k.sys.currpid := ⟨hpid, hc.2, hu⟩
    -- The process has its own directory; the fault is on a page of its heap.
    obtain ⟨haddr, hd⟩ := h.user hu'
    have habs := not_present_of_absent hc hu' ha
    have h8 := heap_of_fault h.layout hd habs
    unfold Kernel.fault Kernel.currAddr
    rw [haddr]
    rcases pagefaultHandler_spec (c := k.cpu) h.layout hd ha.1 habs with ⟨hval, m', he, hl, hm⟩ | ⟨hval, he⟩
    · rw [he]
      refine ⟨nofun, fun k' hk' => ?_⟩
      injection hk' with hk'
      subst hk'
      refine ⟨g, h.mem_step (Idle.withCpu h.idle _) rfl (cr3Ok_withCpu hc.2 ?_) hl (fun _ => Iff.rfl)
        -- The handler has written the entry of the page and that of a frame, of no other directory.
        fun d' hd' hne => DirKept.of_changed h.layout hd' fun w hw => ?_⟩
      · rw [Cpu.writeCr3_cr3, Cpu.cr3At_div]
        exact Nat.mul_div_cancel _ (by decide)
      · rcases hm with ⟨j, hj⟩ | ⟨rfl, -⟩
        · by_cases hwp : w = pteWord k.mem (k.sys.dirFrame k.sys.currpid) (v / 4096)
          · exact outside_of_own h.layout hd hd' hne ⟨v / 4096, h8, hval.1, hwp.symm⟩
          · by_cases hwf : w = FFS_WORD + j
            · refine outside_of_ffs h.layout hd' ?_
              rw [hwf]
              exact Layout.isFfs_add hj.bound
            · exact absurd (hj.other w hwp hwf) hw
        · exact absurd rfl hw
    -- The page is not valid: the process is killed.
    · rw [he]
      simp only [Res.ok_bind]
      rw [if_neg hn]
      exact segv_safe h hn _

/-! ## Creating and killing processes -/

/-- CR3 points at the directory that has been loaded. -/
theorem loadCr3_div (s : Sys) (addr : ℕ) : (s.loadCr3 addr).cr3 / PAGE_SIZE = addr / PAGE_SIZE := by
  unfold loadCr3
  simp only [PAGE_SIZE]
  omega

/-- A call of `vcreate` that finds no entry, or no stack, leaves CR3 at the system directory. -/
theorem vcreate_fails (h : VmInv k g) (hu : ¬ IsUser k.sys k.sys.currpid)
    {ssize : ℕ} {priority : Int16} {n : ℤ}
    (he : k.sys.newProcess ssize priority 0 = (none, { k.sys with nextpid := n })) :
    SafeEnd k g (k.vcreate ssize priority) := by
  unfold Kernel.vcreate
  rw [he]
  refine ⟨nofun, fun k' hk' => ?_⟩
  injection hk' with hk'
  subst hk'
  have hi : Idle ((Sys.loadCr3 { k.sys with nextpid := n } PAGE_DIR_ADDR_START).ret SYSERR) :=
    h.idle.congr rfl rfl rfl (fun _ => rfl) rfl (fun _ => rfl) (fun _ => rfl) rfl rfl
  refine ⟨g, h.mem_step hi rfl ⟨?_, h.idle.curr_live⟩ h.layout (fun _ => Iff.rfl)
    fun _ _ _ => ⟨fun _ _ => rfl, fun _ _ => rfl⟩⟩
  -- The caller has the system directory, so that CR3 is right by chance.
  have hsys : k.sys.dirFrame k.sys.currpid = PT_FRAME := by
    by_contra hne
    exact hu ⟨h.idle.states.currpid, h.idle.curr_live, hne⟩
  exact (loadCr3_div _ _).trans hsys.symm

/-- The tables after a call of `vcreate` that works. -/
def Sys.vcreated (s : Sys) (pid : ℤ) (addr : ℕ) : Sys :=
  let s := (s.loadCr3 PAGE_DIR_ADDR_START).setProc pid fun p => { p with page_addr := addr }
  (s.loadCr3 (s.proctab s.currpid).page_addr).ret pid

/-- What a call of `vcreate` that works changes of the tables. -/
structure Vcreated (s s' : Sys) (pid : ℤ) (addr : ℕ) : Prop where
  /-- The tables of the kernel are in order. -/
  idle : Idle s'
  /-- The new process has the directory. -/
  page : (s'.proctab pid).page_addr = addr
  /-- It is suspended. -/
  state : s'.state pid = .susp
  /-- The other entries stay as they are. -/
  other : ∀ p, p ≠ pid → s'.proctab p = s.proctab p
  /-- The same process goes on. -/
  currpid : s'.currpid = s.currpid
  /-- CR3 is that of the process that runs. -/
  cr3 : s'.Cr3Ok

/-- The new process is suspended, and has the new directory. -/
theorem Sys.Created.vcreated {s s' : Sys} {pid : ℤ} (hc : Created s s' pid 0)
    (hcurr : s.state s.currpid = .curr)
    (addr : ℕ) : Vcreated s (s'.vcreated pid addr) pid addr := by
  have hother : ∀ p, p ≠ pid → (s'.vcreated pid addr).proctab p = s.proctab p :=
    fun p hne => (setProc_other hne s' fun p => { p with page_addr := addr }).trans (hc.other p hne)
  have hself : (s'.vcreated pid addr).proctab pid = { s'.proctab pid with page_addr := addr } :=
    setProc_same s' pid fun p => { p with page_addr := addr }
  have hproc : ∀ p, ((s'.vcreated pid addr).proctab p).prstate = (s'.proctab p).prstate ∧
      ((s'.vcreated pid addr).proctab p).prsem = (s'.proctab p).prsem := by
    intro p
    rcases eq_or_ne p pid with rfl | hne
    · rw [hself]
      exact ⟨rfl, rfl⟩
    · rw [hother p hne, hc.other p hne]
      exact ⟨rfl, rfl⟩
  have hne : s.currpid ≠ pid := by
    intro hp
    rw [hp, hc.was] at hcurr
    cases hcurr
  refine ⟨hc.idle.congr rfl rfl rfl (fun _ => rfl) rfl (fun x => (hproc x).1) (fun x => (hproc x).2) rfl rfl,
    by rw [hself], ?_, hother, hc.currpid,
    loadCr3_div ((s'.loadCr3 PAGE_DIR_ADDR_START).setProc pid fun p => { p with page_addr := addr }) _, ?_⟩
  · unfold Sys.state
    rw [hself]
    exact hc.entry.1
  · rw [show (s'.vcreated pid addr).currpid = s.currpid from hc.currpid, Sys.state, hother _ hne]
    intro hf
    cases hf.symm.trans hcurr

/-- If a page is unused, the search of `vcreate` finds one. -/
theorem firstUnusedPage_some {m : Mem} (h : ∃ p < 1024, (m ((PT_FRAME + p) * 1024)).exist = false) :
    ∃ p, firstUnusedPage m = some p ∧ p < 1024 ∧ (m ((PT_FRAME + p) * 1024)).exist = false := by
  unfold firstUnusedPage
  cases hf : (List.range MAX_PT_SIZE).find? fun p => !(m ((PT_FRAME + p) * MAX_PT_SIZE)).exist with
  | some p =>
    rw [List.find?_range_eq_some] at hf
    exact ⟨p, rfl, List.mem_range.mp hf.2.1, by simpa using hf.1⟩
  | none =>
    rw [List.find?_range_eq_none] at hf
    obtain ⟨p, hp, hex⟩ := h
    have hused := hf p hp
    rw [show (m ((PT_FRAME + p) * MAX_PT_SIZE)).exist = false from hex] at hused
    exact absurd hused nofun

/-- Making a directory of a free page keeps the directories that there are: only the new page is
written. -/
theorem initUserDir_kept {m : Mem} {f d : ℕ} (h : Layout m g) (hf : g.role f = .free) (hd : g.role d = .dir) :
    (g.addDir f).role d = .dir ∧ DirKept m (initUserDir m f) d := by
  have hne : d ≠ f := fun he => by rw [he, hf] at hd; cases hd
  refine ⟨(Function.update_of_ne hne _ _).trans hd, DirKept.of_changed h hd fun w hw => ?_⟩
  refine outside_of_free hd ?_
  by_contra hnr
  refine hw (initUserDir_other ?_)
  have hwf : w / 1024 ≠ f := fun he => hnr (he ▸ hf)
  omega

/-- A call of `vcreate` that finds a free page is safe. -/
theorem vcreate_works (h : VmInv k g) {ssize : ℕ} {priority : Int16} {pid : ℤ} {s' : Sys}
    (he : k.sys.newProcess ssize priority 0 = (some pid, s')) (hc : Created k.sys s' pid 0)
    (hfree : ∃ p < 1024, (k.mem ((PT_FRAME + p) * 1024)).exist = false) :
    SafeEnd k g (k.vcreate ssize priority) := by
  -- The first unused page is found, and the layout says that it is free.
  obtain ⟨p, hfind, hp, hex⟩ := firstUnusedPage_some hfree
  have hrole : g.role (PT_FRAME + p) = .free := (h.layout.exist_iff (h.layout.role_page_ne_outside hp)).mp hex
  generalize hf : PT_FRAME + p = f at *
  -- The new process has the page as its directory.
  have hv := hc.vcreated h.idle.curr (f * PAGE_SIZE)
  have heq : k.vcreate ssize priority = .ok ⟨s'.vcreated pid (f * PAGE_SIZE), initUserDir k.mem f⟩ := by
    unfold Kernel.vcreate
    rw [he]
    dsimp only
    unfold initializeUserPageDir
    rw [hfind]
    dsimp only
    rw [hf]
    rfl
  rw [heq]
  generalize s'.vcreated pid (f * PAGE_SIZE) = s at *
  refine ⟨nofun, fun k' hk' => ?_⟩
  injection hk' with hk'
  subst hk'
  -- The roles of the other pages stay.
  have hadd : ∀ x, (g.addDir f).role x = if x = f then .dir else g.role x := fun x => Function.update_apply ..
  have hnf : ∀ {d}, g.role d = .dir → d ≠ f := by
    rintro d hd rfl
    rw [hrole] at hd
    cases hd
  have hnew : s.dirFrame pid = f := by
    unfold dirFrame
    rw [hv.page]
    exact Nat.mul_div_cancel f (by decide)
  have hold : ∀ p, p ≠ pid → s.dirFrame p = k.sys.dirFrame p ∧ s.state p = k.sys.state p := by
    intro p hne
    unfold dirFrame state
    rw [hv.other p hne]
    exact ⟨rfl, rfl⟩
  have hfb := h.layout.free_bounds hrole
  have huser : ∀ p, p ≠ pid → IsUser s p → IsUser k.sys p := by
    rintro p hne ⟨h₁, h₂, h₃⟩
    rw [(hold p hne).1] at h₃
    rw [(hold p hne).2] at h₂
    exact ⟨h₁, h₂, h₃⟩
  have hdir : ∀ p, p ≠ pid → IsUser s p → s.dirFrame p ≠ f := by
    intro p hne hp
    rw [(hold p hne).1]
    exact hnf (h.user (huser p hne hp)).2
  have hcurr : k.sys.currpid ≠ pid := fun hp => h.idle.curr_live (by rw [hp]; exact hc.was)
  refine ⟨g.addDir f, ⟨hv.idle, h.layout.initUserDir hrole, fun p hp hf' => ?_, fun p q hp hq hpq => ?_,
    fun _ => .inl hv.cr3⟩, fun d hd _ => initUserDir_kept h.layout hrole hd, fun d hd => ?_,
    fun hu hf => absurd ((hold _ hcurr).2.symm.trans hf) hu.2.1,
    fun p hp => .inl ?_, fun p hp _ => ?_⟩
  -- Each process is in its directory: the new one in the new page.
  · rcases eq_or_ne p pid with rfl | hne
    · exact .user f hv.page (by rw [hadd, if_pos rfl])
    · dsimp only at hf' ⊢
      rw [hv.other p hne]
      cases h.space p hp (by rw [← (hold p hne).2]; exact hf') with
      | system hs ha => exact .system hs ha
      | user d ha hd => exact .user d ha (by rw [hadd, if_neg (hnf hd)]; exact hd)
  -- And no two of them are in one, as the new page was free.
  · rcases eq_or_ne p pid with rfl | hp'
    · rcases eq_or_ne q p with rfl | hq'
      · rfl
      · exact absurd (hpq.symm.trans hnew) (hdir q hq' hq)
    · rcases eq_or_ne q pid with rfl | hq'
      · exact absurd (hpq.trans hnew) (hdir p hp' hp)
      · refine h.inj p q (huser p hp' hp) (huser q hq' hq) ?_
        rw [← (hold p hp').1, ← (hold q hq').1]
        exact hpq
  -- A directory is the new one, or was one before.
  · rw [hadd] at hd
    split_ifs at hd with hdf
    · refine .inr ⟨pid, hc.was, ⟨hc.isPid, ?_, ?_⟩, hnew.trans hdf.symm⟩
      · dsimp only
        rw [hv.state]
        exact nofun
      · dsimp only
        rw [hnew]
        omega
    · exact .inl hd
  · have hne : p ≠ pid := fun he => hp (he ▸ hc.was)
    dsimp only
    rw [(hold p hne).2]
    exact hp
  · have hne : p ≠ pid := fun he => hp (he ▸ hc.was)
    exact congrArg Procent.page_addr (hv.other p hne)

/-- The end of `kill` for a process that is not the running one leaves its directory where it is. -/
theorem killEnd_other_safe (h : VmInv k g) (hh : k.sys.halted = false) {pid : ℤ}
    (hpend : k.sys.pend k.sys.currpid = .kill pid) (hc : k.sys.state pid ≠ .curr) :
    SafeEnd k g (k.killEnd pid) := by
  obtain ⟨hp, hn⟩ := h.idle.states.kill_pid _ _ hpend
  obtain ⟨s', he, hr⟩ := killEnd_other h.idle hp hn hc
  -- The process that is killed is not the running one.
  have hpc : pid ≠ k.sys.currpid := by
    rintro rfl
    exact hc h.idle.curr
  have hcr3 := h.cr3Ok hh (by rw [hpend]; exact fun he => hpc (Pend.kill.inj he))
  rw [he]
  refine ⟨nofun, fun k' hk' => ?_⟩
  injection hk' with hk'
  subst hk'
  have hlive : ∀ p, s'.state p ≠ .free → p ≠ pid := fun p hp he => hp (he ▸ hr.state)
  have hstate : ∀ p, p ≠ pid → s'.state p = k.sys.state p :=
    fun p hne => congrArg Procent.prstate (hr.other p hne)
  have hdf : ∀ p, p ≠ pid → s'.dirFrame p = k.sys.dirFrame p := fun p hne => by
    unfold dirFrame
    rw [hr.other p hne]
  -- The user processes that are left were user processes, in the same directories.
  have huser : ∀ p, IsUser s' p → p ≠ pid ∧ IsUser k.sys p := by
    rintro p ⟨h₁, h₂, h₃⟩
    have hne := hlive p h₂
    rw [hdf p hne] at h₃
    rw [hstate p hne] at h₂
    exact ⟨hne, h₁, h₂, h₃⟩
  -- Memory is not touched, so the layout stays, with the directory of the process that is gone.
  refine ⟨g, ⟨hr.idle, h.layout, fun p hp hf => ?_, fun p q hp hq he => ?_, fun _ => .inl ?_⟩,
    fun d hd _ => ⟨hd, fun _ _ => rfl, fun _ _ => rfl⟩, fun d hd => .inl hd,
    fun hu hf => absurd ((hstate _ hpc.symm).symm.trans hf) hu.2.1, fun p hp => ?_, fun p _ hp => ?_⟩
  · have hne := hlive p hf
    dsimp only at hf ⊢
    rw [hr.other p hne]
    exact h.space p hp (by rw [← hstate p hne]; exact hf)
  · obtain ⟨hp', hup⟩ := huser p hp
    obtain ⟨hq', huq⟩ := huser q hq
    refine h.inj p q hup huq ?_
    rw [← hdf p hp', ← hdf q hq']
    exact he
  · refine hcr3.congr hr.currpid hr.cr3 ?_ ?_
    · rw [hr.other _ hpc.symm]
    · rw [hstate _ hpc.symm]
      exact h.idle.curr_live
  · rcases eq_or_ne p pid with rfl | hne
    · exact .inr hpend
    · exact .inl (by rw [hstate p hne]; exact hp)
  · have hne := hlive p hp
    exact congrArg Procent.page_addr (hr.other p hne)

/-- A process that kills itself gives its memory back. -/
theorem killEnd_user (h : VmInv k g) (hn : k.sys.currpid ≠ NULLPROC) (hu : IsUser k.sys k.sys.currpid) :
    ∃ s' m', k.killEnd k.sys.currpid = .ok ⟨s', m'⟩ ∧ Exited k.sys s' k.sys.currpid ∧
      Layout m' (g.removeDir (k.sys.dirFrame k.sys.currpid)) ∧
      Reclaimed k.mem m' (k.sys.dirFrame k.sys.currpid) := by
  obtain ⟨haddr, hd⟩ := h.user hu
  obtain ⟨m', hkill, hmarks⟩ := killVm_spec (c := k.cpu) h.layout hd
  obtain ⟨s', he, hx⟩ :=
    killEnd_self h.idle hn (c := (k.cpu.withMem m').writeCr3 (k.cpu.cr3At PAGE_DIR_ADDR_START))
    (by unfold Kernel.currAddr; rw [haddr]; exact hkill)
  exact ⟨s', m', he, hx, h.layout.removeDir hd hmarks, h.layout.reclaimed hd hmarks⟩

/-- A process that is left after an exit is another one, which was there before. -/
theorem Exited.live {s s' : Sys} {pid : ℤ} (hx : Exited s s' pid) {p : ℤ} (hp : s'.state p ≠ .free) :
    p ≠ pid ∧ s.state p ≠ .free :=
  not_or.mp fun hc => hp ((hx.free p).mpr hc)

/-- An exit leaves the directories in the process table. -/
theorem Exited.dirFrame {s s' : Sys} {pid : ℤ} (hx : Exited s s' pid) (p : ℤ) :
    s'.dirFrame p = s.dirFrame p := by
  unfold Sys.dirFrame
  rw [hx.page]

/-- A user process that is left after an exit is another one, which was a user process before. -/
theorem Exited.isUser {s s' : Sys} {pid : ℤ} (hx : Exited s s' pid) {p : ℤ} :
    IsUser s' p → p ≠ pid ∧ IsUser s p := by
  rintro ⟨h₁, h₂, h₃⟩
  obtain ⟨hne, hl⟩ := hx.live h₂
  rw [hx.dirFrame] at h₃
  exact ⟨hne, h₁, hl, h₃⟩

/-- The only process that is gone after an exit is the one whose `kill` ended. -/
theorem Exited.gone {s s' : Sys} {pid q : ℤ} (hx : Exited s s' pid) (hpend : s.pend q = .kill pid) {p : ℤ}
    (hp : s.state p ≠ .free) : s'.state p ≠ .free ∨ s.pend q = .kill p := by
  rcases eq_or_ne p pid with rfl | hne
  · exact .inr hpend
  · exact .inl fun hf => ((hx.free p).mp hf).elim hne hp

/-- The directories of the user processes that are left after an exit differ. -/
theorem VmInv.exited_inj (h : VmInv k g) {s' : Sys} {pid : ℤ} (hx : Exited k.sys s' pid) {p q : ℤ}
    (hp : IsUser s' p) (hq : IsUser s' q) (he : s'.dirFrame p = s'.dirFrame q) : p = q := by
  refine h.inj p q (hx.isUser hp).2 (hx.isUser hq).2 ?_
  rw [← hx.dirFrame p, ← hx.dirFrame q]
  exact he

/-- The end of `kill` for a running process that has a directory of its own is safe. -/
theorem killEnd_user_safe (h : VmInv k g) (hn : k.sys.currpid ≠ NULLPROC)
    (hpend : k.sys.pend k.sys.currpid = .kill k.sys.currpid) (hu : IsUser k.sys k.sys.currpid) :
    SafeEnd k g (k.killEnd k.sys.currpid) := by
  obtain ⟨hcaddr, hd⟩ := h.user hu
  -- Its directory is taken out of the layout.
  obtain ⟨s', m', he, hx, hl, hrec⟩ := killEnd_user h hn hu
  rw [he]
  refine ⟨nofun, fun k' hk' => ?_⟩
  injection hk' with hk'
  subst hk'
  have hrole := fun f => removeDir_role (r := .dir) hd id nofun f
  refine ⟨_, ⟨hx.idle, hl, fun p hp hf => ?_, fun p q => h.exited_inj hx, fun _ => .inl hx.cr3⟩,
    fun d hd' hne => ⟨(hrole d).mpr ⟨hd', hne⟩, DirKept.of_changed h.layout hd' fun w hw => ?_⟩,
    fun d hd' => .inl ((hrole d).mp hd').1, fun _ _ hd' => ((hrole _).mp hd').2 rfl,
    fun p => hx.gone hpend, fun p _ _ => hx.page p⟩
  -- The other processes keep their directories, as no two were in one.
  · obtain ⟨hne, hl'⟩ := hx.live hf
    dsimp only
    rw [hx.page]
    cases h.space p hp hl' with
    | system hs ha => exact .system hs ha
    | user d ha hd' =>
      refine .user d ha ((hrole d).mpr ⟨hd', fun hdd => hne ?_⟩)
      have hpd : k.sys.dirFrame p = d := by
        unfold Sys.dirFrame
        rw [ha]
        exact Nat.mul_div_cancel d (by decide)
      have hb := h.layout.dir_bounds hd'
      exact h.inj p _ ⟨hp, hl', by rw [hpd]; omega⟩ hu (hpd.trans hdd)
  -- A word that has changed is of the directory, of its tables or of the table of frames.
  · by_cases hwd : w / 1024 = k.sys.dirFrame k.sys.currpid
    · exact outside_of_dir hd hne hwd
    · by_cases hwo : OwnWord k.mem (k.sys.dirFrame k.sys.currpid) w
      · exact outside_of_own h.layout hd hd' hne hwo
      · by_cases hf : IsFfs w
        · exact outside_of_ffs h.layout hd' hf
        · exact absurd (hrec.other w hwd hwo hf) hw

/-- A running process without a directory of its own is in that of the system. -/
theorem VmInv.system (h : VmInv k g) (hn : k.sys.currpid ≠ NULLPROC) (hu : ¬ IsUser k.sys k.sys.currpid) :
    k.currAddr = PAGE_DIR_ADDR_START := by
  have hpid := h.idle.states.currpid
  have hsys : k.sys.dirFrame k.sys.currpid = PT_FRAME := by
    by_contra hne
    exact hu ⟨hpid, h.idle.curr_live, hne⟩
  cases h.space _ hpid h.idle.curr_live with
  | system hs haddr => exact haddr hn
  | user d hd hr =>
    have hb := h.layout.dir_bounds hr
    unfold Sys.dirFrame at hsys
    rw [hd, show d * 4096 / PAGE_SIZE = d from Nat.mul_div_cancel d (by decide)] at hsys
    omega

/-- The end of `kill` for a running process in the directory of the system is safe: `kill_vm` gives
nothing back, so the memory stays. -/
theorem killEnd_system_safe (h : VmInv k g) (hn : k.sys.currpid ≠ NULLPROC)
    (hpend : k.sys.pend k.sys.currpid = .kill k.sys.currpid) (hu : ¬ IsUser k.sys k.sys.currpid) :
    SafeEnd k g (k.killEnd k.sys.currpid) := by
  obtain ⟨s', he, hx⟩ := killEnd_self h.idle hn (by rw [h.system hn hu]; exact killVm_system _)
  rw [he]
  refine ⟨nofun, fun k' hk' => ?_⟩
  injection hk' with hk'
  subst hk'
  refine ⟨g, ⟨hx.idle, h.layout, fun p hp hf => ?_, fun p q => h.exited_inj hx, fun _ => .inl hx.cr3⟩,
    fun d hd' _ => ⟨hd', fun _ _ => rfl, fun _ _ => rfl⟩, fun d hd' => .inl hd',
    fun hu' => absurd hu' hu, fun p => hx.gone hpend, fun p _ _ => hx.page p⟩
  dsimp only
  rw [hx.page]
  exact h.space p hp (hx.live hf).2

/-- The end of `kill` for the running process is safe. -/
theorem killEnd_self_safe (h : VmInv k g) (hn : k.sys.currpid ≠ NULLPROC)
    (hpend : k.sys.pend k.sys.currpid = .kill k.sys.currpid) : SafeEnd k g (k.killEnd k.sys.currpid) := by
  by_cases hu : IsUser k.sys k.sys.currpid
  · exact killEnd_user_safe h hn hpend hu
  · exact killEnd_system_safe h hn hpend hu

end

/-! ## Safe runs -/

/-- The directory and the tables that a counter reads are mapped. -/
def CountMapped (k : Kernel) (pid : ℤ) (start : ℕ) : Prop :=
  Mapped ((k.sys.proctab pid).page_addr / 4 + (MAX_PT_SIZE - 1)) ∧
    TablesMapped k.mem ((k.sys.proctab pid).page_addr / 4) start

/-- When a call of `vcreate` is safe: one that makes a process finds a free page for its directory,
and one that does not is not made by a user process. -/
def VcreateSafe (k : Kernel) (ssize : ℕ) (priority : Int16) : Prop :=
  match (k.sys.newProcess ssize priority 0).1 with
  | some _ => ∃ p < MAX_PT_SIZE, (k.mem ((PT_FRAME + p) * MAX_PT_SIZE)).exist = false
  | none => ¬ IsUser k.sys k.sys.currpid

/-- When an event is safe. Only `vcreate`, `vmalloc`, `vfree` and the two counters that take a
process can be unsafe. -/
def Kernel.Safe (k : Kernel) : Event → Prop
  | .call (.vcreate ssize priority) => VcreateSafe k ssize priority
  | .call (.vmalloc nbytes) => IsUser k.sys k.sys.currpid ∧
      VmallocSafe k.mem (k.sys.dirFrame k.sys.currpid) (requestPages nbytes)
  | .call (.vfree ptr nbytes) => IsUser k.sys k.sys.currpid ∧
      VfreeSafe k.mem (k.sys.dirFrame k.sys.currpid) ptr (nbytes / 4096)
  | .call (.allocatedVirtualPages pid) => CountMapped k pid 0
  | .call (.usedFfsFrames pid) => CountMapped k pid (XINU_PAGES / MAX_PT_SIZE)
  | _ => True

/-- The states that safe runs reach from boot. -/
def Kernel.SafeReach : Kernel → Prop := Kernel.Reach Kernel.Safe

section

variable {k k' : Kernel} {g : PageMap} {e : Event}

/-- A safe call of `vcreate`. -/
theorem vcreate_safe (h : VmInv k g) {ssize : ℕ} {priority : Int16} (hs : VcreateSafe k ssize priority) :
    SafeEnd k g (k.vcreate ssize priority) := by
  unfold VcreateSafe at hs
  rcases newProcess_spec h.idle ssize priority 0 with ⟨n, he⟩ | ⟨pid, he, hc⟩
  · rw [he] at hs
    exact vcreate_fails h hs he
  · rw [he] at hs
    generalize hr : k.sys.newProcess ssize priority 0 = r at *
    obtain ⟨o, s'⟩ := r
    cases he
    exact vcreate_works h hr hc hs

/-- A system call that meets the safety condition ends with the invariant. -/
theorem call_safe (h : VmInv k g) (hc : k.sys.Cr3Ok) {c : Call} (hr : c.InRange)
    (hn : k.sys.currpid = NULLPROC → c.ofNull) (hs : k.Safe (.call c)) (fuel junk : ℕ) :
    SafeEnd k g (k.call fuel junk c) := by
  cases c with
  | vcreate ssize priority => exact vcreate_safe h hs
  | vmalloc nbytes => exact vmallocCall_safe h hc hs.1 hs.2 fuel junk
  | vfree ptr nbytes => exact vfreeCall_safe h hc hs.1 hr.1 hr.2 hs.2
  | freeFfsPages => exact freeFfsPagesCall_safe h hc
  | allocatedVirtualPages pid => exact countPages_safe h hc hs
  | usedFfsFrames pid => exact countPages_safe h hc hs
  | _ => exact SafeEnd.of_keeps h hc (call_plain h.idle (by trivial) hn fuel junk)

/-- The end of a call in which the processor has changed hands is safe. -/
theorem cont_safe (h : VmInv k g) (hh : k.sys.halted = false) : SafeEnd k g k.cont := by
  have hi := h.idle
  -- What the running process was in the middle of says how it goes on.
  cases hp : k.sys.pend k.sys.currpid with
  | kill pid =>
    have he : k.cont = k.killEnd pid := by
      unfold Kernel.cont
      rw [hp]
    obtain ⟨hpid, hn⟩ := hi.states.kill_pid _ _ hp
    rw [he]
    -- A kill of itself releases memory, a kill of another process does not.
    by_cases hc : k.sys.state pid = .curr
    · obtain rfl := hi.states.curr_only pid hpid hc
      exact killEnd_self_safe h hn hp
    · exact killEnd_other_safe h hh hp hc
  | user =>
    have hc := h.cr3Ok hh (by rw [hp]; exact nofun)
    unfold Kernel.cont
    rw [hp]
    exact SafeEnd.of_keeps h hc (.ok ⟨⟨hi, .refl _⟩, rfl⟩)
  | suspend pid =>
    have hc := h.cr3Ok hh (by rw [hp]; exact nofun)
    unfold Kernel.cont
    rw [hp]
    exact SafeEnd.of_keeps h hc (.ok ⟨suspendEnd_spec hi pid, rfl⟩)
  | receive =>
    have hc := h.cr3Ok hh (by rw [hp]; exact nofun)
    unfold Kernel.cont
    rw [hp]
    exact SafeEnd.of_keeps h hc (.ok ⟨receiveEnd_spec hi, rfl⟩)
  | recvtime =>
    have hc := h.cr3Ok hh (by rw [hp]; exact nofun)
    unfold Kernel.cont
    rw [hp]
    exact SafeEnd.of_keeps h hc (.ok ⟨recvtimeEnd_spec hi, rfl⟩)
  | clk =>
    have hc := h.cr3Ok hh (by rw [hp]; exact nofun)
    unfold Kernel.cont
    rw [hp]
    exact SafeEnd.of_keeps h hc (lift_ends (tickEnd_spec hi))

/-- An event that meets the safety condition ends with the invariant. -/
theorem exec_safe (h : VmInv k g) (hh : k.sys.halted = false)
    (he : k.Enabled e) (hs : k.Safe e) (fuel junk : ℕ) :
    SafeEnd k g (k.exec fuel junk e) := by
  have hcr3 : k.sys.pend k.sys.currpid = .user → k.sys.Cr3Ok := fun hp =>
    h.cr3Ok hh (by rw [hp]; exact nofun)
  cases e with
  | call c => exact call_safe h (hcr3 he.1) he.2.1 he.2.2 hs fuel junk
  | fault v => exact fault_safe h (hcr3 he.1) he.2.1 he.2.2
  | tick => exact SafeEnd.of_keeps h (hcr3 he.1) (lift_ends (tick_spec h.idle))
  | cont => exact cont_safe h hh

/-- A safe step keeps the invariant. -/
theorem step_safe (h : VmInv k g) (hs : k.Safe e) (hst : k.Step e k') :
    ∃ g', VmInv k' g' ∧ VmStep k g k' g' := by
  obtain ⟨hh, he, fuel, junk, hr⟩ := hst
  obtain ⟨hw, hok⟩ := exec_safe h hh he hs fuel junk
  rcases hr with hr | hr
  · exact hok k' hr
  · exact absurd hr hw

end

/-- At boot there is no user directory. -/
theorem sysinit_vm (b : Boot) (hz : ZeroArea b.mem) : VmInv (sysinit b) bootMap := by
  have hproc := sysinit_proc b
  have hnull : ∀ p, (sysinit b).sys.state p ≠ .free → p = NULLPROC := by
    intro p hp
    rw [hproc] at hp
    by_contra hne
    exact hp (if_neg hne)
  have hcr3 : (initializePageTable ⟨b.mem, b.cr3, false⟩).1 / PAGE_SIZE = PT_FRAME := Cpu.cr3At_div _ _
  obtain ⟨t, u, he, -, -⟩ := sysinit_eq b
  have hpage : ((sysinit b).sys.proctab NULLPROC).page_addr =
      (initializePageTable ⟨b.mem, b.cr3, false⟩).1 := by
    rw [he, setProc_same]
  have huser : ∀ p, ¬ IsUser (sysinit b).sys p := by
    rintro p ⟨-, hf, hd⟩
    rw [hnull p hf] at hd
    unfold dirFrame at hd
    rw [hpage] at hd
    exact hd hcr3
  have hcurr : (sysinit b).sys.currpid = NULLPROC := (sysinit_vars b).2.1
  refine ⟨sysinit_idle b, boot_layout (c := ⟨b.mem, b.cr3, false⟩) hz, fun p hp hf => ?_,
    fun p q hp => absurd hp (huser p), fun _ => .inl ⟨?_, ?_⟩⟩
  · obtain rfl := hnull p hf
    rw [hpage]
    exact .system hcr3 fun hne => absurd rfl hne
  · rw [hcurr, hpage, he]
    rfl
  · rw [hcurr, hproc, if_pos rfl]
    exact nofun

/-- Every safe run keeps the invariant. -/
theorem safe_inv {k : Kernel} (h : k.SafeReach) : ∃ g, VmInv k g := by
  induction h with
  | boot b hz => exact ⟨bootMap, sysinit_vm b hz⟩
  | step hk hs hst ih =>
    obtain ⟨g, hg⟩ := ih
    obtain ⟨g', hg', -⟩ := step_safe hg hs hst
    exact ⟨g', hg'⟩

end Xinu
