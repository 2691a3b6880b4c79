import Xinu.Kernel.VmSpec
import Xinu.Paging.VmallocMask

/-!
# Virtual memory in every safe run

What `vmalloc` and `vfree` do for a user process in a state that a safe run reaches, and what every safe step
leaves of the other processes. Where the source can go wrong, a run from boot to such a state is computed.
-/

namespace Xinu

open Sys FlatMemory

/-! ## A user process -/

/-- A safe event that ends extends a safe run. -/
theorem Kernel.CanStep.reach {k : Kernel} {e : Event} (h : k.CanStep e) (hk : k.SafeReach) (hs : k.Safe e) :
    (k.after e).SafeReach := .step hk hs h.step

/-- A safe event of a process that has nothing left to do in the kernel. -/
def Kernel.Quiet (k : Kernel) (e : Event) : Prop := k.Safe e ∧ k.sys.pend k.sys.currpid = .user

/-- The states that runs of such events reach from boot. -/
def Kernel.QuietReach : Kernel → Prop := Kernel.Reach Kernel.Quiet

/-- A run of processes that have nothing left to do in the kernel is safe. -/
theorem Kernel.QuietReach.safe {k : Kernel} (h : k.QuietReach) : k.SafeReach := h.mono fun _ _ he => he.1

/-- A safe system call that ends extends such a run. -/
theorem Kernel.CanStep.quiet {k : Kernel} {c : Call} (h : k.CanStep (.call c)) (hk : k.QuietReach)
    (hs : k.Safe (.call c)) : (k.after (.call c)).QuietReach := .step hk ⟨hs, h.2.1.1⟩ h.step

/-- A page fault whose handler ends extends such a run. -/
theorem Kernel.CanStep.quiet_fault {k : Kernel} {v : ℕ} (h : k.CanStep (.fault v)) (hk : k.QuietReach) :
    (k.after (.fault v)).QuietReach := .step (e := .fault v) hk ⟨trivial, h.2.1.1⟩ h.step

/-- A call of `vcreate` is safe when it finds an entry, a stack and a free page. -/
theorem safe_vcreate {k : Kernel} {ssize p : ℕ} {priority : Int16} {n : ℤ}
    (hn : (k.sys.newProcess ssize priority 0).1 = some n) (hp : p < MAX_PT_SIZE)
    (hf : (k.mem ((PT_FRAME + p) * MAX_PT_SIZE)).exist = false) :
    k.Safe (.call (.vcreate ssize priority)) := by
  change VcreateSafe k ssize priority
  unfold VcreateSafe
  rw [hn]
  exact ⟨p, hp, hf⟩

/-- The null process has created process 1, which runs. -/
def firstRuns : Kernel := ((sysinit clearedBoot).after (.call (.create 1024 20))).after (.call (.resume 1))

/-- Process 1 has created process 2 with `vcreate`, and process 2 runs. -/
def userRuns : Kernel := (firstRuns.after (.call (.vcreate 1024 20))).after (.call (.resume 2))

/-- Process 2 runs, and its directory is in the first page after the system tables. -/
def Kernel.RunsSecond (k : Kernel) : Prop :=
  k.sys.currpid = 2 ∧ k.sys.state 2 ≠ .free ∧ k.sys.dirFrame 2 = PT_FRAME + 26

instance (k : Kernel) : Decidable k.RunsSecond := by unfold Kernel.RunsSecond; infer_instance

/-- It is a user process. -/
theorem Kernel.RunsSecond.user {k : Kernel} (h : k.RunsSecond) : IsUser k.sys k.sys.currpid := by
  rw [h.1]
  refine ⟨⟨by decide, by decide⟩, h.2.1, ?_⟩
  rw [h.2.2]
  decide

/-- Its directory is the one of the running process. -/
theorem Kernel.RunsSecond.frame {k : Kernel} (h : k.RunsSecond) :
    k.sys.dirFrame k.sys.currpid = PT_FRAME + 26 := by
  rw [h.1]
  exact h.2.2

set_option maxRecDepth 100000 in
/-- What is computed about process 1. The page after the system tables is free for the directory of
process 2. -/
theorem firstRuns_facts :
    (sysinit clearedBoot).CanStep (.call (.create 1024 20)) ∧
    ((sysinit clearedBoot).after (.call (.create 1024 20))).CanStep (.call (.resume 1)) ∧
    (firstRuns.sys.newProcess 1024 20 0).1 = some 2 ∧
    (firstRuns.mem ((PT_FRAME + 26) * MAX_PT_SIZE)).exist = false ∧
    firstRuns.CanStep (.call (.vcreate 1024 20)) ∧ (firstRuns.after (.call (.vcreate 1024 20))).CanStep
      (.call (.resume 2)) := by
  decide +kernel

/-- This is a safe run, without kills. -/
theorem firstRuns_quiet : firstRuns.QuietReach := by
  have h₀ : (sysinit clearedBoot).QuietReach := .boot clearedBoot fun _ _ _ => rfl
  obtain ⟨h₁, h₂, -⟩ := firstRuns_facts
  unfold firstRuns
  generalize sysinit clearedBoot = k at *
  exact h₂.quiet (h₁.quiet h₀ trivial) trivial

/-- This is a safe run, without kills. -/
theorem userRuns_quiet : userRuns.QuietReach := by
  obtain ⟨-, -, hsome, hfree, hstep, hnext⟩ := firstRuns_facts
  have hreach := firstRuns_quiet
  unfold userRuns
  generalize firstRuns = k at *
  exact hnext.quiet (hstep.quiet hreach (safe_vcreate hsome (by decide) hfree)) trivial

/-- The run with a user process is a safe one. -/
theorem userRuns_reach : userRuns.SafeReach := userRuns_quiet.safe

set_option maxRecDepth 100000 in
/-- What is computed about process 2. Its directory has no entry for a heap, and it may make these calls. -/
theorem userRuns_facts : userRuns.RunsSecond ∧ userRuns.sys.halted = false ∧
    (∀ i < 1024, 8 ≤ i → (userRuns.mem ((PT_FRAME + 26) * 1024 + i)).pres = false) ∧
    userRuns.CanStep (.call (.vmalloc 4096)) ∧ userRuns.CanStep (.call (.vfree 0 4096)) ∧
    userRuns.CanStep (.call (.kill 2)) ∧
    userRuns.CanStep (.call .receive) ∧ userRuns.Enabled (.call (.vcreate 1024 20)) ∧
    userRuns.Enabled (.call (.vcreate 1024 0)) ∧ userRuns.CanStep (.call (.vcreate 1024 0)) := by
  decide +kernel

/-- The running process is a user process. -/
theorem userRuns_user : IsUser userRuns.sys userRuns.sys.currpid := userRuns_facts.1.user

/-- Its directory is in the first page after the system tables. -/
theorem userRuns_frame : userRuns.sys.dirFrame userRuns.sys.currpid = PT_FRAME + 26 := userRuns_facts.1.frame

/-! ## `vmalloc` -/

/-- What `vmalloc` answers. -/
def vmallocAnswer : Option ℕ → ℤ
  | some va => va
  | none => SYSERR

/-- Whenever the call `vmalloc(n * 4096)` of the running process returns an address, the address is sound. -/
def VmallocCallSound (k : Kernel) (n : ℕ) : Prop :=
  ∀ fuel junk k' (va : ℕ), k.vmallocCall fuel (n * 4096) junk = .ok k' → k'.sys.result k.sys.currpid = va →
    VmallocSound k.mem k'.mem (k.sys.dirFrame k.sys.currpid) n va

/-- The call `vmalloc(n * 4096)` of the running process returns, and whenever it does, it is exact:
with an address it has allocated `n` pages, and with `SYSERR` it has changed nothing. -/
def VmallocCallExact (k : Kernel) (n : ℕ) : Prop :=
  (∀ junk, ∃ fuel k', k.vmallocCall fuel (n * 4096) junk = .ok k') ∧
  ∀ fuel junk k', k.vmallocCall fuel (n * 4096) junk = .ok k' →
    (k'.sys.result k.sys.currpid = SYSERR ∧ k'.mem = k.mem) ∨
    ∃ va : ℕ, k'.sys.result k.sys.currpid = va ∧
      ExactPages k.mem k'.mem (k.sys.dirFrame k.sys.currpid) n (va / 4096)

section

variable {k : Kernel} {n : ℕ}

/-- The system call is the function `vmalloc`, with its answer. -/
theorem vmallocCall_ok {fuel nbytes junk : ℕ} {k' : Kernel} :
    k.vmallocCall fuel nbytes junk = .ok k' ↔
      ∃ r, vmalloc fuel k.cpu k.currAddr nbytes junk = .ok r ∧ k'.mem = r.2.mem ∧
        k' = (k.withCpu r.2).ret (vmallocAnswer r.1) := by
  unfold Kernel.vmallocCall
  constructor
  · intro h
    obtain ⟨r, hr, he⟩ := Res.bind_eq_ok h
    injection he with he
    subst he
    obtain ⟨res, c⟩ := r
    exact ⟨_, hr, rfl, by cases res <;> rfl⟩
  · rintro ⟨⟨res, c⟩, hr, -, rfl⟩
    rw [hr]
    cases res <;> rfl

/-- The process that called finds the answer of the system call. -/
theorem ret_result (c : Cpu) (v : ℤ) : ((k.withCpu c).ret v).sys.result k.sys.currpid = v :=
  Function.update_self ..

/-- A call of `vmalloc` is sound exactly under `SoundOk`. -/
theorem VmInv.vmalloc_sound {g : PageMap} (hg : VmInv k g) (hu : IsUser k.sys k.sys.currpid) (h1 : 1 ≤ n) :
    VmallocCallSound k n ↔ SoundOk k.mem (k.sys.dirFrame k.sys.currpid) n := by
  obtain ⟨haddr, hd⟩ := hg.user hu
  refine Iff.trans ?_ (vmalloc_sound_iff (c := k.cpu) hg.layout hd h1)
  unfold VmallocCallSound
  constructor
  · intro hs fuel junk va c' he
    rw [← haddr] at he
    exact hs fuel junk _ va (vmallocCall_ok.mpr ⟨_, he, rfl, rfl⟩) (ret_result c' va)
  · intro hs fuel junk k' va he hva
    obtain ⟨⟨res, c'⟩, hr, hm, rfl⟩ := vmallocCall_ok.mp he
    rw [ret_result] at hva
    rw [hm]
    cases res with
    | some a =>
      -- The answer is the address, as an integer.
      have hav : a = va := Int.ofNat_inj.mp hva
      rw [← hav]
      refine hs fuel junk a c' ?_
      rw [← haddr]
      exact hr
    | none => exact absurd hva (show (-1 : ℤ) ≠ va by omega)

/-- **`vmalloc` is sound** for every request of a user process whose walk does not end with a bad
spill, and for no other, in every state that a safe run reaches. -/
theorem vmalloc_call_sound (h : k.SafeReach) (hu : IsUser k.sys k.sys.currpid) (h1 : 1 ≤ n) :
    VmallocCallSound k n ↔ SoundOk k.mem (k.sys.dirFrame k.sys.currpid) n := by
  obtain ⟨g, hg⟩ := safe_inv h
  exact hg.vmalloc_sound hu h1

/-- A clean request of a user process is exact. -/
theorem VmInv.vmalloc_exact {g : PageMap} (hg : VmInv k g) (hu : IsUser k.sys k.sys.currpid) (h1 : 1 ≤ n)
    (hc : VmallocClean k.mem (k.sys.dirFrame k.sys.currpid) n) : VmallocCallExact k n := by
  obtain ⟨haddr, hd⟩ := hg.user hu
  have hexact := Xinu.vmalloc_exact (c := k.cpu) hg.layout hd h1 hc
  rw [← haddr] at hexact
  constructor
  · intro junk
    obtain ⟨fuel, res, c', he⟩ := (hexact junk).1
    exact ⟨fuel, _, vmallocCall_ok.mpr ⟨_, he, rfl, rfl⟩⟩
  · intro fuel junk k' he
    obtain ⟨⟨res, c'⟩, hr, hm, rfl⟩ := vmallocCall_ok.mp he
    have hx := (hexact junk).2 fuel res c' hr
    rw [ret_result, hm]
    cases res with
    | some a => exact .inr ⟨a, rfl, hx⟩
    | none => exact .inl ⟨rfl, hx⟩

/-- An exact request does not end with a bad spill. -/
theorem VmInv.soundOk_of_exact {g : PageMap} (hg : VmInv k g) (hu : IsUser k.sys k.sys.currpid) (h1 : 1 ≤ n)
    (hx : VmallocCallExact k n) : SoundOk k.mem (k.sys.dirFrame k.sys.currpid) n := by
  obtain ⟨haddr, hd⟩ := hg.user hu
  refine Xinu.soundOk_of_exact (c := k.cpu) hg.layout hd h1 fun fuel junk res c' he => ?_
  rw [← haddr] at he
  have hcall := hx.2 fuel junk _ (vmallocCall_ok.mpr ⟨_, he, rfl, rfl⟩)
  rw [ret_result] at hcall
  cases res with
  | some a =>
    rcases hcall with ⟨hno, -⟩ | ⟨va, hva, hpages⟩
    · exact absurd hno (show (a : ℤ) ≠ -1 by omega)
    · have hav : a = va := Int.ofNat_inj.mp hva
      rw [hav]
      exact hpages
  | none =>
    rcases hcall with ⟨-, hmem⟩ | ⟨va, hva, -⟩
    · exact hmem
    · exact absurd hva (show (-1 : ℤ) ≠ va by omega)

/-- **`vmalloc` is exact** for every clean request of a user process, in every state that a safe run
reaches, and for no request whose walk ends with a bad spill. -/
theorem vmalloc_call_exact (h : k.SafeReach) (hu : IsUser k.sys k.sys.currpid) (h1 : 1 ≤ n) :
    (VmallocClean k.mem (k.sys.dirFrame k.sys.currpid) n → VmallocCallExact k n) ∧
      (VmallocCallExact k n → SoundOk k.mem (k.sys.dirFrame k.sys.currpid) n) := by
  obtain ⟨g, hg⟩ := safe_inv h
  exact ⟨hg.vmalloc_exact hu h1, hg.soundOk_of_exact hu h1⟩

end

/-- The directory of a new process has no entry for a heap. -/
theorem userRuns_heap : ∀ i < 1024, 8 ≤ i → (userRuns.mem ((PT_FRAME + 26) * 1024 + i)).pres = false :=
  userRuns_facts.2.2.1

/-- A process without heap has no table at which a walk ends. -/
theorem soundOk_of_absent {m : Mem} {d n : ℕ} (h : ∀ i < 1024, 8 ≤ i → (m (d * 1024 + i)).pres = false) :
    SoundOk m d n := by
  intro i hs
  have hp := hs.2.2.1
  rw [h i hs.2.1 hs.1] at hp
  cases hp

/-- A request for one page is clean for a process without heap. -/
theorem userRuns_clean : VmallocClean userRuns.mem (userRuns.sys.dirFrame userRuns.sys.currpid) 1 := by
  have hheap := userRuns_heap
  have hframe := userRuns_frame
  generalize userRuns = k at *
  rw [hframe]
  exact ⟨.inl (by decide), soundOk_of_absent hheap⟩

/-- A process without heap makes a sound request for one page. -/
theorem vmalloc_call_sound_one : VmallocCallSound userRuns 1 :=
  (vmalloc_call_sound userRuns_reach userRuns_user (by decide)).mpr userRuns_clean.2

/-- The first request of a process for one page is exact. -/
theorem vmalloc_call_exact_one : VmallocCallExact userRuns 1 :=
  (vmalloc_call_exact userRuns_reach userRuns_user (by decide)).1 userRuns_clean

/-- Process 2 has one page. -/
def pageRuns : Kernel := userRuns.after (.call (.vmalloc 4096))

/-- This is a safe run, without kills. -/
theorem pageRuns_quiet : pageRuns.QuietReach := by
  obtain ⟨-, -, -, hstep, -⟩ := userRuns_facts
  have hu := userRuns_user
  have hreach := userRuns_quiet
  unfold pageRuns
  generalize userRuns = k at *
  exact hstep.quiet hreach ⟨hu, .inl (by decide)⟩

/-- The run with a page of heap is a safe one. -/
theorem pageRuns_reach : pageRuns.SafeReach := pageRuns_quiet.safe

/-- Process 2 has touched its page. -/
def touchedRuns : Kernel := pageRuns.after (.fault (8192 * 4096))

set_option maxRecDepth 100000 in
/-- The first FFS frame is in use when process 2 has touched its page. -/
theorem touchedRuns_facts :
    pageRuns.CanStep (.fault (8192 * 4096)) ∧ (touchedRuns.mem (FFS_WORD + 0)).valid = true := by
  decide +kernel

/-- This is a safe run, without kills. -/
theorem touchedRuns_quiet : touchedRuns.QuietReach := by
  have hstep := touchedRuns_facts.1
  have hreach := pageRuns_quiet
  unfold touchedRuns
  generalize pageRuns = k at *
  exact hstep.quiet_fault hreach

/-- The process asks for 1024 pages more. -/
def tableRuns : Kernel := pageRuns.after (.call (.vmalloc (1024 * 4096)))

set_option maxRecDepth 100000 in
/-- What is computed about process 2 with one page, and about the call for more: it returns the
second page of table 8, and there is no table 9. -/
theorem pageRuns_facts : pageRuns.RunsSecond ∧ pageRuns.CanStep (.call (.vmalloc (1024 * 4096))) ∧
    (pageRuns.mem ((PT_FRAME + 26) * 1024 + 9)).pres = false ∧
    tableRuns.sys.result pageRuns.sys.currpid = ((8 * 1024 + 1) * 4096 : ℕ) ∧
    (tableRuns.mem ((PT_FRAME + 26) * 1024 + 9)).pres = false ∧
    (tableRuns.mem ((PT_FRAME + 26) * 1024 + 9)).base.toNat = 0 ∧
    (tableRuns.mem 0).avail = 0#3 := by
  decide +kernel

/-- Process 2, which has the page, is a user process. -/
theorem pageRuns_user : IsUser pageRuns.sys pageRuns.sys.currpid := pageRuns_facts.1.user

/-- Its directory is in the frame where `vcreate` has put it. -/
theorem pageRuns_frame : pageRuns.sys.dirFrame pageRuns.sys.currpid = PT_FRAME + 26 := pageRuns_facts.1.frame

/-- The call for a whole table returns. -/
theorem tableRuns_call : pageRuns.vmallocCall 4096 (1024 * 4096) 0 = .ok tableRuns := by
  obtain ⟨-, hstep, -⟩ := pageRuns_facts
  unfold tableRuns
  generalize pageRuns = k at *
  exact hstep.exec

/-- A process with one page that asks for 1024 pages gets pages that are not allocated. -/
theorem vmalloc_unsound :
    ∃ k n, k.SafeReach ∧ IsUser k.sys k.sys.currpid ∧ 1 ≤ n ∧ ¬ VmallocCallSound k n := by
  refine ⟨pageRuns, 1024, pageRuns_reach, pageRuns_user, by decide, fun hs => ?_⟩
  -- The last of the returned pages is the first of table 9.
  obtain ⟨-, -, -, hres, habs, -⟩ := pageRuns_facts
  have hpage := (hs 4096 0 tableRuns _ tableRuns_call hres).alloc 1023 (by decide)
  rw [pageRuns_frame] at hpage
  generalize tableRuns.mem = m at *
  exact absurd (habs.symm.trans hpage.1.2) nofun

/-- A call of `vmalloc` in a safe run need not be exact: the last page that it returns here has no
page table. -/
theorem vmalloc_inexact :
    ∃ k n, k.SafeReach ∧ IsUser k.sys k.sys.currpid ∧ 1 ≤ n ∧ ¬ VmallocCallExact k n := by
  refine ⟨pageRuns, 1024, pageRuns_reach, pageRuns_user, by decide, fun hs => ?_⟩
  have hpages := hs.2 4096 0 tableRuns tableRuns_call
  obtain ⟨-, -, hpres, hres, -, hbase, hfree⟩ := pageRuns_facts
  rw [hres, pageRuns_frame] at hpages
  generalize tableRuns.mem = m' at *
  generalize pageRuns.mem = m at *
  rcases hpages with ⟨he, -⟩ | ⟨va, hva, hx⟩
  · cases he
  · have hav : (8 * 1024 + 1) * 4096 = va := Int.ofNat_inj.mp hva
    subst hav
    -- A table for the last page would have been taken from the area.
    have htaken := ((hx.taken 0).mpr ⟨1023, by decide, hbase.symm, fun hp => ?_⟩).2
    · exact htaken hfree
    · exact absurd (hpres.symm.trans hp.2) nofun

/-! ## Isolation -/

/-- A step leaves the directories and the private tables of the processes that are not running as
they are, the address space that the system processes share stays what it is at boot, and the Xinu
area stays mapped one to one in every address space. -/
structure Isolated (k k' : Kernel) : Prop where
  /-- The heap of another process. -/
  other : ∀ p, IsUser k.sys p → p ≠ k.sys.currpid → DirKept k.mem k'.mem (k.sys.dirFrame p)
  /-- The system processes have no private heap. The `avail` bits of the FFS frames in their tables
  are the record of the frames in use, and change with every fault. -/
  system : SystemSpace k'.mem
  /-- The shared tables map the area one to one. -/
  shared : ∀ w < 8192, (k'.mem ((PT_FRAME + 1) * 1024 + w)).pres = true ∧
    (k'.mem ((PT_FRAME + 1) * 1024 + w)).avail = 3#3 ∧ (k'.mem ((PT_FRAME + 1) * 1024 + w)).base.toNat = w
  /-- The first eight entries of a user directory point at the shared tables. -/
  entries : ∀ p, IsUser k'.sys p → ∀ i < 8, (k'.mem (k'.sys.dirFrame p * 1024 + i)).pres = true ∧
    (k'.mem (k'.sys.dirFrame p * 1024 + i)).base.toNat = PT_FRAME + (i + 1)

/-- **Address spaces are isolated**: a safe step of one process changes neither the heap of another
nor the address space of the system processes nor the shared area. -/
theorem step_isolated {k k' : Kernel} {e : Event} (h : k.SafeReach) (hs : k.Safe e) (hst : k.Step e k') :
    Isolated k k' := by
  obtain ⟨g, hg⟩ := safe_inv h
  obtain ⟨g', hg', hstep⟩ := step_safe hg hs hst
  refine ⟨fun p hp hne => ?_, hg'.layout.system_space, hg'.layout.xinu, fun p hp i hi => ?_⟩
  · have hd := (hg.user hp).2
    by_cases hu : IsUser k.sys k.sys.currpid
    · -- Two processes do not share a directory.
      exact (hstep.kept _ hd fun hc => hne (hg.inj p _ hp hu hc)).2
    · have hsys : k.sys.dirFrame k.sys.currpid = PT_FRAME := by
        by_contra hc
        exact hu ⟨hg.idle.states.currpid, hg.idle.curr_live, hc⟩
      exact (hstep.kept _ hd (by rw [hsys]; exact hp.2.2)).2
  · have hD := hg'.layout.dir _ (hg'.user hp).2
    have hlen := hD.len_ge
    exact ⟨(hD.pres_iff i (by omega)).mpr (by omega), hD.xinu i hi⟩

/-- A call of `vmalloc` leaves the null process and process 1 alone. -/
theorem step_isolated_vmalloc : Isolated userRuns pageRuns := by
  obtain ⟨-, -, -, hstep, -⟩ := userRuns_facts
  have hu := userRuns_user
  have hreach := userRuns_reach
  unfold pageRuns
  generalize userRuns = k at *
  exact step_isolated hreach (e := .call (.vmalloc 4096)) ⟨hu, .inl (by decide)⟩ hstep.step

/-- Process 2 has released page 0, which is shared. -/
def sharedRuns : Kernel := userRuns.after (.call (.vfree 0 4096))

/-- The page is not present any more, and the call says that it has released it. -/
theorem sharedRuns_facts : (sharedRuns.mem ((PT_FRAME + 1) * 1024 + 0)).pres = false ∧
    sharedRuns.sys.result userRuns.sys.currpid = OK := by
  decide +kernel

set_option maxRecDepth 100000 in
/-- Process 1, which has the system directory, may call `vmalloc`, and gets the first page of its table 8. -/
theorem firstRuns_vmalloc : firstRuns.CanStep (.call (.vmalloc 4096)) ∧ firstRuns.sys.currpid = 1 ∧
    firstRuns.sys.dirFrame 1 = PT_FRAME ∧ (firstRuns.mem (PT_FRAME * 1024 + 8)).base.toNat = PT_FRAME + 9 ∧
    (firstRuns.mem ((PT_FRAME + 9) * 1024)).avail ≠
      ((firstRuns.after (.call (.vmalloc 4096))).mem ((PT_FRAME + 9) * 1024)).avail := by
  decide +kernel

/-- A user process can take a page of the Xinu area away from all processes. And a system process
that calls `vmalloc` changes an entry in table 8 of the directory that it shares with the other
system processes. -/
theorem vfree_not_isolated :
    (∃ (k k' : Kernel) (ptr nbytes : ℕ), k.SafeReach ∧ IsUser k.sys k.sys.currpid ∧
      k.Step (.call (.vfree ptr nbytes)) k' ∧ ¬ Isolated k k') ∧
    ∃ (k k' : Kernel) (nbytes : ℕ), k.SafeReach ∧ ¬ IsUser k.sys k.sys.currpid ∧
    k.Step (.call (.vmalloc nbytes)) k' ∧
      k'.mem ((k.mem (PT_FRAME * 1024 + 8)).base.toNat * 1024) ≠
        k.mem ((k.mem (PT_FRAME * 1024 + 8)).base.toNat * 1024) := by
  constructor
  · obtain ⟨-, -, -, -, hstep, -⟩ := userRuns_facts
    have habs := sharedRuns_facts.1
    have hu := userRuns_user
    have hreach := userRuns_reach
    unfold sharedRuns at habs
    generalize userRuns = k at *
    refine ⟨k, _, 0, 4096, hreach, hu, hstep.step, fun hi => ?_⟩
    exact absurd (habs.symm.trans (hi.shared 0 (by decide)).1) nofun
  · obtain ⟨hstep, hcurr, hdir, hbase, hne⟩ := firstRuns_vmalloc
    have hreach := firstRuns_quiet.safe
    generalize firstRuns = k at *
    refine ⟨k, _, 4096, hreach, fun hu => hu.2.2 (by rw [hcurr]; exact hdir), hstep.step, fun he => hne ?_⟩
    rw [hbase] at he
    rw [he]

/-! ## `vfree` -/

/-- The call `vfree(p * 4096, n * 4096)` of the running process answers `OK` exactly for valid heap
pages; with `OK` it has released exactly these pages and their frames, and with `SYSERR` it has
changed nothing. -/
def VfreeCallCorrect (k : Kernel) (p n : ℕ) : Prop :=
  ∃ k', k.vfreeCall (p * 4096) (n * 4096) = .ok k' ∧
    (k'.sys.result k.sys.currpid = OK ↔ HeapRange k.mem (k.sys.dirFrame k.sys.currpid) p n) ∧
    (k'.sys.result k.sys.currpid = OK → VfreeEffect k.mem k'.mem (k.sys.dirFrame k.sys.currpid) p n) ∧
    (k'.sys.result k.sys.currpid = SYSERR → k'.mem = k.mem)

/-- What `vfree` answers. -/
def vfreeAnswer : Status → ℤ
  | .ok => OK
  | .syserr => SYSERR

/-- It answers `OK` when it has worked. -/
theorem vfreeAnswer_ok (s : Status) : vfreeAnswer s = OK ↔ s = .ok := by cases s <;> decide

/-- It answers `SYSERR` when it has not. -/
theorem vfreeAnswer_syserr (s : Status) : vfreeAnswer s = SYSERR ↔ s = .syserr := by cases s <;> decide

section

variable {k : Kernel} {p n : ℕ}

/-- The system call is the function `vfree`, with its answer. -/
theorem vfreeCall_ok {ptr nbytes : ℕ} {k' : Kernel} :
    k.vfreeCall ptr nbytes = .ok k' ↔
      ∃ r, vfree k.cpu k.currAddr ptr nbytes = .ok r ∧ k'.mem = r.2.mem ∧
        k' = (k.withCpu r.2).ret (vfreeAnswer r.1) := by
  unfold Kernel.vfreeCall
  constructor
  · intro h
    obtain ⟨r, hr, he⟩ := Res.bind_eq_ok h
    injection he with he
    subst he
    obtain ⟨s, c⟩ := r
    exact ⟨_, hr, rfl, by cases s <;> rfl⟩
  · rintro ⟨⟨s, c⟩, hr, -, rfl⟩
    rw [hr]
    cases s <;> rfl

/-- **`vfree` is correct** exactly under `VfreeOk`, in every state that a safe run reaches. -/
theorem vfree_call_correct (h : k.SafeReach) (hu : IsUser k.sys k.sys.currpid)
    (hp : p < 2 ^ 20) (hn : n < 2 ^ 20)
    (h1 : 1 ≤ n) : VfreeCallCorrect k p n ↔ VfreeOk k.mem (k.sys.dirFrame k.sys.currpid) p n := by
  obtain ⟨g, hg⟩ := safe_inv h
  obtain ⟨haddr, hd⟩ := hg.user hu
  refine Iff.trans ?_ (vfree_correct_iff (c := k.cpu) hg.layout hd hp hn h1)
  unfold VfreeCallCorrect VfreeCorrect
  rw [← haddr]
  constructor
  · rintro ⟨k', he, h₁, h₂, h₃⟩
    obtain ⟨⟨s, c'⟩, hr, hm, rfl⟩ := vfreeCall_ok.mp he
    rw [ret_result, vfreeAnswer_ok, hm] at *
    rw [vfreeAnswer_syserr] at h₃
    exact ⟨s, c', hr, h₁, h₂, h₃⟩
  · rintro ⟨s, c', hr, h₁, h₂, h₃⟩
    refine ⟨_, vfreeCall_ok.mpr ⟨_, hr, rfl, rfl⟩, ?_⟩
    rw [ret_result, vfreeAnswer_ok, vfreeAnswer_syserr]
    exact ⟨h₁, h₂, h₃⟩

end

set_option maxRecDepth 100000 in
/-- The directory of process 2 with one page has nine entries, and the page is the first of table 8. -/
theorem pageRuns_heap : presentEntries pageRuns.mem (PT_FRAME + 26) = 9 ∧
    (pageRuns.mem ((PT_FRAME + 26) * 1024 + 8)).pres = true ∧
    (pageRuns.mem ((PT_FRAME + 26) * 1024 + 8)).base.toNat = PT_FRAME + 27 ∧
    (pageRuns.mem ((PT_FRAME + 27) * 1024)).avail = 3#3 := by
  decide +kernel

/-- A process may release its only page. -/
theorem vfree_call_correct_first : VfreeCallCorrect pageRuns 8192 1 := by
  obtain ⟨hlen, hpres, hbase, havail⟩ := pageRuns_heap
  have hreach := pageRuns_reach
  have hu := pageRuns_user
  have hframe := pageRuns_frame
  generalize pageRuns = k at *
  refine (vfree_call_correct hreach hu (by decide) (by decide) (by decide)).mpr ?_
  rw [hframe]
  -- The entry of the page is the first of the first private table.
  have hword : pteWord k.mem (PT_FRAME + 26) 8192 = (PT_FRAME + 27) * 1024 := by
    unfold pteWord
    rw [show 8192 / 1024 = 8 from rfl, hbase]
    rfl
  have hstart : walkStart k.mem (PT_FRAME + 26) (8192 * 4096) = ((PT_FRAME + 27) * 1024 : ℕ) := by
    unfold walkStart
    rw [if_pos (by decide), show 8192 * 4096 / 4194304 = 8 from rfl, hbase]
    rfl
  refine ⟨fun _ => ⟨?_, fun w => ?_⟩, fun hno => ?_⟩
  · -- The page lies below the bound, which is in table 9.
    unfold BelowBound
    rw [hlen]
    refine .inl ⟨0, by decide, ?_, by decide⟩
    rw [show 9 - 1 = 8 from rfl, hbase]
    exact havail
  -- The walk clears this entry, and no other.
  · unfold Walked
    rw [hstart, show walkLen (8192 * 4096) 1 = 1 from rfl, Int.toNat_natCast]
    constructor
    · intro hw
      exact ⟨0, Nat.one_pos, by rw [Nat.add_zero, hword]; omega⟩
    · rintro ⟨j, hj, rfl⟩
      rw [Nat.lt_one_iff.mp hj, Nat.add_zero, hword]
      omega
  -- The page is valid, so the other case does not arise.
  · refine absurd (fun j hj => ?_) hno
    rw [Nat.lt_one_iff.mp hj]
    refine ⟨by decide, ⟨by decide, hpres⟩, ?_⟩
    rw [Nat.add_zero, hword]
    exact Entry.valid_of_avail_three havail

/-- Page 0 is not in the heap, and `vfree` releases it. -/
theorem vfree_incorrect :
    ∃ k p n, k.SafeReach ∧ IsUser k.sys k.sys.currpid ∧ p < 2 ^ 20 ∧ n < 2 ^ 20 ∧ 1 ≤ n ∧
    ¬ VfreeCallCorrect k p n := by
  obtain ⟨-, -, -, -, hstep, -⟩ := userRuns_facts
  have hok := sharedRuns_facts.2
  have hu := userRuns_user
  have hreach := userRuns_reach
  unfold sharedRuns at hok
  generalize userRuns = k at *
  refine ⟨k, 0, 1, hreach, hu, by decide, by decide, by decide, ?_⟩
  rintro ⟨k', he, hiff, -⟩
  have hk : k' = k.after (.call (.vfree 0 4096)) := Res.ok.inj (he.symm.trans hstep.exec)
  rw [← hk] at hok
  exact absurd (hiff.mp hok 0 (by decide)).1 (by decide)

/-! ## `kill` -/

/-- The end of `kill(pid)` releases the memory of `pid`: the frames that it mapped, the page of its
directory and those of its private tables are free, and nothing else has changed. -/
def KillReclaims (k : Kernel) (pid : ℤ) : Prop :=
  ∃ k', k.cont = .ok k' ∧ k'.sys.state pid = .free ∧ Reclaimed k.mem k'.mem (k.sys.dirFrame pid)

section

variable {k : Kernel} {g : PageMap} {pid : ℤ}

/-- A user process that kills itself gives its memory back. -/
theorem kill_self_reclaims (hg : VmInv k g) (hu : IsUser k.sys k.sys.currpid)
    (hp : k.sys.pend k.sys.currpid = .kill k.sys.currpid) : KillReclaims k k.sys.currpid := by
  have hn := (hg.idle.states.kill_pid _ _ hp).2
  obtain ⟨s', m', he, hx, -, hrec⟩ := killEnd_user hg hn hu
  have hcont : k.cont = .ok ⟨s', m'⟩ := by
    unfold Kernel.cont
    rw [hp]
    exact he
  exact ⟨_, hcont, (hx.free _).mpr (.inl rfl), hrec⟩

/-- The end of `kill` for another process leaves the directory of that process in the area. -/
theorem kill_other_keeps (hg : VmInv k g) (hu : IsUser k.sys pid) (hp : k.sys.pend k.sys.currpid = .kill pid)
    (hne : pid ≠ k.sys.currpid) : ¬ KillReclaims k pid := by
  rintro ⟨k', he, -, hrec⟩
  obtain ⟨hpid, hn⟩ := hg.idle.states.kill_pid _ _ hp
  have hc : k.sys.state pid ≠ .curr := fun hc => hne (hg.idle.states.curr_only pid hpid hc)
  obtain ⟨s', hkill, -⟩ := killEnd_other hg.idle hpid hn hc
  have hcont : k.cont = .ok ⟨s', k.mem⟩ := by
    unfold Kernel.cont
    rw [hp]
    exact hkill
  have hk : k' = ⟨s', k.mem⟩ := Res.ok.inj (he.symm.trans hcont)
  rw [hk] at hrec
  have hd := (hg.user hu).2
  have hfree := hrec.dir
  rw [hg.layout.pageFree_iff (by rw [hd]; decide), hd] at hfree
  cases hfree

/-- **`kill` releases the memory of a user process** exactly when this process is the running one. -/
theorem kill_reclaims_iff (h : k.SafeReach) (hu : IsUser k.sys pid)
    (hp : k.sys.pend k.sys.currpid = .kill pid) : KillReclaims k pid ↔ pid = k.sys.currpid := by
  obtain ⟨g, hg⟩ := safe_inv h
  constructor
  · intro hr
    by_contra hne
    exact kill_other_keeps hg hu hp hne hr
  · rintro rfl
    exact kill_self_reclaims hg hu hp

end

/-- Process 2 is killing itself. -/
def selfRuns : Kernel := userRuns.after (.call (.kill 2))

set_option maxRecDepth 100000 in
/-- A process that kills itself gives its memory back. -/
theorem kill_reclaims_self : KillReclaims selfRuns 2 ↔ 2 = selfRuns.sys.currpid := by
  obtain ⟨-, -, -, -, -, hstep, -⟩ := userRuns_facts
  obtain ⟨hpend, hlive, hdir⟩ :
      selfRuns.sys.pend selfRuns.sys.currpid = .kill 2 ∧ selfRuns.sys.state 2 ≠ .free ∧
      selfRuns.sys.dirFrame 2 ≠ PT_FRAME := by decide +kernel
  have hreach := userRuns_reach
  unfold selfRuns at *
  generalize userRuns = k at *
  exact kill_reclaims_iff (hstep.reach hreach trivial) ⟨⟨by decide, by decide⟩, hlive, hdir⟩ hpend

/-- Process 2 waits for a message, and process 1 is killing it. -/
def otherRuns : Kernel := (userRuns.after (.call .receive)).after (.call (.kill 2))

set_option maxRecDepth 100000 in
/-- A process that is killed by another one does not give its memory back. -/
theorem kill_other_leaks : ∃ k pid, k.SafeReach ∧ IsUser k.sys pid ∧
    k.sys.pend k.sys.currpid = .kill pid ∧ ¬ KillReclaims k pid := by
  obtain ⟨-, -, -, -, -, -, hwait, -⟩ := userRuns_facts
  obtain ⟨hkill, hcurr, hpend, hlive, hdir⟩ : (userRuns.after (.call .receive)).CanStep (.call (.kill 2)) ∧
      otherRuns.sys.currpid = 1 ∧ otherRuns.sys.pend otherRuns.sys.currpid = .kill 2 ∧
        otherRuns.sys.state 2 ≠ .free ∧
      otherRuns.sys.dirFrame 2 ≠ PT_FRAME := by decide +kernel
  have hreach := userRuns_reach
  unfold otherRuns at *
  generalize userRuns = k at *
  have h := hkill.reach (hwait.reach hreach trivial) trivial
  obtain ⟨g, hg⟩ := safe_inv h
  have hu : IsUser ((k.after (.call .receive)).after (.call (.kill 2))).sys 2 :=
    ⟨⟨by decide, by decide⟩, hlive, hdir⟩
  exact ⟨_, 2, h, hu, hpend, kill_other_keeps hg hu hpend (by rw [hcurr]; decide)⟩

/-! ## The interrupt mask and CR3 -/

section

variable {k k' : Kernel} {g : PageMap}

end

end Xinu
