import Xinu.Kernel.Calls
import Xinu.Kernel.SchedSpec

/-!
# What the system calls do

`Idle s` holds between two steps of the machine: the running process is current, and rescheduling is
not deferred. Every system call of `Calls.lean` keeps this, and `Keeps s s'` lists what it leaves
alone.
-/

namespace Xinu

namespace Sys

/-! ## The invariant between steps -/

/-- What holds between two steps of the machine. -/
structure Idle (s : Sys) : Prop extends Running s where
  /-- Rescheduling is not deferred. -/
  ndefers : s.ndefers = 0

/-- What a system call leaves alone. It frees no process, and a process that it creates has the
system directory. -/
structure Keeps (s s' : Sys) : Prop where
  /-- A process keeps its directory. -/
  page : ∀ p, s.state p ≠ .free → (s'.proctab p).page_addr = (s.proctab p).page_addr
  /-- It goes on living. -/
  live : ∀ p, s.state p ≠ .free → s'.state p ≠ .free
  /-- A new process has the system directory. -/
  fresh : ∀ p, s.state p = .free → s'.state p ≠ .free → (s'.proctab p).page_addr = PAGE_DIR_ADDR_START
  /-- CR3 stays, or is that of the process that runs. -/
  cr3 : (s'.currpid = s.currpid ∧ s'.cr3 = s.cr3) ∨ s'.Cr3Ok

variable {s s' s'' : Sys}

/-- What the scheduler leaves alone. -/
theorem Sched.keeps (h : Sched s s') : Keeps s s' :=
  ⟨fun p _ => h.page p, fun p hp => mt (h.free p).mp hp,
    fun p hp hp' => absurd ((h.free p).mpr hp) hp', h.cr3⟩

/-- A state keeps its own directories. -/
theorem Keeps.refl (s : Sys) : Keeps s s := (Sched.refl s).keeps

/-- Two calls that keep the directories, one after the other, keep them. -/
theorem Keeps.trans (h : Keeps s s') (h' : Keeps s' s'') : Keeps s s'' := by
  refine ⟨fun p hp => (h'.page p (h.live p hp)).trans (h.page p hp), fun p hp => h'.live p (h.live p hp),
    fun p hp hp'' => ?_, ?_⟩
  · by_cases hp' : s'.state p = .free
    · exact h'.fresh p hp' hp''
    · exact (h'.page p hp').trans (h.fresh p hp hp')
  · rcases h'.cr3 with ⟨hc', hr'⟩ | hok
    · rcases h.cr3 with ⟨hc, hr⟩ | hok
      · exact .inl ⟨hc'.trans hc, hr'.trans hr⟩
      · exact .inr (hok.congr hc' hr' (h'.page _ hok.2) (h'.live _ hok.2))
    · exact .inr hok

/-- A state with the same directories, states, running process and CR3. -/
theorem Keeps.of_eq (hp : ∀ p, (s'.proctab p).page_addr = (s.proctab p).page_addr)
    (hst : ∀ p, s'.state p = .free ↔ s.state p = .free) (hc : s'.currpid = s.currpid)
    (hr : s'.cr3 = s.cr3) : Keeps s s' :=
  ⟨fun p _ => hp p, fun p h => mt (hst p).mp h, fun p h h' => absurd ((hst p).mpr h) h', .inl ⟨hc, hr⟩⟩

/-- A change of one state, other than to free, leaves the rest alone. -/
theorem Keeps.setState {p : ℤ} {st : PrState} (hst : st ≠ .free) (hp : s.state p ≠ .free) :
    Keeps s (s.setState p st) :=
  .of_eq (fun x => setState_page s p x st) (fun x => setState_free hst hp x) rfl rfl

/-- The states after the running process has noted what it has left to do. -/
theorem States.setPend (h : States s) {e : Pend} (he : ∀ t, e = .kill t → IsPid t ∧ t ≠ NULLPROC) :
    States (s.setPend e) := by
  refine ⟨h.currpid, h.curr_only, h.null, h.wait_sem, fun p t hp => ?_⟩
  change Function.update s.pend s.currpid e p = _ at hp
  rcases eq_or_ne p s.currpid with rfl | hne
  · rw [Function.update_self] at hp
    exact he t hp
  · rw [Function.update_of_ne hne] at hp
    exact h.kill_pid p t hp

/-- What the running process has left to do does not matter to the queues. -/
theorem Idle.setPend (h : Idle s) {e : Pend} (he : ∀ t, e = .kill t → IsPid t ∧ t ≠ NULLPROC) :
    Idle (s.setPend e) :=
  ⟨⟨⟨h.linked.of_eq rfl rfl rfl fun _ => rfl, h.states.setPend he⟩, h.curr⟩, h.ndefers⟩

/-- An answer does not matter to the queues. -/
theorem Idle.ret (h : Idle s) (v : ℤ) : Idle (s.ret v) := ⟨h.toRunning.ret v, h.ndefers⟩

/-- The running process has an entry in use. -/
theorem Running.curr_live (h : Running s) : s.state s.currpid ≠ .free := by
  rw [h.curr]
  exact nofun

/-- A process that is going to move to another queue gets the state that calls for it. -/
theorem setState_settled {p : ℤ} {st : PrState}
    (hl : Linked s (Function.update s.home p (s.homeOf { s.proctab p with prstate := st })))
    (hs : States s) (hp : IsPid p) (hc : st ≠ .curr) (hw : st ≠ .wait)
    (h0 : p = NULLPROC → st = .ready) : Settled (s.setState p st) := by
  refine ⟨?_, hs.setState hc hw h0⟩
  have hhome := home_setProc hp s fun e => { e with prstate := st }
  unfold setState
  rw [hhome]
  exact hl.of_eq rfl rfl rfl fun _ => rfl

/-- `resched` of a settled state that a system call has made. -/
theorem resched_idle (hs : Settled s') (h0 : s'.ndefers = 0) (hk : Keeps s s') :
    s'.resched.Ends fun s'' => Idle s'' ∧ Keeps s s'' := by
  refine (resched_spec hs (by omega)).mono fun s'' h => ?_
  exact ⟨⟨h.1, h.2.ndefers.trans h0⟩, hk.trans h.2.keeps⟩

/-- A process identifier that `isbadpid` does not refuse is one of the table, in use. -/
theorem pid_of_not_bad {p : ℤ} (h : ¬ s.isbadpid p) : IsPid p ∧ s.state p ≠ .free :=
  ⟨⟨not_lt.mp fun hc => h (.inl hc), not_le.mp fun hc => h (.inr (.inl hc))⟩, fun hc => h (.inr (.inr hc))⟩

/-- A process identifier of the table, in use, is not refused by `isbadpid`. -/
theorem not_bad_of_pid {p : ℤ} (hp : IsPid p) (h : s.state p ≠ .free) : ¬ s.isbadpid p := by
  rintro (hb | hb | hb)
  · exact absurd hp.1 (not_le.mpr hb)
  · exact absurd hp.2 (not_lt.mpr hb)
  · exact h hb

/-- A semaphore identifier that `isbadsem` does not refuse is one of the table. -/
theorem sem_of_not_bad {n : ℤ} (h : ¬ isbadsem n) : IsSem n :=
  ⟨not_lt.mp fun hc => h (.inl hc), not_le.mp fun hc => h (.inr hc)⟩

/-! ## Creating processes -/

/-- What a new process changes. -/
structure Created (s s' : Sys) (pid : ℤ) (addr : ℕ) : Prop where
  /-- The tables are in order. -/
  idle : Idle s'
  /-- The entry is one of the table. -/
  isPid : IsPid pid
  /-- It has been free. -/
  was : s.state pid = .free
  /-- The new process is suspended, with the directory it is given. -/
  entry : s'.state pid = .susp ∧ (s'.proctab pid).page_addr = addr
  /-- The other entries stay as they are. -/
  other : ∀ p, p ≠ pid → s'.proctab p = s.proctab p
  /-- The new process has nothing left to do in the kernel. -/
  pend : s'.pend = Function.update s.pend pid .user
  /-- The same process goes on. -/
  currpid : s'.currpid = s.currpid
  /-- CR3 stays. -/
  cr3 : s'.cr3 = s.cr3
  /-- The interrupt flags of the other processes stay. -/
  ie : ∀ p, p ≠ pid → s'.ie p = s.ie p

/-- `newpid` finds a free entry. -/
theorem newpidLoop_spec (n : ℕ) (nextpid : ℤ) {pid : ℤ} (h : (s.newpidLoop n nextpid).1 = some pid) :
    IsPid pid ∧ s.state pid = .free := by
  induction n generalizing nextpid with
  | zero => cases h
  | succ n ih =>
    unfold newpidLoop at h
    split_ifs at h with hfree
    · cases h
      exact ⟨⟨Int.emod_nonneg _ (by decide), Int.emod_lt_of_pos _ (by decide)⟩, hfree⟩
    · exact ih _ h

/-- A new entry of the process table. -/
theorem created_of_entry (h : Idle s) {pid : ℤ} (hp : IsPid pid) (hf : s.state pid = .free) {addr : ℕ}
    (f : Procent → Procent) (hst : ∀ e, (f e).prstate = .susp) (hpa : ∀ e, (f e).page_addr = addr)
    (nextpid prcount : ℤ) (memlist : List (ℕ × ℕ)) :
    Created s { s.setProc pid f with
      nextpid := nextpid, prcount := prcount, memlist := memlist
      ie := Function.update s.ie pid true, pend := Function.update s.pend pid .user } pid addr := by
  -- The entry is free, so it is not that of the running process.
  have hcurr : s.currpid ≠ pid := by
    intro he
    rw [← he, h.curr] at hf
    cases hf
  have hother : ∀ p, p ≠ pid → (s.setProc pid f).proctab p = s.proctab p := fun p hne => setProc_other hne s f
  have hnew : (s.setProc pid f).state pid = .susp := by
    unfold state
    rw [setProc_same, hst]
  have hstate : ∀ p, p ≠ pid → (s.setProc pid f).state p = s.state p := fun p hne => by
    unfold state
    rw [hother p hne]
  -- A process in state suspended is on no queue, as one in state free was.
  have hhome : (s.setProc pid f).home = s.home := by
    rw [home_setProc hp, homeOf, hst]
    exact update_home_none (by rw [home_of_pid hp, homeOf]; unfold state at hf; rw [hf])
  refine ⟨⟨⟨⟨?_, h.states.currpid, fun x hx hc => ?_, ?_, fun x hx hw => ?_, fun x t hk => ?_⟩, ?_⟩,
    h.ndefers⟩, hp, hf, ⟨hnew, ?_⟩, hother, rfl, rfl, rfl, fun p hne => Function.update_of_ne hne ..⟩
  · change Linked _ (s.setProc pid f).home
    rw [hhome]
    exact h.linked.of_eq rfl rfl rfl fun _ => rfl
  -- The running process is the same, as the new one is suspended.
  · rcases eq_or_ne x pid with rfl | hne
    · cases hnew.symm.trans hc
    · exact h.states.curr_only x hx ((hstate x hne).symm.trans hc)
  -- The null process is not free, so it is another one.
  · have hnull : NULLPROC ≠ pid := by
      intro he
      rw [← he] at hf
      rcases h.states.null with hn | hn <;> cases hf.symm.trans hn
    exact (hstate _ hnull).symm ▸ h.states.null
  -- Of the others the semaphore that they wait for stays.
  · rcases eq_or_ne x pid with rfl | hne
    · cases hnew.symm.trans hw
    · have he := hother x hne
      change IsSem ((s.setProc pid f).proctab x).prsem
      rw [he]
      exact h.states.wait_sem x hx ((hstate x hne).symm.trans hw)
  · rcases eq_or_ne x pid with rfl | hne
    · cases (Function.update_self ..).symm.trans hk
    · exact h.states.kill_pid x t ((Function.update_of_ne hne ..).symm.trans hk)
  · exact (hstate _ hcurr).trans h.curr
  · change ((s.setProc pid f).proctab pid).page_addr = addr
    rw [setProc_same, hpa]

/-- The shared part of `create` and `vcreate`. -/
theorem newProcess_spec (h : Idle s) (ssize : ℕ) (priority : Int16) (addr : ℕ) :
    (∃ n, s.newProcess ssize priority addr = (none, { s with nextpid := n })) ∨
      ∃ pid, (s.newProcess ssize priority addr).1 = some pid ∧
        Created s (s.newProcess ssize priority addr).2 pid addr := by
  unfold newProcess newpid
  generalize roundmb (if ssize < MINSTK then MINSTK else ssize) = len
  dsimp only
  split_ifs with hprio
  · exact .inl ⟨s.nextpid, rfl⟩
  · cases hpid : (s.newpidLoop NPROC.toNat s.nextpid).1 with
    | none => exact .inl ⟨_, rfl⟩
    | some pid =>
      obtain ⟨hp, hf⟩ := newpidLoop_spec _ _ hpid
      dsimp only
      cases hstk : getstk s.memlist len with
      | none => exact .inl ⟨_, rfl⟩
      | some r => exact .inr ⟨pid, rfl, created_of_entry h hp hf _ (fun _ => rfl) (fun _ => rfl) _ _ _⟩

/-- `create` keeps the invariant of the tables, and the directories of the processes. -/
theorem create_spec (h : Idle s) (ssize : ℕ) (priority : Int16) :
    Idle (s.create ssize priority) ∧ Keeps s (s.create ssize priority) := by
  unfold create
  rcases newProcess_spec h ssize priority PAGE_DIR_ADDR_START with ⟨n, he⟩ | ⟨pid, he, hc⟩
  · rw [he]
    have hi : Idle { s with nextpid := n } :=
      ⟨h.toRunning.congr rfl rfl rfl (fun _ => rfl) rfl (fun _ => rfl) (fun _ => rfl) rfl, h.ndefers⟩
    exact ⟨hi.ret _, .of_eq (fun _ => rfl) (fun _ => Iff.rfl) rfl rfl⟩
  · generalize s.newProcess ssize priority PAGE_DIR_ADDR_START = r at he hc
    obtain ⟨o, s'⟩ := r
    cases he
    refine ⟨hc.idle.ret _, fun p hp => ?_, fun p hp => ?_, fun p hp hp' => ?_, .inl ⟨hc.currpid, hc.cr3⟩⟩
    all_goals dsimp only at hc
    · have hne : p ≠ pid := fun he => hp (he ▸ hc.was)
      exact congrArg Procent.page_addr (hc.other p hne)
    · have hne : p ≠ pid := fun he => hp (he ▸ hc.was)
      intro hf
      exact hp ((congrArg Procent.prstate (hc.other p hne)).symm.trans hf)
    · rcases eq_or_ne p pid with rfl | hne
      · exact hc.entry.2
      · exact absurd ((congrArg Procent.prstate (hc.other p hne)).trans hp) hp'

/-! ## Suspending and resuming -/

/-- Between two steps the scheduler keeps the invariant. -/
theorem Idle.of_sched (h : Idle s) (hr : Running s') (hs : Sched s s') : Idle s' ∧ Keeps s s' :=
  ⟨⟨hr, hs.ndefers.trans h.ndefers⟩, hs.keeps⟩

/-- The invariant does not depend on the other variables. -/
theorem Idle.congr (h : Idle s) (ht : s'.queuetab = s.queuetab)
    (hr : s'.readylist = s.readylist) (hsl : s'.sleepq = s.sleepq)
    (hq : ∀ n, (s'.semtab n).squeue = (s.semtab n).squeue) (hc : s'.currpid = s.currpid)
    (hst : ∀ x, s'.state x = s.state x) (hw : ∀ x, (s'.proctab x).prsem = (s.proctab x).prsem)
    (hk : s'.pend = s.pend) (hd : s'.ndefers = s.ndefers) : Idle s' :=
  ⟨h.toRunning.congr ht hr hsl hq hc hst hw hk, hd.trans h.ndefers⟩

/-- A change of an entry that keeps state, semaphore and directory. -/
theorem Idle.setProc (h : Idle s) {f : Procent → Procent} (p : ℤ) (hst : ∀ e, (f e).prstate = e.prstate)
    (hw : ∀ e, (f e).prsem = e.prsem) (hp : ∀ e, (f e).page_addr = e.page_addr) :
    Idle (s.setProc p f) ∧ Keeps s (s.setProc p f) := by
  have hstate : ∀ x, (s.setProc p f).state x = s.state x := by
    intro x
    unfold state
    rw [setProc_apply]
    split_ifs with he
    · rw [hst, he]
    · rfl
  refine ⟨h.congr rfl rfl rfl (fun _ => rfl) rfl hstate (fun x => ?_) rfl rfl,
    .of_eq (fun x => ?_) (fun x => by rw [hstate]) rfl rfl⟩
  all_goals rw [setProc_apply]; split_ifs with he
  · rw [hw, he]
  · rfl
  · rw [hp, he]
  · rfl

/-- A process that has been taken from its queue gets a state that calls for no queue. -/
theorem setState_idle {p : ℤ} {st : PrState} (hl : Linked s (Function.update s.home p none)) (hs : States s)
    (hcurr : s.state s.currpid = .curr) (h0 : s.ndefers = 0) (hp : IsPid p) (hpc : p ≠ s.currpid)
    (hn : p ≠ NULLPROC) (hst : st = .susp ∨ st = .free) : Idle (s.setState p st) := by
  have hhome : s.homeOf { s.proctab p with prstate := st } = none := by
    rcases hst with rfl | rfl <;> rfl
  have hsettled : Settled (s.setState p st) := by
    refine setState_settled (by rw [hhome]; exact hl) hs hp ?_ ?_ fun he => absurd he hn
    all_goals rcases hst with rfl | rfl <;> exact nofun
  refine ⟨⟨hsettled, ?_⟩, h0⟩
  exact (setState_other hpc.symm s st).trans hcurr

/-- What the answer, the noted rest of a call and the state of a process do not touch. -/
theorem Keeps.ret_setPend (s : Sys) (v : ℤ) (e : Pend) : Keeps s ((s.ret v).setPend e) :=
  .of_eq (fun _ => rfl) (fun _ => Iff.rfl) rfl rfl

/-- A suspended process is on no queue. -/
theorem home_susp {p : ℤ} (h : s.state p = .susp) : s.home p = none := by
  unfold home homeOf
  change (s.proctab p).prstate = _ at h
  rw [h]
  split_ifs <;> rfl

/-- `resume` keeps the invariant of the tables, and the directories of the processes. -/
theorem resume_spec (h : Idle s) (pid : ℤ) : (s.resume pid).Ends fun s' => Idle s' ∧ Keeps s s' := by
  unfold resume
  split_ifs with hbad hsusp
  · exact .ok ⟨h.ret _, (Sched.ret s _).keeps⟩
  · exact .ok ⟨h.ret _, (Sched.ret s _).keeps⟩
  · obtain ⟨hp, hf⟩ := pid_of_not_bad hbad
    rw [not_not] at hsusp
    have hi := h.ret (s.proctab pid).prprio.toInt
    generalize (s.proctab pid).prprio.toInt = v at hi ⊢
    have hnone : (s.ret v).home pid = none := home_susp hsusp
    have hpc : pid ≠ s.currpid := by
      rintro rfl
      exact absurd (hsusp.symm.trans h.curr) nofun
    refine (ready_spec ?_ hi.states hp hf hpc hi.curr).mono fun s' hs' => ?_
    · rw [update_home_none hnone]
      exact hi.linked
    · obtain ⟨hi', hk⟩ := hi.of_sched hs'.1 hs'.2.1
      exact ⟨hi', (Sched.ret s v).keeps.trans hk⟩

/-- The end of `suspend` keeps the queues. -/
theorem suspendEnd_spec (h : Idle s) (pid : ℤ) :
    Idle (s.suspendEnd pid) ∧ Keeps s (s.suspendEnd pid) :=
  ⟨(h.ret _).setPend nofun, .ret_setPend s _ _⟩

/-- `suspend` keeps the invariant of the tables, and the directories of the processes. -/
theorem suspend_spec (h : Idle s) (pid : ℤ) : (s.suspend pid).Ends fun s' => Idle s' ∧ Keeps s s' := by
  unfold suspend
  split_ifs with hbad hst hready
  · exact .ok ⟨h.ret _, (Sched.ret s _).keeps⟩
  · exact .ok ⟨h.ret _, (Sched.ret s _).keeps⟩
  · -- A ready process is taken from the ready list.
    obtain ⟨hp, hf⟩ := pid_of_not_bad (not_or.mp hbad).1
    have hpc : pid ≠ s.currpid := by
      rintro rfl
      exact absurd (hready.symm.trans h.curr) nofun
    have hhome := (home_ready_iff h.linked h.states hp).mpr hready
    have hi : Idle ((s.getitem pid).setState pid .susp) :=
      setState_idle (getitem_linked h.linked h.linked.readylist_mem hhome)
        (h.states.congr rfl (fun _ => rfl) (fun _ => rfl) rfl) h.curr h.ndefers hp hpc
          (not_or.mp hbad).2 (.inl rfl)
    obtain ⟨hi', hk⟩ := suspendEnd_spec hi pid
    refine .ok ⟨hi', Keeps.trans ?_ hk⟩
    exact .of_eq (fun x => setState_page s pid x .susp)
      (fun x => setState_free (show PrState.susp ≠ .free by decide) hf x) rfl rfl
  · -- The running process suspends itself.
    obtain ⟨hp, hf⟩ := pid_of_not_bad (not_or.mp hbad).1
    have hcurr : s.state pid = .curr := by
      by_contra hc
      exact hst ⟨hc, hready⟩
    have hi : Idle (s.setPend (.suspend pid)) := h.setPend nofun
    refine resched_idle (setState_settled ?_ hi.states hp nofun nofun fun he => absurd he (not_or.mp hbad).2)
      h.ndefers ?_
    · have hnone : (s.setPend (.suspend pid)).home pid = none := home_curr hcurr
      change Linked _ (Function.update (s.setPend (.suspend pid)).home pid none)
      rw [update_home_none hnone]
      exact hi.linked
    · exact .of_eq (fun x => setState_page s pid x .susp)
        (fun x => setState_free (show PrState.susp ≠ .free by decide) hf x) rfl rfl

/-- `chprio` keeps the invariant of the tables, and the directories of the processes. -/
theorem chprio_spec (h : Idle s) (pid : ℤ) (newprio : Int16) :
    Idle (s.chprio pid newprio) ∧ Keeps s (s.chprio pid newprio) := by
  unfold chprio
  split_ifs with hbad
  · exact ⟨h.ret _, (Sched.ret s _).keeps⟩
  · obtain ⟨hi, hk⟩ := (h.ret (s.proctab pid).prprio.toInt).setProc pid
      (fun e => show ({ e with prprio := newprio } : Procent).prstate = e.prstate from rfl)
      (fun _ => rfl) (fun _ => rfl)
    exact ⟨hi, (Sched.ret s _).keeps.trans hk⟩

/-- `yield` keeps the invariant of the tables, and the directories of the processes. -/
theorem yield_spec (h : Idle s) : s.yield.Ends fun s' => Idle s' ∧ Keeps s s' :=
  resched_idle (h.ret OK).toSettled h.ndefers (Sched.ret s OK).keeps

/-! ## Semaphores -/

/-- `semcreate` keeps the invariant of the tables, and the directories of the processes. -/
theorem semcreate_spec (h : Idle s) (count : ℤ) :
    Idle (s.semcreate count) ∧ Keeps s (s.semcreate count) := by
  unfold semcreate
  split_ifs with hc
  · exact ⟨h.ret _, (Sched.ret s _).keeps⟩
  · have hi : Idle { s with nextsem := (s.newsemLoop NSEM.toNat s.nextsem).2 } :=
      h.congr rfl rfl rfl (fun _ => rfl) rfl (fun _ => rfl) (fun _ => rfl) rfl rfl
    have hk : ∀ v, Keeps s (Sys.ret { s with nextsem := (s.newsemLoop NSEM.toNat s.nextsem).2 } v) :=
      fun v => .of_eq (fun _ => rfl) (fun _ => Iff.rfl) rfl rfl
    dsimp only
    cases (s.newsemLoop NSEM.toNat s.nextsem).1 with
    | none => exact ⟨hi.ret _, hk _⟩
    | some sem =>
      refine ⟨⟨(hi.toRunning.setSem sem (fun e => { e with sstate := .used, scount := count })
        fun _ => rfl).ret _,
        h.ndefers⟩, ?_⟩
      exact .of_eq (fun _ => rfl) (fun _ => Iff.rfl) rfl rfl

/-- Putting a process into a queue changes the queue table only. -/
theorem enqueue_tables (s : Sys) (p q : ℤ) : ∃ t, s.enqueue p q = { s with queuetab := t } := by
  unfold enqueue
  split_ifs
  · exact ⟨s.queuetab, rfl⟩
  · exact ⟨_, rfl⟩

/-- The running process goes to the queue of a semaphore. -/
theorem enqueue_wait_settled (h : Running s) (hn : s.currpid ≠ NULLPROC) {sem : ℤ} (hsem : IsSem sem) :
    Settled ((s.setProc s.currpid fun p => { p with prstate := .wait, prsem := sem }).enqueue s.currpid
      (s.semtab sem).squeue) := by
  have hq := h.linked.squeue_mem hsem
  have hp := h.states.currpid
  -- The entry is changed first; then the process is linked in.
  generalize hs₁ : (s.setProc s.currpid fun p => { p with prstate := .wait, prsem := sem }) = s₁
  have hproc : ∀ x, s₁.proctab x = if x = s.currpid then
      { s.proctab s.currpid with prstate := .wait, prsem := sem } else s.proctab x := by
    intro x
    rw [← hs₁, setProc_apply]
  have hstate : ∀ x, s₁.state x = if x = s.currpid then .wait else s.state x := by
    intro x
    unfold state
    rw [hproc]
    split_ifs <;> rfl
  -- By the entry its place is the queue of the semaphore, where it is linked in.
  have hhome : s₁.home = Function.update s.home s.currpid (some (s.semtab sem).squeue) := by
    rw [← hs₁, home_setProc hp]
    rfl
  have hl : Linked s₁ s.home := by
    rw [← hs₁]
    exact h.linked.of_eq rfl rfl rfl fun _ => rfl
  have hlink := enqueue_linked hl hq hp (by rw [hstate, if_pos rfl]; exact nofun) (home_curr h.curr)
  have hcurrpid : s₁.currpid = s.currpid := by rw [← hs₁]; rfl
  have hpend : s₁.pend = s.pend := by rw [← hs₁]; rfl
  obtain ⟨t, ht⟩ := s₁.enqueue_tables s.currpid (s.semtab sem).squeue
  rw [ht] at hlink ⊢
  refine ⟨?_, (?_ : States s₁).congr rfl (fun _ => rfl) (fun _ => rfl) rfl⟩
  · change Linked _ s₁.home
    rw [hhome]
    exact hlink
  -- The running process has no place among the ready ones any more, and the null process stays.
  · refine ⟨hcurrpid ▸ hp, fun x hx hc => ?_, ?_, fun x hx hw => ?_, hpend ▸ h.states.kill_pid⟩
    · rw [hstate] at hc
      split_ifs at hc with he
      rw [hcurrpid]
      exact h.states.curr_only x hx hc
    · rw [hstate, if_neg hn.symm]
      exact h.states.null
    · rw [hproc]
      rw [hstate] at hw
      split_ifs at hw ⊢ with he
      · exact hsem
      · exact h.states.wait_sem x hx hw

/-- `wait` keeps the queues. The null process does not wait. -/
theorem wait_spec (h : Idle s) (hn : s.currpid ≠ NULLPROC) (sem : ℤ) :
    (s.wait sem).Ends fun s' => Idle s' ∧ Keeps s s' := by
  unfold wait
  split_ifs with hbad hfree
  · exact .ok ⟨h.ret _, (Sched.ret s _).keeps⟩
  · exact .ok ⟨h.ret _, (Sched.ret s _).keeps⟩
  dsimp only
  split_ifs with hcount
  all_goals
    have hr : Running ((s.setSem sem fun e => { e with scount := int32 (e.scount - 1) }).ret OK) :=
      (h.toRunning.setSem sem (fun e => { e with scount := int32 (e.scount - 1) }) fun _ => rfl).ret OK
  -- The count is below 0: the process is enqueued, and the scheduler runs.
  · have hset := enqueue_wait_settled hr hn (sem_of_not_bad hbad)
    generalize hs₁ : ((s.setSem sem fun e => { e with scount := int32 (e.scount - 1) }).ret OK) = s₁ at *
    have hc : s₁.currpid = s.currpid := by rw [← hs₁]; rfl
    obtain ⟨t, ht⟩ := enqueue_tables
      (s₁.setProc s₁.currpid fun p => { p with prstate := .wait, prsem := sem }) s₁.currpid
        (s₁.semtab sem).squeue
    have hd : s₁.ndefers = 0 := by
      rw [← hs₁]
      exact h.ndefers
    refine resched_idle hset (by rw [ht]; exact hd) ?_
    rw [ht]
    -- The directories are not touched by the change of the entry.
    refine .of_eq (fun x => ?_) (fun x => ?_) hc (by rw [← hs₁]; rfl)
    · change ((s₁.setProc s₁.currpid fun p =>
        { p with prstate := .wait, prsem := sem }).proctab x).page_addr = _
      rw [setProc_apply, ← hs₁]
      split_ifs with he
      · rw [he]
        rfl
      · rfl
    · change ((s₁.setProc s₁.currpid fun p =>
        { p with prstate := .wait, prsem := sem }).proctab x).prstate = _ ↔ _
      rw [setProc_apply]
      split_ifs with he
      · rw [he, hc]
        exact iff_of_false nofun h.curr_live
      · rw [← hs₁]
        rfl
  -- The count is not below 0, so the call returns.
  · exact .ok ⟨⟨hr, h.ndefers⟩, .of_eq (fun _ => rfl) (fun _ => Iff.rfl) rfl rfl⟩

/-- One `signal` keeps a running state, deferred or not. -/
theorem signalOnce_spec (h : Running s) {sem : ℤ} (hsem : IsSem sem) :
    (s.signalOnce sem).Ends fun s' => Running s' ∧ Sched s s' := by
  have hr := h.setSem sem (fun e => { e with scount := int32 (e.scount + 1) }) fun _ => rfl
  have hs := Sched.setSem s sem fun e => { e with scount := int32 (e.scount + 1) }
  unfold signalOnce
  dsimp only
  split_ifs with hc
  · exact (dequeue_ready_spec hr (hr.linked.squeue_mem hsem)).mono fun s' h' =>
      ⟨h'.running, hs.trans h'.sched⟩
  · exact .ok ⟨hr, hs⟩

/-- `signal` keeps the invariant of the tables, and the directories of the processes. -/
theorem signal_spec (h : Idle s) (sem : ℤ) : (s.signal sem).Ends fun s' => Idle s' ∧ Keeps s s' := by
  unfold signal
  split_ifs with hbad hfree
  · exact .ok ⟨h.ret _, (Sched.ret s _).keeps⟩
  · exact .ok ⟨h.ret _, (Sched.ret s _).keeps⟩
  · refine (signalOnce_spec (h.toRunning.ret OK) (sem_of_not_bad hbad)).mono fun s' hs' => ?_
    exact h.of_sched hs'.1 ((Sched.ret s OK).trans hs'.2)

/-- The loop of `signaln` keeps a running state. -/
theorem signalnLoop_spec {sem : ℤ} (hsem : IsSem sem) :
    ∀ (n : ℕ) (s : Sys), Running s → (signalnLoop sem n s).Ends fun s' => Running s' ∧ Sched s s' := by
  intro n
  induction n with
  | zero => exact fun s h => .ok ⟨h, .refl s⟩
  | succ n ih =>
    intro s h
    refine Res.Ends.bind (signalOnce_spec h hsem) fun s₁ h₁ => ?_
    exact (ih s₁ h₁.1).mono fun s' h' => ⟨h'.1, h₁.2.trans h'.2⟩

/-- `signaln` keeps the invariant of the tables, and the directories of the processes. -/
theorem signaln_spec (h : Idle s) (sem count : ℤ) :
    (s.signaln sem count).Ends fun s' => Idle s' ∧ Keeps s s' := by
  unfold signaln
  split_ifs with hbad hfree
  · exact .ok ⟨h.ret _, (Sched.ret s _).keeps⟩
  · exact .ok ⟨h.ret _, (Sched.ret s _).keeps⟩
  · have hsem := sem_of_not_bad (not_or.mp hbad).1
    refine Res.Ends.bind (signalnLoop_spec hsem _ _ (h.toRunning.ret OK).cntlStart) fun s₁ h₁ => ?_
    refine (cntlStop_spec (s := s.ret OK) h.ndefers h₁.1 h₁.2).mono fun s' h' => ?_
    exact h.of_sched h'.1 ((Sched.ret s OK).trans h'.2)

/-- The loop of `semreset`, while rescheduling is deferred. -/
theorem semresetLoop_spec {q : ℤ} (hq : q ∈ queueIds) (hne : q ≠ 300) :
    ∀ (fuel : ℕ) (s : Sys), Running s → s.ndefers > 0 → s.waiting q < fuel →
      (semresetLoop q fuel s).Ends fun s' => Running s' ∧ Sched s s' := by
  intro fuel
  induction fuel with
  | zero => exact fun s _ _ hlt => absurd hlt (Nat.not_lt_zero _)
  | succ fuel ih =>
    intro s h hd hlt
    unfold semresetLoop
    by_cases he : s.isempty q
    · have hg : s.getfirst q = (EMPTY, s) := by
        unfold getfirst
        rw [if_pos he]
      rw [hg]
      exact .ok ⟨h, .refl s⟩
    · have hhome := firstid_home h.linked hq he
      have hpid := h.linked.pid _ (by rw [hhome]; exact nofun)
      have hfst : (s.getfirst q).1 = s.firstid q := by
        unfold getfirst
        rw [if_neg he]
      have hgo : (s.getfirst q).1 ≠ EMPTY := by
        have h₁ : 0 ≤ s.firstid q := hpid.1
        rw [hfst]
        exact fun hc => absurd (hc ▸ h₁) (by decide)
      dsimp only
      rw [if_pos hgo]
      refine Res.Ends.bind (getfirst_ready_spec h hq) fun s₁ h₁ => ?_
      have hless := (h₁.moved hd he).waiting_lt hpid hhome (by rw [h.linked.readylist]; exact hne)
      refine (ih s₁ h₁.running (by rw [h₁.sched.ndefers]; exact hd) (by omega)).mono fun s' h' => ?_
      exact ⟨h'.1, h₁.sched.trans h'.2⟩

/-- `semreset` keeps the invariant of the tables, and the directories of the processes. -/
theorem semreset_spec (h : Idle s) (sem count : ℤ) :
    (s.semreset sem count).Ends fun s' => Idle s' ∧ Keeps s s' := by
  unfold semreset
  split_ifs with hbad
  · exact .ok ⟨h.ret _, (Sched.ret s _).keeps⟩
  · have hsem := sem_of_not_bad (not_or.mp (not_or.mp hbad).2).1
    have hq := h.linked.squeue_mem hsem
    have hne : (s.semtab sem).squeue ≠ 300 := by
      have : sem < 100 := hsem.2
      rw [h.linked.squeue sem hsem]
      omega
    have hd : (s.ret OK).reschedCntlStart.ndefers > 0 := by
      have := h.ndefers
      show s.ndefers + 1 > 0
      omega
    have hlen := (s.ret OK).reschedCntlStart.waiting_le (s.semtab sem).squeue
    refine Res.Ends.bind (semresetLoop_spec hq hne _ _ (h.toRunning.ret OK).cntlStart hd ?_) fun s₁ h₁ => ?_
    · rw [show NQENT.toNat = 304 from rfl]
      omega
    · have hr := h₁.1.setSem sem (fun e => { e with scount := count }) fun _ => rfl
      have hs := h₁.2.trans (Sched.setSem s₁ sem fun e => { e with scount := count })
      refine (cntlStop_spec (s := s.ret OK) h.ndefers hr hs).mono fun s' h' => ?_
      exact h.of_sched h'.1 ((Sched.ret s OK).trans h'.2)

/-- The loop of `semdelete` keeps a running state. -/
theorem semdeleteLoop_spec {sem : ℤ} (hsem : IsSem sem) :
    ∀ (n : ℕ) (s : Sys), Running s → (semdeleteLoop sem n s).Ends fun s' => Running s' ∧ Sched s s' := by
  intro n
  induction n with
  | zero => exact fun s h => .ok ⟨h.setSem sem _ fun _ => rfl, Sched.setSem s sem _⟩
  | succ n ih =>
    intro s h
    have hr := h.setSem sem (fun e => { e with scount := int32 (e.scount + 1) }) fun _ => rfl
    have hs := Sched.setSem s sem fun e => { e with scount := int32 (e.scount + 1) }
    have hone : (s.semdeleteOnce sem).Ends fun s' => Running s' ∧ Sched s s' :=
      (getfirst_ready_spec hr (hr.linked.squeue_mem hsem)).mono fun s' h' => ⟨h'.running, hs.trans h'.sched⟩
    refine Res.Ends.bind hone fun s₁ h₁ => ?_
    exact (ih s₁ h₁.1).mono fun s' h' => ⟨h'.1, h₁.2.trans h'.2⟩

/-- `semdelete` keeps the invariant of the tables, and the directories of the processes. -/
theorem semdelete_spec (h : Idle s) (sem : ℤ) :
    (s.semdelete sem).Ends fun s' => Idle s' ∧ Keeps s s' := by
  unfold semdelete
  split_ifs with hbad hfree
  · exact .ok ⟨h.ret _, (Sched.ret s _).keeps⟩
  · exact .ok ⟨h.ret _, (Sched.ret s _).keeps⟩
  · have hsem := sem_of_not_bad hbad
    have hr := (h.toRunning.ret OK).setSem sem (fun e => { e with sstate := .free }) fun _ => rfl
    have hs := (Sched.ret s OK).trans (Sched.setSem (s.ret OK) sem fun e => { e with sstate := .free })
    generalize hs₁ : ((s.ret OK).setSem sem fun e => { e with sstate := .free }) = s₁ at *
    have hd : s₁.ndefers = 0 := hs.ndefers.trans h.ndefers
    refine Res.Ends.bind (semdeleteLoop_spec hsem _ _ hr.cntlStart) fun s₂ h₂ => ?_
    exact (cntlStop_spec hd h₂.1 h₂.2).mono fun s' h' => h.of_sched h'.1 (hs.trans h'.2)

/-! ## Sleeping and messages -/

/-- The running process goes to the queue of sleeping processes, unless it is the null process. -/
theorem insertd_sleep_spec (h : Idle s) (hn : s.currpid ≠ NULLPROC) (key : ℤ) {st : PrState}
    (hst : st = .sleep ∨ st = .rectim) {e : Pend} (he : ∀ t, e ≠ .kill t) :
    (s.insertd s.currpid s.sleepq key).Ends fun r => r.1 = .ok ∧
      (∃ t, r.2 = { s with queuetab := t }) ∧ Settled (r.2.setState s.currpid st) ∧
      Settled ((r.2.setPend e).setState s.currpid st) := by
  have hins := insertd_linked h.linked h.states.currpid h.curr_live (home_curr h.curr) key
  refine hins.mono fun r hr => ?_
  obtain ⟨hok, hl, t, ht⟩ := hr
  refine ⟨hok, ⟨t, ht⟩, ?_⟩
  rw [ht] at hl ⊢
  have hhome : s.homeOf { s.proctab s.currpid with prstate := st } = some s.sleepq := by
    rcases hst with rfl | rfl <;> rfl
  have hs : States { s with queuetab := t } := h.states.congr rfl (fun _ => rfl) (fun _ => rfl) rfl
  have hc : st ≠ .curr := by
    rcases hst with rfl | rfl <;> exact nofun
  have hw : st ≠ .wait := by
    rcases hst with rfl | rfl <;> exact nofun
  constructor
  · refine setState_settled ?_ hs h.states.currpid hc hw fun h0 => absurd h0 hn
    change Linked _ (Function.update s.home s.currpid (s.homeOf { s.proctab s.currpid with prstate := st }))
    rw [hhome]
    exact hl
  · refine setState_settled ?_ (hs.setPend fun t ht => absurd ht (he t)) h.states.currpid hc hw
      fun h0 => absurd h0 hn
    change Linked _ (Function.update s.home s.currpid (s.homeOf { s.proctab s.currpid with prstate := st }))
    rw [hhome]
    exact hl.of_eq rfl rfl rfl fun _ => rfl

/-- `sleepms` keeps the queues. The null process does not sleep. -/
theorem sleepms_spec (h : Idle s) (hn : s.currpid ≠ NULLPROC) (delay : ℤ) :
    (s.sleepms delay).Ends fun s' => Idle s' ∧ Keeps s s' := by
  unfold sleepms
  split_ifs with hneg hzero
  · exact .ok ⟨h.ret _, (Sched.ret s _).keeps⟩
  · exact yield_spec h
  · refine Res.Ends.bind (insertd_sleep_spec (e := .user) (h.ret OK) hn delay (.inl rfl) nofun)
      fun r hr => ?_
    obtain ⟨hok, ⟨t, ht⟩, hset, -⟩ := hr
    rw [if_neg (by rw [hok]; exact nofun)]
    refine resched_idle hset (by rw [ht]; exact h.ndefers) ?_
    rw [ht]
    exact .of_eq (fun x => setState_page (s.ret OK) s.currpid x .sleep)
      (fun x => setState_free (s := s.ret OK) (show PrState.sleep ≠ .free by decide) h.curr_live x) rfl rfl

/-- The end of `receive` keeps the queues. -/
theorem receiveEnd_spec (h : Idle s) : Idle s.receiveEnd ∧ Keeps s s.receiveEnd := by
  obtain ⟨hi, hk⟩ := (h.ret (s.proctab s.currpid).prmsg).setProc s.currpid
    (fun e => show ({ e with prhasmsg := false } : Procent).prstate = e.prstate from rfl)
    (fun _ => rfl) (fun _ => rfl)
  refine ⟨hi.setPend nofun, (Sched.ret s _).keeps.trans (hk.trans ?_)⟩
  exact .of_eq (fun _ => rfl) (fun _ => Iff.rfl) rfl rfl

/-- The end of `recvtime` keeps the queues. -/
theorem recvtimeEnd_spec (h : Idle s) : Idle s.recvtimeEnd ∧ Keeps s s.recvtimeEnd := by
  unfold recvtimeEnd
  dsimp only
  split_ifs with hm
  · exact receiveEnd_spec h
  · exact ⟨(h.ret _).setPend nofun, .ret_setPend s _ _⟩

/-- `recvtime` keeps the queues. The null process does not wait for messages. -/
theorem recvtime_spec (h : Idle s) (hn : s.currpid ≠ NULLPROC) (maxwait : ℤ) :
    (s.recvtime maxwait).Ends fun s' => Idle s' ∧ Keeps s s' := by
  unfold recvtime
  split_ifs with hneg hmsg
  · exact .ok ⟨h.ret _, (Sched.ret s _).keeps⟩
  · refine Res.Ends.bind (insertd_sleep_spec (e := .recvtime) h hn maxwait (.inr rfl) nofun)
      fun r hr => ?_
    obtain ⟨hok, ⟨t, ht⟩, -, hset⟩ := hr
    rw [if_neg (by rw [hok]; exact nofun)]
    have hcurr : (r.2.setPend .recvtime).setState r.2.currpid .rectim =
        (r.2.setPend .recvtime).setState s.currpid .rectim := by
      rw [ht]
    refine resched_idle hset (by rw [ht]; exact h.ndefers) ?_
    rw [ht]
    exact .of_eq (fun x => setState_page s s.currpid x .rectim)
      (fun x => setState_free (show PrState.rectim ≠ .free by decide) h.curr_live x) rfl rfl
  · exact .ok (recvtimeEnd_spec h)

/-- `receive` keeps the queues. The null process does not wait for messages. -/
theorem receive_spec (h : Idle s) (hn : s.currpid ≠ NULLPROC) :
    s.receive.Ends fun s' => Idle s' ∧ Keeps s s' := by
  unfold receive
  split_ifs with hmsg
  · have hi : Idle (s.setPend .receive) := h.setPend nofun
    refine resched_idle (setState_settled ?_ hi.states hi.states.currpid nofun nofun fun h0 => absurd h0 hn)
      h.ndefers ?_
    · have hnone : (s.setPend .receive).home s.currpid = none := home_curr h.curr
      change Linked _ (Function.update (s.setPend .receive).home s.currpid none)
      rw [update_home_none hnone]
      exact hi.linked
    · exact .of_eq (fun x => setState_page s s.currpid x .recv)
        (fun x => setState_free (show PrState.recv ≠ .free by decide) h.curr_live x) rfl rfl
  · exact .ok (receiveEnd_spec h)

/-- `recvclr` keeps the invariant of the tables, and the directories of the processes. -/
theorem recvclr_spec (h : Idle s) : Idle s.recvclr ∧ Keeps s s.recvclr := by
  unfold recvclr
  dsimp only
  split_ifs with hm
  · obtain ⟨hi, hk⟩ := (h.ret (s.proctab s.currpid).prmsg).setProc s.currpid
      (fun e => show ({ e with prhasmsg := false } : Procent).prstate = e.prstate from rfl)
      (fun _ => rfl) (fun _ => rfl)
    exact ⟨hi, (Sched.ret s _).keeps.trans hk⟩
  · exact ⟨h.ret _, (Sched.ret s _).keeps⟩

/-- `send` as a system call keeps the queues. -/
theorem sendCall_spec (h : Idle s) (pid : ℤ) (msg : ℕ) :
    (s.sendCall pid msg).Ends fun s' => Idle s' ∧ Keeps s s' := by
  refine Res.Ends.bind (send_spec (h.toRunning.ret OK) pid msg) fun r hr => ?_
  obtain ⟨hi, hk⟩ := h.of_sched hr.1 ((Sched.ret s OK).trans hr.2)
  split_ifs
  · exact .ok ⟨hi.ret _, hk.trans (Sched.ret _ _).keeps⟩
  · exact .ok ⟨hi, hk⟩

/-! ## Killing and the clock -/

/-- `kill` up to the message to the parent keeps the queues. -/
theorem killStart_spec (h : Idle s) (pid : ℤ) : (s.killStart pid).Ends fun s' => Idle s' ∧ Keeps s s' := by
  unfold killStart
  split_ifs with hbad
  · exact .ok ⟨h.ret _, (Sched.ret s _).keeps⟩
  dsimp only
  have hi : Idle { s with prcount := s.prcount - 1 } :=
    h.congr rfl rfl rfl (fun _ => rfl) rfl (fun _ => rfl) (fun _ => rfl) rfl rfl
  split_ifs with hlast
  · refine .ok ⟨hi.congr rfl rfl rfl (fun _ => rfl) rfl (fun _ => rfl) (fun _ => rfl) rfl rfl, ?_⟩
    exact .of_eq (fun _ => rfl) (fun _ => Iff.rfl) rfl rfl
  · have hpid := (pid_of_not_bad (not_or.mp hbad).1).1
    have hi' := (hi.ret OK).setPend (e := .kill pid) fun t ht => by
      cases ht
      exact ⟨hpid, (not_or.mp (not_or.mp hbad).2).1⟩
    refine Res.Ends.bind (send_spec hi'.toRunning _ _) fun r hr => .ok ?_
    obtain ⟨hi'', hk⟩ := hi'.of_sched hr.1 hr.2
    have hk' : Keeps s ((Sys.ret { s with prcount := s.prcount - 1 } OK).setPend (.kill pid)) :=
      .of_eq (fun _ => rfl) (fun _ => Iff.rfl) rfl rfl
    exact ⟨hi'', hk'.trans hk⟩

/-- A process that kills itself halts the processor, or it is left in `kill`, where it may have
given the processor to another. -/
theorem killStart_self (h : Idle s) (hn : s.currpid ≠ NULLPROC) :
    (s.killStart s.currpid).Ends fun s' =>
      s'.halted = true ∨ s'.pend s.currpid = .kill s.currpid ∧ (s'.currpid = s.currpid ∨ s'.Cr3Ok) := by
  have hbad : ¬ (s.isbadpid s.currpid ∨ s.currpid = NULLPROC ∨ s.state s.currpid = .free) := by
    rintro (hb | hb | hb)
    · exact not_bad_of_pid h.states.currpid h.curr_live hb
    · exact hn hb
    · exact h.curr_live hb
  unfold killStart
  rw [if_neg hbad]
  dsimp only
  split_ifs with hlast
  · exact .ok (.inl rfl)
  · have hi : Idle { s with prcount := s.prcount - 1 } :=
      h.congr rfl rfl rfl (fun _ => rfl) rfl (fun _ => rfl) (fun _ => rfl) rfl rfl
    have hi' := (hi.ret OK).setPend (e := .kill s.currpid) fun t ht => by
      cases ht
      exact ⟨h.states.currpid, hn⟩
    refine Res.Ends.bind (send_spec hi'.toRunning _ _) fun r hr => .ok (.inr ?_)
    refine ⟨?_, hr.2.cr3.imp And.left id⟩
    rw [hr.2.pend]
    exact Function.update_self ..

/-- The clock interrupt up to the sleep queue keeps the queues. -/
theorem tick_spec (h : Idle s) : s.tick.Ends fun s' => Idle s' ∧ Keeps s s' := by
  unfold tick
  -- The counters of the clock do not matter to the queues.
  generalize hs₁ : (if decr32 s.count1000 = 0 then
      { s with clktime := (s.clktime + 1) % 2 ^ 32, count1000 := 1000 }
    else { s with count1000 := decr32 s.count1000 }) = s₁
  have hi : Idle s₁ ∧ Keeps s s₁ := by
    rw [← hs₁]
    split_ifs
    all_goals
      exact ⟨h.congr rfl rfl rfl (fun _ => rfl) rfl (fun _ => rfl) (fun _ => rfl) rfl rfl,
        .of_eq (fun _ => rfl) (fun _ => Iff.rfl) rfl rfl⟩
  have hi' := hi.1.setPend (e := .clk) nofun
  have hk' : Keeps s (s₁.setPend .clk) := hi.2.trans (.of_eq (fun _ => rfl) (fun _ => Iff.rfl) rfl rfl)
  clear hs₁ hi
  dsimp only
  generalize s₁.setPend .clk = s₂ at *
  -- Nobody sleeps, or the first key is counted down.
  by_cases hempty : s₂.isempty s₂.sleepq
  · rw [if_neg (not_not.mpr hempty)]
    exact .ok ⟨hi', hk'⟩
  · rw [if_pos hempty]
    have hhome := firstid_home hi'.linked hi'.linked.sleepq_mem hempty
    have hne : s₂.firstid s₂.sleepq ≠ 301 := by
      have := (hi'.linked.pid _ (by rw [hhome]; exact nofun)).lt
      omega
    -- A key of the queue of sleeping processes is not part of its links.
    have hkey := setKey_linked hi'.linked hne (int32 (s₂.firstkey s₂.sleepq - 1))
    have hi'' : Idle (s₂.setKey (s₂.firstid s₂.sleepq) (int32 (s₂.firstkey s₂.sleepq - 1))) :=
      ⟨⟨⟨hkey, hi'.states.congr rfl (fun _ => rfl) (fun _ => rfl) rfl⟩, hi'.curr⟩, hi'.ndefers⟩
    have hk'' : Keeps s (s₂.setKey (s₂.firstid s₂.sleepq) (int32 (s₂.firstkey s₂.sleepq - 1))) :=
      hk'.trans (.of_eq (fun _ => rfl) (fun _ => Iff.rfl) rfl rfl)
    split_ifs with hwake
    · refine (wakeup_spec hi''.toRunning hi''.ndefers).mono fun s' hs' => ?_
      obtain ⟨hi₃, hk₃⟩ := hi''.of_sched hs'.1 hs'.2
      exact ⟨hi₃, hk''.trans hk₃⟩
    · exact .ok ⟨hi'', hk''⟩

/-- The end of the clock interrupt keeps the queues. -/
theorem tickEnd_spec (h : Idle s) : s.tickEnd.Ends fun s' => Idle s' ∧ Keeps s s' := by
  have hi := h.setPend (e := .user) nofun
  unfold tickEnd
  dsimp only
  split_ifs
  · have hi' : Idle { s.setPend .user with preempt := QUANTUM } :=
      hi.congr rfl rfl rfl (fun _ => rfl) rfl (fun _ => rfl) (fun _ => rfl) rfl rfl
    exact resched_idle hi'.toSettled hi'.ndefers (.of_eq (fun _ => rfl) (fun _ => Iff.rfl) rfl rfl)
  · refine .ok ⟨hi.congr rfl rfl rfl (fun _ => rfl) rfl (fun _ => rfl) (fun _ => rfl) rfl rfl, ?_⟩
    exact .of_eq (fun _ => rfl) (fun _ => Iff.rfl) rfl rfl

end Sys

end Xinu
