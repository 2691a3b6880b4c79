import Xinu.Kernel.MachineSpec

/-!
# The queues in every run

A run is plain when it makes no use of virtual memory: its steps are the system calls on the tables
of the kernel, clock ticks, and the ends of the calls in which the processor changes hands. In every
state that a plain run reaches, the queues agree with the states of the processes.
-/

namespace Xinu

open LinkedQueue Sys

/-! ## Plain runs -/

/-- A system call that works on the tables of the kernel alone. -/
def Call.Plain : Call → Prop
  | .vcreate _ _ | .vmalloc _ | .vfree _ _ | .freeFfsPages | .allocatedVirtualPages
    _ | .usedFfsFrames _ => False
  | _ => True

/-- An event that works on the tables of the kernel alone. -/
def Event.Plain : Event → Prop
  | .call c => c.Plain
  | .fault _ => False
  | .tick | .cont => True

/-- The states that plain runs reach from boot. -/
def Kernel.PlainReach : Kernel → Prop := Kernel.Reach fun _ e => e.Plain

/-- Every process but the null process has the system directory. -/
def SystemPages (s : Sys) : Prop :=
  ∀ p, p ≠ NULLPROC → s.state p ≠ .free → (s.proctab p).page_addr = PAGE_DIR_ADDR_START

/-- What a plain run keeps. -/
structure PlainInv (k : Kernel) : Prop where
  /-- The tables are in order. -/
  idle : Idle k.sys
  /-- Every process has the system directory. -/
  pages : SystemPages k.sys

/-- A system call gives new processes the system directory, and keeps those of the others. -/
theorem SystemPages.keeps {s s' : Sys} (h : SystemPages s) (hk : Keeps s s') : SystemPages s' := by
  intro p hp hp'
  by_cases hf : s.state p = .free
  · exact hk.fresh p hf hp'
  · exact (hk.page p hf).trans (h p hp hf)

/-- What a call does to the tables holds of the machine, and memory stays. -/
theorem lift_ends {k : Kernel} {r : Res Sys} {P : Sys → Prop} (h : r.Ends P) :
    (k.lift r).Ends fun k' => P k'.sys ∧ k'.mem = k.mem := by
  obtain ⟨s, rfl, hs⟩ := h
  exact ⟨_, rfl, hs, rfl⟩

/-- A plain system call keeps the queues. -/
theorem call_plain {k : Kernel} (h : Idle k.sys) {c : Call} (hc : c.Plain)
    (hn : k.sys.currpid = NULLPROC → c.ofNull) (fuel junk : ℕ) :
    (k.call fuel junk c).Ends fun k' => (Idle k'.sys ∧ Keeps k.sys k'.sys) ∧ k'.mem = k.mem := by
  cases c with
  | create ssize priority => exact .ok ⟨create_spec h ssize priority, rfl⟩
  | resume pid => exact lift_ends (resume_spec h pid)
  | suspend pid => exact lift_ends (suspend_spec h pid)
  | kill pid => exact lift_ends (killStart_spec h pid)
  | chprio pid newprio => exact .ok ⟨chprio_spec h pid newprio, rfl⟩
  | yield => exact lift_ends (yield_spec h)
  | semcreate count => exact .ok ⟨semcreate_spec h count, rfl⟩
  | wait sem => exact lift_ends (wait_spec h hn sem)
  | signal sem => exact lift_ends (signal_spec h sem)
  | signaln sem count => exact lift_ends (signaln_spec h sem count)
  | semreset sem count => exact lift_ends (semreset_spec h sem count)
  | semdelete sem => exact lift_ends (semdelete_spec h sem)
  | sleepms delay => exact lift_ends (sleepms_spec h hn delay)
  | recvtime maxwait => exact lift_ends (recvtime_spec h hn maxwait)
  | receive => exact lift_ends (receive_spec h hn)
  | recvclr => exact .ok ⟨recvclr_spec h, rfl⟩
  | send pid msg => exact lift_ends (sendCall_spec h pid msg)
  | vcreate => exact hc.elim
  | vmalloc => exact hc.elim
  | vfree => exact hc.elim
  | freeFfsPages => exact hc.elim
  | allocatedVirtualPages => exact hc.elim
  | usedFfsFrames => exact hc.elim

/-- `kill_vm` of the system directory does nothing but load CR3. -/
theorem killVm_system (c : Cpu) :
    killVm c PAGE_DIR_ADDR_START = .ok (c.writeCr3 (c.cr3At PAGE_DIR_ADDR_START)) := by
  unfold killVm
  exact if_neg (not_not.mpr rfl)

/-- The process that `cont` lets go on with is not free, so it is not the null process if it is going to kill
itself. -/
theorem cont_plain {k : Kernel} (h : PlainInv k) : k.cont.Ends fun k' => PlainInv k' ∧ k'.mem = k.mem := by
  have hi := h.idle
  have hkeep : ∀ {s' : Sys}, Idle s' ∧ Keeps k.sys s' →
      PlainInv { k with sys := s' } ∧ ({ k with sys := s' } : Kernel).mem = k.mem :=
    fun hs => ⟨⟨hs.1, h.pages.keeps hs.2⟩, rfl⟩
  unfold Kernel.cont
  cases hp : k.sys.pend k.sys.currpid with
  | user => exact .ok ⟨h, rfl⟩
  | suspend pid => exact .ok (hkeep (suspendEnd_spec hi pid))
  | receive => exact .ok (hkeep (receiveEnd_spec hi))
  | recvtime => exact .ok (hkeep (recvtimeEnd_spec hi))
  | clk =>
    refine (lift_ends (tickEnd_spec hi)).mono fun k' hk' => ?_
    exact ⟨⟨hk'.1.1, h.pages.keeps hk'.1.2⟩, hk'.2⟩
  | kill pid =>
    obtain ⟨hpid, hn⟩ := hi.states.kill_pid _ _ hp
    by_cases hc : k.sys.state pid = .curr
    · -- The process kills itself.
      obtain rfl := hi.states.curr_only pid hpid hc
      have hpage : k.currAddr = PAGE_DIR_ADDR_START := h.pages _ hn hi.curr_live
      obtain ⟨s', he, hx⟩ := killEnd_self hi hn (by rw [hpage]; exact killVm_system _)
      refine ⟨_, he, ⟨hx.idle, fun p hp0 hp' => ?_⟩, rfl⟩
      exact (hx.page p).trans (h.pages p hp0 fun hf => hp' ((hx.free p).mpr (.inr hf)))
    · obtain ⟨s', he, hx⟩ := killEnd_other hi hpid hn hc
      refine ⟨_, he, ⟨hx.idle, fun p hp0 hp' => ?_⟩, rfl⟩
      have hne : p ≠ pid := fun hpe => hp' (hpe ▸ hx.state)
      have hsame := hx.other p hne
      rw [Sys.state, hsame] at hp'
      exact (congrArg Procent.page_addr hsame).trans (h.pages p hp0 hp')

/-- A plain event keeps the invariant, and memory. -/
theorem exec_plain {k : Kernel} (h : PlainInv k) {e : Event}
    (he : k.Enabled e) (hp : e.Plain) (fuel junk : ℕ) :
    (k.exec fuel junk e).Ends fun k' => PlainInv k' ∧ k'.mem = k.mem := by
  cases e with
  | call c =>
    refine (call_plain h.idle hp he.2.2 fuel junk).mono fun k' hk' => ?_
    exact ⟨⟨hk'.1.1, h.pages.keeps hk'.1.2⟩, hk'.2⟩
  | fault v => exact hp.elim
  | tick =>
    refine (lift_ends (tick_spec h.idle)).mono fun k' hk' => ?_
    exact ⟨⟨hk'.1.1, h.pages.keeps hk'.1.2⟩, hk'.2⟩
  | cont => exact cont_plain h

/-- At boot the invariant of the plain runs holds. -/
theorem sysinit_plain (b : Boot) : PlainInv (sysinit b) := by
  refine ⟨sysinit_idle b, fun p hp hp' => ?_⟩
  rw [sysinit_proc, if_neg hp] at hp'
  exact absurd rfl hp'

/-- Every plain run keeps the invariant. -/
theorem plain_inv {k : Kernel} (h : k.PlainReach) : PlainInv k := by
  induction h with
  | boot b hz => exact sysinit_plain b
  | step hk hp hs ih =>
    obtain ⟨-, he, fuel, junk, hs⟩ := hs
    obtain ⟨k', he', hinv, -⟩ := exec_plain ih he hp fuel junk
    rw [he'] at hs
    rcases hs with hs | hs
    · injection hs with hs
      rw [← hs]
      exact hinv
    · cases hs

/-! ## The agreement -/

/-- The queues, each with its contents from its head to its tail, agree with the states of the processes. -/
structure QueuesAgree (s : Sys) (q : ℤ → List ℤ) : Prop where
  /-- Every queue is a doubly linked list between its head and its tail. -/
  linked : ∀ h ∈ queueIds, (h :: (q h ++ [queuetail h])).IsChain fun i j =>
    (s.queuetab i).qnext = j ∧ (s.queuetab j).qprev = i
  /-- Only processes are on queues. -/
  pids : ∀ h ∈ queueIds, ∀ p ∈ q h, IsPid p
  /-- Every process is on at most one queue, once. -/
  nodup : ∀ h ∈ queueIds, (q h).Nodup
  /-- No process is on two queues. -/
  disjoint : ∀ h ∈ queueIds, ∀ h' ∈ queueIds, ∀ p, p ∈ q h → p ∈ q h' → h = h'
  /-- The ready processes are those on the ready list. -/
  ready : ∀ p, IsPid p → (p ∈ q s.readylist ↔ s.state p = .ready)
  /-- The sleeping ones are those on the queue of sleeping processes. -/
  sleep : ∀ p, IsPid p → (p ∈ q s.sleepq ↔ s.state p = .sleep ∨ s.state p = .rectim)
  /-- Those that wait on a semaphore are those on its queue. -/
  wait : ∀ p n, IsPid p → IsSem n →
    (p ∈ q (s.semtab n).squeue ↔ s.state p = .wait ∧ (s.proctab p).prsem = n)
  /-- In any other state a process is on no queue. -/
  none : ∀ h ∈ queueIds, ∀ p ∈ q h, s.state p = .ready ∨ s.state p = .sleep ∨ s.state p = .rectim ∨
    s.state p = .wait ∧ IsSem (s.proctab p).prsem ∧ h = (s.semtab (s.proctab p).prsem).squeue
  /-- The kernel knows its queues by identifiers of queue heads. -/
  ids : s.readylist ∈ queueIds ∧ s.sleepq ∈ queueIds ∧ ∀ n, IsSem n → (s.semtab n).squeue ∈ queueIds
  /-- Exactly one process is current: the running one. -/
  curr : IsPid s.currpid ∧ ∀ p, IsPid p → (s.state p = .curr ↔ p = s.currpid)

/-- The queue on which a process should be, by its state. -/
theorem home_eq {s : Sys} {p : ℤ} (hp : IsPid p) :
    s.home p = match s.state p with
      | .ready => some s.readylist
      | .sleep | .rectim => some s.sleepq
      | .wait => some (s.semtab (s.proctab p).prsem).squeue
      | _ => none := home_of_pid hp

/-- In a running state the queues agree with the states of the processes. -/
theorem Sys.Running.queuesAgree {s : Sys} (h : Running s) : ∃ q, QueuesAgree s q := by
  obtain ⟨q, ht⟩ := h.linked.threads
  -- Who is on a queue has the state that goes with it, and the other way round.
  have hmem : ∀ x ∈ queueIds, ∀ p, p ∈ q x → s.home p = some x := fun x hx p hp => (ht.mem_iff x hx p).mp hp
  have hpid : ∀ x ∈ queueIds, ∀ p ∈ q x, IsPid p :=
    fun x hx p hp => h.linked.pid p (by rw [hmem x hx p hp]; exact nofun)
  have hsem : ∀ {n m : ℤ}, IsSem n → IsSem m → (s.semtab n).squeue = (s.semtab m).squeue → n = m := by
    intro n m hn hm he
    rw [h.linked.squeue n hn, h.linked.squeue m hm] at he
    omega
  have hwait := h.states.wait_sem
  have hr := h.linked.readylist
  have hs := h.linked.sleepq
  have hsq := h.linked.squeue
  refine ⟨q, ht.chain, hpid, ht.nodup, fun x hx y hy p hpx hpy => ?_, fun p hp => ?_, fun p hp => ?_,
    fun p n hp hn => ?_, fun x hx p hpx => ?_, ⟨h.linked.readylist_mem, h.linked.sleepq_mem,
    fun n hn => h.linked.squeue_mem hn⟩, h.states.currpid,
      fun p hp => ⟨h.states.curr_only p hp, fun he => ?_⟩⟩
  -- No process is on two queues, as it has one state.
  · exact Option.some.inj ((hmem x hx p hpx).symm.trans (hmem y hy p hpy))
  · rw [ht.mem_iff _ h.linked.readylist_mem, home_ready_iff h.linked h.states hp]
  · rw [ht.mem_iff _ h.linked.sleepq_mem, home_eq hp]
    -- By cases on the state: each has at most one queue.
    cases hst : s.state p with
    | wait =>
      have hlt : (s.proctab p).prsem < 100 := (hwait p hp hst).2
      simp only [hsq _ (hwait p hp hst), hs, Option.some.injEq, reduceCtorEq, or_self, iff_false]
      omega
    | ready => simp only [hr, hs]; decide
    | _ => simp
  · rw [ht.mem_iff _ (h.linked.squeue_mem hn), home_eq hp]
    have hlt : n < 100 := hn.2
    cases hst : s.state p with
    | wait =>
      simp only [Option.some.injEq, true_and]
      exact ⟨hsem (hwait p hp hst) hn, fun he => by rw [he]⟩
    | ready =>
      simp only [hr, hsq n hn, Option.some.injEq, reduceCtorEq, false_and, iff_false]
      omega
    | sleep =>
      simp only [hs, hsq n hn, Option.some.injEq, reduceCtorEq, false_and, iff_false]
      omega
    | rectim =>
      simp only [hs, hsq n hn, Option.some.injEq, reduceCtorEq, false_and, iff_false]
      omega
    | _ => simp
  · have hp := hpid x hx p hpx
    have hhome := (home_eq hp).symm.trans (hmem x hx p hpx)
    cases hst : s.state p with
    | wait =>
      rw [hst] at hhome
      exact .inr (.inr (.inr ⟨rfl, hwait p hp hst, (Option.some.inj hhome).symm⟩))
    | ready => exact .inl rfl
    | sleep => exact .inr (.inl rfl)
    | rectim => exact .inr (.inr (.inl rfl))
    | _ =>
      rw [hst] at hhome
      cases hhome
  · rw [he]
    exact h.curr

/-- **The queues agree with the states of the processes** in every state that a plain run reaches. -/
theorem queues_agree {k : Kernel} (h : k.PlainReach) : ∃ q, QueuesAgree k.sys q :=
  (plain_inv h).idle.toRunning.queuesAgree

/-- A machine with cleared memory and a megabyte of free memory. -/
def clearedBoot : Boot := ⟨⟨fun _ => Entry.zero⟩, 0, [(0x100000, 0x100000)], 0x100000, 0x200000⟩

/-- The state after system calls, one after another. -/
def Kernel.afterCalls (k : Kernel) : List Call → Kernel
  | [] => k
  | c :: cs => (k.after (.call c)).afterCalls cs

/-- Each of these calls can be made when it comes to it, and ends. -/
def Kernel.CanCalls (k : Kernel) : List Call → Prop
  | [] => True
  | c :: cs => k.CanStep (.call c) ∧ (k.after (.call c)).CanCalls cs

instance decidableCanCalls : ∀ (cs : List Call) (k : Kernel), Decidable (k.CanCalls cs)
  | [], _ => .isTrue trivial
  | _ :: cs, _ => @instDecidableAnd _ _ _ (decidableCanCalls cs _)

/-- Plain calls extend a plain run. -/
theorem Kernel.CanCalls.plainReach {cs : List Call} : ∀ {k : Kernel}, k.PlainReach → k.CanCalls cs →
    (∀ c ∈ cs, c.Plain) → (k.afterCalls cs).PlainReach := by
  induction cs with
  | nil => exact fun hk _ _ => hk
  | cons c cs ih =>
    intro k hk hcan hplain
    have hstep : (k.after (.call c)).PlainReach :=
      .step (e := .call c) hk (hplain c List.mem_cons_self) hcan.1.step
    exact ih hstep hcan.2 fun c' hc' => hplain c' (List.mem_cons_of_mem _ hc')

/-- The null process makes three processes and a semaphore. Process 3 runs first and resumes process
2, which waits for the semaphore, and process 1, which sleeps. -/
def mixedCalls : List Call :=
  [.create 1024 20, .create 1024 20, .create 1024 10, .semcreate 0, .resume 3, .resume 2, .wait 0,
  .resume 1, .sleepms 1000]

/-- Process 3 runs again. -/
def mixedRuns : Kernel := (sysinit clearedBoot).afterCalls mixedCalls

set_option maxRecDepth 100000 in
/-- What is computed about this run: the null process is ready, process 1 sleeps, and process 2
waits for semaphore 0. -/
theorem mixedRuns_facts : (sysinit clearedBoot).CanCalls mixedCalls ∧ mixedRuns.sys.state 0 = .ready ∧
    mixedRuns.sys.state 1 = .sleep ∧ mixedRuns.sys.state 2 = .wait ∧ (mixedRuns.sys.proctab 2).prsem = 0 := by
  decide +kernel

/-- The queues agree with the states when a process is ready, one sleeps and one waits: each is on
its queue. -/
theorem queues_agree_create : ∃ q, QueuesAgree mixedRuns.sys q ∧ 0 ∈ q mixedRuns.sys.readylist ∧
    1 ∈ q mixedRuns.sys.sleepq ∧ 2 ∈ q (mixedRuns.sys.semtab 0).squeue := by
  obtain ⟨hcan, hready, hsleep, hwait, hsem⟩ := mixedRuns_facts
  have hboot : (sysinit clearedBoot).PlainReach := .boot clearedBoot fun _ _ _ => rfl
  have hreach : mixedRuns.PlainReach := hcan.plainReach hboot fun c hc => by
    simp only [mixedCalls, List.mem_cons, List.not_mem_nil, or_false] at hc
    rcases hc with rfl | rfl | rfl | rfl | rfl | rfl | rfl | rfl | rfl <;> trivial
  generalize mixedRuns = k at *
  obtain ⟨q, hq⟩ := queues_agree hreach
  refine ⟨q, hq, (hq.ready 0 ⟨by decide, by decide⟩).mpr hready,
    (hq.sleep 1 ⟨by decide, by decide⟩).mpr (.inl hsleep), ?_⟩
  exact (hq.wait 2 0 ⟨by decide, by decide⟩ ⟨by decide, by decide⟩).mpr ⟨hwait, hsem⟩

end Xinu
