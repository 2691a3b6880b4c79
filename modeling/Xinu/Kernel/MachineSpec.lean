import Xinu.Kernel.Machine
import Xinu.Kernel.CallsSpec

/-!
# What boot and the end of `kill` do

`sysinit` leaves the queues empty and the null process running. The end of `kill` takes its process
from the queue on which it is, or gives the processor away.
-/

namespace Xinu

open LinkedQueue

namespace Sys

variable {s s' : Sys}

/-! ## Boot -/

/-- A new queue: the next identifier, with an empty queue in its two entries. -/
theorem newqueue_spec (hq : s.nextqid < NQENT) :
    ∃ t, s.newqueue = (s.nextqid, { s with queuetab := t, nextqid := s.nextqid + 2 }) ∧
      t s.nextqid = { qkey := MAXKEY, qnext := s.nextqid + 1, qprev := EMPTY } ∧
      t (s.nextqid + 1) = { qkey := MINKEY, qnext := EMPTY, qprev := s.nextqid } ∧
      ∀ i, i ≠ s.nextqid → i ≠ s.nextqid + 1 → t i = s.queuetab i := by
  unfold newqueue
  rw [if_neg (not_le.mpr hq)]
  refine ⟨_, rfl, ?_, ?_, fun i h₁ h₂ => ?_⟩
  · have hne : s.nextqid ≠ s.nextqid + 1 := by omega
    exact (Function.update_of_ne hne ..).trans (Function.update_self ..)
  · exact Function.update_self ..
  · exact (Function.update_of_ne h₂ ..).trans (Function.update_of_ne h₁ ..)

/-- The queues below an identifier are made: each is empty, and the tails have the smallest key. -/
structure QueuesMade (t : ℤ → Qentry) (n : ℤ) : Prop where
  /-- The heads have the largest key, and their tail behind them. -/
  head : ∀ h, 100 ≤ h → h < n → h % 2 = 0 → t h = { qkey := MAXKEY, qnext := h + 1, qprev := EMPTY }
  /-- The tails have the smallest key, and their head before them. -/
  tail : ∀ h, 100 ≤ h → h < n → h % 2 = 0 → t (h + 1) = { qkey := MINKEY, qnext := EMPTY, qprev := h }

/-- One more queue. -/
theorem newqueue_made {n : ℤ} (hm : QueuesMade s.queuetab n) (hq : s.nextqid = n) (hlt : n < 304)
    (he : n % 2 = 0) :
    ∃ t, s.newqueue = (n, { s with queuetab := t, nextqid := n + 2 }) ∧ QueuesMade t (n + 2) := by
  obtain ⟨t, h₁, h₂, h₃, h₄⟩ := newqueue_spec (s := s) (by rw [hq]; exact hlt)
  rw [hq] at h₁ h₂ h₃ h₄
  refine ⟨t, h₁, fun h hge hlt' hev => ?_, fun h hge hlt' hev => ?_⟩
  · rcases eq_or_ne h n with rfl | hne
    · exact h₂
    · rw [h₄ h hne (by omega)]
      exact hm.head h hge (by omega) hev
  · rcases eq_or_ne h n with rfl | hne
    · exact h₃
    · rw [h₄ (h + 1) (by omega) (by omega)]
      exact hm.tail h hge (by omega) hev

/-- The first `n` semaphores are free, and have their queues. -/
structure SemsMade (u : ℤ → Sentry) (n : ℤ) : Prop where
  /-- The entry is free, with count 0 and the identifier of its queue. -/
  entry : ∀ m, 0 ≤ m → m < n → u m = { sstate := .free, scount := 0, squeue := 100 + 2 * m }

/-- The loop of `sysinit` over the semaphores. -/
theorem initSems_spec (hq : s.nextqid = 100) (n : ℕ) (hn : n ≤ 100) :
    ∃ t u, initSems n s = { s with queuetab := t, semtab := u, nextqid := 100 + 2 * n } ∧
      QueuesMade t (100 + 2 * n) ∧ SemsMade u n := by
  induction n with
  | zero =>
    refine ⟨s.queuetab, s.semtab, ?_, ⟨fun h h₁ h₂ => ?_, fun h h₁ h₂ => ?_⟩, ⟨fun m h₁ h₂ => ?_⟩⟩
    · change s = { s with nextqid := 100 }
      rw [← hq]
    all_goals omega
  | succ n ih =>
    obtain ⟨t, u, he, hm, hs⟩ := ih (by omega)
    obtain ⟨t', he', hm'⟩ := newqueue_made (s := initSems n s) (n := 100 + 2 * n) (by rw [he]; exact hm)
      (by rw [he]) (by omega) (by omega)
    refine ⟨t', Function.update u n { sstate := .free, scount := 0, squeue := 100 + 2 * n }, ?_, ?_,
      ⟨fun m h₁ h₂ => ?_⟩⟩
    · unfold initSems
      rw [he']
      dsimp only
      rw [he]
      unfold setSem
      simp only [Nat.cast_add, Nat.cast_one]
      congr 1
    · rw [show (100 : ℤ) + 2 * (n + 1 : ℕ) = 100 + 2 * n + 2 by push_cast; omega]
      exact hm'
    · rcases eq_or_ne m n with rfl | hne
      · exact Function.update_self ..
      · rw [Function.update_of_ne hne]
        exact hs.entry m h₁ (by push_cast at h₂; omega)

/-- Booting makes the queues of all semaphores, the ready list and the queue of sleeping processes.
-/
theorem initQueues_spec (hq : s.nextqid = 100) :
    ∃ t u, s.initQueues = { s with
        queuetab := t, semtab := u, nextqid := 304, readylist := 300, sleepq := 302, preempt := QUANTUM } ∧
      Sys.QueuesMade t 304 ∧ Sys.SemsMade u 100 := by
  obtain ⟨t, u, he, hm, hs⟩ := initSems_spec hq 100 (le_refl _)
  obtain ⟨t₁, he₁, hm₁⟩ :=
    newqueue_made (s := initSems 100 s) (n := 300) (by rw [he]; exact hm) (by rw [he]; rfl)
    (by omega) (by omega)
  obtain ⟨t₂, he₂, hm₂⟩ := newqueue_made
    (s := { s with queuetab := t₁, semtab := u, nextqid := 302, readylist := 300 }) (n := 302) hm₁ rfl
    (by omega) (by omega)
  refine ⟨t₂, u, ?_, hm₂, hs⟩
  unfold initQueues
  rw [show NSEM.toNat = 100 from rfl, he₁]
  dsimp only
  rw [he]
  dsimp only
  norm_num only
  rw [he₂]
  rfl

end Sys

/-- The tables that `sysinit` leaves: the queues are made, and the null process is current. -/
theorem sysinit_eq (b : Boot) : ∃ t u, (sysinit b).sys = Sys.setProc { b.sys.initNull with
      queuetab := t, semtab := u, nextqid := 304, readylist := 300, sleepq := 302, preempt := QUANTUM,
      cr3 := (initializePageTable ⟨b.mem, b.cr3, false⟩).2.cr3 }
      NULLPROC (fun p => { p with page_addr := (initializePageTable ⟨b.mem, b.cr3, false⟩).1 }) ∧
    Sys.QueuesMade t 304 ∧ Sys.SemsMade u 100 := by
  obtain ⟨t, u, he, hm, hs⟩ := Sys.initQueues_spec (s := b.sys.initNull) rfl
  refine ⟨t, u, ?_, hm, hs⟩
  unfold sysinit
  rw [he]
  rfl

/-- The variables that `sysinit` leaves: the null process runs, alone, with nothing deferred. -/
theorem sysinit_vars (b : Boot) : (sysinit b).sys.halted = false ∧ (sysinit b).sys.currpid = NULLPROC ∧
    (sysinit b).sys.ndefers = 0 ∧ ((sysinit b).sys.pend = fun _ => .user) ∧ (sysinit b).sys.prcount = 1 ∧
    (sysinit b).sys.readylist = 300 ∧ (sysinit b).sys.sleepq = 302 ∧ (sysinit b).sys.ie NULLPROC = true := by
  obtain ⟨t, u, he, -, -⟩ := sysinit_eq b
  rw [he]
  exact ⟨rfl, rfl, rfl, rfl, rfl, rfl, rfl, rfl⟩

/-- The entries of the process table at boot: only that of the null process is used. -/
theorem sysinit_proc (b : Boot) (p : ℤ) :
    (sysinit b).sys.state p = if p = NULLPROC then .curr else .free := by
  obtain ⟨t, u, he, -, -⟩ := sysinit_eq b
  rw [he]
  unfold Sys.state
  rw [Sys.setProc_apply]
  split_ifs with h0
  · rfl
  · change (b.sys.initNull.proctab p).prstate = _
    unfold Sys.initNull
    dsimp only
    rw [Sys.setProc_other h0]
    rfl

/-- At boot the queues are empty, and the null process is running. -/
theorem sysinit_idle (b : Boot) : Sys.Idle (sysinit b).sys := by
  have hproc := sysinit_proc b
  obtain ⟨-, hc, hd, hpe, -, hr, hsl, -⟩ := sysinit_vars b
  obtain ⟨t, u, he, hm, hs⟩ := sysinit_eq b
  have ht : (sysinit b).sys.queuetab = t := by rw [he]; rfl
  have hu : (sysinit b).sys.semtab = u := by rw [he]; rfl
  generalize (sysinit b).sys = s at *
  -- The null process runs, and no other entry of the table is used.
  have hhome : s.home = fun _ => none := by
    funext p
    rcases eq_or_ne p NULLPROC with rfl | hne
    · exact Sys.home_curr (by rw [hproc, if_pos rfl])
    · have hfree := hproc p
      rw [if_neg hne] at hfree
      unfold Sys.state at hfree
      unfold Sys.home Sys.homeOf
      rw [hfree]
      split_ifs <;> rfl
  -- The head of each queue points to its tail, and back.
  have hlink : ∀ h ∈ queueIds, Link s.next s.prev h (queuetail h) := by
    rintro h ⟨h₁, h₂, h₃⟩
    refine ⟨?_, ?_⟩
    · change (s.queuetab h).qnext = _
      rw [ht, hm.head h h₁ (by omega) h₃]
    · change (s.queuetab (h + 1)).qprev = _
      rw [ht, hm.tail h h₁ (by omega) h₃]
  -- So each queue is empty, and the states agree with the table of queues.
  refine ⟨⟨⟨⟨⟨fun _ => [], fun h hh => ?_, fun _ _ => List.nodup_nil, fun h _ x => ?_, fun _ _ => ?_,
    fun _ _ => ?_⟩, fun p hp => ?_, hr, hsl, fun n hn => ?_, ?_⟩, ?_, fun p _ hp => ?_, ?_, fun p _ hp => ?_,
    fun p t hp => ?_⟩, ?_⟩, hd⟩
  · exact List.IsChain.cons_cons (hlink h hh) (List.IsChain.singleton _)
  · rw [hhome]
    simp
  · rw [hhome]
  · rw [hhome]
  · rw [hhome] at hp
    exact absurd rfl hp
  · rw [hu, hs.entry n hn.1 hn.2]
  · change (s.queuetab 301).qkey = _
    rw [ht]
    exact congrArg Qentry.qkey (hm.tail 300 (by decide) (by decide) (by decide))
  · rw [hc]
    exact ⟨by decide, by decide⟩
  · rw [hproc] at hp
    split_ifs at hp with h0
    rw [hc, h0]
  · exact .inl (by rw [hproc, if_pos rfl])
  · rw [hproc] at hp
    split_ifs at hp
  · rw [hpe] at hp
    cases hp
  · rw [hc, hproc, if_pos rfl]

/-! ## The end of `kill` -/

namespace Sys

/-- What the end of `kill` changes when the process is not the running one. -/
structure Removed (s s' : Sys) (pid : ℤ) : Prop where
  /-- The tables are in order. -/
  idle : Idle s'
  /-- The entry is free. -/
  state : s'.state pid = .free
  /-- The other entries stay as they are. -/
  other : ∀ p, p ≠ pid → s'.proctab p = s.proctab p
  /-- The same process goes on. -/
  currpid : s'.currpid = s.currpid
  /-- CR3 stays. -/
  cr3 : s'.cr3 = s.cr3
  /-- The interrupt flags of all processes stay. -/
  ie : s'.ie = s.ie
  /-- The running process has nothing left to do in the kernel. -/
  pend : s'.pend = Function.update s.pend s.currpid .user

/-- The stack is given back to the list of free blocks. -/
theorem freestk_memlist (s : Sys) (p len : ℕ) : ∃ l, s.freestk p len = { s with memlist := l } := by
  unfold freestk
  dsimp only
  split_ifs
  · exact ⟨s.memlist, rfl⟩
  · exact ⟨_, rfl⟩

/-- A process that has been taken from its queue is removed. -/
theorem removed_of_taken (h : Idle s) {pid : ℤ} (hp : IsPid pid) (hn : pid ≠ NULLPROC)
    (hc : s.state pid ≠ .curr) (t : ℤ → Qentry) (u : ℤ → Sentry) (l : List (ℕ × ℕ))
    (hu : ∀ n, (u n).squeue = (s.semtab n).squeue)
    (hl : Linked { s with queuetab := t, semtab := u, memlist := l } (Function.update s.home pid none)) :
    Removed s (({ s with queuetab := t, semtab := u, memlist := l }.setState pid .free).setPend
      .user) pid := by
  have hpc : pid ≠ s.currpid := by
    rintro rfl
    exact hc h.curr
  have hs : States { s with queuetab := t, semtab := u, memlist := l } :=
    h.states.congr rfl (fun _ => rfl) (fun _ => rfl) rfl
  have hhome : ({ s with queuetab := t, semtab := u, memlist := l } : Sys).home = s.home := by
    funext x
    unfold home homeOf
    simp only [hu]
  have hi : Idle ({ s with queuetab := t, semtab := u, memlist := l }.setState pid .free) :=
    setState_idle (by rw [hhome]; exact hl) hs h.curr h.ndefers hp hpc hn (.inr rfl)
  exact ⟨hi.setPend nofun, setState_same _ _ _, 
    fun p hne => setProc_other hne s fun e => { e with prstate := .free }, rfl, rfl, rfl, rfl⟩

end Sys

open Sys

variable {k : Kernel}

/-- The end of `kill` for a process that is not the running one. -/
theorem killEnd_other (h : Idle k.sys) {pid : ℤ} (hp : IsPid pid) (hn : pid ≠ NULLPROC)
    (hc : k.sys.state pid ≠ .curr) :
    ∃ s', k.killEnd pid = .ok { k with sys := s' } ∧ Removed k.sys s' pid := by
  obtain ⟨l, hl⟩ := k.sys.freestk_memlist (k.sys.proctab pid).prstkbase (k.sys.proctab pid).prstklen
  have hi : Idle { k.sys with memlist := l } :=
    h.congr rfl rfl rfl (fun _ => rfl) rfl (fun _ => rfl) (fun _ => rfl) rfl rfl
  have hhome := home_of_pid (s := k.sys) hp
  have hstate : k.sys.state pid = (k.sys.proctab pid).prstate := rfl
  unfold Kernel.killEnd
  dsimp only
  rw [hl]
  unfold homeOf at hhome
  -- A process whose state calls for no queue is on none.
  have hnone : k.sys.home pid = none →
      Removed k.sys (({ k.sys with memlist := l }.setState pid .free).setPend .user) pid := by
    intro hnone
    refine removed_of_taken h hp hn hc k.sys.queuetab k.sys.semtab l (fun _ => rfl) ?_
    rw [update_home_none hnone]
    exact hi.linked
  have hsleep : k.sys.home pid = some k.sys.sleepq →
      Removed k.sys ((({ k.sys with memlist := l }.unsleep pid).setState pid .free).setPend .user) pid := by
    intro hsleep
    obtain ⟨hlink, t, ht⟩ := unsleep_linked hi.toRunning hsleep
    rw [ht] at hlink ⊢
    exact removed_of_taken h hp hn hc t k.sys.semtab l (fun _ => rfl) hlink
  cases hst : (k.sys.proctab pid).prstate with
  | curr => exact absurd (hstate.trans hst) hc
  | free => exact ⟨_, rfl, hnone (by rw [hhome, hst])⟩
  | susp => exact ⟨_, rfl, hnone (by rw [hhome, hst])⟩
  | recv => exact ⟨_, rfl, hnone (by rw [hhome, hst])⟩
  | sleep => exact ⟨_, rfl, hsleep (by rw [hhome, hst])⟩
  | rectim => exact ⟨_, rfl, hsleep (by rw [hhome, hst])⟩
  | ready =>
    rw [hst] at hhome
    have hlink := getitem_linked hi.linked hi.linked.readylist_mem hhome
    exact ⟨_, rfl, removed_of_taken h hp hn hc _ k.sys.semtab l (fun _ => rfl) hlink⟩
  | wait =>
    rw [hst] at hhome
    have hsem := h.states.wait_sem pid hp hst
    have hr := hi.toRunning.setSem (k.sys.proctab pid).prsem
      (fun e => { e with scount := int32 (e.scount + 1) }) fun _ => rfl
    have hq := setSem_squeue (f := fun e => { e with scount := int32 (e.scount + 1) }) (fun _ => rfl)
      { k.sys with memlist := l } (k.sys.proctab pid).prsem
    have hl' := hr.linked
    rw [home_setSem (f := fun e => { e with scount := int32 (e.scount + 1) }) fun _ => rfl] at hl'
    have hlink := getitem_linked hl' (hi.linked.squeue_mem hsem) hhome
    exact ⟨_, rfl, removed_of_taken h hp hn hc _ _ l hq hlink⟩

/-- What the end of `kill` changes when a process kills itself. -/
structure Exited (s s' : Sys) (pid : ℤ) : Prop where
  /-- The tables are in order. -/
  idle : Idle s'
  /-- The entry is free now, and those that have been. -/
  free : ∀ p, s'.state p = .free ↔ p = pid ∨ s.state p = .free
  /-- The directories in the table stay. -/
  page : ∀ p, (s'.proctab p).page_addr = (s.proctab p).page_addr
  /-- CR3 is that of the process that runs. -/
  cr3 : s'.Cr3Ok

/-- The end of `kill` for the running process: its memory is released, and another process runs. -/
theorem killEnd_self (h : Idle k.sys) (hn : k.sys.currpid ≠ NULLPROC) {c : Cpu}
    (hk : killVm k.cpu k.currAddr = .ok c) :
    ∃ s', k.killEnd k.sys.currpid = .ok ⟨s', c.mem⟩ ∧ Exited k.sys s' k.sys.currpid := by
  obtain ⟨l, hl⟩ := k.sys.freestk_memlist (k.sys.proctab k.sys.currpid).prstkbase
    (k.sys.proctab k.sys.currpid).prstklen
  -- Releasing the memory keeps the queues.
  have hi : Idle { k.sys with memlist := l, cr3 := c.cr3 } :=
    h.congr rfl rfl rfl (fun _ => rfl) rfl (fun _ => rfl) (fun _ => rfl) rfl rfl
  -- The process leaves the running state, and is on no queue.
  have hset : Settled ({ k.sys with memlist := l, cr3 := c.cr3 }.setState k.sys.currpid .free) := by
    refine setState_settled ?_ hi.states hi.states.currpid nofun nofun fun he => absurd he hn
    have hnone : ({ k.sys with memlist := l, cr3 := c.cr3 } : Sys).home k.sys.currpid = none :=
      home_curr hi.curr
    change Linked _ (Function.update ({ k.sys with memlist := l, cr3 := c.cr3 } : Sys).home
      k.sys.currpid none)
    rw [update_home_none hnone]
    exact hi.linked
  have hpc := h.states.currpid
  have hcurr : (k.sys.proctab k.sys.currpid).prstate = .curr := h.curr
  -- Then the scheduler takes the first process of the ready list.
  obtain ⟨s', hs', hr, hsched⟩ := resched_spec hset (show ¬ k.sys.ndefers > 0 by rw [h.ndefers]; decide)
  refine ⟨s', ?_, ⟨hr, hsched.ndefers.trans h.ndefers⟩, fun p => ?_, fun p => ?_, ?_⟩
  · unfold Kernel.killEnd
    dsimp only
    rw [hcurr, hl]
    unfold Kernel.currAddr at hk
    dsimp only
    rw [hk]
    simp only [Res.ok_bind]
    change (({ k.sys with memlist := l, cr3 := c.cr3 }.setState k.sys.currpid .free).resched >>= _) = _
    rw [hs']
    rfl
  · rw [hsched.free]
    rcases eq_or_ne p k.sys.currpid with rfl | hne
    · rw [setState_same]
      exact iff_of_true rfl (.inl rfl)
    · rw [setState_other hne]
      exact ⟨.inr, fun hc => hc.resolve_left hne⟩
  · rw [hsched.page]
    exact setState_page _ _ _ _
  · -- The old process is not in use, so another one runs.
    refine hsched.cr3.resolve_left fun hc => hr.curr_live ?_
    rw [hc.1, hsched.free]
    exact setState_same _ _ _

end Xinu
