import Xinu.Kernel.Sched
import Xinu.Kernel.QueueSpec

/-!
# What the scheduler does

`Settled s` says that every process is on the queue that its state calls for, and `Running s` that the running
process is moreover current. `resched` makes a settled state a running one. `Sched s s'` lists what the
functions of the scheduler leave alone.
-/

namespace Xinu

namespace Sys

/-! ## The invariant -/

/-- The queue that an entry of the process table calls for. -/
def homeOf (s : Sys) (e : Procent) : Option ℤ :=
  match e.prstate with
  | .ready => some s.readylist
  | .sleep | .rectim => some s.sleepq
  | .wait => some (s.semtab e.prsem).squeue
  | _ => none

/-- The queue on which a process should be. -/
def home (s : Sys) (p : ℤ) : Option ℤ := if IsPid p then s.homeOf (s.proctab p) else none

/-- What holds of the states of the processes. -/
structure States (s : Sys) : Prop where
  /-- The running process is a process. -/
  currpid : IsPid s.currpid
  /-- No other process is current. -/
  curr_only : ∀ p, IsPid p → s.state p = .curr → p = s.currpid
  /-- The null process is running, or ready to run. -/
  null : s.state NULLPROC = .curr ∨ s.state NULLPROC = .ready
  /-- A process that waits, waits on a semaphore. -/
  wait_sem : ∀ p, IsPid p → s.state p = .wait → IsSem (s.proctab p).prsem
  /-- A process that is going to be killed has a valid identifier. -/
  kill_pid : ∀ p t, s.pend p = .kill t → IsPid t ∧ t ≠ NULLPROC

/-- Every process is on the queue that its state calls for. -/
structure Settled (s : Sys) : Prop where
  /-- Each queue holds the processes whose home it is. -/
  linked : Linked s s.home
  /-- The states are in order. -/
  states : States s

/-- The running process is moreover current. -/
structure Running (s : Sys) : Prop extends Settled s where
  /-- The running process is current. -/
  curr : s.state s.currpid = .curr

/-- CR3 points at the directory of the running process. -/
def Cr3Ok (s : Sys) : Prop :=
  s.cr3 / PAGE_SIZE = (s.proctab s.currpid).page_addr / PAGE_SIZE ∧ s.state s.currpid ≠ .free

/-- What the functions of the scheduler leave alone. CR3 changes only together with the running process. -/
structure Sched (s s' : Sys) : Prop where
  /-- The directories stay. -/
  page : ∀ p, (s'.proctab p).page_addr = (s.proctab p).page_addr
  /-- The same entries are free. -/
  free : ∀ p, s'.state p = .free ↔ s.state p = .free
  /-- What is left to do in the kernel stays. -/
  pend : s'.pend = s.pend
  /-- Rescheduling is deferred as before. -/
  ndefers : s'.ndefers = s.ndefers
  /-- CR3 stays, or is that of the process that runs. -/
  cr3 : (s'.currpid = s.currpid ∧ s'.cr3 = s.cr3) ∨ s'.Cr3Ok

/-- Nothing has changed. -/
theorem Sched.refl (s : Sys) : Sched s s := ⟨fun _ => rfl, fun _ => Iff.rfl, rfl, rfl, .inl ⟨rfl, rfl⟩⟩

/-- CR3 stays right when the running process and its directory stay. -/
theorem Cr3Ok.congr {s s' : Sys} (h : s.Cr3Ok) (hc : s'.currpid = s.currpid) (hr : s'.cr3 = s.cr3)
    (hp : (s'.proctab s.currpid).page_addr = (s.proctab s.currpid).page_addr)
    (hf : s'.state s.currpid ≠ .free) : s'.Cr3Ok := by
  unfold Cr3Ok
  rw [hc, hr, hp]
  exact ⟨h.1, hf⟩

/-- Two changes by the scheduler, one after the other, are one. -/
theorem Sched.trans {s s' s'' : Sys} (h : Sched s s') (h' : Sched s' s'') : Sched s s'' := by
  refine ⟨fun p => (h'.page p).trans (h.page p), fun p => (h'.free p).trans (h.free p),
    h'.pend.trans h.pend, h'.ndefers.trans h.ndefers, ?_⟩
  rcases h'.cr3 with ⟨hc', hr'⟩ | hok
  · rcases h.cr3 with ⟨hc, hr⟩ | hok
    · exact .inl ⟨hc'.trans hc, hr'.trans hr⟩
    · exact .inr (hok.congr hc' hr' (h'.page _) (mt (h'.free _).mp hok.2))
  · exact .inr hok

section

variable {s s' : Sys} {p : ℤ}

/-- The queue of a process with a given entry. -/
theorem home_of_pid (hp : IsPid p) : s.home p = s.homeOf (s.proctab p) := if_pos hp

/-- The processes that should be on the ready list are the ready ones. -/
theorem home_ready_iff (hl : Linked s s.home) (hs : States s) (hp : IsPid p) :
    s.home p = some s.readylist ↔ s.state p = .ready := by
  rw [home_of_pid hp, homeOf]
  change _ ↔ (s.proctab p).prstate = _
  have hw := hs.wait_sem p hp
  change (s.proctab p).prstate = _ → _ at hw
  rw [hl.readylist, hl.sleepq]
  cases hst : (s.proctab p).prstate with
  | wait =>
    obtain ⟨h₁, h₂⟩ := hw hst
    have h₂' : (s.proctab p).prsem < 100 := h₂
    simp only [hl.squeue _ (hw hst), Option.some.injEq, reduceCtorEq, iff_false]
    omega
  | _ => simp

/-- The entries of the process table after one has changed. -/
theorem setProc_apply (s : Sys) (p : ℤ) (f : Procent → Procent) (x : ℤ) :
    (s.setProc p f).proctab x = if x = p then f (s.proctab p) else s.proctab x :=
  Function.update_apply ..

/-- The entry of the process is the one that is set. -/
@[simp]
theorem setProc_same (s : Sys) (p : ℤ) (f : Procent → Procent) :
    (s.setProc p f).proctab p = f (s.proctab p) := Function.update_self ..

/-- The entries of the other processes stay. -/
theorem setProc_other {x : ℤ} (hx : x ≠ p) (s : Sys) (f : Procent → Procent) :
    (s.setProc p f).proctab x = s.proctab x := Function.update_of_ne hx ..

/-- The state of the process is the one that is set. -/
@[simp]
theorem setState_same (s : Sys) (p : ℤ) (st : PrState) : (s.setState p st).state p = st := by
  unfold setState state
  rw [setProc_same]

/-- The states of the other processes stay. -/
theorem setState_other {x : ℤ} (hx : x ≠ p) (s : Sys) (st : PrState) :
    (s.setState p st).state x = s.state x := by
  unfold setState state
  rw [setProc_other hx]

/-- A change of one entry of the process table changes the queue of that process. -/
theorem home_setProc (hp : IsPid p) (s : Sys) (f : Procent → Procent) :
    (s.setProc p f).home = Function.update s.home p (s.homeOf (f (s.proctab p))) := by
  funext x
  rcases eq_or_ne x p with rfl | hne
  · rw [Function.update_self, home_of_pid hp, setProc_same]
    rfl
  · rw [Function.update_of_ne hne]
    unfold home
    rw [setProc_other hne]
    rfl

/-- A change of a semaphore that keeps its queue. -/
theorem setSem_squeue {f : Sentry → Sentry} (hf : ∀ e, (f e).squeue = e.squeue) (s : Sys) (n m : ℤ) :
    ((s.setSem n f).semtab m).squeue = (s.semtab m).squeue := by
  have happly : (s.setSem n f).semtab m = if m = n then f (s.semtab n) else s.semtab m :=
    Function.update_apply ..
  rw [happly]
  split_ifs with he
  · rw [hf, he]
  · rfl

/-- A change of a semaphore that keeps its queue keeps the queues of the processes. -/
theorem home_setSem {f : Sentry → Sentry} (hf : ∀ e, (f e).squeue = e.squeue) (s : Sys) (n : ℤ) :
    (s.setSem n f).home = s.home := by
  have hq := s.setSem_squeue hf n
  funext x
  unfold home homeOf
  simp only [hq]
  rfl

/-- A change of one state keeps the directories. -/
theorem setState_page (s : Sys) (p x : ℤ) (st : PrState) :
    ((s.setState p st).proctab x).page_addr = (s.proctab x).page_addr := by
  unfold setState
  rw [setProc_apply]
  split_ifs with he
  · rw [he]
  · rfl

/-- A state that a process gets without being freed. -/
theorem setState_free {st : PrState} (hst : st ≠ .free) (hp : s.state p ≠ .free) (x : ℤ) :
    (s.setState p st).state x = .free ↔ s.state x = .free := by
  rcases eq_or_ne x p with rfl | hne
  · rw [setState_same]
    exact iff_of_false hst hp
  · rw [setState_other hne]

end

/-! ## Dispatching -/

/-- Taking a process from a queue changes the queue table only. -/
theorem getfirst_tables (s : Sys) (q : ℤ) : ∃ t, (s.getfirst q).2 = { s with queuetab := t } := by
  unfold getfirst
  split_ifs
  · exact ⟨s.queuetab, rfl⟩
  · exact ⟨_, rfl⟩

/-- Taking a process from a queue changes the queue table only. -/
theorem dequeue_tables (s : Sys) (q : ℤ) : ∃ t, (s.dequeue q).2 = { s with queuetab := t } := by
  unfold dequeue
  split_ifs
  · exact ⟨s.queuetab, rfl⟩
  · exact ⟨s.queuetab, rfl⟩
  · obtain ⟨t, ht⟩ := s.getfirst_tables q
    dsimp only
    rw [ht]
    exact ⟨_, rfl⟩

variable {s : Sys}

/-- When no process is current, the null process is on the ready list. -/
theorem Settled.null_ready (h : Settled s) (hc : s.state s.currpid ≠ .curr) :
    ¬ s.isempty s.readylist := by
  have hnull : IsPid NULLPROC := ⟨by decide, by decide⟩
  have hst : s.state NULLPROC = .ready := by
    refine h.states.null.resolve_left fun he => hc ?_
    rw [← h.states.curr_only _ hnull he]
    exact he
  rw [isempty_iff h.linked h.linked.readylist_mem]
  exact fun hall => hall NULLPROC ((home_ready_iff h.linked h.states hnull).mpr hst)

/-- The first ready process gets the processor. -/
theorem dispatch_spec (h : Settled s) (hc : s.state s.currpid ≠ .curr) :
    Running s.dispatch ∧ Sched s s.dispatch := by
  have hne := h.null_ready hc
  -- The ready list is not empty, as the null process is on it or running.
  obtain ⟨hfst, hlink⟩ := dequeue_linked h.linked h.linked.readylist_mem hne
  have hhome := firstid_home h.linked h.linked.readylist_mem hne
  have hp := h.linked.pid _ (by rw [hhome]; exact nofun)
  have hst := (home_ready_iff h.linked h.states hp).mp hhome
  obtain ⟨t, ht⟩ := s.dequeue_tables s.readylist
  have hdisp : s.dispatch = ({ s with queuetab := t } : Sys).switchTo (s.firstid s.readylist) := by
    unfold dispatch
    dsimp only
    rw [hfst, ht]
  rw [hdisp]
  rw [ht] at hlink
  generalize s.firstid s.readylist = p at *
  generalize hs' : ({ s with queuetab := t } : Sys).switchTo p = s'
  have hcurr : s'.currpid = p := by rw [← hs']; rfl
  have hpend : s'.pend = s.pend := by rw [← hs']; rfl
  have hproc : ∀ x, s'.proctab x = (s.setState p .curr).proctab x := by
    intro x
    rw [← hs']
    rfl
  -- Of the states only that of the new process changes.
  have hstate : ∀ x, s'.state x = if x = p then .curr else s.state x := by
    intro x
    unfold state
    rw [hproc]
    split_ifs with hx
    · rw [hx]
      exact setState_same s p _
    · exact setState_other hx s _
  have hhome' : s'.home = Function.update s.home p none := by
    rw [← hs']
    exact home_setProc hp s fun e => { e with prstate := .curr }
  -- The queues, the one running process and the semaphores that are waited for.
  refine ⟨⟨⟨?_, ?_, fun x hx hc' => ?_, ?_, fun x hx hw => ?_, ?_⟩, ?_⟩, ?_⟩
  · rw [hhome', ← hs']
    exact hlink.of_eq rfl rfl rfl fun _ => rfl
  · rw [hcurr]
    exact hp
  · -- The process that was running is not current, and nor is any other but the new one.
    rw [hcurr]
    by_contra hxp
    rw [hstate, if_neg hxp] at hc'
    have := h.states.curr_only x hx hc'
    rw [this] at hc'
    exact hc hc'
  · rw [hstate]
    split_ifs with hx
    · exact .inl rfl
    · exact h.states.null
  · have hxp : x ≠ p := by
      rintro rfl
      rw [hstate, if_pos rfl] at hw
      cases hw
    rw [hstate, if_neg hxp] at hw
    have he : (s'.proctab x) = s.proctab x := (hproc x).trans (setProc_other hxp s _)
    rw [he]
    exact h.states.wait_sem x hx hw
  · rw [hpend]
    exact h.states.kill_pid
  · rw [hcurr, hstate, if_pos rfl]
  -- The directories stay, and CR3 is that of the new process.
  · refine ⟨fun x => ?_, fun x => ?_, hpend, by rw [← hs']; rfl, .inr ⟨?_, ?_⟩⟩
    · rw [hproc]
      exact setState_page s p x _
    · rw [hstate]
      split_ifs with hx
      · rw [hx, hst]
        exact iff_of_false nofun nofun
      · rfl
    · have hcr : s'.cr3 = (s.proctab p).page_addr / PAGE_SIZE * PAGE_SIZE + s.cr3 % PAGE_SIZE := by
        rw [← hs']
        rfl
      rw [hcurr, hproc, setState_page, hcr]
      simp only [PAGE_SIZE]
      omega
    · rw [hcurr, hstate, if_pos rfl]
      exact nofun

/-! ## Making a process ready -/

/-- The states do not depend on the queues. -/
theorem States.congr {s' : Sys} (h : States s) (hc : s'.currpid = s.currpid)
    (hp : ∀ x, s'.state x = s.state x) (hw : ∀ x, (s'.proctab x).prsem = (s.proctab x).prsem)
    (hk : s'.pend = s.pend) : States s' := by
  refine ⟨hc ▸ h.currpid, fun x hx hst => ?_, ?_, fun x hx hst => ?_, hk ▸ h.kill_pid⟩
  · rw [hc]
    exact h.curr_only x hx (hp x ▸ hst)
  · rw [hp]
    exact h.null
  · rw [hw]
    exact h.wait_sem x hx (hp x ▸ hst)

/-- A process gets a state other than current. The null process can only become ready. -/
theorem States.setState {p : ℤ} {st : PrState} (h : States s) (hc : st ≠ .curr) (hw : st ≠ .wait)
    (h0 : p = NULLPROC → st = .ready) : States (s.setState p st) := by
  have hsem : ∀ x, ((s.setState p st).proctab x).prsem = (s.proctab x).prsem := by
    intro x
    unfold Sys.setState
    rw [setProc_apply]
    split_ifs with he
    · rw [he]
    · rfl
  refine ⟨h.currpid, fun x hx hst => ?_, ?_, fun x hx hst => ?_, h.kill_pid⟩
  · rcases eq_or_ne x p with rfl | hne
    · rw [setState_same] at hst
      exact absurd hst hc
    · rw [setState_other hne] at hst
      exact h.curr_only x hx hst
  · rcases eq_or_ne NULLPROC p with he | hne
    · rw [← he, setState_same]
      exact .inr (h0 he.symm)
    · rw [setState_other hne]
      exact h.null
  · rw [hsem]
    rcases eq_or_ne x p with rfl | hne
    · rw [setState_same] at hst
      exact absurd hst hw
    · rw [setState_other hne] at hst
      exact h.wait_sem x hx hst

/-- A priority is larger than the key of a tail. -/
theorem minkey_lt (x : Int16) : MINKEY < x.toInt :=
  lt_of_lt_of_le (by decide) x.le_toInt

/-- The state after a process that is on no queue has been put on the ready list. -/
structure MadeReady (s s' : Sys) (p : ℤ) : Prop where
  /-- The tables are in order. -/
  settled : Settled s'
  /-- What the scheduler leaves alone stays. -/
  sched : Sched s s'
  /-- The same process is the running one. -/
  currpid : s'.currpid = s.currpid
  /-- The process is ready, the others keep their states. -/
  state : ∀ x, s'.state x = if x = p then .ready else s.state x
  /-- It is on the ready list, the others stay where they are. -/
  home : s'.home = Function.update s.home p (some s.readylist)
  /-- The queues keep their places. -/
  ids : s'.readylist = s.readylist ∧ s'.sleepq = s.sleepq

/-- A process that is on no queue can be put on the ready list. -/
theorem makeReady_spec {p : ℤ} (hl : Linked s (Function.update s.home p none)) (hs : States s)
    (hp : IsPid p) (hf : s.state p ≠ .free) :
    ((s.setState p .ready).insert p s.readylist (s.proctab p).prprio.toInt).Ends
      fun s' => MadeReady s s' p := by
  have hl' : Linked (s.setState p .ready) (Function.update s.home p none) :=
    hl.of_eq rfl rfl rfl fun _ => rfl
  have hst : (s.setState p .ready).state p ≠ .free := by
    rw [setState_same]
    exact nofun
  have hins := insert_linked hl' hp hst (Function.update_self ..) (minkey_lt (s.proctab p).prprio)
  refine hins.mono fun s' hs' => ?_
  obtain ⟨hlink, v, c, rfl⟩ := hs'
  have hhome : (s.setState p .ready).home = Function.update s.home p (some s.readylist) :=
    home_setProc hp s fun e => { e with prstate := .ready }
  rw [Function.update_idem, show (s.setState p .ready).readylist = s.readylist from rfl, ← hhome] at hlink
  have hready : States (s.setState p .ready) :=
    hs.setState (show PrState.ready ≠ .curr by decide) (show PrState.ready ≠ .wait by decide) fun _ => rfl
  refine ⟨⟨hlink, hready.congr rfl (fun _ => rfl) (fun _ => rfl) rfl⟩, ⟨fun x => setState_page s p x _,
    fun x => setState_free (show PrState.ready ≠ .free by decide) hf x, rfl, rfl, .inl ⟨rfl, rfl⟩⟩, rfl,
    fun x => ?_, hhome, rfl, rfl⟩
  · split_ifs with hx
    · rw [hx]
      exact setState_same s p _
    · exact setState_other hx s _

/-! ## Rescheduling -/

/-- A process whose state calls for no queue is on none. -/
theorem update_home_none {p : ℤ} (h : s.home p = none) : Function.update s.home p none = s.home := by
  rw [← h, Function.update_eq_self]

/-- A current process is on no queue. -/
theorem home_curr {p : ℤ} (h : s.state p = .curr) : s.home p = none := by
  unfold home homeOf
  change (s.proctab p).prstate = _ at h
  rw [h]
  split_ifs <;> rfl

/-- `resched` makes a settled state a running one, unless it is deferred. -/
theorem resched_spec (h : Settled s) (hd : ¬ s.ndefers > 0) :
    s.resched.Ends fun s' => Running s' ∧ Sched s s' := by
  unfold resched
  rw [if_neg hd]
  split_ifs with hc hprio
  · exact .ok ⟨⟨h, hc⟩, .refl s⟩
  · have hlink : Linked s (Function.update s.home s.currpid none) := by
      rw [update_home_none (home_curr hc)]
      exact h.linked
    have hfree : s.state s.currpid ≠ .free := by
      rw [hc]
      exact nofun
    refine Res.Ends.bind (makeReady_spec hlink h.states h.states.currpid hfree) fun s₁ h₁ => .ok ?_
    have hc₁ : s₁.state s₁.currpid ≠ .curr := by
      rw [h₁.currpid, h₁.state, if_pos rfl]
      exact nofun
    obtain ⟨hr, hsched⟩ := dispatch_spec h₁.settled hc₁
    exact ⟨hr, h₁.sched.trans hsched⟩
  · exact .ok (dispatch_spec h hc)

/-- A deferred `resched` records the attempt. -/
theorem resched_deferred (hd : s.ndefers > 0) : s.resched = .ok { s with attempt := true } := by
  unfold resched
  rw [if_pos hd]

/-- Recording an attempt changes nothing else. -/
theorem Running.attempt (h : Running s) (b : Bool) : Running { s with attempt := b } :=
  ⟨⟨h.linked.of_eq rfl rfl rfl fun _ => rfl,
    h.states.congr rfl (fun _ => rfl) (fun _ => rfl) rfl⟩, h.curr⟩

/-- `resched` keeps a running state, deferred or not. -/
theorem resched_running (h : Running s) : s.resched.Ends fun s' => Running s' ∧ Sched s s' := by
  by_cases hd : s.ndefers > 0
  · rw [resched_deferred hd]
    exact .ok ⟨h.attempt true, fun _ => rfl, fun _ => Iff.rfl, rfl, rfl, .inl ⟨rfl, rfl⟩⟩
  · exact resched_spec h.toSettled hd

/-- `ready` puts a process that is on no queue on the ready list. While rescheduling is deferred,
nothing else changes. -/
theorem ready_spec {p : ℤ} (hl : Linked s (Function.update s.home p none)) (hs : States s)
    (hp : IsPid p) (hf : s.state p ≠ .free) (hpc : p ≠ s.currpid) (hc : s.state s.currpid = .curr) :
    (s.ready p).Ends fun s' => Running s' ∧ Sched s s' ∧
      (s.ndefers > 0 → s'.home = Function.update s.home p (some s.readylist) ∧
        s'.readylist = s.readylist ∧ s'.sleepq = s.sleepq) := by
  have hbad : ¬ s.isbadpid p := by
    rintro (hb | hb | hb)
    · exact absurd hp.1 (not_le.mpr hb)
    · exact absurd hp.2 (not_lt.mpr hb)
    · exact hf hb
  unfold ready
  rw [if_neg hbad]
  refine Res.Ends.bind (makeReady_spec hl hs hp hf) fun s₁ h₁ => ?_
  have hr : Running s₁ := by
    refine ⟨h₁.settled, ?_⟩
    rw [h₁.currpid, h₁.state, if_neg hpc.symm]
    exact hc
  by_cases hd : s.ndefers > 0
  · rw [resched_deferred (by rw [h₁.sched.ndefers]; exact hd)]
    refine .ok ⟨hr.attempt true, h₁.sched.trans ?_, fun _ => ⟨h₁.home, h₁.ids⟩⟩
    exact ⟨fun _ => rfl, fun _ => Iff.rfl, rfl, rfl, .inl ⟨rfl, rfl⟩⟩
  · refine (resched_running hr).mono fun s₂ h₂ => ?_
    exact ⟨h₂.1, h₁.sched.trans h₂.2, fun hd' => absurd hd' hd⟩

/-- `ready` refuses an entry that is not that of a process. -/
theorem ready_bad {p : ℤ} (hb : s.isbadpid p) : s.ready p = .ok s := by
  unfold ready
  rw [if_pos hb]

/-! ## Taking a process from a queue and making it ready -/

/-- The running state does not depend on the other variables. -/
theorem Running.congr {s' : Sys} (h : Running s) (ht : s'.queuetab = s.queuetab)
    (hr : s'.readylist = s.readylist) (hsl : s'.sleepq = s.sleepq)
    (hq : ∀ n, (s'.semtab n).squeue = (s.semtab n).squeue) (hc : s'.currpid = s.currpid)
    (hst : ∀ x, s'.state x = s.state x) (hw : ∀ x, (s'.proctab x).prsem = (s.proctab x).prsem)
    (hk : s'.pend = s.pend) : Running s' := by
  have hhome : s'.home = s.home := by
    funext x
    unfold home homeOf
    have hx : (s'.proctab x).prstate = (s.proctab x).prstate := hst x
    rw [hx, hr, hsl, hw, hq]
  refine ⟨⟨?_, h.states.congr hc hst hw hk⟩, ?_⟩
  · rw [hhome]
    exact h.linked.of_eq ht hr hsl hq
  · rw [hst, hc]
    exact h.curr

/-- An answer changes nothing that matters to the scheduler. -/
theorem Running.ret (h : Running s) (v : ℤ) : Running (s.ret v) :=
  h.congr rfl rfl rfl (fun _ => rfl) rfl (fun _ => rfl) (fun _ => rfl) rfl

/-- An answer changes nothing that matters to the scheduler. -/
theorem Sched.ret (s : Sys) (v : ℤ) : Sched s (s.ret v) :=
  ⟨fun _ => rfl, fun _ => Iff.rfl, rfl, rfl, .inl ⟨rfl, rfl⟩⟩

/-- The count of a semaphore does not matter to the scheduler. -/
theorem Running.setSem (h : Running s) (n : ℤ) (f : Sentry → Sentry) (hf : ∀ e, (f e).squeue = e.squeue) :
    Running (s.setSem n f) :=
  h.congr rfl rfl rfl (fun m => s.setSem_squeue hf n m) rfl (fun _ => rfl) (fun _ => rfl) rfl

/-- The count of a semaphore does not matter to the scheduler. -/
theorem Sched.setSem (s : Sys) (n : ℤ) (f : Sentry → Sentry) : Sched s (s.setSem n f) :=
  ⟨fun _ => rfl, fun _ => Iff.rfl, rfl, rfl, .inl ⟨rfl, rfl⟩⟩

/-- A process that should be on a queue is in use. -/
theorem state_of_home {p q : ℤ} (hp : s.home p = some q) : s.state p ≠ .free ∧ s.state p ≠ .curr := by
  unfold home homeOf at hp
  unfold state
  split_ifs at hp
  cases hst : (s.proctab p).prstate <;> rw [hst] at hp <;> simp_all

/-- Nothing but the process taken from its queue has moved. -/
structure MovedReady (s s' : Sys) (p : ℤ) : Prop where
  /-- The process is on the ready list, the others stay where they are. -/
  home : s'.home = Function.update s.home p (some s.readylist)
  /-- The ready list keeps its place. -/
  readylist : s'.readylist = s.readylist
  /-- The queue of sleeping processes keeps its place. -/
  sleepq : s'.sleepq = s.sleepq

/-- A process that has been taken from its queue is made ready. -/
theorem ready_taken {p q : ℤ} {t : ℤ → Qentry} (h : Running s) (hp : s.home p = some q)
    (hl : Linked { s with queuetab := t } (Function.update s.home p none)) :
    (({ s with queuetab := t } : Sys).ready p).Ends fun s' =>
      Running s' ∧ Sched s s' ∧ (s.ndefers > 0 → MovedReady s s' p) := by
  have hpid := h.linked.pid p (by rw [hp]; exact nofun)
  have hpc : p ≠ s.currpid := by
    rintro rfl
    exact (state_of_home hp).2 h.curr
  have hs : States { s with queuetab := t } := h.states.congr rfl (fun _ => rfl) (fun _ => rfl) rfl
  refine (ready_spec hl hs hpid (state_of_home hp).1 hpc h.curr).mono fun s' hs' => ?_
  obtain ⟨hr, hsched, hdef⟩ := hs'
  exact ⟨hr, ⟨hsched.page, hsched.free, hsched.pend, hsched.ndefers, hsched.cr3⟩,
    fun hd => ⟨(hdef hd).1, (hdef hd).2.1, (hdef hd).2.2⟩⟩

/-- No entry has the number `EMPTY`. -/
theorem isbadpid_empty : s.isbadpid EMPTY := .inl (by decide)

/-- What `ready` of the first process of a queue does: nothing when the queue is empty. -/
structure TakenReady (s s' : Sys) (q : ℤ) : Prop where
  /-- The tables are in order, with the running process current. -/
  running : Running s'
  /-- What the scheduler leaves alone stays. -/
  sched : Sched s s'
  /-- While rescheduling is deferred, only the first process of the queue moves. -/
  moved : s.ndefers > 0 → ¬ s.isempty q → MovedReady s s' (s.firstid q)
  /-- Nothing happens when the queue is empty. -/
  same : s.isempty q → s' = s

/-- `ready(dequeue(q))`. -/
theorem dequeue_ready_spec {q : ℤ} (h : Running s) (hq : q ∈ queueIds) :
    ((s.dequeue q).2.ready (s.dequeue q).1).Ends fun s' => TakenReady s s' q := by
  by_cases he : s.isempty q
  · have hd : s.dequeue q = (EMPTY, s) := by
      unfold dequeue
      rw [if_neg (not_isbadqid hq), if_pos he]
    rw [hd]
    exact ⟨s, ready_bad isbadpid_empty, h, .refl s, fun _ hc => absurd he hc, fun _ => rfl⟩
  · obtain ⟨hfst, hlink⟩ := dequeue_linked h.linked hq he
    obtain ⟨t, ht⟩ := s.dequeue_tables q
    rw [hfst]
    rw [ht] at hlink ⊢
    refine (ready_taken h (firstid_home h.linked hq he) hlink).mono fun s' hs' => ?_
    exact ⟨hs'.1, hs'.2.1, fun hd _ => hs'.2.2 hd, fun hc => absurd hc he⟩

/-- The first process of a queue becomes ready, and the other processes of the queue stay on it. -/
theorem getfirst_ready_spec {q : ℤ} (h : Running s) (hq : q ∈ queueIds) :
    ((s.getfirst q).2.ready (s.getfirst q).1).Ends fun s' => TakenReady s s' q := by
  by_cases he : s.isempty q
  · have hd : s.getfirst q = (EMPTY, s) := by
      unfold getfirst
      rw [if_pos he]
    rw [hd]
    exact ⟨s, ready_bad isbadpid_empty, h, .refl s, fun _ hc => absurd he hc, fun _ => rfl⟩
  · have hlink := getfirst_linked h.linked hq he
    have hfst : (s.getfirst q).1 = s.firstid q := by
      unfold getfirst
      rw [if_neg he]
    obtain ⟨t, ht⟩ := s.getfirst_tables q
    rw [hfst]
    rw [ht] at hlink ⊢
    refine (ready_taken h (firstid_home h.linked hq he) hlink).mono fun s' hs' => ?_
    exact ⟨hs'.1, hs'.2.1, fun hd _ => hs'.2.2 hd, fun hc => absurd hc he⟩

/-! ## Deferred rescheduling -/

/-- Starting to defer changes nothing else. -/
theorem Running.cntlStart (h : Running s) : Running s.reschedCntlStart :=
  h.congr rfl rfl rfl (fun _ => rfl) rfl (fun _ => rfl) (fun _ => rfl) rfl

/-- When the deferral ends, the scheduler runs if it was called in the meantime. -/
theorem cntlStop_spec {s' : Sys} (h0 : s.ndefers = 0) (hr : Running s')
    (hs : Sched s.reschedCntlStart s') :
    s'.reschedCntlStop.Ends fun s'' => Running s'' ∧ Sched s s'' := by
  have hn : s'.ndefers = 1 := by
    rw [hs.ndefers]
    show s.ndefers + 1 = 1
    omega
  have hr₁ : Running { s' with ndefers := s'.ndefers - 1 } :=
    hr.congr rfl rfl rfl (fun _ => rfl) rfl (fun _ => rfl) (fun _ => rfl) rfl
  have hs₁ : Sched s { s' with ndefers := s'.ndefers - 1 } := by
    refine ⟨hs.page, hs.free, hs.pend, ?_, hs.cr3⟩
    show s'.ndefers - 1 = s.ndefers
    omega
  unfold reschedCntlStop
  rw [if_neg (by omega)]
  dsimp only
  split_ifs
  · exact (resched_running hr₁).mono fun s'' h'' => ⟨h''.1, hs₁.trans h''.2⟩
  · exact .ok ⟨hr₁, hs₁⟩

/-- The number of processes on a queue. -/
def waiting (s : Sys) (q : ℤ) : ℕ :=
  ((@Finset.Ico ℤ _ Int.instLocallyFiniteOrder 0 100).filter fun p => s.home p = some q).card

/-- A queue has at most as many processes as the table. -/
theorem waiting_le (s : Sys) (q : ℤ) : s.waiting q ≤ 100 := by
  refine (Finset.card_filter_le _ _).trans ?_
  rw [Int.card_Ico]
  decide

/-- A queue that gives a process to the ready list gets shorter. -/
theorem MovedReady.waiting_lt {s' : Sys} {p q : ℤ} (h : MovedReady s s' p) (hp : IsPid p)
    (hq : s.home p = some q) (hne : q ≠ s.readylist) : s'.waiting q < s.waiting q := by
  refine Finset.card_lt_card (Finset.ssubset_iff_of_subset ?_ |>.mpr ⟨p, ?_, ?_⟩)
  · intro x hx
    rw [Finset.mem_filter, h.home] at hx
    rw [Finset.mem_filter]
    rcases eq_or_ne x p with rfl | hxp
    · exact ⟨hx.1, hq⟩
    · rw [Function.update_of_ne hxp] at hx
      exact hx
  · rw [Finset.mem_filter]
    exact ⟨Finset.mem_Ico.mpr ⟨hp.1, hp.2⟩, hq⟩
  · rw [Finset.mem_filter, h.home, Function.update_self]
    rintro ⟨-, he⟩
    exact hne (Option.some.inj he).symm

/-- The loop of `wakeup`, while rescheduling is deferred. -/
theorem wakeupLoop_spec :
    ∀ (fuel : ℕ) (s : Sys), Running s → s.ndefers > 0 → s.waiting s.sleepq < fuel →
      (wakeupLoop fuel s).Ends fun s' => Running s' ∧ Sched s s' := by
  intro fuel
  induction fuel with
  | zero => exact fun s _ _ hlt => absurd hlt (Nat.not_lt_zero _)
  | succ fuel ih =>
    intro s h hd hlt
    unfold wakeupLoop
    split_ifs with hgo
    · have hq := h.linked.sleepq_mem
      refine Res.Ends.bind (dequeue_ready_spec h hq) fun s₁ h₁ => ?_
      have hm := h₁.moved hd hgo.1
      have hhome := firstid_home h.linked hq hgo.1
      have hne : s.sleepq ≠ s.readylist := by
        rw [h.linked.sleepq, h.linked.readylist]
        decide
      have hless := hm.waiting_lt (h.linked.pid _ (by rw [hhome]; exact nofun)) hhome hne
      refine (ih s₁ h₁.running (by rw [h₁.sched.ndefers]; exact hd) ?_).mono fun s' h' =>
        ⟨h'.1, h₁.sched.trans h'.2⟩
      rw [hm.sleepq]
      omega
    · exact .ok ⟨h, .refl s⟩

/-- `wakeup` keeps the invariant of the running state, and what the scheduler leaves alone. -/
theorem wakeup_spec (h : Running s) (h0 : s.ndefers = 0) :
    s.wakeup.Ends fun s' => Running s' ∧ Sched s s' := by
  have hd : s.reschedCntlStart.ndefers > 0 := by
    show s.ndefers + 1 > 0
    omega
  have hlen := s.reschedCntlStart.waiting_le s.reschedCntlStart.sleepq
  refine Res.Ends.bind (wakeupLoop_spec _ _ h.cntlStart hd ?_) fun s₁ h₁ => cntlStop_spec h0 h₁.1 h₁.2
  rw [show NQENT.toNat = 304 from rfl]
  omega

/-! ## Messages -/

/-- A process on the queue of sleeping processes sleeps, or waits for a message for some time. -/
theorem asleep_of_home {p : ℤ} (h : Running s) (hp : s.home p = some s.sleepq) :
    s.state p = .sleep ∨ s.state p = .rectim := by
  have hpid := h.linked.pid p (by rw [hp]; exact nofun)
  rw [home_of_pid hpid, homeOf] at hp
  have hw := h.states.wait_sem p hpid
  unfold state at hw ⊢
  cases hs : (s.proctab p).prstate with
  | wait =>
    have hlt' : (s.proctab p).prsem < 100 := (hw hs).2
    simp only [hs, h.linked.squeue _ (hw hs), h.linked.sleepq, Option.some.injEq] at hp
    omega
  | ready =>
    simp only [hs, h.linked.readylist, h.linked.sleepq, Option.some.injEq] at hp
    exact absurd hp (by decide)
  | sleep => exact .inl rfl
  | rectim => exact .inr rfl
  | _ => simp [hs] at hp

/-- `unsleep` takes a process from the queue of sleeping processes. -/
theorem unsleep_linked {p : ℤ} (h : Running s) (hp : s.home p = some s.sleepq) :
    Linked (s.unsleep p) (Function.update s.home p none) ∧ ∃ t, s.unsleep p = { s with queuetab := t } := by
  have hpid := h.linked.pid p (by rw [hp]; exact nofun)
  have hlive := (state_of_home hp).1
  have hbad : ¬ s.isbadpid p := by
    rintro (hb | hb | hb)
    · exact absurd hpid.1 (not_le.mpr hb)
    · exact absurd hpid.2 (not_lt.mpr hb)
    · exact hlive hb
  by_cases hst : s.state p ≠ .sleep ∧ s.state p ≠ .rectim
  · exact ((asleep_of_home h hp).elim hst.1 hst.2).elim
  · unfold unsleep
    rw [if_neg hbad, if_neg hst]
    dsimp only
    split_ifs with hnext
    · have hk : Linked (s.setKey (s.queuetab p).qnext
          (int32 (s.key (s.queuetab p).qnext + s.key p))) s.home := by
        refine setKey_linked h.linked ?_ _
        have : (s.queuetab p).qnext < 100 := hnext
        omega
      exact ⟨getitem_linked hk h.linked.sleepq_mem hp, _, rfl⟩
    · exact ⟨getitem_linked h.linked h.linked.sleepq_mem hp, _, rfl⟩

/-- `send` keeps the invariant of the running state, and what the scheduler leaves alone. -/
theorem send_spec (h : Running s) (p : ℤ) (msg : ℕ) :
    (s.send p msg).Ends fun r => Running r.2 ∧ Sched s r.2 := by
  unfold send
  by_cases hbad : s.isbadpid p
  · rw [if_pos hbad]
    exact .ok ⟨h, .refl s⟩
  rw [if_neg hbad]
  split_ifs with hm
  · exact .ok ⟨h, .refl s⟩
  dsimp only
  generalize hs₁ : (s.setProc p fun e => { e with prmsg := msg, prhasmsg := true }) = s₁
  have hpid : IsPid p := ⟨not_lt.mp fun hc => hbad (.inl hc), not_le.mp fun hc => hbad (.inr (.inl hc))⟩
  -- The message changes nothing that matters to the scheduler.
  have hproc : ∀ x, (s₁.proctab x).prstate = (s.proctab x).prstate ∧
      (s₁.proctab x).prsem = (s.proctab x).prsem ∧
      (s₁.proctab x).page_addr = (s.proctab x).page_addr := by
    intro x
    rw [← hs₁, setProc_apply]
    split_ifs with he
    · rw [he]
      exact ⟨rfl, rfl, rfl⟩
    · exact ⟨rfl, rfl, rfl⟩
  have hstate : ∀ x, s₁.state x = s.state x := fun x => (hproc x).1
  have hr₁ : Running s₁ := by
    refine h.congr ?_ ?_ ?_ (fun n => ?_) ?_ hstate (fun x => (hproc x).2.1) ?_ <;> rw [← hs₁] <;> rfl
  have hsched : Sched s s₁ := by
    refine ⟨fun x => (hproc x).2.2, fun x => by rw [hstate], ?_, ?_, .inl ⟨?_, ?_⟩⟩ <;> rw [← hs₁] <;> rfl
  have hlive : s₁.state p ≠ .free := by
    rw [hstate]
    exact fun hc => hbad (.inr (.inr hc))
  have hpc : s₁.state p ≠ .curr → p ≠ s₁.currpid := by
    rintro hne rfl
    exact hne hr₁.curr
  split_ifs with h₁ h₂
  · have hnone : s₁.home p = none := by
      rw [home_of_pid hpid, homeOf]
      unfold state at h₁
      rw [h₁]
    have hl : Linked s₁ (Function.update s₁.home p none) := by
      rw [update_home_none hnone]
      exact hr₁.linked
    refine Res.Ends.bind (ready_spec hl hr₁.states hpid hlive (hpc (by rw [h₁]; exact nofun)) hr₁.curr)
      fun s₂ h₂ => .ok ⟨h₂.1, hsched.trans h₂.2.1⟩
  · have hhome : s₁.home p = some s₁.sleepq := by
      rw [home_of_pid hpid, homeOf]
      unfold state at h₂
      rw [h₂]
    obtain ⟨hl, t, ht⟩ := unsleep_linked hr₁ hhome
    rw [ht] at hl ⊢
    refine Res.Ends.bind (ready_taken hr₁ hhome hl) fun s₂ h₂ => .ok ⟨h₂.1, hsched.trans h₂.2.1⟩
  · exact .ok ⟨hr₁, hsched⟩

end Sys

end Xinu
