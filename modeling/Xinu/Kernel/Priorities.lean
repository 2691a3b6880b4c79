import Xinu.Kernel.Semaphores

/-!
# Priorities

The ready list keeps a copy of the priority of each of its processes as its key. Every operation
keeps the copies right and the running process on top, but for `chprio`, which changes the priority
of a process and does nothing else. In the runs in which it changes neither the priority of a ready
process, nor that of the running process to one below the first key of the ready list, the processes
are scheduled by their priorities.
-/

namespace Xinu

open LinkedQueue Sys

/-- The ready list is in descending order of the priorities, and no ready process has a higher
priority than the running one. -/
structure Scheduled (s : Sys) : Prop where
  /-- The priorities on the ready list descend. -/
  sorted : (s.contents s.readylist).Pairwise fun p q => (s.proctab q).prprio ≤ (s.proctab p).prprio
  /-- No ready process has a higher priority than the running one. -/
  top : ∀ p, IsPid p → s.state p = .ready → (s.proctab p).prprio ≤ (s.proctab s.currpid).prprio

/-- `chprio` leaves the priorities of the ready processes as they are, and does not put that of the
running process below them. -/
def ChprioOk (s : Sys) : Event → Prop
  | .call (.chprio pid newprio) => s.isbadpid pid ∨
      (s.state pid = .ready → newprio = (s.proctab pid).prprio) ∧
      (pid = s.currpid → s.firstkey s.readylist ≤ newprio.toInt)
  | _ => True

/-- The ready list is in order, and the running process on top. -/
structure Ranked (s : Sys) : Prop where
  /-- The ready list is in order, with the priorities as keys. -/
  ordered : Ordered s
  /-- The running process is on top. -/
  fair : Fair s

section

variable {s s' s₁ : Sys} {p : ℤ}

/-- A change that the order of the ready list does not depend on. The running process may stop running. -/
structure SameRank (s s' : Sys) : Prop where
  /-- The ready list is the same. -/
  list : s'.contents s'.readylist = s.contents s.readylist
  /-- The processes on it have the same keys. -/
  key : ∀ p ∈ s.contents s.readylist, s'.key p = s.key p
  /-- The processes on it have the same priorities. -/
  prio : ∀ p ∈ s.contents s.readylist, (s'.proctab p).prprio = (s.proctab p).prprio
  /-- The same process is the running one. -/
  curr : s'.currpid = s.currpid
  /-- If it is current behind the step, it has been before, with the same priority. -/
  stays : s'.state s.currpid = .curr → s.state s.currpid = .curr ∧
    (s'.proctab s.currpid).prprio = (s.proctab s.currpid).prprio
  /-- Nothing changes of what is deferred. -/
  defer : s'.ndefers = s.ndefers ∧ s'.attempt = s.attempt

/-- A change that leaves the ready list and the running process keeps the order. -/
theorem SameRank.ranked (h : SameRank s s') (hr : Ranked s) : Ranked s' := by
  refine ⟨⟨?_, fun p hp => ?_⟩, ?_⟩
  · rw [h.list]
    refine hr.ordered.sorted.imp_of_mem fun hp hq hle => ?_
    rw [h.key _ hp, h.key _ hq]
    exact hle
  · rw [h.list] at hp
    rw [h.key p hp, h.prio p hp]
    exact hr.ordered.key_eq p hp
  · unfold Fair
    rw [h.defer.1, h.defer.2]
    refine hr.fair.imp (fun htop hc p hp => ?_) id
    rw [h.curr] at hc ⊢
    obtain ⟨hc', hprio⟩ := h.stays hc
    rw [h.list] at hp
    rw [h.key p hp, hprio]
    exact htop hc' p hp

/-- The scheduler keeps the order after such a change. -/
theorem SameRank.moves {R : List ℤ} (h : SameRank s s₁) (hm : Moves R s₁ s') (hr : Ranked s) : Ranked s' := by
  have h₁ := h.ranked hr
  have h₂ := hm.ranks h₁.ordered h₁.fair
  exact ⟨h₂.1, h₂.2⟩

/-- A change that keeps the queue table and the priorities. -/
theorem SameRank.of_tables (ht : s'.queuetab = s.queuetab) (hr : s'.readylist = s.readylist)
    (hp : ∀ p, (s'.proctab p).prprio = (s.proctab p).prprio) (hc : s'.currpid = s.currpid)
    (hst : s'.state s.currpid = .curr → s.state s.currpid = .curr)
    (hd : s'.ndefers = s.ndefers ∧ s'.attempt = s.attempt) : SameRank s s' := by
  refine ⟨by rw [hr]; exact contents_of_queuetab ht _, fun p _ => ?_, fun p _ => hp p, hc,
    fun h => ⟨hst h, hp _⟩, hd⟩
  unfold Sys.key
  rw [ht]

/-- A change of one entry of the process table that keeps the priority. -/
theorem SameRank.setProc (s : Sys) {f : Procent → Procent} (pid : ℤ) (hp : ∀ e, (f e).prprio = e.prprio)
    (hst : ∀ e, (f e).prstate = .curr → e.prstate = .curr) : SameRank s (s.setProc pid f) := by
  refine .of_tables rfl rfl (fun x => ?_) rfl (fun h => ?_) ⟨rfl, rfl⟩
  · rw [setProc_apply]
    split_ifs with hx
    · rw [hp, hx]
    · rfl
  · unfold Sys.state at h ⊢
    rw [setProc_apply] at h
    split_ifs at h with hx
    · rw [hx]
      exact hst _ h
    · exact h

/-- Two changes that keep the order of the ready list, one after the other, keep it. -/
theorem SameRank.trans (h : SameRank s s₁) (h' : SameRank s₁ s') : SameRank s s' := by
  have hlist := h.list
  refine ⟨h'.list.trans h.list, fun p hp => ?_, fun p hp => ?_, h'.curr.trans h.curr, fun hc => ?_, ?_⟩
  · rw [h'.key p (by rw [hlist]; exact hp), h.key p hp]
  · rw [h'.prio p (by rw [hlist]; exact hp), h.prio p hp]
  · rw [← h.curr] at hc
    obtain ⟨h₁, h₂⟩ := h'.stays hc
    rw [h.curr] at h₁ h₂
    obtain ⟨h₃, h₄⟩ := h.stays h₁
    exact ⟨h₃, h₂.trans h₄⟩
  · exact ⟨h'.defer.1.trans h.defer.1, h'.defer.2.trans h.defer.2⟩

/-- Noting the answer of a call keeps the order of the ready list. -/
theorem SameRank.ret (s : Sys) (v : ℤ) : SameRank s (s.ret v) :=
  .of_tables rfl rfl (fun _ => rfl) rfl id ⟨rfl, rfl⟩

/-- What a process has left to do changes no order. -/
theorem SameRank.setPend (s : Sys) (e : Pend) : SameRank s (s.setPend e) :=
  .of_tables rfl rfl (fun _ => rfl) rfl id ⟨rfl, rfl⟩

/-- A state other than current changes no order. -/
theorem SameRank.setState (s : Sys) (pid : ℤ) (st : PrState) (hst : st ≠ .curr) :
    SameRank s (s.setState pid st) :=
  .setProc s pid (fun _ => rfl) fun _ h => absurd h hst

/-- Taking the message of a process changes no order. -/
theorem SameRank.takeMsg (s : Sys) (pid : ℤ) :
    SameRank s (s.setProc pid fun p => { p with prhasmsg := false }) :=
  .setProc s pid (f := fun p => { p with prhasmsg := false }) (fun _ => rfl) fun _ hc => hc

/-- The processes of the ready list are ready. -/
theorem ready_of_mem (h : Idle s) (hp : p ∈ s.contents s.readylist) : s.state p = .ready := by
  have hhome := (mem_contents h.linked h.linked.readylist_mem).mp hp
  exact (home_ready_iff h.linked h.states (h.linked.pid p (by rw [hhome]; exact nofun))).mp hhome

/-- A process on the queue of sleeping processes is not on the ready list. -/
theorem not_ready_of_asleep (h : Linked s s.home) (hp : p ∈ s.contents s.sleepq) :
    p ∉ s.contents s.readylist := by
  intro hp'
  rw [mem_contents h h.sleepq_mem] at hp
  rw [mem_contents h h.readylist_mem, hp, h.sleepq, h.readylist] at hp'
  exact absurd (Option.some.inj hp') (by decide)

/-- `unsleep` takes a process off the other queue, and keeps the order of the ready list. -/
theorem unsleep_sameRank (h : Running s) (hp : s.home p = some s.sleepq) : SameRank s (s.unsleep p) := by
  have ht := unsleep_contents h hp
  obtain ⟨t, he⟩ := ht.tables
  have hne : s.readylist ≠ s.sleepq := by
    rw [h.linked.readylist, h.linked.sleepq]
    decide
  obtain ⟨l, r, hq, -, -, hkey⟩ := ht.cut
  refine ⟨?_, fun x hx => hkey x fun hxr => ?_, fun x _ => by rw [he], by rw [he], fun hc => ?_, ?_⟩
  · rw [show (s.unsleep p).readylist = s.readylist by rw [he], ht.other _ h.linked.readylist_mem hne]
  · refine not_ready_of_asleep h.linked ?_ hx
    rw [hq]
    exact List.mem_append_right _ (List.mem_cons_of_mem _ (List.mem_of_mem_head? hxr))
  · rw [he] at hc ⊢
    exact ⟨hc, rfl⟩
  · rw [he]
    exact ⟨rfl, rfl⟩

/-- `insertd` puts a process on the other queue, and keeps the order of the ready list. -/
theorem insertd_sameRank (h : Idle s) {r : Status × Sys} {delay : ℤ}
    (hi : s.insertd s.currpid s.sleepq delay = .ok r) : SameRank s r.2 := by
  have hins := ((insertd_contents h.linked h.states.currpid h.curr_live (home_curr h.curr) delay).of_eq hi).2
  obtain ⟨t, he⟩ := hins.tables
  have hne : s.readylist ≠ s.sleepq := by
    rw [h.linked.readylist, h.linked.sleepq]
    decide
  obtain ⟨l, r', hq, -, -, -, -, hkey⟩ := hins.cut
  refine ⟨?_, fun x hx => hkey x ?_ fun hxr => ?_, fun x _ => by rw [he], by rw [he], fun hc => ?_, ?_⟩
  · rw [show r.2.readylist = s.readylist by rw [he], hins.other _ h.linked.readylist_mem hne]
  · rintro rfl
    have := (ready_of_mem h hx).symm.trans h.curr
    cases this
  · refine not_ready_of_asleep h.linked ?_ hx
    rw [hq]
    exact List.mem_append_right _ (List.mem_of_mem_head? hxr)
  · rw [he] at hc ⊢
    exact ⟨hc, rfl⟩
  · rw [he]
    exact ⟨rfl, rfl⟩

/-- Taking a ready process from the ready list keeps the order. -/
theorem getitem_ranked (h : Linked s s.home) (hs : States s) (hp : IsPid p) (hst : s.state p = .ready)
    (hr : Ranked s) : Ranked (s.getitem p) := by
  have hhome := (home_ready_iff h hs hp).mpr hst
  have hlist := getitem_contents h h.readylist_mem hhome h.readylist_mem
  rw [if_pos rfl] at hlist
  have hsub : ((s.getitem p).contents (s.getitem p).readylist).Sublist (s.contents s.readylist) := by
    rw [show (s.getitem p).readylist = s.readylist from rfl, hlist]
    exact List.erase_sublist
  refine ⟨⟨?_, fun x hx => ?_⟩, ?_⟩
  · simpa only [getitem_key] using hr.ordered.sorted.sublist hsub
  · rw [getitem_key]
    exact hr.ordered.key_eq x (hsub.subset hx)
  · refine hr.fair.imp (fun htop hc x hx => ?_) id
    rw [getitem_key]
    exact htop hc x (hsub.subset hx)

/-- After `send` the ready list is in the order of priorities, and the current process is first. -/
theorem Sys.Sent.ranked {msg : ℕ} {r : Status × Sys} (h : Sent s p msg r) (hi : Running s) (hr : Ranked s) :
    Ranked r.2 := by
  have hdel : SameRank s (s.deliver p msg) := .setProc s p (fun _ => rfl) fun _ hc => hc
  cases h with
  | refused => exact hr
  | left => exact hdel.ranked hr
  | recv hp hm hst hs => exact hdel.moves hs hr
  | rectim hp hm hst hs =>
    have hhome : (s.deliver p msg).home p = some (s.deliver p msg).sleepq :=
      home_asleep (pid_of_not_bad hp).1 (.inr ((s.deliver_state p msg p).trans hst))
    exact (hdel.trans (unsleep_sameRank (hi.deliver p msg) hhome)).moves hs hr

/-- The end of `kill` keeps the order. -/
theorem Sys.KillEnded.ranked {pid : ℤ} (h : KillEnded s pid s')
    (hi : Idle s) (hp : IsPid pid) (hr : Ranked s) :
    Ranked s' := by
  have hlist : ∀ l, SameRank s { s with memlist := l } := fun l =>
    .of_tables rfl rfl (fun _ => rfl) rfl id ⟨rfl, rfl⟩
  have hrun : ∀ l, Running { s with memlist := l } := fun l =>
    hi.toRunning.congr rfl rfl rfl (fun _ => rfl) rfl (fun _ => rfl) (fun _ => rfl) rfl
  -- Freeing the entry changes no order.
  have hend : ∀ s₁ : Sys, SameRank s₁ ((s₁.setState pid .free).setPend .user) := fun s₁ =>
    (SameRank.setState s₁ pid .free nofun).trans (.setPend _ _)
  cases h with
  | unqueued l hst => exact ((hlist l).trans (hend _)).ranked hr
  | asleep l hst =>
    have hhome : ({ s with memlist := l } : Sys).home pid = some s.sleepq := home_asleep hp hst
    exact ((hlist l).trans ((unsleep_sameRank (hrun l) hhome).trans (hend _))).ranked hr
  | waiting l hst =>
    refine (hend _).ranked ?_
    have hsem := hi.states.wait_sem pid hp hst
    have hr' : Running (({ s with memlist := l } : Sys).signalCount (s.proctab pid).prsem) :=
      (hrun l).setSem _ (fun e => { e with scount := int32 (e.scount + 1) }) fun _ => rfl
    obtain ⟨hq, h₁, -⟩ := semq_mem hsem
    have hhome : (({ s with memlist := l } : Sys).signalCount (s.proctab pid).prsem).home pid =
        some (semq (s.proctab pid).prsem) :=
      (mem_contents hr'.linked hq).mp ((mem_semq hr' hsem).mpr ⟨hp, hst, rfl⟩)
    have hget := getitem_contents hr'.linked hq hhome hr'.linked.readylist_mem
    rw [if_neg (by rw [hr'.linked.readylist]; exact h₁.symm)] at hget
    have hsame : SameRank (({ s with memlist := l } : Sys).signalCount (s.proctab pid).prsem)
        ((({ s with memlist := l } : Sys).signalCount (s.proctab pid).prsem).getitem pid) :=
      ⟨hget, fun x _ => getitem_key .., fun _ _ => rfl, rfl, fun hc => ⟨hc, rfl⟩, rfl, rfl⟩
    refine hsame.ranked (SameRank.ranked ?_ hr)
    exact .of_tables rfl rfl (fun _ => rfl) rfl id ⟨rfl, rfl⟩
  | ready l hst =>
    refine (hend _).ranked ?_
    exact getitem_ranked (hrun l).linked (hrun l).states hp hst ((hlist l).ranked hr)
  | self l c hc hm =>
    have hvars : SameRank s { s with memlist := l, cr3 := c } :=
      .of_tables rfl rfl (fun _ => rfl) rfl id ⟨rfl, rfl⟩
    exact SameRank.moves (hvars.trans (.setState _ pid .free nofun)) hm hr

/-- After any number of signals the ready list is in the order of priorities. -/
theorem Sys.Releases.ranked {sem : ℤ} {n : ℕ} {c : ℤ} (h : Releases sem n c s₁ s') (h₁ : SameRank s s₁)
    (hr : Ranked s) : Ranked s' := by
  refine SameRank.moves (h₁.trans ?_) h hr
  exact .of_tables rfl rfl (fun _ => rfl) rfl id ⟨rfl, rfl⟩

/-- `chprio` keeps the order under its condition. -/
theorem chprio_ranked (hi : Idle s) {pid : ℤ} {newprio : Int16}
    (hc : ChprioOk s (.call (.chprio pid newprio)))
    (hr : Ranked s) : Ranked (s.chprio pid newprio) := by
  unfold chprio
  split_ifs with hbad
  · exact (SameRank.ret s _).ranked hr
  · obtain ⟨hready, hcurr⟩ := hc.resolve_left hbad
    -- The process is not ready, or its priority does not change: so those on the list have theirs.
    have hkeep : ∀ x ∈ s.contents s.readylist,
        ((s.setProc pid fun p => { p with prprio := newprio }).proctab x).prprio = (s.proctab x).prprio := by
      intro x hx
      rw [setProc_apply]
      split_ifs with hxp
      · rw [hxp]
        exact hready (hxp ▸ ready_of_mem hi hx)
      · rfl
    generalize hs₁ : ((s.ret (s.proctab pid).prprio.toInt).setProc pid fun p =>
      { p with prprio := newprio }) = s₁
    have hproc : s₁.proctab = (s.setProc pid fun p => { p with prprio := newprio }).proctab := by
      rw [← hs₁]
      rfl
    have hkey : ∀ x, s₁.key x = s.key x := fun x => by rw [← hs₁]; rfl
    have hqueue : s₁.queuetab = s.queuetab := by rw [← hs₁]; rfl
    have hrl : s₁.readylist = s.readylist := by rw [← hs₁]; rfl
    have hlist : s₁.contents s₁.readylist = s.contents s.readylist := by
      rw [hrl]
      exact contents_of_queuetab hqueue _
    have hcur : s₁.currpid = s.currpid := by rw [← hs₁]; rfl
    -- The ready list is as before, and the keys on it are the priorities.
    refine ⟨⟨?_, fun x hx => ?_⟩, .inl fun _ x hx => ?_⟩
    · rw [hlist]
      simpa only [hkey] using hr.ordered.sorted
    · rw [hlist] at hx
      rw [hkey, hproc, hkeep x hx]
      exact hr.ordered.key_eq x hx
    -- The running process is above the list, with its new priority too.
    · rw [hlist] at hx
      rw [hkey, hproc, hcur, setProc_apply]
      split_ifs with hp
      · exact (hr.ordered.le_firstkey hx).trans (hcurr hp.symm)
      · have htop := hr.fair.resolve_right fun hd => absurd hd.1 (by rw [hi.ndefers]; decide)
        exact htop hi.curr x hx

/-- `create` changes no order: the new process is on no queue. -/
theorem create_sameRank (hi : Idle s) (ssize : ℕ) (priority : Int16) :
    SameRank s (s.create ssize priority) := by
  have h := newProcess_effect s ssize priority PAGE_DIR_ADDR_START
  unfold create
  generalize s.newProcess ssize priority PAGE_DIR_ADDR_START = r at h
  cases h with
  | none n => exact .of_tables rfl rfl (fun _ => rfl) rfl id ⟨rfl, rfl⟩
  | @some pid n saddr memlist hp hf hstk =>
    have hne : ∀ x, s.state x ≠ .free → x ≠ pid := fun x hx he => hx (he ▸ hf)
    have hc : s.currpid ≠ pid := hne _ hi.curr_live
    refine ⟨contents_of_queuetab rfl _, fun _ _ => rfl, fun x hx => ?_, rfl, fun _ => ⟨hi.curr, ?_⟩, rfl, rfl⟩
    · have hxp : x ≠ pid := hne x (by rw [ready_of_mem hi hx]; exact nofun)
      exact congrArg Procent.prprio (Function.update_of_ne hxp ..)
    · exact congrArg Procent.prprio (Function.update_of_ne hc ..)

/-- After `wait` the ready list is in the order of priorities. -/
theorem Sys.Waited.ranked {sem : ℤ} (h : Waited s sem s') (hi : Idle s) (hr : Ranked s) : Ranked s' := by
  have hcount : SameRank s (s.waitCount sem) := .of_tables rfl rfl (fun _ => rfl) rfl id ⟨rfl, rfl⟩
  cases h with
  | refused v => exact (SameRank.ret s v).ranked hr
  | passed => exact hcount.ranked hr
  | blocked hs hu hc hm =>
    obtain ⟨hq, h₁, -⟩ := semq_mem hs
    rw [hi.linked.squeue sem hs] at hm
    generalize hs₁ : ((s.waitCount sem).setProc s.currpid fun p =>
      { p with prstate := .wait, prsem := sem }) = s₁ at hm
    have hsame : SameRank s s₁ := by
      rw [← hs₁]
      exact hcount.trans (.setProc _ _ (fun _ => rfl) nofun)
    have hl₁ : Linked s₁ s.home := by
      rw [← hs₁]
      refine hi.linked.of_eq rfl rfl rfl fun m => ?_
      exact s.setSem_squeue (f := fun e => { e with scount := int32 (e.scount - 1) }) (fun _ => rfl) sem m
    have hst₁ : s₁.state s.currpid ≠ .free := by
      rw [← hs₁]
      unfold state
      rw [setProc_same]
      exact nofun
    have henq := enqueue_contents hl₁ hq hi.states.currpid hst₁ (home_curr hi.curr) hl₁.readylist_mem
    rw [if_neg (by rw [hl₁.readylist]; exact h₁.symm)] at henq
    obtain ⟨t, ht⟩ := s₁.enqueue_tables s.currpid (semq sem)
    have hkey := s₁.enqueue_key s.currpid (semq sem)
    rw [ht] at henq hkey hm
    refine SameRank.moves (hsame.trans ⟨henq, fun x _ => hkey x,
      fun _ _ => rfl, rfl, fun hc => ⟨hc, rfl⟩, rfl, rfl⟩) hm hr

/-- The end of `receive` changes no order. -/
theorem receiveEnd_sameRank (s : Sys) : SameRank s s.receiveEnd :=
  (SameRank.ret s _).trans ((SameRank.takeMsg _ _).trans (.setPend _ _))

/-- The end of `recvtime` changes no order. -/
theorem recvtimeEnd_sameRank (s : Sys) : SameRank s s.recvtimeEnd := by
  unfold recvtimeEnd
  dsimp only
  split_ifs
  · exact receiveEnd_sameRank s
  · exact (SameRank.ret s _).trans (.setPend _ _)

/-- After a tick the ready list is in the order of priorities. -/
theorem Sys.Ticked.ranked (h : Ticked s s') (hi : Idle s) (hr : Ranked s) : Ranked s' := by
  obtain ⟨a, b, ht⟩ := s.ticked_eq
  have hticked : SameRank s s.ticked := by
    rw [ht]
    exact .of_tables rfl rfl (fun _ => rfl) rfl id ⟨rfl, rfl⟩
  -- The key that changes is that of a sleeping process.
  have hkey : ∀ p ∈ s.contents s.sleepq, ∀ v, SameRank s (s.ticked.setKey p v) := by
    intro p hp v
    refine hticked.trans ⟨setKey_contents .., fun x hx => setKey_key ?_ _ _, fun _ _ => rfl, rfl,
      fun hc => ⟨hc, rfl⟩, rfl, rfl⟩
    rw [hticked.list] at hx
    rintro rfl
    exact not_ready_of_asleep hi.linked hp hx
  cases h with
  | none => exact hticked.ranked hr
  | keep hl hk => exact (hkey _ (by rw [hl]; exact List.mem_cons_self) _).ranked hr
  | wake hl hk hm => exact (hkey _ (by rw [hl]; exact List.mem_cons_self) _).moves hm hr

/-- A new semaphore changes no order. -/
theorem semcreate_sameRank (s : Sys) (count : ℤ) : SameRank s (s.semcreate count) := by
  unfold semcreate
  refine .of_tables ?_ ?_ ?_ ?_ ?_ ?_
  all_goals
    split_ifs
    · first | rfl | exact fun _ => rfl | exact id | exact ⟨rfl, rfl⟩
    · dsimp only
      cases (s.newsemLoop NSEM.toNat s.nextsem).1 <;>
        first | rfl | exact fun _ => rfl | exact id | exact ⟨rfl, rfl⟩

/-- `recvclr` keeps the order of the ready list. -/
theorem recvclr_sameRank (s : Sys) : SameRank s s.recvclr := by
  unfold recvclr
  dsimp only
  split_ifs
  · exact (SameRank.ret s _).trans (.takeMsg _ _)
  · exact .ret s _

/-- `signal` and `signaln` keep the order. -/
theorem Sys.Signalled.ranked {sem : ℤ} {n : ℕ} (h : Signalled s sem n s') (hr : Ranked s) : Ranked s' := by
  cases h with
  | refused v => exact (SameRank.ret s v).ranked hr
  | released hs hu hrel => exact hrel.ranked (.ret s OK) hr

/-- A reset of a semaphore keeps the running process ahead of those that are ready. -/
theorem Sys.SemReset.ranked {sem count : ℤ} (h : SemReset s sem count s') (hr : Ranked s) : Ranked s' := by
  cases h with
  | refused v => exact (SameRank.ret s v).ranked hr
  | released hs h0 hu hrel => exact hrel.ranked (.ret s OK) hr

/-- After a semaphore has been deleted the ready list is in the order of priorities. -/
theorem Sys.SemDeleted.ranked {sem : ℤ} (h : SemDeleted s sem s') (hr : Ranked s) : Ranked s' := by
  cases h with
  | refused v => exact (SameRank.ret s v).ranked hr
  | released hs hu c hrel =>
    refine hrel.ranked ((SameRank.ret s OK).trans ?_) hr
    exact .of_tables rfl rfl (fun _ => rfl) rfl id ⟨rfl, rfl⟩

/-- `resume` keeps the order: the scheduler puts the process in its place. -/
theorem Sys.Resumed.ranked {pid : ℤ} (h : Resumed s pid s') (hr : Ranked s) : Ranked s' := by
  cases h with
  | refused v => exact (SameRank.ret s v).ranked hr
  | resumed v hp hst hm => exact (SameRank.ret s v).moves hm hr

/-- `suspend` takes a process out of the ready list, or stops the running one. -/
theorem Sys.Suspended.ranked {pid : ℤ} (h : Suspended s pid s') (hi : Idle s) (hr : Ranked s) :
    Ranked s' := by
  cases h with
  | refused v => exact (SameRank.ret s v).ranked hr
  | ready hp h0 hst =>
    have hget := getitem_ranked hi.linked hi.states hp hst hr
    refine SameRank.ranked ((SameRank.setState (s.getitem pid) pid .susp nofun).trans ?_) hget
    exact (SameRank.ret _ _).trans (.setPend _ _)
  | self hp h0 hm =>
    exact ((SameRank.setPend s _).trans (.setState _ _ .susp nofun)).moves hm hr

/-- The first part of `kill` keeps the order, when the parent gets its message too. -/
theorem Sys.KillStarted.ranked {pid : ℤ} (h : KillStarted s pid s') (hi : Idle s) (hr : Ranked s) :
    Ranked s' := by
  cases h with
  | refused h => exact (SameRank.ret s _).ranked hr
  | halted =>
    refine SameRank.ranked (s := s) ?_ hr
    exact .of_tables rfl rfl (fun _ => rfl) rfl id ⟨rfl, rfl⟩
  | sent hp h0 hl hc hsent =>
    refine hsent.ranked (hi.killing hp h0).toRunning (SameRank.ranked ?_ hr)
    exact .of_tables rfl rfl (fun _ => rfl) rfl id ⟨rfl, rfl⟩

/-- After `sleepms` the ready list is in the order of priorities. -/
theorem Sys.Slept.ranked {delay : ℤ} (h : Slept s delay s') (hi : Idle s) (hr : Ranked s) : Ranked s' := by
  cases h with
  | refused hd => exact (SameRank.ret s SYSERR).ranked hr
  | yielded hd hm => exact (SameRank.ret s OK).moves hm hr
  | blocked hd hins hm =>
    exact ((SameRank.ret s OK).trans ((insertd_sameRank (hi.ret OK) hins).trans
      (.setState _ _ .sleep nofun))).moves hm hr

/-- After `recvtime` the ready list is in the order of priorities. -/
theorem Sys.TimedReceive.ranked {maxwait : ℤ} (h : TimedReceive s maxwait s') (hi : Idle s) (hr : Ranked s) :
    Ranked s' := by
  cases h with
  | refused hd => exact (SameRank.ret s _).ranked hr
  | ended hm => exact (recvtimeEnd_sameRank s).ranked hr
  | blocked hd hm hins hmv =>
    refine SameRank.moves ((insertd_sameRank hi hins).trans ?_) hmv hr
    exact (SameRank.setPend _ _).trans (.setState _ _ .rectim nofun)

/-- After `receive` the ready list is in the order of priorities. -/
theorem Sys.Received.ranked (h : Received s s') (hr : Ranked s) : Ranked s' := by
  cases h with
  | ended hm => exact (receiveEnd_sameRank s).ranked hr
  | blocked hm hs => exact ((SameRank.setPend s _).trans (.setState _ _ .recv nofun)).moves hs hr

/-- After the system call `send` the ready list is in the order of priorities. -/
theorem Sys.SentCall.ranked {pid : ℤ} {msg : ℕ} (h : SentCall s pid msg s') (hi : Idle s) (hr : Ranked s) :
    Ranked s' := by
  cases h with
  | refused h => exact ((SameRank.ret s OK).trans (.ret _ _)).ranked hr
  | sent hsent => exact hsent.ranked (hi.ret OK).toRunning ((SameRank.ret s OK).ranked hr)

/-- A step of a plain run keeps the order. -/
theorem ranked_step {k k' : Kernel} {e : Event} (h : PlainStep k e k') (hc : ChprioOk k.sys e)
    (hr : Ranked k.sys) : Ranked k'.sys := by
  have hi := h.inv.idle
  have he := h.effect
  generalize k.sys = s at *
  generalize k'.sys = s' at *
  -- One lemma for each thing that a step does; only `chprio` needs the condition.
  cases he with
  | create => exact (create_sameRank hi _ _).ranked hr
  | chprio => exact chprio_ranked hi hc hr
  | yield hm => exact (SameRank.ret s OK).moves hm hr
  | semcreate => exact (semcreate_sameRank s _).ranked hr
  | wait h => exact h.ranked hi hr
  | signal h => exact h.ranked hr
  | signaln h => exact h.ranked hr
  | semreset h => exact h.ranked hr
  | semdelete h => exact h.ranked hr
  | recvclr => exact (recvclr_sameRank s).ranked hr
  | resume h => exact h.ranked hr
  | suspend h => exact h.ranked hi hr
  | kill h => exact h.ranked hi hr
  | sleepms h => exact h.ranked hi hr
  | recvtime h => exact h.ranked hi hr
  | receive h => exact h.ranked hr
  | send h => exact h.ranked hi hr
  | tick h => exact h.ranked hi hr
  | user hp => exact hr
  | suspendEnd hp => exact ((SameRank.ret s _).trans (.setPend _ _)).ranked hr
  | receiveEnd hp => exact (receiveEnd_sameRank s).ranked hr
  | recvtimeEnd hp => exact (recvtimeEnd_sameRank s).ranked hr
  | killEnd hp h => exact h.ranked hi (hi.states.kill_pid _ _ hp).1 hr
  | tickEnd hp hm => exact (SameRank.setPend s .user).moves hm hr

/-! ## Runs -/

/-- At boot the ready list is empty. -/
theorem sysinit_ranked (b : Boot) : Ranked (sysinit b).sys := by
  have hi := sysinit_idle b
  have hnil : (sysinit b).sys.contents (sysinit b).sys.readylist = [] := by
    rw [List.eq_nil_iff_forall_not_mem]
    intro p hp
    have hst := ready_of_mem hi hp
    rw [sysinit_proc] at hst
    split_ifs at hst
  refine ⟨⟨?_, ?_⟩, .inl fun _ p hp => ?_⟩
  · rw [hnil]
    exact .nil
  · rw [hnil]
    exact nofun
  · rw [hnil] at hp
    cases hp

/-- The states of the runs in which `chprio` meets its condition. -/
def PrioReach : Kernel → Prop := Kernel.Reach fun k e => e.Plain ∧ ChprioOk k.sys e

/-- Every such run keeps the order. -/
theorem ranked_inv {k : Kernel} (h : PrioReach k) : Ranked k.sys := by
  induction h with
  | boot b hz => exact sysinit_ranked b
  | step hk ha hs ih => exact ranked_step (plain_step (hk.mono fun _ _ he => he.1) ha.1 hs) ha.2 ih

/-- Between two steps an ordered ready list is scheduled by the priorities. -/
theorem Ranked.scheduled (h : Ranked s) (hi : Idle s) : Scheduled s := by
  refine ⟨h.ordered.sorted.imp_of_mem fun hp hq hle => ?_, fun p hp hst => ?_⟩
  · rw [h.ordered.key_eq _ hp, h.ordered.key_eq _ hq] at hle
    exact Int16.le_iff_toInt_le.mpr hle
  · have hmem : p ∈ s.contents s.readylist :=
      (mem_contents hi.linked hi.linked.readylist_mem).mpr ((home_ready_iff hi.linked hi.states hp).mpr hst)
    have htop := h.fair.resolve_right fun hd => absurd hd.1 (by rw [hi.ndefers]; decide)
    have hle := htop hi.curr p hmem
    rw [h.ordered.key_eq p hmem] at hle
    exact Int16.le_iff_toInt_le.mpr hle

/-- **The processes are scheduled by their priorities** in every state of every run in which
`chprio` neither changes the priority of a ready process nor puts that of the running process below
the first key of the ready list. -/
theorem scheduled_by_priority {k : Kernel} (h : PrioReach k) : Scheduled k.sys :=
  (ranked_inv h).scheduled (plain_inv (h.mono fun _ _ he => he.1)).idle

instance (s : Sys) (e : Event) : Decidable (ChprioOk s e) := by
  unfold ChprioOk
  split <;> infer_instance

/-- A process makes another one of lower priority ready. -/
def readyEvents : List Event :=
  [.call (.create 1024 20), .call (.resume 1), .call (.create 1024 15), .call (.resume 2)]

/-- Events that can happen lead to a state that is reached. -/
theorem Kernel.Reach.runs {Allowed : Kernel → Event → Prop} {k : Kernel} (h : Kernel.Reach Allowed k)
    {es : List Event} (hr : k.Runs Allowed es) : Kernel.Reach Allowed (k.afterAll es) := by
  induction es generalizing k with
  | nil => exact h
  | cons e es ih => exact ih (h.step hr.2.1 hr.1.step) hr.2.2

set_option maxRecDepth 100000 in
/-- The processes are scheduled by their priorities while one runs and two are ready. -/
theorem scheduled_by_priority_ready :
    ∃ k, PrioReach k ∧ k.sys.contents k.sys.readylist = [2, 0] ∧ Scheduled k.sys := by
  have hruns : (sysinit clearedBoot).Runs (fun k e => e.Plain ∧ ChprioOk k.sys e) readyEvents := by
    decide +kernel
  have hlist : ((sysinit clearedBoot).afterAll readyEvents).sys.contents
      ((sysinit clearedBoot).afterAll readyEvents).sys.readylist = [2, 0] := by decide +kernel
  have hboot : PrioReach (sysinit clearedBoot) := .boot clearedBoot fun _ _ _ => rfl
  generalize sysinit clearedBoot = k at *
  have hreach : PrioReach (k.afterAll readyEvents) := Kernel.Reach.runs hboot hruns
  exact ⟨_, hreach, hlist, scheduled_by_priority hreach⟩

set_option maxRecDepth 100000 in
/-- `chprio` leaves the running process below a ready one: it neither puts it behind that nor calls
the scheduler. -/
theorem chprio_unscheduled :
    ∃ k : Kernel, k.PlainReach ∧ k.sys.pend k.sys.currpid = .user ∧ k.sys.ndefers = 0 ∧
    ¬ Scheduled k.sys := by
  have hruns : (sysinit clearedBoot).Runs (fun _ e => e.Plain) (readyEvents ++ [.call (.chprio 1 10)]) := by
    decide +kernel
  have hpend : ((sysinit clearedBoot).afterAll (readyEvents ++ [.call (.chprio 1 10)])).sys.pend
      ((sysinit clearedBoot).afterAll (readyEvents ++ [.call (.chprio 1 10)])).sys.currpid = .user := by
        decide +kernel
  have hdefer : ((sysinit clearedBoot).afterAll (readyEvents ++ [.call (.chprio 1 10)])).sys.ndefers = 0 := by
    decide +kernel
  have hbad : ((sysinit clearedBoot).afterAll (readyEvents ++ [.call (.chprio 1 10)])).sys.state 2 = .ready ∧
      ¬ (((sysinit clearedBoot).afterAll (readyEvents ++ [.call (.chprio 1 10)])).sys.proctab 2).prprio ≤
        (((sysinit clearedBoot).afterAll (readyEvents ++ [.call (.chprio 1 10)])).sys.proctab
          ((sysinit clearedBoot).afterAll (readyEvents ++ [.call (.chprio 1 10)])).sys.currpid).prprio := by
    decide +kernel
  have hboot : (sysinit clearedBoot).PlainReach := .boot clearedBoot fun _ _ _ => rfl
  generalize sysinit clearedBoot = k at *
  refine ⟨_, Kernel.Reach.runs hboot hruns, hpend, hdefer, fun hs => hbad.2 ?_⟩
  exact hs.top 2 ⟨by decide, by decide⟩ hbad.1

end

end Xinu
