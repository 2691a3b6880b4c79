import Xinu.Kernel.Moves
import Xinu.Kernel.CallsSpec

/-!
# The effects of the system calls

For every system call that may give up the processor, what it has changed before the scheduler moves
anything, and which processes the scheduler makes ready. The calls that leave the scheduler alone
are their own description.
-/

namespace Xinu

namespace Sys

variable {s s' : Sys}

/-! ## Blocking -/

/-- The running process leaves the processor for a state that calls for no queue. -/
theorem block_settled (h : Idle s) {st : PrState} (hn : s.currpid ≠ NULLPROC)
    (hst : st = .susp ∨ st = .recv ∨ st = .free) : Settled (s.setState s.currpid st) := by
  have hhome : s.homeOf { s.proctab s.currpid with prstate := st } = none := by
    rcases hst with rfl | rfl | rfl <;> rfl
  refine setState_settled ?_ h.states h.states.currpid ?_ ?_ fun he => absurd he hn
  · rw [hhome, update_home_none (home_curr h.curr)]
    exact h.linked
  all_goals rcases hst with rfl | rfl | rfl <;> exact nofun

/-- `resume(pid)`. -/
inductive Resumed (s : Sys) (pid : ℤ) : Sys → Prop
  | refused (v : ℤ) : Resumed s pid (s.ret v)
  | resumed {s' : Sys} (v : ℤ) (hp : IsPid pid) (hst : s.state pid = .susp) (hm : Moves [pid] (s.ret v) s') :
    Resumed s pid s'

/-- `resume` makes a suspended process ready. -/
theorem resume_effect (h : Idle s) (pid : ℤ) : (s.resume pid).Ends (Resumed s pid) := by
  unfold resume
  split_ifs with hbad hsusp
  · exact .ok (.refused _)
  · exact .ok (.refused _)
  · obtain ⟨hp, hf⟩ := pid_of_not_bad hbad
    rw [not_not] at hsusp
    generalize (s.proctab pid).prprio.toInt = v
    have hi := h.ret v
    have hnone : (s.ret v).home pid = none := home_susp hsusp
    refine (ready_moves ?_ hi.states hp hf).mono fun s' hs' => .resumed v hp hsusp hs'
    rw [update_home_none hnone]
    exact hi.linked

/-- `suspend(pid)`. -/
inductive Suspended (s : Sys) (pid : ℤ) : Sys → Prop
  | refused (v : ℤ) : Suspended s pid (s.ret v)
  | ready (hp : IsPid pid) (hn : pid ≠ NULLPROC) (hst : s.state pid = .ready) :
    Suspended s pid (((s.getitem pid).setState pid .susp).suspendEnd pid)
  | self {s' : Sys} (hp : pid = s.currpid) (hn : pid ≠ NULLPROC)
    (hm : Moves [] ((s.setPend (.suspend pid)).setState pid .susp) s') : Suspended s pid s'

/-- `suspend` takes a ready process from the ready list, or the running one from the processor. -/
theorem suspend_effect (h : Idle s) (pid : ℤ) : (s.suspend pid).Ends (Suspended s pid) := by
  unfold suspend
  split_ifs with hbad hst hready
  · exact .ok (.refused _)
  · exact .ok (.refused _)
  · exact .ok (.ready (pid_of_not_bad (not_or.mp hbad).1).1 (not_or.mp hbad).2 hready)
  · obtain ⟨hp, -⟩ := pid_of_not_bad (not_or.mp hbad).1
    have hn := (not_or.mp hbad).2
    have hcurr : s.state pid = .curr := by
      by_contra hc
      exact hst ⟨hc, hready⟩
    obtain rfl := h.states.curr_only pid hp hcurr
    have hi : Idle (s.setPend (.suspend s.currpid)) := h.setPend nofun
    exact (resched_moves (block_settled hi hn (.inl rfl))).mono fun s' hs' => .self rfl hn hs'

/-- `yield` does nothing but let the scheduler run. -/
theorem yield_effect (h : Idle s) : s.yield.Ends fun s' => Moves [] (s.ret OK) s' :=
  resched_moves (h.ret OK).toSettled

/-! ## Semaphores -/

/-- The queue of a semaphore is not the ready list. -/
theorem squeue_ne_readylist (hl : Linked s s.home) {n : ℤ} (hn : IsSem n) :
    (s.semtab n).squeue ≠ s.readylist := by
  have h₁ : n < 100 := hn.2
  rw [hl.squeue n hn, hl.readylist]
  omega

/-- The entry of a semaphore after a change of its count. -/
theorem setSem_apply (s : Sys) (n : ℤ) (f : Sentry → Sentry) (m : ℤ) :
    (s.setSem n f).semtab m = if m = n then f (s.semtab n) else s.semtab m := Function.update_apply ..

/-- `scount` after `wait`. -/
def waitCount (s : Sys) (sem : ℤ) : Sys :=
  (s.setSem sem fun e => { e with scount := int32 (e.scount - 1) }).ret OK

/-- `wait(sem)`. -/
inductive Waited (s : Sys) (sem : ℤ) : Sys → Prop
  | refused (v : ℤ) : Waited s sem (s.ret v)
  | passed (hs : IsSem sem) (hu : (s.semtab sem).sstate = .used)
    (hc : ¬ int32 ((s.semtab sem).scount - 1) < 0) :
    Waited s sem (s.waitCount sem)
  | blocked {s' : Sys} (hs : IsSem sem) (hu : (s.semtab sem).sstate = .used)
    (hc : int32 ((s.semtab sem).scount - 1) < 0)
    (hm : Moves [] (((s.waitCount sem).setProc s.currpid fun p =>
    { p with prstate := .wait, prsem := sem }).enqueue
      s.currpid (s.semtab sem).squeue) s') : Waited s sem s'

/-- A semaphore that is not free is used. -/
theorem used_of_not_free {n : ℤ} (h : ¬ (s.semtab n).sstate = .free) : (s.semtab n).sstate = .used := by
  cases hst : (s.semtab n).sstate with
  | free => exact absurd hst h
  | used => rfl

/-- `wait` decrements the count, and puts the running process at the end of the queue when the count
is negative. -/
theorem wait_effect (h : Idle s) (hn : s.currpid ≠ NULLPROC) (sem : ℤ) :
    (s.wait sem).Ends (Waited s sem) := by
  unfold wait
  split_ifs with hbad hfree
  · exact .ok (.refused _)
  · exact .ok (.refused _)
  have hsem := sem_of_not_bad hbad
  have hentry : (s.waitCount sem).semtab sem =
      { s.semtab sem with scount := int32 ((s.semtab sem).scount - 1) } :=
    (s.setSem_apply sem (fun e => { e with scount := int32 (e.scount - 1) }) sem).trans (if_pos rfl)
  dsimp only
  change (if ((s.waitCount sem).semtab sem).scount < 0 then _ else _ : Res Sys).Ends _
  change (if ((s.waitCount sem).semtab sem).scount < 0 then
    (((s.waitCount sem).setProc s.currpid fun p =>
      { p with prstate := .wait, prsem := sem }).enqueue s.currpid
      ((s.waitCount sem).semtab sem).squeue).resched else _ : Res Sys).Ends _
  rw [hentry]
  split_ifs with hc
  · have hr : Running (s.waitCount sem) :=
      (h.toRunning.setSem sem (fun e => { e with scount := int32 (e.scount - 1) }) fun _ => rfl).ret OK
    have hset := enqueue_wait_settled hr hn hsem
    rw [hentry] at hset
    exact (resched_moves hset).mono fun s' hs' => .blocked hsem (used_of_not_free hfree) hc hs'
  · exact .ok (.passed hsem (used_of_not_free hfree) hc)

/-- `scount` after `signal`. -/
def signalCount (s : Sys) (sem : ℤ) : Sys := s.setSem sem fun e => { e with scount := int32 (e.scount + 1) }

/-- One `signal` increments the count. When it was negative, the first process of the queue is made ready. -/
theorem signalOnce_effect (h : Running s) {sem : ℤ} (hs : IsSem sem) :
    (s.signalOnce sem).Ends fun s' =>
      Moves (if (s.semtab sem).scount < 0 then (s.contents (s.semtab sem).squeue).take 1 else [])
        (s.signalCount sem) s' := by
  have hr := h.setSem sem (fun e => { e with scount := int32 (e.scount + 1) }) fun _ => rfl
  have hq : ((s.signalCount sem).semtab sem).squeue = (s.semtab sem).squeue :=
    s.setSem_squeue (f := fun e => { e with scount := int32 (e.scount + 1) }) (fun _ => rfl) sem sem
  unfold signalOnce
  dsimp only
  split_ifs with hc
  · change ((((s.signalCount sem).dequeue ((s.signalCount sem).semtab sem).squeue).2.ready
      ((s.signalCount sem).dequeue ((s.signalCount sem).semtab sem).squeue).1)).Ends _
    rw [hq]
    refine dequeue_ready_moves hr ?_ ?_
    · exact h.linked.squeue_mem hs
    · exact squeue_ne_readylist h.linked hs
  · exact .ok (.refl _)

/-- The semaphores do not matter to the scheduler. -/
theorem Moves.withSem {R : List ℤ} (h : Moves R s s') (u : ℤ → Sentry) :
    Moves R { s with semtab := u } { s' with semtab := u } := by
  refine ⟨⟨?_, h.entry, h.state, h.ready, h.key, h.queue⟩, fun ho hf => ?_⟩
  · rw [h.rest]
  · obtain ⟨ho', hf'⟩ := h.ranks ⟨ho.sorted, ho.key_eq⟩ hf
    exact ⟨⟨ho'.sorted, ho'.key_eq⟩, hf'⟩

/-- What is left of a list without the elements of its first part. -/
theorem filter_not_mem_append {l r : List ℤ} (hnd : (l ++ r).Nodup) :
    ((l ++ r).filter fun x => x ∉ l) = r := by
  have hdisj := (List.nodup_append.mp hnd).2.2
  rw [List.filter_append, List.filter_eq_nil_iff.mpr fun x hx => by simpa using hx, List.nil_append]
  refine List.filter_eq_self.mpr fun x hx => ?_
  rw [decide_eq_true_iff]
  exact fun hx' => hdisj x hx' x hx rfl

/-- What is left of a list without its first elements. -/
theorem filter_not_mem_take {l : List ℤ} (hnd : l.Nodup) (k : ℕ) :
    (l.filter fun x => x ∉ l.take k) = l.drop k := by
  have hsplit := List.take_append_drop k l
  have := filter_not_mem_append (l := l.take k) (r := l.drop k) (by rw [hsplit]; exact hnd)
  rwa [hsplit] at this

/-- The first `k` processes on the queue of a semaphore are made ready, and its count becomes `c`. -/
def Releases (sem : ℤ) (k : ℕ) (c : ℤ) (s s' : Sys) : Prop :=
  Moves ((s.contents (s.semtab sem).squeue).take k) (s.setSem sem fun e => { e with scount := c }) s'

namespace Releases

variable {sem : ℤ} {k k' : ℕ} {c c' : ℤ} {s'' : Sys}

/-- The entry of the semaphore afterwards. -/
theorem semtab (h : Releases sem k c s s') :
    s'.semtab = Function.update s.semtab sem { s.semtab sem with scount := c } := by
  rw [Moves.toMoved h |>.semtab]
  rfl

/-- The processes left on the queue. -/
theorem contents (h : Releases sem k c s s') (hl : Linked s s.home) (hs : IsSem sem) :
    s'.contents (s.semtab sem).squeue = (s.contents (s.semtab sem).squeue).drop k := by
  have hq := hl.squeue_mem hs
  rw [Moves.toMoved h |>.queue _ hq (squeue_ne_readylist hl hs)]
  change List.filter _ (s.contents (s.semtab sem).squeue) = _
  have hnd := nodup_contents hl hq
  exact filter_not_mem_take hnd k

/-- Some processes are made ready, and then some more. -/
theorem trans (h : Releases sem k c s s') (h' : Releases sem k' c' s' s'')
    (hl : Linked s s.home) (hs : IsSem sem) :
    Releases sem (k + k') c' s s'' := by
  have hsq : (s'.semtab sem).squeue = (s.semtab sem).squeue := by
    rw [h.semtab, Function.update_self]
  have hfirst := Moves.withSem h (Function.update s.semtab sem { s.semtab sem with scount := c' })
  unfold Releases at h' ⊢
  rw [hsq, h.contents hl hs] at h'
  rw [List.take_add]
  have hmid : Moves ((s.contents (s.semtab sem).squeue).take k)
      (s.setSem sem fun e => { e with scount := c' })
      (s'.setSem sem fun e => { e with scount := c' }) := by
    unfold setSem
    rw [h.semtab, Function.update_self, Function.update_idem]
    exact hfirst
  exact hmid.trans h'

end Releases

/-- What `n` signals do to a count: how many of them find it negative, and the count behind them. -/
def signals : ℕ → ℤ → ℕ × ℤ
  | 0, c => (0, c)
  | n + 1, c => ((if c < 0 then 1 else 0) + (signals n (int32 (c + 1))).1, (signals n (int32 (c + 1))).2)

/-- Signals that do not make the count too large. -/
theorem signals_eq (n : ℕ) :
    ∀ c : ℤ, -2 ^ 31 ≤ c → c + n < 2 ^ 31 → signals n c = (min n (-c).toNat, c + n) := by
  induction n with
  | zero =>
    intro c _ _
    unfold signals
    simp
  | succ n ih =>
    intro c h₁ h₂
    push_cast at h₂
    unfold signals
    rw [int32_of_mem (by omega) (by omega), ih (c + 1) (by omega) (by omega)]
    refine Prod.ext ?_ ?_
    · dsimp only
      split_ifs <;> omega
    · push_cast
      omega

/-- One round of `signal` releases the first waiting process, if there is one, and counts up. -/
theorem signalOnce_releases (h : Running s) {sem : ℤ} (hs : IsSem sem) :
    (s.signalOnce sem).Ends fun s' => Releases sem (if (s.semtab sem).scount < 0 then 1 else 0)
      (int32 ((s.semtab sem).scount + 1)) s s' := by
  refine (signalOnce_effect h hs).mono fun s' hs' => ?_
  unfold Releases
  unfold signalCount at hs'
  split_ifs at hs' ⊢ with hc
  · exact hs'
  · rw [List.take_zero]
    exact hs'

/-- The loop of `signaln` releases one process a round, as long as one waits. -/
theorem signalnLoop_releases {sem : ℤ} (hsem : IsSem sem) :
    ∀ (n : ℕ) (s : Sys), Running s → (signalnLoop sem n s).Ends fun s' =>
      Releases sem (signals n (s.semtab sem).scount).1 (signals n (s.semtab sem).scount).2 s s' := by
  intro n
  induction n with
  | zero =>
    intro s _
    refine .ok ?_
    have hsame : (s.setSem sem fun e => { e with scount := (s.semtab sem).scount }) = s := by
      unfold setSem
      rw [Function.update_eq_self]
    unfold Releases signals
    rw [List.take_zero, hsame]
    exact .refl s
  | succ n ih =>
    intro s h
    refine Res.Ends.bind ((signalOnce_spec h hsem).and (signalOnce_releases h hsem)) fun s₁ h₁ => ?_
    refine (ih s₁ h₁.1.1).mono fun s' hs' => ?_
    have hc : (s₁.semtab sem).scount = int32 ((s.semtab sem).scount + 1) := by
      rw [h₁.2.semtab, Function.update_self]
    rw [hc] at hs'
    exact h₁.2.trans hs' h.linked hsem

/-- A release under deferred rescheduling. -/
theorem releases_deferred {sem : ℤ} {k : ℕ} {c : ℤ} {s₁ s₂ : Sys} (h0 : s.ndefers = 0)
    (h : Releases sem k c s.reschedCntlStart s₁) (h' : Moves [] s₁ s₂) : Releases sem k c s s₂ := by
  have hstart := (cntlStart_moves h0).withSem (Function.update s.semtab sem { s.semtab sem with scount := c })
  have hall := (hstart.trans h).trans h'
  rw [List.nil_append, List.append_nil] at hall
  exact hall

/-- `signaln(sem, count)`, and `signal(sem)` with `n = 1`. -/
inductive Signalled (s : Sys) (sem : ℤ) (n : ℕ) : Sys → Prop
  | refused (v : ℤ) : Signalled s sem n (s.ret v)
  | released {s' : Sys} (hs : IsSem sem) (hu : (s.semtab sem).sstate = .used)
    (hr : Releases sem (signals n (s.semtab sem).scount).1 (signals n (s.semtab sem).scount).2
    (s.ret OK) s') :
    Signalled s sem n s'

/-- `signal` is one signal. -/
theorem signal_effect (h : Idle s) (sem : ℤ) : (s.signal sem).Ends (Signalled s sem 1) := by
  unfold signal
  split_ifs with hbad hfree
  · exact .ok (.refused _)
  · exact .ok (.refused _)
  · have hsem := sem_of_not_bad hbad
    exact (signalOnce_releases (h.toRunning.ret OK) hsem).mono fun s' hs' =>
      .released hsem (used_of_not_free hfree) hs'

/-- `signaln` does what as many calls of `signal` do. -/
theorem signaln_effect (h : Idle s) (sem count : ℤ) :
    (s.signaln sem count).Ends (Signalled s sem count.toNat) := by
  unfold signaln
  split_ifs with hbad hfree
  · exact .ok (.refused _)
  · exact .ok (.refused _)
  · have hsem := sem_of_not_bad (not_or.mp hbad).1
    have hr := (h.toRunning.ret OK).cntlStart
    refine Res.Ends.bind ((signalnLoop_spec hsem _ _ hr).and (signalnLoop_releases hsem _ _ hr))
      fun s₁ h₁ => ?_
    have h0 : (s.ret OK).ndefers = 0 := h.ndefers
    have h1 : s₁.ndefers = 1 := by
      rw [h₁.1.2.ndefers]
      show (s.ret OK).ndefers + 1 = 1
      omega
    refine (cntlStop_moves h₁.1.1 h1).mono fun s' hs' => ?_
    exact .released hsem (used_of_not_free hfree) (releases_deferred h0 h₁.2 hs')

/-- The loop of `semreset` makes all the processes on the queue ready. -/
theorem semresetLoop_moves {q : ℤ} (hq : q ∈ queueIds) (hne : q ≠ 300) :
    ∀ (fuel : ℕ) (s : Sys), Running s → s.ndefers > 0 → (s.contents q).length < fuel →
      (semresetLoop q fuel s).Ends fun s' => Moves (s.contents q) s s' := by
  intro fuel
  induction fuel with
  | zero => exact fun s _ _ hlt => absurd hlt (Nat.not_lt_zero _)
  | succ fuel ih =>
    intro s h hd hlt
    have hqr : q ≠ s.readylist := by
      rw [h.linked.readylist]
      exact hne
    -- By induction on the rounds, of which there are more than waiting processes.
    unfold semresetLoop
    cases hl : s.contents q with
    | nil =>
      have hg : s.getfirst q = (EMPTY, s) := by
        unfold getfirst
        rw [if_pos (isempty_contents.mpr hl)]
      rw [hg]
      exact .ok (.refl s)
    | cons p l =>
      have hpid := pid_of_mem h.linked hq (by rw [hl]; exact List.mem_cons_self : p ∈ s.contents q)
      have hfst := (getfirst_contents h.linked hq hl hq).1
      have hgo : (s.getfirst q).1 ≠ EMPTY := by
        have h₁ : 0 ≤ p := hpid.1
        rw [hfst]
        exact fun hc => absurd (hc ▸ h₁) (by decide)
      dsimp only
      rw [if_pos hgo]
      -- The first one becomes ready, and the others stay in their order.
      refine Res.Ends.bind ((getfirst_ready_spec h hq).and (getfirst_ready_moves h hq hqr)) fun s₁ h₁ => ?_
      obtain ⟨hspec, hmoves⟩ := h₁
      rw [hl, List.take_succ_cons, List.take_zero] at hmoves
      have hnd := nodup_contents h.linked hq
      rw [hl, List.nodup_cons] at hnd
      have hcont : s₁.contents q = l := by
        rw [hmoves.queue _ hq hqr, hl, List.filter_cons_of_neg (by simp)]
        refine List.filter_eq_self.mpr fun x hx => ?_
        have hxp : x ≠ p := fun he => hnd.1 (he ▸ hx)
        simpa using hxp
      rw [hl, List.length_cons] at hlt
      refine (ih s₁ hspec.running (by rw [hspec.sched.ndefers]; exact hd) (by rw [hcont]; omega)).mono
        fun s' hs' => ?_
      rw [hcont] at hs'
      exact hmoves.trans hs'

/-- `semreset(sem, count)`. -/
inductive SemReset (s : Sys) (sem count : ℤ) : Sys → Prop
  | refused (v : ℤ) : SemReset s sem count (s.ret v)
  | released {s' : Sys} (hs : IsSem sem) (hc : 0 ≤ count) (hu : (s.semtab sem).sstate = .used)
    (hr : Releases sem (s.contents (s.semtab sem).squeue).length count (s.ret OK) s') :
    SemReset s sem count s'

/-- `semreset` empties the queue, and sets the count. -/
theorem semreset_effect (h : Idle s) (sem count : ℤ) :
    (s.semreset sem count).Ends (SemReset s sem count) := by
  unfold semreset
  split_ifs with hbad
  · exact .ok (.refused _)
  · have hsem := sem_of_not_bad (not_or.mp (not_or.mp hbad).2).1
    have hused := used_of_not_free (not_or.mp (not_or.mp hbad).2).2
    -- The queue of the semaphore is not the ready list, so the moves leave it alone.
    have hq := h.linked.squeue_mem hsem
    have hne : (s.semtab sem).squeue ≠ 300 := by
      rw [← h.linked.readylist]
      exact squeue_ne_readylist h.linked hsem
    have hr := (h.toRunning.ret OK).cntlStart
    have h0 : (s.ret OK).ndefers = 0 := h.ndefers
    have hd : (s.ret OK).reschedCntlStart.ndefers > 0 := by
      show (s.ret OK).ndefers + 1 > 0
      omega
    -- There are enough rounds for all processes that can wait.
    have hwait := (s.ret OK).reschedCntlStart.waiting_le (s.semtab sem).squeue
    have hlen := length_le hr.linked (contents_threads hr.linked) hq
    have hfuel : NQENT.toNat = 304 := rfl
    refine Res.Ends.bind ((semresetLoop_spec hq hne _ _ hr hd (by omega)).and
      (semresetLoop_moves hq hne _ _ hr hd (by omega))) fun s₁ h₁ => ?_
    obtain ⟨⟨hr₁, hsched⟩, hm⟩ := h₁
    have hsem₁ : s₁.semtab = s.semtab := hm.semtab
    have hset := hm.withSem (Function.update s.semtab sem { s.semtab sem with scount := count })
    have h1 : (s₁.setSem sem fun e => { e with scount := count }).ndefers = 1 := by
      show s₁.ndefers = 1
      rw [hsched.ndefers]
      show (s.ret OK).ndefers + 1 = 1
      omega
    have hr₂ := hr₁.setSem sem (fun e => { e with scount := count }) fun _ => rfl
    -- The scheduler has been held up until all of them are ready.
    refine (cntlStop_moves hr₂ h1).mono fun s' hs' => ?_
    refine .released hsem (not_lt.mp (not_or.mp hbad).1) hused (releases_deferred h0 ?_ hs')
    unfold Releases
    have hwhole : ((s.ret OK).reschedCntlStart.contents ((s.ret OK).reschedCntlStart.semtab sem).squeue).take
        (s.contents (s.semtab sem).squeue).length = (s.ret OK).reschedCntlStart.contents
          (s.semtab sem).squeue :=
      List.take_length
    rw [hwhole]
    unfold setSem
    rw [hsem₁]
    exact hset

/-- The loop of `semdelete` makes the first `n` processes on the queue ready. -/
theorem semdeleteLoop_releases {sem : ℤ} (hsem : IsSem sem) :
    ∀ (n : ℕ) (s : Sys), Running s → (semdeleteLoop sem n s).Ends fun s' => ∃ c, Releases sem n c s s' := by
  intro n
  induction n with
  | zero =>
    intro s _
    refine .ok ⟨int32 ((s.semtab sem).scount + 1), ?_⟩
    unfold Releases
    rw [List.take_zero]
    exact .refl _
  | succ n ih =>
    intro s h
    have hr := h.setSem sem (fun e => { e with scount := int32 (e.scount + 1) }) fun _ => rfl
    have hs := Sched.setSem s sem fun e => { e with scount := int32 (e.scount + 1) }
    have hq := s.setSem_squeue (f := fun e => { e with scount := int32 (e.scount + 1) })
      (fun _ => rfl) sem sem
    have hone : (s.semdeleteOnce sem).Ends fun s' => (Running s' ∧ Sched s s') ∧
        Releases sem 1 (int32 ((s.semtab sem).scount + 1)) s s' := by
      unfold semdeleteOnce
      refine ((getfirst_ready_spec hr (hr.linked.squeue_mem hsem)).and (getfirst_ready_moves hr
        (hr.linked.squeue_mem hsem) (squeue_ne_readylist hr.linked hsem))).mono fun s' h' => ?_
      refine ⟨⟨h'.1.running, hs.trans h'.1.sched⟩, ?_⟩
      have hm := h'.2
      rw [hq] at hm
      exact hm
    refine Res.Ends.bind hone fun s₁ h₁ => ?_
    refine (ih s₁ h₁.1.1).mono fun s' hs' => ?_
    obtain ⟨c, hc⟩ := hs'
    rw [Nat.add_comm]
    exact ⟨c, h₁.2.trans hc h.linked hsem⟩

/-- `semdelete(sem)`. -/
inductive SemDeleted (s : Sys) (sem : ℤ) : Sys → Prop
  | refused (v : ℤ) : SemDeleted s sem (s.ret v)
  | released {s' : Sys} (hs : IsSem sem) (hu : (s.semtab sem).sstate = .used) (c : ℤ)
    (hr : Releases sem (-(s.semtab sem).scount).toNat c
      ((s.ret OK).setSem sem fun e => { e with sstate := .free }) s') : SemDeleted s sem s'

/-- `semdelete` makes as many processes ready as the count says. -/
theorem semdelete_effect (h : Idle s) (sem : ℤ) : (s.semdelete sem).Ends (SemDeleted s sem) := by
  unfold semdelete
  split_ifs with hbad hfree
  · exact .ok (.refused _)
  · exact .ok (.refused _)
  · have hsem := sem_of_not_bad hbad
    have hr := (h.toRunning.ret OK).setSem sem (fun e => { e with sstate := .free }) fun _ => rfl
    have h0 : ((s.ret OK).setSem sem fun e => { e with sstate := .free }).ndefers = 0 := h.ndefers
    generalize hs₁ : ((s.ret OK).setSem sem fun e => { e with sstate := .free }) = s₁ at hr h0 ⊢
    refine Res.Ends.bind ((semdeleteLoop_spec hsem _ _ hr.cntlStart).and
      (semdeleteLoop_releases hsem _ _ hr.cntlStart)) fun s₂ h₂ => ?_
    obtain ⟨⟨hr₂, hsched⟩, c, hc⟩ := h₂
    have h1 : s₂.ndefers = 1 := by
      rw [hsched.ndefers]
      show s₁.ndefers + 1 = 1
      omega
    refine (cntlStop_moves hr₂ h1).mono fun s' hs' => ?_
    refine .released hsem (used_of_not_free hfree) c ?_
    rw [hs₁]
    exact releases_deferred h0 hc hs'

/-! ## Sleeping and messages -/

/-- `sleepms(delay)`. -/
inductive Slept (s : Sys) (delay : ℤ) : Sys → Prop
  | refused (hd : delay < 0) : Slept s delay (s.ret SYSERR)
  | yielded {s' : Sys} (hd : delay = 0) (hm : Moves [] (s.ret OK) s') : Slept s delay s'
  | blocked {s' : Sys} {r : Status × Sys} (hd : 0 < delay)
    (hi : (s.ret OK).insertd s.currpid s.sleepq delay = .ok r)
    (hm : Moves [] (r.2.setState s.currpid .sleep) s') : Slept s delay s'

/-- `sleepms` puts the running process on the queue of sleeping processes. -/
theorem sleepms_effect (h : Idle s) (hn : s.currpid ≠ NULLPROC) (delay : ℤ) :
    (s.sleepms delay).Ends (Slept s delay) := by
  unfold sleepms
  split_ifs with hneg hzero
  · exact .ok (.refused hneg)
  · exact (yield_effect h).mono fun s' hs' => .yielded hzero hs'
  · obtain ⟨r, hr, hok, -, hset, -⟩ := insertd_sleep_spec (e := .user) (h.ret OK) hn delay (.inl rfl) nofun
    change (s.ret OK).insertd s.currpid s.sleepq delay = .ok r at hr
    rw [hr]
    change (if r.1 = .syserr then _ else (r.2.setState s.currpid .sleep).resched : Res Sys).Ends _
    rw [if_neg (by rw [hok]; exact nofun)]
    exact (resched_moves hset).mono fun s' hs' => .blocked (by omega) hr hs'

/-- `recvtime(maxwait)`. -/
inductive TimedReceive (s : Sys) (maxwait : ℤ) : Sys → Prop
  | refused (hd : maxwait < 0) : TimedReceive s maxwait (s.ret SYSERR)
  | ended (hm : (s.proctab s.currpid).prhasmsg = true) : TimedReceive s maxwait s.recvtimeEnd
  | blocked {s' : Sys} {r : Status × Sys} (hd : 0 ≤ maxwait) (hm : (s.proctab s.currpid).prhasmsg = false)
    (hi : s.insertd s.currpid s.sleepq maxwait = .ok r)
    (hm : Moves [] ((r.2.setPend .recvtime).setState s.currpid .rectim) s') : TimedReceive s maxwait s'

/-- `recvtime` puts the running process on the queue of sleeping processes, unless it has a message. -/
theorem recvtime_effect (h : Idle s) (hn : s.currpid ≠ NULLPROC) (maxwait : ℤ) :
    (s.recvtime maxwait).Ends (TimedReceive s maxwait) := by
  unfold recvtime
  split_ifs with hneg hmsg
  · exact .ok (.refused hneg)
  · obtain ⟨r, hr, hok, ⟨t, ht⟩, -, hset⟩ :=
      insertd_sleep_spec (e := .recvtime) h hn maxwait (.inr rfl) nofun
    rw [hr]
    have hcurr : ((r.2.setPend .recvtime).setState r.2.currpid .rectim) =
        (r.2.setPend .recvtime).setState s.currpid .rectim := by
      rw [ht]
    change (if r.1 = .syserr then _ else ((r.2.setPend .recvtime).setState s.currpid .rectim).resched :
      Res Sys).Ends _
    rw [if_neg (by rw [hok]; exact nofun)]
    exact (resched_moves hset).mono fun s' hs' => .blocked (by omega) hmsg hr hs'
  · exact .ok (.ended (by simpa using hmsg))

/-- `receive()`. -/
inductive Received (s : Sys) : Sys → Prop
  | ended (hm : (s.proctab s.currpid).prhasmsg = true) : Received s s.receiveEnd
  | blocked {s' : Sys} (hm : (s.proctab s.currpid).prhasmsg = false)
    (hs : Moves [] ((s.setPend .receive).setState s.currpid .recv) s') : Received s s'

/-- `receive` waits for a message, unless there is one. -/
theorem receive_effect (h : Idle s) (hn : s.currpid ≠ NULLPROC) : s.receive.Ends (Received s) := by
  unfold receive
  split_ifs with hmsg
  · have hi : Idle (s.setPend .receive) := h.setPend nofun
    exact (resched_moves (block_settled hi hn (.inr (.inl rfl)))).mono fun s' hs' => .blocked hmsg hs'
  · exact .ok (.ended (by simpa using hmsg))

/-- `send(pid, msg)` as a system call. -/
inductive SentCall (s : Sys) (pid : ℤ) (msg : ℕ) : Sys → Prop
  | refused (h : s.isbadpid pid ∨ (s.proctab pid).prhasmsg = true) :
    SentCall s pid msg ((s.ret OK).ret SYSERR)
  | sent {s' : Sys} (h : Sent (s.ret OK) pid msg (.ok, s')) : SentCall s pid msg s'

/-- `send` answers `SYSERR` when it has not left the message. -/
theorem sendCall_effect (h : Idle s) (pid : ℤ) (msg : ℕ) :
    (s.sendCall pid msg).Ends (SentCall s pid msg) := by
  refine Res.Ends.bind (send_sent (h.toRunning.ret OK) pid msg) fun r hr => ?_
  cases hr with
  | refused h => exact .ok (.refused h)
  | left hp hm h₁ h₂ => exact .ok (.sent (.left hp hm h₁ h₂))
  | recv hp hm h hs => exact .ok (.sent (.recv hp hm h hs))
  | rectim hp hm h hs => exact .ok (.sent (.rectim hp hm h hs))

/-! ## Killing and the clock -/

/-- The state in which `kill(pid)` sends its message to the parent. -/
def killing (s : Sys) (pid : ℤ) : Sys :=
  (({ s with prcount := s.prcount - 1 } : Sys).ret OK).setPend (.kill pid)

/-- `kill(pid)` up to the message to the parent. -/
inductive KillStarted (s : Sys) (pid : ℤ) : Sys → Prop
  | refused (h : s.isbadpid pid ∨ pid = NULLPROC) : KillStarted s pid (s.ret SYSERR)
  | halted (hp : IsPid pid) (hn : pid ≠ NULLPROC) (hl : s.state pid ≠ .free) (hc : s.prcount - 1 ≤ 1) :
    KillStarted s pid { s with prcount := s.prcount - 1, halted := true }
  | sent {st : Status} {s' : Sys} (hp : IsPid pid) (hn : pid ≠ NULLPROC) (hl : s.state pid ≠ .free)
    (hc : ¬ s.prcount - 1 ≤ 1) (h : Sent (s.killing pid) (s.proctab pid).prparent pid.toNat (st, s')) :
    KillStarted s pid s'

/-- A process that is about to be killed is noted by its killer. -/
theorem Idle.killing (h : Idle s) {pid : ℤ} (hp : IsPid pid) (hn : pid ≠ NULLPROC) :
    Idle (s.killing pid) := by
  have hi : Idle { s with prcount := s.prcount - 1 } :=
    h.congr rfl rfl rfl (fun _ => rfl) rfl (fun _ => rfl) (fun _ => rfl) rfl rfl
  refine (hi.ret OK).setPend fun t ht => ?_
  cases ht
  exact ⟨hp, hn⟩

/-- `kill` decrements the number of processes, and sends a message to the parent. -/
theorem killStart_effect (h : Idle s) (pid : ℤ) : (s.killStart pid).Ends (KillStarted s pid) := by
  unfold killStart
  split_ifs with hbad
  · refine .ok (.refused ?_)
    rcases hbad with hb | hb | hb
    · exact .inl hb
    · exact .inr hb
    · exact .inl (.inr (.inr hb))
  have hpid := pid_of_not_bad (not_or.mp hbad).1
  have hn := (not_or.mp (not_or.mp hbad).2).1
  dsimp only
  split_ifs with hlast
  · exact .ok (.halted hpid.1 hn hpid.2 hlast)
  · refine Res.Ends.bind (send_sent (h.killing hpid.1 hn).toRunning _ _) fun r hr => .ok ?_
    exact .sent hpid.1 hn hpid.2 hlast hr

/-- The clock variables after a tick, and the rest of the interrupt noted. -/
def ticked (s : Sys) : Sys :=
  (if decr32 s.count1000 = 0 then { s with clktime := (s.clktime + 1) % 2 ^ 32, count1000 := 1000 }
    else { s with count1000 := decr32 s.count1000 } : Sys).setPend .clk

/-- A tick changes variables that do not matter to the queues. -/
theorem ticked_eq (s : Sys) :
    ∃ a b, s.ticked = ({ s with clktime := a, count1000 := b } : Sys).setPend .clk := by
  unfold ticked
  split_ifs
  · exact ⟨_, _, rfl⟩
  · exact ⟨s.clktime, _, rfl⟩

/-- A tick changes nothing that matters to the scheduler. -/
theorem Idle.ticked (h : Idle s) : Idle s.ticked := by
  obtain ⟨a, b, he⟩ := s.ticked_eq
  rw [he]
  have hi : Idle { s with clktime := a, count1000 := b } :=
    h.congr rfl rfl rfl (fun _ => rfl) rfl (fun _ => rfl) (fun _ => rfl) rfl rfl
  exact hi.setPend nofun

/-- `clkhandler()` up to the sleep queue. -/
inductive Ticked (s : Sys) : Sys → Prop
  | none (he : s.contents s.sleepq = []) : Ticked s s.ticked
  | keep {p : ℤ} {l : List ℤ} (hl : s.contents s.sleepq = p :: l) (hk : ¬ int32 (s.key p - 1) ≤ 0) :
    Ticked s (s.ticked.setKey p (int32 (s.key p - 1)))
  | wake {p : ℤ} {l : List ℤ} {s' : Sys} (hl : s.contents s.sleepq = p :: l) (hk : int32 (s.key p - 1) ≤ 0)
    (hm : Moves ((p :: l).takeWhile
      fun x => decide ((s.ticked.setKey p (int32 (s.key p - 1))).key x ≤ 0))
      (s.ticked.setKey p (int32 (s.key p - 1))) s') : Ticked s s'

/-- The clock interrupt takes a tick from the first sleeping process, and makes those ready that
have no time left. -/
theorem tick_effect (h : Idle s) : s.tick.Ends (Ticked s) := by
  have hi := h.ticked
  have hfold : s.tick = (if ¬ s.ticked.isempty s.ticked.sleepq then
      if ((s.ticked.setKey (s.ticked.firstid s.ticked.sleepq)
        (int32 (s.ticked.firstkey s.ticked.sleepq - 1))).firstkey s.ticked.sleepq) ≤ 0 then
        (s.ticked.setKey (s.ticked.firstid s.ticked.sleepq)
          (int32 (s.ticked.firstkey s.ticked.sleepq - 1))).wakeup
      else .ok (s.ticked.setKey (s.ticked.firstid s.ticked.sleepq)
          (int32 (s.ticked.firstkey s.ticked.sleepq - 1)))
    else .ok s.ticked) := by
    rfl
  -- The counters change first, and no queue with them.
  obtain ⟨a, b, he⟩ := s.ticked_eq
  have hq : s.ticked.sleepq = s.sleepq := by rw [he]; rfl
  have ht : s.ticked.queuetab = s.queuetab := by rw [he]; rfl
  have hkey : ∀ x, s.ticked.key x = s.key x := fun x => by
    unfold key
    rw [ht]
  have hfirst : ∀ x, s.ticked.firstid x = s.firstid x := fun x => by
    unfold firstid
    rw [ht]
  have hempty : s.ticked.isempty s.sleepq ↔ s.contents s.sleepq = [] := by
    rw [← isempty_contents]
    unfold isempty
    rw [hfirst]
  have hfk : s.ticked.firstkey s.sleepq = s.firstkey s.sleepq := by
    unfold firstkey
    rw [hfirst, hkey]
  rw [hfold, hq, hfirst, hfk]
  cases hl : s.contents s.sleepq with
  -- Without a sleeping process the tick is over.
  | nil =>
    rw [if_neg (not_not.mpr (hempty.mpr hl))]
    exact .ok (.none hl)
  | cons p l =>
    rw [if_pos (by rw [hempty, hl]; exact List.cons_ne_nil p l)]
    have hne : ¬ s.isempty s.sleepq := by
      rw [isempty_contents, hl]
      exact List.cons_ne_nil _ _
    have hp : s.firstid s.sleepq = p := by
      obtain ⟨l', hl'⟩ := contents_cons hne
      rw [hl] at hl'
      exact (List.cons.inj hl').1.symm
    have hpk : s.firstkey s.sleepq = s.key p := by
      unfold firstkey
      rw [hp]
    -- The first key is that of the first sleeping process.
    have hhome := firstid_home h.linked h.linked.sleepq_mem hne
    have hpid := h.linked.pid _ (by rw [hhome]; exact nofun)
    rw [hp] at hpid ⊢
    rw [hpk]
    generalize hs₁ : s.ticked.setKey p (int32 (s.key p - 1)) = s₁
    have hne' : p ≠ 301 := by
      have := hpid.lt
      omega
    -- Counting it down keeps the invariant, as keys are not part of the links.
    have hi₁ : Idle s₁ := by
      rw [← hs₁]
      exact ⟨⟨⟨setKey_linked hi.linked hne' _, hi.states.congr rfl (fun _ => rfl) (fun _ => rfl) rfl⟩,
        hi.curr⟩,
        hi.ndefers⟩
    have hq₁ : s₁.sleepq = s.sleepq := by rw [← hs₁]; exact hq
    have hcont : s₁.contents s.sleepq = p :: l := by
      rw [← hs₁, setKey_contents, ← hl]
      exact contents_congr (fun i => by unfold next; rw [ht]) _
    have hself : s₁.key p = int32 (s.key p - 1) := by
      rw [← hs₁]
      unfold setKey key
      rw [setQ_apply, if_pos rfl]
    have hfk₁ : s₁.firstkey s.sleepq = int32 (s.key p - 1) := by
      have hne₁ : ¬ s₁.isempty s.sleepq := by
        rw [isempty_contents, hcont]
        exact List.cons_ne_nil _ _
      obtain ⟨l', hl'⟩ := contents_cons hne₁
      rw [hcont] at hl'
      unfold firstkey
      rw [← (List.cons.inj hl').1, hself]
    rw [hfk₁]
    split_ifs with hk
    · have hw := wakeup_moves hi₁.toRunning hi₁.ndefers
      rw [hq₁, hcont] at hw
      refine hw.mono fun s' hs' => .wake hl hk ?_
      rw [hs₁]
      exact hs'
    · refine .ok ?_
      rw [← hs₁]
      exact .keep hl hk

/-- `clkhandler()` behind the sleep queue. -/
theorem tickEnd_effect (h : Idle s) : s.tickEnd.Ends fun s' => Moves [] (s.setPend .user) s' := by
  have hi := h.setPend (e := .user) nofun
  have hvars : ∀ c, Moves [] (s.setPend .user) { s.setPend .user with preempt := c } := fun c =>
    ⟨.vars (s.setPend .user) _ _ _, fun ho hf => ⟨⟨ho.sorted, ho.key_eq⟩, hf⟩⟩
  unfold tickEnd
  dsimp only
  split_ifs
  · have hi' : Idle { s.setPend .user with preempt := QUANTUM } :=
      hi.congr rfl rfl rfl (fun _ => rfl) rfl (fun _ => rfl) (fun _ => rfl) rfl rfl
    exact (resched_moves hi'.toSettled).mono fun s' hs' => (hvars QUANTUM).trans hs'
  · exact .ok (hvars _)

end Sys

end Xinu
