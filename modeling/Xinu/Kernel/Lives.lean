import Xinu.Kernel.Delays
import Xinu.Kernel.VmSpec

/-!
# Lives

What the steps of the machine do to the lives of the processes: most steps create no process and
destroy none; `create` and `vcreate` use a free entry; `kill` counts a process off, and frees its
entry and its stack only behind the message to the parent, at which another process may get the
processor.
-/

namespace Xinu

open LinkedQueue Sys

variable {s s' s₁ : Sys} {pid p : ℤ} {R : List ℤ}

/-! ## Steps that leave the lives alone -/

/-- A step creates no process and destroys none, and no process starts to kill another one, or ends
with it. -/
structure LifeSame (s s' : Sys) : Prop where
  /-- The same entries are free. -/
  free : ∀ p, s'.state p = .free ↔ s.state p = .free
  /-- The stacks stay what they are. -/
  stack : ∀ p, (s'.proctab p).prstkbase = (s.proctab p).prstkbase ∧
    (s'.proctab p).prstklen = (s.proctab p).prstklen
  /-- The count of processes stays. -/
  prcount : s'.prcount = s.prcount
  /-- The list of free memory stays. -/
  memlist : s'.memlist = s.memlist
  /-- The same kills are under way. -/
  kills : ∀ p t, s'.pend p = .kill t ↔ s.pend p = .kill t

namespace LifeSame

/-- A step that does not change the process table. -/
theorem of_tables (hp : s'.proctab = s.proctab) (hc : s'.prcount = s.prcount) (hm : s'.memlist = s.memlist)
    (hk : s'.pend = s.pend) : LifeSame s s' := by
  refine ⟨fun p => ?_, fun p => by rw [hp]; exact ⟨rfl, rfl⟩, hc, hm, fun p t => by rw [hk]⟩
  unfold state
  rw [hp]

/-- A state has the same lives as itself. -/
theorem refl (s : Sys) : LifeSame s s := of_tables rfl rfl rfl rfl

/-- Two steps that leave the lives of processes, one after the other, leave them. -/
theorem trans (h : LifeSame s s₁) (h' : LifeSame s₁ s') : LifeSame s s' :=
  ⟨fun p => (h'.free p).trans (h.free p),
    fun p => ⟨(h'.stack p).1.trans (h.stack p).1, (h'.stack p).2.trans (h.stack p).2⟩,
      h'.prcount.trans h.prcount,
    h'.memlist.trans h.memlist, fun p t => (h'.kills p t).trans (h.kills p t)⟩

/-- An answer leaves the lives alone. -/
theorem ret (s : Sys) (v : ℤ) : LifeSame s (s.ret v) := of_tables rfl rfl rfl rfl

/-- The end of another call is noted, or is over. -/
theorem setPend (s : Sys) (e : Pend) (he : ∀ t, e ≠ .kill t) (hu : ∀ t, s.pend s.currpid ≠ .kill t) :
    LifeSame s (s.setPend e) := by
  refine ⟨fun _ => Iff.rfl, fun _ => ⟨rfl, rfl⟩, rfl, rfl, fun p t => ?_⟩
  change Function.update s.pend s.currpid e p = _ ↔ _
  rw [Function.update_apply]
  split_ifs with hp
  · rw [hp]
    exact iff_of_false (he t) (hu t)
  · exact Iff.rfl

/-- A change of an entry that is neither of its stack nor to or from a free one. -/
theorem setProc (s : Sys) (pid : ℤ) {f : Procent → Procent}
    (hs : ∀ e, (f e).prstkbase = e.prstkbase ∧ (f e).prstklen = e.prstklen)
    (hf : (f (s.proctab pid)).prstate = .free ↔ s.state pid = .free) : LifeSame s (s.setProc pid f) := by
  refine ⟨fun p => ?_, fun p => ?_, rfl, rfl, fun _ _ => Iff.rfl⟩
  · unfold state
    rw [setProc_apply]
    split_ifs with hp
    · rw [hp]
      exact hf
    · exact Iff.rfl
  · rw [setProc_apply]
    split_ifs with hp
    · rw [hp]
      exact hs _
    · exact ⟨rfl, rfl⟩

/-- A process that is alive gets another state. -/
theorem setState (s : Sys) (pid : ℤ) (st : PrState) (hl : s.state pid ≠ .free) (hst : st ≠ .free) :
    LifeSame s (s.setState pid st) :=
  .setProc s pid (f := fun e => { e with prstate := st }) (fun _ => ⟨rfl, rfl⟩) (iff_of_false hst hl)

/-- The scheduler moves processes that are alive. -/
theorem moves (h : LifeSame s s₁) (hm : Moves R s₁ s') (hR : ∀ p ∈ R, s₁.state p ≠ .free) :
    LifeSame s s' := by
  refine h.trans ⟨fun p => hm.live (hR p), fun p => ?_, hm.prcount, hm.memlist, fun p t => by rw [hm.pend]⟩
  rw [hm.entry]
  exact ⟨rfl, rfl⟩

end LifeSame

/-- `send` creates and destroys no process. -/
theorem Sys.Sent.lives {msg : ℕ} {st : Status} (h : Sent s p msg (st, s')) (hi : Running s) :
    LifeSame s s' := by
  have hdeliver : LifeSame s (s.deliver p msg) := .setProc s p (fun _ => ⟨rfl, rfl⟩) Iff.rfl
  have hlive : ∀ {st : PrState}, s.state p = st → st ≠ .free →
      ∀ x ∈ [p], (s.deliver p msg).state x ≠ .free := by
    intro st hst hne x hx
    rw [List.mem_singleton.mp hx, deliver_state, hst]
    exact hne
  cases h with
  | refused h => exact .refl s
  | left hbad hnone h₁ h₂ => exact hdeliver
  | recv hbad hnone hst hs => exact hdeliver.moves hs (hlive hst nofun)
  | rectim hbad hnone hst hs =>
    have hhome : (s.deliver p msg).home p = some (s.deliver p msg).sleepq :=
      home_asleep (pid_of_not_bad hbad).1 (.inr ((s.deliver_state p msg p).trans hst))
    obtain ⟨t, ht⟩ := (unsleep_contents (hi.deliver p msg) hhome).tables
    have hunsleep : LifeSame (s.deliver p msg) ((s.deliver p msg).unsleep p) :=
      .of_tables (by rw [ht]) (by rw [ht]) (by rw [ht]) (by rw [ht])
    refine (hdeliver.trans hunsleep).moves hs fun x hx => ?_
    have hsame := (hunsleep.free x).not
    exact hsame.mpr (hlive hst nofun x hx)

/-- Making processes ready that wait on a semaphore leaves the lives alone. -/
theorem Sys.Releases.lives {sem : ℤ} {n : ℕ} {c : ℤ} (h : Releases sem n c s₁ s') (h₁ : LifeSame s s₁)
    (hr : Running s₁) (hs : IsSem sem) : LifeSame s s' := by
  have hcount : LifeSame s₁ (s₁.setSem sem fun e => { e with scount := c }) := .of_tables rfl rfl rfl rfl
  refine LifeSame.moves (h₁.trans hcount) h fun p hp => ?_
  have hmem := List.mem_of_mem_take hp
  rw [hr.linked.squeue sem hs, mem_semq hr hs] at hmem
  change s₁.state p ≠ _
  rw [hmem.state]
  exact nofun

/-- A tick creates and destroys no process. -/
theorem Sys.Ticked.lives (h : Ticked s s') (hi : Idle s) (hu : s.pend s.currpid = .user) : LifeSame s s' := by
  have hclk : LifeSame s s.ticked := by
    obtain ⟨a, b, he⟩ := s.ticked_eq
    have hvars : LifeSame s { s with clktime := a, count1000 := b } := .of_tables rfl rfl rfl rfl
    rw [he]
    refine hvars.trans (.setPend _ .clk nofun fun t ht => ?_)
    exact absurd (hu.symm.trans ht) nofun
  have hkey : ∀ x v, LifeSame s (s.ticked.setKey x v) := fun x v => hclk.trans (.of_tables rfl rfl rfl rfl)
  cases h with
  | none he => exact hclk
  | @keep x l hl hk => exact hkey x _
  | @wake x l _ hl hk hm =>
    refine (hkey x _).moves hm fun p hp => ?_
    have hmem : p ∈ s.contents s.sleepq := by
      rw [hl]
      exact (List.takeWhile_sublist _).mem hp
    obtain ⟨-, -, -, -, -, hstate⟩ := ticked_key s x (int32 (s.key x - 1))
    rw [hstate]
    rcases ((mem_sleepq hi.toRunning).mp hmem).2 with hst | hst <;> rw [hst] <;> exact nofun

/-! ## The end of `kill` -/

/-- The end of `kill` frees the entry, and gives back the stack. -/
structure Killed (s s' : Sys) (pid : ℤ) : Prop where
  /-- The entry is free now, and those that have been. -/
  free : ∀ p, s'.state p = .free ↔ p = pid ∨ s.state p = .free
  /-- The table still says where its stack was. -/
  stack : ∀ p, (s'.proctab p).prstkbase = (s.proctab p).prstkbase ∧
    (s'.proctab p).prstklen = (s.proctab p).prstklen
  /-- The count of processes stays: it has been decremented before. -/
  prcount : s'.prcount = s.prcount
  /-- A process that kills itself does not come back. -/
  pend : pid ≠ s.currpid → s'.pend = Function.update s.pend s.currpid .user
  /-- What it has left to do stays noted. -/
  pend_self : pid = s.currpid → s'.pend = s.pend

/-- The states when an entry has become free. -/
theorem setFree_state (s : Sys) (pid p : ℤ) :
    (s.setState pid .free).state p = .free ↔ p = pid ∨ s.state p = .free := by
  by_cases hp : p = pid
  · rw [hp, setState_same]
    exact iff_of_true rfl (.inl rfl)
  · rw [setState_other hp, or_iff_right hp]

/-- The stacks when an entry has become free. -/
theorem setState_stack (s : Sys) (pid : ℤ) (st : PrState) (p : ℤ) :
    ((s.setState pid st).proctab p).prstkbase = (s.proctab p).prstkbase ∧
      ((s.setState pid st).proctab p).prstklen = (s.proctab p).prstklen := by
  unfold setState
  rw [setProc_apply]
  split_ifs with hp
  · rw [hp]
    exact ⟨rfl, rfl⟩
  · exact ⟨rfl, rfl⟩

/-- The end of `kill` destroys one process. -/
theorem Sys.KillEnded.killed (h : KillEnded s pid s') (hi : Idle s) (hp : IsPid pid) : Killed s s' pid := by
  -- Every case but the last ends in the same way.
  have hend : ∀ s₁ : Sys, s₁.proctab = s.proctab → s₁.pend = s.pend →
      s₁.prcount = s.prcount → s₁.currpid = s.currpid →
      s.state pid ≠ .curr → Killed s ((s₁.setState pid .free).setPend .user) pid := by
    intro s₁ ht hk hc hcur hst
    have hne : pid ≠ s.currpid := fun he => hst (by rw [he]; exact hi.curr)
    refine ⟨fun p => ?_, fun p => ?_, hc, fun _ => ?_, fun he => absurd he hne⟩
    · rw [show ((s₁.setState pid .free).setPend .user).state p = .free ↔ _ from setFree_state s₁ pid p]
      unfold state
      rw [ht]
    · have hstack := setState_stack s₁ pid .free p
      rw [ht] at hstack
      exact hstack
    · rw [← hk, ← hcur]
      rfl
  cases h with
  | unqueued l hst =>
    refine hend _ rfl rfl rfl rfl ?_
    rcases hst with hst | hst | hst <;> rw [hst] <;> exact nofun
  | asleep l hst =>
    have hr : Running { s with memlist := l } :=
      hi.toRunning.congr rfl rfl rfl (fun _ => rfl) rfl (fun _ => rfl) (fun _ => rfl) rfl
    have hhome : ({ s with memlist := l } : Sys).home pid = some s.sleepq := home_asleep hp hst
    obtain ⟨t, ht⟩ := (unsleep_contents hr hhome).tables
    refine hend _ (by rw [ht]) (by rw [ht]) (by rw [ht]) (by rw [ht]) ?_
    rcases hst with hst | hst <;> rw [hst] <;> exact nofun
  | waiting l hst => exact hend _ rfl rfl rfl rfl (by rw [hst]; exact nofun)
  | ready l hst => exact hend _ rfl rfl rfl rfl (by rw [hst]; exact nofun)
  | self l c hc hm =>
    refine ⟨fun p => ?_, fun p => ?_, hm.prcount, fun hne => absurd hc hne, fun _ => hm.pend⟩
    · rw [hm.live nofun]
      exact setFree_state _ pid p
    · rw [hm.entry]
      exact setState_stack _ pid .free p

/-- `unsleep` leaves the free blocks alone. -/
theorem unsleep_memlist (s : Sys) (pid : ℤ) : (s.unsleep pid).memlist = s.memlist := by
  unfold unsleep
  split_ifs
  · rfl
  · rfl
  · dsimp only
    split_ifs <;> rfl

/-- The end of `kill` gives back the stack of the process, as its entry has it. -/
theorem killEnd_memlist {k k' : Kernel} (h : Idle k.sys) (hp : IsPid pid) (hn : pid ≠ NULLPROC)
    (he : k.killEnd pid = .ok k') :
    k'.sys.memlist = (k.sys.freestk (k.sys.proctab pid).prstkbase (k.sys.proctab pid).prstklen).memlist := by
  obtain ⟨l, hl⟩ := k.sys.freestk_memlist (k.sys.proctab pid).prstkbase (k.sys.proctab pid).prstklen
  have hstate : k.sys.state pid = (k.sys.proctab pid).prstate := rfl
  unfold Kernel.killEnd at he
  dsimp only at he
  rw [hl] at he ⊢
  -- What is done depends on the state of the process; the list of free memory has changed before.
  cases hst : (k.sys.proctab pid).prstate with
  | curr =>
    rw [hst] at he hstate
    obtain rfl := h.states.curr_only pid hp hstate
    dsimp only at he
    cases hvm : killVm k.cpu (k.sys.proctab k.sys.currpid).page_addr with
    | ok c =>
      rw [hvm] at he
      simp only [Res.ok_bind] at he
      -- The memory is released first, then another process runs.
      have hi : Idle { k.sys with memlist := l, cr3 := c.cr3 } :=
        h.congr rfl rfl rfl (fun _ => rfl) rfl (fun _ => rfl) (fun _ => rfl) rfl rfl
      obtain ⟨s', hs', hm⟩ := resched_moves (block_settled hi hn (.inr (.inr rfl)))
      change ({ k.sys with memlist := l, cr3 := c.cr3 }.setState k.sys.currpid .free).resched = _ at hs'
      change (({ k.sys with memlist := l, cr3 := c.cr3 }.setState k.sys.currpid .free).resched >>=
        _) = _ at he
      rw [hs'] at he
      simp only [Res.ok_bind] at he
      injection he with he
      rw [← he]
      exact hm.memlist
    | hang =>
      rw [hvm] at he
      cases he
    | wild =>
      rw [hvm] at he
      cases he
  | sleep =>
    rw [hst] at he
    injection he with he
    rw [← he]
    exact unsleep_memlist { k.sys with memlist := l } pid
  | rectim =>
    rw [hst] at he
    injection he with he
    rw [← he]
    exact unsleep_memlist { k.sys with memlist := l } pid
  | _ =>
    rw [hst] at he
    injection he with he
    rw [← he]
    rfl

/-! ## Steps -/

/-- The process that the running one begins to kill: with a system call, or itself with a
segmentation fault. -/
def Kernel.startsKill (k : Kernel) : Event → Option ℤ
  | .call (.kill pid) => some pid
  | .fault v => match pagefaultHandler k.cpu k.currAddr v with
    | .ok (.segv _) => some k.sys.currpid
    | _ => none
  | _ => none

/-- The process that the running one has begun to kill, and destroys now. -/
def Sys.endsKill (s : Sys) : Event → Option ℤ
  | .cont => match s.pend s.currpid with
    | .kill pid => some pid
    | _ => none
  | _ => none

/-- What a step does to the lives of the processes, by the killing that it starts and the one that it ends. -/
inductive LifeStep (s : Sys) (start fin : Option ℤ) : Sys → Prop
  | same {s' : Sys} (hf : fin = none) (h : LifeSame s s') : LifeStep s start fin s'
  /-- A process is created. -/
  | born {s' : Sys} {pid : ℤ} {n : ℕ} (hf : fin = none) (hp : IsPid pid) (hfree : s.state pid = .free)
    (hstk : getstk s.memlist n = some ((s'.proctab pid).prstkbase, s'.memlist))
    (hn : (s'.proctab pid).prstklen = n)
    (hl : s'.state pid ≠ .free) (hother : ∀ p, p ≠ pid → (s'.state p = .free ↔ s.state p = .free) ∧
      (s'.proctab p).prstkbase = (s.proctab p).prstkbase ∧ (s'.proctab p).prstklen = (s.proctab p).prstklen)
    (hc : s'.prcount = s.prcount + 1) (hpend : s'.pend = Function.update s.pend pid .user) :
    LifeStep s start fin s'
  /-- A process is counted off, and its killer sends the message to the parent. -/
  | started {s' : Sys} {pid : ℤ} (hs : start = some pid) (hf : fin = none)
    (hp : IsPid pid) (hl : s.state pid ≠ .free)
    (h : LifeSame (s.killing pid) s') : LifeStep s start fin s'
  /-- The last process is counted off, and the processor halts. -/
  | halted {s' : Sys} (hf : fin = none) (hh : s'.halted = true)
    (h : LifeSame { s with prcount := s.prcount - 1 } s') :
    LifeStep s start fin s'
  /-- A process is destroyed. -/
  | ended {s' : Sys} {pid : ℤ} (hf : fin = some pid) (hp : IsPid pid)
    (hm : s'.memlist = (s.freestk (s.proctab pid).prstkbase (s.proctab pid).prstklen).memlist)
    (h : Killed s s' pid) : LifeStep s start fin s'

/-- `create` and `vcreate` up to their answer. -/
theorem Sys.NewProcess.life {ssize : ℕ} {priority : Int16}
    {addr : ℕ} {r : Option ℤ × Sys} {start fin : Option ℤ}
    (h : NewProcess s ssize priority addr r) (hk : fin = Option.none) (h₁ : LifeSame r.2 s')
    (hpend : s'.pend = r.2.pend) : LifeStep s start fin s' := by
  cases h with
  -- No entry of the table was free, so only the place of the search has moved.
  | none n =>
    have hvars : LifeSame s { s with nextpid := n } := .of_tables rfl rfl rfl rfl
    exact .same hk (hvars.trans h₁)
  -- The new process has an entry that was free, with the stack that was taken.
  | @some pid n saddr memlist hp hf hstk =>
    have hentry : ∀ {f : ℤ → Procent}, f = Function.update s.proctab pid
        (s.newEntry pid priority saddr (stacklen ssize) addr) → (f pid).prstkbase = saddr ∧
          (f pid).prstklen = stacklen ssize ∧ (f pid).prstate = .susp := by
      rintro f rfl
      rw [Function.update_self]
      exact ⟨rfl, rfl, rfl⟩
    have hother : ∀ {f : ℤ → Procent}, f = Function.update s.proctab pid
        (s.newEntry pid priority saddr (stacklen ssize) addr) → ∀ p, p ≠ pid → f p = s.proctab p := by
      rintro f rfl p hne
      exact Function.update_of_ne hne ..
    generalize hs₁ : ({ s with
      proctab := Function.update s.proctab pid (s.newEntry pid priority saddr (stacklen ssize) addr)
      nextpid := n, prcount := s.prcount + 1, memlist := memlist
      ie := Function.update s.ie pid true, pend := Function.update s.pend pid .user } : Sys) = s₁ at h₁ hpend
    have hproc : s₁.proctab = Function.update s.proctab pid
        (s.newEntry pid priority saddr (stacklen ssize) addr) := by
      rw [← hs₁]
    obtain ⟨hbase, hlen, hst⟩ := hentry hproc
    refine .born (n := stacklen ssize) hk hp hf ?_ ?_ ?_ (fun p hne => ?_) ?_ ?_
    · rw [(h₁.stack pid).1, h₁.memlist, hbase, hstk, ← hs₁]
    · rw [(h₁.stack pid).2, hlen]
    · rw [ne_eq, h₁.free]
      unfold state
      rw [hst]
      exact nofun
    · have hsame := hother hproc p hne
      refine ⟨(h₁.free p).trans ?_, (h₁.stack p).1.trans ?_, (h₁.stack p).2.trans ?_⟩
      · unfold state
        rw [hsame]
      · rw [hsame]
      · rw [hsame]
    · rw [h₁.prcount, ← hs₁]
    · rw [hpend, ← hs₁]

/-- `kill` up to the message to the parent. -/
theorem Sys.KillStarted.life (h : KillStarted s pid s') (hi : Idle s) : LifeStep s (some pid) none s' := by
  cases h with
  | refused h => exact .same rfl (.ret s _)
  | halted hp h0 hlive hc => exact .halted rfl rfl (.of_tables rfl rfl rfl rfl)
  | sent hp h0 hlive hc hsent => exact .started rfl rfl hp hlive (hsent.lives (hi.killing hp h0).toRunning)

/-- The end of `receive` leaves the lives alone. -/
theorem receiveEnd_lives (s : Sys) (hu : ∀ t, s.pend s.currpid ≠ .kill t) : LifeSame s s.receiveEnd := by
  have htake : LifeSame (s.ret (s.proctab s.currpid).prmsg)
      ((s.ret (s.proctab s.currpid).prmsg).setProc s.currpid fun e => { e with prhasmsg := false }) :=
    .setProc _ _ (fun _ => ⟨rfl, rfl⟩) Iff.rfl
  exact ((LifeSame.ret s _).trans htake).trans (.setPend _ .user nofun hu)

/-- The end of `recvtime` leaves the lives alone. -/
theorem recvtimeEnd_lives (s : Sys) (hu : ∀ t, s.pend s.currpid ≠ .kill t) : LifeSame s s.recvtimeEnd := by
  unfold recvtimeEnd
  dsimp only
  split_ifs
  · exact receiveEnd_lives s hu
  · exact (LifeSame.ret s _).trans (.setPend _ .user nofun hu)

/-- `wait` creates and destroys no process. -/
theorem Sys.Waited.lives {sem : ℤ} (h : Waited s sem s') (hi : Idle s) : LifeSame s s' := by
  cases h with
  | refused v => exact .ret s v
  | passed => exact .of_tables rfl rfl rfl rfl
  | blocked hs hu hc hmv =>
    have hcount : LifeSame s (s.waitCount sem) := .of_tables rfl rfl rfl rfl
    have hwait : LifeSame (s.waitCount sem)
        ((s.waitCount sem).setProc s.currpid fun p => { p with prstate := .wait, prsem := sem }) :=
      .setProc _ _ (fun _ => ⟨rfl, rfl⟩) (iff_of_false nofun hi.curr_live)
    have hboth := hcount.trans hwait
    generalize (s.waitCount sem).setProc s.currpid
      (fun p => { p with prstate := .wait, prsem := sem }) = s₁ at *
    obtain ⟨t, ht⟩ := s₁.enqueue_tables s.currpid (s.semtab sem).squeue
    have hjoin : LifeSame s₁ (s₁.enqueue s.currpid (s.semtab sem).squeue) :=
      .of_tables (by rw [ht]) (by rw [ht]) (by rw [ht]) (by rw [ht])
    exact (hboth.trans hjoin).moves hmv nofun

/-- `insertd` leaves the lives alone. -/
theorem insertd_lives (h : Idle s) {r : Status × Sys} {delay : ℤ}
    (hi : s.insertd s.currpid s.sleepq delay = .ok r) :
    LifeSame s r.2 ∧ r.2.state s.currpid = .curr ∧ r.2.currpid = s.currpid ∧ r.2.pend = s.pend := by
  obtain ⟨t, ht⟩ :=
    ((insertd_contents h.linked h.states.currpid h.curr_live (home_curr h.curr) delay).of_eq hi).2.tables
  rw [ht]
  exact ⟨.of_tables rfl rfl rfl rfl, h.curr, rfl, rfl⟩

/-- A change of priority leaves the lives alone. -/
theorem chprio_lives (s : Sys) (pid : ℤ) (newprio : Int16) : LifeSame s (s.chprio pid newprio) := by
  unfold Sys.chprio
  split_ifs with hbad
  · exact .ret s _
  · exact (LifeSame.ret s _).trans (.setProc _ _ (fun _ => ⟨rfl, rfl⟩) Iff.rfl)

/-- A new semaphore leaves them alone. -/
theorem semcreate_lives (s : Sys) (count : ℤ) : LifeSame s (s.semcreate count) := by
  unfold Sys.semcreate
  split_ifs
  · exact .ret s _
  · dsimp only
    cases (s.newsemLoop NSEM.toNat s.nextsem).1 <;> exact .of_tables rfl rfl rfl rfl

/-- `recvclr` creates and destroys no process. -/
theorem recvclr_lives (s : Sys) : LifeSame s s.recvclr := by
  unfold Sys.recvclr
  dsimp only
  split_ifs
  · exact (LifeSame.ret s _).trans (.setProc _ _ (fun _ => ⟨rfl, rfl⟩) Iff.rfl)
  · exact .ret s OK

/-- `signal` and `signaln` leave the lives alone. -/
theorem Sys.Signalled.lives {sem : ℤ} {n : ℕ} (h : Signalled s sem n s') (hi : Idle s) : LifeSame s s' := by
  cases h with
  | refused v => exact .ret s v
  | released hs hu hrel => exact hrel.lives (.ret s OK) (hi.ret OK).toRunning hs

/-- A reset of a semaphore neither creates nor ends a process. -/
theorem Sys.SemReset.lives {sem count : ℤ} (h : SemReset s sem count s') (hi : Idle s) : LifeSame s s' := by
  cases h with
  | refused v => exact .ret s v
  | released hs h0 hu hrel => exact hrel.lives (.ret s OK) (hi.ret OK).toRunning hs

/-- Deleting a semaphore creates and destroys no process. -/
theorem Sys.SemDeleted.lives {sem : ℤ} (h : SemDeleted s sem s') (hi : Idle s) : LifeSame s s' := by
  cases h with
  | refused v => exact .ret s v
  | released hs hu c hrel =>
    have hfree := (hi.ret OK).toRunning.setSem sem (fun e => { e with sstate := .free }) fun _ => rfl
    exact hrel.lives (.of_tables rfl rfl rfl rfl) hfree hs

/-- `resume` makes ready a process that lives. -/
theorem Sys.Resumed.lives {pid : ℤ} (h : Resumed s pid s') : LifeSame s s' := by
  cases h with
  | refused v => exact .ret s v
  | resumed v hp hst hmv =>
    refine (LifeSame.ret s v).moves hmv fun p hp => ?_
    change s.state p ≠ .free
    rw [List.mem_singleton.mp hp, hst]
    exact nofun

/-- `suspend` stops a process that lives. -/
theorem Sys.Suspended.lives {pid : ℤ} (h : Suspended s pid s')
    (hi : Idle s) (hno : ∀ t, s.pend s.currpid ≠ .kill t) :
    LifeSame s s' := by
  cases h with
  | refused v => exact .ret s v
  | ready hp h0 hst =>
    have hget : LifeSame s (s.getitem pid) := .of_tables rfl rfl rfl rfl
    have hset : LifeSame (s.getitem pid) ((s.getitem pid).setState pid .susp) := by
      refine .setState _ pid .susp ?_ nofun
      change s.state pid ≠ .free
      rw [hst]
      exact nofun
    exact (hget.trans hset).trans ((LifeSame.ret _ _).trans (.setPend _ .user nofun hno))
  | self hp h0 hmv =>
    have hpend : LifeSame s (s.setPend (.suspend pid)) := .setPend s _ nofun hno
    have hset : LifeSame (s.setPend (.suspend pid)) ((s.setPend (.suspend pid)).setState pid .susp) :=
      .setState _ pid .susp (by rw [hp]; exact hi.curr_live) nofun
    exact (hpend.trans hset).moves hmv nofun

/-- `sleepms` leaves the lives alone. -/
theorem Sys.Slept.lives {delay : ℤ} (h : Slept s delay s') (hi : Idle s) : LifeSame s s' := by
  cases h with
  | refused hd => exact .ret s _
  | yielded hd hmv => exact (LifeSame.ret s OK).moves hmv nofun
  | @blocked _ r hd hins hmv =>
    obtain ⟨hsame, hc, -⟩ := insertd_lives (hi.ret OK) hins
    have hset : LifeSame r.2 (r.2.setState s.currpid .sleep) := by
      refine .setState _ _ .sleep ?_ nofun
      rw [show r.2.state s.currpid = .curr from hc]
      exact nofun
    exact (((LifeSame.ret s OK).trans hsame).trans hset).moves hmv nofun

/-- `recvtime` creates and destroys no process. -/
theorem Sys.TimedReceive.lives {maxwait : ℤ} (h : TimedReceive s maxwait s') (hi : Idle s)
    (hno : ∀ t, s.pend s.currpid ≠ .kill t) : LifeSame s s' := by
  cases h with
  | refused hd => exact .ret s _
  | ended hmsg => exact recvtimeEnd_lives s hno
  | @blocked _ r hd hmsg hins hmv =>
    obtain ⟨hsame, hc, hcur, hpe⟩ := insertd_lives hi hins
    have hpend : LifeSame r.2 (r.2.setPend .recvtime) := by
      refine .setPend _ _ nofun fun t => ?_
      rw [hpe, hcur]
      exact hno t
    have hset : LifeSame (r.2.setPend .recvtime) ((r.2.setPend .recvtime).setState s.currpid .rectim) := by
      refine .setState _ _ .rectim ?_ nofun
      rw [show (r.2.setPend .recvtime).state s.currpid = .curr from hc]
      exact nofun
    exact ((hsame.trans hpend).trans hset).moves hmv nofun

/-- `receive` creates and destroys no process. -/
theorem Sys.Received.lives (h : Received s s') (hi : Idle s) (hno : ∀ t, s.pend s.currpid ≠ .kill t) :
    LifeSame s s' := by
  cases h with
  | ended hmsg => exact receiveEnd_lives s hno
  | blocked hmsg hmv =>
    have hset : LifeSame (s.setPend .receive) ((s.setPend .receive).setState s.currpid .recv) :=
      .setState _ _ .recv hi.curr_live nofun
    exact ((LifeSame.setPend s .receive nofun hno).trans hset).moves hmv nofun

/-- The system call `send` creates and destroys no process. -/
theorem Sys.SentCall.lives {pid : ℤ} {msg : ℕ} (h : SentCall s pid msg s') (hi : Idle s) : LifeSame s s' := by
  cases h with
  | refused h => exact (LifeSame.ret s OK).trans (.ret _ SYSERR)
  | sent h => exact (LifeSame.ret s OK).trans (h.lives (hi.ret OK).toRunning)

/-- What the events of a plain run do to the lives, but for the end of `kill`. -/
theorem Sys.PlainEffect.life {k : Kernel} {e : Event} (h : PlainEffect k.sys e s') (hi : Idle k.sys)
    (hu : e ≠ .cont → k.sys.pend k.sys.currpid = .user) (hk : k.sys.endsKill e = none) :
    LifeStep k.sys (k.startsKill e) (k.sys.endsKill e) s' := by
  generalize hs : k.startsKill e = start
  generalize k.sys = s at *
  have hnokill : e ≠ .cont → ∀ t, s.pend s.currpid ≠ .kill t := fun he t => by
    rw [hu he]
    exact nofun
  cases h with
  | @create ssize priority =>
    have hnew := newProcess_effect s ssize priority PAGE_DIR_ADDR_START
    unfold Sys.create
    generalize s.newProcess ssize priority PAGE_DIR_ADDR_START = r at *
    obtain ⟨_ | pid, s₁⟩ := r
    · exact hnew.life hk (.ret s₁ _) rfl
    · exact hnew.life hk (.ret s₁ _) rfl
  | chprio => exact .same hk (chprio_lives s _ _)
  | yield hmv => exact .same hk ((LifeSame.ret s OK).moves hmv nofun)
  | semcreate => exact .same hk (semcreate_lives s _)
  | wait h => exact .same hk (h.lives hi)
  | signal h => exact .same hk (h.lives hi)
  | signaln h => exact .same hk (h.lives hi)
  | semreset h => exact .same hk (h.lives hi)
  | semdelete h => exact .same hk (h.lives hi)
  | recvclr => exact .same hk (recvclr_lives s)
  | resume h => exact .same hk h.lives
  | suspend h => exact .same hk (h.lives hi (hnokill nofun))
  | kill h =>
    rw [← hs]
    exact h.life hi
  | sleepms h => exact .same hk (h.lives hi)
  | recvtime h => exact .same hk (h.lives hi (hnokill nofun))
  | receive h => exact .same hk (h.lives hi (hnokill nofun))
  | send h => exact .same hk (h.lives hi)
  | tick h => exact .same hk (h.lives hi (hu nofun))
  | user hp => exact .same hk (.refl _)
  | suspendEnd hp =>
    have hno : ∀ t, s.pend s.currpid ≠ .kill t := fun t => by rw [hp]; exact nofun
    exact .same hk ((LifeSame.ret s _).trans (.setPend _ .user nofun hno))
  | receiveEnd hp => exact .same hk (receiveEnd_lives s fun t => by rw [hp]; exact nofun)
  | recvtimeEnd hp => exact .same hk (recvtimeEnd_lives s fun t => by rw [hp]; exact nofun)
  | @killEnd pid _ hp h =>
    -- The end of `kill` destroys a process: it is left out here.
    unfold endsKill at hk
    rw [hp] at hk
    cases hk
  | tickEnd hp hmv =>
    have hno : ∀ t, s.pend s.currpid ≠ .kill t := fun t => by rw [hp]; exact nofun
    exact .same hk ((LifeSame.setPend s .user nofun hno).moves hmv nofun)

/-! ## The machine -/

/-- A step of the machine that does not touch unmapped memory in the kernel. -/
structure LiveStep (k : Kernel) (e : Event) (k' : Kernel) : Prop where
  /-- The tables are in order before the step. -/
  idle : Idle k.sys
  /-- They are in order behind it. -/
  idle' : Idle k'.sys
  /-- The event can happen. -/
  enabled : k.Enabled e
  /-- The machine has not stopped. -/
  halted : k.sys.halted = false
  /-- What the step does to the lives. -/
  life : LifeStep k.sys (k.startsKill e) (k.sys.endsKill e) k'.sys

/-- A computation that ends well, as what it ends with. -/
theorem bind_ok {α β : Type} {r : Res α} {f : α → Res β} {y : β} (h : (r >>= f) = .ok y) :
    ∃ x, r = .ok x ∧ f x = .ok y := by
  cases r with
  | ok x => exact ⟨x, rfl, h⟩
  | hang => cases h
  | wild => cases h

/-- A system call on page tables leaves the tables of the kernel alone, but for CR3, the interrupt
mask and the answer. -/
theorem withCpu_life {k : Kernel} (h : Idle k.sys) (c : Cpu)
    (v : ℤ) {e : Event} (hk : k.sys.endsKill e = none) :
    Idle ((k.withCpu c).ret v).sys ∧
      LifeStep k.sys (k.startsKill e) (k.sys.endsKill e) ((k.withCpu c).ret v).sys := by
  have hi : Idle (k.withCpu c).sys :=
    h.congr rfl rfl rfl (fun _ => rfl) rfl (fun _ => rfl) (fun _ => rfl) rfl rfl
  exact ⟨hi.ret v, .same hk (.of_tables rfl rfl rfl rfl)⟩

/-- `vcreate` creates a process, or fails. -/
theorem vcreate_life {k k' : Kernel} (h : Idle k.sys) {ssize : ℕ} {priority : Int16}
    (he : k.vcreate ssize priority = .ok k') :
    Idle k'.sys ∧ LifeStep k.sys none none k'.sys := by
  have hnew := newProcess_effect k.sys ssize priority 0
  have hspec := newProcess_spec h ssize priority 0
  unfold Kernel.vcreate at he
  generalize k.sys.newProcess ssize priority 0 = r at *
  obtain ⟨_ | pid, s₁⟩ := r
  -- Without a process CR3 is loaded, and the answer is an error.
  · injection he with he
    rw [← he]
    have hs₁ : Idle s₁ := by
      rcases hspec with ⟨n, hn⟩ | ⟨pid, hpid, -⟩
      · injection hn with _ hn
        rw [hn]
        exact h.congr rfl rfl rfl (fun _ => rfl) rfl (fun _ => rfl) (fun _ => rfl) rfl rfl
      · cases hpid
    have hcr3 : LifeSame s₁ (s₁.loadCr3 PAGE_DIR_ADDR_START) := .of_tables rfl rfl rfl rfl
    have hi : Idle (s₁.loadCr3 PAGE_DIR_ADDR_START) :=
      hs₁.congr rfl rfl rfl (fun _ => rfl) rfl (fun _ => rfl) (fun _ => rfl) rfl rfl
    exact ⟨hi.ret SYSERR, hnew.life rfl (hcr3.trans (.ret _ SYSERR)) rfl⟩
  -- With a process its directory is noted in the entry.
  · obtain ⟨page, -, he⟩ := bind_ok he
    injection he with he
    have hcreated : Created k.sys s₁ pid 0 := by
      rcases hspec with ⟨n, hn⟩ | ⟨pid', hpid, hc⟩
      · cases hn
      · injection hpid with hpid
        rw [hpid]
        exact hc
    have hsame : LifeSame s₁ (s₁.vcreated pid page.1) := by
      have hcr3 : LifeSame s₁ (s₁.loadCr3 PAGE_DIR_ADDR_START) := .of_tables rfl rfl rfl rfl
      have hpage : LifeSame (s₁.loadCr3 PAGE_DIR_ADDR_START)
          ((s₁.loadCr3 PAGE_DIR_ADDR_START).setProc pid fun p => { p with page_addr := page.1 }) :=
        .setProc _ _ (fun _ => ⟨rfl, rfl⟩) Iff.rfl
      exact (hcr3.trans hpage).trans (.of_tables rfl rfl rfl rfl)
    rw [← he]
    exact ⟨(hcreated.vcreated h.curr page.1).idle, hnew.life rfl hsame rfl⟩

/-- A page fault changes nothing but CR3, or starts to kill the running process. -/
theorem fault_life {k k' : Kernel} (h : Idle k.sys) {v : ℕ} (he : k.fault v = .ok k') :
    Idle k'.sys ∧ LifeStep k.sys (k.startsKill (.fault v)) none k'.sys := by
  unfold Kernel.fault at he
  obtain ⟨r, hr, he⟩ := bind_ok he
  -- The handler may change CR3, which is not part of the lives.
  have hcpu : ∀ c : Cpu, Idle (k.withCpu c).sys ∧
      LifeStep k.sys (k.startsKill (.fault v)) none (k.withCpu c).sys := fun c =>
    ⟨h.congr rfl rfl rfl (fun _ => rfl) rfl (fun _ => rfl) (fun _ => rfl) rfl rfl,
      .same rfl (.of_tables rfl rfl rfl rfl)⟩
  cases r with
  | handled c =>
    injection he with he
    rw [← he]
    exact hcpu c
  -- A segmentation fault kills the running process, unless it is the null process.
  | segv c =>
    dsimp only at he
    split_ifs at he with hnull
    · injection he with he
      rw [← he]
      exact hcpu _
    · obtain ⟨s', hs', he⟩ := bind_ok he
      injection he with he
      have hi : Idle { k.sys with cr3 := c.cr3 } :=
        h.congr rfl rfl rfl (fun _ => rfl) rfl (fun _ => rfl) (fun _ => rfl) rfl rfl
      have hidle := ((killStart_spec hi k.sys.currpid).of_eq hs').1
      have hstart := (killStart_effect hi k.sys.currpid).of_eq hs'
      have hstarts : k.startsKill (.fault v) = some k.sys.currpid := by
        unfold Kernel.startsKill
        dsimp only
        rw [hr]
      rw [← he, hstarts]
      refine ⟨hidle, ?_⟩
      -- The kill is refused, halts the machine, or is started.
      cases hstart with
      | refused hbad => exact .same rfl (.of_tables rfl rfl rfl rfl)
      | halted hp h0 hlive hc => exact .halted rfl rfl (.of_tables rfl rfl rfl rfl)
      | sent hp h0 hlive hc hsent =>
        have hcr3 : LifeSame (k.sys.killing k.sys.currpid)
            (({ k.sys with cr3 := c.cr3 } : Sys).killing k.sys.currpid) := .of_tables rfl rfl rfl rfl
        exact .started rfl rfl hp hlive (hcr3.trans (hsent.lives (hi.killing hp h0).toRunning))

/-- The running process goes on in the kernel. -/
theorem cont_life {k k' : Kernel} (h : Idle k.sys) (he : k.cont = .ok k') :
    Idle k'.sys ∧ LifeStep k.sys none (k.sys.endsKill .cont) k'.sys := by
  have heffect := cont_effect h he
  -- Whatever but a kill the process was in the middle of, it goes on without an end of a life.
  have hno : (∀ pid, k.sys.pend k.sys.currpid ≠ .kill pid) →
      LifeStep k.sys none (k.sys.endsKill .cont) k'.sys := fun hne => by
    refine heffect.life h (fun hc => absurd rfl hc) ?_
    unfold endsKill
    cases hp : k.sys.pend k.sys.currpid with
    | kill pid => exact absurd hp (hne pid)
    | _ => rfl
  unfold Kernel.cont at he
  cases hp : k.sys.pend k.sys.currpid with
  | user =>
    rw [hp] at he hno
    injection he with he
    exact ⟨by rw [← he]; exact h, hno fun _ => nofun⟩
  | suspend pid =>
    rw [hp] at he hno
    injection he with he
    exact ⟨by rw [← he]; exact (suspendEnd_spec h pid).1, hno fun _ => nofun⟩
  | receive =>
    rw [hp] at he hno
    injection he with he
    exact ⟨by rw [← he]; exact (receiveEnd_spec h).1, hno fun _ => nofun⟩
  | recvtime =>
    rw [hp] at he hno
    injection he with he
    exact ⟨by rw [← he]; exact (recvtimeEnd_spec h).1, hno fun _ => nofun⟩
  | clk =>
    rw [hp] at he hno
    exact ⟨((tickEnd_spec h).of_eq (lift_eq he)).1, hno fun _ => nofun⟩
  -- The end of a kill: the process is destroyed, itself or another one.
  | kill pid =>
    rw [hp] at he
    change k.killEnd pid = .ok k' at he
    obtain ⟨hpid, hn⟩ := h.states.kill_pid _ _ hp
    have hk : k.sys.endsKill .cont = some pid := by
      unfold endsKill
      dsimp only
      rw [hp]
    have hended := killEnd_effect h hpid hn he
    refine ⟨?_, .ended hk hpid (killEnd_memlist h hpid hn he) (hended.killed h hpid)⟩
    by_cases hc : k.sys.state pid = .curr
    · obtain rfl := h.states.curr_only pid hpid hc
      cases hvm : killVm k.cpu k.currAddr with
      | ok c =>
        obtain ⟨s', hs', hx⟩ := killEnd_self h hn hvm
        rw [hs'] at he
        injection he with he
        rw [← he]
        exact hx.idle
      | _ =>
        have hcurr : (k.sys.proctab k.sys.currpid).prstate = .curr := h.curr
        unfold Kernel.killEnd at he
        unfold Kernel.currAddr at hvm
        dsimp only at he
        rw [hcurr] at he
        dsimp only at he
        rw [hvm] at he
        cases he
    -- Another process is destroyed, while the killer runs on.
    · obtain ⟨s', hs', hx⟩ := killEnd_other h hpid hn hc
      rw [hs'] at he
      injection he with he
      rw [← he]
      exact hx.idle

/-- What a step does to the lives of the processes, when it does not touch unmapped memory in the kernel. -/
theorem exec_life {k k' : Kernel} {e : Event} (h : Idle k.sys) (hen : k.Enabled e) {fuel junk : ℕ}
    (he : k.exec fuel junk e = .ok k') :
    Idle k'.sys ∧ LifeStep k.sys (k.startsKill e) (k.sys.endsKill e) k'.sys := by
  cases e with
  | call c =>
    have hu : k.sys.pend k.sys.currpid = .user := hen.1
    -- The system calls of the plain machine only work on the tables.
    by_cases hc : c.Plain
    · have heffect := (call_effect h hc hen.2.2 fuel junk).of_eq he
      exact ⟨((call_plain h hc hen.2.2 fuel junk).of_eq he).1.1, heffect.life h (fun _ => hu) rfl⟩
    -- Those of virtual memory change only CR3 and the mask, but for `vcreate`.
    · cases c with
      | vcreate ssize priority => exact vcreate_life h he
      | vmalloc nbytes =>
        obtain ⟨r, -, he⟩ := bind_ok he
        injection he with he
        rw [← he]
        exact withCpu_life h _ _ rfl
      | vfree ptr nbytes =>
        obtain ⟨r, -, he⟩ := bind_ok he
        injection he with he
        rw [← he]
        exact withCpu_life h _ _ rfl
      | freeFfsPages =>
        injection he with he
        rw [← he]
        exact withCpu_life h _ _ rfl
      | allocatedVirtualPages pid =>
        obtain ⟨r, -, he⟩ := bind_ok he
        injection he with he
        rw [← he]
        exact withCpu_life h _ _ rfl
      | usedFfsFrames pid =>
        obtain ⟨r, -, he⟩ := bind_ok he
        injection he with he
        rw [← he]
        exact withCpu_life h _ _ rfl
      | _ => exact absurd trivial hc
  | fault v => exact fault_life h he
  | tick =>
    have hs' := lift_eq he
    exact ⟨((tick_spec h).of_eq hs').1, .same rfl (((tick_effect h).of_eq hs').lives h hen.1)⟩
  | cont => exact cont_life h he

/-- The event does not touch unmapped memory in the kernel. -/
def Kernel.Tame (k : Kernel) (e : Event) : Prop := ∀ fuel junk, k.exec fuel junk e ≠ .wild

/-- A tame step does something to the lives of the processes that is known. -/
theorem live_step {k k' : Kernel} {e : Event} (h : Idle k.sys) (ht : k.Tame e) (hs : k.Step e k') :
    LiveStep k e k' := by
  obtain ⟨hh, he, fuel, junk, hx⟩ := hs
  have hx := hx.resolve_right (ht fuel junk)
  obtain ⟨hi, hl⟩ := exec_life h he hx
  exact ⟨h, hi, he, hh, hl⟩

end Xinu
