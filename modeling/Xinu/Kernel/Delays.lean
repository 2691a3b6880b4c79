import Xinu.Kernel.Mailboxes
import Xinu.Kernel.SleepQueue
import Xinu.Lib.DeltaList

/-!
# Delays

The queue of sleeping processes is a delta list: the keys lead from the present tick to the ticks at
which the processes are due. So every process is made ready by the tick at which it is due, unless
it is sent a message or killed before. The exception is `recvtime(0)` without a message, which waits
for a tick that it does not have: the process behind it is one tick late.
-/

namespace Xinu

open LinkedQueue Sys DeltaList

/-! ## The clock -/

/-- The ticks since boot, and the tick at which each process is due that has asked for a delay. -/
structure Clock where
  /-- The ticks since boot. -/
  now : ℤ
  /-- The tick at which each process is due. -/
  due : ℤ → ℤ

/-- The delay that a system call asks for. -/
def Event.delay : Event → Option ℤ
  | .call (.sleepms delay) => some delay
  | .call (.recvtime maxwait) => some maxwait
  | _ => none

/-- The ticks that pass in a step. -/
def Event.ticks : Event → ℤ
  | .tick => 1
  | _ => 0

/-- The clock after an event. -/
def Clock.after (c : Clock) (s : Sys) (e : Event) : Clock where
  now := c.now + e.ticks
  due p := match e.delay with
    | some d => if p = s.currpid then c.now + d else c.due p
    | none => c.due p

/-- One more step. -/
def Clock.note (k : Kernel) (e : Event) (_ : Kernel) (c : Clock) : Clock := c.after k.sys e

/-- Delays are 32-bit numbers, and a process that waits for a message waits for a tick at least. -/
def DelayOk (s : Sys) : Event → Prop
  | .call (.sleepms delay) => delay < 2 ^ 31
  | .call (.recvtime maxwait) => maxwait < 2 ^ 31 ∧ (maxwait = 0 → (s.proctab s.currpid).prhasmsg = true)
  | _ => True

/-- The states of the runs in which the delays meet their condition, with the time. -/
def DelayRun : Kernel → Clock → Prop :=
  Kernel.Noted (fun k e => e.Plain ∧ DelayOk k.sys e) ⟨0, fun _ => 0⟩ Clock.note

/-- The running process asks for a delay of one tick or more, and has no message if it waits for one. -/
def AsksDelay (s : Sys) (d : ℤ) : Event → Prop
  | .call (.sleepms delay) => delay = d ∧ 1 ≤ d
  | .call (.recvtime maxwait) => maxwait = d ∧ 1 ≤ d ∧ (s.proctab s.currpid).prhasmsg = false
  | _ => False

section

variable {s s' s₁ s₂ : Sys} {p d : ℤ} {R : List ℤ}

/-! ## Steps that leave the sleeping processes alone -/

/-- A process on the queue of sleeping processes sleeps, or waits for a message for some time. -/
theorem mem_sleepq (h : Running s) :
    p ∈ s.contents s.sleepq ↔ IsPid p ∧ (s.state p = .sleep ∨ s.state p = .rectim) := by
  rw [mem_contents h.linked h.linked.sleepq_mem]
  refine ⟨fun hp => ⟨h.linked.pid p (by rw [hp]; exact nofun), asleep_of_home h hp⟩,
    fun hp => home_asleep hp.1 hp.2⟩

/-- A sleeping process is not active. -/
theorem sleepq_not_active (h : Running s) (hp : p ∈ s.contents s.sleepq) : ¬ s.Active p := by
  rcases ((mem_sleepq h).mp hp).2 with hst | hst <;> rintro (ha | ha) <;> rw [hst] at ha <;> cases ha

/-- The queue of sleeping processes is not the ready list. -/
theorem sleepq_ne_readylist (h : Linked s s.home) : s.sleepq ≠ s.readylist := by
  rw [h.sleepq, h.readylist]
  decide

/-- A step leaves the queue of sleeping processes alone. -/
structure SleepSame (s s' : Sys) : Prop where
  /-- The queue has the same place. -/
  sleepq : s'.sleepq = s.sleepq
  /-- The ready list has the same place. -/
  readylist : s'.readylist = s.readylist
  /-- The same processes sleep, in the same order. -/
  contents : s'.contents s.sleepq = s.contents s.sleepq
  /-- Their keys stay. -/
  key : ∀ p ∈ s.contents s.sleepq, s'.key p = s.key p
  /-- The states of the sleeping processes stay. -/
  state : ∀ p ∈ s.contents s.sleepq, s'.state p = s.state p

namespace SleepSame

/-- A step that does not change the queue table, nor the states of the sleeping processes. -/
theorem of_tables (hq : s'.queuetab = s.queuetab) (hst : ∀ p ∈ s.contents s.sleepq, s'.state p = s.state p)
    (hs : s'.sleepq = s.sleepq) (hr : s'.readylist = s.readylist) : SleepSame s s' := by
  refine ⟨hs, hr, contents_of_queuetab hq _, fun p _ => ?_, hst⟩
  unfold Sys.key
  rw [hq]

/-- A state sleeps like itself. -/
theorem refl (s : Sys) : SleepSame s s := of_tables rfl (fun _ _ => rfl) rfl rfl

/-- Two steps that leave the sleeping processes, one after the other, leave them. -/
theorem trans (h : SleepSame s s₁) (h' : SleepSame s₁ s') : SleepSame s s' := by
  have hmem : ∀ {p}, p ∈ s.contents s.sleepq → p ∈ s₁.contents s₁.sleepq := fun hp => by
    rw [h.sleepq, h.contents]
    exact hp
  refine ⟨h'.sleepq.trans h.sleepq, h'.readylist.trans h.readylist, ?_, fun p hp => ?_, fun p hp => ?_⟩
  · rw [← h.contents, ← h.sleepq]
    exact h'.contents
  · exact (h'.key p (hmem hp)).trans (h.key p hp)
  · exact (h'.state p (hmem hp)).trans (h.state p hp)

/-- An answer leaves the sleeping processes alone. -/
theorem ret (s : Sys) (v : ℤ) : SleepSame s (s.ret v) := of_tables rfl (fun _ _ => rfl) rfl rfl

/-- Noting how a call ends leaves the sleeping processes. -/
theorem setPend (s : Sys) (e : Pend) : SleepSame s (s.setPend e) := of_tables rfl (fun _ _ => rfl) rfl rfl

/-- A change of the entry of another process. -/
theorem setProc (s : Sys) {f : Procent → Procent} (hp : p ∉ s.contents s.sleepq) :
    SleepSame s (s.setProc p f) := by
  refine of_tables rfl (fun x hx => ?_) rfl rfl
  have hxp : x ≠ p := fun he => hp (he ▸ hx)
  exact congrArg Procent.prstate (setProc_other hxp s f)

/-- A change of an entry that keeps its state. -/
theorem setProc_state (s : Sys) (p : ℤ) {f : Procent → Procent} (hf : ∀ e, (f e).prstate = e.prstate) :
    SleepSame s (s.setProc p f) := by
  refine of_tables rfl (fun x _ => ?_) rfl rfl
  unfold Sys.state
  rw [setProc_apply]
  split_ifs with hx
  · rw [hx, hf]
  · rfl

/-- A process that leaves another queue leaves the sleeping processes alone. -/
theorem getitem (hi : Running s) {h : ℤ} (hh : h ∈ queueIds) (hp : s.home p = some h) (hne : h ≠ s.sleepq) :
    SleepSame s (s.getitem p) := by
  refine ⟨rfl, rfl, ?_, fun x _ => getitem_key s p x, fun _ _ => rfl⟩
  rw [getitem_contents hi.linked hh hp hi.linked.sleepq_mem, if_neg hne.symm]

end SleepSame

/-- The scheduler moves processes that do not sleep. -/
theorem Sys.Moves.slept (hm : Moves R s s') (hq : s.sleepq ∈ queueIds) (hne : s.sleepq ≠ s.readylist)
    (ha : ∀ p ∈ s.contents s.sleepq, ¬ s.Active p) (hR : ∀ p ∈ R, p ∉ s.contents s.sleepq) :
    SleepSame s s' := by
  have hnot : ∀ p ∈ s.contents s.sleepq, p ∉ R := fun p hp hp' => hR p hp' hp
  refine ⟨hm.sleepq, hm.readylist, ?_, fun p hp => hm.key p (hnot p hp) (ha p hp), fun p hp => ?_⟩
  · rw [hm.queue _ hq hne]
    exact List.filter_eq_self.mpr fun x hx => by simpa using hnot x hx
  · exact (hm.state p (hnot p hp)).resolve_right fun hc => ha p hp hc.1

/-- The scheduler after a step that leaves the sleeping processes alone. -/
theorem SleepSame.moves (h : SleepSame s s₁) (hi : Running s) (hm : Moves R s₁ s')
    (hR : ∀ p ∈ R, p ∉ s.contents s.sleepq) : SleepSame s s' := by
  have hcont : s₁.contents s₁.sleepq = s.contents s.sleepq := by rw [h.sleepq, h.contents]
  refine h.trans (hm.slept ?_ ?_ (fun p hp => ?_) fun p hp => ?_)
  · rw [h.sleepq]
    exact hi.linked.sleepq_mem
  · rw [h.sleepq, h.readylist]
    exact sleepq_ne_readylist hi.linked
  · rw [hcont] at hp
    unfold Active
    rw [h.state p hp]
    exact sleepq_not_active hi hp
  · rw [hcont]
    exact hR p hp

/-! ## Processes that go to sleep, and that are taken off -/

/-- A process goes to sleep for `d` ticks. -/
structure Joined (s s' : Sys) (p d : ℤ) : Prop where
  /-- The queue has the same place. -/
  sleepq : s'.sleepq = s.sleepq
  /-- The process stands behind those that are due before it or with it; its key is what is left of its delay
  there, and that much is taken from the next key. -/
  cut : ∃ l r, s.contents s.sleepq = l ++ r ∧ s'.contents s.sleepq = l ++ p :: r ∧ s.Passes d l ∧
    s'.key p = s.remaining d l ∧
    (∀ c ∈ r.head?, s.remaining d l < s.key c ∧ s'.key c = int32 (s.key c - s.remaining d l)) ∧
    ∀ x ∈ s.contents s.sleepq, x ∉ r.head? → s'.key x = s.key x

/-- A process is taken off the queue of sleeping processes before it is due. -/
structure Left (s s' : Sys) (p : ℤ) : Prop where
  /-- The queue has the same place. -/
  sleepq : s'.sleepq = s.sleepq
  /-- The others stay in order, and the next one gets the key of the process in addition. -/
  cut : ∃ l r, s.contents s.sleepq = l ++ p :: r ∧ s'.contents s.sleepq = l ++ r ∧
    (∀ c ∈ r.head?, s'.key c = int32 (s.key c + s.key p)) ∧ ∀ x ∈ l ++ r, x ∉ r.head? → s'.key x = s.key x

/-- A process that has gone to sleep still sleeps when the scheduler is done. -/
theorem Joined.same (h : Joined s s₁ p d) (hs : SleepSame s₁ s') : Joined s s' p d := by
  obtain ⟨hq, l, r, hl, hl', hpass, hkey, hnext, hrest⟩ := h
  have hmem : ∀ {x}, x ∈ l ++ p :: r → s'.key x = s₁.key x := fun hx => by
    refine hs.key _ ?_
    rw [hq, hl']
    exact hx
  refine ⟨hs.sleepq.trans hq, l, r, hl, ?_, hpass, ?_, fun c hc => ⟨(hnext c hc).1, ?_⟩, fun x hx hxr => ?_⟩
  · rw [← hl', ← hq]
    exact hs.contents
  · rw [hmem (List.mem_append_right _ List.mem_cons_self), hkey]
  · rw [hmem (List.mem_append_right _ (List.mem_cons_of_mem _ (List.mem_of_mem_head? hc))), (hnext c hc).2]
  · rw [hl] at hx
    rw [hmem ?_, hrest x (by rw [hl]; exact hx) hxr]
    rcases List.mem_append.mp hx with hx | hx
    · exact List.mem_append_left _ hx
    · exact List.mem_append_right _ (List.mem_cons_of_mem _ hx)

/-- An answer before that does not matter. -/
theorem Joined.of_ret {v : ℤ} (h : Joined (s.ret v) s' p d) : Joined s s' p d := by
  obtain ⟨hq, l, r, hl, hl', hpass, hkey, hnext, hrest⟩ := h
  have hpass' : ∀ (l : List ℤ) (d : ℤ), (s.ret v).Passes d l → s.Passes d l := by
    intro l
    induction l with
    | nil => exact fun _ _ => trivial
    | cons x l ih => exact fun d hp => ⟨hp.1, ih _ hp.2⟩
  exact ⟨hq, l, r, hl, hl', hpass' l d hpass, hkey, hnext, hrest⟩

/-- The processes left on the queue stay there when the scheduler is done. -/
theorem Left.same (h : Left s s₁ p) (hs : SleepSame s₁ s') : Left s s' p := by
  obtain ⟨hq, l, r, hl, hl', hnext, hrest⟩ := h
  have hmem : ∀ {x}, x ∈ l ++ r → s'.key x = s₁.key x := fun hx => by
    refine hs.key _ ?_
    rw [hq, hl']
    exact hx
  refine ⟨hs.sleepq.trans hq, l, r, hl, ?_, fun c hc => ?_, fun x hx hxr => ?_⟩
  · rw [← hl', ← hq]
    exact hs.contents
  · rw [hmem (List.mem_append_right _ (List.mem_of_mem_head? hc)), hnext c hc]
  · rw [hmem hx, hrest x hx hxr]

/-- `unsleep` takes a process off the queue. -/
theorem unsleep_left (hi : Running s) (hp : p ∈ s.contents s.sleepq) : Left s (s.unsleep p) p := by
  have hh := (mem_contents hi.linked hi.linked.sleepq_mem).mp hp
  have htaken := unsleep_contents hi hh
  obtain ⟨t, ht⟩ := htaken.tables
  obtain ⟨l, r, hl, hl', hnext, hrest⟩ := htaken.cut
  exact ⟨by rw [ht], l, r, hl, hl', hnext, fun x _ hx => hrest x hx⟩

/-- A process that has been taken off is not on the queue any more. -/
theorem Left.not_mem (h : Left s s' p) (hi : Running s) : p ∉ s'.contents s'.sleepq := by
  obtain ⟨hq, l, r, hl, hl', -⟩ := h
  have hnd := nodup_contents hi.linked hi.linked.sleepq_mem
  rw [hl, List.perm_middle.nodup_iff, List.nodup_cons] at hnd
  rw [hq, hl']
  exact hnd.1

/-- `send` leaves the sleeping processes alone, or wakes one that waits for a message. -/
theorem Sys.Sent.slept {msg : ℕ} {st : Status} (h : Sent s p msg (st, s')) (hi : Running s) :
    SleepSame s s' ∨ s.state p = .rectim ∧ Left s s' p := by
  have hdeliver : SleepSame s (s.deliver p msg) := .setProc_state s p fun _ => rfl
  have hnot : s.state p ≠ .sleep ∧ s.state p ≠ .rectim → ∀ x ∈ [p], x ∉ s.contents s.sleepq := by
    intro hst x hx hmem
    rw [List.mem_singleton.mp hx] at hmem
    exact ((mem_sleepq hi).mp hmem).2.elim hst.1 hst.2
  cases h with
  | refused h => exact .inl (.refl s)
  | left hbad hnone h₁ h₂ => exact .inl hdeliver
  | recv hbad hnone hst hs =>
    refine .inl (hdeliver.moves hi hs (hnot ?_))
    rw [hst]
    exact ⟨nofun, nofun⟩
  | rectim hbad hnone hst hs =>
    have hr := hi.deliver p msg
    have hmem : p ∈ (s.deliver p msg).contents (s.deliver p msg).sleepq := by
      rw [mem_sleepq hr, deliver_state]
      exact ⟨(pid_of_not_bad hbad).1, .inr hst⟩
    have hleft := unsleep_left hr hmem
    obtain ⟨t, ht⟩ := (unsleep_contents hr ((mem_contents hr.linked hr.linked.sleepq_mem).mp hmem)).tables
    -- Those left on the queue were on it before, so none of them is active.
    have hsame : SleepSame ((s.deliver p msg).unsleep p) s' := by
      refine hs.slept ?_ ?_ (fun x hx => ?_) fun x hx => ?_
      · rw [ht]
        exact hr.linked.sleepq_mem
      · have hne := sleepq_ne_readylist hr.linked
        rw [ht]
        exact hne
      · obtain ⟨hq, l, r, hl, hl', -⟩ := hleft
        rw [hq, hl'] at hx
        have hx' : x ∈ (s.deliver p msg).contents (s.deliver p msg).sleepq := by
          rw [hl]
          simp only [List.mem_append, List.mem_cons] at hx ⊢
          tauto
        have hna := sleepq_not_active hr hx'
        rw [ht]
        exact hna
      · rw [List.mem_singleton.mp hx]
        exact hleft.not_mem hr
    refine .inr ⟨hst, ?_⟩
    obtain ⟨hq, l, r, hl, hl', hnext, hrest⟩ := hleft.same hsame
    exact ⟨hq, l, r, hl, hl', hnext, hrest⟩

/-- The end of `kill` leaves the sleeping processes alone, or takes the process off that is killed. -/
theorem Sys.KillEnded.slept (h : KillEnded s p s') (hi : Idle s) (hp : IsPid p) :
    SleepSame s s' ∨ Left s s' p := by
  -- The end of every case but the last: the entry becomes free.
  have hfree : ∀ {s₁ : Sys}, p ∉ s₁.contents s₁.sleepq → SleepSame s₁ ((s₁.setState p .free).setPend .user) :=
    fun hn => (SleepSame.setProc _ hn).trans (.setPend _ .user)
  have hnot : ∀ {st : PrState}, s.state p = st → st ≠ .sleep → st ≠ .rectim → p ∉ s.contents s.sleepq := by
    intro st hst h₁ h₂ hmem
    have := ((mem_sleepq hi.toRunning).mp hmem).2
    rw [hst] at this
    exact this.elim h₁ h₂
  cases h with
  | unqueued l hst =>
    have hvars : SleepSame s { s with memlist := l } := .of_tables rfl (fun _ _ => rfl) rfl rfl
    refine .inl (hvars.trans (hfree ?_))
    change p ∉ s.contents s.sleepq
    rcases hst with hst | hst | hst <;> exact hnot hst nofun nofun
  | asleep l hst =>
    have hr : Running { s with memlist := l } :=
      hi.toRunning.congr rfl rfl rfl (fun _ => rfl) rfl (fun _ => rfl) (fun _ => rfl) rfl
    have hleft := unsleep_left hr ((mem_sleepq hr).mpr ⟨hp, hst⟩)
    obtain ⟨hq, l', r, hl, hl', hnext, hrest⟩ := hleft.same (hfree (hleft.not_mem hr))
    exact .inr ⟨hq, l', r, hl, hl', hnext, hrest⟩
  | waiting l hst =>
    have hsem := hi.states.wait_sem p hp hst
    generalize hs₁ : ({ s with memlist := l } : Sys).signalCount (s.proctab p).prsem = s₁
    have hsame : SleepSame s s₁ := by
      rw [← hs₁]
      exact .of_tables rfl (fun _ _ => rfl) rfl rfl
    have hrun : Running s₁ := by
      have hr : Running { s with memlist := l } :=
        hi.toRunning.congr rfl rfl rfl (fun _ => rfl) rfl (fun _ => rfl) (fun _ => rfl) rfl
      rw [← hs₁]
      exact hr.setSem _ (fun e => { e with scount := int32 (e.scount + 1) }) fun _ => rfl
    have hproc : s₁.proctab = s.proctab := by
      rw [← hs₁]
      rfl
    have hmem : p ∈ s₁.contents (semq (s.proctab p).prsem) := by
      rw [mem_semq hrun hsem]
      exact ⟨hp, by unfold state; rw [hproc]; exact hst, by rw [hproc]⟩
    obtain ⟨hq, -, hne⟩ := semq_mem hsem
    have hget : SleepSame s₁ (s₁.getitem p) :=
      .getitem hrun hq ((mem_contents hrun.linked hq).mp hmem) (by rw [hrun.linked.sleepq]; exact hne)
    refine .inl ((hsame.trans hget).trans (hfree ?_))
    rw [hget.sleepq, hget.contents, hsame.sleepq, hsame.contents]
    exact hnot hst nofun nofun
  | ready l hst =>
    have hr : Running { s with memlist := l } :=
      hi.toRunning.congr rfl rfl rfl (fun _ => rfl) rfl (fun _ => rfl) (fun _ => rfl) rfl
    have hvars : SleepSame s { s with memlist := l } := .of_tables rfl (fun _ _ => rfl) rfl rfl
    have hhome := (home_ready_iff hr.linked hr.states hp).mpr hst
    have hget : SleepSame { s with memlist := l } (({ s with memlist := l } : Sys).getitem p) :=
      .getitem hr hr.linked.readylist_mem hhome (sleepq_ne_readylist hr.linked).symm
    refine .inl ((hvars.trans hget).trans (hfree ?_))
    rw [hget.sleepq, hget.contents]
    exact hnot hst nofun nofun
  | self l c hc hm =>
    have hvars : SleepSame s { s with memlist := l, cr3 := c } := .of_tables rfl (fun _ _ => rfl) rfl rfl
    have hset : SleepSame { s with memlist := l, cr3 := c }
        ({ s with memlist := l, cr3 := c }.setState p .free) :=
      .setProc _ (@hnot .curr (by rw [hc]; exact hi.curr) nofun nofun)
    exact .inl ((hvars.trans hset).moves hi.toRunning hm nofun)

/-- A process that `insertd` has put on the queue sleeps when the scheduler is done. -/
theorem Sys.InsertedDelay.joined (hi : Running s) (hc : s.state p = .curr) (h : InsertedDelay s s₁ p d)
    (hq : s₂.queuetab = s₁.queuetab) (hsl : s₂.sleepq = s.sleepq) (hrl : s₂.readylist = s.readylist)
    (hst : ∀ x, x ≠ p → s₂.state x = s.state x) (hp : s₂.state p = .sleep ∨ s₂.state p = .rectim)
    (hm : Moves [] s₂ s') : Joined s s' p d := by
  obtain ⟨l, r, hl, hl', hpass, hkey, hnext, hrest⟩ := h.cut
  have hcont : s₂.contents s.sleepq = l ++ p :: r := (contents_of_queuetab hq _).trans hl'
  have hkeys : ∀ x, s₂.key x = s₁.key x := fun x => by
    unfold Sys.key
    rw [hq]
  have hpnot : ∀ x ∈ s.contents s.sleepq, x ≠ p := by
    rintro x hx rfl
    exact sleepq_not_active hi hx (.inl hc)
  have hjoin : Joined s s₂ p d := by
    refine ⟨hsl, l, r, hl, hcont, hpass, by rw [hkeys, hkey],
      fun c hc => ⟨(hnext c hc).1, ?_⟩, fun x hx hxr => ?_⟩
    · rw [hkeys, (hnext c hc).2]
    · rw [hkeys, hrest x (hpnot x hx) hxr]
  refine hjoin.same (hm.slept ?_ ?_ (fun x hx => ?_) nofun)
  · rw [hsl]
    exact hi.linked.sleepq_mem
  · rw [hsl, hrl]
    exact sleepq_ne_readylist hi.linked
  · rw [hsl, hcont] at hx
    -- The new process sleeps now, and the others did before.
    by_cases hxp : x = p
    · rw [hxp]
      rcases hp with hp | hp <;> rintro (ha | ha) <;> rw [hp] at ha <;> cases ha
    · have hx' : x ∈ s.contents s.sleepq := by
        rw [hl]
        simp only [List.mem_append, List.mem_cons] at hx ⊢
        tauto
      unfold Active
      rw [hst x hxp]
      exact sleepq_not_active hi hx'

/-! ## Steps -/

/-- What a step does to the queue of sleeping processes. -/
inductive SleepStep (s : Sys) : Event → Sys → Prop
  | same {e : Event} {s' : Sys} (he : e ≠ .tick) (hd : ∀ d, ¬ AsksDelay s d e) (h : SleepSame s s') :
    SleepStep s e s'
  | joined {e : Event} {s' : Sys} {d : ℤ} (hd : e.delay = some d) (h0 : 0 ≤ d) (hz : d = 0 → ¬ DelayOk s e)
    (h : Joined s s' s.currpid d) : SleepStep s e s'
  | left {e : Event} {s' : Sys} {p : ℤ} (he : e ≠ .tick) (hd : ∀ d, ¬ AsksDelay s d e)
    (hw : (∃ msg, s.sends e = some (p, msg)) ∧ s.state p = .rectim ∨ e = .cont ∧ s.pend s.currpid = .kill p)
    (h : Left s s' p) : SleepStep s e s'
  | tick {s' : Sys} (h : Ticked s s') : SleepStep s .tick s'

/-- Making processes ready that wait on a semaphore leaves the sleeping processes alone. -/
theorem Sys.Releases.slept {sem : ℤ} {n : ℕ} {c : ℤ} (h : Releases sem n c s₁ s') (h₁ : SleepSame s s₁)
    (hi : Running s) (hr : Running s₁) (hs : IsSem sem) : SleepSame s s' := by
  have hcount : SleepSame s₁ (s₁.setSem sem fun e => { e with scount := c }) :=
    .of_tables rfl (fun _ _ => rfl) rfl rfl
  refine SleepSame.moves (h₁.trans hcount) hi h fun p hp hmem => ?_
  have hw := List.mem_of_mem_take hp
  rw [hr.linked.squeue sem hs, mem_semq hr hs] at hw
  have hst := h₁.state p hmem
  rw [hw.state] at hst
  rcases ((mem_sleepq hi).mp hmem).2 with h₂ | h₂ <;> rw [h₂] at hst <;> cases hst

/-- The running process is not asleep. -/
theorem currpid_not_asleep (hi : Running s) : s.currpid ∉ s.contents s.sleepq :=
  fun hmem => sleepq_not_active hi hmem (.inl hi.curr)

/-- The end of `receive` leaves the sleeping processes alone. -/
theorem receiveEnd_slept (s : Sys) : SleepSame s s.receiveEnd := by
  have htake : SleepSame (s.ret (s.proctab s.currpid).prmsg)
      ((s.ret (s.proctab s.currpid).prmsg).setProc s.currpid fun e => { e with prhasmsg := false }) :=
    .setProc_state _ _ fun _ => rfl
  exact ((SleepSame.ret s _).trans htake).trans (.setPend _ .user)

/-- The end of `recvtime` leaves the sleeping processes alone. -/
theorem recvtimeEnd_slept (s : Sys) : SleepSame s s.recvtimeEnd := by
  unfold recvtimeEnd
  dsimp only
  split_ifs
  · exact receiveEnd_slept s
  · exact (SleepSame.ret s _).trans (.setPend _ .user)

/-- `wait` leaves the sleeping processes alone. -/
theorem Sys.Waited.slept {sem : ℤ} (h : Waited s sem s') (hi : Idle s) : SleepSame s s' := by
  cases h with
  | refused v => exact .ret s v
  | passed => exact .of_tables rfl (fun _ _ => rfl) rfl rfl
  | blocked hs hu hc hmv =>
    have hnot := currpid_not_asleep hi.toRunning
    have hcount : SleepSame s (s.waitCount sem) := .of_tables rfl (fun _ _ => rfl) rfl rfl
    have hwait : SleepSame (s.waitCount sem)
        ((s.waitCount sem).setProc s.currpid fun p => { p with prstate := .wait, prsem := sem }) :=
          .setProc _ hnot
    have hl : Linked ((s.waitCount sem).setProc s.currpid fun p =>
        { p with prstate := .wait, prsem := sem }) s.home :=
      hi.linked.of_eq rfl rfl rfl fun m =>
        s.setSem_squeue (f := fun e => { e with scount := int32 (e.scount - 1) })
        (fun _ => rfl) sem m
    -- The process has left the running state, but is on no queue yet.
    have hcurr :
        ((s.waitCount sem).setProc s.currpid fun p => { p with prstate := .wait, prsem := sem }).state
        s.currpid ≠ .free := by
      rw [show ((s.waitCount sem).setProc s.currpid fun p =>
        { p with prstate := .wait, prsem := sem }).state s.currpid =
        .wait from congrArg Procent.prstate (setProc_same ..)]
      exact nofun
    have hstate := hcount.trans hwait
    generalize ((s.waitCount sem).setProc s.currpid fun p =>
      { p with prstate := .wait, prsem := sem }) = s₁ at *
    have hsq := hi.linked.squeue_mem hs
    -- The queue of a semaphore is another one than that of the sleeping processes.
    have hne : s.sleepq ≠ (s.semtab sem).squeue := by
      have h₀ : 0 ≤ sem := hs.1
      have h₁ : sem < 100 := hs.2
      rw [hi.linked.sleepq, hi.linked.squeue sem hs]
      omega
    have hjoin : SleepSame s₁ (s₁.enqueue s.currpid (s.semtab sem).squeue) := by
      obtain ⟨t, ht⟩ := s₁.enqueue_tables s.currpid (s.semtab sem).squeue
      refine ⟨by rw [ht], by rw [ht], ?_, fun x _ => enqueue_key s₁ _ _ x, fun x _ => by rw [ht]; rfl⟩
      rw [hstate.sleepq, enqueue_contents hl hsq hi.states.currpid hcurr
        (home_curr hi.curr) hi.linked.sleepq_mem,
        if_neg hne]
    exact (hstate.trans hjoin).moves hi.toRunning hmv nofun

/-- Processes that do not sleep are not on the queue. -/
theorem not_slept_of_states {R : List ℤ} (hr : Running s)
    (hR : ∀ p ∈ R, s.state p ≠ .sleep ∧ s.state p ≠ .rectim) :
    ∀ p ∈ R, p ∉ s.contents s.sleepq :=
  fun p hp hmem => ((mem_sleepq hr).mp hmem).2.elim (hR p hp).1 (hR p hp).2

/-- A new process does not sleep, and the others go on sleeping. -/
theorem create_slept (hr : Running s) (ssize : ℕ) (priority : Int16) :
    SleepSame s (s.create ssize priority) := by
  have hnew := newProcess_effect s ssize priority PAGE_DIR_ADDR_START
  unfold create
  generalize s.newProcess ssize priority PAGE_DIR_ADDR_START = r at *
  cases hnew with
  | none n => exact .of_tables rfl (fun _ _ => rfl) rfl rfl
  | @some pid n saddr memlist hp hf hstk =>
    refine .of_tables rfl (fun p hmem => ?_) rfl rfl
    -- The entry that is used has been free.
    have hne : p ≠ pid := by
      rintro rfl
      have hsleep := ((mem_sleepq hr).mp hmem).2
      rw [hf] at hsleep
      exact hsleep.elim nofun nofun
    exact congrArg Procent.prstate (Function.update_of_ne hne ..)

/-- A change of priority leaves the sleeping processes alone. -/
theorem chprio_slept (s : Sys) (pid : ℤ) (newprio : Int16) : SleepSame s (s.chprio pid newprio) := by
  unfold chprio
  split_ifs with hbad
  · exact .ret s _
  · exact (SleepSame.ret s _).trans (.setProc_state _ _ fun _ => rfl)

/-- A new semaphore leaves them alone. -/
theorem semcreate_slept (s : Sys) (count : ℤ) : SleepSame s (s.semcreate count) := by
  unfold semcreate
  split_ifs
  · exact .ret s _
  · dsimp only
    cases (s.newsemLoop NSEM.toNat s.nextsem).1 <;> exact .of_tables rfl (fun _ _ => rfl) rfl rfl

/-- `recvclr` leaves the sleeping processes. -/
theorem recvclr_slept (s : Sys) : SleepSame s s.recvclr := by
  unfold recvclr
  dsimp only
  split_ifs
  · exact (SleepSame.ret s _).trans (.setProc_state _ _ fun _ => rfl)
  · exact .ret s OK

/-- `signal` and `signaln` leave the sleeping processes alone. -/
theorem Sys.Signalled.slept {sem : ℤ} {n : ℕ} (h : Signalled s sem n s') (hi : Idle s) : SleepSame s s' := by
  cases h with
  | refused v => exact .ret s v
  | released hs hu hrel => exact hrel.slept (.ret s OK) hi.toRunning (hi.ret OK).toRunning hs

/-- A reset of a semaphore leaves the sleepers alone. -/
theorem Sys.SemReset.slept {sem count : ℤ} (h : SemReset s sem count s') (hi : Idle s) : SleepSame s s' := by
  cases h with
  | refused v => exact .ret s v
  | released hs h0 hu hrel => exact hrel.slept (.ret s OK) hi.toRunning (hi.ret OK).toRunning hs

/-- Deleting a semaphore releases processes that wait, and leaves the sleeping ones. -/
theorem Sys.SemDeleted.slept {sem : ℤ} (h : SemDeleted s sem s') (hi : Idle s) : SleepSame s s' := by
  cases h with
  | refused v => exact .ret s v
  | released hs hu c hrel =>
    have hfree := (hi.ret OK).toRunning.setSem sem (fun e => { e with sstate := .free }) fun _ => rfl
    exact hrel.slept (.of_tables rfl (fun _ _ => rfl) rfl rfl) hi.toRunning hfree hs

/-- `resume` makes ready a process that has been suspended, not a sleeping one. -/
theorem Sys.Resumed.slept {pid : ℤ} (h : Resumed s pid s') (hr : Running s) : SleepSame s s' := by
  cases h with
  | refused v => exact .ret s v
  | resumed v hp hst hmv =>
    refine (SleepSame.ret s v).moves hr hmv (not_slept_of_states hr fun p hp => ?_)
    rw [List.mem_singleton.mp hp, hst]
    exact ⟨nofun, nofun⟩

/-- `suspend` takes a process off the ready list, or stops the running one. -/
theorem Sys.Suspended.slept {pid : ℤ} (h : Suspended s pid s') (hr : Running s) : SleepSame s s' := by
  have hnot := currpid_not_asleep hr
  cases h with
  | refused v => exact .ret s v
  | ready hp h0 hst =>
    have hget : SleepSame s (s.getitem pid) :=
      .getitem hr hr.linked.readylist_mem ((home_ready_iff hr.linked hr.states hp).mpr hst)
        (sleepq_ne_readylist hr.linked).symm
    have hset : SleepSame (s.getitem pid) ((s.getitem pid).setState pid .susp) := by
      refine .setProc _ ?_
      rw [hget.sleepq, hget.contents, mem_sleepq hr, hst]
      exact fun hmem => hmem.2.elim nofun nofun
    exact (hget.trans hset).trans ((SleepSame.ret _ _).trans (.setPend _ .user))
  | self hp h0 hmv =>
    have hpend : SleepSame s (s.setPend (.suspend pid)) := .setPend s _
    have hset : SleepSame (s.setPend (.suspend pid)) ((s.setPend (.suspend pid)).setState pid .susp) :=
      .setProc _ (by rw [hp]; exact hnot)
    exact (hpend.trans hset).moves hr hmv nofun

/-- `receive` does not put the process to sleep. -/
theorem Sys.Received.slept (h : Received s s') (hr : Running s) : SleepSame s s' := by
  have hnot := currpid_not_asleep hr
  cases h with
  | ended hmsg => exact receiveEnd_slept s
  | blocked hmsg hmv =>
    have hset : SleepSame (s.setPend .receive) ((s.setPend .receive).setState s.currpid .recv) :=
      .setProc _ hnot
    exact ((SleepSame.setPend s _).trans hset).moves hr hmv nofun

/-- The message of `kill` to the parent may end the sleep of the parent. -/
theorem Sys.KillStarted.sleep {pid : ℤ} (h : KillStarted s pid s') (hi : Idle s) :
    SleepStep s (.call (.kill pid)) s' := by
  cases h with
  | refused h => exact .same nofun (fun _ => id) (.ret s _)
  | halted hp h0 hlive hc => exact .same nofun (fun _ => id) (.of_tables rfl (fun _ _ => rfl) rfl rfl)
  | sent hp h0 hlive hc hsent =>
    have hkill : SleepSame s (s.killing pid) := .of_tables rfl (fun _ _ => rfl) rfl rfl
    rcases hsent.slept (hi.killing hp h0).toRunning with hs | ⟨hst, hs⟩
    · exact .same nofun (fun _ => id) (hkill.trans hs)
    · refine .left nofun (fun _ => id) (.inl ⟨⟨pid.toNat, if_neg ?_⟩, hst⟩) ⟨hs.sleepq, hs.cut⟩
      rintro (hb | hb | hb)
      · exact not_bad_of_pid hp hlive hb
      · exact h0 hb
      · exact hc hb

/-- `sleepms` puts the running process on the queue, unless the delay is 0 or out of range. -/
theorem Sys.Slept.sleep {delay : ℤ} (h : Slept s delay s') (hi : Idle s) :
    SleepStep s (.call (.sleepms delay)) s' := by
  cases h with
  | refused hd => exact .same nofun (fun d ha => by have := ha.1; have := ha.2; omega) (.ret s _)
  | yielded hd hmv =>
    have hsame := (SleepSame.ret s OK).moves hi.toRunning hmv nofun
    exact .same nofun (fun d ha => by have := ha.1; have := ha.2; omega) hsame
  | @blocked _ r hd hins hmv =>
    have hid := hi.ret OK
    have h₁ :=
      ((insertd_contents hid.linked hid.states.currpid hid.curr_live (home_curr hid.curr) delay).of_eq
      hins).2
    obtain ⟨t, ht⟩ := h₁.tables
    have hj := h₁.joined hid.toRunning hid.curr (rfl : (r.2.setState s.currpid .sleep).queuetab = _)
      (by rw [ht]; rfl)
      (by rw [ht]; rfl) (fun x hx => (setState_other hx ..).trans (by rw [ht]; rfl))
        (.inl (setState_same ..)) hmv
    exact .joined rfl hd.le (fun hz => absurd hz hd.ne') hj.of_ret

/-- `recvtime` puts the running process on the queue, unless a message is there or the time is out
of range. -/
theorem Sys.TimedReceive.sleep {maxwait : ℤ} (h : TimedReceive s maxwait s') (hi : Idle s) :
    SleepStep s (.call (.recvtime maxwait)) s' := by
  have hr := hi.toRunning
  cases h with
  | refused hd => exact .same nofun (fun d ha => by have := ha.1; have := ha.2.1; omega) (.ret s _)
  | ended hmsg =>
    refine .same nofun (fun d ha => ?_) (recvtimeEnd_slept s)
    exact absurd (hmsg.symm.trans ha.2.2) nofun
  | @blocked _ r hd hmsg hins hmv =>
    have h₁ :=
      ((insertd_contents hr.linked hr.states.currpid hi.curr_live (home_curr hr.curr) maxwait).of_eq hins).2
    obtain ⟨t, ht⟩ := h₁.tables
    have hj := h₁.joined hr hr.curr (rfl : ((r.2.setPend .recvtime).setState s.currpid .rectim).queuetab = _)
      (by rw [ht]; rfl)
      (by rw [ht]; rfl) (fun x hx => (setState_other hx ..).trans (by rw [ht]; rfl))
        (.inr (setState_same ..)) hmv
    exact .joined rfl hd (fun hz hok => absurd (hmsg.symm.trans (hok.2 hz)) nofun) hj

/-- A message for a process in `recvtime` ends its sleep. -/
theorem Sys.SentCall.sleep {pid : ℤ} {msg : ℕ} (h : SentCall s pid msg s') (hi : Idle s) :
    SleepStep s (.call (.send pid msg)) s' := by
  cases h with
  | refused h => exact .same nofun (fun _ => id) ((SleepSame.ret s OK).trans (.ret _ SYSERR))
  | sent h =>
    rcases h.slept (hi.ret OK).toRunning with hs | ⟨hst, hs⟩
    · exact .same nofun (fun _ => id) ((SleepSame.ret s OK).trans hs)
    · exact .left nofun (fun _ => id) (.inl ⟨⟨msg, rfl⟩, hst⟩) ⟨hs.sleepq, hs.cut⟩

/-- Every step of a plain run does one of these things. -/
theorem sleep_step {k k' : Kernel} {e : Event} (h : PlainStep k e k') : SleepStep k.sys e k'.sys := by
  have hi := h.inv.idle
  have hr := hi.toRunning
  have he := h.effect
  generalize k.sys = s at *
  generalize k'.sys = s' at *
  cases he with
  | create => exact .same nofun (fun _ => id) (create_slept hr _ _)
  | chprio => exact .same nofun (fun _ => id) (chprio_slept s _ _)
  | yield hmv => exact .same nofun (fun _ => id) ((SleepSame.ret s OK).moves hr hmv nofun)
  | semcreate => exact .same nofun (fun _ => id) (semcreate_slept s _)
  | wait h => exact .same nofun (fun _ => id) (h.slept hi)
  | signal h => exact .same nofun (fun _ => id) (h.slept hi)
  | signaln h => exact .same nofun (fun _ => id) (h.slept hi)
  | semreset h => exact .same nofun (fun _ => id) (h.slept hi)
  | semdelete h => exact .same nofun (fun _ => id) (h.slept hi)
  | recvclr => exact .same nofun (fun _ => id) (recvclr_slept s)
  | resume h => exact .same nofun (fun _ => id) (h.slept hr)
  | suspend h => exact .same nofun (fun _ => id) (h.slept hr)
  | kill h => exact h.sleep hi
  | sleepms h => exact h.sleep hi
  | recvtime h => exact h.sleep hi
  | receive h => exact .same nofun (fun _ => id) (h.slept hr)
  | send h => exact h.sleep hi
  | tick h => exact .tick h
  | user hp => exact .same nofun (fun _ => id) (.refl s)
  | suspendEnd hp => exact .same nofun (fun _ => id) ((SleepSame.ret s _).trans (.setPend _ .user))
  | receiveEnd hp => exact .same nofun (fun _ => id) (receiveEnd_slept s)
  | recvtimeEnd hp => exact .same nofun (fun _ => id) (recvtimeEnd_slept s)
  -- A process that is killed leaves the queue if it sleeps.
  | @killEnd pid _ hp h =>
    rcases h.slept hi (hi.states.kill_pid _ _ hp).1 with hs | hs
    · exact .same nofun (fun _ => id) hs
    · exact .left nofun (fun _ => id) (.inr ⟨rfl, hp⟩) hs
  | tickEnd hp hmv => exact .same nofun (fun _ => id) ((SleepSame.setPend s .user).moves hr hmv nofun)

/-! ## Runs -/

/-- The keys lead from now to the ticks at which the sleeping processes are due, and none of them is
overdue. -/
structure Delayed (s : Sys) (c : Clock) : Prop where
  /-- The keys, added up from the head, lead to the ticks. -/
  timed : Timed s.key c.due c.now (s.contents s.sleepq)
  /-- No key is negative. -/
  keys : ∀ p ∈ s.contents s.sleepq, 0 ≤ s.key p
  /-- Each process is due later than now, and within the range of a word. -/
  due : ∀ p ∈ s.contents s.sleepq, c.now < c.due p ∧ c.due p < c.now + 2 ^ 31

/-- While the walk of `insertd` passes keys, nothing overflows. -/
theorem remaining_eq {l : List ℤ} (hk : ∀ x ∈ l, 0 ≤ s.key x)
    (h0 : 0 ≤ d) (hd : d < 2 ^ 31) (hp : s.Passes d l) :
    s.remaining d l = d - (l.map s.key).sum ∧ 0 ≤ s.remaining d l := by
  induction l generalizing d with
  | nil =>
    rw [List.map_nil, List.sum_nil, sub_zero]
    exact ⟨rfl, h0⟩
  | cons x l ih =>
    have hx := hk x List.mem_cons_self
    obtain ⟨hle, hpass⟩ := hp
    have hint : int32 (d - s.key x) = d - s.key x := int32_of_mem (by omega) (by omega)
    rw [hint] at hpass
    have hrest := ih (fun y hy => hk y (List.mem_cons_of_mem _ hy)) (by omega) (by omega) hpass
    rw [show s.remaining d (x :: l) = s.remaining (int32 (d - s.key x)) l from rfl,
      hint, List.map_cons, List.sum_cons]
    exact ⟨by omega, hrest.2⟩

/-- The first process of a list is not before it, nor further back. -/
theorem not_head_of_mem {l r : List ℤ} {x : ℤ} (hnd : (l ++ r).Nodup) (hx : x ∈ l ∨ x ∈ r.tail) :
    x ∉ r.head? := by
  intro hxr
  obtain ⟨r', rfl⟩ := List.head?_eq_some_iff.mp hxr
  obtain ⟨-, hr, hdisj⟩ := List.nodup_append.mp hnd
  rcases hx with hx | hx
  · exact hdisj x hx x List.mem_cons_self rfl
  · exact (List.nodup_cons.mp hr).1 hx

namespace Delayed

variable {c c' : Clock}

/-- The sleeping processes are left alone, and no time passes. -/
theorem same (h : Delayed s c) (hs : SleepSame s s') (hn : c'.now = c.now)
    (hd : ∀ p ∈ s.contents s.sleepq, c'.due p = c.due p) : Delayed s' c' := by
  constructor
  all_goals rw [hs.sleepq, hs.contents]
  · rw [hn]
    exact h.timed.congr hs.key hd
  · intro p hp
    rw [hs.key p hp]
    exact h.keys p hp
  · intro p hp
    rw [hn, hd p hp]
    exact h.due p hp

/-- A process that goes to sleep is put among the others so that each is due at its time. -/
theorem joined (h : Delayed s c) (hi : Running s) (hs : Joined s s' p d)
    (hp : p ∉ s.contents s.sleepq) (h1 : 1 ≤ d)
    (h2 : d < 2 ^ 31) (hn : c'.now = c.now) (hd : ∀ x ∈ s.contents s.sleepq, c'.due x = c.due x)
    (hdp : c'.due p = c.now + d) : Delayed s' c' := by
  obtain ⟨hq, l, r, hl, hl', hpass, hkey, hnext, hrest⟩ := hs
  have hnd := nodup_contents hi.linked hi.linked.sleepq_mem
  have htimed := h.timed
  have hkeys := h.keys
  have hdue := h.due
  rw [hl] at hnd htimed hkeys hdue hrest hd hp
  obtain ⟨hrem, hrem0⟩ := remaining_eq (fun x hx => hkeys x (List.mem_append_left _ hx)) (by omega) h2 hpass
  have hkl : ∀ x ∈ l, s'.key x = s.key x := fun x hx =>
    hrest x (List.mem_append_left _ hx) (not_head_of_mem hnd (.inl hx))
  have hkr : ∀ x ∈ r.tail, s'.key x = s.key x := fun x hx =>
    hrest x (List.mem_append_right _ (List.mem_of_mem_tail hx)) (not_head_of_mem hnd (.inr hx))
  -- The key of the next process stays positive.
  have hnext' : ∀ x ∈ r.head?, s'.key x = s.key x - s'.key p ∧ 0 ≤ s'.key x := by
    intro x hx
    obtain ⟨hlt, he⟩ := hnext x hx
    have hxm := List.mem_append_right l (List.mem_of_mem_head? hx)
    have hle : s.key x < 2 ^ 31 := by
      obtain ⟨r', rfl⟩ := List.head?_eq_some_iff.mp hx
      have hdx := (timed_append.mp htimed).2.1
      have hfin := le_finish (t := c.now) fun y hy => hkeys y (List.mem_append_left (x :: r') hy)
      have := (hdue x hxm).2
      omega
    rw [int32_of_mem (by omega) (by omega)] at he
    rw [hkey, he]
    exact ⟨rfl, by omega⟩
  have htimed' : Timed s'.key c'.due c.now (l ++ p :: r) := by
    have hold := htimed.congr (fun _ _ => rfl) hd
    refine hold.insert ?_ hkl (fun x hx => (hnext' x hx).1) hkr
    unfold finish
    rw [hkey, hrem, hdp]
    ring
  constructor
  all_goals rw [hq, hl']
  · rw [hn]
    exact htimed'
  · intro x hx
    rw [List.mem_append, List.mem_cons] at hx
    rcases hx with hx | rfl | hx
    · rw [hkl x hx]
      exact hkeys x (List.mem_append_left _ hx)
    · rw [hkey]
      exact hrem0
    · by_cases hxr : x ∈ r.head?
      · exact (hnext' x hxr).2
      · rw [hrest x (List.mem_append_right _ hx) hxr]
        exact hkeys x (List.mem_append_right _ hx)
  · intro x hx
    rw [hn]
    by_cases hxp : x = p
    · rw [hxp, hdp]
      omega
    · have hx' : x ∈ l ++ r := by
        simp only [List.mem_append, List.mem_cons] at hx ⊢
        tauto
      rw [hd x hx']
      exact hdue x hx'

/-- A process is taken off before it is due. -/
theorem left (h : Delayed s c) (hi : Running s) (hs : Left s s' p) (hn : c'.now = c.now)
    (hd : ∀ x ∈ s.contents s.sleepq, c'.due x = c.due x) : Delayed s' c' := by
  obtain ⟨hq, l, r, hl, hl', hnext, hrest⟩ := hs
  have hnd := nodup_contents hi.linked hi.linked.sleepq_mem
  have htimed := h.timed
  have hkeys := h.keys
  have hdue := h.due
  rw [hl] at hnd htimed hkeys hdue hd
  have hsub : ∀ {x}, x ∈ l ++ r → x ∈ l ++ p :: r := fun hx => by
    simp only [List.mem_append, List.mem_cons] at hx ⊢
    tauto
  have hnd' : (l ++ r).Nodup := hnd.sublist ((List.sublist_cons_self p r).append_left l)
  have hkl : ∀ x ∈ l, s'.key x = s.key x := fun x hx =>
    hrest x (List.mem_append_left _ hx) (not_head_of_mem hnd' (.inl hx))
  have hkr : ∀ x ∈ r.tail, s'.key x = s.key x := fun x hx =>
    hrest x (List.mem_append_right _ (List.mem_of_mem_tail hx)) (not_head_of_mem hnd' (.inr hx))
  -- The next process is due so soon that the sum of the keys does not overflow.
  have hnext' : ∀ x ∈ r.head?, s'.key x = s.key x + s.key p ∧ 0 ≤ s'.key x := by
    intro x hx
    have he := hnext x hx
    obtain ⟨r', rfl⟩ := List.head?_eq_some_iff.mp hx
    have hrest' := (timed_append.mp htimed).2
    have hdp := hrest'.1
    have hdx := hrest'.2.1
    have hfin := le_finish (t := c.now) fun y hy => hkeys y (List.mem_append_left (p :: x :: r') hy)
    have hp0 := hkeys p (List.mem_append_right _ List.mem_cons_self)
    have hx0 := hkeys x (List.mem_append_right _ (List.mem_cons_of_mem _ List.mem_cons_self))
    have := (hdue x (List.mem_append_right _ (List.mem_cons_of_mem _ List.mem_cons_self))).2
    rw [int32_of_mem (by omega) (by omega)] at he
    exact ⟨he, by omega⟩
  have htimed' : Timed s'.key c'.due c.now (l ++ r) :=
    (htimed.congr (fun _ _ => rfl) hd).erase hkl (fun x hx => (hnext' x hx).1) hkr
  constructor
  all_goals rw [hq, hl']
  · rw [hn]
    exact htimed'
  · intro x hx
    by_cases hxr : x ∈ r.head?
    · exact (hnext' x hxr).2
    · rw [hrest x hx hxr]
      exact hkeys x (hsub hx)
  · intro x hx
    rw [hn, hd x (hsub hx)]
    exact hdue x (hsub hx)

/-- A tick passes for all the sleeping processes. Those that are due are at the front, with no time left. -/
theorem tick (h : Delayed s c) (hi : Running s) {l : List ℤ} {key : ℤ → ℤ} (hl : s.contents s.sleepq = p :: l)
    (hkp : key p = s.key p - 1) (hkl : ∀ x ∈ l, key x = s.key x) (hq : s'.sleepq = s.sleepq)
    (hcont : s'.contents s.sleepq = (p :: l).dropWhile fun x => decide (key x ≤ 0))
    (hkeys : ∀ x ∈ s'.contents s.sleepq, s'.key x = key x) (hn : c'.now = c.now + 1) (hd : c'.due = c.due) :
    Delayed s' c' ∧ ∀ x ∈ p :: l, x ∈ (p :: l).takeWhile (fun x => decide (key x ≤ 0)) ↔
      c.due x = c.now + 1 := by
  have hnd := nodup_contents hi.linked hi.linked.sleepq_mem
  have htimed := h.timed
  have hold := h.keys
  have hdue := h.due
  rw [hl] at hnd htimed hold hdue
  have htimed₁ : Timed key c.due (c.now + 1) (p :: l) := by
    refine htimed.shift (fun x hx => ?_) hkl
    rw [← Option.some.inj hx, hkp]
    ring
  -- The first process is not due yet, so it has a tick left to lose.
  have hkey₁ : ∀ x ∈ p :: l, 0 ≤ key x := by
    intro x hx
    rcases List.mem_cons.mp hx with rfl | hx
    · have := (hdue x List.mem_cons_self).1
      have := htimed.1
      omega
    · rw [hkl x hx]
      exact hold x (List.mem_cons_of_mem _ hx)
  have htake := fun {x} (hx : x ∈ p :: l) => htimed₁.mem_takeWhile hkey₁ hx
  refine ⟨?_, fun x hx => htake hx⟩
  have hsplit := List.takeWhile_append_dropWhile (p := fun x => decide (key x ≤ 0)) (l := p :: l)
  have hmem : ∀ {x}, x ∈ (p :: l).dropWhile (fun x => decide (key x ≤ 0)) → x ∈ p :: l :=
    fun hx => (List.dropWhile_sublist _).mem hx
  rw [← hsplit] at hnd
  have hdisj := (List.nodup_append.mp hnd).2.2
  rw [hcont] at hkeys
  constructor
  all_goals rw [hq, hcont]
  · rw [hn, hd]
    exact (htimed₁.dropWhile hkey₁).congr hkeys fun _ _ => rfl
  · intro x hx
    rw [hkeys x hx]
    exact hkey₁ x (hmem hx)
  · intro x hx
    have hne : c.due x ≠ c.now + 1 := fun he => hdisj x ((htake (hmem hx)).mpr he) x hx rfl
    have := hdue x (hmem hx)
    rw [hn, hd]
    omega

end Delayed

/-- The tables when a tick has been taken from the first sleeping process. -/
theorem ticked_key (s : Sys) (p v : ℤ) :
    (s.ticked.setKey p v).sleepq = s.sleepq ∧ (s.ticked.setKey p v).readylist = s.readylist ∧
      (∀ q, (s.ticked.setKey p v).contents q = s.contents q) ∧ (s.ticked.setKey p v).key p = v ∧
      (∀ x, x ≠ p → (s.ticked.setKey p v).key x = s.key x) ∧ (s.ticked.setKey p v).state = s.state := by
  obtain ⟨a, b, he⟩ := s.ticked_eq
  have hq : s.ticked.queuetab = s.queuetab := by
    rw [he]
    rfl
  refine ⟨by rw [he]; rfl, by rw [he]; rfl, fun q => ?_, setKey_key_self .., fun x hx => ?_, by rw [he]; rfl⟩
  · rw [setKey_contents]
    exact contents_of_queuetab hq q
  · rw [setKey_key hx]
    unfold Sys.key
    rw [hq]

/-- What a tick does to the queue of sleeping processes. -/
theorem ticked_delayed {c c' : Clock} (h : Delayed s c)
    (hi : Idle s) (ht : Ticked s s') (hn : c'.now = c.now + 1)
    (hd : c'.due = c.due) : Delayed s' c' ∧
      ∀ p ∈ s.contents s.sleepq, if c.due p = c.now + 1 then s'.Active p else p ∈ s'.contents s'.sleepq := by
  have hr := hi.toRunning
  have hnd := nodup_contents hr.linked hr.linked.sleepq_mem
  -- The first key is a positive 32-bit number, so nothing overflows.
  have hfirst : ∀ {p l}, s.contents s.sleepq = p :: l → int32 (s.key p - 1) = s.key p - 1 := by
    intro p l hl
    have htimed := h.timed
    have hdue := h.due
    rw [hl] at htimed hdue
    have := hdue p List.mem_cons_self
    have := htimed.1
    exact int32_of_mem (by omega) (by omega)
  have hother : ∀ {p l}, s.contents s.sleepq = p :: l → ∀ x ∈ l, x ≠ p := by
    rintro p l hl x hx rfl
    rw [hl] at hnd
    exact (List.nodup_cons.mp hnd).1 hx
  cases ht with
  | none hl =>
    have hnil : s.ticked.contents s.ticked.sleepq = [] := by
      obtain ⟨a, b, he⟩ := s.ticked_eq
      rw [he]
      exact (contents_of_queuetab rfl _).trans hl
    refine ⟨?_, by rw [hl]; exact nofun⟩
    constructor
    all_goals rw [hnil]
    · trivial
    · exact nofun
    · exact nofun
  | @keep p l hl hk =>
    obtain ⟨hq, -, hcont, hself, hrest, -⟩ := ticked_key s p (int32 (s.key p - 1))
    generalize s.ticked.setKey p (int32 (s.key p - 1)) = s₁ at *
    have hpos : ¬ s₁.key p ≤ 0 := by
      rw [hself]
      exact hk
    have hdrop := List.dropWhile_cons_of_neg (p := fun x => decide (s₁.key x ≤ 0))
      (l := l) (by simpa using hpos)
    have htake := List.takeWhile_cons_of_neg (p := fun x => decide (s₁.key x ≤ 0))
      (l := l) (by simpa using hpos)
    obtain ⟨hok, hdue⟩ := h.tick hr hl (hself.trans (hfirst hl)) (fun x hx => hrest x (hother hl x hx)) hq
      (by rw [hcont, hl, hdrop]) (fun _ _ => rfl) hn hd
    refine ⟨hok, fun x hx => ?_⟩
    rw [hl] at hx
    rw [htake] at hdue
    rw [if_neg fun he => List.not_mem_nil ((hdue x hx).mpr he), hq, hcont, hl]
    exact hx
  | @wake p l _ hl hk hm =>
    obtain ⟨hq, hrl, hcont, hself, hrest, hstate⟩ := ticked_key s p (int32 (s.key p - 1))
    generalize s.ticked.setKey p (int32 (s.key p - 1)) = s₁ at *
    have hsplit := List.takeWhile_append_dropWhile (p := fun x => decide (s₁.key x ≤ 0)) (l := p :: l)
    have hq' : s'.sleepq = s.sleepq := hm.sleepq.trans hq
    have hcont' : s'.contents s.sleepq = (p :: l).dropWhile fun x => decide (s₁.key x ≤ 0) := by
      rw [hm.queue _ hr.linked.sleepq_mem (by rw [hrl]; exact sleepq_ne_readylist hr.linked), hcont, hl]
      rw [hl, ← hsplit] at hnd
      have := filter_not_mem_append hnd
      rwa [hsplit] at this
    -- The processes that stay on the queue keep their keys.
    have hkeys : ∀ x ∈ s'.contents s.sleepq, s'.key x = s₁.key x := by
      intro x hx
      rw [hcont'] at hx
      refine hm.key x (fun hx' => ?_) ?_
      · rw [hl, ← hsplit] at hnd
        exact (List.nodup_append.mp hnd).2.2 x hx' x hx rfl
      · unfold Active
        rw [hstate]
        exact sleepq_not_active hr (by rw [hl]; exact (List.dropWhile_sublist _).mem hx)
    obtain ⟨hok, hdue⟩ :=
      h.tick hr hl (hself.trans (hfirst hl)) (fun x hx => hrest x (hother hl x hx)) hq' hcont' hkeys
      hn hd
    refine ⟨hok, fun x hx => ?_⟩
    rw [hl] at hx
    split_ifs with he
    · exact hm.ready x ((hdue x hx).mpr he)
    · have hx' := hx
      rw [← hsplit, List.mem_append] at hx'
      rw [hq', hcont']
      exact hx'.resolve_left fun htake => he ((hdue x hx).mp htake)

/-- A step that asks for no bad delay keeps the times of the sleeping processes. -/
theorem Delayed.step {k k' : Kernel} {e : Event} {c : Clock} (h : Delayed k.sys c) (hs : PlainStep k e k')
    (hok : DelayOk k.sys e) : Delayed k'.sys (c.note k e k') := by
  have hi := hs.inv.idle
  have hnot := currpid_not_asleep hi.toRunning
  have hticks : ∀ {e : Event}, e ≠ .tick → e.ticks = 0 := by
    intro e he
    cases e with
    | tick => exact absurd rfl he
    | _ => rfl
  -- The process whose time is set is not on the queue.
  have hdue : ∀ p ∈ k.sys.contents k.sys.sleepq, (c.note k e k').due p = c.due p := by
    intro p hp
    unfold Clock.note Clock.after
    dsimp only
    cases e.delay with
    | none => rfl
    | some d => exact if_neg fun he : p = k.sys.currpid => hnot (he ▸ hp)
  have hnow : e ≠ .tick → (c.note k e k').now = c.now := fun he => by
    unfold Clock.note Clock.after
    dsimp only
    rw [hticks he, add_zero]
  cases sleep_step hs with
  | same he hd hsame => exact h.same hsame (hnow he) hdue
  | @joined e _ d hd h0 hz hj =>
    have he : e ≠ .tick := by
      rintro rfl
      cases hd
    have hlt : d < 2 ^ 31 := by
      unfold Event.delay at hd
      split at hd
      · injection hd with hd
        rw [← hd]
        exact hok
      · injection hd with hd
        rw [← hd]
        exact hok.1
      · cases hd
    refine h.joined hi.toRunning hj hnot ?_ hlt (hnow he) hdue ?_
    · by_contra hlt'
      exact hz (by omega) hok
    · unfold Clock.note Clock.after
      dsimp only
      rw [hd]
      exact if_pos rfl
  | left he hd hw hl => exact h.left hi.toRunning hl (hnow he) hdue
  | tick ht => exact (ticked_delayed h hi ht (show (c.note k .tick k').now = c.now + 1 from rfl) rfl).1

/-- At boot no process sleeps, so all of them are due in time. -/
theorem sysinit_delayed (b : Boot) : Delayed (sysinit b).sys ⟨0, fun _ => 0⟩ := by
  have hnil : (sysinit b).sys.contents (sysinit b).sys.sleepq = [] := by
    rw [List.eq_nil_iff_forall_not_mem]
    intro p hp
    have hst := ((mem_sleepq (sysinit_idle b).toRunning).mp hp).2
    rw [sysinit_proc] at hst
    split_ifs at hst <;> exact hst.elim nofun nofun
  constructor
  all_goals rw [hnil]
  · trivial
  · exact nofun
  · exact nofun

/-- A state of such a run can be reached by a plain run. -/
theorem DelayRun.plain {k : Kernel} {c : Clock} (h : DelayRun k c) : k.PlainReach :=
  (Kernel.Noted.reach h).mono fun _ _ he => he.1

/-- In every state of a run the queue holds the sleeping processes with their times. -/
theorem delayed_inv {k : Kernel} {c : Clock} (h : DelayRun k c) : Delayed k.sys c := by
  induction h with
  | boot b hz => exact sysinit_delayed b
  | step hk ha hs ih => exact ih.step (plain_step (DelayRun.plain hk) ha.1 hs) ha.2

/-- The keys from the head of the queue up to a process add up to the ticks that it has left, which
is one at least. -/
def SumsOk (s : Sys) (c : Clock) : Prop :=
  ∀ l p r, s.contents s.sleepq = l ++ p :: r → ((l ++ [p]).map s.key).sum = c.due p - c.now ∧ c.now < c.due p

/-- What a step does to the sleeping processes: a tick makes exactly those ready that are due at it,
no other step takes one off that is neither sent a message nor killed, and one that asks for a delay
is due when the delay is over. -/
structure OnTime (s s' : Sys) (e : Event) (c : Clock) : Prop where
  /-- A tick makes exactly those ready that are due at it. -/
  tick : e = .tick → ∀ p ∈ s.contents s.sleepq,
    if c.due p = c.now + 1 then s'.Active p else p ∈ s'.contents s'.sleepq
  /-- No other step takes a process off that is neither sent a message nor killed. -/
  kept : e ≠ .tick → ∀ p ∈ s.contents s.sleepq, p ∈ s'.contents s'.sleepq ∨
    (∃ msg, s.sends e = some (p, msg)) ∧ s.state p = .rectim ∨ e = .cont ∧ s.pend s.currpid = .kill p
  /-- Who asks for a delay is due when it is over. -/
  asked : ∀ d, AsksDelay s d e → s.currpid ∈ s'.contents s'.sleepq ∧ (c.after s e).due s.currpid = c.now + d

/-- A process that asks for a delay makes a call with that delay. -/
theorem AsksDelay.delay {e : Event} (h : AsksDelay s d e) : e.delay = some d := by
  unfold AsksDelay at h
  split at h
  · exact congrArg some h.1
  · exact congrArg some h.1
  · exact h.elim

/-- After every step each process that wakes up is due, and each that sleeps on is not. -/
theorem onTime {k k' : Kernel} {e : Event} {c : Clock} (h : Delayed k.sys c) (hs : PlainStep k e k') :
    OnTime k.sys k'.sys e c := by
  have hi := hs.inv.idle
  have hnotick : ∀ {P : Prop}, e ≠ .tick → e = .tick → P := fun hne he => absurd he hne
  have hstep := sleep_step hs
  generalize k'.sys = s' at *
  cases hstep with
  -- No process goes to sleep or wakes up.
  | same he hd hsame =>
    refine ⟨hnotick he, fun _ p hp => .inl ?_, fun d hask => absurd hask (hd d)⟩
    rw [hsame.sleepq, hsame.contents]
    exact hp
  -- The process that goes to sleep is put among the others, which stay.
  | @joined e _ d hd h0 hz hj =>
    obtain ⟨hq, l, r, hl, hl', -⟩ := hj
    refine ⟨?_, fun _ p hp => .inl ?_, fun d' hask => ⟨?_, ?_⟩⟩
    · rintro rfl
      cases hd
    · rw [hl, List.mem_append] at hp
      rw [hq, hl', List.mem_append, List.mem_cons]
      tauto
    · rw [hq, hl']
      exact List.mem_append_right _ List.mem_cons_self
    · unfold Clock.after
      dsimp only
      rw [hask.delay]
      exact if_pos rfl
  -- One process leaves the queue; the others stay.
  | @left e _ p he hd hw hl =>
    obtain ⟨hq, l, r, hl, hl', -⟩ := hl
    refine ⟨hnotick he, fun _ x hx => ?_, fun d hask => absurd hask (hd d)⟩
    by_cases hxp : x = p
    · rw [hxp]
      exact .inr hw
    · rw [hl, List.mem_append, List.mem_cons] at hx
      rw [hq, hl', List.mem_append]
      tauto
  | tick ht =>
    refine ⟨fun _ => ?_, fun he => absurd rfl he, fun _ hask => hask.elim⟩
    exact (ticked_delayed h hi ht (show (c.after k.sys .tick).now = c.now + 1 from rfl) rfl).2

/-- **Delays are kept** in every run in which no process waits for a message for no time at all: the
keys add up to the ticks that the processes have left, and a process is made ready by the tick at
which its delay is over. -/
theorem delays_ok {k : Kernel} {c : Clock} (h : DelayRun k c) :
    SumsOk k.sys c ∧ ∀ e k', e.Plain → DelayOk k.sys e → k.Step e k' → OnTime k.sys k'.sys e c := by
  have hd := delayed_inv h
  refine ⟨fun l p r hl => ?_, fun e k' he _ hs => onTime hd (plain_step h.plain he hs)⟩
  have htimed := hd.timed
  have hdue := hd.due
  rw [hl] at htimed hdue
  exact ⟨sum_eq htimed, (hdue p (List.mem_append_right _ List.mem_cons_self)).1⟩

instance (s : Sys) : (e : Event) → Decidable (DelayOk s e)
  | .call (.sleepms delay) => inferInstanceAs (Decidable (delay < 2 ^ 31))
  | .call (.recvtime maxwait) =>
    inferInstanceAs (Decidable (maxwait < 2 ^ 31 ∧ (maxwait = 0 → (s.proctab s.currpid).prhasmsg = true)))
  | .call (.create _ _) | .call (.resume _) | .call (.suspend _) | .call
    (.kill _) | .call (.chprio _ _) | .call .yield
  | .call (.semcreate _) | .call (.wait _) | .call (.signal _) | .call
    (.signaln _ _) | .call (.semreset _ _) | .call (.semdelete _)
  | .call .receive | .call .recvclr | .call (.send _ _) | .call
    (.vcreate _ _) | .call (.vmalloc _) | .call (.vfree _ _)
  | .call .freeFfsPages | .call (.allocatedVirtualPages _) | .call
    (.usedFfsFrames _) | .fault _ | .tick | .cont => .isTrue trivial

/-- One process sleeps for two ticks, and another one waits for a message for some time. -/
def delayEvents (maxwait : ℤ) : List Event :=
  [.call (.create 1024 20), .call (.resume 1), .call (.create 1024 15), .call (.resume 2), .call (.sleepms 2),
    .call (.recvtime maxwait)]

set_option maxRecDepth 100000 in
/-- Two processes sleep, for two ticks and for five. -/
theorem delays_ok_two : ∃ k c, DelayRun k c ∧ k.sys.contents k.sys.sleepq = [1, 2] ∧ c.due 2 = c.now + 5 ∧
    SumsOk k.sys c := by
  have hruns : (sysinit clearedBoot).Runs (fun k e => e.Plain ∧ DelayOk k.sys e) (delayEvents 5) := by
    decide +kernel
  have hcont : ((sysinit clearedBoot).afterAll (delayEvents 5)).sys.contents
      ((sysinit clearedBoot).afterAll (delayEvents 5)).sys.sleepq = [1, 2] := by decide +kernel
  have hdue : ((sysinit clearedBoot).noteAll Clock.note (delayEvents 5) ⟨0, fun _ => 0⟩).due 2 =
      ((sysinit clearedBoot).noteAll Clock.note (delayEvents 5) ⟨0, fun _ => 0⟩).now + 5 := by decide +kernel
  have hboot : DelayRun (sysinit clearedBoot) ⟨0, fun _ => 0⟩ := .boot clearedBoot fun _ _ _ => rfl
  generalize sysinit clearedBoot = k at *
  have hrun : DelayRun _ _ := Kernel.Noted.runs_noted hboot hruns
  exact ⟨_, _, hrun, hcont, hdue, (delays_ok hrun).1⟩

set_option maxRecDepth 100000 in
/-- `recvtime(0)` makes the process behind it late: its two ticks have passed, and it still sleeps. -/
theorem recvtime_late : ∃ k c, Kernel.Noted (fun _ e => e.Plain) ⟨0, fun _ => 0⟩ Clock.note k c ∧
    k.sys.contents k.sys.sleepq = [1] ∧ c.due 1 = c.now ∧ ¬ SumsOk k.sys c := by
  have hruns : (sysinit clearedBoot).Runs (fun _ e => e.Plain) (delayEvents 0 ++ [.tick, .cont, .tick]) := by
    decide +kernel
  have hcont : ((sysinit clearedBoot).afterAll (delayEvents 0 ++ [.tick, .cont, .tick])).sys.contents
      ((sysinit clearedBoot).afterAll (delayEvents 0 ++ [.tick, .cont, .tick])).sys.sleepq = [1] := by
        decide +kernel
  have hdue : ((sysinit clearedBoot).noteAll Clock.note (delayEvents 0 ++ [.tick, .cont, .tick])
      ⟨0, fun _ => 0⟩).due 1 = ((sysinit clearedBoot).noteAll Clock.note
        (delayEvents 0 ++ [.tick, .cont, .tick])
      ⟨0, fun _ => 0⟩).now := by decide +kernel
  have hboot : Kernel.Noted (fun _ e => e.Plain) ⟨0, fun _ => 0⟩ Clock.note
      (sysinit clearedBoot) ⟨0, fun _ => 0⟩ :=
    .boot clearedBoot fun _ _ _ => rfl
  generalize sysinit clearedBoot = k at *
  refine ⟨_, _, Kernel.Noted.runs_noted hboot hruns, hcont, hdue, fun hs => ?_⟩
  have := (hs [] 1 [] hcont).2
  omega

end

end Xinu
