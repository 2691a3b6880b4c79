import Xinu.Kernel.Effects
import Xinu.Kernel.QueueRuns

/-!
# The effects of the steps

`PlainEffect s e s'` puts together what the events of a plain run do to the tables of the kernel:
the effects of the system calls, and of the ends of those in which the processor has changed hands.
-/

namespace Xinu

open LinkedQueue

/-- A computation that is known to end in a state. -/
theorem Res.Ends.of_eq {α : Type} {r : Res α} {P : α → Prop}
    {x : α} (h : r.Ends P) (hr : r = .ok x) : P x := by
  obtain ⟨y, hy, hp⟩ := h
  rw [hr] at hy
  injection hy with he
  rw [he]
  exact hp

namespace Sys

variable {s s' : Sys}

/-! ## Creating -/

/-- The entry of a new process. -/
def newEntry (s : Sys) (pid : ℤ) (priority : Int16) (saddr ssize page_addr : ℕ) : Procent :=
  { s.proctab pid with
    prstate := .susp, page_addr := page_addr, prprio := priority, prstkbase := saddr, prstklen := ssize
    prsem := -1, prparent := s.currpid, prhasmsg := false }

/-- The length of the stack that a new process gets. -/
def stacklen (ssize : ℕ) : ℕ := roundmb (if ssize < MINSTK then MINSTK else ssize)

/-- `create` up to its answer. -/
inductive NewProcess (s : Sys) (ssize : ℕ) (priority : Int16) (page_addr : ℕ) : Option ℤ × Sys → Prop
  | none (n : ℤ) : NewProcess s ssize priority page_addr (none, { s with nextpid := n })
  | some {pid n : ℤ} {saddr : ℕ} {memlist : List (ℕ × ℕ)} (hp : IsPid pid) (hf : s.state pid = .free)
    (hstk : getstk s.memlist (stacklen ssize) = .some (saddr, memlist)) :
    NewProcess s ssize priority page_addr (.some pid, { s with
      proctab := Function.update s.proctab pid (s.newEntry pid priority saddr (stacklen ssize) page_addr)
      nextpid := n, prcount := s.prcount + 1, memlist := memlist
      ie := Function.update s.ie pid true, pend := Function.update s.pend pid .user })

/-- A new process has a free entry, and a stack from the free blocks. -/
theorem newProcess_effect (s : Sys) (ssize : ℕ) (priority : Int16) (page_addr : ℕ) :
    NewProcess s ssize priority page_addr (s.newProcess ssize priority page_addr) := by
  unfold newProcess newpid
  dsimp only
  rw [show roundmb (if ssize < MINSTK then MINSTK else ssize) = stacklen ssize from rfl]
  split_ifs with hprio
  · exact .none s.nextpid
  · cases hpid : (s.newpidLoop NPROC.toNat s.nextpid).1 with
    | none => exact .none _
    | some pid =>
      obtain ⟨hp, hf⟩ := newpidLoop_spec _ _ hpid
      dsimp only
      cases hstk : getstk s.memlist (stacklen ssize) with
      | none => exact .none _
      | some r => exact .some hp hf hstk

/-! ## The end of `kill` -/

/-- `kill(pid)` behind the message to the parent. -/
inductive KillEnded (s : Sys) (pid : ℤ) : Sys → Prop
  | unqueued (l : List (ℕ × ℕ)) (hst : s.state pid = .susp ∨ s.state pid = .recv ∨ s.state pid = .free) :
    KillEnded s pid (({ s with memlist := l }.setState pid .free).setPend .user)
  | asleep (l : List (ℕ × ℕ)) (hst : s.state pid = .sleep ∨ s.state pid = .rectim) :
    KillEnded s pid ((({ s with memlist := l }.unsleep pid).setState pid .free).setPend .user)
  | waiting (l : List (ℕ × ℕ)) (hst : s.state pid = .wait) :
    KillEnded s pid (((({ s with memlist := l }.signalCount (s.proctab pid).prsem).getitem pid).setState
      pid .free).setPend .user)
  | ready (l : List (ℕ × ℕ)) (hst : s.state pid = .ready) :
    KillEnded s pid ((({ s with memlist := l }.getitem pid).setState pid .free).setPend .user)
  | self {s' : Sys} (l : List (ℕ × ℕ)) (c : ℕ) (hc : pid = s.currpid)
    (hm : Moves [] ({ s with memlist := l, cr3 := c }.setState pid .free) s') : KillEnded s pid s'

end Sys

open Sys

/-- The end of `kill` does one of these things, with the stack in the list of free blocks. -/
theorem killEnd_effect {k k' : Kernel} (h : Idle k.sys) {pid : ℤ} (hp : IsPid pid) (hn : pid ≠ NULLPROC)
    (he : k.killEnd pid = .ok k') : KillEnded k.sys pid k'.sys := by
  obtain ⟨l, hl⟩ := k.sys.freestk_memlist (k.sys.proctab pid).prstkbase (k.sys.proctab pid).prstklen
  unfold Kernel.killEnd at he
  dsimp only at he
  rw [hl] at he
  have hstate : k.sys.state pid = (k.sys.proctab pid).prstate := rfl
  -- What is done depends on the state of the process.
  cases hst : (k.sys.proctab pid).prstate with
  | curr =>
    rw [hst] at he hstate
    obtain rfl := h.states.curr_only pid hp hstate
    dsimp only at he
    cases hvm : killVm k.cpu (k.sys.proctab k.sys.currpid).page_addr with
    | ok c =>
      rw [hvm] at he
      simp only [Res.ok_bind] at he
      -- The memory is released, then another process runs.
      have hi : Idle { k.sys with memlist := l, cr3 := c.cr3 } :=
        h.congr rfl rfl rfl (fun _ => rfl) rfl (fun _ => rfl) (fun _ => rfl) rfl rfl
      have hset := block_settled hi hn (.inr (.inr rfl))
      obtain ⟨s', hs', hm⟩ := resched_moves hset
      change (({ k.sys with memlist := l, cr3 := c.cr3 }.setState k.sys.currpid .free).resched >>=
        _) = _ at he
      change ({ k.sys with memlist := l, cr3 := c.cr3 }.setState k.sys.currpid .free).resched = _ at hs'
      rw [hs'] at he
      simp only [Res.ok_bind] at he
      injection he with he
      rw [← he]
      exact .self l c.cr3 rfl hm
    | hang =>
      rw [hvm] at he
      cases he
    | wild =>
      rw [hvm] at he
      cases he
  | free =>
    rw [hst] at he hstate
    injection he with he
    rw [← he]
    exact .unqueued l (.inr (.inr hstate))
  | susp =>
    rw [hst] at he hstate
    injection he with he
    rw [← he]
    exact .unqueued l (.inl hstate)
  | recv =>
    rw [hst] at he hstate
    injection he with he
    rw [← he]
    exact .unqueued l (.inr (.inl hstate))
  | sleep =>
    rw [hst] at he hstate
    injection he with he
    rw [← he]
    exact .asleep l (.inl hstate)
  | rectim =>
    rw [hst] at he hstate
    injection he with he
    rw [← he]
    exact .asleep l (.inr hstate)
  | wait =>
    rw [hst] at he hstate
    injection he with he
    rw [← he]
    exact .waiting l hstate
  | ready =>
    rw [hst] at he hstate
    injection he with he
    rw [← he]
    exact .ready l hstate

/-! ## Events -/

namespace Sys

/-- What an event of a plain run does. -/
inductive PlainEffect (s : Sys) : Event → Sys → Prop
  | create {ssize : ℕ} {priority : Int16} :
    PlainEffect s (.call (.create ssize priority)) (s.create ssize priority)
  | resume {pid : ℤ} {s' : Sys} (h : Resumed s pid s') : PlainEffect s (.call (.resume pid)) s'
  | suspend {pid : ℤ} {s' : Sys} (h : Suspended s pid s') : PlainEffect s (.call (.suspend pid)) s'
  | kill {pid : ℤ} {s' : Sys} (h : KillStarted s pid s') : PlainEffect s (.call (.kill pid)) s'
  | chprio {pid : ℤ} {newprio : Int16} : PlainEffect s (.call (.chprio pid newprio)) (s.chprio pid newprio)
  | yield {s' : Sys} (h : Moves [] (s.ret OK) s') : PlainEffect s (.call .yield) s'
  | semcreate {count : ℤ} : PlainEffect s (.call (.semcreate count)) (s.semcreate count)
  | wait {sem : ℤ} {s' : Sys} (h : Waited s sem s') : PlainEffect s (.call (.wait sem)) s'
  | signal {sem : ℤ} {s' : Sys} (h : Signalled s sem 1 s') : PlainEffect s (.call (.signal sem)) s'
  | signaln {sem count : ℤ} {s' : Sys} (h : Signalled s sem count.toNat s') :
    PlainEffect s (.call (.signaln sem count)) s'
  | semreset {sem count : ℤ} {s' : Sys} (h : SemReset s sem count s') :
    PlainEffect s (.call (.semreset sem count)) s'
  | semdelete {sem : ℤ} {s' : Sys} (h : SemDeleted s sem s') : PlainEffect s (.call (.semdelete sem)) s'
  | sleepms {delay : ℤ} {s' : Sys} (h : Slept s delay s') : PlainEffect s (.call (.sleepms delay)) s'
  | recvtime {maxwait : ℤ} {s' : Sys} (h : TimedReceive s maxwait s') :
    PlainEffect s (.call (.recvtime maxwait)) s'
  | receive {s' : Sys} (h : Received s s') : PlainEffect s (.call .receive) s'
  | recvclr : PlainEffect s (.call .recvclr) s.recvclr
  | send {pid : ℤ} {msg : ℕ} {s' : Sys} (h : SentCall s pid msg s') : PlainEffect s (.call (.send pid msg)) s'
  | tick {s' : Sys} (h : Ticked s s') : PlainEffect s .tick s'
  | user (hp : s.pend s.currpid = .user) : PlainEffect s .cont s
  | suspendEnd {pid : ℤ} (hp : s.pend s.currpid = .suspend pid) : PlainEffect s .cont (s.suspendEnd pid)
  | receiveEnd (hp : s.pend s.currpid = .receive) : PlainEffect s .cont s.receiveEnd
  | recvtimeEnd (hp : s.pend s.currpid = .recvtime) : PlainEffect s .cont s.recvtimeEnd
  | killEnd {pid : ℤ} {s' : Sys} (hp : s.pend s.currpid = .kill pid) (h : KillEnded s pid s') :
    PlainEffect s .cont s'
  | tickEnd {s' : Sys} (hp : s.pend s.currpid = .clk) (h : Moves [] (s.setPend .user) s') :
    PlainEffect s .cont s'

end Sys

/-- A plain system call has its effect. -/
theorem call_effect {k : Kernel} (h : Idle k.sys) {c : Call} (hc : c.Plain)
    (hn : k.sys.currpid = NULLPROC → c.ofNull) (fuel junk : ℕ) :
    (k.call fuel junk c).Ends fun k' => PlainEffect k.sys (.call c) k'.sys := by
  have hlift : ∀ {r : Res Sys} {P : Sys → Prop}, r.Ends P → (∀ s', P s' → PlainEffect k.sys (.call c) s') →
      (k.lift r).Ends fun k' => PlainEffect k.sys (.call c) k'.sys :=
    fun hr hP => (lift_ends hr).mono fun _ hk => hP _ hk.1
  cases c with
  | create ssize priority => exact .ok .create
  | resume pid => exact hlift (resume_effect h pid) fun _ => .resume
  | suspend pid => exact hlift (suspend_effect h pid) fun _ => .suspend
  | kill pid => exact hlift (killStart_effect h pid) fun _ => .kill
  | chprio pid newprio => exact .ok .chprio
  | yield => exact hlift (yield_effect h) fun _ => .yield
  | semcreate count => exact .ok .semcreate
  | wait sem => exact hlift (wait_effect h hn sem) fun _ => .wait
  | signal sem => exact hlift (signal_effect h sem) fun _ => .signal
  | signaln sem count => exact hlift (signaln_effect h sem count) fun _ => .signaln
  | semreset sem count => exact hlift (semreset_effect h sem count) fun _ => .semreset
  | semdelete sem => exact hlift (semdelete_effect h sem) fun _ => .semdelete
  | sleepms delay => exact hlift (sleepms_effect h hn delay) fun _ => .sleepms
  | recvtime maxwait => exact hlift (recvtime_effect h hn maxwait) fun _ => .recvtime
  | receive => exact hlift (receive_effect h hn) fun _ => .receive
  | recvclr => exact .ok .recvclr
  | send pid msg => exact hlift (sendCall_effect h pid msg) fun _ => .send
  | vcreate => exact hc.elim
  | vmalloc => exact hc.elim
  | vfree => exact hc.elim
  | freeFfsPages => exact hc.elim
  | allocatedVirtualPages => exact hc.elim
  | usedFfsFrames => exact hc.elim

/-- A change of the tables alone leaves the tables that it computes. -/
theorem lift_eq {k k' : Kernel} {r : Res Sys} (h : k.lift r = .ok k') : r = .ok k'.sys := by
  unfold Kernel.lift at h
  cases r with
  | ok s =>
    injection h with h
    rw [← h]
  | hang => cases h
  | wild => cases h

/-- The end of a call or an interrupt has its effect. -/
theorem cont_effect {k k' : Kernel} (h : Idle k.sys) (he : k.cont = .ok k') :
    PlainEffect k.sys .cont k'.sys := by
  unfold Kernel.cont at he
  -- What the running process was in the middle of says how it goes on.
  cases hp : k.sys.pend k.sys.currpid with
  | user =>
    rw [hp] at he
    injection he with he
    rw [← he]
    exact .user hp
  | suspend pid =>
    rw [hp] at he
    injection he with he
    rw [← he]
    exact .suspendEnd hp
  | receive =>
    rw [hp] at he
    injection he with he
    rw [← he]
    exact .receiveEnd hp
  | recvtime =>
    rw [hp] at he
    injection he with he
    rw [← he]
    exact .recvtimeEnd hp
  | kill pid =>
    rw [hp] at he
    obtain ⟨hpid, hn⟩ := h.states.kill_pid _ _ hp
    exact .killEnd hp (killEnd_effect h hpid hn he)
  | clk =>
    rw [hp] at he
    exact .tickEnd hp ((tickEnd_effect h).of_eq (lift_eq he))

/-- What a step of a plain run does. -/
structure PlainStep (k : Kernel) (e : Event) (k' : Kernel) : Prop where
  /-- The invariant holds before the step. -/
  inv : PlainInv k
  /-- It holds behind it. -/
  inv' : PlainInv k'
  /-- The event can happen. -/
  enabled : k.Enabled e
  /-- What the event does to the tables. -/
  effect : PlainEffect k.sys e k'.sys

/-- A step of a plain run has its effect. -/
theorem plain_step {k k' : Kernel} {e : Event} (hk : k.PlainReach) (hp : e.Plain) (hs : k.Step e k') :
    PlainStep k e k' := by
  have hinv := plain_inv hk
  obtain ⟨-, he, fuel, junk, hs⟩ := hs
  obtain ⟨k₁, hk₁, hinv', -⟩ := exec_plain hinv he hp fuel junk
  rw [hk₁] at hs
  rcases hs with hs | hs
  · injection hs with hs
    rw [hs] at hk₁ hinv'
    refine ⟨hinv, hinv', he, ?_⟩
    cases e with
    | call c => exact (call_effect hinv.idle hp he.2.2 fuel junk).of_eq hk₁
    | fault v => exact hp.elim
    | tick => exact .tick ((tick_effect hinv.idle).of_eq (lift_eq hk₁))
    | cont => exact cont_effect hinv.idle hk₁
  · cases hs

instance : (c : Call) → Decidable c.Plain
  | .vcreate _ _ | .vmalloc _ | .vfree _ _ | .freeFfsPages | .allocatedVirtualPages
    _ | .usedFfsFrames _ => .isFalse id
  | .create _ _ | .resume _ | .suspend _ | .kill _ | .chprio
    _ _ | .yield | .semcreate _ | .wait _ | .signal _ | .signaln _ _
  | .semreset _ _ | .semdelete _ | .sleepms _ | .recvtime _ | .receive | .recvclr | .send _ _ =>
    .isTrue trivial

instance : (e : Event) → Decidable e.Plain
  | .call c => inferInstanceAs (Decidable c.Plain)
  | .fault _ => .isFalse id
  | .tick | .cont => .isTrue trivial

/-! ## Runs with notes -/

/-- The states that the machine can reach by events that are allowed, each with what has been noted
on the way there. -/
inductive Kernel.Noted {G : Type} (Allowed : Kernel → Event → Prop)
    (init : G) (note : Kernel → Event → Kernel → G → G) :
    Kernel → G → Prop
  | boot (b : Boot) (hz : ∀ w, PT_FRAME * MAX_PT_SIZE ≤ w → w < (PT_FRAME + MAX_PT_SIZE) * MAX_PT_SIZE →
      b.mem w = Entry.zero) : Kernel.Noted Allowed init note (sysinit b) init
  | step {k k' : Kernel} {e : Event} {g : G} (hk : Kernel.Noted Allowed init note k g) (ha : Allowed k e)
      (hs : k.Step e k') : Kernel.Noted Allowed init note k' (note k e k' g)

/-- The events can happen one after the other, and are allowed. -/
def Kernel.Runs (Allowed : Kernel → Event → Prop) : Kernel → List Event → Prop
  | _, [] => True
  | k, e :: es => k.CanStep e ∧ Allowed k e ∧ Kernel.Runs Allowed (k.after e) es

/-- The state after some events. -/
def Kernel.afterAll : Kernel → List Event → Kernel
  | k, [] => k
  | k, e :: es => (k.after e).afterAll es

/-- What is noted on the way there. -/
def Kernel.noteAll {G : Type} (note : Kernel → Event → Kernel → G → G) : Kernel → List Event → G → G
  | _, [], g => g
  | k, e :: es, g => (k.after e).noteAll note es (note k e (k.after e) g)

instance (Allowed : Kernel → Event → Prop) [h : ∀ k e, Decidable (Allowed k e)] :
    (k : Kernel) → (es : List Event) → Decidable (k.Runs Allowed es)
  | _, [] => .isTrue trivial
  | k, e :: es =>
    have := instDecidableRuns Allowed (k.after e) es
    inferInstanceAs (Decidable (_ ∧ _ ∧ _))

namespace Kernel.Noted

variable {G : Type} {Allowed : Kernel → Event → Prop} {init : G} {note : Kernel → Event → Kernel → G → G}

/-- A state is reached whatever has been noted. -/
theorem reach {k : Kernel} {g : G} (h : Kernel.Noted Allowed init note k g) : Kernel.Reach Allowed k := by
  induction h with
  | boot b hz => exact .boot b hz
  | step _ ha hs ih => exact .step ih ha hs

/-- Something can be noted on the way to every state. -/
theorem of_reach {k : Kernel} (h : Kernel.Reach Allowed k) : ∃ g, Kernel.Noted Allowed init note k g := by
  induction h with
  | boot b hz => exact ⟨init, .boot b hz⟩
  | step _ ha hs ih =>
    obtain ⟨g, hg⟩ := ih
    exact ⟨_, .step hg ha hs⟩

/-- Events that can happen lead to a state that is reached, with what is noted on the way. -/
theorem runs_noted {k : Kernel} {g : G} (h : Kernel.Noted Allowed init note k g) {es : List Event}
    (hr : k.Runs Allowed es) : Kernel.Noted Allowed init note (k.afterAll es) (k.noteAll note es g) := by
  induction es generalizing k g with
  | nil => exact h
  | cons e es ih => exact ih (h.step hr.2.1 hr.1.step) hr.2.2

/-- Events that can happen lead to a state that is reached. -/
theorem runs {k : Kernel} {g : G} (h : Kernel.Noted Allowed init note k g)
    {es : List Event} (hr : k.Runs Allowed es) :
    ∃ g', Kernel.Noted Allowed init note (k.afterAll es) g' := ⟨_, h.runs_noted hr⟩

end Kernel.Noted

end Xinu
