import Xinu.Kernel.Queue

/-!
# Scheduling

`system/resched.c`, `system/ready.c`, `system/unsleep.c` and `system/wakeup.c`.
-/

namespace Xinu

namespace Sys

/-- The switch to process `pid`: it is the running one, CR3 points at its directory, and it has a
full time slice. -/
def switchTo (s : Sys) (pid : ℤ) : Sys :=
  let s := ({ s with currpid := pid }.loadCr3 (s.proctab pid).page_addr).setState pid .curr
  { s with preempt := QUANTUM }

/-- `resched()` from "Force context switch": the first process of the ready list becomes the running one. -/
def dispatch (s : Sys) : Sys :=
  let r := s.dequeue s.readylist
  r.2.switchTo r.1

/-- `resched()`. -/
def resched (s : Sys) : Res Sys :=
  if s.ndefers > 0 then .ok { s with attempt := true }
  else if s.state s.currpid = .curr then
    if (s.proctab s.currpid).prprio.toInt > s.firstkey s.readylist then .ok s
    else do
      let s ← (s.setState s.currpid .ready).insert s.currpid s.readylist
        (s.proctab s.currpid).prprio.toInt
      .ok s.dispatch
  else .ok s.dispatch

/-- `resched_cntl(DEFER_START)`. -/
def reschedCntlStart (s : Sys) : Sys :=
  { s with attempt := if s.ndefers = 0 then false else s.attempt, ndefers := s.ndefers + 1 }

/-- `resched_cntl(DEFER_STOP)`. -/
def reschedCntlStop (s : Sys) : Res Sys :=
  if s.ndefers ≤ 0 then .ok s
  else
    let s := { s with ndefers := s.ndefers - 1 }
    if s.ndefers = 0 ∧ s.attempt then s.resched else .ok s

/-- `ready(pid)`. -/
def ready (s : Sys) (pid : ℤ) : Res Sys :=
  if s.isbadpid pid then .ok s
  else do
    let s ← (s.setState pid .ready).insert pid s.readylist (s.proctab pid).prprio.toInt
    s.resched

/-- `unsleep(pid)`. -/
def unsleep (s : Sys) (pid : ℤ) : Sys :=
  if s.isbadpid pid then s
  else if s.state pid ≠ .sleep ∧ s.state pid ≠ .rectim then s
  else
    let pidnext := (s.queuetab pid).qnext
    let s := if pidnext < NPROC then s.setKey pidnext (int32 (s.key pidnext + s.key pid)) else s
    s.getitem pid

/-- The loop of `wakeup`. The condition `nonempty(sleepq)` is that of an empty queue negated. -/
def wakeupLoop : ℕ → Sys → Res Sys
  | 0, _ => .hang
  | fuel + 1, s =>
    if ¬ s.isempty s.sleepq ∧ s.firstkey s.sleepq ≤ 0 then do
      let r := s.dequeue s.sleepq
      let s ← r.2.ready r.1
      wakeupLoop fuel s
    else .ok s

/-- `wakeup()`. -/
def wakeup (s : Sys) : Res Sys := do
  let s ← wakeupLoop NQENT.toNat s.reschedCntlStart
  s.reschedCntlStop

/-- `send(pid, msg)`. -/
def send (s : Sys) (pid : ℤ) (msg : ℕ) : Res (Status × Sys) :=
  if s.isbadpid pid then .ok (.syserr, s)
  else if (s.proctab pid).prhasmsg then .ok (.syserr, s)
  else
    let s := s.setProc pid fun p => { p with prmsg := msg, prhasmsg := true }
    if s.state pid = .recv then do
      let s ← s.ready pid
      .ok (.ok, s)
    else if s.state pid = .rectim then do
      let s ← (s.unsleep pid).ready pid
      .ok (.ok, s)
    else .ok (.ok, s)

end Sys

end Xinu
