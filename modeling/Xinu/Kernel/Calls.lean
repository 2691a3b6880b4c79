import Xinu.Kernel.Sched

/-!
# System calls

The system calls of `system/` that work on the tables of the kernel alone. A call that gives up the processor
in the middle leaves its end to `pend`; everything it does before that is one step, since interrupts are
disabled. The answer of a call is given to the process that has made it.
-/

namespace Xinu

/-! ## Stacks -/

/-- `roundmb(x)`. -/
def roundmb (x : ℕ) : ℕ := (x + 7) % 2 ^ 32 / 8 * 8

/-- The last free block of at least `n` bytes gives its top `n` bytes: the end of the block, and the
blocks left. -/
def takeLast (n : ℕ) : List (ℕ × ℕ) → Option (ℕ × List (ℕ × ℕ))
  | [] => none
  | b :: l =>
    match takeLast n l with
    | some (top, l') => some (top, b :: l')
    | none =>
      if b.2 ≥ n then some (b.1 + b.2, if b.2 = n then l else (b.1, b.2 - n) :: l) else none

/-- `getstk(nbytes)`: the highest word of the stack. -/
def getstk (memlist : List (ℕ × ℕ)) (nbytes : ℕ) : Option (ℕ × List (ℕ × ℕ)) :=
  if nbytes = 0 then none
  else (takeLast (roundmb nbytes) memlist).map fun r => (r.1 - 4, r.2)

/-- `freemem(block, nbytes)` behind its check of the arguments: the blocks before and behind the new
one, joined with it where they touch it. -/
def putBlock (memlist : List (ℕ × ℕ)) (block nbytes : ℕ) : List (ℕ × ℕ) :=
  let lo := memlist.takeWhile fun b => b.1 < block
  let hi := memlist.dropWhile fun b => b.1 < block
  let top := match lo.getLast? with
    | some b => b.1 + b.2
    | none => 0
  if (lo ≠ [] ∧ block < top) ∨ hi.head?.any (fun b => decide (b.1 < block + nbytes)) then memlist
  else
    let r := match lo.getLast? with
      | some b => if top = block then (lo.dropLast, (b.1, b.2 + nbytes)) else (lo, (block, nbytes))
      | none => (lo, (block, nbytes))
    match hi with
    | b :: hi' =>
      if r.2.1 + r.2.2 = b.1 then r.1 ++ (r.2.1, r.2.2 + b.2) :: hi' else r.1 ++ r.2 :: hi
    | [] => r.1 ++ [r.2]

namespace Sys

/-- `freestk(p, len)`. -/
def freestk (s : Sys) (p len : ℕ) : Sys :=
  let nbytes := roundmb len
  let block := p + 4 - nbytes
  if nbytes = 0 ∨ block < s.minheap ∨ s.maxheap < block then s
  else { s with memlist := putBlock s.memlist block nbytes }

/-! ## Creating processes -/

/-- The loop of `newpid`: the free entry, and the variable `nextpid` behind it. -/
def newpidLoop (s : Sys) : ℕ → ℤ → Option ℤ × ℤ
  | 0, nextpid => (none, nextpid)
  | n + 1, nextpid =>
    if s.state (nextpid % NPROC) = .free then (some (nextpid % NPROC), nextpid % NPROC + 1)
    else s.newpidLoop n (nextpid % NPROC + 1)

/-- `newpid()`. -/
def newpid (s : Sys) : Option ℤ × Sys :=
  let r := s.newpidLoop NPROC.toNat s.nextpid
  (r.1, { s with nextpid := r.2 })

/-- The part that `create` and `vcreate` share: the checks, and the entry of the new process, which
is suspended and starts with interrupts enabled. -/
def newProcess (s : Sys) (ssize : ℕ) (priority : Int16) (page_addr : ℕ) : Option ℤ × Sys :=
  let ssize := roundmb (if ssize < MINSTK then MINSTK else ssize)
  if priority.toInt < 1 then (none, s)
  else
    let r := s.newpid
    match r.1 with
    | none => (none, r.2)
    | some pid =>
      match getstk s.memlist ssize with
      | none => (none, r.2)
      | some (saddr, memlist) =>
        let s := r.2.setProc pid fun p =>
          { p with prstate := .susp, page_addr := page_addr, prprio := priority,
                   prstkbase := saddr, prstklen := ssize, prsem := -1, prparent := s.currpid,
                   prhasmsg := false }
        (some pid, { s with prcount := s.prcount + 1, memlist := memlist,
                            ie := Function.update s.ie pid true,
                            pend := Function.update s.pend pid .user })

/-- `create(funcaddr, ssize, priority, name, nargs, ...)`. -/
def create (s : Sys) (ssize : ℕ) (priority : Int16) : Sys :=
  match s.newProcess ssize priority PAGE_DIR_ADDR_START with
  | (none, s) => s.ret SYSERR
  | (some pid, s) => s.ret pid

/-! ## Suspending and resuming -/

/-- `resume(pid)`. -/
def resume (s : Sys) (pid : ℤ) : Res Sys :=
  if s.isbadpid pid then .ok (s.ret SYSERR)
  else if s.state pid ≠ .susp then .ok (s.ret SYSERR)
  else (s.ret (s.proctab pid).prprio.toInt).ready pid

/-- The end of `suspend(pid)`. -/
def suspendEnd (s : Sys) (pid : ℤ) : Sys := (s.ret (s.proctab pid).prprio.toInt).setPend .user

/-- `suspend(pid)`. -/
def suspend (s : Sys) (pid : ℤ) : Res Sys :=
  if s.isbadpid pid ∨ pid = NULLPROC then .ok (s.ret SYSERR)
  else if s.state pid ≠ .curr ∧ s.state pid ≠ .ready then .ok (s.ret SYSERR)
  else if s.state pid = .ready then .ok (((s.getitem pid).setState pid .susp).suspendEnd pid)
  else ((s.setPend (.suspend pid)).setState pid .susp).resched

/-- `chprio(pid, newprio)`. -/
def chprio (s : Sys) (pid : ℤ) (newprio : Int16) : Sys :=
  if s.isbadpid pid then s.ret SYSERR
  else (s.ret (s.proctab pid).prprio.toInt).setProc pid fun p => { p with prprio := newprio }

/-- `yield()`. -/
def yield (s : Sys) : Res Sys := (s.ret OK).resched

/-! ## Semaphores -/

/-- The loop of `newsem`: the entry taken, and the variable `nextsem` behind it. -/
def newsemLoop (s : Sys) : ℕ → ℤ → Option ℤ × ℤ
  | 0, nextsem => (none, nextsem)
  | n + 1, nextsem =>
    let next := if nextsem + 1 ≥ NSEM then 0 else nextsem + 1
    if (s.semtab nextsem).sstate = .free then (some nextsem, next) else s.newsemLoop n next

/-- `semcreate(count)`. -/
def semcreate (s : Sys) (count : ℤ) : Sys :=
  if count < 0 then s.ret SYSERR
  else
    let r := s.newsemLoop NSEM.toNat s.nextsem
    let s := { s with nextsem := r.2 }
    match r.1 with
    | none => s.ret SYSERR
    | some sem => (s.setSem sem fun e => { e with sstate := .used, scount := count }).ret sem

/-- `wait(sem)`. -/
def wait (s : Sys) (sem : ℤ) : Res Sys :=
  if isbadsem sem then .ok (s.ret SYSERR)
  else if (s.semtab sem).sstate = .free then .ok (s.ret SYSERR)
  else
    let s := (s.setSem sem fun e => { e with scount := int32 (e.scount - 1) }).ret OK
    if (s.semtab sem).scount < 0 then
      ((s.setProc s.currpid fun p => { p with prstate := .wait, prsem := sem }).enqueue s.currpid
        (s.semtab sem).squeue).resched
    else .ok s

/-- `if ((semptr->scount++) < 0) ready(dequeue(semptr->squeue))`. -/
def signalOnce (s : Sys) (sem : ℤ) : Res Sys :=
  let scount := (s.semtab sem).scount
  let s := s.setSem sem fun e => { e with scount := int32 (e.scount + 1) }
  if scount < 0 then
    let r := s.dequeue (s.semtab sem).squeue
    r.2.ready r.1
  else .ok s

/-- `signal(sem)`. -/
def signal (s : Sys) (sem : ℤ) : Res Sys :=
  if isbadsem sem then .ok (s.ret SYSERR)
  else if (s.semtab sem).sstate = .free then .ok (s.ret SYSERR)
  else (s.ret OK).signalOnce sem

/-- `for (; count > 0; count--)`. -/
def signalnLoop (sem : ℤ) : ℕ → Sys → Res Sys
  | 0, s => .ok s
  | n + 1, s => do
    let s ← s.signalOnce sem
    signalnLoop sem n s

/-- `signaln(sem, count)`. -/
def signaln (s : Sys) (sem count : ℤ) : Res Sys :=
  if isbadsem sem ∨ count < 0 then .ok (s.ret SYSERR)
  else if (s.semtab sem).sstate = .free then .ok (s.ret SYSERR)
  else do
    let s ← signalnLoop sem count.toNat (s.ret OK).reschedCntlStart
    s.reschedCntlStop

/-- `while ((pid=getfirst(semqueue)) != EMPTY) ready(pid)`. -/
def semresetLoop (semqueue : ℤ) : ℕ → Sys → Res Sys
  | 0, _ => .hang
  | fuel + 1, s =>
    let r := s.getfirst semqueue
    if r.1 ≠ EMPTY then do
      let s ← r.2.ready r.1
      semresetLoop semqueue fuel s
    else .ok r.2

/-- `semreset(sem, count)`. -/
def semreset (s : Sys) (sem count : ℤ) : Res Sys :=
  if count < 0 ∨ isbadsem sem ∨ (s.semtab sem).sstate = .free then .ok (s.ret SYSERR)
  else do
    let s ← semresetLoop (s.semtab sem).squeue NQENT.toNat (s.ret OK).reschedCntlStart
    (s.setSem sem fun e => { e with scount := count }).reschedCntlStop

/-- `ready(getfirst(semptr->squeue))`, with the increment of `scount` before it. -/
def semdeleteOnce (s : Sys) (sem : ℤ) : Res Sys :=
  let s := s.setSem sem fun e => { e with scount := int32 (e.scount + 1) }
  let r := s.getfirst (s.semtab sem).squeue
  r.2.ready r.1

/-- `while (semptr->scount++ < 0)`: the loop makes `-scount` turns, and the last test increments
`scount` once more. -/
def semdeleteLoop (sem : ℤ) : ℕ → Sys → Res Sys
  | 0, s => .ok (s.setSem sem fun e => { e with scount := int32 (e.scount + 1) })
  | n + 1, s => do
    let s ← s.semdeleteOnce sem
    semdeleteLoop sem n s

/-- `semdelete(sem)`. -/
def semdelete (s : Sys) (sem : ℤ) : Res Sys :=
  if isbadsem sem then .ok (s.ret SYSERR)
  else if (s.semtab sem).sstate = .free then .ok (s.ret SYSERR)
  else do
    let s ← semdeleteLoop sem (-(s.semtab sem).scount).toNat
      ((s.ret OK).setSem sem fun e => { e with sstate := .free }).reschedCntlStart
    s.reschedCntlStop

/-! ## Sleeping and messages -/

/-- `sleepms(delay)`. -/
def sleepms (s : Sys) (delay : ℤ) : Res Sys :=
  if delay < 0 then .ok (s.ret SYSERR)
  else if delay = 0 then s.yield
  else do
    let r ← (s.ret OK).insertd s.currpid s.sleepq delay
    if r.1 = .syserr then .ok (r.2.ret SYSERR)
    else (r.2.setState s.currpid .sleep).resched

/-- The end of `recvtime`. -/
def recvtimeEnd (s : Sys) : Sys :=
  let p := s.proctab s.currpid
  (if p.prhasmsg then
    (s.ret p.prmsg).setProc s.currpid fun p => { p with prhasmsg := false }
  else s.ret TIMEOUT).setPend .user

/-- `recvtime(maxwait)`. -/
def recvtime (s : Sys) (maxwait : ℤ) : Res Sys :=
  if maxwait < 0 then .ok (s.ret SYSERR)
  else if (s.proctab s.currpid).prhasmsg = false then do
    let r ← s.insertd s.currpid s.sleepq maxwait
    if r.1 = .syserr then .ok (r.2.ret SYSERR)
    else ((r.2.setPend .recvtime).setState s.currpid .rectim).resched
  else .ok s.recvtimeEnd

/-- The end of `receive`. -/
def receiveEnd (s : Sys) : Sys :=
  ((s.ret (s.proctab s.currpid).prmsg).setProc s.currpid
    fun p => { p with prhasmsg := false }).setPend .user

/-- `receive()`. -/
def receive (s : Sys) : Res Sys :=
  if (s.proctab s.currpid).prhasmsg = false then
    ((s.setPend .receive).setState s.currpid .recv).resched
  else .ok s.receiveEnd

/-- `recvclr()`. -/
def recvclr (s : Sys) : Sys :=
  let p := s.proctab s.currpid
  if p.prhasmsg then (s.ret p.prmsg).setProc s.currpid fun p => { p with prhasmsg := false }
  else s.ret OK

/-- `send(pid, msg)` as a system call. -/
def sendCall (s : Sys) (pid : ℤ) (msg : ℕ) : Res Sys := do
  let r ← (s.ret OK).send pid msg
  if r.1 = .syserr then .ok (r.2.ret SYSERR) else .ok r.2

/-! ## Killing -/

/-- `kill(pid)` up to the message to the parent. The last user process halts the processor. -/
def killStart (s : Sys) (pid : ℤ) : Res Sys :=
  if s.isbadpid pid ∨ pid = NULLPROC ∨ s.state pid = .free then .ok (s.ret SYSERR)
  else
    let s := { s with prcount := s.prcount - 1 }
    if s.prcount ≤ 1 then .ok { s with halted := true }
    else do
      let r ← ((s.ret OK).setPend (.kill pid)).send (s.proctab pid).prparent pid.toNat
      .ok r.2

/-! ## The clock -/

/-- `--x` of an unsigned variable, for which `x <= 0` means that it is zero. -/
def decr32 (x : ℕ) : ℕ := if x = 0 then 0xFFFFFFFF else x - 1

/-- `clkhandler()` up to the sleep queue. -/
def tick (s : Sys) : Res Sys :=
  let s := if decr32 s.count1000 = 0 then
      { s with clktime := (s.clktime + 1) % 2 ^ 32, count1000 := 1000 }
    else { s with count1000 := decr32 s.count1000 }
  let s := s.setPend .clk
  if ¬ s.isempty s.sleepq then
    let s := s.setKey (s.firstid s.sleepq) (int32 (s.firstkey s.sleepq - 1))
    if s.firstkey s.sleepq ≤ 0 then s.wakeup else .ok s
  else .ok s

/-- The end of `clkhandler()`. -/
def tickEnd (s : Sys) : Res Sys :=
  let s := s.setPend .user
  if decr32 s.preempt = 0 then { s with preempt := QUANTUM }.resched
  else .ok { s with preempt := decr32 s.preempt }

end Sys

end Xinu
