import Xinu.Paging.Entry
import Mathlib.Logic.Function.Basic

/-!
# The tables of the kernel

The process table, the queue table and the semaphore table of `include/process.h`, `include/queue.h` and
`include/semaphore.h`, with the global variables beside them. A table is a function of its index. The
constants are those of `config/conf.h` and `include/kernel.h`.
-/

namespace Xinu

/-! ## Constants -/

/-- The size of the process table. -/
abbrev NPROC : ℤ := 100

/-- The size of the semaphore table. -/
abbrev NSEM : ℤ := 100

/-- The size of the queue table: an entry for each process, and two for each queue. -/
abbrev NQENT : ℤ := NPROC + 4 + NSEM + NSEM

/-- The null process. -/
abbrev NULLPROC : ℤ := 0

/-- No entry of the queue table. -/
abbrev EMPTY : ℤ := -1

/-- The largest key of a queue, which its head has. -/
abbrev MAXKEY : ℤ := 0x7FFFFFFF

/-- The smallest key of a queue, which its tail has. -/
abbrev MINKEY : ℤ := -0x80000000

/-- The time slice of a process, in milliseconds. -/
abbrev QUANTUM : ℕ := 10

/-- The smallest stack, in bytes. -/
abbrev MINSTK : ℕ := 400

/-- The stack of the null process, in bytes. -/
abbrev NULLSTK : ℕ := 8192

/-- The answer of a system call that worked. -/
abbrev OK : ℤ := 1

/-- The answer of a system call that failed. -/
abbrev SYSERR : ℤ := -1

/-- The answer of `recvtime` when no message came in time. -/
abbrev TIMEOUT : ℤ := -3

/-- `EOF`. -/
abbrev EOF : ℤ := -2

/-- The value of a 32-bit signed variable after an addition or a subtraction. -/
def int32 (x : ℤ) : ℤ := x.bmod (2 ^ 32)

/-- A number that fits in 32 bits. -/
theorem int32_of_mem {x : ℤ} (h₁ : -2 ^ 31 ≤ x) (h₂ : x < 2 ^ 31) : int32 x = x := by
  unfold int32
  rw [Int.bmod_def]
  split_ifs <;> omega

/-! ## Table entries -/

/-- The states of a process. -/
inductive PrState where
  /-- `PR_FREE`: the entry is not used. -/
  | free
  /-- `PR_CURR`: the process is running. -/
  | curr
  /-- `PR_READY`: it is on the ready list. -/
  | ready
  /-- `PR_RECV`: it waits for a message. -/
  | recv
  /-- `PR_SLEEP`: it is sleeping. -/
  | sleep
  /-- `PR_SUSP`: it is suspended. -/
  | susp
  /-- `PR_WAIT`: it is on a semaphore queue. -/
  | wait
  /-- `PR_RECTIM`: it waits for a message, for some time. -/
  | rectim
  deriving DecidableEq, Repr

/-- An entry of the process table. -/
structure Procent where
  /-- The state of the process. -/
  prstate : PrState
  /-- Its priority. -/
  prprio : Int16
  /-- The base of its stack. -/
  prstkbase : ℕ
  /-- The length of its stack. -/
  prstklen : ℕ
  /-- The semaphore on which it waits. -/
  prsem : ℤ
  /-- The process that created it. -/
  prparent : ℤ
  /-- The message that it has been sent. -/
  prmsg : ℕ
  /-- Whether there is a message. -/
  prhasmsg : Bool
  /-- The address of its page directory. -/
  page_addr : ℕ

/-- An entry of the queue table. -/
structure Qentry where
  /-- The key on which the queue is ordered. -/
  qkey : ℤ
  /-- The next process, or the tail. -/
  qnext : ℤ
  /-- The previous process, or the head. -/
  qprev : ℤ

/-- Whether an entry of the semaphore table is in use. -/
inductive SemState where
  /-- `S_FREE`. -/
  | free
  /-- `S_USED`. -/
  | used
  deriving DecidableEq, Repr

/-- An entry of the semaphore table. -/
structure Sentry where
  /-- Whether the semaphore is in use. -/
  sstate : SemState
  /-- Its count. -/
  scount : ℤ
  /-- The queue of processes that wait on it. -/
  squeue : ℤ

/-- What a process has left to do in the kernel when it runs again: nothing, or the end of the
system call or interrupt in which `resched` has taken the processor from it. -/
inductive Pend where
  /-- It runs its own code. -/
  | user
  /-- The end of `suspend(pid)`. -/
  | suspend (pid : ℤ)
  /-- The end of `receive`. -/
  | receive
  /-- The end of `recvtime`. -/
  | recvtime
  /-- The part of `kill(pid)` behind the message to the parent. -/
  | kill (pid : ℤ)
  /-- The part of `clkhandler` behind the sleep queue. -/
  | clk
  deriving DecidableEq

/-! ## The state -/

/-- The tables and the global variables of the kernel, and for every process its interrupt mask,
what it has left to do in the kernel, and what its last system call has returned. -/
structure Sys where
  /-- The process table. -/
  proctab : ℤ → Procent
  /-- The queue table. -/
  queuetab : ℤ → Qentry
  /-- The semaphore table. -/
  semtab : ℤ → Sentry
  /-- The running process. -/
  currpid : ℤ
  /-- The number of processes that live. -/
  prcount : ℤ
  /-- The queue of ready processes. -/
  readylist : ℤ
  /-- The queue of sleeping processes. -/
  sleepq : ℤ
  /-- The static variable of `newqueue`. -/
  nextqid : ℤ
  /-- The static variable of `newpid`. -/
  nextpid : ℤ
  /-- The static variable of `newsem`. -/
  nextsem : ℤ
  /-- `Defer.ndefers`. -/
  ndefers : ℤ
  /-- `Defer.attempt`. -/
  attempt : Bool
  /-- The ticks that are left of the time slice. -/
  preempt : ℕ
  /-- The static variable of `clkhandler`. -/
  count1000 : ℕ
  /-- The seconds since boot. -/
  clktime : ℕ
  /-- The free blocks, by address: the address and the length of each. -/
  memlist : List (ℕ × ℕ)
  /-- The first address of the heap. -/
  minheap : ℕ
  /-- The last one. -/
  maxheap : ℕ
  /-- The register CR3. -/
  cr3 : ℕ
  /-- Whether each process runs with interrupts enabled. -/
  ie : ℤ → Bool
  /-- What each process has left to do in the kernel. -/
  pend : ℤ → Pend
  /-- What the last system call of each process has returned. -/
  result : ℤ → ℤ
  /-- The processor has halted. -/
  halted : Bool

namespace Sys

/-- Change an entry of the process table. -/
def setProc (s : Sys) (pid : ℤ) (f : Procent → Procent) : Sys :=
  { s with proctab := Function.update s.proctab pid (f (s.proctab pid)) }

/-- Change an entry of the queue table. -/
def setQ (s : Sys) (i : ℤ) (f : Qentry → Qentry) : Sys :=
  { s with queuetab := Function.update s.queuetab i (f (s.queuetab i)) }

/-- `queuetab[i].qnext = v`. -/
def setNext (s : Sys) (i v : ℤ) : Sys := s.setQ i fun e => { e with qnext := v }

/-- `queuetab[i].qprev = v`. -/
def setPrev (s : Sys) (i v : ℤ) : Sys := s.setQ i fun e => { e with qprev := v }

/-- `queuetab[i].qkey = v`. -/
def setKey (s : Sys) (i v : ℤ) : Sys := s.setQ i fun e => { e with qkey := v }

/-- The key of an entry. -/
def key (s : Sys) (i : ℤ) : ℤ := (s.queuetab i).qkey

/-- Change an entry of the semaphore table. -/
def setSem (s : Sys) (sem : ℤ) (f : Sentry → Sentry) : Sys :=
  { s with semtab := Function.update s.semtab sem (f (s.semtab sem)) }

/-- `proctab[pid].prstate = st`. -/
def setState (s : Sys) (pid : ℤ) (st : PrState) : Sys := s.setProc pid fun p => { p with prstate := st }

/-- The state of a process. -/
def state (s : Sys) (pid : ℤ) : PrState := (s.proctab pid).prstate

/-- The running process leaves something to do for when it runs again. -/
def setPend (s : Sys) (p : Pend) : Sys := { s with pend := Function.update s.pend s.currpid p }

/-- The running process gets an answer. -/
def ret (s : Sys) (v : ℤ) : Sys := { s with result := Function.update s.result s.currpid v }

/-- `write_cr3((addr & 0xFFFFF000) | (cr3 & 0x00000FFF))`. -/
def loadCr3 (s : Sys) (addr : ℕ) : Sys :=
  { s with cr3 := addr / PAGE_SIZE * PAGE_SIZE + s.cr3 % PAGE_SIZE }

/-- `isbadpid(x)`. -/
def isbadpid (s : Sys) (x : ℤ) : Prop := x < 0 ∨ x ≥ NPROC ∨ s.state x = .free

instance (s : Sys) (x : ℤ) : Decidable (s.isbadpid x) := inferInstanceAs (Decidable (_ ∨ _))

end Sys

/-- `isbadqid(x)`. -/
def isbadqid (x : ℤ) : Prop := x < NPROC ∨ x ≥ NQENT - 1

instance (x : ℤ) : Decidable (isbadqid x) := inferInstanceAs (Decidable (_ ∨ _))

/-- `isbadsem(x)`. -/
def isbadsem (x : ℤ) : Prop := x < 0 ∨ x ≥ NSEM

instance (x : ℤ) : Decidable (isbadsem x) := inferInstanceAs (Decidable (_ ∨ _))

end Xinu
