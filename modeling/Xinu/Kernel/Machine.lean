import Xinu.Kernel.Calls
import Xinu.Paging.Vmalloc
import Xinu.Paging.Vfree

/-!
# The machine

The kernel with its memory: the system calls that work on page tables, page faults, `sysinit`, and
the steps that the machine can make. A step is a system call, a page fault or a clock tick up to the
point where the processor may change hands, or the end of one (`Event.cont`).

Most system calls disable interrupts first, so that they are one step in the source too. `vmalloc`
does not: it walks through the page directory with interrupts on, and disables them when it has
found a place. It is one step here all the same: no clock tick comes within its search.
-/

namespace Xinu

open FlatMemory

/-- The tables of the kernel, and memory. -/
structure Kernel where
  /-- The tables and variables of the kernel. -/
  sys : Sys
  /-- The page directories and page tables. -/
  mem : Mem

namespace Kernel

/-- The processor as the running process sees it. -/
def cpu (k : Kernel) : Cpu := ⟨k.mem, k.sys.cr3, k.sys.ie k.sys.currpid⟩

/-- The kernel after the running process has changed memory, CR3 or the interrupt flag. -/
def withCpu (k : Kernel) (c : Cpu) : Kernel :=
  ⟨{ k.sys with cr3 := c.cr3, ie := Function.update k.sys.ie k.sys.currpid c.ie }, c.mem⟩

/-- The running process gets an answer. -/
def ret (k : Kernel) (v : ℤ) : Kernel := { k with sys := k.sys.ret v }

/-- The directory address of the running process. -/
def currAddr (k : Kernel) : ℕ := (k.sys.proctab k.sys.currpid).page_addr

/-! ## System calls with page tables -/

/-- `vcreate(funcaddr, ssize, priority, name, nargs, ...)`. The exit for a bad priority, a full
process table and a full memory leaves CR3 at the system directory. -/
def vcreate (k : Kernel) (ssize : ℕ) (priority : Int16) : Res Kernel :=
  match k.sys.newProcess ssize priority 0 with
  | (none, s) => .ok { k with sys := (s.loadCr3 PAGE_DIR_ADDR_START).ret SYSERR }
  | (some pid, s) => do
    let r ← initializeUserPageDir k.mem
    let s := (s.loadCr3 PAGE_DIR_ADDR_START).setProc pid fun p => { p with page_addr := r.1 }
    .ok ⟨(s.loadCr3 (s.proctab s.currpid).page_addr).ret pid, r.2⟩

/-- `vmalloc(nbytes)` as a system call. -/
def vmallocCall (k : Kernel) (fuel nbytes junk : ℕ) : Res Kernel := do
  let r ← vmalloc fuel k.cpu k.currAddr nbytes junk
  .ok ((k.withCpu r.2).ret (match r.1 with
    | some va => va
    | none => SYSERR))

/-- `vfree(ptr, nbytes)` as a system call. -/
def vfreeCall (k : Kernel) (ptr nbytes : ℕ) : Res Kernel := do
  let r ← vfree k.cpu k.currAddr ptr nbytes
  .ok ((k.withCpu r.2).ret (match r.1 with
    | .ok => OK
    | .syserr => SYSERR))

/-- `free_ffs_pages()` as a system call. -/
def freeFfsPagesCall (k : Kernel) : Kernel :=
  let r := freeFfsPages k.cpu k.currAddr
  (k.withCpu r.2).ret r.1

/-- `allocated_virtual_pages(pid)` as a system call. -/
def allocatedVirtualPagesCall (k : Kernel) (pid : ℤ) : Res Kernel := do
  let r ← allocatedVirtualPages k.cpu k.currAddr (k.sys.proctab pid).page_addr
  .ok ((k.withCpu r.2).ret r.1)

/-- `used_ffs_frames(pid)` as a system call. -/
def usedFfsFramesCall (k : Kernel) (pid : ℤ) : Res Kernel := do
  let r ← usedFfsFrames k.cpu k.currAddr (k.sys.proctab pid).page_addr
  .ok ((k.withCpu r.2).ret r.1)

/-! ## Killing -/

/-- `kill(pid)` behind the message to the parent: the stack is freed, and the rest depends on the
state of the process. Only a process that kills itself has its memory released, and it does not
return. -/
def killEnd (k : Kernel) (pid : ℤ) : Res Kernel :=
  let p := k.sys.proctab pid
  let s := k.sys.freestk p.prstkbase p.prstklen
  match p.prstate with
  | .curr => do
    let c ← killVm k.cpu p.page_addr
    let s ← ({ s with cr3 := c.cr3 }.setState pid .free).resched
    .ok ⟨s, c.mem⟩
  | .sleep | .rectim => .ok { k with sys := ((s.unsleep pid).setState pid .free).setPend .user }
  | .wait =>
    let s := (s.setSem p.prsem fun e => { e with scount := int32 (e.scount + 1) }).getitem pid
    .ok { k with sys := (s.setState pid .free).setPend .user }
  | .ready => .ok { k with sys := ((s.getitem pid).setState pid .free).setPend .user }
  | _ => .ok { k with sys := (s.setState pid .free).setPend .user }

/-! ## Page faults -/

/-- `pagefault_handler()` for the address `v`. A segmentation fault kills the running process; for
the null process `kill` refuses, and the handler goes on. -/
def fault (k : Kernel) (v : ℕ) : Res Kernel := do
  let r ← pagefaultHandler k.cpu k.currAddr v
  match r with
  | .handled c => .ok (k.withCpu c)
  | .segv c =>
    if k.sys.currpid = NULLPROC then .ok (k.withCpu (c.writeCr3 (c.cr3At k.currAddr)))
    else do
      let s ← { k.sys with cr3 := c.cr3 }.killStart k.sys.currpid
      .ok ⟨s, c.mem⟩

end Kernel

/-! ## Boot -/

/-- What the boot loader and `meminit` leave: memory, CR3, and the free memory list. -/
structure Boot where
  /-- What memory holds. -/
  mem : Mem
  /-- What CR3 holds. -/
  cr3 : ℕ
  /-- The free memory, as blocks. -/
  memlist : List (ℕ × ℕ)
  /-- The first address of the heap. -/
  minheap : ℕ
  /-- The last one. -/
  maxheap : ℕ

/-- The tables before `sysinit`: the variables of the kernel start at zero, or at their initial value. -/
def Boot.sys (b : Boot) : Sys where
  proctab _ := ⟨.free, 0, 0, 0, 0, 0, 0, false, 0⟩
  queuetab _ := ⟨0, 0, 0⟩
  semtab _ := ⟨.free, 0, 0⟩
  currpid := 0
  prcount := 0
  readylist := 0
  sleepq := 0
  nextqid := NPROC
  nextpid := 1
  nextsem := 0
  ndefers := 0
  attempt := false
  preempt := 0
  count1000 := 1000
  clktime := 0
  memlist := b.memlist
  minheap := b.minheap
  maxheap := b.maxheap
  cr3 := b.cr3
  ie _ := false
  pend _ := .user
  result _ := 0
  halted := false

namespace Sys

/-- The entry of the null process. -/
def initNull (s : Sys) : Sys :=
  let r := getstk s.memlist NULLSTK
  { s.setProc NULLPROC fun p =>
      { p with prstate := .curr, prprio := 0, prstklen := NULLSTK, prstkbase := match r with
          | some r => r.1
          | none => 0xFFFFFFFF } with
    memlist := match r with
      | some r => r.2
      | none => s.memlist
    currpid := NULLPROC
    prcount := 1
    ie := Function.update s.ie NULLPROC true }

/-- `for (i = 0; i < NSEM; i++)`: the first `n` semaphores get their queues. -/
def initSems : ℕ → Sys → Sys
  | 0, s => s
  | n + 1, s =>
    let r := (initSems n s).newqueue
    r.2.setSem n fun _ => { sstate := .free, scount := 0, squeue := r.1 }

/-- The queues of `sysinit` and `clkinit`. -/
def initQueues (s : Sys) : Sys :=
  let ready := (initSems NSEM.toNat s).newqueue
  let sleep := { ready.2 with readylist := ready.1 }.newqueue
  { sleep.2 with sleepq := sleep.1, preempt := QUANTUM }

end Sys

/-- The machine after `sysinit()` and `enable()`. -/
def sysinit (b : Boot) : Kernel :=
  let s := b.sys.initNull.initQueues
  let r := initializePageTable ⟨b.mem, s.cr3, false⟩
  ⟨{ s with cr3 := r.2.cr3 }.setProc NULLPROC fun p => { p with page_addr := r.1 }, r.2.mem⟩

/-! ## Steps -/

/-- The system calls of the model. -/
inductive Call where
  | create (ssize : ℕ) (priority : Int16)
  | resume (pid : ℤ)
  | suspend (pid : ℤ)
  | kill (pid : ℤ)
  | chprio (pid : ℤ) (newprio : Int16)
  | yield
  | semcreate (count : ℤ)
  | wait (sem : ℤ)
  | signal (sem : ℤ)
  | signaln (sem count : ℤ)
  | semreset (sem count : ℤ)
  | semdelete (sem : ℤ)
  | sleepms (delay : ℤ)
  | recvtime (maxwait : ℤ)
  | receive
  | recvclr
  | send (pid : ℤ) (msg : ℕ)
  | vcreate (ssize : ℕ) (priority : Int16)
  | vmalloc (nbytes : ℕ)
  | vfree (ptr nbytes : ℕ)
  | freeFfsPages
  | allocatedVirtualPages (pid : ℤ)
  | usedFfsFrames (pid : ℤ)

/-- What can happen next. -/
inductive Event where
  /-- The running process makes a system call. -/
  | call (c : Call)
  /-- The running process touches an address that is not present. -/
  | fault (v : ℕ)
  /-- The clock interrupts the running process. -/
  | tick
  /-- The running process goes on in the kernel where it has lost the processor. -/
  | cont

namespace Kernel

/-- A change of the tables alone. -/
def lift (k : Kernel) (r : Res Sys) : Res Kernel := do
  let s ← r
  .ok { k with sys := s }

/-- A system call up to the point where the processor may change hands. -/
def call (fuel junk : ℕ) (k : Kernel) : Call → Res Kernel
  | .create ssize priority => .ok { k with sys := k.sys.create ssize priority }
  | .resume pid => k.lift (k.sys.resume pid)
  | .suspend pid => k.lift (k.sys.suspend pid)
  | .kill pid => k.lift (k.sys.killStart pid)
  | .chprio pid newprio => .ok { k with sys := k.sys.chprio pid newprio }
  | .yield => k.lift k.sys.yield
  | .semcreate count => .ok { k with sys := k.sys.semcreate count }
  | .wait sem => k.lift (k.sys.wait sem)
  | .signal sem => k.lift (k.sys.signal sem)
  | .signaln sem count => k.lift (k.sys.signaln sem count)
  | .semreset sem count => k.lift (k.sys.semreset sem count)
  | .semdelete sem => k.lift (k.sys.semdelete sem)
  | .sleepms delay => k.lift (k.sys.sleepms delay)
  | .recvtime maxwait => k.lift (k.sys.recvtime maxwait)
  | .receive => k.lift k.sys.receive
  | .recvclr => .ok { k with sys := k.sys.recvclr }
  | .send pid msg => k.lift (k.sys.sendCall pid msg)
  | .vcreate ssize priority => k.vcreate ssize priority
  | .vmalloc nbytes => k.vmallocCall fuel nbytes junk
  | .vfree ptr nbytes => k.vfreeCall ptr nbytes
  | .freeFfsPages => .ok k.freeFfsPagesCall
  | .allocatedVirtualPages pid => k.allocatedVirtualPagesCall pid
  | .usedFfsFrames pid => k.usedFfsFramesCall pid

/-- The running process goes on in the kernel. -/
def cont (k : Kernel) : Res Kernel :=
  match k.sys.pend k.sys.currpid with
  | .user => .ok k
  | .suspend pid => .ok { k with sys := k.sys.suspendEnd pid }
  | .receive => .ok { k with sys := k.sys.receiveEnd }
  | .recvtime => .ok { k with sys := k.sys.recvtimeEnd }
  | .kill pid => k.killEnd pid
  | .clk => k.lift k.sys.tickEnd

/-- What an event does. -/
def exec (fuel junk : ℕ) (k : Kernel) : Event → Res Kernel
  | .call c => k.call fuel junk c
  | .fault v => k.fault v
  | .tick => k.lift k.sys.tick
  | .cont => k.cont

end Kernel

/-- The calls that the null process may make. It must always be ready to run, so it cannot make a
call that waits, sleeps or receives. -/
def Call.ofNull : Call → Prop
  | .wait _ | .sleepms _ | .recvtime _ | .receive => False
  | _ => True

/-- The sizes and the pointer of a call are 32-bit values. -/
def Call.InRange : Call → Prop
  | .create ssize _ | .vcreate ssize _ => ssize < 2 ^ 32
  | .vmalloc nbytes => nbytes < 2 ^ 32
  | .vfree ptr nbytes => ptr < 2 ^ 32 ∧ nbytes < 2 ^ 32
  | _ => True

/-- The address is not present for the running process. The system directory maps everything below
`PD_PT_AREA_END`. -/
def Kernel.Absent (k : Kernel) (v : ℕ) : Prop :=
  v < 2 ^ 32 ∧ if k.sys.cr3 / PAGE_SIZE = PT_FRAME then PD_PT_AREA_END ≤ v
    else ¬ (v / PAGE_SIZE / MAX_PT_SIZE < MAX_PT_SIZE ∧
      (k.mem (k.sys.cr3 / PAGE_SIZE * MAX_PT_SIZE + v / PAGE_SIZE / MAX_PT_SIZE)).pres = true ∧
      (k.mem ((k.mem (k.sys.cr3 / PAGE_SIZE * MAX_PT_SIZE + v / PAGE_SIZE / MAX_PT_SIZE)).table +
        v / PAGE_SIZE % MAX_PT_SIZE)).pres = true)

/-- When an event can happen. A clock tick needs interrupts, and comes between two system calls:
there is none in the calls that disable interrupts, and `vmalloc`, which searches with interrupts
on, is taken as one step. -/
def Kernel.Enabled (k : Kernel) : Event → Prop
  | .call c => k.sys.pend k.sys.currpid = .user ∧ c.InRange ∧ (k.sys.currpid = NULLPROC → c.ofNull)
  | .fault v => k.sys.pend k.sys.currpid = .user ∧ k.sys.currpid ≠ NULLPROC ∧ k.Absent v
  | .tick => k.sys.pend k.sys.currpid = .user ∧ k.sys.ie k.sys.currpid = true
  | .cont => k.sys.pend k.sys.currpid ≠ .user

/-- The machine makes a step. A step that touches unmapped memory inside the kernel can end anywhere. -/
def Kernel.Step (k : Kernel) (e : Event) (k' : Kernel) : Prop :=
  k.sys.halted = false ∧ k.Enabled e ∧
    ∃ fuel junk, k.exec fuel junk e = .ok k' ∨ k.exec fuel junk e = .wild

/-! ### Runs that can be computed -/

instance (c : Call) : Decidable c.ofNull := by
  cases c <;> first | exact .isTrue trivial | exact .isFalse id

instance : (c : Call) → Decidable c.InRange
  | .create ssize _ | .vcreate ssize _ => inferInstanceAs (Decidable (ssize < 2 ^ 32))
  | .vmalloc nbytes => inferInstanceAs (Decidable (nbytes < 2 ^ 32))
  | .vfree ptr nbytes => inferInstanceAs (Decidable (ptr < 2 ^ 32 ∧ nbytes < 2 ^ 32))
  | .resume _ | .suspend _ | .kill _ | .chprio _ _ | .yield | .semcreate
    _ | .wait _ | .signal _ | .signaln _ _
  | .semreset _ _ | .semdelete _ | .sleepms _ | .recvtime _ | .receive | .recvclr | .send _ _ | .freeFfsPages
  | .allocatedVirtualPages _ | .usedFfsFrames _ => .isTrue trivial

instance (k : Kernel) (v : ℕ) : Decidable (k.Absent v) := inferInstanceAs (Decidable (_ ∧ ite _ _ _))

instance (k : Kernel) : (e : Event) → Decidable (k.Enabled e)
  | .call _ => inferInstanceAs (Decidable (_ ∧ _ ∧ _))
  | .fault _ => inferInstanceAs (Decidable (_ ∧ _ ∧ _))
  | .tick => inferInstanceAs (Decidable (_ ∧ _))
  | .cont => inferInstanceAs (Decidable (_ ≠ _))

/-- The state after an event, with enough fuel for every loop of `vmalloc`. -/
def Kernel.after (k : Kernel) (e : Event) : Kernel :=
  match k.exec 4096 0 e with
  | .ok k' => k'
  | _ => k

/-- The event can happen, and ends. -/
def Kernel.CanStep (k : Kernel) (e : Event) : Prop :=
  k.sys.halted = false ∧ k.Enabled e ∧ (k.exec 4096 0 e).isOk = true

instance (k : Kernel) (e : Event) : Decidable (k.CanStep e) := inferInstanceAs (Decidable (_ ∧ _ ∧ _))

/-- The event ends in the state after it. -/
theorem Kernel.CanStep.exec {k : Kernel} {e : Event} (h : k.CanStep e) :
    k.exec 4096 0 e = .ok (k.after e) := by
  have hok := h.2.2
  unfold Kernel.after
  cases hr : k.exec 4096 0 e with
  | ok k' => rfl
  | hang =>
    rw [hr] at hok
    cases hok
  | wild =>
    rw [hr] at hok
    cases hok

/-- An event that can happen and ends is a step. -/
theorem Kernel.CanStep.step {k : Kernel} {e : Event} (h : k.CanStep e) : k.Step e (k.after e) :=
  ⟨h.1, h.2.1, 4096, 0, .inl h.exec⟩

/-- The states that the machine can reach from boot by events that are allowed. -/
inductive Kernel.Reach (Allowed : Kernel → Event → Prop) : Kernel → Prop
  | boot (b : Boot) (hz : ∀ w, PT_FRAME * MAX_PT_SIZE ≤ w → w < (PT_FRAME + MAX_PT_SIZE) * MAX_PT_SIZE →
      b.mem w = Entry.zero) : Kernel.Reach Allowed (sysinit b)
  | step {k k' : Kernel} {e : Event} (hk : Kernel.Reach Allowed k) (ha : Allowed k e)
      (hs : k.Step e k') : Kernel.Reach Allowed k'

/-- A run under a stronger condition. -/
theorem Kernel.Reach.mono {P Q : Kernel → Event → Prop} (hPQ : ∀ k e, P k e → Q k e) {k : Kernel}
    (h : Kernel.Reach P k) : Kernel.Reach Q k := by
  induction h with
  | boot b hz => exact .boot b hz
  | step _ ha hs ih => exact .step ih (hPQ _ _ ha) hs

end Xinu
