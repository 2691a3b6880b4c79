import Xinu.Kernel.Sys
import Xinu.Lib.Linked
import Xinu.Lib.Semaphore

/-!
# Ports

The calls of `ptsend.c`, `ptrecv.c`, `ptcreate.c`, `ptreset.c`, `ptdelete.c`, `ptclear.c`,
`ptcount.c` and `ptinit.c`. A call runs with interrupts disabled up to a wait, a call of the
disposal function, or a `semreset` or `semdelete` that lets other processes run: there a step ends.
The history, which the code does not have, is the `era` of a port, the number of times that `ptseq`
has been incremented, the `count` that it was created with, and the messages that have been
accepted, delivered and disposed of.
-/

namespace Xinu

/-- `NPORTS`. -/
abbrev NPORTS : ℕ := 30

/-- The states of a port. -/
inductive PtState where
  /-- `PT_FREE`. -/
  | free
  /-- `PT_LIMBO`: it is being deleted or reset. -/
  | limbo
  /-- `PT_ALLOC`. -/
  | alloc
  deriving DecidableEq

/-- What a process waits for. -/
inductive PtOp where
  | send (msg : UInt32)
  | recv
  deriving DecidableEq

/-- The two sides of a port. -/
inductive PtSide where
  | sender
  | receiver
  deriving DecidableEq

/-- The side that a process is on. -/
def PtOp.side : PtOp → PtSide
  | .send _ => .sender
  | .recv => .receiver

/-- A process in `ptsend` or `ptrecv`, with its local variable `seq`. -/
structure PtCall where
  /-- Which call it is, with its message. -/
  op : PtOp
  /-- The port. -/
  portid : ℕ
  /-- The sequence number of the port when it was called. -/
  seq : ℤ
  /-- The era of the port then. -/
  era : ℕ
  deriving DecidableEq

/-- Where a process is in `_ptclear`. -/
inductive PtStage where
  /-- At the head of the loop over the messages. -/
  | dispose (walk : Option ℕ)
  /-- In the disposal function. -/
  | disposing (walk : ℕ)
  /-- The nodes are on the free list. -/
  | semaphores
  /-- Behind the first `semreset` or `semdelete`. -/
  | second
  /-- Behind the second one. -/
  | last
  deriving DecidableEq

/-- A process in `_ptclear`. -/
structure PtClear where
  /-- The state that the port gets. -/
  newstate : PtState
  /-- Where the process is. -/
  stage : PtStage
  deriving DecidableEq

/-- `struct ptentry`, with the process that is in `_ptclear` for it. A semaphore that could not be
created, or is deleted, is none. -/
structure PtEntry where
  /-- The semaphore of the senders: it counts the free places. -/
  ptssem : Option (Semaphore PtCall)
  /-- The semaphore of the receivers: it counts the messages. -/
  ptrsem : Option (Semaphore PtCall)
  /-- The state of the port. -/
  ptstate : PtState
  /-- How many messages it holds at most. -/
  ptmaxcnt : ℕ
  /-- Its sequence number, a word. -/
  ptseq : ℤ
  /-- The first message of the queue. -/
  pthead : Option ℕ
  /-- The last one. -/
  pttail : Option ℕ
  /-- The process that is clearing the port. -/
  clearing : Option PtClear
  /-- How often the port has been created and cleared, counted without wrap. -/
  era : ℕ
  /-- For how many messages it was created. -/
  count : ℕ

/-- A message of a port, in one of its eras. -/
structure PtMsg where
  /-- The port. -/
  portid : ℕ
  /-- The era in which it was accepted. -/
  era : ℕ
  /-- The message. -/
  msg : UInt32
  deriving DecidableEq

/-- Why the system has stopped. -/
inductive PtStop where
  /-- `ptinit` gets no memory. -/
  | noMemory
  /-- `ptsend` finds no free node. -/
  | noNodes
  /-- `ptrecv` follows a null pointer. -/
  | nullNode
  deriving DecidableEq

/-- The port table, the nodes of the messages, and the processes in `stale`, which waited when their
semaphore was reset or deleted, or had not gone on yet. -/
structure Ports where
  /-- The port table. -/
  porttab : ℕ → PtEntry
  /-- Where the search for a free port begins. -/
  ptnextid : ℕ
  /-- The first free node. -/
  ptfree : Option ℕ
  /-- The message in each node. -/
  ptmsg : ℕ → UInt32
  /-- The link of each node. -/
  ptnext : ℕ → Option ℕ
  /-- The processes that waited when their semaphore was reset or deleted, and have not gone on yet. -/
  stale : List PtCall
  /-- Why the system has stopped, if it has. -/
  stopped : Option PtStop
  /-- The messages that ports have accepted. -/
  accepted : List PtMsg
  /-- Those that receivers have got. -/
  delivered : List PtMsg
  /-- Those that have been given to a disposal function. -/
  disposed : List PtMsg
  /-- The calls that have returned `SYSERR` behind their wait, with the era of the port then. -/
  failed : List (PtCall × ℕ)

/-- `isbadport(portid)`. -/
abbrev isbadport (portid : ℤ) : Prop := portid < 0 ∨ portid ≥ NPORTS

namespace PtEntry

/-- An entry that `ptinit` has written. -/
def unused : PtEntry where
  ptssem := none
  ptrsem := none
  ptstate := .free
  ptmaxcnt := 0
  ptseq := 0
  pthead := none
  pttail := none
  clearing := none
  era := 0
  count := 0

/-- The semaphore of a side. -/
def sem (e : PtEntry) : PtSide → Option (Semaphore PtCall)
  | .sender => e.ptssem
  | .receiver => e.ptrsem

/-- A semaphore changes. -/
def setSem (e : PtEntry) (sem : Semaphore PtCall) : PtSide → PtEntry
  | .sender => { e with ptssem := some sem }
  | .receiver => { e with ptrsem := some sem }

end PtEntry

/-- The processes that are blocked on a semaphore, or woken and not gone on. -/
def Semaphore.callers (sem : Option (Semaphore PtCall)) : List PtCall := sem.elim [] Semaphore.blocked

namespace Ports

/-- `ptinit(maxmsgs)`. -/
def ptinit (maxmsgs : ℕ) : Ports where
  porttab _ := .unused
  ptnextid := 0
  ptfree := if 0 < maxmsgs then some 0 else none
  ptmsg _ := 0
  ptnext i := if i + 1 < maxmsgs then some (i + 1) else none
  stale := []
  stopped := if 0 < maxmsgs then none else some .noMemory
  accepted := []
  delivered := []
  disposed := []
  failed := []

/-- An entry of the port table changes. -/
def setPort (s : Ports) (p : ℕ) (e : PtEntry) : Ports := { s with porttab := Function.update s.porttab p e }

/-- The loop of `ptcreate`. -/
def ptcreateLoop (count : ℕ) (ssem rsem : Bool) : ℕ → Ports → ℤ × Ports
  | 0, s => (SYSERR, s)
  | n + 1, s =>
    let ptnum := s.ptnextid
    let s := { s with ptnextid := if ptnum + 1 ≥ NPORTS then 0 else ptnum + 1 }
    let e := s.porttab ptnum
    if e.ptstate = .free then
      (ptnum, s.setPort ptnum { e with
        ptstate := .alloc
        ptssem := if ssem then some (.create count) else none
        ptrsem := if rsem then some (.create 0) else none
        pthead := none
        pttail := none
        ptseq := int32 (e.ptseq + 1)
        ptmaxcnt := count % 2 ^ 16
        era := e.era + 1
        count := count })
    else ptcreateLoop count ssem rsem n s

/-- `ptcreate(count)`. The two flags say whether `semcreate` finds a free entry. -/
def ptcreate (s : Ports) (count : ℤ) (ssem rsem : Bool) : ℤ × Ports :=
  if count < 0 then (SYSERR, s) else ptcreateLoop count.toNat ssem rsem NPORTS s

/-- The part of `ptsend` behind the checks. -/
def enqueue (s : Ports) (c : PtCall) (msg : UInt32) : Ports :=
  match s.ptfree with
  | none => { s with stopped := some .noNodes }
  | some msgnode =>
    let e := s.porttab c.portid
    let ptnext := Function.update s.ptnext msgnode none
    { s.setPort c.portid { e with
        pthead := if e.pttail = none then some msgnode else e.pthead
        pttail := some msgnode
        ptrsem := e.ptrsem.map .signal } with
      ptfree := s.ptnext msgnode
      ptmsg := Function.update s.ptmsg msgnode msg
      -- a port that is empty has no last node
      ptnext := store ptnext e.pttail (some msgnode)
      accepted := s.accepted ++ [⟨c.portid, c.era, msg⟩] }

/-- The part of `ptrecv` behind the checks. -/
def dequeue (s : Ports) (c : PtCall) : Ports :=
  let e := s.porttab c.portid
  match e.pthead with
  | none => { s with stopped := some .nullNode }
  | some msgnode =>
    let emptied := e.pthead = e.pttail
    { s.setPort c.portid { e with
        pthead := if emptied then none else s.ptnext msgnode
        pttail := if emptied then none else e.pttail
        ptssem := e.ptssem.map .signal } with
      ptnext := Function.update s.ptnext msgnode s.ptfree
      ptfree := some msgnode
      delivered := s.delivered ++ [⟨c.portid, c.era, s.ptmsg msgnode⟩] }

/-- What `ptsend` and `ptrecv` do when their wait is over. -/
def goOn (s : Ports) (c : PtCall) : Ports :=
  let e := s.porttab c.portid
  if e.ptstate ≠ .alloc ∨ e.ptseq ≠ c.seq then { s with failed := s.failed ++ [(c, e.era)] }
  else
    match c.op with
    | .send msg => s.enqueue c msg
    | .recv => s.dequeue c

/-- The part of `ptsend` and `ptrecv` up to the wait. A call that is refused returns `SYSERR` and
changes nothing. -/
def call (s : Ports) (portid : ℤ) (op : PtOp) : Ports :=
  let e := s.porttab portid.toNat
  if isbadport portid ∨ e.ptstate ≠ .alloc then s
  else
    match e.sem op.side with
    | none => s
    | some sem =>
      let c : PtCall := ⟨op, portid.toNat, e.ptseq, e.era⟩
      let s := s.setPort c.portid (e.setSem (sem.wait c).2 op.side)
      if (sem.wait c).1 then s.goOn c else s

/-- `ptsend(portid, msg)`. -/
def ptsend (s : Ports) (portid : ℤ) (msg : UInt32) : Ports := s.call portid (.send msg)

/-- `ptrecv(portid)`. -/
def ptrecv (s : Ports) (portid : ℤ) : Ports := s.call portid .recv

/-- A process that a signal has woken on a semaphore goes on. -/
def resume (s : Ports) (p k : ℕ) (side : PtSide) : Option Ports :=
  let e := s.porttab p
  ((e.sem side).bind (·.resume k)).map fun r => (s.setPort p (e.setSem r.2 side)).goOn r.1

/-- `ptreset` and `ptdelete`, up to the loop of `_ptclear`. -/
def startClear (s : Ports) (portid : ℤ) (newstate : PtState) : Ports :=
  let e := s.porttab portid.toNat
  if isbadport portid ∨ e.ptstate ≠ .alloc then s
  else
    s.setPort portid.toNat { e with
      ptstate := .limbo
      ptseq := int32 (e.ptseq + 1)
      era := e.era + 1
      clearing := some ⟨newstate, if e.pthead = none then .semaphores else .dispose e.pthead⟩ }

/-- `ptreset(portid, disp)`. -/
def ptreset (s : Ports) (portid : ℤ) : Ports := s.startClear portid .alloc

/-- `ptdelete(portid, disp)`. -/
def ptdelete (s : Ports) (portid : ℤ) : Ports := s.startClear portid .free

/-- A semaphore behind `semreset`, or `semdelete` where the port becomes free. -/
def cleared (newstate : PtState) (count : ℤ) (sem : Option (Semaphore PtCall)) : Option (Semaphore PtCall) :=
  if newstate = .alloc then sem.map fun _ => .create count else none

/-- A process in `_ptclear` goes on, to the next place where others may run. -/
def clear (s : Ports) (p : ℕ) : Option Ports :=
  let e := s.porttab p
  e.clearing.map fun c =>
    match c.stage with
    | .dispose (some walk) =>
      { s.setPort p { e with clearing := some { c with stage := .disposing walk } } with
        disposed := s.disposed ++ [⟨p, e.era - 1, s.ptmsg walk⟩] }
    | .disposing walk => s.setPort p { e with clearing := some { c with stage := .dispose (s.ptnext walk) } }
    | .dispose none =>
      { s.setPort p { e with clearing := some { c with stage := .semaphores } } with
        ptnext := store s.ptnext e.pttail s.ptfree
        ptfree := e.pthead }
    | .semaphores =>
      { s.setPort p { e with
          pthead := if c.newstate = .alloc then none else e.pthead
          pttail := if c.newstate = .alloc then none else e.pttail
          ptssem := cleared c.newstate e.ptmaxcnt e.ptssem
          clearing := some { c with stage := .second } } with
        stale := s.stale ++ Semaphore.callers e.ptssem }
    | .second =>
      { s.setPort p { e with
          ptrsem := cleared c.newstate 0 e.ptrsem
          clearing := some { c with stage := .last } } with
        stale := s.stale ++ Semaphore.callers e.ptrsem }
    | .last =>
      { s.setPort p { e with ptstate := c.newstate, clearing := none } with
        ptnextid := if c.newstate = .free then p else s.ptnextid }

/-- `semcount(sem)`. -/
def semcount (sem : Option (Semaphore PtCall)) : ℤ := sem.elim SYSERR Semaphore.count

/-- `ptcount(portid)`. -/
def ptcount (s : Ports) (portid : ℤ) : ℤ :=
  let e := s.porttab portid.toNat
  if isbadport portid ∨ e.ptstate ≠ .alloc then SYSERR
  else
    let count := semcount e.ptrsem
    let sndcnt := semcount e.ptssem
    if count ≥ 0 ∧ sndcnt < 0 then count + -sndcnt else count

end Ports

/-- What can happen. -/
inductive PtEvent where
  | ptcreate (count : ℤ) (ssem rsem : Bool)
  | ptsend (portid : ℤ) (msg : UInt32)
  | ptrecv (portid : ℤ)
  | ptreset (portid : ℤ)
  | ptdelete (portid : ℤ)
  /-- The process in `_ptclear` goes on. -/
  | clear (p : ℕ)
  /-- The `k`-th sender or receiver that a signal has woken goes on. -/
  | woken (p k : ℕ) (side : PtSide)
  /-- A process goes on whose semaphore has been reset or deleted. -/
  | stale (k : ℕ)

/-- One step, if it is possible. -/
def Ports.exec (s : Ports) (e : PtEvent) : Option Ports :=
  if s.stopped ≠ none then none
  else
    match e with
    | .ptcreate count ssem rsem => some (s.ptcreate count ssem rsem).2
    | .ptsend portid msg => some (s.ptsend portid msg)
    | .ptrecv portid => some (s.ptrecv portid)
    | .ptreset portid => some (s.ptreset portid)
    | .ptdelete portid => some (s.ptdelete portid)
    | .clear p => if p < NPORTS then s.clear p else none
    | .woken p k side => if p < NPORTS then s.resume p k side else none
    | .stale k => s.stale[k]?.map fun c => Ports.goOn { s with stale := s.stale.eraseIdx k } c

/-- A run from one state to another, with steps that meet a condition. -/
inductive PtRun (C : Ports → PtEvent → Prop) (s₀ : Ports) : Ports → Prop where
  | start : PtRun C s₀ s₀
  | step {s s' : Ports} {e : PtEvent} (hr : PtRun C s₀ s) (hC : C s e) (he : s.exec e = some s') :
    PtRun C s₀ s'

end Xinu
