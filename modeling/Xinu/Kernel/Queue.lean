import Xinu.Kernel.Sys

/-!
# Queues

`system/queue.c`, `system/getitem.c`, `system/insert.c`, `system/insertd.c` and `system/newqueue.c`. The loops
that walk a queue take the size of the table as fuel: a walk of more steps has come back to an entry and
never ends.
-/

namespace Xinu

namespace Sys

/-- `firstid(q)`. -/
def firstid (s : Sys) (q : ℤ) : ℤ := (s.queuetab q).qnext

/-- `firstkey(q)`. -/
def firstkey (s : Sys) (q : ℤ) : ℤ := s.key (s.firstid q)

/-- `isempty(q)`. -/
def isempty (s : Sys) (q : ℤ) : Prop := s.firstid q ≥ NPROC

instance (s : Sys) (q : ℤ) : Decidable (s.isempty q) := inferInstanceAs (Decidable (_ ≥ _))

/-! ## Taking out -/

/-- `getitem(pid)`. -/
def getitem (s : Sys) (pid : ℤ) : Sys :=
  let next := (s.queuetab pid).qnext
  let prev := (s.queuetab pid).qprev
  (s.setNext prev next).setPrev next prev

/-- `getfirst(q)`. -/
def getfirst (s : Sys) (q : ℤ) : ℤ × Sys :=
  if s.isempty q then (EMPTY, s) else (s.firstid q, s.getitem (s.firstid q))

/-- `dequeue(q)`. -/
def dequeue (s : Sys) (q : ℤ) : ℤ × Sys :=
  if isbadqid q then (SYSERR, s)
  else if s.isempty q then (EMPTY, s)
  else
    let r := s.getfirst q
    (r.1, (r.2.setPrev r.1 EMPTY).setNext r.1 EMPTY)

/-! ## Putting in -/

/-- The assignments that link an entry in between two others. -/
def link (s : Sys) (pid prev next key : ℤ) : Sys :=
  ((s.setQ pid fun _ => { qkey := key, qnext := next, qprev := prev }).setNext prev pid).setPrev
    next pid

/-- `enqueue(pid, q)`. -/
def enqueue (s : Sys) (pid q : ℤ) : Sys :=
  if isbadqid q ∨ s.isbadpid pid then s
  else s.link pid (s.queuetab (q + 1)).qprev (q + 1) (s.key pid)

/-- `while (queuetab[curr].qkey >= key)`. -/
def insertPos (s : Sys) (key : ℤ) : ℕ → ℤ → Res ℤ
  | 0, _ => .hang
  | fuel + 1, curr =>
    if s.key curr ≥ key then s.insertPos key fuel (s.queuetab curr).qnext else .ok curr

/-- `insert(pid, q, key)`. -/
def insert (s : Sys) (pid q key : ℤ) : Res Sys :=
  if isbadqid q ∨ s.isbadpid pid then .ok s
  else do
    let curr ← s.insertPos key NQENT.toNat (s.firstid q)
    .ok (s.link pid (s.queuetab curr).qprev curr key)

/-- The loop of `insertd`: `prev`, `next` and `key` when it ends. -/
def insertdPos (s : Sys) (q : ℤ) : ℕ → ℤ → ℤ → ℤ → Res (ℤ × ℤ × ℤ)
  | 0, _, _, _ => .hang
  | fuel + 1, prev, next, key =>
    if next ≠ q + 1 ∧ s.key next ≤ key then
      s.insertdPos q fuel next (s.queuetab next).qnext (int32 (key - s.key next))
    else .ok (prev, next, key)

/-- `insertd(pid, q, key)`. -/
def insertd (s : Sys) (pid q key : ℤ) : Res (Status × Sys) :=
  if isbadqid q ∨ s.isbadpid pid then .ok (.syserr, s)
  else do
    let r ← s.insertdPos q NQENT.toNat q (s.queuetab q).qnext key
    let s := s.link pid r.1 r.2.1 r.2.2
    .ok (.ok, if r.2.1 ≠ q + 1 then s.setKey r.2.1 (int32 (s.key r.2.1 - r.2.2)) else s)

/-! ## Queues at boot -/

/-- `newqueue()`. -/
def newqueue (s : Sys) : ℤ × Sys :=
  let q := s.nextqid
  if q ≥ NQENT then (SYSERR, s)
  else
    (q, ({ s with nextqid := q + 2 }.setQ q
      fun _ => { qnext := q + 1, qprev := EMPTY, qkey := MAXKEY }).setQ (q + 1)
      fun _ => { qnext := EMPTY, qprev := q, qkey := MINKEY })

end Sys

end Xinu
