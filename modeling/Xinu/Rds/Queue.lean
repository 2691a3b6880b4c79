import Xinu.Kernel.Sys
import Xinu.Lib.Linked

/-!
# The request queue of a remote disk

The queue of `device/rds`: nodes that are linked in both directions, and a free list through the
forward links. Requests are put at the end by three pieces of code, in `rdsread`, `rdqinsert` and
`rdscontrol`, and taken out anywhere by `rdqunlink`. Callers have interrupts disabled until they are
suspended, and the communication process has a higher priority than they have, so that every
operation is one step.
-/

namespace Xinu

/-- `RD_QNODES`. -/
abbrev RD_QNODES : ℕ := NPROC.toNat

/-- `RD_OP_READ`, `RD_OP_WRITE` and `RD_OP_SYNC`. -/
inductive RdOp where
  | read
  | write
  | sync
  deriving DecidableEq, Repr

/-- `struct rdqnode` without its links. The buffer is named by the process that it belongs to. -/
structure Rdqnode where
  /-- The operation. -/
  rd_op : RdOp
  /-- The number of the block. -/
  rd_blknum : ℕ
  /-- The buffer, by the process that it belongs to. -/
  rd_callbuf : ℤ
  /-- The process that has asked. -/
  rd_pid : ℤ
  deriving DecidableEq

/-- The nodes, and the queue and free list in `struct rdscblk`. -/
structure RdQueue where
  /-- The link of each node. -/
  rd_next : ℕ → Option ℕ
  /-- Its back link. -/
  rd_prev : ℕ → Option ℕ
  /-- The request in it. -/
  rd_req : ℕ → Rdqnode
  /-- The first node of the queue. -/
  rd_qhead : Option ℕ
  /-- The last one. -/
  rd_qtail : Option ℕ
  /-- The first free node. -/
  rd_qfree : Option ℕ

namespace RdQueue

/-- The queue that `rdsopen` makes: all nodes are free. -/
def opened : RdQueue where
  rd_next := fun i => if i + 1 < RD_QNODES then some (i + 1) else none
  rd_prev := fun _ => none
  rd_req := fun _ => ⟨.read, 0, 0, 0⟩
  rd_qhead := none
  rd_qtail := none
  rd_qfree := some 0

/-- `rdqunlink(rdptr, rptr)`. It returns the node behind. -/
def rdqunlink (q : RdQueue) (rptr : ℕ) : RdQueue × Option ℕ :=
  let nptr := q.rd_next rptr
  let q :=
    if q.rd_qhead = some rptr then
      if q.rd_qtail = some rptr then { q with rd_qhead := none, rd_qtail := none }
      else { q with rd_qhead := nptr }
    else if q.rd_qtail = some rptr then
      let pptr := q.rd_prev rptr
      { q with rd_qtail := pptr, rd_next := store q.rd_next pptr none }
    else
      let pptr := q.rd_prev rptr
      { q with rd_next := store q.rd_next pptr nptr, rd_prev := store q.rd_prev nptr pptr }
  ({ q with rd_next := Function.update q.rd_next rptr q.rd_qfree, rd_qfree := some rptr }, nptr)

/-- `rdqinsert(rdptr, rptr)`. -/
def rdqinsert (q : RdQueue) (rptr : ℕ) : RdQueue :=
  let tptr := q.rd_qtail
  let q :=
    { q with rd_next := Function.update q.rd_next rptr none, rd_prev := Function.update q.rd_prev rptr tptr }
  match tptr with
  | none => { q with rd_qhead := some rptr, rd_qtail := some rptr }
  | some t => { q with rd_next := Function.update q.rd_next t (some rptr), rd_qtail := some rptr }

/-- How `rdsread` puts a request at the end. -/
def readInsert (q : RdQueue) (rptr : ℕ) : RdQueue :=
  if q.rd_qhead = none then
    { q with
      rd_qhead := some rptr
      rd_qtail := some rptr
      rd_prev := Function.update q.rd_prev rptr none
      rd_next := Function.update q.rd_next rptr none }
  else
    let tptr := q.rd_qtail
    { q with
      rd_next := Function.update (store q.rd_next tptr (some rptr)) rptr none
      rd_prev := Function.update q.rd_prev rptr tptr
      rd_qtail := some rptr }

/-- How `rdscontrol` puts a request at the end: the old tail does not get a link to it. -/
def syncInsert (q : RdQueue) (rptr : ℕ) : RdQueue :=
  let q := { q with rd_next := Function.update q.rd_next rptr none,
                    rd_prev := Function.update q.rd_prev rptr q.rd_qtail }
  if q.rd_qtail = none then { q with rd_qhead := some rptr, rd_qtail := some rptr }
  else { q with rd_qtail := some rptr }

/-- A node from the free list, with the request filled in. There is none if the free list is `NULL`. -/
def alloc (q : RdQueue) (req : Rdqnode) : Option (ℕ × RdQueue) :=
  q.rd_qfree.map fun rptr =>
    (rptr, { q with rd_qfree := q.rd_next rptr, rd_req := Function.update q.rd_req rptr req })

/-- The search of `rdsread`, backward from the tail: the first request for the block. There is no
result if it has not ended after as many nodes as there are. -/
def search (q : RdQueue) (blk : ℕ) : Option (Option ℕ) :=
  walk q.rd_prev (fun rptr => (q.rd_req rptr).rd_blknum = blk) RD_QNODES q.rd_qtail

/-- `rdsread` of a block that is not in the cache, up to `suspend`. The node is that of the request,
or of the write that has the block; the result is none if the search does not end or no node is
free. -/
def read (q : RdQueue) (p : ℤ) (blk : ℕ) : Option (RdQueue × ℕ ⊕ ℕ) :=
  match q.search blk with
  | none => none
  | some hit =>
    match hit.filter fun rptr => (q.rd_req rptr).rd_op = .write with
    | some rptr => some (.inr rptr)
    | none => (q.alloc ⟨.read, blk, p, p⟩).map fun r => .inl (r.2.readInsert r.1, r.1)

/-- `rdswrite`, up to `suspend`. -/
def write (q : RdQueue) (p : ℤ) (blk : ℕ) : Option (RdQueue × ℕ) :=
  (q.alloc ⟨.write, blk, p, p⟩).map fun r => (r.2.rdqinsert r.1, r.1)

/-- `RDS_CTL_SYNC`, up to `suspend`, when the queue is not empty. -/
def sync (q : RdQueue) (p : ℤ) : Option (RdQueue × ℕ) :=
  (q.alloc ⟨.sync, 0, 0, p⟩).map fun r => (r.2.syncInsert r.1, r.1)

end RdQueue

/-- What happens to the queue. -/
inductive QueueEvent where
  | read (p : ℤ) (blk : ℕ)
  | write (p : ℤ) (blk : ℕ)
  | sync (p : ℤ)
  /-- The communication process removes a request. -/
  | unlink (rptr : ℕ)

/-- The process is not suspended in a request. -/
def RdQueue.MayCall (q : RdQueue) (pending : List ℕ) (p : ℤ) : Prop :=
  0 ≤ p ∧ p < NPROC ∧ ∀ a ∈ pending, (q.rd_req a).rd_pid ≠ p

instance RdQueue.decidableMayCall (q : RdQueue) (pending : List ℕ) (p : ℤ) :
    Decidable (q.MayCall pending p) := by
  unfold RdQueue.MayCall
  infer_instance

/-- One step, if it is possible, with the pending requests in the order of their arrival. -/
def RdQueue.exec (q : RdQueue) (pending : List ℕ) : QueueEvent → Option (RdQueue × List ℕ)
  | .read p blk =>
    if q.MayCall pending p then
      match q.read p blk with
      | none => none
      | some (.inr _) => some (q, pending)
      | some (.inl r) => some (r.1, pending ++ [r.2])
    else none
  | .write p blk => if q.MayCall pending p then (q.write p blk).map fun r => (r.1, pending ++ [r.2]) else none
  | .sync p =>
    if q.MayCall pending p then
      if q.rd_qhead = none then some (q, pending) else (q.sync p).map fun r => (r.1, pending ++ [r.2])
    else none
  | .unlink rptr => if rptr ∈ pending then some ((q.rdqunlink rptr).1, pending.erase rptr) else none

end Xinu
