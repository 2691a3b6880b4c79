import Xinu.Rds.Queue
import Xinu.Rds.Cache

/-!
# A remote disk

`rdsread`, `rdswrite` and the communication process of `device/rds`. The latter runs from one point
where it blocks to the next: it waits for a request, or for the answer of the server in `rdscomm`.
The server stores blocks, and answers each request. Blocks are copied as a whole.
-/

namespace Xinu

/-- Where the communication process blocks. -/
inductive Comm (β : Type) where
  /-- For a request, in `wait`. -/
  | waiting
  /-- For the answer to a read request. -/
  | reading (rptr blk : ℕ)
  /-- For the answer to a write request. -/
  | writing (blk : ℕ) (data : β)

/-- The disk: the control block, the processes with their buffers, and the server. -/
structure Disk (β : Type) where
  /-- The queue of requests. -/
  queue : RdQueue
  /-- The cache of blocks. -/
  cache : RdCache β
  /-- The permits of the semaphore of the communication process. -/
  rd_comsem : ℕ
  /-- Where the communication process is. -/
  comm : Comm β
  /-- The buffer of each process. -/
  bufs : ℤ → β
  /-- Whether the process is suspended. -/
  suspended : ℤ → Bool
  /-- The blocks of the server. -/
  server : ℕ → β

/-- A read that has been satisfied: the process, the block and the data in its buffer. -/
structure ReadDone (β : Type) where
  /-- The process. -/
  pid : ℤ
  /-- The block. -/
  blk : ℕ
  /-- The data in the buffer. -/
  data : β
  deriving DecidableEq

namespace Disk

variable {β : Type}

/-- The disk after `rdsopen`. -/
def opened (bufs : ℤ → β) (server : ℕ → β) : Disk β where
  queue := .opened
  cache := .opened (server 0)
  rd_comsem := 0
  comm := .waiting
  bufs := bufs
  suspended := fun _ => false
  server := server

/-- `resume(pid)`. -/
def resume (d : Disk β) (pid : ℤ) : Disk β := { d with suspended := Function.update d.suspended pid false }

/-- The end of a request: `signal(rdptr->rd_comsem); suspend(getpid())`. -/
def await (d : Disk β) (p : ℤ) : Disk β :=
  { d with rd_comsem := d.rd_comsem + 1, suspended := Function.update d.suspended p true }

/-- `rdsread(devptr, buff, blk)`, up to `suspend`. -/
def rdsread (d : Disk β) (p : ℤ) (blk : ℕ) : Option (Disk β × List (ReadDone β)) :=
  match d.cache.find blk with
  | none => none
  | some (some cptr) =>
    let data := d.cache.rd_data cptr
    some ({ d with bufs := Function.update d.bufs p data }, [⟨p, blk, data⟩])
  | some none =>
    match d.queue.read p blk with
    | none => none
    | some (.inr rptr) =>
      let data := d.bufs (d.queue.rd_req rptr).rd_callbuf
      some ({ d with bufs := Function.update d.bufs p data }, [⟨p, blk, data⟩])
    | some (.inl r) => some ({ d with queue := r.1 }.await p, [])

/-- `rdswrite(devptr, buff, blk)`, up to `suspend`. -/
def rdswrite (d : Disk β) (p : ℤ) (blk : ℕ) : Option (Disk β × List (ReadDone β)) :=
  (d.cache.uncache blk).bind fun cache =>
    (d.queue.write p blk).map fun r => ({ d with cache := cache, queue := r.1 }.await p, [])

/-- The check for subsequent writes in `rdsprocess`. The loop looks at the next node only: if this
is neither `NULL` nor a write of the block, the loop does not end. -/
def laterWrite (q : RdQueue) (rptr blk : ℕ) : Option Bool :=
  match q.rd_next rptr with
  | none => some false
  | some tptr => if (q.rd_req tptr).rd_blknum = blk ∧ (q.rd_req tptr).rd_op = .write then some true else none

/-- The rest of a write request: the process is resumed, the node is unlinked, and the data go to
the server. -/
def transmit (d : Disk β) (rptr : ℕ) (cache : RdCache β) : Disk β :=
  let req := d.queue.rd_req rptr
  { d.resume req.rd_pid with
    cache := cache, queue := (d.queue.rdqunlink rptr).1
    comm := .writing req.rd_blknum (d.bufs req.rd_callbuf) }

/-- `rdsprocess`, from `wait` to the next point where it blocks. -/
def rdsprocess (d : Disk β) : Option (Disk β × List (ReadDone β)) :=
  let d := { d with rd_comsem := d.rd_comsem - 1 }
  match d.queue.rd_qhead with
  | none => some (d, [])
  | some rptr =>
    let req := d.queue.rd_req rptr
    match req.rd_op with
    | .sync => some ({ d.resume req.rd_pid with queue := (d.queue.rdqunlink rptr).1 }, [])
    | .read => some ({ d with comm := .reading rptr req.rd_blknum }, [])
    | .write =>
      match laterWrite d.queue rptr req.rd_blknum with
      | none => none
      | some later =>
        (if later then some d.cache else d.cache.rdcinsert req.rd_blknum (d.bufs req.rd_callbuf)).map
          fun cache =>
          (d.transmit rptr cache, [])

/-- A read request gets its data: the buffer is filled, the process is resumed, and the node is
unlinked. The next node is returned too. -/
def satisfy (d : Disk β) (rptr : ℕ) (data : β) : Disk β × Option ℕ :=
  let req := d.queue.rd_req rptr
  let r := d.queue.rdqunlink rptr
  ({ d.resume req.rd_pid with bufs := Function.update d.bufs req.rd_callbuf data, queue := r.1 }, r.2)

/-- The loop of `rdsprocess` behind the answer to a read request: subsequent reads of the block get
the data too, up to a write of it. -/
def satisfyAll (blk : ℕ) (data : β) : ℕ → Option ℕ → Disk β → Option (Disk β × List (ReadDone β))
  | _, none, d => some (d, [])
  | 0, some _, _ => none
  | n + 1, some rptr, d =>
    let req := d.queue.rd_req rptr
    if req.rd_blknum ≠ blk then satisfyAll blk data n (d.queue.rd_next rptr) d
    else match req.rd_op with
    | .write => some (d, [])
    | .read =>
      let r := d.satisfy rptr data
      (satisfyAll blk data n r.2 r.1).map fun t => (t.1, ⟨req.rd_pid, blk, data⟩ :: t.2)
    | .sync => satisfyAll blk data n (d.queue.rd_next rptr) d

/-- The server handles the request it has, and `rdsprocess` goes on behind `rdscomm`. -/
def answer (d : Disk β) : Option (Disk β × List (ReadDone β)) :=
  match d.comm with
  | .waiting => none
  | .writing blk data => some ({ d with server := Function.update d.server blk data, comm := .waiting }, [])
  | .reading rptr blk =>
    let data := d.server blk
    let d' := ({ d with comm := .waiting }.satisfy rptr data).1
    (satisfyAll blk data RD_QNODES d'.queue.rd_qhead d').map fun t =>
      (t.1, ⟨(d.queue.rd_req rptr).rd_pid, blk, data⟩ :: t.2)

end Disk

/-- What happens. -/
inductive DiskEvent (β : Type) where
  | read (p : ℤ) (blk : ℕ)
  /-- A process writes what is in its buffer. -/
  | write (p : ℤ) (blk : ℕ)
  /-- A process fills its buffer. -/
  | fill (p : ℤ) (data : β)
  /-- The communication process runs from `wait` on. -/
  | comm
  /-- It gets the answer of the server. -/
  | answer

/-- The communication process waits for a request. -/
def Comm.IsWaiting {β : Type} : Comm β → Prop
  | .waiting => True
  | _ => False

/-- A process that is suspended makes no calls; the communication process runs if the semaphore lets it. -/
def Disk.Enabled {β : Type} (d : Disk β) : DiskEvent β → Prop
  | .read p _ | .write p _ | .fill p _ => 0 ≤ p ∧ p < NPROC ∧ d.suspended p = false
  | .comm => 0 < d.rd_comsem ∧ d.comm.IsWaiting
  | .answer => ¬ d.comm.IsWaiting

instance Comm.decidableIsWaiting {β : Type} : (c : Comm β) → Decidable c.IsWaiting
  | .waiting => .isTrue trivial
  | .reading _ _ => .isFalse id
  | .writing _ _ => .isFalse id

instance Disk.decidableEnabled {β : Type} (d : Disk β) : (ev : DiskEvent β) → Decidable (d.Enabled ev)
  | .read p _ | .write p _ | .fill p _ =>
    inferInstanceAs (Decidable (0 ≤ p ∧ p < NPROC ∧ d.suspended p = false))
  | .comm => inferInstanceAs (Decidable (0 < d.rd_comsem ∧ d.comm.IsWaiting))
  | .answer => inferInstanceAs (Decidable (¬ d.comm.IsWaiting))

/-- One step. There is none if a loop does not end. -/
def Disk.exec {β : Type} (d : Disk β) : DiskEvent β → Option (Disk β × List (ReadDone β))
  | .read p blk => d.rdsread p blk
  | .write p blk => d.rdswrite p blk
  | .fill p data => some ({ d with bufs := Function.update d.bufs p data }, [])
  | .comm => d.rdsprocess
  | .answer => d.answer

end Xinu
