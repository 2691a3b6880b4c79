import Xinu.Port.Ports
import Xinu.Lib.Shares

/-!
# Ports deliver each message once, in order

`PortsOk` is the invariant: the nodes are shared between the free list and the queues, the
semaphores of a port count its messages and its free places, and the history of each era of a port
is what has been delivered, what has been disposed of and what is still queued, in this order.
`PortsOk.change` says what a step at one port has to show, and there is a lemma for each part of a
call. A process that has used a permit and has not gone on is `sending` or `receiving`; between two
steps there is none.
-/

namespace Xinu

/-! ## Histories -/

/-- The messages of one era of a port, in order. -/
def PtMsg.ofEra (l : List PtMsg) (p era : ℕ) : List UInt32 :=
  (l.filter fun x => x.portid = p ∧ x.era = era).map PtMsg.msg

/-- One message more. -/
theorem PtMsg.ofEra_concat (l : List PtMsg) (x : PtMsg) (p era : ℕ) :
    ofEra (l ++ [x]) p era = ofEra l p era ++ if x.portid = p ∧ x.era = era then [x.msg] else [] := by
  unfold ofEra
  rw [List.filter_append, List.map_append, List.filter_singleton]
  by_cases hx : x.portid = p ∧ x.era = era
  · rw [decide_eq_true hx, if_pos hx, cond_true, List.map_singleton]
  · rw [decide_eq_false hx, if_neg hx, cond_false, List.map_nil]

/-- An era to which no message belongs. -/
theorem PtMsg.ofEra_eq_nil {l : List PtMsg} {p era : ℕ} (h : ∀ x ∈ l, x.portid = p → x.era ≠ era) :
    ofEra l p era = [] := by
  unfold ofEra
  rw [List.filter_eq_nil_iff.mpr, List.map_nil]
  rintro x hx
  simp only [decide_eq_true_eq, not_and]
  exact h x hx

/-! ## The invariant -/

/-- The messages that a port may hold, as its creator sees it. -/
def PtEntry.promise (e : PtEntry) : ℕ := if e.ptstate = .free then 0 else e.count

/-- What a port holds: its queue, what is left of it for the disposal function, the messages it may
hold, and the processes that have used a permit of a semaphore and have not gone on. -/
structure PtPlace where
  /-- The nodes of its queue, in order. -/
  queue : List ℕ
  /-- The nodes that are left for the disposal function. -/
  left : List ℕ
  /-- How many messages it may hold. -/
  permits : ℕ
  /-- How many senders have used a permit and have not gone on. -/
  sending : ℕ
  /-- How many receivers have. -/
  receiving : ℕ

/-- The free nodes, and what each port holds. -/
structure PtView where
  /-- The free nodes, in the order of the links. -/
  free : List ℕ
  /-- What each port holds. -/
  port : ℕ → PtPlace

/-- The era of the messages of a port, and of the processes that wait there. -/
def PtEntry.current (e : PtEntry) : ℕ := if e.ptstate = .alloc then e.era else e.era - 1

/-- The queue of a port. -/
structure Queued (next : ℕ → Option ℕ) (e : PtEntry) (q : List ℕ) : Prop where
  /-- The links lead from the head through the queue. -/
  path : LinkPath next e.pthead q none
  /-- The tail is its last node. -/
  last : e.pttail = q.getLast?

/-- The semaphores of a port count its free places and its messages. -/
structure PtCounted (e : PtEntry) (w : PtPlace) : Prop where
  /-- The permits for senders, the messages, and the senders with a permit are all places. -/
  places : ∀ x, e.ptssem = some x → x.Ok ∧ x.unused + w.queue.length + w.sending = w.permits
  /-- Without a semaphore for senders, there is no message and no such sender. -/
  closed : e.ptssem = none → w.queue = [] ∧ w.sending = 0
  /-- The permits for receivers, and the receivers with a permit, are the messages. -/
  messages : ∀ x, e.ptrsem = some x → x.Ok ∧ x.unused + w.receiving = w.queue.length
  /-- Without a semaphore for receivers, there is no such receiver. -/
  deaf : e.ptrsem = none → w.receiving = 0

/-- The state of a port, and where the process in `_ptclear` is. -/
inductive PtPhase (next : ℕ → Option ℕ) (e : PtEntry) (w : PtPlace) : Prop where
  | free (hs : e.ptstate = .free) (hc : e.clearing = none) (hss : e.ptssem = none) (hrs : e.ptrsem = none)
      (hq : w.queue = []) (hl : w.left = [])
  | alloc (hs : e.ptstate = .alloc) (hc : e.clearing = none)
    (hq : Queued next e w.queue) (hl : w.left = w.queue) (hn : PtCounted e w)
  | dispose (n : PtState) (walk : Option ℕ) (done : List ℕ)
    (hs : e.ptstate = .limbo) (hc : e.clearing = some ⟨n, .dispose walk⟩)
      (hn : n ≠ .limbo) (hq : Queued next e w.queue) (hne : w.queue ≠ [])
      (hd : w.queue = done ++ w.left) (hw : LinkPath next walk w.left none)
      (hle : w.queue.length ≤ w.permits)
  | disposing (n : PtState) (walk : ℕ) (done : List ℕ) (hs : e.ptstate = .limbo)
    (hc : e.clearing = some ⟨n, .disposing walk⟩)
      (hn : n ≠ .limbo) (hq : Queued next e w.queue) (hd : w.queue = done ++ walk :: w.left)
      (hw : LinkPath next (next walk) w.left none)
      (hle : w.queue.length ≤ w.permits)
  | semaphores (n : PtState) (hs : e.ptstate = .limbo) (hc : e.clearing = some ⟨n, .semaphores⟩)
    (hn : n ≠ .limbo)
      (hq : w.queue = []) (hl : w.left = [])
  | second (n : PtState) (hs : e.ptstate = .limbo) (hc : e.clearing = some ⟨n, .second⟩) (hn : n ≠ .limbo)
      (hq : w.queue = []) (hl : w.left = []) (hnil : n = .alloc → e.pthead = none ∧ e.pttail = none)
      (hss : ∀ x, e.ptssem = some x → x = .create w.permits) (hnone : n ≠ .alloc → e.ptssem = none)
  | last (n : PtState) (hs : e.ptstate = .limbo) (hc : e.clearing = some ⟨n, .last⟩) (hn : n ≠ .limbo)
      (hq : w.queue = []) (hl : w.left = []) (hnil : n = .alloc → e.pthead = none ∧ e.pttail = none)
      (hss : ∀ x, e.ptssem = some x → x = .create w.permits) (hrs : ∀ x, e.ptrsem = some x → x = .create 0)
      (hnone : n ≠ .alloc → e.ptssem = none ∧ e.ptrsem = none)

/-- A process that waits at a port. -/
structure PtCall.Waits (c : PtCall) (p : ℕ) (e : PtEntry) (side : PtSide) : Prop where
  /-- It has called for this port. -/
  portid : c.portid = p
  /-- Its sequence number is that of its era. -/
  seq : c.seq = int32 c.era
  /-- It has called in the present era. -/
  era : c.era = e.current
  /-- It is on this side: to send, or to receive. -/
  side : c.op.side = side

/-- What holds of a port. -/
structure PortOk (next : ℕ → Option ℕ) (p : ℕ) (e : PtEntry) (w : PtPlace) : Prop where
  /-- The sequence number is that of the era. -/
  seq : e.ptseq = int32 e.era
  /-- A port that is being cleared has been created. -/
  pos : e.ptstate = .limbo → 0 < e.era
  /-- Queue, semaphores and clearing process are those of its state. -/
  phase : PtPhase next e w
  /-- Who is blocked to send, has called in the present era. -/
  senders : ∀ c ∈ Semaphore.callers e.ptssem, c.Waits p e .sender
  /-- Who is blocked to receive, has called in the present era. -/
  receivers : ∀ c ∈ Semaphore.callers e.ptrsem, c.Waits p e .receiver
  /-- The port holds no more than it was created for. -/
  maxcnt : e.ptmaxcnt ≤ e.count
  /-- Its semaphores allow no more messages than it was created for. -/
  permits : w.permits ≤ e.count

/-- The history of a port: each era has accepted what has been delivered, what has been disposed of,
and what is left. -/
structure PtLedger (s : Ports) (p : ℕ) (e : PtEntry) (w : PtPlace) : Prop where
  /-- What an era has accepted has been delivered, disposed of, or is left, in this order. -/
  eras : ∀ era, PtMsg.ofEra s.accepted p era =
    PtMsg.ofEra s.delivered p era ++ PtMsg.ofEra s.disposed p era ++
    if era = e.current then w.left.map s.ptmsg else []
  /-- Messages are disposed of when their era is over. -/
  disposed : ∀ x ∈ s.disposed, x.portid = p → x.era < e.era

/-- The invariant. -/
structure PortsOk (N : ℕ) (s : Ports) (v : PtView) : Prop where
  /-- Each node is free, or in the queue of one port. -/
  nodes : Shares (Finset.range NPORTS) (Multiset.range N) v.free fun p => (v.port p).queue
  /-- The links lead through the free nodes. -/
  free : LinkPath s.ptnext s.ptfree v.free none
  /-- Each port is in order. -/
  port : ∀ p < NPORTS, PortOk s.ptnext p (s.porttab p) (v.port p)
  /-- The history of each port is in order. -/
  ledger : ∀ p < NPORTS, PtLedger s p (s.porttab p) (v.port p)
  /-- Who was blocked when a semaphore was reset or deleted, has called in an earlier era. -/
  stale : ∀ c ∈ s.stale, c.portid < NPORTS ∧ c.seq = int32 c.era ∧ c.era < (s.porttab c.portid).era
  /-- Who has failed behind its wait, has called in another era. -/
  failed : ∀ f ∈ s.failed, f.1.era ≠ f.2
  /-- No receiver has found an empty queue. -/
  running : s.stopped ≠ some .nullNode
  /-- The nodes have run out only if more have been promised. -/
  panic : s.stopped = some .noNodes → N < ∑ p ∈ Finset.range NPORTS, (s.porttab p).promise
  /-- The search for a free port begins in the table. -/
  nextid : s.ptnextid < NPORTS

/-- No process is between its wait and what it does then. -/
def PtView.Settled (v : PtView) : Prop := ∀ p, (v.port p).sending = 0 ∧ (v.port p).receiving = 0

/-! ## What a step changes -/

variable {N p p' : ℕ} {s s' : Ports} {v : PtView} {e : PtEntry}
  {w : PtPlace} {next next' : ℕ → Option ℕ} {q : List ℕ} {c : PtCall}

/-- A queue depends on the links of its nodes. -/
theorem Queued.congr (h : Queued next e q) (hn : ∀ x ∈ q, next' x = next x) : Queued next' e q :=
  ⟨h.path.congr hn, h.last⟩

/-- What is known of a port depends on the links of its nodes. -/
theorem PtPhase.congr (h : PtPhase next e w) (hn : ∀ x ∈ w.queue, next' x = next x) : PtPhase next' e w := by
  cases h with
  | free hs hc hss hrs hq hl => exact .free hs hc hss hrs hq hl
  | alloc hs hc hq hl hcnt => exact .alloc hs hc (hq.congr hn) hl hcnt
  | dispose n walk done hs hc hnl hq hne hd hw hle =>
    exact .dispose n walk done hs hc hnl (hq.congr hn) hne hd
      (hw.congr fun x hx => hn x (hd ▸ List.mem_append_right _ hx)) hle
  | disposing n walk done hs hc hnl hq hd hw hle =>
    have hwalk : next' walk = next walk := hn walk (hd ▸ List.mem_append_right _ List.mem_cons_self)
    refine .disposing n walk done hs hc hnl (hq.congr hn) hd ?_ hle
    rw [hwalk]
    exact hw.congr fun x hx => hn x (hd ▸ List.mem_append_right _ (List.mem_cons_of_mem _ hx))
  | semaphores n hs hc hnl hq hl => exact .semaphores n hs hc hnl hq hl
  | second n hs hc hnl hq hl hnil hss hnone => exact .second n hs hc hnl hq hl hnil hss hnone
  | last n hs hc hnl hq hl hnil hss hrs hnone => exact .last n hs hc hnl hq hl hnil hss hrs hnone

/-- The messages that are left to be disposed of are in the queue. -/
theorem PtPhase.left_sub (h : PtPhase next e w) : ∀ x ∈ w.left, x ∈ w.queue := by
  intro x hx
  cases h with
  | free hs hc hss hrs hq hl => exact absurd (hl ▸ hx) List.not_mem_nil
  | alloc hs hc hq hl hcnt => exact hl ▸ hx
  | dispose n walk done hs hc hnl hq hne hd hw => exact hd ▸ List.mem_append_right _ hx
  | disposing n walk done hs hc hnl hq hd hw => exact hd ▸ List.mem_append_right _ (List.mem_cons_of_mem _ hx)
  | semaphores n hs hc hnl hq hl => exact absurd (hl ▸ hx) List.not_mem_nil
  | second n hs hc hnl hq hl hnil hss hnone => exact absurd (hl ▸ hx) List.not_mem_nil
  | last n hs hc hnl hq hl hnil hss hrs hnone => exact absurd (hl ▸ hx) List.not_mem_nil

/-- The messages of a list are the old ones and some of port `p`. -/
def Appends (p : ℕ) (l l' : List PtMsg) : Prop := ∃ m : List PtMsg, l' = l ++ m ∧ ∀ x ∈ m, x.portid = p

/-- No message is appended. -/
theorem Appends.refl (p : ℕ) (l : List PtMsg) : Appends p l l :=
  ⟨[], (List.append_nil l).symm, fun _ hx => absurd hx List.not_mem_nil⟩

/-- A message of the port is appended to a history. -/
theorem Appends.one (l : List PtMsg) (x : PtMsg) (hx : x.portid = p) : Appends p l (l ++ [x]) :=
  ⟨[x], rfl, fun y hy => by rw [List.mem_singleton.mp hy, hx]⟩

/-- The other ports keep their history. -/
theorem Appends.ofEra {l l' : List PtMsg} (h : Appends p l l') (hp : p' ≠ p) (era : ℕ) :
    PtMsg.ofEra l' p' era = PtMsg.ofEra l p' era := by
  obtain ⟨m, rfl, hm⟩ := h
  have hnil : PtMsg.ofEra m p' era = [] :=
    PtMsg.ofEra_eq_nil fun x hx hx' => absurd (hx'.symm.trans (hm x hx)) hp
  unfold PtMsg.ofEra at hnil ⊢
  rw [List.filter_append, List.map_append, hnil, List.append_nil]

/-- A message of another port is not among those that are appended. -/
theorem Appends.mem {l l' : List PtMsg} (h : Appends p l l')
    (hp : p' ≠ p) {x : PtMsg} (hx : x ∈ l') (hx' : x.portid = p') : x ∈ l := by
  obtain ⟨m, rfl, hm⟩ := h
  rcases List.mem_append.mp hx with hx | hx
  · exact hx
  · exact absurd (hx'.symm.trans (hm x hx)) hp

/-- What a step at one port has to show. -/
structure PtChange (s s' : Ports) (v : PtView) (p : ℕ) (e : PtEntry)
    (w : PtPlace) (free : List ℕ) : Prop where
  /-- Only the entry of this port changes. -/
  table : s'.porttab = Function.update s.porttab p e
  /-- Its nodes and the free ones are the same, together. -/
  nodes : (v.free ++ (v.port p).queue).Perm (free ++ w.queue)
  /-- The links lead through the free nodes. -/
  free : LinkPath s'.ptnext s'.ptfree free none
  /-- The nodes of other ports keep their links and messages. -/
  links : ∀ x, x ∉ v.free → x ∉ (v.port p).queue → s'.ptnext x = s.ptnext x ∧ s'.ptmsg x = s.ptmsg x
  /-- The port is in order. -/
  port : PortOk s'.ptnext p e w
  /-- The history of the port is in order. -/
  ledger : PtLedger s' p e w
  /-- What is accepted is of this port. -/
  accepted : Appends p s.accepted s'.accepted
  /-- What is delivered is of this port. -/
  delivered : Appends p s.delivered s'.delivered
  /-- What is disposed of is of this port. -/
  disposed : Appends p s.disposed s'.disposed
  /-- The eras of the port go up. -/
  era : (s.porttab p).era ≤ e.era
  /-- Who is blocked across the step has called for this port, in an earlier era. -/
  stale : ∀ c ∈ s'.stale, c ∈ s.stale ∨ c.portid = p ∧ c.seq = int32 c.era ∧ c.era < e.era
  /-- Who fails has called in another era. -/
  failed : ∀ f ∈ s'.failed, f ∈ s.failed ∨ f.1.era ≠ f.2
  /-- The system goes on. -/
  running : s'.stopped = none
  /-- The search for a free port begins in the table. -/
  nextid : s'.ptnextid < NPORTS

/-- A step at one port keeps the invariant, if the new port is in order. -/
theorem PortsOk.change {free : List ℕ} (h : PortsOk N s v)
    (hp : p < NPORTS) (hc : PtChange s s' v p e w free) :
    PortsOk N s' ⟨free, Function.update v.port p w⟩ := by
  have hd : (Multiset.range N).Nodup := Multiset.nodup_range N
  have hmem : p ∈ Finset.range NPORTS := Finset.mem_range.mpr hp
  -- The nodes of the other ports are neither free nor in the queue of this one.
  have hother : ∀ p' < NPORTS, p' ≠ p → ∀ x ∈ (v.port p').queue, s'.ptnext x = s.ptnext x ∧
      s'.ptmsg x = s.ptmsg x := by
    intro p' hp' hne x hx
    have hmem' : p' ∈ Finset.range NPORTS := Finset.mem_range.mpr hp'
    exact hc.links x (h.nodes.not_free hd hmem' hx) (h.nodes.not_queue hd hmem' hmem hne hx)
  have hupdate : (fun i => (Function.update v.port p w i).queue) = Function.update
      (fun i => (v.port i).queue) p w.queue :=
    Function.comp_update PtPlace.queue v.port p w
  constructor
  · show Shares _ _ free fun i => (Function.update v.port p w i).queue
    rw [hupdate]
    exact h.nodes.update hmem hc.nodes
  · exact hc.free
  · intro p' hp'
    dsimp only
    by_cases hne : p' = p
    · rw [hne, hc.table, Function.update_self, Function.update_self]
      exact hc.port
    · rw [hc.table, Function.update_of_ne hne, Function.update_of_ne hne]
      obtain ⟨hseq, hpos, hphase, hsend, hrecv, hmax, hperm⟩ := h.port p' hp'
      exact ⟨hseq, hpos, hphase.congr fun x hx => (hother p' hp' hne x hx).1, hsend, hrecv, hmax, hperm⟩
  · intro p' hp'
    dsimp only
    by_cases hne : p' = p
    · rw [hne, hc.table, Function.update_self, Function.update_self]
      exact hc.ledger
    · rw [hc.table, Function.update_of_ne hne, Function.update_of_ne hne]
      refine ⟨fun era => ?_, fun x hx hx' => (h.ledger p' hp').disposed x (hc.disposed.mem hne hx hx') hx'⟩
      have hmap : (v.port p').left.map s'.ptmsg = (v.port p').left.map s.ptmsg :=
        List.map_congr_left fun x hx => (hother p' hp' hne x ((h.port p' hp').phase.left_sub x hx)).2
      rw [hc.accepted.ofEra hne, hc.delivered.ofEra hne, hc.disposed.ofEra hne, hmap]
      exact (h.ledger p' hp').eras era
  · intro c hmem
    rw [hc.table]
    rcases hc.stale c hmem with hold | ⟨rfl, hseq, hera⟩
    · obtain ⟨hport, hseq, hera⟩ := h.stale c hold
      refine ⟨hport, hseq, ?_⟩
      by_cases hne : c.portid = p
      · rw [hne, Function.update_self]
        have := hc.era
        rw [hne] at hera
        omega
      · rw [Function.update_of_ne hne]
        exact hera
    · rw [Function.update_self]
      exact ⟨hp, hseq, hera⟩
  · intro f hf
    rcases hc.failed f hf with hf | hf
    · exact h.failed f hf
    · exact hf
  · rw [hc.running]
    rintro ⟨⟩
  · rw [hc.running]
    rintro ⟨⟩
  · exact hc.nextid

/-- Only the entry of the port changes. -/
theorem PortsOk.setPort (h : PortsOk N s v) (hrun : s.stopped = none)
    (hp : p < NPORTS) (hq : w.queue = (v.port p).queue) (hl : w.left = (v.port p).left)
    (hport : PortOk s.ptnext p e w) (hcurrent : w.left = [] ∨ e.current = (s.porttab p).current)
    (hera : (s.porttab p).era ≤ e.era) :
    PortsOk N (s.setPort p e) ⟨v.free, Function.update v.port p w⟩ := by
  refine h.change hp ⟨rfl, by rw [hq], h.free, fun _ _ _ => ⟨rfl, rfl⟩,
    hport, ⟨fun era => ?_, fun x hx hx' => ?_⟩, .refl .., .refl .., .refl ..,
    hera, fun _ hc => Or.inl hc, fun _ hf => Or.inl hf, hrun, h.nextid⟩
  · have heras := (h.ledger p hp).eras era
    rw [← hl] at heras
    rcases hcurrent with hnil | hsame
    · rw [hnil, List.map_nil, ite_self] at heras ⊢
      exact heras
    · rw [hsame]
      exact heras
  · exact lt_of_lt_of_le ((h.ledger p hp).disposed x hx hx') hera

/-! ## Waits -/

/-- A port that is allocated is not being cleared, and its queue is all that is left. -/
theorem PtPhase.of_alloc (h : PtPhase next e w) (hs : e.ptstate = .alloc) :
    e.clearing = none ∧ Queued next e w.queue ∧ w.left = w.queue ∧ PtCounted e w := by
  cases h with
  | alloc _ hc hq hl hn => exact ⟨hc, hq, hl, hn⟩
  | free hs' => exact absurd (hs.symm.trans hs') (by decide)
  | dispose _ _ _ hs' => exact absurd (hs.symm.trans hs') (by decide)
  | disposing _ _ _ hs' => exact absurd (hs.symm.trans hs') (by decide)
  | semaphores _ hs' => exact absurd (hs.symm.trans hs') (by decide)
  | second _ hs' => exact absurd (hs.symm.trans hs') (by decide)
  | last _ hs' => exact absurd (hs.symm.trans hs') (by decide)

namespace PtEntry

variable (e : PtEntry) (x : Semaphore PtCall) (side : PtSide)

@[simp] theorem setSem_ptstate : (e.setSem x side).ptstate = e.ptstate := by cases side <;> rfl

@[simp] theorem setSem_ptseq : (e.setSem x side).ptseq = e.ptseq := by cases side <;> rfl

@[simp] theorem setSem_pthead : (e.setSem x side).pthead = e.pthead := by cases side <;> rfl

@[simp] theorem setSem_pttail : (e.setSem x side).pttail = e.pttail := by cases side <;> rfl

@[simp] theorem setSem_clearing : (e.setSem x side).clearing = e.clearing := by cases side <;> rfl

@[simp] theorem setSem_era : (e.setSem x side).era = e.era := by cases side <;> rfl

@[simp] theorem setSem_current : (e.setSem x side).current = e.current := by cases side <;> rfl

@[simp] theorem setSem_maxcnt : (e.setSem x side).ptmaxcnt = e.ptmaxcnt := by cases side <;> rfl

@[simp] theorem setSem_count : (e.setSem x side).count = e.count := by cases side <;> rfl

end PtEntry

/-- A process has used a permit. -/
def PtPlace.take (w : PtPlace) (n : ℕ) : PtSide → PtPlace
  | .sender => { w with sending := w.sending + n }
  | .receiver => { w with receiving := w.receiving + n }

variable {x y : Semaphore PtCall} {side : PtSide} {n : ℕ}

@[simp] theorem PtPlace.take_queue : (w.take n side).queue = w.queue := by cases side <;> rfl

@[simp] theorem PtPlace.take_left : (w.take n side).left = w.left := by cases side <;> rfl

@[simp] theorem PtPlace.take_permits : (w.take n side).permits = w.permits := by cases side <;> rfl

/-- A process that waits depends on the era of the port. -/
theorem PtCall.Waits.congr {e' : PtEntry} (h : c.Waits p e side) (he : e'.current = e.current) :
    c.Waits p e' side :=
  ⟨h.portid, h.seq, h.era.trans he.symm, h.side⟩

/-- The callers of a semaphore that changes. -/
theorem PortOk.callers (h : PortOk next p e w) (hx : e.sem side = some x) :
    ∀ c ∈ x.blocked, c.Waits p e side := by
  cases side with
  | sender =>
    have hcallers := h.senders
    rw [show e.ptssem = some x from hx] at hcallers
    exact hcallers
  | receiver =>
    have hcallers := h.receivers
    rw [show e.ptrsem = some x from hx] at hcallers
    exact hcallers

/-- The semaphore of a side changes, and those that wait there are known. -/
theorem PortOk.setSem (h : PortOk next p e w) (hy : ∀ c ∈ y.blocked, c.Waits p e side)
    (hphase : PtPhase next (e.setSem y side) (w.take n side)) :
    PortOk next p (e.setSem y side) (w.take n side) := by
  constructor
  · rw [PtEntry.setSem_ptseq, PtEntry.setSem_era]
    exact h.seq
  · rw [PtEntry.setSem_ptstate, PtEntry.setSem_era]
    exact h.pos
  · exact hphase
  · cases side with
    | sender => exact fun c hc => (hy c hc).congr (e.setSem_current y .sender)
    | receiver => exact fun c hc => (h.senders c hc).congr (e.setSem_current y .receiver)
  · cases side with
    | sender => exact fun c hc => (h.receivers c hc).congr (e.setSem_current y .sender)
    | receiver => exact fun c hc => (hy c hc).congr (e.setSem_current y .receiver)
  · rw [PtEntry.setSem_maxcnt, PtEntry.setSem_count]
    exact h.maxcnt
  · rw [PtPlace.take_permits, PtEntry.setSem_count]
    exact h.permits

/-- A semaphore of an allocated port gives away `n` permits. -/
theorem PtPhase.take (h : PtPhase next e w) (hs : e.ptstate = .alloc)
    (hx : e.sem side = some x) (hok : x.Ok → y.Ok)
    (hu : x.unused = y.unused + n) : PtPhase next (e.setSem y side) (w.take n side) := by
  obtain ⟨hc, hq, hl, hcnt⟩ := h.of_alloc hs
  have hq' : Queued next (e.setSem y side) (w.take n side).queue := by
    rw [PtPlace.take_queue]
    exact ⟨by rw [PtEntry.setSem_pthead]; exact hq.path, by rw [PtEntry.setSem_pttail]; exact hq.last⟩
  refine .alloc (by rw [PtEntry.setSem_ptstate, hs]) (by rw [PtEntry.setSem_clearing, hc]) hq'
    (by rw [PtPlace.take_left, PtPlace.take_queue, hl]) ?_
  cases side with
  | sender =>
    obtain ⟨hok', heq⟩ := hcnt.places x hx
    refine ⟨fun z hz => ?_, fun hnone => absurd hnone (by rintro ⟨⟩), hcnt.messages, hcnt.deaf⟩
    obtain rfl : y = z := Option.some.inj hz
    refine ⟨hok hok', ?_⟩
    show y.unused + w.queue.length + (w.sending + n : ℕ) = w.permits
    push_cast
    omega
  | receiver =>
    obtain ⟨hok', heq⟩ := hcnt.messages x hx
    refine ⟨hcnt.places, hcnt.closed, fun z hz => ?_, fun hnone => absurd hnone (by rintro ⟨⟩)⟩
    obtain rfl : y = z := Option.some.inj hz
    refine ⟨hok hok', ?_⟩
    show y.unused + (w.receiving + n : ℕ) = w.queue.length
    push_cast
    omega

/-- A port that has semaphores and is not allocated is in limbo. -/
theorem PtPhase.limbo (h : PtPhase next e w) (hs : e.ptstate ≠ .alloc) (hx : e.sem side = some x) :
    e.ptstate = .limbo := by
  cases h with
  | alloc hs' => exact absurd hs' hs
  | free hs' hc hss hrs =>
    cases side with
    | sender => exact absurd (hss.symm.trans hx) (by rintro ⟨⟩)
    | receiver => exact absurd (hrs.symm.trans hx) (by rintro ⟨⟩)
  | dispose _ _ _ hs' => exact hs'
  | disposing _ _ _ hs' => exact hs'
  | semaphores _ hs' => exact hs'
  | second _ hs' => exact hs'
  | last _ hs' => exact hs'

/-- A woken process goes on at a port that is in limbo. -/
theorem PtPhase.resume {k : ℕ} (h : PtPhase next e w) (hs : e.ptstate ≠ .alloc)
    (hx : e.sem side = some x) (hr : x.resume k = some (c, y)) :
    PtPhase next (e.setSem y side) w := by
  -- Nobody has been woken on a semaphore that has just been reset.
  have hfresh : ∀ m, x ≠ .create m := by
    rintro m rfl
    exact absurd (Semaphore.resume_eq hr).1 List.not_mem_nil
  cases h with
  | alloc hs' => exact absurd hs' hs
  | free hs' hc hss hrs =>
    cases side with
    | sender => exact absurd (hss.symm.trans hx) (by rintro ⟨⟩)
    | receiver => exact absurd (hrs.symm.trans hx) (by rintro ⟨⟩)
  | dispose m walk done hs' hc hm hq hne hd hw hle =>
    exact .dispose m walk done (by simpa using hs') (by simpa using hc) hm
      ⟨by simpa using hq.path, by simpa using hq.last⟩ hne hd hw hle
  | disposing m walk done hs' hc hm hq hd hw hle =>
    exact .disposing m walk done (by simpa using hs') (by simpa using hc) hm
      ⟨by simpa using hq.path, by simpa using hq.last⟩ hd hw hle
  | semaphores m hs' hc hm hq hl => exact .semaphores m (by simpa using hs') (by simpa using hc) hm hq hl
  | second m hs' hc hm hq hl hnil hss hnone =>
    cases side with
    | sender => exact absurd (hss x hx) (hfresh _)
    | receiver => exact .second m hs' hc hm hq hl hnil hss hnone
  | last m hs' hc hm hq hl hnil hss hrs hnone =>
    cases side with
    | sender => exact absurd (hss x hx) (hfresh _)
    | receiver => exact absurd (hrs x hx) (hfresh _)

/-! ## What follows a wait -/

/-- The invariant between two steps: as long as the system runs, no process is between its wait and
what it does then. -/
def PtInv (N : ℕ) (s : Ports) : Prop := ∃ v, PortsOk N s v ∧ (s.stopped = none → v.Settled)

/-- One process is between its wait and what it does then, at port `p`. -/
structure PtView.Taken (v : PtView) (p : ℕ) (sending receiving : ℕ) : Prop where
  /-- How many senders of the port have used a permit and not taken a message cell yet. -/
  sending : (v.port p).sending = sending
  /-- How many receivers of the port have used a permit and not taken a message yet. -/
  receiving : (v.port p).receiving = receiving
  /-- At the other ports there are none. -/
  others : ∀ p', p' ≠ p → (v.port p').sending = 0 ∧ (v.port p').receiving = 0

/-- When that process has gone on, none is between its wait and what it does then. -/
theorem PtView.Taken.settle {a b : ℕ} (h : v.Taken p a b)
    (free : List ℕ) (hs : w.sending = 0) (hr : w.receiving = 0) :
    PtView.Settled ⟨free, Function.update v.port p w⟩ := by
  intro p'
  dsimp only
  by_cases hne : p' = p
  · rw [hne, Function.update_self]
    exact ⟨hs, hr⟩
  · rw [Function.update_of_ne hne]
    exact h.others p' hne

/-- A node goes to the end of a queue. -/
theorem Queued.enqueue {m : ℕ} (h : Queued next e q) (hd : q.Nodup) (hm : m ∉ q) (e' : PtEntry)
    (hhead : e'.pthead = if e.pttail = none then some m else e.pthead) (htail : e'.pttail = some m) :
    Queued (store (Function.update next m none) e.pttail (some m)) e' (q ++ [m]) := by
  refine ⟨?_, by rw [htail, List.getLast?_concat]⟩
  rcases List.eq_nil_or_concat' q with rfl | ⟨q₀, t, rfl⟩
  · have hnone : e.pttail = none := h.last
    rw [hhead, if_pos hnone, hnone]
    exact ⟨rfl, Function.update_self ..⟩
  · have hlast : e.pttail = some t := by rw [h.last, List.getLast?_concat]
    have ht : t ∉ q₀ := fun hmem => (List.nodup_append.mp hd).2.2 t hmem t (List.mem_singleton_self t) rfl
    have hmt : m ≠ t := by
      rintro rfl
      exact hm (List.mem_append_right _ (List.mem_singleton_self m))
    rw [hhead, hlast, if_neg (by rintro ⟨⟩)]
    refine LinkPath.concat_iff.mpr ⟨(h.path.update hm none).update_last ht (some m), ?_⟩
    show Function.update (Function.update next m none) t (some m) m = none
    rw [Function.update_of_ne hmt, Function.update_self]

/-- The callers of a semaphore that is signalled. -/
theorem Semaphore.callers_signal {sem : Option (Semaphore PtCall)} (h : ∀ x, sem = some x → x.Ok) :
    Semaphore.callers (sem.map .signal) = Semaphore.callers sem := by
  cases sem with
  | none => rfl
  | some x => exact (h x rfl).blocked_signal

/-- A message that is put in the queue takes a place that a sender has a permit for. -/
theorem PtCounted.enqueue (h : PtCounted e w) {e' : PtEntry}
    {w' : PtPlace} (hss : e'.ptssem = e.ptssem) (hrs : e'.ptrsem = e.ptrsem.map .signal)
    (hq : w'.queue.length = w.queue.length + 1) (hperm : w'.permits = w.permits)
    (hs : w.sending = w'.sending + 1)
    (hr : w'.receiving = w.receiving) : PtCounted e' w' := by
  constructor
  · intro x hx
    obtain ⟨hok, hplaces⟩ := h.places x (hss ▸ hx)
    refine ⟨hok, ?_⟩
    rw [hs] at hplaces
    rw [hq, hperm]
    push_cast at hplaces ⊢
    omega
  · intro hnone
    have hzero := (h.closed (hss ▸ hnone)).2
    exact absurd (hzero.symm.trans hs) (Nat.succ_ne_zero _).symm
  · intro x hx
    obtain ⟨y, hy, rfl⟩ := Option.map_eq_some_iff.mp (hrs ▸ hx)
    obtain ⟨hok, hmessages⟩ := h.messages y hy
    refine ⟨hok.signal, ?_⟩
    rw [hok.unused_signal, hq, hr]
    push_cast
    omega
  · intro hnone
    rw [hr]
    exact h.deaf (Option.map_eq_none_iff.mp (hrs ▸ hnone))

/-- A message that is taken from the queue leaves its place to another sender. -/
theorem PtCounted.dequeue (h : PtCounted e w) {e' : PtEntry}
    {w' : PtPlace} (hss : e'.ptssem = e.ptssem.map .signal) (hrs : e'.ptrsem = e.ptrsem)
    (hq : w.queue.length = w'.queue.length + 1) (hperm : w'.permits = w.permits) (hs : w'.sending = w.sending)
    (hr : w.receiving = w'.receiving + 1) : PtCounted e' w' := by
  constructor
  · intro x hx
    obtain ⟨y, hy, rfl⟩ := Option.map_eq_some_iff.mp (hss ▸ hx)
    obtain ⟨hok, hplaces⟩ := h.places y hy
    refine ⟨hok.signal, ?_⟩
    rw [hq] at hplaces
    rw [hok.unused_signal, hperm, hs]
    push_cast at hplaces ⊢
    omega
  · intro hnone
    have hnil := (h.closed (Option.map_eq_none_iff.mp (hss ▸ hnone))).1
    rw [hnil] at hq
    exact absurd hq.symm (Nat.succ_ne_zero _)
  · intro x hx
    obtain ⟨hok, hmessages⟩ := h.messages x (hrs ▸ hx)
    refine ⟨hok, ?_⟩
    rw [hq, hr] at hmessages
    push_cast at hmessages ⊢
    omega
  · intro hnone
    have hzero := h.deaf (hrs ▸ hnone)
    exact absurd (hzero.symm.trans hr) (Nat.succ_ne_zero _).symm

/-- The history of an allocated port whose era accepts a message. -/
theorem PtLedger.enqueue {m : ℕ} {msg : UInt32} (h : PtLedger s p e w)
    (hs : e.ptstate = .alloc) (hm : m ∉ w.left) {e' : PtEntry} {w' : PtPlace}
    (hs' : e'.ptstate = .alloc) (hera : e'.era = e.era) (hleft : w'.left = w.left ++ [m])
    (hacc : s'.accepted = s.accepted ++ [⟨p, e.era, msg⟩])
    (hdel : s'.delivered = s.delivered) (hdis : s'.disposed = s.disposed)
    (hmsg : s'.ptmsg = Function.update s.ptmsg m msg) :
    PtLedger s' p e' w' := by
  have hcurrent : e.current = e.era := if_pos hs
  have hcurrent' : e'.current = e.era := (if_pos hs').trans hera
  have hmap : w'.left.map s'.ptmsg = w.left.map s.ptmsg ++ [msg] := by
    rw [hleft, hmsg, List.map_append, List.map_singleton, Function.update_self]
    congr 1
    exact List.map_congr_left fun z hz => Function.update_of_ne (ne_of_mem_of_not_mem hz hm) _ _
  refine ⟨fun era => ?_, by rw [hdis, hera]; exact h.disposed⟩
  have heras := h.eras era
  rw [hcurrent] at heras
  rw [hacc, hdel, hdis, PtMsg.ofEra_concat, heras, hcurrent', hmap]
  by_cases hnow : era = e.era
  · rw [if_pos hnow, if_pos hnow, if_pos ⟨rfl, hnow.symm⟩]
    simp only [List.append_assoc]
  · rw [if_neg hnow, if_neg hnow, if_neg fun hx => hnow hx.2.symm, List.append_nil]

/-- Nothing of the era of an allocated port has been disposed of. -/
theorem PtLedger.not_disposed (h : PtLedger s p e w) : PtMsg.ofEra s.disposed p e.era = [] :=
  PtMsg.ofEra_eq_nil fun x hx hp => (h.disposed x hx hp).ne

/-- The history of an allocated port whose era delivers a message. -/
theorem PtLedger.dequeue {m : ℕ} (h : PtLedger s p e w)
    (hs : e.ptstate = .alloc) {e' : PtEntry} {w' : PtPlace} (hs' : e'.ptstate = .alloc)
    (hera : e'.era = e.era) (hleft : w.left = m :: w'.left) (hacc : s'.accepted = s.accepted)
    (hdel : s'.delivered = s.delivered ++ [⟨p, e.era, s.ptmsg m⟩])
    (hdis : s'.disposed = s.disposed) (hmsg : s'.ptmsg = s.ptmsg) :
    PtLedger s' p e' w' := by
  have hcurrent : e.current = e.era := if_pos hs
  have hcurrent' : e'.current = e.era := (if_pos hs').trans hera
  refine ⟨fun era => ?_, by rw [hdis, hera]; exact h.disposed⟩
  have heras := h.eras era
  rw [hcurrent, hleft, List.map_cons] at heras
  rw [hacc, hdel, hdis, hmsg, PtMsg.ofEra_concat, heras, hcurrent']
  by_cases hnow : era = e.era
  · subst hnow
    rw [if_pos rfl, if_pos rfl, if_pos ⟨rfl, rfl⟩, h.not_disposed]
    simp only [List.append_nil, List.append_assoc, List.cons_append, List.nil_append]
  · rw [if_neg hnow, if_neg hnow, if_neg fun hx => hnow hx.2.symm]
    simp only [List.append_nil]

/-- A path that ends begins with the node that it starts from. -/
theorem LinkPath.exists_cons {α : Type*} {f : α → Option α}
    {m : α} {l : List α} (h : LinkPath f (some m) l none) :
    ∃ r, l = m :: r ∧ LinkPath f (f m) r none := by
  cases l with
  | nil => exact absurd h (by rintro ⟨⟩)
  | cons x r =>
    obtain rfl : m = x := Option.some.inj h.1
    exact ⟨r, rfl, h.2⟩

/-- A port that is allocated holds at most what its semaphores allow. -/
theorem PtCounted.le (h : PtCounted e w) : w.queue.length + w.sending ≤ w.permits := by
  cases hsem : e.ptssem with
  | none =>
    rw [(h.closed hsem).1, (h.closed hsem).2]
    exact Nat.zero_le _
  | some x =>
    obtain ⟨hok, hplaces⟩ := h.places x hsem
    have hwoken := hok.woken_le
    omega

/-- No port holds more than has been promised for it. -/
theorem PortOk.le (h : PortOk next p e w) : w.queue.length ≤ e.promise := by
  unfold PtEntry.promise
  cases h.phase with
  | free _ _ _ _ hq =>
    rw [hq]
    exact Nat.zero_le _
  | alloc hs _ _ _ hn =>
    rw [if_neg (by rw [hs]; decide)]
    exact le_trans (le_trans (Nat.le_add_right ..) hn.le) h.permits
  | dispose _ _ _ hs _ _ _ _ _ _ hle =>
    rw [if_neg (by rw [hs]; decide)]
    exact le_trans hle h.permits
  | disposing _ _ _ hs _ _ _ _ _ hle =>
    rw [if_neg (by rw [hs]; decide)]
    exact le_trans hle h.permits
  | semaphores _ _ _ _ hq =>
    rw [hq]
    exact Nat.zero_le _
  | second _ _ _ _ hq =>
    rw [hq]
    exact Nat.zero_le _
  | last _ _ _ _ hq =>
    rw [hq]
    exact Nat.zero_le _

/-- A sender that goes on finds no node only if more has been promised than there are nodes. -/
theorem PortsOk.no_nodes (h : PortsOk N s v) (hp : p < NPORTS)
    (hs : (s.porttab p).ptstate = .alloc) (hfree : s.ptfree = none)
    (hsending : 0 < (v.port p).sending) : N < ∑ p ∈ Finset.range NPORTS, (s.porttab p).promise := by
  have hnil : v.free = [] := by
    have hpath := h.free
    rw [hfree] at hpath
    cases hl : v.free with
    | nil => rfl
    | cons x l => exact absurd (hl ▸ hpath).1 (by rintro ⟨⟩)
  have hcard := h.nodes.card
  rw [hnil, List.length_nil, Nat.zero_add, Multiset.card_range] at hcard
  rw [← hcard]
  refine Finset.sum_lt_sum (fun p' hp' => (h.port p' (Finset.mem_range.mp hp')).le)
    ⟨p, Finset.mem_range.mpr hp, ?_⟩
  -- The place that the sender has been promised is not taken.
  have hle := ((h.port p hp).phase.of_alloc hs).2.2.2.le
  have hperm := (h.port p hp).permits
  rw [PtEntry.promise, if_neg (by rw [hs]; decide)]
  omega

/-- A sender that has used a permit enqueues its message. -/
theorem PortsOk.enqueue {msg : UInt32} (h : PortsOk N s v)
    (hrun : s.stopped = none) (hp : c.portid < NPORTS) (hs : (s.porttab c.portid).ptstate = .alloc)
    (hera : c.era = (s.porttab c.portid).era) (ht : v.Taken c.portid 1 0) : PtInv N (s.enqueue c msg) := by
  obtain ⟨hclear, hq, hleft, hcnt⟩ := (h.port _ hp).phase.of_alloc hs
  cases hfree : s.ptfree with
  | none =>
    have heq : s.enqueue c msg = { s with stopped := some .noNodes } := by
      unfold Ports.enqueue
      rw [hfree]
    rw [heq]
    exact ⟨v, ⟨h.nodes, h.free, h.port, fun p hp =>
      ⟨(h.ledger p hp).eras, (h.ledger p hp).disposed⟩, h.stale, h.failed, by rintro ⟨⟩,
      fun _ => h.no_nodes hp hs hfree (by rw [ht.sending]; decide), h.nextid⟩, by rintro ⟨⟩⟩
  | some m =>
    have hd : (Multiset.range N).Nodup := Multiset.nodup_range N
    have hmem : c.portid ∈ Finset.range NPORTS := Finset.mem_range.mpr hp
    -- The free list has a first node, which is in no queue.
    obtain ⟨rest, hrest, hpath⟩ := LinkPath.exists_cons (hfree ▸ h.free)
    have hmfree : m ∈ v.free := hrest ▸ List.mem_cons_self
    have hmq : m ∉ (v.port c.portid).queue := fun hx => h.nodes.not_free hd hmem hx hmfree
    have hmrest : m ∉ rest := (List.nodup_cons.mp (hrest ▸ h.nodes.nodup_free hd)).1
    have hqd : (v.port c.portid).queue.Nodup := h.nodes.nodup_queue hd hmem
    -- A link changes only at the new node and at the last one of the queue.
    have hlinks : ∀ z, z ≠ m → z ∉ (v.port c.portid).queue →
        store (Function.update s.ptnext m none) (s.porttab c.portid).pttail (some m) z = s.ptnext z := by
      intro z hz hzq
      cases hlast : (s.porttab c.portid).pttail with
      | none => exact Function.update_of_ne hz _ _
      | some t =>
        have ht : t ∈ (v.port c.portid).queue := List.mem_of_getLast? (hq.last ▸ hlast)
        have hzt : z ≠ t := fun heq => hzq (heq ▸ ht)
        exact (Function.update_of_ne hzt _ _).trans (Function.update_of_ne hz _ _)
    let e' : PtEntry := { s.porttab c.portid with
      pthead := if (s.porttab c.portid).pttail = none then some m else (s.porttab c.portid).pthead
      pttail := some m
      ptrsem := (s.porttab c.portid).ptrsem.map .signal }
    let w' : PtPlace :=
      { v.port c.portid with queue := (v.port c.portid).queue ++ [m], left := (v.port c.portid).queue ++ [m],
                             sending := 0 }
    have heq : s.enqueue c msg = { s.setPort c.portid e' with
        ptfree := s.ptnext m
        ptmsg := Function.update s.ptmsg m msg
        ptnext := store (Function.update s.ptnext m none) (s.porttab c.portid).pttail (some m)
        accepted := s.accepted ++ [⟨c.portid, c.era, msg⟩] } := by
      unfold Ports.enqueue
      rw [hfree]
    rw [heq, hera]
    refine ⟨⟨rest, Function.update v.port c.portid w'⟩,
      h.change hp ⟨rfl, ?_, ?_, ?_, ?_, ?_, .one _ _ rfl, .refl .., .refl .., le_refl _,
      fun _ hc => Or.inl hc, fun _ hf => Or.inl hf, hrun, h.nextid⟩, fun _ => ht.settle rest rfl ht.receiving⟩
    · -- The node moves from the free list to the queue.
      rw [hrest]
      simpa [w'] using (List.perm_append_comm : ([m] ++ (rest ++ (v.port c.portid).queue)).Perm _)
    · refine hpath.congr fun z hz => hlinks z (fun heq => hmrest (heq ▸ hz)) fun hzq => ?_
      exact h.nodes.not_free hd hmem hzq (hrest ▸ List.mem_cons_of_mem _ hz)
    · intro z hzf hzq
      have hz : z ≠ m := fun heq => hzf (heq ▸ hmfree)
      exact ⟨hlinks z hz hzq, Function.update_of_ne hz _ _⟩
    · have hcnt' : PtCounted e' w' := hcnt.enqueue rfl rfl (by simp [w']) rfl ht.sending rfl
      refine ⟨(h.port _ hp).seq, (h.port _ hp).pos,
        .alloc hs hclear (hq.enqueue hqd hmq e' rfl rfl) rfl hcnt', ?_, ?_,
        (h.port _ hp).maxcnt, (h.port _ hp).permits⟩
      · exact fun d hd => ((h.port _ hp).senders d hd).congr rfl
      · rw [show e'.ptrsem = (s.porttab c.portid).ptrsem.map .signal from rfl,
          Semaphore.callers_signal fun x hx => (hcnt.messages x hx).1]
        exact fun d hd => ((h.port _ hp).receivers d hd).congr rfl
    · exact (h.ledger _ hp).enqueue hs (hleft ▸ hmq) hs rfl (by rw [hleft]) rfl rfl rfl rfl

/-- A receiver that has used a permit finds a message, and takes the first one. -/
theorem PortsOk.dequeue (h : PortsOk N s v) (hrun : s.stopped = none)
    (hp : c.portid < NPORTS) (hs : (s.porttab c.portid).ptstate = .alloc)
    (hera : c.era = (s.porttab c.portid).era) (ht : v.Taken c.portid 0 1) : PtInv N (s.dequeue c) := by
  obtain ⟨hclear, hq, hleft, hcnt⟩ := (h.port _ hp).phase.of_alloc hs
  have hd : (Multiset.range N).Nodup := Multiset.nodup_range N
  have hmem : c.portid ∈ Finset.range NPORTS := Finset.mem_range.mpr hp
  -- The permit stands for a message.
  obtain ⟨m, r, hqueue⟩ : ∃ m r, (v.port c.portid).queue = m :: r := by
    refine List.exists_cons_of_ne_nil fun hnil => ?_
    cases hsem : (s.porttab c.portid).ptrsem with
    | none => exact absurd ((hcnt.deaf hsem).symm.trans ht.receiving) (by decide)
    | some x =>
      obtain ⟨hok, hmessages⟩ := hcnt.messages x hsem
      have hwoken := hok.woken_le
      rw [hnil, ht.receiving] at hmessages
      simp only [List.length_nil] at hmessages
      omega
  have hpath := hq.path
  rw [hqueue] at hpath
  obtain ⟨hhead, hpath⟩ := hpath
  have hqd : (m :: r).Nodup := hqueue ▸ h.nodes.nodup_queue hd hmem
  have hmr : m ∉ r := (List.nodup_cons.mp hqd).1
  have hmq : m ∈ (v.port c.portid).queue := hqueue ▸ List.mem_cons_self
  have hmfree : m ∉ v.free := h.nodes.not_free hd hmem hmq
  -- It is the only one if it is the last one too.
  have hlast : (s.porttab c.portid).pthead = (s.porttab c.portid).pttail ↔ r = [] := by
    rw [hhead, hq.last, hqueue]
    constructor
    · intro heq
      cases r with
      | nil => rfl
      | cons y r =>
        rw [List.getLast?_cons_cons] at heq
        exact absurd (List.mem_of_getLast? heq.symm) hmr
    · rintro rfl
      rfl
  let e' : PtEntry := { s.porttab c.portid with
    pthead := if (s.porttab c.portid).pthead = (s.porttab c.portid).pttail then none else s.ptnext m
    pttail := if (s.porttab c.portid).pthead = (s.porttab c.portid).pttail then none
      else (s.porttab c.portid).pttail
    ptssem := (s.porttab c.portid).ptssem.map .signal }
  let w' : PtPlace := { v.port c.portid with queue := r, left := r, receiving := 0 }
  have heq : s.dequeue c = { s.setPort c.portid e' with
      ptnext := Function.update s.ptnext m s.ptfree
      ptfree := some m
      delivered := s.delivered ++ [⟨c.portid, c.era, s.ptmsg m⟩] } := by
    simp only [Ports.dequeue, e', hhead]
  have hqueued : Queued (Function.update s.ptnext m s.ptfree) e' r := by
    constructor
    · by_cases hr : r = []
      · rw [show e'.pthead = none from if_pos (hlast.mpr hr), hr]
        rfl
      · rw [show e'.pthead = s.ptnext m from if_neg fun heq => hr (hlast.mp heq)]
        exact hpath.update hmr _
    · by_cases hr : r = []
      · rw [show e'.pttail = none from if_pos (hlast.mpr hr), hr]
        rfl
      · rw [show e'.pttail = (s.porttab c.portid).pttail from if_neg fun heq => hr (hlast.mp heq),
          hq.last, hqueue]
        exact List.getLast?_cons_of_ne_nil hr
  rw [heq, hera]
  refine ⟨⟨m :: v.free, Function.update v.port c.portid w'⟩,
    h.change hp ⟨rfl, ?_, ?_, ?_, ?_, ?_, .refl .., .one _ _ rfl, .refl .., le_refl _,
    fun _ hc => Or.inl hc, fun _ hf => Or.inl hf, hrun, h.nextid⟩, fun _ => ht.settle _ ht.sending rfl⟩
  · rw [hqueue]
    exact List.perm_middle
  · refine ⟨rfl, ?_⟩
    show LinkPath (Function.update s.ptnext m s.ptfree) (Function.update s.ptnext m s.ptfree m) v.free none
    rw [Function.update_self]
    exact h.free.update hmfree _
  · exact fun z hzf hzq => ⟨Function.update_of_ne (ne_of_mem_of_not_mem hmq hzq).symm _ _, rfl⟩
  · have hcnt' : PtCounted e' w' := hcnt.dequeue rfl rfl (by rw [hqueue]; rfl) rfl rfl ht.receiving
    refine ⟨(h.port _ hp).seq, (h.port _ hp).pos, .alloc hs hclear hqueued rfl hcnt',
      ?_, ?_, (h.port _ hp).maxcnt, (h.port _ hp).permits⟩
    · rw [show e'.ptssem = (s.porttab c.portid).ptssem.map .signal from rfl,
        Semaphore.callers_signal fun x hx => (hcnt.places x hx).1]
      exact fun d hd => ((h.port _ hp).senders d hd).congr rfl
    · exact fun d hd => ((h.port _ hp).receivers d hd).congr rfl
  · exact (h.ledger _ hp).dequeue hs hs rfl (hleft.trans hqueue) rfl rfl rfl rfl

/-! ## Calls -/

/-- What `ptsend` and `ptrecv` do behind the wait, if the port has stayed what it was. -/
theorem PortsOk.goOn (h : PortsOk N s v) (hrun : s.stopped = none)
    (hp : c.portid < NPORTS) (hs : (s.porttab c.portid).ptstate = .alloc) (hseq : c.seq = int32 c.era)
    (hera : c.era = (s.porttab c.portid).era)
    (ht : v.Taken c.portid (if c.op.side = .sender then 1 else 0) (if c.op.side = .sender then 0 else 1)) :
    PtInv N (s.goOn c) := by
  have hsame : ¬ ((s.porttab c.portid).ptstate ≠ .alloc ∨ (s.porttab c.portid).ptseq ≠ c.seq) := by
    rintro (hne | hne)
    · exact hne hs
    · exact hne (by rw [(h.port _ hp).seq, hseq, hera])
  cases hop : c.op with
  | send msg =>
    have heq : s.goOn c = s.enqueue c msg := by simp only [Ports.goOn, if_neg hsame, hop]
    rw [heq]
    rw [hop] at ht
    exact h.enqueue hrun hp hs hera ht
  | recv =>
    have heq : s.goOn c = s.dequeue c := by simp only [Ports.goOn, if_neg hsame, hop]
    rw [heq]
    rw [hop] at ht
    exact h.dequeue hrun hp hs hera ht

/-- A call whose port has been cleared since it began fails. -/
theorem PortsOk.fails (h : PortsOk N s v) (hv : s.stopped = none → v.Settled)
    (hne : (s.porttab c.portid).ptstate ≠ .alloc ∨ (s.porttab c.portid).ptseq ≠ c.seq)
    (hera : c.era ≠ (s.porttab c.portid).era) :
    PtInv N (s.goOn c) := by
  have heq : s.goOn c = { s with failed := s.failed ++ [(c, (s.porttab c.portid).era)] } := if_pos hne
  rw [heq]
  refine ⟨v, ⟨h.nodes, h.free, h.port, fun p hp => ⟨(h.ledger p hp).eras, (h.ledger p hp).disposed⟩,
    h.stale, fun f hf => ?_, h.running, h.panic, h.nextid⟩, hv⟩
  rcases List.mem_append.mp hf with hf | hf
  · exact h.failed f hf
  · rw [List.mem_singleton.mp hf]
    exact hera

/-- One process has used a permit, and no other one is between its wait and what it does then. -/
theorem PtView.Settled.take (hv : v.Settled) (free : List ℕ) (side : PtSide) :
    PtView.Taken ⟨free, Function.update v.port p ((v.port p).take 1 side)⟩ p (if side = .sender then 1 else 0)
      (if side = .sender then 0 else 1) := by
  obtain ⟨hs, hr⟩ := hv p
  constructor
  · dsimp only
    rw [Function.update_self]
    cases side with
    | sender => simpa [PtPlace.take] using hs
    | receiver => simpa [PtPlace.take] using hs
  · dsimp only
    rw [Function.update_self]
    cases side with
    | sender => simpa [PtPlace.take] using hr
    | receiver => simpa [PtPlace.take] using hr
  · intro p' hne
    dsimp only
    rw [Function.update_of_ne hne]
    exact hv p'

/-- A semaphore of an allocated port changes. -/
theorem PortsOk.setSem (h : PortsOk N s v) (hrun : s.stopped = none)
    (hp : p < NPORTS) (hs : (s.porttab p).ptstate = .alloc) (hx : (s.porttab p).sem side = some x)
    (hok : x.Ok → y.Ok) (hu : x.unused = y.unused + n) (hy : ∀ c ∈ y.blocked, c.Waits p (s.porttab p) side) :
    PortsOk N (s.setPort p ((s.porttab p).setSem y side))
      ⟨v.free, Function.update v.port p ((v.port p).take n side)⟩ :=
  h.setPort hrun hp PtPlace.take_queue PtPlace.take_left
    ((h.port p hp).setSem hy ((h.port p hp).phase.take hs hx hok hu))
    (Or.inr (PtEntry.setSem_current ..)) (by rw [PtEntry.setSem_era])

@[simp] theorem Ports.setPort_porttab_self : (s.setPort p e).porttab p = e := Function.update_self ..

@[simp] theorem Ports.setPort_stopped : (s.setPort p e).stopped = s.stopped := rfl

/-- The calls `ptsend` and `ptrecv` keep the invariant. -/
theorem PortsOk.call {op : PtOp} {portid : ℤ} (h : PortsOk N s v) (hrun : s.stopped = none) (hv : v.Settled) :
    PtInv N (s.call portid op) := by
  unfold Ports.call
  dsimp only
  split_ifs with hbad
  · exact ⟨v, h, fun _ => hv⟩
  · push Not at hbad
    obtain ⟨hport, hs⟩ := hbad
    have hp : portid.toNat < NPORTS := by
      unfold NPORTS at hport ⊢
      omega
    -- A port without a semaphore is one that was never made, and nothing happens.
    cases hx : (s.porttab portid.toNat).sem op.side with
    | none => exact ⟨v, h, fun _ => hv⟩
    | some x =>
      dsimp only
      set c : PtCall :=
        ⟨op, portid.toNat, (s.porttab portid.toNat).ptseq, (s.porttab portid.toNat).era⟩ with hc
      have hcurrent : (s.porttab portid.toNat).current = (s.porttab portid.toNat).era := if_pos hs
      -- The call of this process, in the era of the port.
      have hwaits : c.Waits portid.toNat (s.porttab portid.toNat) op.side :=
        ⟨rfl, (h.port _ hp).seq, hcurrent.symm, rfl⟩
      have hcallers := (h.port _ hp).callers hx
      by_cases hgo : (x.wait c).1 = true
      · -- The process goes on at once.
        have hset := h.setSem hrun hp hs hx (fun hok => hok.wait (k := c))
          (n := 1) (by rw [Semaphore.unused_wait_go hgo]; push_cast; omega)
          (by rw [Semaphore.blocked_wait_go hgo]; exact hcallers)
        rw [if_pos hgo]
        refine hset.goOn hrun hp ?_ hwaits.seq ?_ (hv.take _ op.side)
        · rw [Ports.setPort_porttab_self, PtEntry.setSem_ptstate, hs]
        · rw [Ports.setPort_porttab_self, PtEntry.setSem_era]
      · -- It waits.
        have hblock : (x.wait c).1 = false := Bool.eq_false_iff.mpr hgo
        have hset := h.setSem hrun hp hs hx (fun hok => hok.wait (k := c))
            (n := 0) (by rw [Semaphore.unused_wait_block hblock]; simp) (by
          rw [Semaphore.blocked_wait_block hblock]
          intro d hd
          rcases List.mem_append.mp hd with hd | hd
          · exact hcallers d hd
          · rw [List.mem_singleton.mp hd]
            exact hwaits)
        rw [if_neg hgo]
        have hzero : (v.port portid.toNat).take 0 op.side = v.port portid.toNat := by cases op <;> rfl
        refine ⟨_, hset, fun _ p' => ?_⟩
        rw [hzero, Function.update_eq_self]
        exact hv p'

/-- A process that a signal has woken goes on. -/
theorem PortsOk.resume {k : ℕ} (h : PortsOk N s v) (hrun : s.stopped = none)
    (hv : v.Settled) (hp : p < NPORTS) (hr : s.resume p k side = some s') : PtInv N s' := by
  obtain ⟨⟨c, y⟩, hbind, rfl⟩ := Option.map_eq_some_iff.mp hr
  obtain ⟨x, hx, hres⟩ := Option.bind_eq_some_iff.mp hbind
  have hcallers := (h.port p hp).callers hx
  have hperm := Semaphore.blocked_resume hres
  obtain ⟨rfl, hseq, hera, hside⟩ := hcallers c (hperm.mem_iff.mpr List.mem_cons_self)
  -- The other callers that were blocked still are.
  have hy : ∀ d ∈ y.blocked, d.Waits c.portid (s.porttab c.portid) side :=
    fun d hd => hcallers d (hperm.mem_iff.mpr (List.mem_cons_of_mem _ hd))
  -- The era of the port still goes on, so the process does what it waited for.
  by_cases hs : (s.porttab c.portid).ptstate = .alloc
  · have hset := h.setSem hrun hp hs hx (fun hok => hok.resume hres)
      (n := 1) (by rw [Semaphore.unused_resume hres]; push_cast; omega) hy
    refine hset.goOn hrun hp ?_ hseq ?_ ?_
    · rw [Ports.setPort_porttab_self, PtEntry.setSem_ptstate, hs]
    · rw [Ports.setPort_porttab_self, PtEntry.setSem_era, hera]
      exact if_pos hs
    · rw [hside]
      exact hv.take _ side
  · -- The port is in limbo: its era has ended.
    have hzero : (v.port c.portid).take 0 side = v.port c.portid := by cases side <;> rfl
    have hphase := (h.port _ hp).phase.resume hs hx hres
    have hport := (h.port _ hp).setSem (n := 0) hy (by rw [hzero]; exact hphase)
    rw [hzero] at hport
    have hset := h.setPort hrun hp rfl rfl hport (Or.inr (PtEntry.setSem_current ..))
      (by rw [PtEntry.setSem_era])
    refine hset.fails (fun _ p' => ?_) (Or.inl ?_) ?_
    · rw [Function.update_eq_self]
      exact hv p'
    · rw [Ports.setPort_porttab_self, PtEntry.setSem_ptstate]
      exact hs
    · rw [Ports.setPort_porttab_self, PtEntry.setSem_era, hera]
      unfold PtEntry.current
      rw [if_neg hs]
      have hpos := (h.port _ hp).pos ((h.port _ hp).phase.limbo hs hx)
      omega

/-! ## Clearing and creating -/

/-- Two counters with the same 32 bits differ by a multiple of `2 ^ 32`. -/
theorem dvd_of_int32_eq {a b : ℕ} (h : int32 a = int32 b) : 2 ^ 32 ∣ a - b := by
  have hmod : (a : ℤ) % (2 ^ 32 : ℕ) = (b : ℤ) % (2 ^ 32 : ℕ) := by
    rw [← Int.bmod_emod, ← @Int.bmod_emod b]
    exact congrArg (· % ((2 ^ 32 : ℕ) : ℤ)) h
  omega

/-- A process whose semaphore has been reset or deleted finds another sequence number, or a port
that is not allocated. -/
theorem PortsOk.late {k : ℕ} (h : PortsOk N s v) (hk : s.stale[k]? = some c)
    (hfresh : (s.porttab c.portid).ptstate = .alloc → ¬ 2 ^ 32 ∣ (s.porttab c.portid).era - c.era) :
    (s.porttab c.portid).ptstate ≠ .alloc ∨ (s.porttab c.portid).ptseq ≠ c.seq := by
  obtain ⟨hp, hseq, -⟩ := h.stale c (List.mem_of_getElem? hk)
  by_cases hs : (s.porttab c.portid).ptstate = .alloc
  · right
    rw [(h.port _ hp).seq, hseq]
    exact fun heq => hfresh hs (dvd_of_int32_eq heq)
  · exact Or.inl hs

/-- A process goes on whose port has been cleared. -/
theorem PortsOk.stale_goOn {k : ℕ} (h : PortsOk N s v) (hv : v.Settled) (hk : s.stale[k]? = some c)
    (hfresh : (s.porttab c.portid).ptstate = .alloc → ¬ 2 ^ 32 ∣ (s.porttab c.portid).era - c.era) :
    PtInv N (Ports.goOn { s with stale := s.stale.eraseIdx k } c) := by
  obtain ⟨hp, -, hera⟩ := h.stale c (List.mem_of_getElem? hk)
  have h' : PortsOk N { s with stale := s.stale.eraseIdx k } v :=
    ⟨h.nodes, h.free, h.port, fun p hp => ⟨(h.ledger p hp).eras, (h.ledger p hp).disposed⟩,
      fun d hd => h.stale d (List.mem_of_mem_eraseIdx hd),
      h.failed, h.running, h.panic, h.nextid⟩
  exact h'.fails (fun _ => hv) (h.late hk hfresh) (Nat.ne_of_lt hera)

/-- `int32` of a number that is one more. -/
theorem int32_succ {a : ℤ} (h : a = int32 n) : int32 (a + 1) = int32 (n + 1 : ℕ) := by
  rw [h]
  unfold int32
  push_cast
  exact Int.bmod_add_bmod ..

/-- `ptreset` and `ptdelete` begin with a port in order, up to the first message they dispose of. -/
theorem PortsOk.startClear {portid : ℤ} {newstate : PtState}
    (h : PortsOk N s v) (hrun : s.stopped = none) (hv : v.Settled) (hnew : newstate ≠ .limbo) :
    PtInv N (s.startClear portid newstate) := by
  unfold Ports.startClear
  dsimp only
  by_cases hbad : isbadport portid ∨ (s.porttab portid.toNat).ptstate ≠ .alloc
  · rw [if_pos hbad]
    exact ⟨v, h, fun _ => hv⟩
  · rw [if_neg hbad]
    push Not at hbad
    obtain ⟨hport, hs⟩ := hbad
    have hp : portid.toNat < NPORTS := by
      unfold NPORTS at hport ⊢
      omega
    -- The queue of the port, all of which is left to be disposed of.
    obtain ⟨hclear, hq, hleft, hcnt⟩ := (h.port _ hp).phase.of_alloc hs
    have hcurrent : (s.porttab portid.toNat).current = (s.porttab portid.toNat).era := if_pos hs
    refine ⟨_, h.setPort hrun hp rfl rfl (w := v.port portid.toNat) ?_ (Or.inr ?_) (Nat.le_succ _),
      fun _ p' => ?_⟩
    · refine ⟨int32_succ (h.port _ hp).seq, fun _ => Nat.succ_pos _,
        ?_, fun d hd => ((h.port _ hp).senders d hd).congr ?_,
        fun d hd => ((h.port _ hp).receivers d hd).congr ?_, (h.port _ hp).maxcnt, (h.port _ hp).permits⟩
      -- Without a message the semaphores are next, otherwise the first message.
      · by_cases hnil : (v.port portid.toNat).queue = []
        · have hhead : (s.porttab portid.toNat).pthead = none := by
            have := hq.path
            rw [hnil] at this
            exact this
          exact .semaphores newstate rfl (by rw [if_pos hhead]) hnew hnil (hleft.trans hnil)
        · have hhead : (s.porttab portid.toNat).pthead ≠ none := by
            rw [hq.path.start hnil]
            simpa using hnil
          exact .dispose newstate (s.porttab portid.toNat).pthead [] rfl
            (by rw [if_neg hhead]) hnew ⟨hq.path, hq.last⟩ hnil
            (by rw [hleft, List.nil_append]) (by rw [hleft]; exact hq.path)
              (le_trans (Nat.le_add_right ..) hcnt.le)
      -- The callers are of the era that ends now.
      · rw [hcurrent]
        rfl
      · rw [hcurrent]
        rfl
    · rw [hcurrent]
      rfl
    · rw [Function.update_eq_self]
      exact hv p'

/-- A semaphore that has been reset, or deleted. -/
theorem Ports.cleared_eq {newstate : PtState} {m : ℤ} {sem : Option (Semaphore PtCall)} :
    (∀ x, cleared newstate m sem = some x → x = .create m) ∧
    (newstate ≠ .alloc → cleared newstate m sem = none) := by
  constructor
  · intro x hx
    unfold cleared at hx
    split_ifs at hx
    obtain ⟨y, -, rfl⟩ := Option.map_eq_some_iff.mp hx
    rfl
  · exact fun hnew => if_neg hnew

/-- Nobody waits at a semaphore that has just been created. -/
theorem Semaphore.callers_create {sem : Option (Semaphore PtCall)}
    {m : ℤ} (h : ∀ x, sem = some x → x = .create m) : Semaphore.callers sem = [] := by
  cases sem with
  | none => rfl
  | some x =>
    rw [h x rfl]
    rfl

/-- The queue of a port goes before the free list. -/
theorem Queued.release {a : Option ℕ} {free : List ℕ} (h : Queued next e q)
    (hd : q.Nodup) (hne : q ≠ []) (hfree : LinkPath next a free none)
    (hnot : ∀ x ∈ q, x ∉ free) : LinkPath (store next e.pttail a) e.pthead (q ++ free) none := by
  obtain ⟨q₀, t, rfl⟩ := (List.eq_nil_or_concat' q).resolve_left hne
  have ht : t ∉ q₀ := fun hmem => (List.nodup_append.mp hd).2.2 t hmem t (List.mem_singleton_self t) rfl
  have htail : e.pttail = some t := by rw [h.last, List.getLast?_concat]
  rw [htail]
  refine LinkPath.append_iff.mpr ⟨a, h.path.update_last ht a, ?_⟩
  exact hfree.update (hnot t (List.mem_append_right _ (List.mem_singleton_self t))) _

/-- A message of the era that has ended is disposed of. -/
theorem PtLedger.dispose {m : ℕ} {l : List ℕ} (h : PtLedger s p e w)
    (hs : e.ptstate = .limbo) (hpos : 0 < e.era) (hleft : w.left = m :: l)
    {e' : PtEntry} {w' : PtPlace} (hs' : e'.ptstate = .limbo)
    (hera : e'.era = e.era) (hleft' : w'.left = l) (hacc : s'.accepted = s.accepted)
    (hdel : s'.delivered = s.delivered) (hdis : s'.disposed = s.disposed ++ [⟨p, e.era - 1, s.ptmsg m⟩])
    (hmsg : s'.ptmsg = s.ptmsg) :
    PtLedger s' p e' w' := by
  have hcurrent : e.current = e.era - 1 := if_neg (by rw [hs]; decide)
  have hcurrent' : e'.current = e.era - 1 := by rw [PtEntry.current, if_neg (by rw [hs']; decide), hera]
  refine ⟨fun era => ?_, fun x hx hxp => ?_⟩
  · have heras := h.eras era
    rw [hleft, hcurrent, List.map_cons] at heras
    rw [hacc, hdel, hdis, hmsg, PtMsg.ofEra_concat, heras, hcurrent', hleft']
    by_cases hnow : era = e.era - 1
    · rw [if_pos hnow, if_pos hnow, if_pos ⟨rfl, hnow.symm⟩]
      simp only [List.append_assoc, List.cons_append, List.nil_append]
    · rw [if_neg hnow, if_neg hnow, if_neg fun hx => hnow hx.2.symm]
      simp only [List.append_nil]
  · rw [hdis] at hx
    rw [hera]
    rcases List.mem_append.mp hx with hx | hx
    · exact h.disposed x hx hxp
    · rw [List.mem_singleton.mp hx]
      exact Nat.sub_lt hpos Nat.one_pos

/-- The history of a port of which nothing is left. -/
theorem PtLedger.nothing_left (h : PtLedger s p e w) (hl : w.left = [])
    {e' : PtEntry} {w' : PtPlace} (hl' : w'.left = []) (hera : e'.era = e.era)
    (hacc : s'.accepted = s.accepted) (hdel : s'.delivered = s.delivered) (hdis : s'.disposed = s.disposed) :
    PtLedger s' p e' w' := by
  refine ⟨fun era => ?_, by rw [hdis, hera]; exact h.disposed⟩
  have heras := h.eras era
  rw [hl, List.map_nil, ite_self] at heras
  rw [hacc, hdel, hdis, hl', List.map_nil, ite_self]
  exact heras

/-- A port is allocated whose semaphores have just been reset. -/
theorem PtCounted.reset (hq : w.queue = []) (hss : ∀ x, e.ptssem = some x → x = .create w.permits)
    (hrs : ∀ x, e.ptrsem = some x → x = .create 0)
    (hs : w.sending = 0) (hr : w.receiving = 0) : PtCounted e w := by
  refine ⟨fun x hx => ?_, fun _ => ⟨hq, hs⟩, fun x hx => ?_, fun _ => hr⟩
  · rw [hss x hx, hq, hs, Semaphore.unused_create]
    exact ⟨.create (Int.natCast_nonneg _), by simp⟩
  · rw [hrs x hx, hq, hr, Semaphore.unused_create]
    exact ⟨.create (le_refl 0), by simp⟩

/-- A process that waits at a port in limbo waits for an era that has ended. -/
theorem PtCall.Waits.ended (h : c.Waits p e side) (hs : e.ptstate = .limbo) (hpos : 0 < e.era) :
    c.portid = p ∧ c.seq = int32 c.era ∧ c.era < e.era := by
  refine ⟨h.portid, h.seq, ?_⟩
  rw [h.era, PtEntry.current, if_neg (by rw [hs]; decide)]
  exact Nat.sub_lt hpos Nat.one_pos

/-- The processes that go on stay the same. -/
theorem PtView.Settled.keep (hv : v.Settled) (free : List ℕ)
    (hs : w.sending = (v.port p).sending) (hr : w.receiving = (v.port p).receiving) :
    PtView.Settled ⟨free, Function.update v.port p w⟩ := by
  intro p'
  dsimp only
  by_cases hne : p' = p
  · rw [hne, Function.update_self, hs, hr]
    exact hv p
  · rw [Function.update_of_ne hne]
    exact hv p'

/-- Those who wait to send also wait at a port that has changed within its era. -/
theorem PortOk.senders_congr {next : ℕ → Option ℕ} {e' : PtEntry} (h : PortOk next p e w)
    (he : e'.current = e.current) : ∀ c ∈ Semaphore.callers e.ptssem, c.Waits p e' .sender :=
  fun c hc => (h.senders c hc).congr he

/-- Those who wait to receive also wait at a port that has changed within its era. -/
theorem PortOk.receivers_congr {next : ℕ → Option ℕ} {e' : PtEntry} (h : PortOk next p e w)
    (he : e'.current = e.current) : ∀ c ∈ Semaphore.callers e.ptrsem, c.Waits p e' .receiver :=
  fun c hc => (h.receivers c hc).congr he

/-- Nobody waits at a semaphore that has just been made, or is none. -/
theorem PtCall.waits_created {e : PtEntry} {side : PtSide} {count : ℤ} {sem : Option (Semaphore PtCall)}
    (h : ∀ x, sem = some x → x = .create count) : ∀ c ∈ Semaphore.callers sem, c.Waits p e side := by
  rw [Semaphore.callers_create h]
  exact fun c hc => absurd hc List.not_mem_nil

section

variable {n : PtState} (h : PortsOk N s v) (hrun : s.stopped = none) (hv : v.Settled) (hp : p < NPORTS)
  (hs : (s.porttab p).ptstate = .limbo) (hn : n ≠ .limbo) (hr : s.clear p = some s')

include h hrun hv hp hs hn hr

/-- All messages are disposed of: the queue goes to the free list. -/
theorem PortsOk.clear_release (hc : (s.porttab p).clearing = some ⟨n, .dispose none⟩)
    (hq : Queued s.ptnext (s.porttab p) (v.port p).queue) (hne : (v.port p).queue ≠ [])
    (hw : LinkPath s.ptnext none (v.port p).left none) : PtInv N s' := by
  have hport := h.port p hp
  have hd : (Multiset.range N).Nodup := Multiset.nodup_range N
  have hmem : p ∈ Finset.range NPORTS := Finset.mem_range.mpr hp
  have hleft : (v.port p).left = [] := by
    cases hl : (v.port p).left with
    | nil => rfl
    | cons x l => exact absurd (hl ▸ hw).1 (by rintro ⟨⟩)
  -- Only the last node of the queue gets another link.
  have hlinks : ∀ x, x ∉ (v.port p).queue → store s.ptnext
      (s.porttab p).pttail s.ptfree x = s.ptnext x := by
    intro x hx
    cases hlast : (s.porttab p).pttail with
    | none => rfl
    | some t =>
      exact Function.update_of_ne
        (ne_of_mem_of_not_mem (List.mem_of_getLast? (hq.last ▸ hlast)) hx).symm _ _
  rw [Ports.clear, hc] at hr
  obtain rfl := Option.some.inj hr
  dsimp only
  refine ⟨⟨(v.port p).queue ++ v.free, Function.update v.port
    p { v.port p with queue := [], left := [] }⟩, h.change hp ⟨rfl, ?_, ?_, ?_, ?_, ?_,
    .refl .., .refl .., .refl .., le_refl _, fun _ hc => Or.inl hc,
      fun _ hf => Or.inl hf, hrun, h.nextid⟩, fun _ => hv.keep _ (by rfl) (by rfl)⟩
  · simpa using List.perm_append_comm
  · exact hq.release (h.nodes.nodup_queue hd hmem) hne h.free fun x hx => h.nodes.not_free hd hmem hx
  · exact fun x _ hx => ⟨hlinks x hx, rfl⟩
  · exact ⟨hport.seq, hport.pos, .semaphores n hs rfl hn rfl rfl, hport.senders_congr rfl,
      hport.receivers_congr rfl, hport.maxcnt, hport.permits⟩
  · exact (h.ledger p hp).nothing_left hleft rfl rfl rfl rfl rfl

/-- The first of the messages that are left is disposed of. -/
theorem PortsOk.clear_dispose {x : ℕ} {done : List ℕ}
    (hc : (s.porttab p).clearing = some ⟨n, .dispose (some x)⟩)
    (hq : Queued s.ptnext (s.porttab p) (v.port p).queue)
    (hdone : (v.port p).queue = done ++ (v.port p).left)
    (hw : LinkPath s.ptnext (some x) (v.port p).left none)
    (hle : (v.port p).queue.length ≤ (v.port p).permits) : PtInv N s' := by
  have hport := h.port p hp
  obtain ⟨l, hl, hwalk⟩ := LinkPath.exists_cons hw
  rw [Ports.clear, hc] at hr
  obtain rfl := Option.some.inj hr
  dsimp only
  refine ⟨⟨v.free, Function.update v.port p { v.port p with left := l }⟩,
    h.change hp ⟨rfl, .refl _, h.free, fun _ _ _ => ⟨rfl, rfl⟩, ?_, ?_,
    .refl .., .refl .., .one _ _ rfl, le_refl _, fun _ hc => Or.inl hc,
      fun _ hf => Or.inl hf, hrun, h.nextid⟩,
    fun _ => hv.keep _ (by rfl) (by rfl)⟩
  · exact ⟨hport.seq, hport.pos, .disposing n x done hs rfl hn ⟨hq.path, hq.last⟩ (hl ▸ hdone) hwalk hle,
      hport.senders_congr rfl, hport.receivers_congr rfl, hport.maxcnt, hport.permits⟩
  · exact (h.ledger p hp).dispose hs (hport.pos hs) hl hs rfl rfl rfl rfl rfl rfl

/-- The walk through the queue goes on behind a message that is disposed of. -/
theorem PortsOk.clear_next {walk : ℕ} {done : List ℕ}
    (hc : (s.porttab p).clearing = some ⟨n, .disposing walk⟩)
    (hq : Queued s.ptnext (s.porttab p) (v.port p).queue)
    (hdone : (v.port p).queue = done ++ walk :: (v.port p).left)
    (hw : LinkPath s.ptnext (s.ptnext walk) (v.port p).left none)
    (hle : (v.port p).queue.length ≤ (v.port p).permits) : PtInv N s' := by
  have hport := h.port p hp
  have hne : (v.port p).queue ≠ [] := by
    rw [hdone]
    exact List.append_ne_nil_of_right_ne_nil _ (by simp)
  have hdone' : (v.port p).queue = (done ++ [walk]) ++ (v.port p).left := by
    rw [hdone, List.append_assoc, List.singleton_append]
  rw [Ports.clear, hc] at hr
  obtain rfl := Option.some.inj hr
  dsimp only
  refine ⟨_, h.setPort hrun hp rfl rfl (w := v.port p) ?_ (Or.inr rfl) (le_refl _),
    fun _ => hv.keep _ (by rfl) (by rfl)⟩
  exact ⟨hport.seq, hport.pos, .dispose n (s.ptnext walk) _ hs rfl hn ⟨hq.path, hq.last⟩ hne hdone' hw hle,
    hport.senders_congr rfl, hport.receivers_congr rfl, hport.maxcnt, hport.permits⟩

/-- The semaphore of the senders is reset or deleted, and those who were blocked there have called in
an era that is over. -/
theorem PortsOk.clear_semaphores (hc : (s.porttab p).clearing = some ⟨n, .semaphores⟩)
    (hq : (v.port p).queue = []) (hl : (v.port p).left = []) : PtInv N s' := by
  have hport := h.port p hp
  rw [Ports.clear, hc] at hr
  obtain rfl := Option.some.inj hr
  dsimp only
  refine ⟨⟨v.free, Function.update v.port p { v.port p with permits := (s.porttab p).ptmaxcnt }⟩,
    h.change hp ⟨rfl, .refl _, h.free,
    fun _ _ _ => ⟨rfl, rfl⟩, ?_, ⟨(h.ledger p hp).eras, (h.ledger p hp).disposed⟩,
      .refl .., .refl .., .refl .., le_refl _, fun d hd => ?_,
    fun _ hf => Or.inl hf, hrun, h.nextid⟩, fun _ => hv.keep _ (by rfl) (by rfl)⟩
  · exact ⟨hport.seq, hport.pos, .second n hs rfl hn hq hl (fun hnew =>
      ⟨if_pos hnew, if_pos hnew⟩) Ports.cleared_eq.1 Ports.cleared_eq.2,
      PtCall.waits_created Ports.cleared_eq.1, hport.receivers_congr rfl, hport.maxcnt, hport.maxcnt⟩
  · rcases List.mem_append.mp hd with hd | hd
    · exact Or.inl hd
    · exact Or.inr ((hport.senders d hd).ended hs (hport.pos hs))

/-- The semaphore of the receivers is reset or deleted, and those who were blocked there have called
in an era that is over. -/
theorem PortsOk.clear_second (hc : (s.porttab p).clearing = some ⟨n, .second⟩)
    (hq : (v.port p).queue = []) (hl : (v.port p).left = [])
    (hnil : n = .alloc → (s.porttab p).pthead = none ∧ (s.porttab p).pttail = none)
    (hss : ∀ x, (s.porttab p).ptssem = some x → x = .create (v.port p).permits)
    (hnone : n ≠ .alloc → (s.porttab p).ptssem = none) : PtInv N s' := by
  have hport := h.port p hp
  rw [Ports.clear, hc] at hr
  obtain rfl := Option.some.inj hr
  dsimp only
  refine ⟨⟨v.free, Function.update v.port p (v.port p)⟩,
    h.change hp ⟨rfl, .refl _, h.free, fun _ _ _ => ⟨rfl, rfl⟩, ?_,
    ⟨(h.ledger p hp).eras, (h.ledger p hp).disposed⟩, .refl ..,
      .refl .., .refl .., le_refl _, fun d hd => ?_, fun _ hf => Or.inl hf, hrun,
    h.nextid⟩, fun _ => hv.keep _ (by rfl) (by rfl)⟩
  · exact ⟨hport.seq, hport.pos, .last n hs rfl hn hq hl hnil hss Ports.cleared_eq.1 fun hnew =>
      ⟨hnone hnew, Ports.cleared_eq.2 hnew⟩,
      hport.senders_congr rfl, PtCall.waits_created Ports.cleared_eq.1, hport.maxcnt, hport.permits⟩
  · rcases List.mem_append.mp hd with hd | hd
    · exact Or.inl hd
    · exact Or.inr ((hport.receivers d hd).ended hs (hport.pos hs))

end

/-- The port gets its new state: it is free, or it is reset for the next era. -/
theorem PortsOk.clear_last {n : PtState} (h : PortsOk N s v) (hrun : s.stopped = none) (hv : v.Settled)
    (hp : p < NPORTS) (hn : n ≠ .limbo) (hr : s.clear p = some s')
    (hc : (s.porttab p).clearing = some ⟨n, .last⟩)
    (hq : (v.port p).queue = []) (hl : (v.port p).left = [])
    (hnil : n = .alloc → (s.porttab p).pthead = none ∧ (s.porttab p).pttail = none)
    (hss : ∀ x, (s.porttab p).ptssem = some x → x = .create (v.port p).permits)
    (hrs : ∀ x, (s.porttab p).ptrsem = some x → x = .create 0)
    (hnone : n ≠ .alloc → (s.porttab p).ptssem = none ∧ (s.porttab p).ptrsem = none) : PtInv N s' := by
  have hport := h.port p hp
  have hnextid : (if n = .free then p else s.ptnextid) < NPORTS := by
    split_ifs with hfree
    · exact hp
    · exact h.nextid
  rw [Ports.clear, hc] at hr
  obtain rfl := Option.some.inj hr
  dsimp only
  refine ⟨⟨v.free, Function.update v.port p (v.port p)⟩,
    h.change hp ⟨rfl, .refl _, h.free, fun _ _ _ => ⟨rfl, rfl⟩, ?_,
    (h.ledger p hp).nothing_left hl hl rfl rfl rfl rfl, .refl ..,
      .refl .., .refl .., le_refl _, fun _ hc => Or.inl hc, fun _ hf => Or.inl hf,
    hrun, hnextid⟩, fun _ => hv.keep _ (by rfl) (by rfl)⟩
  refine ⟨hport.seq, fun hlimbo => absurd hlimbo hn, ?_, PtCall.waits_created hss,
    PtCall.waits_created hrs, hport.maxcnt, hport.permits⟩
  cases n with
  | limbo => exact absurd rfl hn
  | free => exact .free rfl rfl (hnone (by decide)).1 (hnone (by decide)).2 hq hl
  | alloc =>
    obtain ⟨hhead, htail⟩ := hnil rfl
    exact .alloc rfl rfl ⟨by rw [hq]; exact hhead, by rw [hq]; exact htail⟩
      (hl.trans hq.symm) (.reset hq hss hrs (hv p).1 (hv p).2)

/-- A process in `_ptclear` goes on, from whatever place it has reached. -/
theorem PortsOk.clear (h : PortsOk N s v) (hrun : s.stopped = none)
    (hv : v.Settled) (hp : p < NPORTS) (hr : s.clear p = some s') : PtInv N s' := by
  obtain ⟨cl, hcl, -⟩ := Option.map_eq_some_iff.mp hr
  cases (h.port p hp).phase with
  | free hs hc => exact absurd (hc.symm.trans hcl) (by rintro ⟨⟩)
  | alloc hs hc => exact absurd (hc.symm.trans hcl) (by rintro ⟨⟩)
  | dispose n walk done hs hc hn hq hne hdone hw hle =>
    cases walk with
    | none => exact h.clear_release hrun hv hp hs hn hr hc hq hne hw
    | some x => exact h.clear_dispose hrun hv hp hs hn hr hc hq hdone hw hle
  | disposing n walk done hs hc hn hq hdone hw hle =>
    exact h.clear_next hrun hv hp hs hn hr hc hq hdone hw hle
  | semaphores n hs hc hn hq hl => exact h.clear_semaphores hrun hv hp hs hn hr hc hq hl
  | second n hs hc hn hq hl hnil hss hnone => exact h.clear_second hrun hv hp hs hn hr hc hq hl hnil hss hnone
  | last n hs hc hn hq hl hnil hss hrs hnone =>
    exact h.clear_last hrun hv hp hn hr hc hq hl hnil hss hrs hnone

/-- The loop of `ptcreate` keeps the invariant, whether it finds a free port or not. -/
theorem PortsOk.ptcreateLoop {count : ℕ} {a b : Bool} (h : PortsOk N s v)
    (hrun : s.stopped = none) (hv : v.Settled) : PtInv N (Ports.ptcreateLoop count a b n s).2 := by
  -- The induction is on the ports that are left to look at.
  induction n generalizing s with
  | zero => exact ⟨v, h, fun _ => hv⟩
  | succ n ih =>
    have hnext : (if s.ptnextid + 1 ≥ NPORTS then 0 else s.ptnextid + 1) < NPORTS := by
      split_ifs with hlast
      · decide
      · omega
    have h' : PortsOk N { s with ptnextid := if s.ptnextid + 1 ≥ NPORTS then 0 else s.ptnextid + 1 } v :=
      ⟨h.nodes, h.free, h.port, fun p hp => ⟨(h.ledger p hp).eras, (h.ledger p hp).disposed⟩,
        h.stale, h.failed, h.running, h.panic, hnext⟩
    rw [Ports.ptcreateLoop]
    dsimp only
    -- A free port is taken, and it is empty.
    by_cases hs : (s.porttab s.ptnextid).ptstate = .free
    · rw [if_pos hs]
      have hport := h.port _ h.nextid
      have hempty : (v.port s.ptnextid).queue = [] ∧ (v.port s.ptnextid).left = [] ∧
          (s.porttab s.ptnextid).clearing = none := by
        cases hport.phase with
        | free _ hc _ _ hq hl => exact ⟨hq, hl, hc⟩
        | alloc hs' => exact absurd (hs.symm.trans hs') (by decide)
        | dispose _ _ _ hs' => exact absurd (hs.symm.trans hs') (by decide)
        | disposing _ _ _ hs' => exact absurd (hs.symm.trans hs') (by decide)
        | semaphores _ hs' => exact absurd (hs.symm.trans hs') (by decide)
        | second _ hs' => exact absurd (hs.symm.trans hs') (by decide)
        | last _ hs' => exact absurd (hs.symm.trans hs') (by decide)
      obtain ⟨hq, hl, hc⟩ := hempty
      have hsem : ∀ (flag : Bool) (m : ℤ) (x : Semaphore PtCall),
          (if flag then some (Semaphore.create m) else none) = some x → x = .create m := by
        intro flag m x hx
        cases flag with
        | false => exact absurd hx (by simp)
        | true => exact (Option.some.inj hx).symm
      refine ⟨_, h'.setPort hrun h.nextid (w := { v.port s.ptnextid with permits := count }) rfl rfl ?_
        (Or.inl hl) (Nat.le_succ _),
        fun _ => hv.keep _ (by rfl) (by rfl)⟩
      refine ⟨int32_succ hport.seq, fun hlimbo => absurd hlimbo (by rintro ⟨⟩),
        ?_, ?_, ?_, Nat.mod_le _ _, le_refl count⟩
      · exact .alloc rfl hc ⟨by dsimp only; rw [hq]; rfl, by dsimp only; rw [hq]; rfl⟩ (hl.trans hq.symm)
          (.reset hq (hsem _ _) (hsem _ _) (hv _).1 (hv _).2)
      · rw [Semaphore.callers_create (hsem a count)]
        exact fun d hd => absurd hd List.not_mem_nil
      · rw [Semaphore.callers_create (hsem b 0)]
        exact fun d hd => absurd hd List.not_mem_nil
    -- Otherwise the next port is looked at.
    · rw [if_neg hs]
      exact ih h' hrun

/-! ## Runs -/

/-- A process that goes on at a port that has been cleared since is not late by a multiple of `2 ^
32` clearings and creations: the sequence number of the port would be the old one. -/
def PtFresh (s : Ports) : PtEvent → Prop
  | .stale k => ∀ c, s.stale[k]? = some c → (s.porttab c.portid).ptstate = .alloc →
    ¬ 2 ^ 32 ∣ (s.porttab c.portid).era - c.era
  | _ => True

/-- The invariant holds at first. -/
theorem PtInv.ptinit (N : ℕ) : PtInv N (.ptinit N) := by
  refine ⟨⟨List.range' 0 N, fun _ => ⟨[], [], 0, 0, 0⟩⟩,
    ⟨?_, ?_, fun p _ => ?_, fun p _ => ?_, ?_, ?_, ?_, ?_, (by decide : 0 < NPORTS)⟩, fun _ _ => ⟨rfl, rfl⟩⟩
  · have hstock : (Multiset.range N) =
      (List.range' 0 N : Multiset ℕ) := by rw [← List.range_eq_range', Multiset.coe_range]
    rw [hstock]
    exact .start ..
  · exact LinkPath.range N 0 N (Nat.zero_add N)
  · exact ⟨(by decide : (0 : ℤ) = int32 (0 : ℕ)), fun hlimbo => absurd hlimbo (by rintro ⟨⟩),
      .free rfl rfl rfl rfl rfl rfl, fun _ hc => absurd hc List.not_mem_nil,
      fun _ hc => absurd hc List.not_mem_nil, le_refl 0, le_refl 0⟩
  · exact ⟨fun era => by split_ifs <;> rfl, fun _ hx => absurd hx List.not_mem_nil⟩
  · exact fun _ hc => absurd hc List.not_mem_nil
  · exact fun _ hf => absurd hf List.not_mem_nil
  · unfold Ports.ptinit
    dsimp only
    split_ifs <;> rintro ⟨⟩
  · unfold Ports.ptinit
    dsimp only
    split_ifs <;> rintro ⟨⟩

/-- Every step keeps the invariant, if the ports that it makes are fresh. -/
theorem PtInv.exec {ev : PtEvent} (h : PtInv N s) (hC : PtFresh s ev) (he : s.exec ev = some s') :
    PtInv N s' := by
  obtain ⟨v, h, hv⟩ := h
  unfold Ports.exec at he
  -- After a panic nothing happens any more.
  by_cases hrun : s.stopped = none
  · rw [if_neg (not_not.mpr hrun)] at he
    have hv := hv hrun
    cases ev with
    | ptcreate count a b =>
      obtain rfl := Option.some.inj he
      unfold Ports.ptcreate
      split_ifs
      · exact ⟨v, h, fun _ => hv⟩
      · exact h.ptcreateLoop hrun hv
    | ptsend portid msg =>
      obtain rfl := Option.some.inj he
      exact h.call hrun hv
    | ptrecv portid =>
      obtain rfl := Option.some.inj he
      exact h.call hrun hv
    | ptreset portid =>
      obtain rfl := Option.some.inj he
      exact h.startClear hrun hv (by decide)
    | ptdelete portid =>
      obtain rfl := Option.some.inj he
      exact h.startClear hrun hv (by decide)
    | clear p =>
      obtain ⟨hp, he⟩ := Option.ite_none_right_eq_some.mp he
      exact h.clear hrun hv hp he
    | woken p k side =>
      obtain ⟨hp, he⟩ := Option.ite_none_right_eq_some.mp he
      exact h.resume hrun hv hp he
    -- A caller of an ended era goes on at a port that may have been made again.
    | stale k =>
      obtain ⟨c, hk, rfl⟩ := Option.map_eq_some_iff.mp he
      exact h.stale_goOn hv hk (hC c hk)
  · rw [if_pos hrun] at he
    exact absurd he (by rintro ⟨⟩)

/-- A run of such steps keeps the invariant. -/
theorem PtRun.inv (hr : PtRun PtFresh (.ptinit N) s) : PtInv N s := by
  induction hr with
  | start => exact .ptinit N
  | step _ hC he ih => exact ih.exec hC he

/-- What the users of the ports can rely on. -/
structure PortsLaw (N : ℕ) (s : Ports) (v : PtView) : Prop where
  /-- Each node is in one place: on the free list, or in the queue of one port. -/
  nodes : Shares (Finset.range NPORTS) (Multiset.range N) v.free fun p => (v.port p).queue
  /-- The links lead through the free nodes. -/
  free : LinkPath s.ptnext s.ptfree v.free none
  /-- The links of an allocated port lead through its queue. -/
  queue : ∀ p < NPORTS, (s.porttab p).ptstate = .alloc → LinkPath s.ptnext
    (s.porttab p).pthead (v.port p).queue none
  /-- The messages that a port has accepted since it was created or reset have been delivered, in
  order, up to those that are queued. -/
  now : ∀ p < NPORTS, (s.porttab p).ptstate = .alloc → PtMsg.ofEra s.accepted p (s.porttab p).era =
    PtMsg.ofEra s.delivered p (s.porttab p).era ++ (v.port p).queue.map s.ptmsg
  /-- Those of an era that has ended have been delivered first, and all others disposed of, in
  order, but for those that are left. -/
  before : ∀ p < NPORTS, ∀ era, (s.porttab p).ptstate ≠ .alloc ∨
    era ≠ (s.porttab p).era → PtMsg.ofEra s.accepted p era =
    PtMsg.ofEra s.delivered p era ++ PtMsg.ofEra s.disposed p era ++
      if (s.porttab p).ptstate = .limbo ∧ era + 1 = (s.porttab p).era then (v.port p).left.map s.ptmsg else []
  /-- A port never holds more messages than it was created for. -/
  bounded : ∀ p < NPORTS, (s.porttab p).ptstate = .alloc → (v.port p).queue.length ≤ (s.porttab p).count
  /-- A call fails behind its wait only if its port has been cleared since it began. -/
  failed : ∀ f ∈ s.failed, f.1.era ≠ f.2
  /-- Who waits at an allocated port, or has been woken there, called in the era of the port. -/
  inEra : ∀ p < NPORTS, (s.porttab p).ptstate = .alloc → ∀ side x, (s.porttab p).sem side = some x →
    ∀ c ∈ x.blocked, c.era = (s.porttab p).era
  /-- Who has been woken and goes on while the port is cleared returns `SYSERR`, and sends and
  receives nothing. -/
  limbo : ∀ p < NPORTS, (s.porttab p).ptstate ≠ .alloc → ∀ k side s', s.resume p k side = some s' →
    s'.accepted = s.accepted ∧ s'.delivered = s.delivered ∧
    ∃ c, s'.failed = s.failed ++ [(c, (s.porttab p).era)]
  /-- A caller that was blocked when the semaphores were reset or deleted fails too, whatever the port
  is then. -/
  across : s.stopped = none → ∀ k c, s.stale[k]? = some c → PtFresh s (.stale k) →
    s.exec (.stale k) = some
    { s with stale := s.stale.eraseIdx k, failed := s.failed ++ [(c, (s.porttab c.portid).era)] }
  /-- A receiver that goes on finds a message. -/
  running : s.stopped ≠ some .nullNode
  /-- A sender that goes on finds no node only if the ports have been created for more messages than
  there are nodes. -/
  panic : s.stopped = some .noNodes → N < ∑ p ∈ Finset.range NPORTS, (s.porttab p).promise

/-- Who waits at an allocated port called in its era. -/
theorem PortsOk.inEra (h : PortsOk N s v) (hp : p < NPORTS) (hs : (s.porttab p).ptstate = .alloc)
    (hx : (s.porttab p).sem side = some x) (hc : c ∈ x.blocked) : c.era = (s.porttab p).era := by
  have hera := ((h.port p hp).callers hx c hc).era
  rwa [PtEntry.current, if_pos hs] at hera

/-- A process that has been woken fails while its port is cleared. -/
theorem PortsOk.fails_limbo {k : ℕ} (h : PortsOk N s v)
    (hp : p < NPORTS) (hs : (s.porttab p).ptstate ≠ .alloc)
    (hr : s.resume p k side = some s') : s'.accepted = s.accepted ∧ s'.delivered = s.delivered ∧
      ∃ c, s'.failed = s.failed ++ [(c, (s.porttab p).era)] := by
  obtain ⟨⟨c, y⟩, hbind, rfl⟩ := Option.map_eq_some_iff.mp hr
  obtain ⟨x, hx, hres⟩ := Option.bind_eq_some_iff.mp hbind
  have hmem : c ∈ x.blocked := (Semaphore.blocked_resume hres).mem_iff.mpr List.mem_cons_self
  have hport : c.portid = p := ((h.port p hp).callers hx c hmem).portid
  have hstate : ((s.setPort p ((s.porttab p).setSem y side)).porttab c.portid).ptstate ≠ .alloc := by
    rw [hport, Ports.setPort_porttab_self, PtEntry.setSem_ptstate]
    exact hs
  unfold Ports.goOn
  dsimp only
  rw [if_pos (Or.inl hstate), hport, Ports.setPort_porttab_self, PtEntry.setSem_era]
  exact ⟨rfl, rfl, c, rfl⟩

/-- A process goes on whose semaphore has been reset or deleted: it fails. -/
theorem PortsOk.across {k : ℕ} (h : PortsOk N s v) (hrun : s.stopped = none) (hk : s.stale[k]? = some c)
    (hfresh : PtFresh s (.stale k)) : s.exec (.stale k) =
      some { s with stale := s.stale.eraseIdx k, failed := s.failed ++ [(c, (s.porttab c.portid).era)] } := by
  have hstopped : ¬ s.stopped ≠ none := not_not.mpr hrun
  unfold Ports.exec
  rw [if_neg hstopped]
  dsimp only
  rw [hk, Option.map_some]
  unfold Ports.goOn
  exact congrArg some (if_pos (h.late hk (hfresh c hk)))

/-- The law of the ports follows from the invariant. -/
theorem PortsOk.law (h : PortsOk N s v) : PortsLaw N s v := by
  refine ⟨h.nodes, h.free, fun p hp hs => ((h.port p hp).phase.of_alloc hs).2.1.path,
    fun p hp hs => ?_, fun p hp era hne => ?_, fun p hp hs => ?_,
    h.failed, fun p hp hs side x hx c hc => h.inEra hp hs hx hc,
      fun p hp hs k side s' hr => h.fails_limbo hp hs hr,
    fun hrun k c hk hfresh => h.across hrun hk hfresh, h.running, h.panic⟩
  -- An era of a port that is allocated: what it has received is sent or still queued.
  · have heras := (h.ledger p hp).eras (s.porttab p).era
    rw [(h.ledger p hp).not_disposed, List.append_nil, PtEntry.current,
      if_pos hs, if_pos rfl, ((h.port p hp).phase.of_alloc hs).2.2.1] at heras
    exact heras
  -- Another era: all of it has been disposed of, or is left to be.
  · have heras := (h.ledger p hp).eras era
    rw [heras]
    congr 1
    by_cases hs : (s.porttab p).ptstate = .alloc
    · rw [PtEntry.current, if_pos hs, if_neg (hne.resolve_left (not_not.mpr hs)), if_neg]
      rintro ⟨hlimbo, -⟩
      exact absurd (hs.symm.trans hlimbo) (by decide)
    · rw [PtEntry.current, if_neg hs]
      by_cases hlimbo : (s.porttab p).ptstate = .limbo
      · have hpos := (h.port p hp).pos hlimbo
        by_cases hera : era = (s.porttab p).era - 1
        · rw [if_pos hera, if_pos ⟨hlimbo, by omega⟩]
        · rw [if_neg hera, if_neg]
          rintro ⟨-, hera'⟩
          omega
      · -- A port that is free holds nothing.
        have hnil : (v.port p).left = [] := by
          cases (h.port p hp).phase with
          | free _ _ _ _ _ hl => exact hl
          | alloc hs' => exact absurd hs' hs
          | dispose _ _ _ hs' => exact absurd hs' hlimbo
          | disposing _ _ _ hs' => exact absurd hs' hlimbo
          | semaphores _ hs' => exact absurd hs' hlimbo
          | second _ hs' => exact absurd hs' hlimbo
          | last _ hs' => exact absurd hs' hlimbo
        rw [hnil, List.map_nil, ite_self, if_neg fun hx => hlimbo hx.1]
  -- The promise of a port that is allocated bounds its queue.
  · have hle := (h.port p hp).le
    rw [PtEntry.promise, if_neg (by rw [hs]; decide)] at hle
    exact hle

/-- A list of steps, one after the other. -/
def Ports.runs (s : Ports) : List PtEvent → Option Ports
  | [] => some s
  | e :: es => (s.exec e).bind fun s => s.runs es

/-- The step is one of a process whose port has been cleared. -/
def PtEvent.isStale : PtEvent → Bool
  | .stale _ => true
  | _ => false

/-- No process of such a list is late. -/
theorem PtFresh.of_steps {es : List PtEvent} (h : ∀ ev ∈ es, ev.isStale = false) :
    ∀ ev ∈ es, ∀ s, PtFresh s ev := by
  intro ev hev s
  have hstale := h ev hev
  cases ev with
  | stale k => cases hstale
  | _ => trivial

/-- A list of possible steps, each of which meets the condition in any state, makes a run. -/
theorem PtRun.of_runs {C : Ports → PtEvent → Prop} {s₀ : Ports} {l : List PtEvent} (hr : PtRun C s₀ s)
    (hC : ∀ ev ∈ l, ∀ s, C s ev) (he : s.runs l = some s') : PtRun C s₀ s' := by
  induction l generalizing s with
  | nil => exact Option.some.inj he ▸ hr
  | cons ev l ih =>
    obtain ⟨s₁, hs, he⟩ := Option.bind_eq_some_iff.mp he
    obtain ⟨hCev, hC⟩ := List.forall_mem_cons.mp hC
    exact ih (hr.step (hCev s) hs) hC he

/-- A port that is allocated and empty, at which nobody waits. -/
structure PtEntry.Idle (e : PtEntry) : Prop where
  /-- It is allocated. -/
  ptstate : e.ptstate = .alloc
  /-- Nobody clears it. -/
  clearing : e.clearing = none
  /-- It has no first message. -/
  pthead : e.pthead = none
  /-- It has no last one. -/
  pttail : e.pttail = none
  /-- All places are free, and nobody waits to send. -/
  ptssem : e.ptssem = some (.create e.ptmaxcnt)
  /-- There is no message, and nobody waits to receive. -/
  ptrsem : e.ptrsem = some (.create 0)

/-- The same port after `n` resets, with another sequence number. -/
def PtEntry.later (e : PtEntry) (seq : ℤ) (n : ℕ) : PtEntry := { e with ptseq := seq, era := e.era + n }

/-- An idle port is idle after any number of resets. -/
theorem PtEntry.Idle.later (h : e.Idle) (seq : ℤ) (n : ℕ) : (e.later seq n).Idle :=
  ⟨h.ptstate, h.clearing, h.pthead, h.pttail, h.ptssem, h.ptrsem⟩

/-- `ptcount` returns the messages and the senders that wait, less the receivers that have been
woken and have not gone on; or, if it is negative, the receivers that wait, and then those that have
been woken will take all messages. -/
theorem ptcount_right {x y : Semaphore PtCall} (hr : PtRun PtFresh (.ptinit N) s)
    (hrun : s.stopped = none) (hp : p < NPORTS)
    (hs : (s.porttab p).ptstate = .alloc) (hx : (s.porttab p).ptssem = some x)
    (hy : (s.porttab p).ptrsem = some y) :
    ∃ q, LinkPath s.ptnext (s.porttab p).pthead q none ∧
      (0 ≤ s.ptcount p → s.ptcount p = q.length + x.waiting.length - y.woken.length) ∧
      (s.ptcount p < 0 → -s.ptcount p = y.waiting.length ∧ q.length = y.woken.length) := by
  obtain ⟨v, h, hv⟩ := hr.inv
  obtain ⟨-, hq, -, hcnt⟩ := (h.port p hp).phase.of_alloc hs
  obtain ⟨hxok, -⟩ := hcnt.places x hx
  obtain ⟨hyok, hmessages⟩ := hcnt.messages y hy
  rw [(hv hrun p).2] at hmessages
  have hcount : s.ptcount p = if y.count ≥ 0 ∧ x.count < 0 then y.count + -x.count else y.count := by
    unfold Ports.ptcount
    dsimp only
    rw [Int.toNat_natCast, if_neg, hx, hy]
    · rfl
    · rintro (hbad | hbad)
      · unfold isbadport at hbad
        omega
      · exact hbad hs
  refine ⟨_, hq.path, ?_, ?_⟩
  · rw [hcount]
    unfold Semaphore.Ok at hxok hyok
    unfold Semaphore.unused at hmessages
    split_ifs <;> omega
  · rw [hcount]
    unfold Semaphore.Ok at hxok hyok
    unfold Semaphore.unused at hmessages
    split_ifs <;> omega

/-- A port with one message for a receiver that has been woken: `ptcount` returns 0. -/
theorem ptcount_right_one :
    ∃ s : Ports, s.ptcount 0 = 0 ∧ ∃ q, LinkPath s.ptnext (s.porttab 0).pthead q none ∧ q.length = 1 := by
  have hrun : ((Ports.ptinit 2).runs [.ptcreate 2 true true, .ptrecv 0, .ptsend 0 7]).map
      (fun s => (s.ptcount 0, s.stopped, (s.porttab 0).ptstate,
      (s.porttab 0).ptssem.map fun x => x.waiting.length, (s.porttab 0).ptrsem.map fun y => y.woken.length)) =
      some (0, none, .alloc, some 0, some 1) := by decide +kernel
  obtain ⟨s, hs, he⟩ := Option.map_eq_some_iff.mp hrun
  obtain ⟨hcount, he⟩ := Prod.mk.inj he
  obtain ⟨hstopped, he⟩ := Prod.mk.inj he
  obtain ⟨halloc, he⟩ := Prod.mk.inj he
  obtain ⟨hssem, hrsem⟩ := Prod.mk.inj he
  obtain ⟨x, hx, hwaiting⟩ := Option.map_eq_some_iff.mp hssem
  obtain ⟨y, hy, hwoken⟩ := Option.map_eq_some_iff.mp hrsem
  obtain ⟨q, hq, hpos, -⟩ := ptcount_right (p := 0)
    (.of_runs .start (PtFresh.of_steps (by decide)) hs) hstopped (by decide) halloc hx hy
  have heq := hpos (le_of_eq hcount.symm)
  refine ⟨s, hcount, q, hq, ?_⟩
  rw [Nat.cast_zero, hcount, hwaiting, hwoken] at heq
  omega

end Xinu
