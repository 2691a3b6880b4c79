import Xinu.Rds.DiskSpec

/-!
# One iteration of the communication process

What the loop of `rdsprocess` does with the request at the head of the queue, for any requests
behind it, and any outcome of the exchange with the server. While the process is blocked in
`rdscomm`, other processes may add requests.
-/

namespace Xinu

variable {β : Type} {d d' : Disk β} {L A B C : List ℕ} {e : Option ℕ} {r : ℕ}

/-- What an exchange comes to: what `rdscomm` returns, and the status and the data in the response buffer. -/
structure Exchange (β : Type) where
  /-- What `rdscomm` returns. -/
  retval : ℤ
  /-- The status in the response. -/
  rd_status : ℕ
  /-- The data in the response. -/
  rd_data : β

/-- The check of the response. If it holds, `rdsprocess` calls `panic`. -/
def Exchange.Failed (x : Exchange β) : Prop := x.retval = SYSERR ∨ x.retval = TIMEOUT ∨ x.rd_status ≠ 0

instance Exchange.decidableFailed (x : Exchange β) : Decidable x.Failed :=
  inferInstanceAs (Decidable (x.retval = SYSERR ∨ x.retval = TIMEOUT ∨ x.rd_status ≠ 0))

/-- `rdsprocess`, from behind `rdscomm` to `wait`. There is no result if it panics, or if a loop
does not end. -/
def Disk.received (d : Disk β) (x : Exchange β) : Option (Disk β × List (ReadDone β)) :=
  if x.Failed then none
  else match d.comm with
  | .waiting => none
  | .writing _ _ => some ({ d with comm := .waiting }, [])
  | .reading rptr blk =>
    let d' := ({ d with comm := .waiting }.satisfy rptr x.rd_data).1
    (satisfyAll blk x.rd_data RD_QNODES d'.queue.rd_qhead d').map fun t =>
      (t.1, ⟨(d.queue.rd_req rptr).rd_pid, blk, x.rd_data⟩ :: t.2)

/-- The server that handles each request is one for which every exchange succeeds. -/
theorem Disk.answer_eq (d : Disk β) : d.answer =
    match d.comm with
    | .waiting => none
    | .writing blk data => { d with server := Function.update d.server blk data }.received ⟨OK, 0, data⟩
    | .reading _ blk => d.received ⟨OK, 0, d.server blk⟩ := by
  have hok (data : β) : ¬ (⟨OK, 0, data⟩ : Exchange β).Failed := by
    simp only [Exchange.Failed, ne_eq, not_true_eq_false, or_false]
    decide
  unfold Disk.answer Disk.received
  cases hcomm : d.comm with
  | waiting => rfl
  | writing blk data => simp only [if_neg (hok _)]
  | reading rptr blk => simp only [if_neg (hok _)]

/-- The iteration with `B` behind the request at the head comes to `wait` again, and the request is
not in the queue then: at once, or when the exchange has come to `x`, and other processes have added
the requests `N` in the meantime. -/
def Disk.Handles (d : Disk β) (B : List ℕ) (x : Exchange β) : Prop :=
  ∃ d₁ outs, d.rdsprocess = some (d₁, outs) ∧
    ((d₁.comm.IsWaiting ∧ ∃ e, QueueHolds d₁.queue B e) ∨
      ¬ d₁.comm.IsWaiting ∧ ∃ L₁ e₁, QueueHolds d₁.queue L₁ e₁ ∧
        ∀ (d₂ : Disk β) N e₂, d₂.comm = d₁.comm → QueueHolds d₂.queue (L₁ ++ N) e₂ →
          ∃ d₃ outs₃ L₃ e₃, d₂.received x = some (d₃, outs₃) ∧ d₃.comm.IsWaiting ∧
            QueueHolds d₃.queue L₃ e₃ ∧ L₃.Sublist (B ++ N))

/-- The next request, if there is one, is a write of the same block. -/
def RdQueue.NextRewrites (q : RdQueue) (r : ℕ) : Prop :=
  ∀ t, q.rd_next r = some t → (q.rd_req t).rd_blknum = (q.rd_req r).rd_blknum ∧ (q.rd_req t).rd_op = .write

/-- A node is taken out of the queue, and the data are copied: what is behind it is next. -/
theorem QueueHolds.satisfy (h : QueueHolds d.queue (A ++ r :: B) e) (data : β) :
    ∃ e', QueueHolds (d.satisfy r data).1.queue (A ++ B) e' ∧
    (d.satisfy r data).1.comm = d.comm ∧ (d.satisfy r data).2 = B.head? :=
  ⟨_, h.rdqunlink, rfl, h.linked.neighbours.1⟩

/-- The walk behind the answer to a read request ends, whatever the requests are. The induction is
on the nodes that are left; those that the walk has passed are `A`. -/
theorem QueueHolds.satisfyAll {n : ℕ} (h : QueueHolds d.queue (A ++ B) e)
    (hn : B.length ≤ n) (blk : ℕ) (data : β) :
    ∃ d' outs L' e', Disk.satisfyAll blk data n B.head? d = some (d', outs) ∧
    d'.comm = d.comm ∧ QueueHolds d'.queue L' e' ∧
      L'.Sublist (A ++ B) := by
  induction n generalizing A B d e with
  | zero =>
    obtain rfl : B = [] := List.length_eq_zero_iff.mp (Nat.le_zero.mp hn)
    exact ⟨d, [], A ++ [], e, rfl, rfl, h, List.Sublist.refl _⟩
  | succ n ih =>
    cases B with
    | nil => exact ⟨d, [], A ++ [], e, rfl, rfl, h, List.Sublist.refl _⟩
    | cons r B =>
      have hnext : d.queue.rd_next r = B.head? := h.linked.neighbours.1
      have hn' : B.length ≤ n := by simpa using hn
      have hskip : QueueHolds d.queue (A ++ [r] ++ B) e := by rwa [List.append_assoc]
      obtain ⟨d', outs, L', e', hrest, hcomm, hok, hsub⟩ := ih hskip hn'
      rw [List.append_assoc] at hsub
      have hpass : ∃ d' outs L' e', Disk.satisfyAll blk data n (d.queue.rd_next r) d = some (d', outs) ∧
          d'.comm = d.comm ∧
          QueueHolds d'.queue L' e' ∧ L'.Sublist (A ++ r :: B) :=
            ⟨d', outs, L', e', hnext ▸ hrest, hcomm, hok, hsub⟩
      rw [List.head?_cons, Disk.satisfyAll]
      dsimp only
      by_cases hblk : (d.queue.rd_req r).rd_blknum ≠ blk
      · rw [if_pos hblk]
        exact hpass
      rw [if_neg hblk]
      cases hop : (d.queue.rd_req r).rd_op with
      | write => exact ⟨d, [], A ++ r :: B, e, rfl, rfl, h, List.Sublist.refl _⟩
      | sync => exact hpass
      | read =>
        -- the node is unlinked, and the walk goes on at the one behind it
        obtain ⟨e₁, hheld, hsame, hptr⟩ := h.satisfy data
        obtain ⟨d', outs, L', e', hrest, hcomm, hok, hsub⟩ := ih hheld hn'
        refine ⟨d', ⟨(d.queue.rd_req r).rd_pid, blk, data⟩ :: outs,
          L', e', ?_, hcomm.trans hsame, hok, hsub.trans ?_⟩
        · dsimp only
          rw [hptr, hrest]
          rfl
        · exact List.Sublist.append_left (List.sublist_cons_self r B) A

/-- Behind a successful exchange for a read at the head, the iteration ends, and the read is not in
the queue any more. -/
theorem QueueHolds.received {blk : ℕ} {x : Exchange β} (h : QueueHolds d.queue (r :: B) e)
    (hcomm : d.comm = .reading r blk)
    (hx : ¬ x.Failed) :
    ∃ d' outs L' e', d.received x = some (d', outs) ∧ d'.comm.IsWaiting ∧
    QueueHolds d'.queue L' e' ∧ L'.Sublist B := by
  have hwait : QueueHolds ({ d with comm := .waiting } : Disk β).queue ([] ++ r :: B) e := h
  obtain ⟨e₁, hheld, hsame, -⟩ := hwait.satisfy x.rd_data
  have hhead := hheld.linked.head_eq
  have hlen : B.length ≤ RD_QNODES := hheld.length_le
  obtain ⟨d', outs, L', e', hrest, hcomm', hok, hsub⟩ :=
    QueueHolds.satisfyAll (A := []) hheld hlen blk x.rd_data
  refine ⟨d', ⟨(d.queue.rd_req r).rd_pid, blk, x.rd_data⟩ :: outs, L', e', ?_, ?_, hok, hsub⟩
  · unfold Disk.received
    rw [if_neg hx, hcomm]
    dsimp only
    rw [hhead]
    exact congrArg _ hrest
  · rw [hcomm', hsame]
    trivial

/-- The check for subsequent writes does not end if the next request is not a write of the block. -/
theorem laterWrite_hangs {q : RdQueue} {t blk : ℕ} (ht : q.rd_next r = some t)
    (hno : ¬ ((q.rd_req t).rd_blknum = blk ∧ (q.rd_req t).rd_op = .write)) :
    Disk.laterWrite q r blk = none := by
  unfold Disk.laterWrite
  rw [ht]
  exact if_neg hno

/-- The iteration that handles a write ends if it finds its way out of the check for subsequent
writes, and the exchange succeeds. -/
theorem QueueHolds.handles_write {x : Exchange β} (h : QueueHolds d.queue (r :: B) e) (hc : CacheOk d.cache C)
    (hop : (d.queue.rd_req r).rd_op = .write) (hnext : d.queue.NextRewrites r) (hx : ¬ x.Failed) :
    d.Handles B x := by
  obtain ⟨later, hlater, -⟩ := laterWrite_eq h.linked hnext
  -- the cache takes the block, if it is to have it
  obtain ⟨cache, hcache⟩ : ∃ cache, (if later then some d.cache
      else d.cache.rdcinsert (d.queue.rd_req r).rd_blknum (d.bufs (d.queue.rd_req r).rd_callbuf)) =
        some cache := by
    cases later with
    | true => exact ⟨_, rfl⟩
    | false =>
      obtain ⟨-, cache, -, hinsert, -⟩ :=
        hc.rdcinsert (d.queue.rd_req r).rd_blknum (d.bufs (d.queue.rd_req r).rd_callbuf)
      exact ⟨cache, hinsert⟩
  refine ⟨{ d with rd_comsem := d.rd_comsem - 1 }.transmit r cache,
    [], ?_, .inr ⟨id, B, _, QueueHolds.rdqunlink (A := []) h, ?_⟩⟩
  · unfold Disk.rdsprocess
    simp only [h.linked.head_eq, List.head?_cons, hop, hlater, hcache, Option.map_some]
  · intro d₂ N e₂ hcomm hheld
    refine ⟨{ d₂ with comm := .waiting }, [], B ++ N, e₂, ?_, trivial, hheld, List.Sublist.refl _⟩
    unfold Disk.received
    rw [if_neg hx, hcomm]
    rfl

/-- The iteration that handles a read ends if the exchange succeeds. -/
theorem QueueHolds.handles_read {x : Exchange β} (h : QueueHolds d.queue (r :: B) e)
    (hop : (d.queue.rd_req r).rd_op = .read)
    (hx : ¬ x.Failed) : d.Handles B x := by
  refine ⟨{ d with rd_comsem := d.rd_comsem - 1, comm := .reading r (d.queue.rd_req r).rd_blknum },
    [], ?_, .inr ⟨id, r :: B, e, h, ?_⟩⟩
  · unfold Disk.rdsprocess
    simp only [h.linked.head_eq, List.head?_cons, hop]
  · exact fun d₂ N e₂ hcomm hheld => QueueHolds.received hheld hcomm hx

/-- A failed exchange does not let the process go on. -/
theorem Disk.received_failed {x : Exchange β} (hx : x.Failed) : d.received x = none := if_pos hx

/-- The process that waits for the server does not come to `wait` again if the exchange fails. -/
theorem Disk.Handles.ok {x : Exchange β} (h : d.Handles B x)
    (hd : ∀ d₁ outs, d.rdsprocess = some (d₁, outs) → ¬ d₁.comm.IsWaiting) :
    ¬ x.Failed := by
  obtain ⟨d₁, outs, hrun, ⟨hwait, -⟩ | ⟨-, L₁, e₁, hheld, hafter⟩⟩ := h
  · exact absurd hwait (hd d₁ outs hrun)
  · intro hx
    have hsame : QueueHolds d₁.queue (L₁ ++ []) e₁ := by rwa [List.append_nil]
    obtain ⟨d₃, outs₃, -, -, hreceived, -⟩ := hafter d₁ [] e₁ rfl hsame
    rw [Disk.received_failed hx] at hreceived
    cases hreceived

/-- An iteration that finds the request `r` at the head of the queue, with any requests behind it,
comes to `wait` again and has removed the request exactly if this is a sync request, or the exchange
succeeds and, for a write, the next request is a write of the same block or there is none. -/
theorem rdsprocess_handles {x : Exchange β} (h : QueueHolds d.queue (r :: B) e)
    (hc : CacheOk d.cache C) (hw : d.comm.IsWaiting) :
    d.Handles B x ↔ (d.queue.rd_req r).rd_op = .sync ∨
      ¬ x.Failed ∧ ((d.queue.rd_req r).rd_op = .write → d.queue.NextRewrites r) := by
  have hhead : d.queue.rd_qhead = some r := h.linked.head_eq
  cases hop : (d.queue.rd_req r).rd_op with
  -- A sync request is always handled: its process goes on and its node is taken out.
  | sync =>
    refine iff_of_true ?_ (.inl rfl)
    refine ⟨{ { d with rd_comsem := d.rd_comsem - 1 }.resume (d.queue.rd_req r).rd_pid with
        queue := (d.queue.rdqunlink r).1 }, [], ?_,
      .inl ⟨hw, _, QueueHolds.rdqunlink (A := []) h⟩⟩
    unfold Disk.rdsprocess
    simp only [hhead, hop]
  -- A read is handled exactly if the exchange succeeds.
  | read =>
    refine ⟨fun hh => .inr ⟨hh.ok fun d₁ outs hrun => ?_, nofun⟩, ?_⟩
    · unfold Disk.rdsprocess at hrun
      simp only [hhead, hop] at hrun
      cases hrun
      exact id
    · rintro (hsync | ⟨hx, -⟩)
      · cases hsync
      · exact h.handles_read hop hx
  -- A write also has to be followed by nothing, or by a write of its block.
  | write =>
    refine ⟨fun hh => .inr ⟨hh.ok fun d₁ outs hrun => ?_, fun _ t ht => ?_⟩, ?_⟩
    · unfold Disk.rdsprocess at hrun
      simp only [hhead, hop] at hrun
      split at hrun
      · cases hrun
      · obtain ⟨cache, -, heq⟩ := Option.map_eq_some_iff.mp hrun
        cases heq
        exact id
    · -- the loop looks at the next request only
      obtain ⟨d₁, outs, hrun, -⟩ := hh
      by_contra hno
      unfold Disk.rdsprocess at hrun
      simp only [hhead, hop, laterWrite_hangs ht hno] at hrun
      cases hrun
    · rintro (hsync | ⟨hx, hnext⟩)
      · cases hsync
      · exact h.handles_write hc hop (hnext rfl) hx

/-- A disk that has got two requests, which are in the nodes 0 and 1, and that the communication
process has not looked at yet. -/
theorem holds_two (evs : List QueueEvent) (hclean : ∀ ev ∈ evs, ∀ q, QueueClean q ev)
    (h : (RdQueue.opened.runs [] evs).map Prod.snd = some [0, 1]) :
    ∃ q e, RdQueue.opened.runs [] evs = some (q, [0, 1]) ∧ QueueHolds q [0, 1] e := by
  obtain ⟨⟨q, L⟩, hs, hL⟩ := Option.map_eq_some_iff.mp h
  obtain rfl : L = [0, 1] := hL
  have hok : QueueOk q [0, 1] none := (QueueRun.start.of_runs hclean hs).ok
  exact ⟨q, none, hs, hok.holds⟩

/-- A read is at the head, and a write of the same block behind it: the read is handled. -/
theorem rdsprocess_handles_read :
    ∃ q : RdQueue, (q.rd_req 0).rd_op = .read ∧ { sampleDisk with queue := q }.Handles [1] ⟨OK, 0, 7⟩ := by
  obtain ⟨q, e, hs, hq⟩ := holds_two [.read 1 5, .write 2 5] (by simp [QueueClean]) (by decide +kernel)
  have hop : (RdQueue.opened.runs [] [.read 1 5, .write 2 5]).map
      (fun r => (r.1.rd_req 0).rd_op) = some .read := by
    decide +kernel
  rw [hs] at hop
  have hread : (q.rd_req 0).rd_op = .read := Option.some.inj hop
  have hd : QueueHolds ({ sampleDisk with queue := q } : Disk ℕ).queue [0, 1] e := hq
  refine ⟨q, hread, (rdsprocess_handles hd (cacheOk_opened 0) trivial).mpr (.inr ⟨by decide, fun hw => ?_⟩)⟩
  cases hread.symm.trans hw

/-- A write is at the head, and a read behind it: whatever the exchange would come to, the iteration
does not end. -/
theorem rdsprocess_stuck : ∃ (q : RdQueue) (e : Option ℕ), QueueHolds q [0, 1] e ∧
    (q.rd_req 0).rd_op = .write ∧ (q.rd_req 1).rd_op = .read ∧
    ∀ x, ¬ { sampleDisk with queue := q }.Handles [1] x := by
  obtain ⟨q, e, hs, hq⟩ := holds_two [.write 1 5, .read 2 6] (by simp [QueueClean]) (by decide +kernel)
  have hrun : (RdQueue.opened.runs [] [.write 1 5, .read 2 6]).map (fun r =>
      (((r.1.rd_req 0).rd_op, (r.1.rd_req 1).rd_op),
        ({ sampleDisk with queue := r.1 } : Disk ℕ).rdsprocess.isSome)) =
      some ((.write, .read), false) := by decide +kernel
  rw [hs] at hrun
  obtain ⟨hops, hno⟩ := Prod.mk.inj (Option.some.inj hrun)
  obtain ⟨hwrite, hread⟩ := Prod.mk.inj hops
  refine ⟨q, e, hq, hwrite, hread, ?_⟩
  rintro x ⟨d₁, outs, hsome, -⟩
  rw [hsome] at hno
  cases hno

end Xinu
