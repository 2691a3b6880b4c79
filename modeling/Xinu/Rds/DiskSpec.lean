import Xinu.Rds.QueueSpec
import Xinu.Rds.Coherence

/-!
# Remote disks in runs

The faithful disk is related to its view: the lists behind the pointers are the requests and the
blocks of the view (`DiskOk`). Every step whose loops end keeps the view coherent, and gives every
reader the data it has asked for.
-/

namespace Xinu

variable {β : Type} {d d' : Disk β} {g : DiskLog β} {L A B C : List ℕ} {e : Option ℕ} {p : ℤ} {blk r : ℕ}

/-! ## The view of a disk -/

/-- The contents that the server has when it has handled the request it is working on. -/
def Disk.base (d : Disk β) : ℕ → β :=
  match d.comm with
  | .writing blk data => Function.update d.server blk data
  | _ => d.server

/-- The view, for the nodes of the queue and of the cache. -/
def Disk.view (d : Disk β) (L C : List ℕ) : DiskView β where
  requests := L.map d.queue.rd_req
  blocks := C.map fun x => (d.cache.rd_blknum x, d.cache.rd_data x)
  bufs := d.bufs
  suspended := d.suspended
  base := d.base

/-- The disk is in order, and its view is coherent. While the communication process waits for the
answer to a read request, that is the first one. -/
structure DiskOk (d : Disk β) (g : DiskLog β) (L : List ℕ) (e : Option ℕ) (C : List ℕ) : Prop where
  /-- The queue is in order. -/
  queue : QueueOk d.queue L e
  /-- The cache is in order. -/
  cache : CacheOk d.cache C
  /-- Requests and cache agree with what was written. -/
  coherent : Coherent (d.view L C) g
  /-- The request that the communication process waits for is the first one. -/
  comm : ∀ r blk, d.comm = .reading r blk →
    ∃ B, L = r :: B ∧ (d.queue.rd_req r).rd_op = .read ∧ (d.queue.rd_req r).rd_blknum = blk

/-- What a process asks for or writes is written down. -/
def DiskLog.note (g : DiskLog β) (d : Disk β) : DiskEvent β → DiskLog β
  | .read p blk => { g with want := Function.update g.want p (blk, g.latest blk) }
  | .write p blk => { g with latest := Function.update g.latest blk (d.bufs p) }
  | _ => g

/-- A request for the block is pending. -/
def RdQueue.Requested (q : RdQueue) (blk : ℕ) : Prop :=
  ∃ L, LinkPath q.rd_next q.rd_qhead L none ∧ ∃ r ∈ L, (q.rd_req r).rd_blknum = blk

/-- The condition on the state before a step: a search of the queue that finds no pending request
for the block does not go on behind the first one, and a write that is sent to the server is the
only request, or the next one is a write of the same block. -/
def DiskClean (d : Disk β) : DiskEvent β → Prop
  | .read _ blk => d.cache.find blk = some none → d.queue.Requested blk ∨
    ∀ r, d.queue.rd_qhead = some r → d.queue.rd_prev r = none
  | .comm => ∀ r, d.queue.rd_qhead = some r → (d.queue.rd_req r).rd_op = .write →
      ∀ t, d.queue.rd_next r = some t →
      (d.queue.rd_req t).rd_blknum = (d.queue.rd_req r).rd_blknum ∧ (d.queue.rd_req t).rd_op = .write
  | _ => True

/-- A request is added behind the others. -/
theorem map_update_append {req : ℕ → Rdqnode} {a : Rdqnode} (hr : r ∉ L) :
    (L ++ [r]).map (Function.update req r a) = L.map req ++ [a] := by
  rw [List.map_append, List.map_singleton, Function.update_self]
  congr 1
  exact List.map_congr_left fun x hx => Function.update_of_ne (ne_of_mem_of_not_mem hx hr) _ _

/-- A process that is not suspended may make a request. -/
theorem DiskOk.mayCall (h : DiskOk d g L e C) (hp : 0 ≤ p ∧ p < NPROC ∧ d.suspended p = false) :
    d.queue.MayCall L p :=
  ⟨hp.1, hp.2.1, fun _ ha => (h.coherent.callbuf_ne hp.2.2 (List.mem_map_of_mem ha)).2⟩

/-- What a process asks for matters to its own requests only. -/
theorem Coherent.ask {v : DiskView β} (h : Coherent v g) (hp : v.suspended p = false) (x : ℕ × β) :
    Coherent v { g with want := Function.update g.want p x } :=
  ⟨h.pids, h.suspended, h.callbuf, h.latest, h.order,
    fun a ha hop => (Function.update_of_ne (h.callbuf_ne hp ha).2 _ _).trans (h.want a ha hop),
      h.once, h.cached⟩

/-- A process that is not suspended changes its buffer. -/
theorem DiskOk.fill (h : DiskOk d g L e C) (hp : d.suspended p = false) (data : β) :
    DiskOk { d with bufs := Function.update d.bufs p data } g L e C :=
  ⟨h.queue, h.cache, h.coherent.fill hp data, h.comm⟩

/-- A request is added: what the communication process works on stays the first one. -/
theorem DiskOk.comm_append {req : Rdqnode} (h : DiskOk d g L e C)
    (hr : r ∉ L) (x blk : ℕ) (hc : d.comm = .reading x blk) :
    ∃ B, L ++ [r] = x :: B ∧ (Function.update d.queue.rd_req r req x).rd_op = .read ∧
      (Function.update d.queue.rd_req r req x).rd_blknum = blk := by
  obtain ⟨B, rfl, hop, hblk⟩ := h.comm x blk hc
  have hne : x ≠ r := fun heq => hr (heq ▸ List.mem_cons_self)
  rw [Function.update_of_ne hne]
  exact ⟨B ++ [r], rfl, hop, hblk⟩

/-! ## Reading -/

/-- The search goes through the pending requests, and no further. -/
theorem DiskOk.search_eq (h : DiskOk d g L e C)
    (hc : d.queue.Requested blk ∨ ∀ r, d.queue.rd_qhead = some r → d.queue.rd_prev r = none) :
    d.queue.search blk = some (L.reverse.find? fun x => (d.queue.rd_req x).rd_blknum = blk) := by
  have hlen : L.reverse.length ≤ RD_QNODES := by simpa using h.queue.length_le
  rcases hc with ⟨L', hL', x, hx, hblk⟩ | hnull
  · rw [hL'.unique h.queue.linked.forward] at hx
    unfold RdQueue.search
    rw [walk_path h.queue.linked.backward hlen]
    cases hf : L.reverse.find? fun x => (d.queue.rd_req x).rd_blknum = blk with
    | some y => rfl
    | none =>
      have hno := List.find?_eq_none.mp hf x (List.mem_reverse.mpr hx)
      exact absurd hblk (by simpa using hno)
  · have he : e = none := by
      cases L with
      | nil => exact h.queue.stale rfl
      | cons x L => exact h.queue.linked.prev_head.symm.trans (hnull x h.queue.linked.head_eq)
    have hback := h.queue.linked.backward
    rw [he] at hback
    exact walk_path_none hback hlen

/-- The search for a block, in terms of the requests. -/
theorem find_requests {q : RdQueue} {hit : Option ℕ}
    (h : L.reverse.find? (fun x => (q.rd_req x).rd_blknum = blk) = hit) :
    (L.map q.rd_req).reverse.find? (fun a => a.rd_blknum = blk) = hit.map q.rd_req := by
  rw [← List.map_reverse, List.find?_map, ← h]
  rfl

/-- A read gets the latest data, or waits for them. -/
theorem DiskOk.rdsread (h : DiskOk d g L e C) (hp : 0 ≤ p ∧ p < NPROC ∧ d.suspended p = false)
    (hc : DiskClean d (.read p blk)) :
    ∃ d' outs L' e' C', d.rdsread p blk = some (d', outs) ∧ DiskOk d' (g.note d (.read p blk)) L' e' C' ∧
      ∀ o ∈ outs, (g.note d (.read p blk)).want o.pid = (o.blk, o.data) := by
  -- From now on the process wants the latest data of the block.
  have hask : DiskOk d (g.note d (.read p blk)) L e C := ⟨h.queue, h.cache, h.coherent.ask hp.2.2 _, h.comm⟩
  have hfind := h.cache.find_eq blk
  unfold Disk.rdsread
  cases hx : C.find? fun x => d.cache.rd_blknum x = blk with
  -- The cache has the block, with the latest data.
  | some x =>
    rw [hx] at hfind
    simp only [hfind]
    have hblk : d.cache.rd_blknum x = blk := by simpa using List.find?_some hx
    have hdata : d.cache.rd_data x = g.latest blk := by
      rw [← hblk]
      exact (h.coherent.cached _ (List.mem_map_of_mem (List.mem_of_find?_eq_some hx))).1
    refine ⟨_, _, L, e, C, rfl, hask.fill hp.2.2 _, fun o ho => ?_⟩
    rw [List.mem_singleton.mp ho]
    exact (Function.update_self ..).trans (by rw [hdata])
  | none =>
    rw [hx] at hfind
    simp only [hfind]
    have hsearch := h.search_eq (hc hfind)
    rcases h.queue.read (h.mayCall hp) hsearch with
      ⟨w, hw, hop, hread⟩ | ⟨hno, q', r, hread, hqueue, hr, hreq⟩
    · -- a pending write has the data
      have hfound := find_requests hw
      have hdata := h.coherent.current_write hfound hop
      simp only [hread]
      refine ⟨_, _, L, e, C, rfl, hask.fill hp.2.2 _, fun o ho => ?_⟩
      rw [List.mem_singleton.mp ho]
      exact (Function.update_self ..).trans (by rw [← hdata]; rfl)
    -- Neither the cache nor the queue has the data: the request is put behind the others.
    · have hwrites : writes (L.map d.queue.rd_req) blk = [] := by
        cases hhit : L.reverse.find? fun x => (d.queue.rd_req x).rd_blknum = blk with
        | none => exact writes_of_none (find_requests hhit)
        | some w =>
          have hmem : w ∈ L := List.mem_reverse.mp (List.mem_of_find?_eq_some hhit)
          have hop : (d.queue.rd_req w).rd_op = .read := by
            have hnw := hno w hhit
            have hns := (h.coherent.callbuf _ (List.mem_map_of_mem hmem)).2
            cases ho : (d.queue.rd_req w).rd_op with
            | read => rfl
            | write => exact absurd ho hnw
            | sync => exact absurd ho hns
          exact writes_of_read h.coherent.order (find_requests hhit) hop
      have hadd := h.coherent.addRead hp.2.2 hwrites
      simp only [hread]
      refine ⟨_, _, L ++ [r], e, C, rfl, ⟨hqueue, h.cache, ?_, ?_⟩, by simp⟩
      -- The new request is in no other place of the model.
      · have hview : ({ d with queue := q' }.await p).view (L ++ [r]) C =
            { d.view L C with
              requests := (d.view L C).requests ++ [⟨.read, blk, p, p⟩]
              suspended := Function.update (d.view L C).suspended p true } := by
          unfold Disk.view Disk.await
          dsimp only
          rw [hreq, map_update_append hr]
          rfl
        rw [hview]
        exact hadd
      · change ∀ x b, d.comm = .reading x b → ∃ B, L ++ [r] = x :: B ∧
          (q'.rd_req x).rd_op = .read ∧ (q'.rd_req x).rd_blknum = b
        rw [hreq]
        exact fun x b hx => h.comm_append hr x b hx

/-! ## Writing -/

/-- A write takes the block out of the cache, and is put behind the other requests. -/
theorem DiskOk.rdswrite (h : DiskOk d g L e C) (hp : 0 ≤ p ∧ p < NPROC ∧ d.suspended p = false) :
    ∃ d' L' e' C', d.rdswrite p blk = some (d', []) ∧ DiskOk d' (g.note d (.write p blk)) L' e' C' := by
  obtain ⟨q', r, hwrite, hqueue, hr, hreq⟩ := h.queue.write (h.mayCall hp) blk
  have honce : (C.map d.cache.rd_blknum).Nodup := by
    have := h.coherent.once
    rwa [Disk.view, List.map_map] at this
  -- The block leaves the cache, and then its write is pending.
  obtain ⟨cache, C', hcache, hok, hsub, hblocks, hblk⟩ := h.cache.uncache honce blk
  have hadd := h.coherent.addWrite (K := C'.map fun x => (d.cache.rd_blknum x, d.cache.rd_data x)) hp.2.2
    (hsub.map _)
    (fun b hb => by
      obtain ⟨x, hx, rfl⟩ := List.mem_map.mp hb
      exact hblk x hx)
  refine ⟨{ d with cache := cache, queue := q' }.await p, L ++ [r], e, C', ?_, hqueue, hok, ?_, ?_⟩
  · unfold Disk.rdswrite
    rw [hcache, Option.bind_some, hwrite]
    rfl
  · have hview : ({ d with cache := cache, queue := q' }.await p).view (L ++ [r]) C' =
        { d.view L C with
          requests := (d.view L C).requests ++ [⟨.write, blk, p, p⟩]
          blocks := C'.map fun x => (d.cache.rd_blknum x, d.cache.rd_data x)
          suspended := Function.update (d.view L C).suspended p true } := by
      unfold Disk.view Disk.await
      dsimp only
      rw [hreq, map_update_append hr, hblocks.1, hblocks.2]
      rfl
    rw [hview]
    exact hadd
  -- The request that is being read is still the first one.
  · change ∀ x b, d.comm = .reading x b → ∃ B, L ++ [r] = x :: B ∧
      (q'.rd_req x).rd_op = .read ∧ (q'.rd_req x).rd_blknum = b
    rw [hreq]
    exact fun x b hx => h.comm_append hr x b hx

/-! ## The communication process -/

/-- The check for subsequent writes ends if there is no other request, or if the next one is a write
of the block. -/
theorem laterWrite_eq {q : RdQueue} (hl : DoublyLinked q.rd_next q.rd_prev q.rd_qhead q.rd_qtail (r :: B) e)
    (hc : ∀ t, q.rd_next r = some t → (q.rd_req t).rd_blknum = blk ∧ (q.rd_req t).rd_op = .write) :
    ∃ later, Disk.laterWrite q r blk = some later ∧ (later = false → B = []) := by
  have hnext : q.rd_next r = B.head? := hl.pop_head.head_eq
  unfold Disk.laterWrite
  cases B with
  | nil =>
    rw [hnext]
    exact ⟨false, rfl, fun _ => rfl⟩
  | cons t B =>
    have ht : q.rd_next r = some t := hnext
    rw [ht]
    exact ⟨true, if_pos (hc t ht), nofun⟩

/-- While the communication process waits for a request, the server has all data that were sent. -/
theorem base_of_waiting (hw : d.comm.IsWaiting) : d.base = d.server := by
  unfold Disk.base
  cases hcomm : d.comm with
  | waiting => rfl
  | reading => rfl
  | writing =>
    rw [hcomm] at hw
    exact hw.elim

/-- A write is sent: the cache is as before, or has got the block, of which there is no later write. -/
theorem DiskOk.transmit {cache : RdCache β} {C' : List ℕ}
    (h : DiskOk d g (r :: B) e C) (hw : d.comm.IsWaiting)
    (hop : (d.queue.rd_req r).rd_op = .write) (hok : CacheOk cache C')
    (hK : C'.map (fun x => (cache.rd_blknum x, cache.rd_data x)) =
      C.map (fun x => (d.cache.rd_blknum x, d.cache.rd_data x)) ∨
      (writes (B.map d.queue.rd_req) (d.queue.rd_req r).rd_blknum = [] ∧
        ∃ K', K'.Sublist (C.map fun x => (d.cache.rd_blknum x, d.cache.rd_data x)) ∧
          C'.map (fun x => (cache.rd_blknum x, cache.rd_data x)) =
            ((d.queue.rd_req r).rd_blknum, d.bufs (d.queue.rd_req r).rd_callbuf) :: K')) :
    ∃ e', DiskOk (d.transmit r cache) g B e' C' := by
  have hcoh := h.coherent.removeWrite rfl hop hK
  refine ⟨_, QueueOk.rdqunlink (A := []) h.queue, hok, ?_, nofun⟩
  unfold Disk.view Disk.transmit Disk.base
  dsimp only
  rw [RdQueue.rdqunlink_req]
  have hbase : (d.view (r :: B) C).base = d.server := base_of_waiting hw
  rw [hbase] at hcoh
  exact hcoh

/-- The communication process takes the first request. -/
theorem DiskOk.rdsprocess (h : DiskOk d g L e C) (hw : d.comm.IsWaiting) (hc : DiskClean d .comm) :
    ∃ d' L' e' C', d.rdsprocess = some (d', []) ∧ DiskOk d' g L' e' C' := by
  -- the semaphore does not matter
  have h₁ : DiskOk { d with rd_comsem := d.rd_comsem - 1 } g L e C := ⟨h.queue, h.cache, h.coherent, h.comm⟩
  unfold Disk.rdsprocess
  dsimp only
  cases L with
  | nil =>
    have hhead : d.queue.rd_qhead = none := h.queue.linked.head_eq
    simp only [hhead]
    exact ⟨_, [], e, C, rfl, h₁⟩
  | cons r B =>
    have hhead : d.queue.rd_qhead = some r := h.queue.linked.head_eq
    simp only [hhead]
    cases hop : (d.queue.rd_req r).rd_op with
    | sync => exact absurd hop (h.coherent.callbuf _ (List.mem_map_of_mem List.mem_cons_self)).2
    | read =>
      refine ⟨_, r :: B, e, C, rfl, h.queue, h.cache, ?_, fun x b hx => ?_⟩
      · have hcoh := h.coherent
        unfold Disk.view at hcoh ⊢
        rw [base_of_waiting hw] at hcoh
        exact hcoh
      · obtain ⟨rfl, rfl⟩ : r = x ∧ (d.queue.rd_req r).rd_blknum = b := by simpa using hx
        exact ⟨B, rfl, hop, rfl⟩
    | write =>
      dsimp only
      obtain ⟨later, hlater, hlast⟩ := laterWrite_eq h.queue.linked (hc r hhead hop)
      simp only [hlater]
      cases later with
      | true =>
        obtain ⟨e', hsent⟩ := h₁.transmit hw hop h.cache (.inl rfl)
        exact ⟨_, B, e', C, rfl, hsent⟩
      | false =>
        -- the block becomes the first one of the cache
        obtain ⟨x, cache, C', hinsert, hok, hprefix, hblk, hdata⟩ :=
          h.cache.rdcinsert (d.queue.rd_req r).rd_blknum (d.bufs (d.queue.rd_req r).rd_callbuf)
        have hx : x ∉ C' := (List.nodup_cons.mp hok.nodup).1
        have hblocks : (x :: C').map (fun y => (cache.rd_blknum y, cache.rd_data y)) =
            ((d.queue.rd_req r).rd_blknum, d.bufs (d.queue.rd_req r).rd_callbuf) ::
              C'.map fun y => (d.cache.rd_blknum y, d.cache.rd_data y) := by
          rw [List.map_cons, hblk, hdata, Function.update_self, Function.update_self]
          congr 1
          refine List.map_congr_left fun y hy => ?_
          have hne : y ≠ x := ne_of_mem_of_not_mem hy hx
          rw [Function.update_of_ne hne, Function.update_of_ne hne]
        obtain ⟨e', hsent⟩ :=
          h₁.transmit hw hop hok (.inr ⟨by rw [hlast rfl]; rfl, _, hprefix.sublist.map _, hblocks⟩)
        refine ⟨_, B, e', x :: C', ?_, hsent⟩
        simp only [Bool.false_eq_true, if_false, hinsert]
        rfl

/-- A read request gets its data, and the walk goes on behind it. -/
theorem DiskOk.satisfy (h : DiskOk d g (A ++ r :: B) e C)
    (hw : d.comm = .waiting) (hop : (d.queue.rd_req r).rd_op = .read) (data : β) :
    ∃ e', DiskOk (d.satisfy r data).1 g (A ++ B) e' C ∧ (d.satisfy r data).1.comm = .waiting ∧
      (d.satisfy r data).1.server = d.server ∧ (d.satisfy r data).1.queue.rd_req = d.queue.rd_req ∧
      (d.satisfy r data).2 = B.head? := by
  have hrequests : (d.view (A ++ r :: B) C).requests = A.map d.queue.rd_req ++
      d.queue.rd_req r :: B.map d.queue.rd_req := by
    unfold Disk.view
    rw [List.map_append, List.map_cons]
  have hcoh := h.coherent.removeRead hrequests hop data
  have hcomm : (d.satisfy r data).1.comm = .waiting := hw
  refine ⟨_, ⟨h.queue.rdqunlink, h.cache, ?_, fun x b hx => ?_⟩,
    hcomm, rfl, RdQueue.rdqunlink_req .., h.queue.linked.neighbours.1⟩
  · unfold Disk.view Disk.satisfy Disk.base
    dsimp only
    rw [RdQueue.rdqunlink_req, List.map_append]
    exact hcoh
  · rw [hcomm] at hx
    cases hx

/-- Subsequent reads of the block get the data too. -/
theorem DiskOk.satisfyAll {n : ℕ} (h : DiskOk d g (A ++ B) e C)
    (hw : d.comm = .waiting) (hn : B.length ≤ n) (blk : ℕ) :
    ∃ d' outs L' e', Disk.satisfyAll blk (d.server blk) n B.head? d = some (d', outs) ∧ DiskOk d' g L' e' C ∧
      ∀ o ∈ outs, g.want o.pid = (o.blk, o.data) := by
  induction n generalizing A B d e with
  | zero =>
    -- The queue has no further node.
    obtain rfl : B = [] := List.length_eq_zero_iff.mp (Nat.le_zero.mp hn)
    exact ⟨d, [], A ++ [], e, rfl, h, by simp⟩
  | succ n ih =>
    cases B with
    | nil => exact ⟨d, [], A ++ [], e, rfl, h, by simp⟩
    | cons r B =>
      have hnext : d.queue.rd_next r = B.head? := h.queue.linked.neighbours.1
      have hn' : B.length ≤ n := by simpa using hn
      have hskip : DiskOk d g (A ++ [r] ++ B) e C := by rwa [List.append_assoc]
      rw [List.head?_cons, Disk.satisfyAll]
      dsimp only
      -- A request for another block is passed over.
      by_cases hblk : (d.queue.rd_req r).rd_blknum ≠ blk
      · rw [if_pos hblk, hnext]
        exact ih hskip hw hn'
      rw [if_neg hblk]
      have hmem : d.queue.rd_req r ∈ (d.view (A ++ r :: B) C).requests := List.mem_map_of_mem (by simp)
      cases hop : (d.queue.rd_req r).rd_op with
      -- A write ends the loop, since the data behind it are others.
      | write => exact ⟨d, [], A ++ r :: B, e, rfl, h, by simp⟩
      | sync => exact absurd hop (h.coherent.callbuf _ hmem).2
      | read =>
        -- A read gets the data, and the loop goes on at the next node.
        obtain ⟨e', hok, hw', hserver, -, hptr⟩ := h.satisfy hw hop (d.server blk)
        obtain ⟨d', outs, L', e'', hrest, hok', houts⟩ := ih hok hw' hn'
        rw [hserver] at hrest
        refine ⟨d', ⟨(d.queue.rd_req r).rd_pid, blk, d.server blk⟩ :: outs, L', e'', ?_, hok', fun o ho => ?_⟩
        · dsimp only
          rw [hptr, hrest]
          rfl
        · rcases List.mem_cons.mp ho with rfl | ho
          · have hwant := h.coherent.want _ hmem hop
            have hbase : (d.view (A ++ r :: B) C).base = d.server := base_of_waiting (hw ▸ trivial)
            rw [hbase, not_not.mp hblk] at hwant
            exact hwant
          · exact houts o ho

/-- An answer of the server keeps the invariant, and hands out the data that is wanted. -/
theorem DiskOk.answer (h : DiskOk d g L e C) (hw : ¬ d.comm.IsWaiting) :
    ∃ d' outs L' e' C', d.answer = some (d', outs) ∧ DiskOk d' g L' e' C' ∧
    ∀ o ∈ outs, g.want o.pid = (o.blk, o.data) := by
  unfold Disk.answer
  -- Only an answer is in question: something has been sent.
  cases hcomm : d.comm with
  | waiting =>
    rw [hcomm] at hw
    exact absurd trivial hw
  -- A write is answered by its own acknowledgement.
  | writing blk data =>
    have hcoh := h.coherent
    unfold Disk.view Disk.base at hcoh
    rw [hcomm] at hcoh
    exact ⟨_, _, L, e, C, rfl, ⟨h.queue, h.cache, hcoh, nofun⟩, by simp⟩
  -- A read is the first request; it is satisfied, and then the others of its block.
  | reading r blk =>
    obtain ⟨B, rfl, hop, hblk⟩ := h.comm r blk hcomm
    have hcoh := h.coherent
    unfold Disk.view Disk.base at hcoh
    rw [hcomm] at hcoh
    have hwait : DiskOk { d with comm := .waiting } g ([] ++ r :: B) e C := ⟨h.queue, h.cache, hcoh, nofun⟩
    obtain ⟨e', hok, hw', hserver, -, -⟩ := hwait.satisfy rfl hop (d.server blk)
    have hhead : ({ d with comm := .waiting }.satisfy r (d.server blk)).1.queue.rd_qhead = B.head? :=
      hok.queue.linked.head_eq
    have hlen : B.length ≤ RD_QNODES := hok.queue.length_le
    obtain ⟨d', outs, L', e'', hrest, hok', houts⟩ := DiskOk.satisfyAll (A := []) hok hw' hlen blk
    dsimp only
    rw [hserver] at hrest
    refine ⟨d', ⟨(d.queue.rd_req r).rd_pid, blk, d.server blk⟩ :: outs, L', e'', C, ?_, hok', fun o ho => ?_⟩
    · rw [hhead, hrest]
      rfl
    · rcases List.mem_cons.mp ho with rfl | ho
      · have hwant := hwait.coherent.want _ (List.mem_map_of_mem List.mem_cons_self) hop
        rw [hblk] at hwant
        exact hwant
      · exact houts o ho

/-! ## Runs -/

/-- Every step under the condition ends, keeps the disk in order, and gives the readers what they
have asked for. -/
theorem DiskOk.step {ev : DiskEvent β} (h : DiskOk d g L e C) (hen : d.Enabled ev) (hc : DiskClean d ev) :
    ∃ d' outs L' e' C', d.exec ev = some (d', outs) ∧ DiskOk d' (g.note d ev) L' e' C' ∧
      ∀ o ∈ outs, (g.note d ev).want o.pid = (o.blk, o.data) := by
  cases ev with
  | read p blk => exact h.rdsread hen hc
  | write p blk =>
    obtain ⟨d', L', e', C', hexec, hok⟩ := h.rdswrite hen
    exact ⟨d', [], L', e', C', hexec, hok, by simp⟩
  | fill p data => exact ⟨_, [], L, e, C, rfl, h.fill hen.2.2 data, by simp⟩
  | comm =>
    obtain ⟨d', L', e', C', hexec, hok⟩ := h.rdsprocess hen.2 hc
    exact ⟨d', [], L', e', C', hexec, hok, by simp⟩
  | answer => exact h.answer hen

/-- The states that steps under a condition lead to, with what was asked for and written. -/
inductive DiskRun (P : Disk β → DiskEvent β → Prop) (d₀ : Disk β) (g₀ : DiskLog β) : Disk β → DiskLog β → Prop
  | start : DiskRun P d₀ g₀ d₀ g₀
  | step {d d' g ev outs} (hr : DiskRun P d₀ g₀ d g) (hen : d.Enabled ev)
    (hc : P d ev) (hs : d.exec ev = some (d', outs)) :
    DiskRun P d₀ g₀ d' (g.note d ev)

/-- Every block in the cache is there once, as its latest copy. -/
def CacheLatest (d : Disk β) (g : DiskLog β) : Prop :=
  ∃ C, LinkPath d.cache.rd_next d.cache.rd_chead C none ∧ (C.map d.cache.rd_blknum).Nodup ∧
    ∀ x ∈ C, d.cache.rd_data x = g.latest (d.cache.rd_blknum x)

/-- A disk that has been opened is in order. -/
theorem diskOk_opened (bufs : ℤ → β) (server : ℕ → β) (want : ℤ → ℕ × β) :
    DiskOk (.opened bufs server) ⟨server, want⟩ [] none [] :=
  ⟨queueOk_opened, cacheOk_opened _,
    ⟨List.nodup_nil, nofun, nofun, fun _ => rfl, List.Pairwise.nil, nofun, List.nodup_nil, nofun⟩, nofun⟩

/-- In every run whose steps meet the condition, every block in the cache is there once and is the
latest copy, and each step under the condition ends: a read that is satisfied gets the data of the
most recent write of the block that was issued before it, or the contents at the start. -/
theorem disk_ok {bufs : ℤ → β} {server : ℕ → β} {want : ℤ → ℕ × β}
    (hr : DiskRun DiskClean (.opened bufs server) ⟨server, want⟩ d g) :
    CacheLatest d g ∧ ∀ ev, d.Enabled ev → DiskClean d ev →
      ∃ d' outs, d.exec ev = some (d', outs) ∧ ∀ o ∈ outs, (g.note d ev).want o.pid = (o.blk, o.data) := by
  obtain ⟨L, e, C, hok⟩ : ∃ L e C, DiskOk d g L e C := by
    induction hr with
    | start => exact ⟨[], none, [], diskOk_opened bufs server want⟩
    | step _ hen hc hs ih =>
      obtain ⟨L, e, C, hok⟩ := ih
      obtain ⟨d', outs, L', e', C', hexec, hok', -⟩ := hok.step hen hc
      obtain ⟨rfl, -⟩ := Prod.mk.inj (Option.some.inj (hs.symm.trans hexec))
      exact ⟨L', e', C', hok'⟩
  refine ⟨⟨C, hok.cache.linked.forward, ?_, fun x hx => (hok.coherent.cached _ (List.mem_map_of_mem hx)).1⟩,
    fun ev hen hc => ?_⟩
  · have honce := hok.coherent.once
    rwa [Disk.view, List.map_map] at honce
  · obtain ⟨d', outs, -, -, -, hexec, -, houts⟩ := hok.step hen hc
    exact ⟨d', outs, hexec, houts⟩

/-- The steps of a list of events. -/
def Disk.runs (d : Disk β) (g : DiskLog β) : List (DiskEvent β) → Option (Disk β × DiskLog β)
  | [] => some (d, g)
  | ev :: evs => if d.Enabled ev then (d.exec ev).bind fun r => Disk.runs r.1 (g.note d ev) evs else none

/-- A list of possible steps, each of which meets the condition in any state, makes a run. -/
theorem DiskRun.of_runs {P : Disk β → DiskEvent β → Prop}
    {d₀ : Disk β} {g₀ g' : DiskLog β} {evs : List (DiskEvent β)}
    (hr : DiskRun P d₀ g₀ d g) (hP : ∀ ev ∈ evs, ∀ d, P d ev) (he : d.runs g evs = some (d', g')) :
    DiskRun P d₀ g₀ d' g' := by
  induction evs generalizing d g with
  | nil =>
    obtain ⟨rfl, rfl⟩ := Prod.mk.inj (Option.some.inj he)
    exact hr
  | cons ev evs ih =>
    obtain ⟨hen, he⟩ := Option.ite_none_right_eq_some.mp he
    obtain ⟨⟨d₁, outs⟩, hs, he⟩ := Option.bind_eq_some_iff.mp he
    obtain ⟨hPe, hP⟩ := List.forall_mem_cons.mp hP
    exact ih (hr.step hen (hPe d) hs) hP he

/-- A disk of numbers: all are zero at first. -/
def sampleDisk : Disk ℕ := .opened (fun _ => 0) fun _ => 0

/-- What is written down of it at first. -/
def sampleLog : DiskLog ℕ := ⟨fun _ => 0, fun _ => (0, 0)⟩

/-- A process writes 7 into block 5, and another one reads the block: it gets 7. -/
theorem disk_ok_write : ∃ d g, (CacheLatest d g ∧ ∀ ev, d.Enabled ev → DiskClean d ev →
      ∃ d' outs, d.exec ev = some (d', outs) ∧ ∀ o ∈ outs, (g.note d ev).want o.pid = (o.blk, o.data)) ∧
    (d.exec (.read 2 5)).map Prod.snd = some [⟨2, 5, 7⟩] := by
  have hread : (sampleDisk.runs sampleLog [.fill 1 7, .write 1 5]).map
      (fun r => (r.1.exec (.read 2 5)).map Prod.snd) =
      some (some [⟨2, 5, 7⟩]) := by decide +kernel
  obtain ⟨⟨d, g⟩, hs, ho⟩ := Option.map_eq_some_iff.mp hread
  have hP : ∀ ev ∈ [DiskEvent.fill 1 7, .write 1 5], ∀ d : Disk ℕ, DiskClean d ev := by simp [DiskClean]
  exact ⟨d, g, disk_ok (.of_runs .start hP hs), ho⟩

/-- A write and a read of another block come while the communication process waits for the answer to
a read: it goes on with the write at the head of the queue, does not get out of the loop that looks
for subsequent writes, and the read does not return. -/
theorem disk_hangs : ∃ d g, DiskRun (fun _ _ => True) sampleDisk sampleLog d g ∧
    d.Enabled .comm ∧ d.exec .comm = none := by
  have hcomm : (sampleDisk.runs sampleLog [.read 3 9, .comm, .write 1 5, .read 2 6, .answer]).map
      (fun r => (decide (r.1.Enabled .comm), (r.1.exec .comm).isSome)) = some (true, false) := by
        decide +kernel
  obtain ⟨⟨d, g⟩, hs, hr⟩ := Option.map_eq_some_iff.mp hcomm
  obtain ⟨hen, hno⟩ := Prod.mk.inj hr
  exact ⟨d, g, .of_runs .start (fun _ _ _ => trivial) hs, of_decide_eq_true hen, by simpa using hno⟩

/-- Two reads are pending, the first one is satisfied, and its node is used for another request: a
read of a block that is not requested goes from the head back to the tail, and does not return. -/
theorem disk_cycles : ∃ d g, DiskRun (fun _ _ => True) sampleDisk sampleLog d g ∧
    d.Enabled (.read 3 4) ∧ d.cache.rd_chead = none ∧
    ∀ n, walk d.queue.rd_prev (fun r => (d.queue.rd_req r).rd_blknum = 4) n d.queue.rd_qtail = none := by
  have hcycle : (sampleDisk.runs sampleLog [.read 1 1, .read 2 2, .comm, .answer, .read 1 3]).map (fun r =>
      ((decide (r.1.Enabled (.read 3 4)), r.1.cache.rd_chead, r.1.queue.rd_qtail),
        (r.1.queue.rd_prev 0, r.1.queue.rd_prev 1, (r.1.queue.rd_req 0).rd_blknum,
          (r.1.queue.rd_req 1).rd_blknum))) =
      some ((true, none, some 0), (some 1, some 0, 3, 2)) := by decide +kernel
  obtain ⟨⟨d, g⟩, hs, hr⟩ := Option.map_eq_some_iff.mp hcycle
  simp only [Prod.mk.injEq] at hr
  obtain ⟨⟨hen, hhead, htail⟩, h01, h10, hblk0, hblk1⟩ := hr
  refine ⟨d, g, .of_runs .start (fun _ _ _ => trivial) hs, of_decide_eq_true hen, hhead, fun n => ?_⟩
  rw [htail]
  exact (walk_cycle (by simp [hblk0]) (by simp [hblk1]) h01 h10 n).1

end Xinu
