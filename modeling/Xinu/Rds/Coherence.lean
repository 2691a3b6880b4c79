import Xinu.Rds.Disk

/-!
# Coherence

What a disk amounts to (`DiskView`): the pending requests in their order, the blocks in the cache,
the buffers, and the block contents that the server has or is about to get. `Coherent` holds the two
invariants of `NOTES`: a block is in the cache only as its latest copy, and no read of a block comes
behind a write of it. From these, every reader gets the data that was the latest when it asked.
-/

namespace Xinu

variable {β : Type}

/-- What matters of a disk. -/
structure DiskView (β : Type) where
  /-- The pending requests, the first one first. -/
  requests : List Rdqnode
  /-- The blocks in the cache, with their data. -/
  blocks : List (ℕ × β)
  /-- The buffer of each process. -/
  bufs : ℤ → β
  /-- Whether the process is suspended. -/
  suspended : ℤ → Bool
  /-- The contents that the server has when it has handled the request it is working on. -/
  base : ℕ → β

/-- The data of the most recent write of each block, and what each process has asked for, with the
data that were the latest then. -/
structure DiskLog (β : Type) where
  /-- The data of the most recent write of each block. -/
  latest : ℕ → β
  /-- What each process reads: the block, and the data that were the latest then. -/
  want : ℤ → ℕ × β

/-- The pending writes of a block. -/
def writes (R : List Rdqnode) (blk : ℕ) : List Rdqnode :=
  R.filter fun a => a.rd_op = .write ∧ a.rd_blknum = blk

/-- The contents of a block when all pending writes are done. -/
def DiskView.current (v : DiskView β) (blk : ℕ) : β :=
  ((writes v.requests blk).getLast?.map fun a => v.bufs a.rd_callbuf).getD (v.base blk)

/-- No read of a block comes behind a write of it. -/
def ReadsFirst (R : List Rdqnode) : Prop :=
  R.Pairwise fun a b => ¬ (a.rd_op = .write ∧ b.rd_op = .read ∧ a.rd_blknum = b.rd_blknum)

/-- The invariant. -/
structure Coherent (v : DiskView β) (g : DiskLog β) : Prop where
  /-- No process has two requests. -/
  pids : (v.requests.map Rdqnode.rd_pid).Nodup
  /-- Who has a request is suspended. -/
  suspended : ∀ a ∈ v.requests, v.suspended a.rd_pid = true
  /-- The buffer of a request is that of its process, and nobody syncs. -/
  callbuf : ∀ a ∈ v.requests, a.rd_callbuf = a.rd_pid ∧ a.rd_op ≠ .sync
  /-- The latest data are those of the last write in the queue, or those of the server. -/
  latest : ∀ blk, g.latest blk = v.current blk
  /-- Reads come before the writes of their block. -/
  order : ReadsFirst v.requests
  /-- A read gets what was the latest when it was asked for. -/
  want : ∀ a ∈ v.requests, a.rd_op = .read → g.want a.rd_pid = (a.rd_blknum, v.base a.rd_blknum)
  /-- No block is twice in the cache. -/
  once : (v.blocks.map Prod.fst).Nodup
  /-- A block in the cache has the latest data, and no write of it is pending. -/
  cached : ∀ b ∈ v.blocks, b.2 = g.latest b.1 ∧ writes v.requests b.1 = []

/-! ## The pending writes -/

section

variable {R R' A B : List Rdqnode} {a w : Rdqnode} {blk : ℕ}

@[simp] theorem writes_nil : writes [] blk = [] := rfl

@[simp] theorem writes_append : writes (R ++ R') blk = writes R blk ++ writes R' blk := List.filter_append ..

/-- A write of the block. -/
theorem writes_cons_of (ha : a.rd_op = .write) (hb : a.rd_blknum = blk) :
    writes (a :: R) blk = a :: writes R blk := by
  unfold writes
  rw [List.filter_cons_of_pos (by simp [ha, hb])]

/-- A write of another block, or a read. -/
theorem writes_cons_of_not (h : ¬ (a.rd_op = .write ∧ a.rd_blknum = blk)) :
    writes (a :: R) blk = writes R blk := by
  unfold writes
  rw [List.filter_cons_of_neg (by simpa using h)]

/-- Requests that are not writes of the block. -/
theorem writes_eq_nil : writes R blk = [] ↔ ∀ a ∈ R, a.rd_op = .write → a.rd_blknum ≠ blk := by
  unfold writes
  simp [List.filter_eq_nil_iff]

/-- The pending writes of a block are requests of the queue. -/
theorem mem_of_writes (h : w ∈ writes R blk) : w ∈ R := List.mem_of_mem_filter h

/-- The last request for the block is a write: it is the last write. -/
theorem writes_last (h : R.reverse.find? (fun a => a.rd_blknum = blk) = some a) (ha : a.rd_op = .write) :
    (writes R blk).getLast? = some a := by
  obtain ⟨-, A, B, hsplit, hno⟩ := List.find?_eq_some_iff_append.mp h
  have hR : R = B.reverse ++ a :: A.reverse := by
    rw [← List.reverse_reverse R, hsplit]
    simp
  have hblk : a.rd_blknum = blk := by simpa using List.find?_some h
  have hafter : writes A.reverse blk = [] :=
    writes_eq_nil.mpr fun b hb _ => by simpa using hno b (List.mem_reverse.mp hb)
  rw [hR, writes_append, writes_cons_of ha hblk, hafter]
  simp

/-- The last request for the block is a read: no write of it is pending. -/
theorem writes_of_read (ho : ReadsFirst R) (h : R.reverse.find? (fun a => a.rd_blknum = blk) = some a)
    (ha : a.rd_op = .read) :
    writes R blk = [] := by
  obtain ⟨-, A, B, hsplit, hno⟩ := List.find?_eq_some_iff_append.mp h
  have hR : R = B.reverse ++ a :: A.reverse := by
    rw [← List.reverse_reverse R, hsplit]
    simp
  have hblk : a.rd_blknum = blk := by simpa using List.find?_some h
  rw [hR] at ho ⊢
  refine writes_eq_nil.mpr fun b hb hop hb' => ?_
  rcases List.mem_append.mp hb with hbefore | hafter
  · exact (List.pairwise_append.mp ho).2.2 b hbefore a List.mem_cons_self ⟨hop, ha, hb'.trans hblk.symm⟩
  · rcases List.mem_cons.mp hafter with rfl | hafter
    · rw [ha] at hop
      cases hop
    · exact absurd hb' (by simpa using hno b (List.mem_reverse.mp hafter))

/-- No request for the block is pending. -/
theorem writes_of_none (h : R.reverse.find? (fun a => a.rd_blknum = blk) = none) : writes R blk = [] := by
  refine writes_eq_nil.mpr fun b hb _ => ?_
  simpa using List.find?_eq_none.mp h b (List.mem_reverse.mpr hb)

end

/-! ## What happens to a disk -/

section

variable {v : DiskView β} {g : DiskLog β} {A B : List Rdqnode} {a : Rdqnode} {p : ℤ} {blk : ℕ} {data : β}

/-- The buffers of the pending requests belong to processes that are suspended. -/
theorem Coherent.callbuf_ne (h : Coherent v g) (hp : v.suspended p = false) (ha : a ∈ v.requests) :
    a.rd_callbuf ≠ p ∧ a.rd_pid ≠ p := by
  have hpid : a.rd_pid ≠ p := by
    rintro rfl
    exact absurd hp (by simp [h.suspended a ha])
  exact ⟨fun heq => hpid ((h.callbuf a ha).1.symm.trans heq), hpid⟩

/-- The last write of a block is in the buffer of its process. -/
theorem Coherent.current_write (h : Coherent v g)
    (hf : v.requests.reverse.find? (fun a => a.rd_blknum = blk) = some a)
    (ha : a.rd_op = .write) : v.bufs a.rd_callbuf = g.latest blk := by
  rw [h.latest, DiskView.current, writes_last hf ha]
  rfl

/-- A process that is not suspended changes its buffer. -/
theorem Coherent.fill (h : Coherent v g) (hp : v.suspended p = false) (data : β) :
    Coherent { v with bufs := Function.update v.bufs p data } g := by
  refine ⟨h.pids, h.suspended, h.callbuf, fun blk => ?_, h.order, h.want, h.once, h.cached⟩
  rw [h.latest]
  unfold DiskView.current
  congr 1
  refine Option.map_congr fun a ha => ?_
  have hmem := mem_of_writes (List.mem_of_getLast? ha)
  exact (Function.update_of_ne (h.callbuf_ne hp hmem).1 _ _).symm

/-- A process that is not suspended asks for a block of which no write is pending. -/
theorem Coherent.addRead (h : Coherent v g) (hp : v.suspended p = false) (hw : writes v.requests blk = []) :
    Coherent { v with requests := v.requests ++ [⟨.read, blk, p, p⟩],
                      suspended := Function.update v.suspended p true }
      { g with want := Function.update g.want p (blk, g.latest blk) } := by
  -- A read adds no write, so the data of every block are as they were.
  have hnew : ∀ b, writes [(⟨.read, blk, p, p⟩ : Rdqnode)] b = [] := fun b => rfl
  have hpid : ∀ a ∈ v.requests, a.rd_pid ≠ p := fun a ha => (h.callbuf_ne hp ha).2
  have hbase : g.latest blk = v.base blk := by
    rw [h.latest, DiskView.current, hw]
    rfl
  refine ⟨?_, fun a ha => ?_, fun a ha => ?_, fun b => ?_, ?_, fun a ha hop => ?_, h.once, fun b hb => ?_⟩
  -- The new request stands behind the others, whose processes are other ones.
  · rw [List.map_append]
    exact List.nodup_append.mpr ⟨h.pids, List.nodup_singleton _, by simpa using fun a ha => hpid a ha⟩
  · rcases List.mem_append.mp ha with ha | ha
    · exact (Function.update_of_ne (hpid a ha) _ _).trans (h.suspended a ha)
    · rw [List.mem_singleton.mp ha]
      exact Function.update_self ..
  · rcases List.mem_append.mp ha with ha | ha
    · exact h.callbuf a ha
    · rw [List.mem_singleton.mp ha]
      exact ⟨rfl, nofun⟩
  · rw [h.latest]
    unfold DiskView.current
    rw [writes_append, hnew, List.append_nil]
  · refine List.pairwise_append.mpr ⟨h.order, List.pairwise_singleton _ _, fun a ha b hb => ?_⟩
    rw [List.mem_singleton.mp hb]
    exact fun hcon => writes_eq_nil.mp hw a ha hcon.1 hcon.2.2
  · rcases List.mem_append.mp ha with ha | ha
    · exact (Function.update_of_ne (hpid a ha) _ _).trans (h.want a ha hop)
    · rw [List.mem_singleton.mp ha]
      -- It wants what the block is now: no write of it is pending.
      exact (Function.update_self ..).trans (by rw [hbase])
  · refine ⟨(h.cached b hb).1, ?_⟩
    rw [writes_append, hnew, List.append_nil]
    exact (h.cached b hb).2

/-- A process that is not suspended writes a block, which leaves the cache. -/
theorem Coherent.addWrite {K : List (ℕ × β)} (h : Coherent v g)
    (hp : v.suspended p = false) (hK : K.Sublist v.blocks)
    (hblk : ∀ b ∈ K, b.1 ≠ blk) :
    Coherent { v with
        requests := v.requests ++ [⟨.write, blk, p, p⟩]
        blocks := K
        suspended := Function.update v.suspended p true }
      { g with latest := Function.update g.latest blk (v.bufs p) } := by
  have hpid : ∀ a ∈ v.requests, a.rd_pid ≠ p := fun a ha => (h.callbuf_ne hp ha).2
  -- The new write is one of its block only.
  have hother : ∀ b, b ≠ blk → writes [(⟨.write, blk, p, p⟩ : Rdqnode)] b = [] := fun b hb =>
    writes_cons_of_not fun hcon => hb hcon.2.symm
  refine ⟨?_, fun a ha => ?_, fun a ha => ?_, fun b => ?_,
    ?_, fun a ha hop => ?_, h.once.sublist (hK.map _), fun b hb => ?_⟩
  · rw [List.map_append]
    exact List.nodup_append.mpr ⟨h.pids, List.nodup_singleton _, by simpa using fun a ha => hpid a ha⟩
  · rcases List.mem_append.mp ha with ha | ha
    · exact (Function.update_of_ne (hpid a ha) _ _).trans (h.suspended a ha)
    · rw [List.mem_singleton.mp ha]
      exact Function.update_self ..
  · rcases List.mem_append.mp ha with ha | ha
    · exact h.callbuf a ha
    · rw [List.mem_singleton.mp ha]
      exact ⟨rfl, nofun⟩
  -- The latest data of the block are those written, and those of other blocks stay.
  · unfold DiskView.current
    dsimp only
    rcases eq_or_ne b blk with rfl | hb
    · rw [Function.update_self, writes_append, writes_cons_of rfl rfl]
      simp
    · rw [Function.update_of_ne hb, h.latest, writes_append, hother b hb, List.append_nil]
      rfl
  · refine List.pairwise_append.mpr ⟨h.order, List.pairwise_singleton _ _, fun a ha b hb => ?_⟩
    rw [List.mem_singleton.mp hb]
    exact fun hcon => absurd hcon.2.1 nofun
  · rcases List.mem_append.mp ha with ha | ha
    · exact h.want a ha hop
    · rw [List.mem_singleton.mp ha] at hop
      cases hop
  -- What is left of the cache has other blocks.
  · have hmem := hK.subset hb
    refine ⟨(h.cached b hmem).1.trans (Function.update_of_ne (hblk b hb) _ _).symm, ?_⟩
    rw [writes_append, hother _ (hblk b hb), (h.cached b hmem).2]
    rfl

/-- A read is satisfied: its process gets the data and goes on. -/
theorem Coherent.removeRead (h : Coherent v g) (hr : v.requests = A ++ a :: B)
    (ha : a.rd_op = .read) (data : β) :
    Coherent { v with
      requests := A ++ B
      bufs := Function.update v.bufs a.rd_callbuf data
      suspended := Function.update v.suspended a.rd_pid false } g := by
  have hsub : (A ++ B).Sublist v.requests := by
    rw [hr]
    exact List.Sublist.append_left (List.sublist_cons_self a B) A
  -- The other requests are those of other processes.
  have hne : ∀ b ∈ A ++ B, b.rd_pid ≠ a.rd_pid := by
    have hnd := h.pids
    rw [hr, List.map_append, List.map_cons] at hnd
    intro b hb heq
    have hmem : b.rd_pid ∈ A.map Rdqnode.rd_pid ++ B.map Rdqnode.rd_pid := by
      rw [← List.map_append]
      exact List.mem_map_of_mem hb
    rw [heq] at hmem
    have := List.nodup_middle.mp hnd
    exact (List.nodup_cons.mp this).1 hmem
  -- A read is no write, so the pending writes stay.
  have hwrites : ∀ b, writes v.requests b = writes (A ++ B) b := fun b => by
    rw [hr, writes_append, writes_append, writes_cons_of_not fun hcon => by simp [ha] at hcon]
  have hmem : a ∈ v.requests := by simp [hr]
  refine ⟨h.pids.sublist (hsub.map _), fun b hb => ?_, fun b hb => h.callbuf b (hsub.subset hb),
    fun b => ?_, h.order.sublist hsub,
    fun b hb => h.want b (hsub.subset hb), h.once, fun b hb => ?_⟩
  · exact (Function.update_of_ne (hne b hb) _ _).trans (h.suspended b (hsub.subset hb))
  · rw [h.latest]
    unfold DiskView.current
    rw [hwrites]
    congr 1
    refine Option.map_congr fun c hc => ?_
    have hc' : c ∈ A ++ B := mem_of_writes (List.mem_of_getLast? hc)
    refine (Function.update_of_ne ?_ _ _).symm
    rw [(h.callbuf c (hsub.subset hc')).1, (h.callbuf a hmem).1]
    exact hne c hc'
  · rw [← hwrites]
    exact h.cached b hb

/-- The first request is a write: its data go to the server, and its process goes on. -/
theorem Coherent.removeWrite {K : List (ℕ × β)} (h : Coherent v g)
    (hr : v.requests = a :: B) (ha : a.rd_op = .write)
    (hK : K = v.blocks ∨
      (writes B a.rd_blknum = [] ∧ ∃ K', K'.Sublist v.blocks ∧
        K = (a.rd_blknum, v.bufs a.rd_callbuf) :: K')) :
    Coherent { v with
      requests := B, blocks := K, suspended := Function.update v.suspended a.rd_pid false,
      base := Function.update v.base a.rd_blknum (v.bufs a.rd_callbuf) } g := by
  have hsub : B.Sublist v.requests := hr ▸ List.sublist_cons_self a B
  have hne : ∀ b ∈ B, b.rd_pid ≠ a.rd_pid := by
    have hnd := h.pids
    rw [hr, List.map_cons] at hnd
    exact fun b hb heq => (List.nodup_cons.mp hnd).1 (heq ▸ List.mem_map_of_mem hb)
  have horder := h.order
  rw [hr] at horder
  -- Of the pending writes only the first one of its block is gone.
  have hwrites : ∀ b, b ≠ a.rd_blknum → writes v.requests b = writes B b := fun b hb => by
    rw [hr, writes_cons_of_not fun hcon => hb hcon.2.symm]
  have hown : writes v.requests a.rd_blknum = a :: writes B a.rd_blknum := by rw [hr, writes_cons_of ha rfl]
  -- So the latest data stay: they are now at the server, or in a later write.
  have hlatest : ∀ b, g.latest b = ((writes B b).getLast?.map fun c => v.bufs c.rd_callbuf).getD
      (Function.update v.base a.rd_blknum (v.bufs a.rd_callbuf) b) := fun b => by
    rw [h.latest, DiskView.current]
    rcases eq_or_ne b a.rd_blknum with rfl | hb
    · rw [hown, Function.update_self, List.getLast?_cons]
      cases (writes B a.rd_blknum).getLast? <;> rfl
    · rw [hwrites b hb, Function.update_of_ne hb]
  refine ⟨h.pids.sublist (hsub.map _), fun b hb => ?_, fun b hb => h.callbuf b (hsub.subset hb),
    hlatest, h.order.sublist hsub,
    fun b hb hop => ?_, ?_, ?_⟩
  · exact (Function.update_of_ne (hne b hb) _ _).trans (h.suspended b (hsub.subset hb))
  · -- no read of the block comes behind this write
    have hblk : b.rd_blknum ≠ a.rd_blknum :=
      fun heq => (List.pairwise_cons.mp horder).1 b hb ⟨ha, hop, heq.symm⟩
    exact (h.want b (hsub.subset hb) hop).trans (congrArg _ (Function.update_of_ne hblk _ _).symm)
  · rcases hK with rfl | ⟨-, K', hsubK, rfl⟩
    · exact h.once
    · refine List.nodup_cons.mpr ⟨fun hmem => ?_, h.once.sublist (hsubK.map _)⟩
      obtain ⟨b, hb, hfst⟩ := List.mem_map.mp hmem
      have hno := (h.cached b (hsubK.subset hb)).2
      rw [hfst, hown] at hno
      cases hno
  -- A block of the cache has no write pending, so it is another one.
  · have hold : ∀ b ∈ v.blocks, b.2 = g.latest b.1 ∧ writes B b.1 = [] := fun b hb => by
      refine ⟨(h.cached b hb).1, ?_⟩
      rw [← hwrites b.1 fun heq => ?_]
      · exact (h.cached b hb).2
      · have hno := (h.cached b hb).2
        rw [heq, hown] at hno
        cases hno
    rcases hK with rfl | ⟨hlast, K', hsubK, rfl⟩
    · exact hold
    · intro b hb
      rcases List.mem_cons.mp hb with rfl | hb
      · refine ⟨?_, hlast⟩
        rw [hlatest]
        dsimp only
        rw [hlast, Function.update_self]
        rfl
      · exact hold b (hsubK.subset hb)

end

end Xinu
