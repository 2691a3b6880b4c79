import Mathlib.Data.Int.Interval
import Xinu.Rds.Queue

/-!
# The request queue in runs

`QueueOk` is what the queue keeps as long as no sync request is put behind another one: the nodes
are linked in the order of arrival and all others are free, except that the back link of the first
node may lead to a node that has been removed (`e`). It is `NULL` again when the queue has been
empty.
-/

namespace Xinu

variable {q q' : RdQueue} {L F : List ℕ} {e : Option ℕ} {r : ℕ}

/-- The queue holds the pending requests, in their order; all other nodes are free. -/
structure QueueOk (q : RdQueue) (L : List ℕ) (e : Option ℕ) : Prop where
  /-- The queue is linked in both directions; the back link of its first node may be an old one. -/
  linked : DoublyLinked q.rd_next q.rd_prev q.rd_qhead q.rd_qtail L e
  /-- An empty queue has no such link. -/
  stale : L = [] → e = none
  /-- All other nodes are on the free list, each once. -/
  free : ∃ F, LinkPath q.rd_next q.rd_qfree F none ∧ (L ++ F).Perm (List.range RD_QNODES)
  /-- No process has two requests. -/
  pids : (L.map fun a => (q.rd_req a).rd_pid).Nodup
  /-- The requests are those of processes. -/
  range : ∀ a ∈ L, 0 ≤ (q.rd_req a).rd_pid ∧ (q.rd_req a).rd_pid < NPROC

/-- A node has been taken from the free list, and is not in the queue yet. -/
structure QueueTaken (q : RdQueue) (L : List ℕ) (r : ℕ) (e : Option ℕ) : Prop where
  /-- The queue is linked in both directions; the back link of its first node may be an old one. -/
  linked : DoublyLinked q.rd_next q.rd_prev q.rd_qhead q.rd_qtail L e
  /-- An empty queue has no such link. -/
  stale : L = [] → e = none
  /-- All other nodes but `r` are on the free list, each once. -/
  free : ∃ F, LinkPath q.rd_next q.rd_qfree F none ∧ (L ++ r :: F).Perm (List.range RD_QNODES)
  /-- No process has two requests, with that in `r`. -/
  pids : ((L ++ [r]).map fun a => (q.rd_req a).rd_pid).Nodup
  /-- The requests are those of processes, with that in `r`. -/
  range : ∀ a ∈ L ++ [r], 0 ≤ (q.rd_req a).rd_pid ∧ (q.rd_req a).rd_pid < NPROC

/-! ## Insertion -/

/-- Every node is in one place. -/
theorem QueueOk.nodup (h : QueueOk q L e) : L.Nodup := by
  obtain ⟨F, -, hperm⟩ := h.free
  exact (List.nodup_append.mp (hperm.nodup_iff.mpr List.nodup_range)).1

/-- The new node is not in the queue, and no node is there twice. -/
theorem QueueTaken.nodup (h : QueueTaken q L r e) : (L ++ [r]).Nodup := by
  obtain ⟨F, -, hperm⟩ := h.free
  have hall : (L ++ r :: F).Nodup := hperm.nodup_iff.mpr List.nodup_range
  exact hall.sublist (List.Sublist.append_left ((List.nil_sublist F).cons_cons r) L)

/-- A process that is not suspended finds a free node: there are as many nodes as processes. -/
theorem QueueOk.qfree (h : QueueOk q L e) {p : ℤ} (hp : q.MayCall L p) : q.rd_qfree ≠ none := by
  obtain ⟨F, hF, hperm⟩ := h.free
  intro hnone
  cases F with
  | cons x F => exact absurd (hnone.symm.trans hF.1) nofun
  | nil =>
    -- all nodes are pending, for as many processes other than this one
    have hlen : L.length = RD_QNODES := by simpa using hperm.length_eq
    have hd : (p :: L.map fun a => (q.rd_req a).rd_pid).Nodup := by
      refine List.nodup_cons.mpr ⟨fun hmem => ?_, h.pids⟩
      obtain ⟨a, ha, hpid⟩ := List.mem_map.mp hmem
      exact hp.2.2 a ha hpid
    have hsub : (p :: L.map fun a => (q.rd_req a).rd_pid).toFinset ⊆ Finset.Ico 0 NPROC := by
      intro x hx
      rcases List.mem_cons.mp (List.mem_toFinset.mp hx) with rfl | hmem
      · exact Finset.mem_Ico.mpr ⟨hp.1, hp.2.1⟩
      · obtain ⟨a, ha, rfl⟩ := List.mem_map.mp hmem
        exact Finset.mem_Ico.mpr (h.range a ha)
    have hcard := Finset.card_le_card hsub
    rw [List.toFinset_card_of_nodup hd, List.length_cons, List.length_map, hlen, Int.card_Ico] at hcard
    exact absurd hcard (by decide)

/-- A request takes a node off the free list, whose process has no request in the queue. -/
theorem QueueOk.alloc (h : QueueOk q L e) {p : ℤ} {req : Rdqnode}
    (hp : q.MayCall L p) (hreq : req.rd_pid = p) :
    ∃ r q', q.alloc req = some (r, q') ∧ QueueTaken q' L r e ∧
    q'.rd_req = Function.update q.rd_req r req := by
  obtain ⟨F, hF, hperm⟩ := h.free
  cases F with
  -- The free list is not empty: there are more nodes than processes.
  | nil => exact absurd hF (h.qfree hp)
  | cons r F =>
    obtain ⟨hfree, hF⟩ := hF
    -- A free node is not in the queue, so its request can be changed.
    have hr : r ∉ L := by
      have hall : (L ++ r :: F).Nodup := hperm.nodup_iff.mpr List.nodup_range
      exact fun hmem => (List.nodup_append.mp hall).2.2 r hmem r List.mem_cons_self rfl
    have hold : ∀ a ∈ L, Function.update q.rd_req r req a = q.rd_req a :=
      fun a ha => Function.update_of_ne (ne_of_mem_of_not_mem ha hr) _ _
    have hmap : (L.map fun a => (Function.update q.rd_req r req a).rd_pid) = L.map fun a =>
        (q.rd_req a).rd_pid :=
      List.map_congr_left fun a ha => by rw [hold a ha]
    refine ⟨r, { q with rd_qfree := q.rd_next r, rd_req := Function.update q.rd_req r req }, ?_, ?_, rfl⟩
    · unfold RdQueue.alloc
      rw [hfree]
      rfl
    · refine ⟨h.linked, h.stale, ⟨F, hF, hperm⟩, ?_, ?_⟩
      -- The process of the new request has no other one.
      · change ((L ++ [r]).map fun a => (Function.update q.rd_req r req a).rd_pid).Nodup
        rw [List.map_append, hmap]
        refine List.nodup_append.mpr ⟨h.pids, List.nodup_singleton _, fun x hx y hy => ?_⟩
        rw [List.map_singleton, List.mem_singleton, Function.update_self, hreq] at hy
        obtain ⟨a, ha, rfl⟩ := List.mem_map.mp hx
        exact fun heq => hp.2.2 a ha (heq.trans hy)
      · change ∀ a ∈ L ++ [r], 0 ≤ (Function.update q.rd_req r req a).rd_pid ∧
          (Function.update q.rd_req r req a).rd_pid < NPROC
        intro a ha
        rcases List.mem_append.mp ha with hmem | hmem
        · rw [hold a hmem]
          exact h.range a hmem
        · rw [List.mem_singleton.mp hmem, Function.update_self, hreq]
          exact ⟨hp.1, hp.2.1⟩

/-- The first request of an empty queue. -/
theorem RdQueue.rdqinsert_none (h : q.rd_qtail = none) :
    q.rdqinsert r = { q with
      rd_next := Function.update q.rd_next r none, rd_prev := Function.update q.rd_prev r none,
      rd_qhead := some r, rd_qtail := some r } := by
  simp only [RdQueue.rdqinsert, h]

/-- A request is linked behind the last one of a queue that is not empty. -/
theorem RdQueue.rdqinsert_some {t : ℕ} (h : q.rd_qtail = some t) (hrt : r ≠ t) :
    q.rdqinsert r = { q with
      rd_next := Function.update (Function.update q.rd_next t (some r)) r none,
      rd_prev := Function.update q.rd_prev r (some t), rd_qtail := some r } := by
  simp only [RdQueue.rdqinsert, h, Function.update_comm hrt]

/-- Linking a request in leaves the requests in all nodes. -/
theorem RdQueue.rdqinsert_req (q : RdQueue) (r : ℕ) : (q.rdqinsert r).rd_req = q.rd_req := by
  unfold RdQueue.rdqinsert
  dsimp only
  split <;> rfl

/-- A request in a node that has been taken is put at the end of the queue. -/
theorem QueueTaken.rdqinsert (h : QueueTaken q L r e) : QueueOk (q.rdqinsert r) (L ++ [r]) e := by
  obtain ⟨F, hF, hperm⟩ := h.free
  have hall : (L ++ r :: F).Nodup := hperm.nodup_iff.mpr List.nodup_range
  have hperm' : (L ++ [r] ++ F).Perm (List.range RD_QNODES) := by rwa [List.append_assoc]
  rcases List.eq_nil_or_concat' L with rfl | ⟨A, t, rfl⟩
  · have he := h.stale rfl
    rw [RdQueue.rdqinsert_none (h.linked.backward.trans he), he]
    have hr : r ∉ F := (List.nodup_cons.mp hall).1
    exact ⟨DoublyLinked.single _ _ r, nofun, ⟨F, hF.update hr none, hperm'⟩, h.pids, h.range⟩
  · have ht : t ∉ A ∧ t ∉ F ∧ r ∉ F ∧ r ∉ A ++ [t] ∧ r ≠ t := by grind
    have htail := h.linked.tail_concat
    have hlinked := h.linked
    rw [htail] at hlinked
    rw [RdQueue.rdqinsert_some htail ht.2.2.2.2]
    refine ⟨hlinked.push_back ht.1 ht.2.2.2.1, by simp, ⟨F, ?_, hperm'⟩, h.pids, h.range⟩
    exact (hF.update ht.2.1 (some r)).update ht.2.2.1 none

/-- `rdsread` does the same as `rdqinsert`. -/
theorem QueueTaken.readInsert_eq (h : QueueTaken q L r e) : q.readInsert r = q.rdqinsert r := by
  have hnd := h.nodup
  unfold RdQueue.readInsert
  rcases List.eq_nil_or_concat' L with rfl | ⟨A, t, rfl⟩
  · have hhead : q.rd_qhead = none := h.linked.head_eq
    rw [if_pos hhead, RdQueue.rdqinsert_none (h.linked.backward.trans (h.stale rfl))]
  · have hhead : q.rd_qhead ≠ none := by
      -- The read finds a write, or is put behind the others.
      rw [h.linked.head_eq]
      simp
    have hrt : r ≠ t := by grind
    have htail := h.linked.tail_concat
    rw [if_neg hhead, RdQueue.rdqinsert_some htail hrt, htail]
    rfl

/-! ## Removal -/

/-- The queue holds the requests `L`, whatever they are; all other nodes are free. -/
structure QueueHolds (q : RdQueue) (L : List ℕ) (e : Option ℕ) : Prop where
  /-- The queue is linked in both directions; the back link of its first node may be an old one. -/
  linked : DoublyLinked q.rd_next q.rd_prev q.rd_qhead q.rd_qtail L e
  /-- An empty queue has no such link. -/
  stale : L = [] → e = none
  /-- All other nodes are on the free list, each once. -/
  free : ∃ F, LinkPath q.rd_next q.rd_qfree F none ∧ (L ++ F).Perm (List.range RD_QNODES)

/-- The links, apart from the requests. -/
theorem QueueOk.holds (h : QueueOk q L e) : QueueHolds q L e := ⟨h.linked, h.stale, h.free⟩

/-- No node stands in the queue twice. -/
theorem QueueHolds.nodup (h : QueueHolds q L e) : L.Nodup := by
  obtain ⟨F, -, hperm⟩ := h.free
  exact (List.nodup_append.mp (hperm.nodup_iff.mpr List.nodup_range)).1

/-- The queue holds at most all nodes. -/
theorem QueueHolds.length_le (h : QueueHolds q L e) : L.length ≤ RD_QNODES := by
  obtain ⟨F, -, hperm⟩ := h.free
  have hlen := hperm.length_eq
  rw [List.length_append, List.length_range] at hlen
  omega

/-- After a node is taken off, the free list is linked as before. -/
theorem QueueHolds.unlinked {A B : List ℕ} {e' : Option ℕ} (h : QueueHolds q (A ++ r :: B) e)
    (hfree : q'.rd_qfree = q.rd_qfree) (hnext : ∀ x ∉ A ++ r :: B, q'.rd_next x = q.rd_next x)
    (hl : DoublyLinked q'.rd_next q'.rd_prev q'.rd_qhead q'.rd_qtail (A ++ B) e')
    (he : A ++ B = [] → e' = none) :
    QueueHolds { q' with rd_next := Function.update q'.rd_next r q'.rd_qfree, rd_qfree := some r }
    (A ++ B) e' := by
  obtain ⟨F, hF, hperm⟩ := h.free
  have hall : (A ++ r :: B ++ F).Nodup := hperm.nodup_iff.mpr List.nodup_range
  have hrF : r ∉ F ∧ r ∉ A ++ B ∧ ∀ x ∈ F, x ∉ A ++ r :: B := by grind
  refine ⟨hl.congr (fun x hx => ?_) fun _ _ => rfl, he, ⟨r :: F, ⟨rfl, ?_⟩, ?_⟩⟩
  · exact Function.update_of_ne (ne_of_mem_of_not_mem hx hrF.2.1) _ _
  · change LinkPath (Function.update q'.rd_next r q'.rd_qfree)
      (Function.update q'.rd_next r q'.rd_qfree r) F none
    rw [Function.update_self, hfree]
    exact (hF.congr fun x hx => hnext x (hrF.2.2 x hx)).update hrF.1 _
  · refine List.Perm.trans ?_ hperm
    have hmid : (A ++ B ++ r :: F).Perm (A ++ r :: (B ++ F)) := by
      rw [List.append_assoc]
      exact List.perm_middle.append_left A
    simpa using hmid

/-- Taking out a node leaves the others linked. If it was the first one, the back link of the next
one still leads to it. -/
theorem QueueHolds.rdqunlink {A B : List ℕ} (h : QueueHolds q (A ++ r :: B) e) :
    QueueHolds (q.rdqunlink r).1 (A ++ B) (if A = [] then if B = [] then none else some r else e) := by
  have hnd := h.nodup
  have hlinked := h.linked
  have hnext : q.rd_next r = B.head? := hlinked.neighbours.1
  unfold RdQueue.rdqunlink
  dsimp only
  -- The node is the first one, or `p` stands in front of it.
  rcases List.eq_nil_or_concat' A with rfl | ⟨A, p, rfl⟩
  · have hhead : q.rd_qhead = some r := hlinked.head_eq
    rw [if_pos hhead, if_pos rfl]
    rcases B with - | ⟨n, B⟩
    · -- the only node
      rw [if_pos hlinked.tail_concat, if_pos rfl]
      exact h.unlinked rfl (fun _ _ => rfl) DoublyLinked.nil fun _ => rfl
    -- The next node becomes the head; its back link is not changed.
    · have htail : q.rd_qtail ≠ some r := hlinked.tail_ne hnd
      rw [if_neg htail, if_neg (List.cons_ne_nil n B)]
      exact h.unlinked rfl (fun _ _ => rfl) hlinked.pop_head (by simp)
  · have hhead : q.rd_qhead ≠ some r := hlinked.head_ne hnd
    have hA : A ++ [p] ≠ [] := by simp
    rw [if_neg hhead, if_neg hA]
    have hprev : q.rd_prev r = some p := by
      rw [hlinked.neighbours.2.1 (by simp), List.getLast?_append]
      rfl
    rcases B with - | ⟨n, B⟩
    · -- the last node
      rw [if_pos hlinked.tail_concat, hprev]
      refine h.unlinked rfl (fun x hx => ?_) ?_ (by simp)
      · exact Function.update_of_ne (fun heq => hx (by simp [heq])) _ _
      · rw [List.append_nil]
        have hpop := hlinked.pop_last (by grind)
        rw [hprev] at hpop
        exact hpop
    -- The neighbours are linked to each other.
    · have htail : q.rd_qtail ≠ some r := hlinked.tail_ne hnd
      rw [if_neg htail, hprev, hnext]
      refine h.unlinked rfl (fun x hx => ?_) (hlinked.remove hnd) (by simp)
      exact Function.update_of_ne (fun heq => hx (by simp [heq])) _ _

/-- Taking a request off leaves the requests in all nodes. -/
theorem RdQueue.rdqunlink_req (q : RdQueue) (r : ℕ) : (q.rdqunlink r).1.rd_req = q.rd_req := by
  unfold RdQueue.rdqunlink
  dsimp only
  split_ifs <;> rfl

/-- Taking out a node keeps the requests in order, as it keeps the links. -/
theorem QueueOk.rdqunlink {A B : List ℕ} (h : QueueOk q (A ++ r :: B) e) :
    QueueOk (q.rdqunlink r).1 (A ++ B) (if A = [] then if B = [] then none else some r else e) := by
  have hold := h.holds.rdqunlink
  have hsub : (A ++ B).Sublist (A ++ r :: B) := List.Sublist.append_left (List.sublist_cons_self r B) A
  refine ⟨hold.linked, hold.stale, hold.free, ?_, ?_⟩
  · rw [RdQueue.rdqunlink_req]
    exact h.pids.sublist (hsub.map _)
  · rw [RdQueue.rdqunlink_req]
    exact fun a ha => h.range a (hsub.subset ha)

/-! ## Requests -/

/-- The queue holds at most all nodes. -/
theorem QueueOk.length_le (h : QueueOk q L e) : L.length ≤ RD_QNODES := h.holds.length_le

/-- A write is put at the end of the queue. -/
theorem QueueOk.write (h : QueueOk q L e) {p : ℤ} (hp : q.MayCall L p) (blk : ℕ) :
    ∃ q' r, q.write p blk = some (q', r) ∧ QueueOk q' (L ++ [r]) e ∧ r ∉ L ∧
      q'.rd_req = Function.update q.rd_req r ⟨.write, blk, p, p⟩ := by
  obtain ⟨r, q₁, halloc, htaken, hreq⟩ := h.alloc hp (rfl : (⟨.write, blk, p, p⟩ : Rdqnode).rd_pid = p)
  have hr : r ∉ L := by
    have hnd := htaken.nodup
    grind
  refine ⟨q₁.rdqinsert r, r, ?_, htaken.rdqinsert, hr, ?_⟩
  · unfold RdQueue.write
    rw [halloc]
    rfl
  · rw [RdQueue.rdqinsert_req, hreq]

/-- A read whose search ends gets the block from a write, or is put at the end of the queue. -/
theorem QueueOk.read (h : QueueOk q L e) {p : ℤ} {blk : ℕ} {hit : Option ℕ} (hp : q.MayCall L p)
    (hs : q.search blk = some hit) :
    (∃ w, hit = some w ∧ (q.rd_req w).rd_op = .write ∧ q.read p blk = some (.inr w)) ∨
    ((∀ w, hit = some w → (q.rd_req w).rd_op ≠ .write) ∧
      ∃ q' r, q.read p blk = some (.inl (q', r)) ∧ QueueOk q' (L ++ [r]) e ∧ r ∉ L ∧
        q'.rd_req = Function.update q.rd_req r ⟨.read, blk, p, p⟩) := by
  obtain ⟨r, q₁, halloc, htaken, hreq⟩ := h.alloc hp (rfl : (⟨.read, blk, p, p⟩ : Rdqnode).rd_pid = p)
  have hr : r ∉ L := by
    have hnd := htaken.nodup
    grind
  unfold RdQueue.read
  simp only [hs]
  cases hw : hit.filter fun rptr => (q.rd_req rptr).rd_op = .write with
  | some w =>
    obtain ⟨hmem, hop⟩ := Option.filter_eq_some_iff.mp hw
    exact .inl ⟨w, hmem, by simpa using hop, rfl⟩
  | none =>
    refine .inr ⟨fun w hmem hop => ?_, q₁.readInsert r, r, ?_, ?_, hr, ?_⟩
    · rw [hmem] at hw
      simp [hop] at hw
    · simp only [halloc]
      rfl
    · rw [htaken.readInsert_eq]
      exact htaken.rdqinsert
    · rw [htaken.readInsert_eq, RdQueue.rdqinsert_req, hreq]

/-! ## Runs -/

/-- What the queue should look like: the links lead from the head through the pending requests, in
the order of their arrival, to the tail, and back again; all other nodes are free. -/
structure QueueWellFormed (q : RdQueue) (L : List ℕ) : Prop where
  /-- The links lead through the requests, and end. -/
  forward : LinkPath q.rd_next q.rd_qhead L none
  /-- The tail is the last one. -/
  tail : q.rd_qtail = L.getLast?
  /-- The back links lead through them, and end. -/
  backward : LinkPath q.rd_prev q.rd_qtail L.reverse none
  /-- All other nodes are on the free list, each once. -/
  nodes : ∃ F, LinkPath q.rd_next q.rd_qfree F none ∧ (L ++ F).Perm (List.range RD_QNODES)

/-- The condition on the state before a step: a sync request finds no other request, and the first
request is removed only when it is the only one. -/
def QueueClean (q : RdQueue) : QueueEvent → Prop
  | .sync _ => q.rd_qhead = none
  | .unlink rptr => q.rd_qhead = some rptr → q.rd_qtail = some rptr
  | _ => True

/-- The queue is well formed if the back link of its first node is `NULL`. -/
theorem QueueOk.wellFormed (h : QueueOk q L none) : QueueWellFormed q L := by
  refine ⟨h.linked.forward, ?_, h.linked.backward, h.free⟩
  cases L with
  | nil => exact h.linked.backward
  | cons x L => exact h.linked.tail_eq (by simp)

/-- The search of a well-formed queue ends. -/
theorem QueueOk.search_ends (h : QueueOk q L none) (blk : ℕ) : ∃ hit, q.search blk = some hit :=
  ⟨_, walk_path_none h.linked.backward (by simpa using h.length_le)⟩

/-- Every clean step keeps the queue well formed. -/
theorem QueueOk.step {ev : QueueEvent} {L' : List ℕ} (h : QueueOk q L none)
    (hc : QueueClean q ev) (hs : q.exec L ev = some (q', L')) :
    QueueOk q' L' none := by
  cases ev with
  | read p blk =>
    obtain ⟨hp, hs⟩ := Option.ite_none_right_eq_some.mp hs
    obtain ⟨hit, hhit⟩ := h.search_ends blk
    rcases h.read hp hhit with ⟨w, -, -, hread⟩ | ⟨-, q₁, r, hread, hok, -⟩
    · simp only [hread] at hs
      cases hs
      exact h
    · simp only [hread] at hs
      cases hs
      exact hok
  | write p blk =>
    obtain ⟨hp, hs⟩ := Option.ite_none_right_eq_some.mp hs
    obtain ⟨q₁, r, hwrite, hok, -⟩ := h.write hp blk
    rw [hwrite] at hs
    cases hs
    exact hok
  | sync p =>
    obtain ⟨hp, hs⟩ := Option.ite_none_right_eq_some.mp hs
    have hempty : q.rd_qhead = none := hc
    rw [if_pos hempty] at hs
    cases hs
    exact h
  -- A node is taken out: the first one only if there is no other.
  | unlink r =>
    obtain ⟨hr, hs⟩ := Option.ite_none_right_eq_some.mp hs
    cases hs
    obtain ⟨A, B, rfl⟩ := List.append_of_mem hr
    have hnd := h.nodup
    have hA : r ∉ A := by grind
    rw [List.erase_append_right _ hA, List.erase_cons_head]
    have hok := h.rdqunlink
    rcases A with - | ⟨x, A⟩
    · -- the first node is the only one
      have htail := hc h.linked.head_eq
      rcases B with - | ⟨n, B⟩
      · exact hok
      · exact absurd htail (h.linked.tail_ne hnd)
    · rw [if_neg (List.cons_ne_nil x A)] at hok
      exact hok

/-- The states that steps under a condition lead to, with the pending requests. -/
inductive QueueRun (C : RdQueue → QueueEvent → Prop) : RdQueue → List ℕ → Prop
  | start : QueueRun C .opened []
  | step {q q' L L' ev} (hr : QueueRun C q L) (hc : C q ev) (hs : q.exec L ev = some (q', L')) :
    QueueRun C q' L'

/-- The queue that `rdsopen` makes. -/
theorem queueOk_opened : QueueOk .opened [] none := by
  refine ⟨DoublyLinked.nil, fun _ => rfl, ⟨List.range RD_QNODES, ?_, List.Perm.refl _⟩, List.nodup_nil, nofun⟩
  rw [List.range_eq_range']
  exact LinkPath.range RD_QNODES 0 RD_QNODES (Nat.zero_add _)

/-- In every run whose steps are clean the queue is in order. -/
theorem QueueRun.ok (hr : QueueRun QueueClean q L) : QueueOk q L none := by
  induction hr with
  | start => exact queueOk_opened
  | step _ hc hs ih => exact ih.step hc hs

/-- In every run whose steps are clean the queue is well formed, and a request of a process that is
not suspended ends. -/
theorem queue_ok (hr : QueueRun QueueClean q L) : QueueWellFormed q L ∧ ∀ p blk, q.MayCall L p →
    (q.exec L (.read p blk)).isSome ∧ (q.exec L (.write p blk)).isSome := by
  have hok := hr.ok
  refine ⟨hok.wellFormed, fun p blk hp => ⟨?_, ?_⟩⟩
  · obtain ⟨hit, hhit⟩ := hok.search_ends blk
    rcases hok.read hp hhit with ⟨w, -, -, hread⟩ | ⟨-, q₁, r, hread, -⟩
    · simp only [RdQueue.exec, if_pos hp, hread, Option.isSome_some]
    · simp only [RdQueue.exec, if_pos hp, hread, Option.isSome_some]
  · obtain ⟨q₁, r, hwrite, -⟩ := hok.write hp blk
    simp only [RdQueue.exec, if_pos hp, hwrite, Option.map_some, Option.isSome_some]

/-- The steps of a list of events. -/
def RdQueue.runs (q : RdQueue) (L : List ℕ) : List QueueEvent → Option (RdQueue × List ℕ)
  | [] => some (q, L)
  | ev :: evs => (q.exec L ev).bind fun r => RdQueue.runs r.1 r.2 evs

/-- A list of possible steps, each of which meets the condition in any state, makes a run. -/
theorem QueueRun.of_runs {C : RdQueue → QueueEvent → Prop}
    {evs : List QueueEvent} {L' : List ℕ} (hr : QueueRun C q L)
    (hC : ∀ ev ∈ evs, ∀ q, C q ev) (he : q.runs L evs = some (q', L')) : QueueRun C q' L' := by
  induction evs generalizing q L with
  | nil =>
    obtain ⟨rfl, rfl⟩ := Prod.mk.inj (Option.some.inj he)
    exact hr
  | cons ev evs ih =>
    obtain ⟨⟨q₁, L₁⟩, hs, he⟩ := Option.bind_eq_some_iff.mp he
    obtain ⟨hCe, hC⟩ := List.forall_mem_cons.mp hC
    exact ih (hr.step (hCe q) hs) hC he

/-- Two processes make requests. -/
def twoRequests : List QueueEvent := [.read 1 5, .write 2 6]

/-- The queue holds both then. -/
theorem queue_ok_two : ∃ q L, (QueueWellFormed q L ∧ ∀ p blk, q.MayCall L p →
    (q.exec L (.read p blk)).isSome ∧ (q.exec L (.write p blk)).isSome) ∧ L = [0, 1] := by
  have hlist : (RdQueue.opened.runs [] twoRequests).map Prod.snd = some [0, 1] := by decide +kernel
  obtain ⟨⟨q, L⟩, hs, hL⟩ := Option.map_eq_some_iff.mp hlist
  have hC : ∀ ev ∈ twoRequests, ∀ q, QueueClean q ev := by simp [twoRequests, QueueClean]
  exact ⟨q, L, queue_ok (.of_runs .start hC hs), hL⟩

/-- The first of two requests is removed: the back link of the other one still leads to its node,
which is free. -/
theorem queue_stale : ∃ q L, QueueRun (fun _ _ => True) q L ∧ ¬ QueueWellFormed q L := by
  have hlist : (RdQueue.opened.runs [] (twoRequests ++ [.unlink 0])).map
      (fun s => (s.2, s.1.rd_prev 1)) = some ([1], some 0) := by
    decide +kernel
  obtain ⟨⟨q, L⟩, hs, hL⟩ := Option.map_eq_some_iff.mp hlist
  obtain ⟨rfl, hprev⟩ := Prod.mk.inj hL
  refine ⟨q, _, .of_runs .start (fun _ _ _ => trivial) hs, fun h => ?_⟩
  have hnull : q.rd_prev 1 = none := h.backward.2
  exact absurd (hprev.symm.trans hnull) nofun

/-- A sync request is put behind another one: the forward links do not lead to it. -/
theorem queue_lost : ∃ q L, QueueRun (fun _ _ => True) q L ∧ ¬ QueueWellFormed q L := by
  have hlist : (RdQueue.opened.runs [] [.read 1 5, .sync 2]).map
      (fun s => (s.2, s.1.rd_next 0)) = some ([0, 1], none) := by
    decide +kernel
  obtain ⟨⟨q, L⟩, hs, hL⟩ := Option.map_eq_some_iff.mp hlist
  obtain ⟨rfl, hnext⟩ := Prod.mk.inj hL
  refine ⟨q, _, .of_runs .start (fun _ _ _ => trivial) hs, fun h => ?_⟩
  have hlink : q.rd_next 0 = some 1 := h.forward.2.1
  exact absurd (hnext.symm.trans hlink) nofun

end Xinu
