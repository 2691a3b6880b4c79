import Xinu.Lib.Linked

/-!
# The cache of a remote disk

The cache of `device/rds` is a list of nodes that is linked in both directions, the most recent
block first, and a free list. `rdcunlink` takes a node out of it, and `rdcinsert` puts a block in,
in a free node or else in that of the oldest block.
-/

namespace Xinu

/-- `RD_CNODES`. -/
abbrev RD_CNODES : ℕ := 32

/-- The nodes, and the list and free list in `struct rdscblk`. A block is anything. -/
structure RdCache (β : Type) where
  /-- The link of each node. -/
  rd_next : ℕ → Option ℕ
  /-- Its back link. -/
  rd_prev : ℕ → Option ℕ
  /-- The number of the block in it. -/
  rd_blknum : ℕ → ℕ
  /-- The data of the block. -/
  rd_data : ℕ → β
  /-- The first node of the list. -/
  rd_chead : Option ℕ
  /-- The last one. -/
  rd_ctail : Option ℕ
  /-- The first free node. -/
  rd_cfree : Option ℕ

namespace RdCache

variable {β : Type}

/-- The cache that `rdsopen` makes: all nodes are free. -/
def opened (data : β) : RdCache β where
  rd_next := fun i => if i + 1 < RD_CNODES then some (i + 1) else none
  rd_prev := fun _ => none
  rd_blknum := fun _ => 0
  rd_data := fun _ => data
  rd_chead := none
  rd_ctail := none
  rd_cfree := some 0

/-- The loops of `rdsread` and `rdswrite`: the first node that has the block. -/
def find (c : RdCache β) (blk : ℕ) : Option (Option ℕ) :=
  walk c.rd_next (fun cptr => c.rd_blknum cptr = blk) RD_CNODES c.rd_chead

/-- `rdcunlink(rdptr, cptr)`. -/
def rdcunlink (c : RdCache β) (cptr : ℕ) : RdCache β :=
  let nptr := c.rd_next cptr
  let c :=
    if c.rd_chead = some cptr then
      if c.rd_ctail = some cptr then { c with rd_chead := none, rd_ctail := none }
      else { c with rd_chead := nptr, rd_prev := store c.rd_prev nptr none }
    else if c.rd_ctail = some cptr then
      let pptr := c.rd_prev cptr
      { c with rd_ctail := pptr, rd_next := store c.rd_next pptr none }
    else
      let pptr := c.rd_prev cptr
      { c with rd_next := store c.rd_next pptr nptr, rd_prev := store c.rd_prev nptr pptr }
  { c with rd_next := Function.update c.rd_next cptr c.rd_cfree, rd_cfree := some cptr }

/-- The loop of `rdswrite`: if the block is in the cache, its node is unlinked. -/
def uncache (c : RdCache β) (blk : ℕ) : Option (RdCache β) :=
  (c.find blk).map fun hit =>
    match hit with
    | some cptr => c.rdcunlink cptr
    | none => c

/-- The first part of `rdcinsert`: a free node, or else the tail of the cache. There is none if both
are `NULL`. -/
def steal (c : RdCache β) : Option (ℕ × RdCache β) :=
  match c.rd_cfree with
  | some cptr => some (cptr, { c with rd_cfree := c.rd_next cptr })
  | none =>
    c.rd_ctail.map fun cptr =>
      if c.rd_chead = c.rd_ctail then (cptr, { c with rd_chead := none, rd_ctail := none })
      else
        let tptr := c.rd_prev cptr
        (cptr, { c with rd_next := store c.rd_next tptr none, rd_ctail := tptr })

/-- The second part of `rdcinsert`: the node is filled in, and becomes the head of the cache. -/
def push (c : RdCache β) (cptr blk : ℕ) (data : β) : RdCache β :=
  let c := { c with rd_blknum := Function.update c.rd_blknum cptr blk,
                    rd_data := Function.update c.rd_data cptr data }
  let tptr := c.rd_chead
  let c := { c with
    rd_next := Function.update c.rd_next cptr tptr, rd_prev := Function.update c.rd_prev cptr none
    rd_chead := some cptr }
  match tptr with
  | none => { c with rd_ctail := some cptr }
  | some t => { c with rd_prev := Function.update c.rd_prev t (some cptr) }

/-- `rdcinsert(rdptr, blk, data)`. -/
def rdcinsert (c : RdCache β) (blk : ℕ) (data : β) : Option (RdCache β) :=
  c.steal.map fun r => r.2.push r.1 blk data

end RdCache

/-! ## What the operations do to the list -/

section

variable {β : Type} {c c' : RdCache β} {C : List ℕ} {x : ℕ}

/-- The cache is a list of nodes; all other nodes are free. -/
structure CacheOk (c : RdCache β) (C : List ℕ) : Prop where
  /-- The list is linked in both directions. -/
  linked : DoublyLinked c.rd_next c.rd_prev c.rd_chead c.rd_ctail C none
  /-- All other nodes are on the free list, each once. -/
  free : ∃ F, LinkPath c.rd_next c.rd_cfree F none ∧ (C ++ F).Perm (List.range RD_CNODES)

/-- No node is in the cache twice. -/
theorem CacheOk.nodup (h : CacheOk c C) : C.Nodup := by
  obtain ⟨F, -, hperm⟩ := h.free
  exact (List.nodup_append.mp (hperm.nodup_iff.mpr List.nodup_range)).1

/-- The cache that `rdsopen` makes is empty, and in order. -/
theorem cacheOk_opened (data : β) : CacheOk (.opened data) [] := by
  refine ⟨DoublyLinked.nil, List.range RD_CNODES, ?_, List.Perm.refl _⟩
  rw [List.range_eq_range']
  exact LinkPath.range RD_CNODES 0 RD_CNODES (Nat.zero_add _)

/-- The search finds the first node of the list that has the block. -/
theorem CacheOk.find_eq (h : CacheOk c C) (blk : ℕ) :
    c.find blk = some (C.find? fun x => c.rd_blknum x = blk) := by
  obtain ⟨F, -, hperm⟩ := h.free
  have hlen := hperm.length_eq
  rw [List.length_append, List.length_range] at hlen
  exact walk_path_none h.linked.forward (by omega)

/-- After a node is taken off, the free list is linked as before. -/
theorem CacheOk.unlinked {A B : List ℕ} (h : CacheOk c (A ++ x :: B)) (hfree : c'.rd_cfree = c.rd_cfree)
    (hnext : ∀ y ∉ A ++ x :: B, c'.rd_next y = c.rd_next y)
    (hl : DoublyLinked c'.rd_next c'.rd_prev c'.rd_chead c'.rd_ctail (A ++ B) none) :
    CacheOk { c' with rd_next := Function.update c'.rd_next x c'.rd_cfree, rd_cfree := some x } (A ++ B) := by
  obtain ⟨F, hF, hperm⟩ := h.free
  have hall : (A ++ x :: B ++ F).Nodup := hperm.nodup_iff.mpr List.nodup_range
  have hx : x ∉ F ∧ x ∉ A ++ B ∧ ∀ y ∈ F, y ∉ A ++ x :: B := by grind
  refine ⟨hl.congr (fun y hy => ?_) fun _ _ => rfl, x :: F, ⟨rfl, ?_⟩, ?_⟩
  · exact Function.update_of_ne (ne_of_mem_of_not_mem hy hx.2.1) _ _
  · change LinkPath (Function.update c'.rd_next x c'.rd_cfree)
      (Function.update c'.rd_next x c'.rd_cfree x) F none
    rw [Function.update_self, hfree]
    exact (hF.congr fun y hy => hnext y (hx.2.2 y hy)).update hx.1 _
  · refine List.Perm.trans ?_ hperm
    have hmid : (A ++ B ++ x :: F).Perm (A ++ x :: (B ++ F)) := by
      rw [List.append_assoc]
      exact List.perm_middle.append_left A
    simpa using hmid

/-- Taking out a node leaves the others linked. -/
theorem CacheOk.rdcunlink {A B : List ℕ} (h : CacheOk c (A ++ x :: B)) :
    CacheOk (c.rdcunlink x) (A ++ B) := by
  have hnd := h.nodup
  have hlinked := h.linked
  have hnext : c.rd_next x = B.head? := hlinked.neighbours.1
  unfold RdCache.rdcunlink
  dsimp only
  -- The node is the first one, or `p` stands in front of it.
  rcases List.eq_nil_or_concat' A with rfl | ⟨A, p, rfl⟩
  · have hhead : c.rd_chead = some x := hlinked.head_eq
    rw [if_pos hhead]
    rcases B with - | ⟨n, B⟩
    · -- the only node
      rw [if_pos hlinked.tail_concat]
      exact h.unlinked rfl (fun _ _ => rfl) DoublyLinked.nil
    -- The next node becomes the head.
    · rw [if_neg (hlinked.tail_ne hnd), hnext]
      have hn : n ∉ B := by grind
      refine h.unlinked rfl (fun _ _ => rfl) ?_
      have hpop := hlinked.pop_head.clear_head hn none
      rw [hnext] at hpop
      exact hpop
  · have hhead : c.rd_chead ≠ some x := hlinked.head_ne hnd
    have hprev : c.rd_prev x = some p := by
      rw [hlinked.neighbours.2.1 (by simp), List.getLast?_append]
      rfl
    rw [if_neg hhead]
    rcases B with - | ⟨n, B⟩
    · -- the last node
      rw [if_pos hlinked.tail_concat, hprev]
      refine h.unlinked rfl (fun y hy => ?_) ?_
      · exact Function.update_of_ne (fun heq => hy (by simp [heq])) _ _
      · rw [List.append_nil]
        have hpop := hlinked.pop_last (by grind)
        rw [hprev] at hpop
        exact hpop
    -- The neighbours are linked to each other.
    · rw [if_neg (hlinked.tail_ne hnd), hprev, hnext]
      refine h.unlinked rfl (fun y hy => ?_) (hlinked.remove hnd)
      exact Function.update_of_ne (fun heq => hy (by simp [heq])) _ _

/-- Taking out a node changes no block. -/
theorem RdCache.rdcunlink_blocks (c : RdCache β) (x : ℕ) :
    (c.rdcunlink x).rd_blknum = c.rd_blknum ∧ (c.rdcunlink x).rd_data = c.rd_data := by
  unfold RdCache.rdcunlink
  dsimp only
  split_ifs <;> exact ⟨rfl, rfl⟩

/-- A block that is in the cache once is not there afterwards. -/
theorem CacheOk.uncache (h : CacheOk c C) (hd : (C.map c.rd_blknum).Nodup) (blk : ℕ) :
    ∃ c' C', c.uncache blk = some c' ∧ CacheOk c' C' ∧
    C'.Sublist C ∧ (c'.rd_blknum = c.rd_blknum ∧ c'.rd_data = c.rd_data) ∧ ∀ x ∈ C', c.rd_blknum x ≠ blk := by
  unfold RdCache.uncache
  rw [h.find_eq]
  cases hx : C.find? fun x => c.rd_blknum x = blk with
  | none =>
    refine ⟨c, C, rfl, h, List.Sublist.refl C, ⟨rfl, rfl⟩, fun x hmem => ?_⟩
    simpa using List.find?_eq_none.mp hx x hmem
  | some x =>
    have hblk : c.rd_blknum x = blk := by simpa using List.find?_some hx
    obtain ⟨-, A, B, rfl, -⟩ := List.find?_eq_some_iff_append.mp hx
    refine ⟨_, A ++ B, rfl, h.rdcunlink, List.Sublist.append_left (List.sublist_cons_self x B) A,
      c.rdcunlink_blocks x, fun y hy heq => ?_⟩
    rw [List.map_append, List.map_cons] at hd
    have hno := (List.nodup_cons.mp (List.nodup_middle.mp hd)).1
    rw [← List.map_append] at hno
    exact hno (List.mem_map.mpr ⟨y, hy, heq.trans hblk.symm⟩)

/-- A node for a block is a free one, or that of the oldest block. -/
theorem CacheOk.steal (h : CacheOk c C) : ∃ x c' C', c.steal = some (x, c') ∧ C' <+: C ∧
    DoublyLinked c'.rd_next c'.rd_prev c'.rd_chead c'.rd_ctail C' none ∧
    c'.rd_blknum = c.rd_blknum ∧ c'.rd_data = c.rd_data ∧
    ∃ F, LinkPath c'.rd_next c'.rd_cfree F none ∧ (C' ++ x :: F).Perm (List.range RD_CNODES) := by
  obtain ⟨F, hF, hperm⟩ := h.free
  unfold RdCache.steal
  rcases F with - | ⟨x, F⟩
  · -- every node is in the cache
    rw [List.append_nil] at hperm
    have hfree : c.rd_cfree = none := hF
    rw [hfree]
    rcases List.eq_nil_or_concat' C with rfl | ⟨C, x, rfl⟩
    · exact absurd hperm.length_eq (by decide)
    · have hnd := h.nodup
      rw [h.linked.tail_concat]
      dsimp only [Option.map_some]
      rcases List.eq_nil_or_concat' C with rfl | ⟨C, p, rfl⟩
      · have hhead : c.rd_chead = some x := h.linked.head_eq
        rw [if_pos hhead]
        exact ⟨x, _, [], rfl, List.nil_prefix, DoublyLinked.nil, rfl, rfl, [], rfl, hperm⟩
      · have hprev : c.rd_prev x = some p := by
          rw [h.linked.neighbours.2.1 (by simp), List.getLast?_append]
          rfl
        rw [if_neg (h.linked.head_ne hnd), hprev]
        have hpop := h.linked.pop_last (by grind)
        rw [hprev] at hpop
        exact ⟨x, _, C ++ [p], rfl, List.prefix_append _ _, hpop, rfl, rfl, [], rfl, hperm⟩
  · rw [hF.1]
    exact ⟨x, _, C, rfl, List.prefix_refl C, h.linked, rfl, rfl, F, hF.2, hperm⟩

/-- The new block is the first one; the others are those that were there, but for the oldest one if
no node was free. -/
theorem CacheOk.rdcinsert (h : CacheOk c C) (blk : ℕ) (data : β) :
    ∃ x c' C', c.rdcinsert blk data = some c' ∧ CacheOk c' (x :: C') ∧
    C' <+: C ∧ c'.rd_blknum = Function.update c.rd_blknum x blk ∧
    c'.rd_data = Function.update c.rd_data x data := by
  obtain ⟨x, c₁, C', hsteal, hprefix, hlinked, hblk, hdata, F, hF, hperm⟩ := h.steal
  have hall : (C' ++ x :: F).Nodup := hperm.nodup_iff.mpr List.nodup_range
  have hx : x ∉ C' ∧ x ∉ F := by grind
  have hperm' : (x :: C' ++ F).Perm (List.range RD_CNODES) := List.perm_middle.symm.trans hperm
  refine ⟨x, c₁.push x blk data, C', ?_, ?_, hprefix, ?_, ?_⟩
  · unfold RdCache.rdcinsert
    rw [hsteal]
    rfl
  · unfold RdCache.push
    dsimp only
    rcases C' with - | ⟨n, C'⟩
    · have hhead : c₁.rd_chead = none := hlinked.head_eq
      rw [hhead]
      exact ⟨DoublyLinked.single _ _ x, F, hF.update hx.2 none, hperm'⟩
    · have hhead : c₁.rd_chead = some n := hlinked.head_eq
      rw [hhead] at hlinked ⊢
      exact ⟨hlinked.push_front (by grind) hx.1, F, hF.update hx.2 _, hperm'⟩
  · rw [← hblk]
    unfold RdCache.push
    dsimp only
    split <;> rfl
  · rw [← hdata]
    unfold RdCache.push
    dsimp only
    split <;> rfl

end

end Xinu
