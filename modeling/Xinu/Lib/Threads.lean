import Mathlib.Data.List.Chain
import Mathlib.Data.Set.Basic
import Mathlib.Logic.Function.Basic

/-!
# Doubly linked queues in one table

A table gives every node a successor and a predecessor. Some nodes are queue heads, each with a tail node of
its own, and the nodes between them are the contents of the queue. `Threads` says that the contents are
linked in both directions, and that they are exactly the nodes whose `home` is the queue, so that no node is
on two queues. Linking a node without a home into a queue (`Threads.splice`), and unlinking a node
(`Threads.unlink`), keep all this.
-/

namespace LinkedQueue

variable {ι : Type*}

/-- Each of the two nodes names the other. -/
def Link (next prev : ι → ι) (x y : ι) : Prop := next x = y ∧ prev y = x

/-- A chain of links reads the successors of all its nodes but the last, and the predecessors of all but the
first. -/
theorem isChain_congr {next prev next' prev' : ι → ι} {l : List ι}
    (h : l.IsChain (Link next prev)) (hn : ∀ x ∈ l.dropLast, next' x = next x)
    (hp : ∀ y ∈ l.tail, prev' y = prev y) : l.IsChain (Link next' prev') := by
  rw [List.isChain_iff_forall_rel_of_append_cons_cons] at h ⊢
  intro a b l₁ l₂ hl
  obtain ⟨h₁, h₂⟩ := h hl
  refine ⟨(hn a ?_).trans h₁, (hp b ?_).trans h₂⟩
  · rw [hl, List.dropLast_append_cons, List.dropLast_cons_of_ne_nil (List.cons_ne_nil b l₂)]
    exact List.mem_append_right _ List.mem_cons_self
  · rw [hl]
    cases l₁ with
    | nil => exact List.mem_cons_self
    | cons x l₁ => exact List.mem_append_right _ (List.mem_cons_of_mem _ List.mem_cons_self)

/-- The node `p` between the neighbours `v` and `c`. -/
structure Spliced (next prev next' prev' : ι → ι) (v p c : ι) : Prop where
  /-- The link of the left neighbour leads to the node. -/
  next_left : next' v = p
  /-- The link of the node leads to the right neighbour. -/
  next_mid : next' p = c
  /-- Its back link leads to the left neighbour. -/
  prev_mid : prev' p = v
  /-- The back link of the right neighbour leads to the node. -/
  prev_right : prev' c = p
  /-- The other links stay. -/
  next_other : ∀ x, x ≠ v → x ≠ p → next' x = next x
  /-- The other back links stay. -/
  prev_other : ∀ x, x ≠ p → x ≠ c → prev' x = prev x

/-- The neighbours `v` and `c` of a node after it has been taken out. -/
structure Unlinked (next prev next' prev' : ι → ι) (v c : ι) : Prop where
  /-- The link of the left neighbour leads to the right one. -/
  next_left : next' v = c
  /-- The back link of the right neighbour leads to the left one. -/
  prev_right : prev' c = v
  /-- The other links stay. -/
  next_other : ∀ x, x ≠ v → next' x = next x
  /-- The other back links stay. -/
  prev_other : ∀ x, x ≠ c → prev' x = prev x

section

variable {next prev next' prev' : ι → ι} {v p c : ι} {a b : List ι}

/-- Splicing a new node between two neighbours keeps a list linked. -/
theorem isChain_splice (h : (a ++ v :: c :: b).IsChain (Link next prev))
    (hd : (a ++ v :: c :: b).Nodup) (hp : p ∉ a ++ v :: c :: b)
    (hs : Spliced next prev next' prev' v p c) :
    (a ++ v :: p :: c :: b).IsChain (Link next' prev') := by
  rw [List.isChain_append_cons_cons] at h
  obtain ⟨hl, -, hr⟩ := h
  simp only [List.nodup_append, List.nodup_cons, List.mem_cons, List.mem_append, not_or] at hd hp
  obtain ⟨-, ⟨⟨hvc, hvb⟩, hcb, -⟩, hab⟩ := hd
  obtain ⟨hpa, hpv, hpc, hpb⟩ := hp
  rw [List.isChain_append_cons_cons, List.isChain_cons_cons]
  refine ⟨isChain_congr hl ?_ ?_, ⟨hs.next_left, hs.prev_mid⟩, ⟨hs.next_mid, hs.prev_right⟩,
    isChain_congr hr ?_ ?_⟩
  · intro x hx
    rw [List.dropLast_concat] at hx
    exact hs.next_other x (hab x hx v (.inl rfl)) fun he => hpa (he ▸ hx)
  · intro y hy
    have hy' := List.mem_of_mem_tail hy
    rw [List.mem_append, List.mem_singleton] at hy'
    rcases hy' with hy' | rfl
    · exact hs.prev_other y (fun he => hpa (he ▸ hy')) (hab y hy' c (.inr (.inl rfl)))
    · exact hs.prev_other y (Ne.symm hpv) hvc
  · intro x hx
    rcases List.mem_cons.mp (List.dropLast_subset _ hx) with rfl | hx'
    · exact hs.next_other x (Ne.symm hvc) (Ne.symm hpc)
    · exact hs.next_other x (fun he => hvb (he ▸ hx')) fun he => hpb (he ▸ hx')
  · intro y hy
    rw [List.tail_cons] at hy
    exact hs.prev_other y (fun he => hpb (he ▸ hy)) fun he => hcb (he ▸ hy)

/-- Taking out a node keeps a list linked. -/
theorem isChain_unlink (h : (a ++ v :: p :: c :: b).IsChain (Link next prev))
    (hd : (a ++ v :: p :: c :: b).Nodup) (hs : Unlinked next prev next' prev' v c) :
    (a ++ v :: c :: b).IsChain (Link next' prev') := by
  rw [List.isChain_append_cons_cons, List.isChain_cons_cons] at h
  obtain ⟨hl, -, -, hr⟩ := h
  simp only [List.nodup_append, List.nodup_cons, List.mem_cons, not_or] at hd
  obtain ⟨-, ⟨⟨-, hvc, hvb⟩, ⟨-, -⟩, hcb, -⟩, hab⟩ := hd
  rw [List.isChain_append_cons_cons]
  refine ⟨isChain_congr hl ?_ ?_, ⟨hs.next_left, hs.prev_right⟩, isChain_congr hr ?_ ?_⟩
  · intro x hx
    rw [List.dropLast_concat] at hx
    exact hs.next_other x (hab x hx v (.inl rfl))
  · intro y hy
    have hy' := List.mem_of_mem_tail hy
    rw [List.mem_append, List.mem_singleton] at hy'
    rcases hy' with hy' | rfl
    · exact hs.prev_other y (hab y hy' c (.inr (.inr (.inl rfl))))
    · exact hs.prev_other y hvc
  · intro x hx
    rcases List.mem_cons.mp (List.dropLast_subset _ hx) with rfl | hx'
    · exact hs.next_other x (Ne.symm hvc)
    · exact hs.next_other x fun he => hvb (he ▸ hx')
  · intro y hy
    rw [List.tail_cons] at hy
    exact hs.prev_other y fun he => hcb (he ▸ hy)

end

/-! ## Many queues -/

/-- The tails of different queues are different nodes, and none of them is a head. -/
structure Anchors (heads : Set ι) (tail : ι → ι) : Prop where
  /-- Two queues have different tails. -/
  tail_inj : ∀ h ∈ heads, ∀ h' ∈ heads, tail h = tail h' → h = h'
  /-- A tail is not a head. -/
  tail_not_head : ∀ h ∈ heads, tail h ∉ heads

/-- The contents `q h` of the queue with head `h` are the nodes with home `h`, linked in both
directions between the head and its tail. -/
structure Threads (next prev : ι → ι) (heads : Set ι) (tail : ι → ι) (home : ι → Option ι)
    (q : ι → List ι) : Prop where
  /-- From the head to the tail, neighbours are linked in both directions. -/
  chain : ∀ h ∈ heads, (h :: (q h ++ [tail h])).IsChain (Link next prev)
  /-- No node is twice on a queue. -/
  nodup : ∀ h ∈ heads, (q h).Nodup
  /-- The nodes on a queue are those whose home it is. -/
  mem_iff : ∀ h ∈ heads, ∀ x, x ∈ q h ↔ home x = some h
  /-- Heads have no home. -/
  home_head : ∀ h ∈ heads, home h = none
  /-- Tails have none either. -/
  home_tail : ∀ h ∈ heads, home (tail h) = none

namespace Threads

variable {next prev next' prev' : ι → ι} {heads : Set ι} {tail : ι → ι} {home : ι → Option ι}
  {q : ι → List ι}

/-- The nodes of a queue, with its head and its tail. -/
abbrev nodes (tail : ι → ι) (q : ι → List ι) (h : ι) : List ι := h :: (q h ++ [tail h])

/-- The queues depend on the table of links and on the homes only. -/
theorem congr (ht : Threads next prev heads tail home q) (hn : ∀ x, next' x = next x)
    (hp : ∀ x, prev' x = prev x) {home' : ι → Option ι} (hh : ∀ x, home' x = home x) :
    Threads next' prev' heads tail home' q := by
  rw [funext hn, funext hp, funext hh]
  exact ht

section

variable (ht : Threads next prev heads tail home q) (ha : Anchors heads tail)

include ht

/-- The head of a queue is a member of no queue. -/
theorem head_not_mem {h h' : ι} (hh : h ∈ heads) (hh' : h' ∈ heads) : h ∉ q h' := by
  rw [ht.mem_iff h' hh', ht.home_head h hh]
  exact nofun

/-- The tail of a queue is a member of no queue. -/
theorem tail_not_mem {h h' : ι} (hh : h ∈ heads) (hh' : h' ∈ heads) : tail h ∉ q h' := by
  rw [ht.mem_iff h' hh', ht.home_tail h hh]
  exact nofun

include ha

/-- The nodes of a queue are all different. -/
theorem nodup_nodes {h : ι} (hh : h ∈ heads) : (nodes tail q h).Nodup := by
  rw [List.nodup_cons, List.mem_append, List.mem_singleton, List.nodup_append]
  refine ⟨?_, ht.nodup h hh, List.pairwise_singleton _ _, ?_⟩
  · rintro (hm | he)
    · exact ht.head_not_mem hh hh hm
    · exact ha.tail_not_head h hh (he ▸ hh)
  · intro x hx y hy he
    rw [List.mem_singleton] at hy
    exact ht.tail_not_mem hh hh (hy ▸ he ▸ hx)

/-- Different queues have no node in common. -/
theorem nodes_disjoint {h h' x : ι} (hh : h ∈ heads) (hh' : h' ∈ heads) (hne : h ≠ h')
    (hx : x ∈ nodes tail q h) : x ∉ nodes tail q h' := by
  simp only [nodes, List.mem_cons, List.mem_append, List.not_mem_nil, or_false] at hx ⊢
  rintro (rfl | hx' | rfl)
  · rcases hx with rfl | hx | hx
    · exact hne rfl
    · exact ht.head_not_mem hh' hh hx
    · exact ha.tail_not_head h hh (hx ▸ hh')
  · rcases hx with rfl | hx | rfl
    · exact ht.head_not_mem hh hh' hx'
    · rw [ht.mem_iff h hh] at hx
      rw [ht.mem_iff h' hh', hx] at hx'
      injection hx' with he
      exact hne he
    · exact ht.tail_not_mem hh hh' hx'
  · rcases hx with hx | hx | hx
    · exact ha.tail_not_head h' hh' (hx ▸ hh)
    · exact ht.tail_not_mem hh' hh hx
    · exact hne (ha.tail_inj h' hh' h hh hx).symm

end

/-- Where the contents of a queue are cut in two, the nodes on the two sides of the cut are neighbours. -/
theorem edge (ht : Threads next prev heads tail home q) {h v c : ι} {l r a b : List ι} (hh : h ∈ heads)
    (hq : q h = l ++ r) (hl : h :: l = a ++ [v]) (hr : r ++ [tail h] = c :: b) :
    next v = c ∧ prev c = v := by
  have hchain := ht.chain h hh
  rw [hq, List.append_assoc, hr, ← List.cons_append, hl, List.append_assoc, List.singleton_append,
    List.isChain_append_cons_cons] at hchain
  exact hchain.2.1

/-- A node on a queue has neighbours, which are what the table says. -/
theorem neighbours (ht : Threads next prev heads tail home q) {h p : ι} {l r : List ι} (hh : h ∈ heads)
    (hq : q h = l ++ p :: r) :
    ∃ a b, h :: l = a ++ [prev p] ∧ r ++ [tail h] = next p :: b := by
  obtain ⟨a, v, hl⟩ := List.eq_nil_or_concat' (h :: l) |>.resolve_left (List.cons_ne_nil h l)
  obtain ⟨c, b, hr⟩ := List.exists_cons_of_ne_nil (List.append_ne_nil_of_right_ne_nil r
    (List.cons_ne_nil (tail h) []))
  have hchain := ht.chain h hh
  rw [hq, List.append_assoc, List.cons_append, hr, ← List.cons_append, hl, List.append_assoc,
    List.singleton_append, List.isChain_append_cons_cons, List.isChain_cons_cons] at hchain
  obtain ⟨-, hvp, hpc, -⟩ := hchain
  refine ⟨a, b, ?_, ?_⟩
  · rw [hl, hvp.2]
  · rw [hr, hpc.1]

variable [DecidableEq ι]

/-- A node without a home is linked into a queue, between two neighbours. -/
theorem splice (ht : Threads next prev heads tail home q) (ha : Anchors heads tail) {h v p c : ι}
    {l r a b : List ι} (hh : h ∈ heads) (hp : home p = none) (hph : p ∉ heads)
    (hpt : ∀ h ∈ heads, p ≠ tail h) (hq : q h = l ++ r) (hl : h :: l = a ++ [v])
    (hr : r ++ [tail h] = c :: b) (hs : Spliced next prev next' prev' v p c) :
    Threads next' prev' heads tail (Function.update home p (some h))
      (Function.update q h (l ++ p :: r)) := by
  have hnodes : nodes tail q h = a ++ v :: c :: b := by
    rw [nodes, hq, List.append_assoc, hr, ← List.cons_append, hl, List.append_assoc,
      List.singleton_append]
  -- The new node is in no queue yet: it is no head and no tail, and a node of a queue has that
  -- home.
  have hpn : ∀ h' ∈ heads, p ∉ nodes tail q h' := by
    intro h' hh' hm
    simp only [nodes, List.mem_cons, List.mem_append, List.not_mem_nil, or_false] at hm
    rcases hm with rfl | hm | hm
    · exact hph hh'
    · rw [ht.mem_iff h' hh', hp] at hm
      cases hm
    · exact hpt h' hh' hm
  have hvm : v ∈ nodes tail q h := by
    rw [hnodes]
    exact List.mem_append_right _ List.mem_cons_self
  have hcm : c ∈ nodes tail q h := by
    rw [hnodes]
    exact List.mem_append_right _ (List.mem_cons_of_mem _ List.mem_cons_self)
  constructor
  -- The chains: that of `h` is spliced, and no link of another one is written.
  · intro h' hh'
    rcases eq_or_ne h' h with rfl | hne
    · have hnew : h' :: (l ++ p :: r ++ [tail h']) = a ++ v :: p :: c :: b := by
        rw [List.append_assoc, List.cons_append, hr, ← List.cons_append, hl, List.append_assoc,
          List.singleton_append]
      rw [Function.update_self, hnew]
      have hchain := ht.chain h' hh'
      have hnd := ht.nodup_nodes ha hh'
      have hpm := hpn h' hh'
      rw [hnodes] at hnd hpm
      rw [← nodes, hnodes] at hchain
      exact isChain_splice hchain hnd hpm hs
    · rw [Function.update_of_ne hne]
      have hvn := ht.nodes_disjoint ha hh hh' hne.symm hvm
      have hcn := ht.nodes_disjoint ha hh hh' hne.symm hcm
      -- The nodes of different queues are apart, so `v` and `c` are not in this one.
      refine isChain_congr (ht.chain h' hh') (fun x hx => ?_) (fun y hy => ?_)
      · have hx' := List.dropLast_subset _ hx
        exact hs.next_other x (fun he => hvn (he ▸ hx')) fun he => hpn h' hh' (he ▸ hx')
      · have hy' := List.mem_of_mem_tail hy
        exact hs.prev_other y (fun he => hpn h' hh' (he ▸ hy')) fun he => hcn (he ▸ hy')
  · intro h' hh'
    rcases eq_or_ne h' h with rfl | hne
    · have hpq : p ∉ q h' := fun hm => hpn h' hh' (by
        rw [nodes]
        exact List.mem_cons_of_mem _ (List.mem_append_left _ hm))
      rw [Function.update_self, List.perm_middle.nodup_iff, List.nodup_cons, ← hq]
      exact ⟨hpq, ht.nodup h' hh'⟩
    · rw [Function.update_of_ne hne]
      exact ht.nodup h' hh'
  -- The new node is a member of `h`, and the homes of the others stay.
  · intro h' hh' x
    rcases eq_or_ne x p with rfl | hxp
    · rw [Function.update_self]
      rcases eq_or_ne h' h with rfl | hne
      · rw [Function.update_self]
        exact iff_of_true (List.mem_append_right _ List.mem_cons_self) rfl
      · rw [Function.update_of_ne hne, ht.mem_iff h' hh', hp]
        exact iff_of_false nofun fun he => hne (Option.some.inj he).symm
    · rw [Function.update_of_ne hxp]
      rcases eq_or_ne h' h with rfl | hne
      · rw [Function.update_self, ← ht.mem_iff h' hh', hq, List.mem_append, List.mem_append,
          List.mem_cons]
        simp only [hxp, false_or]
      · rw [Function.update_of_ne hne]
        exact ht.mem_iff h' hh' x
  · intro h' hh'
    have hne : h' ≠ p := fun he => hph (he ▸ hh')
    rw [Function.update_of_ne hne]
    exact ht.home_head h' hh'
  · intro h' hh'
    rw [Function.update_of_ne (hpt h' hh').symm]
    exact ht.home_tail h' hh'

/-- A node is taken out of its queue. -/
theorem unlink (ht : Threads next prev heads tail home q) (ha : Anchors heads tail) {h p : ι}
    (hh : h ∈ heads) (hp : home p = some h)
    (hs : Unlinked next prev next' prev' (prev p) (next p)) :
    Threads next' prev' heads tail (Function.update home p none)
      (Function.update q h ((q h).erase p)) := by
  obtain ⟨l, r, hq⟩ := List.append_of_mem ((ht.mem_iff h hh p).mpr hp)
  obtain ⟨a, b, hl, hr⟩ := ht.neighbours hh hq
  generalize prev p = v at hl hs
  generalize next p = c at hr hs
  have hnodes : nodes tail q h = a ++ v :: p :: c :: b := by
    rw [nodes, hq, List.append_assoc, List.cons_append, hr, ← List.cons_append, hl,
      List.append_assoc, List.singleton_append]
  have hvm : v ∈ nodes tail q h := by
    rw [hnodes]
    exact List.mem_append_right _ List.mem_cons_self
  have hcm : c ∈ nodes tail q h := by
    rw [hnodes]
    exact List.mem_append_right _
      (List.mem_cons_of_mem _ (List.mem_cons_of_mem _ List.mem_cons_self))
  have hpl : p ∉ l ∧ p ∉ r := by
    have := ht.nodup h hh
    rw [hq, List.perm_middle.nodup_iff, List.nodup_cons, List.mem_append, not_or] at this
    exact this.1
  have herase : (q h).erase p = l ++ r := by
    rw [hq, List.erase_append_right _ hpl.1, List.erase_cons_head]
  rw [herase]
  constructor
  -- The chains: that of `h` loses one node, and no link of another one is written.
  · intro h' hh'
    rcases eq_or_ne h' h with rfl | hne
    · have hnew : h' :: (l ++ r ++ [tail h']) = a ++ v :: c :: b := by
        rw [List.append_assoc, hr, ← List.cons_append, hl, List.append_assoc, List.singleton_append]
      rw [Function.update_self, hnew]
      have hchain := ht.chain h' hh'
      have hnd := ht.nodup_nodes ha hh'
      rw [hnodes] at hnd
      rw [← nodes, hnodes] at hchain
      exact isChain_unlink hchain hnd hs
    · rw [Function.update_of_ne hne]
      have hvn := ht.nodes_disjoint ha hh hh' hne.symm hvm
      have hcn := ht.nodes_disjoint ha hh hh' hne.symm hcm
      refine isChain_congr (ht.chain h' hh') (fun x hx => ?_) (fun y hy => ?_)
      · exact hs.next_other x fun he => hvn (he ▸ List.dropLast_subset _ hx)
      · exact hs.prev_other y fun he => hcn (he ▸ List.mem_of_mem_tail hy)
  · intro h' hh'
    rcases eq_or_ne h' h with rfl | hne
    · rw [Function.update_self, ← herase]
      exact (ht.nodup h' hh').erase p
    · rw [Function.update_of_ne hne]
      exact ht.nodup h' hh'
  -- The node has no home now, and it was in no other queue.
  · intro h' hh' x
    rcases eq_or_ne x p with rfl | hxp
    · rw [Function.update_self]
      refine iff_of_false ?_ nofun
      rcases eq_or_ne h' h with rfl | hne
      · rw [Function.update_self, List.mem_append]
        exact not_or.mpr hpl
      · rw [Function.update_of_ne hne, ht.mem_iff h' hh', hp]
        exact fun he => hne (Option.some.inj he).symm
    · rw [Function.update_of_ne hxp]
      rcases eq_or_ne h' h with rfl | hne
      · rw [Function.update_self, ← ht.mem_iff h' hh', hq, List.mem_append, List.mem_append,
          List.mem_cons]
        simp only [hxp, false_or]
      · rw [Function.update_of_ne hne]
        exact ht.mem_iff h' hh' x
  · intro h' hh'
    rcases eq_or_ne h' p with rfl | hne
    · exact Function.update_self ..
    · rw [Function.update_of_ne hne]
      exact ht.home_head h' hh'
  · intro h' hh'
    rcases eq_or_ne (tail h') p with he | hne
    · rw [he]
      exact Function.update_self ..
    · rw [Function.update_of_ne hne]
      exact ht.home_tail h' hh'

end Threads

end LinkedQueue
