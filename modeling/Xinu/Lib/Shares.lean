import Mathlib.Algebra.BigOperators.Group.Finset.Piecewise
import Mathlib.Algebra.BigOperators.Group.Multiset.Basic
import Mathlib.Algebra.Order.BigOperators.Group.Finset
import Mathlib.Algebra.Order.Group.Multiset
import Mathlib.Data.Multiset.Count

/-!
# Lists that share nodes

A stock of nodes that go between a free list and some queues. `Shares` says that each node is in one
of the lists, as often as it is in the stock, and the lemmas say what a node that moves does to it.
If the stock has no duplicates, the lists have no node in common.
-/

variable {ι α : Type*}

/-- The nodes of the stock are those of the free list and those of the queues. -/
def Shares (I : Finset ι) (stock : Multiset α) (free : List α) (queue : ι → List α) : Prop :=
  (free : Multiset α) + ∑ i ∈ I, (queue i : Multiset α) = stock

namespace Shares

variable {I : Finset ι} {stock : Multiset α} {free free' : List α}
  {queue : ι → List α} {i j : ι} {x : α} {l : List α}

/-- At first all nodes are free. -/
theorem start (I : Finset ι) (free : List α) : Shares I free free fun _ => [] := by
  unfold Shares
  rw [Finset.sum_eq_zero fun _ _ => Multiset.coe_nil, add_zero]

/-- The queue of one place changes, and the free list with it: what the two hold together stays the same. -/
theorem update [DecidableEq ι] (h : Shares I stock free queue)
    (hi : i ∈ I) (hl : (free ++ queue i).Perm (free' ++ l)) :
    Shares I stock free' (Function.update queue i l) := by
  unfold Shares at h ⊢
  have hcongr : ∑ k ∈ I, (Function.update queue i l k : Multiset α) =
      (l : Multiset α) + ∑ k ∈ I \ {i}, (queue k : Multiset α) := by
    rw [← Finset.sum_update_of_mem hi fun k => (queue k : Multiset α)]
    refine Finset.sum_congr rfl fun k _ => ?_
    by_cases hk : k = i
    · rw [hk, Function.update_self, Function.update_self]
    · rw [Function.update_of_ne hk, Function.update_of_ne hk]
  have hsplit : ∑ k ∈ I, (queue k : Multiset α) = (queue i : Multiset α) + ∑ k ∈ I \ {i},
      (queue k : Multiset α) := by
    rw [← Finset.sum_update_of_mem hi fun k => (queue k : Multiset α), Function.update_eq_self]
  have hboth : (free : Multiset α) + (queue i : Multiset α) = (free' : Multiset α) + (l : Multiset α) := by
    rw [Multiset.coe_add, Multiset.coe_add]
    exact Multiset.coe_eq_coe.mpr hl
  rw [hcongr, ← add_assoc, ← hboth, add_assoc, ← hsplit, h]

/-- The first free node goes to the end of a queue. -/
theorem push [DecidableEq ι] (h : Shares I stock (x :: free) queue) (hi : i ∈ I) :
    Shares I stock free (Function.update queue i (queue i ++ [x])) :=
  h.update hi (by simpa using (List.perm_append_comm : ([x] ++ (free ++ queue i)).Perm _))

/-- All nodes of a queue become free. -/
theorem release [DecidableEq ι] (h : Shares I stock free queue) (hi : i ∈ I) :
    Shares I stock (queue i ++ free) (Function.update queue i []) :=
  h.update hi (by simpa using List.perm_append_comm)

/-- The nodes in the lists are as many as the stock has. -/
theorem card (h : Shares I stock free queue) : free.length + ∑ i ∈ I, (queue i).length = stock.card := by
  unfold Shares at h
  rw [← h, Multiset.card_add, Multiset.card_sum, Multiset.coe_card]
  simp only [Multiset.coe_card]

variable [DecidableEq α]

/-- How often a node is in the lists. -/
theorem count (h : Shares I stock free queue) (x : α) :
    free.count x + ∑ i ∈ I, (queue i).count x = stock.count x := by
  unfold Shares at h
  rw [← h, Multiset.count_add, Multiset.count_sum', Multiset.coe_count]
  simp only [Multiset.coe_count]

/-- In a stock without duplicates, no node is in two places. -/
theorem count_le (h : Shares I stock free queue) (hd : stock.Nodup) (x : α) :
    free.count x + ∑ i ∈ I, (queue i).count x ≤ 1 := by
  rw [h.count]
  exact Multiset.nodup_iff_count_le_one.mp hd x

/-- If no node is twice in the stock, none is twice on the free list. -/
theorem nodup_free (h : Shares I stock free queue) (hd : stock.Nodup) : free.Nodup :=
  List.nodup_iff_count_le_one.mpr fun x => le_trans (Nat.le_add_right ..) (h.count_le hd x)

/-- If no node is twice in the stock, none is twice in a queue. -/
theorem nodup_queue (h : Shares I stock free queue) (hd : stock.Nodup) (hi : i ∈ I) : (queue i).Nodup := by
  refine List.nodup_iff_count_le_one.mpr fun x => le_trans ?_ (h.count_le hd x)
  exact le_trans (Finset.single_le_sum (f := fun i => (queue i).count x) (fun _ _ => Nat.zero_le _) hi)
    (Nat.le_add_left ..)

/-- If no node is twice in the stock, one in a queue is not on the free list. -/
theorem not_free (h : Shares I stock free queue) (hd : stock.Nodup) (hi : i ∈ I) (hx : x ∈ queue i) :
    x ∉ free := by
  intro hf
  have hone := h.count_le hd x
  have hfree : 0 < free.count x := List.count_pos_iff.mpr hf
  have hqueue : 0 < (queue i).count x := List.count_pos_iff.mpr hx
  have hle := Finset.single_le_sum (f := fun i => (queue i).count x) (fun _ _ => Nat.zero_le _) hi
  omega

/-- A node of a queue is in no other queue. -/
theorem not_queue [DecidableEq ι] (h : Shares I stock free queue)
    (hd : stock.Nodup) (hi : i ∈ I) (hj : j ∈ I) (hij : i ≠ j) (hx : x ∈ queue i) :
    x ∉ queue j := by
  intro hy
  have hone := h.count_le hd x
  have hi' : 0 < (queue i).count x := List.count_pos_iff.mpr hx
  have hj' : 0 < (queue j).count x := List.count_pos_iff.mpr hy
  have hle : (queue i).count x + (queue j).count x ≤ ∑ k ∈ I, (queue k).count x := by
    rw [← Finset.add_sum_erase I _ hi]
    refine Nat.add_le_add_left ?_ _
    exact Finset.single_le_sum (f := fun k => (queue k).count x)
      (fun _ _ => Nat.zero_le _) (Finset.mem_erase.mpr ⟨hij.symm, hj⟩)
  omega

end Shares
