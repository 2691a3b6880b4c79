import Mathlib.Algebra.BigOperators.Group.List.Basic
import Mathlib.Algebra.Order.BigOperators.Group.List
import Mathlib.Tactic.Linarith

/-!
# Delta lists

A delta list orders elements by the time at which they are due. The key of an element is the time
between the element before it and itself, so that one unit of time passes for all of them when the
first key goes down by one.
-/

namespace DeltaList

variable {α : Type} {key key' : α → ℤ} {due : α → ℤ} {t : ℤ} {l r : List α} {x : α}

/-- The keys of a list lead from the time `t` to the times at which its elements are due. -/
def Timed (key due : α → ℤ) : ℤ → List α → Prop
  | _, [] => True
  | t, x :: l => due x = t + key x ∧ Timed key due (due x) l

/-- The time at which the last element of a list is due. -/
def finish (key : α → ℤ) (t : ℤ) (l : List α) : ℤ := t + (l.map key).sum

/-- No time passes over an empty list. -/
@[simp] theorem finish_nil : finish key t [] = t := by
  unfold finish
  rw [List.map_nil, List.sum_nil, add_zero]

/-- The time passes over the elements one after the other. -/
@[simp] theorem finish_cons : finish key t (x :: l) = finish key (t + key x) l := by
  unfold finish
  rw [List.map_cons, List.sum_cons, add_assoc]

/-- A timed list in two parts. -/
theorem timed_append : Timed key due t (l ++ r) ↔ Timed key due t l ∧ Timed key due (finish key t l) r := by
  induction l generalizing t with
  | nil =>
    rw [List.nil_append, finish_nil]
    exact (and_iff_right trivial).symm
  | cons x l ih =>
    rw [List.cons_append, finish_cons]
    change (due x = t + key x ∧ Timed key due (due x) (l ++ r)) ↔
      (due x = t + key x ∧ Timed key due (due x) l) ∧ _
    rw [ih, and_assoc]
    refine and_congr_right fun hx => ?_
    rw [hx]

/-- The keys up to an element add up to the time that it has left. -/
theorem sum_eq (h : Timed key due t (l ++ x :: r)) : ((l ++ [x]).map key).sum = due x - t := by
  have hx := (timed_append.mp h).2.1
  unfold finish at hx
  rw [List.map_append, List.sum_append, List.map_singleton, List.sum_singleton]
  omega

/-- A timed list depends on the keys and the times of its own elements. -/
theorem Timed.congr {due' : α → ℤ} (h : Timed key due t l)
    (hk : ∀ y ∈ l, key' y = key y) (hd : ∀ y ∈ l, due' y = due y) :
    Timed key' due' t l := by
  induction l generalizing t with
  | nil => trivial
  | cons x l ih =>
    have hx := hd x List.mem_cons_self
    refine ⟨by rw [hx, hk x List.mem_cons_self]; exact h.1, ?_⟩
    rw [hx]
    exact ih h.2 (fun y hy => hk y (List.mem_cons_of_mem _ hy)) fun y hy => hd y (List.mem_cons_of_mem _ hy)

/-- The rest of a list starts later or earlier, and the first key makes up for it. -/
theorem Timed.shift (h : Timed key due t l) {t' : ℤ} (hx : ∀ x ∈ l.head?, key' x = key x + (t - t'))
    (ho : ∀ y ∈ l.tail, key' y = key y) : Timed key' due t' l := by
  cases l with
  | nil => trivial
  | cons x l =>
    have hk := hx x rfl
    have hd := h.1
    exact ⟨by omega, h.2.congr ho fun _ _ => rfl⟩

/-- An element goes in: the key of the next one goes down by its own. -/
theorem Timed.insert (h : Timed key due t (l ++ r)) (hk : key' x = due x - finish key t l)
    (hl : ∀ y ∈ l, key' y = key y) (hr : ∀ y ∈ r.head?, key' y = key y - key' x)
    (ho : ∀ y ∈ r.tail, key' y = key y) :
    Timed key' due t (l ++ x :: r) := by
  obtain ⟨h₁, h₂⟩ := timed_append.mp h
  have hfin : finish key' t l = finish key t l := by
    unfold finish
    rw [List.map_congr_left hl]
  refine timed_append.mpr ⟨h₁.congr hl fun _ _ => rfl, ?_⟩
  rw [hfin]
  refine ⟨by omega, h₂.shift (fun y hy => ?_) ho⟩
  have := hr y hy
  omega

/-- An element goes out: the key of the next one goes up by its own. -/
theorem Timed.erase (h : Timed key due t (l ++ x :: r)) (hl : ∀ y ∈ l, key' y = key y)
    (hr : ∀ y ∈ r.head?, key' y = key y + key x) (ho : ∀ y ∈ r.tail, key' y = key y) :
    Timed key' due t (l ++ r) := by
  obtain ⟨h₁, h₂⟩ := timed_append.mp h
  have hfin : finish key' t l = finish key t l := by
    unfold finish
    rw [List.map_congr_left hl]
  refine timed_append.mpr ⟨h₁.congr hl fun _ _ => rfl, ?_⟩
  rw [hfin]
  refine h₂.2.shift (fun y hy => ?_) ho
  have hx := h₂.1
  have := hr y hy
  omega

/-- With keys that are not negative a list does not end before it starts. -/
theorem le_finish (hk : ∀ y ∈ l, 0 ≤ key y) : t ≤ finish key t l := by
  have hsum : 0 ≤ (l.map key).sum := by
    refine List.sum_nonneg fun z hz => ?_
    obtain ⟨y, hy, rfl⟩ := List.mem_map.mp hz
    exact hk y hy
  unfold finish
  omega

/-- With keys that are not negative no element is due before the list starts. -/
theorem Timed.le_due (h : Timed key due t l) (hk : ∀ y ∈ l, 0 ≤ key y) (hx : x ∈ l) : t ≤ due x := by
  induction l generalizing t with
  | nil => cases hx
  | cons y l ih =>
    have hy := hk y List.mem_cons_self
    have hd := h.1
    rcases List.mem_cons.mp hx with rfl | hx
    · omega
    · have := ih h.2 (fun z hz => hk z (List.mem_cons_of_mem _ hz)) hx
      omega

/-- The elements that are due now are those at the front whose keys are used up. -/
theorem Timed.mem_takeWhile (h : Timed key due t l) (hk : ∀ y ∈ l, 0 ≤ key y) (hx : x ∈ l) :
    x ∈ l.takeWhile (fun y => decide (key y ≤ 0)) ↔ due x = t := by
  induction l generalizing t with
  | nil => cases hx
  | cons y l ih =>
    have hy := hk y List.mem_cons_self
    have hd := h.1
    have hk' : ∀ z ∈ l, 0 ≤ key z := fun z hz => hk z (List.mem_cons_of_mem _ hz)
    by_cases h0 : key y ≤ 0
    · rw [List.takeWhile_cons_of_pos (p := fun z => decide (key z ≤ 0)) (decide_eq_true h0)]
      have ht : due y = t := by omega
      rcases List.mem_cons.mp hx with rfl | hx
      · exact iff_of_true List.mem_cons_self ht
      · have hrest := h.2
        rw [ht] at hrest
        by_cases hxy : x = y
        · rw [hxy]
          exact iff_of_true List.mem_cons_self ht
        · rw [List.mem_cons, or_iff_right hxy]
          exact ih hrest hk' hx
    · rw [List.takeWhile_cons_of_neg (p := fun z => decide (key z ≤ 0)) (by simpa using h0)]
      refine iff_of_false List.not_mem_nil ?_
      rcases List.mem_cons.mp hx with rfl | hx
      · omega
      · have := h.2.le_due hk' hx
        omega

/-- The elements that are not due yet are timed from now on. -/
theorem Timed.dropWhile (h : Timed key due t l) (hk : ∀ y ∈ l, 0 ≤ key y) :
    Timed key due t (l.dropWhile fun y => decide (key y ≤ 0)) := by
  induction l with
  | nil => trivial
  | cons y l ih =>
    by_cases h0 : key y ≤ 0
    · rw [List.dropWhile_cons_of_pos (p := fun z => decide (key z ≤ 0)) (decide_eq_true h0)]
      refine ih ?_ fun z hz => hk z (List.mem_cons_of_mem _ hz)
      have hy := hk y List.mem_cons_self
      have hd := h.1
      have hrest := h.2
      rwa [show due y = t by omega] at hrest
    · rw [List.dropWhile_cons_of_neg (p := fun z => decide (key z ≤ 0)) (by simpa using h0)]
      exact h

end DeltaList
