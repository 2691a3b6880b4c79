import Mathlib.Data.List.Basic
import Mathlib.Data.List.Nodup
import Mathlib.Logic.Function.Basic

/-!
# Linked lists

Nodes that point to one another. `LinkPath` says which nodes are met from a pointer on and where
this ends, and `DoublyLinked` that a list is linked in both directions. The back links may lead on
from the first node to anywhere: what is put at the end and what is taken out behind the first node
does not depend on that.
-/

variable {α : Type*}

/-- A store through a pointer to a node. Through a null pointer it changes no node. -/
def store {β : Type*} [DecidableEq α] (f : α → β) (a : Option α) (v : β) : α → β :=
  match a with
  | some x => Function.update f x v
  | none => f

/-- From `a`, the links lead through the members of the list to `b`. -/
def LinkPath (f : α → Option α) : Option α → List α → Option α → Prop
  | a, [], b => a = b
  | a, x :: l, b => a = some x ∧ LinkPath f (f x) l b

namespace LinkPath

variable {f g : α → Option α} {a b c : Option α} {x : α} {l l₁ l₂ : List α}

@[simp] theorem nil_iff : LinkPath f a [] b ↔ a = b := Iff.rfl

@[simp] theorem cons_iff : LinkPath f a (x :: l) b ↔ a = some x ∧ LinkPath f (f x) l b := Iff.rfl

/-- A path through two lists is one through each. -/
theorem append_iff : LinkPath f a (l₁ ++ l₂) b ↔ ∃ c, LinkPath f a l₁ c ∧ LinkPath f c l₂ b := by
  induction l₁ generalizing a with
  | nil => simp
  | cons x l₁ ih => simp only [List.cons_append, cons_iff, ih, exists_and_left, and_assoc]

/-- A path ends with a node exactly if it leads to that node, which points to the end. -/
theorem concat_iff : LinkPath f a (l ++ [x]) b ↔ LinkPath f a l (some x) ∧ f x = b := by
  rw [append_iff]
  constructor
  · rintro ⟨c, hc, rfl, hb⟩
    exact ⟨hc, hb⟩
  · rintro ⟨hl, hb⟩
    exact ⟨some x, hl, rfl, hb⟩

/-- A path depends on the links of its nodes. -/
theorem congr (h : LinkPath f a l b) (hfg : ∀ x ∈ l, g x = f x) : LinkPath g a l b := by
  induction l generalizing a with
  | nil => exact h
  | cons x l ih =>
    refine ⟨h.1, ?_⟩
    rw [hfg x List.mem_cons_self]
    exact ih h.2 fun y hy => hfg y (List.mem_cons_of_mem _ hy)

/-- The link of another node changes. -/
theorem update [DecidableEq α] (h : LinkPath f a l b) (hx : x ∉ l) (c : Option α) :
    LinkPath (Function.update f x c) a l b :=
  h.congr fun _ hy => Function.update_of_ne (ne_of_mem_of_not_mem hy hx) _ _

/-- The link of the last node changes. -/
theorem update_last [DecidableEq α] (h : LinkPath f a (l ++ [x]) b) (hx : x ∉ l) (c : Option α) :
    LinkPath (Function.update f x c) a (l ++ [x]) c :=
  concat_iff.mpr ⟨(concat_iff.mp h).1.update hx c, Function.update_self ..⟩

/-- There is one path from a pointer to the end. -/
theorem unique (h₁ : LinkPath f a l₁ none) (h₂ : LinkPath f a l₂ none) : l₁ = l₂ := by
  induction l₁ generalizing a l₂ with
  | nil =>
    cases l₂ with
    | nil => rfl
    | cons y l₂ => exact absurd (h₁.symm.trans h₂.1) nofun
  | cons x l₁ ih =>
    cases l₂ with
    | nil => exact absurd (h₂.symm.trans h₁.1) nofun
    | cons y l₂ =>
      obtain rfl : x = y := Option.some.inj (h₁.1.symm.trans h₂.1)
      rw [ih h₁.2 h₂.2]

/-- Nodes that lie behind one another, each linked to the next one. -/
theorem range (N k n : ℕ) (hn : k + n = N) :
    LinkPath (fun i => if i + 1 < N then some (i + 1) else none)
    (if k < N then some k else none) (List.range' k n) none := by
  induction n generalizing k with
  | zero => exact if_neg (by omega)
  | succ n ih =>
    rw [List.range'_succ]
    exact ⟨if_pos (by omega), ih (k + 1) (by omega)⟩

/-- A link on a path leads to a node behind the first one. -/
theorem next_mem (h : LinkPath f a l none) {y : α} (hx : x ∈ l) (hy : f x = some y) : y ∈ l.tail := by
  induction l generalizing a with
  | nil => exact absurd hx List.not_mem_nil
  | cons z l ih =>
    obtain ⟨-, h⟩ := h
    rcases List.mem_cons.mp hx with rfl | hx
    · rw [hy] at h
      cases l with
      | nil => cases h
      | cons w l => exact List.mem_cons.mpr (.inl (Option.some.inj h.1))
    · exact List.mem_of_mem_tail (ih h hx)

/-- A path starts at its first node. -/
theorem start (h : LinkPath f a l b) (hl : l ≠ []) : a = l.head? := by
  cases l with
  | nil => exact absurd rfl hl
  | cons x l => exact h.1

end LinkPath

/-- From a node on, the first one with a property, or none at the end. It gives up after some number
of nodes. -/
def walk (f : α → Option α) (P : α → Bool) : ℕ → Option α → Option (Option α)
  | _, none => some none
  | 0, some _ => none
  | n + 1, some x => if P x then some (some x) else walk f P n (f x)

/-- The walk goes through the nodes of a path first. -/
theorem walk_path {f : α → Option α} {P : α → Bool} {a b : Option α}
    {l : List α} {n : ℕ} (h : LinkPath f a l b) (hn : l.length ≤ n) :
    walk f P n a = match l.find? P with
      | some x => some (some x)
      | none => walk f P (n - l.length) b := by
  induction l generalizing a n with
  | nil =>
    rw [LinkPath.nil_iff] at h
    rw [h]
    rfl
  | cons x l ih =>
    obtain ⟨rfl, h⟩ := h
    cases n with
    | zero => simp at hn
    | succ n =>
      rw [walk, List.find?_cons]
      cases hx : P x
      · simp only [Bool.false_eq_true, if_false]
        rw [ih h (by simpa using hn), List.length_cons, Nat.add_sub_add_right]
      · rfl

/-- A path that ends is searched to its end. -/
theorem walk_path_none {f : α → Option α} {P : α → Bool}
    {a : Option α} {l : List α} {n : ℕ} (h : LinkPath f a l none) (hn : l.length ≤ n) :
    walk f P n a = some (l.find? P) := by
  rw [walk_path h hn]
  cases l.find? P with
  | some x => rfl
  | none => cases n - l.length <;> rfl

/-- Two nodes that lead to one another: the walk does not end. -/
theorem walk_cycle {f : α → Option α} {P : α → Bool} {x y : α}
    (hx : P x = false) (hy : P y = false) (hxy : f x = some y)
    (hyx : f y = some x) (n : ℕ) : walk f P n (some x) = none ∧ walk f P n (some y) = none := by
  induction n with
  | zero => exact ⟨rfl, rfl⟩
  | succ n ih =>
    simp only [walk, hx, hy, hxy, hyx, Bool.false_eq_true, if_false]
    exact ih.symm

/-- The members of the list are linked in both directions. The back links lead on to `e`. -/
structure DoublyLinked (next prev : α → Option α) (head tail : Option α)
    (l : List α) (e : Option α) : Prop where
  /-- The links lead through the list, from the head. -/
  forward : LinkPath next head l none
  /-- The back links lead through it from the tail, and on to `e`. -/
  backward : LinkPath prev tail l.reverse e

namespace DoublyLinked

variable {next prev next' prev' : α → Option α} {head tail e : Option α} {l l₁ l₂ : List α} {x p n : α}

/-- The list is empty. -/
theorem nil : DoublyLinked next prev none none [] none := ⟨rfl, rfl⟩

/-- The head of a doubly linked list is its first node, if it has one. -/
theorem head_eq (h : DoublyLinked next prev head tail l e) : head = l.head? := by
  cases l with
  | nil => exact h.forward
  | cons x l => exact h.forward.1

/-- The tail of a doubly linked list is its last node, if it has one. -/
theorem tail_eq (h : DoublyLinked next prev head tail l e) (hl : l ≠ []) : tail = l.getLast? := by
  have hstart := h.backward.start (by simpa using hl)
  rw [hstart, List.head?_reverse]

/-- The last node of a list that ends with it. -/
theorem tail_concat (h : DoublyLinked next prev head tail (l ++ [x]) e) : tail = some x := by
  rw [h.tail_eq (by simp), List.getLast?_append]
  rfl

/-- A node with another one behind it is not the last one. -/
theorem tail_ne (h : DoublyLinked next prev head tail (l₁ ++ x :: n :: l₂) e)
    (hd : (l₁ ++ x :: n :: l₂).Nodup) : tail ≠ some x := by
  rw [h.tail_eq (by simp), List.getLast?_append, List.getLast?_cons_cons]
  intro hlast
  have hmem : x ∈ n :: l₂ := List.mem_of_getLast? (by simpa using hlast)
  grind

/-- A node with another one before it is not the first one. -/
theorem head_ne (h : DoublyLinked next prev head tail (l₁ ++ [p] ++ x :: l₂) e)
    (hd : (l₁ ++ [p] ++ x :: l₂).Nodup) : head ≠ some x := by
  rw [h.head_eq]
  intro hfirst
  have hmem : x ∈ l₁ ++ [p] := List.mem_of_head? (by simpa using hfirst)
  grind

/-- The list depends on the links of its nodes. -/
theorem congr (h : DoublyLinked next prev head tail l e)
    (hn : ∀ x ∈ l, next' x = next x) (hp : ∀ x ∈ l, prev' x = prev x) :
    DoublyLinked next' prev' head tail l e :=
  ⟨h.forward.congr hn, h.backward.congr fun x hx => hp x (List.mem_reverse.mp hx)⟩

/-- The links of a node in the middle. -/
theorem neighbours (h : DoublyLinked next prev head tail (l₁ ++ x :: l₂) e) :
    next x = l₂.head? ∧ (l₁ ≠ [] → prev x = l₁.getLast?) ∧ (l₁ = [] → prev x = e) := by
  obtain ⟨c, -, -, hnext⟩ := LinkPath.append_iff.mp h.forward
  have hback := h.backward
  rw [List.reverse_append, List.reverse_cons, List.append_assoc] at hback
  obtain ⟨d, -, -, hprev⟩ := LinkPath.append_iff.mp hback
  refine ⟨?_, fun hne => ?_, fun heq => ?_⟩
  · cases l₂ with
    | nil => exact hnext
    | cons y l₂ => exact hnext.1
  · have hstart := hprev.start (by simpa using hne)
    rw [hstart]
    exact List.head?_reverse
  · rw [heq] at hprev
    exact hprev

/-- The back link of the first node. -/
theorem prev_head (h : DoublyLinked next prev head tail (x :: l) e) : prev x = e := by
  have hsplit : DoublyLinked next prev head tail ([] ++ x :: l) e := h
  exact hsplit.neighbours.2.2 rfl

/-- The first node goes, and the back link of the second one is kept. -/
theorem pop_head (h : DoublyLinked next prev head tail (x :: l) e) :
    DoublyLinked next prev (next x) tail l (some x) := by
  refine ⟨h.forward.2, ?_⟩
  have hback := h.backward
  rw [List.reverse_cons] at hback
  exact (LinkPath.concat_iff.mp hback).1

section

variable [DecidableEq α]

/-- A node with cleared links, as head and tail, is a list of one. -/
theorem single (next prev : α → Option α) (x : α) :
    DoublyLinked (Function.update next x none) (Function.update prev x none) (some x) (some x) [x] none :=
  ⟨⟨rfl, Function.update_self ..⟩, ⟨rfl, Function.update_self ..⟩⟩

/-- A node is put at the end of a list that is not empty. -/
theorem push_back (h : DoublyLinked next prev head (some p) (l ++ [p]) e) (hp : p ∉ l) (hx : x ∉ l ++ [p]) :
    DoublyLinked (Function.update (Function.update next p (some x)) x none)
    (Function.update prev x (some p)) head (some x)
      (l ++ [p] ++ [x]) e := by
  refine ⟨?_, ?_⟩
  · refine LinkPath.concat_iff.mpr ⟨?_, Function.update_self ..⟩
    exact (h.forward.update_last hp (some x)).update hx none
  · rw [List.reverse_append]
    refine ⟨rfl, ?_⟩
    rw [Function.update_self]
    exact h.backward.update (fun hmem => hx (List.mem_reverse.mp hmem)) (some p)

/-- A node is put in front of a list that is not empty. -/
theorem push_front (h : DoublyLinked next prev (some n) tail (n :: l) e) (hn : n ∉ l) (hx : x ∉ n :: l) :
    DoublyLinked (Function.update next x (some n)) (Function.update (Function.update prev x none) n (some x))
    (some x) tail (x :: n :: l) none := by
  have hxn : x ≠ n := fun heq => hx (heq ▸ List.mem_cons_self)
  refine ⟨⟨rfl, ?_⟩, ?_⟩
  · rw [Function.update_self]
    exact h.forward.update hx (some n)
  · rw [List.reverse_cons]
    refine LinkPath.concat_iff.mpr ⟨?_, ?_⟩
    · have hback := h.backward
      rw [List.reverse_cons] at hback ⊢
      refine LinkPath.update_last (hback.congr fun y hy => ?_) (by simpa using hn) _
      have hmem : y ∈ n :: l := by simpa [or_comm] using hy
      exact Function.update_of_ne (ne_of_mem_of_not_mem hmem hx) _ _
    · rw [Function.update_of_ne hxn, Function.update_self]

/-- The back link of the first node is cleared. -/
theorem clear_head (h : DoublyLinked next prev head tail (x :: l) e) (hx : x ∉ l) (c : Option α) :
    DoublyLinked next (Function.update prev x c) head tail (x :: l) c := by
  refine ⟨h.forward, ?_⟩
  have hback := h.backward
  rw [List.reverse_cons] at hback ⊢
  exact hback.update_last (by simpa using hx) c

/-- A list without its last node is linked again once the link to that node is cleared. -/
theorem pop_last (h : DoublyLinked next prev head tail (l ++ [p] ++ [x]) e) (hp : p ∉ l) :
    DoublyLinked (Function.update next p none) prev head (prev x) (l ++ [p]) e := by
  refine ⟨?_, ?_⟩
  · exact (LinkPath.concat_iff.mp h.forward).1.update_last hp none
  · have hback := h.backward
    rw [List.reverse_append] at hback
    exact hback.2

/-- A list without a node in the middle is linked again once its neighbours point to each other. -/
theorem remove (h : DoublyLinked next prev head tail (l₁ ++ [p] ++ x :: n :: l₂) e)
    (hd : (l₁ ++ [p] ++ x :: n :: l₂).Nodup) :
    DoublyLinked (Function.update next p (some n)) (Function.update prev n (some p)) head tail
      (l₁ ++ [p] ++ n :: l₂) e := by
  have hp : p ∉ l₁ ∧ p ∉ n :: l₂ := by grind
  have hn : n ∉ l₂ ∧ n ∉ l₁ ++ [p] := by grind
  refine ⟨?_, ?_⟩
  · obtain ⟨c, hleft, hright⟩ := LinkPath.append_iff.mp h.forward
    refine LinkPath.append_iff.mpr ⟨some n, hleft.update_last hp.1 (some n), ?_⟩
    have hrest : LinkPath next (some n) (n :: l₂) none := ⟨rfl, hright.2.2⟩
    exact hrest.update hp.2 (some n)
  · have hback := h.backward
    have hsplit : (l₁ ++ [p] ++ x :: n :: l₂).reverse = l₂.reverse ++ [n] ++ (x :: (l₁ ++ [p]).reverse) := by
      simp
    have hsplit' : (l₁ ++ [p] ++ n :: l₂).reverse = l₂.reverse ++ [n] ++ (l₁ ++ [p]).reverse := by simp
    rw [hsplit] at hback
    obtain ⟨c, hright, rfl, hleft⟩ := LinkPath.append_iff.mp hback
    rw [hsplit']
    refine LinkPath.append_iff.mpr ⟨some p, hright.update_last (by simpa using hn.1) (some p), ?_⟩
    have hstart := hleft.start (by simp)
    rw [hstart] at hleft
    simp only [List.reverse_append, List.reverse_cons, List.reverse_nil,
      List.nil_append, List.singleton_append, List.head?_cons] at hleft ⊢
    exact hleft.update (by simpa [or_comm] using hn.2) (some p)

end

end DoublyLinked
