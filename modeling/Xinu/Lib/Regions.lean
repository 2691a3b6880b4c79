import Mathlib.Algebra.BigOperators.Group.List.Basic
import Mathlib.Data.List.Pairwise
import Mathlib.Tactic.Linarith

/-!
# Lists of memory regions

A region is a first address and a length. A list of regions is separated if no region is empty, the
addresses increase and between two regions there is always a gap: such a list is the only way to
write down its addresses.
-/

namespace Regions

/-- The two regions share no address. -/
def Apart (b c : ℕ × ℕ) : Prop := b.1 + b.2 ≤ c.1 ∨ c.1 + c.2 ≤ b.1

/-- The first region ends before the second one starts, and does not touch it. -/
def Gap (b c : ℕ × ℕ) : Prop := b.1 + b.2 < c.1

/-- No region is empty, and each ends before the next one starts. -/
structure Separated (l : List (ℕ × ℕ)) : Prop where
  /-- No region is empty. -/
  pos : ∀ b ∈ l, 0 < b.2
  /-- There is a gap between each and the next ones. -/
  gap : l.Pairwise Gap

/-- An address lies in one of the regions. -/
def Covers (l : List (ℕ × ℕ)) (x : ℕ) : Prop := ∃ b ∈ l, b.1 ≤ x ∧ x < b.1 + b.2

/-- The number of addresses in the regions. -/
def size (l : List (ℕ × ℕ)) : ℕ := (l.map Prod.snd).sum

variable {l lo mid hi : List (ℕ × ℕ)} {b c r : ℕ × ℕ}

/-- Sharing no address is symmetric. -/
theorem Apart.symm (h : Apart b c) : Apart c b := Or.symm h

/-- Regions with a gap between them share no address. -/
theorem Gap.apart (h : Gap b c) : Apart b c := .inl (le_of_lt h)

/-- A part of a region shares no address with what the region shares none with. -/
theorem Apart.sub (h : Apart b c) (hlo : b.1 ≤ r.1) (hhi : r.1 + r.2 ≤ b.1 + b.2) : Apart r c := by
  unfold Apart at *
  omega

/-- Addresses of separated regions increase. -/
theorem Separated.ascending (h : Separated l) : l.Pairwise fun b c => b.1 < c.1 :=
  h.gap.imp fun hg => lt_of_le_of_lt (Nat.le_add_right _ _) hg

/-- Separated regions share no address. -/
theorem Separated.disjoint (h : Separated l) : l.Pairwise Apart := h.gap.imp Gap.apart

/-- The empty list of regions is separated. -/
theorem separated_nil : Separated [] := ⟨fun _ h => absurd h List.not_mem_nil, .nil⟩

/-- A separated list around one of its regions. -/
theorem separated_append_cons : Separated (lo ++ r :: hi) ↔
    Separated lo ∧ Separated hi ∧ 0 < r.2 ∧ (∀ b ∈ lo, Gap b r) ∧ ∀ c ∈ hi, Gap r c := by
  constructor
  · intro h
    obtain ⟨hlo, hr, hx⟩ := List.pairwise_append.mp h.gap
    obtain ⟨hrhi, hhi⟩ := List.pairwise_cons.mp hr
    refine ⟨⟨fun b hb => h.pos b (List.mem_append_left _ hb), hlo⟩,
      ⟨fun c hc => ?_, hhi⟩, ?_, fun b hb => ?_, hrhi⟩
    · exact h.pos c (List.mem_append_right _ (List.mem_cons_of_mem _ hc))
    · exact h.pos r (List.mem_append_right _ List.mem_cons_self)
    · exact hx b hb r List.mem_cons_self
  · rintro ⟨hlo, hhi, hr, hbr, hrc⟩
    refine ⟨fun b hb => ?_, List.pairwise_append.mpr ⟨hlo.gap, List.pairwise_cons.mpr ⟨hrc, hhi.gap⟩, ?_⟩⟩
    · rcases List.mem_append.mp hb with hb | hb
      · exact hlo.pos b hb
      rcases List.mem_cons.mp hb with rfl | hb
      · exact hr
      · exact hhi.pos b hb
    · intro b hb c hc
      have hg := hbr b hb
      rcases List.mem_cons.mp hc with rfl | hc
      · exact hg
      -- The region in the middle lies between the two.
      have hc := hrc c hc
      unfold Gap at *
      omega

/-- A separated list and its first region. -/
theorem separated_cons : Separated (r :: hi) ↔ Separated hi ∧ 0 < r.2 ∧ ∀ c ∈ hi, Gap r c := by
  rw [← List.nil_append (r :: hi), separated_append_cons]
  exact ⟨fun h => ⟨h.2.1, h.2.2.1, h.2.2.2.2⟩,
    fun h => ⟨separated_nil, h.1, h.2.1, fun b hb => absurd hb List.not_mem_nil, h.2.2⟩⟩

/-- Both parts of a separated list are separated. -/
theorem Separated.of_append (h : Separated (lo ++ hi)) : Separated lo ∧ Separated hi := by
  obtain ⟨h₁, h₂, -⟩ := List.pairwise_append.mp h.gap
  exact ⟨⟨fun b hb => h.pos b (List.mem_append_left _ hb), h₁⟩,
    ⟨fun b hb => h.pos b (List.mem_append_right _ hb), h₂⟩⟩

/-- A region gives way to a part of itself, or to nothing. -/
theorem Separated.shrink (h : Separated (lo ++ r :: hi)) (hlen : mid.length ≤ 1)
    (hmid : ∀ c ∈ mid, 0 < c.2 ∧ r.1 ≤ c.1 ∧ c.1 + c.2 ≤ r.1 + r.2) : Separated (lo ++ mid ++ hi) := by
  obtain ⟨hlo, hhi, hr, hbr, hrc⟩ := separated_append_cons.mp h
  match mid, hlen, hmid with
  | [], _, _ =>
    rw [List.append_nil]
    refine ⟨fun b hb => ?_, List.pairwise_append.mpr ⟨hlo.gap, hhi.gap, fun b hb c hc => ?_⟩⟩
    · exact (List.mem_append.mp hb).elim (hlo.pos b) (hhi.pos b)
    · have := hbr b hb
      have := hrc c hc
      unfold Gap at *
      omega
  | [c], _, hmid =>
    obtain ⟨hpos, hle, hend⟩ := hmid c List.mem_cons_self
    rw [List.append_assoc, List.singleton_append]
    refine separated_append_cons.mpr ⟨hlo, hhi, hpos, fun b hb => ?_, fun d hd => ?_⟩
    · have := hbr b hb
      unfold Gap at *
      omega
    · have := hrc d hd
      unfold Gap at *
      omega

/-- What shares no address with two regions that touch shares none with both as one. -/
theorem Apart.join (hb : Apart b r) (hc : Apart c r) (h : b.1 + b.2 = c.1) (hr : 0 < r.2) :
    Apart (b.1, b.2 + c.2) r := by
  unfold Apart at *
  dsimp only
  omega

/-- A separated list falls into the regions that begin before an address and those that do not. -/
theorem Separated.split (h : Separated l) (a : ℕ) :
    ∃ lo hi, l = lo ++ hi ∧ (∀ b ∈ lo, b.1 < a) ∧ ∀ c ∈ hi, ¬ c.1 < a := by
  induction l with
  | nil => exact ⟨[], [], rfl, fun b hb => absurd hb List.not_mem_nil, fun c hc => absurd hc List.not_mem_nil⟩
  | cons b l ih =>
    obtain ⟨hl, -, hgap⟩ := separated_cons.mp h
    by_cases hb : b.1 < a
    · obtain ⟨lo, hi, rfl, hlo, hhi⟩ := ih hl
      exact ⟨b :: lo, hi, rfl, List.forall_mem_cons.mpr ⟨hb, hlo⟩, hhi⟩
    · -- The blocks after this one lie still higher.
      refine ⟨[], b :: l, rfl, fun c hc => absurd hc List.not_mem_nil,
        List.forall_mem_cons.mpr ⟨hb, fun c hc => ?_⟩⟩
      have := hgap c hc
      unfold Gap at this
      omega

/-- No region has no address. -/
@[simp] theorem covers_nil {x : ℕ} : ¬ Covers [] x := fun ⟨_, hb, _⟩ => absurd hb List.not_mem_nil

/-- A list with a first region has its addresses, and those of the others. -/
@[simp] theorem covers_cons {x : ℕ} : Covers (b :: l) x ↔ (b.1 ≤ x ∧ x < b.1 + b.2) ∨ Covers l x := by
  unfold Covers
  simp only [List.mem_cons, exists_eq_or_imp]

/-- A list in two parts has the addresses of both. -/
@[simp] theorem covers_append {x : ℕ} : Covers (l ++ hi) x ↔ Covers l x ∨ Covers hi x := by
  unfold Covers
  simp only [List.mem_append, or_and_right, exists_or]

/-- The addresses of a list in two parts. -/
@[simp] theorem size_append : size (l ++ hi) = size l + size hi := by
  unfold size
  rw [List.map_append, List.sum_append]

/-- The addresses of a list with a first region. -/
@[simp] theorem size_cons : size (b :: l) = b.2 + size l := by
  unfold size
  rw [List.map_cons, List.sum_cons]

/-- An empty list has no address. -/
@[simp] theorem size_nil : size [] = 0 := rfl

/-- No more regions than addresses below the end of the last one. -/
theorem Separated.length_le {n : ℕ} (h : Separated l) (hn : ∀ b ∈ l, b.1 < n) : l.length ≤ n := by
  have hnodup : (l.map Prod.fst).Nodup := by
    refine List.pairwise_map.mpr (h.ascending.imp fun hlt => ?_)
    exact ne_of_lt hlt
  have hsub : (l.map Prod.fst) ⊆ List.range n := by
    intro a ha
    obtain ⟨b, hb, rfl⟩ := List.mem_map.mp ha
    exact List.mem_range.mpr (hn b hb)
  have hle := (List.subperm_of_subset hnodup hsub).length_le
  rwa [List.length_map, List.length_range] at hle

end Regions
