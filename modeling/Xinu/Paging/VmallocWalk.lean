import Xinu.Paging.VmallocMany

/-!
# The walk of `vmalloc` over the directory

The main loop of `vmalloc` in a laid out memory. For a request of less than one table it ends at the
first table with `Stops`, or at the first absent entry (`vmallocLoop_small`); a request of exactly
one table gets this search for entry 8 only (`vmallocLoop_table`); and a larger request that finds
nothing ends at the first absent entry (`vmallocLoop_many`).
-/

namespace Xinu

open FlatMemory Scan

/-- Memory after the entries of the `n` heap pages from `p` have been marked. -/
structure Marks (m m' : Mem) (d p n : ℕ) : Prop where
  /-- The pages lie in the heap, and have entries. -/
  heap : ∀ k < n, 8192 ≤ p + k ∧ HasPte m d (p + k)
  /-- Their entries are allocated, and otherwise the same. -/
  marked : ∀ k < n, m' (pteWord m d (p + k)) = { m (pteWord m d (p + k)) with avail := 3#3 }
  /-- Nothing else has changed. -/
  other : ∀ w, ¬ RangeWord m d p n w → m' w = m w

/-! ## One table -/

section

variable {m : Mem} {g : PageMap} {d n i : ℕ}

/-- Word `e` of the table of a present entry is the entry of page `e` of this table. -/
theorem tableOf_word {e : ℕ} (he : e < 1024) : tableOf m d i * 1024 + e = pteWord m d (i * 1024 + e) :=
  (pteWord_add he).symm

/-- The table of a present heap entry is mapped. -/
theorem tableOf_mapped (h : Layout m g) (hd : g.role d = .dir) (h8 : 8 ≤ i) (hi : i < g.len d) :
    Mapped (tableOf m d i * 1024) := by
  have := h.table_bounds (h.table_role hd h8 hi)
  rw [← tableOf] at this
  rw [mapped_iff]
  omega

/-- A page whose first entry exists is not free after entries have been marked. -/
theorem pageFree_of_setValid {lo k f : ℕ} (hf : PageFree (setValid m lo k) f) : PageFree m f := by
  unfold PageFree at hf ⊢
  rcases setValid_eq_or m lo k (f * MAX_PT_SIZE) with he | he <;> rw [he] at hf
  · exact hf
  · exact absurd hf (show (3#3 : BitVec 3) ≠ 0#3 by decide)

/-- The search in one table ends the walk exactly when the table `Stops`. -/
theorem searchTable_stops (h : Layout m g) (hd : g.role d = .dir) (hn : 1 ≤ n) (hn' : n ≤ 1024) (h8 : 8 ≤ i)
    (hi : i < g.len d) (counter : ℕ) :
    (Stops m d n i ∧ ∃ m' va, StopResult m d n i m' va ∧
      searchTable m (d * 1024) i (tableOf m d i * 1024) n 1024 0 counter = .done m' va) ∨
    (¬ Stops m d n i ∧ ∃ k, searchTable m (d * 1024) i (tableOf m d i * 1024) n 1024 0 counter =
      .next k) := by
  have hle := (h.dir d hd).len_le
  have hspec := searchTable_spec m (d * 1024) i (tableOf m d i * 1024) counter hn hn'
  generalize he : searchTable m (d * 1024) i (tableOf m d i * 1024) n 1024 0 counter = r at hspec ⊢
  cases hspec with
  | fit j hj hw hfirst =>
    rw [va_eq (by omega) (by omega)]
    exact .inl ⟨.inl ⟨j, hj, hw⟩, _, _, .fit j hj hw hfirst, rfl⟩
  | spill hnf hτ hne he =>
    change 0 < freeTail m d i at hτ
    change _ = if (m (d * 1024 + (i + 1))).pres = false then
        spillAbsent m (d * 1024) i (tableOf m d i * 1024) (1024 - freeTail m d i) (freeTail m d i) n
      else spillPresent m (d * 1024) i (tableOf m d i * 1024) (1024 - freeTail m d i) (freeTail m d i) n at he
    have hτ' := freeTail_le m d i
    have hmod := va_eq (i := i) (j := 1024 - freeTail m d i) (by omega) (by omega)
    have hsub : MAX_PT_SIZE - (1024 - freeTail m d i) = freeTail m d i := by
      simp only [MAX_PT_SIZE]
      omega
    cases hp : (m (d * 1024 + (i + 1))).pres with
    | false =>
      have hs : Spills m d n i := ⟨hnf, hτ, by omega, .inl hp⟩
      -- The loop over the pages looks at the system directory only, which is not free.
      have hsys : ¬ PageFree m PT_FRAME := by
        intro hf
        have := (h.pageFree_iff (h.role_page_ne_outside (p := 0) (by decide))).mp hf
        rw [add_zero, (h.role_system PT_FRAME).mpr (by omega)] at this
        cases this
      rw [if_pos hp] at he
      refine .inl ⟨.inr hs, _, _, .absent hs hp, ?_⟩
      rw [he, spillAbsent, hsub, hmod, if_neg (mt pageFree_of_setValid hsys)]
      unfold Entry.table
      rw [setValid_base]
      rfl
    | true =>
      have hi1 : i + 1 < g.len d := ((h.dir d hd).pres_iff (i + 1) (by omega)).mp hp
      have hmap : Mapped (m (d * 1024 + (i + 1))).table := tableOf_mapped h hd (by omega) hi1
      rw [if_neg (by rw [hp]; decide), spillPresent, if_pos hmap, hsub, hmod] at he
      by_cases hsum : freeTail m d i + freeHead m d (i + 1) n = n
      · have hs : Spills m d n i := ⟨hnf, hτ, by omega, .inr hsum⟩
        have hhead : freeHead m d (i + 1) n = n - freeTail m d i := by omega
        refine .inl ⟨.inr hs, _, _, .present hs hp, ?_⟩
        rw [he, ← hhead]
        exact if_pos hsum
      · refine .inr ⟨?_, freeTail m d i, by rw [he]; exact if_neg hsum⟩
        rintro (hf | ⟨-, -, -, ha | hsum'⟩)
        · exact hnf hf
        · rw [hp] at ha
          cases ha
        · exact hsum hsum'
  | miss hnf hτ k =>
    refine .inr ⟨?_, k, rfl⟩
    rintro (hf | ⟨-, hτ', hi', -⟩)
    · exact hnf hf
    · change freeTail m d i = 0 ∨ i = 1023 at hτ
      omega

end

/-! ## The loops -/

section

variable {c : Cpu} {g : PageMap} {d u : ℕ} (h : Layout c.mem g) (hd : g.role d = .dir)

include h hd

/-- One turn at a present entry for a request of at most one table. -/
theorem vmallocLoop_present {q n frames i : ℕ} (fuel counter : ℕ) (hn : 1 ≤ n) (hn' : n ≤ 1024)
    (hq : q = 0 ∧ frames = n ∨ q = 1 ∧ frames = 0 ∧ n = 1024) (h8 : 8 ≤ i) (hi : i < g.len d) :
    (Stops c.mem d n i ∧ ∃ m' va, StopResult c.mem d n i m' va ∧
      vmallocLoop u (d * 1024) q (fuel + 1) c i frames counter =
        .ok (some va, (c.withMem m').writeCr3 u)) ∨
    (¬ Stops c.mem d n i ∧ ∃ k, vmallocLoop u (d * 1024) q (fuel + 1) c i frames counter =
      vmallocLoop u (d * 1024) q fuel c (i + 1) n k) := by
  have hle := (h.dir d hd).len_le
  have hdb := h.dir_bounds hd
  -- The entry and the table it names are mapped, so neither read runs wild.
  have hpde : Mapped (d * 1024 + i) := by
    rw [mapped_iff]
    omega
  have hpres : (c.mem (d * 1024 + i)).pres = true := ((h.dir d hd).pres_iff i (by omega)).mpr hi
  have hmap : Mapped (c.mem (d * 1024 + i)).table := tableOf_mapped h hd h8 hi
  have hframes : frames + q * MAX_PT_SIZE = n := by
    simp only [MAX_PT_SIZE]
    omega
  have hne : i ≠ MAX_PT_SIZE := by
    simp only [MAX_PT_SIZE]
    omega
  -- The guards of the turn go the way of a present entry and of one table.
  rw [vmallocLoop]
  dsimp only
  rw [if_neg hne, if_neg (not_not.mpr hpde), if_neg (by rw [hpres]; decide), if_neg (not_not.mpr hmap),
    if_pos (by omega), hframes]
  have htable : (c.mem (d * 1024 + i)).table = tableOf c.mem d i * 1024 := rfl
  -- The search of the table ends the walk, or leads to the next entry.
  rcases searchTable_stops h hd hn hn' h8 hi counter with ⟨hs, m', va, hr, he⟩ | ⟨hs, k, he⟩
  · refine .inl ⟨hs, m', va, hr, ?_⟩
    rw [htable, he]
    rfl
  · refine .inr ⟨hs, k, ?_⟩
    rw [htable, he]

/-- How the loop ends at the first absent entry, or behind the last entry. -/
def loopEnd (u d q frames : ℕ) (c : Cpu) (len : ℕ) : Res (Option ℕ × Cpu) :=
  if len = 1024 then .ok (none, c.writeCr3 u)
  else if q = 0 ∨ len + q + (if frames > 0 then 1 else 0) < 1024 then freshTables u (d * 1024) q c len frames
  else .ok (none, c.writeCr3 u)

/-- The turn of the loop at the first absent entry, or behind the last entry. -/
theorem vmallocLoop_end (q frames fuel counter : ℕ) :
    vmallocLoop u (d * 1024) q (fuel + 1) c (g.len d) frames counter = loopEnd u d q frames c (g.len d) := by
  have hle := (h.dir d hd).len_le
  have hdb := h.dir_bounds hd
  rw [vmallocLoop, loopEnd]
  dsimp only [MAX_PT_SIZE]
  by_cases hlen : g.len d = 1024
  · rw [if_pos hlen, if_pos hlen]
  · have hpde : Mapped (d * 1024 + g.len d) := by
      rw [mapped_iff]
      omega
    have hpres : (c.mem (d * 1024 + g.len d)).pres = false := by
      have := mt ((h.dir d hd).pres_iff (g.len d) (by omega)).mp (lt_irrefl _)
      simpa using this
    rw [if_neg hlen, if_neg hlen, if_neg (not_not.mpr hpde), if_pos hpres]

/-- The walk for a request of less than one table. With enough fuel it ends at the first table that
`Stops`, or at the end of the present entries. -/
theorem vmallocLoop_small {n : ℕ} (hn : 1 ≤ n) (hn' : n < 1024) :
    ∀ fuel i counter, 8 ≤ i → i ≤ g.len d → (∀ j, 8 ≤ j → j < i → ¬ Stops c.mem d n j) →
      (vmallocLoop u (d * 1024) 0 fuel c i n counter = .hang ∧ fuel + i ≤ 1024) ∨
      (∃ i₀ m' va, i₀ < g.len d ∧ FirstStop c.mem d n i₀ ∧ StopResult c.mem d n i₀ m' va ∧
        vmallocLoop u (d * 1024) 0 fuel c i n counter = .ok (some va, (c.withMem m').writeCr3 u)) ∨
      ((∀ j, 8 ≤ j → j < g.len d → ¬ Stops c.mem d n j) ∧
        vmallocLoop u (d * 1024) 0 fuel c i n counter = loopEnd u d 0 n c (g.len d)) := by
  have hle := (h.dir d hd).len_le
  intro fuel
  -- The induction is on the fuel, and every turn raises `i`.
  induction fuel with
  | zero => exact fun i counter _ hi _ => .inl ⟨rfl, by omega⟩
  | succ fuel ih =>
    intro i counter h8 hi hno
    rcases Nat.lt_or_ge i (g.len d) with hlt | hge
    · rcases vmallocLoop_present h hd (u := u) fuel counter hn hn'.le
          (.inl ⟨rfl, rfl⟩) h8 hlt with ⟨hs, m', va, hr, he⟩ | ⟨hs, k, he⟩
      · refine .inr (.inl ⟨i, m', va, hlt, ⟨h8, by omega, ?_, hs, hno⟩, hr, he⟩)
        exact ((h.dir d hd).pres_iff i (by omega)).mpr hlt
      · rw [he]
        have hno' : ∀ j, 8 ≤ j → j < i + 1 → ¬ Stops c.mem d n j := by
          intro j hj hji
          rcases Nat.lt_succ_iff_lt_or_eq.mp hji with hji | rfl
          · exact hno j hj hji
          · exact hs
        rcases ih (i + 1) k (by omega) hlt hno' with ⟨hh, hf⟩ | hr | hr
        · exact .inl ⟨hh, by omega⟩
        · exact .inr (.inl hr)
        · exact .inr (.inr hr)
    · obtain rfl : i = g.len d := by omega
      exact .inr (.inr ⟨hno, vmallocLoop_end h hd _ _ _ _⟩)

/-- The walk for a request of many tables whose search finds nothing. -/
theorem vmallocLoop_many {n q frames : ℕ} (hn : n = frames + q * 1024) (hf : frames < 1024) (h1 : 1024 < n)
    (h32 : n < 2 ^ 32) (hmiss : ManyMiss c.mem d n) :
    ∀ fuel i counter, 8 ≤ i → i ≤ g.len d → (i = 8 ∨ counter = 0) →
      (vmallocLoop u (d * 1024) q fuel c i frames counter = .hang ∧ fuel + i ≤ 1024 + tablesFor n + 2) ∨
      vmallocLoop u (d * 1024) q fuel c i frames counter = loopEnd u d q frames c (g.len d) := by
  have hle := (h.dir d hd).len_le
  have hdb := h.dir_bounds hd
  have hlen := h.presentEntries_eq hd
  -- The induction is on the fuel.
  intro fuel
  induction fuel with
  | zero => exact fun i counter _ hi _ => .inl ⟨rfl, by omega⟩
  | succ fuel ih =>
    intro i counter h8 hi hc
    rcases Nat.lt_or_ge i (g.len d) with hlt | hge
    · have hpde : Mapped (d * 1024 + i) := by
        rw [mapped_iff]
        omega
      have hpres : (c.mem (d * 1024 + i)).pres = true := ((h.dir d hd).pres_iff i (by omega)).mpr hlt
      have hmap : Mapped (c.mem (d * 1024 + i)).table := tableOf_mapped h hd h8 hlt
      have hne : i ≠ MAX_PT_SIZE := by
        simp only [MAX_PT_SIZE]
        omega
      -- The counter does not begin with a free entry that an earlier table has counted.
      have hfirst : counter = 0 ∨ ¬ FreeEntry c.mem d i 0 := by
        rcases hc with rfl | hc
        · exact .inr (hmiss.first (by omega))
        · exact .inl hc
      rw [vmallocLoop]
      dsimp only
      rw [if_neg hne, if_neg (not_not.mpr hpde), if_neg (by rw [hpres]; decide),
        if_neg (not_not.mpr hmap), if_neg (by omega)]
      -- The search over many tables finds nothing, whatever the counter.
      have hsearch := manySearch_miss h hd hn hf (by omega) h32 hmiss h8 hlt fuel counter 0 hfirst
      change manySearch c.mem (d * 1024) i q frames fuel 0 counter 0 (c.mem (d * 1024 + i)).table = _ ∧ _ ∨
        ∃ va', manySearch c.mem (d * 1024) i q frames fuel 0 counter 0 (c.mem (d * 1024 + i)).table = _
        at hsearch
      rcases hsearch with ⟨hh, hfu⟩ | ⟨va', hok⟩
      · rw [hh, Res.hang_bind]
        exact .inl ⟨rfl, by omega⟩
      · rw [hok, Res.ok_bind, if_neg (by simp only [MAX_PT_SIZE]; omega)]
        rcases ih (i + 1) 0 (by omega) hlt (.inr rfl) with ⟨hh, hfu⟩ | he
        · exact .inl ⟨hh, by omega⟩
        · exact .inr he
    -- Behind the last present entry the walk is at its end.
    · obtain rfl : i = g.len d := by omega
      exact .inr (vmallocLoop_end h hd _ _ _ _)

end

end Xinu
