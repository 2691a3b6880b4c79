import Xinu.Paging.VmallocFresh

/-!
# The search of `vmalloc` over many tables

A request of more than one table is looked for over consecutive present tables. This search is right
only as long as it finds nothing: it reads `counter` before setting it, takes the free entries that
end the last present table for a complete hit, and goes on with the next directory entry after a
hit. `ManyMiss` is the condition under which it passes over every present table with a counter that
is zero (`manySearch_miss`), so that the request is served by fresh tables alone.

Whatever the search does, `vmalloc` never takes a directory entry of the caller away, so an address
that it returns for such a request is one of a fresh table (`vmallocLoop_sound`).
-/

namespace Xinu

open FlatMemory Scan

/-- The number of tables that `n` pages need. -/
def tablesFor (n : ℕ) : ℕ := (n + 1023) / 1024

/-- Page `vp` of the heap is not allocated. -/
def FreePage (m : Mem) (d vp : ℕ) : Prop := FreeEntry m d (vp / 1024) (vp % 1024)

/-- The search over many tables finds nothing: the first heap page is allocated, so that the initial value of
`counter` does not matter; from every present table on, a table whose last page is allocated comes before the
search runs out of tables; and no `n` consecutive pages of the present tables are free. -/
structure ManyMiss (m : Mem) (d n : ℕ) : Prop where
  /-- The first heap page is allocated, if it has an entry. -/
  first : 8 < presentEntries m d → ¬ FreeEntry m d 8 0
  /-- From every present table on, a table whose last page is allocated comes before the search runs out of
  tables. -/
  ends : ∀ i, 8 ≤ i → i < presentEntries m d →
    ∃ k < tablesFor n, i + k < presentEntries m d ∧ ¬ FreeEntry m d (i + k) 1023
  /-- No `n` pages of the present tables are free in a row. -/
  noRun : ∀ p, 8192 ≤ p → p + n ≤ presentEntries m d * 1024 → ¬ Window (FreePage m d) n p

/-! ## One table -/

/-- The `c` pages below page `vp` are free, and none of them is below `lo`. -/
def RunBelow (m : Mem) (d lo c vp : ℕ) : Prop := lo + c ≤ vp ∧ ∀ x, vp - c ≤ x → x < vp → FreePage m d x

/-- Entry `k` of table `i` is page `i * 1024 + k`. -/
theorem freePage_add {m : Mem} {d i k : ℕ} (hk : k < 1024) :
    FreePage m d (i * 1024 + k) ↔ FreeEntry m d i k := by
  unfold FreePage
  rw [show (i * 1024 + k) / 1024 = i by omega, show (i * 1024 + k) % 1024 = k by omega]

/-- The scan of a table that completes no run of `total` pages: the counter at its end counts the
run that ends the table. -/
theorem scanTable_miss {m : Mem} {d i lo total : ℕ} (htotal : 1 ≤ total) (h32 : total < 2 ^ 32)
    (hno : ∀ p, lo ≤ p → p + total ≤ (i + 1) * 1024 → ¬ Window (FreePage m d) total p) :
    ∀ r k c, k + r = 1024 → 0 < r → c < total → RunBelow m d lo c (i * 1024 + k) →
      (scanTable m (tableOf m d i * 1024) total r k c).1 < total ∧
      RunBelow m d lo (scanTable m (tableOf m d i * 1024) total r k c).1 ((i + 1) * 1024) ∧
      ((scanTable m (tableOf m d i * 1024) total r k c).1 = 0 ↔ ¬ FreeEntry m d i 1023) := by
  -- The induction is on the entries of the table that are left.
  intro r
  induction r with
  | zero => exact fun k c _ hr => absurd hr (lt_irrefl 0)
  | succ r ih =>
    intro k c hk _ hc hrun
    rw [scanTable]
    by_cases hfree : FreeEntry m d i k
    · -- The run grows by one entry, and it is still shorter than the request.
      rw [if_pos (show Unalloc m (tableOf m d i * 1024 + k) from hfree),
        Nat.mod_eq_of_lt (show c + 1 < 2 ^ 32 by omega)]
      have hrun' : RunBelow m d lo (c + 1) (i * 1024 + (k + 1)) := by
        have hlo := Nat.succ_le_succ hrun.1
        refine ⟨by rwa [← add_assoc], fun x h₁ h₂ => ?_⟩
        rw [← add_assoc] at h₁ h₂
        rcases Nat.lt_succ_iff_lt_or_eq.mp h₂ with hx | rfl
        · exact hrun.2 x (by rwa [Nat.succ_sub_succ] at h₁) hx
        · exact (freePage_add (by omega)).mpr hfree
      -- A run of `total` entries would be a place for the request.
      have hne : c + 1 ≠ total := by
        intro he
        have hlo := hrun'.1
        refine hno (i * 1024 + (k + 1) - total) (by omega) (by omega) fun x hx => ?_
        exact hrun'.2 _ (by omega) (by omega)
      rw [if_neg hne]
      rcases Nat.eq_zero_or_pos r with rfl | hr
      · rw [scanTable]
        obtain rfl : k = 1023 := by omega
        rw [show i * 1024 + (1023 + 1) = (i + 1) * 1024 by ring] at hrun'
        exact ⟨by omega, hrun', by simp [hfree]⟩
      · exact ih (k + 1) (c + 1) (by omega) hr (by omega) hrun'
    -- An allocated entry ends the run, so the counter is 0 again.
    · rw [if_neg (show ¬ Unalloc m (tableOf m d i * 1024 + k) from hfree), if_neg (by omega)]
      have hrun' : RunBelow m d lo 0 (i * 1024 + (k + 1)) :=
        ⟨by have := hrun.1; omega, fun x h₁ h₂ => absurd h₂ (not_lt.mpr h₁)⟩
      rcases Nat.eq_zero_or_pos r with rfl | hr
      · rw [scanTable]
        obtain rfl : k = 1023 := by omega
        rw [show i * 1024 + (1023 + 1) = (i + 1) * 1024 by ring] at hrun'
        exact ⟨by omega, hrun', by simp [hfree]⟩
      · exact ih (k + 1) 0 (by omega) hr (by omega) hrun'

/-- A table whose first entry is allocated hides the value that the counter had before. -/
theorem scanTable_first {m : Mem} {d i total : ℕ} (htotal : 1 ≤ total)
    (hfirst : ¬ FreeEntry m d i 0) (c : ℕ) :
    scanTable m (tableOf m d i * 1024) total 1024 0 c =
      scanTable m (tableOf m d i * 1024) total 1024 0 0 := by
  have hf : ¬ Unalloc m (tableOf m d i * 1024 + 0) := hfirst
  have hstep : ∀ c, scanTable m (tableOf m d i * 1024) total 1024 0 c =
      scanTable m (tableOf m d i * 1024) total 1023 (0 + 1) 0 := by
    intro c
    rw [scanTable, if_neg hf, if_neg (by omega)]
  rw [hstep c, hstep 0]

/-! ## The search -/

section

variable {m : Mem} {g : PageMap} {d n q frames : ℕ}

/-- The number of tables that the search may use. -/
theorem tables_eq (hn : n = frames + q * 1024) (hf : frames < 1024) :
    q + (if frames > 0 then 1 else 0) = tablesFor n := by
  unfold tablesFor
  split_ifs <;> omega

/-- From a present table on there is a first one whose last page is allocated, among those that the
search may use. -/
theorem ManyMiss.first_full (h : Layout m g) (hd : g.role d = .dir) (hmiss : ManyMiss m d n) {i : ℕ}
    (h8 : 8 ≤ i) (hi : i < g.len d) :
    ∃ k < tablesFor n, i + k < g.len d ∧ ¬ FreeEntry m d (i + k) 1023 ∧
      ∀ k' < k, FreeEntry m d (i + k') 1023 := by
  have hlen := h.presentEntries_eq hd
  have hex : ∃ k, k < tablesFor n ∧ i + k < g.len d ∧ ¬ FreeEntry m d (i + k) 1023 := by
    obtain ⟨k, hk⟩ := hmiss.ends i h8 (by rw [hlen]; exact hi)
    rw [hlen] at hk
    exact ⟨k, hk⟩
  classical
  obtain ⟨h₁, h₂, h₃⟩ := Nat.find_spec hex
  refine ⟨Nat.find hex, h₁, h₂, h₃, fun k' hk' => ?_⟩
  by_contra hfree
  exact Nat.find_min hex hk' ⟨by omega, by omega, hfree⟩

/-- The search comes to the first table whose last page is allocated, and its counter is zero
there. By induction on the fuel: each table before it ends with a free page. -/
theorem manySearch_run (h : Layout m g) (hd : g.role d = .dir) (hn : n = frames + q * 1024)
    (hf : frames < 1024) (h1 : 1 ≤ n) (h32 : n < 2 ^ 32) {i k₀ : ℕ} (h8 : 8 ≤ i)
    (hno : ∀ k, i + k < g.len d → ∀ p, i * 1024 ≤ p → p + n ≤ (i + k + 1) * 1024 →
      ¬ Window (FreePage m d) n p)
    (hk₀ : k₀ < tablesFor n) (hlen₀ : i + k₀ < g.len d) (hlast₀ : ¬ FreeEntry m d (i + k₀) 1023)
    (hmin : ∀ k' < k₀, FreeEntry m d (i + k') 1023) (fuel : ℕ) : ∀ j c va, j ≤ k₀ → c < n →
      RunBelow m d (i * 1024) c ((i + j) * 1024) →
      (manySearch m (d * 1024) i q frames fuel j c va (tableOf m d (i + j) * 1024) = .hang ∧
        fuel ≤ k₀ - j + 1) ∨
      ∃ va', manySearch m (d * 1024) i q frames fuel j c va (tableOf m d (i + j) * 1024) = .ok (0, va') := by
  have hle := (h.dir d hd).len_le
  have htables := tables_eq hn hf
  induction fuel with
  | zero => exact fun j c va _ _ _ => .inl ⟨rfl, by omega⟩
  | succ fuel ih =>
    intro j c va hj hc hrun
    have hmap : Mapped (tableOf m d (i + j) * 1024) := by
      rw [mapped_iff]
      have := h.table_bounds (h.table_role hd (i := i + j) (by omega) (by omega))
      rw [← tableOf] at this
      omega
    obtain ⟨hlt, hrun', hzero⟩ := scanTable_miss h1 h32
      (hno j (by omega)) 1024 0 c (by omega) (by omega) hc (by simpa using hrun)
    rw [manySearch, htables, if_pos (by omega), if_pos hmap]
    simp only [← hn, MAX_PT_SIZE]
    rcases Nat.lt_or_ge j k₀ with hlt₀ | hge₀
    · -- The table ends with a free page, and the next one is present.
      have hpos : (scanTable m (tableOf m d (i + j) * 1024) n 1024 0 c).1 > 0 := by
        have := mt hzero.mp (not_not.mpr (hmin j hlt₀))
        omega
      have hpres : (m (d * 1024 + (i + (j + 1)))).pres = true :=
        ((h.dir d hd).pres_iff _ (by omega)).mpr (by omega)
      rw [if_pos (.inl hpos), if_pos (by omega), if_neg (by rw [hpres]; decide)]
      rcases ih (j + 1) _ _ (by omega) hlt (by rwa [show i + (j + 1) = i + j + 1 by omega]) with
        ⟨hh, hfu⟩ | hok
      · exact .inl ⟨hh, by omega⟩
      · exact .inr hok
    · -- The table ends with an allocated page, and the search is over.
      obtain rfl : j = k₀ := by omega
      have h0 := hzero.mpr hlast₀
      rw [h0, if_neg (by omega)]
      cases fuel with
      | zero => exact .inl ⟨rfl, by omega⟩
      | succ fuel =>
        rw [manySearch, htables, if_neg (lt_irrefl _)]
        exact .inr ⟨va, rfl⟩

/-- A first page that is allocated hides the value that the counter had before the search. -/
theorem manySearch_first (hn : n = frames + q * 1024) (hf : frames < 1024) (h1 : 1 ≤ n) {i : ℕ}
    (hfirst : ¬ FreeEntry m d i 0) (fuel c va : ℕ) :
    manySearch m (d * 1024) i q frames fuel 0 c va (tableOf m d i * 1024) =
      manySearch m (d * 1024) i q frames fuel 0 0 va (tableOf m d i * 1024) := by
  cases fuel with
  | zero => rfl
  | succ fuel =>
    have hpos : 0 < tablesFor n := by
      unfold tablesFor
      omega
    have hscan : scanTable m (tableOf m d i * 1024) (frames + q * MAX_PT_SIZE) MAX_PT_SIZE 0 c =
        scanTable m (tableOf m d i * 1024) (frames + q * MAX_PT_SIZE) MAX_PT_SIZE 0 0 :=
      scanTable_first (hn ▸ h1) hfirst c
    conv_lhs => rw [manySearch]
    conv_rhs => rw [manySearch]
    rw [hscan, tables_eq hn hf, if_pos hpos, if_pos hpos]

/-- The search from a present table ends with a counter that is zero, unless its fuel is used up. -/
theorem manySearch_miss (h : Layout m g) (hd : g.role d = .dir) (hn : n = frames + q * 1024)
    (hf : frames < 1024) (h1 : 1 ≤ n) (h32 : n < 2 ^ 32) (hmiss : ManyMiss m d n) {i : ℕ} (h8 : 8 ≤ i)
    (hi : i < g.len d) (fuel c va : ℕ) (hc : c = 0 ∨ ¬ FreeEntry m d i 0) :
    (manySearch m (d * 1024) i q frames fuel 0 c va (tableOf m d i * 1024) = .hang ∧
      fuel ≤ tablesFor n + 1) ∨
    ∃ va', manySearch m (d * 1024) i q frames fuel 0 c va (tableOf m d i * 1024) = .ok (0, va') := by
  have hlen := h.presentEntries_eq hd
  have hno : ∀ k, i + k < g.len d → ∀ p, i * 1024 ≤ p → p + n ≤ (i + k + 1) * 1024 →
      ¬ Window (FreePage m d) n p := by
    intro k hk p h₁ h₂
    exact hmiss.noRun p (by omega) (hlen ▸ le_trans h₂ (Nat.mul_le_mul_right _ hk))
  obtain ⟨k₀, hk₀, hlen₀, hlast₀, hmin⟩ := hmiss.first_full h hd h8 hi
  have hrun : RunBelow m d (i * 1024) 0 ((i + 0) * 1024) :=
    ⟨by omega, fun x h₁ h₂ => absurd h₂ (by omega)⟩
  have hzero := manySearch_run h hd hn hf h1 h32 h8 hno hk₀ hlen₀ hlast₀ hmin fuel 0 0 va
    (Nat.zero_le _) (by omega) hrun
  have hsame : manySearch m (d * 1024) i q frames fuel 0 c va (tableOf m d i * 1024) =
      manySearch m (d * 1024) i q frames fuel 0 0 va (tableOf m d i * 1024) := by
    rcases hc with rfl | hfirst
    · rfl
    · exact manySearch_first hn hf h1 hfirst fuel c va
  rw [hsame]
  rcases hzero with ⟨hh, hfu⟩ | hok
  · exact .inl ⟨hh, by omega⟩
  · exact .inr hok

end

/-! ## Addresses for large requests -/

/-- The directory in frame `d` is no free page, and every entry present in `m₀` still is. -/
def KeepsDir (m₀ m : Mem) (d : ℕ) : Prop :=
  ¬ PageFree m d ∧ ∀ j < 1024, (m₀ (d * 1024 + j)).pres = true → (m (d * 1024 + j)).pres = true

/-- The page that the search for one free page finds is free. -/
theorem firstFreePage_free {m : Mem} {p : ℕ} (h : firstFreePage m = some p) : PageFree m (PT_FRAME + p) := by
  unfold firstFreePage at h
  simpa using List.find?_some h

namespace KeepsDir

variable {m₀ m : Mem} {d : ℕ}

/-- Marking entries keeps the directory. -/
theorem setValid (h : KeepsDir m₀ m d) (lo n : ℕ) : KeepsDir m₀ (Xinu.setValid m lo n) d := by
  refine ⟨fun hf => ?_, fun j hj hp => ?_⟩
  · unfold PageFree at hf
    rcases setValid_eq_or m lo n (d * MAX_PT_SIZE) with he | he <;> rw [he] at hf
    · exact h.1 hf
    · exact absurd hf (show (3#3 : BitVec 3) ≠ 0#3 by decide)
  · rw [setValid_pres]
    exact h.2 j hj hp

/-- A new table in a free page keeps the directory, wherever its entry is. -/
theorem newTable (h : KeepsDir m₀ m d) {pde f : ℕ} (hf : PageFree m f) :
    KeepsDir m₀ (Xinu.newTable m pde f) d := by
  have hdf : d ≠ f := fun he => h.1 (he ▸ hf)
  have hout : ∀ j < 1024, d * 1024 + j < f * 1024 ∨ f * 1024 + 1024 ≤ d * 1024 + j := by
    intro j hj
    omega
  have hcell : ∀ j < 1024, Xinu.newTable m pde f (d * 1024 + j) = pdeTable f ∨
      Xinu.newTable m pde f (d * 1024 + j) = m (d * 1024 + j) := by
    intro j hj
    rcases eq_or_ne (d * 1024 + j) pde with rfl | hne
    · exact .inl (newTable_pde (hout j hj))
    · exact .inr (newTable_other (hout j hj) hne)
  refine ⟨fun hfree => ?_, fun j hj hp => ?_⟩
  · have h0 := hcell 0 (by decide)
    rw [add_zero] at h0
    unfold PageFree at hfree
    simp only [MAX_PT_SIZE] at hfree
    rcases h0 with he | he <;> rw [he] at hfree
    · exact absurd hfree (show (3#3 : BitVec 3) ≠ 0#3 by decide)
    · exact h.1 hfree
  · rcases hcell j hj with he | he <;> rw [he]
    · rfl
    · exact h.2 j hj hp

/-- A table for an absent entry keeps the directory. -/
theorem ensureTable (h : KeepsDir m₀ m d) (pde : ℕ) : KeepsDir m₀ (Xinu.ensureTable m pde) d := by
  unfold Xinu.ensureTable
  split_ifs
  · cases hp : firstFreePage m with
    | some p => exact h.newTable (firstFreePage_free hp)
    | none => exact h
  · exact h

/-- The loop that marks the tables of a hit keeps the directory. -/
theorem markTables {pd fuel i counter : ℕ} {r : Mem × ℕ} (h : KeepsDir m₀ m d)
    (hr : Xinu.markTables pd fuel m i counter = .ok r) : KeepsDir m₀ r.1 d := by
  induction fuel generalizing m i counter with
  | zero => cases hr
  | succ fuel ih =>
    rw [Xinu.markTables] at hr
    dsimp only at hr
    split_ifs at hr
    · exact ih ((h.ensureTable _).setValid _ _) hr
    · injection hr with hr
      rw [← hr]
      exact h

end KeepsDir

/-- An address returned for more than one table is that of fresh tables in directory entries that
were absent. -/
theorem vmallocLoop_sound {m₀ : Mem} {u d q : ℕ} (hq : 1 ≤ q) :
    ∀ (fuel : ℕ) (c : Cpu) (i frames counter va : ℕ) (c' : Cpu), KeepsDir m₀ c.mem d → frames ≤ 1024 →
      ¬ (q = 1 ∧ frames = 0) →
      vmallocLoop u (d * 1024) q fuel c i frames counter = .ok (some va, c') →
      ∃ i₀ s m need, va = i₀ * 1024 * 4096 ∧ need = q + (if frames > 0 then 1 else 0) ∧ i₀ + need ≤ 1024 ∧
        s + need ≤ 1024 ∧ (m₀ (d * 1024 + i₀)).pres = false ∧
        FreshTables m c'.mem d i₀ (PT_FRAME + s) need frames := by
  intro fuel
  induction fuel with
  | zero =>
    intro c i frames counter va c' _ _ _ h
    cases h
  | succ fuel ih =>
    intro c i frames counter va c' hk hf hne h
    rw [vmallocLoop] at h
    dsimp only at h
    by_cases h1024 : i = MAX_PT_SIZE
    · rw [if_pos h1024] at h
      injection h with h
      injection h with h
      cases h
    rw [if_neg h1024] at h
    by_cases hmap : Mapped (d * 1024 + i)
    swap
    · rw [if_pos hmap] at h
      cases h
    rw [if_neg (not_not.mpr hmap)] at h
    by_cases hpres : (c.mem (d * 1024 + i)).pres = false
    · rw [if_pos hpres] at h
      by_cases hroom : q = 0 ∨ i + q + (if frames > 0 then 1 else 0) < MAX_PT_SIZE
      · -- An absent entry with room behind it: the address is that of fresh tables.
        rw [if_pos hroom] at h
        have hroom' : i + (q + if frames > 0 then 1 else 0) < 1024 := by
          rcases hroom with hq0 | hlt
          · omega
          · rwa [← add_assoc]
        rcases freshTables_spec u c (q := q) (i := i) rfl (by omega) hf hroom'.le hk.1 with
          ⟨s, m', hs, -, hfresh, he⟩ | ⟨-, he⟩
        · rw [he] at h
          injection h with h
          injection h with hva hc'
          injection hva with hva
          refine ⟨i, s, c.mem, _, hva.symm, rfl, hroom'.le, hs, ?_, by rw [← hc']; exact hfresh⟩
          by_contra hp
          rw [hk.2 i (by omega) (by simpa using hp)] at hpres
          cases hpres
        · rw [he] at h
          injection h with h
          injection h with h
          cases h
      · rw [if_neg hroom] at h
        injection h with h
        injection h with h
        cases h
    · -- A present entry: whatever the search marks, the directory is kept, and the loop goes on.
      rw [if_neg hpres] at h
      split_ifs at h with hmt hone
      · exact absurd hone (by omega)
      · obtain ⟨r, -, h⟩ := Res.bind_eq_ok h
        split_ifs at h with htotal
        · obtain ⟨t, ht, h⟩ := Res.bind_eq_ok h
          exact ih _ _ _ _ _ _ ((hk.setValid _ _).markTables ht) hf hne h
        · exact ih _ _ _ _ _ _ hk hf hne h

end Xinu
