import Xinu.Paging.VmallocSearch

/-!
# The fresh tables of `vmalloc`

At an absent directory entry `vmalloc` looks for a run of free pages of the area and turns them into
the tables of that entry and its successors. `freshTables_spec` gives the memory that results
(`FreshTables`); it needs only that the directory itself is not a free page, so it also holds where
the layout is already broken. In a laid out memory the new tables keep the layout
(`FreshTables.layout`).
-/

namespace Xinu

open FlatMemory Scan

/-- The entry that `vmalloc` leaves in a page that it allocates. -/
def pteAlloc : Entry := { pteEmpty with avail := 3#3 }

/-- Memory after the `need` pages from `f` have become the tables of the directory entries from `i`,
with all their pages allocated but those from `frames > 0` on in the last table. -/
structure FreshTables (m m' : Mem) (d i f need frames : ℕ) : Prop where
  /-- The directory entries point at the tables. -/
  pde : ∀ k < need, m' (d * 1024 + (i + k)) = pdeTable (f + k)
  /-- The entries of the tables are allocated, but for those behind the block. -/
  pte : ∀ k < need, ∀ e < 1024, m' ((f + k) * 1024 + e) =
    if frames > 0 ∧ k + 1 = need ∧ frames ≤ e then pteEmpty else pteAlloc
  /-- Nothing else has changed. -/
  other : ∀ w, (∀ k < need, w ≠ d * 1024 + (i + k)) → (w / 1024 < f ∨ f + need ≤ w / 1024) → m' w = m w

/-- The number of pages that the new tables leave allocated. -/
def freshPages (need frames : ℕ) : ℕ := if frames > 0 then (need - 1) * 1024 + frames else need * 1024

/-- One turn of the loop that makes the tables. -/
def freshTable (m : Mem) (pde f n : ℕ) : Mem := setValid (newTable m pde f) (f * 1024) n

/-- An entry of the new table. -/
theorem freshTable_pte {m : Mem} {pde f n e : ℕ} (he : e < 1024) :
    freshTable m pde f n (f * 1024 + e) = if e < n then pteAlloc else pteEmpty := by
  have hw : newTable m pde f (f * 1024 + e) = pteEmpty := newTable_of_mem (by omega) (by omega)
  unfold freshTable
  split_ifs with hn
  · rw [setValid_of_mem (by omega) (by omega), hw]
    rfl
  · rw [setValid_of_not_mem (by omega), hw]

/-- The directory entry of the new table. -/
theorem freshTable_pde {m : Mem} {pde f n : ℕ} (hn : n ≤ 1024) (h : pde / 1024 ≠ f) :
    freshTable m pde f n pde = pdeTable f := by
  rw [freshTable, setValid_of_not_mem (by omega), newTable_pde (by omega)]

/-- A fresh table leaves every word but its directory entry and its own page. -/
theorem freshTable_other {m : Mem} {pde f n w : ℕ} (hn : n ≤ 1024) (h : w / 1024 ≠ f) (hw : w ≠ pde) :
    freshTable m pde f n w = m w := by
  rw [freshTable, setValid_of_not_mem (by omega), newTable_other (by omega) hw]

/-- The base address that the loop reads back is the page that it has just written. -/
theorem allocTables_succ {pd frames last fuel i f : ℕ} {m : Mem} (hf : f < last)
    (hlast : last ≤ PT_FRAME + 1024) (hpd : (pd + i) / 1024 ≠ f) :
    allocTables pd frames last (fuel + 1) m i f =
      allocTables pd frames last fuel
        (freshTable m (pd + i) f (if frames > 0 ∧ f + 1 = last then frames else 1024)) (i + 1) (f + 1) := by
  have hbase : (newTable m (pd + i) f (pd + i)).base.toNat = f := by
    rw [newTable_pde (by omega), pdeTable, base_frame (by omega)]
  rw [allocTables, if_pos hf]
  simp only [hbase]
  rfl

/-- The loop makes the tables one by one. -/
theorem allocTables_spec {d frames last : ℕ} (hframes : frames ≤ 1024) (hlast : last ≤ PT_FRAME + 1024) :
    ∀ (r fuel : ℕ) (m : Mem) (i f : ℕ), f + r = last → r < fuel → i + r ≤ 1024 →
      (d < f ∨ last ≤ d) →
      ∃ m', allocTables (d * 1024) frames last fuel m i f = .ok m' ∧ FreshTables m m' d i f r frames := by
  -- The induction is on the tables that are left.
  intro r
  induction r with
  | zero =>
    intro fuel m i f hf hfuel hi hd
    obtain ⟨fuel, rfl⟩ : ∃ k, fuel = k + 1 := ⟨fuel - 1, by omega⟩
    rw [allocTables, if_neg (by omega)]
    exact ⟨m, rfl, fun k hk => absurd hk (by omega), fun k hk => absurd hk (by omega), fun _ _ _ => rfl⟩
  | succ r ih =>
    intro fuel m i f hf hfuel hi hd
    obtain ⟨fuel, rfl⟩ : ∃ k, fuel = k + 1 := ⟨fuel - 1, by omega⟩
    have hdf : (d * 1024 + i) / 1024 ≠ f := by omega
    rw [allocTables_succ (by omega) hlast hdf]
    -- Only the last table may be partly allocated.
    generalize hn : (if frames > 0 ∧ f + 1 = last then frames else 1024) = n
    have hn1024 : n ≤ 1024 := by
      rw [← hn]
      split_ifs <;> omega
    obtain ⟨m', he, hpde, hpte, hother⟩ := ih fuel (freshTable m (d * 1024 + i) f n) (i + 1) (f + 1)
      (by omega) (by omega) (by omega) (by omega)
    refine ⟨m', he, fun k hk => ?_, fun k hk e hlt => ?_, fun w hw hp => ?_⟩
    -- The entry and the words of the first table are not written again by the turns behind it.
    · rcases Nat.eq_zero_or_pos k with rfl | hpos
      · rw [add_zero, add_zero, hother _ (fun j hj => by omega) (by omega), freshTable_pde hn1024 hdf]
      · have := hpde (k - 1) (by omega)
        rwa [show i + 1 + (k - 1) = i + k by omega, show f + 1 + (k - 1) = f + k by omega] at this
    · rcases Nat.eq_zero_or_pos k with rfl | hpos
      · have hw : (f * 1024 + e) / 1024 = f := by omega
        rw [add_zero, hother _ (fun j hj => by omega) (by omega), freshTable_pte hlt, ← hn]
        split_ifs <;> first | rfl | omega
      · have := hpte (k - 1) (by omega) e hlt
        rw [show f + 1 + (k - 1) = f + k by omega, show k - 1 + 1 = k by omega] at this
        rw [this]
        split_ifs <;> first | rfl | omega
    -- Another word is written by no turn.
    · have hwi : w ≠ d * 1024 + i := by simpa using hw 0 (by omega)
      rw [hother w (fun k hk => ?_) (by omega), freshTable_other hn1024 (by omega) hwi]
      have := hw (k + 1) (by omega)
      rwa [show i + (k + 1) = i + 1 + k by omega] at this

/-- The search for a run of free pages. -/
theorem findFreeRun_spec (m : Mem) {need : ℕ} (hneed : 1 ≤ need) :
    ((findFreeRun m need).2 = 0 → need ≤ (findFreeRun m need).1 ∧ (findFreeRun m need).1 ≤ 1024 ∧
      Window (fun k => PageFree m (PT_FRAME + k)) need ((findFreeRun m need).1 - need)) ∧
    ((findFreeRun m need).2 ≠ 0 → ∀ s, s + need ≤ 1024 →
      ¬ Window (fun k => PageFree m (PT_FRAME + k)) need s) := by
  constructor
  · intro h
    have := runSearch_found (n := MAX_PT_SIZE) (c := 0) hneed (le_refl need) (by omega)
      (fun k h₁ h₂ => absurd h₂ (Nat.not_lt_zero k)) h
    rwa [Nat.zero_add] at this
  · intro h s hs
    exact runSearch_none (n := MAX_PT_SIZE) (c := 0) hneed (le_refl need) (fun hlt => by omega) (by omega) h
      (by omega) (by simpa using hs)

/-- No run of `need` free pages is left. -/
def NoFreeRun (m : Mem) (need : ℕ) : Prop :=
  ∀ s, s + need ≤ 1024 → ¬ Window (fun k => PageFree m (PT_FRAME + k)) need s

/-- The branch for an absent entry: new tables in a run of free pages, or `SYSERR` with the interrupts still
disabled. -/
theorem freshTables_spec (u : ℕ) (c : Cpu) {d q i frames need : ℕ}
    (hneed : need = q + if frames > 0 then 1 else 0) (h1 : 1 ≤ need) (hframes : frames ≤ 1024)
    (hi : i + need ≤ 1024) (hd : ¬ PageFree c.mem d) :
    (∃ s m', s + need ≤ 1024 ∧ Window (fun k => PageFree c.mem (PT_FRAME + k)) need s ∧
      FreshTables c.mem m' d i (PT_FRAME + s) need frames ∧
      freshTables u (d * 1024) q c i frames = .ok (some (i * 1024 * 4096), (c.withMem m').writeCr3 u)) ∨
    (NoFreeRun c.mem need ∧
      freshTables u (d * 1024) q c i frames = .ok (none, { c with cr3 := u, ie := false })) := by
  have hva : i * PAGE_SIZE * MAX_PT_SIZE % 2 ^ 32 = i * 1024 * 4096 := by
    simp only [PAGE_SIZE, MAX_PT_SIZE]
    omega
  obtain ⟨hfound, hnone⟩ := findFreeRun_spec c.mem h1
  unfold freshTables
  simp only [← hneed, Cpu.disable_snd_mem]
  by_cases hr : (findFreeRun c.mem need).2 = 0
  · obtain ⟨h₁, h₂, hw⟩ := hfound hr
    -- The directory is not one of the free pages of the run.
    have hdir : d < PT_FRAME + ((findFreeRun c.mem need).1 - need) ∨
        PT_FRAME + (findFreeRun c.mem need).1 ≤ d := by
      by_contra hc
      have : PageFree c.mem _ := hw (d - (PT_FRAME + ((findFreeRun c.mem need).1 - need))) (by omega)
      rw [show PT_FRAME + ((findFreeRun c.mem need).1 - need +
        (d - (PT_FRAME + ((findFreeRun c.mem need).1 - need)))) = d by omega] at this
      exact hd this
    obtain ⟨m', he, hm⟩ := allocTables_spec (d := d) hframes
      (show PT_FRAME + (findFreeRun c.mem need).1 ≤ PT_FRAME + 1024 by omega) need (MAX_PT_SIZE + 1)
      c.mem i (PT_FRAME + ((findFreeRun c.mem need).1 - need)) (by omega)
      (by simp only [MAX_PT_SIZE]; omega) hi hdir
    refine .inl ⟨_, m', by omega, hw, hm, ?_⟩
    rw [if_pos hr, show PT_FRAME + (findFreeRun c.mem need).1 - need =
      PT_FRAME + ((findFreeRun c.mem need).1 - need) by omega, he, hva]
    rfl
  · rw [if_neg hr]
    exact .inr ⟨hnone hr, rfl⟩

/-! ## The pages of the new tables -/

namespace FreshTables

variable {m m' : Mem} {d i s need frames : ℕ}

/-- The entry of page `k` behind the start of the new tables. -/
theorem pteWord_eq (hs : s + need ≤ 1024) (hm : FreshTables m m' d i (PT_FRAME + s) need frames) {k : ℕ}
    (hk : k < need * 1024) : pteWord m' d (i * 1024 + k) = (PT_FRAME + s + k / 1024) * 1024 + k % 1024 := by
  have hdiv : (i * 1024 + k) / 1024 = i + k / 1024 := by omega
  have hmod : (i * 1024 + k) % 1024 = k % 1024 := by omega
  rw [pteWord, hdiv, hmod, hm.pde _ (by omega), pdeTable, base_frame (by omega)]

/-- The new tables have entries for their pages. -/
theorem hasPte (hi : i + need ≤ 1024) (hm : FreshTables m m' d i (PT_FRAME + s) need frames) {k : ℕ}
    (hk : k < need * 1024) : HasPte m' d (i * 1024 + k) := by
  have hdiv : (i * 1024 + k) / 1024 = i + k / 1024 := by omega
  unfold HasPte
  rw [hdiv, hm.pde _ (by omega)]
  exact ⟨by omega, rfl⟩

/-- Exactly the pages that the request asked for are allocated. -/
theorem alloc_iff (hs : s + need ≤ 1024) (hi : i + need ≤ 1024) (hneed : 1 ≤ need)
    (hm : FreshTables m m' d i (PT_FRAME + s) need frames) {k : ℕ} (hk : k < need * 1024) :
    PageAlloc m' d (i * 1024 + k) ↔ k < freshPages need frames := by
  unfold PageAlloc freshPages
  rw [hm.pteWord_eq hs hk, hm.pte _ (by omega) _ (Nat.mod_lt k (Nat.succ_pos 1023))]
  simp only [hm.hasPte hi hk, true_and]
  -- Only the entries from `frames` on of the last table stay empty.
  by_cases hlast : frames > 0 ∧ k / 1024 + 1 = need ∧ frames ≤ k % 1024
  · rw [if_pos hlast, if_pos hlast.1]
    exact ⟨fun he => absurd he (by decide), fun hlt => absurd hlt (by omega)⟩
  · rw [if_neg hlast]
    refine ⟨fun _ => ?_, fun _ => rfl⟩
    rw [mul_comm] at hk
    split_ifs with hf
    · rw [mul_comm]
      omega
    · rwa [mul_comm]

end FreshTables

/-! ## The layout -/

namespace FreshTables

variable {m m' : Mem} {d i f r frames : ℕ}

/-- After the first table the others are left to make. -/
theorem tail (hframes : frames ≤ 1024)
    (hm : FreshTables m m' d i f (r + 1) frames) :
    FreshTables (freshTable m (d * 1024 + i) f (if frames > 0 ∧ r = 0 then frames else 1024)) m' d (i + 1)
      (f + 1) r frames := by
  obtain ⟨hpde, hpte, hother⟩ := hm
  have hn : (if frames > 0 ∧ r = 0 then frames else 1024) ≤ 1024 := by
    split_ifs <;> omega
  -- What the first table is filled with.
  generalize hnd : (if frames > 0 ∧ r = 0 then frames else 1024) = n at hn
  -- The other tables and their entries stand one place further.
  refine ⟨fun k hk => ?_, fun k hk e he => ?_, fun w hw hp => ?_⟩
  · have := hpde (k + 1) (by omega)
    rwa [show i + (k + 1) = i + 1 + k by omega, show f + (k + 1) = f + 1 + k by omega] at this
  · have := hpte (k + 1) (by omega) e he
    rw [show f + (k + 1) = f + 1 + k by omega] at this
    rw [this]
    split_ifs <;> first | rfl | omega
  · rcases eq_or_ne (w / 1024) f with hwf | hwf
    · -- A word of the first table.
      have he : w % 1024 < 1024 := Nat.mod_lt w (Nat.succ_pos 1023)
      have := hpte 0 (by omega) (w % 1024) he
      rw [show (f + 0) * 1024 + w % 1024 = f * 1024 + w % 1024 by omega] at this
      rw [show w = f * 1024 + w % 1024 by omega, this, freshTable_pte he, ← hnd]
      split_ifs <;> first | rfl | omega
    · rcases eq_or_ne w (d * 1024 + i) with rfl | hwi
      · rw [freshTable_pde hn hwf]
        simpa using hpde 0 (by omega)
      · rw [freshTable_other hn hwf hwi]
        refine hother w (fun k hk => ?_) (by omega)
        rcases Nat.eq_zero_or_pos k with rfl | hpos
        · simpa using hwi
        · have := hw (k - 1) (by omega)
          rwa [show i + 1 + (k - 1) = i + k by omega] at this

/-- The new tables keep the layout, and the directories stay the same. -/
theorem layout {g : PageMap} (h : Layout m g) (hd : g.role d = .dir) (hframes : frames ≤ 1024)
    (hlen : g.len d + r ≤ 1024) (hfree : ∀ k < r, g.role (f + k) = .free)
    (hm : FreshTables m m' d (g.len d) f r frames) :
    ∃ g', Layout m' g' ∧ ∀ x, g'.role x = .dir ↔ g.role x = .dir := by
  induction r generalizing m g f with
  | zero =>
    -- Without a table nothing is written.
    have hsame : m' = m := by
      ext w
      exact hm.other w (fun k hk => absurd hk (Nat.not_lt_zero k)) (by omega)
    rw [hsame]
    exact ⟨g, h, fun _ => Iff.rfl⟩
  | succ r ih =>
    -- The first table takes a free page and becomes part of the layout.
    have hf : g.role f = .free := by simpa using hfree 0 (by omega)
    have hdf : d ≠ f := fun he => by rw [he, hf] at hd; cases hd
    have htail := hm.tail hframes
    generalize hn : (if frames > 0 ∧ r = 0 then frames else 1024) = n at htail
    have hn1024 : n ≤ 1024 := by
      rw [← hn]
      split_ifs <;> omega
    have hrole : ∀ {x}, x ≠ f → (g.addTable d f).role x = g.role x :=
      fun hx => Function.update_of_ne hx _ _
    have hlen' : (g.addTable d f).len d = g.len d + 1 := Function.update_self ..
    have h₁ : Layout (freshTable m (d * 1024 + g.len d) f n) (g.addTable d f) := by
      refine (h.newTable hd (by omega) hf).setValid fun k hk => ?_
      exact Layout.heap_of_table (Function.update_self ..) (by omega)
    -- The others are made in that layout, by induction.
    obtain ⟨g', hl, hdirs⟩ := ih h₁ (by rw [hrole hdf, hd]) (by omega)
      (fun k hk => by
        have := hfree (k + 1) (by omega)
        rwa [hrole (show f + 1 + k ≠ f by omega), show f + 1 + k = f + (k + 1) by omega])
      (by rw [hlen']; exact htail)
    refine ⟨g', hl, fun x => (hdirs x).trans ?_⟩
    exact update_role_iff (by rw [hf]; decide) Role.noConfusion

end FreshTables

end Xinu
