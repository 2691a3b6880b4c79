import Xinu.Paging.VmallocUses

/-!
# What `vmalloc` changes is what it writes

The accesses of `vmalloc` belong to the function of the model: whatever the call and the memory, a
word that is not the same afterwards is one of those that the accesses write (`vmalloc_covered`).
-/

namespace Xinu

open FlatMemory Scan

/-- The first word of a page of entries. -/
def PtUse.base (d : ℕ) (u : PtUse) : ℕ :=
  match u.page with
  | .dir => d * MAX_PT_SIZE
  | .table f => f * MAX_PT_SIZE

/-- One of the accesses writes the word. -/
def WritesEntry (d : ℕ) (l : Footprint PtUse) (w : ℕ) : Prop :=
  ∃ a ∈ l, a.obj.write = true ∧ a.obj.base d + a.first ≤ w ∧ w < a.obj.base d + a.first + a.count

/-- The accesses write every word that changes from one memory to the other. -/
def Covered (d : ℕ) (m m' : Mem) (l : Footprint PtUse) : Prop := ∀ w, m' w ≠ m w → WritesEntry d l w

namespace Covered

variable {d i f first n : ℕ} {m m' m'' : Mem} {l l' : Footprint PtUse} {a : Access PtUse}

/-- Nothing has changed. -/
theorem refl (m : Mem) (l : Footprint PtUse) : Covered d m m l := fun _ hw => absurd rfl hw

/-- What some accesses cover, more accesses cover. -/
theorem mono (h : Covered d m m' l) (hl : l ⊆ l') : Covered d m m' l' := by
  intro w hw
  obtain ⟨a, ha, hwa⟩ := h w hw
  exact ⟨a, hl ha, hwa⟩

/-- What some accesses cover is covered with another one. -/
theorem cons (h : Covered d m m' l) : Covered d m m' (a :: l) := h.mono (List.subset_cons_self a l)

/-- One part of the code after another. -/
theorem append (h : Covered d m m' l) (h' : Covered d m' m'' l') : Covered d m m'' (l ++ l') := by
  intro w hw
  by_cases hm : m' w = m w
  · exact (h'.mono (List.subset_append_right l l')) w (by rwa [hm])
  · exact (h.mono (List.subset_append_left l l')) w hm

/-- Marking entries of a table is covered by the write of these entries. -/
theorem setValid (m : Mem) (f first n : ℕ) :
    Covered d m (setValid m (f * MAX_PT_SIZE + first) n) [writeTable f first n] := by
  intro w hw
  refine ⟨_, List.mem_singleton_self _, rfl, ?_⟩
  change f * MAX_PT_SIZE + first ≤ w ∧ w < f * MAX_PT_SIZE + first + n
  by_contra hc
  exact hw (setValid_of_not_mem (by omega))

/-- Marking the first entries of a table. -/
theorem setValid_first (m : Mem) (f n : ℕ) :
    Covered d m (Xinu.setValid m (f * MAX_PT_SIZE) n) [writeTable f 0 n] := by
  have h := Covered.setValid (d := d) m f 0 n
  rwa [add_zero] at h

/-- Making a table is covered by the write of its page and of its directory entry. -/
theorem newTable (m : Mem) (i f : ℕ) :
    Covered d m (newTable m (d * MAX_PT_SIZE + i) f) (newTableUses i f) := by
  intro w hw
  by_cases hp : w = d * MAX_PT_SIZE + i
  · refine ⟨writeDir i, List.mem_cons_self, rfl, ?_⟩
    change d * MAX_PT_SIZE + i ≤ w ∧ w < d * MAX_PT_SIZE + i + 1
    omega
  · refine ⟨writeTable f 0 MAX_PT_SIZE, List.mem_cons_of_mem _ (List.mem_singleton_self _), rfl, ?_⟩
    change f * MAX_PT_SIZE + 0 ≤ w ∧ w < f * MAX_PT_SIZE + 0 + MAX_PT_SIZE
    by_contra hc
    simp only [MAX_PT_SIZE] at hc
    exact hw (newTable_other (by omega) hp)

end Covered

/-- Marking entries of one table, and then the first entries of another. -/
theorem setValid_twice {d : ℕ} (m : Mem) (f first n f' n' : ℕ) :
    Covered d m (setValid (setValid m (f * MAX_PT_SIZE + first) n) (f' * MAX_PT_SIZE) n')
      [writeTable f first n, writeTable f' 0 n'] :=
  (Covered.setValid m f first n).append (Covered.setValid_first _ f' n')

/-! ## The functions -/

/-- The loop that makes tables writes only where its accesses are. -/
theorem allocTables_covered {d frames last : ℕ} :
    ∀ (fuel : ℕ) (m m' : Mem) (i f : ℕ), allocTables (d * MAX_PT_SIZE) frames last fuel m i f = .ok m' →
      Covered d m m' (allocTablesUses (d * MAX_PT_SIZE) frames last fuel m i f) := by
  intro fuel
  induction fuel with
  | zero => exact fun m m' i f h => by cases h
  | succ fuel ih =>
    intro m m' i f h
    rw [allocTables] at h
    rw [allocTablesUses]
    by_cases hf : f < last
    · rw [if_pos hf] at h ⊢
      refine (Covered.newTable m i f).append (Covered.cons ?_)
      exact (Covered.setValid_first _ _ _).append (ih _ _ _ _ h)
    · rw [if_neg hf] at h ⊢
      injection h with h
      rw [h]
      exact .refl _ _

/-- The branch for an absent entry writes only where its accesses are. -/
theorem freshTables_covered {u d q i frames : ℕ} {c c' : Cpu} {res : Option ℕ}
    (h : freshTables u (d * MAX_PT_SIZE) q c i frames = .ok (res, c')) :
    Covered d c.mem c'.mem (freshTablesUses (d * MAX_PT_SIZE) q c.mem i frames) := by
  unfold freshTables at h
  unfold freshTablesUses
  dsimp only at h ⊢
  generalize (q + if frames > 0 then 1 else 0) = need at *
  refine Covered.mono ?_ (List.subset_append_right _ _)
  by_cases hrun : (findFreeRun c.disable.2.mem need).2 = 0
  · rw [if_pos hrun] at h
    obtain ⟨m', hm, h⟩ := Res.bind_eq_ok h
    injection h with h
    injection h with _ hc
    rw [← hc, if_pos (show (findFreeRun c.mem need).2 = 0 from hrun)]
    exact allocTables_covered _ _ _ _ _ hm
  · rw [if_neg hrun] at h
    injection h with h
    injection h with _ hc
    rw [← hc]
    exact .refl _ _

/-- A spill into an absent entry writes only where its accesses are. -/
theorem spillAbsent_covered {d i t j counter frames va : ℕ} {m m' : Mem}
    (h : spillAbsent m (d * MAX_PT_SIZE) i (t * MAX_PT_SIZE) j counter frames = .done m' va) :
    Covered d m m' (spillAbsentUses m (d * MAX_PT_SIZE) i t j counter frames) := by
  unfold spillAbsent at h
  unfold spillAbsentUses
  injection h with hm
  rw [← hm]
  dsimp only
  refine Covered.append (Covered.append ((Covered.setValid m t j _).append (.refl _ _)) ?_)
    (.cons (.setValid_first _ _ _))
  split_ifs
  · exact .newTable _ _ _
  · exact .refl _ _

/-- A spill into a present entry writes only where its accesses are. -/
theorem spillPresent_covered {d i t j counter frames va : ℕ} {m m' : Mem}
    (h : spillPresent m (d * MAX_PT_SIZE) i (t * MAX_PT_SIZE) j counter frames = .done m' va) :
    Covered d m m' (spillPresentUses m (d * MAX_PT_SIZE) i t j counter frames) := by
  unfold spillPresent at h
  unfold spillPresentUses
  dsimp only [Entry.table] at h ⊢
  split_ifs at h with hmap hsum
  injection h with hm
  rw [← hm, if_pos hsum]
  exact .cons (setValid_twice _ _ _ _ _ _)

/-- The search in one table writes only where its accesses are. -/
theorem searchTable_covered {d i t frames va : ℕ} {m m' : Mem} :
    ∀ fuel j counter, searchTable m (d * MAX_PT_SIZE) i
      (t * MAX_PT_SIZE) frames fuel j counter = .done m' va →
      Covered d m m' (searchTableUses m (d * MAX_PT_SIZE) i t frames fuel j) := by
  intro fuel
  induction fuel with
  | zero => exact fun j counter h => by cases h
  | succ fuel ih =>
    intro j counter h
    rw [searchTable] at h
    rw [searchTableUses]
    dsimp only at h ⊢
    -- The branches of both functions are the same.
    by_cases hj : j < MAX_PT_SIZE
    · rw [if_pos hj] at h ⊢
      refine .cons ?_
      by_cases hfree : Unalloc m (t * MAX_PT_SIZE + j)
      · rw [if_pos hfree] at h ⊢
        by_cases hfit : j + frames ≤ MAX_PT_SIZE
        · rw [if_pos hfit] at h ⊢
          refine .cons ?_
          by_cases hwin : (scanWindow m (t * MAX_PT_SIZE) j frames).1 = frames
          · rw [if_pos hwin] at h ⊢
            injection h with hm
            rw [← hm]
            exact .setValid _ _ _ _
          · rw [if_neg hwin] at h ⊢
            exact ih _ _ h
        · rw [if_neg hfit] at h ⊢
          refine .cons ?_
          split_ifs at h ⊢
          · exact .cons (spillAbsent_covered h)
          · exact .cons (spillPresent_covered h)
          · exact ih _ _ h
          · exact ih _ _ h
      · rw [if_neg hfree] at h ⊢
        exact ih _ _ h
    · rw [if_neg hj] at h
      cases h

/-- Making a table for an absent entry writes only where its accesses are. -/
theorem ensureTable_covered {d i : ℕ} (m : Mem) :
    Covered d m (ensureTable m (d * MAX_PT_SIZE + i)) (ensureTableUses m (d * MAX_PT_SIZE) i) := by
  unfold ensureTable ensureTableUses
  refine .cons ?_
  split_ifs with hp
  · cases hf : firstFreePage m with
    | some p => exact (Covered.newTable m i _).mono (List.subset_append_right _ _)
    | none => exact .refl _ _
  · exact .refl _ _

/-- The loop that marks the tables of a hit. -/
theorem markTables_covered {d : ℕ} :
    ∀ (fuel : ℕ) (m : Mem) (i counter : ℕ) (r : Mem × ℕ), markTables
      (d * MAX_PT_SIZE) fuel m i counter = .ok r →
      Covered d m r.1 (markTablesUses (d * MAX_PT_SIZE) fuel m i counter) := by
  intro fuel
  induction fuel with
  | zero => exact fun m i counter r h => by cases h
  | succ fuel ih =>
    intro m i counter r h
    rw [markTables] at h
    rw [markTablesUses]
    dsimp only [Entry.table] at h ⊢
    split_ifs at h with hc hp ht
    · rw [if_pos hc]
      refine (ensureTable_covered m).append (Covered.cons ?_)
      exact (Covered.setValid_first _ _ _).append (ih _ _ _ _ h)
    · injection h with h
      rw [← h]
      exact .refl _ _

/-- The main loop writes only where its accesses are. -/
theorem vmallocLoop_covered {u d q : ℕ} :
    ∀ (fuel : ℕ) (c c' : Cpu) (i frames counter : ℕ) (res : Option ℕ),
      vmallocLoop u (d * MAX_PT_SIZE) q fuel c i frames counter = .ok (res, c') →
      Covered d c.mem c'.mem (vmallocLoopUses (d * MAX_PT_SIZE) q fuel c.mem i frames counter) := by
  -- The induction is on the turns; each either ends or goes on after writes that are covered.
  intro fuel
  induction fuel with
  | zero => exact fun c c' i frames counter res h => by cases h
  | succ fuel ih =>
    intro c c' i frames counter res h
    rw [vmallocLoop] at h
    rw [vmallocLoopUses]
    dsimp only [Entry.table] at h ⊢
    by_cases hi : i = MAX_PT_SIZE
    · rw [if_pos hi] at h
      injection h with h
      injection h with _ hc
      rw [← hc]
      exact .refl _ _
    rw [if_neg hi] at h ⊢
    refine .cons ?_
    by_cases hmap : Mapped (d * MAX_PT_SIZE + i)
    swap
    · rw [if_pos hmap] at h
      cases h
    rw [if_neg (not_not.mpr hmap)] at h
    -- An absent entry: tables are made there, if there is room.
    by_cases hpres : (c.mem (d * MAX_PT_SIZE + i)).pres = false
    · rw [if_pos hpres] at h ⊢
      by_cases hroom : q = 0 ∨ i + q + (if frames > 0 then 1 else 0) < MAX_PT_SIZE
      · rw [if_pos hroom] at h ⊢
        exact freshTables_covered h
      · rw [if_neg hroom] at h
        injection h with h
        injection h with _ hc
        rw [← hc]
        exact .refl _ _
    rw [if_neg hpres] at h ⊢
    split_ifs at h with hmt hone
    · -- The search in one table.
      rw [if_pos hone]
      cases hs : searchTable c.mem (d * MAX_PT_SIZE) i
          ((c.mem (d * MAX_PT_SIZE + i)).base.toNat * MAX_PT_SIZE)
          (frames + q * MAX_PT_SIZE) MAX_PT_SIZE 0 counter with
      | done m' va =>
        rw [hs] at h
        injection h with h
        injection h with _ hc
        rw [← hc]
        exact (searchTable_covered _ _ _ hs).mono (List.subset_append_left _ _)
      | next k =>
        rw [hs] at h
        exact (ih _ _ _ _ _ _ h).mono (List.subset_append_right _ _)
      | wild =>
        rw [hs] at h
        cases h
    · -- The search over many tables.
      rw [if_neg hone]
      obtain ⟨r, hr, h⟩ := Res.bind_eq_ok h
      refine Covered.mono ?_ (List.subset_append_right _ _)
      rw [hr]
      dsimp only
      by_cases htotal : r.1 = frames + q * MAX_PT_SIZE
      · rw [if_pos htotal] at h ⊢
        obtain ⟨s, hs, h⟩ := Res.bind_eq_ok h
        refine .cons ((Covered.setValid _ _ _ _).append ((markTables_covered _ _ _ _ _ hs).append ?_))
        rw [hs]
        exact ih _ _ _ _ _ _ h
      · rw [if_neg htotal] at h ⊢
        exact ih _ _ _ _ _ _ h

/-- **Every word that `vmalloc` changes is one that it writes**, for every memory and every request. -/
theorem vmalloc_covered {fuel d nbytes junk : ℕ} {c c' : Cpu} {res : Option ℕ}
    (h : vmalloc fuel c (d * 4096) nbytes junk = .ok (res, c')) :
    Covered d c.mem c'.mem (vmallocUses fuel c.mem (d * 4096) nbytes junk) := by
  unfold vmalloc at h
  unfold vmallocUses
  rw [show d * 4096 / 4 = d * MAX_PT_SIZE by simp only [MAX_PT_SIZE]; omega] at h ⊢
  dsimp only at h ⊢
  generalize (if nbytes / PAGE_SIZE < 1 then 1 else nbytes / PAGE_SIZE) = n at h ⊢
  by_cases hroom : n / MAX_PT_SIZE + (if n - n / MAX_PT_SIZE * MAX_PT_SIZE > 0 then 1 else 0) < MAX_PT_SIZE
  · rw [if_pos hroom] at h ⊢
    exact vmallocLoop_covered fuel (c.writeCr3 (c.cr3At PAGE_DIR_ADDR_START)) c' _ _ _ res h
  · rw [if_neg hroom] at h
    injection h with h
    injection h with _ hc
    rw [← hc]
    exact .refl _ _

end Xinu
