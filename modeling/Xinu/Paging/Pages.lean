import Xinu.Paging.Layout

/-!
# Virtual pages

Page `vp` of the process whose directory is in frame `d` is translated by the entry `pteWord m d vp`. In a
laid out memory the entries of different heap pages are different words (`pteWord_inj`), and every word of a
private table is the entry of a heap page (`page_of_heap`). The counters of `system/utility_functions.c` count
pages (`countEntries_eq`).
-/

namespace Xinu

open FlatMemory

/-- The word of the entry of virtual page `vp`. -/
def pteWord (m : Mem) (d vp : ℕ) : ℕ := (m (d * 1024 + vp / 1024)).base.toNat * 1024 + vp % 1024

/-- The page has an entry: it is in the address space, and its directory entry is present. -/
def HasPte (m : Mem) (d vp : ℕ) : Prop := vp / 1024 < 1024 ∧ (m (d * 1024 + vp / 1024)).pres = true

/-- The page is valid: it has an entry, with the valid bit. -/
def PageValid (m : Mem) (d vp : ℕ) : Prop := HasPte m d vp ∧ (m (pteWord m d vp)).valid = true

/-- The page is allocated: it has an entry, with both the valid and the existence bit. -/
def PageAlloc (m : Mem) (d vp : ℕ) : Prop := HasPte m d vp ∧ (m (pteWord m d vp)).avail = 3#3

/-- The page is present: it has an entry, with the present bit. -/
def PagePresent (m : Mem) (d vp : ℕ) : Prop := HasPte m d vp ∧ (m (pteWord m d vp)).pres = true

instance (m : Mem) (d vp : ℕ) : Decidable (HasPte m d vp) := inferInstanceAs (Decidable (_ ∧ _))
instance (m : Mem) (d vp : ℕ) : Decidable (PageValid m d vp) := inferInstanceAs (Decidable (_ ∧ _))
instance (m : Mem) (d vp : ℕ) : Decidable (PageAlloc m d vp) := inferInstanceAs (Decidable (_ ∧ _))
instance (m : Mem) (d vp : ℕ) : Decidable (PagePresent m d vp) := inferInstanceAs (Decidable (_ ∧ _))

/-- The entry of page `e` of the table of entry `i`. -/
theorem pteWord_add {m : Mem} {d i e : ℕ} (he : e < 1024) :
    pteWord m d (i * 1024 + e) = (m (d * 1024 + i)).base.toNat * 1024 + e := by
  rw [pteWord, show (i * 1024 + e) / 1024 = i by omega,
    show (i * 1024 + e) % 1024 = e by omega]

/-- An entry with the bits of an entry of a private table is valid exactly when it is allocated. -/
theorem PteOk.valid_iff {e : Entry} (h : PteOk e) : e.valid = true ↔ e.avail = 3#3 := by
  rcases h.avail with ha | ha <;> simp [ha]

namespace Layout

variable {m : Mem} {g : PageMap} (h : Layout m g)

include h

/-- The pages that have an entry are those below the first absent directory entry. -/
theorem hasPte_iff {d : ℕ} (hd : g.role d = .dir) (vp : ℕ) : HasPte m d vp ↔ vp < g.len d * 1024 := by
  have hD := h.dir d hd
  have hle := hD.len_le
  constructor
  · rintro ⟨hvp, hp⟩
    have := (hD.pres_iff (vp / 1024) (by omega)).mp hp
    omega
  · intro hvp
    exact ⟨by omega, (hD.pres_iff (vp / 1024) (by omega)).mpr (by omega)⟩

/-- The frame of the table of a heap page. -/
theorem table_role {d i : ℕ} (hd : g.role d = .dir) (h8 : 8 ≤ i) (hi : i < g.len d) :
    g.role (m (d * 1024 + i)).base.toNat = .table d i := h.dir_table d i hd h8 hi

/-- The entry of a heap page is a word of a private table. -/
theorem heap_pteWord {d vp : ℕ} (hd : g.role d = .dir) (h8 : 8192 ≤ vp) (hvp : vp < g.len d * 1024) :
    g.Heap (pteWord m d vp) :=
  heap_of_table (h.table_role hd (by omega) (by omega)) (Nat.mod_lt _ (by decide))

/-- Different heap pages have different entries. -/
theorem pteWord_inj {d d' vp vp' : ℕ} (hd : g.role d = .dir) (h8 : 8192 ≤ vp)
    (hvp : vp < g.len d * 1024) (hd' : g.role d' = .dir) (h8' : 8192 ≤ vp')
    (hvp' : vp' < g.len d' * 1024) (hw : pteWord m d vp = pteWord m d' vp') : d = d' ∧ vp = vp' := by
  have ht := h.table_role hd (i := vp / 1024) (by omega) (by omega)
  have ht' := h.table_role hd' (i := vp' / 1024) (by omega) (by omega)
  obtain ⟨hf, he⟩ := page_word_inj (Nat.mod_lt vp (Nat.succ_pos 1023))
    (Nat.mod_lt vp' (Nat.succ_pos 1023)) hw
  rw [hf, ht'] at ht
  injection ht with h₁ h₂
  refine ⟨h₁.symm, ?_⟩
  rw [← Nat.div_add_mod vp 1024, ← Nat.div_add_mod vp' 1024, h₂, he]

/-- Every word of a private table is the entry of a heap page. -/
theorem page_of_heap {w : ℕ} (hw : g.Heap w) :
    ∃ d vp, g.role d = .dir ∧ 8192 ≤ vp ∧ vp < g.len d * 1024 ∧ pteWord m d vp = w := by
  obtain ⟨d, i, hr⟩ := hw.exists
  obtain ⟨hd, h8, hi, hb⟩ := h.table_dir _ d i hr
  refine ⟨d, i * 1024 + w % 1024, hd, by omega, by omega, ?_⟩
  rw [pteWord_add (Nat.mod_lt _ (by decide)), hb]
  omega

/-- The entry of a page of the Xinu area. -/
theorem pteWord_xinu {d vp : ℕ} (hd : g.role d = .dir) (hvp : vp < 8192) :
    pteWord m d vp = (PT_FRAME + 1) * 1024 + vp := by
  have := (h.dir d hd).xinu (vp / 1024) (by omega)
  rw [pteWord, this]
  omega

/-- The pages of the Xinu area are allocated in every address space. -/
theorem alloc_xinu {d vp : ℕ} (hd : g.role d = .dir) (hvp : vp < 8192) : PageAlloc m d vp := by
  have hlen := (h.dir d hd).len_ge
  have hlt : vp < g.len d * 1024 := by omega
  refine ⟨(h.hasPte_iff hd vp).mpr hlt, ?_⟩
  rw [h.pteWord_xinu hd hvp]
  exact (h.xinu vp hvp).2.1

/-- A page is valid exactly when it is allocated. -/
theorem valid_iff {d : ℕ} (hd : g.role d = .dir) (vp : ℕ) : PageValid m d vp ↔ PageAlloc m d vp := by
  rcases Nat.lt_or_ge vp (8192) with hvp | h8
  · have ha := h.alloc_xinu hd hvp
    exact ⟨fun _ => ha, fun _ => ⟨ha.1, Entry.valid_of_avail_three ha.2⟩⟩
  · rw [PageValid, PageAlloc, h.hasPte_iff hd]
    refine and_congr_right fun hvp => ?_
    exact (h.pte _ (h.heap_pteWord hd h8 hvp)).valid_iff

/-- A present heap page is allocated. -/
theorem alloc_of_present {d vp : ℕ} (hd : g.role d = .dir) (h8 : 8192 ≤ vp)
    (hp : PagePresent m d vp) : PageAlloc m d vp := by
  have hvp := (h.hasPte_iff hd vp).mp hp.1
  exact ⟨hp.1, (h.pte _ (h.heap_pteWord hd h8 hvp)).valid_of_pres hp.2⟩

end Layout

/-! ## The counters -/

/-- The loops of the counters count the pages from `start * 1024` that have an entry with the property. -/
theorem countEntries_eq (m : Mem) (d start : ℕ) (p : Entry → Bool) (hs : start ≤ 1024) :
    countEntries m (d * 1024) start p =
      Nat.count (fun vp => start * 1024 ≤ vp ∧ HasPte m d vp ∧ p (m (pteWord m d vp)) = true)
        (1024 * 1024) := by
  -- After `k` turns the loop has counted the pages below `(start + k) * 1024`.
  have key : ∀ k, start + k ≤ 1024 →
      Nat.fold k (fun i _ n =>
        if (m (d * 1024 + (start + i))).pres then
          n + Nat.count (fun j => p (m ((m (d * 1024 + (start + i))).table + j))) MAX_PT_SIZE
        else n) 0 =
      Nat.count (fun vp => start * 1024 ≤ vp ∧ HasPte m d vp ∧ p (m (pteWord m d vp)) = true)
        ((start + k) * 1024) := by
    intro k hk
    induction k with
    | zero =>
      rw [Nat.fold_zero, eq_comm, Nat.count_iff_forall_not]
      rintro vp hvp ⟨h, -⟩
      omega
    | succ k ih =>
      rw [Nat.fold_succ, ih (by omega), show (start + (k + 1)) * 1024 = (start + k) * 1024 + 1024 by ring,
        Nat.count_add]
      by_cases hp : (m (d * 1024 + (start + k))).pres = true
      · rw [if_pos hp, Nat.add_left_cancel_iff, Nat.count_eq_card_filter_range,
          Nat.count_eq_card_filter_range]
        refine congrArg Finset.card ?_
        refine Finset.filter_congr fun j hj => ?_
        replace hj : j < 1024 := Finset.mem_range.mp hj
        have hsk : start + k < 1024 := by omega
        have hle : start * 1024 ≤ (start + k) * 1024 + j := by omega
        have hdiv : ((start + k) * 1024 + j) / 1024 = start + k := by omega
        rw [HasPte, pteWord_add hj, hdiv]
        exact ⟨fun h => ⟨hle, ⟨hsk, hp⟩, h⟩, fun h => h.2.2⟩
      · rw [if_neg hp]
        have : Nat.count (fun j => start * 1024 ≤ (start + k) * 1024 + j ∧
            HasPte m d ((start + k) * 1024 + j) ∧
              p (m (pteWord m d ((start + k) * 1024 + j))) = true) 1024 = 0 := by
          rw [Nat.count_iff_forall_not]
          rintro j hj ⟨-, ⟨-, h⟩, -⟩
          rw [show ((start + k) * 1024 + j) / 1024 = start + k by omega] at h
          exact hp h
        rw [this, add_zero]
  have hn : start + (MAX_PT_SIZE - start) = 1024 := by
    simp only [MAX_PT_SIZE]
    omega
  rw [countEntries, key _ hn.le, hn]

end Xinu
