import Xinu.Paging.Pages

/-!
# Updates that keep the layout

The paging operations are made of five kinds of updates: entries of private tables are marked allocated
(`Layout.setValid`), a free page becomes a table (`Layout.newTable`) or a directory (`Layout.initUserDir`),
entries give their frames back (`Layout.release`), and an allocated entry gets a free frame
(`Layout.mapFrame`). Each keeps a layout, the second and third with one more role in the page map.
-/

namespace Xinu

open FlatMemory

/-! ## Marking entries -/

/-- An entry in the range is marked as allocated, and keeps its other bits. -/
theorem setValid_of_mem {m : Mem} {lo n w : ℕ} (h₁ : lo ≤ w) (h₂ : w < lo + n) :
    setValid m lo n w = { m w with avail := 3#3 } := fill_of_mem h₁ h₂

/-- An entry outside the range stays. -/
theorem setValid_of_not_mem {m : Mem} {lo n w : ℕ} (h : w < lo ∨ lo + n ≤ w) :
    setValid m lo n w = m w := fill_of_not_mem h

/-- Marking an entry changes nothing but its `avail` bits. -/
theorem setValid_eq_or (m : Mem) (lo n w : ℕ) :
    setValid m lo n w = m w ∨ setValid m lo n w = { m w with avail := 3#3 } := by
  by_cases hw : lo ≤ w ∧ w < lo + n
  · exact .inr (setValid_of_mem hw.1 hw.2)
  · exact .inl (setValid_of_not_mem (by omega))

@[simp]
theorem setValid_pres (m : Mem) (lo n w : ℕ) : (setValid m lo n w).pres = (m w).pres := by
  rcases setValid_eq_or m lo n w with h | h <;> rw [h]

@[simp]
theorem setValid_base (m : Mem) (lo n w : ℕ) : (setValid m lo n w).base = (m w).base := by
  rcases setValid_eq_or m lo n w with h | h <;> rw [h]

@[simp]
theorem setValid_zero (m : Mem) (lo : ℕ) : setValid m lo 0 = m := fill_zero m lo _

namespace Layout

variable {m m' : Mem} {g g' : PageMap}

/-- The FFS entries keep their values when only words of private tables change. -/
theorem ffs_same (h : Layout m g) (hsame : ∀ w, ¬ g.Heap w → m' w = m w) {w : ℕ} (hw : IsFfs w) :
    m' w = m w := hsame w fun hh => h.not_ffs_of_heap hh hw

/-- An FFS entry that keeps its value stays well formed. -/
theorem ffsOk_congr {k : ℕ} (h : FfsOk m k) (he : m' (FFS_WORD + k) = m (FFS_WORD + k)) : FfsOk m' k := by
  obtain ⟨hp, hb, ha⟩ := h
  rw [← he] at hp hb ha
  exact ⟨hp, hb, ha⟩

/-- An FFS frame's entry is an FFS entry. -/
theorem isFfs_add {k : ℕ} (hk : k < 16384) : IsFfs (FFS_WORD + k) := ⟨by omega, by
  rw [show MAX_FFS_SIZE = 16384 from rfl]
  omega⟩

/-- Entries of private tables may be marked. -/
theorem of_marked (h : Layout m g) (hsame : ∀ w, ¬ g.Heap w → m' w = m w)
    (hor : ∀ w, m' w = m w ∨ m' w = { m w with avail := 3#3 }) : Layout m' g := by
  have hffs : ∀ k < 16384, m' (FFS_WORD + k) = m (FFS_WORD + k) :=
    fun k hk => h.ffs_same hsame (isFfs_add hk)
  -- Neither the present bits nor the bases change, so every entry maps what it did.
  have hmaps : ∀ k w, MapsFrame m' g k w ↔ MapsFrame m g k w := by
    intro k w
    unfold MapsFrame
    rcases hor w with he | he <;> rw [he]
  refine h.of_entries (fun w hw _ => hsame w hw) (fun k hk => ?_) (fun w hw => ?_) (fun k hk => ?_) ?_
  · exact ffsOk_congr (h.ffs k hk) (hffs k hk)
  · obtain ⟨ha, hv, hb⟩ := h.pte w hw
    rcases hor w with he | he <;> rw [he]
    · exact ⟨ha, hv, hb⟩
    · exact ⟨.inr rfl, fun _ => rfl, hb⟩
  · simp only [hffs k hk, hmaps]
    exact h.frame_used k hk
  · simp only [hmaps]
    exact h.frame_inj

/-- A range of words of private tables may be marked. -/
theorem setValid (h : Layout m g) {lo n : ℕ} (hheap : ∀ k < n, g.Heap (lo + k)) :
    Layout (Xinu.setValid m lo n) g := by
  refine h.of_marked (fun w hw => setValid_of_not_mem ?_) (setValid_eq_or m lo n)
  by_contra hc
  have := hheap (w - lo) (by omega)
  rw [show lo + (w - lo) = w by omega] at this
  exact hw this

/-! ## New roles -/

/-- What a change of user pages that takes or gives back pages without mapped frames must keep. -/
theorem of_user (h : Layout m g) (hsys : ∀ w < (PT_FRAME + 26) * 1024, m' w = m w)
    (hs : ∀ f, g'.role f = .system ↔ g.role f = .system)
    (ho : ∀ f, g'.role f = .outside ↔ g.role f = .outside)
    (hdir : ∀ d, g'.role d = .dir → DirOk m' d (g'.len d))
    (hdt : ∀ d i, g'.role d = .dir → 8 ≤ i → i < g'.len d →
      g'.role (m' (d * 1024 + i)).base.toNat = .table d i)
    (htd : ∀ t d i, g'.role t = .table d i →
      g'.role d = .dir ∧ 8 ≤ i ∧ i < g'.len d ∧ (m' (d * 1024 + i)).base.toNat = t)
    (hpte : ∀ w, g'.Heap w → PteOk (m' w))
    (hfree : ∀ f, g'.role f = .free → ∀ e < 1024, m' (f * 1024 + e) = Entry.zero)
    (hmaps : ∀ k w, MapsFrame m' g' k w ↔ MapsFrame m g k w) : Layout m' g' := by
  -- The words of the frames lie in the page tables of the system, which stay.
  have hffs : ∀ k < 16384, m' (FFS_WORD + k) = m (FFS_WORD + k) := by
    intro k hk
    have := (isFfs_iff _).mp (isFfs_add hk)
    exact hsys _ (by omega)
  -- What concerns the system is as it was; what concerns the users is given.
  constructor
  · exact fun f => (hs f).trans (h.role_system f)
  · exact fun f => (ho f).trans (h.role_outside f)
  · intro f hf
    have := (h.role_system f).mp ((hs f).mp hf)
    rw [hsys _ (by omega)]
    exact h.system_exist f ((hs f).mp hf)
  · intro w hw
    rw [hsys _ (by omega)]
    exact h.xinu w hw
  · intro i hi h25
    rw [hsys _ (by omega)]
    exact h.system_absent i hi h25
  · exact h.system_space.congr (fun w _ hw _ => hsys w hw) fun k hk => ffsOk_congr (h.ffs k hk) (hffs k hk)
  · exact fun k hk => ffsOk_congr (h.ffs k hk) (hffs k hk)
  · exact hdir
  · exact hdt
  · exact htd
  · exact hpte
  · exact hfree
  · intro k hk
    simp only [hffs k hk, hmaps]
    exact h.frame_used k hk
  · simp only [hmaps]
    exact h.frame_inj

end Layout

/-- A new role for one page does not touch the pages of a role that is neither its old nor its new one. -/
theorem update_role_iff {role : ℕ → Role} {f x : ℕ} {r s : Role} (hf : role f ≠ s) (hr : r ≠ s) :
    Function.update role f r x = s ↔ role x = s := by
  rcases eq_or_ne x f with rfl | hx
  · rw [Function.update_self]
    exact ⟨fun h => absurd h hr, fun h => absurd h hf⟩
  · rw [Function.update_of_ne hx]

/-- The page map after the free page `f` has become the table of the first absent entry of `d`. -/
def PageMap.addTable (g : PageMap) (d f : ℕ) : PageMap where
  role := Function.update g.role f (.table d (g.len d))
  len := Function.update g.len d (g.len d + 1)

namespace PageMap

variable {g : PageMap} {d f x : ℕ}

/-- The new table belongs to the first absent entry of its directory. -/
@[simp] theorem addTable_role_self : (g.addTable d f).role f = .table d (g.len d) := Function.update_self ..

/-- The other pages keep their roles. -/
theorem addTable_role (h : x ≠ f) : (g.addTable d f).role x = g.role x := Function.update_of_ne h _ _

/-- The directory of the new table has one present entry more. -/
@[simp] theorem addTable_len_self : (g.addTable d f).len d = g.len d + 1 := Function.update_self ..

/-- The other directories keep their number of present entries. -/
theorem addTable_len (h : x ≠ d) : (g.addTable d f).len x = g.len x := Function.update_of_ne h _ _

/-- No directory gets shorter. -/
theorem le_addTable_len : g.len x ≤ (g.addTable d f).len x := by
  rcases eq_or_ne x d with rfl | hx
  · rw [addTable_len_self]
    exact Nat.le_succ _
  · rw [addTable_len hx]

/-- The words of private tables are those that were, and those of the new one. -/
theorem addTable_heap {w : ℕ} : (g.addTable d f).Heap w ↔ g.Heap w ∨ w / 1024 = f := by
  rcases eq_or_ne (w / 1024) f with he | hne
  · rw [PageMap.Heap, he, addTable_role_self]
    simp
  · rw [PageMap.Heap, addTable_role hne]
    simp [PageMap.Heap, hne]

/-- A free page that becomes a table was no directory. -/
theorem addTable_dir (hf : g.role f = .free) : (g.addTable d f).role x = .dir ↔ g.role x = .dir :=
  update_role_iff (by rw [hf]; decide) Role.noConfusion

end PageMap

/-- The page map after the free page `f` has become the directory of a new process. -/
def PageMap.addDir (g : PageMap) (f : ℕ) : PageMap where
  role := Function.update g.role f .dir
  len := Function.update g.len f 8

/-- An entry as `vmalloc` initialises it is one of a private table. -/
theorem pteOk_empty : PteOk pteEmpty :=
  ⟨.inl rfl, fun hp => absurd hp Bool.false_ne_true, fun hp => absurd hp Bool.false_ne_true⟩

/-- A word of the page that becomes a table. -/
theorem newTable_of_mem {m : Mem} {pde f w : ℕ} (h₁ : f * 1024 ≤ w) (h₂ : w < f * 1024 + 1024) :
    newTable m pde f w = pteEmpty := by
  rw [newTable, initTable, fill_of_mem h₁ h₂]

/-- The directory entry that gets the table. -/
theorem newTable_pde {m : Mem} {pde f : ℕ} (h : pde < f * 1024 ∨ f * 1024 + 1024 ≤ pde) :
    newTable m pde f pde = pdeTable f := by
  rw [newTable, initTable, fill_of_not_mem h, write_same]

/-- A new table leaves every word but its directory entry and its own page. -/
theorem newTable_other {m : Mem} {pde f w : ℕ} (h : w < f * 1024 ∨ f * 1024 + 1024 ≤ w) (hw : w ≠ pde) :
    newTable m pde f w = m w := by
  rw [newTable, initTable, fill_of_not_mem h, write_other hw]

/-- The pages of the Xinu area take eight tables. -/
theorem xinu_tables : XINU_PAGES / 1024 = 8 := rfl

/-- A word outside the page that becomes a directory. -/
theorem initUserDir_other {m : Mem} {f w : ℕ} (hw : w < f * 1024 ∨ f * 1024 + 1024 ≤ w) :
    initUserDir m f w = m w := by
  have hw' : w < f * 1024 ∨ f * 1024 + 8 ≤ w := by
    rcases hw with hlt | hge
    · exact .inl hlt
    · exact .inr (le_trans (Nat.add_le_add_left (by decide) _) hge)
  rw [initUserDir, xinu_tables, fill_of_not_mem hw', fill_of_not_mem hw]

/-- A frame of the area fits in the base of an entry. -/
theorem base_frame {f : ℕ} (hf : f < PT_FRAME + 1024) : (BitVec.ofNat 20 f).toNat = f := by
  rw [BitVec.toNat_ofNat, Nat.mod_eq_of_lt]
  rw [show PT_FRAME = 24576 by decide] at hf
  omega

/-- The directory of a new process: eight present entries, which point at the system tables of the
Xinu area. -/
theorem initUserDir_dirOk (m : Mem) (f : ℕ) : DirOk (initUserDir m f) f 8 := by
  have hlow : ∀ i < 8, initUserDir m f (f * 1024 + i) = pdeEmpty.pointTo (PT_FRAME + (i + 1)) := by
    intro i hi
    rw [initUserDir, xinu_tables]
    simp only [MAX_PT_SIZE]
    rw [fill_add hi, fill_add (by omega)]
  have hhigh : ∀ i < 1024, 8 ≤ i → initUserDir m f (f * 1024 + i) = pdeEmpty := by
    intro i hi h8
    rw [initUserDir, xinu_tables]
    simp only [MAX_PT_SIZE]
    rw [fill_of_not_mem (by omega), fill_add hi]
  refine ⟨le_refl 8, by decide, fun i hi => ?_, fun i hi => ?_, fun i hi h8 => ?_, fun i hi => ?_⟩
  · rcases Nat.lt_or_ge i 8 with h8 | h8
    · rw [hlow i h8]
      simp [Entry.pointTo, h8]
    · rw [hhigh i hi h8]
      exact ⟨fun hp => absurd hp Bool.false_ne_true, fun hlt => absurd hlt (by omega)⟩
  · rw [hlow i hi]
    rfl
  · rw [hhigh i hi h8]
    rfl
  · rw [hlow i hi, Entry.pointTo, base_frame (by omega)]

namespace Layout

variable {m : Mem} {g : PageMap}

section

variable {d f : ℕ} (h : Layout m g) (hd : g.role d = .dir) (hlen : g.len d < 1024) (hf : g.role f = .free)

include hlen in
/-- Pages other than the new table keep their words, except the directory entry. -/
theorem newTable_word {x e : ℕ} (hx : x ≠ f) (he : e < 1024) (hpde : x = d → e ≠ g.len d) :
    Xinu.newTable m (d * 1024 + g.len d) f (x * 1024 + e) = m (x * 1024 + e) := by
  refine newTable_other (by omega) fun heq => ?_
  obtain ⟨h₁, h₂⟩ := page_word_inj he hlen heq
  exact hpde h₁ h₂

include hd hlen hf

/-- The words of the tables that were there stay. -/
theorem newTable_heap {w : ℕ} (hw : g.Heap w) : Xinu.newTable m (d * 1024 + g.len d) f w = m w := by
  have hwf : w / 1024 ≠ f := fun he => by rw [PageMap.Heap, he, hf] at hw; exact hw
  have hwd : w / 1024 ≠ d := fun he => by rw [PageMap.Heap, he, hd] at hw; exact hw
  have hword := newTable_word (m := m) hlen hwf (Nat.mod_lt w (Nat.succ_pos 1023)) fun he => absurd he hwd
  rwa [show w / 1024 * 1024 + w % 1024 = w by omega] at hword

/-- The new table is that of the first absent entry, which points at it. -/
theorem newTable_entry : Xinu.newTable m (d * 1024 + g.len d) f (d * 1024 + g.len d) = pdeTable f := by
  have hdf : d ≠ f := fun he => by rw [he, hf] at hd; cases hd
  exact newTable_pde (by omega)

include h

/-- The directory with the new table is in order: its first absent entry is present now. -/
theorem newTable_dirOk : DirOk (Xinu.newTable m (d * 1024 + g.len d) f) d (g.len d + 1) := by
  have hD := h.dir d hd
  have h8 := hD.len_ge
  have hpde : Xinu.newTable m (d * 1024 + g.len d) f (d * 1024 + g.len d) = pdeTable f :=
    newTable_entry hd hlen hf
  have hsame : ∀ i < 1024, i ≠ g.len d →
      Xinu.newTable m (d * 1024 + g.len d) f (d * 1024 + i) = m (d * 1024 + i) :=
    fun i hi hne => newTable_word hlen (fun he => by rw [he, hf] at hd; cases hd) hi fun _ => hne
  refine ⟨by omega, by omega, fun i hi => ?_, fun i hi => ?_, fun i hi hl => ?_, fun i hi => ?_⟩
  · rcases eq_or_ne i (g.len d) with rfl | hne
    · rw [hpde]
      simp [pdeTable]
    · rw [hsame i hi hne, hD.pres_iff i hi]
      omega
  · rcases eq_or_ne i (g.len d) with rfl | hne
    · rw [hpde]
      rfl
    · rw [hsame i (by omega) hne]
      exact hD.avail_pres i (by omega)
  · rw [hsame i hi (by omega)]
    exact hD.avail_abs i hi (by omega)
  · rw [hsame i (by omega) (by omega)]
    exact hD.xinu i hi

/-- Every directory entry of a private table points at a page with that role. -/
theorem newTable_dir_table {x i : ℕ} (hx : g.role x = .dir) (h8 : 8 ≤ i) (hi : i < (g.addTable d f).len x) :
    (g.addTable d f).role (Xinu.newTable m (d * 1024 + g.len d) f (x * 1024 + i)).base.toNat =
      .table x i := by
  by_cases hnewe : x = d ∧ i = g.len d
  · obtain ⟨rfl, rfl⟩ := hnewe
    rw [newTable_entry hd hlen hf, pdeTable, base_frame (h.free_bounds hf).2, PageMap.addTable_role_self]
  · have hi' : i < g.len x := by
      rcases eq_or_ne x d with rfl | hxd
      · rw [PageMap.addTable_len_self] at hi
        have : i ≠ g.len x := fun he => hnewe ⟨rfl, he⟩
        omega
      · rwa [PageMap.addTable_len hxd] at hi
    have hle := (h.dir x hx).len_le
    have hr := h.dir_table x i hx h8 hi'
    rw [newTable_word hlen (fun he => by rw [he, hf] at hx; cases hx) (by omega)
      fun he he' => hnewe ⟨he, he'⟩, PageMap.addTable_role, hr]
    intro he
    rw [he, hf] at hr
    cases hr

/-- Every private table is that of an entry of its directory. -/
theorem newTable_table_dir {t x i : ℕ} (ht : (g.addTable d f).role t = .table x i) :
    (g.addTable d f).role x = .dir ∧ 8 ≤ i ∧ i < (g.addTable d f).len x ∧
      (Xinu.newTable m (d * 1024 + g.len d) f (x * 1024 + i)).base.toNat = t := by
  have hdir : ∀ x, (g.addTable d f).role x = .dir ↔ g.role x = .dir := fun x => PageMap.addTable_dir hf
  rcases eq_or_ne t f with rfl | htf
  · rw [PageMap.addTable_role_self] at ht
    injection ht with h₁ h₂
    subst h₁ h₂
    refine ⟨(hdir _).mpr hd, (h.dir d hd).len_ge, by rw [PageMap.addTable_len_self]; omega, ?_⟩
    rw [newTable_entry hd hlen hf, pdeTable, base_frame (h.free_bounds hf).2]
  · rw [PageMap.addTable_role htf] at ht
    obtain ⟨hx, h8, hi, hb⟩ := h.table_dir t x i ht
    have hle := (h.dir x hx).len_le
    refine ⟨(hdir _).mpr hx, h8, lt_of_lt_of_le hi PageMap.le_addTable_len, ?_⟩
    rw [newTable_word hlen (fun he => by rw [he, hf] at hx; cases hx) (by omega) (by rintro rfl; omega), hb]

omit h

/-- The new table maps no frame. -/
theorem newTable_maps (k w : ℕ) : MapsFrame (Xinu.newTable m (d * 1024 + g.len d) f) (g.addTable d f) k w ↔
    MapsFrame m g k w := by
  constructor
  · rintro ⟨hh, hp, hb⟩
    rcases PageMap.addTable_heap.mp hh with ho | hwf
    · rw [newTable_heap hd hlen hf ho] at hp hb
      exact ⟨ho, hp, hb⟩
    · rw [newTable_of_mem (by omega) (by omega)] at hp
      cases hp
  · rintro ⟨hh, hp, hb⟩
    rw [← newTable_heap hd hlen hf hh] at hp hb
    exact ⟨PageMap.addTable_heap.mpr (.inl hh), hp, hb⟩

end

/-- A free page becomes the table of the first absent entry of a directory. -/
theorem newTable (h : Layout m g) {d f : ℕ} (hd : g.role d = .dir) (hlen : g.len d < 1024)
    (hf : g.role f = .free) : Layout (Xinu.newTable m (d * 1024 + g.len d) f) (g.addTable d f) := by
  have hdb := h.dir_bounds hd
  have hfb := h.free_bounds hf
  have hnef : ∀ {x}, g.role x = .dir → x ≠ f := fun hx he => by rw [he, hf] at hx; cases hx
  refine h.of_user (fun w hlt => newTable_other (by omega) (by omega))
    (fun x => update_role_iff (by rw [hf]; decide) Role.noConfusion)
    (fun x => update_role_iff (by rw [hf]; decide) Role.noConfusion) ?_ ?_ ?_ ?_ ?_
    (newTable_maps hd hlen hf)
  · intro x hx
    have hx := (PageMap.addTable_dir hf).mp hx
    rcases eq_or_ne x d with rfl | hxd
    · rw [PageMap.addTable_len_self]
      exact newTable_dirOk h hd hlen hf
    · rw [PageMap.addTable_len hxd]
      exact (h.dir x hx).congr fun i hi => newTable_word hlen (hnef hx) hi fun he => absurd he hxd
  · exact fun x i hx h8 hi => newTable_dir_table h hd hlen hf ((PageMap.addTable_dir hf).mp hx) h8 hi
  · exact fun t x i ht => newTable_table_dir h hd hlen hf ht
  · intro w hh
    rcases PageMap.addTable_heap.mp hh with ho | hwf
    · rw [newTable_heap hd hlen hf ho]
      exact h.pte w ho
    · rw [newTable_of_mem (by omega) (by omega)]
      exact pteOk_empty
  · intro x hx e he
    have hxf : x ≠ f := fun he => by rw [he, PageMap.addTable_role_self] at hx; cases hx
    rw [PageMap.addTable_role hxf] at hx
    have hxd : x ≠ d := fun he => by rw [he, hd] at hx; cases hx
    rw [newTable_word hlen hxf he fun he => absurd he hxd]
    exact h.free x hx e he

/-- A free page becomes the directory of a new process. -/
theorem initUserDir (h : Layout m g) {f : ℕ} (hf : g.role f = .free) :
    Layout (Xinu.initUserDir m f) (g.addDir f) := by
  -- The free page is no page of the system.
  have hfb := h.free_bounds hf
  have hrf : (g.addDir f).role f = .dir := Function.update_self ..
  have hro : ∀ {x}, x ≠ f → (g.addDir f).role x = g.role x := fun hx => Function.update_of_ne hx _ _
  have hlf : (g.addDir f).len f = 8 := Function.update_self ..
  have hlo : ∀ {x}, x ≠ f → (g.addDir f).len x = g.len x := fun hx => Function.update_of_ne hx _ _
  -- Only the page itself is written.
  have hother : ∀ {w}, w < f * 1024 ∨ f * 1024 + 1024 ≤ w → Xinu.initUserDir m f w = m w :=
    fun hw => initUserDir_other hw
  have hpage : ∀ x e, x ≠ f → e < 1024 →
      Xinu.initUserDir m f (x * 1024 + e) = m (x * 1024 + e) := fun x e hx he => hother (by omega)
  -- The page was not in a heap, and as a directory it is not.
  have hheap' : ∀ w, (g.addDir f).Heap w ↔ g.Heap w := by
    intro w
    rw [PageMap.Heap, PageMap.Heap]
    rcases eq_or_ne (w / 1024) f with he | hne
    · rw [he, hrf, hf]
      rfl
    · rw [hro hne]
  have hheap : ∀ w, g.Heap w → Xinu.initUserDir m f w = m w := by
    intro w hh
    have hwf : w / 1024 ≠ f := fun he => by rw [PageMap.Heap, he, hf] at hh; exact hh
    exact hother (by omega)
  refine h.of_user (fun w hlt => hother (by omega))
    (fun x => update_role_iff (by rw [hf]; decide) Role.noConfusion)
    (fun x => update_role_iff (by rw [hf]; decide) Role.noConfusion) ?_ ?_ ?_ ?_ ?_ ?_
  -- The new directory has its eight entries, and the others are as they were.
  · intro x hx
    rcases eq_or_ne x f with rfl | hxf
    · rw [hlf]
      exact initUserDir_dirOk m x
    · rw [hro hxf] at hx
      rw [hlo hxf]
      exact (h.dir x hx).congr fun i hi => hpage x i hxf hi
  · intro x i hx h8 hi
    rcases eq_or_ne x f with rfl | hxf
    · rw [hlf] at hi
      omega
    · rw [hro hxf] at hx
      rw [hlo hxf] at hi
      have hr := h.dir_table x i hx h8 hi
      rw [hpage x i hxf (by have := (h.dir x hx).len_le; omega), hro, hr]
      intro he
      rw [he, hf] at hr
      cases hr
  -- A table belongs to an old directory: the page was free, so it was none.
  · intro t x i ht
    have htf : t ≠ f := fun he => by rw [he, hrf] at ht; cases ht
    rw [hro htf] at ht
    obtain ⟨hx, h8, hi, hb⟩ := h.table_dir t x i ht
    have hxf : x ≠ f := fun he => by rw [he, hf] at hx; cases hx
    have hle := (h.dir x hx).len_le
    rw [hro hxf, hlo hxf, hpage x i hxf (by omega)]
    exact ⟨hx, h8, hi, hb⟩
  · intro w hh
    rw [hheap w ((hheap' w).mp hh)]
    exact h.pte w ((hheap' w).mp hh)
  -- The other free pages are not written.
  · intro x hx e he
    have hxf : x ≠ f := fun he => by rw [he, hrf] at hx; cases hx
    rw [hro hxf] at hx
    rw [hpage x e hxf he]
    exact h.free x hx e he
  · intro k w
    rw [MapsFrame, MapsFrame, hheap']
    refine and_congr_right fun hh => ?_
    rw [hheap w hh]

end Layout

/-! ## Frames -/

namespace Layout

variable {m m' : Mem} {g : PageMap}

/-- Entries of private tables become invalid, and the frames that they mapped become free. -/
theorem release (h : Layout m g) {S : ℕ → Prop} (hS : ∀ w, S w → g.Heap w)
    (hin : ∀ w, S w → (m' w).avail = 2#3 ∧ (m' w).pres = false)
    (hfreed : ∀ k < 16384, (∃ w, S w ∧ MapsFrame m g k w) →
      m' (FFS_WORD + k) = { m (FFS_WORD + k) with avail := 2#3 })
    (hffs : ∀ k < 16384, ¬ (∃ w, S w ∧ MapsFrame m g k w) → m' (FFS_WORD + k) = m (FFS_WORD + k))
    (hother : ∀ w, ¬ S w → ¬ IsFfs w → m' w = m w) : Layout m' g := by
  have hheap : ∀ w, g.Heap w → ¬ S w → m' w = m w := fun w hh hs =>
    hother w hs (h.not_ffs_of_heap hh)
  -- The entries that still map a frame are those that did and were not released.
  have hmaps : ∀ k w, MapsFrame m' g k w ↔ MapsFrame m g k w ∧ ¬ S w := by
    intro k w
    by_cases hs : S w
    · simp [MapsFrame, (hin w hs).2, hs]
    · rw [MapsFrame, MapsFrame]
      constructor
      · rintro ⟨hh, hp, hb⟩
        rw [hheap w hh hs] at hp hb
        exact ⟨⟨hh, hp, hb⟩, hs⟩
      · rintro ⟨⟨hh, hp, hb⟩, -⟩
        rw [← hheap w hh hs] at hp hb
        exact ⟨hh, hp, hb⟩
  refine h.of_entries (fun w hw hf => hother w (fun hs => hw (hS w hs)) hf) (fun k hk => ?_)
    (fun w hw => ?_) (fun k hk => ?_) (fun k w w' hw hw' => ?_)
  · obtain ⟨hp, hb, ha⟩ := h.ffs k hk
    by_cases hex : ∃ w, S w ∧ MapsFrame m g k w
    · constructor <;> rw [hfreed k hk hex]
      · exact hp
      · exact hb
      · exact .inl rfl
    · exact ffsOk_congr (h.ffs k hk) (hffs k hk hex)
  · by_cases hs : S w
    · obtain ⟨ha, hp⟩ := hin w hs
      refine ⟨.inl ha, fun hp' => ?_, fun hp' => ?_⟩ <;> rw [hp] at hp' <;> cases hp'
    · rw [hheap w hw hs]
      exact h.pte w hw
  · simp only [hmaps]
    by_cases hex : ∃ w, S w ∧ MapsFrame m g k w
    · rw [hfreed k hk hex]
      obtain ⟨w, hs, hw⟩ := hex
      refine ⟨fun he => absurd he (show (2#3 : BitVec 3) ≠ 3#3 by decide), ?_⟩
      rintro ⟨w', hw', hs'⟩
      rw [h.frame_inj k w w' hw hw'] at hs
      exact absurd hs hs'
    · rw [hffs k hk hex, h.frame_used k hk]
      constructor
      · rintro ⟨w, hw⟩
        exact ⟨w, hw, fun hs => hex ⟨w, hs, hw⟩⟩
      · rintro ⟨w, hw, -⟩
        exact ⟨w, hw⟩
  · exact h.frame_inj k w w' ((hmaps k w).mp hw).1 ((hmaps k w').mp hw').1

/-- An allocated entry that is not present gets a free frame. -/
theorem mapFrame (h : Layout m g) {w i : ℕ} (hw : g.Heap w) (ha : (m w).avail = 3#3)
    (hp : (m w).pres = false) (hi : i < 16384) (hf : (m (FFS_WORD + i)).avail ≠ 3#3)
    (hmw : m' w = { m w with base := (m (FFS_WORD + i)).base, pres := true })
    (hmi : m' (FFS_WORD + i) = { m (FFS_WORD + i) with avail := 3#3 })
    (hother : ∀ v, v ≠ w → v ≠ FFS_WORD + i → m' v = m v) : Layout m' g := by
  have hbase := (h.ffs i hi).base
  have hheap : ∀ v, g.Heap v → v ≠ w → m' v = m v := by
    intro v hv hne
    refine hother v hne ?_
    rintro rfl
    exact h.not_ffs_of_heap hv (isFfs_add hi)
  have hwi : ∀ k < 16384, FFS_WORD + k ≠ w := by
    rintro k hk rfl
    exact h.not_ffs_of_heap hw (isFfs_add hk)
  have hffs : ∀ k < 16384, k ≠ i → m' (FFS_WORD + k) = m (FFS_WORD + k) :=
    fun k hk hne => hother _ (hwi k hk) (by omega)
  -- The new entry maps frame `i`, which nothing mapped before.
  have hnone : ∀ v, ¬ MapsFrame m g i v := fun v hv => hf ((h.frame_used i hi).mpr ⟨v, hv⟩)
  have hmaps : ∀ k v, MapsFrame m' g k v ↔ MapsFrame m g k v ∨ (k = i ∧ v = w) := by
    intro k v
    rcases eq_or_ne v w with rfl | hne
    · rw [MapsFrame, MapsFrame, hmw, hp]
      simp only [hw, hbase]
      constructor
      · rintro ⟨-, -, hk⟩
        exact .inr ⟨by omega, trivial⟩
      · rintro (⟨-, hc, -⟩ | ⟨rfl, -⟩)
        · cases hc
        · exact ⟨trivial, trivial, rfl⟩
    · rw [MapsFrame, MapsFrame]
      constructor
      · rintro ⟨hh, hp', hb⟩
        rw [hheap v hh hne] at hp' hb
        exact .inl ⟨hh, hp', hb⟩
      · rintro (⟨hh, hp', hb⟩ | ⟨-, he⟩)
        · rw [← hheap v hh hne] at hp' hb
          exact ⟨hh, hp', hb⟩
        · exact absurd he hne
  refine h.of_entries (fun v hv hnf => ?_) (fun k hk => ?_) (fun v hv => ?_) (fun k hk => ?_)
    (fun k v v' hv hv' => ?_)
  · refine hother v (fun he => hv (he ▸ hw)) ?_
    rintro rfl
    exact hnf (isFfs_add hi)
  · rcases eq_or_ne k i with rfl | hne
    · constructor <;> rw [hmi]
      · exact (h.ffs k hk).pres
      · exact hbase
      · exact .inr rfl
    · exact ffsOk_congr (h.ffs k hk) (hffs k hk hne)
  · rcases eq_or_ne v w with rfl | hne
    · rw [hmw]
      exact ⟨.inr ha, fun _ => ha, fun _ => ⟨by simp only [hbase]; omega, by simp only [hbase]; omega⟩⟩
    · rw [hheap v hv hne]
      exact h.pte v hv
  · simp only [hmaps]
    rcases eq_or_ne k i with rfl | hne
    · rw [hmi]
      exact ⟨fun _ => ⟨w, .inr ⟨rfl, rfl⟩⟩, fun _ => rfl⟩
    · rw [hffs k hk hne, h.frame_used k hk]
      constructor
      · rintro ⟨v, hv⟩
        exact ⟨v, .inl hv⟩
      · rintro ⟨v, hv | ⟨he, -⟩⟩
        · exact ⟨v, hv⟩
        · exact absurd he hne
  · rcases (hmaps k v).mp hv with hv | ⟨rfl, rfl⟩ <;> rcases (hmaps _ v').mp hv' with hv' | ⟨he, rfl⟩
    · exact h.frame_inj k v v' hv hv'
    · exact absurd (he ▸ hv) (hnone v)
    · exact absurd hv' (hnone v')
    · rfl

end Layout

end Xinu
