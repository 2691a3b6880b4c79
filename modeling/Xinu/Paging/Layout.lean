import Xinu.Paging.Vmalloc
import Xinu.Paging.Vfree

/-!
# The layout of the page-table area

`Layout m g` says that memory `m` is laid out as the page map `g` describes: `g` gives every page of the area
one role, and every user directory the number of its present entries, which are the first ones. The page
map is not in the code. It is what the code's scattered tests (the `avail` bits of the first entry of a
page, the present bits of a directory, the `avail` field of an FFS entry) are evidence for, and each
operation of the code is shown to keep some page map valid.

Directories stay in the page map as long as the area holds them, whether or not their process still
exists; who owns a directory is the business of the process table.
-/

namespace Xinu

open FlatMemory

/-- The constant `FFS_WORD` is the first word of the ninth page after the system directory. -/
theorem ffs_word_eq : FFS_WORD = (PT_FRAME + 9) * 1024 := by decide

/-- The end of mapped memory is the end of the area. -/
theorem mapped_iff (w : ℕ) : Mapped w ↔ w < (PT_FRAME + 1024) * 1024 := by
  rw [Mapped, show PD_PT_AREA_END / 4 = (PT_FRAME + 1024) * 1024 by decide]

/-! ## Roles -/

/-- What a page of the page-table area is used for. -/
inductive Role where
  /-- The system directory or one of its 25 tables. -/
  | system
  /-- The directory of a user process. -/
  | dir
  /-- The table of entry `i` of the directory in frame `d`. -/
  | table (d i : ℕ)
  /-- Nothing. -/
  | free
  /-- The frame is not a page of the area. -/
  | outside
  deriving DecidableEq

/-- The page holds a private page table. -/
def Role.IsTable : Role → Prop
  | table _ _ => True
  | _ => False

/-- A page that holds a private table is the table of some entry of some directory. -/
theorem Role.IsTable.exists {r : Role} (h : r.IsTable) : ∃ d i, r = .table d i := by
  cases r with
  | table d i => exact ⟨d, i, rfl⟩
  | _ => exact h.elim

@[simp] theorem Role.isTable_table (d i : ℕ) : (Role.table d i).IsTable := trivial
@[simp] theorem Role.not_isTable_system : ¬ Role.system.IsTable := id
@[simp] theorem Role.not_isTable_dir : ¬ Role.dir.IsTable := id
@[simp] theorem Role.not_isTable_free : ¬ Role.free.IsTable := id
@[simp] theorem Role.not_isTable_outside : ¬ Role.outside.IsTable := id

/-- The roles of the pages, and the number of present entries of each user directory. -/
structure PageMap where
  /-- The role of a frame. -/
  role : ℕ → Role
  /-- The number of present entries of the directory in a frame. -/
  len : ℕ → ℕ

/-- The word belongs to a private page table. -/
def PageMap.Heap (g : PageMap) (w : ℕ) : Prop := (g.role (w / 1024)).IsTable

/-- The word belongs to the entries of the FFS frames. -/
def IsFfs (w : ℕ) : Prop := FFS_WORD ≤ w ∧ w < FFS_WORD + MAX_FFS_SIZE

/-- The entries of the FFS frames fill sixteen pages. -/
theorem isFfs_iff (w : ℕ) : IsFfs w ↔ (PT_FRAME + 9) * 1024 ≤ w ∧ w < (PT_FRAME + 25) * 1024 := by
  rw [IsFfs, ffs_word_eq, show MAX_FFS_SIZE = 16384 from rfl]
  omega

/-! ## The parts of the layout -/

/-- An entry of a private page table: allocated or not, and a present one is allocated and maps an
FFS frame. -/
structure PteOk (e : Entry) : Prop where
  /-- The available bits say that it exists, or that it is allocated. -/
  avail : e.avail = 2#3 ∨ e.avail = 3#3
  /-- A present entry is allocated. -/
  valid_of_pres : e.pres = true → e.avail = 3#3
  /-- It maps a frame of the FFS area. -/
  base_of_pres : e.pres = true → 8192 ≤ e.base.toNat ∧ e.base.toNat < 8192 + 16384

/-- A user directory with `len` present entries: the first eight point at the system tables of the
Xinu area. -/
structure DirOk (m : Mem) (d len : ℕ) : Prop where
  /-- The entries of the Xinu area are present. -/
  len_ge : 8 ≤ len
  /-- There are 1024 entries. -/
  len_le : len ≤ 1024
  /-- The present entries are the first ones. -/
  pres_iff : ∀ i < 1024, (m (d * 1024 + i)).pres = true ↔ i < len
  /-- They are allocated. -/
  avail_pres : ∀ i < len, (m (d * 1024 + i)).avail = 3#3
  /-- The others have the existence bit alone. -/
  avail_abs : ∀ i < 1024, len ≤ i → (m (d * 1024 + i)).avail = 2#3
  /-- The first eight point at the system tables. -/
  xinu : ∀ i < 8, (m (d * 1024 + i)).base.toNat = PT_FRAME + (i + 1)

/-- A directory whose entries keep their values stays well formed. -/
theorem DirOk.congr {m m' : Mem} {d len : ℕ} (h : DirOk m d len)
    (hs : ∀ i < 1024, m' (d * 1024 + i) = m (d * 1024 + i)) : DirOk m' d len := by
  obtain ⟨h₁, h₂, h₃, h₄, h₅, h₆⟩ := h
  refine ⟨h₁, h₂, fun i hi => ?_, fun i hi => ?_, fun i hi hl => ?_, fun i hi => ?_⟩
  · rw [hs i hi]
    exact h₃ i hi
  · rw [hs i (by omega)]
    exact h₄ i hi
  · rw [hs i hi]
    exact h₅ i hi hl
  · rw [hs i (by omega)]
    exact h₆ i hi

/-- The entry of the FFS frame `k`: it maps the frame, and is free or used. -/
structure FfsOk (m : Mem) (k : ℕ) : Prop where
  /-- It is present. -/
  pres : (m (FFS_WORD + k)).pres = true
  /-- It has the address of the frame. -/
  base : (m (FFS_WORD + k)).base.toNat = 8192 + k
  /-- The available bits say that it is free, or that it is used. -/
  avail : (m (FFS_WORD + k)).avail = 2#3 ∨ (m (FFS_WORD + k)).avail = 3#3

/-- The address space of the system processes: the first 25 entries of the system directory point at
the system tables, which map all of memory one to one, and no other entry is present. -/
structure SystemSpace (m : Mem) : Prop where
  /-- The first 25 entries point at the system tables. -/
  entry : ∀ i < 25, (m (PT_FRAME * 1024 + i)).pres = true ∧
    (m (PT_FRAME * 1024 + i)).base.toNat = PT_FRAME + (i + 1)
  /-- No other entry is present. -/
  absent : ∀ i < 1024, 25 ≤ i → (m (PT_FRAME * 1024 + i)).pres = false
  /-- The system tables map memory one to one. -/
  page : ∀ w < 25 * 1024, (m ((PT_FRAME + 1) * 1024 + w)).pres = true ∧
    (m ((PT_FRAME + 1) * 1024 + w)).base.toNat = w

/-- The address space stays when the entries outside the FFS frames keep their values, and those of
the FFS frames still map them. -/
theorem SystemSpace.congr {m m' : Mem} (h : SystemSpace m)
    (hsame : ∀ w, PT_FRAME * 1024 ≤ w → w < (PT_FRAME + 26) * 1024 → ¬ IsFfs w → m' w = m w)
    (hffs : ∀ k < 16384, FfsOk m' k) : SystemSpace m' := by
  have hdir : ∀ i < 1024, m' (PT_FRAME * 1024 + i) = m (PT_FRAME * 1024 + i) := by
    intro i hi
    refine hsame _ (by omega) (by omega) ?_
    rw [isFfs_iff]
    omega
  refine ⟨fun i hi => ?_, fun i hi h25 => ?_, fun w hw => ?_⟩
  · rw [hdir i (by omega)]
    exact h.entry i hi
  · rw [hdir i hi]
    exact h.absent i hi h25
  · by_cases hf : IsFfs ((PT_FRAME + 1) * 1024 + w)
    · -- Word `w` of the tables is the entry of the FFS frame `w - 8192`.
      rw [isFfs_iff] at hf
      have hk := hffs (w - 8192) (by omega)
      have hword : FFS_WORD + (w - 8192) = (PT_FRAME + 1) * 1024 + w := by
        rw [ffs_word_eq]
        omega
      refine ⟨hword ▸ hk.pres, ?_⟩
      have hbase := hk.base
      rw [hword] at hbase
      omega
    · rw [hsame _ (by omega) (by omega) hf]
      exact h.page w hw

/-- The word holds a present entry of a private table that maps FFS frame `k`. -/
def MapsFrame (m : Mem) (g : PageMap) (k w : ℕ) : Prop :=
  g.Heap w ∧ (m w).pres = true ∧ (m w).base.toNat = 8192 + k

/-- Memory is laid out as the page map says. -/
structure Layout (m : Mem) (g : PageMap) : Prop where
  /-- The system directory and its 25 tables come first in the area. -/
  role_system : ∀ f, g.role f = .system ↔ PT_FRAME ≤ f ∧ f < PT_FRAME + 26
  /-- All other pages of the area belong to it. -/
  role_outside : ∀ f, g.role f = .outside ↔ f < PT_FRAME ∨ PT_FRAME + 1024 ≤ f
  /-- The first entry of a system page says that the page exists. -/
  system_exist : ∀ f, g.role f = .system → (m (f * 1024)).exist = true
  /-- The system tables of the Xinu area map it one to one. -/
  xinu : ∀ w < 8192, (m ((PT_FRAME + 1) * 1024 + w)).pres = true ∧
    (m ((PT_FRAME + 1) * 1024 + w)).avail = 3#3 ∧
    (m ((PT_FRAME + 1) * 1024 + w)).base.toNat = w
  /-- The system directory has 25 valid entries, for the tables of the mapped memory. -/
  system_absent : ∀ i < 1024, 25 ≤ i → (m (PT_FRAME * 1024 + i)).valid = false
  /-- The system directory maps all of memory. -/
  system_space : SystemSpace m
  /-- The entries of the FFS frames are in order. -/
  ffs : ∀ k < 16384, FfsOk m k
  /-- The user directories are in order. -/
  dir : ∀ d, g.role d = .dir → DirOk m d (g.len d)
  /-- A present entry of the private heap points at its table. -/
  dir_table : ∀ d i, g.role d = .dir → 8 ≤ i → i < g.len d →
    g.role (m (d * 1024 + i)).base.toNat = .table d i
  /-- A table is the table of the entry that points at it. -/
  table_dir : ∀ t d i, g.role t = .table d i →
    g.role d = .dir ∧ 8 ≤ i ∧ i < g.len d ∧ (m (d * 1024 + i)).base.toNat = t
  /-- The entries of the private heaps are in order. -/
  pte : ∀ w, g.Heap w → PteOk (m w)
  /-- The entries of a free page are cleared. -/
  free : ∀ f, g.role f = .free → ∀ e < 1024, m (f * 1024 + e) = Entry.zero
  /-- An FFS frame is used exactly when some present entry maps it. -/
  frame_used : ∀ k < 16384, (m (FFS_WORD + k)).avail = 3#3 ↔ ∃ w, MapsFrame m g k w
  /-- No frame is mapped twice. -/
  frame_inj : ∀ k w w', MapsFrame m g k w → MapsFrame m g k w' → w = w'

namespace Layout

variable {m m' : Mem} {g : PageMap}

/-- A user page lies behind the system pages, inside the area. -/
theorem user_bounds (h : Layout m g) {f : ℕ} (hs : g.role f ≠ .system) (ho : g.role f ≠ .outside) :
    PT_FRAME + 26 ≤ f ∧ f < PT_FRAME + 1024 := by
  have h₁ := mt (h.role_system f).mpr hs
  have h₂ := mt (h.role_outside f).mpr ho
  omega

/-- The frame of a directory is one of the user pages. -/
theorem dir_bounds (h : Layout m g) {d : ℕ} (hd : g.role d = .dir) :
    PT_FRAME + 26 ≤ d ∧ d < PT_FRAME + 1024 :=
  h.user_bounds (by rw [hd]; decide) (by rw [hd]; decide)

/-- The frame of a private table is one of the user pages. -/
theorem table_bounds (h : Layout m g) {t d i : ℕ} (ht : g.role t = .table d i) :
    PT_FRAME + 26 ≤ t ∧ t < PT_FRAME + 1024 :=
  h.user_bounds (by rw [ht]; exact Role.noConfusion) (by rw [ht]; exact Role.noConfusion)

/-- A frame that is free is one of the user pages. -/
theorem free_bounds (h : Layout m g) {f : ℕ} (hf : g.role f = .free) :
    PT_FRAME + 26 ≤ f ∧ f < PT_FRAME + 1024 :=
  h.user_bounds (by rw [hf]; decide) (by rw [hf]; decide)

/-- A word of a private table lies in the user pages. -/
theorem heap_bounds (h : Layout m g) {w : ℕ} (hw : g.Heap w) :
    (PT_FRAME + 26) * 1024 ≤ w ∧ w < (PT_FRAME + 1024) * 1024 := by
  obtain ⟨d, i, hr⟩ := hw.exists
  have := h.table_bounds hr
  omega

/-- The entries of the FFS frames are not in a private table. -/
theorem not_ffs_of_heap (h : Layout m g) {w : ℕ} (hw : g.Heap w) : ¬ IsFfs w := by
  have := h.heap_bounds hw
  rw [isFfs_iff]
  omega

/-- The first entry of a free page has no bit of `avail` set. -/
theorem free_avail (h : Layout m g) {f : ℕ} (hf : g.role f = .free) : (m (f * 1024)).avail = 0#3 := by
  have := h.free f hf 0 (by decide)
  rw [add_zero] at this
  rw [this]
  rfl

/-- A word of the table of entry `i` of the directory `d`. -/
theorem heap_of_table {t d i e : ℕ} (ht : g.role t = .table d i) (he : e < 1024) :
    g.Heap (t * 1024 + e) := by
  rw [PageMap.Heap, show (t * 1024 + e) / 1024 = t by omega, ht]
  trivial

/-- A word of a page that holds no table is not a heap word. -/
theorem not_heap {f e : ℕ} (hf : ¬ (g.role f).IsTable) (he : e < 1024) :
    ¬ g.Heap (f * 1024 + e) := by
  rwa [PageMap.Heap, show (f * 1024 + e) / 1024 = f by omega]

/-- A page of the area exists for `initialize_user_page_dir`, or is not free for `vmalloc`, exactly
when it has a role. -/
theorem exist_of_role (h : Layout m g) {f : ℕ} (hf : g.role f ≠ .free) (ho : g.role f ≠ .outside) :
    (m (f * 1024)).exist = true := by
  cases hr : g.role f with
  | system => exact h.system_exist f hr
  | dir =>
    have := (h.dir f hr).avail_pres 0 (by have := (h.dir f hr).len_ge; omega)
    rw [add_zero] at this
    simp [Entry.exist, this]
  | table d i =>
    have := (h.pte _ (heap_of_table hr (Nat.zero_lt_succ 1023))).avail
    rw [add_zero] at this
    rcases this with ha | ha <;> simp [Entry.exist, ha]
  | free => exact absurd hr hf
  | outside => exact absurd hr ho

/-- The test of `vmalloc` finds exactly the free pages of the area. -/
theorem pageFree_iff (h : Layout m g) {f : ℕ} (ho : g.role f ≠ .outside) :
    PageFree m f ↔ g.role f = .free := by
  constructor
  · intro hf
    by_contra hr
    have := h.exist_of_role hr ho
    rw [PageFree] at hf
    simp [Entry.exist, hf] at this
  · exact h.free_avail

/-- The test of `initialize_user_page_dir` finds exactly the free pages of the area. -/
theorem exist_iff (h : Layout m g) {f : ℕ} (ho : g.role f ≠ .outside) :
    (m (f * 1024)).exist = false ↔ g.role f = .free := by
  constructor
  · intro hf
    by_contra hr
    rw [h.exist_of_role hr ho] at hf
    exact Bool.noConfusion hf
  · intro hf
    simp [Entry.exist, h.free_avail hf]

/-- The page `p` of the area is not outside it. -/
theorem role_page_ne_outside (h : Layout m g) {p : ℕ} (hp : p < 1024) :
    g.role (PT_FRAME + p) ≠ .outside := by
  rw [Ne, h.role_outside]
  omega

/-- What a change of entries of private tables and of FFS entries must keep for the layout to stay. -/
theorem of_entries (h : Layout m g) (hsame : ∀ w, ¬ g.Heap w → ¬ IsFfs w → m' w = m w)
    (hffs : ∀ k < 16384, FfsOk m' k) (hpte : ∀ w, g.Heap w → PteOk (m' w))
    (hused : ∀ k < 16384, (m' (FFS_WORD + k)).avail = 3#3 ↔ ∃ w, MapsFrame m' g k w)
    (hinj : ∀ k w w', MapsFrame m' g k w → MapsFrame m' g k w' → w = w') : Layout m' g := by
  -- Pages of other roles, but for the FFS tables, are untouched.
  have hpage : ∀ f e, ¬ (g.role f).IsTable → (f < PT_FRAME + 9 ∨ PT_FRAME + 25 ≤ f) → e < 1024 →
      m' (f * 1024 + e) = m (f * 1024 + e) := by
    intro f e hf hr he
    refine hsame _ (not_heap hf he) ?_
    rw [isFfs_iff]
    omega
  have hdir : ∀ d, g.role d = .dir → ∀ i < 1024, m' (d * 1024 + i) = m (d * 1024 + i) := by
    intro d hd i hi
    have := h.dir_bounds hd
    exact hpage d i (by rw [hd]; exact id) (by omega) hi
  constructor
  · exact h.role_system
  · exact h.role_outside
  · intro f hf
    rcases Nat.lt_or_ge f (PT_FRAME + 9) with hlt | hge
    · have := hpage f 0 (by rw [hf]; exact id) (.inl hlt) (by omega)
      rw [add_zero] at this
      rw [this]
      exact h.system_exist f hf
    · rcases Nat.lt_or_ge f (PT_FRAME + 25) with hlt | hge'
      · -- The first entry of an FFS table is an FFS entry.
        have hk := (hffs ((f - (PT_FRAME + 9)) * 1024) (by omega)).avail
        rw [ffs_word_eq, show (PT_FRAME + 9) * 1024 + (f - (PT_FRAME + 9)) * 1024 = f * 1024 by omega]
          at hk
        rcases hk with ha | ha <;> simp [Entry.exist, ha]
      · have := hpage f 0 (by rw [hf]; exact id) (.inr hge') (by omega)
        rw [add_zero] at this
        rw [this]
        exact h.system_exist f hf
  · intro w hw
    have hf : ¬ (g.role (PT_FRAME + 1 + w / 1024)).IsTable := by
      rw [(h.role_system _).mpr (by omega)]
      exact id
    have := hpage _ (w % 1024) hf (.inl (by omega)) (by omega)
    rw [show (PT_FRAME + 1 + w / 1024) * 1024 + w % 1024 = (PT_FRAME + 1) * 1024 + w by omega] at this
    rw [this]
    exact h.xinu w hw
  · intro i hi h25
    have hf : ¬ (g.role PT_FRAME).IsTable := by
      rw [(h.role_system _).mpr (by omega)]
      exact id
    have := hpage PT_FRAME i hf (.inl (Nat.lt_add_of_pos_right (Nat.succ_pos 8))) hi
    rw [this]
    exact h.system_absent i hi h25
  · refine h.system_space.congr (fun w hlo hhi hf => hsame w (fun hh => ?_) hf) hffs
    have := h.heap_bounds hh
    omega
  · exact hffs
  · intro d hd
    exact (h.dir d hd).congr (hdir d hd)
  · intro d i hd h8 hi
    rw [hdir d hd i (by have := (h.dir d hd).len_le; omega)]
    exact h.dir_table d i hd h8 hi
  · intro t d i ht
    obtain ⟨hd, h8, hi, hb⟩ := h.table_dir t d i ht
    rw [hdir d hd i (by have := (h.dir d hd).len_le; omega)]
    exact ⟨hd, h8, hi, hb⟩
  · exact hpte
  · intro f hf e he
    have hb := h.free_bounds hf
    rw [hpage f e (by rw [hf]; exact id) (.inr (by omega)) he]
    exact h.free f hf e he
  · exact hused
  · exact hinj

end Layout

end Xinu
