import Xinu.Paging.Update

/-!
# The layout at boot

`initialize_page_table` runs once, on a page-table area that is filled with zeros. Afterwards the
area is laid out with the system directory and its 25 tables in front, and every other page free.
-/

namespace Xinu

open FlatMemory

/-- The page-table area is filled with zeros. -/
def ZeroArea (m : Mem) : Prop :=
  ∀ w, PT_FRAME * 1024 ≤ w → w < (PT_FRAME + 1024) * 1024 → m w = Entry.zero

/-- The page map at boot. -/
def bootMap : PageMap where
  role f := if f < PT_FRAME ∨ PT_FRAME + 1024 ≤ f then .outside
    else if f < PT_FRAME + 26 then .system else .free
  len _ := 0

/-- The memory after the first `n` turns of the second loop. -/
structure SystemMarks (m₀ m : Mem) (n : ℕ) : Prop where
  /-- The first directory entries point at the tables behind the directory. -/
  pde : ∀ i < n, m (PT_FRAME * 1024 + i) = pdeEmpty.pointTo (PT_FRAME + (i + 1))
  /-- The others are empty. -/
  empty : ∀ i < 1024, n ≤ i → m (PT_FRAME * 1024 + i) = pdeEmpty
  /-- The entries of these tables map memory one to one. -/
  table : ∀ i < n, ∀ j < 1024, m ((PT_FRAME + (i + 1)) * 1024 + j) = pteSystem i j
  /-- Nothing else has changed. -/
  other : ∀ w, w < PT_FRAME * 1024 ∨ (PT_FRAME + (n + 1)) * 1024 ≤ w → m w = m₀ w

/-- The first loop clears the system directory. -/
theorem systemMarks_start (m : Mem) :
    SystemMarks m (fill m (PT_FRAME * MAX_PT_SIZE) MAX_PT_SIZE fun _ _ => pdeEmpty) 0 := by
  simp only [MAX_PT_SIZE]
  refine ⟨fun i hi => absurd hi (Nat.not_lt_zero i), fun i hi _ => fill_add hi,
    fun i hi => absurd hi (Nat.not_lt_zero i), fun w hw => fill_of_not_mem ?_⟩
  omega

/-- One turn of the second loop makes the table of the next directory entry. -/
theorem SystemMarks.step {m₀ m : Mem} {n : ℕ} (hm : SystemMarks m₀ m n) (hn : n < 1024) :
    SystemMarks m₀ (initSystemTable n m) (n + 1) := by
  unfold initSystemTable
  simp only [MAX_PT_SIZE]
  rw [hm.empty n hn (le_refl n)]
  -- A table lies behind the directory, so filling it changes no entry of the directory.
  have hdir : ∀ (m₁ : Mem), ∀ i < 1024, fill m₁ ((PT_FRAME + (n + 1)) * 1024) 1024
      (fun j _ => pteSystem n j) (PT_FRAME * 1024 + i) = m₁ (PT_FRAME * 1024 + i) :=
    fun m₁ i hi => fill_of_not_mem (by omega)
  constructor
  · intro i hi
    rw [hdir _ i (by omega)]
    -- The entries that are written stay, and the new one is that of its table.
    rcases Nat.lt_succ_iff_lt_or_eq.mp hi with hlt | rfl
    · rw [write_other (by omega)]
      exact hm.pde i hlt
    · rw [write_same]
  · intro i hi hin
    rw [hdir _ i hi, write_other (by omega)]
    exact hm.empty i hi (by omega)
  -- The tables that are filled stay, and the new one is filled.
  · intro i hi j hj
    rcases Nat.lt_succ_iff_lt_or_eq.mp hi with hlt | rfl
    · rw [fill_of_not_mem (by omega), write_other (by omega)]
      exact hm.table i hlt j hj
    · exact fill_add hj
  -- What lies outside the directory and the tables is neither the entry nor the new table.
  · intro w hw
    have hout : (w < (PT_FRAME + (n + 1)) * 1024 ∨ (PT_FRAME + (n + 1)) * 1024 + 1024 ≤ w) ∧
        w ≠ PT_FRAME * 1024 + n ∧ (w < PT_FRAME * 1024 ∨ (PT_FRAME + (n + 1)) * 1024 ≤ w) := by
      generalize PT_FRAME = s at hw ⊢
      clear hdir hm
      omega
    rw [fill_of_not_mem hout.1, write_other hout.2.1]
    exact hm.other w hout.2.2

/-- The memory after `initialize_page_table`. -/
theorem initializePageTable_marks (c : Cpu) : SystemMarks c.mem (initializePageTable c).2.mem 25 := by
  have key : ∀ n ≤ 25, SystemMarks c.mem (Nat.fold n (fun i _ m => initSystemTable i m)
      (fill c.mem (PT_FRAME * MAX_PT_SIZE) MAX_PT_SIZE fun _ _ => pdeEmpty)) n := by
    intro n hn
    induction n with
    | zero => exact systemMarks_start c.mem
    | succ n ih =>
      rw [Nat.fold_succ]
      exact (ih (by omega)).step (by omega)
  exact key 25 (le_refl 25)

/-- An entry of a system table names its frame. -/
theorem pteSystem_base {i j : ℕ} (hi : i < 25) (hj : j < 1024) :
    (pteSystem i j).base.toNat = i * 1024 + j := by
  unfold pteSystem
  simp only [MAX_PT_SIZE]
  rw [BitVec.toNat_ofNat, Nat.mod_eq_of_lt (by omega)]

/-- The page of a system table exists. -/
theorem pteSystem_exist (i j : ℕ) : (pteSystem i j).exist = true := by
  unfold pteSystem Entry.exist
  dsimp only
  split_ifs <;> decide

/-- The entry of FFS frame `k` is in the system tables from the ninth. -/
theorem ffs_word_add (k : ℕ) :
    FFS_WORD + k = (PT_FRAME + (8 + k / 1024 + 1)) * 1024 + k % 1024 := by
  rw [ffs_word_eq]
  generalize PT_FRAME = s
  omega

/-- The pages of the system at boot: the directory, its 25 tables, and nothing else. -/
theorem bootMap_system {f : ℕ} : bootMap.role f = .system ↔ PT_FRAME ≤ f ∧ f < PT_FRAME + 26 := by
  unfold bootMap
  dsimp only
  split_ifs with h₁ h₂
  · exact ⟨fun hc => (by cases hc), fun hc => by omega⟩
  · exact ⟨fun _ => by omega, fun _ => rfl⟩
  · exact ⟨fun hc => (by cases hc), fun hc => by omega⟩

/-- At boot no process has a directory or a table. -/
theorem bootMap_none (f : ℕ) : bootMap.role f ≠ .dir ∧ ∀ d i, bootMap.role f ≠ .table d i := by
  unfold bootMap
  dsimp only
  split_ifs <;> exact ⟨Role.noConfusion, fun _ _ => Role.noConfusion⟩

namespace SystemMarks

variable {m₀ m : Mem} (hm : SystemMarks m₀ m 25)

include hm

/-- The words of the FFS frames lie in the tables from number 8 on. -/
theorem ffs {k : ℕ} (hk : k < 16384) : m (FFS_WORD + k) = pteSystem (8 + k / 1024) (k % 1024) := by
  rw [← hm.table (8 + k / 1024) (by omega) _ (Nat.mod_lt k (by decide)), ffs_word_add]

/-- They are well formed, and not used. -/
theorem ffsOk {k : ℕ} (hk : k < 16384) : FfsOk m k := by
  constructor <;> rw [hm.ffs hk]
  · rfl
  · rw [pteSystem_base (by omega) (Nat.mod_lt k (by decide))]
    omega
  · exact .inl (if_neg (show ¬ 8 + k / 1024 < 8 by omega))

/-- The tables of the system map the words of its address space one by one. -/
theorem tableWord {w : ℕ} (hw : w < 25 * 1024) :
    m ((PT_FRAME + 1) * 1024 + w) = pteSystem (w / 1024) (w % 1024) := by
  have hword := hm.table (w / 1024) (by omega) (w % 1024) (Nat.mod_lt w (by decide))
  rwa [show (PT_FRAME + (w / 1024 + 1)) * 1024 + w % 1024 = (PT_FRAME + 1) * 1024 + w by omega] at hword

/-- The first entries of the directory name the tables, and the others are absent. -/
theorem space : SystemSpace m := by
  refine ⟨fun i hi => ?_, fun i hi h25 => ?_, fun w hw => ?_⟩
  · have hframe : PT_FRAME = 24576 := by decide
    rw [hm.pde i hi]
    exact ⟨rfl, Nat.mod_eq_of_lt (show PT_FRAME + (i + 1) < 2 ^ 20 by omega)⟩
  · rw [hm.empty i hi h25]
    rfl
  · rw [hm.tableWord hw]
    refine ⟨rfl, ?_⟩
    rw [pteSystem_base (by omega) (Nat.mod_lt w (by decide))]
    omega

end SystemMarks

/-- At boot the page-table area is laid out, with all user pages free. -/
theorem boot_layout {c : Cpu} (hz : ZeroArea c.mem) :
    Layout (initializePageTable c).2.mem bootMap := by
  have hm := initializePageTable_marks c
  generalize (initializePageTable c).2.mem = m at hm
  have hheap : ∀ w, ¬ bootMap.Heap w := by
    intro w hw
    obtain ⟨d, i, hr⟩ := hw.exists
    exact (bootMap_none _).2 d i hr
  constructor
  · exact fun f => bootMap_system
  · intro f
    unfold bootMap
    dsimp only
    split_ifs with h₁ h₂
    · exact ⟨fun _ => h₁, fun _ => rfl⟩
    · exact ⟨fun hc => (by cases hc), fun hc => absurd hc h₁⟩
    · exact ⟨fun hc => (by cases hc), fun hc => absurd hc h₁⟩
  · intro f hf
    obtain ⟨h₁, h₂⟩ := bootMap_system.mp hf
    rcases Nat.eq_or_lt_of_le h₁ with rfl | hlt
    · have := hm.pde 0 (by decide)
      rw [add_zero] at this
      rw [this]
      rfl
    · have := hm.table (f - (PT_FRAME + 1)) (by omega) 0 (by decide)
      rw [show PT_FRAME + (f - (PT_FRAME + 1) + 1) = f by omega, add_zero] at this
      rw [this]
      exact pteSystem_exist _ 0
  · intro w hw
    rw [hm.tableWord (by omega)]
    refine ⟨rfl, if_pos (show w / 1024 < 8 by omega), ?_⟩
    rw [pteSystem_base (by omega) (Nat.mod_lt w (by decide))]
    omega
  · intro i hi h25
    rw [hm.empty i hi h25]
    rfl
  · exact hm.space
  · exact fun k hk => hm.ffsOk hk
  · exact fun d hd => absurd hd (bootMap_none d).1
  · exact fun d i hd => absurd hd (bootMap_none d).1
  · exact fun t d i ht => absurd ht ((bootMap_none t).2 d i)
  · exact fun w hw => absurd hw (hheap w)
  -- The pages behind the tables are as they were before the boot: zero.
  · intro f hf e he
    have hb : PT_FRAME + 26 ≤ f ∧ f < PT_FRAME + 1024 := by
      unfold bootMap at hf
      dsimp only at hf
      split_ifs at hf with h₁ h₂
      omega
    rw [hm.other _ (.inr (by omega))]
    exact hz _ (by omega) (by omega)
  -- No frame is used, and no page maps one.
  · intro k hk
    rw [hm.ffs hk]
    refine ⟨fun ha => absurd ha ?_, fun ⟨w, hw⟩ => absurd hw.1 (hheap w)⟩
    rw [show (pteSystem (8 + k / 1024) (k % 1024)).avail = 2#3 from
      if_neg (show ¬ 8 + k / 1024 < 8 by omega)]
    decide
  · exact fun k w w' hw => absurd hw.1 (hheap w)

end Xinu
