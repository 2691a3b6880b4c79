import Xinu.Lfs.Create
import Xinu.Lfs.TruncateSpec

/-!
# All files and the free blocks

Each block of the disk is free or belongs to one file (`LfStore`). What a call does with its file
and the free blocks leaves the other files as they are (`LfStore.call`).
-/

namespace Xinu

/-! ## Lists of lists -/

section

variable {α β : Type} {l : List α} {j k : ℕ} {a b : α} {g : α → List β} {u v : List β}

/-- A list put together from parts, when one part changes. -/
theorem flatMap_set_perm (hk : l[k]? = some a) (h : (v ++ g b).Perm (u ++ g a)) :
    (v ++ (l.set k b).flatMap g).Perm (u ++ l.flatMap g) := by
  obtain ⟨hlt, hget⟩ := List.getElem?_eq_some_iff.mp hk
  have hl : l = l.take k ++ a :: l.drop (k + 1) := by
    rw [← hget, List.getElem_cons_drop hlt, List.take_append_drop]
  have hset : l.set k b = l.take k ++ b :: l.drop (k + 1) :=
    List.set_eq_take_append_cons_drop.trans (if_pos hlt)
  have hbefore : l.flatMap g = (l.take k).flatMap g ++ (g a ++ (l.drop (k + 1)).flatMap g) := by
    conv_lhs => rw [hl]
    rw [List.flatMap_append, List.flatMap_cons]
  rw [hset, hbefore, List.flatMap_append, List.flatMap_cons]
  have hmove : ∀ (w p q r : List β), (w ++ (p ++ (q ++ r))).Perm (w ++ q ++ (p ++ r)) := fun w p q r => by
    rw [List.append_assoc]
    refine List.Perm.append_left w ?_
    rw [← List.append_assoc, ← List.append_assoc]
    exact List.perm_append_comm.append_right r
  exact (hmove v _ (g b) _).trans ((h.append_right _).trans (hmove u _ (g a) _).symm)

/-- One part with something before all parts. -/
theorem sublist_flatMap (hk : l[k]? = some a) (u : List β) (g : α → List β) :
    (u ++ g a).Sublist (u ++ l.flatMap g) :=
  (List.sublist_flatten_of_mem (List.mem_map_of_mem (List.mem_of_getElem? hk))).append_left u

/-- If no member occurs twice, what is in one part is neither before all parts nor in another one. -/
theorem not_mem_other (hnodup : (u ++ l.flatMap g).Nodup)
    (hk : l[k]? = some a) (hj : l[j]? = some b) (hne : j ≠ k) {x : β} (hx : x ∈ g b) :
    x ∉ u ++ g a := by
  obtain ⟨-, hparts, hbefore⟩ := List.nodup_append'.mp hnodup
  have hpair := List.pairwise_iff_getElem.mp (List.nodup_flatMap.mp hparts).2
  obtain ⟨hk', rfl⟩ := List.getElem?_eq_some_iff.mp hk
  obtain ⟨hj', rfl⟩ := List.getElem?_eq_some_iff.mp hj
  rw [List.mem_append]
  rintro (hu | hm)
  · exact hbefore hu (List.mem_flatMap.mpr ⟨_, List.getElem_mem hj', hx⟩)
  · rcases Nat.lt_or_gt_of_ne hne with hlt | hgt
    · exact hpair j k hj' hk' hlt hx hm
    · exact hpair k j hk' hj' hgt hm hx

end

/-! ## The areas -/

/-- The areas fit into the numbers that name them. -/
structure LfAreas.Small (A : LfAreas) : Prop where
  /-- The numbers of index blocks are positive words. -/
  indices : A.lfiblks < 2 ^ 31
  /-- The numbers of data blocks are positive words. -/
  sectors : A.dbindex + A.dblks < 2 ^ 31
  /-- A position can count all bytes. -/
  bytes : LF_BLKSIZ * A.dblks < 2 ^ 32

/-! ## The store -/

/-- Control blocks for the files of the directory, those of the open files and others in which
nothing is dirty. -/
structure LfStore (A : LfAreas) (d : Lfdata) (fs : List LfLayout)
    (ifreePath dfreePath : List ℤ) (cache : ℕ → LfFile) : Prop where
  /-- The areas fit into the numbers. -/
  small : A.Small
  /-- The directory has an entry for each file. -/
  length : d.lf_dir.lfd_files.length = fs.length
  /-- The entry has the length and the first index block, and the control block is that of the entry. -/
  entry : ∀ (k : ℕ) (f : LfLayout), fs[k]? = some f → (cache k).lfdirptr = k ∧
    ∃ e, d.lf_dir.lfd_files[k]? = some e ∧ e.ld_size = f.bytes.length ∧ e.ld_ilist = f.ids.head?.getD LF_INULL
  /-- The blocks are on disk, or newer in the control block. -/
  cached : ∀ (k : ℕ) (f : LfLayout), fs[k]? = some f → Cached d.disk (cache k) f
  /-- A file without bytes has no blocks. -/
  tight : ∀ (k : ℕ) (f : LfLayout), fs[k]? = some f → f.bytes = [] → f.ids = []
  /-- The links of the free index blocks end. -/
  ifree : LinkPath d.disk.nextIb (blockPtr d.lf_dir.lfd_ifree) ifreePath none
  /-- The links of the free data blocks end. -/
  dfree : LinkPath d.disk.nextDb (blockPtr d.lf_dir.lfd_dfree) dfreePath none
  /-- Each index block is free or in one file, once. -/
  indices : (ifreePath ++ fs.flatMap LfLayout.ids).Perm A.indices
  /-- Each data block is free or in one file, once. -/
  sectors : (dfreePath ++ fs.flatMap LfLayout.blocks).Perm A.sectors

/-- A file depends on its own blocks on disk. -/
theorem Cached.of_blocks {disk disk' : LfDisk} {c : LfFile} {f : LfLayout} (h : Cached disk c f)
    (hi : ∀ b ∈ f.ids, disk'.iblks b = disk.iblks b) (hd : ∀ b ∈ f.blocks, disk'.dblks b = disk.dblks b) :
    Cached disk' c f :=
  { h with
    index := fun k b hb => by
      rw [hi b (List.mem_of_getElem? hb)]
      exact h.index k b hb
    data := fun m b hb => by
      rw [hd b (List.mem_of_getElem? hb)]
      exact h.data m b hb }

/-- A file without bytes and blocks. -/
abbrev LfLayout.nil : LfLayout := ⟨[], [], []⟩

/-- A new file. -/
theorem Cached.nil (disk : LfDisk) {c : LfFile} (hi : c.lfinum = LF_INULL)
    (hd : c.lfdnum = LF_DNULL) (hib : c.lfibdirty = false)
    (hdb : c.lfdbdirty = false) (hp : c.lfpos = 0) (hb : c.lfbyte = LF_BLKSIZ) : Cached disk c .nil where
  bytes_le := Nat.zero_le _
  blocks_le := Nat.zero_le _
  index _ _ hk := by cases hk
  data _ _ hk := by cases hk
  inum := .inl hi
  dnum := .inl hd
  ibdirty hd := by simp [hib] at hd
  dbdirty hd := by simp [hdb] at hd
  pos := hp ▸ Nat.zero_le _
  byte hlt := absurd hlt (by rw [hb]; exact lt_irrefl _)

namespace LfStore

variable {A : LfAreas} {d d' : Lfdata} {fs : List LfLayout}
  {ifreePath dfreePath : List ℤ} {cache : ℕ → LfFile} {k j : ℕ} {f f' : LfLayout}
  {c c' : LfFile} {x' : LfAlloc}

/-- No index block is twice in the store. -/
theorem ids_nodup (h : LfStore A d fs ifreePath dfreePath cache) :
    (ifreePath ++ fs.flatMap LfLayout.ids).Nodup :=
  h.indices.nodup_iff.mpr (numbers_nodup _ _)

/-- No data block is twice in the store. -/
theorem blocks_nodup (h : LfStore A d fs ifreePath dfreePath cache) :
    (dfreePath ++ fs.flatMap LfLayout.blocks).Nodup :=
  h.sectors.nodup_iff.mpr (numbers_nodup _ _)

/-- A file of the store, with the free blocks, is one that a call may work on. -/
theorem alone (h : LfStore A d fs ifreePath dfreePath cache) (hk : fs[k]? = some f) :
    Alone d (cache k) ⟨f, ifreePath, dfreePath⟩ := by
  have hi := sublist_flatMap hk ifreePath LfLayout.ids
  have hb := sublist_flatMap hk dfreePath LfLayout.blocks
  obtain ⟨hptr, hentry⟩ := h.entry k f hk
  have hsmall := h.small
  refine ⟨hptr.symm ▸ hentry, h.cached k f hk, h.ifree, h.dfree,
    h.ids_nodup.sublist hi, h.blocks_nodup.sublist hb, fun b hm => ?_,
    fun b hm => ?_, ?_, ?_⟩
  · have := mem_numbers.mp (h.indices.subset (hi.subset hm))
    have := hsmall.indices
    omega
  · have := mem_numbers.mp (h.sectors.subset (hb.subset hm))
    have := hsmall.sectors
    omega
  · have hle := hi.length_le.trans_eq h.indices.length_eq
    rw [LfAreas.indices, length_numbers] at hle
    exact hle.trans_lt hsmall.indices
  · have hle := hb.length_le.trans_eq h.sectors.length_eq
    rw [LfAreas.sectors, length_numbers] at hle
    exact (Nat.mul_le_mul_left _ hle).trans_lt hsmall.bytes

/-- A call that works on one file and the free blocks keeps the other files of the store. -/
theorem call (h : LfStore A d fs ifreePath dfreePath cache) (hk : fs[k]? = some f) (halone : Alone d' c' x')
    (hmoved : LfMoved d d' k ⟨f, ifreePath, dfreePath⟩ x') (hptr : c'.lfdirptr = k)
    (htight : x'.bytes = [] → x'.ids = []) :
    LfStore A d' (fs.set k x'.toLfLayout) x'.ifree x'.dfree (Function.update cache k c') := by
  obtain ⟨hlt, -⟩ := List.getElem?_eq_some_iff.mp hk
  -- a file of the new store is the one of the call, or it was there before
  have hget : ∀ {j g}, (fs.set k x'.toLfLayout)[j]? = some g →
      (j = k ∧ g = x'.toLfLayout) ∨ (j ≠ k ∧ fs[j]? = some g) := fun {j g} hj => by
    by_cases hjk : j = k
    · subst hjk
      rw [List.getElem?_set_self hlt] at hj
      exact .inl ⟨rfl, (Option.some.inj hj).symm⟩
    · rw [List.getElem?_set_ne (Ne.symm hjk)] at hj
      exact .inr ⟨hjk, hj⟩
  have hnames := congrArg List.length hmoved.names
  rw [List.length_map, List.length_map] at hnames
  constructor
  case small => exact h.small
  case length => rw [hnames, List.length_set, h.length]
  case entry =>
    intro j g hj
    rcases hget hj with ⟨rfl, rfl⟩ | ⟨hne, hj⟩
    · rw [Function.update_self]
      exact ⟨hptr, hptr ▸ halone.entry⟩
    · rw [Function.update_of_ne hne, hmoved.files j hne]
      exact h.entry j g hj
  case cached =>
    intro j g hj
    rcases hget hj with ⟨rfl, rfl⟩ | ⟨hne, hj⟩
    · rw [Function.update_self]
      exact halone.cached
    · rw [Function.update_of_ne hne]
      exact (h.cached j g hj).of_blocks (fun b hb => hmoved.iblks b (not_mem_other h.ids_nodup hk hj hne hb))
        fun b hb => hmoved.dblks b (not_mem_other h.blocks_nodup hk hj hne hb)
  case tight =>
    intro j g hj
    rcases hget hj with ⟨rfl, rfl⟩ | ⟨-, hj⟩
    · exact htight
    · exact h.tight j g hj
  case ifree => exact halone.ifree
  case dfree => exact halone.dfree
  case indices => exact (flatMap_set_perm hk hmoved.ids).trans h.indices
  case sectors => exact (flatMap_set_perm hk hmoved.blocks).trans h.sectors

/-- A new file at the end of the directory. -/
theorem append (h : LfStore A d fs ifreePath dfreePath cache)
    (hdir : d'.lf_dir = { d.lf_dir with lfd_files := d.lf_dir.lfd_files ++ [⟨0, LF_INULL, name⟩] })
    (hdisk : d'.disk = d.disk) (hptr : c'.lfdirptr = fs.length) (hc : Cached d.disk c' .nil) :
    LfStore A d' (fs ++ [.nil]) ifreePath dfreePath (Function.update cache fs.length c') := by
  -- A file of the longer list is the new one, or one of the old.
  have hget : ∀ {j g}, (fs ++ [LfLayout.nil])[j]? = some g →
      (j = fs.length ∧ g = .nil) ∨ (j < fs.length ∧ fs[j]? = some g) := fun {j g} hj => by
    rcases Nat.lt_or_ge j fs.length with hlt | hge
    · rw [List.getElem?_append_left hlt] at hj
      exact .inr ⟨hlt, hj⟩
    · rw [List.getElem?_append_right hge, List.getElem?_singleton] at hj
      split_ifs at hj with h0
      exact .inl ⟨by omega, (Option.some.inj hj).symm⟩
  constructor
  case small => exact h.small
  case length => rw [hdir, List.length_append, List.length_append,
    h.length, List.length_singleton, List.length_singleton]
  -- Entries, control blocks and bytes: those of the new file by construction, the others as before.
  case entry =>
    intro j g hj
    rw [hdir]
    rcases hget hj with ⟨rfl, rfl⟩ | ⟨hlt, hj⟩
    · rw [Function.update_self]
      exact ⟨hptr, _, by rw [← h.length]; exact List.getElem?_concat_length .., rfl, rfl⟩
    · obtain ⟨hold, e, he, hrest⟩ := h.entry j g hj
      rw [Function.update_of_ne (Nat.ne_of_lt hlt)]
      refine ⟨hold, e, ?_, hrest⟩
      rw [List.getElem?_append_left (h.length ▸ hlt)]
      exact he
  case cached =>
    intro j g hj
    rw [hdisk]
    rcases hget hj with ⟨rfl, rfl⟩ | ⟨hlt, hj⟩
    · rw [Function.update_self]
      exact hc
    · rw [Function.update_of_ne (Nat.ne_of_lt hlt)]
      exact h.cached j g hj
  case tight =>
    intro j g hj
    rcases hget hj with ⟨rfl, rfl⟩ | ⟨-, hj⟩
    · exact fun _ => rfl
    · exact h.tight j g hj
  case ifree => rw [hdisk, hdir]; exact h.ifree
  case dfree => rw [hdisk, hdir]; exact h.dfree
  case indices =>
    rw [List.flatMap_append, List.flatMap_singleton, List.append_nil]
    exact h.indices
  case sectors =>
    rw [List.flatMap_append, List.flatMap_singleton, List.append_nil]
    exact h.sectors

end LfStore

end Xinu
