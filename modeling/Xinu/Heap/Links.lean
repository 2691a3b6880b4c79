import Xinu.Heap.FreeList

/-!
# The links of the free list

The structures `memblk` of the memory hold a free list: from `memlist` on, each link leads to the
next block and the last one is `NULL`. Each function of the heap does to the links what its
counterpart of `Heap/FreeList.lean` does to the list of the blocks, and it ends, if the blocks are
separated and below the last address.
-/

namespace Xinu

open Regions

namespace Heap

variable {h h' : Heap} {l lo hi mid mid' : List (ℕ × ℕ)} {m : Memblk} {b c : ℕ × ℕ} {n : ℕ}

/-- The links lead from a structure along a list of blocks. -/
def Links (h : Heap) : Memblk → List (ℕ × ℕ) → Prop
  | _, [] => True
  | m, b :: l => h.mnext m = b.1 ∧ b.1 ≠ 0 ∧ h.mlength (.block b.1) = b.2 ∧ Links h (.block b.1) l

/-- The structure at the end of a list of blocks, which the first structure leads to. -/
def lastNode : Memblk → List (ℕ × ℕ) → Memblk
  | m, [] => m
  | _, b :: l => lastNode (.block b.1) l

/-- The structures of a list of blocks. -/
def nodes (l : List (ℕ × ℕ)) : List Memblk := l.map fun b => .block b.1

/-- The free blocks of the heap, in the order of the links. -/
structure Lists (h : Heap) (l : List (ℕ × ℕ)) : Prop where
  /-- The links lead through the blocks, with their lengths. -/
  links : h.Links .memlist l
  /-- The last link is null. -/
  null : h.mnext (lastNode .memlist l) = 0

/-! ## Fields -/

/-- `setNext` sets one link. -/
@[simp] theorem setNext_mnext (h : Heap) (m : Memblk) (v : ℕ) :
    (h.setNext m v).mnext = Function.update h.mnext m v := rfl

/-- `setNext` leaves the lengths alone. -/
@[simp] theorem setNext_mlength (h : Heap) (m : Memblk) (v : ℕ) : (h.setNext m v).mlength = h.mlength := rfl

/-- `setLength` leaves the links alone. -/
@[simp] theorem setLength_mnext (h : Heap) (m : Memblk) (v : ℕ) : (h.setLength m v).mnext = h.mnext := rfl

/-- `setLength` sets one length. -/
@[simp] theorem setLength_mlength (h : Heap) (m : Memblk) (v : ℕ) :
    (h.setLength m v).mlength = Function.update h.mlength m v := rfl

/-- `memlist.mlength` is no link. -/
@[simp] theorem subLength_mnext (h : Heap) (v : ℕ) : (h.subLength v).mnext = h.mnext := rfl

/-- `memlist.mlength` is the length of no block. -/
@[simp] theorem subLength_block (h : Heap) (v a : ℕ) :
    (h.subLength v).mlength (.block a) = h.mlength (.block a) :=
  Function.update_of_ne (show Memblk.block a ≠ .memlist from nofun)
    ((h.mlength .memlist + 2 ^ 32 - v) % 2 ^ 32) h.mlength

/-- A longer block has the same link. -/
@[simp] theorem addLength_mnext (h : Heap) (m : Memblk) (v : ℕ) : (h.addLength m v).mnext = h.mnext := rfl

/-- `addLength` changes one length. -/
@[simp] theorem addLength_mlength (h : Heap) (m : Memblk) (v : ℕ) :
    (h.addLength m v).mlength = Function.update h.mlength m ((h.mlength m + v) % 2 ^ 32) := rfl

/-! ## Lists in parts -/

/-- The end of a list in two parts. -/
@[simp] theorem lastNode_append : lastNode m (lo ++ hi) = lastNode (lastNode m lo) hi := by
  induction lo generalizing m with
  | nil => rfl
  | cons b lo ih => exact ih

/-- The links of a list in two parts. -/
theorem links_append : h.Links m (lo ++ hi) ↔ h.Links m lo ∧ h.Links (lastNode m lo) hi := by
  induction lo generalizing m with
  | nil => exact (and_iff_right trivial).symm
  | cons b lo ih => simp [Links, lastNode, ih, and_assoc]

/-- The end of a list is the first structure or one of the blocks. -/
theorem lastNode_mem : lastNode m l ∈ m :: nodes l := by
  induction l generalizing m with
  | nil => exact List.mem_cons_self
  | cons b l ih => exact List.mem_cons_of_mem _ ih

/-- The structures of a separated list are different. -/
theorem nodes_nodup (h : Separated l) : (Memblk.memlist :: nodes l).Nodup := by
  refine List.nodup_cons.mpr ⟨fun hm => ?_, List.pairwise_map.mpr (h.ascending.imp fun hlt he => ?_)⟩
  · obtain ⟨b, -, hb⟩ := List.mem_map.mp hm
    cases hb
  · exact ne_of_lt hlt (Memblk.block.inj he)

/-- The links of a list depend on its own structures: the lengths of its blocks, and the links of
all but the last. -/
theorem Links.congr (hl : h.Links m l) (hnd : (m :: nodes l).Nodup)
    (hnext : ∀ x ∈ m :: nodes l, x ≠ lastNode m l → h'.mnext x = h.mnext x)
    (hlen : ∀ b ∈ l, h'.mlength (.block b.1) = h.mlength (.block b.1)) : h'.Links m l := by
  induction l generalizing m with
  | nil => trivial
  | cons b l ih =>
    obtain ⟨hm, hb, hlb, hrest⟩ := hl
    obtain ⟨hnot, hnd'⟩ := List.nodup_cons.mp hnd
    have hne : m ≠ lastNode m (b :: l) := fun he => hnot (he ▸ lastNode_mem)
    refine ⟨by rw [hnext m List.mem_cons_self hne, hm], hb, by rw [hlen b List.mem_cons_self, hlb], ?_⟩
    exact ih hrest hnd' (fun x hx => hnext x (List.mem_cons_of_mem _ hx)) fun c hc =>
      hlen c (List.mem_cons_of_mem _ hc)

/-- The end of a list of blocks below an address lies below it. -/
theorem lastNode_lt {s a : ℕ} (hs : Separated lo) (hlo : ∀ b ∈ lo, b.1 + b.2 ≤ s)
    (ha : lastNode .memlist lo = .block a) :
    a < s := by
  have hmem := lastNode_mem (m := .memlist) (l := lo)
  rw [ha] at hmem
  obtain ⟨b, hb, he⟩ := List.mem_map.mp ((List.mem_cons.mp hmem).resolve_left nofun)
  have := hs.pos b hb
  have := hlo b hb
  have := Memblk.block.inj he
  omega

/-- A structure of the memory lies in a range of addresses. -/
def Within (s e : ℕ) (x : Memblk) : Prop := ∃ a, x = .block a ∧ s ≤ a ∧ a < e

/-- Some blocks in the middle of the list give way to others: nothing changes outside the range of
these blocks but the link to them. -/
theorem Lists.replace {s e : ℕ} (hl : h.Lists (lo ++ (mid ++ hi))) (hslo : Separated lo) (hshi : Separated hi)
    (hlo : ∀ b ∈ lo, b.1 + b.2 ≤ s) (hhi : ∀ c ∈ hi, e ≤ c.1) (hse : s ≤ e)
    (hnext : ∀ x, x ≠ lastNode .memlist lo → ¬ Within s e x → h'.mnext x = h.mnext x)
    (hlen : ∀ x, x ≠ .memlist → ¬ Within s e x → h'.mlength x = h.mlength x)
    (hmid : h'.Links (lastNode .memlist lo) mid')
    (hlast : h'.mnext (lastNode (lastNode .memlist lo) mid') =
      h.mnext (lastNode (lastNode .memlist lo) mid)) :
    h'.Lists (lo ++ (mid' ++ hi)) := by
  obtain ⟨hlinks, hnull⟩ := hl
  obtain ⟨h₁, h₂⟩ := links_append.mp hlinks
  obtain ⟨-, h₃⟩ := links_append.mp h₂
  -- The blocks on both sides lie outside the range.
  have hlow : ∀ b ∈ lo, ¬ Within s e (.block b.1) := by
    rintro b hb ⟨a, ha, hsa, -⟩
    have := hslo.pos b hb
    have := hlo b hb
    have := Memblk.block.inj ha
    omega
  have hhigh : ∀ c ∈ hi, ¬ Within s e (.block c.1) ∧ .block c.1 ≠ lastNode .memlist lo := by
    refine fun c hc => ⟨?_, fun he => ?_⟩
    · rintro ⟨a, ha, -, hae⟩
      have := hhi c hc
      have := Memblk.block.inj ha
      omega
    · have := lastNode_lt hslo hlo he.symm
      have := hhi c hc
      omega
  have hlow' : h'.Links .memlist lo := by
    refine h₁.congr (nodes_nodup hslo) (fun x hx hne => hnext x hne ?_) fun b hb => hlen _ nofun (hlow b hb)
    rcases List.mem_cons.mp hx with rfl | hx
    · rintro ⟨a, ha, -⟩
      cases ha
    · obtain ⟨b, hb, rfl⟩ := List.mem_map.mp hx
      exact hlow b hb
  rw [lastNode_append, lastNode_append] at hnull
  cases hi with
  | nil =>
    rw [List.append_nil]
    refine ⟨links_append.mpr ⟨hlow', hmid⟩, ?_⟩
    rw [lastNode_append, hlast]
    exact hnull
  | cons c hi =>
    obtain ⟨hc, hc0, hlc, hrest⟩ := h₃
    -- The link to the first block behind is the old one, and those behind it have not changed.
    have hkeep : ∀ x ∈ nodes (c :: hi), h'.mnext x = h.mnext x := by
      intro x hx
      obtain ⟨d, hd, rfl⟩ := List.mem_map.mp hx
      exact hnext _ (hhigh d hd).2 (hhigh d hd).1
    have hsize : ∀ d ∈ c :: hi, h'.mlength (.block d.1) = h.mlength (.block d.1) :=
      fun d hd => hlen _ nofun (hhigh d hd).1
    have hbehind : h'.Links (.block c.1) hi :=
      hrest.congr (List.nodup_cons.mp (nodes_nodup hshi)).2 (fun x hx _ => hkeep x hx) fun b hb =>
        hsize b (List.mem_cons_of_mem _ hb)
    refine ⟨links_append.mpr ⟨hlow', links_append.mpr ⟨hmid, ?_, hc0, ?_, hbehind⟩⟩, ?_⟩
    · rw [hlast, hc]
    · rw [hsize c List.mem_cons_self, hlc]
    · rw [lastNode_append, lastNode_append]
      rw [lastNode] at hnull ⊢
      rw [hkeep _ lastNode_mem, hnull]

/-! ## Searching -/

/-- The walk of `getmem` stops at the first block that is large enough. -/
theorem getmemLoop_fits {fuel : ℕ} (hl : h.Links m (lo ++ b :: hi)) (hlo : ∀ c ∈ lo, c.2 < n) (hb : n ≤ b.2)
    (hf : lo.length < fuel) : h.getmemLoop n fuel m (h.mnext m) = h.getmemLoop n 1 (lastNode m lo) b.1 := by
  induction lo generalizing m fuel with
  | nil =>
    obtain ⟨k, rfl⟩ := Nat.exists_eq_add_of_lt hf
    obtain ⟨hm, hb0, hlb, -⟩ := hl
    rw [hm, lastNode]
    simp only [getmemLoop, hlb]
    split_ifs <;> first | rfl | omega
  | cons c lo ih =>
    obtain ⟨k, rfl⟩ := Nat.exists_eq_add_of_lt hf
    obtain ⟨hm, hc0, hlc, hrest⟩ := hl
    have hcn := hlo c List.mem_cons_self
    rw [hm, getmemLoop, if_neg hc0, hlc, if_neg (by omega), if_neg (by omega)]
    exact ih hrest (fun d hd => hlo d (List.mem_cons_of_mem _ hd)) (by simp; omega)

/-- The walk of `getmem` goes past blocks that are too small. -/
theorem getmemLoop_none {fuel : ℕ} (hl : h.Links m l) (hnull : h.mnext (lastNode m l) = 0)
    (hsmall : ∀ c ∈ l, c.2 < n)
    (hf : l.length < fuel) : h.getmemLoop n fuel m (h.mnext m) = some (none, h) := by
  induction l generalizing m fuel with
  | nil =>
    obtain ⟨k, rfl⟩ := Nat.exists_eq_add_of_lt hf
    rw [lastNode] at hnull
    rw [hnull, getmemLoop, if_pos rfl]
  | cons c l ih =>
    obtain ⟨k, rfl⟩ := Nat.exists_eq_add_of_lt hf
    obtain ⟨hm, hc0, hlc, hrest⟩ := hl
    have hcn := hsmall c List.mem_cons_self
    rw [hm, getmemLoop, if_neg hc0, hlc, if_neg (by omega), if_neg (by omega)]
    exact ih hrest hnull (fun d hd => hsmall d (List.mem_cons_of_mem _ hd)) (by simp; omega)

/-- The walk of `getstk` leaves what it has found over blocks that are too small. -/
theorem getstkLoop_small {fuel : ℕ} {fits : Option (Memblk × ℕ)} (hl : h.Links m l)
    (hnull : h.mnext (lastNode m l) = 0) (hsmall : ∀ c ∈ l, c.2 < n) (hf : l.length < fuel) :
    h.getstkLoop n fuel m (h.mnext m) fits = some fits := by
  induction l generalizing m fuel with
  | nil =>
    obtain ⟨k, rfl⟩ := Nat.exists_eq_add_of_lt hf
    rw [lastNode] at hnull
    rw [hnull, getstkLoop, if_pos rfl]
  | cons c l ih =>
    obtain ⟨k, rfl⟩ := Nat.exists_eq_add_of_lt hf
    obtain ⟨hm, hc0, hlc, hrest⟩ := hl
    have hcn := hsmall c List.mem_cons_self
    rw [hm, getstkLoop, if_neg hc0, hlc, if_neg (by omega)]
    exact ih hrest hnull (fun d hd => hsmall d (List.mem_cons_of_mem _ hd)) (by simp; omega)

/-- The walk of `getstk` finds the last block that is large enough. -/
theorem getstkLoop_fits {fuel : ℕ} {fits : Option (Memblk × ℕ)} (hl : h.Links m (lo ++ b :: hi))
    (hnull : h.mnext (lastNode m (lo ++ b :: hi)) = 0) (hb : n ≤ b.2) (hhi : ∀ c ∈ hi, c.2 < n)
    (hf : (lo ++ b :: hi).length < fuel) :
    h.getstkLoop n fuel m (h.mnext m) fits = some (some (lastNode m lo, b.1)) := by
  induction lo generalizing m fuel fits with
  | nil =>
    obtain ⟨k, rfl⟩ := Nat.exists_eq_add_of_lt hf
    obtain ⟨hm, hb0, hlb, hrest⟩ := hl
    rw [hm, List.nil_append, getstkLoop, if_neg hb0, hlb, if_pos hb]
    exact getstkLoop_small hrest hnull hhi (by simp; omega)
  | cons c lo ih =>
    obtain ⟨k, rfl⟩ := Nat.exists_eq_add_of_lt hf
    obtain ⟨hm, hc0, hlc, hrest⟩ := hl
    rw [hm, getstkLoop, if_neg hc0]
    exact ih hrest hnull (by simp at hf ⊢; omega)

/-- The walk of `freemem` stops at the first block that does not start below the address. -/
theorem freememLoop_eq {fuel a : ℕ} (hl : h.Links m (lo ++ hi)) (hnull : h.mnext (lastNode m (lo ++ hi)) = 0)
    (hlo : ∀ b ∈ lo, b.1 < a) (hhi : ∀ c ∈ hi, ¬ c.1 < a) (hf : lo.length < fuel) :
    h.freememLoop a fuel m (h.mnext m) = some (lastNode m lo, h.mnext (lastNode m lo)) := by
  induction lo generalizing m fuel with
  | nil =>
    obtain ⟨k, rfl⟩ := Nat.exists_eq_add_of_lt hf
    rw [freememLoop, lastNode]
    refine if_neg ?_
    rintro ⟨h0, hlt⟩
    cases hi with
    | nil => exact h0 hnull
    | cons c hi => exact hhi c List.mem_cons_self (hl.1 ▸ hlt)
  | cons b lo ih =>
    obtain ⟨k, rfl⟩ := Nat.exists_eq_add_of_lt hf
    obtain ⟨hm, hb0, hlb, hrest⟩ := hl
    rw [hm, freememLoop, if_pos ⟨hb0, hlo b List.mem_cons_self⟩]
    exact ih hrest hnull (fun d hd => hlo d (List.mem_cons_of_mem _ hd)) (by simp; omega)

/-! ## What each function does to the list -/

/-- The free blocks are separated, and end below the last address. -/
structure Held (h : Heap) (l : List (ℕ × ℕ)) : Prop where
  /-- The links lead through them. -/
  lists : h.Lists l
  /-- They ascend, and do not touch. -/
  free : Separated l
  /-- They end below the last address. -/
  below : ∀ b ∈ l, b.1 + b.2 < 2 ^ 32

/-- No free list is longer than a walk. -/
theorem Held.length_lt (hh : Held h l) : l.length < ADDRESSES := by
  have hle : l.length ≤ 2 ^ 32 - 1 := hh.free.length_le fun b hb => by
    have := hh.below b hb
    have := hh.free.pos b hb
    omega
  unfold ADDRESSES
  omega

/-- What is known of a block of the list, and of the structure before it. -/
theorem Held.block (hh : Held h (lo ++ b :: hi)) :
    h.mlength (.block b.1) = b.2 ∧ b.1 ≠ 0 ∧ 0 < b.2 ∧ ∀ a, b.1 ≤ a → .block a ≠ lastNode .memlist lo := by
  obtain ⟨-, -, hb0, hlb, -⟩ := links_append.mp hh.lists.links
  obtain ⟨hslo, -, hpos, hbefore, -⟩ := separated_append_cons.mp hh.free
  refine ⟨hlb, hb0, hpos, fun a ha he => ?_⟩
  have := lastNode_lt hslo (fun c hc => le_of_lt (hbefore c hc)) he.symm
  omega

/-- A block of the list gives way to others: only the structures inside it and the link to it change. -/
theorem Held.replace (hh : Held h (lo ++ b :: hi))
    (hnext : ∀ x, x ≠ lastNode .memlist lo → ¬ Within b.1 (b.1 + b.2) x → h'.mnext x = h.mnext x)
    (hlen : ∀ x, x ≠ .memlist → ¬ Within b.1 (b.1 + b.2) x → h'.mlength x = h.mlength x)
    (hmid : h'.Links (lastNode .memlist lo) mid)
    (hlast : h'.mnext (lastNode (lastNode .memlist lo) mid) = h.mnext (.block b.1)) :
    h'.Lists (lo ++ (mid ++ hi)) := by
  obtain ⟨hslo, hshi, -, hbefore, hafter⟩ := separated_append_cons.mp hh.free
  have hl : h.Lists (lo ++ ([b] ++ hi)) := hh.lists
  exact hl.replace hslo hshi (fun c hc => le_of_lt (hbefore c hc)) (fun c hc => le_of_lt (hafter c hc))
    (Nat.le_add_right _ _) hnext hlen hmid hlast

/-- `getmem` takes the first block that is large enough, and leaves the rest of it in its place. -/
theorem getmem_spec (hh : Held h l) (hn : n ≠ 0) (hr : 0 < roundmb n) :
    (takeFirst (roundmb n) l = none ∧ h.getmem n = some (none, h)) ∨
    ∃ a l' h', takeFirst (roundmb n) l = some (a, l') ∧ h.getmem n = some (some a, h') ∧ h'.Lists l' ∧
      h'.minheap = h.minheap ∧ h'.maxheap = h.maxheap := by
  have hfuel := hh.length_lt
  unfold getmem
  rw [if_neg hn]
  generalize roundmb n = k at *
  -- Either every block is too small, or there is a first one that is not.
  rcases split_first l k with hsmall | ⟨lo, b, hi, rfl, hlo, hb⟩
  · exact .inl ⟨takeFirst_none hsmall, getmemLoop_none hh.lists.links hh.lists.null hsmall hfuel⟩
  right
  have hlen : lo.length < ADDRESSES := lt_of_le_of_lt (by simp) hfuel
  rw [getmemLoop_fits hh.lists.links hlo hb hlen, takeFirst_fits hlo hb]
  obtain ⟨hlb, hb0, hpos, hprev⟩ := hh.block
  have hbelow := hh.below b (List.mem_append_right _ List.mem_cons_self)
  by_cases hbk : b.2 = k
  · -- an exact match
    refine ⟨b.1, _, (h.setNext (lastNode .memlist lo) (h.mnext (.block b.1))).subLength k,
      rfl, ?_, ?_, rfl, rfl⟩
    · rw [getmemLoop, if_neg hb0, hlb, if_pos hbk]
    rw [if_pos hbk]
    change Lists _ (lo ++ ([] ++ hi))
    refine hh.replace (fun x hx _ => ?_) (fun x hx _ => ?_) trivial ?_
    · simp [hx]
    · simp [subLength, hx]
    · simp [lastNode]
  · -- the low end of a big block
    have hmod : (b.1 + k) % 2 ^ 32 = b.1 + k := Nat.mod_eq_of_lt (by omega)
    have hin : Within b.1 (b.1 + b.2) (.block (b.1 + k)) := ⟨b.1 + k, rfl, by omega, by omega⟩
    have hne := hprev (b.1 + k) (by omega)
    have hne' := hprev b.1 le_rfl
    rw [getmemLoop, if_neg hb0, hlb, if_neg hbk, if_neg hbk, if_pos (by omega), hmod]
    refine ⟨_, _, _, rfl, rfl, ?_, rfl, rfl⟩
    change Lists _ (lo ++ ([(b.1 + k, b.2 - k)] ++ hi))
    refine hh.replace (fun x hx hw => ?_) (fun x hx hw => ?_) ?_ ?_
    · have hx' : x ≠ .block (b.1 + k) := fun he => hw (he ▸ hin)
      simp [hx, hx']
    · have hx' : x ≠ .block (b.1 + k) := fun he => hw (he ▸ hin)
      simp [subLength, hx, hx']
    · simp [Links, hne.symm, hb0, hlb]
    · simp [lastNode, hne']

/-- `getstk` takes the high end of the last block that is large enough. -/
theorem getstk_spec (hh : Held h l) (hn : n ≠ 0) (hr : 0 < roundmb n) :
    (Xinu.getstk l n = none ∧ h.getstk n = some (none, h)) ∨
    ∃ p l' h', Xinu.getstk l n = some (p, l') ∧ h.getstk n = some (some p, h') ∧ h'.Lists l' ∧
      h'.minheap = h.minheap ∧ h'.maxheap = h.maxheap := by
  have hfuel := hh.length_lt
  unfold getstk Xinu.getstk
  rw [if_neg hn, if_neg hn]
  generalize roundmb n = k at *
  dsimp only
  -- Either every block is too small, or there is a last one that is not.
  rcases split_last l k with hsmall | ⟨lo, b, hi, rfl, hb, hhi⟩
  · left
    rw [takeLast_none hsmall, getstkLoop_small hh.lists.links hh.lists.null hsmall hfuel]
    exact ⟨rfl, rfl⟩
  right
  rw [getstkLoop_fits hh.lists.links hh.lists.null hb hhi hfuel, takeLast_fits hb hhi]
  obtain ⟨hlb, hb0, hpos, hprev⟩ := hh.block
  have hbelow := hh.below b (List.mem_append_right _ List.mem_cons_self)
  have hne := hprev b.1 le_rfl
  by_cases hbk : b.2 = k
  · -- an exact match
    have hmod : (b.1 + k - 4) % 2 ^ 32 = b.1 + b.2 - 4 := by
      rw [Nat.mod_eq_of_lt (by omega), hbk]
    refine ⟨b.1 + b.2 - 4, _, (h.setNext (lastNode .memlist lo) (h.mnext (.block b.1))).subLength k,
      rfl, ?_, ?_, rfl, rfl⟩
    · rw [← hmod]
      simp [hlb, hbk]
    rw [if_pos hbk]
    change Lists _ (lo ++ ([] ++ hi))
    refine hh.replace (fun x hx _ => ?_) (fun x hx _ => ?_) trivial ?_
    · simp [hx]
    · simp [subLength, hx]
    · simp [lastNode]
  · -- the top section of a big block
    have hmod : ((b.1 + (b.2 - k)) % 2 ^ 32 + k - 4) % 2 ^ 32 = b.1 + b.2 - 4 := by
      rw [Nat.mod_eq_of_lt (show b.1 + (b.2 - k) < 2 ^ 32 by omega), Nat.mod_eq_of_lt (by omega)]
      omega
    have hin : Within b.1 (b.1 + b.2) (.block b.1) := ⟨b.1, rfl, le_rfl, by omega⟩
    refine ⟨b.1 + b.2 - 4, _, (h.setLength (.block b.1) (b.2 - k)).subLength k, rfl, ?_, ?_, rfl, rfl⟩
    · rw [← hmod]
      simp [hlb, Ne.symm hbk]
    rw [if_neg hbk]
    change Lists _ (lo ++ ([(b.1, b.2 - k)] ++ hi))
    refine hh.replace (fun x _ _ => rfl) (fun x hx hw => ?_) ?_ ?_
    · have hx' : x ≠ .block b.1 := fun he => hw (he ▸ hin)
      simp [subLength, hx, hx']
    · have hm := (links_append.mp hh.lists.links).2.1
      simp [Links, hb0, hm]
    · simp [lastNode]

/-! ## Taking a block back -/

/-- Where the block before a place in the list ends, as `freemem` computes it. -/
theorem top_cases {a top : ℕ} (hl : h.Lists (lo ++ hi)) (hlo : ∀ b ∈ lo, b.1 + b.2 ≤ a) (ha : a < 2 ^ 32)
    (htop : top = if lastNode .memlist lo = .memlist then 0
      else (h.addr (lastNode .memlist lo) + h.mlength (lastNode .memlist lo)) % 2 ^ 32) :
    (lo = [] ∧ top = 0) ∨ ∃ lo' p, lo = lo' ++ [p] ∧ lastNode .memlist lo = .block p.1 ∧
    top = p.1 + p.2 ∧ p.1 ≠ 0 ∧
      h.mnext (lastNode .memlist lo') = p.1 ∧ h.mlength (.block p.1) = p.2 := by
  rcases List.eq_nil_or_concat lo with rfl | ⟨lo', p, rfl⟩
  · exact .inl ⟨rfl, htop⟩
  rw [List.concat_eq_append] at *
  obtain ⟨hm, hp0, hlp, -⟩ := (links_append.mp (links_append.mp hl.links).1).2
  have hlast : lastNode .memlist (lo' ++ [p]) = .block p.1 := lastNode_append
  have hle := hlo p (List.mem_append_right _ List.mem_cons_self)
  rw [hlast, if_neg nofun, hlp] at htop
  exact .inr ⟨lo', p, rfl, hlast, htop.trans (Nat.mod_eq_of_lt (show p.1 + p.2 < 2 ^ 32 by omega)),
    hp0, hm, hlp⟩

/-- The block is joined with the one before it, or linked into the list behind it. -/
theorem linkPrev_spec {a k next top : ℕ} (hl : h.Lists (lo ++ hi)) (hslo : Separated lo) (hshi : Separated hi)
    (hlo : ∀ b ∈ lo, b.1 + b.2 ≤ a) (hhi : ∀ c ∈ hi, a + k ≤ c.1)
    (hk : 0 < k) (ha : a ≠ 0) (hb : a + k < 2 ^ 32)
    (hnext : next = h.mnext (lastNode .memlist lo))
    (htop : top = if lastNode .memlist lo = .memlist then 0
      else (h.addr (lastNode .memlist lo) + h.mlength (lastNode .memlist lo)) % 2 ^ 32) :
    (h.linkPrev (lastNode .memlist lo) next top a k).1 = .block (joinLow lo a k).2.1 ∧
      (h.linkPrev (lastNode .memlist lo) next top a k).2.Lists
        ((joinLow lo a k).1 ++ ([(joinLow lo a k).2] ++ hi)) ∧
      (h.linkPrev (lastNode .memlist lo) next top a k).2.mnext (.block (joinLow lo a k).2.1) = next := by
  have hcases := top_cases hl hlo (by omega) htop
  unfold linkPrev
  rcases joinLow_cases (n := k) hslo hlo with ⟨he, hgap⟩ | ⟨lo', p, rfl, hp, he⟩
  · -- linked in as a block of its own
    have hne : top ≠ a := by
      rcases hcases with ⟨-, h0⟩ | ⟨lo', p, rfl, -, htop', -⟩
      · exact h0 ▸ ha.symm
      · exact htop' ▸ ne_of_lt (hgap p (List.mem_append_right _ List.mem_cons_self))
    have hprev : .block a ≠ lastNode .memlist lo := fun h => by
      have := lastNode_lt hslo hlo h.symm
      omega
    rw [if_neg hne, he]
    have hl' : h.Lists (lo ++ ([] ++ hi)) := hl
    refine ⟨rfl, hl'.replace (e := a + k) hslo hshi hlo hhi
      (Nat.le_add_right _ _) (fun x hx hw => ?_) (fun x hx hw => ?_)
      ?_ ?_, ?_⟩
    · have hx' : x ≠ .block a := fun he => hw ⟨a, he, le_rfl, by omega⟩
      simp [hx, hx']
    · have hx' : x ≠ .block a := fun he => hw ⟨a, he, le_rfl, by omega⟩
      simp [hx']
    · simp [Links, ha]
    · simp [lastNode, hprev, hnext]
    · simp [hprev]
  · -- joined with the block before
    obtain ⟨h0, -⟩ | ⟨lo'', p', he', hlast, htop', hp0, hm, hlp⟩ := hcases
    · exact absurd h0 (by simp)
    obtain ⟨rfl, hpp⟩ := List.append_inj' he' rfl
    obtain rfl := (List.cons.inj hpp).1
    obtain ⟨hslo', -, hpos, hbefore, -⟩ := separated_append_cons.mp hslo
    have hl' : h.Lists (lo' ++ ([p] ++ hi)) := by rw [← List.append_assoc]; exact hl
    have hmod : (p.2 + k) % 2 ^ 32 = p.2 + k := Nat.mod_eq_of_lt (by omega)
    have hpa : top = a := htop'.trans hp
    rw [if_pos hpa, he, hlast]
    refine ⟨rfl, hl'.replace (s := p.1) (e := a + k) hslo' hshi
      (fun c hc => le_of_lt (hbefore c hc)) hhi (by omega)
      (fun x _ _ => rfl) (fun x hx hw => ?_) ?_ ?_, ?_⟩
    · have hx' : x ≠ .block p.1 := fun he => hw ⟨p.1, he, le_rfl, by omega⟩
      simp [hx']
    · simp only [Links, addLength_mnext, addLength_mlength, Function.update_self, hlp, hmod, hm]
      exact ⟨trivial, hp0, trivial, trivial⟩
    · simp [lastNode]
    · rw [hnext, hlast]
      rfl

/-- The block is joined with the one after it if they touch. -/
theorem linkNext_spec {next : ℕ} (hl : h.Lists (lo ++ ([b] ++ hi)))
    (hslo : Separated lo) (hshi : Separated hi)
    (hlo : ∀ c ∈ lo, c.1 + c.2 ≤ b.1) (hhi : ∀ c ∈ hi, b.1 + b.2 ≤ c.1)
    (hpos : 0 < b.2) (hbelow : ∀ c ∈ b :: hi, c.1 + c.2 < 2 ^ 32)
    (hnext : next = h.mnext (.block b.1)) : (h.linkNext (.block b.1) next).Lists (lo ++ joinHigh b hi) := by
  obtain ⟨hm, hb0, hlb, -⟩ := (links_append.mp hl.links).2
  have hmod : (h.addr (.block b.1) + h.mlength (.block b.1)) % 2 ^ 32 = b.1 + b.2 := by
    rw [hlb]
    exact Nat.mod_eq_of_lt (hbelow b List.mem_cons_self)
  unfold linkNext
  rw [hmod]
  cases hi with
  | nil =>
    have h0 : next = 0 := by
      rw [hnext]
      simpa [lastNode] using hl.null
    rw [h0, if_neg (by omega)]
    exact hl
  | cons c hi =>
    obtain ⟨hc, hc0, hlc, -⟩ := (links_append.mp (links_append.mp hl.links).2).2
    have hnext' : next = c.1 := hnext.trans hc
    subst hnext'
    rw [joinHigh]
    by_cases hbc : b.1 + b.2 = c.1
    · rw [if_pos hbc, if_pos hbc]
      obtain ⟨hshi', hcpos, hafter⟩ := separated_cons.mp hshi
      have hend := hbelow c (List.mem_cons_of_mem _ List.mem_cons_self)
      have hsum : (b.2 + c.2) % 2 ^ 32 = b.2 + c.2 := Nat.mod_eq_of_lt (by omega)
      have hl' : h.Lists (lo ++ ([b, c] ++ hi)) := hl
      have hprev : lastNode .memlist lo ≠ .block b.1 := fun he => by
        have := lastNode_lt hslo hlo he
        omega
      change Lists _ (lo ++ ([(b.1, b.2 + c.2)] ++ hi))
      refine hl'.replace hslo hshi' hlo (fun d hd => le_of_lt (hafter d hd)) (by omega) (fun x hx hw => ?_)
        (fun x hx hw => ?_) ?_ ?_
      · have hx' : x ≠ .block b.1 := fun he => hw ⟨b.1, he, le_rfl, by omega⟩
        simp [hx']
      · have hx' : x ≠ .block b.1 := fun he => hw ⟨b.1, he, le_rfl, by omega⟩
        simp [hx']
      · simp only [Links, setNext_mnext, addLength_mnext, setNext_mlength,
          addLength_mlength, Function.update_self,
          Function.update_of_ne hprev, hlb, hlc, hsum, hm]
        exact ⟨trivial, hb0, trivial, trivial⟩
      · simp [lastNode]
    · rw [if_neg hbc, if_neg hbc]
      exact hl

/-- The bounds of the heap do not change. -/
@[simp] theorem linkNext_bounds (h : Heap) (block : Memblk) (next : ℕ) :
    (h.linkNext block next).minheap = h.minheap ∧ (h.linkNext block next).maxheap = h.maxheap := by
  unfold linkNext
  split <;> exact ⟨rfl, rfl⟩

/-- Linking a block in leaves the bounds of the heap. -/
@[simp] theorem linkPrev_bounds (h : Heap) (prev : Memblk) (next top block nbytes : ℕ) :
    (h.linkPrev prev next top block nbytes).2.minheap = h.minheap ∧
      (h.linkPrev prev next top block nbytes).2.maxheap = h.maxheap := by
  unfold linkPrev
  split <;> exact ⟨rfl, rfl⟩

/-- Links depend on the links and lengths of the structures alone. -/
theorem Links.of_eq (hl : h.Links m l) (hnext : ∀ x ∈ m :: nodes l, h'.mnext x = h.mnext x)
    (hlen : ∀ x ∈ nodes l, h'.mlength x = h.mlength x) : h'.Links m l := by
  induction l generalizing m with
  | nil => trivial
  | cons b l ih =>
    obtain ⟨hm, hb, hlb, hrest⟩ := hl
    refine ⟨by rw [hnext m List.mem_cons_self, hm], hb, by rw [hlen _ List.mem_cons_self, hlb], ?_⟩
    exact ih hrest (fun x hx => hnext x (List.mem_cons_of_mem _ hx)) fun x hx =>
      hlen x (List.mem_cons_of_mem _ hx)

/-- A list is the same in another memory that has the same structures. -/
theorem Lists.of_eq (hl : h.Lists l) (hnext : ∀ x ∈ Memblk.memlist :: nodes l, h'.mnext x = h.mnext x)
    (hlen : ∀ x ∈ nodes l, h'.mlength x = h.mlength x) : h'.Lists l :=
  ⟨hl.links.of_eq hnext hlen, (hnext _ lastNode_mem).trans hl.null⟩

/-- `memlist.mlength` is no part of the list. -/
theorem Lists.addLength (hl : h.Lists l) (n : ℕ) : (h.addLength .memlist n).Lists l := by
  refine hl.of_eq (fun _ _ => rfl) fun x hx => ?_
  obtain ⟨b, -, rfl⟩ := List.mem_map.mp hx
  simp

/-- `freemem` takes back a block that was given out. -/
theorem freemem_spec {low high a : ℕ} {given : List (ℕ × ℕ)} (hh : Held h l) (hn : n ≠ 0)
    (hd : Divided low high l ((a, roundmb n) :: given)) (hlow : 0 < low) (hmin : h.minheap ≤ low)
    (hmax : high ≤ h.maxheap + 1) (hhigh : high < 2 ^ 32) :
    ∃ h', h.freemem a n = some (true, h') ∧ h'.Lists (putBlock l a (roundmb n)) ∧
      h'.minheap = h.minheap ∧ h'.maxheap = h.maxheap := by
  have hfuel := hh.length_lt
  have hin := hd.given_inside _ List.mem_cons_self
  have hpos := hin.pos
  have hge := hin.low_le
  have hle := hin.le_high
  unfold freemem
  generalize roundmb n = k at *
  dsimp only at hpos hge hle
  rw [if_neg (by omega)]
  obtain ⟨lo, hi, rfl, hlo, hhi⟩ := hd.free.split a
  have hopen := hd.opened hlo hhi
  have hlen : lo.length < ADDRESSES := lt_of_le_of_lt (by simp) hfuel
  dsimp only
  rw [freememLoop_eq hh.lists.links hh.lists.null hlo hhi hlen]
  dsimp only
  -- The block overlaps none of its neighbours.
  have hmod : (a + k) % 2 ^ 32 = a + k := Nat.mod_eq_of_lt (by omega)
  have hnext : ¬ (h.mnext (lastNode .memlist lo) ≠ 0 ∧ h.mnext (lastNode .memlist lo) < a + k) := by
    rintro ⟨h0, hlt⟩
    cases hi with
    | nil =>
      refine h0 ?_
      have := hh.lists.null
      rwa [List.append_nil] at this
    | cons c hi =>
      rw [(links_append.mp hh.lists.links).2.1] at hlt
      exact absurd hlt (not_lt.mpr (hopen.end_le c List.mem_cons_self))
  have htop : ¬ (lastNode .memlist lo ≠ .memlist ∧ a < if lastNode .memlist lo = .memlist then 0
      else (h.addr (lastNode .memlist lo) + h.mlength (lastNode .memlist lo)) % 2 ^ 32) := by
    rintro ⟨hne, hlt⟩
    rcases top_cases hh.lists hopen.le_start (by omega) rfl with ⟨rfl, -⟩ | ⟨lo', p, rfl, -, htop, -⟩
    · exact hne rfl
    · rw [htop] at hlt
      exact absurd hlt (not_lt.mpr (hopen.le_start p (List.mem_append_right _ List.mem_cons_self)))
  rw [hmod, if_neg (not_or.mpr ⟨htop, hnext⟩), putBlock_eq hlo hhi hopen.le_start hopen.end_le]
  have hl : (h.addLength .memlist k).Lists (lo ++ hi) := hh.lists.addLength k
  -- The total in `memlist` counts for none of the two joins.
  have htop' : (if lastNode .memlist lo = .memlist then 0
      else (h.addr (lastNode .memlist lo) + h.mlength (lastNode .memlist lo)) % 2 ^ 32) =
      if lastNode .memlist lo = .memlist then 0
      else ((h.addLength .memlist k).addr (lastNode .memlist lo) +
        (h.addLength .memlist k).mlength (lastNode .memlist lo)) % 2 ^ 32 := by
    by_cases hm : lastNode .memlist lo = .memlist
    · rw [if_pos hm, if_pos hm]
    · rw [if_neg hm, if_neg hm, addLength_mlength, Function.update_of_ne hm]
      rfl
  obtain ⟨hfst, hlists, hmnext⟩ := linkPrev_spec hl hopen.before hopen.after
    hopen.le_start hopen.end_le hpos (by omega) (by omega) (rfl : h.mnext (lastNode .memlist lo) = _) htop'
  obtain ⟨hbmin, hbmax⟩ :=
    linkPrev_bounds (h.addLength .memlist k) (lastNode .memlist lo) (h.mnext (lastNode .memlist lo))
    (if lastNode .memlist lo = .memlist then 0
      else (h.addr (lastNode .memlist lo) + h.mlength (lastNode .memlist lo)) % 2 ^ 32) a k
  obtain ⟨hjoin, hgap, -⟩ := hopen.joinLow
  generalize (h.addLength .memlist k).linkPrev (lastNode .memlist lo) (h.mnext (lastNode .memlist lo))
    (if lastNode .memlist lo = .memlist then 0
      else (h.addr (lastNode .memlist lo) + h.mlength (lastNode .memlist lo)) % 2 ^ 32) a k = r at *
  obtain ⟨block, h₁⟩ := r
  dsimp only at hfst hlists hmnext hbmin hbmax ⊢
  subst hfst
  have hbelow : ∀ c ∈ (joinLow lo a k).2 :: hi, c.1 + c.2 < 2 ^ 32 := fun c hc =>
    lt_of_le_of_lt (hjoin.free_inside c (List.mem_append_right _ hc)).le_high hhigh
  have hspec := linkNext_spec hlists hjoin.before hjoin.after hjoin.le_start hjoin.end_le
    (hjoin.free_inside _ (List.mem_append_right _ List.mem_cons_self)).pos hbelow hmnext.symm
  obtain ⟨hmin', hmax'⟩ := linkNext_bounds h₁ (.block (joinLow lo a k).2.1) (h.mnext (lastNode .memlist lo))
  exact ⟨_, rfl, hspec, hmin'.trans hbmin, hmax'.trans hbmax⟩

end Heap

end Xinu
