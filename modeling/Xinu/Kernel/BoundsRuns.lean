import Xinu.Kernel.RoundTripRuns
import Xinu.Paging.VmallocWrites

/-!
# Termination and bounds of `vmalloc` in every safe run

A safe call of `vmalloc` by a user process ends, and it uses only entries that there are. A process
with one page that asks for 1025 pages waits for ever: the search over many tables takes an absent
entry for the end of the request, sets its index back to the number of whole tables, and meets the
same absent entry again (`vmalloc_hangs`).
-/

namespace Xinu

open Sys FlatMemory

/-- The call `vmalloc(nbytes)` of the running process returns, whatever its local variable holds at
entry. Up to any turn of its loops it has read and written only entries that there are, in the
caller's directory and in tables of the area; it writes only to tables of present entries and to
free pages; and nothing else has changed when it returns. -/
structure VmallocBounded (k : Kernel) (nbytes : ℕ) : Prop where
  /-- The call returns. -/
  halts : ∀ junk, ∃ fuel k', k.vmallocCall fuel nbytes junk = .ok k'
  /-- Every entry that is read or written is there, and may be. -/
  within : ∀ fuel junk, UsesOk k.mem (k.sys.dirFrame k.sys.currpid)
    (vmallocUses fuel k.mem k.currAddr nbytes junk)
  /-- What has changed is what has been written. -/
  covered : ∀ fuel junk k', k.vmallocCall fuel nbytes junk = .ok k' →
    Covered (k.sys.dirFrame k.sys.currpid) k.mem k'.mem (vmallocUses fuel k.mem k.currAddr nbytes junk)

/-- **`vmalloc` ends and stays in bounds** for a safe request of a user process, in every state that
a safe run reaches. -/
theorem vmalloc_bounded {k : Kernel} {nbytes : ℕ} (h : k.SafeReach) (hu : IsUser k.sys k.sys.currpid)
    (hs : VmallocSafe k.mem (k.sys.dirFrame k.sys.currpid) (requestPages nbytes)) :
    VmallocBounded k nbytes := by
  obtain ⟨g, hg⟩ := safe_inv h
  obtain ⟨haddr, hd⟩ := hg.user hu
  have hcurr : k.currAddr = k.sys.dirFrame k.sys.currpid * 4096 := haddr
  constructor
  · intro junk
    rcases vmalloc_safe (c := k.cpu) hg.layout hd rfl hs 4096 junk with ⟨-, hfu⟩ | ⟨res, c', he, -⟩
    · exact absurd hfu (lt_irrefl _)
    · rw [← hcurr] at he
      exact ⟨4096, _, vmallocCall_ok.mpr ⟨_, he, rfl, rfl⟩⟩
  · intro fuel junk
    rw [hcurr]
    exact vmalloc_within hg.layout hd rfl hs fuel junk
  · intro fuel junk k' he
    obtain ⟨⟨res, c'⟩, hv, hm, -⟩ := vmallocCall_ok.mp he
    rw [hcurr] at hv ⊢
    rw [hm]
    exact vmalloc_covered hv

/-- The first request of a process for one page. -/
theorem vmalloc_bounded_page : VmallocBounded userRuns 4096 :=
  vmalloc_bounded userRuns_reach userRuns_user (.inl (by decide))

/-! ## The search that does not end -/

/-- The search for 1025 pages from the last present table `i`: when the table leaves the request
incomplete, the search comes back to the second turn for ever. -/
theorem manySearch_hang {m : Mem} {pd i pt : ℕ} (hpt : Mapped pt) (hi : i + 2 < MAX_PT_SIZE)
    (habs₁ : (m (pd + (i + 1))).pres = false) (habs₂ : (m (pd + (i + 2))).pres = false)
    (hscan : ∀ c, (scanTable m pt 1025 MAX_PT_SIZE 0 c).1 = 1023) :
    ∀ fuel c va j, j < 2 → manySearch m pd i 1 1 fuel j c va pt = .hang := by
  intro fuel
  induction fuel with
  | zero => exact fun c va j hj => rfl
  | succ fuel ih =>
    intro c va j hj
    rw [manySearch]
    dsimp only
    rw [show 1 + 1 * MAX_PT_SIZE = 1025 from rfl, hscan,
      if_pos (show j < 1 + (if 1 > 0 then 1 else 0) from hj), if_pos hpt,
      if_pos (.inl (by decide))]
    -- The next entry is absent in both turns, and the index is set back to one.
    have habs : (m (pd + (i + (j + 1)))).pres = false := by
      rcases (show j = 0 ∨ j = 1 by omega) with rfl | rfl
      · exact habs₁
      · exact habs₂
    rw [if_pos (by omega), if_pos habs, if_neg (by omega)]
    exact ih _ _ 1 (by decide)

/-- The table of process 2 has one page, so the other 1023 are free, and there is no other table. -/
theorem pageRuns_tables :
    Mapped ((PT_FRAME + 26) * 1024 + 8) ∧ (pageRuns.mem ((PT_FRAME + 26) * 1024 + 8)).pres = true ∧
    (pageRuns.mem ((PT_FRAME + 26) * 1024 + 8)).base.toNat = PT_FRAME + 27 ∧
    (pageRuns.mem ((PT_FRAME + 26) * 1024 + 9)).pres = false ∧
    (pageRuns.mem ((PT_FRAME + 26) * 1024 + 10)).pres = false ∧
    ¬ FreeEntry pageRuns.mem (PT_FRAME + 26) 8 0 ∧
    (scanTable pageRuns.mem ((PT_FRAME + 27) * 1024) 1025 1024 0 0).1 = 1023 := by
  decide +kernel

/-- A call for a table and a page marks its pages, goes on searching, and never returns. -/
theorem pageRuns_hang (fuel junk : ℕ) : pageRuns.vmallocCall fuel (1025 * 4096) junk = .hang := by
  have hreach := pageRuns_reach
  have hu := pageRuns_user
  have hframe := pageRuns_frame
  obtain ⟨hmap, hp8, hb8, hp9, hp10, hfirst, hscan⟩ := pageRuns_tables
  -- The state is fixed by what has been computed of its tables.
  generalize pageRuns = k at *
  obtain ⟨g, hg⟩ := safe_inv hreach
  obtain ⟨haddr, -⟩ := hg.user hu
  rw [hframe] at haddr
  have htable : tableOf k.mem (PT_FRAME + 26) 8 = PT_FRAME + 27 := hb8
  -- In the table of entry 8 the search finds a run too short for the request, again and again.
  have hsearch : ∀ fuel c, manySearch k.mem ((PT_FRAME + 26) * 1024) 8 1 1 fuel 0 c 0
      ((PT_FRAME + 27) * 1024) = .hang := by
    intro fuel c
    refine manySearch_hang (by decide) (by decide) hp9 hp10 (fun c => ?_) fuel c 0 0 (by decide)
    have he := scanTable_first (show 1 ≤ 1025 by decide) hfirst c
    rw [htable] at he
    exact (congrArg Prod.fst he).trans hscan
  -- So the main loop never comes out of its first search.
  have hloop : ∀ u fuel (c : Cpu) junk, c.mem = k.mem →
      vmallocLoop u ((PT_FRAME + 26) * 1024) 1 fuel c 8 1 junk = .hang := by
    intro u fuel c junk hc
    cases fuel with
    | zero => rfl
    | succ fuel =>
      rw [vmallocLoop, if_neg (by decide), if_neg (not_not.mpr hmap), hc, if_neg (by rw [hp8]; decide)]
      dsimp only [Entry.table]
      rw [hb8, if_neg (by decide), if_neg (by decide)]
      change (manySearch k.mem ((PT_FRAME + 26) * 1024) 8 1 1 fuel 0 junk 0
        ((PT_FRAME + 27) * 1024)).bind _ = _
      rw [hsearch]
      rfl
  unfold Kernel.vmallocCall Kernel.currAddr
  rw [haddr]
  have hv : vmalloc fuel k.cpu ((PT_FRAME + 26) * 4096) (1025 * 4096) junk = .hang := hloop _ fuel _ junk rfl
  rw [hv]
  rfl

/-- A process with one page that asks for 1025 pages waits for ever. -/
theorem vmalloc_hangs :
    ∃ k nbytes, k.SafeReach ∧ IsUser k.sys k.sys.currpid ∧ nbytes < 2 ^ 32 ∧ ¬ VmallocBounded k nbytes := by
  refine ⟨pageRuns, 1025 * 4096, pageRuns_reach, pageRuns_user, by decide, fun hb => ?_⟩
  obtain ⟨fuel, k', hk⟩ := hb.halts 0
  exact absurd ((pageRuns_hang fuel 0).symm.trans hk) nofun

end Xinu
