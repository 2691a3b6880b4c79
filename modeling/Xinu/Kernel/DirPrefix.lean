import Xinu.Kernel.VmRuns

/-!
# Present entries of a directory

`vmalloc` and `vfree` take the first absent entry of a directory for the end of the heap. This is
right in every safe run: the present entries are the first ones (`dirs_prefix`). A process that
frees pages behind its last table clears what lies behind that table, and this can be the directory
of another process (`vfree_clears_directory`).
-/

namespace Xinu

open Sys FlatMemory

/-- The present entries of the directory are the first ones, and the eight of the Xinu area are among them. -/
def PresentPrefix (m : Mem) (d : ℕ) : Prop :=
  8 ≤ presentEntries m d ∧ ∀ i < 1024, (m (d * 1024 + i)).pres = true ↔ i < presentEntries m d

/-- The directory of each user process is so. -/
def DirsPrefix (k : Kernel) : Prop := ∀ p, IsUser k.sys p → PresentPrefix k.mem (k.sys.dirFrame p)

/-- Behind an absent entry there are only absent ones. -/
theorem PresentPrefix.absent {m : Mem} {d i j : ℕ} (h : PresentPrefix m d)
    (hi : (m (d * 1024 + i)).pres = false) (hij : i ≤ j)
    (hj : j < 1024) : (m (d * 1024 + j)).pres = false := by
  rw [← Bool.not_eq_true, h.2 j hj]
  rw [← Bool.not_eq_true, h.2 i (by omega)] at hi
  omega

/-- The invariant of safe runs says so of each directory. -/
theorem VmInv.dirsPrefix {k : Kernel} {g : PageMap} (h : VmInv k g) : DirsPrefix k := by
  intro p hp
  have hd := (h.user hp).2
  have hdir := h.layout.dir _ hd
  unfold PresentPrefix
  rw [h.layout.presentEntries_eq hd]
  exact ⟨hdir.len_ge, hdir.pres_iff⟩

/-- **The present entries of a directory are the first ones**, for every user process in every state
that a safe run reaches, and after every safe step: so the first absent entry that `vmalloc` and
`vfree` find has only absent entries behind it. -/
theorem dirs_prefix {k : Kernel} (h : k.SafeReach) : DirsPrefix k ∧
    (∀ e k', k.Safe e → k.Step e k' → DirsPrefix k') ∧
    ∀ p, IsUser k.sys p → ∀ i j, (k.mem (k.sys.dirFrame p * 1024 + i)).pres = false → i ≤ j → j < 1024 →
      (k.mem (k.sys.dirFrame p * 1024 + j)).pres = false := by
  obtain ⟨g, hg⟩ := safe_inv h
  have hdirs := hg.dirsPrefix
  refine ⟨hdirs, fun e k' hs hstep => ?_, fun p hp i j hi hij hj => (hdirs p hp).absent hi hij hj⟩
  obtain ⟨g', hg', -⟩ := step_safe hg hs hstep
  exact hg'.dirsPrefix

/-- When process 2 has a page, the present entries are those of the Xinu area and the ninth, for its
table; and they still are the first ones when it has touched the page. -/
theorem dirs_prefix_user : DirsPrefix pageRuns ∧ presentEntries pageRuns.mem (pageRuns.sys.dirFrame 2) = 9 ∧
    DirsPrefix touchedRuns := by
  obtain ⟨hlen, -⟩ := pageRuns_heap
  obtain ⟨-, -, hdir⟩ := pageRuns_facts.1
  have hstep := touchedRuns_facts.1
  have hreach := pageRuns_reach
  unfold touchedRuns
  generalize pageRuns = k at *
  have hdirs := dirs_prefix hreach
  refine ⟨hdirs.1, ?_, hdirs.2.1 (.fault (8192 * 4096)) _ trivial hstep.step⟩
  rw [hdir]
  exact hlen

/-! ## A directory behind a table -/

/-- Process 2 has a full table, and behind it lies the directory of process 3. -/
def behindRuns : Kernel := (userRuns.after (.call (.vmalloc (1024 * 4096)))).after (.call (.vcreate 1024 20))

/-- Process 2 has freed the last page of its table and eight pages more. -/
def clearedRuns : Kernel := behindRuns.after (.call (.vfree (9215 * 4096) (9 * 4096)))

set_option maxRecDepth 100000 in
/-- What is computed about these runs: all calls return, and the first entry of the directory of
process 3 is not present any more. -/
theorem clearedRuns_facts : userRuns.CanStep (.call (.vmalloc (1024 * 4096))) ∧
    (userRuns.after (.call (.vmalloc (1024 * 4096)))).CanStep (.call (.vcreate 1024 20)) ∧
    behindRuns.CanStep (.call (.vfree (9215 * 4096) (9 * 4096))) ∧
    clearedRuns.sys.state 3 ≠ .free ∧ clearedRuns.sys.dirFrame 3 = PT_FRAME + 28 ∧
    (clearedRuns.mem ((PT_FRAME + 28) * 1024)).pres = false := by
  decide +kernel

/-- A process that frees pages behind its last table takes the first entries of another directory away. -/
theorem vfree_clears_directory : ∃ k, Kernel.Reach (fun _ _ => True) k ∧ ¬ DirsPrefix k := by
  obtain ⟨h₁, h₂, h₃, hlive, hframe, habs⟩ := clearedRuns_facts
  have hreach : Kernel.Reach (fun _ _ => True) userRuns := userRuns_reach.mono fun _ _ _ => trivial
  refine ⟨clearedRuns, ?_, fun hall => ?_⟩
  · unfold clearedRuns behindRuns at *
    generalize userRuns = k at *
    exact .step (.step (.step hreach trivial h₁.step) trivial h₂.step) trivial h₃.step
  · obtain ⟨hge, hpres⟩ := hall 3 ⟨⟨by decide, by decide⟩, hlive, by rw [hframe]; decide⟩
    rw [hframe] at hge hpres
    generalize clearedRuns.mem = m at *
    have hfirst := (hpres 0 (by decide)).mpr (by omega)
    exact absurd (habs.symm.trans hfirst) nofun

end Xinu
