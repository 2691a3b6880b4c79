import Xinu.Kernel.VmRuns
import Xinu.Paging.FirstFit

/-!
# First fit in every safe run

A user process that asks `vmalloc` for pages gets the first place of its heap exactly when the walk
over its tables sees this place. A process that frees the two pages on both sides of the end of a
table and asks for two pages again does not get them back (`vmalloc_not_first`).
-/

namespace Xinu

open Sys FlatMemory

/-- The call `vmalloc(n * 4096)` of the running process returns, with the address of the first
place; and with `SYSERR` only when there is no place. -/
def VmallocCallFirst (k : Kernel) (n : ℕ) : Prop :=
  (∀ junk, ∃ fuel k', k.vmallocCall fuel (n * 4096) junk = .ok k') ∧
  ∀ fuel junk k', k.vmallocCall fuel (n * 4096) junk = .ok k' →
    (∀ p : ℕ, FirstPlace k.mem (k.sys.dirFrame k.sys.currpid) n p →
      k'.sys.result k.sys.currpid = (p * 4096 : ℕ)) ∧
    (k'.sys.result k.sys.currpid = SYSERR → ∀ p, ¬ Place k.mem (k.sys.dirFrame k.sys.currpid) n p)

/-- The answer of the system call is that of the function. -/
theorem answersFirst_iff {m : Mem} {d n : ℕ} {res : Option ℕ} :
    ((∀ p : ℕ, FirstPlace m d n p → vmallocAnswer res = (p * 4096 : ℕ)) ∧
      (vmallocAnswer res = SYSERR → ∀ p, ¬ Place m d n p)) ↔ AnswersFirst m d n res := by
  cases res with
  | some va =>
    have hne : vmallocAnswer (some va) ≠ SYSERR := show (va : ℤ) ≠ -1 by omega
    constructor
    · rintro ⟨hva, -⟩
      exact ⟨fun p hp => congrArg some (Int.ofNat_inj.mp (hva p hp)), nofun⟩
    · rintro ⟨hva, -⟩
      exact ⟨fun p hp => congrArg vmallocAnswer (hva p hp), fun hc => absurd hc hne⟩
  | none =>
    constructor
    · rintro ⟨-, hno⟩
      exact ⟨fun p hp => absurd hp.1 (hno rfl p), fun _ => hno rfl⟩
    · rintro ⟨-, hno⟩
      exact ⟨fun p hp => absurd hp.1 (hno rfl p), fun _ => hno rfl⟩

/-- **`vmalloc` is a first fit** for a safe request of a user process exactly when its walk sees the
first place, in every state that a safe run reaches. -/
theorem vmalloc_call_first {k : Kernel} {n : ℕ} (h : k.SafeReach)
    (hu : IsUser k.sys k.sys.currpid) (h1 : 1 ≤ n)
    (hs : VmallocSafe k.mem (k.sys.dirFrame k.sys.currpid) n) :
    VmallocCallFirst k n ↔ FitSeen k.mem (k.sys.dirFrame k.sys.currpid) n := by
  obtain ⟨g, hg⟩ := safe_inv h
  obtain ⟨haddr, hd⟩ := hg.user hu
  have hsafe := vmalloc_safe (c := k.cpu) hg.layout hd (requestPages_mul h1).symm hs
  -- With enough fuel the call returns.
  have hret : ∀ junk, ∃ res c', vmalloc 4096 k.cpu k.currAddr (n * 4096) junk = .ok (res, c') ∧
      SafeResult k.cpu g (k.sys.dirFrame k.sys.currpid) n res c' := by
    intro junk
    rcases hsafe 4096 junk with ⟨-, hfu⟩ | hr
    · exact absurd hfu (lt_irrefl _)
    · rw [Kernel.currAddr, haddr]
      exact hr
  constructor
  · intro hfirst
    obtain ⟨res, c', he, hr⟩ := hret 0
    have hans := hfirst.2 4096 0 _ (vmallocCall_ok.mpr ⟨_, he, rfl, rfl⟩)
    rw [ret_result] at hans
    have hans' := answersFirst_iff.mp hans
    exact (SafeResult.answersFirst_iff (c := k.cpu) hg.layout hd h1 hs hr).mp hans'
  · intro hseen
    refine ⟨fun junk => ?_, fun fuel junk k' he => ?_⟩
    · obtain ⟨res, c', he, -⟩ := hret junk
      exact ⟨4096, _, vmallocCall_ok.mpr ⟨_, he, rfl, rfl⟩⟩
    · obtain ⟨⟨res, c'⟩, hv, -, rfl⟩ := vmallocCall_ok.mp he
      rw [ret_result]
      rw [Kernel.currAddr, haddr] at hv
      rcases hsafe fuel junk with ⟨hh, -⟩ | ⟨res', c'', hv', hr⟩
      · cases hh.symm.trans hv
      · obtain ⟨rfl, rfl⟩ := Prod.mk.inj (Res.ok.inj (hv.symm.trans hv'))
        have hans := (SafeResult.answersFirst_iff (c := k.cpu) hg.layout hd h1 hs hr).mpr hseen
        exact answersFirst_iff.mpr hans

/-- A process without heap has no table at which a walk could end. -/
theorem fitSeen_of_empty {m : Mem} {d n : ℕ} (hlen : presentEntries m d = 8) (hn : n ≤ 1024) :
    FitSeen m d n := by
  intro p hp
  have h8 := hp.1.heap
  rw [hlen]
  exact ⟨fun _ => ⟨fun j h₁ _ h₃ => by omega, fun hlt => by omega⟩, fun hbig => by omega⟩

/-- The directory of a new process has the eight entries of the Xinu area. -/
theorem userRuns_len : presentEntries userRuns.mem (userRuns.sys.dirFrame userRuns.sys.currpid) = 8 := by
  obtain ⟨g, hg⟩ := safe_inv userRuns_reach
  obtain ⟨-, hd⟩ := hg.user userRuns_user
  have hD := hg.layout.dir _ hd
  have habs := userRuns_heap
  rw [hg.layout.presentEntries_eq hd]
  refine le_antisymm ?_ hD.len_ge
  by_contra hlt
  have hp := (hD.pres_iff 8 (by decide)).mpr (by omega)
  rw [userRuns_frame, habs 8 (by decide) (le_refl 8)] at hp
  cases hp

/-- The first request of a process is for the first place. -/
theorem vmalloc_call_first_one : VmallocCallFirst userRuns 1 :=
  (vmalloc_call_first userRuns_reach userRuns_user (by decide) (.inl (by decide))).mpr
    (fitSeen_of_empty userRuns_len (by decide))

/-! ## A place over the end of a table -/

/-- Process 2 has a full table and one page of the next. -/
def twoTables : Kernel := userRuns.after (.call (.vmalloc (1025 * 4096)))

/-- It has freed the last page of the first table and the page of the second. -/
def holeRuns : Kernel := twoTables.after (.call (.vfree (9215 * 4096) (2 * 4096)))

/-- It asks for two pages. -/
def missRuns : Kernel := holeRuns.after (.call (.vmalloc (2 * 4096)))

set_option maxRecDepth 100000 in
/-- What is computed about the process with two tables: they are in the two pages behind the directory. -/
theorem twoTables_facts :
    userRuns.CanStep (.call (.vmalloc (1025 * 4096))) ∧ twoTables.RunsSecond ∧
    twoTables.CanStep (.call (.vfree (9215 * 4096) (2 * 4096))) ∧
    (twoTables.mem ((PT_FRAME + 26) * 1024 + 8)).pres = true ∧
    (twoTables.mem ((PT_FRAME + 26) * 1024 + 9)).pres = true ∧
    (twoTables.mem ((PT_FRAME + 26) * 1024 + 8)).base.toNat = PT_FRAME + 27 ∧
    (twoTables.mem ((PT_FRAME + 26) * 1024 + 9)).base.toNat = PT_FRAME + 28 := by
  decide +kernel

set_option maxRecDepth 100000 in
/-- What is computed about the process with the hole: the two pages are not valid, but have entries;
the pages before them are valid; and the call for two pages returns the first page of the second
table. -/
theorem holeRuns_facts :
    holeRuns.RunsSecond ∧ (∀ e < 1023, PageValid holeRuns.mem (PT_FRAME + 26) (8192 + e)) ∧
    ¬ PageValid holeRuns.mem (PT_FRAME + 26) 9215 ∧ ¬ PageValid holeRuns.mem (PT_FRAME + 26) 9216 ∧
    (holeRuns.mem ((PT_FRAME + 26) * 1024 + 8)).pres = true ∧
    (holeRuns.mem ((PT_FRAME + 26) * 1024 + 9)).pres = true ∧
    holeRuns.CanStep (.call (.vmalloc (2 * 4096))) ∧
    missRuns.sys.result holeRuns.sys.currpid = (9216 * 4096 : ℕ) := by
  decide +kernel

/-- The request for 1025 pages is a safe one. -/
theorem twoTables_reach : twoTables.SafeReach := by
  obtain ⟨hstep, -⟩ := twoTables_facts
  have hu := userRuns_user
  have hreach := userRuns_reach
  have hlen := userRuns_len
  unfold twoTables
  generalize userRuns = k at *
  refine hstep.reach hreach ⟨hu, ?_⟩
  rw [requestPages_mul (n := 1025) (by decide)]
  refine .inr (.inr ⟨by decide, .inr ⟨fun hlt => ?_, fun i h₁ h₂ => ?_, fun p h₁ h₂ => ?_⟩⟩)
  all_goals omega

/-- Both pages are the caller's, so the release is safe. -/
theorem holeRuns_reach : holeRuns.SafeReach := by
  obtain ⟨-, hsecond, hstep, hp8, hp9, hb8, hb9⟩ := twoTables_facts
  have hu := hsecond.user
  have hframe := hsecond.frame
  have hreach := twoTables_reach
  unfold holeRuns
  generalize twoTables = k at *
  refine hstep.reach hreach ⟨hu, ?_⟩
  rw [hframe]
  -- The walk of `vfree` starts at the last entry of the first table.
  have hstart : walkStart k.mem (PT_FRAME + 26) (9215 * 4096) = ((PT_FRAME + 27) * 1024 + 1023 : ℕ) := by
    unfold walkStart
    rw [if_pos (by decide), show 9215 * 4096 / 4194304 = 8 from rfl, hb8]
    rfl
  -- The words of both tables are entries of heap pages of the caller.
  have hpage : ∀ i e, i < 1024 → e < 1024 → (k.mem ((PT_FRAME + 26) * 1024 + i)).pres = true → 8 ≤ i →
      OwnWord k.mem (PT_FRAME + 26) ((k.mem ((PT_FRAME + 26) * 1024 + i)).base.toNat * 1024 + e) := by
    intro i e hi he hp h8
    refine ⟨i * 1024 + e, by omega, ⟨by omega, ?_⟩, pteWord_add he⟩
    rwa [show (i * 1024 + e) / 1024 = i by omega]
  have h₈ := hpage 8 1023 (by decide) (by decide) hp8 (by decide)
  have h₉ := hpage 9 0 (by decide) (by decide) hp9 (by decide)
  rw [hb8] at h₈
  rw [hb9] at h₉
  intro _
  refine ⟨fun _ => ?_, fun _ w hw => ?_⟩
  · rw [hstart, mapped_iff]
    exact ⟨by decide, by decide⟩
  · unfold Walked at hw
    rw [hstart, Int.toNat_natCast, show walkLen (9215 * 4096) (2 * 4096 / 4096) = 2 from rfl] at hw
    -- So both words that the walk clears are its own.
    rcases (show w = (PT_FRAME + 27) * 1024 + 1023 ∨ w = (PT_FRAME + 28) * 1024 + 0 by omega) with rfl | rfl
    · exact h₈
    · exact h₉

/-- The first place for two pages is the hole. -/
theorem holeRuns_first : FirstPlace holeRuns.mem (holeRuns.sys.dirFrame holeRuns.sys.currpid) 2 9215 := by
  obtain ⟨hsecond, hvalid, h₁, h₂, hp8, hp9, -⟩ := holeRuns_facts
  rw [hsecond.frame]
  generalize holeRuns.mem = m at *
  refine ⟨⟨by decide, by decide, fun k hk => ?_, ?_⟩, fun q hq hp => ?_⟩
  · rcases (show k = 0 ∨ k = 1 by omega) with rfl | rfl
    · exact h₁
    · exact h₂
  · -- No table is missing.
    refine le_trans (Nat.le_of_eq (Nat.count_iff_forall_not.mpr ?_)) (Nat.zero_le _)
    rintro i - ⟨hge, hle, ha⟩
    rcases (show i = 8 ∨ i = 9 by omega) with rfl | rfl
    · exact absurd (ha.symm.trans hp8) nofun
    · exact absurd (ha.symm.trans hp9) nofun
  · have h8 := hp.heap
    have := hvalid (q - 8192) (by omega)
    rw [Nat.add_sub_cancel' h8] at this
    exact hp.invalid 0 (by decide) this

/-- The call for two pages, after two pages over the end of a table have been freed, returns. -/
theorem missRuns_call : holeRuns.vmallocCall 4096 (2 * 4096) 0 = .ok missRuns := by
  obtain ⟨-, -, -, -, -, -, hstep, -⟩ := holeRuns_facts
  unfold missRuns
  generalize holeRuns = k at *
  exact hstep.exec

/-- A process that asks for two pages again does not get the place that it has freed. -/
theorem vmalloc_not_first :
    ∃ k n, k.SafeReach ∧ IsUser k.sys k.sys.currpid ∧ 1 ≤ n ∧ ¬ VmallocCallFirst k n := by
  obtain ⟨hsecond, -, -, -, -, -, -, hanswer⟩ := holeRuns_facts
  refine ⟨holeRuns, 2, holeRuns_reach, hsecond.user, by decide, fun hf => ?_⟩
  have hres := (hf.2 4096 0 missRuns missRuns_call).1 9215 holeRuns_first
  rw [hanswer] at hres
  exact absurd (Int.ofNat_inj.mp hres) (by decide)

end Xinu
