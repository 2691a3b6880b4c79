import Xinu.Kernel.Lives
import Mathlib.Data.Finset.Card
import Mathlib.Order.Interval.Finset.Basic
import Mathlib.Data.Int.Interval

/-!
# Kills

`kill` counts a process off, sends a message to its parent, and only then gives its stack back and
frees its entry. While no two processes are in the middle of killing the same one, and none is
destroyed in the middle of a kill, every process is destroyed once: the number of processes is that
of the used entries less the kills under way, a stack is given back once, and a kill destroys the
process that it was started for. Two kills of one process break all of that.
-/

namespace Xinu

open Sys

/-! ## Processes and kills -/

/-- The entries of the process table that are not free. -/
def Sys.live (s : Sys) : Finset ℤ :=
  (@Finset.Ico ℤ _ Int.instLocallyFiniteOrder 0 NPROC).filter fun p => s.state p ≠ .free

/-- The process that a process is in the middle of killing. -/
def Sys.target (s : Sys) (q : ℤ) : Option ℤ :=
  match s.pend q with
  | .kill p => some p
  | _ => none

/-- The processes that are in the middle of a kill. -/
def Sys.killers (s : Sys) : Finset ℤ := s.live.filter fun q => s.target q ≠ none

/-- How many processes have had an entry, how often the stack of the last of them has been given
back, and for a process in the middle of a kill, which of the processes with that entry it was
started for. -/
structure Lives where
  /-- How many processes have had the entry. -/
  born : ℤ → ℕ
  /-- How often the stack of the last of them has been given back. -/
  returned : ℤ → ℕ
  /-- For a process in the middle of a kill, which of the processes with that entry it was started for. -/
  victim : ℤ → ℕ

/-- One more step. -/
def Lives.note (k : Kernel) (e : Event) (k' : Kernel) (g : Lives) : Lives where
  born p := if k.sys.state p = .free ∧ k'.sys.state p ≠ .free then g.born p + 1 else g.born p
  returned p :=
    if k.sys.state p = .free ∧ k'.sys.state p ≠ .free then 0
    else if k.sys.endsKill e = some p then g.returned p + 1 else g.returned p
  victim q := match k.startsKill e with
    | some p => if q = k.sys.currpid then g.born p else g.victim q
    | none => g.victim q

/-- No process starts to kill one that is being killed, and none destroys one that is in the middle
of a kill. -/
def KillOk (k : Kernel) (e : Event) : Prop :=
  (∀ p, k.startsKill e = some p → ∀ q ∈ k.sys.live, k.sys.target q ≠ some p) ∧
    ∀ p, k.sys.endsKill e = some p → p ≠ k.sys.currpid → k.sys.target p = none

/-- The states of the runs in which the kills meet their condition, with what has been noted. -/
def KillRun : Kernel → Lives → Prop :=
  Kernel.Noted (fun k e => k.Tame e ∧ KillOk k e) ⟨fun _ => 0, fun _ => 0, fun _ => 0⟩ Lives.note

/-- Every process is destroyed once. -/
structure KillsOk (s : Sys) (g : Lives) : Prop where
  /-- The number of processes is that of the used entries, less the kills under way. -/
  count : s.halted = false → s.prcount + s.killers.card = s.live.card
  /-- The stack of a process that lives has not been given back, and that of one that has been
  destroyed once. -/
  returned : ∀ p, g.returned p = if s.state p = .free then min 1 (g.born p) else 0
  /-- A kill under way is of a process that lives, which is the one that it was started for. -/
  target : ∀ q ∈ s.live, ∀ p, s.target q = some p → p ∈ s.live ∧ g.victim q = g.born p
  /-- No process is killed twice. -/
  once : ∀ q ∈ s.live, ∀ q' ∈ s.live, ∀ p, s.target q = some p → s.target q' = some p → q = q'
  /-- Every process but the null process has been created. -/
  born : ∀ p ∈ s.live, p ≠ NULLPROC → 1 ≤ g.born p

section

variable {s s' : Sys} {p q pid : ℤ}

/-- The processes that live. -/
theorem mem_live : p ∈ s.live ↔ IsPid p ∧ s.state p ≠ .free := by
  unfold live
  rw [Finset.mem_filter, Finset.mem_Ico]
  exact Iff.rfl

/-- What a process is in the middle of. -/
theorem target_eq_some : s.target q = some p ↔ s.pend q = .kill p := by
  unfold target
  cases s.pend q with
  | kill t => exact ⟨fun h => by rw [Option.some.inj h], fun h => by injection h with h; rw [h]⟩
  | _ => exact iff_of_false nofun nofun

/-- A step that leaves the lives alone. -/
theorem LifeSame.live (h : LifeSame s s') : s'.live = s.live := by
  ext p
  rw [mem_live, mem_live, ne_eq, ne_eq, h.free]

/-- A step in which nobody lives or dies leaves the victim of every kill. -/
theorem LifeSame.target (h : LifeSame s s') (q : ℤ) : s'.target q = s.target q := by
  refine Option.ext fun p => ?_
  rw [target_eq_some, target_eq_some]
  exact h.kills q p

/-- A step in which nobody lives or dies leaves the processes that kill. -/
theorem LifeSame.killers (h : LifeSame s s') : s'.killers = s.killers := by
  unfold Sys.killers
  rw [h.live]
  exact Finset.filter_congr fun q _ => by rw [h.target]

/-- A process that starts to kill is not in the middle of a kill. -/
theorem starts_target {k : Kernel} {e : Event} (hen : k.Enabled e) (hs : k.startsKill e = some p) :
    k.sys.target k.sys.currpid = none := by
  have hu : k.sys.pend k.sys.currpid = .user := by
    cases e with
    | call c => exact hen.1
    | fault v => exact hen.1
    | _ => cases hs
  unfold target
  rw [hu]

/-- A step that ends a kill starts none. -/
theorem starts_of_ends {k : Kernel} {e : Event} (h : k.sys.endsKill e = some p) :
    k.startsKill e = none ∧ k.sys.target k.sys.currpid = some p := by
  cases e with
  | cont =>
    refine ⟨rfl, ?_⟩
    unfold endsKill at h
    exact h
  | _ => cases h

/-- The process whose number is noted is not in the middle of a kill. -/
theorem note_victim {k k' : Kernel} {e : Event} {g : Lives}
    (hen : k.Enabled e) (ht : k.sys.target q = some p) :
    (g.note k e k').victim q = g.victim q := by
  unfold Lives.note
  dsimp only
  cases hs : k.startsKill e with
  | none => rfl
  | some x =>
    refine if_neg fun hq : q = k.sys.currpid => ?_
    rw [hq, starts_target hen hs] at ht
    cases ht

/-- What is noted for an entry that no new process gets. -/
theorem note_same {k k' : Kernel} {e : Event} {g : Lives}
    (h : k.sys.state p = .free → k'.sys.state p = .free) :
    (g.note k e k').born p = g.born p ∧
      (g.note k e k').returned p = if k.sys.endsKill e = some p then g.returned p + 1 else g.returned p :=
  ⟨if_neg fun hc => hc.2 (h hc.1), if_neg fun hc => hc.2 (h hc.1)⟩

/-- A step that leaves the lives alone, but for the number of processes, keeps what holds of them. -/
theorem KillsOk.same {k k' : Kernel} {e : Event} {g : Lives} (h : KillsOk k.sys g) (hen : k.Enabled e)
    (hf : k.sys.endsKill e = none) (hfree : ∀ p, k'.sys.state p = .free ↔ k.sys.state p = .free)
    (ht : ∀ q, k'.sys.target q = k.sys.target q)
    (hc : k'.sys.halted = false → k'.sys.prcount + k'.sys.killers.card = k'.sys.live.card) :
    KillsOk k'.sys (g.note k e k') := by
  have hlive : k'.sys.live = k.sys.live := by
    ext p
    rw [mem_live, mem_live, ne_eq, ne_eq, hfree]
  have hborn : ∀ p, (g.note k e k').born p = g.born p := fun p => (note_same (hfree p).mpr).1
  refine ⟨hc, fun p => ?_, fun q hq p hp => ?_, fun q hq q' hq' p hp hp' => ?_, fun p hp hn => ?_⟩
  · rw [hborn, (note_same (hfree p).mpr).2, hf, if_neg nofun, h.returned]
    exact if_congr (hfree p).symm rfl rfl
  · rw [hlive] at hq ⊢
    rw [ht] at hp
    obtain ⟨hpl, hv⟩ := h.target q hq p hp
    exact ⟨hpl, by rw [note_victim hen hp, hborn, hv]⟩
  · rw [hlive] at hq hq'
    rw [ht] at hp hp'
    exact h.once q hq q' hq' p hp hp'
  · rw [hborn]
    exact h.born p (hlive ▸ hp) hn

/-- A process that is created adds one to the count, and one to the processes that have lived. -/
theorem KillsOk.create {k k' : Kernel} {e : Event} {g : Lives}
    (h : KillsOk k.sys g) (hh : k.sys.halted = false)
    (hen : k.Enabled e) (hf : k.sys.endsKill e = none) (hp : IsPid pid) (hfree : k.sys.state pid = .free)
    (hl : k'.sys.state pid ≠ .free) (hother : ∀ p, p ≠ pid → (k'.sys.state p = .free ↔ k.sys.state p = .free))
    (hc : k'.sys.prcount = k.sys.prcount + 1) (hpend : k'.sys.pend = Function.update k.sys.pend pid .user) :
    KillsOk k'.sys (g.note k e k') := by
  have hnot : pid ∉ k.sys.live := fun hm => (mem_live.mp hm).2 hfree
  have hlive : k'.sys.live = insert pid k.sys.live := by
    ext p
    rw [Finset.mem_insert, mem_live, mem_live]
    by_cases hpp : p = pid
    · rw [hpp]
      exact iff_of_true ⟨hp, hl⟩ (.inl rfl)
    · rw [ne_eq, hother p hpp, or_iff_right hpp]
  have ht : ∀ q, q ≠ pid → k'.sys.target q = k.sys.target q := fun q hq => by
    unfold Sys.target
    rw [hpend, Function.update_of_ne hq]
  have htp : k'.sys.target pid = none := by
    unfold Sys.target
    rw [hpend, Function.update_self]
  have hkillers : k'.sys.killers = k.sys.killers := by
    unfold Sys.killers
    rw [hlive, Finset.filter_insert, if_neg fun hc => hc htp]
    exact Finset.filter_congr fun q hq => by rw [ht q fun he => hnot (he ▸ hq)]
  -- A process with a target is an old one.
  have hold : ∀ q ∈ k'.sys.live, ∀ p, k'.sys.target q = some p →
      q ∈ k.sys.live ∧ k.sys.target q = some p := by
    intro q hq p hqp
    have hne : q ≠ pid := by
      rintro rfl
      rw [htp] at hqp
      cases hqp
    rw [hlive, Finset.mem_insert] at hq
    exact ⟨hq.resolve_left hne, by rw [← ht q hne, hqp]⟩
  have hborn : ∀ p, p ≠ pid → (g.note k e k').born p = g.born p :=
    fun p hne => (note_same (hother p hne).mpr).1
  refine ⟨fun _ => ?_, fun p => ?_, fun q hq p hqp => ?_,
    fun q hq q' hq' p hqp hqp' => ?_, fun p hpl hn => ?_⟩
  · rw [hkillers, hlive, Finset.card_insert_of_notMem hnot, hc]
    have := h.count hh
    push_cast
    omega
  · by_cases hpp : p = pid
    · rw [hpp, if_neg hl]
      exact if_pos ⟨hfree, hl⟩
    · rw [hborn p hpp, (note_same (hother p hpp).mpr).2, hf, if_neg nofun, h.returned]
      exact if_congr (hother p hpp).symm rfl rfl
  · obtain ⟨hq', hqp'⟩ := hold q hq p hqp
    obtain ⟨hpl, hv⟩ := h.target q hq' p hqp'
    have hne : p ≠ pid := fun he => hnot (he ▸ hpl)
    rw [hlive, note_victim hen hqp', hborn p hne]
    exact ⟨Finset.mem_insert_of_mem hpl, hv⟩
  · obtain ⟨h₁, h₂⟩ := hold q hq p hqp
    obtain ⟨h₁', h₂'⟩ := hold q' hq' p hqp'
    exact h.once q h₁ q' h₁' p h₂ h₂'
  · by_cases hpp : p = pid
    · rw [hpp, show (g.note k e k').born pid = g.born pid + 1 from if_pos ⟨hfree, hl⟩]
      omega
    · rw [hlive, Finset.mem_insert] at hpl
      rw [hborn p hpp]
      exact h.born p (hpl.resolve_left hpp) hn

/-- A process starts to kill another one, or itself. -/
theorem KillsOk.start {k k' : Kernel} {e : Event} {g : Lives} (h : KillsOk k.sys g) (hs : LiveStep k e k')
    (hok : KillOk k e) (hk : k.startsKill e = some pid) (hf : k.sys.endsKill e = none) (hp : pid ∈ k.sys.live)
    (hl : LifeSame (k.sys.killing pid) k'.sys) : KillsOk k'.sys (g.note k e k') := by
  have hcurr : k.sys.currpid ∈ k.sys.live := mem_live.mpr ⟨hs.idle.states.currpid, hs.idle.curr_live⟩
  have hnone := starts_target hs.enabled hk
  have hlive : k'.sys.live = k.sys.live := hl.live
  -- Of the targets only that of the running process changes.
  have ht : ∀ q, k'.sys.target q = if q = k.sys.currpid then some pid else k.sys.target q := by
    intro q
    rw [hl.target]
    unfold Sys.target
    change (match Function.update k.sys.pend k.sys.currpid (.kill pid) q with
      | .kill p => some p
      | _ => none) = _
    rw [Function.update_apply]
    split_ifs <;> rfl
  have hkillers : k'.sys.killers = insert k.sys.currpid k.sys.killers := by
    ext q
    unfold Sys.killers
    rw [Finset.mem_insert, Finset.mem_filter, Finset.mem_filter, hlive, ht]
    split_ifs with hq
    · rw [hq]
      exact iff_of_true ⟨hcurr, nofun⟩ (.inl rfl)
    · rw [or_iff_right hq]
  -- A process that runs user code is not in the middle of a kill.
  have hnot : k.sys.currpid ∉ k.sys.killers := fun hm => (Finset.mem_filter.mp hm).2 hnone
  have hborn : ∀ p, (g.note k e k').born p = g.born p := fun p => (note_same (hl.free p).mpr).1
  refine ⟨fun _ => ?_, fun p => ?_, fun q hq p hqp => ?_,
    fun q hq q' hq' p hqp hqp' => ?_, fun p hpl hn => ?_⟩
  -- The count has gone down by one, and the kills under way are one more.
  · rw [hkillers, Finset.card_insert_of_notMem hnot, hlive, hl.prcount]
    have := h.count hs.halted
    change k.sys.prcount - 1 + _ = _
    push_cast
    omega
  · rw [hborn, (note_same (hl.free p).mpr).2, hf, if_neg nofun, h.returned]
    exact if_congr (hl.free p).symm rfl rfl
  -- The targets of the others stay, and no process is destroyed meanwhile.
  · rw [hlive] at hq ⊢
    rw [ht] at hqp
    split_ifs at hqp with hqc
    · -- The kill that has just been started is of the process that has the entry now.
      injection hqp with hpp
      rw [← hpp, hborn]
      refine ⟨hp, ?_⟩
      unfold Lives.note
      dsimp only
      rw [hk]
      exact if_pos hqc
    · obtain ⟨hpl, hv⟩ := h.target q hq p hqp
      exact ⟨hpl, by rw [note_victim hs.enabled hqp, hborn, hv]⟩
  · rw [hlive] at hq hq'
    rw [ht] at hqp hqp'
    -- Two killers of one process would be the new one and an old one, which the step excludes.
    split_ifs at hqp hqp' with h₁ h₂ h₂
    · exact h₁.trans h₂.symm
    · injection hqp with hpp
      exact absurd (by rw [hqp', hpp]) (hok.1 pid hk q' hq')
    · injection hqp' with hpp
      exact absurd (by rw [hqp, hpp]) (hok.1 pid hk q hq)
    · exact h.once q hq q' hq' p hqp hqp'
  · rw [hborn]
    exact h.born p (hlive ▸ hpl) hn

/-- A kill that ends takes one from the count, and frees the stack of its process. -/
theorem KillsOk.finish {k k' : Kernel} {e : Event} {g : Lives} (h : KillsOk k.sys g) (hs : LiveStep k e k')
    (hok : KillOk k e) (hf : k.sys.endsKill e = some pid) (hl : Killed k.sys k'.sys pid) :
    KillsOk k'.sys (g.note k e k') := by
  have hcurr : k.sys.currpid ∈ k.sys.live := mem_live.mpr ⟨hs.idle.states.currpid, hs.idle.curr_live⟩
  obtain ⟨hk, htc⟩ := starts_of_ends hf
  obtain ⟨hp, -⟩ := h.target _ hcurr _ htc
  have hn : pid ≠ NULLPROC := (hs.idle.states.kill_pid _ _ (target_eq_some.mp htc)).2
  have hlive : k'.sys.live = k.sys.live.erase pid := by
    ext p
    rw [Finset.mem_erase, mem_live, mem_live, ne_eq, hl.free, not_or]
    tauto
  -- A process with a target has had it before, and it is not the one whose kill is over.
  have hold : ∀ q ∈ k'.sys.live, ∀ p, k'.sys.target q = some p →
      q ∈ k.sys.live ∧ q ≠ k.sys.currpid ∧ k.sys.target q = some p := by
    intro q hq p hqp
    rw [hlive, Finset.mem_erase] at hq
    rw [target_eq_some] at hqp ⊢
    by_cases hpc : pid = k.sys.currpid
    · rw [hl.pend_self hpc] at hqp
      exact ⟨hq.2, fun hqc => hq.1 (hqc.trans hpc.symm), hqp⟩
    · rw [hl.pend hpc, Function.update_apply] at hqp
      split_ifs at hqp with hqc
      exact ⟨hq.2, hqc, hqp⟩
  have hkillers : k'.sys.killers = k.sys.killers.erase k.sys.currpid := by
    ext q
    rw [Finset.mem_erase]
    unfold Sys.killers
    rw [Finset.mem_filter, Finset.mem_filter]
    constructor
    · rintro ⟨hq, hqt⟩
      obtain ⟨p, hqp⟩ := Option.ne_none_iff_exists'.mp hqt
      obtain ⟨h₁, h₂, h₃⟩ := hold q hq p hqp
      exact ⟨h₂, h₁, by rw [h₃]; exact nofun⟩
    · rintro ⟨hqc, hq, hqt⟩
      have hqp : q ≠ pid := by
        rintro rfl
        exact hqt (hok.2 q hf hqc)
      refine ⟨by rw [hlive]; exact Finset.mem_erase.mpr ⟨hqp, hq⟩, ?_⟩
      by_cases hpc : pid = k.sys.currpid
      · unfold Sys.target at hqt ⊢
        rwa [hl.pend_self hpc]
      · unfold Sys.target at hqt ⊢
        rwa [hl.pend hpc, Function.update_of_ne hqc]
  have hmem : k.sys.currpid ∈ k.sys.killers := Finset.mem_filter.mpr ⟨hcurr, by rw [htc]; exact nofun⟩
  have hfree : ∀ p, k.sys.state p = .free → k'.sys.state p = .free := fun p hpf => (hl.free p).mpr (.inr hpf)
  have hborn : ∀ p, (g.note k e k').born p = g.born p := fun p => (note_same (hfree p)).1
  refine ⟨fun _ => ?_, fun p => ?_, fun q hq p hqp => ?_,
    fun q hq q' hq' p hqp hqp' => ?_, fun p hpl hpn => ?_⟩
  · rw [hkillers, hlive, Finset.card_erase_of_mem hmem, Finset.card_erase_of_mem hp, hl.prcount]
    have := h.count hs.halted
    have := Finset.card_pos.mpr ⟨_, hmem⟩
    have := Finset.card_pos.mpr ⟨_, hp⟩
    omega
  · rw [hborn, (note_same (hfree p)).2, hf, h.returned]
    by_cases hpp : p = pid
    · -- The stack is given back for the first time.
      rw [hpp, if_pos rfl, if_neg (mem_live.mp hp).2, if_pos ((hl.free pid).mpr (.inl rfl))]
      have := h.born pid hp hn
      omega
    · rw [if_neg fun hc => hpp (Option.some.inj hc).symm]
      refine if_congr ?_ rfl rfl
      rw [hl.free, or_iff_right hpp]
  · obtain ⟨hq', hqc, hqp'⟩ := hold q hq p hqp
    obtain ⟨hpl, hv⟩ := h.target q hq' p hqp'
    refine ⟨?_, by rw [note_victim hs.enabled hqp', hborn, hv]⟩
    rw [hlive, Finset.mem_erase]
    refine ⟨?_, hpl⟩
    rintro rfl
    exact hqc (h.once q hq' _ hcurr p hqp' htc)
  · obtain ⟨h₁, -, h₂⟩ := hold q hq p hqp
    obtain ⟨h₁', -, h₂'⟩ := hold q' hq' p hqp'
    exact h.once q h₁ q' h₁' p h₂ h₂'
  · rw [hlive, Finset.mem_erase] at hpl
    rw [hborn]
    exact h.born p hpl.2 hpn

/-- A step in which the kills meet their condition. -/
theorem KillsOk.step {k k' : Kernel} {e : Event} {g : Lives} (h : KillsOk k.sys g) (hs : LiveStep k e k')
    (hok : KillOk k e) : KillsOk k'.sys (g.note k e k') := by
  cases hs.life with
  | same hf hl =>
    refine h.same hs.enabled hf hl.free hl.target fun _ => ?_
    rw [hl.prcount, hl.killers, hl.live]
    exact h.count hs.halted
  | born hf hp hfree hstk hn hl hother hc hpend =>
    exact h.create hs.halted hs.enabled hf hp hfree hl (fun p hne => (hother p hne).1) hc hpend
  | started hk hf hp hl hsame => exact h.start hs hok hk hf (mem_live.mpr ⟨hp, hl⟩) hsame
  | halted hf hh hl =>
    refine h.same hs.enabled hf hl.free hl.target fun hc => ?_
    rw [hh] at hc
    cases hc
  | ended hf hp hm hl => exact h.finish hs hok hf hl

/-! ## Runs -/

/-- At boot there is one process, and no kill is under way. -/
theorem sysinit_kills (b : Boot) : KillsOk (sysinit b).sys ⟨fun _ => 0, fun _ => 0, fun _ => 0⟩ := by
  obtain ⟨-, -, -, hpend, hcount, -⟩ := sysinit_vars b
  have hlive : (sysinit b).sys.live = {NULLPROC} := by
    ext p
    rw [mem_live, Finset.mem_singleton, sysinit_proc]
    constructor
    · rintro ⟨-, hst⟩
      by_contra hp
      exact hst (if_neg hp)
    · rintro rfl
      exact ⟨⟨by decide, by decide⟩, by rw [if_pos rfl]; exact nofun⟩
  have hnone : ∀ q, (sysinit b).sys.target q = none := fun q => by
    unfold Sys.target
    rw [hpend]
  refine ⟨fun _ => ?_, fun p => ?_, fun q _ p hp => ?_, fun q _ q' _ p hp => ?_, fun p hp hn => ?_⟩
  · have hkillers : (sysinit b).sys.killers = ∅ := by
      unfold Sys.killers
      exact Finset.filter_eq_empty_iff.mpr fun q _ => not_not.mpr (hnone q)
    rw [hkillers, hlive, hcount]
    rfl
  · split_ifs <;> rfl
  · rw [hnone] at hp
    cases hp
  · rw [hnone] at hp
    cases hp
  · rw [hlive, Finset.mem_singleton] at hp
    exact absurd hp hn

/-- Every run in which the kills meet their condition keeps what holds of the processes. -/
theorem kills_inv {k : Kernel} {g : Lives} (h : KillRun k g) : Idle k.sys ∧ KillsOk k.sys g := by
  induction h with
  | boot b hz => exact ⟨sysinit_idle b, sysinit_kills b⟩
  | step hk ha hs ih =>
    have hlive := live_step ih.1 ha.1 hs
    exact ⟨hlive.idle', ih.2.step hlive ha.2⟩

/-- What a step does to the stacks, by the process whose kill it ends. -/
structure StacksOk (s s' : Sys) (fin : Option ℤ) (g : Lives) : Prop where
  /-- A process keeps the stack that it was created with. -/
  kept : ∀ p, s.state p ≠ .free →
    (s'.proctab p).prstkbase = (s.proctab p).prstkbase ∧ (s'.proctab p).prstklen = (s.proctab p).prstklen
  /-- Without the end of a kill no process is destroyed and no stack is given back. -/
  none : fin = none → (∀ p, s.state p ≠ .free → s'.state p ≠ .free) ∧
    (s'.memlist = s.memlist ∨ ∃ n top, getstk s.memlist n = some (top, s'.memlist))
  /-- The end of a kill destroys the process that it was started for, whose stack is given back now
  and was not before. -/
  some : ∀ p, fin = some p → s.state p ≠ .free ∧ s'.state p = .free ∧
    (∀ q, q ≠ p → s.state q ≠ .free → s'.state q ≠ .free) ∧
    s'.memlist = (s.freestk (s.proctab p).prstkbase (s.proctab p).prstklen).memlist ∧ g.returned p = 0 ∧
    g.victim s.currpid = g.born p

/-- The stacks in a step. -/
theorem KillsOk.stacks {k k' : Kernel} {e : Event} {g : Lives} (h : KillsOk k.sys g) (hs : LiveStep k e k') :
    StacksOk k.sys k'.sys (k.sys.endsKill e) g := by
  cases hs.life with
  -- Only the end of a kill gives back a stack.
  | same hf hl =>
    refine ⟨fun p _ => hl.stack p, fun _ => ⟨fun p hp => (hl.free p).not.mpr hp, .inl hl.memlist⟩,
      fun p hp => ?_⟩
    exact absurd (hf.symm.trans hp) nofun
  | @born pid n hf hp hfree hstk hn hl hother hc hpend =>
    have hne : ∀ {p}, k.sys.state p ≠ .free → p ≠ pid := fun hst he => hst (he ▸ hfree)
    refine ⟨fun p hst => (hother p (hne hst)).2, fun _ => ⟨fun p hst => ?_, .inr ⟨n, _, hstk⟩⟩,
      fun p hp => ?_⟩
    · exact (hother p (hne hst)).1.not.mpr hst
    · exact absurd (hf.symm.trans hp) nofun
  | started hk hf hp hl hsame =>
    refine ⟨fun p _ => hsame.stack p, fun _ =>
      ⟨fun p hp => (hsame.free p).not.mpr hp, .inl hsame.memlist⟩, fun p hp => ?_⟩
    exact absurd (hf.symm.trans hp) nofun
  | halted hf hh hl =>
    refine ⟨fun p _ => hl.stack p, fun _ => ⟨fun p hp => (hl.free p).not.mpr hp, .inl hl.memlist⟩,
      fun p hp => ?_⟩
    exact absurd (hf.symm.trans hp) nofun
  -- The stack that is given back is that of the process that the kill was started for.
  | @ended pid hf hp hm hl =>
    refine ⟨fun p _ => hl.stack p, fun hc => absurd (hf.symm.trans hc) nofun, fun p hfp => ?_⟩
    obtain rfl : pid = p := Option.some.inj (hf.symm.trans hfp)
    have hcurr : k.sys.currpid ∈ k.sys.live := mem_live.mpr ⟨hs.idle.states.currpid, hs.idle.curr_live⟩
    obtain ⟨hpl, hv⟩ := h.target _ hcurr _ (starts_of_ends hf).2
    have hst := (mem_live.mp hpl).2
    refine ⟨hst, (hl.free pid).mpr (.inl rfl), fun q hq hlq => ?_, hm, ?_, hv⟩
    · rw [ne_eq, hl.free, or_iff_right hq]
      exact hlq
    · rw [h.returned, if_neg hst]

/-- **Every process is destroyed once**, in every run in which no process starts to kill one that is
being killed already and none destroys one that is in the middle of a kill. The number of processes
is that of the used entries less the kills under way, so it is that of the used entries exactly when
no kill is under way; and a step that gives a stack back destroys the process that the kill was
started for. -/
theorem destroyed_once {k : Kernel} {g : Lives} (h : KillRun k g) :
    KillsOk k.sys g ∧ (k.sys.halted = false → (k.sys.prcount = k.sys.live.card ↔ k.sys.killers = ∅)) ∧
      ∀ e k', k.Tame e → k.Step e k' → StacksOk k.sys k'.sys (k.sys.endsKill e) g := by
  obtain ⟨hi, hk⟩ := kills_inv h
  refine ⟨hk, fun hh => ?_, fun e k' ht hs => hk.stacks (live_step hi ht hs)⟩
  have hcount := hk.count hh
  rw [← Finset.card_eq_zero]
  omega

instance (k : Kernel) (e : Event) : Decidable (KillOk k e) :=
  inferInstanceAs (Decidable ((∀ p ∈ k.startsKill e, ∀ q ∈ k.sys.live, k.sys.target q ≠ some p) ∧
    ∀ p ∈ k.sys.endsKill e, p ≠ k.sys.currpid → k.sys.target p = none))

/-- A plain event touches no unmapped memory. -/
theorem tame_of_plain {k : Kernel} (h : PlainInv k) {e : Event} (he : k.Enabled e) (hp : e.Plain) :
    k.Tame e := by
  intro fuel junk hw
  obtain ⟨k', hk', -⟩ := exec_plain h he hp fuel junk
  rw [hw] at hk'
  cases hk'

/-- A plain run in which the kills meet their condition. -/
theorem KillRun.of_plain {k : Kernel} {g : Lives} (h : Kernel.Noted (fun k e => e.Plain ∧ KillOk k e)
    ⟨fun _ => 0, fun _ => 0, fun _ => 0⟩ Lives.note k g) : KillRun k g := by
  induction h with
  | boot b hz => exact .boot b hz
  | step hk ha hs ih =>
    have hinv := plain_inv ((Kernel.Noted.reach hk).mono fun _ _ he => he.1)
    exact .step ih ⟨tame_of_plain hinv hs.2.1 ha.1, ha.2⟩ hs

/-- The null process creates two processes, and kills the second one. -/
def killEvents : List Event := [.call (.create 1024 20), .call (.create 1024 20), .call (.kill 2), .cont]

set_option maxRecDepth 100000 in
/-- Two processes are left, and the stack of the third one has been given back once. -/
theorem destroyed_once_two : ∃ k g, KillRun k g ∧ k.sys.prcount = 2 ∧ g.returned 2 = 1 ∧ KillsOk k.sys g := by
  have hruns : (sysinit clearedBoot).Runs (fun k e => e.Plain ∧ KillOk k e) killEvents := by decide +kernel
  have hcount : ((sysinit clearedBoot).afterAll killEvents).sys.prcount = 2 := by decide +kernel
  have hreturned : ((sysinit clearedBoot).noteAll Lives.note killEvents
      ⟨fun _ => 0, fun _ => 0, fun _ => 0⟩).returned 2 = 1 := by decide +kernel
  have hboot : Kernel.Noted (fun k e => e.Plain ∧ KillOk k e) ⟨fun _ => 0, fun _ => 0, fun _ => 0⟩ Lives.note
      (sysinit clearedBoot) ⟨fun _ => 0, fun _ => 0, fun _ => 0⟩ := .boot clearedBoot fun _ _ _ => rfl
  generalize sysinit clearedBoot = k at *
  have hrun := KillRun.of_plain (Kernel.Noted.runs_noted hboot hruns)
  exact ⟨_, _, hrun, hcount, hreturned, (destroyed_once hrun).1⟩

/-- Process 3 starts to kill process 2. The message to their parent, process 1, gives the processor
to it, and it kills process 2 as well before process 3 goes on. -/
def doubleKillEvents : List Event :=
  [.call (.create 1024 50), .call (.resume 1), .call (.create 1024 10),
    .call (.create 1024 20), .call (.resume 2),
    .call (.resume 3), .call .receive, .call (.kill 2), .cont,
      .call (.kill 2), .cont, .call .receive, .call .receive,
    .cont]

set_option maxRecDepth 100000 in
/-- Two kills of one process count it off twice and give its stack back twice: no kill is under way,
three entries are used, and the number of processes is two. -/
theorem killed_twice :
    ∃ k g, Kernel.Noted (fun _ e => e.Plain) ⟨fun _ => 0, fun _ => 0, fun _ => 0⟩ Lives.note k g ∧
    k.sys.halted = false ∧ k.sys.killers = ∅ ∧ k.sys.prcount = 2 ∧ k.sys.live.card = 3 ∧ g.returned 2 = 2 ∧
    ¬ KillsOk k.sys g := by
  have hruns : (sysinit clearedBoot).Runs (fun _ e => e.Plain) doubleKillEvents := by decide +kernel
  have hhalted : ((sysinit clearedBoot).afterAll doubleKillEvents).sys.halted = false := by decide +kernel
  have hkillers : ((sysinit clearedBoot).afterAll doubleKillEvents).sys.killers = ∅ := by decide +kernel
  have hcount : ((sysinit clearedBoot).afterAll doubleKillEvents).sys.prcount = 2 := by decide +kernel
  have hlive : ((sysinit clearedBoot).afterAll doubleKillEvents).sys.live.card = 3 := by decide +kernel
  have hreturned : ((sysinit clearedBoot).noteAll Lives.note doubleKillEvents
      ⟨fun _ => 0, fun _ => 0, fun _ => 0⟩).returned 2 = 2 := by decide +kernel
  have hboot : Kernel.Noted (fun _ e => e.Plain) ⟨fun _ => 0, fun _ => 0, fun _ => 0⟩ Lives.note
      (sysinit clearedBoot) ⟨fun _ => 0, fun _ => 0, fun _ => 0⟩ := .boot clearedBoot fun _ _ _ => rfl
  generalize sysinit clearedBoot = k at *
  refine ⟨_, _, Kernel.Noted.runs_noted hboot hruns, hhalted,
    hkillers, hcount, hlive, hreturned, fun hk => ?_⟩
  have := hk.count hhalted
  rw [hkillers, hcount, hlive] at this
  exact absurd this (by decide)

end

end Xinu
