import Xinu.Kernel.Contents

/-!
# What the scheduler moves

`Moved R s s'` says what the functions of the scheduler do to the tables: the processes of `R` leave
their queues and are ready or running, some processes that were ready or running have changed
places, and everything else is as before. `Fair` says that the running process has the highest
priority, or that a rescheduling is due.
-/

namespace Xinu

open LinkedQueue

/-- What one computation ends with, said by two statements about it. -/
theorem Res.Ends.and {α : Type} {r : Res α} {P Q : α → Prop} (hp : r.Ends P) (hq : r.Ends Q) :
    r.Ends fun x => P x ∧ Q x := by
  obtain ⟨x, hx, hpx⟩ := hp
  obtain ⟨y, hy, hqy⟩ := hq
  rw [hx] at hy
  injection hy with hxy
  exact ⟨x, hx, hpx, hxy ▸ hqy⟩

namespace Sys

/-! ## The order of the ready list -/

/-- The process runs, or is ready to run. -/
def Active (s : Sys) (p : ℤ) : Prop := s.state p = .curr ∨ s.state p = .ready

/-- The ready list is in descending order of its keys, which are the priorities of the processes. -/
structure Ordered (s : Sys) : Prop where
  /-- The keys descend. -/
  sorted : (s.contents s.readylist).Pairwise fun x y => s.key y ≤ s.key x
  /-- The key of a process is its priority. -/
  key_eq : ∀ p ∈ s.contents s.readylist, s.key p = (s.proctab p).prprio.toInt

/-- No ready process has a higher key than the running one has priority. -/
def Top (s : Sys) : Prop :=
  s.state s.currpid = .curr →
    ∀ p ∈ s.contents s.readylist, s.key p ≤ (s.proctab s.currpid).prprio.toInt

/-- The running process has the highest priority, or a rescheduling is due. -/
def Fair (s : Sys) : Prop := s.Top ∨ 0 < s.ndefers ∧ s.attempt = true

/-! ## Moves -/

/-- The processes of `R` leave their queues and become active. Active processes may change places. -/
structure Moved (R : List ℤ) (s s' : Sys) : Prop where
  /-- Nothing else of the kernel changes. -/
  rest : s' = { s with
    proctab := s'.proctab, queuetab := s'.queuetab, currpid := s'.currpid, cr3 := s'.cr3,
    preempt := s'.preempt, attempt := s'.attempt, ndefers := s'.ndefers }
  /-- Of the process table only the states change. -/
  entry : ∀ p, s'.proctab p = { s.proctab p with prstate := s'.state p }
  /-- Another process keeps its state, or is active before and behind. -/
  state : ∀ p, p ∉ R → s'.state p = s.state p ∨ s.Active p ∧ s'.Active p
  /-- The processes of `R` are active. -/
  ready : ∀ p ∈ R, s'.Active p
  /-- The keys of the others stay, unless they are active. -/
  key : ∀ p, p ∉ R → ¬ s.Active p → s'.key p = s.key p
  /-- On the other queues only the processes of `R` are missing. -/
  queue : ∀ h ∈ queueIds, h ≠ s.readylist → s'.contents h = (s.contents h).filter (· ∉ R)

/-- The scheduler keeps the order of the ready list, and the running process on top. -/
structure Moves (R : List ℤ) (s s' : Sys) : Prop extends Moved R s s' where
  /-- If the ready list has been in order and the running process on top, they are again. -/
  ranks : Ordered s → Fair s → Ordered s' ∧ Fair s'

variable {s s' s'' : Sys} {R R' : List ℤ} {p : ℤ} {home : ℤ → Option ℤ}

namespace Moved

/-- A semaphore is not changed. -/
theorem semtab (h : Moved R s s') : s'.semtab = s.semtab := by rw [h.rest]

/-- The identifier of the ready list is not changed. -/
theorem readylist (h : Moved R s s') : s'.readylist = s.readylist := by rw [h.rest]

/-- The identifier of the queue of sleeping processes is not changed. -/
theorem sleepq (h : Moved R s s') : s'.sleepq = s.sleepq := by rw [h.rest]

/-- What the processes have left to do is not changed. -/
theorem pend (h : Moved R s s') : s'.pend = s.pend := by rw [h.rest]

/-- Moves between queues change the answer of no call. -/
theorem result (h : Moved R s s') : s'.result = s.result := by rw [h.rest]

/-- The number of processes is not changed. -/
theorem prcount (h : Moved R s s') : s'.prcount = s.prcount := by rw [h.rest]

/-- The free blocks are not changed. -/
theorem memlist (h : Moved R s s') : s'.memlist = s.memlist := by rw [h.rest]

/-- Moves between queues do not halt the processor. -/
theorem halted (h : Moved R s s') : s'.halted = s.halted := by rw [h.rest]

/-- A state is one where nothing has moved. -/
theorem refl (s : Sys) : Moved [] s s := by
  refine ⟨rfl, fun p => rfl, fun p _ => .inl rfl, nofun, fun p _ _ => rfl, fun h _ _ => ?_⟩
  exact (List.filter_eq_self.mpr fun x _ => by simp).symm

/-- Moves one after the other are moves, of the processes of both. -/
theorem trans (h : Moved R s s') (h' : Moved R' s' s'') : Moved (R ++ R') s s'' := by
  refine ⟨?_, fun p => ?_, fun p hp => ?_, fun p hp => ?_, fun p hp ha => ?_, fun x hx hne => ?_⟩
  · rw [h'.rest, h.rest]
  · rw [h'.entry, h.entry]
  -- A process that moves in neither step has changed its state at most once.
  · rw [List.mem_append, not_or] at hp
    rcases h'.state p hp.2 with h₂ | ⟨h₂, h₃⟩
    · rcases h.state p hp.1 with h₁ | ⟨h₁, h₁'⟩
      · exact .inl (h₂.trans h₁)
      · refine .inr ⟨h₁, ?_⟩
        unfold Active at h₁' ⊢
        rwa [h₂]
    · rcases h.state p hp.1 with h₁ | ⟨h₁, -⟩
      · refine .inr ⟨?_, h₃⟩
        unfold Active at h₂ ⊢
        rwa [← h₁]
      · exact .inr ⟨h₁, h₃⟩
  -- A process that moves in the first step is still ready or running after the second.
  · by_cases hp' : p ∈ R'
    · exact h'.ready p hp'
    · have h₁ := h.ready p ((List.mem_append.mp hp).resolve_right hp')
      rcases h'.state p hp' with h₂ | ⟨-, h₂⟩
      · unfold Active at h₁ ⊢
        rwa [h₂]
      · exact h₂
  · rw [List.mem_append, not_or] at hp
    rw [h'.key p hp.2 ?_, h.key p hp.1 ha]
    rcases h.state p hp.1 with h₁ | ⟨h₁, -⟩
    · unfold Active at ha ⊢
      rwa [h₁]
    · exact absurd h₁ ha
  -- A queue has lost the processes of both steps.
  · rw [h'.queue x hx (by rw [h.readylist]; exact hne), h.queue x hx hne, List.filter_filter]
    refine List.filter_congr fun y _ => ?_
    simp only [List.mem_append, not_or, Bool.decide_and, Bool.and_comm]

/-- A process that was active already need not be listed. -/
theorem drop_active (h : Moved [p] s s') (hp : s.Active p)
    (hq : ∀ h ∈ queueIds, h ≠ s.readylist → p ∉ s.contents h) : Moved [] s s' := by
  refine ⟨h.rest, h.entry, fun x _ => ?_, nofun, fun x _ ha => ?_, fun x hx hne => ?_⟩
  · by_cases hxp : x = p
    · rw [hxp]
      exact .inr ⟨hp, h.ready p (List.mem_singleton_self p)⟩
    · exact h.state x (by rwa [List.mem_singleton])
  · refine h.key x ?_ ha
    rw [List.mem_singleton]
    rintro rfl
    exact ha hp
  · rw [h.queue x hx hne]
    refine List.filter_congr fun y hy => ?_
    have hyp : y ≠ p := fun he => hq x hx hne (he ▸ hy)
    simp [hyp]

/-- A process taken from its queue first. -/
theorem of_taken {t : ℤ → Qentry} (h : Moved [p] { s with queuetab := t } s')
    (hk : ∀ x, ({ s with queuetab := t } : Sys).key x = s.key x)
    (hq : ∀ h ∈ queueIds, h ≠ s.readylist →
      (({ s with queuetab := t } : Sys).contents h).filter (· ≠ p) = (s.contents h).filter (· ≠ p)) :
    Moved [p] s s' := by
  refine ⟨h.rest, h.entry, h.state, h.ready, fun x hx ha => (h.key x hx ha).trans (hk x),
    fun x hx hne => ?_⟩
  rw [h.queue x hx hne]
  simpa only [List.mem_singleton] using hq x hx hne

end Moved

namespace Moves

/-- A state is one where nothing has moved, with the ranks kept. -/
theorem refl (s : Sys) : Moves [] s s := ⟨.refl s, fun ho hf => ⟨ho, hf⟩⟩

/-- Moves one after the other are moves, with the ranks kept. -/
theorem trans (h : Moves R s s') (h' : Moves R' s' s'') : Moves (R ++ R') s s'' :=
  ⟨h.toMoved.trans h'.toMoved, fun ho hf => h'.ranks (h.ranks ho hf).1 (h.ranks ho hf).2⟩

end Moves

/-! ## Dispatching -/

/-- The first ready process gets the processor, so that none that is ready has a higher priority. -/
theorem dispatch_moved (h : Settled s) (hc : s.state s.currpid ≠ .curr) :
    Moved [] s s.dispatch ∧ (Ordered s → Ordered s.dispatch ∧ s.dispatch.Top) := by
  have hne := h.null_ready hc
  have hr := h.linked.readylist_mem
  obtain ⟨l, hl⟩ := contents_cons hne
  have hhome := firstid_home h.linked hr hne
  have hp := h.linked.pid _ (by rw [hhome]; exact nofun)
  have hst := (home_ready_iff h.linked h.states hp).mp hhome
  obtain ⟨t, ht⟩ := s.dequeue_tables s.readylist
  have hkey := fun i => s.dequeue_key s.readylist i
  have hcont : ∀ {x : ℤ}, x ∈ queueIds → _ := fun {x} hx => (dequeue_contents h.linked hr hl hx).2
  have hfst := (dequeue_contents h.linked hr hl hr).1
  rw [ht] at hkey hcont
  have hdisp : s.dispatch = ({ s with queuetab := t } : Sys).switchTo (s.firstid s.readylist) := by
    unfold dispatch
    dsimp only
    rw [hfst, ht]
  generalize s.firstid s.readylist = p at *
  -- `switchTo` changes one state, and the queue table is that of `dequeue`.
  have hproc : ∀ x, s.dispatch.proctab x = (s.setState p .curr).proctab x := by
    intro x
    rw [hdisp]
    rfl
  have hstate : ∀ x, s.dispatch.state x = if x = p then .curr else s.state x := by
    intro x
    unfold state
    rw [hproc]
    split_ifs with hx
    · rw [hx]
      exact setState_same s p _
    · exact setState_other hx s _
  have hentry : ∀ x, s.dispatch.proctab x = { s.proctab x with prstate := s.dispatch.state x } := by
    intro x
    rw [hstate, hproc]
    unfold setState
    rw [setProc_apply]
    split_ifs with hx
    · rw [hx]
    · rfl
  have hkey' : ∀ x, s.dispatch.key x = s.key x := by
    intro x
    rw [hdisp]
    exact hkey x
  have hcont' : ∀ x ∈ queueIds, s.dispatch.contents x = if x = s.readylist then l else s.contents x := by
    intro x hx
    rw [hdisp]
    exact hcont hx
  have hready : s.dispatch.readylist = s.readylist := by rw [hdisp]; rfl
  refine ⟨⟨by rw [hdisp]; rfl, hentry, fun x _ => ?_, nofun, fun x _ _ => hkey' x, fun x hx hxr => ?_⟩,
    fun ho => ?_⟩
  · rw [hstate]
    split_ifs with hx
    · rw [hx]
      exact .inr ⟨.inr hst, .inl (by rw [hstate, if_pos rfl])⟩
    · exact .inl rfl
  · rw [hcont' x hx, if_neg hxr]
    exact (List.filter_eq_self.mpr fun y _ => by simp).symm
  · have hrl := hcont' _ hr
    rw [if_pos rfl] at hrl
    have hs := ho.sorted
    have hk := ho.key_eq
    rw [hl] at hs hk
    have hprio : ∀ x, (s.dispatch.proctab x).prprio = (s.proctab x).prprio := fun x => by rw [hentry]
    refine ⟨⟨?_, fun x hx => ?_⟩, fun _ x hx => ?_⟩
    · rw [hready, hrl]
      simpa only [hkey'] using (List.pairwise_cons.mp hs).2
    · rw [hready, hrl] at hx
      rw [hkey', hprio]
      exact hk x (List.mem_cons_of_mem _ hx)
    · rw [hready, hrl] at hx
      rw [show s.dispatch.currpid = p by rw [hdisp]; rfl, hkey', hprio, ← hk p List.mem_cons_self]
      exact (List.pairwise_cons.mp hs).1 x hx

/-! ## Making a process ready -/

/-- A process that goes in at the right place keeps a list in descending order. -/
theorem sorted_insert {key : ℤ → ℤ} {l r : List ℤ} (h : (l ++ r).Pairwise fun x y => key y ≤ key x)
    (hl : ∀ x ∈ l, key p ≤ key x) (hr : ∀ x ∈ r.head?, key x < key p) :
    (l ++ p :: r).Pairwise fun x y => key y ≤ key x := by
  rw [List.pairwise_append] at h ⊢
  obtain ⟨h₁, h₂, h₃⟩ := h
  have hall : ∀ x ∈ r, key x ≤ key p := by
    cases r with
    | nil => exact nofun
    | cons y r =>
      have hy := hr y rfl
      intro x hx
      rcases List.mem_cons.mp hx with rfl | hx
      · exact hy.le
      · exact ((List.pairwise_cons.mp h₂).1 x hx).trans hy.le
  refine ⟨h₁, List.pairwise_cons.mpr ⟨hall, h₂⟩, fun x hx y hy => ?_⟩
  rcases List.mem_cons.mp hy with rfl | hy
  · exact hl x hx
  · exact h₃ x hx y hy

/-- A process that is on no queue goes to the ready list. -/
theorem makeReady_moved (hl : Linked s (Function.update s.home p none)) (hp : IsPid p) :
    ((s.setState p .ready).insert p s.readylist (s.proctab p).prprio.toInt).Ends fun s' =>
      Moved [p] s s' ∧ s'.currpid = s.currpid ∧ (Ordered s → Ordered s') := by
  have hl' : Linked (s.setState p .ready) (Function.update s.home p none) :=
    hl.of_eq rfl rfl rfl fun _ => rfl
  have hst : (s.setState p .ready).state p ≠ .free := by
    rw [setState_same]
    exact nofun
  -- The process is on no queue before, so the other queues do not change.
  have hnot : ∀ x ∈ queueIds, p ∉ s.contents x := by
    intro x hx hm
    rw [mem_contents hl hx, Function.update_self] at hm
    cases hm
  refine (insert_contents hl' hp hst (Function.update_self ..) (minkey_lt _)).mono fun s' hs' => ?_
  obtain ⟨t, ht⟩ := hs'.tables
  have hstate : ∀ x, s'.state x = (s.setState p .ready).state x := fun x => by rw [ht]; rfl
  have hready : s'.readylist = s.readylist := by rw [ht]; rfl
  have hproc : ∀ x, s'.proctab x = (s.setState p .ready).proctab x := fun x => by rw [ht]
  -- The priorities are those of the entries, which stay.
  have hprio : ∀ x, (s'.proctab x).prprio = (s.proctab x).prprio := by
    intro x
    rw [hproc]
    unfold setState
    rw [setProc_apply]
    split_ifs with hx
    · rw [hx]
    · rfl
  refine ⟨⟨?_, fun x => ?_, fun x hx => ?_, fun x hx => ?_, fun x hx _ => ?_, fun x hx hne => ?_⟩,
    by rw [ht]; rfl, fun ho => ?_⟩
  · rw [ht]
    rfl
  · rw [hstate, hproc]
    unfold state setState
    rw [setProc_apply]
    split_ifs with hx
    · rw [hx]
    · rfl
  · rw [hstate, setState_other (by simpa using hx)]
    exact .inl rfl
  · rw [List.mem_singleton.mp hx]
    exact .inr (by rw [hstate, setState_same])
  · exact hs'.key_other x (by simpa using hx)
  · rw [hs'.other x hx hne]
    refine (List.filter_eq_self.mpr fun y hy => ?_).symm
    have hyp : y ≠ p := fun he => hnot x hx (he ▸ hy)
    simpa using hyp
  -- The ready list is cut where the new key belongs.
  · obtain ⟨l, r, hq, hq', hlo, hhi⟩ := hs'.cut
    have hkey : ∀ x ∈ s.contents s.readylist, s'.key x = s.key x := by
      intro x hx
      refine hs'.key_other x ?_
      rintro rfl
      exact hnot _ hl.readylist_mem hx
    have hq₀ : s.contents s.readylist = l ++ r := hq
    rw [hq₀] at hkey
    refine ⟨?_, fun x hx => ?_⟩
    -- Ordered before, it is ordered with the new key between smaller and larger ones.
    · rw [hready, show s'.contents s.readylist = l ++ p :: r from hq']
      refine sorted_insert ?_ (fun x hx => ?_) fun x hx => ?_
      · have := ho.sorted
        rw [hq₀] at this
        refine this.imp_of_mem fun hx hy hxy => ?_
        rw [hkey _ hx, hkey _ hy]
        exact hxy
      · rw [hs'.key_self, hkey x (List.mem_append_left _ hx)]
        exact hlo x hx
      · rw [hs'.key_self, hkey x (List.mem_append_right _ (List.mem_of_mem_head? hx))]
        exact hhi x hx
    -- The keys on it are again the priorities of its processes.
    · rw [hready, show s'.contents s.readylist = l ++ p :: r from hq', List.mem_append, List.mem_cons] at hx
      rw [hprio]
      by_cases hxp : x = p
      · rw [hxp, hs'.key_self]
      · have hx' : x ∈ l ++ r := by
          rw [List.mem_append]
          tauto
        rw [hkey x hx']
        exact ho.key_eq x (by rw [hq₀]; exact hx')

/-! ## Rescheduling -/

/-- A current process is on no queue. -/
theorem curr_not_mem (h : Linked s s.home) (hc : s.state p = .curr) {x : ℤ} (hx : x ∈ queueIds) :
    p ∉ s.contents x := by
  rw [mem_contents h hx, home_curr hc]
  exact nofun

/-- The first key of an ordered ready list is the largest one. -/
theorem Ordered.le_firstkey (h : Ordered s) (hp : p ∈ s.contents s.readylist) :
    s.key p ≤ s.firstkey s.readylist := by
  have hne : ¬ s.isempty s.readylist := by
    rw [isempty_contents]
    exact List.ne_nil_of_mem hp
  obtain ⟨l, hl⟩ := contents_cons hne
  have hs := h.sorted
  rw [hl] at hs hp
  rcases List.mem_cons.mp hp with rfl | hp
  · exact le_refl _
  · exact (List.pairwise_cons.mp hs).1 p hp

/-- `resched` puts the process with the highest priority on the processor, or notes that this is due. -/
theorem resched_moved (h : Settled s) :
    s.resched.Ends fun s' => Moved [] s s' ∧ (Ordered s → Ordered s' ∧ Fair s') := by
  unfold resched
  split_ifs with hd hc hprio
  · refine .ok ⟨⟨rfl, fun _ => rfl, fun _ _ => .inl rfl, nofun, fun _ _ _ => rfl, fun x hx _ => ?_⟩,
      fun ho => ⟨⟨ho.sorted, ho.key_eq⟩, .inr ⟨hd, rfl⟩⟩⟩
    exact (List.filter_eq_self.mpr fun y _ => by simp).symm
  · exact .ok ⟨.refl s, fun ho => ⟨ho, .inl fun _ p hp => (ho.le_firstkey hp).trans hprio.le⟩⟩
  · have hnone := home_curr hc
    have hlink : Linked s (Function.update s.home s.currpid none) := by
      rw [update_home_none hnone]
      exact h.linked
    have hfree : s.state s.currpid ≠ .free := by
      rw [hc]
      exact nofun
    refine Res.Ends.bind ((makeReady_spec hlink h.states h.states.currpid hfree).and
      (makeReady_moved hlink h.states.currpid)) fun s₁ h₁ => .ok ?_
    obtain ⟨hm, hmoved, hcurr, hord⟩ := h₁
    have hc₁ : s₁.state s₁.currpid ≠ .curr := by
      rw [hm.currpid, hm.state, if_pos rfl]
      exact nofun
    obtain ⟨hd, htop⟩ := dispatch_moved hm.settled hc₁
    have hall : Moved [s.currpid] s s₁.dispatch := hmoved.trans hd
    refine ⟨hall.drop_active (.inl hc) fun x hx _ => curr_not_mem h.linked hc hx, fun ho => ?_⟩
    exact ⟨(htop (hord ho)).1, .inl (htop (hord ho)).2⟩
  · obtain ⟨hm, htop⟩ := dispatch_moved h hc
    exact .ok ⟨hm, fun ho => ⟨(htop ho).1, .inl (htop ho).2⟩⟩

/-- `resched` moves only the current process and the head of the ready list. -/
theorem resched_moves (h : Settled s) : s.resched.Ends fun s' => Moves [] s s' :=
  (resched_moved h).mono fun _ hs' => ⟨hs'.1, fun ho _ => hs'.2 ho⟩

/-- `ready` puts a process that is on no queue on the ready list, and gives the processor to the
process with the highest priority. -/
theorem ready_moves (hl : Linked s (Function.update s.home p none)) (hs : States s) (hp : IsPid p)
    (hf : s.state p ≠ .free) : (s.ready p).Ends fun s' => Moves [p] s s' := by
  have hbad : ¬ s.isbadpid p := by
    rintro (hb | hb | hb)
    · exact absurd hp.1 (not_le.mpr hb)
    · exact absurd hp.2 (not_lt.mpr hb)
    · exact hf hb
  unfold ready
  rw [if_neg hbad]
  refine Res.Ends.bind ((makeReady_spec hl hs hp hf).and (makeReady_moved hl hp)) fun s₁ h₁ => ?_
  obtain ⟨hm, hmoved, -, hord⟩ := h₁
  refine (resched_moved hm.settled).mono fun s' hs' => ?_
  exact ⟨hmoved.trans hs'.1, fun ho _ => hs'.2 (hord ho)⟩

/-! ## Taking a process from a queue and making it ready -/

/-- The variables of the deferral and the time slice do not matter to the tables. -/
theorem Moved.vars (s : Sys) (n : ℤ) (b : Bool) (c : ℕ) :
    Moved [] s { s with ndefers := n, attempt := b, preempt := c } := by
  refine ⟨rfl, fun _ => rfl, fun _ _ => .inl rfl, nofun, fun _ _ _ => rfl, fun h _ _ => ?_⟩
  exact (List.filter_eq_self.mpr fun x _ => by simp).symm

/-- A process that is taken from the front of its queue, and then made ready. -/
theorem Moves.of_taken {t : ℤ → Qentry} {q : ℤ} {l : List ℤ} (h : Moves [p] { s with queuetab := t } s')
    (hr : s.readylist ∈ queueIds) (hk : ∀ x, ({ s with queuetab := t } : Sys).key x = s.key x)
    (hq : q ≠ s.readylist) (hl : s.contents q = p :: l)
    (hc : ∀ h ∈ queueIds, ({ s with queuetab := t } : Sys).contents h = if h = q then l else s.contents h) :
    Moves [p] s s' := by
  have hrl : ({ s with queuetab := t } : Sys).contents s.readylist = s.contents s.readylist := by
    rw [hc _ hr, if_neg hq.symm]
  refine ⟨h.toMoved.of_taken hk fun x hx _ => ?_, fun ho hf => h.ranks ⟨?_, fun x hx => ?_⟩ ?_⟩
  · rw [hc x hx]
    split_ifs with hxq
    · rw [hxq, hl, List.filter_cons_of_neg (by simp)]
    · rfl
  · change (({ s with queuetab := t } : Sys).contents s.readylist).Pairwise _
    rw [hrl]
    simpa only [hk] using ho.sorted
  · change x ∈ ({ s with queuetab := t } : Sys).contents s.readylist at hx
    rw [hrl] at hx
    rw [hk]
    exact ho.key_eq x hx
  · refine hf.imp (fun htop hcur x hx => ?_) id
    change x ∈ ({ s with queuetab := t } : Sys).contents s.readylist at hx
    rw [hrl] at hx
    rw [hk]
    exact htop hcur x hx

variable {q : ℤ}

/-- The queue of a process that has been taken from it is not that of the running one. -/
theorem taken_facts (h : Running s) (hp : s.home p = some q) :
    IsPid p ∧ s.state p ≠ .free ∧ s.state p ≠ .curr :=
  ⟨h.linked.pid p (by rw [hp]; exact nofun), (state_of_home hp).1, (state_of_home hp).2⟩

/-- `ready(dequeue(q))` makes the first process of a queue ready. -/
theorem dequeue_ready_moves (h : Running s) (hq : q ∈ queueIds) (hqr : q ≠ s.readylist) :
    ((s.dequeue q).2.ready (s.dequeue q).1).Ends fun s' => Moves ((s.contents q).take 1) s s' := by
  cases hl : s.contents q with
  | nil =>
    have hd : s.dequeue q = (EMPTY, s) := by
      unfold dequeue
      rw [if_neg (not_isbadqid hq), if_pos (isempty_contents.mpr hl)]
    rw [hd]
    exact ⟨s, ready_bad isbadpid_empty, .refl s⟩
  | cons p l =>
    have hhome := (mem_contents h.linked hq).mp (by rw [hl]; exact List.mem_cons_self : p ∈ s.contents q)
    obtain ⟨hp, hf, -⟩ := taken_facts h hhome
    have hne : ¬ s.isempty q := by
      rw [isempty_contents, hl]
      exact List.cons_ne_nil _ _
    obtain ⟨hfst, hlink⟩ := dequeue_linked h.linked hq hne
    have hc := fun x (hx : x ∈ queueIds) => (dequeue_contents h.linked hq hl hx).2
    rw [← hfst, (dequeue_contents h.linked hq hl hq).1] at hlink
    rw [(dequeue_contents h.linked hq hl hq).1]
    have hkey := fun x => s.dequeue_key q x
    obtain ⟨t, ht⟩ := s.dequeue_tables q
    rw [ht] at hlink hc hkey ⊢
    have hs : States { s with queuetab := t } := h.states.congr rfl (fun _ => rfl) (fun _ => rfl) rfl
    refine (ready_moves hlink hs hp hf).mono fun s' hs' => ?_
    exact hs'.of_taken h.linked.readylist_mem hkey hqr hl hc

/-- `ready(getfirst(q))` makes the first process of a queue ready. -/
theorem getfirst_ready_moves (h : Running s) (hq : q ∈ queueIds) (hqr : q ≠ s.readylist) :
    ((s.getfirst q).2.ready (s.getfirst q).1).Ends fun s' => Moves ((s.contents q).take 1) s s' := by
  cases hl : s.contents q with
  | nil =>
    have hd : s.getfirst q = (EMPTY, s) := by
      unfold getfirst
      rw [if_pos (isempty_contents.mpr hl)]
    rw [hd]
    exact ⟨s, ready_bad isbadpid_empty, .refl s⟩
  | cons p l =>
    have hhome := (mem_contents h.linked hq).mp (by rw [hl]; exact List.mem_cons_self : p ∈ s.contents q)
    obtain ⟨hp, hf, -⟩ := taken_facts h hhome
    have hne : ¬ s.isempty q := by
      rw [isempty_contents, hl]
      exact List.cons_ne_nil _ _
    have hlink := getfirst_linked h.linked hq hne
    have hc := fun x (hx : x ∈ queueIds) => (getfirst_contents h.linked hq hl hx).2
    have hfst : s.firstid q = p := by
      obtain ⟨l', hl'⟩ := contents_cons hne
      rw [hl] at hl'
      exact (List.cons.inj hl').1.symm
    rw [hfst] at hlink
    rw [(getfirst_contents h.linked hq hl hq).1]
    have hkey := fun x => s.getfirst_key q x
    obtain ⟨t, ht⟩ := s.getfirst_tables q
    rw [ht] at hlink hc hkey ⊢
    have hs : States { s with queuetab := t } := h.states.congr rfl (fun _ => rfl) (fun _ => rfl) rfl
    refine (ready_moves hlink hs hp hf).mono fun s' hs' => ?_
    exact hs'.of_taken h.linked.readylist_mem hkey hqr hl hc

/-! ## Deferred rescheduling -/

/-- Starting to defer moves nothing. -/
theorem cntlStart_moves (h0 : s.ndefers = 0) : Moves [] s s.reschedCntlStart := by
  refine ⟨.vars s _ _ _, fun ho hf => ⟨⟨ho.sorted, ho.key_eq⟩, .inl ?_⟩⟩
  exact hf.resolve_right fun hd => absurd hd.1 (by omega)

/-- When the deferral ends, the scheduler runs if it was called in the meantime. -/
theorem cntlStop_moves (h : Running s) (h1 : s.ndefers = 1) :
    s.reschedCntlStop.Ends fun s' => Moves [] s s' := by
  have hm : Moved [] s { s with ndefers := s.ndefers - 1 } := .vars s _ _ _
  have hr : Running { s with ndefers := s.ndefers - 1 } :=
    h.congr rfl rfl rfl (fun _ => rfl) rfl (fun _ => rfl) (fun _ => rfl) rfl
  unfold reschedCntlStop
  rw [if_neg (by omega)]
  dsimp only
  split_ifs with ha
  · refine (resched_moved hr.toSettled).mono fun s' hs' => ⟨hm.trans hs'.1, fun ho _ => ?_⟩
    exact hs'.2 ⟨ho.sorted, ho.key_eq⟩
  · refine .ok ⟨hm, fun ho hf => ⟨⟨ho.sorted, ho.key_eq⟩, .inl ?_⟩⟩
    -- No rescheduling is due, so the running process is on top.
    exact hf.resolve_right fun hd => ha ⟨by omega, hd.2⟩

/-- A process that sleeps is not active. -/
theorem not_active_of_home (h : Linked s s.home) (hs : States s) (hp : s.home p = some q)
    (hqr : q ≠ s.readylist) : ¬ s.Active p := by
  rintro (hc | hr)
  · exact (state_of_home hp).2 hc
  · have hpid := h.pid p (by rw [hp]; exact nofun)
    rw [(home_ready_iff h hs hpid).mpr hr] at hp
    exact hqr (Option.some.inj hp).symm

/-- The loop of `wakeup` makes the processes ready that have no time left, from the front of the queue on. -/
theorem wakeupLoop_moves :
    ∀ (fuel : ℕ) (s : Sys), Running s → s.ndefers > 0 → (s.contents s.sleepq).length < fuel →
      (wakeupLoop fuel s).Ends fun s' =>
        Moves ((s.contents s.sleepq).takeWhile fun p => decide (s.key p ≤ 0)) s s' := by
  intro fuel
  induction fuel with
  | zero => exact fun s _ _ hlt => absurd hlt (Nat.not_lt_zero _)
  | succ fuel ih =>
    intro s h hd hlt
    have hq := h.linked.sleepq_mem
    have hqr : s.sleepq ≠ s.readylist := by
      rw [h.linked.sleepq, h.linked.readylist]
      decide
    unfold wakeupLoop
    cases hl : s.contents s.sleepq with
    | nil =>
      rw [if_neg (by rw [not_and]; exact fun hc => absurd (isempty_contents.mpr hl) hc)]
      exact .ok (.refl s)
    | cons p l =>
      have hne : ¬ s.isempty s.sleepq := by
        rw [isempty_contents, hl]
        exact List.cons_ne_nil _ _
      have hfirst : s.firstid s.sleepq = p := by
        obtain ⟨l', hl'⟩ := contents_cons hne
        rw [hl] at hl'
        exact (List.cons.inj hl').1.symm
      have hkey : s.firstkey s.sleepq = s.key p := by
        unfold firstkey
        rw [hfirst]
      rw [hkey]
      by_cases hk : s.key p ≤ 0
      · rw [if_pos ⟨hne, hk⟩, List.takeWhile_cons_of_pos (p := fun x => decide (s.key x ≤ 0))
          (decide_eq_true hk)]
        refine Res.Ends.bind ((dequeue_ready_spec h hq).and (dequeue_ready_moves h hq hqr)) fun s₁ h₁ => ?_
        obtain ⟨hspec, hmoves⟩ := h₁
        rw [hl, List.take_succ_cons, List.take_zero] at hmoves
        have hnd := nodup_contents h.linked hq
        rw [hl, List.nodup_cons] at hnd
        have hcont : s₁.contents s₁.sleepq = l := by
          rw [hmoves.sleepq, hmoves.queue _ hq hqr, hl, List.filter_cons_of_neg (by simp)]
          refine List.filter_eq_self.mpr fun x hx => ?_
          have hxp : x ≠ p := fun he => hnd.1 (he ▸ hx)
          simpa using hxp
        rw [hl, List.length_cons] at hlt
        refine (ih s₁ hspec.running (by rw [hspec.sched.ndefers]; exact hd) (by rw [hcont]; omega)).mono
          fun s' hs' => ?_
        rw [hcont] at hs'
        -- The keys of the other sleeping processes are as before.
        have hkeys : ∀ x ∈ l, s₁.key x = s.key x := by
          intro x hx
          refine hmoves.key x ?_ ?_
          · rw [List.mem_singleton]
            exact fun he => hnd.1 (he ▸ hx)
          · refine not_active_of_home h.linked h.states ((mem_contents h.linked hq).mp ?_) hqr
            rw [hl]
            exact List.mem_cons_of_mem _ hx
        have htake : (l.takeWhile fun x => decide (s₁.key x ≤ 0)) = l.takeWhile fun x =>
            decide (s.key x ≤ 0) := by
          clear hs' hcont hlt hl hnd
          induction l with
          | nil => rfl
          | cons y l ihl =>
            rw [List.takeWhile_cons, List.takeWhile_cons, hkeys y List.mem_cons_self,
              ihl fun x hx => hkeys x (List.mem_cons_of_mem _ hx)]
        rw [htake] at hs'
        exact hmoves.trans hs'
      · rw [if_neg (fun hc => hk hc.2), List.takeWhile_cons_of_neg
          (p := fun x => decide (s.key x ≤ 0)) (by simpa using hk)]
        exact .ok (.refl s)

/-- `wakeup` makes the processes ready that have no time left. -/
theorem wakeup_moves (h : Running s) (h0 : s.ndefers = 0) :
    s.wakeup.Ends fun s' => Moves ((s.contents s.sleepq).takeWhile fun p => decide (s.key p ≤ 0)) s s' := by
  have hd : s.reschedCntlStart.ndefers > 0 := by
    show s.ndefers + 1 > 0
    omega
  have hlen := length_le h.cntlStart.linked (contents_threads h.cntlStart.linked) h.linked.sleepq_mem
  have hwait := s.reschedCntlStart.waiting_le s.reschedCntlStart.sleepq
  have hfuel : NQENT.toNat = 304 := rfl
  refine Res.Ends.bind ((wakeupLoop_spec _ _ h.cntlStart hd (by omega)).and
    (wakeupLoop_moves _ _ h.cntlStart hd ?_)) fun s₁ h₁ => ?_
  · change (s.contents s.sleepq).length ≤ 100 at hlen
    change (s.contents s.sleepq).length < _
    omega
  · obtain ⟨⟨hr, hsched⟩, hm⟩ := h₁
    have h1 : s₁.ndefers = 1 := by
      rw [hsched.ndefers]
      show s.ndefers + 1 = 1
      omega
    refine (cntlStop_moves hr h1).mono fun s' hs' => ?_
    have hall := ((cntlStart_moves h0).trans hm).trans hs'
    rw [List.nil_append, List.append_nil] at hall
    exact hall

/-! ## Messages -/

/-- The message that `send` leaves with a process. -/
def deliver (s : Sys) (p : ℤ) (msg : ℕ) : Sys :=
  s.setProc p fun e => { e with prmsg := msg, prhasmsg := true }

/-- The three things that `send` can do, by the state of the process. -/
inductive Sent (s : Sys) (p : ℤ) (msg : ℕ) : Status × Sys → Prop
  /-- There is no such process, or it has a message already. -/
  | refused (h : s.isbadpid p ∨ (s.proctab p).prhasmsg = true) : Sent s p msg (.syserr, s)
  /-- The process does not wait for a message. -/
  | left (hp : ¬ s.isbadpid p) (hm : (s.proctab p).prhasmsg = false) (h₁ : s.state p ≠ .recv)
      (h₂ : s.state p ≠ .rectim) : Sent s p msg (.ok, s.deliver p msg)
  /-- The process waits for a message. -/
  | recv {s' : Sys} (hp : ¬ s.isbadpid p) (hm : (s.proctab p).prhasmsg = false) (h : s.state p = .recv)
      (hs : Moves [p] (s.deliver p msg) s') : Sent s p msg (.ok, s')
  /-- The process waits for a message for some time. -/
  | rectim {s' : Sys} (hp : ¬ s.isbadpid p) (hm : (s.proctab p).prhasmsg = false) (h : s.state p = .rectim)
      (hs : Moves [p] ((s.deliver p msg).unsleep p) s') : Sent s p msg (.ok, s')

/-- What the message changes in the entries of the process table. -/
theorem deliver_proctab (s : Sys) (p : ℤ) (msg : ℕ) (x : ℤ) :
    (s.deliver p msg).proctab x =
      if x = p then { s.proctab p with prmsg := msg, prhasmsg := true } else s.proctab x :=
  setProc_apply ..

/-- Putting a message in a mailbox changes the state of no process. -/
theorem deliver_state (s : Sys) (p : ℤ) (msg : ℕ) (x : ℤ) : (s.deliver p msg).state x = s.state x := by
  unfold state
  rw [deliver_proctab]
  split_ifs with hx
  · rw [hx]
  · rfl

/-- A message changes nothing that matters to the scheduler. -/
theorem Running.deliver (h : Running s) (p : ℤ) (msg : ℕ) : Running (s.deliver p msg) := by
  refine h.congr rfl rfl rfl (fun _ => rfl) rfl (s.deliver_state p msg) (fun x => ?_) rfl
  rw [deliver_proctab]
  split_ifs with hx
  · rw [hx]
  · rfl

/-- `send` does one of these things. -/
theorem send_sent (h : Running s) (p : ℤ) (msg : ℕ) : (s.send p msg).Ends (Sent s p msg) := by
  unfold send
  by_cases hbad : s.isbadpid p
  · rw [if_pos hbad]
    exact .ok (.refused (.inl hbad))
  rw [if_neg hbad]
  by_cases hm : (s.proctab p).prhasmsg = true
  · rw [if_pos hm]
    exact .ok (.refused (.inr hm))
  rw [if_neg hm]
  -- From here on the message is delivered.
  rw [Bool.not_eq_true] at hm
  have hr := h.deliver p msg
  have hstate := s.deliver_state p msg
  have hpid : IsPid p := ⟨not_lt.mp fun hc => hbad (.inl hc), not_le.mp fun hc => hbad (.inr (.inl hc))⟩
  have hlive : (s.deliver p msg).state p ≠ .free := by
    rw [hstate]
    exact fun hc => hbad (.inr (.inr hc))
  dsimp only
  change ((if (s.deliver p msg).state p = .recv then _ else _ : Res (Status × Sys))).Ends _
  split_ifs with h₁ h₂
  -- The receiver waits in `receive`, and becomes ready.
  · have hnone : (s.deliver p msg).home p = none := by
      rw [home_of_pid hpid, homeOf]
      unfold state at h₁
      rw [h₁]
    have hl : Linked (s.deliver p msg) (Function.update (s.deliver p msg).home p none) := by
      rw [update_home_none hnone]
      exact hr.linked
    refine Res.Ends.bind (ready_moves hl hr.states hpid hlive) fun s₂ h₂ => .ok ?_
    exact .recv hbad hm (by rw [← hstate, h₁]) h₂
  -- It waits in `recvtime`, and leaves the queue of sleeping processes first.
  · have hhome : (s.deliver p msg).home p = some (s.deliver p msg).sleepq := by
      rw [home_of_pid hpid, homeOf]
      have h₂' : (s.deliver p msg).state p = .rectim := h₂
      unfold state at h₂'
      rw [h₂']
    obtain ⟨hl, t, ht⟩ := unsleep_linked hr hhome
    have hmoves : (((s.deliver p msg).unsleep p).ready p).Ends fun s' =>
        Moves [p] ((s.deliver p msg).unsleep p) s' := by
      rw [ht] at hl ⊢
      exact ready_moves hl (hr.states.congr rfl (fun _ => rfl) (fun _ => rfl) rfl) hpid hlive
    refine Res.Ends.bind hmoves fun s₂ hs₂ => .ok ?_
    exact .rectim hbad hm ((hstate p).symm.trans h₂) hs₂
  -- It does not wait, and finds the message later.
  · refine .ok (.left hbad hm ?_ ?_)
    · rw [← hstate]
      exact h₁
    · rw [← hstate]
      exact h₂

end Sys

end Xinu
