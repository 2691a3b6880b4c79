import Xinu.Kernel.Contents

/-!
# The queue of sleeping processes

The key of a sleeping process is its delay behind the process before it. `insertd` walks down the
queue and takes the keys that it passes off the delay of the new process, and what is left of that
off the key of the next one; `unsleep` adds the key of the process that it takes out to the key of
the next one.
-/

namespace Xinu

open LinkedQueue

namespace Sys

variable {s s' : Sys} {home : ℤ → Option ℤ} {p : ℤ}

/-- What is left of a delay behind the processes of a list. -/
def remaining (s : Sys) (key : ℤ) (l : List ℤ) : ℤ := l.foldl (fun k x => int32 (k - s.key x)) key

/-- The walk of `insertd` passes the processes of a list: no key is larger than what is left of the delay. -/
def Passes (s : Sys) : ℤ → List ℤ → Prop
  | _, [] => True
  | key, x :: l => s.key x ≤ key ∧ s.Passes (int32 (key - s.key x)) l

/-- One more process to pass. -/
theorem passes_append {key : ℤ} {l : List ℤ} {x : ℤ} (h : s.Passes key l) (hx : s.key x ≤ s.remaining key l) :
    s.Passes key (l ++ [x]) := by
  induction l generalizing key with
  | nil => exact ⟨hx, trivial⟩
  | cons y l ih => exact ⟨h.1, ih h.2 hx⟩

/-- What is left of a delay behind one more process. -/
theorem remaining_append (key : ℤ) (l : List ℤ) (x : ℤ) :
    s.remaining key (l ++ [x]) = int32 (s.remaining key l - s.key x) := by
  unfold remaining
  rw [List.foldl_append]
  rfl

/-- The walk of `insertd` stops at the tail of the queue, or at the first key that is larger than
what is left of the delay. -/
theorem insertdPos_cut {h : ℤ} (ht : Threads s.next s.prev queueIds queuetail home s.contents)
    (hh : h ∈ queueIds)
    (hpid : ∀ x ∈ s.contents h, x ≠ h + 1) (key : ℤ) :
    ∀ (fuel : ℕ) (l r a : List ℤ) (v c : ℤ) (b : List ℤ), s.contents h = l ++ r → h :: l = a ++ [v] →
      r ++ [queuetail h] = c :: b → r.length < fuel → s.Passes key l →
      (s.insertdPos h fuel v c (s.remaining key l)).Ends fun t => ∃ l' r' a' b', s.contents h = l' ++ r' ∧
        h :: l' = a' ++ [t.1] ∧ r' ++ [queuetail h] = t.2.1 :: b' ∧
          t.2.2 = s.remaining key l' ∧ s.Passes key l' ∧
        (t.2.1 ≠ h + 1 ↔ r' ≠ []) ∧ ∀ x ∈ r'.head?, s.remaining key l' < s.key x := by
  -- By induction on the rounds, with the queue cut where the walk is.
  intro fuel
  induction fuel with
  | zero => exact fun l r a v c b _ _ _ hlt => absurd hlt (Nat.not_lt_zero _)
  | succ fuel ih =>
    intro l r a v c b hq hlv hr hlt hpass
    unfold insertdPos
    split_ifs with hgo
    -- The key is not larger than what is left: the walk goes on behind it.
    · cases r with
      | nil =>
        injection hr with hc
        exact absurd hc.symm hgo.1
      | cons x r =>
        injection hr with hx hr
        subst hx
        obtain ⟨-, b', -, hr'⟩ := ht.neighbours hh hq
        rw [List.length_cons] at hlt
        rw [← remaining_append]
        refine ih (l ++ [x]) r (h :: l) x _ b' ?_ rfl hr' (by omega) (passes_append hpass hgo.2)
        rw [hq, List.append_assoc, List.singleton_append]
    -- The walk stops here; it is the tail, or the key is larger.
    · refine .ok ⟨l, r, a, b, hq, hlv, hr, rfl, hpass, ?_, fun x hx => ?_⟩
      · cases r with
        | nil =>
          injection hr with hc
          exact iff_of_false (not_not.mpr hc.symm) (not_not.mpr rfl)
        | cons x r =>
          injection hr with hx _
          refine iff_of_true ?_ (List.cons_ne_nil x r)
          rw [← hx]
          exact hpid x (by rw [hq]; exact List.mem_append_right _ List.mem_cons_self)
      · cases r with
        | nil => cases hx
        | cons y r =>
          injection hr with hy _
          rw [List.head?_cons, Option.mem_some_iff] at hx
          have hne : c ≠ h + 1 := by
            rw [← hy]
            exact hpid y (by rw [hq]; exact List.mem_append_right _ List.mem_cons_self)
          rw [← hx, hy]
          exact not_le.mp fun hle => hgo ⟨hne, hle⟩

/-- What `insertd` does to the queue of sleeping processes. -/
structure InsertedDelay (s s' : Sys) (p key : ℤ) : Prop where
  /-- Only links and keys change. -/
  tables : ∃ t, s' = { s with queuetab := t }
  /-- The process stands behind those that are due before it or with it; its key is what is left of its delay
  there, and that much is taken from the next key. -/
  cut : ∃ l r, s.contents s.sleepq = l ++ r ∧ s'.contents s.sleepq = l ++ p :: r ∧ s.Passes key l ∧
    s'.key p = s.remaining key l ∧
    (∀ c ∈ r.head?, s.remaining key l < s.key c ∧ s'.key c = int32 (s.key c - s.remaining key l)) ∧
    ∀ x, x ≠ p → x ∉ r.head? → s'.key x = s.key x
  /-- The other queues stay as they are. -/
  other : ∀ h ∈ queueIds, h ≠ s.sleepq → s'.contents h = s.contents h

/-- The key of an entry after an assignment to it. -/
theorem setKey_key_self (s : Sys) (i v : ℤ) : (s.setKey i v).key i = v := by
  unfold setKey key
  rw [setQ_apply, if_pos rfl]

/-- `insertd` puts a process on the queue of sleeping processes. -/
theorem insertd_contents (hl : Linked s home) (hp : IsPid p)
    (hst : s.state p ≠ .free) (hn : home p = none) (key : ℤ) :
    (s.insertd p s.sleepq key).Ends fun r => r.1 = .ok ∧ InsertedDelay s r.2 p key := by
  have hh := hl.sleepq_mem
  -- The identifiers are valid, so `insertd` goes on to the walk.
  have hbad : ¬ (isbadqid s.sleepq ∨ s.isbadpid p) := by
    rintro (hb | hb | hb | hb)
    · exact not_isbadqid hh hb
    · exact absurd hp.1 (not_le.mpr hb)
    · exact absurd hp.2 (not_lt.mpr hb)
    · exact hst hb
  have ht := contents_threads hl
  obtain ⟨c, b, hc⟩ := List.exists_cons_of_ne_nil (List.append_ne_nil_of_right_ne_nil (s.contents s.sleepq)
    (List.cons_ne_nil (queuetail s.sleepq) []))
  have hfirst := ht.edge (l := []) (a := []) hh rfl rfl hc
  have hlen := length_le hl ht hh
  have hpid : ∀ x ∈ s.contents s.sleepq, x ≠ s.sleepq + 1 :=
    fun x hx => (pid_of_mem hl hh hx).ne_tail s.sleepq hh
  unfold insertd
  rw [if_neg hbad, show (s.queuetab s.sleepq).qnext = c from hfirst.1]
  refine Res.Ends.bind (insertdPos_cut ht hh hpid key _ [] (s.contents s.sleepq) [] s.sleepq c b rfl rfl hc
    (by rw [show NQENT.toNat = 304 from rfl]; omega) trivial) fun t hcut => .ok ⟨rfl, ?_⟩
  obtain ⟨l, r, a, b', hq, hlv, hrc, hkey, hpass, hend, hbig⟩ := hcut
  have hlink := fun {h' : ℤ} (hh' : h' ∈ queueIds) =>
    link_contents (k := t.2.2) hl hh hp hn hq hlv hrc hh'
  -- The process is not on the queue before, so no node is linked twice.
  have hpnot : p ∉ s.contents s.sleepq := by
    rw [mem_contents hl hh, hn]
    exact nofun
  have hhead : ∀ x ∈ r.head?, x = t.2.1 ∧ x ≠ p := by
    intro x hx
    cases r with
    | nil => cases hx
    | cons y r =>
      injection hrc with hy _
      rw [List.head?_cons, Option.mem_some_iff] at hx
      refine ⟨hx.symm.trans hy, fun he => hpnot ?_⟩
      rw [hq, ← he, ← hx]
      exact List.mem_append_right _ List.mem_cons_self
  -- Reducing the key of the next process does not move it.
  have hcases : ((if t.2.1 ≠ s.sleepq + 1 then (s.link p t.1 t.2.1 t.2.2).setKey t.2.1
      (int32 ((s.link p t.1 t.2.1 t.2.2).key t.2.1 - t.2.2)) else s.link p t.1 t.2.1 t.2.2) : Sys).contents =
      (s.link p t.1 t.2.1 t.2.2).contents := by
    funext x
    split_ifs
    · exact setKey_contents ..
    · rfl
  -- The keys: the new one has what is left of its delay, the next one less by it.
  constructor
  · dsimp only
    split_ifs
    · exact ⟨_, rfl⟩
    · exact ⟨_, rfl⟩
  · refine ⟨l, r, hq, ?_, hpass, ?_, fun x hx => ⟨hbig x hx, ?_⟩, fun x hxp hx => ?_⟩
    · dsimp only
      rw [hcases, hlink hh, if_pos rfl]
    · -- The next process is another one, so the key of the new one stays.
      dsimp only
      split_ifs with hne
      · obtain ⟨z, r', rfl⟩ := List.exists_cons_of_ne_nil (hend.mp hne)
        obtain ⟨hz, hzp⟩ := hhead z rfl
        rw [← hz, setKey_key hzp.symm, link_key_self, hkey]
      · rw [link_key_self, hkey]
    · obtain ⟨hxt, hxp⟩ := hhead x hx
      have hne : r ≠ [] := by
        rintro rfl
        cases hx
      dsimp only
      rw [if_pos (hend.mpr hne), ← hxt, setKey_key_self, link_key hxp, hkey]
    · dsimp only
      split_ifs with hne
      · obtain ⟨z, r', rfl⟩ := List.exists_cons_of_ne_nil (hend.mp hne)
        obtain ⟨hz, -⟩ := hhead z rfl
        have hxt : x ≠ t.2.1 := by
          rintro rfl
          exact hx (by rw [hz]; rfl)
        rw [setKey_key hxt, link_key hxp]
      · exact link_key hxp
  · intro h' hh' hne
    dsimp only
    rw [hcases, hlink hh', if_neg hne]

/-- A process that sleeps, or waits for a message for some time, is on the queue of sleeping processes. -/
theorem home_asleep (hp : IsPid p) (hst : s.state p = .sleep ∨ s.state p = .rectim) :
    s.home p = some s.sleepq := by
  rw [home_of_pid hp, homeOf]
  unfold state at hst
  rcases hst with hst | hst <;> rw [hst]

/-- What `unsleep` does to the queue of sleeping processes. -/
structure TakenDelay (s s' : Sys) (p : ℤ) : Prop where
  /-- Only links and keys change. -/
  tables : ∃ t, s' = { s with queuetab := t }
  /-- The others stay in order, and the next one gets the key of the process in addition. -/
  cut : ∃ l r, s.contents s.sleepq = l ++ p :: r ∧ s'.contents s.sleepq = l ++ r ∧
    (∀ c ∈ r.head?, s'.key c = int32 (s.key c + s.key p)) ∧
    ∀ x, x ∉ r.head? → s'.key x = s.key x
  /-- The other queues stay as they are. -/
  other : ∀ h ∈ queueIds, h ≠ s.sleepq → s'.contents h = s.contents h

/-- `unsleep` takes a process from the queue of sleeping processes. -/
theorem unsleep_contents (h : Running s) (hp : s.home p = some s.sleepq) : TakenDelay s (s.unsleep p) p := by
  have hh := h.linked.sleepq_mem
  have hpid := h.linked.pid p (by rw [hp]; exact nofun)
  have hbad : ¬ s.isbadpid p := by
    rintro (hb | hb | hb)
    · exact absurd hpid.1 (not_le.mpr hb)
    · exact absurd hpid.2 (not_lt.mpr hb)
    · exact (state_of_home hp).1 hb
  have hst : ¬ (s.state p ≠ .sleep ∧ s.state p ≠ .rectim) :=
    fun hst => (asleep_of_home h hp).elim hst.1 hst.2
  have hmem := (mem_contents h.linked hh).mpr hp
  obtain ⟨l, r, hq⟩ := List.append_of_mem hmem
  have hnd := nodup_contents h.linked hh
  have hpl : p ∉ l ∧ p ∉ r := by
    rw [hq, List.perm_middle.nodup_iff, List.nodup_cons, List.mem_append, not_or] at hnd
    exact hnd.1
  have herase : (s.contents s.sleepq).erase p = l ++ r := by
    rw [hq, List.erase_append_right _ hpl.1, List.erase_cons_head]
  -- The next entry is the next process, or the tail of the queue.
  obtain ⟨-, b, -, hnext⟩ := (contents_threads h.linked).neighbours hh hq
  have hhead : ∀ c ∈ r.head?, c = (s.queuetab p).qnext ∧ IsPid c := by
    intro c hc
    cases r with
    | nil => cases hc
    | cons y r =>
      injection hnext with hy _
      rw [List.head?_cons, Option.mem_some_iff] at hc
      refine ⟨hc.symm.trans hy, pid_of_mem h.linked hh ?_⟩
      rw [hq, ← hc]
      exact List.mem_append_right _ (List.mem_cons_of_mem _ List.mem_cons_self)
  have hlt : (s.queuetab p).qnext < NPROC ↔ r ≠ [] := by
    cases r with
    | nil =>
      injection hnext with hy _
      refine iff_of_false (not_lt.mpr ?_) (not_not.mpr rfl)
      have h₁ : s.sleepq + 1 = (s.queuetab p).qnext := hy
      rw [← h₁, h.linked.sleepq]
      decide
    | cons y r =>
      obtain ⟨hy, hyp⟩ := hhead y rfl
      refine iff_of_true ?_ (List.cons_ne_nil y r)
      rw [← hy]
      exact hyp.2
  unfold unsleep
  rw [if_neg hbad, if_neg hst]
  dsimp only
  have hget : ∀ {h' : ℤ}, h' ∈ queueIds →
      (s.getitem p).contents h' = if h' = s.sleepq then l ++ r else s.contents h' := by
    intro h' hh'
    rw [getitem_contents h.linked hh hp hh', herase]
  split_ifs with hn
  · obtain ⟨c, r', rfl⟩ := List.exists_cons_of_ne_nil (hlt.mp hn)
    obtain ⟨hc, hcp⟩ := hhead c rfl
    have hk := setKey_linked h.linked (i := (s.queuetab p).qnext) (by
      rw [← hc]
      have := hcp.lt
      omega) (int32 (s.key (s.queuetab p).qnext + s.key p))
    have hgetk : ∀ {h' : ℤ}, h' ∈ queueIds →
        ((s.setKey (s.queuetab p).qnext (int32 (s.key (s.queuetab p).qnext + s.key p))).getitem
          p).contents h' =
          if h' = s.sleepq then l ++ c :: r' else s.contents h' := by
      intro h' hh'
      rw [getitem_contents hk hh hp hh', setKey_contents, setKey_contents, herase]
    refine ⟨⟨_, rfl⟩, ⟨l, c :: r', hq, by rw [hgetk hh, if_pos rfl], fun x hx => ?_, fun x hx => ?_⟩,
      fun h' hh' hne => ?_⟩
    · obtain ⟨hx', -⟩ := hhead x hx
      rw [getitem_key, ← hx', setKey_key_self]
    · have hxn : x ≠ (s.queuetab p).qnext := by
        rintro rfl
        exact hx (by rw [List.head?_cons, ← hc]; rfl)
      rw [getitem_key, setKey_key hxn]
    · rw [hgetk hh', if_neg hne]
  · have hr : r = [] := by
      by_contra hr
      exact hn (hlt.mpr hr)
    subst hr
    refine ⟨⟨_, rfl⟩, ⟨l, [], hq, by rw [hget hh, if_pos rfl], nofun, fun x _ => getitem_key s p x⟩,
      fun h' hh' hne => ?_⟩
    rw [hget hh', if_neg hne]

end Sys

end Xinu
