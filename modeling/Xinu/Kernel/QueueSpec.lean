import Xinu.Kernel.Queue
import Xinu.Lib.Threads
import Mathlib.Data.Int.Interval

/-!
# What the queue functions do

`Linked s home` says that the queue table holds the queues of the kernel, and that process `p` is on the queue
`home p`, or on none. The functions of `Queue.lean` keep this, with another `home` for the process that they
move. A walk over a queue ends at its tail at the latest.
-/

namespace Xinu

open LinkedQueue

/-- The index is that of a process. -/
def IsPid (p : ℤ) : Prop := 0 ≤ p ∧ p < NPROC

instance (p : ℤ) : Decidable (IsPid p) := inferInstanceAs (Decidable (_ ∧ _))

/-- The index is that of a semaphore. -/
def IsSem (n : ℤ) : Prop := 0 ≤ n ∧ n < NSEM

/-- The index of a process is less than the size of the table. -/
theorem IsPid.lt {p : ℤ} (hp : IsPid p) : p < 100 := hp.2

/-- The queues: one for each semaphore, the ready list, and the queue of sleeping processes. -/
def queueIds : Set ℤ := {h | 100 ≤ h ∧ h ≤ 302 ∧ h % 2 = 0}

/-- The tail of a queue. -/
abbrev queuetail (h : ℤ) : ℤ := h + 1

/-- Heads and tails are different entries. -/
theorem anchors : Anchors queueIds queuetail := by
  refine ⟨fun h hh h' hh' he => ?_, fun h hh hh' => ?_⟩
  · have : h + 1 = h' + 1 := he
    omega
  · obtain ⟨-, -, h₁⟩ := hh
    obtain ⟨-, -, h₂⟩ := hh'
    have : (h + 1) % 2 = 0 := h₂
    omega

/-- A process identifier is not the head of a queue. -/
theorem IsPid.not_queue {p : ℤ} (hp : IsPid p) : p ∉ queueIds := by
  rintro ⟨h₁, -⟩
  have := hp.lt
  omega

/-- A process identifier is not the tail of a queue. -/
theorem IsPid.ne_tail {p : ℤ} (hp : IsPid p) : ∀ h ∈ queueIds, p ≠ queuetail h := by
  rintro h ⟨h₁, -⟩ he
  have h₂ := hp.lt
  have : p = h + 1 := he
  omega

/-- A queue has an identifier that the queue functions accept. -/
theorem not_isbadqid {h : ℤ} (hh : h ∈ queueIds) : ¬ isbadqid h := by
  obtain ⟨h₁, h₂, -⟩ := hh
  rintro (hlt | hge)
  · have : h < 100 := hlt
    omega
  · have : h ≥ 303 := hge
    omega

namespace Sys

/-- The successors in the queue table. -/
abbrev next (s : Sys) (i : ℤ) : ℤ := (s.queuetab i).qnext

/-- The predecessors in the queue table. -/
abbrev prev (s : Sys) (i : ℤ) : ℤ := (s.queuetab i).qprev

end Sys

/-- The queue table holds the queues, with process `p` on the queue `home p`. -/
structure Linked (s : Sys) (home : ℤ → Option ℤ) : Prop where
  /-- The links and the back links of every queue lead through its processes. -/
  threads : ∃ q, Threads s.next s.prev queueIds queuetail home q
  /-- Only processes are on queues. -/
  pid : ∀ p, home p ≠ none → IsPid p
  /-- The ready list is the queue that is made first behind those of the semaphores. -/
  readylist : s.readylist = 300
  /-- The queue of sleeping processes is the next one. -/
  sleepq : s.sleepq = 302
  /-- The queues of the semaphores are made before, two entries each. -/
  squeue : ∀ n, IsSem n → (s.semtab n).squeue = 100 + 2 * n
  /-- The key of the tail of the ready list ends every walk of `insert`. -/
  tail_key : s.key 301 = MINKEY

namespace Linked

variable {s s' : Sys} {home : ℤ → Option ℤ}

/-- The ready list is a queue. -/
theorem readylist_mem (h : Linked s home) : s.readylist ∈ queueIds := by
  rw [h.readylist]
  exact ⟨by decide, by decide, by decide⟩

/-- The queue of sleeping processes is a queue. -/
theorem sleepq_mem (h : Linked s home) : s.sleepq ∈ queueIds := by
  rw [h.sleepq]
  exact ⟨by decide, by decide, by decide⟩

/-- The queue of a semaphore is one of those that booting has made. -/
theorem squeue_mem (h : Linked s home) {n : ℤ} (hn : IsSem n) : (s.semtab n).squeue ∈ queueIds := by
  have h₁ : 0 ≤ n := hn.1
  have h₂ : n < 100 := hn.2
  rw [h.squeue n hn]
  refine ⟨?_, ?_, ?_⟩ <;> omega

/-- The queues depend on the links, the identifiers and the key of the tail of the ready list. -/
theorem congr (h : Linked s home) (hn : ∀ i, s'.next i = s.next i) (hp : ∀ i, s'.prev i = s.prev i)
    (hr : s'.readylist = s.readylist) (hs : s'.sleepq = s.sleepq)
    (hq : ∀ n, (s'.semtab n).squeue = (s.semtab n).squeue)
    (hk : s'.key 301 = s.key 301) {home' : ℤ → Option ℤ}
    (hh : ∀ x, home' x = home x) : Linked s' home' := by
  obtain ⟨⟨q, ht⟩, h₁, h₂, h₃, h₄, h₅⟩ := h
  refine ⟨⟨q, ht.congr hn hp hh⟩, fun p hp' => h₁ p (hh p ▸ hp'), hr ▸ h₂, hs ▸ h₃, fun n hn' => ?_, hk ▸ h₅⟩
  rw [hq]
  exact h₄ n hn'

/-- The links do not depend on the other tables. -/
theorem of_eq (h : Linked s home) (ht : s'.queuetab = s.queuetab) (hr : s'.readylist = s.readylist)
    (hs : s'.sleepq = s.sleepq) (hq : ∀ n, (s'.semtab n).squeue = (s.semtab n).squeue) : Linked s' home := by
  refine h.congr (fun i => ?_) (fun i => ?_) hr hs hq ?_ fun _ => rfl
  · unfold Sys.next
    rw [ht]
  · unfold Sys.prev
    rw [ht]
  · unfold Sys.key
    rw [ht]

end Linked

/-! ## Taking out -/

namespace Sys

variable {s : Sys} {home : ℤ → Option ℤ} {p h : ℤ}

/-- The queue table after one entry has changed. -/
theorem setQ_apply (s : Sys) (i : ℤ) (f : Qentry → Qentry) (x : ℤ) :
    (s.setQ i f).queuetab x = if x = i then f (s.queuetab i) else s.queuetab x :=
  Function.update_apply ..

/-- The successors after an assignment to one. -/
theorem setNext_next (s : Sys) (i v x : ℤ) : (s.setNext i v).next x = if x = i then v else s.next x := by
  unfold next setNext
  rw [setQ_apply]
  split_ifs <;> rfl

/-- An assignment to a successor keeps the predecessors. -/
theorem setNext_prev (s : Sys) (i v x : ℤ) : (s.setNext i v).prev x = s.prev x := by
  unfold prev setNext
  rw [setQ_apply]
  split_ifs with he
  · rw [he]
  · rfl

/-- An assignment to a successor keeps the keys. -/
theorem setNext_key (s : Sys) (i v x : ℤ) : (s.setNext i v).key x = s.key x := by
  unfold key setNext
  rw [setQ_apply]
  split_ifs with he
  · rw [he]
  · rfl

/-- The predecessors after an assignment to one. -/
theorem setPrev_prev (s : Sys) (i v x : ℤ) : (s.setPrev i v).prev x = if x = i then v else s.prev x := by
  unfold prev setPrev
  rw [setQ_apply]
  split_ifs <;> rfl

/-- An assignment to a predecessor keeps the successors. -/
theorem setPrev_next (s : Sys) (i v x : ℤ) : (s.setPrev i v).next x = s.next x := by
  unfold next setPrev
  rw [setQ_apply]
  split_ifs with he
  · rw [he]
  · rfl

/-- An assignment to a predecessor keeps the keys. -/
theorem setPrev_key (s : Sys) (i v x : ℤ) : (s.setPrev i v).key x = s.key x := by
  unfold key setPrev
  rw [setQ_apply]
  split_ifs with he
  · rw [he]
  · rfl

/-- The keys of the other entries after an assignment to one. -/
theorem setKey_key {i x : ℤ} (hx : x ≠ i) (s : Sys) (v : ℤ) : (s.setKey i v).key x = s.key x := by
  unfold key setKey
  rw [setQ_apply, if_neg hx]

/-- The queues do not depend on the keys, but for that of the tail of the ready list. -/
theorem setKey_linked {i : ℤ} (hl : Linked s home) (hi : i ≠ 301) (v : ℤ) : Linked (s.setKey i v) home := by
  refine hl.congr (fun x => ?_) (fun x => ?_) ?_ ?_ (fun _ => ?_) (setKey_key hi.symm s v) fun _ => rfl
  · unfold next setKey
    rw [setQ_apply]
    split_ifs with he
    · rw [he]
    · rfl
  · unfold prev setKey
    rw [setQ_apply]
    split_ifs with he
    · rw [he]
    · rfl
  all_goals rfl

/-- After `getitem` the node in front of the process points behind it. -/
theorem getitem_next (s : Sys) (p x : ℤ) :
    (s.getitem p).next x = if x = s.prev p then s.next p else s.next x := by
  unfold getitem
  rw [setPrev_next, setNext_next]

/-- The predecessors after `getitem`. -/
theorem getitem_prev (s : Sys) (p x : ℤ) :
    (s.getitem p).prev x = if x = s.next p then s.prev p else s.prev x := by
  unfold getitem
  rw [setPrev_prev, setNext_prev]

/-- `getitem` links the neighbours of a process. -/
theorem getitem_links (s : Sys) (p : ℤ) :
    Unlinked s.next s.prev (s.getitem p).next (s.getitem p).prev (s.prev p) (s.next p) := by
  refine ⟨?_, ?_, fun x hx => ?_, fun x hx => ?_⟩
  · rw [getitem_next, if_pos rfl]
  · rw [getitem_prev, if_pos rfl]
  · rw [getitem_next, if_neg hx]
  · rw [getitem_prev, if_neg hx]

/-- `getitem` writes only links, and keeps the keys. -/
theorem getitem_key (s : Sys) (p i : ℤ) : (s.getitem p).key i = s.key i := by
  unfold getitem
  rw [setPrev_key, setNext_key]

/-- `getitem` takes a process out of its queue. -/
theorem getitem_linked (hl : Linked s home) (hh : h ∈ queueIds) (hp : home p = some h) :
    Linked (s.getitem p) (Function.update home p none) := by
  obtain ⟨⟨q, ht⟩, h₁, h₂, h₃, h₄, h₅⟩ := hl
  refine ⟨⟨_, ht.unlink anchors hh hp (s.getitem_links p)⟩, fun x hx => h₁ x ?_, h₂, h₃, h₄, ?_⟩
  · rintro hn
    rcases eq_or_ne x p with rfl | hne
    · exact hx (Function.update_self ..)
    · rw [Function.update_of_ne hne] at hx
      exact hx hn
  · rw [getitem_key, h₅]

/-- The first process of a queue that is not empty. -/
theorem firstid_home (hl : Linked s home) (hh : h ∈ queueIds) (hne : ¬ s.isempty h) :
    home (s.firstid h) = some h := by
  obtain ⟨⟨q, ht⟩, -⟩ := hl
  have hchain := ht.chain h hh
  cases hq : q h with
  | nil =>
    -- The queue is empty, so its first entry is its tail.
    rw [hq, List.nil_append, List.isChain_cons_cons] at hchain
    have hfirst : s.firstid h = h + 1 := hchain.1.1
    have h₁ : 100 ≤ h := hh.1
    refine absurd (show s.firstid h ≥ 100 from ?_) hne
    rw [hfirst]
    omega
  | cons x l =>
    rw [hq, List.cons_append, List.isChain_cons_cons] at hchain
    have hfirst : s.firstid h = x := hchain.1.1
    rw [hfirst, ← ht.mem_iff h hh, hq]
    exact List.mem_cons_self

/-- A queue is empty exactly when no process has it as its home. -/
theorem isempty_iff (hl : Linked s home) (hh : h ∈ queueIds) : s.isempty h ↔ ∀ p, home p ≠ some h := by
  constructor
  · intro he p hp
    obtain ⟨⟨q, ht⟩, hpid, -⟩ := hl
    have hchain := ht.chain h hh
    have hmem := (ht.mem_iff h hh p).mpr hp
    cases hq : q h with
    | nil =>
      rw [hq] at hmem
      cases hmem
    | cons x l =>
      rw [hq, List.cons_append, List.isChain_cons_cons] at hchain
      have hfirst : s.firstid h = x := hchain.1.1
      have hx : home x = some h := by
        rw [← ht.mem_iff h hh, hq]
        exact List.mem_cons_self
      have hlt := (hpid x (by rw [hx]; exact nofun)).lt
      have hge : s.firstid h ≥ 100 := he
      rw [hfirst] at hge
      omega
  · intro hall
    by_contra hne
    exact hall _ (firstid_home hl hh hne)

/-- `getfirst` takes out the first process. -/
theorem getfirst_linked (hl : Linked s home) (hh : h ∈ queueIds) (hne : ¬ s.isempty h) :
    Linked (s.getfirst h).2 (Function.update home (s.firstid h) none) := by
  unfold getfirst
  rw [if_neg hne]
  exact getitem_linked hl hh (firstid_home hl hh hne)

/-- `dequeue` takes out the first process. -/
theorem dequeue_linked (hl : Linked s home) (hh : h ∈ queueIds) (hne : ¬ s.isempty h) :
    (s.dequeue h).1 = s.firstid h ∧
      Linked (s.dequeue h).2 (Function.update home (s.firstid h) none) := by
  have hhome := firstid_home hl hh hne
  have hpid := hl.pid _ (by rw [hhome]; exact nofun)
  have hg := getfirst_linked hl hh hne
  have hfst : (s.getfirst h).1 = s.firstid h := by
    unfold getfirst
    rw [if_neg hne]
  unfold dequeue
  rw [if_neg (not_isbadqid hh), if_neg hne]
  refine ⟨hfst, ?_⟩
  dsimp only
  rw [hfst]
  -- The links of a process that is on no queue do not matter.
  obtain ⟨⟨q, ht⟩, h₁, h₂, h₃, h₄, h₅⟩ := hg
  have hnodes : ∀ h' ∈ queueIds, s.firstid h ∉ Threads.nodes queuetail q h' := by
    intro h' hh' hm
    simp only [Threads.nodes, List.mem_cons, List.mem_append, List.not_mem_nil, or_false] at hm
    rcases hm with he | hm | he
    · exact hpid.not_queue (he ▸ hh')
    · rw [ht.mem_iff h' hh', Function.update_self] at hm
      cases hm
    · exact hpid.ne_tail h' hh' he
  refine ⟨⟨q, ⟨fun h' hh' => ?_, ht.nodup, ht.mem_iff, ht.home_head, ht.home_tail⟩⟩, h₁, h₂, h₃, h₄, ?_⟩
  · refine isChain_congr (ht.chain h' hh') (fun x hx => ?_) (fun y hy => ?_)
    · have hne : x ≠ s.firstid h := fun he => hnodes h' hh' (he ▸ List.dropLast_subset _ hx)
      rw [setNext_next, if_neg hne, setPrev_next]
    · have hne : y ≠ s.firstid h := fun he => hnodes h' hh' (he ▸ List.mem_of_mem_tail hy)
      rw [setNext_prev, setPrev_prev, if_neg hne]
  · rw [setNext_key, setPrev_key, h₅]

/-! ## Putting in -/

/-- After `link` the node in front points to the process, and the process to the one behind. -/
theorem link_next (s : Sys) (p v c key x : ℤ) :
    (s.link p v c key).next x = if x = v then p else if x = p then c else s.next x := by
  unfold link
  rw [setPrev_next, setNext_next]
  unfold next
  rw [setQ_apply]
  split_ifs <;> rfl

/-- After `link` the node behind points back to the process, and the process to the one in front. -/
theorem link_prev (s : Sys) (p v c key x : ℤ) :
    (s.link p v c key).prev x = if x = c then p else if x = p then v else s.prev x := by
  unfold link
  rw [setPrev_prev, setNext_prev]
  unfold prev
  rw [setQ_apply]
  split_ifs <;> rfl

/-- `link` puts a process between two neighbours. -/
theorem link_links {v c k : ℤ} (hv : p ≠ v) (hc : p ≠ c) :
    Spliced s.next s.prev (s.link p v c k).next (s.link p v c k).prev v p c := by
  refine ⟨?_, ?_, ?_, ?_, fun x h₁ h₂ => ?_, fun x h₁ h₂ => ?_⟩
  · rw [link_next, if_pos rfl]
  · rw [link_next, if_neg hv, if_pos rfl]
  · rw [link_prev, if_neg hc, if_pos rfl]
  · rw [link_prev, if_pos rfl]
  · rw [link_next, if_neg h₁, if_neg h₂]
  · rw [link_prev, if_neg h₂, if_neg h₁]

/-- `link` changes the key of the process only. -/
theorem link_key {v c key i : ℤ} (hi : i ≠ p) : (s.link p v c key).key i = s.key i := by
  unfold link
  rw [setPrev_key, setNext_key]
  unfold Sys.key
  rw [setQ_apply, if_neg hi]

/-- The cut of the contents of a queue at which a new process goes in, between `v` and `c`. -/
def Cut (q : ℤ → List ℤ) (h v c : ℤ) : Prop :=
  ∃ l r a b, q h = l ++ r ∧ h :: l = a ++ [v] ∧ r ++ [queuetail h] = c :: b

/-- A process that is on no queue is put into a queue. -/
theorem link_linked {q : ℤ → List ℤ} {v c key : ℤ} (hl : Linked s home)
    (ht : Threads s.next s.prev queueIds queuetail home q) (hh : h ∈ queueIds) (hp : IsPid p)
    (hn : home p = none) (hcut : Cut q h v c) :
    Linked (s.link p v c key) (Function.update home p (some h)) := by
  obtain ⟨l, r, a, b, hq, hlv, hrc⟩ := hcut
  -- The process is no node of the queue, so the neighbours of its new place are others.
  have hnot : ∀ x ∈ Threads.nodes queuetail q h, p ≠ x := by
    rintro x hx rfl
    simp only [Threads.nodes, List.mem_cons, List.mem_append, List.not_mem_nil, or_false] at hx
    rcases hx with he | hx | he
    · exact hp.not_queue (he ▸ hh)
    · rw [ht.mem_iff h hh, hn] at hx
      cases hx
    · exact hp.ne_tail h hh he
  have hnodes : Threads.nodes queuetail q h = a ++ v :: c :: b := by
    rw [Threads.nodes, hq, List.append_assoc, hrc, ← List.cons_append, hlv, List.append_assoc,
      List.singleton_append]
  have hv : p ≠ v := hnot v (by rw [hnodes]; exact List.mem_append_right _ List.mem_cons_self)
  have hc : p ≠ c := hnot c (by
    rw [hnodes]
    exact List.mem_append_right _ (List.mem_cons_of_mem _ List.mem_cons_self))
  -- The links of the new place are written, and the node in front and behind stay in the queue.
  obtain ⟨-, h₁, h₂, h₃, h₄, h₅⟩ := hl
  refine ⟨⟨_, ht.splice anchors hh hn hp.not_queue hp.ne_tail hq hlv hrc (link_links hv hc)⟩,
    fun x hx => ?_, h₂, h₃, h₄, ?_⟩
  · rcases eq_or_ne x p with rfl | hne
    · exact hp
    · rw [Function.update_of_ne hne] at hx
      exact h₁ x hx
  · have hne : (301 : ℤ) ≠ p := by
      have := hp.lt
      omega
    rw [link_key hne, h₅]

/-- `enqueue` puts a process at the end of a queue. -/
theorem enqueue_linked (hl : Linked s home) (hh : h ∈ queueIds) (hp : IsPid p) (hst : s.state p ≠ .free)
    (hn : home p = none) : Linked (s.enqueue p h) (Function.update home p (some h)) := by
  have hbad : ¬ (isbadqid h ∨ s.isbadpid p) := by
    rintro (hb | hb | hb | hb)
    · exact not_isbadqid hh hb
    · exact absurd hp.1 (not_le.mpr hb)
    · exact absurd hp.2 (not_lt.mpr hb)
    · exact hst hb
  unfold enqueue
  rw [if_neg hbad]
  obtain ⟨q, ht⟩ := hl.threads
  obtain ⟨a, v, hlv⟩ := List.eq_nil_or_concat' (h :: q h) |>.resolve_left (List.cons_ne_nil h _)
  have hedge := ht.edge (r := []) hh (List.append_nil _).symm hlv rfl
  have hv : (s.queuetab (h + 1)).qprev = v := hedge.2
  rw [hv]
  exact link_linked hl ht hh hp hn ⟨q h, [], a, [], (List.append_nil _).symm, hlv, rfl⟩

/-- The processes on a queue fit in the process table. -/
theorem length_le (hl : Linked s home) {q : ℤ → List ℤ}
    (ht : Threads s.next s.prev queueIds queuetail home q) (hh : h ∈ queueIds) : (q h).length ≤ 100 := by
  have hsub : (q h).toFinset ⊆ Finset.Ico 0 100 := by
    intro p hp
    rw [List.mem_toFinset, ht.mem_iff h hh] at hp
    obtain ⟨h₁, h₂⟩ := hl.pid p (by rw [hp]; exact nofun)
    exact Finset.mem_Ico.mpr ⟨h₁, h₂⟩
  have := Finset.card_le_card hsub
  rw [List.toFinset_card_of_nodup (ht.nodup h hh), Int.card_Ico] at this
  exact this

/-- The walk of `insert` ends somewhere on the ready list. -/
theorem insertPos_spec {q : ℤ → List ℤ} {key : ℤ} (hk : s.key 301 < key)
    (ht : Threads s.next s.prev queueIds queuetail home q) (hh : 300 ∈ queueIds) :
    ∀ (fuel : ℕ) (l r : List ℤ) (c : ℤ) (b : List ℤ), q 300 = l ++ r → r ++ [301] = c :: b →
      r.length < fuel → (s.insertPos key fuel c).Ends fun c' => Cut q 300 (s.prev c') c' := by
  intro fuel
  induction fuel with
  | zero => exact fun l r c b _ _ hlt => absurd hlt (Nat.not_lt_zero _)
  | succ fuel ih =>
    intro l r c b hq hr hlt
    obtain ⟨a, v, hlv⟩ := List.eq_nil_or_concat' (300 :: l) |>.resolve_left (List.cons_ne_nil _ l)
    unfold insertPos
    split_ifs with hge
    · -- The key of the tail is too small, so this is a process, and the walk goes on.
      cases r with
      | nil =>
        injection hr with hc
        rw [← hc] at hge
        omega
      | cons x r =>
        injection hr with hx hr
        subst hx
        obtain ⟨-, b', -, hr'⟩ := ht.neighbours hh hq
        rw [List.length_cons] at hlt
        exact ih (l ++ [x]) r _ b' (by rw [hq, List.append_assoc, List.singleton_append]) hr'
          (by omega)
    · refine .ok ⟨l, r, a, b, hq, ?_, hr⟩
      rw [hlv, (ht.edge hh hq hlv hr).2]

/-- `insert` puts a process on the ready list. -/
theorem insert_linked {key : ℤ} (hl : Linked s home) (hp : IsPid p) (hst : s.state p ≠ .free)
    (hn : home p = none) (hk : MINKEY < key) :
    (s.insert p s.readylist key).Ends fun s' =>
      Linked s' (Function.update home p (some s.readylist)) ∧
        ∃ v c, s' = s.link p v c key := by
  have hh := hl.readylist_mem
  have hbad : ¬ (isbadqid s.readylist ∨ s.isbadpid p) := by
    rintro (hb | hb | hb | hb)
    · exact not_isbadqid hh hb
    · exact absurd hp.1 (not_le.mpr hb)
    · exact absurd hp.2 (not_lt.mpr hb)
    · exact hst hb
  obtain ⟨q, ht⟩ := hl.threads
  obtain ⟨c, b, hc⟩ := List.exists_cons_of_ne_nil (List.append_ne_nil_of_right_ne_nil (q 300)
    (List.cons_ne_nil (301 : ℤ) []))
  have hmem : 300 ∈ queueIds := hl.readylist ▸ hh
  have hfirst := ht.edge (l := []) (a := []) hmem rfl rfl hc
  have hlen := length_le hl ht hmem
  unfold insert
  rw [if_neg hbad, hl.readylist]
  rw [show s.firstid 300 = c from hfirst.1]
  refine Res.Ends.bind (insertPos_spec (by rw [hl.tail_key]; exact hk) ht hmem _ [] (q 300) c b
    rfl hc (by rw [show NQENT.toNat = 304 from rfl]; omega)) fun c' hcut => .ok ⟨?_, _, _, rfl⟩
  exact link_linked hl ht hmem hp hn hcut

/-- The walk of `insertd` ends somewhere on the queue. -/
theorem insertdPos_spec {q : ℤ → List ℤ} (ht : Threads s.next s.prev queueIds queuetail home q)
    (hh : h ∈ queueIds) :
    ∀ (fuel : ℕ) (l r a : List ℤ) (v c : ℤ) (b : List ℤ) (key : ℤ), q h = l ++ r → h :: l = a ++ [v] →
      r ++ [queuetail h] = c :: b → r.length < fuel →
      (s.insertdPos h fuel v c key).Ends fun t => Cut q h t.1 t.2.1 := by
  intro fuel
  induction fuel with
  | zero => exact fun l r a v c b key _ _ _ hlt => absurd hlt (Nat.not_lt_zero _)
  | succ fuel ih =>
    intro l r a v c b key hq hlv hr hlt
    unfold insertdPos
    split_ifs with hgo
    · cases r with
      | nil =>
        injection hr with hc
        exact absurd hc.symm hgo.1
      | cons x r =>
        injection hr with hx hr
        subst hx
        obtain ⟨-, b', -, hr'⟩ := ht.neighbours hh hq
        rw [List.length_cons] at hlt
        refine ih (l ++ [x]) r (h :: l) x _ b' _ ?_ rfl hr' (by omega)
        rw [hq, List.append_assoc, List.singleton_append]
    · exact .ok ⟨l, r, a, b, hq, hlv, hr⟩

/-- `insertd` puts a process on the queue of sleeping processes. -/
theorem insertd_linked (hl : Linked s home) (hp : IsPid p) (hst : s.state p ≠ .free)
    (hn : home p = none) (key : ℤ) :
    (s.insertd p s.sleepq key).Ends fun r =>
      r.1 = .ok ∧ Linked r.2 (Function.update home p (some s.sleepq)) ∧
        ∃ t, r.2 = { s with queuetab := t } := by
  have hh := hl.sleepq_mem
  -- The identifiers are valid, so `insertd` goes on to the walk.
  have hbad : ¬ (isbadqid s.sleepq ∨ s.isbadpid p) := by
    rintro (hb | hb | hb | hb)
    · exact not_isbadqid hh hb
    · exact absurd hp.1 (not_le.mpr hb)
    · exact absurd hp.2 (not_lt.mpr hb)
    · exact hst hb
  obtain ⟨q, ht⟩ := hl.threads
  obtain ⟨c, b, hc⟩ := List.exists_cons_of_ne_nil (List.append_ne_nil_of_right_ne_nil (q s.sleepq)
    (List.cons_ne_nil (queuetail s.sleepq) []))
  have hfirst := ht.edge (l := []) (a := []) hh rfl rfl hc
  have hlen := length_le hl ht hh
  unfold insertd
  rw [if_neg hbad, show (s.queuetab s.sleepq).qnext = c from hfirst.1]
  -- The walk ends at a place where the queue can be cut.
  refine Res.Ends.bind (insertdPos_spec ht hh _ [] (q s.sleepq) [] s.sleepq c b key rfl rfl hc
    (by rw [show NQENT.toNat = 304 from rfl]; omega)) fun t hcut => .ok ⟨rfl, ?_, ?_⟩
  · have hlink : Linked (s.link p t.1 t.2.1 t.2.2) _ := link_linked hl ht hh hp hn hcut
    dsimp only
    split_ifs with hne
    · -- The process behind the new one has its key reduced. It is not the tail of the ready list.
      refine setKey_linked hlink ?_ _
      obtain ⟨l, r, a, b', hq, hlv, hr⟩ := hcut
      have hmem : t.2.1 ∈ r ++ [queuetail s.sleepq] := by
        rw [hr]
        exact List.mem_cons_self
      rw [List.mem_append, List.mem_singleton] at hmem
      rcases hmem with hmem | hmem
      · have hx : home t.2.1 = some s.sleepq := by
          rw [← ht.mem_iff _ hh, hq]
          exact List.mem_append_right _ hmem
        have := (hl.pid _ (by rw [hx]; exact nofun)).lt
        omega
      · exact absurd hmem hne
    · exact hlink
  · dsimp only
    split_ifs
    · exact ⟨_, rfl⟩
    · exact ⟨_, rfl⟩

end Sys

end Xinu
