import Xinu.Kernel.SchedSpec

/-!
# The contents of the queues

`contents h` walks over the queue with head `h` and lists the processes on it, from its head to its
tail. In a linked queue table these are the contents of `Linked`, so that what the queue functions
do can be said about lists: `getitem` erases a process, `enqueue` appends one, and `insert` puts one
behind those with the same key.
-/

namespace Xinu

open LinkedQueue

namespace Sys

/-- The processes from an entry of the queue table on, `n` of them at most. -/
def walk (s : Sys) : ℕ → ℤ → List ℤ
  | 0, _ => []
  | n + 1, x => if x < NPROC then x :: s.walk n (s.queuetab x).qnext else []

/-- The processes on a queue. -/
def contents (s : Sys) (h : ℤ) : List ℤ := s.walk NPROC.toNat (s.firstid h)

variable {s s' : Sys} {home : ℤ → Option ℤ} {h p : ℤ}

/-- A walk lists the nodes of a chain up to its tail. -/
theorem walk_eq {t : ℤ} (ht : ¬ t < NPROC) :
    ∀ (n : ℕ) (l : List ℤ) (x : ℤ), (x :: (l ++ [t])).IsChain (Link s.next s.prev) →
      (∀ p ∈ l, p < NPROC) → l.length ≤ n → s.walk n (s.next x) = l := by
  intro n
  induction n with
  | zero => exact fun l x _ _ hlen => (List.length_eq_zero_iff.mp (Nat.le_zero.mp hlen)).symm
  | succ n ih =>
    intro l x hchain hpid hlen
    cases l with
    | nil =>
      rw [List.nil_append, List.isChain_cons_cons] at hchain
      unfold walk
      rw [hchain.1.1, if_neg ht]
    | cons y l =>
      rw [List.cons_append, List.isChain_cons_cons] at hchain
      unfold walk
      rw [hchain.1.1, if_pos (hpid y List.mem_cons_self)]
      have hlen' : l.length ≤ n := Nat.le_of_succ_le_succ hlen
      rw [show (s.queuetab y).qnext = s.next y from rfl,
        ih l y hchain.2 (fun p hp => hpid p (List.mem_cons_of_mem _ hp)) hlen']

/-- The walk finds the contents of a linked queue. -/
theorem contents_eq (hl : Linked s home) {q : ℤ → List ℤ}
    (ht : Threads s.next s.prev queueIds queuetail home q) (hh : h ∈ queueIds) : s.contents h = q h := by
  have htail : ¬ queuetail h < NPROC := by
    have h₁ : 100 ≤ h := hh.1
    exact not_lt.mpr (show (100 : ℤ) ≤ h + 1 by omega)
  refine walk_eq htail _ _ _ (ht.chain h hh) (fun p hp => ?_) (length_le hl ht hh)
  rw [ht.mem_iff h hh] at hp
  exact (hl.pid p (by rw [hp]; exact nofun)).2

/-- Two lists of contents that agree on the queues. -/
theorem threads_congr {next prev : ℤ → ℤ} {q q' : ℤ → List ℤ}
    (ht : Threads next prev queueIds queuetail home q) (hq : ∀ h ∈ queueIds, q' h = q h) :
    Threads next prev queueIds queuetail home q' := by
  refine ⟨fun h hh => ?_, fun h hh => ?_, fun h hh => ?_, ht.home_head, ht.home_tail⟩
  all_goals rw [hq h hh]
  · exact ht.chain h hh
  · exact ht.nodup h hh
  · exact ht.mem_iff h hh

/-- In a linked queue table the contents are threaded. -/
theorem contents_threads (hl : Linked s home) :
    Threads s.next s.prev queueIds queuetail home s.contents := by
  obtain ⟨q, ht⟩ := hl.threads
  exact threads_congr ht fun h hh => contents_eq hl ht hh

/-- The processes on a queue are those with it as their home. -/
theorem mem_contents (hl : Linked s home) (hh : h ∈ queueIds) : p ∈ s.contents h ↔ home p = some h :=
  (contents_threads hl).mem_iff h hh p

/-- No process stands on a queue twice. -/
theorem nodup_contents (hl : Linked s home) (hh : h ∈ queueIds) : (s.contents h).Nodup :=
  (contents_threads hl).nodup h hh

/-- The entries of a queue are those of processes. -/
theorem pid_of_mem (hl : Linked s home) (hh : h ∈ queueIds) (hp : p ∈ s.contents h) : IsPid p := by
  rw [mem_contents hl hh] at hp
  exact hl.pid p (by rw [hp]; exact nofun)

/-- The contents depend on the successors only. -/
theorem contents_congr (hn : ∀ i, s'.next i = s.next i) (h : ℤ) : s'.contents h = s.contents h := by
  have hwalk : ∀ (n : ℕ) (x : ℤ), s'.walk n x = s.walk n x := by
    intro n
    induction n with
    | zero => exact fun _ => rfl
    | succ n ih =>
      intro x
      unfold walk
      rw [show (s'.queuetab x).qnext = (s.queuetab x).qnext from hn x, ih]
  unfold contents firstid
  rw [show (s'.queuetab h).qnext = (s.queuetab h).qnext from hn h, hwalk]

/-- The contents do not depend on the keys. -/
theorem setKey_contents (i v h : ℤ) : (s.setKey i v).contents h = s.contents h := by
  refine contents_congr (fun x => ?_) h
  unfold next setKey
  rw [setQ_apply]
  split_ifs with he
  · rw [he]
  · rfl

/-! ## Taking out -/

/-- `getitem` erases the process from its queue. -/
theorem getitem_contents (hl : Linked s home) (hh : h ∈ queueIds) (hp : home p = some h) {h' : ℤ}
    (hh' : h' ∈ queueIds) :
    (s.getitem p).contents h' = if h' = h then (s.contents h).erase p else s.contents h' := by
  have ht := (contents_threads hl).unlink anchors hh hp (s.getitem_links p)
  rw [contents_eq (getitem_linked hl hh hp) ht hh', Function.update_apply]

/-- The first entry of a queue is the first of its contents. -/
theorem contents_cons (hne : ¬ s.isempty h) :
    ∃ l, s.contents h = s.firstid h :: l := by
  have hlt : s.firstid h < NPROC := not_le.mp hne
  exact ⟨s.walk 99 (s.queuetab (s.firstid h)).qnext, if_pos hlt⟩

/-- A queue is empty exactly when it has no contents. -/
theorem isempty_contents : s.isempty h ↔ s.contents h = [] := by
  constructor
  · intro he
    exact if_neg (not_lt.mpr he)
  · intro hc
    by_contra hne
    obtain ⟨l, hl⟩ := contents_cons hne
    rw [hl] at hc
    cases hc

/-- `getfirst` takes the first process off. -/
theorem getfirst_contents (hl : Linked s home) (hh : h ∈ queueIds) {l : List ℤ}
    (hc : s.contents h = p :: l) {h' : ℤ} (hh' : h' ∈ queueIds) :
    (s.getfirst h).1 = p ∧ (s.getfirst h).2.contents h' = if h' = h then l else s.contents h' := by
  have hne : ¬ s.isempty h := by
    rw [isempty_contents, hc]
    exact List.cons_ne_nil _ _
  obtain ⟨l', hl'⟩ := contents_cons hne
  rw [hc] at hl'
  injection hl' with hp _
  unfold getfirst
  rw [if_neg hne]
  refine ⟨hp.symm, ?_⟩
  rw [← hp, getitem_contents hl hh ((mem_contents hl hh).mp (by rw [hc]; exact List.mem_cons_self)) hh', hc,
    List.erase_cons_head]

/-- The assignments of `dequeue` to the links of the process that it takes off do not matter to the queues. -/
theorem dequeue_contents (hl : Linked s home) (hh : h ∈ queueIds) {l : List ℤ}
    (hc : s.contents h = p :: l) {h' : ℤ} (hh' : h' ∈ queueIds) :
    (s.dequeue h).1 = p ∧ (s.dequeue h).2.contents h' = if h' = h then l else s.contents h' := by
  have hne : ¬ s.isempty h := by
    rw [isempty_contents, hc]
    exact List.cons_ne_nil _ _
  obtain ⟨hfst, hget⟩ := getfirst_contents hl hh hc hh'
  obtain ⟨hd, hlink⟩ := dequeue_linked hl hh hne
  have hgl := getfirst_linked hl hh hne
  have hpid := pid_of_mem hl hh (by rw [hc]; exact List.mem_cons_self : p ∈ s.contents h)
  have hfirst : (s.getfirst h).1 = s.firstid h := by
    unfold getfirst
    rw [if_neg hne]
  have heq : s.firstid h = p := hfirst.symm.trans hfst
  refine ⟨hd.trans heq, ?_⟩
  rw [← hget]
  -- Both tables thread the contents of the one without the assignments.
  refine contents_eq hlink (threads_congr (q := (s.getfirst h).2.contents) ?_ fun _ _ => rfl) hh'
  have ht := contents_threads hgl
  have hnodes : ∀ x ∈ queueIds, p ∉ Threads.nodes queuetail (s.getfirst h).2.contents x := by
    intro x hx hm
    simp only [Threads.nodes, List.mem_cons, List.mem_append, List.not_mem_nil, or_false] at hm
    rcases hm with he | hm | he
    · exact hpid.not_queue (he ▸ hx)
    · rw [ht.mem_iff x hx, heq, Function.update_self] at hm
      cases hm
    · exact hpid.ne_tail x hx he
  refine ⟨fun x hx => ?_, ht.nodup, ht.mem_iff, ht.home_head, ht.home_tail⟩
  unfold dequeue
  rw [if_neg (not_isbadqid hh), if_neg hne]
  dsimp only
  rw [hfst]
  refine isChain_congr (ht.chain x hx) (fun i hi => ?_) (fun i hi => ?_)
  · have hip : i ≠ p := fun he => hnodes x hx (he ▸ List.dropLast_subset _ hi)
    rw [setNext_next, if_neg hip, setPrev_next]
  · have hip : i ≠ p := fun he => hnodes x hx (he ▸ List.mem_of_mem_tail hi)
    rw [setNext_prev, setPrev_prev, if_neg hip]

/-- `dequeue` writes only links, and keeps the keys. -/
theorem dequeue_key (s : Sys) (h i : ℤ) : (s.dequeue h).2.key i = s.key i := by
  unfold dequeue
  split_ifs
  · rfl
  · rfl
  · dsimp only
    rw [setNext_key, setPrev_key]
    unfold getfirst
    rw [if_neg ‹_›]
    exact getitem_key s _ i

/-- `getfirst` writes only links, and keeps the keys. -/
theorem getfirst_key (s : Sys) (h i : ℤ) : (s.getfirst h).2.key i = s.key i := by
  unfold getfirst
  split_ifs
  · rfl
  · exact getitem_key s _ i

/-! ## Putting in -/

/-- The key that `link` gives to the process. -/
theorem link_key_self {v c key : ℤ} : (s.link p v c key).key p = key := by
  unfold link
  rw [setPrev_key, setNext_key]
  unfold Sys.key
  rw [setQ_apply, if_pos rfl]

/-- `link` puts a process in at a cut of the contents. -/
theorem link_contents {v c k : ℤ} {l r a b : List ℤ} (hl : Linked s home) (hh : h ∈ queueIds) (hp : IsPid p)
    (hn : home p = none) (hq : s.contents h = l ++ r) (hlv : h :: l = a ++ [v])
    (hrc : r ++ [queuetail h] = c :: b) {h' : ℤ} (hh' : h' ∈ queueIds) :
    (s.link p v c k).contents h' = if h' = h then l ++ p :: r else s.contents h' := by
  have ht := contents_threads hl
  have hcut : Cut s.contents h v c := ⟨l, r, a, b, hq, hlv, hrc⟩
  have hnot : ∀ x ∈ Threads.nodes queuetail s.contents h, p ≠ x := by
    rintro x hx rfl
    simp only [Threads.nodes, List.mem_cons, List.mem_append, List.not_mem_nil, or_false] at hx
    rcases hx with he | hx | he
    · exact hp.not_queue (he ▸ hh)
    · rw [ht.mem_iff h hh, hn] at hx
      cases hx
    · exact hp.ne_tail h hh he
  have hnodes : Threads.nodes queuetail s.contents h = a ++ v :: c :: b := by
    rw [Threads.nodes, hq, List.append_assoc, hrc, ← List.cons_append, hlv, List.append_assoc,
      List.singleton_append]
  have hv : p ≠ v := hnot v (by rw [hnodes]; exact List.mem_append_right _ List.mem_cons_self)
  have hc : p ≠ c := hnot c (by
    rw [hnodes]
    exact List.mem_append_right _ (List.mem_cons_of_mem _ List.mem_cons_self))
  have ht' := ht.splice anchors hh hn hp.not_queue hp.ne_tail hq hlv hrc (link_links (k := k) hv hc)
  rw [contents_eq (link_linked hl ht hh hp hn hcut) ht' hh', Function.update_apply]

/-- `enqueue` appends the process to its queue, and leaves the other queues. -/
theorem enqueue_contents (hl : Linked s home) (hh : h ∈ queueIds) (hp : IsPid p) (hst : s.state p ≠ .free)
    (hn : home p = none) {h' : ℤ} (hh' : h' ∈ queueIds) :
    (s.enqueue p h).contents h' = if h' = h then s.contents h ++ [p] else s.contents h' := by
  have hbad : ¬ (isbadqid h ∨ s.isbadpid p) := by
    rintro (hb | hb | hb | hb)
    · exact not_isbadqid hh hb
    · exact absurd hp.1 (not_le.mpr hb)
    · exact absurd hp.2 (not_lt.mpr hb)
    · exact hst hb
  have ht := contents_threads hl
  obtain ⟨a, v, hlv⟩ := List.eq_nil_or_concat' (h :: s.contents h) |>.resolve_left (List.cons_ne_nil h _)
  have hv : (s.queuetab (h + 1)).qprev = v :=
    (ht.edge (r := []) hh (List.append_nil _).symm hlv rfl).2
  unfold enqueue
  rw [if_neg hbad, hv]
  exact link_contents hl hh hp hn (r := []) (List.append_nil _).symm hlv rfl hh'

/-- `enqueue` writes only links, and keeps the keys. -/
theorem enqueue_key (s : Sys) (p q i : ℤ) : (s.enqueue p q).key i = s.key i := by
  unfold enqueue
  split_ifs
  · rfl
  · rcases eq_or_ne i p with rfl | hne
    · exact link_key_self
    · exact link_key hne

/-- The walk of `insert` goes past the keys that are not smaller, and stops at the first one that is. -/
theorem insertPos_cut {key : ℤ} (hk : s.key 301 < key)
    (ht : Threads s.next s.prev queueIds queuetail home s.contents) (hh : 300 ∈ queueIds) :
    ∀ (fuel : ℕ) (l r : List ℤ) (c : ℤ) (b : List ℤ), s.contents 300 = l ++ r → r ++ [301] = c :: b →
      r.length < fuel → (∀ x ∈ l, key ≤ s.key x) →
      (s.insertPos key fuel c).Ends fun c' => ∃ l' r' a' b', s.contents 300 = l' ++ r' ∧
        300 :: l' = a' ++ [s.prev c'] ∧ r' ++ [301] = c' :: b' ∧ (∀ x ∈ l', key ≤ s.key x) ∧
        ∀ x ∈ r'.head?, s.key x < key := by
  intro fuel
  induction fuel with
  | zero => exact fun l r c b _ _ hlt => absurd hlt (Nat.not_lt_zero _)
  | succ fuel ih =>
    intro l r c b hq hr hlt hall
    obtain ⟨a, v, hlv⟩ := List.eq_nil_or_concat' (300 :: l) |>.resolve_left (List.cons_ne_nil _ l)
    unfold insertPos
    split_ifs with hge
    · cases r with
      | nil =>
        -- The key of the tail is too small for the walk to go on.
        injection hr with hc
        rw [← hc] at hge
        omega
      | cons x r =>
        injection hr with hx hr
        subst hx
        obtain ⟨-, b', -, hr'⟩ := ht.neighbours hh hq
        rw [List.length_cons] at hlt
        refine ih (l ++ [x]) r _ b' (by rw [hq, List.append_assoc, List.singleton_append]) hr'
          (by omega) fun y hy => ?_
        rcases List.mem_append.mp hy with hy | hy
        · exact hall y hy
        · rw [List.mem_singleton.mp hy]
          exact hge
    · refine .ok ⟨l, r, a, b, hq, ?_, hr, hall, fun x hx => ?_⟩
      · rw [hlv, (ht.edge hh hq hlv hr).2]
      · cases r with
        | nil => cases hx
        | cons y r =>
          injection hr with hy _
          rw [List.head?_cons, Option.mem_some_iff] at hx
          rw [← hx, hy]
          exact not_le.mp hge

/-- What `insert` does to the ready list: the process goes between the keys that are not smaller and
a smaller one. -/
structure Inserted (s s' : Sys) (p key : ℤ) : Prop where
  /-- Only links and keys change. -/
  tables : ∃ t, s' = { s with queuetab := t }
  /-- The process stands behind the keys that are not smaller than its own. -/
  cut : ∃ l r, s.contents s.readylist = l ++ r ∧ s'.contents s.readylist = l ++ p :: r ∧
    (∀ x ∈ l, key ≤ s.key x) ∧ ∀ x ∈ r.head?, s.key x < key
  /-- The other queues stay as they are. -/
  other : ∀ h ∈ queueIds, h ≠ s.readylist → s'.contents h = s.contents h
  /-- The process has its key. -/
  key_self : s'.key p = key
  /-- The other keys stay. -/
  key_other : ∀ x, x ≠ p → s'.key x = s.key x

/-- `insert` puts a process on the ready list. -/
theorem insert_contents {key : ℤ} (hl : Linked s home) (hp : IsPid p) (hst : s.state p ≠ .free)
    (hn : home p = none) (hk : MINKEY < key) :
    (s.insert p s.readylist key).Ends fun s' => Inserted s s' p key := by
  have hh := hl.readylist_mem
  have hbad : ¬ (isbadqid s.readylist ∨ s.isbadpid p) := by
    rintro (hb | hb | hb | hb)
    · exact not_isbadqid hh hb
    · exact absurd hp.1 (not_le.mpr hb)
    · exact absurd hp.2 (not_lt.mpr hb)
    · exact hst hb
  have ht := contents_threads hl
  have hmem : 300 ∈ queueIds := hl.readylist ▸ hh
  obtain ⟨c, b, hc⟩ := List.exists_cons_of_ne_nil (List.append_ne_nil_of_right_ne_nil (s.contents 300)
    (List.cons_ne_nil (301 : ℤ) []))
  have hfirst := ht.edge (l := []) (a := []) hmem rfl rfl hc
  have hlen := length_le hl ht hmem
  unfold insert
  rw [if_neg hbad, hl.readylist, show s.firstid 300 = c from hfirst.1]
  refine Res.Ends.bind (insertPos_cut (by rw [hl.tail_key]; exact hk) ht hmem _ [] (s.contents 300) c b
    rfl hc (by rw [show NQENT.toNat = 304 from rfl]; omega) nofun) fun c' hcut => .ok ?_
  obtain ⟨l', r', a', b', hq, hlv, hrc, hlo, hhi⟩ := hcut
  have hlink := fun {h' : ℤ} (hh' : h' ∈ queueIds) =>
    link_contents (k := key) hl hmem hp hn hq hlv hrc hh'
  refine ⟨⟨_, rfl⟩, ⟨l', r', ?_, ?_, hlo, hhi⟩, fun h' hh' hne => ?_, link_key_self, fun x hx => link_key hx⟩
  · rw [hl.readylist]
    exact hq
  · rw [hl.readylist, show (s.queuetab c').qprev = s.prev c' from rfl, hlink hmem, if_pos rfl]
  · rw [hl.readylist] at hne
    rw [show (s.queuetab c').qprev = s.prev c' from rfl, hlink hh', if_neg hne]

end Sys

end Xinu
