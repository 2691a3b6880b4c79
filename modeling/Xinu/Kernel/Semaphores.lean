import Xinu.Kernel.SleepQueue
import Xinu.Kernel.Steps

/-!
# Semaphores

The count of a semaphore and its queue are kept by different assignments. In every run in which no
count goes beyond the largest 32-bit number they agree: a negative count says how many processes
wait, and with any other count none does. The queue of a semaphore is left from the front and joined
at the end, so that the processes are released in the order in which they began to wait; only `kill`
takes one from the middle.
-/

namespace Xinu

open LinkedQueue Sys

/-- The queue of a semaphore. -/
abbrev semq (n : ℤ) : ℤ := 100 + 2 * n

/-- The process waits on a semaphore. -/
structure Waits (s : Sys) (p n : ℤ) : Prop where
  /-- It is a process. -/
  isPid : IsPid p
  /-- Its state is that of a process that waits. -/
  state : s.state p = .wait
  /-- The semaphore is this one. -/
  prsem : (s.proctab p).prsem = n

/-- The entry of a semaphore agrees with the contents of its queue. -/
structure Agrees (e : Sentry) (l : List ℤ) : Prop where
  /-- The count of a semaphore in use, when it is negative, is the number of its processes; else there are
  none. -/
  used : e.sstate = .used → l.length = (-e.scount).toNat ∧ e.scount < 2 ^ 31
  /-- Nobody waits on a free one. -/
  free : e.sstate = .free → l = []

/-- What one step does to the queue of a semaphore. -/
inductive QueueStep (s s' : Sys) (n : ℤ) : Prop
  /-- The first `m` processes are released. -/
  | released (m : ℕ) (h : s'.contents (semq n) = (s.contents (semq n)).drop m)
    (ha : ∀ p ∈ (s.contents (semq n)).take m, s'.Active p)
  /-- The running process joins it at the end. -/
  | joined (h : s'.contents (semq n) = s.contents (semq n) ++ [s.currpid])
  /-- A process on it is killed. -/
  | killed (p : ℤ) (h : s'.contents (semq n) = (s.contents (semq n)).erase p) (hf : s'.state p = .free)

/-- The count of a semaphore stays a 32-bit number. -/
def CountOk (s : Sys) : Event → Prop
  | .call (.semcreate count) => count < 2 ^ 31
  | .call (.semreset _ count) => count < 2 ^ 31
  | .call (.signal sem) => (s.semtab sem).scount + 1 < 2 ^ 31
  | .call (.signaln sem count) => (s.semtab sem).scount + count < 2 ^ 31
  | _ => True

section

variable {s s' s₁ : Sys} {n p : ℤ}

/-- The queue of a semaphore is a queue, and not one of the other two. -/
theorem semq_mem (hn : IsSem n) : semq n ∈ queueIds ∧ semq n ≠ 300 ∧ semq n ≠ 302 := by
  have h₁ : 0 ≤ n := hn.1
  have h₂ : n < 100 := hn.2
  refine ⟨⟨?_, ?_, ?_⟩, ?_, ?_⟩ <;> unfold semq <;> omega

/-- The processes on the queue of a semaphore are those that wait on it. -/
theorem mem_semq (h : Running s) (hn : IsSem n) : p ∈ s.contents (semq n) ↔ Waits s p n := by
  obtain ⟨hq, h₁, h₂⟩ := semq_mem hn
  rw [mem_contents h.linked hq]
  constructor
  · intro hp
    have hpid := h.linked.pid p (by rw [hp]; exact nofun)
    have hw := h.states.wait_sem p hpid
    rw [home_eq hpid] at hp
    cases hst : s.state p with
    | wait =>
      rw [hst] at hp
      have hsq := Option.some.inj hp
      rw [h.linked.squeue _ (hw hst)] at hsq
      exact ⟨hpid, hst, by unfold semq at hsq; omega⟩
    | ready =>
      rw [hst] at hp
      exact absurd ((Option.some.inj hp).symm.trans h.linked.readylist) h₁
    | sleep =>
      rw [hst] at hp
      exact absurd ((Option.some.inj hp).symm.trans h.linked.sleepq) h₂
    | rectim =>
      rw [hst] at hp
      exact absurd ((Option.some.inj hp).symm.trans h.linked.sleepq) h₂
    | _ =>
      rw [hst] at hp
      cases hp
  · intro hw
    rw [home_eq hw.isPid, hw.state, hw.prsem, h.linked.squeue n hn]

/-- A semaphore has at most a hundred waiting processes. -/
theorem length_semq (h : Running s) (hn : IsSem n) : (s.contents (semq n)).length ≤ 100 :=
  length_le h.linked (contents_threads h.linked) (semq_mem hn).1

/-! ## Steps that leave a semaphore alone -/

/-- A step leaves a semaphore alone. -/
structure SemKept (s s' : Sys) (n : ℤ) : Prop where
  /-- Its entry stays. -/
  entry : s'.semtab n = s.semtab n
  /-- The queue of the semaphore holds the same processes. -/
  contents : s'.contents (semq n) = s.contents (semq n)

/-- The queues are those of the queue table. -/
theorem contents_of_queuetab (h : s'.queuetab = s.queuetab) (q : ℤ) : s'.contents q = s.contents q := by
  refine contents_congr (fun i => ?_) q
  unfold next
  rw [h]

namespace SemKept

/-- A step that changes neither of the two tables. -/
theorem of_tables (ht : s'.queuetab = s.queuetab) (hs : s'.semtab = s.semtab) : SemKept s s' n :=
  ⟨congrFun hs n, contents_of_queuetab ht _⟩

/-- Two steps that keep a semaphore, one after the other, keep it. -/
theorem trans {s₂ : Sys} (h : SemKept s s₁ n) (h' : SemKept s₁ s₂ n) : SemKept s s₂ n :=
  ⟨h'.entry.trans h.entry, h'.contents.trans h.contents⟩

/-- An answer leaves the semaphores alone. -/
theorem ret (s : Sys) (v n : ℤ) : SemKept s (s.ret v) n := of_tables rfl rfl

/-- A queue that is left alone is left from the front, by no process. -/
theorem step (h : SemKept s s' n) :
    QueueStep s s' n ∧ (Agrees (s.semtab n) (s.contents (semq n)) →
      Agrees (s'.semtab n) (s'.contents (semq n))) := by
  rw [h.entry, h.contents]
  exact ⟨.released 0 h.contents nofun, id⟩

/-- The scheduler moves processes that do not wait on the semaphore. -/
theorem moves {R : List ℤ} (h : SemKept s s₁ n) (hm : Moves R s₁ s') (hn : IsSem n)
    (hr : s₁.readylist = 300) (hR : ∀ p ∈ R, p ∉ s.contents (semq n)) : SemKept s s' n := by
  obtain ⟨hq, h₁, -⟩ := semq_mem hn
  refine ⟨by rw [hm.semtab, h.entry], ?_⟩
  rw [hm.queue _ hq (by rw [hr]; exact h₁), h.contents]
  exact List.filter_eq_self.mpr fun x hx => by
    rw [decide_eq_true_iff]
    exact fun hxR => hR x hxR hx

end SemKept

/-- A process that does not wait is on no queue of a semaphore. -/
theorem not_mem_semq (h : Running s) (hn : IsSem n) (hst : s.state p ≠ .wait) : p ∉ s.contents (semq n) := by
  rw [mem_semq h hn]
  exact fun hw => hst hw.state

/-- `send` leaves the semaphores alone. -/
theorem Sys.Sent.semKept {msg : ℕ} {r : Status × Sys} (h : Sent s p msg r) (hi : Running s) (hn : IsSem n) :
    SemKept s r.2 n := by
  have hdel : SemKept s (s.deliver p msg) n := .of_tables rfl rfl
  have hready : (s.deliver p msg).readylist = 300 := hi.linked.readylist
  cases h with
  | refused => exact ⟨rfl, rfl⟩
  | left => exact hdel
  | recv hp hm hst hs =>
    refine hdel.moves hs hn hready fun x hx => ?_
    rw [List.mem_singleton.mp hx]
    exact not_mem_semq hi hn (by rw [hst]; exact nofun)
  | rectim hp hm hst hs =>
    obtain ⟨hq, -, h₂⟩ := semq_mem hn
    have hr := hi.deliver p msg
    have hhome : (s.deliver p msg).home p = some (s.deliver p msg).sleepq :=
      home_asleep (pid_of_not_bad hp).1 (.inr ((s.deliver_state p msg p).trans hst))
    have ht := unsleep_contents hr hhome
    obtain ⟨t, he⟩ := ht.tables
    have hk : SemKept s ((s.deliver p msg).unsleep p) n := by
      refine ⟨by rw [he]; rfl, ?_⟩
      rw [ht.other _ hq (by rw [hr.linked.sleepq]; exact h₂)]
      exact hdel.contents
    refine hk.moves hs hn (by rw [he]; exact hready) fun x hx => ?_
    rw [List.mem_singleton.mp hx]
    exact not_mem_semq hi hn (by rw [hst]; exact nofun)

/-- Going to sleep leaves the semaphores alone. -/
theorem insertd_semKept (h : Idle s) {r : Status × Sys} {delay : ℤ} (hn : IsSem n)
    (hi : s.insertd s.currpid s.sleepq delay = .ok r) : SemKept s r.2 n ∧ r.2.readylist = 300 := by
  obtain ⟨hq, -, h₂⟩ := semq_mem hn
  have hins := (insertd_contents h.linked h.states.currpid h.curr_live (home_curr h.curr) delay).of_eq hi
  obtain ⟨t, ht⟩ := hins.2.tables
  refine ⟨⟨by rw [ht], hins.2.other _ hq ?_⟩, by rw [ht]; exact h.linked.readylist⟩
  rw [h.linked.sleepq]
  exact h₂

/-! ## Steps that use a semaphore -/

/-- Making processes ready that wait on one semaphore leaves the others alone. -/
theorem Sys.Releases.other {sem : ℤ} {k : ℕ} {c : ℤ} (h : Releases sem k c s s')
    (hi : Running s) (hs : IsSem sem)
    (hn : IsSem n) (hne : n ≠ sem) : SemKept s s' n := by
  have hset : SemKept s (s.setSem sem fun e => { e with scount := c }) n :=
    ⟨(setSem_apply ..).trans (if_neg hne), contents_of_queuetab rfl _⟩
  refine hset.moves h hn hi.linked.readylist fun p hp hpn => hne ?_
  have hp' := List.mem_of_mem_take hp
  rw [hi.linked.squeue sem hs] at hp'
  exact ((mem_semq hi hn).mp hpn).prsem.symm.trans ((mem_semq hi hs).mp hp').prsem

/-- Making processes ready that wait on the semaphore. -/
theorem Sys.Releases.self {sem : ℤ} {k : ℕ} {c : ℤ} (h : Releases sem k c s s')
    (hi : Running s) (hs : IsSem sem) :
    s'.semtab sem = { s.semtab sem with scount := c } ∧
      s'.contents (semq sem) = (s.contents (semq sem)).drop k ∧
      ∀ p ∈ (s.contents (semq sem)).take k, s'.Active p := by
  have hsq := hi.linked.squeue sem hs
  have hc := h.contents hi.linked hs
  have hready := Moved.ready (Moves.toMoved h)
  rw [hsq] at hc hready
  exact ⟨by rw [h.semtab, Function.update_self], hc, hready⟩

/-- A used semaphore has a count of at least -100. -/
theorem Agrees.count_ge (h : Agrees (s.semtab n) (s.contents (semq n))) (hi : Running s) (hn : IsSem n)
    (hu : (s.semtab n).sstate = .used) : -100 ≤ (s.semtab n).scount := by
  have h₁ := (h.used hu).1
  have h₂ := length_semq hi hn
  omega

/-- After signals the count still agrees with the queue, which has only lost its first processes. -/
theorem Sys.Signalled.step {sem : ℤ} {m : ℕ} (h : Signalled s sem m s') (hi : Idle s)
    (hm : m ≠ 0 → (s.semtab sem).scount + m < 2 ^ 31) (hn : IsSem n) : QueueStep s s' n ∧
      (Agrees (s.semtab n) (s.contents (semq n)) → Agrees (s'.semtab n) (s'.contents (semq n))) := by
  cases h with
  | refused v => exact (SemKept.ret s v n).step
  | released hs hu hr =>
    have hret := (hi.ret OK).toRunning
    by_cases hne : n = sem
    · obtain rfl := hne
      obtain ⟨he, hc, ha⟩ := hr.self hret hs
      refine ⟨.released _ hc ha, fun hagree => ?_⟩
      have hge := hagree.count_ge hi.toRunning hn hu
      obtain ⟨hlen, hlt⟩ := hagree.used hu
      change s'.contents (semq n) = (s.contents (semq n)).drop _ at hc
      have hlt' : (s.semtab n).scount + m < 2 ^ 31 := by
        rcases Nat.eq_zero_or_pos m with rfl | hpos
        · simpa using hlt
        · exact hm hpos.ne'
      rw [he, hc, signals_eq m _ (by omega) hlt']
      refine ⟨fun _ => ?_, fun hf => ?_⟩
      · rw [List.length_drop, hlen]
        dsimp only
        exact ⟨by omega, hlt'⟩
      · exact absurd (hu.symm.trans hf) nofun
    · exact ((SemKept.ret s OK n).trans (hr.other hret hs hn hne)).step

/-- After `wait` the count still agrees with the queue, which has only got a process behind the
others. -/
theorem Sys.Waited.step {sem : ℤ} (h : Waited s sem s') (hi : Idle s) (hn : IsSem n) : QueueStep s s' n ∧
      (Agrees (s.semtab n) (s.contents (semq n)) → Agrees (s'.semtab n) (s'.contents (semq n))) := by
  have hentry : ∀ m, (s.waitCount sem).semtab m =
      if m = sem then { s.semtab sem with scount := int32 ((s.semtab sem).scount - 1) } else s.semtab m :=
    fun m => s.setSem_apply sem (fun e => { e with scount := int32 (e.scount - 1) }) m
  have hcount : SemKept s (s.waitCount sem) n ∨ n = sem := by
    by_cases hne : n = sem
    · exact .inr hne
    · exact .inl ⟨(hentry n).trans (if_neg hne), contents_of_queuetab rfl _⟩
  cases h with
  | refused v => exact (SemKept.ret s v n).step
  | passed hs hu hc =>
    rcases hcount with hk | rfl
    · exact hk.step
    · have hcont : (s.waitCount n).contents (semq n) = s.contents (semq n) := contents_of_queuetab rfl _
      refine ⟨.released 0 hcont nofun, fun hagree => ?_⟩
      have hge := hagree.count_ge hi.toRunning hn hu
      obtain ⟨hlen, hlt⟩ := hagree.used hu
      rw [int32_of_mem (by omega) (by omega)] at hc
      rw [hentry, if_pos rfl, hcont, int32_of_mem (by omega) (by omega)]
      refine ⟨fun _ => ?_, fun hf => ?_⟩
      · dsimp only
        omega
      · exact absurd (hu.symm.trans hf) nofun
  | blocked hs hu hc hm =>
    -- The running process joins the queue of the semaphore before the scheduler runs.
    obtain ⟨hq, h₁, -⟩ := semq_mem hn
    obtain ⟨hqs, -, -⟩ := semq_mem hs
    generalize hs₁ : ((s.waitCount sem).setProc s.currpid fun p =>
      { p with prstate := .wait, prsem := sem }) = s₁ at hm
    have hl₁ : Linked s₁ s.home := by
      rw [← hs₁]
      refine hi.linked.of_eq rfl rfl rfl fun m => ?_
      exact s.setSem_squeue (f := fun e => { e with scount := int32 (e.scount - 1) }) (fun _ => rfl) sem m
    have hst₁ : s₁.state s.currpid ≠ .free := by
      rw [← hs₁]
      unfold state
      rw [setProc_same]
      exact nofun
    have hcont₁ : ∀ x, s₁.contents x = s.contents x := fun x => contents_of_queuetab (by rw [← hs₁]; rfl) x
    rw [hi.linked.squeue sem hs] at hm
    obtain ⟨t, ht⟩ := s₁.enqueue_tables s.currpid (semq sem)
    have henq := fun {x : ℤ} (hx : x ∈ queueIds) =>
      enqueue_contents hl₁ hqs hi.states.currpid hst₁ (home_curr hi.curr) hx
    have hsame : s'.contents (semq n) = (s₁.enqueue s.currpid (semq sem)).contents (semq n) := by
      rw [hm.queue _ hq (by rw [ht, hl₁.readylist]; exact h₁)]
      exact List.filter_eq_self.mpr fun x _ => by simp
    have hentry' : s'.semtab n = (s.waitCount sem).semtab n := by
      rw [hm.semtab, ht, ← hs₁]
      rfl
    rw [henq hq, hcont₁, hcont₁] at hsame
    rcases hcount with hk | rfl
    · have hne : semq n ≠ semq sem ∨ n = sem := by
        unfold semq
        omega
      rcases hne with hne | rfl
      · rw [if_neg hne] at hsame
        exact SemKept.step ⟨hentry'.trans hk.entry, hsame⟩
      · rw [if_pos rfl] at hsame
        have := hk.entry
        rw [hentry, if_pos rfl] at this
        refine ⟨.joined hsame, fun hagree => ?_⟩
        have hge := hagree.count_ge hi.toRunning hn hu
        obtain ⟨hlen, hlt⟩ := hagree.used hu
        have hcc := congrArg Sentry.scount this
        rw [int32_of_mem (by omega) (by omega)] at hcc
        change (s.semtab n).scount - 1 = _ at hcc
        omega
    · rw [if_pos rfl] at hsame
      refine ⟨.joined hsame, fun hagree => ?_⟩
      have hge := hagree.count_ge hi.toRunning hn hu
      obtain ⟨hlen, hlt⟩ := hagree.used hu
      rw [int32_of_mem (by omega) (by omega)] at hc
      rw [hentry', hentry, if_pos rfl, hsame, int32_of_mem (by omega) (by omega)]
      refine ⟨fun _ => ?_, fun hf => ?_⟩
      · rw [List.length_append, List.length_singleton]
        dsimp only
        omega
      · exact absurd (hu.symm.trans hf) nofun

/-- After `semreset` the count agrees with the queue, which is empty. -/
theorem Sys.SemReset.step {sem count : ℤ} (h : SemReset s sem count s') (hi : Idle s) (hc : count < 2 ^ 31)
    (hn : IsSem n) : QueueStep s s' n ∧
      (Agrees (s.semtab n) (s.contents (semq n)) → Agrees (s'.semtab n) (s'.contents (semq n))) := by
  cases h with
  | refused v => exact (SemKept.ret s v n).step
  | released hs h0 hu hr =>
    have hret := (hi.ret OK).toRunning
    by_cases hne : n = sem
    · obtain rfl := hne
      obtain ⟨he, hcont, ha⟩ := hr.self hret hs
      rw [hi.linked.squeue n hs] at hcont ha
      refine ⟨.released _ hcont ha, fun _ => ?_⟩
      change s'.contents (semq n) = (s.contents (semq n)).drop _ at hcont
      rw [List.drop_length] at hcont
      rw [he, hcont]
      refine ⟨fun _ => ⟨?_, hc⟩, fun _ => rfl⟩
      rw [List.length_nil]
      dsimp only
      omega
    · exact ((SemKept.ret s OK n).trans (hr.other hret hs hn hne)).step

/-- `semdelete` keeps the agreement. -/
theorem Sys.SemDeleted.step {sem : ℤ} (h : SemDeleted s sem s') (hi : Idle s) (hn : IsSem n) :
    QueueStep s s' n ∧
      (Agrees (s.semtab n) (s.contents (semq n)) → Agrees (s'.semtab n) (s'.contents (semq n))) := by
  cases h with
  | refused v => exact (SemKept.ret s v n).step
  | released hs hu c hr =>
    have hfree := (hi.ret OK).toRunning.setSem sem (fun e => { e with sstate := .free }) fun _ => rfl
    by_cases hne : n = sem
    · obtain rfl := hne
      obtain ⟨he, hcont, ha⟩ := hr.self hfree hs
      refine ⟨.released _ hcont ha, fun hagree => ?_⟩
      change s'.contents (semq n) = (s.contents (semq n)).drop _ at hcont
      rw [(List.drop_eq_nil_iff (l := s.contents (semq n))).mpr (hagree.used hu).1.le] at hcont
      have hst : (s'.semtab n).sstate = .free := by
        rw [he]
        change (((s.ret OK).setSem n fun e => { e with sstate := .free }).semtab n).sstate = .free
        rw [setSem_apply, if_pos rfl]
      refine ⟨fun hu' => absurd (hu'.symm.trans hst) nofun, fun _ => hcont⟩
    · have hset : SemKept s ((s.ret OK).setSem sem fun e => { e with sstate := .free }) n :=
        ⟨(setSem_apply ..).trans (if_neg hne), contents_of_queuetab rfl _⟩
      exact (hset.trans (hr.other hfree hs hn hne)).step

/-- `newsem` finds a free semaphore. -/
theorem newsemLoop_free (m : ℕ) (nextsem : ℤ) {sem : ℤ} (h : (s.newsemLoop m nextsem).1 = some sem) :
    (s.semtab sem).sstate = .free := by
  induction m generalizing nextsem with
  | zero => cases h
  | succ m ih =>
    unfold newsemLoop at h
    dsimp only at h
    split_ifs at h with hfree hnext hnext
    · cases h
      exact hfree
    · cases h
      exact hfree
    · exact ih _ h
    · exact ih _ h

/-- `semcreate` keeps the agreement: nobody waits on a free semaphore. -/
theorem semcreate_step {count : ℤ} (hc : count < 2 ^ 31) :
    QueueStep s (s.semcreate count) n ∧ (Agrees (s.semtab n) (s.contents (semq n)) →
      Agrees ((s.semcreate count).semtab n) ((s.semcreate count).contents (semq n))) := by
  unfold semcreate
  split_ifs with hneg
  · exact (SemKept.ret s _ n).step
  · dsimp only
    cases hsem : (s.newsemLoop NSEM.toNat s.nextsem).1 with
    | none => exact SemKept.step (.of_tables rfl rfl)
    | some sem =>
      have hfree := newsemLoop_free _ _ hsem
      dsimp only
      generalize (s.newsemLoop NSEM.toNat s.nextsem).2 = next
      have hcont : ((({ s with nextsem := next } : Sys).setSem sem fun e =>
          { e with sstate := .used, scount := count }).ret
          sem).contents (semq n) = s.contents (semq n) := contents_of_queuetab rfl _
      by_cases hne : n = sem
      · obtain rfl := hne
        refine ⟨.released 0 hcont nofun, fun hagree => ?_⟩
        have hentry : ((({ s with nextsem := next } : Sys).setSem n fun e =>
            { e with sstate := .used, scount := count }).ret n).semtab n =
            { s.semtab n with sstate := .used, scount := count } := Function.update_self ..
        rw [hcont, hentry, hagree.free hfree]
        refine ⟨fun _ => ⟨?_, hc⟩, nofun⟩
        rw [List.length_nil]
        dsimp only
        omega
      · exact SemKept.step ⟨Function.update_of_ne hne .., hcont⟩

/-- `create` leaves the semaphores alone. -/
theorem create_semKept (s : Sys) (ssize : ℕ) (priority : Int16) (n : ℤ) :
    SemKept s (s.create ssize priority) n := by
  have h := newProcess_effect s ssize priority PAGE_DIR_ADDR_START
  unfold create
  generalize s.newProcess ssize priority PAGE_DIR_ADDR_START = r at h
  cases h with
  | none => exact .of_tables rfl rfl
  | some => exact .of_tables rfl rfl

/-- The end of `recvtime` leaves the semaphores alone. -/
theorem recvtimeEnd_semKept (s : Sys) (n : ℤ) : SemKept s s.recvtimeEnd n := by
  unfold recvtimeEnd
  dsimp only
  split_ifs <;> exact .of_tables rfl rfl

/-- The end of `kill` keeps the agreement. -/
theorem Sys.KillEnded.step {pid : ℤ} (h : KillEnded s pid s') (hi : Idle s) (hp : IsPid pid) (hn : IsSem n) :
    QueueStep s s' n ∧
      (Agrees (s.semtab n) (s.contents (semq n)) → Agrees (s'.semtab n) (s'.contents (semq n))) := by
  obtain ⟨hq, h₁, h₂⟩ := semq_mem hn
  cases h with
  | unqueued l hst => exact SemKept.step (.of_tables rfl rfl)
  | asleep l hst =>
    have hr : Running { s with memlist := l } :=
      hi.toRunning.congr rfl rfl rfl (fun _ => rfl) rfl (fun _ => rfl) (fun _ => rfl) rfl
    have hhome : ({ s with memlist := l } : Sys).home pid = some s.sleepq := home_asleep hp hst
    have ht := unsleep_contents hr hhome
    obtain ⟨t, he⟩ := ht.tables
    refine SemKept.step ⟨by rw [he]; rfl, ?_⟩
    refine (contents_of_queuetab rfl _).trans ((ht.other _ hq ?_).trans (contents_of_queuetab rfl _))
    rw [hr.linked.sleepq]
    exact h₂
  | waiting l hst =>
    -- The process leaves the queue of its semaphore, whose count is incremented.
    have hsem := hi.states.wait_sem pid hp hst
    obtain ⟨hqs, -, -⟩ := semq_mem hsem
    have hr : Running { s with memlist := l } :=
      hi.toRunning.congr rfl rfl rfl (fun _ => rfl) rfl (fun _ => rfl) (fun _ => rfl) rfl
    have hr' : Running (({ s with memlist := l } : Sys).signalCount (s.proctab pid).prsem) :=
      hr.setSem _ (fun e => { e with scount := int32 (e.scount + 1) }) fun _ => rfl
    generalize hm : (s.proctab pid).prsem = m at *
    have hwaits : Waits s pid m := ⟨hp, hst, hm⟩
    have hcont : ∀ x, (({ s with memlist := l } : Sys).signalCount m).contents x = s.contents x :=
      fun x => contents_of_queuetab rfl x
    have hhome : (({ s with memlist := l } : Sys).signalCount m).home pid = some (semq m) := by
      refine (mem_contents hr'.linked hqs).mp ?_
      rw [hcont, mem_semq hi.toRunning hsem]
      exact hwaits
    have hget := getitem_contents hr'.linked hqs hhome hq
    have hget' : ((((({ s with memlist := l } : Sys).signalCount m).getitem pid).setState pid .free).setPend
        .user).contents (semq n) = if semq n = semq m then (s.contents (semq m)).erase pid
          else s.contents (semq n) := by
      refine (contents_of_queuetab rfl _).trans (hget.trans ?_)
      exact congrArg₂ (fun a b => if semq n = semq m then a else b)
        (congrArg (List.erase · pid) (hcont _)) (hcont _)
    by_cases hne : n = m
    · obtain rfl := hne
      rw [if_pos rfl] at hget'
      refine ⟨.killed pid hget' (setState_same _ _ _), fun hagree => ?_⟩
      have hmem := (mem_semq hi.toRunning hsem).mpr hwaits
      have hlen := List.length_erase_of_mem hmem
      have hpos := List.length_pos_of_mem hmem
      have hentry :
          ((((({ s with memlist := l } : Sys).signalCount n).getitem pid).setState pid .free).setPend
          .user).semtab n = { s.semtab n with scount := int32 ((s.semtab n).scount + 1) } :=
            Function.update_self ..
      rw [hget', hentry]
      refine ⟨fun hu => ?_, fun hf => ?_⟩
      · have hge := hagree.count_ge hi.toRunning hsem hu
        obtain ⟨hlen', hlt⟩ := hagree.used hu
        rw [hlen, int32_of_mem (by omega) (by omega)]
        dsimp only
        omega
      · rw [hagree.free hf] at hmem
        cases hmem
    · have hne' : semq n ≠ semq m := by
        unfold semq
        omega
      rw [if_neg hne'] at hget'
      exact SemKept.step ⟨Function.update_of_ne hne .., hget'⟩
  | ready l hst =>
    have hr : Running { s with memlist := l } :=
      hi.toRunning.congr rfl rfl rfl (fun _ => rfl) rfl (fun _ => rfl) (fun _ => rfl) rfl
    have hhome := (home_ready_iff hr.linked hr.states hp).mpr hst
    have hget := getitem_contents hr.linked hr.linked.readylist_mem hhome hq
    rw [if_neg (by rw [hr.linked.readylist]; exact h₁)] at hget
    exact SemKept.step ⟨rfl, (contents_of_queuetab rfl _).trans (hget.trans (contents_of_queuetab rfl _))⟩
  | self l c hc hm =>
    have hk : SemKept s ({ s with memlist := l, cr3 := c }.setState pid .free) n := .of_tables rfl rfl
    exact SemKept.step (hk.moves hm hn hi.linked.readylist nofun)

/-- A call that only makes the scheduler run leaves the semaphores alone. -/
theorem moves_semKept (hi : Idle s) (hn : IsSem n) (hm : Moves [] s₁ s') (hq : s₁.queuetab = s.queuetab)
    (ht : s₁.semtab = s.semtab) (hr : s₁.readylist = s.readylist) : SemKept s s' n :=
  (SemKept.of_tables hq ht).moves hm hn (hr.trans hi.linked.readylist) nofun

/-- `resume` makes ready a process that has been suspended, and so waits on no semaphore. -/
theorem Sys.Resumed.semKept {pid : ℤ} (h : Resumed s pid s') (hi : Idle s) (hn : IsSem n) :
    SemKept s s' n := by
  cases h with
  | refused v => exact .ret s v n
  | resumed v hp hst hm =>
    refine (SemKept.ret s v n).moves hm hn hi.linked.readylist fun x hx => ?_
    rw [List.mem_singleton.mp hx]
    exact not_mem_semq hi.toRunning hn (by rw [hst]; exact nofun)

/-- `suspend` takes a process off the ready list, or stops the running one. -/
theorem Sys.Suspended.semKept {pid : ℤ} (h : Suspended s pid s') (hi : Idle s) (hn : IsSem n) :
    SemKept s s' n := by
  cases h with
  | refused v => exact .ret s v n
  | ready hp h0 hst =>
    obtain ⟨hq, h₁, -⟩ := semq_mem hn
    have hhome := (home_ready_iff hi.linked hi.states hp).mpr hst
    have hget := getitem_contents hi.linked hi.linked.readylist_mem hhome hq
    rw [if_neg (by rw [hi.linked.readylist]; exact h₁)] at hget
    exact ⟨rfl, (contents_of_queuetab rfl _).trans hget⟩
  | self hp h0 hm => exact moves_semKept hi hn hm rfl rfl rfl

/-- The first part of `kill` leaves the semaphores alone. -/
theorem Sys.KillStarted.semKept {pid : ℤ} (h : KillStarted s pid s') (hi : Idle s) (hn : IsSem n) :
    SemKept s s' n := by
  cases h with
  | refused h => exact .ret s _ n
  | halted => exact .of_tables rfl rfl
  | sent hp h0 hl hc hsent =>
    have hk : SemKept s (s.killing pid) n := .of_tables rfl rfl
    exact hk.trans (hsent.semKept (hi.killing hp h0).toRunning hn)

/-- `sleepms` keeps every semaphore and its queue. -/
theorem Sys.Slept.semKept {delay : ℤ} (h : Slept s delay s') (hi : Idle s) (hn : IsSem n) :
    SemKept s s' n := by
  cases h with
  | refused hd => exact .ret s SYSERR n
  | yielded hd hm => exact moves_semKept hi hn hm rfl rfl rfl
  | blocked hd hins hm =>
    obtain ⟨hk, hr⟩ := insertd_semKept (hi.ret OK) hn hins
    have hset : SemKept s _ n := (SemKept.ret s OK n).trans hk
    refine (hset.trans ?_).moves hm hn hr nofun
    exact .of_tables rfl rfl

/-- `recvtime` keeps every semaphore and its queue. -/
theorem Sys.TimedReceive.semKept {maxwait : ℤ} (h : TimedReceive s maxwait s') (hi : Idle s) (hn : IsSem n) :
    SemKept s s' n := by
  cases h with
  | refused hd => exact .ret s _ n
  | ended hm => exact recvtimeEnd_semKept s n
  | blocked hd hm hins hmv =>
    obtain ⟨hk, hr⟩ := insertd_semKept hi hn hins
    refine (hk.trans ?_).moves hmv hn hr nofun
    exact .of_tables rfl rfl

/-- `receive` keeps every semaphore and its queue. -/
theorem Sys.Received.semKept (h : Received s s') (hi : Idle s) (hn : IsSem n) : SemKept s s' n := by
  cases h with
  | ended hm => exact .of_tables rfl rfl
  | blocked hm hs => exact moves_semKept hi hn hs rfl rfl rfl

/-- The system call `send` keeps every semaphore and its queue. -/
theorem Sys.SentCall.semKept {pid : ℤ} {msg : ℕ} (h : SentCall s pid msg s') (hi : Idle s) (hn : IsSem n) :
    SemKept s s' n := by
  cases h with
  | refused h => exact .of_tables rfl rfl
  | sent hsent => exact (SemKept.ret s OK n).trans (hsent.semKept (hi.ret OK).toRunning hn)

/-- A tick wakes processes that sleep, and none that waits on a semaphore. -/
theorem Sys.Ticked.semKept (h : Ticked s s') (hi : Idle s) (hn : IsSem n) : SemKept s s' n := by
  obtain ⟨a, b, ht⟩ := s.ticked_eq
  have hticked : SemKept s s.ticked n := by
    rw [ht]
    exact .of_tables rfl rfl
  have hkey : ∀ i v, SemKept s (s.ticked.setKey i v) n := fun i v =>
    hticked.trans ⟨rfl, setKey_contents ..⟩
  cases h with
  | none => exact hticked
  | keep => exact hkey _ _
  | wake hl hk hm =>
    refine (hkey _ _).moves hm hn (by rw [ht]; exact hi.linked.readylist) fun x hx => ?_
    have hmem : x ∈ s.contents s.sleepq := by
      rw [hl]
      exact List.takeWhile_subset _ hx
    refine not_mem_semq hi.toRunning hn ?_
    have hsleep := asleep_of_home hi.toRunning ((mem_contents hi.linked hi.linked.sleepq_mem).mp hmem)
    rcases hsleep with hs | hs <;> rw [hs] <;> exact nofun

/-- Every step of a plain run treats the queue of a semaphore as a queue, and keeps its agreement with the
count. -/
theorem sem_step {k k' : Kernel} {e : Event} (h : PlainStep k e k') (hc : CountOk k.sys e) (hn : IsSem n) :
    QueueStep k.sys k'.sys n ∧ (Agrees (k.sys.semtab n) (k.sys.contents (semq n)) →
      Agrees (k'.sys.semtab n) (k'.sys.contents (semq n))) := by
  have hi := h.inv.idle
  have he := h.effect
  generalize k.sys = s at *
  generalize k'.sys = s' at *
  -- One lemma for each thing that a step does; most leave the semaphore alone.
  cases he with
  | create => exact (create_semKept s _ _ n).step
  | chprio =>
    refine SemKept.step (.of_tables ?_ ?_)
    all_goals
      unfold chprio
      split_ifs <;> rfl
  | yield hm => exact (moves_semKept hi hn hm rfl rfl rfl).step
  | semcreate => exact semcreate_step hc
  | wait h => exact h.step hi hn
  | signal h => exact h.step hi (fun _ => hc) hn
  | @signaln sem count _ h =>
    refine h.step hi (fun hne => ?_) hn
    rw [Int.toNat_of_nonneg (by omega)]
    exact hc
  | semreset h => exact h.step hi hc hn
  | semdelete h => exact h.step hi hn
  | recvclr =>
    refine SemKept.step (.of_tables ?_ ?_)
    all_goals
      unfold recvclr
      dsimp only
      split_ifs <;> rfl
  | resume h => exact (h.semKept hi hn).step
  | suspend h => exact (h.semKept hi hn).step
  | kill h => exact (h.semKept hi hn).step
  | sleepms h => exact (h.semKept hi hn).step
  | recvtime h => exact (h.semKept hi hn).step
  | receive h => exact (h.semKept hi hn).step
  | send h => exact (h.semKept hi hn).step
  | tick h => exact (h.semKept hi hn).step
  | user hp => exact SemKept.step ⟨rfl, rfl⟩
  | suspendEnd hp => exact SemKept.step (.of_tables rfl rfl)
  | receiveEnd hp => exact SemKept.step (.of_tables rfl rfl)
  | recvtimeEnd hp => exact (recvtimeEnd_semKept s n).step
  | killEnd hp h => exact h.step hi (hi.states.kill_pid _ _ hp).1 hn
  | tickEnd hp hm => exact (moves_semKept hi hn hm rfl rfl rfl).step

/-! ## Runs -/

/-- When the processes began to wait: the number of the step that made each a waiting process. -/
structure Waiting where
  /-- The step in which each process began to wait. -/
  since : ℤ → ℕ
  /-- The number of the next step. -/
  now : ℕ

/-- One more step. -/
def Waiting.note (k : Kernel) (_ : Event) (k' : Kernel) (w : Waiting) : Waiting where
  since p := if k'.sys.state p = .wait ∧ k.sys.state p ≠ .wait then w.now else w.since p
  now := w.now + 1

/-- The states of the runs in which the counts stay 32-bit numbers. -/
def SemRun : Kernel → Waiting → Prop :=
  Kernel.Noted (fun k e => e.Plain ∧ CountOk k.sys e) ⟨fun _ => 0, 0⟩ Waiting.note

/-- Every count agrees with its queue, on which the processes are in the order in which they began to wait. -/
structure SemInv (s : Sys) (w : Waiting) : Prop where
  /-- Count and queue agree. -/
  agrees : ∀ n, IsSem n → Agrees (s.semtab n) (s.contents (semq n))
  /-- Who is before another one on a queue began to wait earlier. -/
  sorted : ∀ n, IsSem n → (s.contents (semq n)).Pairwise fun p q => w.since p < w.since q
  /-- All of them began to wait in an earlier step. -/
  before : ∀ n, IsSem n → ∀ p ∈ s.contents (semq n), w.since p < w.now

/-- At boot no process waits. -/
theorem sysinit_semq (b : Boot) (hn : IsSem n) : (sysinit b).sys.contents (semq n) = [] := by
  rw [List.eq_nil_iff_forall_not_mem]
  intro p hp
  have hw := (mem_semq (sysinit_idle b).toRunning hn).mp hp
  have hst := hw.state
  rw [sysinit_proc] at hst
  split_ifs at hst

/-- At boot every semaphore is free. -/
theorem sysinit_sem (b : Boot) (hn : IsSem n) : ((sysinit b).sys.semtab n).sstate = .free := by
  obtain ⟨t, u, he, -, hu⟩ := sysinit_eq b
  rw [he]
  change (u n).sstate = .free
  rw [hu.entry n hn.1 hn.2]

/-- A step keeps the order of the queues. -/
theorem SemInv.step {k k' : Kernel} {e : Event} {w : Waiting} (h : SemInv k.sys w) (hs : PlainStep k e k')
    (hc : CountOk k.sys e) : SemInv k'.sys (w.note k e k') := by
  have hi := hs.inv.idle.toRunning
  have hi' := hs.inv'.idle.toRunning
  -- A process that waits before and after the step has waited since the same time.
  have hsame : ∀ m, IsSem m → ∀ p ∈ k.sys.contents (semq m), (w.note k e k').since p = w.since p := by
    intro m hm p hp
    refine if_neg fun hc => hc.2 ?_
    exact ((mem_semq hi hm).mp hp).state
  refine ⟨fun m hm => (sem_step hs hc hm).2 (h.agrees m hm), fun m hm => ?_, fun m hm => ?_⟩
  · have hold : (k.sys.contents (semq m)).Pairwise fun p q =>
        (w.note k e k').since p < (w.note k e k').since q := by
      refine (h.sorted m hm).imp_of_mem fun hp hq hlt => ?_
      rw [hsame m hm _ hp, hsame m hm _ hq]
      exact hlt
    cases (sem_step hs hc hm).1 with
    | released i hi ha =>
      rw [hi]
      exact hold.sublist (List.drop_sublist ..)
    | joined hj =>
      rw [hj, List.pairwise_append]
      refine ⟨hold, List.pairwise_singleton .., fun p hp q hq => ?_⟩
      rw [List.mem_singleton.mp hq, hsame m hm p hp]
      have hjoin :=
        ((mem_semq hi' hm).mp (by rw [hj]; exact List.mem_append_right _ (List.mem_singleton_self _))).state
      have hcurr : k.sys.state k.sys.currpid ≠ .wait := by
        rw [hi.curr]
        exact nofun
      rw [show (w.note k e k').since k.sys.currpid = w.now from if_pos ⟨hjoin, hcurr⟩]
      exact h.before m hm p hp
    | killed q hq hf =>
      rw [hq]
      exact hold.sublist List.erase_sublist
  · intro p hp
    change _ < w.now + 1
    by_cases hp' : p ∈ k.sys.contents (semq m)
    · rw [hsame m hm p hp']
      exact Nat.lt_succ_of_lt (h.before m hm p hp')
    · cases (sem_step hs hc hm).1 with
      | released i hi ha =>
        rw [hi] at hp
        exact absurd (List.drop_subset _ _ hp) hp'
      | joined hj =>
        rw [hj, List.mem_append] at hp
        have hpc := List.mem_singleton.mp (hp.resolve_left hp')
        have hjoin :=
          ((mem_semq hi' hm).mp (by rw [hj]; exact List.mem_append_right _ (List.mem_singleton_self _))).state
        have hcurr : k.sys.state k.sys.currpid ≠ .wait := by
          rw [hi.curr]
          exact nofun
        rw [hpc, show (w.note k e k').since k.sys.currpid = w.now from if_pos ⟨hjoin, hcurr⟩]
        exact Nat.lt_succ_self _
      | killed q hq hf =>
        rw [hq] at hp
        exact absurd (List.erase_subset hp) hp'

/-- A state of such a run can be reached by a plain run. -/
theorem SemRun.plain {k : Kernel} {w : Waiting} (h : SemRun k w) : k.PlainReach :=
  (Kernel.Noted.reach h).mono fun _ _ he => he.1

/-- In every state of a run the counts agree with the queues, and these with the order of arrival.
-/
theorem sem_inv {k : Kernel} {w : Waiting} (h : SemRun k w) : SemInv k.sys w := by
  induction h with
  | boot b hz =>
    refine ⟨fun n hn => ?_, fun n hn => ?_, fun n hn => ?_⟩
    all_goals rw [sysinit_semq b hn]
    · exact ⟨fun hu => absurd ((sysinit_sem b hn).symm.trans hu) nofun, fun _ => rfl⟩
    · exact .nil
    · exact nofun
  | step hk ha hs ih => exact ih.step (plain_step (SemRun.plain hk) ha.1 hs) ha.2

/-- The counts of the semaphores say how many processes wait, and the queues say which. -/
structure SemaphoresOk (s : Sys) : Prop where
  /-- A negative count is the number of processes on the queue, which wait on this semaphore. -/
  negative : ∀ n, IsSem n → (s.semtab n).sstate = .used → (s.semtab n).scount < 0 →
    ((s.contents (s.semtab n).squeue).length : ℤ) = -(s.semtab n).scount ∧
    (s.contents (s.semtab n).squeue).Nodup ∧
      ∀ p ∈ s.contents (s.semtab n).squeue, s.state p = .wait ∧ (s.proctab p).prsem = n
  /-- With any other count the queue is empty. -/
  empty : ∀ n, IsSem n → (s.semtab n).sstate = .used → 0 ≤ (s.semtab n).scount →
    s.contents (s.semtab n).squeue = []

/-- When the step releases a process that waits on a semaphore, every process that began to wait on
it before is released, too. -/
def ReleasedInOrder (s s' : Sys) (w : Waiting) : Prop :=
  ∀ n, IsSem n → ∀ p q, Waits s p n → Waits s q n → w.since p < w.since q →
    s'.state q ≠ .wait → s'.state q ≠ .free → s'.Active p

/-- A queue that is left from the front releases in order. -/
theorem SemInv.inOrder {k k' : Kernel} {e : Event} {w : Waiting} (h : SemInv k.sys w) (hs : PlainStep k e k')
    (hc : CountOk k.sys e) : ReleasedInOrder k.sys k'.sys w := by
  intro m hm p q hp hq hlt hwait hfree
  have hi := hs.inv.idle.toRunning
  have hi' := hs.inv'.idle.toRunning
  have hpm := (mem_semq hi hm).mpr hp
  have hqm := (mem_semq hi hm).mpr hq
  -- The later process is not on the queue any more.
  have hgone : q ∉ k'.sys.contents (semq m) := fun hmem => hwait ((mem_semq hi' hm).mp hmem).state
  cases (sem_step hs hc hm).1 with
  | released i hcont ha =>
    refine ha p ?_
    rw [hcont] at hgone
    have hsort := h.sorted m hm
    rw [← List.take_append_drop i (k.sys.contents (semq m))] at hsort hpm hqm
    rw [List.mem_append] at hpm hqm
    have hqt := hqm.resolve_right hgone
    refine hpm.resolve_right fun hpd => ?_
    have := (List.pairwise_append.mp hsort).2.2 q hqt p hpd
    omega
  | joined hj =>
    refine absurd ?_ hgone
    rw [hj]
    exact List.mem_append_left _ hqm
  | killed r hr hf =>
    by_cases hqr : q = r
    · exact absurd (hqr ▸ hf) hfree
    · refine absurd ?_ hgone
      rw [hr]
      exact (List.mem_erase_of_ne hqr).mpr hqm

/-- **The semaphores agree with their queues** in every run in which the counts stay 32-bit numbers.
No two processes begin to wait on a semaphore at the same time, and every step releases them in the
order in which they began. -/
theorem semaphores_ok {k : Kernel} {w : Waiting} (h : SemRun k w) :
    SemaphoresOk k.sys ∧
      (∀ n, IsSem n → ∀ p q, Waits k.sys p n → Waits k.sys q n → w.since p = w.since q → p = q) ∧
      ∀ e k', e.Plain → CountOk k.sys e → k.Step e k' → ReleasedInOrder k.sys k'.sys w := by
  have hinv := sem_inv h
  have hr := (plain_inv h.plain).idle.toRunning
  refine ⟨⟨fun m hm hu hneg => ?_, fun m hm hu hpos => ?_⟩,
    fun m hm p q hp hq he => ?_, fun e k' he hc hs => ?_⟩
  · have hlen := ((hinv.agrees m hm).used hu).1
    rw [hr.linked.squeue m hm, hlen]
    refine ⟨by omega, nodup_contents hr.linked (semq_mem hm).1, fun p hp => ?_⟩
    have hw := (mem_semq hr hm).mp hp
    exact ⟨hw.state, hw.prsem⟩
  · rw [hr.linked.squeue m hm]
    refine List.length_eq_zero_iff.mp (((hinv.agrees m hm).used hu).1.trans ?_)
    omega
  · by_contra hne
    have hsymm : Std.Symm fun p q => w.since p ≠ w.since q := ⟨fun _ _ h => h.symm⟩
    have hdiff : (k.sys.contents (semq m)).Pairwise fun p q => w.since p ≠ w.since q :=
      (hinv.sorted m hm).imp fun hlt => hlt.ne
    exact hdiff.forall ((mem_semq hr hm).mpr hp) ((mem_semq hr hm).mpr hq) hne he
  · exact hinv.inOrder (plain_step h.plain he hs) hc

instance (s : Sys) (e : Event) : Decidable (CountOk s e) := by
  unfold CountOk
  split <;> infer_instance

/-- A process makes a semaphore with no permits, and waits on it. -/
def waitEvents : List Event :=
  [.call (.create 1024 20), .call (.resume 1), .call (.semcreate 0), .call (.wait 0)]

set_option maxRecDepth 100000 in
/-- One process waits, and the count is -1. -/
theorem semaphores_ok_wait : ∃ k w, SemRun k w ∧ (k.sys.semtab 0).scount = -1 ∧ k.sys.contents 100 = [1] ∧
    SemaphoresOk k.sys := by
  have hruns : (sysinit clearedBoot).Runs (fun k e => e.Plain ∧ CountOk k.sys e) waitEvents := by
    decide +kernel
  have hcount : (((sysinit clearedBoot).afterAll waitEvents).sys.semtab 0).scount = -1 := by decide +kernel
  have hcont : ((sysinit clearedBoot).afterAll waitEvents).sys.contents 100 = [1] := by decide +kernel
  have hboot : SemRun (sysinit clearedBoot) ⟨fun _ => 0, 0⟩ := .boot clearedBoot fun _ _ _ => rfl
  generalize sysinit clearedBoot = k at *
  obtain ⟨w, hw⟩ := Kernel.Noted.runs hboot hruns
  exact ⟨_, w, hw, hcount, hcont, (semaphores_ok hw).1⟩

end

end Xinu
