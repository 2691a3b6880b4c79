import Xinu.Kernel.Priorities

/-!
# Mailboxes

A process has room for one message. The messages that it has been sent since it was created, with
the answer `OK`, are those that it has received so far, in the same order, and behind them the one
that it has not received yet, if there is one. So every message is received at most once, none is
overwritten, and `receive` never comes back without one.
-/

namespace Xinu

open LinkedQueue Sys

/-! ## What is sent and received -/

/-- The message that an event gives to `send`: one of a system call, or that of `kill` to the parent
of the process. -/
def Sys.sends (s : Sys) : Event → Option (ℤ × ℕ)
  | .call (.send pid msg) => some (pid, msg)
  | .call (.kill pid) =>
    if s.isbadpid pid ∨ pid = NULLPROC ∨ s.prcount - 1 ≤ 1 then none
    else some ((s.proctab pid).prparent, pid.toNat)
  | _ => none

/-- `send` answers `OK`. -/
def Sys.sendOk (s : Sys) (pid : ℤ) (msg : ℕ) : Bool :=
  match s.send pid msg with
  | .ok (.ok, _) => true
  | _ => false

/-- The event is the return of `receive`, `recvtime` or `recvclr` with a message. A `receive` that
returns does so with a message whatever is in the mailbox. -/
def takes (s s' : Sys) : Event → Prop
  | .call .receive => s'.pend s.currpid = .user
  | .call (.recvtime _) =>
    s'.pend s.currpid = .user ∧ s'.result s.currpid ≠ SYSERR ∧ s'.result s.currpid ≠ TIMEOUT
  | .call .recvclr => (s.proctab s.currpid).prhasmsg = true
  | .cont => s.pend s.currpid = .receive ∨ s.pend s.currpid = .recvtime ∧ s'.result s.currpid ≠ TIMEOUT
  | _ => False

instance (s s' : Sys) (e : Event) : Decidable (takes s s' e) := by
  unfold takes
  split <;> infer_instance

/-- The messages that the process of each entry has been sent since it was created, and those that
it has received. -/
structure Mail where
  /-- The messages that have been sent with the answer `OK`, in order. -/
  sent : ℤ → List ℤ
  /-- The messages that have been received, in order. -/
  taken : ℤ → List ℤ

/-- One more step. -/
def Mail.note (k : Kernel) (e : Event) (k' : Kernel) (m : Mail) : Mail where
  sent p :=
    if k.sys.state p = .free ∧ k'.sys.state p ≠ .free then []
    else match k.sys.sends e with
      | some (pid, msg) => if p = pid ∧ k.sys.sendOk pid msg then m.sent p ++ [(msg : ℤ)] else m.sent p
      | none => m.sent p
  taken p :=
    if k.sys.state p = .free ∧ k'.sys.state p ≠ .free then []
    else if p = k.sys.currpid ∧ takes k.sys k'.sys e then m.taken p ++ [k'.sys.result p] else m.taken p

/-- The states of the plain runs, with the messages noted. -/
def MailRun : Kernel → Mail → Prop :=
  Kernel.Noted (fun _ e => e.Plain) ⟨fun _ => [], fun _ => []⟩ Mail.note

/-- The message that a process has not received yet. -/
def Sys.unread (s : Sys) (p : ℤ) : List ℤ :=
  if (s.proctab p).prhasmsg then [((s.proctab p).prmsg : ℤ)] else []

/-- What holds of the mailbox of a process. One that is on its way out of `receive` has a message. -/
structure MailOk (s : Sys) (p : ℤ) (sent taken : List ℤ) : Prop where
  /-- What has been sent is what has been received, and the message in the mailbox. -/
  split : sent = taken ++ s.unread p
  /-- A process in `receive` that is not waiting any more has a message. -/
  receive : s.pend p = .receive → s.state p = .free ∨ s.state p = .recv ∨ (s.proctab p).prhasmsg = true

/-- What has been noted can be written in another way. -/
theorem MailOk.congr_log {s : Sys} {p : ℤ} {sent taken sent' taken' : List ℤ}
    (hs : sent' = sent) (ht : taken' = taken)
    (h : MailOk s p sent taken) : MailOk s p sent' taken' := by
  rw [hs, ht]
  exact h

section

variable {s s' s₁ : Sys} {p : ℤ} {sent taken : List ℤ}

/-! ## Steps that leave a mailbox alone -/

/-- The scheduler neither creates nor destroys a process. -/
theorem Sys.Moved.live {R : List ℤ} (hm : Moved R s₁ s') (hR : p ∈ R → s₁.state p ≠ .free) :
    s'.state p = .free ↔ s₁.state p = .free := by
  have hactive : ∀ {t : Sys}, t.Active p → t.state p ≠ .free := by
    rintro t (ha | ha) <;> rw [ha] <;> exact nofun
  by_cases hp : p ∈ R
  · exact iff_of_false (hactive (hm.ready p hp)) (hR hp)
  · rcases hm.state p hp with hst | ⟨ha, ha'⟩
    · rw [hst]
    · exact iff_of_false (hactive ha') (hactive ha)

/-- A step leaves the mailbox of a process alone. -/
structure MailSame (s s' : Sys) (p : ℤ) : Prop where
  /-- An entry that is free stays free. -/
  free : s.state p = .free → s'.state p = .free
  /-- There is a message exactly if there was one. -/
  hasmsg : (s'.proctab p).prhasmsg = (s.proctab p).prhasmsg
  /-- It is the same message. -/
  msg : (s'.proctab p).prmsg = (s.proctab p).prmsg
  /-- The process does not enter `receive`. -/
  pend : s'.pend p = .receive → s.pend p = .receive
  /-- If it waits for a message, it goes on waiting, or is destroyed. -/
  recv : s.state p = .recv → s'.state p = .free ∨ s'.state p = .recv

namespace MailSame

/-- A step that leaves a mailbox alone keeps what holds of it. -/
theorem ok (h : MailSame s s' p) (hm : MailOk s p sent taken) : MailOk s' p sent taken := by
  refine ⟨?_, fun hp => ?_⟩
  · unfold Sys.unread
    rw [h.hasmsg, h.msg]
    exact hm.split
  · rw [h.hasmsg]
    rcases hm.receive (h.pend hp) with hst | hst | hmsg
    · exact .inl (h.free hst)
    · exact (h.recv hst).imp id .inl
    · exact .inr (.inr hmsg)

/-- Two steps that leave the mailbox of a process, one after the other, leave it. -/
theorem trans (h : MailSame s s₁ p) (h' : MailSame s₁ s' p) : MailSame s s' p :=
  ⟨fun hf => h'.free (h.free hf), h'.hasmsg.trans h.hasmsg, h'.msg.trans h.msg, fun hp => h.pend (h'.pend hp),
    fun hr => (h.recv hr).elim (fun hf => .inl (h'.free hf)) h'.recv⟩

/-- A step that does not change the entry of the process. -/
theorem of_proc (hp : s'.proctab p = s.proctab p) (hk : s'.pend p = .receive → s.pend p = .receive) :
    MailSame s s' p := by
  have hst : s'.state p = s.state p := congrArg Procent.prstate hp
  exact ⟨hst.trans, by rw [hp], by rw [hp], hk, fun h => .inr (hst.trans h)⟩

/-- A step that changes neither the process table nor what is left to do. -/
theorem of_tables (hp : s'.proctab = s.proctab) (hk : s'.pend = s.pend) : MailSame s s' p :=
  .of_proc (by rw [hp]) (by rw [hk]; exact id)

/-- An answer leaves the mailboxes alone. -/
theorem ret (s : Sys) (v : ℤ) : MailSame s (s.ret v) p := .of_tables rfl rfl

/-- The end of a call other than `receive` is noted. -/
theorem setPend (s : Sys) (e : Pend) (he : e ≠ .receive) : MailSame s (s.setPend e) p := by
  refine .of_proc rfl fun hp => ?_
  change Function.update s.pend s.currpid e p = .receive at hp
  rw [Function.update_apply] at hp
  split_ifs at hp
  · exact absurd hp he
  · exact hp

/-- A change of the entry of a process that keeps its message. A process that waits for one goes on
waiting. -/
theorem setProc (s : Sys) (pid : ℤ) {f : Procent → Procent}
    (hm : ∀ e, (f e).prhasmsg = e.prhasmsg ∧ (f e).prmsg = e.prmsg)
    (hst : s.state pid ≠ .free ∧ s.state pid ≠ .recv ∨ ∀ e, (f e).prstate = e.prstate) :
    MailSame s (s.setProc pid f) p := by
  by_cases hp : p = pid
  · subst hp
    have he := s.setProc_same p f
    have hstate : (s.setProc p f).state p = (f (s.proctab p)).prstate := congrArg Procent.prstate he
    refine ⟨fun hf => ?_, by rw [he, (hm _).1], by rw [he, (hm _).2], id, fun hr => ?_⟩
    · rcases hst with h | h
      · exact absurd hf h.1
      · rw [hstate, h]
        exact hf
    · rcases hst with h | h
      · exact absurd hr h.2
      · rw [hstate, h]
        exact .inr hr
  · exact .of_proc (setProc_other hp s f) id

/-- A process that does not wait for a message gets another state. -/
theorem setState (s : Sys) (pid : ℤ) (st : PrState) (h : s.state pid ≠ .free) (hr : s.state pid ≠ .recv) :
    MailSame s (s.setState pid st) p :=
  .setProc s pid (f := fun e => { e with prstate := st }) (fun _ => ⟨rfl, rfl⟩) (.inl ⟨h, hr⟩)

/-- The scheduler leaves the mailboxes alone when the processes that it makes ready do not wait for
a message. -/
theorem moves {R : List ℤ} (h : MailSame s s₁ p) (hm : Moves R s₁ s')
    (hR : p ∈ R → s₁.state p ≠ .free ∧ s₁.state p ≠ .recv) : MailSame s s' p := by
  refine h.trans ⟨(hm.live fun hp =>
    (hR hp).1).mpr, by rw [hm.entry], by rw [hm.entry], by rw [hm.pend]; exact id,
    fun hr => ?_⟩
  have hp : p ∉ R := fun hp => (hR hp).2 hr
  rcases hm.state p hp with hst | ⟨ha, -⟩
  · exact .inr (hst.trans hr)
  · rcases ha with ha | ha <;> rw [hr] at ha <;> cases ha

end MailSame

/-! ## Steps that use a mailbox -/

/-- Whether `send` answers `OK`, by what it does. -/
theorem Sys.Sent.sendOk {msg : ℕ} {st : Status} (hi : Running s) (h : Sent s p msg (st, s')) :
    s.sendOk p msg = true ↔ st = .ok := by
  obtain ⟨r, hr, hs⟩ := send_sent hi p msg
  unfold Sys.sendOk
  rw [hr]
  -- Both descriptions are refused, or neither is.
  have hrefused : ∀ {st : Status} {s' : Sys}, Sent s p msg (st, s') →
      (st = .syserr ↔ s.isbadpid p ∨ (s.proctab p).prhasmsg = true) := by
    intro st s' h
    cases h with
    | refused h => exact iff_of_true rfl h
    | left hp hm => exact iff_of_false nofun fun hc => hc.elim hp (by rw [hm]; exact nofun)
    | recv hp hm => exact iff_of_false nofun fun hc => hc.elim hp (by rw [hm]; exact nofun)
    | rectim hp hm => exact iff_of_false nofun fun hc => hc.elim hp (by rw [hm]; exact nofun)
  obtain ⟨st', s''⟩ := r
  have h₁ := (hrefused hs).trans (hrefused h).symm
  cases st <;> cases st' <;> simp_all

/-- Whether `send` answers `OK` depends on the process table only. -/
theorem sendOk_iff (hi : Running s) {msg : ℕ} :
    s.sendOk p msg = true ↔ ¬ s.isbadpid p ∧ (s.proctab p).prhasmsg = false := by
  obtain ⟨⟨st, s'⟩, hr, hs⟩ := send_sent hi p msg
  rw [hs.sendOk hi]
  cases hs with
  | refused h =>
    refine iff_of_false nofun fun hc => h.elim hc.1 ?_
    rw [hc.2]
    exact nofun
  | left hp hm => exact iff_of_true rfl ⟨hp, hm⟩
  | recv hp hm => exact iff_of_true rfl ⟨hp, hm⟩
  | rectim hp hm => exact iff_of_true rfl ⟨hp, hm⟩

/-- `send` neither creates nor destroys a process. -/
theorem Sys.Sent.live {pid : ℤ} {msg : ℕ} {st : Status} (h : Sent s pid msg (st, s')) (hi : Running s) :
    s'.state p = .free ↔ s.state p = .free := by
  have hstate := s.deliver_state pid msg
  cases h with
  | refused h => exact Iff.rfl
  | left hbad hnone h₁ h₂ => rw [hstate]
  | recv hbad hnone hst hs =>
    rw [hs.live, hstate]
    intro hmem
    rw [hstate, List.mem_singleton.mp hmem, hst]
    exact nofun
  | rectim hbad hnone hst hs =>
    have hhome : (s.deliver pid msg).home pid = some (s.deliver pid msg).sleepq :=
      home_asleep (pid_of_not_bad hbad).1 (.inr ((hstate pid).trans hst))
    obtain ⟨t, ht⟩ := (unsleep_contents (hi.deliver pid msg) hhome).tables
    have hsame : ((s.deliver pid msg).unsleep pid).state = s.state := by
      rw [ht]
      exact funext hstate
    rw [hs.live, hsame]
    intro hmem
    rw [hsame, List.mem_singleton.mp hmem, hst]
    exact nofun

/-- What `send` does to the mailboxes: it leaves the message with its process, and the others alone. -/
theorem Sys.Sent.mail {msg : ℕ} {pid : ℤ} {st : Status} (h : Sent s pid msg (st, s')) (hi : Running s)
    (hm : MailOk s p sent taken) :
    MailOk s' p (if p = pid ∧ s.sendOk pid msg then sent ++ [(msg : ℤ)] else sent) taken := by
  have hok := h.sendOk hi
  -- A delivered message is the only one in the mailbox.
  have hdeliver : ∀ {s₁ : Sys}, s₁.proctab p = (s.deliver pid msg).proctab p → p = pid →
      (s.proctab pid).prhasmsg = false → ∀ {s' : Sys}, (s'.proctab p).prhasmsg = (s₁.proctab p).prhasmsg →
      (s'.proctab p).prmsg = (s₁.proctab p).prmsg → MailOk s' p (sent ++ [(msg : ℤ)]) taken := by
    rintro s₁ hs₁ rfl hnone s' h₁ h₂
    rw [deliver_proctab, if_pos rfl] at hs₁
    have hsplit := hm.split
    unfold Sys.unread at hsplit
    rw [hnone, if_neg Bool.false_ne_true, List.append_nil] at hsplit
    refine ⟨?_, fun _ => .inr (.inr (by rw [h₁, hs₁]))⟩
    unfold Sys.unread
    rw [h₁, h₂, hs₁, if_pos rfl, hsplit]
  -- The other mailboxes are left alone.
  have hother : p ≠ pid → MailSame s (s.deliver pid msg) p := fun hne =>
    .of_proc ((deliver_proctab ..).trans (if_neg hne)) id
  cases h with
  | refused h =>
    rw [if_neg (fun hc => absurd (hok.mp hc.2) nofun)]
    exact hm
  | left hbad hnone h₁ h₂ =>
    split_ifs with hc
    · exact hdeliver rfl hc.1 hnone rfl rfl
    · exact (hother fun hpp => hc ⟨hpp, hok.mpr rfl⟩).ok hm
  | recv hbad hnone hst hs =>
    by_cases hpp : p = pid
    · rw [if_pos ⟨hpp, hok.mpr rfl⟩]
      exact hdeliver rfl hpp hnone (by rw [hs.entry]) (by rw [hs.entry])
    · rw [if_neg fun hc => hpp hc.1]
      exact ((hother hpp).moves hs fun hmem => absurd (List.mem_singleton.mp hmem) hpp).ok hm
  | rectim hbad hnone hst hs =>
    have hhome : (s.deliver pid msg).home pid = some (s.deliver pid msg).sleepq :=
      home_asleep (pid_of_not_bad hbad).1 (.inr ((s.deliver_state pid msg pid).trans hst))
    obtain ⟨t, ht⟩ := (unsleep_contents (hi.deliver pid msg) hhome).tables
    by_cases hpp : p = pid
    · rw [if_pos ⟨hpp, hok.mpr rfl⟩]
      have hproc : ((s.deliver pid msg).unsleep pid).proctab p = (s.deliver pid msg).proctab p := by rw [ht]
      exact hdeliver hproc hpp hnone (by rw [hs.entry]) (by rw [hs.entry])
    · rw [if_neg fun hc => hpp hc.1]
      have hunsleep : MailSame (s.deliver pid msg) ((s.deliver pid msg).unsleep pid) p :=
        .of_tables (by rw [ht]) (by rw [ht])
      exact (((hother hpp).trans hunsleep).moves hs fun hmem => absurd (List.mem_singleton.mp hmem) hpp).ok hm

/-- A message that is taken changes no state. -/
theorem takeMessage_state (s : Sys) (v : ℤ) :
    ((s.ret v).setProc s.currpid fun e => { e with prhasmsg := false }).state p = s.state p := by
  unfold state
  rw [setProc_apply]
  split_ifs with hp
  · rw [hp]
    rfl
  · rfl

/-- `recvclr` changes the state of no process. -/
theorem recvclr_state (s : Sys) : s.recvclr.state p = s.state p := by
  unfold recvclr
  dsimp only
  split_ifs
  · exact takeMessage_state s _
  · rfl

/-- The end of `recvtime` changes no state. -/
theorem recvtimeEnd_state (s : Sys) : s.recvtimeEnd.state p = s.state p := by
  unfold recvtimeEnd
  dsimp only
  split_ifs
  · exact takeMessage_state s _
  · rfl

/-- The end of `receive` takes the message. -/
theorem receiveEnd_mail (hm : MailOk s p sent taken) (hmsg : p = s.currpid → (s.proctab p).prhasmsg = true) :
    MailOk s.receiveEnd p sent (if p = s.currpid then taken ++ [s.receiveEnd.result p] else taken) := by
  have hresult : s.receiveEnd.result s.currpid = (s.proctab s.currpid).prmsg := Function.update_self ..
  have hproc : ∀ x, s.receiveEnd.proctab x =
      if x = s.currpid then { s.proctab s.currpid with prhasmsg := false } else s.proctab x :=
    fun x => setProc_apply (s.ret (s.proctab s.currpid).prmsg) s.currpid
      (fun e => { e with prhasmsg := false }) x
  have hpend : ∀ x, s.receiveEnd.pend x = if x = s.currpid then .user else s.pend x :=
    fun x => Function.update_apply ..
  by_cases hp : p = s.currpid
  · subst hp
    rw [if_pos rfl, hresult]
    refine ⟨?_, fun h => ?_⟩
    · unfold Sys.unread
      rw [hproc, if_pos rfl, if_neg Bool.false_ne_true, List.append_nil, hm.split]
      unfold Sys.unread
      rw [hmsg rfl, if_pos rfl]
    · rw [hpend, if_pos rfl] at h
      cases h
  · rw [if_neg hp]
    refine MailSame.ok (.of_proc ((hproc p).trans (if_neg hp)) fun h => ?_) hm
    rwa [hpend, if_neg hp] at h

/-- The end of `recvtime` takes the message, if there is one. -/
theorem recvtimeEnd_mail (hm : MailOk s p sent taken) :
    MailOk s.recvtimeEnd p sent
      (if p = s.currpid ∧ s.recvtimeEnd.result s.currpid ≠ TIMEOUT then taken ++ [s.recvtimeEnd.result p]
        else taken) := by
  by_cases hmsg : (s.proctab s.currpid).prhasmsg = true
  · have he : s.recvtimeEnd = s.receiveEnd := by
      unfold recvtimeEnd
      dsimp only
      rw [if_pos hmsg]
      rfl
    have hne : s.receiveEnd.result s.currpid ≠ TIMEOUT := by
      rw [show s.receiveEnd.result s.currpid = (s.proctab s.currpid).prmsg from Function.update_self ..]
      have : (0 : ℤ) ≤ (s.proctab s.currpid).prmsg := Int.natCast_nonneg _
      exact fun hc => absurd (hc ▸ this) (by decide)
    rw [he]
    simpa only [hne, ne_eq, not_false_eq_true, and_true] using receiveEnd_mail hm fun hp => by rw [hp, hmsg]
  · have he : s.recvtimeEnd = (s.ret TIMEOUT).setPend .user := by
      unfold recvtimeEnd
      dsimp only
      rw [if_neg hmsg]
    have hresult : s.recvtimeEnd.result s.currpid = TIMEOUT := by
      rw [he]
      exact Function.update_self ..
    rw [if_neg fun hc => hc.2 hresult, he]
    exact ((MailSame.ret s _).trans (.setPend _ .user nofun)).ok hm

/-- `recvclr` takes the message, if there is one. -/
theorem recvclr_mail (hm : MailOk s p sent taken) (hu : s.pend s.currpid = .user) :
    MailOk s.recvclr p sent
      (if p = s.currpid ∧ (s.proctab s.currpid).prhasmsg = true then taken ++ [s.recvclr.result p]
        else taken) := by
  by_cases hmsg : (s.proctab s.currpid).prhasmsg = true
  · -- This is the end of `receive`, but for what is left to do.
    have he : s.receiveEnd = s.recvclr.setPend .user := by
      unfold recvclr
      dsimp only
      rw [if_pos hmsg]
      rfl
    have hend := receiveEnd_mail hm fun hp => by rw [hp, hmsg]
    rw [he] at hend
    simp only [hmsg, and_true]
    refine ⟨hend.split, fun h => hend.receive ?_⟩
    have htables : s.recvclr.pend = s.pend ∧ s.recvclr.currpid = s.currpid := by
      unfold recvclr
      dsimp only
      rw [if_pos hmsg]
      exact ⟨rfl, rfl⟩
    change Function.update s.recvclr.pend s.recvclr.currpid .user p = .receive
    rw [htables.1] at h ⊢
    -- The running process is in user code, so one that receives is another.
    have hp : p ≠ s.currpid := by
      rintro rfl
      rw [hu] at h
      cases h
    rw [htables.2, Function.update_of_ne hp]
    exact h
  -- Without a message `recvclr` only answers.
  · have he : s.recvclr = s.ret OK := by
      unfold recvclr
      dsimp only
      rw [if_neg hmsg]
    rw [if_neg fun hc => hmsg hc.2, he]
    exact (MailSame.ret s OK).ok hm

/-- A process that is destroyed keeps its message until its entry is used again. -/
theorem setFree_mail (s : Sys) (pid : ℤ) : MailSame s (s.setState pid .free) p := by
  by_cases hp : p = pid
  · subst hp
    have he : (s.setState p .free).proctab p = { s.proctab p with prstate := .free } := setProc_same ..
    exact ⟨fun _ => setState_same .., by rw [he], by rw [he], id, fun _ => .inl (setState_same ..)⟩
  · exact .of_proc (setProc_other hp ..) id

/-- The end of `kill` leaves the mailboxes alone. -/
theorem Sys.KillEnded.mail {pid : ℤ} (h : KillEnded s pid s') (hi : Idle s) (hp : IsPid pid) :
    MailSame s s' p := by
  have hend : ∀ s₁ : Sys, s₁.proctab = s.proctab → s₁.pend = s.pend →
      MailSame s ((s₁.setState pid .free).setPend .user) p := by
    intro s₁ ht hk
    have hsame : MailSame s s₁ p := .of_tables ht hk
    exact (hsame.trans (setFree_mail s₁ pid)).trans (.setPend _ .user nofun)
  cases h with
  | unqueued l hst => exact hend _ rfl rfl
  | asleep l hst =>
    have hr : Running { s with memlist := l } :=
      hi.toRunning.congr rfl rfl rfl (fun _ => rfl) rfl (fun _ => rfl) (fun _ => rfl) rfl
    have hhome : ({ s with memlist := l } : Sys).home pid = some s.sleepq := home_asleep hp hst
    obtain ⟨t, ht⟩ := (unsleep_contents hr hhome).tables
    exact hend _ (by rw [ht]) (by rw [ht])
  | waiting l hst => exact hend _ rfl rfl
  | ready l hst => exact hend _ rfl rfl
  | self l c hc hm =>
    have hvars : MailSame s { s with memlist := l, cr3 := c } p := .of_tables rfl rfl
    exact (hvars.trans (setFree_mail _ pid)).moves hm nofun

/-- Making processes ready that wait on a semaphore leaves the mailboxes alone. -/
theorem Sys.Releases.mail {sem : ℤ} {n : ℕ} {c : ℤ} (h : Releases sem n c s₁ s') (h₁ : MailSame s s₁ p)
    (hr : Running s₁) (hs : IsSem sem) : MailSame s s' p := by
  have hcount : MailSame s₁ (s₁.setSem sem fun e => { e with scount := c }) p := .of_tables rfl rfl
  refine MailSame.moves (h₁.trans hcount) h fun hp => ?_
  have hmem := List.mem_of_mem_take hp
  rw [hr.linked.squeue sem hs, mem_semq hr hs] at hmem
  change s₁.state p ≠ _ ∧ s₁.state p ≠ _
  rw [hmem.state]
  exact ⟨nofun, nofun⟩

/-- Going to sleep leaves the mailboxes alone. -/
theorem insertd_mail (h : Idle s) {r : Status × Sys} {delay : ℤ}
    (hi : s.insertd s.currpid s.sleepq delay = .ok r) :
    MailSame s r.2 p ∧ r.2.state s.currpid = .curr ∧ r.2.currpid = s.currpid := by
  obtain ⟨t, ht⟩ :=
    ((insertd_contents h.linked h.states.currpid h.curr_live (home_curr h.curr) delay).of_eq hi).2.tables
  rw [ht]
  exact ⟨.of_tables rfl rfl, h.curr, rfl⟩

/-- A process that blocks in a call other than `receive` leaves the mailboxes alone. -/
theorem block_mail (st : PrState) {pid : ℤ} (hc : s.state pid = .curr) : MailSame s (s.setState pid st) p :=
  .setState s pid st (by rw [hc]; exact nofun) (by rw [hc]; exact nofun)

/-- The end of `recvtime` gives an answer that is not that of a call that failed. -/
theorem recvtimeEnd_result (s : Sys) :
    s.recvtimeEnd.pend s.currpid = .user ∧ s.recvtimeEnd.result s.currpid ≠ SYSERR := by
  unfold recvtimeEnd
  dsimp only
  split_ifs
  · refine ⟨Function.update_self .., ?_⟩
    rw [show (((s.ret (s.proctab s.currpid).prmsg).setProc s.currpid fun e =>
      { e with prhasmsg := false }).setPend
      .user).result s.currpid = (s.proctab s.currpid).prmsg from Function.update_self ..]
    have : (0 : ℤ) ≤ (s.proctab s.currpid).prmsg := Int.natCast_nonneg _
    exact fun hc => absurd (hc ▸ this) (by decide)
  · refine ⟨Function.update_self .., ?_⟩
    rw [show ((s.ret TIMEOUT).setPend .user).result s.currpid = TIMEOUT from Function.update_self ..]
    decide

/-- `receive` without a message leaves the mailboxes alone, and waits. -/
theorem receive_mail (hi : Idle s) (hs : Moves [] ((s.setPend .receive).setState s.currpid .recv) s') :
    (s.state p = .free → s'.state p = .free) ∧ s'.pend s.currpid = .receive ∧
      (MailOk s p sent taken → MailOk s' p sent taken) := by
  have hpend : s'.pend = Function.update s.pend s.currpid .receive := hs.pend
  generalize hs₁ : (s.setPend .receive).setState s.currpid .recv = s₁ at hs
  have hself : s₁.state s.currpid = .recv := by
    rw [← hs₁]
    exact setState_same ..
  have hother : p ≠ s.currpid → MailSame s s₁ p := fun hp => by
    rw [← hs₁]
    refine .of_proc (setProc_other hp ..) fun h => ?_
    change Function.update s.pend s.currpid .receive p = .receive at h
    rwa [Function.update_of_ne hp] at h
  refine ⟨fun hf => ?_, by rw [hpend, Function.update_self], fun hm => ?_⟩
  · have hp : p ≠ s.currpid := fun hp => hi.curr_live (hp ▸ hf)
    exact (hs.live nofun).mpr ((hother hp).free hf)
  · by_cases hp : p = s.currpid
    · have hentry : s₁.proctab s.currpid = { s.proctab s.currpid with prstate := .recv } := by
        rw [← hs₁]
        exact setProc_same ..
      subst hp
      refine ⟨?_, fun _ => .inr (.inl ?_)⟩
      · unfold Sys.unread
        rw [hs.entry, hentry]
        exact hm.split
      · rcases hs.state s.currpid nofun with hst | ⟨ha, -⟩
        · exact hst.trans hself
        · rcases ha with ha | ha <;> rw [hself] at ha <;> cases ha
    · exact ((hother hp).moves hs nofun).ok hm

/-- A clock tick leaves the mailboxes alone. -/
theorem ticked_mail (s : Sys) (x v : ℤ) : MailSame s (s.ticked.setKey x v) p := by
  obtain ⟨a, b, he⟩ := s.ticked_eq
  have hvars : MailSame s { s with clktime := a, count1000 := b } p := .of_tables rfl rfl
  rw [he]
  exact (hvars.trans (.setPend _ .clk nofun)).trans (.of_tables rfl rfl)

/-- The processes that a tick makes ready have been sleeping. -/
theorem tick_mail (hi : Idle s) (h : Ticked s s') : MailSame s s' p := by
  cases h with
  | none he =>
    obtain ⟨a, b, he⟩ := s.ticked_eq
    have hvars : MailSame s { s with clktime := a, count1000 := b } p := .of_tables rfl rfl
    rw [he]
    exact hvars.trans (.setPend _ .clk nofun)
  | @keep x l hl hk => exact ticked_mail s x _
  | @wake x l _ hl hk hm =>
    refine (ticked_mail s x _).moves hm fun hp => ?_
    have hmem : p ∈ s.contents s.sleepq := by
      rw [hl]
      exact (List.takeWhile_sublist _).mem hp
    have hstate : (s.ticked.setKey x (int32 (s.key x - 1))).state p = s.state p := by
      obtain ⟨a, b, he⟩ := s.ticked_eq
      rw [he]
      rfl
    rw [mem_contents hi.linked hi.linked.sleepq_mem] at hmem
    rw [hstate]
    rcases asleep_of_home hi.toRunning hmem with hst | hst <;> rw [hst] <;> exact ⟨nofun, nofun⟩

/-! ## Steps -/

/-- What a step notes of the messages that a process has been sent. -/
def Sys.sentThen (s : Sys) (e : Event) (s' : Sys) (p : ℤ) (sent : List ℤ) : List ℤ :=
  if s.state p = .free ∧ s'.state p ≠ .free then []
  else match s.sends e with
    | some (pid, msg) => if p = pid ∧ s.sendOk pid msg then sent ++ [(msg : ℤ)] else sent
    | none => sent

/-- What it notes of those that the process has received. -/
def Sys.takenThen (s : Sys) (e : Event) (s' : Sys) (p : ℤ) (taken : List ℤ) : List ℤ :=
  if s.state p = .free ∧ s'.state p ≠ .free then []
  else if p = s.currpid ∧ takes s s' e then taken ++ [s'.result p] else taken

/-- With what the step notes, what holds of the mailbox of the process holds of it again. -/
def MailKept (s : Sys) (e : Event) (s' : Sys) (p : ℤ) (sent taken : List ℤ) : Prop :=
  MailOk s' p (s.sentThen e s' p sent) (s.takenThen e s' p taken)

variable {e : Event}

/-- A step in which nothing is sent, and the running process may take its message. -/
theorem MailKept.of_taken (hfree : s.state p = .free → s'.state p = .free) (hsend : s.sends e = none)
    (h : MailOk s' p sent (if p = s.currpid ∧ takes s s' e then taken ++ [s'.result p] else taken)) :
    MailKept s e s' p sent taken := by
  unfold MailKept sentThen takenThen
  rw [if_neg fun hc => hc.2 (hfree hc.1), if_neg fun hc => hc.2 (hfree hc.1), hsend]
  exact h

/-- A step that leaves the mailbox alone, in which nothing is sent and nothing is taken. -/
theorem MailSame.kept (h : MailSame s s' p) (hsend : s.sends e = none) (htake : ¬ takes s s' e)
    (hm : MailOk s p sent taken) : MailKept s e s' p sent taken := by
  apply MailKept.of_taken h.free hsend
  rw [if_neg fun hc => htake hc.2]
  exact h.ok hm

/-- A new process has an empty mailbox, and nothing is noted for it yet. -/
theorem create_kept (s : Sys) (ssize : ℕ) (priority : Int16) (hm : MailOk s p sent taken) :
    MailKept s (.call (.create ssize priority)) (s.create ssize priority) p sent taken := by
  have hnew := newProcess_effect s ssize priority PAGE_DIR_ADDR_START
  unfold create
  generalize s.newProcess ssize priority PAGE_DIR_ADDR_START = r at *
  cases hnew with
  | none n =>
    have hsame : MailSame s (({ s with nextpid := n } : Sys).ret SYSERR) p := .of_tables rfl rfl
    exact hsame.kept rfl id hm
  | @some pid n saddr memlist hp hf hstk =>
    by_cases hpp : p = pid
    · subst hpp
      have hborn : s.state p = .free ∧ (Function.update s.proctab p
          (s.newEntry p priority saddr (stacklen ssize) PAGE_DIR_ADDR_START) p).prstate ≠ .free := by
        rw [Function.update_self]
        exact ⟨hf, nofun⟩
      refine MailOk.congr_log (if_pos hborn) (if_pos hborn) ⟨?_, fun hpend => ?_⟩
      · unfold Sys.unread
        rw [if_neg]
        · rfl
        · dsimp only [Sys.ret]
          rw [Function.update_self]
          exact Bool.false_ne_true
      · change Function.update s.pend p .user p = .receive at hpend
        rw [Function.update_self] at hpend
        cases hpend
    · refine MailSame.kept (.of_proc (Function.update_of_ne hpp ..) fun hpend => ?_) rfl id hm
      change Function.update s.pend pid .user p = .receive at hpend
      rwa [Function.update_of_ne hpp] at hpend

/-- A change of priority leaves the mailboxes alone. -/
theorem chprio_mail (s : Sys) (pid : ℤ) (newprio : Int16) : MailSame s (s.chprio pid newprio) p := by
  unfold chprio
  split_ifs with hbad
  · exact .ret s _
  · exact (MailSame.ret s _).trans (.setProc _ _ (fun _ => ⟨rfl, rfl⟩) (.inr fun _ => rfl))

/-- A new semaphore leaves the mailboxes alone. -/
theorem semcreate_mail (s : Sys) (count : ℤ) : MailSame s (s.semcreate count) p := by
  refine .of_tables ?_ ?_
  all_goals
    unfold semcreate
    split_ifs
    · rfl
    · dsimp only
      cases (s.newsemLoop NSEM.toNat s.nextsem).1 <;> rfl

/-- `wait` leaves the mailboxes alone: the process that is blocked does not wait for a message. -/
theorem Sys.Waited.mail {sem : ℤ} (h : Waited s sem s') (hi : Idle s) : MailSame s s' p := by
  cases h with
  | refused v => exact .ret s v
  | passed => exact .of_tables rfl rfl
  | blocked hs hu hc hmv =>
    have hcount : MailSame s (s.waitCount sem) p := .of_tables rfl rfl
    have hset : MailSame (s.waitCount sem)
        ((s.waitCount sem).setProc s.currpid fun p => { p with prstate := .wait, prsem := sem }) p := by
      refine .setProc _ _ (fun _ => ⟨rfl, rfl⟩) (.inl ⟨hi.curr_live, ?_⟩)
      change s.state s.currpid ≠ .recv
      rw [hi.curr]
      exact nofun
    have hboth := hcount.trans hset
    generalize (s.waitCount sem).setProc s.currpid
      (fun p => { p with prstate := .wait, prsem := sem }) = s₁ at *
    obtain ⟨t, ht⟩ := s₁.enqueue_tables s.currpid (s.semtab sem).squeue
    have hjoin : MailSame s₁ (s₁.enqueue s.currpid (s.semtab sem).squeue) p :=
      .of_tables (by rw [ht]) (by rw [ht])
    exact (hboth.trans hjoin).moves hmv nofun

/-- `signal` and `signaln` leave the mailboxes alone. -/
theorem Sys.Signalled.mail {sem : ℤ} {n : ℕ} (h : Signalled s sem n s') (hi : Idle s) : MailSame s s' p := by
  cases h with
  | refused v => exact .ret s v
  | released hs hu hrel => exact hrel.mail (.ret s OK) (hi.ret OK).toRunning hs

/-- A reset of a semaphore leaves every mailbox alone. -/
theorem Sys.SemReset.mail {sem count : ℤ} (h : SemReset s sem count s') (hi : Idle s) : MailSame s s' p := by
  cases h with
  | refused v => exact .ret s v
  | released hs h0 hu hrel => exact hrel.mail (.ret s OK) (hi.ret OK).toRunning hs

/-- Deleting a semaphore leaves the mailbox of every process. -/
theorem Sys.SemDeleted.mail {sem : ℤ} (h : SemDeleted s sem s') (hi : Idle s) : MailSame s s' p := by
  cases h with
  | refused v => exact .ret s v
  | released hs hu c hrel =>
    have hfree := (hi.ret OK).toRunning.setSem sem (fun e => { e with sstate := .free }) fun _ => rfl
    exact hrel.mail (.of_tables rfl rfl) hfree hs

/-- `resume` leaves the mailboxes alone: the process that it makes ready has been suspended. -/
theorem Sys.Resumed.mail {pid : ℤ} (h : Resumed s pid s') : MailSame s s' p := by
  cases h with
  | refused v => exact .ret s v
  | resumed v hp hst hmv =>
    refine (MailSame.ret s v).moves hmv fun hpp => ?_
    change s.state p ≠ _ ∧ s.state p ≠ _
    rw [List.mem_singleton.mp hpp, hst]
    exact ⟨nofun, nofun⟩

/-- `suspend` leaves the mailboxes alone: the process has been ready or running. -/
theorem Sys.Suspended.mail {pid : ℤ} (h : Suspended s pid s') (hi : Idle s) : MailSame s s' p := by
  cases h with
  | refused v => exact .ret s v
  | ready hp h0 hst =>
    have hget : MailSame s (s.getitem pid) p := .of_tables rfl rfl
    have hset : MailSame (s.getitem pid) ((s.getitem pid).setState pid .susp) p := by
      refine .setState _ pid .susp ?_ ?_
      all_goals
        change s.state pid ≠ _
        rw [hst]
        exact nofun
    exact (hget.trans hset).trans ((MailSame.ret _ _).trans (.setPend _ .user nofun))
  | self hp h0 hmv =>
    have hpend : MailSame s (s.setPend (.suspend pid)) p := .setPend s (.suspend pid) nofun
    have hblock : MailSame (s.setPend (.suspend pid)) ((s.setPend (.suspend pid)).setState pid .susp) p :=
      block_mail .susp (by rw [hp]; exact hi.curr)
    exact (hpend.trans hblock).moves hmv nofun

/-- `sleepms` leaves the mailboxes alone. -/
theorem Sys.Slept.mail {delay : ℤ} (h : Slept s delay s') (hi : Idle s) : MailSame s s' p := by
  cases h with
  | refused hd => exact .ret s SYSERR
  | yielded hd hmv => exact (MailSame.ret s OK).moves hmv nofun
  | blocked hd hins hmv =>
    obtain ⟨hsame, hcurr, -⟩ := insertd_mail (p := p) (hi.ret OK) hins
    exact (((MailSame.ret s OK).trans hsame).trans (block_mail .sleep hcurr)).moves hmv nofun

/-- The first part of `kill` sends the number of the process to its parent. -/
theorem Sys.KillStarted.kept {pid : ℤ} (h : KillStarted s pid s') (hi : Idle s) (hm : MailOk s p sent taken) :
    MailKept s (.call (.kill pid)) s' p sent taken := by
  cases h with
  | refused h => exact MailSame.kept (.ret s _) (if_pos (h.elim .inl fun h => .inr (.inl h))) id hm
  | halted hp h0 hlive hc => exact MailSame.kept (.of_tables rfl rfl) (if_pos (.inr (.inr hc))) id hm
  | @sent st _ hp h0 hlive hc hsent =>
    have hsends : s.sends (.call (.kill pid)) = some ((s.proctab pid).prparent, pid.toNat) := by
      refine if_neg ?_
      rintro (hb | hb | hb)
      · exact not_bad_of_pid hp hlive hb
      · exact h0 hb
      · exact hc hb
    have hkill : MailSame s (s.killing pid) p := by
      refine .of_proc rfl fun hpend => ?_
      change Function.update s.pend s.currpid (.kill pid) p = .receive at hpend
      rw [Function.update_apply] at hpend
      split_ifs at hpend
      exact hpend
    have hrun := (hi.killing hp h0).toRunning
    have hok : (s.killing pid).sendOk (s.proctab pid).prparent pid.toNat = s.sendOk
        (s.proctab pid).prparent pid.toNat := by
      rw [Bool.eq_iff_iff, sendOk_iff hrun, sendOk_iff hi.toRunning]
      rfl
    have hfree := (hsent.live hrun (p := p)).mpr
    unfold MailKept sentThen takenThen
    rw [if_neg fun hc => hc.2 (hfree hc.1), if_neg fun hc => hc.2 (hfree hc.1), hsends, if_neg fun hc => hc.2]
    dsimp only
    rw [← hok]
    exact hsent.mail hrun (hkill.ok hm)

/-- `recvtime` takes the message that is there, or waits for one. -/
theorem Sys.TimedReceive.kept {maxwait : ℤ} (h : TimedReceive s maxwait s')
    (hi : Idle s) (hm : MailOk s p sent taken) :
    MailKept s (.call (.recvtime maxwait)) s' p sent taken := by
  cases h with
  | refused hd => exact MailSame.kept (.ret s _) rfl (fun ht => ht.2.1 (Function.update_self ..)) hm
  | ended hmsg =>
    refine .of_taken (by rw [recvtimeEnd_state]; exact id) rfl ?_
    obtain ⟨hpend, hres⟩ := recvtimeEnd_result s
    have htakes : takes s s.recvtimeEnd (.call (.recvtime maxwait)) ↔
        s.recvtimeEnd.result s.currpid ≠ TIMEOUT :=
      (and_iff_right hpend).trans (and_iff_right hres)
    rw [if_congr (and_congr_right fun _ => htakes) rfl rfl]
    exact recvtimeEnd_mail hm
  | @blocked _ r hd hmsg hins hmv =>
    obtain ⟨hsame, hcurr, hc⟩ := insertd_mail (p := p) hi hins
    have hblock : MailSame (r.2.setPend .recvtime) ((r.2.setPend .recvtime).setState s.currpid .rectim) p :=
      block_mail .rectim hcurr
    refine MailSame.kept (((hsame.trans (.setPend _ .recvtime nofun)).trans hblock).moves hmv nofun) rfl
      (fun ht => ?_) hm
    have hpend : s'.pend s.currpid = .recvtime := by
      rw [hmv.pend, ← hc]
      exact Function.update_self ..
    exact absurd (hpend.symm.trans ht.1) nofun

/-- `receive` takes the message that is there, or waits for one. -/
theorem Sys.Received.kept (h : Received s s') (hi : Idle s) (hm : MailOk s p sent taken) :
    MailKept s (.call .receive) s' p sent taken := by
  cases h with
  | ended hmsg =>
    refine .of_taken (by rw [show s.receiveEnd.state p = s.state p from takeMessage_state s _]; exact id)
      rfl ?_
    have htakes : takes s s.receiveEnd (.call .receive) := Function.update_self ..
    rw [if_congr (and_iff_left htakes) rfl rfl]
    exact receiveEnd_mail hm fun hp => by rw [hp, hmsg]
  | blocked hmsg hmv =>
    obtain ⟨hlive, hpend, hok⟩ := receive_mail (p := p) hi hmv
    refine .of_taken hlive rfl ?_
    have htakes : ¬ takes s s' (.call .receive) := fun ht => by
      rw [show s'.pend s.currpid = .user from ht] at hpend
      cases hpend
    rw [if_neg fun hc => htakes hc.2]
    exact hok hm

/-- `send` leaves the message with its process, if it answers `OK`. -/
theorem Sys.SentCall.kept {pid : ℤ} {msg : ℕ} (h : SentCall s pid msg s')
    (hi : Idle s) (hm : MailOk s p sent taken) :
    MailKept s (.call (.send pid msg)) s' p sent taken := by
  have hret : MailSame s (s.ret OK) p := .ret s OK
  have hok : (s.ret OK).sendOk pid msg = s.sendOk pid msg := by
    rw [Bool.eq_iff_iff, sendOk_iff (hi.ret OK).toRunning, sendOk_iff hi.toRunning]
    rfl
  unfold MailKept sentThen takenThen
  cases h with
  | refused h =>
    have hno : s.sendOk pid msg ≠ true := by
      rw [ne_eq, sendOk_iff hi.toRunning]
      rintro ⟨h₁, h₂⟩
      rw [h₂] at h
      exact h.elim h₁ nofun
    have hsame : MailSame s ((s.ret OK).ret SYSERR) p := hret.trans (.ret _ SYSERR)
    rw [if_neg fun hc => hc.2 (hsame.free hc.1), if_neg fun hc => hc.2 (hsame.free hc.1)]
    dsimp only [Sys.sends]
    rw [if_neg fun hc => hno hc.2, if_neg fun hc => hc.2]
    exact hsame.ok hm
  | sent h =>
    have hfree := (h.live (hi.ret OK).toRunning (p := p)).mpr
    rw [if_neg fun hc => hc.2 (hfree hc.1), if_neg fun hc => hc.2 (hfree hc.1)]
    have htakes : ¬ (p = s.currpid ∧ takes s s' (.call (.send pid msg))) := fun hc => hc.2
    rw [if_neg htakes]
    dsimp only [Sys.sends]
    rw [← hok]
    exact h.mail (hi.ret OK).toRunning (hret.ok hm)

/-- The end of `receive` takes the message that has come. -/
theorem receiveEnd_kept (hi : Idle s) (hp : s.pend s.currpid = .receive) (hm : MailOk s p sent taken) :
    MailKept s .cont s.receiveEnd p sent taken := by
  refine .of_taken (by rw [show s.receiveEnd.state p = s.state p from takeMessage_state s _]; exact id) rfl ?_
  have htakes : takes s s.receiveEnd .cont := .inl hp
  rw [if_congr (and_iff_left htakes) rfl rfl]
  refine receiveEnd_mail hm fun hpc => ?_
  -- The process is running, so it does not wait for a message any more.
  have hrecv := hm.receive (by rw [hpc, hp])
  rw [hpc, hi.curr] at hrecv
  rw [hpc]
  exact (hrecv.resolve_left nofun).resolve_left nofun

/-- The end of `recvtime` takes the message, if one has come. -/
theorem recvtimeEnd_kept (hp : s.pend s.currpid = .recvtime) (hm : MailOk s p sent taken) :
    MailKept s .cont s.recvtimeEnd p sent taken := by
  refine .of_taken (by rw [recvtimeEnd_state]; exact id) rfl ?_
  have htakes : takes s s.recvtimeEnd .cont ↔ s.recvtimeEnd.result s.currpid ≠ TIMEOUT := by
    unfold takes
    rw [hp]
    simp
  rw [if_congr (and_congr_right fun _ => htakes) rfl rfl]
  exact recvtimeEnd_mail hm

/-- The end of another call takes nothing. -/
theorem not_takes_cont {q : Pend} (hp : s.pend s.currpid = q)
    (hreceive : q ≠ .receive) (hrecvtime : q ≠ .recvtime) :
    ¬ takes s s' .cont := by
  rintro (h | h)
  · exact hreceive (hp.symm.trans h)
  · exact hrecvtime (hp.symm.trans h.1)

/-- A step of a plain run keeps what holds of the mailboxes. -/
theorem mail_step {k k' : Kernel} {e : Event} {m : Mail} (h : PlainStep k e k')
    (hm : MailOk k.sys p (m.sent p) (m.taken p)) :
    MailOk k'.sys p ((m.note k e k').sent p) ((m.note k e k').taken p) := by
  have hi := h.inv.idle
  have he := h.effect
  have hen : ∀ c, e = .call c → k.sys.pend k.sys.currpid = .user := by
    rintro c rfl
    exact h.enabled.1
  change MailKept k.sys e k'.sys p (m.sent p) (m.taken p)
  generalize k.sys = s at *
  generalize k'.sys = s' at *
  -- One lemma for each thing that a step does; only those about messages change what is noted.
  cases he with
  | create => exact create_kept s _ _ hm
  | chprio => exact (chprio_mail s _ _).kept rfl id hm
  | yield hmv => exact ((MailSame.ret s OK).moves hmv nofun).kept rfl id hm
  | semcreate => exact (semcreate_mail s _).kept rfl id hm
  | wait h => exact (h.mail hi).kept rfl id hm
  | signal h => exact (h.mail hi).kept rfl id hm
  | signaln h => exact (h.mail hi).kept rfl id hm
  | semreset h => exact (h.mail hi).kept rfl id hm
  | semdelete h => exact (h.mail hi).kept rfl id hm
  | recvclr => exact .of_taken (by rw [recvclr_state]; exact id) rfl (recvclr_mail hm (hen _ rfl))
  | resume h => exact h.mail.kept rfl id hm
  | suspend h => exact (h.mail hi).kept rfl id hm
  | kill h => exact h.kept hi hm
  | sleepms h => exact (h.mail hi).kept rfl id hm
  | recvtime h => exact h.kept hi hm
  | receive h => exact h.kept hi hm
  | send h => exact h.kept hi hm
  | tick h => exact (tick_mail hi h).kept rfl id hm
  | user hp => exact MailSame.kept (.of_tables rfl rfl) rfl (not_takes_cont hp nofun nofun) hm
  | @suspendEnd pid hp =>
    have hret : MailSame s (s.ret (s.proctab pid).prprio.toInt) p := .ret s _
    exact (hret.trans (.setPend _ .user nofun)).kept rfl (not_takes_cont hp nofun nofun) hm
  | receiveEnd hp => exact receiveEnd_kept hi hp hm
  | recvtimeEnd hp => exact recvtimeEnd_kept hp hm
  | killEnd hp h =>
    exact (h.mail hi (hi.states.kill_pid _ _ hp).1).kept rfl (not_takes_cont hp nofun nofun) hm
  | tickEnd hp hmv =>
    exact ((MailSame.setPend s .user nofun).moves hmv nofun).kept rfl (not_takes_cont hp nofun nofun) hm

/-! ## Runs -/

/-- At boot no process has a message. -/
theorem sysinit_mail (b : Boot) : MailOk (sysinit b).sys p [] [] := by
  refine ⟨?_, fun hp => ?_⟩
  · have hnone : ((sysinit b).sys.proctab p).prhasmsg = false := by
      obtain ⟨t, u, he, -, -⟩ := sysinit_eq b
      rw [he, setProc_apply]
      have hnull : (b.sys.initNull.proctab p).prhasmsg = false := by
        unfold initNull
        dsimp only
        rw [setProc_apply]
        split_ifs <;> rfl
      split_ifs with hp
      · rw [← hp]
        exact hnull
      · exact hnull
    unfold Sys.unread
    rw [hnone]
    rfl
  · rw [(sysinit_vars b).2.2.2.1] at hp
    cases hp

/-- A state of such a run can be reached by a plain run. -/
theorem MailRun.plain {k : Kernel} {m : Mail} (h : MailRun k m) : k.PlainReach := Kernel.Noted.reach h

/-- Every run keeps what holds of the mailboxes. -/
theorem mail_inv {k : Kernel} {m : Mail} (h : MailRun k m) (p : ℤ) :
    MailOk k.sys p (m.sent p) (m.taken p) := by
  induction h with
  | boot b hz => exact sysinit_mail b
  | step hk ha hs ih => exact mail_step (plain_step (MailRun.plain hk) ha hs) ih

/-- A step that takes a message sends none. -/
theorem takes_sends {e : Event} (h : takes s s' e) : s.sends e = none := by
  unfold takes at h
  split at h
  · rfl
  · rfl
  · rfl
  · rfl
  · exact h.elim

/-- `send` changes the answer of no call. -/
theorem Sys.Sent.result {pid : ℤ} {msg : ℕ} {st : Status} (h : Sent s pid msg (st, s')) (hi : Running s) :
    s'.result = s.result := by
  cases h with
  | refused h => rfl
  | left hbad hnone h₁ h₂ => rfl
  | recv hbad hnone hst hs => exact hs.result
  | rectim hbad hnone hst hs =>
    have hhome : (s.deliver pid msg).home pid = some (s.deliver pid msg).sleepq :=
      home_asleep (pid_of_not_bad hbad).1 (.inr ((s.deliver_state pid msg pid).trans hst))
    obtain ⟨t, ht⟩ := (unsleep_contents (hi.deliver pid msg) hhome).tables
    rw [hs.result, ht]
    rfl

/-- The answer of a system call `send` is `OK` when the message has been left. -/
theorem sendCall_result {pid : ℤ} {msg : ℕ} (hi : Idle s) (h : SentCall s pid msg s') :
    s'.result s.currpid = OK ↔ s.sendOk pid msg = true := by
  have hr := (hi.ret OK).toRunning
  have hok : (s.ret OK).sendOk pid msg = s.sendOk pid msg := by
    rw [Bool.eq_iff_iff, sendOk_iff hr, sendOk_iff hi.toRunning]
    rfl
  cases h with
  | refused h =>
    refine iff_of_false ?_ ?_
    · rw [show ((s.ret OK).ret SYSERR).result s.currpid = SYSERR from Function.update_self ..]
      decide
    · rw [sendOk_iff hi.toRunning]
      rintro ⟨h₁, h₂⟩
      rw [h₂] at h
      exact h.elim h₁ nofun
  | sent h =>
    refine iff_of_true ?_ ?_
    · rw [h.result hr]
      exact Function.update_self ..
    · rw [← hok]
      exact (h.sendOk hr).mpr rfl

/-- A message for a process that has one already is refused. -/
theorem sendCall_full {pid : ℤ} {msg : ℕ} (hi : Idle s) (h : SentCall s pid msg s')
    (hmsg : (s.proctab pid).prhasmsg = true) : s' = s.ret SYSERR := by
  have hr := (hi.ret OK).toRunning
  cases h with
  | refused h =>
    unfold Sys.ret
    dsimp only
    rw [Function.update_idem]
  | sent h =>
    have hok := (sendOk_iff hr).mp ((h.sendOk hr).mpr rfl)
    exact absurd (hmsg.symm.trans hok.2) nofun

/-- A message that a step takes was in the mailbox, and is not any more. -/
theorem takes_unread {k k' : Kernel} {e : Event} {m : Mail} (hs : PlainStep k e k')
    (hm : ∀ p, MailOk k.sys p (m.sent p) (m.taken p)) (ht : takes k.sys k'.sys e) :
    k.sys.unread k.sys.currpid = [k'.sys.result k.sys.currpid] ∧ k'.sys.unread k.sys.currpid = [] := by
  have hlive := hs.inv.idle.curr_live
  have hsplit := (mail_step hs (hm k.sys.currpid)).split
  -- Nothing has been sent in this step, so both sides list the same messages.
  unfold Mail.note at hsplit
  dsimp only at hsplit
  rw [if_neg fun hc => hlive hc.1, if_neg fun hc => hlive hc.1, takes_sends ht, if_pos ⟨rfl, ht⟩,
    (hm k.sys.currpid).split, List.append_assoc, List.append_cancel_left_eq] at hsplit
  have hlen := congrArg List.length hsplit
  have hone : (k.sys.unread k.sys.currpid).length ≤ 1 := by
    unfold Sys.unread
    split_ifs <;> simp
  rw [List.length_append, List.length_singleton] at hlen
  have hnil : k'.sys.unread k.sys.currpid = [] := List.length_eq_zero_iff.mp (by omega)
  rw [hnil, List.append_nil] at hsplit
  exact ⟨hsplit, hnil⟩

/-- **Mailboxes hold one message.** What a process has been sent is what it has received, in the
same order, and behind that the message in its mailbox. A step that receives takes the message that
is there, and a message for a process that has one already is refused and changes nothing. -/
theorem mailboxes_ok {k : Kernel} {m : Mail} (h : MailRun k m) :
    (∀ p, m.sent p = m.taken p ++ k.sys.unread p) ∧
      ∀ e k', e.Plain → k.Step e k' →
        (takes k.sys k'.sys e → k.sys.unread k.sys.currpid = [k'.sys.result k.sys.currpid] ∧
          k'.sys.unread k.sys.currpid = []) ∧
        ∀ pid msg, e = .call (.send pid msg) →
          (k'.sys.result k.sys.currpid = OK ↔ k.sys.sendOk pid msg = true) ∧
          (k.sys.unread pid ≠ [] → k'.sys = k.sys.ret SYSERR) := by
  have hm := mail_inv h
  refine ⟨fun p => (hm p).split, fun e k' he hs => ?_⟩
  have hstep := plain_step h.plain he hs
  refine ⟨takes_unread hstep hm, ?_⟩
  rintro pid msg rfl
  cases hstep.effect with
  | send hsent =>
    refine ⟨sendCall_result hstep.inv.idle hsent, fun hfull => sendCall_full hstep.inv.idle hsent ?_⟩
    by_contra hc
    exact hfull (if_neg hc)

/-- The null process sends a message to a new process, which receives it. -/
def mailEvents : List Event :=
  [.call (.create 1024 20), .call (.send 1 7), .call (.resume 1), .call .receive]

set_option maxRecDepth 100000 in
/-- A process has received the message that it was sent before it first ran. -/
theorem mailboxes_ok_receive : ∃ k m, MailRun k m ∧ k.sys.currpid = 1 ∧ k.sys.result 1 = 7 ∧
    ∀ p, m.sent p = m.taken p ++ k.sys.unread p := by
  have hruns : (sysinit clearedBoot).Runs (fun _ e => e.Plain) mailEvents := by decide +kernel
  have hcurr : ((sysinit clearedBoot).afterAll mailEvents).sys.currpid = 1 := by decide +kernel
  have hres : ((sysinit clearedBoot).afterAll mailEvents).sys.result 1 = 7 := by decide +kernel
  have hboot : MailRun (sysinit clearedBoot) ⟨fun _ => [], fun _ => []⟩ := .boot clearedBoot fun _ _ _ => rfl
  generalize sysinit clearedBoot = k at *
  obtain ⟨m, hm⟩ := Kernel.Noted.runs hboot hruns
  exact ⟨_, m, hm, hcurr, hres, (mailboxes_ok hm).1⟩

end

end Xinu
