import Xinu.Lib.Ring
import Xinu.Lib.Runs
import Xinu.Lib.Semaphore

/-!
# Terminal output

The output half of `device/tty`: `ttyputc`, `ttyhandle_out` and the echo queue. Interrupts are
disabled in all these functions, so that a process is interrupted only while it waits for `tyosem`.
A writer that has waited deposits its character when it runs again, and that may be much later than
the `signaln` that has woken it.
-/

namespace Xinu

/-- A `char`. -/
abbrev Ch := Int8

/-- `TY_OBUFLEN`. -/
abbrev TY_OBUFLEN : ℕ := 64

/-- `TY_EBUFLEN`. -/
abbrev TY_EBUFLEN : ℕ := 20

/-- `UART_FIFO_SIZE`. -/
abbrev UART_FIFO_SIZE : ℕ := 16

/-- `TY_NEWLINE`. -/
abbrev TY_NEWLINE : Ch := 10

/-- `TY_RETURN`. -/
abbrev TY_RETURN : Ch := 13

/-- The fields of `struct ttycblk` for the echo queue and for held output. -/
structure TtyEcho where
  /-- The next character that is echoed. -/
  tyehead : ℕ
  /-- Where the next character goes. -/
  tyetail : ℕ
  /-- The cells of the echo queue. -/
  tyebuff : ℕ → Ch
  /-- Whether output is held. -/
  tyoheld : Bool

/-- A process in `ttyputc` with the character that it deposits when it goes on, and those that come
behind it. -/
structure Writer where
  /-- The process. -/
  pid : ℤ
  /-- The character that it deposits when it goes on. -/
  ch : Ch
  /-- Those that come behind it. -/
  rest : List Ch
  deriving DecidableEq

/-- The fields of `struct ttycblk` for output, with what has been deposited in the output queue and
taken from it so far. -/
structure TtyOut extends TtyEcho where
  /-- The next character that is sent. -/
  tyohead : ℕ
  /-- Where the next character goes. -/
  tyotail : ℕ
  /-- The cells of the ring. -/
  tyobuff : ℕ → Ch
  /-- The semaphore that counts the free cells for writers. -/
  tyosem : Semaphore Writer
  /-- Whether a newline is sent with a carriage return. -/
  tyocrlf : Bool
  /-- The characters that have been deposited. -/
  deposited : List Ch
  /-- Those that have been taken from the queue. -/
  sent : List Ch

/-- `eputc(ch, typtr, csrptr)`. -/
def TtyEcho.eputc (s : TtyEcho) (ch : Ch) : TtyEcho :=
  { s with tyebuff := Function.update s.tyebuff s.tyetail ch, tyetail := Ring.bump TY_EBUFLEN s.tyetail }

namespace TtyOut

/-- The output part of `ttyinit`. -/
def ttyinit : TtyOut where
  tyehead := 0
  tyetail := 0
  tyebuff _ := 0
  tyoheld := false
  tyohead := 0
  tyotail := 0
  tyobuff _ := 0
  tyosem := .create TY_OBUFLEN
  tyocrlf := true
  deposited := []
  sent := []

/-- The part of `ttyputc` behind the `wait`. -/
def deposit (s : TtyOut) (ch : Ch) : TtyOut :=
  { s with
    tyobuff := Function.update s.tyobuff s.tyotail ch
    tyotail := Ring.bump TY_OBUFLEN s.tyotail
    deposited := s.deposited ++ [ch] }

/-- A process puts characters one after the other, until it has to wait. -/
def put (s : TtyOut) (pid : ℤ) : List Ch → TtyOut
  | [] => s
  | ch :: chs =>
    let waited := s.tyosem.wait ⟨pid, ch, chs⟩
    if waited.1 then put ({ s with tyosem := waited.2 }.deposit ch) pid chs else { s with tyosem := waited.2 }

/-- `ttyputc(devptr, ch)`: a newline has a carriage return before it. -/
def ttyputc (s : TtyOut) (pid : ℤ) (ch : Ch) : TtyOut :=
  s.put pid (if ch = TY_NEWLINE ∧ s.tyocrlf then [TY_RETURN, ch] else [ch])

/-- A writer that `signaln` has woken runs again. -/
def resume (s : TtyOut) (i : ℕ) : Option TtyOut :=
  (s.tyosem.resume i).map fun r => ({ s with tyosem := r.2 }.deposit r.1.ch).put r.1.pid r.1.rest

/-- The first loop of `ttyhandle_out`: characters of the echo queue go to the device. The second
component is the space left there. -/
def sendEcho (e : TtyEcho) : ℕ → TtyEcho × ℕ
  | 0 => (e, 0)
  | uspace + 1 =>
    if e.tyehead = e.tyetail then (e, uspace + 1)
    else sendEcho { e with tyehead := Ring.bump TY_EBUFLEN e.tyehead } uspace

/-- The second loop of `ttyhandle_out`: `ochars` characters of the output queue go to the device. -/
def sendOut (s : TtyOut) : ℕ → TtyOut
  | 0 => s
  | ochars + 1 =>
    sendOut { s with tyohead := Ring.bump TY_OBUFLEN s.tyohead, sent := s.sent ++ [s.tyobuff s.tyohead] }
      ochars

/-- The number of turns of the second loop, which ends when `uspace` or `avail` is zero. -/
def ochars (s : TtyOut) (uspace : ℕ) : ℕ := min uspace (TY_OBUFLEN - s.tyosem.count).toNat

/-- `ttyhandle_out(typtr, csrptr)`. -/
def ttyhandle_out (s : TtyOut) : TtyOut :=
  if s.tyoheld then s
  else if s.tyehead = s.tyetail ∧ s.tyosem.count ≥ TY_OBUFLEN then s
  else
    let echo := sendEcho s.toTtyEcho UART_FIFO_SIZE
    let ochars := s.ochars echo.2
    let sent := { s with toTtyEcho := echo.1 }.sendOut ochars
    if ochars > 0 then { sent with tyosem := sent.tyosem.signaln ochars } else sent

end TtyOut

/-- What can happen to the output half of a terminal. -/
inductive OutEvent where
  | ttyputc (pid : ℤ) (ch : Ch)
  /-- The `i`-th writer that has been woken runs. -/
  | resume (i : ℕ)
  | ttyhandle_out
  /-- The input half echoes a character, or holds the output. -/
  | eputc (ch : Ch)
  | hold (held : Bool)

/-- One step. -/
def TtyOut.exec (s : TtyOut) : OutEvent → Option TtyOut
  | .ttyputc pid ch => some (s.ttyputc pid ch)
  | .resume i => s.resume i
  | .ttyhandle_out => some s.ttyhandle_out
  | .eputc ch => some { s with toTtyEcho := s.toTtyEcho.eputc ch }
  | .hold held => some { s with tyoheld := held }

/-- A run from one state to another, with steps that meet a condition. -/
inductive OutRun (C : TtyOut → OutEvent → Prop) (s₀ : TtyOut) : TtyOut → Prop where
  | start : OutRun C s₀ s₀
  | step {s s' : TtyOut} {e : OutEvent} (hr : OutRun C s₀ s) (hC : C s e) (he : s.exec e = some s') :
    OutRun C s₀ s'

/-- The law of the output queue: what has been taken out is the first part of what has been
deposited, and the rest is in the cells from `tyohead` on, in order. Nothing is left there when the
count of free cells says so. -/
def InTransit (s : TtyOut) : Prop :=
  s.sent <+: s.deposited ∧ s.deposited.length - s.sent.length ≤ TY_OBUFLEN ∧
  Ring.window s.tyobuff TY_OBUFLEN s.tyohead (s.deposited.length - s.sent.length) =
    s.deposited.drop s.sent.length ∧
  (s.tyosem.count ≥ TY_OBUFLEN → s.sent = s.deposited)

/-- An output interrupt does not get ahead of the writers: when the output is not held and a woken
writer has not run yet, there are as many characters in the queue as the device has space for behind
the echo. -/
def NotAhead (s : TtyOut) : OutEvent → Prop
  | .ttyhandle_out => s.tyoheld ∨ s.tyosem.woken = [] ∨
      s.sent.length + (TtyOut.sendEcho s.toTtyEcho UART_FIFO_SIZE).2 ≤ s.deposited.length
  | _ => True

/-- The invariant of the queue: the cells from `tyohead` on hold the characters that have not been
taken, `tyotail` is the cell behind them, and each cell of the ring is in use or has an unused
permit. -/
structure OutputOk (s : TtyOut) : Prop where
  /-- The count of the semaphore agrees with its waiting writers. -/
  sem : s.tyosem.Ok
  /-- The head is a cell of the ring. -/
  head_lt : s.tyohead < TY_OBUFLEN
  /-- From head to tail are the characters deposited and not sent; the other cells have permits. -/
  transit : ∃ n : ℕ, s.tyosem.unused + n = TY_OBUFLEN ∧ s.tyotail = (s.tyohead + n) % TY_OBUFLEN ∧
    s.sent ++ Ring.window s.tyobuff TY_OBUFLEN s.tyohead n = s.deposited

/-- The output queue is empty at first. -/
theorem outputOk_ttyinit : OutputOk .ttyinit where
  sem := Semaphore.Ok.create (by decide)
  head_lt := by decide
  transit := ⟨0, by simp [TtyOut.ttyinit], by decide, rfl⟩

namespace OutputOk

variable {s s' : TtyOut} {n : ℕ}

/-- The echo leaves at most the space that there was. -/
theorem sendEcho_le (e : TtyEcho) (uspace : ℕ) : (TtyOut.sendEcho e uspace).2 ≤ uspace := by
  induction uspace generalizing e with
  | zero => exact le_rfl
  | succ uspace ih =>
    unfold TtyOut.sendEcho
    split_ifs
    · exact le_rfl
    · exact (ih _).trans (Nat.le_succ _)

/-- Characters that nobody has taken are the last ones of those deposited. -/
theorem drop_sent {l w d : List Ch} (h : l ++ w = d) :
    l <+: d ∧ d.length - l.length = w.length ∧ d.drop l.length = w := by
  subst h
  exact ⟨List.prefix_append l w, by simp, by simp⟩

/-- The invariant has the law of the queue in it. -/
theorem inTransit (h : OutputOk s) : InTransit s := by
  obtain ⟨n, hn, -, hd⟩ := h.transit
  obtain ⟨hp, hl, hdrop⟩ := drop_sent hd
  rw [Ring.length_window] at hl
  have hw := h.sem.woken_le
  refine ⟨hp, by omega, by rw [hl, hdrop], fun hc => ?_⟩
  have hu := h.sem.unused_eq
  have hle := hp.length_le
  exact hp.eq_of_length (by omega)

/-- A character with a permit goes into a cell that is not in use. -/
theorem deposit (h : OutputOk s) (ch : Ch) {sem : Semaphore Writer}
    (hs : sem.Ok) (hu : sem.unused = s.tyosem.unused - 1) :
    OutputOk ({ s with tyosem := sem }.deposit ch) := by
  obtain ⟨n, hn, ht, hd⟩ := h.transit
  have hpos := hs.woken_le
  refine ⟨hs, h.head_lt, n + 1, ?_, ?_, ?_⟩
  · simp only [TtyOut.deposit]
    rw [Int.natCast_succ]
    omega
  · simp only [TtyOut.deposit]
    rw [ht, Ring.bump_tail (by decide)]
  · simp only [TtyOut.deposit]
    rw [ht, Ring.window_push (by omega), ← List.append_assoc, hd]

/-- A process puts characters until it waits. -/
theorem put (h : OutputOk s) (pid : ℤ) (chs : List Ch) : OutputOk (s.put pid chs) := by
  induction chs generalizing s with
  | nil => exact h
  | cons ch chs ih =>
    have hs : (s.tyosem.wait ⟨pid, ch, chs⟩).2.Ok := h.sem.wait
    unfold TtyOut.put
    by_cases hgo : (s.tyosem.wait ⟨pid, ch, chs⟩).1 = true
    · rw [if_pos hgo]
      exact ih (h.deposit ch hs (Semaphore.unused_wait_go hgo))
    · rw [if_neg hgo]
      obtain ⟨n, hn, ht, hd⟩ := h.transit
      refine ⟨hs, h.head_lt, n, ?_, ht, hd⟩
      rw [← hn, Semaphore.unused_wait_block (Bool.eq_false_iff.mpr hgo)]

/-- A woken writer deposits its character, and goes on. -/
theorem resume (h : OutputOk s) {i : ℕ} (hr : s.resume i = some s') : OutputOk s' := by
  obtain ⟨⟨w, sem⟩, hw, rfl⟩ := Option.map_eq_some_iff.mp hr
  exact (h.deposit w.ch (h.sem.resume hw) (Semaphore.unused_resume hw)).put w.pid w.rest

/-- Characters that are in the queue are taken out one by one, and leave their permits to be given back. -/
theorem sendOut {k : ℕ} (hh : s.tyohead < TY_OBUFLEN) (ht : s.tyotail = (s.tyohead + n) % TY_OBUFLEN)
    (hd : s.sent ++ Ring.window s.tyobuff TY_OBUFLEN s.tyohead n = s.deposited) (hk : k ≤ n) :
    (s.sendOut k).tyohead < TY_OBUFLEN ∧ (s.sendOut k).tyotail =
      ((s.sendOut k).tyohead + (n - k)) % TY_OBUFLEN ∧
      (s.sendOut k).sent ++ Ring.window (s.sendOut k).tyobuff TY_OBUFLEN
        (s.sendOut k).tyohead (n - k) = (s.sendOut k).deposited ∧
      (s.sendOut k).tyosem = s.tyosem := by
  induction k generalizing s n with
  | zero => exact ⟨hh, ht, hd, rfl⟩
  | succ k ih =>
    obtain ⟨n, rfl⟩ : ∃ m, n = m + 1 := ⟨n - 1, by omega⟩
    rw [Ring.window_pop, Nat.mod_eq_of_lt hh] at hd
    have hb : Ring.bump TY_OBUFLEN s.tyohead = (s.tyohead + 1) % TY_OBUFLEN := Ring.bump_eq hh
    -- the state after one character
    obtain ⟨h₁, h₂, h₃, h₄⟩ := ih (n := n)
      (s := { s with tyohead := Ring.bump TY_OBUFLEN s.tyohead, sent := s.sent ++ [s.tyobuff s.tyohead] })
      (hb ▸ Nat.mod_lt _ (by decide))
      (by rw [hb, Nat.mod_add_mod, ht]; congr 1; omega)
      (by rw [hb, List.append_assoc, List.singleton_append, hd]) (by omega)
    rw [show n + 1 - (k + 1) = n - k by omega]
    exact ⟨h₁, h₂, h₃, h₄⟩

/-- An interrupt that is not ahead of the writers takes characters that are in the queue. -/
theorem ttyhandle_out (h : OutputOk s) (hC : NotAhead s .ttyhandle_out) : OutputOk s.ttyhandle_out := by
  unfold TtyOut.ttyhandle_out
  -- The interrupt does nothing: the output is held, or there is none.
  by_cases hheld : s.tyoheld = true
  · rw [if_pos hheld]
    exact h
  rw [if_neg hheld]
  by_cases hidle : s.tyehead = s.tyetail ∧ s.tyosem.count ≥ TY_OBUFLEN
  · rw [if_pos hidle]
    exact h
  rw [if_neg hidle]
  -- The characters deposited and not sent are in the queue.
  obtain ⟨n, hn, ht, hd⟩ := h.transit
  have hu := h.sem.unused_eq
  have hlen : s.sent.length + n = s.deposited.length := by rw [← hd, List.length_append, Ring.length_window]
  -- The echo is sent first, and takes its part of the room.
  have hfifo := sendEcho_le s.toTtyEcho UART_FIFO_SIZE
  have hk : s.ochars (TtyOut.sendEcho s.toTtyEcho UART_FIFO_SIZE).2 ≤ n := by
    unfold TtyOut.ochars
    rcases hC with hC | hC | hC
    · exact absurd hC hheld
    · -- without woken writers the queue is full, or the count shows its free cells
      rw [hC, List.length_nil] at hu
      have hN : TY_OBUFLEN = 64 := rfl
      have hF : UART_FIFO_SIZE = 16 := rfl
      omega
    · omega
  dsimp only
  generalize (TtyOut.sendEcho s.toTtyEcho UART_FIFO_SIZE).1 = echo at *
  generalize s.ochars (TtyOut.sendEcho s.toTtyEcho UART_FIFO_SIZE).2 = k at *
  obtain ⟨h₁, h₂, h₃, h₄⟩ := sendOut (s := { s with toTtyEcho := echo }) h.head_lt ht hd hk
  -- The cells that become free are signalled, or kept for later.
  split_ifs
  · refine ⟨?_, h₁, n - k, ?_, h₂, h₃⟩
    · dsimp only
      rw [h₄]
      exact h.sem.signaln
    · dsimp only
      rw [h₄, h.sem.unused_signaln]
      omega
  · refine ⟨?_, h₁, n - k, ?_, h₂, h₃⟩
    · rw [h₄]
      exact h.sem
    · rw [h₄]
      dsimp only
      omega

/-- Every step in which no writer overtakes another keeps the invariant. -/
theorem exec {e : OutEvent} (h : OutputOk s) (hC : NotAhead s e) (he : s.exec e = some s') : OutputOk s' := by
  cases e with
  | ttyputc pid ch =>
    cases he
    exact h.put pid _
  | resume i => exact h.resume he
  | ttyhandle_out =>
    cases he
    exact h.ttyhandle_out hC
  | eputc ch =>
    cases he
    exact ⟨h.sem, h.head_lt, h.transit⟩
  | hold held =>
    cases he
    exact ⟨h.sem, h.head_lt, h.transit⟩

end OutputOk

/-- Every run whose interrupts are not ahead of the writers keeps the invariant. -/
theorem OutRun.outputOk {s : TtyOut} (hr : OutRun NotAhead .ttyinit s) : OutputOk s := by
  induction hr with
  | start => exact outputOk_ttyinit
  | step _ hC he ih => exact ih.exec hC he

/-- In every run whose interrupts are not ahead of the writers, the characters taken from the output
queue are the first ones deposited, in order and each once, and those not yet taken are in the queue
unchanged. -/
theorem output_ok {s : TtyOut} (hr : OutRun NotAhead .ttyinit s) : InTransit s := hr.outputOk.inTransit

instance NotAhead.decidable (s : TtyOut) (e : OutEvent) : Decidable (NotAhead s e) := by
  cases e <;> unfold NotAhead <;> infer_instance

/-- A list of possible steps under a condition makes a run. -/
theorem OutRun.of_steps {C : TtyOut → OutEvent → Prop} [∀ s e, Decidable (C s e)]
    {s₀ s s' : TtyOut} {es : List OutEvent}
    (hr : OutRun C s₀ s) (he : Machine.steps TtyOut.exec C s es = some s') : OutRun C s₀ s' :=
  Machine.steps_induct (fun hr hC he => hr.step hC he) hr he

/-- A process fills the queue while the output is held, and another one waits. The first interrupt
wakes it, it deposits its character, and the other interrupts send what is there. -/
def twoWriters : List OutEvent :=
  .hold true :: List.replicate 64 (.ttyputc 1 65) ++
    [.ttyputc 2 66, .hold false, .ttyhandle_out, .resume 0] ++
    List.replicate 4 .ttyhandle_out

/-- The device gets the 64 characters of the first process, and the one of the second behind them. -/
theorem output_ok_two : ∃ s, InTransit s ∧ s.sent = List.replicate 64 65 ++ [66] := by
  have hsent : (Machine.steps TtyOut.exec NotAhead .ttyinit twoWriters).map (fun s => s.sent) =
      some (List.replicate 64 65 ++ [66]) := by decide +kernel
  obtain ⟨s, hs, hs'⟩ := Option.map_eq_some_iff.mp hsent
  exact ⟨s, output_ok (.of_steps .start hs), hs'⟩

/-- A process fills the queue, and another one waits. The device takes all characters before the
second process has run. -/
def overtaken : List OutEvent :=
  .hold true :: List.replicate 64 (.ttyputc 1 65) ++ [.ttyputc 2 66, .hold false] ++
    List.replicate 5 .ttyhandle_out

/-- The fifth interrupt sends a 65th character, which nobody has deposited. -/
theorem output_overtaken : ∃ s, OutRun (fun _ _ => True) .ttyinit s ∧
    s.deposited.length = 64 ∧ s.sent.length = 65 ∧ ¬ InTransit s := by
  have hlen : (Machine.steps TtyOut.exec (fun _ _ => True) .ttyinit overtaken).map
      (fun s => (s.deposited.length, s.sent.length)) = some (64, 65) := by
    decide +kernel
  obtain ⟨s, hs, hl⟩ := Option.map_eq_some_iff.mp hlen
  obtain ⟨hd, hsent⟩ := Prod.mk.inj hl
  refine ⟨s, .of_steps .start hs, hd, hsent, fun h => ?_⟩
  have hle := h.1.length_le
  omega

end Xinu
