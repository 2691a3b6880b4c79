import Mathlib.Algebra.Order.Group.Int
import Mathlib.Data.List.Perm.Basic

/-!
# Counting semaphores

A semaphore whose count is negative while processes wait, first come first served. A process that a
signal has woken runs later, and the woken processes run in any order. `unused` counts the permits
that no process has used: a signal adds one, and a process uses one when it goes on, not when it is
woken.
-/

/-- A counting semaphore, and what is to be done by the processes that wait and by those that are
woken and have not run. -/
structure Semaphore (κ : Type*) where
  /-- The count: the permits that are left, or the number that wait, negated. -/
  count : ℤ
  /-- Those that wait, the first one first. -/
  waiting : List κ
  /-- Those that have been woken and have not run. -/
  woken : List κ

namespace Semaphore

variable {κ : Type*} {s : Semaphore κ} {k : κ} {i n : ℕ}

/-- A semaphore that nobody uses. -/
def create (n : ℤ) : Semaphore κ := ⟨n, [], []⟩

/-- A process that is to do `k` waits. It goes on if the first component is true. -/
def wait (s : Semaphore κ) (k : κ) : Bool × Semaphore κ :=
  if s.count - 1 < 0 then (false, { s with count := s.count - 1, waiting := s.waiting ++ [k] })
  else (true, { s with count := s.count - 1 })

/-- One signal: the count goes up, and the first process that waits is woken. -/
def signal (s : Semaphore κ) : Semaphore κ :=
  if s.count < 0 then ⟨s.count + 1, s.waiting.tail, s.woken ++ s.waiting.take 1⟩
    else { s with count := s.count + 1 }

/-- Several signals. -/
def signaln : ℕ → Semaphore κ → Semaphore κ
  | 0, s => s
  | n + 1, s => signaln n s.signal

/-- The `i`-th woken process runs. -/
def resume (s : Semaphore κ) (i : ℕ) : Option (κ × Semaphore κ) :=
  s.woken[i]?.map fun k => (k, { s with woken := s.woken.eraseIdx i })

/-- As many processes wait as the count is below zero. -/
def Ok (s : Semaphore κ) : Prop := s.waiting.length = (-s.count).toNat

/-- The permits that no process has used. -/
def unused (s : Semaphore κ) : ℤ := s.count + s.waiting.length + s.woken.length

/-- A semaphore that nobody uses is in order. -/
theorem Ok.create {m : ℤ} (hm : 0 ≤ m) : (create m : Semaphore κ).Ok := by
  simp only [Ok, Semaphore.create, List.length_nil]
  omega

/-- All permits of a new semaphore are unused. -/
@[simp] theorem unused_create (m : ℤ) : (create m : Semaphore κ).unused = m := by simp [unused, create]

/-- The unused permits are those of the woken processes and those that the count shows. -/
theorem Ok.unused_eq (h : s.Ok) : s.unused = max 0 s.count + s.woken.length := by
  unfold Ok at h
  unfold unused
  omega

/-- There are at least as many unused permits as processes that have been woken. -/
theorem Ok.woken_le (h : s.Ok) : (s.woken.length : ℤ) ≤ s.unused := by
  rw [h.unused_eq]
  omega

/-- The semaphore is in order after a `wait`. -/
theorem Ok.wait (h : s.Ok) : (s.wait k).2.Ok := by
  unfold Ok at h
  unfold Semaphore.wait
  split_ifs
  · simp only [Ok, List.length_append, List.length_singleton]
    omega
  · simp only [Ok]
    omega

/-- A process goes on if the count is positive. -/
theorem wait_go : (s.wait k).1 = true ↔ 0 < s.count := by
  unfold wait
  split_ifs <;> simp <;> omega

/-- Every `wait` takes one from the count. -/
@[simp] theorem count_wait : (s.wait k).2.count = s.count - 1 := by
  unfold wait
  split_ifs <;> rfl

/-- A process that goes on uses a permit. -/
theorem unused_wait_go (hk : (s.wait k).1 = true) : (s.wait k).2.unused = s.unused - 1 := by
  unfold wait at hk ⊢
  split_ifs at hk ⊢
  simp only [unused]
  omega

/-- A process that has to wait uses no permit. -/
theorem unused_wait_block (hk : (s.wait k).1 = false) : (s.wait k).2.unused = s.unused := by
  unfold wait at hk ⊢
  split_ifs at hk ⊢
  simp only [unused, List.length_append, List.length_singleton]
  omega

/-- A process that goes on has found a permit that no woken process needs. -/
theorem Ok.go (h : s.Ok) (hk : (s.wait k).1 = true) : (s.woken.length : ℤ) < s.unused := by
  rw [h.unused_eq]
  unfold Semaphore.wait at hk
  split_ifs at hk
  omega

/-- A process waits only if the woken processes need all permits. -/
theorem Ok.block (h : s.Ok) (hk : (s.wait k).1 = false) : s.unused = s.woken.length := by
  rw [h.unused_eq]
  unfold Semaphore.wait at hk
  split_ifs at hk
  omega

/-- The woken processes stay the same. -/
@[simp] theorem woken_wait : (s.wait k).2.woken = s.woken := by
  unfold wait
  split_ifs <;> rfl

/-- The processes that have not gone on since they waited: those that are woken, and those that wait. -/
def blocked (s : Semaphore κ) : List κ := s.woken ++ s.waiting

/-- Nobody has waited at a new semaphore. -/
@[simp] theorem blocked_create (m : ℤ) : (create m : Semaphore κ).blocked = [] := rfl

/-- A process that goes on has not been blocked. -/
theorem blocked_wait_go (hk : (s.wait k).1 = true) : (s.wait k).2.blocked = s.blocked := by
  unfold wait at hk ⊢
  split_ifs at hk ⊢
  rfl

/-- A process that waits is the last one of those blocked. -/
theorem blocked_wait_block (hk : (s.wait k).1 = false) : (s.wait k).2.blocked = s.blocked ++ [k] := by
  unfold wait at hk ⊢
  split_ifs at hk ⊢
  simp only [blocked, List.append_assoc]

/-- A signal does not make a process go on yet. -/
theorem Ok.blocked_signal (h : s.Ok) : s.signal.blocked = s.blocked := by
  unfold Ok at h
  unfold Semaphore.signal
  split_ifs
  · cases hw : s.waiting with
    | nil =>
      rw [hw, List.length_nil] at h
      omega
    | cons k ks => simp [blocked, hw]
  · rfl

/-- The semaphore is in order after a signal. -/
theorem Ok.signal (h : s.Ok) : s.signal.Ok := by
  unfold Ok at h
  unfold Semaphore.signal
  split_ifs
  · simp only [Ok, List.length_tail]
    omega
  · simp only [Ok]
    omega

/-- A signal adds one unused permit, whether a process is woken or not. -/
theorem Ok.unused_signal (h : s.Ok) : s.signal.unused = s.unused + 1 := by
  unfold Ok at h
  unfold Semaphore.signal
  split_ifs
  · simp only [unused, List.length_tail, List.length_append, List.length_take]
    omega
  · simp only [unused]
    omega

/-- The semaphore is in order after several signals. -/
theorem Ok.signaln (h : s.Ok) : (s.signaln n).Ok := by
  induction n generalizing s with
  | zero => exact h
  | succ n ih => exact ih h.signal

/-- Several signals add as many permits. -/
theorem Ok.unused_signaln (h : s.Ok) : (s.signaln n).unused = s.unused + n := by
  induction n generalizing s with
  | zero => simp [Semaphore.signaln]
  | succ n ih =>
    rw [Semaphore.signaln, ih h.signal, h.unused_signal]
    push_cast
    omega

/-- Several signals do not make a process go on yet. -/
theorem Ok.blocked_signaln (h : s.Ok) : (s.signaln n).blocked = s.blocked := by
  induction n generalizing s with
  | zero => rfl
  | succ n ih => rw [Semaphore.signaln, ih h.signal, h.blocked_signal]

/-- A woken process leaves the list of the woken ones. -/
theorem resume_eq {s' : Semaphore κ} (hr : s.resume i = some (k, s')) :
    k ∈ s.woken ∧ s' = { s with woken := s.woken.eraseIdx i } ∧ s'.woken.length + 1 = s.woken.length := by
  obtain ⟨k', hk, he⟩ := Option.map_eq_some_iff.mp hr
  obtain ⟨rfl, rfl⟩ := Prod.mk.inj he
  obtain ⟨hi, hk⟩ := List.getElem?_eq_some_iff.mp hk
  refine ⟨hk ▸ List.getElem_mem hi, rfl, ?_⟩
  rw [List.length_eraseIdx_of_lt hi]
  omega

/-- The semaphore is in order when a woken process runs. -/
theorem Ok.resume {s' : Semaphore κ} (h : s.Ok) (hr : s.resume i = some (k, s')) : s'.Ok := by
  rw [(resume_eq hr).2.1]
  exact h

/-- A woken process that runs uses its permit. -/
theorem unused_resume {s' : Semaphore κ} (hr : s.resume i = some (k, s')) : s'.unused = s.unused - 1 := by
  obtain ⟨-, he, hl⟩ := resume_eq hr
  have hc : s'.count = s.count := he ▸ rfl
  have hw : s'.waiting = s.waiting := he ▸ rfl
  simp only [unused, hc, hw]
  omega

/-- The process that runs is the one asked for. -/
theorem resume_get {s' : Semaphore κ} (hr : s.resume i = some (k, s')) : s.woken[i]? = some k := by
  obtain ⟨k', hk, he⟩ := Option.map_eq_some_iff.mp hr
  rw [hk, (Prod.mk.inj he).1]

/-- A woken process that runs is blocked no longer. -/
theorem blocked_resume {s' : Semaphore κ} (hr : s.resume i = some (k, s')) :
    s.blocked.Perm (k :: s'.blocked) := by
  obtain ⟨hi, hk⟩ := List.getElem?_eq_some_iff.mp (resume_get hr)
  rw [(resume_eq hr).2.1, ← hk]
  exact (List.getElem_cons_eraseIdx_perm hi).symm.append_right s.waiting

end Semaphore
