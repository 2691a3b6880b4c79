import Xinu.Lib.Runs
import Xinu.Net.Endpoint

/-!
# The rings of the endpoints

`Log` writes down the packets that each entry has accepted and handed out since it was registered.
As long as no packet goes into a full ring, none comes out of an empty one and the index of the next
packet wraps where the ring does, the ring of each entry holds the packets that it has accepted and
not handed out, in their order (`SlotOk`). These are conditions on the state before a step
(`NetEvent.Clean`), and every clean step keeps the rings in order (`InOrder.step`).
-/

namespace Xinu

variable {κ : Type} {P : Protocol κ}

/-! ## The log -/

/-- For each entry, whether it is registered, and the packets it has accepted and handed out since then. -/
structure Log where
  /-- Whether the entry is registered. -/
  registered : ℤ → Bool
  /-- The packets that it has accepted since. -/
  accepted : ℤ → List Netpacket
  /-- Those that it has handed out. -/
  received : ℤ → List Netpacket

/-- Nothing has happened. -/
def Log.empty : Log := ⟨fun _ => false, fun _ => [], fun _ => []⟩

/-- What a step shows is written down. -/
def Log.note (g : Log) : Outcome → Log
  | .registered i =>
    { registered := Function.update g.registered i true, accepted := Function.update g.accepted i [],
      received := Function.update g.received i [] }
  | .accepted i pkt => { g with accepted := Function.update g.accepted i (g.accepted i ++ [pkt]) }
  | .delivered _ i pkt _ _ => { g with received := Function.update g.received i (g.received i ++ [pkt]) }
  | .released i => { g with registered := Function.update g.registered i false }
  | _ => g

/-- The packets in the ring of an entry, from the head on. -/
def Slot.packets (N : ℕ) (e : Slot κ) : List Netpacket := Ring.window e.queue N e.head e.count.toNat

/-- The ring of an entry is in order: the indices are valid, the count is that of the packets
between them, and these are the packets that were accepted and not handed out. -/
structure SlotOk (N : ℕ) (e : Slot κ) (registered : Bool) (accepted received : List Netpacket) : Prop where
  /-- The head is a cell of the ring. -/
  head_lt : e.head < N
  /-- The tail is a cell of the ring. -/
  tail_lt : e.tail < N
  /-- The tail is as far behind the head as there are packets. -/
  tail : e.tail = (e.head + e.count.toNat) % N
  /-- The count is not negative. -/
  count_nonneg : 0 ≤ e.count
  /-- It is not more than the ring holds. -/
  count_le : e.count ≤ N
  /-- Packets are handed out in the order in which they were accepted. -/
  prefix_accepted : received <+: accepted
  /-- Those in the ring are the accepted ones that have not been handed out. -/
  packets : registered = true → accepted = received ++ e.packets N
  /-- An entry is free exactly if it is not registered. -/
  free : e.state = .free ↔ registered = false

/-- The rings of all entries are in order. -/
def InOrder (P : Protocol κ) (s : Endpoints κ) (g : Log) : Prop :=
  ∀ i, SlotOk P.qsiz (s.tab i) (g.registered i) (g.accepted i) (g.received i)

/-! ## Clean steps -/

/-- The index of the next packet wraps in the right place while `k` packets come out. -/
def Slot.Wraps (P : Protocol κ) (e : Slot κ) (k : ℕ) : Prop :=
  P.headWrap = P.qsiz ∨ (e.head + k < P.qsiz ∧ e.head + k < P.headWrap)

/-- The condition on the state before a step: a packet that is accepted finds room, and what comes
out is there. -/
def NetEvent.Clean (P : Protocol κ) (s : Endpoints κ) : NetEvent κ → Prop
  | .arrive pkt => ∀ i, P.accepts s.tab pkt = some i → (s.tab i).count < P.qsiz
  | .receive _ i _ _ => (s.tab i).count ≠ 0 → (s.tab i).Wraps P 1
  | .release _ i => (s.tab i).Wraps P (s.tab i).count.toNat
  | .wake p => ∀ i len, s.inside p = some (i, len) → (s.tab i).state ≠ .free ∧
      (s.prmsg p = some (umsg OK) → (s.tab i).count ≠ 0 ∧ (s.tab i).Wraps P 1)
  | _ => True

/-! ## One ring -/

section

variable {N : ℕ} {e : Slot κ} {r : Bool} {acc rec : List Netpacket} {pkt : Netpacket}

/-- A packet goes into a ring that has room. -/
theorem SlotOk.put (h : SlotOk N e r acc rec) (hroom : e.count < N) :
    SlotOk N (e.put N pkt) r (acc ++ [pkt]) rec := by
  have hN : 0 < N := Nat.zero_lt_of_lt h.head_lt
  have hpos := h.count_nonneg
  have hcount : (e.count + 1).toNat = e.count.toNat + 1 := by omega
  have htail : Ring.bump N e.tail = (e.head + (e.count + 1).toNat) % N := by
    rw [h.tail, Ring.bump_tail hN, hcount]
  refine ⟨h.head_lt, ?_, htail, ?_, ?_, h.prefix_accepted.trans (List.prefix_append _ _),
    fun hr => ?_, h.free⟩
  · exact htail.trans_lt (Nat.mod_lt _ hN)
  · change 0 ≤ e.count + 1
    omega
  · change e.count + 1 ≤ N
    omega
  · change acc ++ [pkt] = rec ++ Ring.window (Function.update e.queue e.tail pkt) N e.head (e.count + 1).toNat
    rw [hcount, h.tail, Ring.window_push (by omega), ← List.append_assoc, h.packets hr]
    rfl

/-- The next packet comes out of a ring that is not empty. -/
theorem SlotOk.take {W : ℕ} (h : SlotOk N e r acc rec) (hc : e.count ≠ 0)
    (hw : W = N ∨ (e.head + 1 < N ∧ e.head + 1 < W)) (hr : r = true) :
    SlotOk N (e.take W).2 r acc (rec ++ [(e.take W).1]) ∧ (e.take W).1 = e.queue e.head := by
  have hN : 0 < N := Nat.zero_lt_of_lt h.head_lt
  have hpos := h.count_nonneg
  have hle := h.count_le
  have hcount : e.count.toNat = (e.count - 1).toNat + 1 := by omega
  have hbump : Ring.bump W e.head = (e.head + 1) % N := by
    rcases hw with rfl | ⟨hlt, hlt'⟩
    · exact Ring.bump_eq h.head_lt
    · unfold Ring.bump
      rw [if_neg (by omega), Nat.mod_eq_of_lt hlt]
  have hpackets := h.packets hr
  unfold Slot.packets at hpackets
  rw [hcount, Ring.window_pop, Nat.mod_eq_of_lt h.head_lt] at hpackets
  have hacc : acc = rec ++ [e.queue e.head] ++ (e.take W).2.packets N := by
    rw [hpackets, List.append_assoc]
    unfold Slot.take Slot.packets
    rw [hbump]
    rfl
  refine ⟨⟨?_, h.tail_lt, ?_, ?_, ?_, ?_, fun _ => hacc, h.free⟩, rfl⟩
  · exact hbump.trans_lt (Nat.mod_lt _ hN)
  · change e.tail = (Ring.bump W e.head + (e.count - 1).toNat) % N
    rw [h.tail, hbump, Nat.mod_add_mod, hcount, Nat.add_assoc, Nat.add_comm 1]
  · change 0 ≤ e.count - 1
    omega
  · change e.count - 1 ≤ N
    omega
  · exact ⟨_, hacc.symm⟩

/-- All packets come out of a ring: its indices stay valid, and it is empty. -/
theorem SlotOk.drain {W n : ℕ} (h : SlotOk N e r acc rec) (hn : e.count = n)
    (hw : W = N ∨ (e.head + n < N ∧ e.head + n < W)) :
    (Slot.drain W n e).head < N ∧ (Slot.drain W n e).tail = (Slot.drain W n e).head ∧
    (Slot.drain W n e).count = 0 := by
  have hN : 0 < N := Nat.zero_lt_of_lt h.head_lt
  have htail : e.tail = (e.head + n) % N := by rw [h.tail, hn, Int.toNat_natCast]
  have hhead := h.head_lt
  clear h
  induction n generalizing e with
  | zero => exact ⟨hhead, by rw [Slot.drain, htail, Nat.add_zero, Nat.mod_eq_of_lt hhead], hn⟩
  | succ n ih =>
    have hbump : Ring.bump W e.head = (e.head + 1) % N := by
      rcases hw with rfl | ⟨hlt, hlt'⟩
      · exact Ring.bump_eq hhead
      · unfold Ring.bump
        rw [if_neg (by omega), Nat.mod_eq_of_lt (by omega)]
    refine ih ?_ ?_ ?_ ?_
    · change e.count - 1 = n
      omega
    · change W = N ∨ (Ring.bump W e.head + n < N ∧ Ring.bump W e.head + n < W)
      rw [hbump]
      rcases hw with hw | ⟨hlt, hlt'⟩
      · exact .inl hw
      · rw [Nat.mod_eq_of_lt (by omega)]
        omega
    · change e.tail = (Ring.bump W e.head + n) % N
      rw [htail, hbump, Nat.mod_add_mod]
      congr 1
      omega
    · exact hbump.trans_lt (Nat.mod_lt _ hN)

/-- Another state of the same entry. -/
theorem SlotOk.setState (h : SlotOk N e r acc rec) {st : SlotState}
    (hst : st = .free ↔ e.state = .free) (p : ℤ) :
    SlotOk N { e with state := st, pid := p } r acc rec :=
  ⟨h.head_lt, h.tail_lt, h.tail, h.count_nonneg, h.count_le, h.prefix_accepted, h.packets, hst.trans h.free⟩

end

/-! ## Steps -/

section

variable {s s' : Endpoints κ} {g : Log} {o : Outcome} {i p : ℤ}

/-- One entry and its part of the log change. -/
theorem InOrder.set {e : Slot κ} {g' : Log} (h : InOrder P s g)
    (he : SlotOk P.qsiz e (g'.registered i) (g'.accepted i) (g'.received i))
    (hr : ∀ j ≠ i, g'.registered j = g.registered j) (ha : ∀ j ≠ i, g'.accepted j = g.accepted j)
    (hd : ∀ j ≠ i, g'.received j = g.received j) : InOrder P (s.setSlot i e) g' := by
  intro j
  by_cases hj : j = i
  · subst hj
    change SlotOk _ (Function.update s.tab j e j) _ _ _
    rw [Function.update_self]
    exact he
  · change SlotOk _ (Function.update s.tab i e j) _ _ _
    rw [Function.update_of_ne hj, hr j hj, ha j hj, hd j hj]
    exact h j

/-- The rings depend on the table alone. -/
theorem InOrder.of_tab (h : InOrder P s g) (ht : s'.tab = s.tab) : InOrder P s' g := fun i => ht ▸ h i

/-- A packet that arrives keeps the order, if its queue is not full beyond its size. -/
theorem InOrder.arrive {pkt : Netpacket} (h : InOrder P s g)
    (hc : ∀ i, P.accepts s.tab pkt = some i → (s.tab i).count < P.qsiz) :
    InOrder P (s.arrive P pkt).1 (g.note (s.arrive P pkt).2) := by
  unfold Endpoints.arrive
  cases ha : P.accepts s.tab pkt with
  | none => exact h
  | some i =>
    have hput : SlotOk P.qsiz ((s.tab i).put P.qsiz pkt) (g.registered i)
      (g.accepted i ++ [pkt]) (g.received i) := (h i).put (hc i ha)
    have hacc : Function.update g.accepted i (g.accepted i ++ [pkt]) i = g.accepted i ++ [pkt] :=
      Function.update_self ..
    have hother : ∀ j ≠ i, Function.update g.accepted i (g.accepted i ++ [pkt]) j = g.accepted j :=
      fun j hj => Function.update_of_ne hj _ _
    dsimp only
    split_ifs with hst
    · refine InOrder.of_tab (s := s.setSlot i { (s.tab i).put P.qsiz pkt with state := .used })
        (h.set ?_ (fun _ _ => rfl) hother fun _ _ => rfl) rfl
      change SlotOk _ _ _ (Function.update g.accepted i (g.accepted i ++ [pkt]) i) _
      rw [hacc]
      exact hput.setState (by simp [hst]) _
    · refine h.set ?_ (fun _ _ => rfl) hother fun _ _ => rfl
      change SlotOk _ _ _ (Function.update g.accepted i (g.accepted i ++ [pkt]) i) _
      rw [hacc]
      exact hput

/-- An address is registered: the ring is empty, and nothing has been accepted yet. -/
theorem InOrder.register {key : κ} (h : InOrder P s g) :
    InOrder P (s.register P p key).1 (g.note (s.register P p key).2) := by
  unfold Endpoints.register
  cases ha : P.place s.tab key with
  | none => exact h
  | some i =>
    have hN : 0 < P.qsiz := Nat.zero_lt_of_lt (h i).head_lt
    refine h.set ?_ (fun j hj => Function.update_of_ne hj _ _) (fun j hj => Function.update_of_ne hj _ _)
      fun j hj => Function.update_of_ne hj _ _
    simp only [Log.note, Function.update_self]
    exact ⟨hN, hN, (Nat.zero_mod _).symm, le_rfl, Int.natCast_nonneg _,
      List.prefix_refl _, fun _ => rfl, by simp⟩

/-- A packet that is handed out keeps the order, if its queue is not empty. -/
theorem InOrder.dequeue {len : ℤ} (h : InOrder P s g) (hst : (s.tab i).state ≠ .free)
    (hc : (s.tab i).count ≠ 0)
    (hw : (s.tab i).Wraps P 1) : InOrder P (s.dequeue P p i len).1 (g.note (s.dequeue P p i len).2) := by
  have hr : g.registered i = true := by
    have := (h i).free.not.mp hst
    simpa using this
  refine h.set ?_ (fun _ _ => rfl) (fun _ _ => rfl) fun j hj => Function.update_of_ne hj _ _
  simp only [Endpoints.dequeue, Log.note, Function.update_self]
  exact ((h i).take hc hw hr).1

/-- A receive that begins keeps the order, if it may take a packet. -/
theorem InOrder.receive {len : ℤ} {timeout : ℕ} (h : InOrder P s g)
    (hc : (s.tab i).count ≠ 0 → (s.tab i).Wraps P 1) :
    InOrder P (s.receive P p i len timeout).1 (g.note (s.receive P p i len timeout).2) := by
  unfold Endpoints.receive
  split_ifs with hbad hused hempty htime
  · exact h
  · exact h
  · have hst : (s.tab i).state = .used := by simpa using hused
    exact InOrder.of_tab (s := s.setSlot i { s.tab i with state := .used, pid := p })
      (h.set ((h i).setState (by simp [hst]) p) (fun _ _ => rfl) (fun _ _ => rfl) fun _ _ => rfl) rfl
  · have hst : (s.tab i).state = .used := by simpa using hused
    exact InOrder.of_tab (s := s.setSlot i { s.tab i with state := .recv, pid := p })
      (h.set ((h i).setState (by simp [hst]) p) (fun _ _ => rfl) (fun _ _ => rfl) fun _ _ => rfl) rfl
  · have hst : (s.tab i).state = .used := by simpa using hused
    exact h.dequeue (by simp [hst]) hempty (hc hempty)

/-- A receiver runs again, in an entry that is still registered. -/
theorem InOrder.wake {len : ℤ} (h : InOrder P s g) (hst : (s.tab i).state ≠ .free)
    (hc : s.prmsg p = some (umsg OK) → (s.tab i).count ≠ 0 ∧ (s.tab i).Wraps P 1) :
    InOrder P (s.wake P p i len).1 (g.note (s.wake P p i len).2) := by
  -- The entry is used again and nobody waits on it; its ring stays as it is.
  have hused : InOrder P { s.setSlot i { s.tab i with state := .used } with
      prmsg := Function.update s.prmsg p none, inside := Function.update s.inside p none } g :=
    InOrder.of_tab (s := s.setSlot i { s.tab i with state := .used })
      (h.set ((h i).setState (by simp [hst]) _) (fun _ _ => rfl) (fun _ _ => rfl) fun _ _ => rfl) rfl
  unfold Endpoints.wake
  dsimp only
  split_ifs with htime hok
  · exact hused
  · exact hused
  · -- the message says that a packet is there
    have hmsg : s.prmsg p = some (umsg OK) := by
      cases hm : s.prmsg p with
      | none => exact absurd (by rw [hm]; rfl) htime
      | some m =>
        rw [hm] at hok
        simpa using hok
    obtain ⟨hcount, hwrap⟩ := hc hmsg
    have htab : ∀ x, x = i → Function.update s.tab i { s.tab i with state := .used } x =
        { s.tab i with state := .used } :=
      fun x hx => hx ▸ Function.update_self ..
    -- So a packet is in the ring, and the receiver takes it.
    refine hused.dequeue ?_ ?_ ?_
    · change (Function.update s.tab i _ i).state ≠ _
      rw [htab i rfl]
      simp
    · change (Function.update s.tab i _ i).count ≠ _
      rw [htab i rfl]
      exact hcount
    · change (Function.update s.tab i _ i).Wraps P 1
      rw [htab i rfl]
      exact hwrap

/-- The release of an entry keeps the order, and disposes of the packets in its queue. -/
theorem InOrder.release (h : InOrder P s g) (hw : (s.tab i).Wraps P (s.tab i).count.toNat) :
    InOrder P (s.release P p i).1 (g.note (s.release P p i).2) := by
  unfold Endpoints.release
  split_ifs with hbad hrel
  · exact h
  · have hpos := (h i).count_nonneg
    obtain ⟨hhead, htail, hcount⟩ := (h i).drain (n := (s.tab i).count.toNat) (by omega) hw
    refine h.set ?_ (fun j hj => Function.update_of_ne hj _ _) (fun _ _ => rfl) fun _ _ => rfl
    simp only [Log.note, Function.update_self]
    refine ⟨hhead, htail.trans_lt hhead, ?_, hcount.ge, ?_, (h i).prefix_accepted, nofun, by simp⟩
    · change (Slot.drain _ _ _).tail = ((Slot.drain _ _ _).head + (Slot.drain _ _ _).count.toNat) % _
      rw [htail, hcount, Int.toNat_zero, Nat.add_zero, Nat.mod_eq_of_lt hhead]
    · change (Slot.drain _ _ _).count ≤ _
      rw [hcount]
      exact Int.natCast_nonneg _
  · exact h

/-- Every clean step keeps the rings in order. -/
theorem InOrder.step {e : NetEvent κ} (h : InOrder P s g)
    (hc : e.Clean P s) (hs : s.exec P e = some (s', o)) :
    InOrder P s' (g.note o) := by
  -- Every event is the operation of its name; the guard of the run has been passed.
  cases e with
  | arrive pkt =>
    obtain ⟨rfl, rfl⟩ := Prod.mk.inj (Option.some.inj hs)
    exact h.arrive hc
  | register p key =>
    obtain ⟨-, hs⟩ := Option.ite_none_right_eq_some.mp hs
    obtain ⟨rfl, rfl⟩ := Prod.mk.inj (Option.some.inj hs)
    exact h.register
  | receive p i len timeout =>
    obtain ⟨-, hs⟩ := Option.ite_none_right_eq_some.mp hs
    obtain ⟨rfl, rfl⟩ := Prod.mk.inj (Option.some.inj hs)
    exact h.receive hc
  | release p i =>
    obtain ⟨-, hs⟩ := Option.ite_none_right_eq_some.mp hs
    obtain ⟨rfl, rfl⟩ := Prod.mk.inj (Option.some.inj hs)
    exact h.release hc
  | send pid msg =>
    obtain ⟨rfl, rfl⟩ := Prod.mk.inj (Option.some.inj hs)
    exact h.of_tab rfl
  | timeout p =>
    obtain ⟨-, hs⟩ := Option.ite_none_right_eq_some.mp hs
    obtain ⟨rfl, rfl⟩ := Prod.mk.inj (Option.some.inj hs)
    exact h.of_tab rfl
  -- A receiver that was woken goes on in the entry it waits on.
  | wake p =>
    unfold Endpoints.exec at hs
    cases hin : s.inside p with
    | none => simp [hin] at hs
    | some r =>
      obtain ⟨i, len⟩ := r
      simp only [hin] at hs
      obtain ⟨-, hs⟩ := Option.ite_none_left_eq_some.mp hs
      obtain ⟨rfl, rfl⟩ := Prod.mk.inj (Option.some.inj hs)
      obtain ⟨hst, hok⟩ := hc i len hin
      exact h.wake hst hok

/-- A call of the receive function takes no packet out of an empty ring. -/
theorem Endpoints.receive_delivered {q j len n : ℤ} {timeout : ℕ} {pkt : Netpacket} {data : List ℕ}
    (ho : (s.receive P q j len timeout).2 = .delivered p i pkt n data) : (s.tab i).count ≠ 0 := by
  unfold Endpoints.receive at ho
  by_cases hbad : j < 0 ∨ j ≥ P.slots
  · rw [if_pos hbad] at ho
    cases ho
  rw [if_neg hbad] at ho
  by_cases hused : (s.tab j).state ≠ .used
  · rw [if_pos hused] at ho
    cases ho
  rw [if_neg hused] at ho
  by_cases hempty : (s.tab j).count = 0
  · rw [if_pos hempty] at ho
    by_cases htime : timeout % 2 ^ 32 ≥ 2 ^ 31
    · rw [if_pos htime] at ho
      cases ho
    · rw [if_neg htime] at ho
      cases ho
  · rw [if_neg hempty] at ho
    cases ho
    exact hempty

/-- A receiver that runs again takes a packet only with the message `OK`. -/
theorem Endpoints.wake_delivered {q j len n : ℤ} {pkt : Netpacket} {data : List ℕ}
    (ho : (s.wake P q j len).2 = .delivered p i pkt n data) : i = j ∧ s.prmsg q = some (umsg OK) := by
  unfold Endpoints.wake at ho
  dsimp only at ho
  by_cases htime : (s.prmsg q).getD (umsg TIMEOUT) = umsg TIMEOUT
  · rw [if_pos htime] at ho
    cases ho
  rw [if_neg htime] at ho
  by_cases hok : (s.prmsg q).getD (umsg TIMEOUT) ≠ umsg OK
  · rw [if_pos hok] at ho
    cases ho
  rw [if_neg hok] at ho
  cases ho
  refine ⟨rfl, ?_⟩
  cases hm : s.prmsg p with
  | none => exact absurd (by rw [hm]; rfl) htime
  | some m =>
    rw [hm] at hok
    exact congrArg some (not_not.mp hok)

/-- The release of an entry hands no packet to a process. -/
theorem Endpoints.release_delivered (s : Endpoints κ) (q j : ℤ) {pkt : Netpacket} {n : ℤ} {data : List ℕ} :
    (s.release P q j).2 ≠ .delivered p i pkt n data := by
  unfold Endpoints.release
  by_cases hbad : j < 0 ∨ j ≥ P.slots
  · rw [if_pos hbad]
    nofun
  rw [if_neg hbad]
  by_cases hrel : ¬ P.releases (s.tab j).state
  · rw [if_pos hrel]
    nofun
  · rw [if_neg hrel]
    nofun

/-- A packet is handed out of a ring that is not empty. -/
theorem delivered_from {e : NetEvent κ} {pkt : Netpacket} {len : ℤ} {data : List ℕ} (hc : e.Clean P s)
    (hs : s.exec P e = some (s', .delivered p i pkt len data)) : (s.tab i).count ≠ 0 := by
  -- Only two events hand a packet out: a receive that finds one, and a receiver that was woken.
  cases e with
  | arrive pkt =>
    have ho : (s.arrive P pkt).2 = _ := (Prod.mk.inj (Option.some.inj hs)).2
    unfold Endpoints.arrive at ho
    split at ho
    · cases ho
    · dsimp only at ho
      split at ho <;> cases ho
  | register q key =>
    obtain ⟨-, hs⟩ := Option.ite_none_right_eq_some.mp hs
    have ho : (s.register P q key).2 = _ := (Prod.mk.inj (Option.some.inj hs)).2
    unfold Endpoints.register at ho
    split at ho <;> cases ho
  | receive q j len' timeout =>
    obtain ⟨-, hs⟩ := Option.ite_none_right_eq_some.mp hs
    exact Endpoints.receive_delivered (Prod.mk.inj (Option.some.inj hs)).2
  | release q j =>
    obtain ⟨-, hs⟩ := Option.ite_none_right_eq_some.mp hs
    exact absurd (Prod.mk.inj (Option.some.inj hs)).2 (Endpoints.release_delivered s q j)
  | send pid msg => cases (Prod.mk.inj (Option.some.inj hs)).2
  | timeout q =>
    obtain ⟨-, hs⟩ := Option.ite_none_right_eq_some.mp hs
    cases (Prod.mk.inj (Option.some.inj hs)).2
  | wake q =>
    unfold Endpoints.exec at hs
    cases hin : s.inside q with
    | none => simp [hin] at hs
    | some r =>
      obtain ⟨j, len'⟩ := r
      simp only [hin] at hs
      obtain ⟨-, hs⟩ := Option.ite_none_left_eq_some.mp hs
      obtain ⟨rfl, hmsg⟩ := Endpoints.wake_delivered (Prod.mk.inj (Option.some.inj hs)).2
      exact ((hc _ len' hin).2 hmsg).1

/-! ## Runs -/

/-- The states that steps under a condition lead to, with what they show. -/
inductive EndpointRun (P : Protocol κ) (C : Endpoints κ → NetEvent κ → Prop) (s₀ : Endpoints κ) :
    Endpoints κ → Log → Prop
  | start : EndpointRun P C s₀ s₀ Log.empty
  | step {s s' g e o} (hr : EndpointRun P C s₀ s g) (hc : C s e) (hs : s.exec P e = some (s', o)) :
    EndpointRun P C s₀ s' (g.note o)

/-- The rings are in order in every clean run from a start where they are. -/
theorem EndpointRun.inOrder {C : Endpoints κ → NetEvent κ → Prop}
    {s₀ : Endpoints κ} (h₀ : InOrder P s₀ Log.empty)
    (hC : ∀ s e g, InOrder P s g → C s e → e.Clean P s) (hr : EndpointRun P C s₀ s g) : InOrder P s g := by
  induction hr with
  | start => exact h₀
  | step _ hc hs ih => exact ih.step (hC _ _ _ ih hc) hs

/-- A step, with what it shows in the log. -/
def Endpoints.execLog (P : Protocol κ) (r : Endpoints κ × Log) (e : NetEvent κ) :
    Option (Endpoints κ × Log) :=
  (r.1.exec P e).map fun x => (x.1, r.2.note x.2)

/-- A list of steps from a start with an empty log. -/
def Endpoints.steps (P : Protocol κ) (C : Endpoints κ → NetEvent κ → Prop)
    [∀ s e, Decidable (C s e)] (s₀ : Endpoints κ)
    (es : List (NetEvent κ)) : Option (Endpoints κ × Log) :=
  Machine.steps (Endpoints.execLog P) (fun r e => C r.1 e) (s₀, Log.empty) es

/-- A list of possible steps under a condition makes a run. -/
theorem EndpointRun.of_steps {C : Endpoints κ → NetEvent κ → Prop}
    [∀ s e, Decidable (C s e)] {s₀ : Endpoints κ}
    {es : List (NetEvent κ)} (he : s₀.steps P C es = some (s, g)) : EndpointRun P C s₀ s g := by
  refine Machine.steps_induct (P := fun r => EndpointRun P C s₀ r.1 r.2)
    (fun {r e r'} hr hC hs => ?_) .start he
  obtain ⟨x, hexec, rfl⟩ := Option.map_eq_some_iff.mp hs
  exact hr.step hC hexec

end

/-- A packet that no network has sent. -/
def noPacket : Netpacket := ⟨0, 0, 0, 0, 0, 0, 0, 0, []⟩

/-- A table that is initialised: every entry is free, and everything else is zero. -/
def Endpoints.cleared (key : κ) (prmsg : ℤ → Option ℕ) : Endpoints κ :=
  { tab := fun _ => ⟨.free, key, 0, 0, 0, 0, fun _ => noPacket⟩, prmsg := prmsg, asleep := fun _ => false,
    inside := fun _ => none }

/-- The rings are in order at the start. -/
theorem inOrder_cleared (hN : 0 < P.qsiz) (key : κ) (prmsg : ℤ → Option ℕ) :
    InOrder P (Endpoints.cleared key prmsg) Log.empty := fun _ =>
  ⟨hN, hN, (Nat.zero_mod _).symm, le_rfl, Int.natCast_nonneg _,
    List.prefix_refl _, nofun, by simp [Endpoints.cleared, Log.empty]⟩

end Xinu
