import Xinu.Net.Icmp
import Xinu.Net.Udp

/-!
# The buffers of an endpoint table

Which buffers the rings of a table hold, as a list, and what a clean step does to it (`Held.step`):
a packet that is accepted brings its buffer, one that is handed out takes it away, and a release
takes all those of the ring.
-/

namespace Xinu

/-- The number of times that a value is in a list put together from parts, when one part changes. -/
theorem count_flatMap_range {α : Type} [BEq α] [LawfulBEq α]
    {n i : ℕ} {f g : ℕ → List α} (hi : i < n) (hf : ∀ j ≠ i, g j = f j) (a : α) :
    ((List.range n).flatMap g).count a + (f i).count a = ((List.range n).flatMap f).count a +
      (g i).count a := by
  induction n with
  | zero => exact absurd hi (Nat.not_lt_zero i)
  | succ n ih =>
    simp only [List.range_succ, List.flatMap_append, List.flatMap_singleton, List.count_append]
    by_cases hin : i = n
    · have hsame : (List.range n).flatMap g = (List.range n).flatMap f :=
        List.flatMap_congr fun j hj => hf j fun he => absurd (List.mem_range.mp hj) (by omega)
      rw [hsame, hin]
      omega
    · rw [hf n (Ne.symm hin)]
      have := ih (by omega)
      omega

variable {κ : Type} {P : Protocol κ}

/-- The packets that the ring of an entry holds. -/
def Slot.held (N : ℕ) (e : Slot κ) : List Netpacket := if e.state = .free then [] else e.packets N

/-- The buffers that the rings of a table hold. -/
def Endpoints.bufs (P : Protocol κ) (s : Endpoints κ) : List ℕ :=
  (List.range P.slots.toNat).flatMap fun i : ℕ => ((s.tab i).held P.qsiz).map Netpacket.buf

/-- The packets that the loop of a release takes out. -/
def Slot.drained (wrap : ℕ) : ℕ → Slot κ → List Netpacket
  | 0, _ => []
  | n + 1, e => (e.take wrap).1 :: drained wrap n (e.take wrap).2

/-- The packets that a step takes out of the rings: those that a receive or a release frees. -/
def Endpoints.leaving (P : Protocol κ) (s : Endpoints κ) : Outcome → List Netpacket
  | .delivered _ _ pkt _ _ => [pkt]
  | .released i => Slot.drained P.headWrap (s.tab i).count.toNat (s.tab i)
  | _ => []

/-- The packets that a step puts into the rings. -/
def Outcome.entering : Outcome → List Netpacket
  | .accepted _ pkt => [pkt]
  | _ => []

/-- A protocol uses the entries of its table: it accepts packets in entries that are in use,
registers in free ones, and releases those in use. -/
structure Protocol.Sane (P : Protocol κ) : Prop where
  /-- It accepts packets for entries in use. -/
  accepts : ∀ {tab pkt i}, P.accepts tab pkt = some i → (tab i).state ≠ .free
  /-- It registers in a free entry of the table. -/
  place : ∀ {tab key i}, P.place tab key = some i → (tab i).state = .free ∧ 0 ≤ i ∧ i < P.slots
  /-- It releases entries in use. -/
  releases : ∀ {st}, P.releases st = true → st ≠ .free

/-- The rings are in order, and only entries of the table are in use. -/
structure TabOk (P : Protocol κ) (s : Endpoints κ) : Prop where
  /-- The rings are in order, for some record of what was accepted. -/
  inOrder : ∃ g, InOrder P s g
  /-- An entry in use is one of the table. -/
  range : ∀ i, (s.tab i).state ≠ .free → 0 ≤ i ∧ i < P.slots

/-- The log of a table in which every ring has accepted just what it holds. -/
def Endpoints.canonical (P : Protocol κ) (s : Endpoints κ) : Log :=
  ⟨fun i => (s.tab i).state ≠ .free, fun i => (s.tab i).held P.qsiz, fun _ => []⟩

/-- A step takes place at an entry that is in use, or registers one that is free. -/
def Outcome.At (P : Protocol κ) (s : Endpoints κ) : Outcome → Prop
  | .accepted i _ | .delivered _ i _ _ _ => (s.tab i).state ≠ .free
  | .released i => (s.tab i).state ≠ .free ∧ (s.tab i).Wraps P (s.tab i).count.toNat
  | .registered i => (s.tab i).state = .free ∧ 0 ≤ i ∧ i < P.slots
  | _ => True

section

variable {s s' : Endpoints κ} {g : Log} {e : NetEvent κ} {o : Outcome} {N : ℕ}

/-- What is in the rings is what the log says. -/
theorem SlotOk.held {e : Slot κ} {r : Bool} {acc rec : List Netpacket} (h : SlotOk N e r acc rec) :
    (r = true → acc = rec ++ e.held N) ∧ (r = false → e.held N = []) := by
  refine ⟨fun hr => ?_, fun hr => if_pos (h.free.mpr hr)⟩
  have hst : e.state ≠ .free := fun hf => by
    rw [h.free.mp hf] at hr
    cases hr
  rw [Slot.held, if_neg hst]
  exact h.packets hr

/-- A table in order may forget what the rings have handed out. -/
theorem InOrder.canonical (h : InOrder P s g) : InOrder P s (s.canonical P) := by
  intro i
  have hi := h i
  refine ⟨hi.head_lt, hi.tail_lt, hi.tail, hi.count_nonneg, hi.count_le, List.nil_prefix, fun hr => ?_, ?_⟩
  · exact if_neg (of_decide_eq_true hr)
  · simp [Endpoints.canonical]

/-- The packets that come out of a ring that is emptied are those that it holds. -/
theorem SlotOk.drained {e : Slot κ} {acc rec : List Netpacket}
    {W n : ℕ} (h : SlotOk N e true acc rec) (hn : e.count = n)
    (hw : W = N ∨ (e.head + n < N ∧ e.head + n < W)) :
    Slot.drained W n e = Ring.window e.queue N e.head n := by
  induction n generalizing e rec with
  | zero => rfl
  | succ n ih =>
    obtain ⟨htake, hfst⟩ := h.take (by omega) (hw.imp_right fun hw => ⟨by omega, by omega⟩) rfl
    have hbump : (e.take W).2.head = (e.head + 1) % N := by
      change Ring.bump W e.head = _
      rcases hw with rfl | ⟨hlt, hlt'⟩
      · exact Ring.bump_eq h.head_lt
      · unfold Ring.bump
        rw [if_neg (by omega), Nat.mod_eq_of_lt (by omega)]
    have hrest := ih htake (by change e.count - 1 = n; omega) ?_
    · rw [Slot.drained, hrest, hbump, Ring.window_pop, Nat.mod_eq_of_lt h.head_lt, hfst]
      rfl
    · rw [hbump]
      rcases hw with hw | ⟨hlt, hlt'⟩
      · exact .inl hw
      · rw [Nat.mod_eq_of_lt (by omega)]
        exact .inr ⟨by omega, by omega⟩

/-- A packet is put into the ring of an entry in use. -/
theorem arrive_at (hP : P.Sane) {pkt : Netpacket} (ho : (s.arrive P pkt).2 = o) : o.At P s := by
  unfold Endpoints.arrive at ho
  cases ha : P.accepts s.tab pkt with
  | none =>
    rw [ha] at ho
    cases ho
    trivial
  | some i =>
    rw [ha] at ho
    dsimp only at ho
    split_ifs at ho <;> cases ho <;> exact hP.accepts ha

/-- An endpoint is registered in a free entry. -/
theorem register_at (hP : P.Sane) {q : ℤ} {key : κ} (ho : (s.register P q key).2 = o) : o.At P s := by
  unfold Endpoints.register at ho
  cases ha : P.place s.tab key with
  | none =>
    rw [ha] at ho
    cases ho
    trivial
  | some i =>
    rw [ha] at ho
    cases ho
    exact hP.place ha

/-- A packet is taken at once only from an entry in use. -/
theorem receive_at {q j len : ℤ} {timeout : ℕ} (ho : (s.receive P q j len timeout).2 = o) : o.At P s := by
  unfold Endpoints.receive at ho
  by_cases hbad : j < 0 ∨ j ≥ P.slots
  · rw [if_pos hbad] at ho
    cases ho
    trivial
  rw [if_neg hbad] at ho
  by_cases hused : (s.tab j).state ≠ .used
  · rw [if_pos hused] at ho
    cases ho
    trivial
  rw [if_neg hused] at ho
  by_cases hempty : (s.tab j).count = 0
  · rw [if_pos hempty] at ho
    by_cases htime : timeout % 2 ^ 32 ≥ 2 ^ 31
    · rw [if_pos htime] at ho
      cases ho
      trivial
    · rw [if_neg htime] at ho
      cases ho
      trivial
  · rw [if_neg hempty] at ho
    cases ho
    change (s.tab j).state ≠ .free
    simp [not_not.mp hused]

/-- An entry in use is released. -/
theorem release_at (hP : P.Sane) {q j : ℤ} (hc : (s.tab j).Wraps P (s.tab j).count.toNat)
    (ho : (s.release P q j).2 = o) : o.At P s := by
  unfold Endpoints.release at ho
  by_cases hbad : j < 0 ∨ j ≥ P.slots
  · rw [if_pos hbad] at ho
    cases ho
    trivial
  rw [if_neg hbad] at ho
  by_cases hrel : ¬ P.releases (s.tab j).state
  · rw [if_pos hrel] at ho
    cases ho
    trivial
  · rw [if_neg hrel] at ho
    cases ho
    exact ⟨hP.releases (not_not.mp hrel), hc⟩

/-- A receiver that runs again only takes a packet, from the entry that it waited for. -/
theorem wake_at {q j len : ℤ} (hc : (s.tab j).state ≠ .free)
    (ho : (s.wake P q j len).2 = o) : o.At P s := by
  cases o with
  | delivered p i pkt n data =>
    obtain ⟨rfl, -⟩ := Endpoints.wake_delivered ho
    exact hc
  | quiet | answered | freed => trivial
  | registered | accepted | released =>
    unfold Endpoints.wake at ho
    dsimp only at ho
    split_ifs at ho
    cases ho

/-- A clean step takes place at an entry in use. -/
theorem exec_at (hP : P.Sane) (hc : e.Clean P s) (hs : s.exec P e = some (s', o)) : o.At P s := by
  cases e with
  | arrive pkt => exact arrive_at hP (Prod.mk.inj (Option.some.inj hs)).2
  | register q key =>
    obtain ⟨-, hs⟩ := Option.ite_none_right_eq_some.mp hs
    exact register_at hP (Prod.mk.inj (Option.some.inj hs)).2
  | receive q j len timeout =>
    obtain ⟨-, hs⟩ := Option.ite_none_right_eq_some.mp hs
    exact receive_at (Prod.mk.inj (Option.some.inj hs)).2
  | release q j =>
    obtain ⟨-, hs⟩ := Option.ite_none_right_eq_some.mp hs
    exact release_at hP hc (Prod.mk.inj (Option.some.inj hs)).2
  | send pid msg =>
    cases (Prod.mk.inj (Option.some.inj hs)).2
    trivial
  | timeout q =>
    obtain ⟨-, hs⟩ := Option.ite_none_right_eq_some.mp hs
    cases (Prod.mk.inj (Option.some.inj hs)).2
    trivial
  | wake q =>
    unfold Endpoints.exec at hs
    cases hin : s.inside q with
    | none => simp [hin] at hs
    | some r =>
      obtain ⟨j, len'⟩ := r
      simp only [hin] at hs
      obtain ⟨-, hs⟩ := Option.ite_none_left_eq_some.mp hs
      exact wake_at (hc _ _ hin).1 (Prod.mk.inj (Option.some.inj hs)).2

/-- Only an arrival puts a packet into a ring. -/
theorem entering_eq (he : ∀ pkt, e ≠ .arrive pkt) (hs : s.exec P e = some (s', o)) : o.entering = [] := by
  cases o with
  | quiet | answered | registered | freed | delivered | released => rfl
  | accepted i pkt =>
    -- no other step shows an arrival
    exfalso
    cases e with
    | arrive pkt => exact he pkt rfl
    | register q key =>
      obtain ⟨-, hs⟩ := Option.ite_none_right_eq_some.mp hs
      have ho : (s.register P q key).2 = .accepted i pkt := (Prod.mk.inj (Option.some.inj hs)).2
      unfold Endpoints.register at ho
      cases ha : P.place s.tab key with
      | none => simp [ha] at ho
      | some k => simp [ha] at ho
    | receive q j len timeout =>
      obtain ⟨-, hs⟩ := Option.ite_none_right_eq_some.mp hs
      have ho : (s.receive P q j len timeout).2 = .accepted i pkt := (Prod.mk.inj (Option.some.inj hs)).2
      unfold Endpoints.receive at ho
      split_ifs at ho
      cases ho
    | release q j =>
      obtain ⟨-, hs⟩ := Option.ite_none_right_eq_some.mp hs
      have ho : (s.release P q j).2 = .accepted i pkt := (Prod.mk.inj (Option.some.inj hs)).2
      unfold Endpoints.release at ho
      dsimp only at ho
      split_ifs at ho
    | send pid msg => cases (Prod.mk.inj (Option.some.inj hs)).2
    | timeout q =>
      obtain ⟨-, hs⟩ := Option.ite_none_right_eq_some.mp hs
      cases (Prod.mk.inj (Option.some.inj hs)).2
    | wake q =>
      unfold Endpoints.exec at hs
      cases hin : s.inside q with
      | none => simp [hin] at hs
      | some r =>
        obtain ⟨j, len⟩ := r
        simp only [hin] at hs
        obtain ⟨-, hs⟩ := Option.ite_none_left_eq_some.mp hs
        have ho : (s.wake P q j len).2 = .accepted i pkt := (Prod.mk.inj (Option.some.inj hs)).2
        unfold Endpoints.wake at ho
        dsimp only at ho
        split_ifs at ho
        cases ho

/-- What the rings hold after a step at one entry, when the other entries are as before. -/
theorem count_bufs {i : ℤ} (hi : 0 ≤ i ∧ i < P.slots)
    (hj : ∀ j ≠ i, (s'.tab j).held P.qsiz = (s.tab j).held P.qsiz) (b : ℕ) :
    (s'.bufs P).count b + (((s.tab i).held P.qsiz).map Netpacket.buf).count b =
      (s.bufs P).count b + (((s'.tab i).held P.qsiz).map Netpacket.buf).count b := by
  obtain ⟨k, rfl⟩ : ∃ k : ℕ, i = k := ⟨i.toNat, (Int.toNat_of_nonneg hi.1).symm⟩
  have hk : k < P.slots.toNat := by omega
  refine count_flatMap_range (f := fun j : ℕ => ((s.tab j).held P.qsiz).map Netpacket.buf)
    (g := fun j : ℕ => ((s'.tab j).held P.qsiz).map Netpacket.buf) hk (fun j hne => ?_) b
  rw [hj j (by omega)]

/-- An entry to whose history nothing is added holds what it held, and is used only if it was. -/
theorem InOrder.entry_same {g' : Log} {i : ℤ} (hg : InOrder P s g) (hg' : InOrder P s' g')
    (hr : g'.registered i = g.registered i) (ha : g'.accepted i = g.accepted i)
    (hd : g'.received i = g.received i) :
    (s'.tab i).held P.qsiz = (s.tab i).held P.qsiz ∧
      ((s'.tab i).state ≠ .free → (s.tab i).state ≠ .free) := by
  constructor
  · obtain ⟨hheld, hnone⟩ := (hg i).held
    obtain ⟨hheld', hnone'⟩ := (hg' i).held
    cases hreg : g.registered i with
    | true =>
      have hsplit := hheld' (hr.trans hreg)
      rw [ha, hd] at hsplit
      exact (List.append_cancel_left ((hheld hreg).symm.trans hsplit)).symm
    | false => rw [hnone' (hr.trans hreg), hnone hreg]
  · rw [Ne, Ne, (hg i).free, (hg' i).free, hr]
    exact id

/-- A step at one entry of the table keeps what holds of the table. -/
theorem TabOk.of_entry {i : ℤ} (h : TabOk P s) (hg : InOrder P s' g) (hi : 0 ≤ i ∧ i < P.slots)
    (hother : ∀ j ≠ i, (s'.tab j).held P.qsiz = (s.tab j).held P.qsiz ∧
      ((s'.tab j).state ≠ .free → (s.tab j).state ≠ .free)) : TabOk P s' := by
  refine ⟨⟨_, hg⟩, fun j hj => ?_⟩
  by_cases hji : j = i
  · exact hji ▸ hi
  · exact h.range j ((hother j hji).2 hj)

/-- A clean step moves the buffers of the packets that enter and leave. -/
theorem TabOk.step (h : TabOk P s) (hP : P.Sane) (hc : e.Clean P s) (hs : s.exec P e = some (s', o)) :
    TabOk P s' ∧ ∀ b, (s'.bufs P).count b + ((s.leaving P o).map Netpacket.buf).count b =
      (s.bufs P).count b + (o.entering.map Netpacket.buf).count b := by
  obtain ⟨g, hg⟩ := h.inOrder
  have hcan := hg.canonical
  have hat := exec_at hP hc hs
  have hstep : InOrder P s' ((s.canonical P).note o) := hcan.step hc hs
  -- an entry that the step does not name stays as it is
  have hsame : ∀ i, ((s.canonical P).note o).registered i = (s.canonical P).registered i →
      ((s.canonical P).note o).accepted i = (s.canonical P).accepted i →
      ((s.canonical P).note o).received i = (s.canonical P).received i →
      (s'.tab i).held P.qsiz = (s.tab i).held P.qsiz ∧
        ((s'.tab i).state ≠ .free → (s.tab i).state ≠ .free) :=
    fun i hr ha hd => hcan.entry_same hstep hr ha hd
  have hquiet : ((s.canonical P).note o = s.canonical P) →
      TabOk P s' ∧ ∀ b, (s'.bufs P).count b = (s.bufs P).count b := by
    intro hn
    have hs := fun i => hsame i (by rw [hn]) (by rw [hn]) (by rw [hn])
    refine ⟨⟨⟨_, hstep⟩, fun i hi => h.range i ((hs i).2 hi)⟩, fun b => ?_⟩
    unfold Endpoints.bufs
    simp only [(hs _).1]
  cases o with
  | quiet => exact hquiet rfl
  | answered p v => exact hquiet rfl
  | freed pkt => exact hquiet rfl
  | registered i =>
    obtain ⟨hfree, hrange⟩ := hat
    have hother : ∀ j ≠ i, (s'.tab j).held P.qsiz = (s.tab j).held P.qsiz ∧
        ((s'.tab j).state ≠ .free → (s.tab j).state ≠ .free) :=
      fun j hj => hsame j (Function.update_of_ne hj _ _) (Function.update_of_ne hj _ _)
        (Function.update_of_ne hj _ _)
    -- the ring is empty before and after
    have hheld := (hstep i).held.1 (by simp [Log.note])
    simp only [Log.note, Function.update_self, List.nil_append] at hheld
    have hcount := count_bufs hrange fun j hj => (hother j hj).1
    rw [← hheld, Slot.held, if_pos hfree] at hcount
    exact ⟨h.of_entry hstep hrange hother, hcount⟩
  | accepted i pkt =>
    have hreg : (s.canonical P).registered i = true := decide_eq_true hat
    have hother : ∀ j ≠ i, (s'.tab j).held P.qsiz = (s.tab j).held P.qsiz ∧
        ((s'.tab j).state ≠ .free → (s.tab j).state ≠ .free) :=
      fun j hj => hsame j rfl (Function.update_of_ne hj _ _) rfl
    have hheld := (hstep i).held.1 hreg
    simp only [Log.note, Function.update_self] at hheld
    change (s.tab i).held P.qsiz ++ [pkt] = [] ++ (s'.tab i).held P.qsiz at hheld
    refine ⟨h.of_entry hstep (h.range i hat) hother, fun b => ?_⟩
    have hcount := count_bufs (h.range i hat) (fun j hj => (hother j hj).1) b
    rw [List.nil_append] at hheld
    rw [← hheld, List.map_append, List.count_append] at hcount
    simp only [Endpoints.leaving, Outcome.entering, List.map_nil, List.count_nil]
    simp only [List.map_cons, List.map_nil] at hcount ⊢
    omega
  | delivered p i pkt len data =>
    have hreg : (s.canonical P).registered i = true := decide_eq_true hat
    have hother : ∀ j ≠ i, (s'.tab j).held P.qsiz = (s.tab j).held P.qsiz ∧
        ((s'.tab j).state ≠ .free → (s.tab j).state ≠ .free) :=
      fun j hj => hsame j rfl rfl (Function.update_of_ne hj _ _)
    have hheld := (hstep i).held.1 hreg
    simp only [Log.note, Function.update_self] at hheld
    change (s.tab i).held P.qsiz = [] ++ [pkt] ++ (s'.tab i).held P.qsiz at hheld
    refine ⟨h.of_entry hstep (h.range i hat) hother, fun b => ?_⟩
    have hcount := count_bufs (h.range i hat) (fun j hj => (hother j hj).1) b
    rw [hheld, List.nil_append, List.map_append, List.count_append] at hcount
    simp only [Endpoints.leaving, Outcome.entering, List.map_nil, List.count_nil]
    omega
  | released i =>
    have hother : ∀ j ≠ i, (s'.tab j).held P.qsiz = (s.tab j).held P.qsiz ∧
        ((s'.tab j).state ≠ .free → (s.tab j).state ≠ .free) :=
      fun j hj => hsame j (Function.update_of_ne hj _ _) rfl rfl
    have hnone : (s'.tab i).held P.qsiz = [] := (hstep i).held.2 (by simp [Log.note])
    refine ⟨h.of_entry hstep (h.range i hat.1) hother, fun b => ?_⟩
    have hcount := count_bufs (h.range i hat.1) (fun j hj => (hother j hj).1) b
    -- all that the ring held is drained
    have hdrained : s.leaving P (.released i) = (s.tab i).held P.qsiz := by
      have hi := (hcan i)
      rw [show (s.canonical P).registered i = true from decide_eq_true hat.1] at hi
      have hpos := hi.count_nonneg
      rw [Endpoints.leaving, hi.drained (by omega) hat.2, Slot.held, if_neg hat.1]
      rfl
    rw [hdrained]
    rw [hnone] at hcount
    exact hcount

end

/-- The first entry that a loop finds. -/
theorem find_range {n : ℕ} {p : ℕ → Bool} {i : ℤ} (h : ((List.range n).find? p).map Int.ofNat = some i) :
    ∃ k : ℕ, i = k ∧ k < n ∧ p k = true := by
  obtain ⟨k, hk, rfl⟩ := Option.map_eq_some_iff.mp h
  exact ⟨k, rfl, List.mem_range.mp (List.mem_of_find?_eq_some hk), List.find?_some hk⟩

/-- UDP uses the entries of its table. -/
theorem udp_sane : udp.Sane where
  accepts h := by
    obtain ⟨k, rfl, -, hk⟩ := find_range h
    exact (of_decide_eq_true hk).1
  place h := by
    obtain ⟨-, h⟩ := Option.ite_none_left_eq_some.mp h
    obtain ⟨k, rfl, hlt, hk⟩ := find_range h
    exact ⟨of_decide_eq_true hk, Int.natCast_nonneg k, Int.ofNat_lt.mpr hlt⟩
  releases h := of_decide_eq_true h

/-- ICMP uses the entries of its table. -/
theorem icmp_sane (ipucast : ℕ) : (icmp ipucast).Sane where
  accepts {tab pkt i} h := by
    have h : icmpAccepts ipucast tab pkt = some i := h
    unfold icmpAccepts at h
    dsimp only at h
    split_ifs at h with h₁ h₂ h₃ h₄
    obtain rfl := Option.some.inj h
    exact h₃
  place h := by
    obtain ⟨-, h⟩ := Option.ite_none_left_eq_some.mp h
    obtain ⟨k, rfl, hlt, hk⟩ := find_range h
    exact ⟨of_decide_eq_true hk, Int.natCast_nonneg k, Int.ofNat_lt.mpr hlt⟩
  releases {st} h := by
    have h : st = .used := of_decide_eq_true h
    simp [h]

end Xinu
