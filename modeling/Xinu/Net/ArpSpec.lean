import Xinu.Net.Arp

/-!
# The ARP cache in runs

A waiting process may trust its message (`ArpTrust`) if the entry that it points to is still the one
it has asked for. In every run in which this is so when a process stops waiting, the cache holds
what the network has said, at most once for each address, and an entry is pending only for a process
that waits for it (`ArpOk`).
-/

namespace Xinu

variable {s s' : Arp} {heard : List Arppacket} {c : ℕ → Arpentry} {i : ℕ} {p : ℤ}

/-! ## Searching -/

/-- The entry that is found is in use and has the address. -/
theorem arpFind_some {addr : ℕ} (h : arpFind c addr = some i) :
    i < ARP_SIZ ∧ (c i).arstate ≠ .free ∧ (c i).arpaddr = addr := by
  have hmatch := List.find?_some h
  simp only [decide_eq_true_eq] at hmatch
  exact ⟨List.mem_range.mp (List.mem_of_find?_eq_some h), hmatch⟩

/-- If none is found, no entry in use has the address. -/
theorem arpFind_none {addr : ℕ} (h : arpFind c addr = none)
    (hi : i < ARP_SIZ) (hused : (c i).arstate ≠ .free) :
    (c i).arpaddr ≠ addr := by
  have hno := List.find?_eq_none.mp h i (List.mem_range.mpr hi)
  simp only [decide_eq_true_eq] at hno
  exact fun haddr => hno ⟨hused, haddr⟩

/-- The entry that is allocated is not one that a process waits for. -/
theorem arp_alloc_some (h : arp_alloc c = some i) : i < ARP_SIZ ∧ (c i).arstate ≠ .pending := by
  rcases Option.or_eq_some_iff.mp h with hfree | ⟨-, hres⟩
  · have hst := List.find?_some hfree
    simp only [decide_eq_true_eq] at hst
    exact ⟨List.mem_range.mp (List.mem_of_find?_eq_some hfree), by simp [hst]⟩
  · have hst := List.find?_some hres
    simp only [decide_eq_true_eq] at hst
    exact ⟨List.mem_range.mp (List.mem_of_find?_eq_some hres), by simp [hst]⟩

/-! ## The invariant -/

/-- The network has said that the address is at this hardware address. -/
def Heard (heard : List Arppacket) (addr : ℕ) (mac : List ℕ) : Prop :=
  ∃ pkt ∈ heard, pkt.arp_sndpa = addr ∧ pkt.arp_sndha = mac

/-- What is true of an entry: a resolved one holds what was heard, and a process waits for a pending one. -/
structure EntryOk (inside : ℤ → Option ArpCall) (heard : List Arppacket) (i : ℕ) (e : Arpentry) : Prop where
  /-- The Ethernet address of a resolved entry has been heard for its IP address. -/
  resolved : e.arstate = .resolved → Heard heard e.arpaddr e.arhaddr
  /-- The process of a pending one waits for this entry. -/
  pending : e.arstate = .pending → ∃ call, inside e.arpid = some call ∧
    call.slot = i ∧ call.nxthop = e.arpaddr

/-- The cache is sound: its entries are, no two of them have one address, and the processes that are
inside point to entries. -/
structure ArpOk (s : Arp) (heard : List Arppacket) : Prop where
  /-- Each entry is sound. -/
  entries : ∀ i < ARP_SIZ, EntryOk s.inside heard i (s.arpcache i)
  /-- No two of them have one address. -/
  unique : ∀ i < ARP_SIZ, ∀ j < ARP_SIZ, (s.arpcache i).arstate ≠ .free → (s.arpcache j).arstate ≠ .free →
    (s.arpcache i).arpaddr = (s.arpcache j).arpaddr → i = j
  /-- Who waits, waits for an entry of the cache. -/
  slots : ∀ p call, s.inside p = some call → call.slot < ARP_SIZ

/-- The condition on the state before a step. The process that runs may trust its message: if this
is neither `TIMEOUT` nor `SYSERR`, its entry is resolved and has the address it waits for; if it is
`SYSERR`, its entry is not pending for it. -/
def ArpTrust (s : Arp) : ArpEvent → Prop
  | .run p => ∀ call msg, s.inside p = some call → s.prmsg p = some msg → msg ≠ umsg TIMEOUT →
      if msg = umsg SYSERR then ¬ ((s.arpcache call.slot).arstate = .pending ∧
        (s.arpcache call.slot).arpid = p)
      else (s.arpcache call.slot).arstate = .resolved ∧ (s.arpcache call.slot).arpaddr = call.nxthop
  | _ => True

/-- More has been heard. -/
theorem EntryOk.mono {inside : ℤ → Option ArpCall} {e : Arpentry}
    (h : EntryOk inside heard i e) (pkt : Arppacket) :
    EntryOk inside (heard ++ [pkt]) i e :=
  ⟨fun hr => (h.resolved hr).imp fun _ hp => ⟨List.mem_append_left _ hp.1, hp.2⟩, h.pending⟩

/-- The entries stay, and the processes that are inside stay there for the same ones. -/
theorem ArpOk.of_inside (h : ArpOk s heard) (hc : s'.arpcache = s.arpcache)
    (hin : ∀ j < ARP_SIZ, (s.arpcache j).arstate = .pending →
      ∀ call, s.inside (s.arpcache j).arpid = some call →
      call.slot = j → ∃ call', s'.inside (s.arpcache j).arpid = some call' ∧
      call'.slot = j ∧ call'.nxthop = call.nxthop)
    (hslots : ∀ q call, s'.inside q = some call → call.slot < ARP_SIZ) : ArpOk s' heard := by
  refine ⟨fun j hj => ?_, fun j hj k hk => ?_, hslots⟩
  · rw [hc]
    refine ⟨(h.entries j hj).resolved, fun hp => ?_⟩
    obtain ⟨call, hcall, hslot, hnext⟩ := (h.entries j hj).pending hp
    obtain ⟨call', hcall', hslot', hnext'⟩ := hin j hj hp call hcall hslot
    exact ⟨call', hcall', hslot', hnext'.trans hnext⟩
  · rw [hc]
    exact h.unique j hj k hk

/-- One entry is replaced, by one that is sound and has an address of its own. -/
theorem ArpOk.set {e : Arpentry} (h : ArpOk s heard) (hc : s'.arpcache = Function.update s.arpcache i e)
    (he : EntryOk s'.inside heard i e)
    (hother : ∀ j < ARP_SIZ, j ≠ i → EntryOk s'.inside heard j (s.arpcache j))
    (hfresh : e.arstate ≠ .free → ∀ j < ARP_SIZ, j ≠ i → (s.arpcache j).arstate ≠ .free →
      (s.arpcache j).arpaddr ≠ e.arpaddr)
    (hslots : ∀ q call, s'.inside q = some call → call.slot < ARP_SIZ) : ArpOk s' heard := by
  refine ⟨fun j hj => ?_, fun j hj k hk => ?_, hslots⟩
  · rw [hc]
    rcases eq_or_ne j i with rfl | hne
    · rw [Function.update_self]
      exact he
    · rw [Function.update_of_ne hne]
      exact hother j hj hne
  · rw [hc]
    rcases eq_or_ne j i with rfl | hji <;> rcases eq_or_ne k j with rfl | hkj
    · exact fun _ _ _ => rfl
    · rw [Function.update_self, Function.update_of_ne hkj]
      exact fun hused hk' heq => absurd heq.symm (hfresh hused k hk hkj hk')
    · exact fun _ _ _ => rfl
    · rcases eq_or_ne k i with rfl | hki
      · rw [Function.update_self, Function.update_of_ne hji]
        exact fun hj' hused heq => absurd heq (hfresh hused j hj hji hj')
      · rw [Function.update_of_ne hji, Function.update_of_ne hki]
        exact h.unique j hj k hk

/-! ## Steps -/

/-- More has been heard, of the whole cache. -/
theorem ArpOk.mono (h : ArpOk s heard) (pkt : Arppacket) : ArpOk s (heard ++ [pkt]) :=
  ⟨fun i hi => (h.entries i hi).mono pkt, h.unique, h.slots⟩

/-- One process gets another call, which points to an entry. -/
theorem slots_update {call : Option ArpCall} (h : ArpOk s heard) (hcall : ∀ d ∈ call, d.slot < ARP_SIZ) :
    ∀ q d, Function.update s.inside p call q = some d → d.slot < ARP_SIZ := by
  intro q d hd
  rcases eq_or_ne q p with rfl | hne
  · rw [Function.update_self] at hd
    exact hcall d hd
  · rw [Function.update_of_ne hne] at hd
    exact h.slots q d hd

/-- A process that is not inside asks for an address. -/
theorem ArpOk.resolve {nxthop : ℕ} (h : ArpOk s heard) (hp : s.inside p = none) :
    ArpOk (s.resolve p nxthop).1 heard := by
  unfold Arp.resolve
  split_ifs with hbcast
  · exact h
  cases hfind : arpFind s.arpcache nxthop with
  | some i =>
    dsimp only
    split_ifs <;> exact h
  | none =>
    cases halloc : arp_alloc s.arpcache with
    | none => exact h
    | some slot =>
      have hslot := arp_alloc_some halloc
      refine h.set rfl ⟨nofun, fun _ => ?_⟩ (fun j hj hne => ?_) (fun _ j hj _ => arpFind_none hfind hj)
        (slots_update h fun d hd => by cases hd; exact hslot.1)
      · exact ⟨_, Function.update_self .., rfl, rfl⟩
      · -- the recorded processes of the other entries are inside already
        refine ⟨(h.entries j hj).resolved, fun hpend => ?_⟩
        obtain ⟨call, hcall, hrest⟩ := (h.entries j hj).pending hpend
        have hneq : (s.arpcache j).arpid ≠ p := fun heq => by
          rw [heq, hp] at hcall
          cases hcall
        exact ⟨call, (Function.update_of_ne hneq _ _).trans hcall, hrest⟩

/-- An ARP packet that arrives keeps the invariant. -/
theorem ArpOk.arp_in {pkt : Arppacket} (h : ArpOk s heard) : ArpOk (s.arp_in pkt).1 (heard ++ [pkt]) := by
  -- From now on the pair of the packet is one that was heard.
  have hnew : Heard (heard ++ [pkt]) pkt.arp_sndpa pkt.arp_sndha := ⟨pkt, by simp, rfl, rfl⟩
  have hmono := h.mono pkt
  unfold Arp.arp_in
  by_cases hbad : pkt.arp_htype ≠ ARP_HTYPE ∨ pkt.arp_ptype ≠ ARP_PTYPE
  · rw [if_pos hbad]
    exact hmono
  rw [if_neg hbad]
  cases hfind : arpFind s.arpcache pkt.arp_sndpa with
  | some i =>
    obtain ⟨hi, hused, haddr⟩ := arpFind_some hfind
    have hrefresh : ArpOk (s.refresh i pkt) (heard ++ [pkt]) := by
      -- No other entry has the address, since addresses are in the cache once.
      have hfresh : ∀ j < ARP_SIZ, j ≠ i → (s.arpcache j).arstate ≠ .free →
          (s.arpcache j).arpaddr ≠ (s.arpcache i).arpaddr :=
        fun j hj hne hj' heq => hne (h.unique j hj i hi hj' hused heq)
      unfold Arp.refresh
      dsimp only
      split_ifs with hpend
      · exact hmono.set rfl ⟨fun _ => haddr ▸ hnew, nofun⟩ (fun j hj _ => hmono.entries j hj)
          (fun _ => hfresh) h.slots
      · exact hmono.set rfl ⟨fun _ => haddr ▸ hnew, fun hp => absurd hp hpend⟩
          (fun j hj _ => hmono.entries j hj) (fun _ => hfresh) h.slots
    dsimp only
    split_ifs with hop hlocal hfound
    · exact hrefresh
    · exact hrefresh
    · exact hrefresh
    · exact absurd rfl hfound
  | none =>
    dsimp only
    split_ifs
    · exact hmono
    · exact hmono
    · exact hmono
    · cases halloc : arp_alloc s.arpcache with
      | none => exact hmono
      -- A slot is taken for an address that the cache does not have.
      | some slot =>
        exact hmono.set rfl ⟨fun _ => hnew, nofun⟩ (fun j hj _ => hmono.entries j hj)
          (fun _ j hj _ => arpFind_none hfind hj) h.slots

/-- A process leaves, and no pending entry records it. -/
theorem ArpOk.leave (h : ArpOk s heard) (hc : s'.arpcache = s.arpcache)
    (hin : s'.inside = Function.update s.inside p none)
    (hp : ∀ j < ARP_SIZ, (s.arpcache j).arstate = .pending → (s.arpcache j).arpid ≠ p) : ArpOk s' heard := by
  refine h.of_inside hc (fun j hj hpend call hcall hslot => ⟨call, ?_, hslot, rfl⟩) ?_
  · rw [hin, Function.update_of_ne (hp j hj hpend)]
    exact hcall
  · rw [hin]
    exact slots_update h nofun

/-- A process that is inside goes on there. -/
theorem ArpOk.stay {call call' : ArpCall} (h : ArpOk s heard)
    (hc : s'.arpcache = s.arpcache) (hcall : s.inside p = some call)
    (hin : s'.inside = Function.update s.inside p (some call'))
    (hslot : call'.slot = call.slot) (hnext : call'.nxthop = call.nxthop) :
    ArpOk s' heard := by
  refine h.of_inside hc (fun j hj hpend d hd hds => ?_) ?_
  · rcases eq_or_ne (s.arpcache j).arpid p with heq | hne
    · rw [heq, hcall] at hd
      cases hd
      rw [hin, heq]
      exact ⟨call', Function.update_self .., hslot.trans hds, hnext⟩
    · rw [hin, Function.update_of_ne hne]
      exact ⟨d, hd, hds, rfl⟩
  · rw [hin]
    refine slots_update h fun d hd => ?_
    cases hd
    exact hslot.trans_lt (h.slots p call hcall)

/-- A process that waits only for its own entry is recorded in no other pending one. -/
theorem ArpOk.slot_eq {call : ArpCall} {j : ℕ} (h : ArpOk s heard)
    (hcall : s.inside p = some call) (hj : j < ARP_SIZ)
    (hpend : (s.arpcache j).arstate = .pending) (hpid : (s.arpcache j).arpid = p) : j = call.slot := by
  obtain ⟨d, hd, hslot, -⟩ := (h.entries j hj).pending hpend
  rw [hpid, hcall] at hd
  cases hd
  exact hslot.symm

/-- A process that waits goes on with the message it has. -/
theorem ArpOk.proceed {call : ArpCall} {msg : ℕ} (h : ArpOk s heard) (hcall : s.inside p = some call)
    (ht : msg ≠ umsg TIMEOUT → if msg = umsg SYSERR then
      ¬ ((s.arpcache call.slot).arstate = .pending ∧ (s.arpcache call.slot).arpid = p)
      else (s.arpcache call.slot).arstate = .resolved ∧ (s.arpcache call.slot).arpaddr = call.nxthop) :
    ArpOk (s.proceed p call msg).1 heard := by
  unfold Arp.proceed
  split_ifs with htime hmore herr
  · exact h.stay rfl hcall rfl rfl rfl
  · -- the last time is over: the entry is free, whatever it has become
    refine h.set rfl ⟨nofun, nofun⟩ (fun j hj hne => ⟨(h.entries j hj).resolved, fun hpend => ?_⟩)
      (fun hfree => absurd rfl hfree)
      (slots_update h nofun)
    obtain ⟨d, hd, hrest⟩ := (h.entries j hj).pending hpend
    have hneq : (s.arpcache j).arpid ≠ p := fun heq => hne (h.slot_eq hcall hj hpend heq)
    exact ⟨d, (Function.update_of_ne hneq _ _).trans hd, hrest⟩
  · refine h.leave rfl rfl fun j hj hpend hpid => ?_
    have hslot := h.slot_eq hcall hj hpend hpid
    have hno := ht htime
    rw [if_pos herr, ← hslot] at hno
    exact hno ⟨hpend, hpid⟩
  · refine h.leave rfl rfl fun j hj hpend hpid => ?_
    have hslot := h.slot_eq hcall hj hpend hpid
    have hres := ht htime
    rw [if_neg herr, ← hslot] at hres
    exact absurd hpend (by simp [hres.1])

/-- A process that waits runs again, and may trust its message. -/
theorem ArpOk.run {call : ArpCall} (h : ArpOk s heard) (hcall : s.inside p = some call)
    (ht : ArpTrust s (.run p)) :
    ArpOk (s.run p call).1 heard := by
  unfold Arp.run
  cases hmsg : s.prmsg p with
  | some msg =>
    have hclear : ArpOk { s with prmsg := Function.update s.prmsg p none } heard :=
      ⟨h.entries, h.unique, h.slots⟩
    exact hclear.proceed hcall (ht call msg hcall hmsg)
  | none =>
    dsimp only
    split_ifs
    · exact h.proceed hcall fun hne => absurd rfl hne
    · exact h.stay rfl hcall rfl rfl rfl

/-- What has been heard after a step. -/
def ArpEvent.note (heard : List Arppacket) : ArpEvent → List Arppacket
  | .arrive pktptr => heard ++ [pktptr]
  | _ => heard

/-- Every step of justified trust keeps the cache sound. -/
theorem ArpOk.step {e : ArpEvent} {o : ArpOutcome} (h : ArpOk s heard)
    (ht : ArpTrust s e) (hs : s.exec e = some (s', o)) :
    ArpOk s' (e.note heard) := by
  cases e with
  | resolve p nxthop =>
    obtain ⟨hp, hs⟩ := Option.ite_none_right_eq_some.mp hs
    obtain ⟨rfl, rfl⟩ := Prod.mk.inj (Option.some.inj hs)
    exact h.resolve hp
  | run p =>
    unfold Arp.exec at hs
    cases hcall : s.inside p with
    | none => simp [hcall] at hs
    | some call =>
      simp only [hcall] at hs
      obtain ⟨-, hs⟩ := Option.ite_none_left_eq_some.mp hs
      obtain ⟨rfl, rfl⟩ := Prod.mk.inj (Option.some.inj hs)
      exact h.run hcall ht
  | timeout p =>
    obtain ⟨-, hs⟩ := Option.ite_none_right_eq_some.mp hs
    obtain ⟨rfl, rfl⟩ := Prod.mk.inj (Option.some.inj hs)
    exact ⟨h.entries, h.unique, h.slots⟩
  | arrive pkt =>
    obtain ⟨rfl, rfl⟩ := Prod.mk.inj (Option.some.inj hs)
    exact h.arp_in
  | send pid msg =>
    obtain ⟨rfl, rfl⟩ := Prod.mk.inj (Option.some.inj hs)
    exact ⟨h.entries, h.unique, h.slots⟩
  | configure netData =>
    obtain ⟨rfl, rfl⟩ := Prod.mk.inj (Option.some.inj hs)
    exact ⟨h.entries, h.unique, h.slots⟩

/-! ## What `arp_resolve` returns -/

/-- The hardware address is right for the address: the broadcast address for a broadcast, or else
one that was heard for it. -/
def Answers (netData : NetAddresses) (heard : List Arppacket) (addr : ℕ) (mac : List ℕ) : Prop :=
  ((addr = IP_BCAST ∨ addr = netData.ipbcast) ∧ mac = netData.ethbcast) ∨ Heard heard addr mac

/-- A call that returns at once returns what was heard. -/
theorem ArpOk.resolve_found {nxthop addr : ℕ} {q : ℤ} {mac : List ℕ} (h : ArpOk s heard)
    (ho : (s.resolve p nxthop).2 = .found q addr mac) : Answers s.netData heard addr mac := by
  unfold Arp.resolve at ho
  by_cases hbcast : nxthop = IP_BCAST ∨ nxthop = s.netData.ipbcast
  · rw [if_pos hbcast] at ho
    cases ho
    exact .inl ⟨hbcast, rfl⟩
  rw [if_neg hbcast] at ho
  cases hfind : arpFind s.arpcache nxthop with
  | some i =>
    simp only [hfind] at ho
    obtain ⟨hi, -, haddr⟩ := arpFind_some hfind
    by_cases hres : (s.arpcache i).arstate = .resolved
    · rw [if_pos hres] at ho
      cases ho
      exact .inr (haddr ▸ (h.entries i hi).resolved hres)
    · rw [if_neg hres] at ho
      cases ho
  | none =>
    cases halloc : arp_alloc s.arpcache with
    | none =>
      simp only [hfind, halloc] at ho
      cases ho
    | some slot =>
      simp only [hfind, halloc] at ho
      cases ho

/-- `arp_in` is not a call that returns an address. -/
theorem Arp.arp_in_found (s : Arp) (pkt : Arppacket) {addr : ℕ} {q : ℤ} {mac : List ℕ} :
    (s.arp_in pkt).2 ≠ .found q addr mac := by
  unfold Arp.arp_in
  by_cases hbad : pkt.arp_htype ≠ ARP_HTYPE ∨ pkt.arp_ptype ≠ ARP_PTYPE
  · rw [if_pos hbad]
    nofun
  rw [if_neg hbad]
  dsimp only
  split_ifs
  · nofun
  · nofun
  · nofun
  · split <;> nofun

/-- `OK` is returned for a message that is neither `TIMEOUT` nor `SYSERR`, with what is in the entry. -/
theorem Arp.proceed_found {call : ArpCall} {msg addr : ℕ}
    {q : ℤ} {mac : List ℕ} (ho : (s.proceed p call msg).2 = .found q addr mac) :
    msg ≠ umsg TIMEOUT ∧ msg ≠ umsg SYSERR ∧ addr = call.nxthop ∧ mac = (s.arpcache call.slot).arhaddr := by
  unfold Arp.proceed at ho
  by_cases htime : msg = umsg TIMEOUT
  · rw [if_pos htime] at ho
    by_cases hmore : call.i + 1 < ARP_RETRY
    · rw [if_pos hmore] at ho
      cases ho
    · rw [if_neg hmore] at ho
      cases ho
  rw [if_neg htime] at ho
  by_cases herr : msg = umsg SYSERR
  · rw [if_pos herr] at ho
    cases ho
  · rw [if_neg herr] at ho
    cases ho
    exact ⟨htime, herr, rfl, rfl⟩

/-- A process that waited returns what was heard, if it may trust its message. -/
theorem ArpOk.run_found {call : ArpCall} {addr : ℕ} {q : ℤ}
    {mac : List ℕ} (h : ArpOk s heard) (hcall : s.inside p = some call)
    (ht : ArpTrust s (.run p)) (ho : (s.run p call).2 = .found q addr mac) : Heard heard addr mac := by
  unfold Arp.run at ho
  cases hmsg : s.prmsg p with
  | some msg =>
    simp only [hmsg] at ho
    obtain ⟨htime, herr, rfl, rfl⟩ := Arp.proceed_found ho
    have hres := ht call msg hcall hmsg htime
    rw [if_neg herr] at hres
    exact hres.2 ▸ (h.entries _ (h.slots p call hcall)).resolved hres.1
  | none =>
    simp only [hmsg] at ho
    by_cases hsent : call.sent
    · rw [if_pos hsent] at ho
      exact absurd rfl (Arp.proceed_found ho).1
    · rw [if_neg hsent] at ho
      cases ho

/-- What a step of justified trust returns was heard. -/
theorem ArpOk.found {e : ArpEvent} {addr : ℕ} {q : ℤ} {mac : List ℕ} (h : ArpOk s heard) (ht : ArpTrust s e)
    (hs : s.exec e = some (s', .found q addr mac)) : Answers s.netData heard addr mac := by
  cases e with
  | resolve p nxthop =>
    obtain ⟨-, hs⟩ := Option.ite_none_right_eq_some.mp hs
    exact h.resolve_found (Prod.mk.inj (Option.some.inj hs)).2
  | run p =>
    unfold Arp.exec at hs
    cases hcall : s.inside p with
    | none => simp [hcall] at hs
    | some call =>
      simp only [hcall] at hs
      obtain ⟨-, hs⟩ := Option.ite_none_left_eq_some.mp hs
      exact .inr (h.run_found hcall ht (Prod.mk.inj (Option.some.inj hs)).2)
  | timeout p =>
    obtain ⟨-, hs⟩ := Option.ite_none_right_eq_some.mp hs
    cases (Prod.mk.inj (Option.some.inj hs)).2
  | arrive pkt => exact absurd (Prod.mk.inj (Option.some.inj hs)).2 (Arp.arp_in_found s pkt)
  | send pid msg => cases (Prod.mk.inj (Option.some.inj hs)).2
  | configure netData => cases (Prod.mk.inj (Option.some.inj hs)).2

/-! ## Runs -/

/-- The states that steps under a condition lead to, with the packets that have come in. -/
inductive ArpRun (C : Arp → ArpEvent → Prop) (s₀ : Arp) : Arp → List Arppacket → Prop
  | start : ArpRun C s₀ s₀ []
  | step {s s' heard e o} (hr : ArpRun C s₀ s heard) (hc : C s e) (hs : s.exec e = some (s', o)) :
    ArpRun C s₀ s' (e.note heard)

/-- The cache is sound at the start. -/
theorem arpOk_start (prmsg : ℤ → Option ℕ) (netData : NetAddresses) : ArpOk (Arp.start prmsg netData) [] := by
  have hfree : ∀ i, ((Arp.start prmsg netData).arpcache i).arstate = .free := fun i => by
    change (arp_init _ i).arstate = _
    unfold arp_init
    split_ifs <;> rfl
  refine ⟨fun i _ => ⟨fun h => ?_, fun h => ?_⟩, fun i _ j _ h => absurd (hfree i) h, nofun⟩
  · rw [hfree] at h
    cases h
  · rw [hfree] at h
    cases h

/-- In every run in which the processes that run again may trust their messages, the cache is sound:
no two entries in use have one address, and an entry is pending only while the process that it
records is inside for its address. A call that returns `OK` returns the broadcast address, for a
broadcast, or else a hardware address that a packet from the address has carried. -/
theorem arp_ok {prmsg : ℤ → Option ℕ} {netData : NetAddresses}
    (hr : ArpRun ArpTrust (.start prmsg netData) s heard) :
    ArpOk s heard ∧ ∀ e s' p addr mac, ArpTrust s e → s.exec e = some (s', .found p addr mac) →
    Answers s.netData heard addr mac := by
  have hok : ArpOk s heard := by
    induction hr with
    | start => exact arpOk_start prmsg netData
    | step _ hc hs ih => exact ih.step hc hs
  exact ⟨hok, fun _ _ _ _ _ ht hs => hok.found ht hs⟩

/-- The steps of a list of events, and the packets that have come in. -/
def Arp.runs (s : Arp) (heard : List Arppacket) : List ArpEvent → Option (Arp × List Arppacket)
  | [] => some (s, heard)
  | e :: es => (s.exec e).bind fun r => Arp.runs r.1 (e.note heard) es

/-- A list of possible steps, each of which meets the condition in any state, makes a run. -/
theorem ArpRun.of_runs {C : Arp → ArpEvent → Prop} {s₀ : Arp} {es : List ArpEvent} {heard' : List Arppacket}
    (hr : ArpRun C s₀ s heard) (hC : ∀ e ∈ es, ∀ s, C s e) (he : s.runs heard es = some (s', heard')) :
    ArpRun C s₀ s' heard' := by
  induction es generalizing s heard with
  | nil =>
    obtain ⟨rfl, rfl⟩ := Prod.mk.inj (Option.some.inj he)
    exact hr
  | cons e es ih =>
    obtain ⟨⟨s₁, o⟩, hs, he⟩ := Option.bind_eq_some_iff.mp he
    obtain ⟨hCe, hC⟩ := List.forall_mem_cons.mp hC
    exact ih (hr.step (hCe s) hs) hC he

/-! ## Two runs -/

/-- Addresses for the runs below. -/
def sampleAddresses : NetAddresses := ⟨true, 1, 255, [1, 1, 1, 1, 1, 1], [255, 255, 255, 255, 255, 255]⟩

/-- A reply from the host with address 7. -/
def sampleReply : Arppacket :=
  ⟨ARP_HTYPE, ARP_PTYPE, ARP_OP_RPLY, [2, 2, 2, 2, 2, 7], 7, [1, 1, 1, 1, 1, 1], 1⟩

/-- A start with them. -/
def sampleStart : Arp := .start (fun _ => none) sampleAddresses

/-- A process asks for address 7 and the reply comes: the process may trust its message, and returns
what the reply has said. -/
theorem arp_ok_reply :
    ∃ s heard, (ArpOk s heard ∧ ∀ e s' p addr mac, ArpTrust s e → s.exec e = some (s', .found p addr mac) →
    Answers s.netData heard addr mac) ∧ ∃ s', s.exec (.run 1) = some (s', .found 1 7 [2, 2, 2, 2, 2, 7]) := by
  have hfound : (sampleStart.runs [] [.resolve 1 7, .arrive sampleReply]).map
      (fun r => (r.1.exec (.run 1)).map Prod.snd) =
      some (some (.found 1 7 [2, 2, 2, 2, 2, 7])) := by decide +kernel
  obtain ⟨⟨s, heard⟩, hs, ho⟩ := Option.map_eq_some_iff.mp hfound
  have hC : ∀ e ∈ [ArpEvent.resolve 1 7, .arrive sampleReply], ∀ s, ArpTrust s e := by simp [ArpTrust]
  exact ⟨s, heard, arp_ok (.of_runs .start hC hs), by simpa using ho⟩

/-- A process asks for address 7 and the reply comes. Before it runs again, others ask for so many
addresses that its entry is replaced. -/
def arpEvicted : List ArpEvent :=
  [.resolve 1 7, .arrive sampleReply] ++ (List.range ARP_SIZ).map fun k => .resolve (k + 2) (k + 100)

/-- The entry that the process copies belongs to another address then: it returns `OK` with a
hardware address that nobody has sent. -/
theorem arp_evicted : ∃ s heard, ArpRun (fun _ _ => True) sampleStart s heard ∧
    (∃ s', s.exec (.run 1) = some (s', .found 1 7 [0, 0, 0, 0, 0, 0])) ∧
      ¬ Answers s.netData heard 7 [0, 0, 0, 0, 0, 0] := by
  have hfound : (sampleStart.runs [] arpEvicted).map
      (fun r => ((r.1.exec (.run 1)).map Prod.snd, r.2, r.1.netData.ipbcast)) =
      some (some (.found 1 7 [0, 0, 0, 0, 0, 0]), [sampleReply], 255) := by decide +kernel
  obtain ⟨⟨s, heard⟩, hs, hr⟩ := Option.map_eq_some_iff.mp hfound
  obtain ⟨ho, hh, hb⟩ : _ ∧ heard = [sampleReply] ∧ s.netData.ipbcast = 255 := by simpa using hr
  refine ⟨s, heard, .of_runs .start (fun _ _ _ => trivial) hs, ho, ?_⟩
  rintro (⟨hbcast, -⟩ | ⟨pkt, hpkt, -, hmac⟩)
  · rw [hb] at hbcast
    exact absurd hbcast (by decide)
  · -- the only packet has carried another hardware address
    rw [hh, List.mem_singleton] at hpkt
    rw [hpkt] at hmac
    exact absurd hmac (by decide)

end Xinu
