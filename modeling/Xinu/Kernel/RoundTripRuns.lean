import Xinu.Kernel.FaultRuns
import Xinu.Kernel.FitRuns
import Xinu.Paging.RoundTrip

/-!
# From `vmalloc` to `vfree` in every safe run

A user process allocates a block, touches pages of it, and gives it back with the size that it has
asked for. Both functions divide the size by the size of a page and round down, so a block that does
not end with a page lacks its last page, and one of less than a page is not given back at all
(`vmalloc_short`).
-/

namespace Xinu

open Sys FlatMemory

/-! ## The property -/

/-- What `allocated_virtual_pages`, `used_ffs_frames` and `free_ffs_pages` count for the running
process is the same. -/
structure SameCounts (k k' : Kernel) : Prop where
  /-- What `allocated_virtual_pages` counts. -/
  allocated : countEntries k'.mem (k'.currAddr / 4) 0 Entry.valid = countEntries k.mem
    (k.currAddr / 4) 0 Entry.valid
  /-- What `used_ffs_frames` counts. -/
  used : countEntries k'.mem (k'.currAddr / 4) (XINU_PAGES / MAX_PT_SIZE) Entry.pres =
    countEntries k.mem (k.currAddr / 4) (XINU_PAGES / MAX_PT_SIZE) Entry.pres
  /-- What `free_ffs_pages` counts. -/
  free : (freeFfsPages k'.cpu k'.currAddr).1 = (freeFfsPages k.cpu k.currAddr).1

/-- The running process takes page faults at addresses of the block. -/
inductive BlockFaults (va nbytes : ℕ) : Kernel → Kernel → Prop
  | refl (k : Kernel) : BlockFaults va nbytes k k
  | fault {k k' k'' : Kernel} {v : ℕ} (h : BlockFaults va nbytes k k') (h₁ : va ≤ v) (h₂ : v < va + nbytes)
    (hs : k'.Step (.fault v) k'') : BlockFaults va nbytes k k''

/-- When the call `vmalloc(nbytes)` returns an address, every byte of the block lies in a valid
page. A call `vfree` of the block, after any number of page faults in it, returns `OK`, and the
counters are as before. -/
def RoundTrip (k : Kernel) (nbytes : ℕ) : Prop :=
  ∀ k₁ (va : ℕ), k.Step (.call (.vmalloc nbytes)) k₁ → k₁.sys.result k.sys.currpid = va →
    (∀ b, va ≤ b → b < va + nbytes → PageValid k₁.mem (k.sys.dirFrame k.sys.currpid) (b / 4096)) ∧
    ∀ k₂, BlockFaults va nbytes k₁ k₂ → ∃ k₃, k₂.vfreeCall va nbytes = .ok k₃ ∧
      k₃.sys.result k.sys.currpid = OK ∧ SameCounts k k₃

/-- The request is clean. Where it is served, the block can be given back; it has a page at least,
and it ends with a page, or with one that was present before. -/
def RoundTripOk (m : Mem) (d nbytes : ℕ) : Prop :=
  VmallocClean m d (requestPages nbytes) ∧ ∀ p, ServedAt m d (requestPages nbytes) p → 4096 ≤ nbytes ∧
    (nbytes % 4096 = 0 ∨ PagePresent m d (p + nbytes / 4096)) ∧ Freeable m d (nbytes / 4096) p

/-! ## The proof -/

/-- The state while the block is on loan. -/
structure Loan (k k' : Kernel) (n p : ℕ) : Prop where
  /-- The state is reached by safe steps. -/
  reach : k'.SafeReach
  /-- The process table is that of the call. -/
  proctab : k'.sys.proctab = k.sys.proctab
  /-- The same process is running. -/
  curr : k'.sys.currpid = k.sys.currpid
  /-- Of its page tables, only what the block needs has changed. -/
  loan : OnLoan k.mem k'.mem (k.sys.dirFrame k.sys.currpid) n p

section

variable {k k' k'' : Kernel} {n p : ℕ}

/-- The running process is the same, with the same directory. -/
theorem Loan.user (hl : Loan k k' n p) (hu : IsUser k.sys k.sys.currpid) : IsUser k'.sys k'.sys.currpid ∧
    k'.sys.dirFrame k'.sys.currpid = k.sys.dirFrame k.sys.currpid := by
  unfold IsUser dirFrame state
  rw [hl.proctab, hl.curr]
  exact ⟨hu, rfl⟩

/-- A page fault in the block, or in a page that is present, leaves the block on loan. -/
theorem Loan.fault (hl : Loan k k' n p) (hu : IsUser k.sys k.sys.currpid) {v : ℕ}
    (hv : (p ≤ v / 4096 ∧ v / 4096 < p + n) ∨
      (v / 4096 = p + n ∧ PagePresent k.mem (k.sys.dirFrame k.sys.currpid) (p + n)))
    (hs : k'.Step (.fault v) k'') : Loan k k'' n p := by
  obtain ⟨hu', hdir⟩ := hl.user hu
  obtain ⟨g, hg⟩ := safe_inv hl.reach
  have hreach : k''.SafeReach := .step hl.reach (e := .fault v) trivial hs
  obtain ⟨hh, ⟨hpend, hn, ha⟩, fuel, junk, hexec⟩ := hs
  obtain ⟨haddr, hd⟩ := hg.user hu'
  have hcr3 := hg.cr3Ok hh (by rw [hpend]; exact nofun)
  have habs := not_present_of_absent hcr3 hu' ha
  rw [hdir] at habs haddr hd
  -- The page behind the block was present, and it still is.
  have hin : p ≤ v / 4096 ∧ v / 4096 < p + n := by
    rcases hv with hv | ⟨hv, hp⟩
    · exact hv
    · rw [hv] at habs
      exact absurd ((hl.loan.present _ (.inr (le_refl _))).mpr hp) habs
  have hval := (hl.loan.valid _).mpr (.inr hin)
  change k'.fault v = _ ∨ k'.fault v = _ at hexec
  rcases pagefaultHandler_spec (c := k'.cpu) hg.layout hd ha.1 habs with ⟨-, m', hr, hlay, hm⟩ | ⟨hno, -⟩
  · have he : k'.fault v = .ok (k'.withCpu ((k'.cpu.withMem m').writeCr3 (k'.cpu.cr3At
        (k.sys.dirFrame k.sys.currpid * 4096)))) := by
      unfold Kernel.fault Kernel.currAddr
      rw [haddr, hr]
      rfl
    rw [he] at hexec
    rcases hexec with hok | hwild
    · injection hok with hok
      subst hok
      refine ⟨hreach, hl.proctab, hl.curr, ?_⟩
      rcases hm with hp | ⟨rfl, -⟩
      · exact hl.loan.fault hg.layout hlay hd hin habs hp
      · exact hl.loan
    · cases hwild
  · exact absurd hval hno

/-- The loan holds through any number of page faults on its pages. -/
theorem Loan.faults {va nbytes : ℕ} (hl : Loan k k' n p)
    (hu : IsUser k.sys k.sys.currpid) (hva : va = p * 4096)
    (hn : nbytes / 4096 = n)
    (htail : nbytes % 4096 = 0 ∨ PagePresent k.mem (k.sys.dirFrame k.sys.currpid) (p + n))
    (hf : BlockFaults va nbytes k' k'') : Loan k k'' n p := by
  induction hf with
  | refl => exact hl
  | fault _ h₁ h₂ hs ih =>
    refine ih.fault hu ?_ hs
    rcases htail with hmul | hp
    · exact .inl (by omega)
    · rename_i v _
      rcases Nat.lt_or_ge (v / 4096) (p + n) with hlt | hge
      · exact .inl ⟨by omega, hlt⟩
      · exact .inr ⟨by omega, hp⟩

/-- Pages and frames that are as before are counted as before. -/
theorem Restored.sameCounts {d : ℕ} (ha : k.currAddr = d * 4096) (ha' : k'.currAddr = d * 4096)
    (hr : Restored k.mem k'.mem d) : SameCounts k k' := by
  have hpd : d * 4096 / 4 = d * 1024 := by omega
  refine ⟨?_, ?_, ?_⟩
  · rw [ha, ha', hpd, countEntries_eq _ _ _ _ (Nat.zero_le _), countEntries_eq _ _ _ _ (Nat.zero_le _)]
    exact Scan.count_congr_iff fun vp => and_congr_right fun _ => hr.valid vp
  · have h8 : XINU_PAGES / MAX_PT_SIZE ≤ 1024 := by decide
    rw [ha, ha', hpd, countEntries_eq _ _ _ _ h8, countEntries_eq _ _ _ _ h8]
    exact Scan.count_congr_iff fun vp => and_congr_right fun _ => hr.present vp
  · unfold freeFfsPages
    dsimp only
    rw [Nat.count_eq_card_filter_range, Nat.count_eq_card_filter_range]
    exact congrArg Finset.card (Finset.filter_congr fun i hi => hr.frames i (Finset.mem_range.mp hi))

end

/-- **A block can be given back** by a user process whose request satisfies `RoundTripOk`, in every
state that a safe run reaches. -/
theorem round_trip {k : Kernel} {nbytes : ℕ} (h : k.SafeReach) (hu : IsUser k.sys k.sys.currpid)
    (hok : RoundTripOk k.mem (k.sys.dirFrame k.sys.currpid) nbytes) : RoundTrip k nbytes := by
  intro k₁ va hstep hva
  obtain ⟨⟨hsafe, hsound⟩, hserved⟩ := hok
  have hreach : k₁.SafeReach := .step h (e := .call (.vmalloc nbytes)) ⟨hu, hsafe⟩ hstep
  obtain ⟨g, hg⟩ := safe_inv h
  obtain ⟨haddr, hd⟩ := hg.user hu
  obtain ⟨-, ⟨-, h32, -⟩, fuel, junk, hexec⟩ := hstep
  change k.vmallocCall fuel nbytes junk = _ ∨ k.vmallocCall fuel nbytes junk = _ at hexec
  have h1 : 1 ≤ requestPages nbytes := by
    unfold requestPages
    split_ifs <;> omega
  -- The call has ended with an address of a place where the request is served.
  obtain ⟨c', hr, rfl⟩ :
      ∃ c', SafeResult k.cpu g (k.sys.dirFrame k.sys.currpid) (requestPages nbytes) (some va) c' ∧
      k₁ = (k.withCpu c').ret va := by
    unfold Kernel.vmallocCall Kernel.currAddr at hexec
    rw [haddr] at hexec
    rcases vmalloc_safe (c := k.cpu) hg.layout hd rfl hsafe fuel junk with ⟨hh, -⟩ | ⟨res, c', he, hr⟩
    · rw [hh] at hexec
      rcases hexec with he | he <;> cases he
    · rw [he] at hexec
      rcases hexec with he | he
      · injection he with he
        subst he
        rw [ret_result] at hva
        cases res with
        | some a =>
          obtain rfl : a = va := Int.ofNat_inj.mp hva
          exact ⟨c', hr, rfl⟩
        | none => exact absurd hva (show (-1 : ℤ) ≠ va by omega)
      · cases he
  obtain ⟨p, rfl, hp⟩ := hr.servedAt hg.layout hd
  obtain ⟨h4096, htail, hfree⟩ := hserved p hp
  have hn : requestPages nbytes = nbytes / 4096 := by
    unfold requestPages
    simp only [PAGE_SIZE]
    exact if_neg (by omega)
  rw [hn] at h1 hsound hr
  have hlends := hr.lends hg.layout hd h1 hsound hfree
  constructor
  · intro b h₁ h₂
    refine (hlends.valid _).mpr ?_
    rcases Nat.lt_or_ge (b / 4096) (p + nbytes / 4096) with hlt | hge
    · exact .inr ⟨by omega, hlt⟩
    · -- The last bytes lie in the page behind the block.
      have hb : b / 4096 = p + nbytes / 4096 := by omega
      have h8 := hlends.heap
      rw [hb]
      have hpres := htail.resolve_left (by omega)
      exact .inl ((hg.layout.valid_iff hd _).mpr (hg.layout.alloc_of_present hd (by omega) hpres))
  · intro k₂ hk₂
    have hloan : Loan k ((k.withCpu c').ret (p * 4096 : ℕ)) (nbytes / 4096) p :=
      ⟨hreach, rfl, rfl, hlends.onLoan hg.layout hd⟩
    have hl := hloan.faults hu rfl rfl htail hk₂
    obtain ⟨hu₂, hdir₂⟩ := hl.user hu
    obtain ⟨g₂, hg₂⟩ := safe_inv hl.reach
    obtain ⟨haddr₂, hd₂⟩ := hg₂.user hu₂
    rw [hdir₂] at haddr₂ hd₂
    obtain ⟨c₃, hv, hres⟩ := OnLoan.release (c := k₂.cpu) hl.loan hg₂.layout hd₂ h1 hfree.low rfl h32
    refine ⟨(k₂.withCpu c₃).ret OK, ?_, ?_, ?_⟩
    · unfold Kernel.vfreeCall Kernel.currAddr
      rw [haddr₂, hv]
      rfl
    · rw [← hl.curr]
      exact ret_result c₃ OK
    · exact hres.sameCounts haddr haddr₂

/-- A process without heap is served in fresh tables. -/
theorem servedAt_of_absent {m : Mem} {d n p : ℕ} (h : ∀ i < 1024, 8 ≤ i → (m (d * 1024 + i)).pres = false)
    (hp : ServedAt m d n p) : p = presentEntries m d * 1024 := by
  have hno : ∀ i, ¬ FirstStop m d n i := by
    intro i hs
    have hpres := hs.2.2.1
    rw [h i hs.2.1 hs.1] at hpres
    cases hpres
  cases hp with
  | fit i j hn hs hj hw hfirst => exact absurd hs (hno i)
  | spill i hn hs hsp => exact absurd hs (hno i)
  | fresh hplace hroom hrun => rfl

/-- The first page of a process can be given back. -/
theorem userRuns_roundTripOk :
    RoundTripOk userRuns.mem (userRuns.sys.dirFrame userRuns.sys.currpid) 4096 := by
  have hclean := userRuns_clean
  have hheap := userRuns_heap
  have hlen := userRuns_len
  rw [userRuns_frame] at *
  generalize userRuns.mem = m at *
  refine ⟨hclean, fun p hp => ⟨le_refl _, .inl rfl, ?_⟩⟩
  have hp8 := servedAt_of_absent hheap hp
  rw [hlen] at hp8
  rw [hp8]
  refine ⟨by decide, fun k hk hlt => ?_, fun hle => ?_⟩
  · rw [hlen] at hlt
    omega
  · rw [hlen] at hle
    omega

/-- It is given back with the size that was asked for. -/
theorem round_trip_page : RoundTrip userRuns 4096 :=
  round_trip userRuns_reach userRuns_user userRuns_roundTripOk

/-- Process 2 has asked for a page and a byte. -/
def shortRuns : Kernel := userRuns.after (.call (.vmalloc 4097))

set_option maxRecDepth 100000 in
/-- It has got the first page of its heap, and the second page is not valid. -/
theorem shortRuns_facts : userRuns.CanStep (.call (.vmalloc 4097)) ∧
    shortRuns.sys.result userRuns.sys.currpid = (8192 * 4096 : ℕ) ∧
    ¬ PageValid shortRuns.mem (PT_FRAME + 26) 8193 := by
  decide +kernel

/-- The last byte of a block of a page and a byte lies in no valid page. -/
theorem vmalloc_short : ∃ k nbytes, k.SafeReach ∧ IsUser k.sys k.sys.currpid ∧ 1 ≤ nbytes ∧ nbytes < 2 ^ 32 ∧
    ¬ RoundTrip k nbytes := by
  obtain ⟨hstep, hres, hpage⟩ := shortRuns_facts
  have hframe := userRuns_frame
  refine ⟨userRuns, 4097, userRuns_reach, userRuns_user, by decide, by decide, fun hr => ?_⟩
  unfold shortRuns at hres hpage
  generalize userRuns = k at *
  have hbyte := (hr _ _ hstep.step hres).1 (8192 * 4096 + 4096) (by decide) (by decide)
  rw [hframe, show (8192 * 4096 + 4096) / 4096 = 8193 from rfl] at hbyte
  exact hpage hbyte

end Xinu
