import Xinu.Rfs.Comm

/-!
# What a reply can do to a read or a write

The length in a reply is used as it is. `rflread` stays within the buffer of the caller and within
the reply exactly if the reply holds as many bytes as it says, and says no more than were asked for;
a write that reports -1 bytes moves the position. The mutex is left on each path.
-/

namespace Xinu

open Bytes

namespace Rfs

/-- A call gets as far as the exchange: the count is legitimate, the pseudo-device is in use with
the mode, and its name ends. -/
structure Asks (s : Rfs) (i : ℕ) (count : ℤ) (mode : ℕ) : Prop where
  /-- The count is positive. -/
  pos : 0 < count
  /-- It is not more than a message holds. -/
  le : count ≤ RF_DATALEN
  /-- The pseudo-device is in use. -/
  used : (s.rfltab i).rfused = true
  /-- Its mode allows the call. -/
  mode : (s.rfltab i).rfmode &&& mode ≠ 0
  /-- Its name ends. -/
  name : ∃ j < RF_NAMLEN, (s.rfltab i).rfname j = 0

end Rfs

/-- The exchange brings a reply. -/
def RfWorld.Replies (w : RfWorld) (seq : ℤ) (mtype : ℕ) (resp : ℕ → UInt8) : Prop :=
  (w.rfscomm seq mtype resp).1 ≠ SYSERR ∧ (w.rfscomm seq mtype resp).1 ≠ TIMEOUT

/-- The loop that copies the name finds a null character, if there is one. -/
theorem copyName_isSome {src : ℕ → UInt8} {n i : ℕ} (dst : ℕ → UInt8)
    (hi : i < RF_NAMLEN) (hn : RF_NAMLEN ≤ i + n) :
    (copyName src n i dst).isSome ↔ ∃ j, i ≤ j ∧ j < RF_NAMLEN ∧ src j = 0 := by
  induction n generalizing i dst with
  | zero => omega
  | succ n ih =>
    rw [copyName]
    by_cases h0 : src i = 0
    · rw [if_pos h0]
      exact iff_of_true rfl ⟨i, Nat.le_refl i, hi, h0⟩
    rw [if_neg h0]
    have hnext : (∃ j, i ≤ j ∧ j < RF_NAMLEN ∧ src j = 0) ↔ ∃ j, i + 1 ≤ j ∧ j < RF_NAMLEN ∧ src j = 0 := by
      constructor
      · rintro ⟨j, hij, hj, hz⟩
        have hne : i ≠ j := fun h => h0 (h ▸ hz)
        exact ⟨j, by omega, hj, hz⟩
      · rintro ⟨j, hij, hj, hz⟩
        exact ⟨j, by omega, hj, hz⟩
    by_cases hend : i + 1 ≥ RF_NAMLEN
    · rw [if_pos hend]
      refine iff_of_false (by simp) ?_
      rintro ⟨j, hij, hj, hz⟩
      have hji : i = j := by omega
      exact h0 (hji ▸ hz)
    · rw [if_neg hend, ih _ (Nat.not_le.mp hend) (by omega), hnext]

/-- The name of a control block ends. -/
theorem Rflcblk.copyName_isSome {b : Rflcblk} :
    (copyName b.byte RF_NAMLEN 0 fun _ => 0).isSome ↔ ∃ j < RF_NAMLEN, b.rfname j = 0 := by
  rw [Xinu.copyName_isSome _ (by decide) (by omega)]
  refine exists_congr fun j => ⟨fun ⟨_, hj, hz⟩ => ⟨hj, ?_⟩, fun ⟨hj, hz⟩ => ⟨Nat.zero_le j, hj, ?_⟩⟩
  · rwa [Rflcblk.byte, if_pos hj] at hz
  · rwa [Rflcblk.byte, if_pos hj]

namespace Rfs

variable {s : Rfs} {i : ℕ} {count : ℤ} {w : RfWorld} {resp : ℕ → UInt8}

/-! ## The paths -/

/-- An exchange leaves the control blocks. -/
theorem rfscomm_rfltab (s : Rfs) (msg : ℤ → RfRequest) (o : RfOutcome) :
    (s.rfscomm msg o).1.rfltab = s.rfltab := by
  cases o <;> rfl

/-- A read that does not get as far as a reply. -/
theorem rflreadActs_early (h : ¬ (s.Asks i count LF_MODE_R ∧ w.Replies s.rf_seq RF_MSG_RREQ resp)) :
    (s.rflreadActs i count w resp).1.rfltab = s.rfltab ∧
    (s.rflreadActs i count w resp).2 = (SYSERR, [.wait, .signal]) := by
  unfold rflreadActs
  by_cases hcount : count ≤ 0 ∨ count > RF_DATALEN
  · rw [if_pos hcount]; exact ⟨rfl, rfl⟩
  rw [if_neg hcount]
  dsimp only
  by_cases hused : ¬ (s.rfltab i).rfused
  · rw [if_pos hused]; exact ⟨rfl, rfl⟩
  rw [if_neg hused]
  by_cases hmode : (s.rfltab i).rfmode &&& LF_MODE_R = 0
  · rw [if_pos hmode]; exact ⟨rfl, rfl⟩
  rw [if_neg hmode]
  cases hname : copyName (s.rfltab i).byte RF_NAMLEN 0 fun _ => 0 with
  | none => exact ⟨rfl, rfl⟩
  | some p =>
    have hasks : s.Asks i count LF_MODE_R :=
      ⟨by omega, by omega, not_not.mp hused, hmode, Rflcblk.copyName_isSome.mp (by rw [hname]; rfl)⟩
    dsimp only
    by_cases hsys : (w.rfscomm s.rf_seq RF_MSG_RREQ resp).1 = SYSERR
    · rw [if_pos hsys]
      exact ⟨rfscomm_rfltab s _ _, rfl⟩
    by_cases htime : (w.rfscomm s.rf_seq RF_MSG_RREQ resp).1 = TIMEOUT
    · rw [if_neg hsys, if_pos htime]
      exact ⟨rfscomm_rfltab s _ _, rfl⟩
    · exact absurd ⟨hasks, hsys, htime⟩ h

/-- A read that gets a reply looks at its status, and then copies what it says. -/
theorem rflreadActs_reply (hasks : s.Asks i count LF_MODE_R) (hrep : w.Replies s.rf_seq RF_MSG_RREQ resp) :
    let b := (w.rfscomm s.rf_seq RF_MSG_RREQ resp).2
    let r := s.rflreadActs i count w resp
    (Bytes.be16 b RF_STATUS_AT ≠ 0 → r.1.rfltab = s.rfltab ∧
      r.2 = (SYSERR, [.wait] ++ loads RF_STATUS_AT 2 ++ [.signal])) ∧
    (Bytes.be16 b RF_STATUS_AT = 0 → (r.1.rfltab i).rfpos =
      ((s.rfltab i).rfpos + Bytes.be32 b RF_LEN_AT) % 2 ^ 32 ∧
      r.2 = (if Bytes.be32 b RF_LEN_AT = 0 then EOF else int32 (Bytes.be32 b RF_LEN_AT),
        [.wait] ++ loads RF_STATUS_AT 2 ++
        copyData b (Bytes.be32 b RF_LEN_AT) 0 ++ loads RF_LEN_AT 4 ++ [.signal] ++ loads RF_LEN_AT 4)) := by
  obtain ⟨p, hname⟩ := Option.isSome_iff_exists.mp (Rflcblk.copyName_isSome.mpr hasks.name)
  have hcount : ¬ (count ≤ 0 ∨ count > RF_DATALEN) := by
    have hpos := hasks.pos
    have hle := hasks.le
    omega
  unfold rflreadActs
  rw [if_neg hcount]
  dsimp only
  rw [if_neg (not_not.mpr hasks.used), if_neg hasks.mode, hname]
  dsimp only
  rw [if_neg hrep.1, if_neg hrep.2, ntohs_le16, ntohl_le32]
  refine ⟨fun h => ?_, fun h => ?_⟩
  · rw [if_pos h]
    exact ⟨rfscomm_rfltab s _ _, rfl⟩
  · rw [if_neg (not_not.mpr h)]
    refine ⟨?_, rfl⟩
    simp only [set, Function.update_self]

/-- A write that does not get as far as a reply. -/
theorem rflwriteActs_early (buff : ℕ → UInt8)
    (h : ¬ (s.Asks i count LF_MODE_W ∧ w.Replies s.rf_seq RF_MSG_WREQ resp)) :
    (s.rflwriteActs i buff count w resp).1.rfltab = s.rfltab ∧
      (s.rflwriteActs i buff count w resp).2 = (SYSERR, [.wait, .signal]) := by
  unfold rflwriteActs
  by_cases hcount : count ≤ 0 ∨ count > RF_DATALEN
  · rw [if_pos hcount]; exact ⟨rfl, rfl⟩
  rw [if_neg hcount]
  dsimp only
  by_cases hused : ¬ (s.rfltab i).rfused ∨ (s.rfltab i).rfmode &&& LF_MODE_W = 0
  · rw [if_pos hused]; exact ⟨rfl, rfl⟩
  rw [if_neg hused]
  cases hname : copyName (s.rfltab i).byte RF_NAMLEN 0 fun _ => 0 with
  | none => exact ⟨rfl, rfl⟩
  | some p =>
    obtain ⟨next, dst⟩ := p
    have hasks : s.Asks i count LF_MODE_W :=
      ⟨by omega, by omega, by_contra fun hu => hused (.inl hu), fun hm => hused (.inr hm),
        Rflcblk.copyName_isSome.mp (by rw [hname]; rfl)⟩
    dsimp only
    by_cases hsys : (w.rfscomm s.rf_seq RF_MSG_WREQ resp).1 = SYSERR
    · rw [if_pos hsys]
      exact ⟨rfscomm_rfltab s _ _, rfl⟩
    by_cases htime : (w.rfscomm s.rf_seq RF_MSG_WREQ resp).1 = TIMEOUT
    · rw [if_neg hsys, if_pos htime]
      exact ⟨rfscomm_rfltab s _ _, rfl⟩
    · exact absurd ⟨hasks, hsys, htime⟩ h

/-- A write that gets a reply looks at its status, and then moves by what it says. -/
theorem rflwriteActs_reply (buff : ℕ → UInt8) (hasks : s.Asks i count LF_MODE_W)
    (hrep : w.Replies s.rf_seq RF_MSG_WREQ resp) :
    let b := (w.rfscomm s.rf_seq RF_MSG_WREQ resp).2
    let r := s.rflwriteActs i buff count w resp
    (Bytes.be16 b RF_STATUS_AT ≠ 0 → r.1.rfltab = s.rfltab ∧
      r.2 = (SYSERR, [.wait] ++ loads RF_STATUS_AT 2 ++ [.signal])) ∧
    (Bytes.be16 b RF_STATUS_AT = 0 → (r.1.rfltab i).rfpos =
      ((s.rfltab i).rfpos + Bytes.be32 b RF_LEN_AT) % 2 ^ 32 ∧
      r.2 = (int32 (Bytes.be32 b RF_LEN_AT),
        [.wait] ++ loads RF_STATUS_AT 2 ++ loads RF_LEN_AT 4 ++ [.signal] ++ loads RF_LEN_AT 4)) := by
  obtain ⟨p, hname⟩ := Option.isSome_iff_exists.mp (Rflcblk.copyName_isSome.mpr hasks.name)
  obtain ⟨next, dst⟩ := p
  have hcount : ¬ (count ≤ 0 ∨ count > RF_DATALEN) := by
    have hpos := hasks.pos
    have hle := hasks.le
    omega
  have hused : ¬ (¬ (s.rfltab i).rfused ∨ (s.rfltab i).rfmode &&& LF_MODE_W = 0) :=
    not_or.mpr ⟨not_not.mpr hasks.used, hasks.mode⟩
  unfold rflwriteActs
  rw [if_neg hcount]
  dsimp only
  rw [if_neg hused, hname]
  dsimp only
  rw [if_neg hrep.1, if_neg hrep.2, ntohs_le16, ntohl_le32]
  refine ⟨fun h => ?_, fun h => ?_⟩
  · rw [if_pos h]
    exact ⟨rfscomm_rfltab s _ _, rfl⟩
  · rw [if_neg (not_not.mpr h)]
    refine ⟨?_, rfl⟩
    simp only [set, Function.update_self]

/-! ## The bounds -/

/-- A read stays within the buffer of the caller and within the datagram, returns a count, `EOF` or
`SYSERR`, moves the position only if it does not fail, and takes and leaves the mutex once. The
loads are those of `rflread`; `rfscomm` reads `rf_seq` and `rf_type` of each datagram itself before
it accepts one, and these reads are not noted. -/
structure ReadBounded (s : Rfs) (i : ℕ) (count : ℤ) (w : RfWorld) (resp : ℕ → UInt8) : Prop where
  /-- It stores only into the buffer of the caller. -/
  stores : ∀ (j : ℕ) (ch : UInt8), .store j ch ∈ (s.rflreadActs i count w resp).2.2 → (j : ℤ) < count
  /-- It loads only from the datagram. -/
  loads : ∀ o : ℕ, .load o ∈ (s.rflreadActs i count w resp).2.2 →
    (o : ℤ) < (w.rfscomm s.rf_seq RF_MSG_RREQ resp).1
  /-- It returns `SYSERR`, `EOF`, or a count that is not more than was asked for. -/
  retval : (s.rflreadActs i count w resp).2.1 = SYSERR ∨ (s.rflreadActs i count w resp).2.1 = EOF ∨
    1 ≤ (s.rflreadActs i count w resp).2.1 ∧ (s.rflreadActs i count w resp).2.1 ≤ count
  /-- If it fails, the position stays. -/
  rfpos : (s.rflreadActs i count w resp).2.1 = SYSERR →
    ((s.rflreadActs i count w resp).1.rfltab i).rfpos = (s.rfltab i).rfpos
  /-- It takes the mutex once, and leaves it once. -/
  mutex : mutexOps (s.rflreadActs i count w resp).2.2 = [.wait, .signal]

/-- A write moves the position only if it does not fail, and takes and leaves the mutex once. -/
structure WriteBounded (s : Rfs) (i : ℕ) (buff : ℕ → UInt8)
    (count : ℤ) (w : RfWorld) (resp : ℕ → UInt8) : Prop where
  /-- If it fails, the position stays. -/
  rfpos : (s.rflwriteActs i buff count w resp).2.1 = SYSERR →
    ((s.rflwriteActs i buff count w resp).1.rfltab i).rfpos = (s.rfltab i).rfpos
  /-- It takes the mutex once, and leaves it once. -/
  mutex : mutexOps (s.rflwriteActs i buff count w resp).2.2 = [.wait, .signal]

/-- What a read that gets a reply needs of it: the header is there as far as it is looked at, and
the length is neither above the count nor above what the datagram holds. -/
def ReadFits (count : ℤ) (r : ℤ × (ℕ → UInt8)) : Prop :=
  (RF_STATUS_AT + 2 : ℕ) ≤ r.1 ∧
    (Bytes.be16 r.2 RF_STATUS_AT = 0 → (Bytes.be32 r.2 RF_LEN_AT : ℤ) ≤ count ∧
      (RF_DATA_AT + Bytes.be32 r.2 RF_LEN_AT : ℕ) ≤ r.1)

/-- What a write that gets a reply needs of it: the length is not the one that is -1 as a signed number. -/
def WriteFits (b : ℕ → UInt8) : Prop := Bytes.be16 b RF_STATUS_AT = 0 → Bytes.be32 b RF_LEN_AT ≠ 2 ^ 32 - 1

/-- A small count is the same as a signed number. -/
theorem int32_of_le {x : ℕ} (h : x ≤ RF_DATALEN) : int32 x = x := by
  have hle : x ≤ 1024 := h
  unfold int32
  rw [Int.bmod_def]
  omega

/-- The only count that is -1 as a signed number. -/
theorem int32_eq_syserr {x : ℕ} (h : x < 2 ^ 32) : int32 x = SYSERR ↔ x = 2 ^ 32 - 1 := by
  unfold int32 SYSERR
  rw [Int.bmod_def]
  omega

/-- Adding such a count moves the position. -/
theorem rfpos_moves (pos : ℕ) : (pos + (2 ^ 32 - 1)) % 2 ^ 32 ≠ pos := by omega

/-- What a read looks at is in the datagram, if the data are. -/
theorem loaded_within {o len : ℕ} {n : ℤ}
    (h : RF_STATUS_AT ≤ o ∧ o < RF_STATUS_AT + 2 ∨
      (RF_LEN_AT ≤ o ∧ o < RF_LEN_AT + 4 ∨ RF_DATA_AT + 0 ≤ o ∧ o < RF_DATA_AT + 0 + len) ∨
      RF_LEN_AT ≤ o ∧ o < RF_LEN_AT + 4)
    (hin : (RF_DATA_AT + len : ℕ) ≤ n) : (o : ℤ) < n := by
  simp only [RF_STATUS_AT, RF_LEN_AT, RF_DATA_AT] at h hin
  omega

/-- A read that gets no reply is bounded: all that it does is to take and leave the mutex. -/
theorem readBounded_early (h : ¬ (s.Asks i count LF_MODE_R ∧ w.Replies s.rf_seq RF_MSG_RREQ resp)) :
    s.ReadBounded i count w resp := by
  obtain ⟨htab, hres⟩ := rflreadActs_early h
  constructor <;> rw [hres]
  · simp
  · simp
  · exact .inl rfl
  · intro _
    rw [htab]
  · rfl

section

variable (hasks : s.Asks i count LF_MODE_R) (hrep : w.Replies s.rf_seq RF_MSG_RREQ resp)

include hasks hrep

/-- A read whose reply has an error is bounded if the reply has a status, which is the last that is
read of it. -/
theorem readBounded_error (hstatus : Bytes.be16 (w.rfscomm s.rf_seq RF_MSG_RREQ resp).2 RF_STATUS_AT ≠ 0) :
    s.ReadBounded i count w resp ↔ (RF_STATUS_AT + 2 : ℕ) ≤ (w.rfscomm s.rf_seq RF_MSG_RREQ resp).1 := by
  obtain ⟨htab, hres⟩ := (rflreadActs_reply hasks hrep).1 hstatus
  constructor
  · intro hb
    exact hb.loads (RF_STATUS_AT + 1) (by rw [hres]; simp [-Nat.reduceAdd])
  · intro hlen
    constructor <;> rw [hres]
    · simp
    · intro o ho
      have ho : RF_STATUS_AT ≤ o ∧ o < RF_STATUS_AT + 2 := by simpa using ho
      exact (Int.ofNat_lt.mpr ho.2).trans_le hlen
    · exact .inl rfl
    · intro _
      rw [htab]
    · rfl

/-- A bounded read stores and reads the last byte that the reply announces, so the reply fits. -/
theorem readFits_of_bounded (hb : s.ReadBounded i count w resp)
    (hstatus : Bytes.be16 (w.rfscomm s.rf_seq RF_MSG_RREQ resp).2 RF_STATUS_AT = 0) :
    ReadFits count (w.rfscomm s.rf_seq RF_MSG_RREQ resp) := by
  obtain ⟨-, hres⟩ := (rflreadActs_reply hasks hrep).2 hstatus
  generalize hr : w.rfscomm s.rf_seq RF_MSG_RREQ resp = r at hres
  generalize hlen : Bytes.be32 r.2 RF_LEN_AT = len at hres
  have hstore : len ≠ 0 → (len : ℤ) - 1 < count := by
    intro hne
    obtain ⟨ch, hch⟩ := (store_mem_copyData r.2 (j := len - 1) len 0).mpr (by omega)
    have hlt := hb.stores (len - 1) ch (by
      rw [hres]
      simp only [List.mem_append, hch, or_true, true_or])
    omega
  have hload : ((RF_DATA_AT + len - 1 : ℕ) : ℤ) < r.1 := by
    have hmem := (load_mem_copyData r.2 (o := RF_DATA_AT + len - 1) len 0).mpr
      (by simp only [RF_LEN_AT, RF_DATA_AT]; omega)
    have hlt := hb.loads (RF_DATA_AT + len - 1) (by
      rw [hres]
      simp only [List.mem_append, hmem, or_true, true_or])
    rwa [hr] at hlt
  have hcount := hasks.pos
  unfold ReadFits
  rw [hlen]
  simp only [RF_STATUS_AT, RF_DATA_AT] at hload ⊢
  exact ⟨by omega, fun _ => ⟨by omega, by omega⟩⟩

/-- A read whose reply fits is bounded. -/
theorem readBounded_of_fits (hstatus : Bytes.be16 (w.rfscomm s.rf_seq RF_MSG_RREQ resp).2 RF_STATUS_AT = 0)
    (hfits : ReadFits count (w.rfscomm s.rf_seq RF_MSG_RREQ resp)) : s.ReadBounded i count w resp := by
  obtain ⟨-, hres⟩ := (rflreadActs_reply hasks hrep).2 hstatus
  obtain ⟨hle, hin⟩ := hfits.2 hstatus
  generalize hr : w.rfscomm s.rf_seq RF_MSG_RREQ resp = r at hres hle hin
  generalize hlen : Bytes.be32 r.2 RF_LEN_AT = len at hres hle hin
  have hsmall : len ≤ RF_DATALEN := by
    have hcount := hasks.le
    omega
  have hval : int32 (len : ℤ) = len := int32_of_le hsmall
  constructor <;> rw [hres]
  · intro j ch hj
    have hmem : .store j ch ∈ copyData r.2 len 0 := by simpa using hj
    have hlt := ((store_mem_copyData r.2 len 0).mp ⟨ch, hmem⟩).2
    rw [Nat.zero_add] at hlt
    exact (Int.ofNat_lt.mpr hlt).trans_le hle
  -- What is read is the status, the length and the data.
  · intro o ho
    have hmem : RF_STATUS_AT ≤ o ∧ o < RF_STATUS_AT + 2 ∨ .load o ∈ copyData r.2 len 0 ∨
        RF_LEN_AT ≤ o ∧ o < RF_LEN_AT + 4 := by
      simp only [List.mem_append, List.mem_cons, List.not_mem_nil,
        or_false, reduceCtorEq, false_or, load_mem_loads] at ho
      rcases ho with ((ho | ho) | ho) | ho
      · exact .inl ho
      · exact .inr (.inl ho)
      all_goals exact .inr (.inr ho)
    rw [load_mem_copyData] at hmem
    rw [hr]
    exact loaded_within hmem hin
  · dsimp only
    rw [hval]
    split_ifs with h0
    · exact .inr (.inl rfl)
    · exact .inr (.inr ⟨Int.ofNat_le.mpr (Nat.one_le_iff_ne_zero.mpr h0), hle⟩)
  · -- the value is not the error
    dsimp only
    rw [hval]
    intro herr
    split_ifs at herr with h0
    · exact absurd herr (by decide)
    · have hnonneg := Int.natCast_nonneg len
      rw [herr] at hnonneg
      exact absurd hnonneg (by decide)
  · simp only [mutexOps_append, mutexOps_loads, mutexOps_copyData]
    rfl

end

/-- A read is bounded exactly if no reply comes, or one that fits. -/
theorem readBounded_iff (s : Rfs) (i : ℕ) (count : ℤ) (w : RfWorld) (resp : ℕ → UInt8) :
    s.ReadBounded i count w resp ↔ (s.Asks i count LF_MODE_R → w.Replies s.rf_seq RF_MSG_RREQ resp →
      ReadFits count (w.rfscomm s.rf_seq RF_MSG_RREQ resp)) := by
  by_cases h : s.Asks i count LF_MODE_R ∧ w.Replies s.rf_seq RF_MSG_RREQ resp
  swap
  · exact iff_of_true (readBounded_early h) fun hasks hrep => absurd ⟨hasks, hrep⟩ h
  obtain ⟨hasks, hrep⟩ := h
  by_cases hstatus : Bytes.be16 (w.rfscomm s.rf_seq RF_MSG_RREQ resp).2 RF_STATUS_AT = 0
  · exact ⟨fun hb _ _ => readFits_of_bounded hasks hrep hb hstatus,
      fun hf => readBounded_of_fits hasks hrep hstatus (hf hasks hrep)⟩
  · rw [readBounded_error hasks hrep hstatus]
    exact ⟨fun hlen _ _ => ⟨hlen, fun h => absurd h hstatus⟩, fun hf => (hf hasks hrep).1⟩

/-- A write is bounded exactly if no reply comes, or one that fits. -/
theorem writeBounded_iff (s : Rfs) (i : ℕ) (buff : ℕ → UInt8) (count : ℤ) (w : RfWorld) (resp : ℕ → UInt8) :
    s.WriteBounded i buff count w resp ↔ (s.Asks i count LF_MODE_W → w.Replies s.rf_seq RF_MSG_WREQ resp →
      WriteFits (w.rfscomm s.rf_seq RF_MSG_WREQ resp).2) := by
  by_cases h : s.Asks i count LF_MODE_W ∧ w.Replies s.rf_seq RF_MSG_WREQ resp
  swap
  · obtain ⟨htab, hres⟩ := rflwriteActs_early buff h
    refine iff_of_true ?_ fun hasks hrep => absurd ⟨hasks, hrep⟩ h
    constructor <;> rw [hres]
    · intro _
      rw [htab]
    · rfl
  -- The request is sent and a reply comes.
  obtain ⟨hasks, hrep⟩ := h
  obtain ⟨hbad, hgood⟩ := rflwriteActs_reply buff hasks hrep
  generalize hb : (w.rfscomm s.rf_seq RF_MSG_WREQ resp).2 = b at hbad hgood
  have hiff : (s.Asks i count LF_MODE_W → w.Replies s.rf_seq RF_MSG_WREQ resp → WriteFits b) ↔ WriteFits b :=
    ⟨fun hf => hf hasks hrep, fun hf _ _ => hf⟩
  rw [hiff]
  by_cases hstatus : Bytes.be16 b RF_STATUS_AT = 0
  swap
  · obtain ⟨htab, hres⟩ := hbad hstatus
    refine iff_of_true ?_ fun h => absurd h hstatus
    constructor <;> rw [hres]
    · intro _
      rw [htab]
    · rfl
  obtain ⟨hpos, hres⟩ := hgood hstatus
  -- The length is the error exactly if it is the largest number of 32 bits.
  have herr : int32 (Bytes.be32 b RF_LEN_AT) = SYSERR ↔ Bytes.be32 b RF_LEN_AT = 2 ^ 32 - 1 :=
    int32_eq_syserr (Bytes.be32_lt _ _)
  have hval : (s.rflwriteActs i buff count w resp).2.1 = int32 (Bytes.be32 b RF_LEN_AT) := by rw [hres]
  -- A position that has moved was not given back with an error.
  constructor
  · intro hw _ hlen
    have hsame := hw.rfpos (hval.trans (herr.mpr hlen))
    rw [hpos, hlen] at hsame
    exact rfpos_moves _ hsame
  · intro hfit
    constructor
    · intro h
      exact absurd (herr.mp (hval.symm.trans h)) (hfit hstatus)
    · rw [hres]
      simp only [mutexOps_append, mutexOps_loads]
      rfl

/-- A read stays within the bounds exactly if it gets no reply, or one that holds the data that it
says, no more than asked for; a write exactly if it gets none, or one that does not report -1 bytes.
-/
theorem rfl_bounded (s : Rfs) (i : ℕ) (buff : ℕ → UInt8) (count : ℤ) (w : RfWorld) (resp : ℕ → UInt8) :
    (s.ReadBounded i count w resp ↔ (s.Asks i count LF_MODE_R → w.Replies s.rf_seq RF_MSG_RREQ resp →
      ReadFits count (w.rfscomm s.rf_seq RF_MSG_RREQ resp))) ∧
    (s.WriteBounded i buff count w resp ↔ (s.Asks i count LF_MODE_W → w.Replies s.rf_seq RF_MSG_WREQ resp →
      WriteFits (w.rfscomm s.rf_seq RF_MSG_WREQ resp).2)) :=
  ⟨readBounded_iff s i count w resp, writeBounded_iff s i buff count w resp⟩

/-- A file that was opened, and a server that answers the read of 2 bytes with 3, and the write with
a length of -1. -/
theorem rflread_overruns : ∃ (s : Rfs) (w : RfWorld) (buff : ℕ → UInt8),
    RfAct.store 2 0x63 ∈ (s.rflreadActs 0 2 w (ofList [])).2.2 ∧ ¬ s.ReadBounded 0 2 w (ofList []) ∧
      ∃ w' : RfWorld, ¬ s.WriteBounded 0 buff 2 w' (ofList []) := by
  let hdr (mtype : UInt8) (len : List UInt8) : List UInt8 :=
    [1, mtype, 0, 0, 0, 0, 0, 7, 0x66] ++ List.replicate 131 0 ++ len
  let world (l : List UInt8) : RfWorld := ⟨true, 0, fun _ => ⟨true, l.length, ofList l⟩⟩
  let s : Rfs := ⟨fun _ => ⟨true, RFILE0, ofList [0x66], 0, LF_MODE_R + LF_MODE_W⟩, 7, []⟩
  have hstore : RfAct.store 2 0x63 ∈
      (s.rflreadActs 0 2 (world (hdr 1 [0, 0, 0, 3] ++ [0x61, 0x62, 0x63])) (ofList [])).2.2 := by
    decide +kernel
  refine ⟨s, _, fun _ => 0, hstore, fun h => ?_, world (hdr 2 [0xff, 0xff, 0xff, 0xff]), fun h => ?_⟩
  · exact absurd (h.stores 2 0x63 hstore) (by decide)
  · have hmoved : ((s.rflwriteActs 0 (fun _ => 0) 2 (world (hdr 2 [0xff, 0xff, 0xff, 0xff]))
        (ofList [])).1.rfltab 0).rfpos ≠ 0 := by
      decide +kernel
    exact hmoved (h.rfpos (by decide +kernel))

end Rfs

end Xinu
