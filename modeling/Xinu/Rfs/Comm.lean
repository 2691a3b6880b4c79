import Xinu.Rds.Comm
import Xinu.Rfs.FileSpec

/-!
# Exchanges with the remote file server

`rfscomm` at the level of bytes: what each datagram leaves in the buffer for the reply. Over it,
`rflread` and `rflwrite` with all that they do to the mutex, to the buffer of the caller and to the
reply, in order. Both are the calls of `Rfs` with the outcome that the datagrams give.
-/

namespace Xinu

open Bytes

/-- `RF_RETRIES`. -/
abbrev RF_RETRIES : ℕ := 3

/-- `RF_MSG_RESPONSE`. -/
abbrev RF_MSG_RESPONSE : ℕ := 0x0100

/-- The offsets of the fields in `struct rf_msg_rres`; those of `struct rf_msg_wres` are the same,
up to `rf_data`. -/
abbrev RF_TYPE_AT : ℕ := 0
@[inherit_doc RF_TYPE_AT] abbrev RF_STATUS_AT : ℕ := 2
@[inherit_doc RF_TYPE_AT] abbrev RF_SEQ_AT : ℕ := 4
@[inherit_doc RF_TYPE_AT] abbrev RF_LEN_AT : ℕ := 140
@[inherit_doc RF_TYPE_AT] abbrev RF_DATA_AT : ℕ := 144

/-- What happens outside in a call: whether the port is registered already, the result of
`udp_register`, and the tries. The name of the server can be converted to an address: otherwise the
system stops. -/
structure RfWorld where
  /-- Whether the port is registered already. -/
  rf_registered : Bool
  /-- The result of `udp_register`. -/
  slot : ℤ
  /-- What happens in each try. -/
  tries : ℕ → RdsTry

namespace RfWorld

/-- The loop of `rfscomm`, with `n` tries left and the `i`-th one next: what it returns, and what is
in the buffer for the reply. -/
def retry (w : RfWorld) (seq : ℤ) (mtype : ℕ) : ℕ → ℕ → (ℕ → UInt8) → ℤ × (ℕ → UInt8)
  | 0, _, reply => (TIMEOUT, reply)
  | n + 1, i, reply =>
    let t := w.tries i
    if ¬ t.sent then (SYSERR, reply)
    else if t.retval = TIMEOUT then retry w seq mtype n (i + 1) reply
    else if t.retval = SYSERR then (SYSERR, reply)
    else
      let reply := overlay reply t.data t.retval
      if ntohl (le32 reply RF_SEQ_AT) ≠ uint32 seq then retry w seq mtype n (i + 1) reply
      else
        let rtype := int16 (ntohs (le16 reply RF_TYPE_AT))
        if rtype ≠ ((mtype ||| RF_MSG_RESPONSE : ℕ) : ℤ) then retry w seq mtype n (i + 1) reply
        else (t.retval, reply)

/-- `rfscomm(msg, mlen, reply, rlen)`, for a message of the type that gets the sequence number. -/
def rfscomm (w : RfWorld) (seq : ℤ) (mtype : ℕ) (reply : ℕ → UInt8) : ℤ × (ℕ → UInt8) :=
  if ! w.rf_registered ∧ w.slot = SYSERR then (SYSERR, reply) else w.retry seq mtype RF_RETRIES 0 reply

/-- The outcome for the calls of `Rfs`. -/
def outcome (w : RfWorld) (seq : ℤ) (mtype : ℕ) (reply : ℕ → UInt8) : RfOutcome :=
  if ! w.rf_registered ∧ w.slot = SYSERR then .refused
  else
    let r := w.rfscomm seq mtype reply
    if r.1 = SYSERR ∨ r.1 = TIMEOUT then .silent
    else .reply ⟨ntohs (le16 r.2 RF_STATUS_AT), ntohl (le32 r.2 RF_LEN_AT), fun i => r.2 (RF_DATA_AT + i)⟩

end RfWorld

/-- What a call does to the mutex and to memory. -/
inductive RfAct where
  /-- `wait(Rf_data.rf_mutex)`. -/
  | wait
  /-- `signal(Rf_data.rf_mutex)`. -/
  | signal
  /-- Read a byte of `resp`. -/
  | load (offset : ℕ)
  /-- `*buff++ = ch`, at this place of the buffer. -/
  | store (i : ℕ) (ch : UInt8)
  deriving DecidableEq

/-- Read `n` bytes of `resp`. -/
def loads (offset n : ℕ) : List RfAct := (List.range n).map fun k => .load (offset + k)

/-- The loop of `rflread` that copies the data, with `n` bytes left. The length is read in each test. -/
def copyData (resp : ℕ → UInt8) : ℕ → ℕ → List RfAct
  | 0, _ => loads RF_LEN_AT 4
  | n + 1, i =>
    loads RF_LEN_AT 4 ++ [.load (RF_DATA_AT + i), .store i (resp (RF_DATA_AT + i))] ++ copyData resp n (i + 1)

namespace Rfs

/-- `rflread(devptr, buff, count)`, where `resp` is the buffer for the reply. -/
def rflreadActs (s : Rfs) (i : ℕ) (count : ℤ) (w : RfWorld) (resp : ℕ → UInt8) : Rfs × ℤ × List RfAct :=
  if count ≤ 0 ∨ count > RF_DATALEN then (s, SYSERR, [.wait, .signal])
  else
    let rfptr := s.rfltab i
    if ¬ rfptr.rfused then (s, SYSERR, [.wait, .signal])
    else if rfptr.rfmode &&& LF_MODE_R = 0 then (s, SYSERR, [.wait, .signal])
    else
      match copyName rfptr.byte RF_NAMLEN 0 fun _ => 0 with
      | none => (s, SYSERR, [.wait, .signal])
      | some (_, dst) =>
        let msg := fun seq => .rreq ⟨RF_MSG_RREQ, 0, seq, nameField dst⟩ rfptr.rfpos count
        let s' := (s.rfscomm msg (w.outcome s.rf_seq RF_MSG_RREQ resp)).1
        let r := w.rfscomm s.rf_seq RF_MSG_RREQ resp
        if r.1 = SYSERR then (s', SYSERR, [.wait, .signal])
        else if r.1 = TIMEOUT then (s', SYSERR, [.wait, .signal])
        else if ntohs (le16 r.2 RF_STATUS_AT) ≠ 0 then
          (s', SYSERR, [.wait] ++ loads RF_STATUS_AT 2 ++ [.signal])
        else
          let len := ntohl (le32 r.2 RF_LEN_AT)
          (s'.set i { rfptr with rfpos := (rfptr.rfpos + len) % 2 ^ 32 }, if len = 0 then EOF else int32 len,
            [.wait] ++ loads RF_STATUS_AT 2 ++ copyData r.2 len 0 ++
              loads RF_LEN_AT 4 ++ [.signal] ++ loads RF_LEN_AT 4)

/-- `rflwrite(devptr, buff, count)`, where `resp` is the buffer for the reply. -/
def rflwriteActs (s : Rfs) (i : ℕ) (buff : ℕ → UInt8) (count : ℤ) (w : RfWorld) (resp : ℕ → UInt8) :
    Rfs × ℤ × List RfAct :=
  if count ≤ 0 ∨ count > RF_DATALEN then (s, SYSERR, [.wait, .signal])
  else
    let rfptr := s.rfltab i
    if ¬ rfptr.rfused ∨ rfptr.rfmode &&& LF_MODE_W = 0 then (s, SYSERR, [.wait, .signal])
    else
      match copyName rfptr.byte RF_NAMLEN 0 fun _ => 0 with
      | none => (s, SYSERR, [.wait, .signal])
      | some (next, dst) =>
        let dst := copyRest rfptr.byte (RF_NAMLEN + 9) next dst
        let hdr := fun seq => ⟨RF_MSG_WREQ, 0, seq, nameField dst⟩
        let msg := fun seq => .wreq (hdr seq) rfptr.rfpos count (dataField buff count)
        let s' := (s.rfscomm msg (w.outcome s.rf_seq RF_MSG_WREQ resp)).1
        let r := w.rfscomm s.rf_seq RF_MSG_WREQ resp
        if r.1 = SYSERR then (s', SYSERR, [.wait, .signal])
        else if r.1 = TIMEOUT then (s', SYSERR, [.wait, .signal])
        else if ntohs (le16 r.2 RF_STATUS_AT) ≠ 0 then
          (s', SYSERR, [.wait] ++ loads RF_STATUS_AT 2 ++ [.signal])
        else
          let len := ntohl (le32 r.2 RF_LEN_AT)
          (s'.set i { rfptr with rfpos := (rfptr.rfpos + len) % 2 ^ 32 }, int32 len,
            [.wait] ++ loads RF_STATUS_AT 2 ++ loads RF_LEN_AT 4 ++ [.signal] ++ loads RF_LEN_AT 4)

end Rfs

/-! ## What the actions are -/

/-- The bytes that are stored, in order. -/
def stored (acts : List RfAct) : List UInt8 :=
  acts.filterMap fun a => match a with
    | .store _ ch => some ch
    | _ => none

/-- What is done to the mutex, in order. -/
def mutexOps (acts : List RfAct) : List RfAct := acts.filter fun a => a = .wait ∨ a = .signal

/-- The stored bytes of two stretches. -/
@[simp] theorem stored_append (a b : List RfAct) : stored (a ++ b) = stored a ++ stored b :=
  List.filterMap_append

/-- The mutex operations of two stretches. -/
@[simp] theorem mutexOps_append (a b : List RfAct) : mutexOps (a ++ b) = mutexOps a ++ mutexOps b :=
  List.filter_append ..

/-- What is read of a field. -/
@[simp] theorem load_mem_loads {o offset n : ℕ} : .load o ∈ loads offset n ↔ offset ≤ o ∧ o < offset + n := by
  simp only [loads, List.mem_map, List.mem_range, RfAct.load.injEq]
  constructor
  · rintro ⟨k, hk, rfl⟩
    omega
  · rintro ⟨hle, hlt⟩
    exact ⟨o - offset, by omega, by omega⟩

/-- A read stores nothing. -/
@[simp] theorem store_mem_loads {j offset n : ℕ} {ch : UInt8} : .store j ch ∉ loads offset n := by
  simp [loads]

/-- A read stores nothing. -/
@[simp] theorem stored_loads (offset n : ℕ) : stored (loads offset n) = [] := by simp [stored, loads]

/-- A read leaves the mutex alone. -/
@[simp] theorem mutexOps_loads (offset n : ℕ) : mutexOps (loads offset n) = [] := by simp [mutexOps, loads]

/-- The copy stores the bytes of the reply, as many as it says. -/
theorem stored_copyData (resp : ℕ → UInt8) :
    ∀ n i : ℕ, stored (copyData resp n i) = (List.range' i n).map fun k => resp (RF_DATA_AT + k)
  | 0, i => by rw [copyData, stored_loads]; rfl
  | n + 1, i => by
    rw [copyData, stored_append, stored_append, stored_loads,
      stored_copyData resp n (i + 1), List.range'_succ]
    rfl

/-- The copy leaves the mutex alone. -/
@[simp] theorem mutexOps_copyData (resp : ℕ → UInt8) : ∀ n i : ℕ, mutexOps (copyData resp n i) = []
  | 0, i => by rw [copyData, mutexOps_loads]
  | n + 1, i => by
    rw [copyData, mutexOps_append, mutexOps_append, mutexOps_loads, mutexOps_copyData resp n (i + 1)]
    rfl

/-- The copy stores at the places from `i` on. -/
theorem store_mem_copyData (resp : ℕ → UInt8) {j : ℕ} :
    ∀ n i : ℕ, (∃ ch, .store j ch ∈ copyData resp n i) ↔ i ≤ j ∧ j < i + n
  | 0, i => by
    rw [copyData]
    exact iff_of_false (fun ⟨_, h⟩ => store_mem_loads h) (by omega)
  | n + 1, i => by
    have hrest := store_mem_copyData resp (j := j) n (i + 1)
    have hsplit : (∃ ch, .store j ch ∈ copyData resp (n + 1) i) ↔
        j = i ∨ ∃ ch, .store j ch ∈ copyData resp n (i + 1) := by
      simp only [copyData, List.mem_append, store_mem_loads, List.mem_cons,
        false_or, reduceCtorEq, RfAct.store.injEq,
        List.not_mem_nil, or_false, exists_or]
      refine or_congr_left ⟨fun ⟨_, h, _⟩ => h, fun h => ⟨_, h, rfl⟩⟩
    rw [hsplit, hrest]
    omega

/-- The copy reads the length, and as many bytes of data as it stores. -/
theorem load_mem_copyData (resp : ℕ → UInt8) {o : ℕ} : ∀ n i : ℕ, .load o ∈ copyData resp n i ↔
    RF_LEN_AT ≤ o ∧ o < RF_LEN_AT + 4 ∨ RF_DATA_AT + i ≤ o ∧ o < RF_DATA_AT + i + n
  | 0, i => by
    rw [copyData, load_mem_loads]
    omega
  | n + 1, i => by
    simp only [copyData, List.mem_append, load_mem_loads, List.mem_cons,
      RfAct.load.injEq, reduceCtorEq, List.not_mem_nil,
      or_false, load_mem_copyData resp n (i + 1)]
    omega

/-! ## The calls of `Rfs` -/

variable {w : RfWorld} {seq : ℤ} {mtype : ℕ} {resp : ℕ → UInt8}

/-- If `rfscomm` returns `SYSERR` or `TIMEOUT`, the exchange has brought no reply. -/
theorem RfWorld.outcome_none (h : (w.rfscomm seq mtype resp).1 = SYSERR ∨
    (w.rfscomm seq mtype resp).1 = TIMEOUT) :
    w.outcome seq mtype resp = .refused ∨ w.outcome seq mtype resp = .silent := by
  unfold outcome
  split_ifs
  · exact .inl rfl
  · exact .inr (if_pos h)

/-- An exchange with a reply: its status, its length and its data are in the buffer. -/
theorem RfWorld.outcome_reply (hsys : (w.rfscomm seq mtype resp).1 ≠ SYSERR)
    (htime : (w.rfscomm seq mtype resp).1 ≠ TIMEOUT) :
    w.outcome seq mtype resp = .reply ⟨ntohs (le16 (w.rfscomm seq mtype resp).2 RF_STATUS_AT),
      ntohl (le32 (w.rfscomm seq mtype resp).2 RF_LEN_AT), fun i =>
        (w.rfscomm seq mtype resp).2 (RF_DATA_AT + i)⟩ := by
  have hport : ¬ (! w.rf_registered ∧ w.slot = SYSERR) := by
    intro h
    rw [rfscomm, if_pos h] at hsys
    exact hsys rfl
  unfold outcome
  rw [if_neg hport]
  exact if_neg (not_or.mpr ⟨hsys, htime⟩)

namespace Rfs

variable (s : Rfs) (i : ℕ) (buff : ℕ → UInt8) (count : ℤ) (w : RfWorld) (resp : ℕ → UInt8)

/-- An exchange without a reply brings none. -/
theorem rfscomm_none {msg : ℤ → RfRequest} {o : RfOutcome} (h : o = .refused ∨ o = .silent) :
    (s.rfscomm msg o).2 = none := by
  rcases h with rfl | rfl <;> rfl

/-- `rflreadActs` is `rflread`, with the same bytes for the caller. -/
theorem rflreadActs_refines : let r := s.rflreadActs i count w resp
    s.rflread i count (w.outcome s.rf_seq RF_MSG_RREQ resp) = (r.1, r.2.1, stored r.2.2) := by
  dsimp only
  unfold rflreadActs rflread
  by_cases hcount : count ≤ 0 ∨ count > RF_DATALEN
  · rw [if_pos hcount, if_pos hcount]; rfl
  rw [if_neg hcount, if_neg hcount]
  dsimp only
  by_cases hused : ¬ (s.rfltab i).rfused
  · rw [if_pos hused, if_pos hused]; rfl
  rw [if_neg hused, if_neg hused]
  by_cases hmode : (s.rfltab i).rfmode &&& LF_MODE_R = 0
  · rw [if_pos hmode, if_pos hmode]; rfl
  rw [if_neg hmode, if_neg hmode]
  cases hname : copyName (s.rfltab i).byte RF_NAMLEN 0 fun _ => 0 with
  | none => rfl
  | some p =>
    obtain ⟨next, dst⟩ := p
    dsimp only
    by_cases hsys : (w.rfscomm s.rf_seq RF_MSG_RREQ resp).1 = SYSERR
    · rw [if_pos hsys, rfscomm_none s (RfWorld.outcome_none (.inl hsys))]; rfl
    by_cases htime : (w.rfscomm s.rf_seq RF_MSG_RREQ resp).1 = TIMEOUT
    · rw [if_neg hsys, if_pos htime, rfscomm_none s (RfWorld.outcome_none (.inr htime))]; rfl
    -- a reply has come
    rw [if_neg hsys, if_neg htime, RfWorld.outcome_reply hsys htime]
    dsimp only [rfscomm]
    split_ifs with hstatus hlen
    · simp only [stored_append, stored_loads]; rfl
    all_goals
      simp only [stored_append, stored_loads, stored_copyData, List.range_eq_range']
      simp [stored]

/-- With its reads of memory left out, `rflwriteActs` is `rflwrite`. -/
theorem rflwriteActs_refines : let r := s.rflwriteActs i buff count w resp
    s.rflwrite i buff count (w.outcome s.rf_seq RF_MSG_WREQ resp) = (r.1, r.2.1) := by
  dsimp only
  unfold rflwriteActs rflwrite
  by_cases hcount : count ≤ 0 ∨ count > RF_DATALEN
  · rw [if_pos hcount, if_pos hcount]
  rw [if_neg hcount, if_neg hcount]
  dsimp only
  by_cases hused : ¬ (s.rfltab i).rfused ∨ (s.rfltab i).rfmode &&& LF_MODE_W = 0
  · rw [if_pos hused, if_pos hused]
  rw [if_neg hused, if_neg hused]
  cases hname : copyName (s.rfltab i).byte RF_NAMLEN 0 fun _ => 0 with
  | none => rfl
  | some p =>
    obtain ⟨next, dst⟩ := p
    dsimp only
    by_cases hsys : (w.rfscomm s.rf_seq RF_MSG_WREQ resp).1 = SYSERR
    · rw [if_pos hsys, rfscomm_none s (RfWorld.outcome_none (.inl hsys))]
    by_cases htime : (w.rfscomm s.rf_seq RF_MSG_WREQ resp).1 = TIMEOUT
    · rw [if_neg hsys, if_pos htime, rfscomm_none s (RfWorld.outcome_none (.inr htime))]
    rw [if_neg hsys, if_neg htime, RfWorld.outcome_reply hsys htime]
    dsimp only [rfscomm]
    split_ifs <;> dsimp only

end Rfs

end Xinu
