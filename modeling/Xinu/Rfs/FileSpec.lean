import Mathlib.Data.List.GetD
import Xinu.Rfs.File

/-!
# The requests of remote files

What a request carries: the name with which the pseudo-device was last opened, the position, the
count and the data. Four loops copy names, and each writes the same bytes: those of `placeName`. A
control block keeps the bytes of earlier names behind the name. The second loop of `rflwrite` copies
these too, up to the next null character: its name is padded with null characters only where it
finds one at once.
-/

namespace Xinu

/-- The bytes of a buffer after a name and a null character have been written to it from a place on. -/
def placeName (name : CString) (i : ℕ) (dst : ℕ → UInt8) : ℕ → UInt8 := fun j =>
  if i ≤ j ∧ j ≤ i + name.length then name.getD (j - i) 0 else dst j

/-- A name in a field of `RF_NAMLEN` bytes, padded with null characters. -/
def padded (name : CString) : List UInt8 := name ++ List.replicate (RF_NAMLEN - name.length) 0

/-- A buffer holds a name of characters that are not null, with a null character behind it. -/
structure HoldsName (src : ℕ → UInt8) (name : CString) : Prop where
  /-- The name fits, with its null character. -/
  length : name.length < RF_NAMLEN
  /-- It has no null character. -/
  chars : ∀ ch ∈ name, ch ≠ 0
  /-- The bytes are those of the name, and a null character. -/
  bytes : ∀ j ≤ name.length, src j = name.getD j 0

/-! ## The loops -/

/-- An empty name is its null character. -/
theorem placeName_nil (i : ℕ) (dst : ℕ → UInt8) : placeName [] i dst = Function.update dst i 0 := by
  funext j
  by_cases h : j = i
  · subst h
    simp [placeName]
  · rw [Function.update_of_ne h, placeName, if_neg]
    simp only [List.length_nil]
    omega

/-- A name is its first character and the rest. -/
theorem placeName_cons (ch : UInt8) (name : CString) (i : ℕ) (dst : ℕ → UInt8) :
    placeName (ch :: name) i dst = placeName name (i + 1) (Function.update dst i ch) := by
  funext j
  unfold placeName
  rcases lt_trichotomy j i with h | h | h
  · rw [if_neg (by omega), if_neg (by omega), Function.update_of_ne (by omega)]
  · subst h
    rw [if_pos (by simp), if_neg (by omega), Function.update_self]
    simp
  · by_cases hj : j ≤ i + 1 + name.length
    · have hs : j - i = (j - (i + 1)) + 1 := by omega
      rw [if_pos ⟨by omega, by simp; omega⟩, if_pos ⟨by omega, hj⟩, hs, List.getD_cons_succ]
    · rw [if_neg (by simp; omega), if_neg (by omega), Function.update_of_ne (by omega)]

/-- The copy of `rfsopen` into its request. -/
theorem copyString_eq (name : CString) :
    ∀ (i : ℕ) (dst : ℕ → UInt8), copyString name i dst = placeName name i dst := by
  induction name with
  | nil => intro i dst; rw [copyString, placeName_nil]
  | cons ch name ih => intro i dst; rw [copyString, ih, placeName_cons]

/-- The copy of `rfsopen` into the control block, where the name fits. -/
theorem storeName_eq (name : CString) : ∀ (len : ℕ) (dst : ℕ → UInt8), len + name.length < RF_NAMLEN →
    storeName name len dst = (some (len + name.length), placeName name len dst) := by
  induction name with
  | nil => intro len dst _; rw [storeName, placeName_nil]; rfl
  | cons ch name ih =>
    intro len dst h
    rw [List.length_cons] at h
    rw [storeName, if_neg (by omega), ih _ _ (by omega), placeName_cons, List.length_cons]
    congr 2
    omega

/-- A name that does not fit is refused. -/
theorem storeName_none (name : CString) :
    ∀ (len : ℕ) (dst : ℕ → UInt8), len < RF_NAMLEN → RF_NAMLEN ≤ len + name.length →
    (storeName name len dst).1 = none := by
  induction name with
  | nil => intro len dst h hl; rw [List.length_nil] at hl; omega
  | cons ch name ih =>
    intro len dst h hl
    rw [List.length_cons] at hl
    rw [storeName]
    split
    · rfl
    · exact ih _ _ (by omega) (by omega)

/-- The copy of a name into a request, from a place of the name on. -/
theorem copyName_from (src : ℕ → UInt8) (name : CString) : ∀ (n i : ℕ) (dst : ℕ → UInt8),
    (∀ ch ∈ name, ch ≠ 0) → (∀ j ≤ name.length, src (i + j) = name.getD j 0) →
    i + name.length < RF_NAMLEN → name.length < n →
    copyName src n i dst = some (i + name.length + 1, placeName name i dst) := by
  induction name with
  | nil =>
    intro n i dst _ hb _ hn
    obtain ⟨n, rfl⟩ : ∃ k, n = k + 1 := ⟨n - 1, by simp at hn; omega⟩
    have h0 : src i = 0 := by simpa using hb 0 (by simp)
    rw [copyName, if_pos h0, placeName_nil]
    rfl
  | cons ch name ih =>
    intro n i dst hc hb hl hn
    rw [List.length_cons] at hl hn
    obtain ⟨n, rfl⟩ : ∃ k, n = k + 1 := ⟨n - 1, by omega⟩
    have h0 : src i = ch := by simpa using hb 0 (by simp)
    have hne : ch ≠ 0 := hc ch (by simp)
    have hrest : ∀ j ≤ name.length, src (i + 1 + j) = name.getD j 0 := by
      intro j hj
      rw [show i + 1 + j = i + (j + 1) by omega, hb (j + 1) (by simp; omega), List.getD_cons_succ]
    rw [copyName, h0, if_neg hne, if_neg (by omega),
      ih n (i + 1) _ (fun c hcm => hc c (by simp [hcm])) hrest (by omega) (by omega),
      placeName_cons, List.length_cons]
    congr 2
    omega

/-- The first loop copies the whole name, and stops behind its null character. -/
theorem HoldsName.copyName {src : ℕ → UInt8} {name : CString} (h : HoldsName src name) (dst : ℕ → UInt8) :
    copyName src RF_NAMLEN 0 dst = some (name.length + 1, placeName name 0 dst) := by
  have hb : ∀ j ≤ name.length, src (0 + j) = name.getD j 0 := by
    intro j hj
    rw [Nat.zero_add]
    exact h.bytes j hj
  rw [copyName_from src name RF_NAMLEN 0 dst h.chars hb (by rw [Nat.zero_add]; exact h.length) h.length,
    Nat.zero_add]

/-- The second loop leaves what is before its place. -/
theorem copyRest_lt (src : ℕ → UInt8) :
    ∀ (n i : ℕ) (dst : ℕ → UInt8) {j : ℕ}, j < i → copyRest src n i dst j = dst j := by
  intro n
  induction n with
  | zero => intro i dst j _; rfl
  | succ n ih =>
    intro i dst j hj
    rw [copyRest]
    split
    · rw [Function.update_of_ne (by omega)]
    · rw [ih (i + 1) _ (by omega), Function.update_of_ne (by omega)]

/-- The second loop copies the byte at its place. -/
theorem copyRest_self (src : ℕ → UInt8) (n i : ℕ) (dst : ℕ → UInt8) :
    copyRest src (n + 1) i dst i = src i := by
  rw [copyRest]
  split
  next h => rw [Function.update_self, h]
  next => rw [copyRest_lt src n (i + 1) _ (by omega), Function.update_self]

/-- The field of a request that starts as null characters is the padded name. -/
theorem nameField_placeName (name : CString) (h : name.length < RF_NAMLEN) :
    nameField (placeName name 0 fun _ => 0) = padded name := by
  apply List.ext_getElem
  · simp only [nameField, padded, List.length_map, List.length_range,
      List.length_append, List.length_replicate]
    omega
  · intro j h₁ h₂
    simp only [nameField, padded, List.getElem_map, List.getElem_range, placeName]
    by_cases hj : j < name.length
    · rw [if_pos ⟨by omega, by omega⟩, List.getElem_append_left hj, Nat.sub_zero, List.getD_eq_getElem _ _ hj]
    · rw [List.getElem_append_right (by omega), List.getElem_replicate]
      split
      · rw [List.getD_eq_default _ _ (by omega)]
      · rfl

/-- Two fields are the same if their bytes are. -/
theorem nameField_eq_iff (f g : ℕ → UInt8) : nameField f = nameField g ↔ ∀ j < RF_NAMLEN, f j = g j := by
  unfold nameField
  rw [List.map_inj_left]
  simp only [List.mem_range]

/-- The second loop leaves the padding as it is exactly where it finds a null character at once, or
begins behind the field. -/
theorem nameField_copyRest {src : ℕ → UInt8} {name : CString} (h : name.length < RF_NAMLEN) (n : ℕ) :
    nameField (copyRest src (n + 1) (name.length + 1) (placeName name 0 fun _ => 0)) = padded name ↔
      name.length + 1 = RF_NAMLEN ∨ src (name.length + 1) = 0 := by
  rw [← nameField_placeName name h, nameField_eq_iff]
  have hz : placeName name 0 (fun _ => 0) (name.length + 1) = 0 := by
    unfold placeName
    rw [if_neg (by omega)]
  constructor
  · intro hall
    by_cases hl : name.length + 1 = RF_NAMLEN
    · exact .inl hl
    · have hat := hall (name.length + 1) (by omega)
      rw [copyRest_self, hz] at hat
      exact .inr hat
  · rintro (hl | h0) j hj
    · exact copyRest_lt src _ _ _ (by omega)
    · rw [copyRest, if_pos h0]
      by_cases hj' : j = name.length + 1
      · subst hj'
        rw [Function.update_self, hz]
      · rw [Function.update_of_ne hj']

/-- The data of a request are those of the caller, and null characters behind them. -/
theorem dataField_eq (buff : ℕ → UInt8) {count : ℤ} (h0 : 0 < count) (h1 : count ≤ RF_DATALEN) :
    dataField buff count = (List.range count.toNat).map buff ++ List.replicate
      (RF_DATALEN - count.toNat) 0 := by
  have hc : count.toNat ≤ RF_DATALEN := by omega
  apply List.ext_getElem
  · simp only [dataField, List.length_map, List.length_range, List.length_append, List.length_replicate]
    omega
  · intro j h₁ h₂
    simp only [dataField, List.getElem_map, List.getElem_range]
    by_cases hj : j < count.toNat
    · rw [if_pos (by omega), List.getElem_append_left (by simpa using hj)]
      simp
    · rw [if_neg (by omega), List.getElem_append_right (by simpa using hj), List.getElem_replicate]

/-! ## Runs -/

/-- A call with strings that C can pass, and a position of 32 bits. -/
def RfsEvent.Valid : RfsEvent → Prop
  | .rfsopen name mode _ => (∀ ch ∈ name, ch ≠ 0) ∧ ∀ ch ∈ mode, ch ≠ 0
  | .rflseek _ pos => pos < 2 ^ 32
  | _ => True

/-- The names with which the pseudo-devices were last opened, after a call: a call of `rfsopen` that
succeeds returns the device. -/
def Rfs.opened (s : Rfs) (opened : ℕ → CString) : RfsEvent → ℕ → CString
  | .rfsopen name mode outcome =>
    let r := s.rfsopen name mode outcome
    if r.2 = SYSERR then opened else Function.update opened (r.2 - RFILE0).toNat name
  | _ => opened

/-- The states of all runs, each with the names of the last successful calls of `rfsopen`. -/
inductive RfsReach : Rfs → (ℕ → CString) → Prop where
  | boot : RfsReach Rfs.booted fun _ => []
  | step {s : Rfs} {opened : ℕ → CString} {e : RfsEvent} :
    RfsReach s opened → e.Valid → RfsReach (s.exec e) (s.opened opened e)

/-- The write request that a caller asks for. -/
def askedWrite (s : Rfs) (opened : ℕ → CString) (i : ℕ) (buff : ℕ → UInt8) (count : ℤ) : RfRequest :=
  .wreq ⟨RF_MSG_WREQ, 0, s.rf_seq, padded (opened i)⟩ (s.rfltab i).rfpos count
    ((List.range count.toNat).map buff ++ List.replicate (RF_DATALEN - count.toNat) 0)

/-- The request that a caller asks for. -/
def asked (s : Rfs) (opened : ℕ → CString) : RfsEvent → Option RfRequest
  | .rfsopen name mode _ =>
    (rfsgetmode mode).map fun mbits => .oreq ⟨RF_MSG_OREQ, 0, s.rf_seq, padded name⟩ mbits
  | .rflread i count _ => some (.rreq ⟨RF_MSG_RREQ, 0, s.rf_seq, padded (opened i)⟩ (s.rfltab i).rfpos count)
  | .rflwrite i buff count _ => some (askedWrite s opened i buff count)
  | .rflputc i ch _ => some (askedWrite s opened i (fun _ => ch) 1)
  | .rflclose i _ => some (.creq ⟨RF_MSG_CREQ, 0, s.rf_seq, padded (opened i)⟩)
  | .rflseek _ _ => none

/-- The bytes that the server reports: those of a reply without an error. -/
def RfOutcome.bytes : RfOutcome → ℕ
  | .reply resp => if resp.rf_status = 0 then resp.rf_len else 0
  | _ => 0

/-- The calls that move the position of a file. -/
def RfsEvent.moves : RfsEvent → Option (ℕ × RfOutcome)
  | .rflread i _ outcome => some (i, outcome)
  | .rflwrite i _ _ outcome => some (i, outcome)
  | .rflputc i _ outcome => some (i, outcome)
  | _ => none

/-- A call sends at most the request that its caller asks for, and moves the position of its file by
what the server reports. -/
structure Carries (s : Rfs) (opened : ℕ → CString) (e : RfsEvent) : Prop where
  /-- It sends nothing, or the request that its caller asks for. -/
  sent : (s.exec e).sent = s.sent ∨ ∃ r, asked s opened e = some r ∧ (s.exec e).sent = r :: s.sent
  /-- The position moves by what the server reports, if a request was sent. -/
  position : ∀ i outcome, e.moves = some (i, outcome) → ((s.exec e).rfltab i).rfpos =
    ((s.rfltab i).rfpos + if (s.exec e).sent = s.sent then 0 else outcome.bytes) % 2 ^ 32
  /-- The other files stay as they are. -/
  others : ∀ i outcome, e.moves = some (i, outcome) → ∀ j ≠ i, (s.exec e).rfltab j = s.rfltab j

/-- Behind the name of a pseudo-device is a null character, or the end of the field. -/
def CleanName (s : Rfs) (opened : ℕ → CString) (i : ℕ) : Prop :=
  (opened i).length + 1 = RF_NAMLEN ∨ (s.rfltab i).rfname ((opened i).length + 1) = 0

/-- A write is sent. -/
def Writes (s : Rfs) (i : ℕ) (count : ℤ) (outcome : RfOutcome) : Prop :=
  0 < count ∧ count ≤ RF_DATALEN ∧ (s.rfltab i).rfused ∧ (s.rfltab i).rfmode &&& LF_MODE_W ≠ 0 ∧
    outcome ≠ .refused

/-- A call that writes finds no rest of an earlier name behind the name. -/
def Clean (s : Rfs) (opened : ℕ → CString) : RfsEvent → Prop
  | .rflwrite i _ count outcome => Writes s i count outcome → CleanName s opened i
  | .rflputc i _ outcome => Writes s i 1 outcome → CleanName s opened i
  | _ => True

/-- What holds of the control blocks in every run. -/
structure Rfs.Ok (s : Rfs) (opened : ℕ → CString) : Prop where
  /-- Each control block has its own device. -/
  dev : ∀ i, (s.rfltab i).rfdev = RFILE0 + i
  /-- A control block in use has the name that was opened. -/
  name : ∀ i, (s.rfltab i).rfused → HoldsName (s.rfltab i).rfname (opened i)
  /-- A position is a word. -/
  pos : ∀ i, (s.rfltab i).rfpos < 2 ^ 32

/-! ## The exchange -/

/-- The state after an exchange: where the server answers without an error, the control block is changed. -/
def Rfs.settle (s : Rfs) (i : ℕ) (msg : ℤ → RfRequest) (b : RfReply → Rflcblk) : RfOutcome → Rfs
  | .refused => s
  | .silent => (s.rfscomm msg .silent).1
  | .reply resp =>
    if resp.rf_status ≠ 0 then (s.rfscomm msg (.reply resp)).1
      else (s.rfscomm msg (.reply resp)).1.set i (b resp)

/-- At most one request is sent, the one that was handed over. -/
theorem Rfs.settle_sent (s : Rfs) (i : ℕ) (msg : ℤ → RfRequest)
    (b : RfReply → Rflcblk) (outcome : RfOutcome) :
    (outcome = .refused ∧ (s.settle i msg b outcome).sent = s.sent) ∨
      outcome ≠ .refused ∧ (s.settle i msg b outcome).sent = msg s.rf_seq :: s.sent := by
  cases outcome with
  | refused => exact .inl ⟨rfl, rfl⟩
  | silent => exact .inr ⟨by simp, rfl⟩
  | reply resp =>
    refine .inr ⟨by simp, ?_⟩
    simp only [Rfs.settle]
    split <;> rfl

/-- What is done with a reply leaves the other control blocks. -/
theorem Rfs.settle_other (s : Rfs) {i j : ℕ} (hj : j ≠ i)
    (msg : ℤ → RfRequest) (b : RfReply → Rflcblk) (outcome : RfOutcome) :
    (s.settle i msg b outcome).rfltab j = s.rfltab j := by
  cases outcome with
  | refused => rfl
  | silent => rfl
  | reply resp =>
    simp only [Rfs.settle]
    split
    · rfl
    · exact Function.update_of_ne hj _ _

/-- The control block stays, or is the one for the reply. -/
theorem Rfs.settle_self (s : Rfs) (i : ℕ) (msg : ℤ → RfRequest)
    (b : RfReply → Rflcblk) (outcome : RfOutcome) :
    ((s.settle i msg b outcome).rfltab i = s.rfltab i ∧ outcome.bytes = 0) ∨
      ∃ resp, outcome = .reply resp ∧ resp.rf_status = 0 ∧ (s.settle i msg b outcome).rfltab i = b resp := by
  cases outcome with
  | refused => exact .inl ⟨rfl, rfl⟩
  | silent => exact .inl ⟨rfl, rfl⟩
  | reply resp =>
    by_cases h : resp.rf_status = 0
    · refine .inr ⟨resp, rfl, h, ?_⟩
      rw [Rfs.settle, if_neg (by simpa using h)]
      exact Function.update_self _ _ _
    · refine .inl ⟨?_, ?_⟩
      · rw [Rfs.settle, if_pos h]
        rfl
      · rw [RfOutcome.bytes, if_neg h]

/-- The name is also found where the loops of a request look for it. -/
theorem HoldsName.byte {b : Rflcblk} {name : CString} (h : HoldsName b.rfname name) :
    HoldsName b.byte name := by
  refine ⟨h.length, h.chars, ?_⟩
  intro j hj
  have hl := h.length
  rw [Rflcblk.byte, if_pos (by omega)]
  exact h.bytes j hj

/-! ## The calls -/

namespace Rfs

/-- A read is sent if its count is legitimate and the pseudo-device is open for reading. -/
theorem rflread_eq {s : Rfs} {opened : ℕ → CString} (hs : s.Ok opened)
    (i : ℕ) (count : ℤ) (outcome : RfOutcome) :
    (s.rflread i count outcome).1 =
      if 0 < count ∧ count ≤ RF_DATALEN ∧ (s.rfltab i).rfused ∧ (s.rfltab i).rfmode &&& LF_MODE_R ≠ 0 then
        s.settle i (fun seq => .rreq ⟨RF_MSG_RREQ, 0, seq, padded (opened i)⟩ (s.rfltab i).rfpos count)
          (fun resp => { s.rfltab i with rfpos := ((s.rfltab i).rfpos + resp.rf_len) % 2 ^ 32 }) outcome
      else s := by
  unfold rflread
  dsimp only
  by_cases hc : count ≤ 0 ∨ count > RF_DATALEN
  · rw [if_pos hc, if_neg (by omega)]
  by_cases hu : (s.rfltab i).rfused
  swap
  · rw [if_neg hc, if_pos hu, if_neg (by simp [hu])]
  by_cases hm : (s.rfltab i).rfmode &&& LF_MODE_R = 0
  · rw [if_neg hc, if_neg (by simpa using hu), if_pos hm, if_neg (by simp [hm])]
  rw [if_neg hc, if_neg (by simpa using hu), if_neg hm, if_pos ⟨by omega, by omega, hu, hm⟩]
  have hname := hs.name i hu
  rw [hname.byte.copyName]
  dsimp only
  rw [nameField_placeName _ hname.length]
  cases outcome with
  | refused => rfl
  | silent => rfl
  | reply resp =>
    simp only [rfscomm, settle]
    split <;> rfl

/-- The field with the name of a write request. -/
def writeName (s : Rfs) (opened : ℕ → CString) (i : ℕ) : List UInt8 :=
  nameField (copyRest (s.rfltab i).byte (RF_NAMLEN + 9) ((opened i).length + 1)
    (placeName (opened i) 0 fun _ => 0))

/-- The name of a write request is padded exactly if there is no rest of an earlier name behind it. -/
theorem writeName_eq {s : Rfs} {opened : ℕ → CString} {i : ℕ} (h : (opened i).length < RF_NAMLEN) :
    s.writeName opened i = padded (opened i) ↔ CleanName s opened i := by
  unfold writeName CleanName
  rw [nameField_copyRest h]
  refine or_congr_right' fun hl => ?_
  rw [Rflcblk.byte, if_pos (by omega)]

/-- A write is sent if its count is legitimate and the pseudo-device is open for writing. -/
theorem rflwrite_eq {s : Rfs} {opened : ℕ → CString} (hs : s.Ok opened)
    (i : ℕ) (buff : ℕ → UInt8) (count : ℤ) (outcome : RfOutcome) :
    (s.rflwrite i buff count outcome).1 =
      if 0 < count ∧ count ≤ RF_DATALEN ∧ (s.rfltab i).rfused ∧ (s.rfltab i).rfmode &&& LF_MODE_W ≠ 0 then
        s.settle i (fun seq => .wreq ⟨RF_MSG_WREQ, 0, seq, s.writeName opened i⟩ (s.rfltab i).rfpos count
          ((List.range count.toNat).map buff ++ List.replicate (RF_DATALEN - count.toNat) 0))
          (fun resp => { s.rfltab i with rfpos := ((s.rfltab i).rfpos + resp.rf_len) % 2 ^ 32 }) outcome
      else s := by
  unfold rflwrite
  dsimp only
  by_cases hc : count ≤ 0 ∨ count > RF_DATALEN
  · rw [if_pos hc, if_neg (by omega)]
  by_cases hu : (s.rfltab i).rfused
  swap
  · rw [if_neg hc, if_pos (.inl hu), if_neg (by simp [hu])]
  by_cases hm : (s.rfltab i).rfmode &&& LF_MODE_W = 0
  · rw [if_neg hc, if_pos (.inr hm), if_neg (by simp [hm])]
  rw [if_neg hc, if_neg (by simpa [hu] using hm), if_pos ⟨by omega, by omega, hu, hm⟩]
  have hname := hs.name i hu
  rw [hname.byte.copyName]
  dsimp only
  rw [dataField_eq buff (by omega) (by omega), ← writeName]
  cases outcome with
  | refused => rfl
  | silent => rfl
  | reply resp =>
    simp only [rfscomm, settle]
    split <;> rfl

/-- A close is sent if the pseudo-device is open. -/
theorem rflclose_eq {s : Rfs} {opened : ℕ → CString} (hs : s.Ok opened) (i : ℕ) (outcome : RfOutcome) :
    (s.rflclose i outcome).1 =
      if (s.rfltab i).rfused then
        s.settle i (fun seq => .creq ⟨RF_MSG_CREQ, 0, seq, padded (opened i)⟩)
        (fun _ => { s.rfltab i with rfused := false }) outcome
      else s := by
  unfold rflclose
  dsimp only
  by_cases hu : (s.rfltab i).rfused
  swap
  · rw [if_pos hu, if_neg hu]
  rw [if_neg (by simpa using hu), if_pos hu]
  have hname := hs.name i hu
  rw [hname.byte.copyName]
  dsimp only
  rw [nameField_placeName _ hname.length]
  cases outcome with
  | refused => rfl
  | silent => rfl
  | reply resp =>
    simp only [rfscomm, settle]
    split <;> rfl

/-- What a call of `rfsopen` may do: nothing, spoil an unused control block, or send a request, and
use the control block for a reply without an error. -/
theorem rfsopen_cases (s : Rfs) (name mode : CString) (outcome : RfOutcome) :
    s.rfsopen name mode outcome = (s, SYSERR) ∨
    ∃ i < Nrfl, (s.rfltab i).rfused = false ∧
      ((∃ f m, s.rfsopen name mode outcome = (s.set i { s.rfltab i with rfname := f, rfmode := m }, SYSERR)) ∨
      ∃ mbits, rfsgetmode mode = some mbits ∧ name.length < RF_NAMLEN ∧
        let b := { s.rfltab i with rfname := placeName name 0 (s.rfltab i).rfname, rfmode := mbits }
        (s.rfsopen name mode outcome).1 = (s.set i b).settle i
          (fun seq => .oreq ⟨RF_MSG_OREQ, 0, seq, padded name⟩ mbits)
          (fun _ => { b with rfpos := 0, rfused := true }) outcome ∧
        ((s.rfsopen name mode outcome).2 = SYSERR ∧ (∀ resp, outcome = .reply resp → resp.rf_status ≠ 0) ∨
          (s.rfsopen name mode outcome).2 = (s.rfltab i).rfdev ∧ ∃ resp, outcome = .reply resp ∧
            resp.rf_status = 0)) := by
  unfold rfsopen
  split
  next => exact .inl rfl
  next i hfind =>
    right
    -- The block that the search finds is unused.
    have hi : i < Nrfl := List.mem_range.mp (List.mem_of_find?_eq_some hfind)
    have hu : (s.rfltab i).rfused = false := by simpa using List.find?_some hfind
    refine ⟨i, hi, hu, ?_⟩
    dsimp only
    by_cases hlen : name.length < RF_NAMLEN
    swap
    -- A name that is too long spoils the block, which stays unused.
    · rw [storeName_none name 0 _ (by decide) (by omega)]
      exact .inl ⟨_, _, rfl⟩
    rw [storeName_eq name 0 _ (by omega)]
    dsimp only
    split
    next => exact .inl ⟨_, _, rfl⟩
    -- The mode is refused, or the request is sent.
    next =>
      cases hm : rfsgetmode mode with
      | none => exact .inl ⟨_, _, rfl⟩
      | some mbits =>
        refine .inr ⟨mbits, rfl, hlen, ?_⟩
        dsimp only
        rw [copyString_eq, nameField_placeName name hlen]
        cases outcome with
        | refused => exact ⟨rfl, .inl ⟨rfl, by simp⟩⟩
        | silent => exact ⟨rfl, .inl ⟨rfl, by simp⟩⟩
        | reply resp =>
          simp only [rfscomm, settle]
          by_cases h0 : resp.rf_status = 0
          · rw [if_neg (by simpa using h0), if_neg (by simpa using h0)]
            exact ⟨rfl, .inr ⟨rfl, resp, rfl, h0⟩⟩
          · rw [if_pos h0, if_pos h0]
            refine ⟨rfl, .inl ⟨rfl, ?_⟩⟩
            intro resp' hr
            cases hr
            exact h0

/-! ## The invariant -/

/-- A call that changes one control block keeps the invariant if the block is as it should be. -/
theorem Ok.change {s s' : Rfs} {f f' : ℕ → CString} (hs : s.Ok f)
    (i : ℕ) (hother : ∀ j ≠ i, s'.rfltab j = s.rfltab j ∧ f' j = f j)
    (hdev : (s'.rfltab i).rfdev = RFILE0 + i)
    (hname : (s'.rfltab i).rfused → HoldsName (s'.rfltab i).rfname (f' i))
    (hpos : (s'.rfltab i).rfpos < 2 ^ 32) : s'.Ok f' := by
  constructor <;> intro j <;> by_cases hj : j = i
  · rw [hj]
    exact hdev
  · rw [(hother j hj).1]
    exact hs.dev j
  · rw [hj]
    exact hname
  · rw [(hother j hj).1, (hother j hj).2]
    exact hs.name j
  · rw [hj]
    exact hpos
  · rw [(hother j hj).1]
    exact hs.pos j

/-- An exchange keeps the invariant if the control block for the reply keeps the name or is unused. -/
theorem Ok.settle {s : Rfs} {f : ℕ → CString} (hs : s.Ok f)
    (i : ℕ) (msg : ℤ → RfRequest) (b : RfReply → Rflcblk) (outcome : RfOutcome)
    (hb : ∀ resp, (b resp).rfdev = (s.rfltab i).rfdev ∧ (b resp).rfname = (s.rfltab i).rfname ∧
      ((b resp).rfused → (s.rfltab i).rfused) ∧ (b resp).rfpos < 2 ^ 32) :
        (s.settle i msg b outcome).Ok f := by
  refine hs.change i (fun j hj => ⟨s.settle_other hj msg b outcome, rfl⟩) ?_ ?_ ?_ <;>
    obtain ⟨h, -⟩ | ⟨resp, -, -, h⟩ := s.settle_self i msg b outcome <;> rw [h]
  · exact hs.dev i
  · exact (hb resp).1.trans (hs.dev i)
  · exact hs.name i
  · intro hu
    rw [(hb resp).2.1]
    exact hs.name i ((hb resp).2.2.1 hu)
  · exact hs.pos i
  · exact (hb resp).2.2.2

/-- The invariant holds at the beginning. -/
theorem ok_booted : Rfs.booted.Ok fun _ => [] where
  dev _ := rfl
  name i h := by simp [Rfs.booted] at h
  pos i := by simp [Rfs.booted]

/-- A call of `rfsopen` keeps the invariant, with the name as the new name of the pseudo-device. -/
theorem Ok.rfsopen {s : Rfs} {f : ℕ → CString} (hs : s.Ok f)
    {name : CString} (hn : ∀ ch ∈ name, ch ≠ 0) (mode : CString)
    (outcome : RfOutcome) : (s.rfsopen name mode outcome).1.Ok (s.opened f (.rfsopen name mode outcome)) := by
  simp only [opened]
  obtain h | ⟨i, hi, hu, ⟨g, m, h⟩ | ⟨mbits, -, hlen, hst, hres⟩⟩ := s.rfsopen_cases name mode outcome
  · rw [h, if_pos rfl]
    exact hs
  · -- The block is spoiled, but it stays unused.
    rw [h, if_pos rfl]
    refine hs.change i (fun j hj => ⟨Function.update_of_ne hj _ _, rfl⟩) ?_ ?_ ?_ <;>
      simp only [set, Function.update_self]
    · exact hs.dev i
    · intro hu'
      exact absurd hu' (by simp [hu])
    · exact hs.pos i
  -- The name that was stored is the one that is opened.
  · have hbytes : HoldsName (placeName name 0 (s.rfltab i).rfname) name := by
      refine ⟨hlen, hn, ?_⟩
      intro j hj
      rw [placeName, if_pos (by omega), Nat.sub_zero]
    have hother : ∀ j ≠ i, (s.rfsopen name mode outcome).1.rfltab j = s.rfltab j := by
      intro j hj
      rw [hst, settle_other _ hj]
      exact Function.update_of_ne hj _ _
    rcases hres with ⟨hsys, hno⟩ | ⟨hdev, resp, hr, h0⟩
    · -- The server refuses, and the block stays unused.
      rw [if_pos hsys]
      have hself : (s.rfsopen name mode outcome).1.rfltab i =
          { s.rfltab i with rfname := placeName name 0 (s.rfltab i).rfname, rfmode := mbits } := by
        rw [hst]
        obtain ⟨h, -⟩ | ⟨resp, hr, h0, -⟩ := Rfs.settle_self (s.set i _) i _ _ outcome
        · rw [h]
          exact Function.update_self _ _ _
        · exact absurd h0 (hno resp hr)
      refine hs.change i (fun j hj => ⟨hother j hj, rfl⟩) ?_ ?_ ?_ <;> rw [hself]
      · exact hs.dev i
      · intro hu'
        exact absurd hu' (by simp [hu])
      · exact hs.pos i
    · -- The block is used, with the name that was just stored.
      have hne : (s.rfsopen name mode outcome).2 ≠ SYSERR := by
        rw [hdev, hs.dev i]
        have h7 : RFILE0 = 7 := rfl
        have hsys : SYSERR = -1 := rfl
        omega
      have hidx : ((s.rfsopen name mode outcome).2 - RFILE0).toNat = i := by
        rw [hdev, hs.dev i]
        omega
      rw [if_neg hne, hidx]
      have hself : (s.rfsopen name mode outcome).1.rfltab i =
          { s.rfltab i with rfname := placeName name 0 (s.rfltab i).rfname, rfmode := mbits, rfpos := 0,
                            rfused := true } := by
        rw [hst, hr, Rfs.settle, if_neg (by simpa using h0)]
        exact Function.update_self _ _ _
      refine hs.change i (fun j hj => ⟨hother j hj, Function.update_of_ne hj _ _⟩) ?_ ?_ ?_ <;> rw [hself]
      · exact hs.dev i
      · intro _
        rw [Function.update_self]
        exact hbytes
      · exact Nat.two_pow_pos 32

/-- Every call keeps the invariant, with the names of the files that are open. -/
theorem Ok.exec {s : Rfs} {f : ℕ → CString} (hs : s.Ok f) {e : RfsEvent} (he : e.Valid) :
    (s.exec e).Ok (s.opened f e) := by
  have hmod : ∀ n, n % 2 ^ 32 < 2 ^ 32 := fun n => Nat.mod_lt _ (by decide)
  -- A read and a write change no more than their block, by the reply.
  have hread (i count outcome) : (s.rflread i count outcome).1.Ok f := by
    rw [rflread_eq hs]
    split
    · exact hs.settle i _ _ _ fun resp => ⟨rfl, rfl, id, hmod _⟩
    · exact hs
  have hwrite (i buff count outcome) : (s.rflwrite i buff count outcome).1.Ok f := by
    rw [rflwrite_eq hs]
    split
    · exact hs.settle i _ _ _ fun resp => ⟨rfl, rfl, id, hmod _⟩
    · exact hs
  cases e with
  | rfsopen name mode outcome => exact hs.rfsopen he.1 mode outcome
  | rflread i count outcome => exact hread i count outcome
  | rflwrite i buff count outcome => exact hwrite i buff count outcome
  -- Writing a character is a write of one byte.
  | rflputc i ch outcome => exact hwrite i _ 1 outcome
  | rflclose i outcome =>
    change (s.rflclose i outcome).1.Ok f
    rw [rflclose_eq hs]
    split
    · exact hs.settle i _ _ _ fun resp => ⟨rfl, rfl, by simp, hs.pos i⟩
    · exact hs
  | rflseek i pos =>
    change (s.rflseek i pos).1.Ok f
    unfold rflseek
    split
    · exact hs
    · refine hs.change i (fun j hj => ⟨Function.update_of_ne hj _ _, rfl⟩) ?_ ?_ ?_ <;>
        simp only [set, Function.update_self]
      · exact hs.dev i
      · exact hs.name i
      · exact he

end Rfs

/-- The invariant holds in every run. -/
theorem RfsReach.ok {s : Rfs} {opened : ℕ → CString} (h : RfsReach s opened) : s.Ok opened := by
  induction h with
  | boot => exact Rfs.ok_booted
  | step _ he ih => exact ih.exec he

/-! ## What the requests carry -/

/-- An exchange with a request that the caller asks for, and with the position moved by what the
server reports. -/
theorem carries_settle {s : Rfs} {f : ℕ → CString} (hs : s.Ok f)
    {e : RfsEvent} (i : ℕ) (msg : ℤ → RfRequest) (b : RfReply → Rflcblk)
    (outcome : RfOutcome) (hexec : s.exec e = s.settle i msg b outcome)
    (hmsg : asked s f e = some (msg s.rf_seq))
    (hmoves : ∀ j o, e.moves = some (j, o) → j = i ∧ o = outcome ∧
      ∀ resp, (b resp).rfpos = ((s.rfltab i).rfpos + resp.rf_len) % 2 ^ 32) : Carries s f e := by
  have hsent := s.settle_sent i msg b outcome
  rw [← hexec] at hsent
  refine ⟨?_, ?_, ?_⟩
  · rcases hsent with ⟨-, h⟩ | ⟨-, h⟩
    · exact .inl h
    · exact .inr ⟨_, hmsg, h⟩
  · intro j o hm
    obtain ⟨rfl, rfl, hb⟩ := hmoves j o hm
    have hpos : (s.rfltab j).rfpos % 2 ^ 32 = (s.rfltab j).rfpos := Nat.mod_eq_of_lt (hs.pos j)
    obtain ⟨h, h0⟩ | ⟨resp, hr, hst, h⟩ := s.settle_self j msg b o
    · rw [hexec, h, h0, ite_self, Nat.add_zero, hpos]
    · have hne : (s.exec e).sent ≠ s.sent := by
        rcases hsent with ⟨hno, -⟩ | ⟨-, h⟩
        · rw [hr] at hno
          cases hno
        · rw [h]
          exact List.cons_ne_self _ _
      rw [if_neg hne, hexec, h, hb, hr, RfOutcome.bytes, if_pos hst]
  · intro j o hm k hk
    obtain ⟨rfl, rfl, -⟩ := hmoves j o hm
    rw [hexec, s.settle_other hk]

/-- A call that is refused leaves everything as it is. -/
theorem carries_refused {s : Rfs} {f : ℕ → CString} (hs : s.Ok f) {e : RfsEvent} (hexec : s.exec e = s) :
    Carries s f e := by
  refine ⟨.inl (by rw [hexec]), ?_, fun _ _ _ _ _ => by rw [hexec]⟩
  intro i o _
  rw [hexec, if_pos rfl, Nat.add_zero, Nat.mod_eq_of_lt (hs.pos i)]

/-- A write carries what is asked for exactly if, where it is sent, the name is clean. -/
theorem carries_write {s : Rfs} {f : ℕ → CString} (hs : s.Ok f)
    {e : RfsEvent} {i : ℕ} {buff : ℕ → UInt8} {count : ℤ} {outcome : RfOutcome}
    (hexec : s.exec e = (s.rflwrite i buff count outcome).1)
    (hasked : asked s f e = some (askedWrite s f i buff count))
    (hmoves : e.moves = some (i, outcome)) :
    Carries s f e ↔ (Writes s i count outcome → CleanName s f i) := by
  rw [s.rflwrite_eq hs] at hexec
  split at hexec
  -- The write is sent, so the name of the request is the one in the block.
  next h =>
    obtain ⟨h0, h1, hu, hm⟩ := h
    have hiff := Rfs.writeName_eq (s := s) (hs.name i hu).length
    constructor
    · rintro ⟨hsent, -, -⟩ ⟨-, -, -, -, hnr⟩
      obtain ⟨hno, -⟩ | ⟨-, h⟩ := s.settle_sent i _ _ outcome
      · exact absurd hno hnr
      · rw [← hexec] at h
        rcases hsent with hsame | ⟨r, hr, hr'⟩
        · rw [hsame] at h
          exact absurd h.symm (List.cons_ne_self _ _)
        · rw [hasked] at hr
          cases hr
          rw [h] at hr'
          have hw := (List.cons.inj hr').1
          simp only [askedWrite, RfRequest.wreq.injEq, RfMsgHdr.mk.injEq] at hw
          exact hiff.mp hw.1.2.2.2
    · intro hclean
      by_cases hnr : outcome = .refused
      · exact carries_refused hs (by rw [hexec, hnr]; rfl)
      · refine carries_settle hs i _ _ outcome hexec ?_ ?_
        · rw [hasked, hiff.mpr (hclean ⟨h0, h1, hu, hm, hnr⟩)]
          rfl
        · intro j o h
          rw [hmoves] at h
          cases h
          exact ⟨rfl, rfl, fun _ => rfl⟩
  -- The write is not sent: nothing is asked for.
  next h =>
    refine ⟨?_, fun _ => carries_refused hs hexec⟩
    rintro - ⟨h0, h1, hu, hm, -⟩
    exact absurd ⟨h0, h1, hu, hm⟩ h

/-- In every run, a call sends the request that its caller asks for and moves the position by what
the server reports, exactly if it is not a write that finds the rest of an earlier name behind the
name. -/
theorem rfs_requests {s : Rfs} {opened : ℕ → CString} (hr : RfsReach s opened) {e : RfsEvent} (he : e.Valid) :
    Carries s opened e ↔ Clean s opened e := by
  have hs := hr.ok
  -- The other calls send no name, or the name that they have just stored.
  cases e with
  | rfsopen name mode outcome =>
    refine ⟨fun _ => trivial, fun _ => ?_⟩
    refine ⟨?_, by simp [RfsEvent.moves], by simp [RfsEvent.moves]⟩
    obtain h | ⟨i, -, -, ⟨g, m, h⟩ | ⟨mbits, hm, hlen, hst, -⟩⟩ := s.rfsopen_cases name mode outcome
    · exact .inl (by rw [Rfs.exec, h])
    · exact .inl (by rw [Rfs.exec, h]; rfl)
    · rw [Rfs.exec, hst]
      obtain ⟨-, h⟩ | ⟨-, h⟩ := Rfs.settle_sent (s.set i _) i _ _ outcome
      · exact .inl h
      · exact .inr ⟨_, by rw [asked, hm]; rfl, h⟩
  | rflread i count outcome =>
    refine ⟨fun _ => trivial, fun _ => ?_⟩
    have hexec : s.exec (.rflread i count outcome) = (s.rflread i count outcome).1 := rfl
    rw [s.rflread_eq hs] at hexec
    split at hexec
    · refine carries_settle hs i _ _ outcome hexec rfl ?_
      intro j o h
      cases h
      exact ⟨rfl, rfl, fun _ => rfl⟩
    · exact carries_refused hs hexec
  | rflwrite i buff count outcome => exact carries_write hs rfl rfl rfl
  | rflputc i ch outcome => exact carries_write hs rfl rfl rfl
  | rflclose i outcome =>
    refine ⟨fun _ => trivial, fun _ => ?_⟩
    have hexec : s.exec (.rflclose i outcome) = (s.rflclose i outcome).1 := rfl
    rw [s.rflclose_eq hs] at hexec
    split at hexec
    · exact carries_settle hs i _ _ outcome hexec rfl (by simp [RfsEvent.moves])
    · exact carries_refused hs hexec
  | rflseek i pos =>
    refine ⟨fun _ => trivial, fun _ => ⟨.inl ?_, by simp [RfsEvent.moves], by simp [RfsEvent.moves]⟩⟩
    simp only [Rfs.exec, Rfs.rflseek]
    split <;> rfl

/-- The header of a request. -/
def RfRequest.hdr : RfRequest → RfMsgHdr
  | .oreq hdr _ | .rreq hdr _ _ | .wreq hdr _ _ _ | .creq hdr => hdr

/-- A reply without an error, for so many bytes. -/
def served (n : ℕ) : RfOutcome := .reply ⟨0, n, fun _ => 0⟩

/-- The pseudo-device is opened for `abc`, closed, and opened for `a`. -/
def Rfs.reused : Rfs :=
  ((Rfs.booted.exec (.rfsopen [97, 98, 99] [] (served 0))).exec (.rflclose 0 (served 0))).exec
    (.rfsopen [97] [] (served 0))

/-- A run ends there, with the name `a` for the first pseudo-device. -/
theorem reach_reused : ∃ opened, RfsReach Rfs.reused opened ∧ opened 0 = [97] := by
  have h₁ := RfsReach.boot.step (e := .rfsopen [97, 98, 99] [] (served 0)) ⟨by simp, by simp⟩
  have h₂ := h₁.step (e := .rflclose 0 (served 0)) trivial
  have h₃ := h₂.step (e := .rfsopen [97] [] (served 0)) ⟨by simp, by simp⟩
  exact ⟨_, h₃, by decide +kernel⟩

/-- A write to `a` is then sent with the name `a`, a null character and `c`. -/
theorem reused_write : ∃ opened, RfsReach Rfs.reused opened ∧ (RfsEvent.rflputc 0 120 (served 1)).Valid ∧
    ¬Carries Rfs.reused opened (.rflputc 0 120 (served 1)) := by
  obtain ⟨opened, hr, hname⟩ := reach_reused
  refine ⟨opened, hr, trivial, ?_⟩
  have hsent : (Rfs.reused.exec (.rflputc 0 120 (served 1))).sent.map (fun r => r.hdr.rf_name.take 4) =
      [97, 0, 99, 0] :: Rfs.reused.sent.map fun r => r.hdr.rf_name.take 4 := by decide +kernel
  rintro ⟨h | ⟨r, ha, h⟩, -, -⟩ <;> rw [h] at hsent
  · exact absurd hsent.symm (List.cons_ne_self _ _)
  · cases ha
    have hhead := (List.cons.inj hsent).1
    simp only [RfRequest.hdr, askedWrite, hname] at hhead
    exact absurd hhead (by decide +kernel)

/-- A write to a file whose pseudo-device had no other name before. -/
theorem rfs_requests_first :
    ∃ opened, RfsReach (Rfs.booted.exec (.rfsopen [97] [] (served 0))) opened ∧ opened 0 = [97] ∧
    Carries (Rfs.booted.exec (.rfsopen [97] [] (served 0))) opened (.rflputc 0 120 (served 1)) := by
  have hr := RfsReach.boot.step (e := .rfsopen [97] [] (served 0)) ⟨by simp, by simp⟩
  have hname : Rfs.booted.opened (fun _ => []) (.rfsopen [97] [] (served 0)) 0 = [97] := by decide +kernel
  refine ⟨_, hr, hname, (rfs_requests (e := .rflputc 0 120 (served 1)) hr trivial).mpr ?_⟩
  intro _
  refine .inr ?_
  rw [hname]
  decide +kernel

end Xinu
