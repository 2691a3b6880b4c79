import Xinu.Lfs.Open

/-!
# Remote files

The pseudo-devices of `device/rfs`: `rfsopen`, `rflread`, `rflwrite`, `rflputc`, `rflclose` and
`rflseek`, with the requests that they hand to `rfscomm`. Each call holds `rf_mutex` from its
beginning to its end, so that calls come one after another. How the exchange of `rfscomm` ends is an
argument of the call. Fields of messages are given in host byte order.
-/

namespace Xinu

/-- `Nrfl`. -/
abbrev Nrfl : ℕ := 10

/-- `RF_NAMLEN`. -/
abbrev RF_NAMLEN : ℕ := 128

/-- `RF_DATALEN`. -/
abbrev RF_DATALEN : ℕ := 1024

/-- `RF_MSG_RREQ`. -/
abbrev RF_MSG_RREQ : ℕ := 0x0001

/-- `RF_MSG_WREQ`. -/
abbrev RF_MSG_WREQ : ℕ := 0x0002

/-- `RF_MSG_OREQ`. -/
abbrev RF_MSG_OREQ : ℕ := 0x0003

/-- `RF_MSG_CREQ`. -/
abbrev RF_MSG_CREQ : ℕ := 0x0009

/-- `struct rflcblk`. -/
structure Rflcblk where
  /-- The state is `RF_USED`. -/
  rfused : Bool
  /-- The device. -/
  rfdev : ℤ
  /-- `RF_NAMLEN` characters. -/
  rfname : ℕ → UInt8
  /-- The position in the file. -/
  rfpos : ℕ
  /-- The mode: to read, to write, or both. -/
  rfmode : ℕ

/-- The bytes of a control block from `rfname` on: behind the name come the position and the mode. -/
def Rflcblk.byte (b : Rflcblk) (i : ℕ) : UInt8 :=
  if i < RF_NAMLEN then b.rfname i
  else if i < RF_NAMLEN + 4 then UInt8.ofNat (b.rfpos / 256 ^ (i - RF_NAMLEN))
  else UInt8.ofNat (b.rfmode / 256 ^ (i - (RF_NAMLEN + 4)))

/-- `RF_MSG_HDR`. -/
structure RfMsgHdr where
  /-- The type of the message. -/
  rf_type : ℕ
  /-- Its status. -/
  rf_status : ℕ
  /-- Its sequence number. -/
  rf_seq : ℤ
  /-- The bytes of the name. -/
  rf_name : List UInt8
  deriving DecidableEq

/-- The requests. -/
inductive RfRequest where
  /-- `struct rf_msg_oreq`. -/
  | oreq (hdr : RfMsgHdr) (rf_mode : ℕ)
  /-- `struct rf_msg_rreq`. -/
  | rreq (hdr : RfMsgHdr) (rf_pos : ℕ) (rf_len : ℤ)
  /-- `struct rf_msg_wreq`. -/
  | wreq (hdr : RfMsgHdr) (rf_pos : ℕ) (rf_len : ℤ) (rf_data : List UInt8)
  /-- `struct rf_msg_creq`. -/
  | creq (hdr : RfMsgHdr)
  deriving DecidableEq

/-- What is used of a reply. -/
structure RfReply where
  /-- The status. -/
  rf_status : ℕ
  /-- The length that the server reports. -/
  rf_len : ℕ
  /-- The data. -/
  rf_data : ℕ → UInt8

/-- How an exchange ends. -/
inductive RfOutcome where
  /-- The port cannot be registered: nothing is sent. -/
  | refused
  /-- The request is sent, and `rfscomm` ends with `SYSERR` or `TIMEOUT`. -/
  | silent
  | reply (resp : RfReply)

/-- `rfltab` and the sequence number of `Rf_data`, with the requests so far, the last one first. -/
structure Rfs where
  /-- The control blocks. -/
  rfltab : ℕ → Rflcblk
  /-- The sequence number. -/
  rf_seq : ℤ
  /-- The requests so far, the last one first. -/
  sent : List RfRequest

/-- `rfsgetmode(mode)`, where nothing stands for `SYSERR`: the loop of `lfgetmode`. -/
def rfsgetmode (mode : CString) : Option ℕ := lfgetmode mode

/-! ## Copying names -/

/-- The loop of `rfsopen` that copies a name into the control block: the length, or nothing if the
name is too long. -/
def storeName : CString → ℕ → (ℕ → UInt8) → Option ℕ × (ℕ → UInt8)
  | [], len, fptr => (some len, Function.update fptr len 0)
  | ch :: nptr, len, fptr =>
    if len + 1 ≥ RF_NAMLEN then (none, Function.update fptr len ch)
    else storeName nptr (len + 1) (Function.update fptr len ch)

/-- `while ( (*nptr++ = *name++) != NULLCH )`. -/
def copyString : CString → ℕ → (ℕ → UInt8) → ℕ → UInt8
  | [], i, nptr => Function.update nptr i 0
  | ch :: name, i, nptr => copyString name (i + 1) (Function.update nptr i ch)

/-- The loop that copies a name into a request: where it stops, and the request. It gives up at the
end of the field. -/
def copyName (src : ℕ → UInt8) : ℕ → ℕ → (ℕ → UInt8) → Option (ℕ × (ℕ → UInt8))
  | 0, _, _ => none
  | n + 1, i, dst =>
    if src i = 0 then some (i + 1, Function.update dst i 0)
    else if i + 1 ≥ RF_NAMLEN then none
    else copyName src n (i + 1) (Function.update dst i (src i))

/-- The second loop of `rflwrite`, which goes on where the first one has stopped. It ends in the
mode at the latest. -/
def copyRest (src : ℕ → UInt8) : ℕ → ℕ → (ℕ → UInt8) → ℕ → UInt8
  | 0, _, dst => dst
  | n + 1, i, dst =>
    if src i = 0 then Function.update dst i 0
    else copyRest src n (i + 1) (Function.update dst i (src i))

/-- The field `rf_name` of a request. -/
def nameField (dst : ℕ → UInt8) : List UInt8 := (List.range RF_NAMLEN).map dst

/-- The field `rf_data` of a request: the data, and null characters behind it. -/
def dataField (buff : ℕ → UInt8) (count : ℤ) : List UInt8 :=
  (List.range RF_DATALEN).map fun i : ℕ => if (i : ℤ) < count then buff i else 0

namespace Rfs

/-! ## The calls -/

/-- Change a control block. -/
def set (s : Rfs) (i : ℕ) (b : Rflcblk) : Rfs := { s with rfltab := Function.update s.rfltab i b }

/-- `rfscomm(&msg, ...)`, with the reply: the request gets the next sequence number and is sent, the
same one again after each time-out. -/
def rfscomm (s : Rfs) (msg : ℤ → RfRequest) : RfOutcome → Rfs × Option RfReply
  | .refused => (s, none)
  | .silent => ({ s with rf_seq := int32 (s.rf_seq + 1), sent := msg s.rf_seq :: s.sent }, none)
  | .reply resp => ({ s with rf_seq := int32 (s.rf_seq + 1), sent := msg s.rf_seq :: s.sent }, some resp)

/-- `rfsopen(devptr, name, mode)`. -/
def rfsopen (s : Rfs) (name mode : CString) (outcome : RfOutcome) : Rfs × ℤ :=
  match (List.range Nrfl).find? fun i => !(s.rfltab i).rfused with
  | none => (s, SYSERR)
  | some i =>
    let r := storeName name 0 (s.rfltab i).rfname
    let rfptr := { s.rfltab i with rfname := r.2 }
    match r.1 with
    | none => (s.set i rfptr, SYSERR)
    | some len =>
      if len = 0 then (s.set i rfptr, SYSERR)
      else
        match rfsgetmode mode with
        | none => (s.set i { rfptr with rfmode := 2 ^ 32 - 1 }, SYSERR)
        | some mbits =>
          let rfptr := { rfptr with rfmode := mbits }
          let dst := copyString name 0 fun _ => 0
          let r := (s.set i rfptr).rfscomm (fun seq =>
            .oreq ⟨RF_MSG_OREQ, 0, seq, nameField dst⟩ mbits) outcome
          match r.2 with
          | none => (r.1, SYSERR)
          | some resp =>
            if resp.rf_status ≠ 0 then (r.1, SYSERR)
            else (r.1.set i { rfptr with rfpos := 0, rfused := true }, rfptr.rfdev)

/-- `rflread(devptr, buff, count)`, with the bytes that are copied to the buffer. -/
def rflread (s : Rfs) (i : ℕ) (count : ℤ) (outcome : RfOutcome) : Rfs × ℤ × List UInt8 :=
  if count ≤ 0 ∨ count > RF_DATALEN then (s, SYSERR, [])
  else
    let rfptr := s.rfltab i
    if ¬ rfptr.rfused then (s, SYSERR, [])
    else if rfptr.rfmode &&& LF_MODE_R = 0 then (s, SYSERR, [])
    else
      match copyName rfptr.byte RF_NAMLEN 0 fun _ => 0 with
      | none => (s, SYSERR, [])
      | some (_, dst) =>
        let r := s.rfscomm (fun seq => .rreq ⟨RF_MSG_RREQ, 0, seq, nameField dst⟩ rfptr.rfpos count) outcome
        match r.2 with
        | none => (r.1, SYSERR, [])
        | some resp =>
          if resp.rf_status ≠ 0 then (r.1, SYSERR, [])
          else
            let buff := (List.range resp.rf_len).map resp.rf_data
            let s := r.1.set i { rfptr with rfpos := (rfptr.rfpos + resp.rf_len) % 2 ^ 32 }
            (s, if resp.rf_len = 0 then EOF else int32 resp.rf_len, buff)

/-- `rflwrite(devptr, buff, count)`. -/
def rflwrite (s : Rfs) (i : ℕ) (buff : ℕ → UInt8) (count : ℤ) (outcome : RfOutcome) : Rfs × ℤ :=
  if count ≤ 0 ∨ count > RF_DATALEN then (s, SYSERR)
  else
    let rfptr := s.rfltab i
    if ¬ rfptr.rfused ∨ rfptr.rfmode &&& LF_MODE_W = 0 then (s, SYSERR)
    else
      match copyName rfptr.byte RF_NAMLEN 0 fun _ => 0 with
      | none => (s, SYSERR)
      | some (next, dst) =>
        let dst := copyRest rfptr.byte (RF_NAMLEN + 9) next dst
        let hdr := fun seq => ⟨RF_MSG_WREQ, 0, seq, nameField dst⟩
        let r := s.rfscomm (fun seq => .wreq (hdr seq) rfptr.rfpos count (dataField buff count)) outcome
        match r.2 with
        | none => (r.1, SYSERR)
        | some resp =>
          if resp.rf_status ≠ 0 then (r.1, SYSERR)
          else (r.1.set i { rfptr with rfpos := (rfptr.rfpos + resp.rf_len) % 2 ^ 32 }, int32 resp.rf_len)

/-- `rflputc(devptr, ch)`. -/
def rflputc (s : Rfs) (i : ℕ) (ch : UInt8) (outcome : RfOutcome) : Rfs × ℤ :=
  let r := s.rflwrite i (fun _ => ch) 1 outcome
  (r.1, if r.2 ≠ 1 then SYSERR else OK)

/-- `rflclose(devptr)`. -/
def rflclose (s : Rfs) (i : ℕ) (outcome : RfOutcome) : Rfs × ℤ :=
  let rfptr := s.rfltab i
  if ¬ rfptr.rfused then (s, SYSERR)
  else
    match copyName rfptr.byte RF_NAMLEN 0 fun _ => 0 with
    | none => (s, SYSERR)
    | some (_, dst) =>
      let r := s.rfscomm (fun seq => .creq ⟨RF_MSG_CREQ, 0, seq, nameField dst⟩) outcome
      match r.2 with
      | none => (r.1, SYSERR)
      | some resp =>
        if resp.rf_status ≠ 0 then (r.1, SYSERR) else (r.1.set i { rfptr with rfused := false }, OK)

/-- `rflseek(devptr, pos)`. -/
def rflseek (s : Rfs) (i : ℕ) (pos : ℕ) : Rfs × ℤ :=
  if ¬ (s.rfltab i).rfused then (s, SYSERR) else (s.set i { s.rfltab i with rfpos := pos }, OK)

end Rfs

/-- The calls, each with what `rfscomm` brings back. -/
inductive RfsEvent where
  | rfsopen (name mode : CString) (outcome : RfOutcome)
  | rflread (i : ℕ) (count : ℤ) (outcome : RfOutcome)
  | rflwrite (i : ℕ) (buff : ℕ → UInt8) (count : ℤ) (outcome : RfOutcome)
  | rflputc (i : ℕ) (ch : UInt8) (outcome : RfOutcome)
  | rflclose (i : ℕ) (outcome : RfOutcome)
  | rflseek (i : ℕ) (pos : ℕ)

/-- One call. -/
def Rfs.exec (s : Rfs) : RfsEvent → Rfs
  | .rfsopen name mode outcome => (s.rfsopen name mode outcome).1
  | .rflread i count outcome => (s.rflread i count outcome).1
  | .rflwrite i buff count outcome => (s.rflwrite i buff count outcome).1
  | .rflputc i ch outcome => (s.rflputc i ch outcome).1
  | .rflclose i outcome => (s.rflclose i outcome).1
  | .rflseek i pos => (s.rflseek i pos).1

/-- `RFILE0`: the device number of the first pseudo-device. -/
abbrev RFILE0 : ℤ := 7

/-- `rfsinit` and `rflinit`. -/
def Rfs.booted : Rfs where
  rfltab i := ⟨false, RFILE0 + i, fun _ => 0, 0, 0⟩
  rf_seq := 1
  sent := []

end Xinu
