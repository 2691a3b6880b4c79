import Xinu.Lfs.Open

/-!
# TFTP

`tftpget_mb` and `tftp_send1`, with a server and a network between them. The local variables are the
state of a transfer, and a step of the code goes from one result of `udp_recvaddr` to the next. The
network keeps all packets: it may lose one by never delivering it, duplicate it, and deliver packets
in any order. A packet is late by the blocks between the one that it carries and the one that its
receiver is at, and none is late by 65536 blocks. The server answers each read request that it gets
with a session of its own, on a port of its own, sends the next block when the last one is
acknowledged, and may send the same block again at any time. Its block numbers have 16 bits.
-/

namespace Xinu

/-- `TFTP_DATA`. -/
abbrev TFTP_DATA : ℕ := 3

/-- `TFTP_ERROR`. -/
abbrev TFTP_ERROR : ℕ := 5

/-- `TFTP_PORT`. -/
abbrev TFTP_PORT : ℕ := 69

/-- `TFTP_MAXNAM`. -/
abbrev TFTP_MAXNAM : ℕ := 64

/-- `TFTP_MAXDATA`. -/
abbrev TFTP_MAXDATA : ℕ := 512

/-- `TFTP_MAXRETRIES`. -/
abbrev TFTP_MAXRETRIES : ℕ := 3

/-- The messages that the client sends. -/
inductive TftpOut where
  | rrq (filename : CString)
  | ack (tf_ablk : ℕ)
  deriving DecidableEq

/-- A message that the client receives, with the length that `udp_recvaddr` returns. -/
structure TftpMsg where
  /-- What `udp_recvaddr` returns. -/
  n : ℤ
  /-- The operation. -/
  tf_opcode : ℕ
  /-- The number of the block. -/
  tf_dblk : ℕ
  /-- The data. -/
  tf_data : ℕ → UInt8

/-- What `udp_recvaddr` returns. -/
inductive TftpRecv where
  | syserr
  | timeout
  | packet (remport : ℕ) (inmsg : TftpMsg)

/-- The variables of `tftpget_mb`, with its result. -/
structure TftpGet where
  /-- The message that was sent last. -/
  outmsg : TftpOut
  /-- The port of the server's session, 0 before the first answer. -/
  remport : ℕ
  /-- The number of the block that is expected. -/
  expected : ℕ
  /-- The retries so far. -/
  i : ℕ
  /-- How many bytes have been copied. -/
  filesiz : ℤ
  /-- The place in the current buffer that `curr_buf` points to. -/
  curr_buf : ℕ
  /-- The current buffer. -/
  curr_buf_ind : ℕ
  /-- How many bytes of it are used. -/
  curr_used : ℕ
  /-- The buffers of the caller. -/
  rcv_bufs : ℕ → ℕ → UInt8
  /-- What has been returned, if it has. -/
  result : Option ℤ

namespace TftpGet

variable (rcv_buf_sizes : List ℕ)

/-- The beginning of `tftpget_mb(serverip, filename, rcv_bufs, rcv_buf_sizes, rcv_buf_count,
verbose)`, up to the first `udp_sendto`. The last two arguments are the outcomes of `udp_register`
and of `udp_sendto`. -/
def start (serverip : ℕ) (filename : CString) (rcv_bufs : ℕ → ℕ → UInt8) (registered sent : Bool) : TftpGet :=
  let c : TftpGet := ⟨.rrq filename, TFTP_PORT, 1, 0, 0, 0, 0, 0, rcv_bufs, none⟩
  if serverip = 0 ∨ rcv_buf_sizes.length = 0 then { c with result := some SYSERR }
  else if rcv_buf_sizes.any (· = 0) then { c with result := some SYSERR }
  else if filename.length = 0 ∨ filename.length > TFTP_MAXNAM then { c with result := some SYSERR }
  else if ¬ registered ∨ ¬ sent then { c with result := some SYSERR }
  else c

/-- The loop that moves a block into the buffers. The second component is true if there is no room
for the next byte. -/
def copyBlock : List UInt8 → TftpGet → TftpGet × Bool
  | [], c => (c, false)
  | ch :: data, c =>
    if c.curr_used ≥ rcv_buf_sizes.getD c.curr_buf_ind 0 then
      let c := { c with curr_buf_ind := c.curr_buf_ind + 1 }
      if c.curr_buf_ind ≥ rcv_buf_sizes.length then (c, true)
      else
        -- The first byte of the next buffer, which is not empty.
        let rcv_bufs := Function.update c.rcv_bufs c.curr_buf_ind
          (Function.update (c.rcv_bufs c.curr_buf_ind) 0 ch)
        copyBlock data
          { c with rcv_bufs := rcv_bufs, curr_buf := 1, curr_used := 1, filesiz := int32 (c.filesiz + 1) }
    else
      let rcv_bufs := Function.update c.rcv_bufs c.curr_buf_ind
        (Function.update (c.rcv_bufs c.curr_buf_ind) c.curr_buf ch)
      copyBlock data
        { c with rcv_bufs := rcv_bufs, curr_buf := c.curr_buf + 1, curr_used := c.curr_used + 1,
                 filesiz := int32 (c.filesiz + 1) }

/-- The rest of the loop of `tftpget_mb` behind a block that was expected, up to the next
`udp_recvaddr`. The second component is the acknowledgement that is sent. -/
def block (c : TftpGet) (inmsg : TftpMsg) (sent : Bool) : TftpGet × Option ℕ :=
  let dlen := inmsg.n - 4
  let r := copyBlock rcv_buf_sizes ((List.range dlen.toNat).map inmsg.tf_data) c
  if r.2 then ({ r.1 with result := some r.1.filesiz }, none)
  else
    let c := { r.1 with outmsg := .ack r.1.expected }
    let ack := if sent then some c.expected else none
    if dlen < TFTP_MAXDATA then ({ c with result := some (if sent then c.filesiz else SYSERR) }, ack)
    else ({ c with expected := (c.expected + 1) % 2 ^ 16, i := 0,
                   result := if sent then none else some SYSERR }, ack)

/-- The loop of `tftp_send1`, with a result of `udp_recvaddr`, and what `tftpget_mb` does with the
result. The second component is the acknowledgement that is sent. -/
def tftp_send1 (c : TftpGet) (ret : TftpRecv) (sent : Bool) : TftpGet × Option ℕ :=
  match ret with
  | .syserr => ({ c with result := some SYSERR }, none)
  | .timeout =>
    if c.i + 1 ≥ TFTP_MAXRETRIES ∨ ¬ sent then ({ c with i := c.i + 1, result := some SYSERR }, none)
    else
      ({ c with i := c.i + 1 }, match c.outmsg with
        | .rrq _ => none
        | .ack tf_ablk => some tf_ablk)
  | .packet remport inmsg =>
    -- The port is taken from every packet, also from one that is ignored.
    let c := { c with remport := remport }
    if inmsg.n < 4 then (c, none)
    else if inmsg.tf_opcode = TFTP_ERROR then ({ c with result := some SYSERR }, none)
    else if inmsg.tf_opcode = TFTP_DATA ∧ inmsg.tf_dblk = c.expected then c.block rcv_buf_sizes inmsg sent
    else (c, none)

end TftpGet

/-- A session of the server, with the block that was sent last. -/
structure TftpSession where
  /-- Its port. -/
  port : ℕ
  /-- The block that was sent last. -/
  blk : ℕ

/-- An acknowledgement on the network, with the block that it is for. -/
structure TftpAck where
  /-- The port that it is sent to. -/
  port : ℕ
  /-- The number in the packet. -/
  tf_ablk : ℕ
  /-- The block that it is for, counted without wrap. -/
  blk : ℕ

/-- A transfer: the client, the block that it expects, counted without wrap, the sessions of the
server, and the packets so far. -/
structure Tftp where
  /-- The client. -/
  get : TftpGet
  /-- The block that it expects, counted without wrap. -/
  blk : ℕ
  /-- The sessions of the server. -/
  sessions : List TftpSession
  /-- The data packets, each with its port and its block. -/
  datagrams : List (ℕ × ℕ)
  /-- The acknowledgements. -/
  acks : List TftpAck

/-- The data of a block, counted from one. -/
def tftpBlock (file : List UInt8) (blk : ℕ) : List UInt8 :=
  (file.drop ((blk - 1) * TFTP_MAXDATA)).take TFTP_MAXDATA

/-- The last block of a file, which is not full. -/
def tftpLast (file : List UInt8) : ℕ := file.length / TFTP_MAXDATA + 1

/-- The packet with a block. -/
def tftpData (file : List UInt8) (blk : ℕ) : TftpMsg where
  n := 4 + (tftpBlock file blk).length
  tf_opcode := TFTP_DATA
  tf_dblk := blk % 2 ^ 16
  tf_data j := (tftpBlock file blk).getD j 0

/-- What may happen. -/
inductive TftpEvent where
  /-- The server gets a read request, and opens a session on a port. -/
  | request (port : ℕ)
  /-- The `j`-th session gets the `k`-th acknowledgement. -/
  | ack (j k : ℕ)
  /-- The `j`-th session sends its block again. -/
  | resend (j : ℕ)
  /-- The client gets the `k`-th data packet. The last argument is the outcome of the next `udp_sendto`. -/
  | data (k : ℕ) (sent : Bool)
  /-- The client gets an error packet of the server. -/
  | error (port : ℕ)
  /-- `udp_recvaddr` returns `TIMEOUT`. -/
  | timeout (sent : Bool)
  /-- `udp_recvaddr` returns `SYSERR`. -/
  | syserr

namespace Tftp

variable (file : List UInt8) (rcv_buf_sizes : List ℕ)

/-- The client goes on with a result of `udp_recvaddr`. -/
def receive (s : Tftp) (ret : TftpRecv) (sent : Bool) : Option Tftp :=
  if s.get.result ≠ none then none
  else
    let r := s.get.tftp_send1 rcv_buf_sizes ret sent
    -- An acknowledgement is for the block before the one that is expected then, or for the last one.
    let moved := r.1.expected ≠ s.get.expected
    let ack := if moved ∨ r.1.result ≠ none then s.blk else s.blk - 1
    some { s with
      get := r.1
      blk := if moved then s.blk + 1 else s.blk
      acks := match r.2 with
        | none => s.acks
        | some tf_ablk => ⟨r.1.remport, tf_ablk, ack⟩ :: s.acks }

/-- One step: nothing, if it cannot happen. -/
def exec (s : Tftp) : TftpEvent → Option Tftp
  | .request port =>
    some { s with sessions := ⟨port, 1⟩ :: s.sessions, datagrams := (port, 1) :: s.datagrams }
  | .ack j k =>
    match s.sessions[j]?, s.acks[k]? with
    | some t, some a =>
      if a.port ≠ t.port ∨ t.blk ≥ a.blk + 2 ^ 16 then none
      else if a.tf_ablk ≠ t.blk % 2 ^ 16 then some s
      else if t.blk < tftpLast file then
        some { s with sessions := s.sessions.set j ⟨t.port, t.blk + 1⟩,
                      datagrams := (t.port, t.blk + 1) :: s.datagrams }
      else some { s with sessions := s.sessions.eraseIdx j }
    | _, _ => none
  | .resend j => s.sessions[j]?.map fun t => { s with datagrams := (t.port, t.blk) :: s.datagrams }
  | .data k sent =>
    match s.datagrams[k]? with
    | some d =>
      if s.blk ≥ d.2 + 2 ^ 16 then none else s.receive rcv_buf_sizes (.packet d.1 (tftpData file d.2)) sent
    | none => none
  | .error port => s.receive rcv_buf_sizes (.packet port ⟨4, TFTP_ERROR, 0, fun _ => 0⟩) false
  | .timeout sent => s.receive rcv_buf_sizes .timeout sent
  | .syserr => s.receive rcv_buf_sizes .syserr false

end Tftp

/-- The states of all transfers of a file into buffers. -/
inductive TftpRun (file : List UInt8) (rcv_buf_sizes : List ℕ) (rcv_bufs : ℕ → ℕ → UInt8) : Tftp → Prop where
  | start {serverip : ℕ} {filename : CString} {registered sent : Bool} :
    TftpRun file rcv_buf_sizes rcv_bufs ⟨.start rcv_buf_sizes serverip filename rcv_bufs registered sent,
    1, [], [], []⟩
  | step {s s' : Tftp} {e : TftpEvent} :
    TftpRun file rcv_buf_sizes rcv_bufs s → s.exec file rcv_buf_sizes e = some s' →
    TftpRun file rcv_buf_sizes rcv_bufs s'

end Xinu
