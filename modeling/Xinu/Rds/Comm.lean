import Xinu.Kernel.Sys
import Xinu.Net.ByteOrder
import Xinu.Rds.Iteration

/-!
# Exchanges with the server of a remote disk

`rdscomm` sends a message up to `RD_RETRIES` times, and looks at what comes back. The network
decides what happens in each try.
-/

namespace Xinu

open Bytes

/-- `RD_RETRIES`. -/
abbrev RD_RETRIES : ℕ := 3

/-- `RD_MSG_RESPONSE`. -/
abbrev RD_MSG_RESPONSE : ℕ := 0x0100

/-- The value of a 16-bit signed variable. -/
def int16 (x : ℤ) : ℤ := x.bmod (2 ^ 16)

/-- A 32-bit signed number where an unsigned one is needed. -/
def uint32 (x : ℤ) : ℕ := (x % 2 ^ 32).toNat

/-- The offsets of the fields in `struct rd_msg_hdr`. -/
abbrev RD_TYPE_AT : ℕ := 0
@[inherit_doc RD_TYPE_AT] abbrev RD_STATUS_AT : ℕ := 2
@[inherit_doc RD_TYPE_AT] abbrev RD_SEQ_AT : ℕ := 4

/-- What `rdscomm` uses of `struct rdscblk`. -/
structure RdsComm where
  /-- Whether the port is registered. -/
  rd_registered : Bool
  /-- The entry of the UDP table. -/
  rd_udpslot : ℤ
  /-- The sequence number. -/
  rd_seq : ℤ
  deriving DecidableEq

/-- What happens in one try: whether `udp_send` works, and what `udp_recv` returns and copies to the
start of the buffer. -/
structure RdsTry where
  /-- Whether `udp_send` works. -/
  sent : Bool
  /-- What `udp_recv` returns. -/
  retval : ℤ
  /-- What it copies to the start of the buffer. -/
  data : ℕ → UInt8

/-- What happens outside: the results of `udp_register` and of `getlocalip`, whether there is an IP
address already, and the tries. -/
structure RdsWorld where
  /-- The result of `udp_register`. -/
  slot : ℤ
  /-- Whether there is an IP address already. -/
  ipvalid : Bool
  /-- The result of `getlocalip`. -/
  localip : ℤ
  /-- What happens in each try. -/
  tries : ℕ → RdsTry

/-- How an exchange ends: what `rdscomm` returns, what is in the buffer for the reply, and the count
of the retries then. -/
structure RdsEnd where
  /-- What `rdscomm` returns. -/
  retval : ℤ
  /-- What is in the buffer for the reply. -/
  reply : ℕ → UInt8
  /-- The count of the retries. -/
  i : ℕ

/-- The loop of `rdscomm`, with `n` tries left and the `i`-th one next. The sequence number and the
type of the message are in host byte order. -/
def rdsRetry (w : RdsWorld) (seq : ℤ) (mtype : ℕ) : ℕ → ℕ → Bool → (ℕ → UInt8) → RdsEnd
  | 0, i, _, reply => ⟨TIMEOUT, reply, i⟩
  | n + 1, i, xmit, reply =>
    let t := w.tries i
    -- without transmission the flag is set for the next try
    if xmit ∧ ¬ t.sent then ⟨SYSERR, reply, i⟩
    else if t.retval = TIMEOUT then rdsRetry w seq mtype n (i + 1) true reply
    else if t.retval = SYSERR then ⟨SYSERR, reply, i⟩
    else
      let reply := overlay reply t.data t.retval
      let rseq := ntohl (le32 reply RD_SEQ_AT)
      -- both are compared as unsigned numbers
      if ¬ rseq < uint32 seq ∧ rseq ≠ uint32 seq then rdsRetry w seq mtype n (i + 1) true reply
      else
        let xmit := ! decide (rseq < uint32 seq)
        let rtype := int16 (ntohs (le16 reply RD_TYPE_AT))
        if rtype ≠ ((mtype ||| RD_MSG_RESPONSE : ℕ) : ℤ) then rdsRetry w seq mtype n (i + 1) xmit reply
        else if ntohs (le16 reply RD_STATUS_AT) ≠ 0 then ⟨SYSERR, reply, i⟩
        else ⟨OK, reply, i⟩

/-- `rdscomm(msg, mlen, reply, rlen, rdptr)`. Before the loop, nothing has been tried. -/
def rdscomm (c : RdsComm) (w : RdsWorld) (mtype : ℕ) (reply : ℕ → UInt8) : RdsEnd × RdsComm :=
  if ! c.rd_registered ∧ w.slot = SYSERR then (⟨SYSERR, reply, 0⟩, c)
  else
    let c := if c.rd_registered then c else { c with rd_registered := true, rd_udpslot := w.slot }
    if ! w.ipvalid ∧ w.localip = SYSERR then (⟨SYSERR, reply, 0⟩, c)
    else
      let seq := c.rd_seq
      (rdsRetry w seq mtype RD_RETRIES 0 true reply, { c with rd_seq := int32 (c.rd_seq + 1) })

end Xinu
