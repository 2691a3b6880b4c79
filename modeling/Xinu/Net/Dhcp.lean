import Xinu.Net.ByteOrder

/-!
# DHCP messages

`dhcp_get_opt_val` and the loop of `getlocalip`, which look for options in a message of `size`
bytes, and the functions that build messages. Both scanners come along with the places that they
read.
-/

namespace Xinu

open Bytes

/-- The offset of `dc_opt` in `struct dhcpmsg`. -/
abbrev DC_OPT_AT : ℕ := 240

/-- `DHCP_SERVER_ID`. -/
abbrev DHCP_SERVER_ID : ℕ := 54

/-! ## The scanners -/

/-- The loop of `dhcp_get_opt_val`: the offset of the value, and the places read. -/
def getOptLoop (m : ℕ → UInt8) (size key : ℕ) : ℕ → ℕ → Option ℕ × List ℕ
  | 0, _ => (none, [])
  | fuel + 1, opt_tmp =>
    -- `opt_tmp < eom`, where `eom` is the address of the last byte
    if opt_tmp + 1 < size then
      if (m opt_tmp).toNat = key then (some (opt_tmp + 2), [opt_tmp])
      else
        let r := getOptLoop m size key fuel (opt_tmp + 1 + ((m (opt_tmp + 1)).toNat + 1))
        (r.1, opt_tmp :: (opt_tmp + 1) :: r.2)
    else (none, [])

/-- `dhcp_get_opt_val(dmsg, dmsg_size, option_key)`. Each step goes forward, so that the loop ends
within the message. -/
def dhcp_get_opt_val (m : ℕ → UInt8) (size key : ℕ) : Option ℕ × List ℕ :=
  getOptLoop m size key size DC_OPT_AT

/-- The variables of the loop of `getlocalip`, with the places of the options that have set them,
and the places read, the first ones first. -/
structure OptScan where
  /-- The type of the message. -/
  msgtype : ℕ
  /-- The mask of the network. -/
  addrmask : ℕ
  /-- The address of the router. -/
  routeraddr : ℕ
  /-- The address of the name server. -/
  dnsaddr : ℕ
  /-- The address of the time server. -/
  ntpaddr : ℕ
  /-- The places of the options that have been found, the first one first. -/
  places : List ℕ
  /-- The places that have been read. -/
  reads : List ℕ

/-- `ntohl(tmp)` behind `memcpy((void *)&tmp, optptr+2, 4)`. -/
def optAddr (m : ℕ → UInt8) (optptr : ℕ) : ℕ := ntohl (le32 m (optptr + 2))

/-- The offsets of an address in an option. -/
def addrReads (optptr : ℕ) : List ℕ := [optptr + 2, optptr + 3, optptr + 4, optptr + 5]

/-- The option at `optptr` has set a variable, for which these places are read. -/
def OptScan.taken (s : OptScan) (optptr : ℕ) (reads : List ℕ) : OptScan :=
  { s with places := s.places ++ [optptr], reads := s.reads ++ optptr :: reads }

/-- The `switch` of `getlocalip`. -/
def OptScan.option (s : OptScan) (m : ℕ → UInt8) (optptr : ℕ) : OptScan :=
  match (m optptr).toNat with
  | 53 => { s.taken optptr [optptr + 2] with msgtype := (m (optptr + 2)).toNat }
  | 1 => { s.taken optptr (addrReads optptr) with addrmask := optAddr m optptr }
  | 3 => { s.taken optptr (addrReads optptr) with routeraddr := optAddr m optptr }
  | 6 => { s.taken optptr (addrReads optptr) with dnsaddr := optAddr m optptr }
  | 42 => { s.taken optptr (addrReads optptr) with ntpaddr := optAddr m optptr }
  | _ => { s with reads := s.reads ++ [optptr] }

/-- The loop over the options. -/
def optLoop (m : ℕ → UInt8) (size : ℕ) : ℕ → ℕ → OptScan → OptScan
  | 0, _, s => s
  | fuel + 1, optptr, s =>
    if optptr + 1 < size then
      let s := s.option m optptr
      optLoop m size fuel (optptr + 1 + ((m (optptr + 1)).toNat + 1))
        { s with reads := s.reads ++ [optptr + 1] }
    else s

/-- The options that `getlocalip` reads from a message. -/
def getlocalipOptions (m : ℕ → UInt8) (size : ℕ) : OptScan :=
  optLoop m size size DC_OPT_AT ⟨0, 0, 0, 0, 0, [], []⟩

/-! ## The builders -/

/-- `dhcp_bld_bootp_msg(dmsg)`: the fields that are not zero. -/
def dhcp_bld_bootp_msg (ethucast : ℕ → UInt8) : ℕ → UInt8 :=
  let dmsg := put (fun _ => 0) 0 [0x01, 0x01, 0x06, 0x00]
  let dmsg := store32 dmsg 4 (ntohl (le32 ethucast 0))
  let dmsg := put dmsg 28 (bytesAt ethucast 0 6)
  store32 dmsg 236 (ntohl 0x63825363)

/-- `dhcp_bld_disc(dmsg)`: the message, and its length. -/
def dhcp_bld_disc (ethucast : ℕ → UInt8) : (ℕ → UInt8) × ℕ :=
  let opt : List UInt8 := [53, 1, 1, 0] ++ [55, 2, 1, 3] ++ [0xff]
  (put (dhcp_bld_bootp_msg ethucast) DC_OPT_AT opt, DC_OPT_AT + opt.length + 1)

/-- `dhcp_bld_req(dmsg, dmsg_offer, dsmg_offer_size)`: nothing if the offer has no server address. -/
def dhcp_bld_req (ethucast offer : ℕ → UInt8) (size : ℕ) : Option ((ℕ → UInt8) × ℕ) :=
  let dmsg := put (dhcp_bld_bootp_msg ethucast) 20 (bytesAt offer 20 4)
  match (dhcp_get_opt_val offer size DHCP_SERVER_ID).1 with
  | none => none
  | some server_ip =>
    let opt := [53, 1, 3, 0] ++ ([50, 4] ++ bytesAt offer 16 4) ++
      ([54, 4] ++ bytesAt offer server_ip 4) ++ [0xff]
    some (put dmsg DC_OPT_AT opt, DC_OPT_AT + opt.length + 1)

end Xinu
