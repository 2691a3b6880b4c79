import Xinu.Kernel.Sys
import Xinu.Tty.Output

/-!
# Terminal input

The input half of `device/tty`: `ttyhandle_in` with `erase1` and `echoch`, and the calls of a
reader, `ttygetc` and `ttyread`. Interrupts are disabled in all of them, so that a reader is
interrupted only while it waits for `tyisem`.

`Edited` is what the terminal is for: the stream of characters that readers are to get, and the line
that is being edited.
-/

namespace Xinu

/-- `TY_IBUFLEN`. -/
abbrev TY_IBUFLEN : ℕ := 128

/-- `TY_BACKSP`. -/
abbrev TY_BACKSP : Ch := 8

/-- `TY_BACKSP2`. -/
abbrev TY_BACKSP2 : Ch := 127

/-- `TY_BELL`, which is `TY_FULLCH`. -/
abbrev TY_BELL : Ch := 7

/-- `TY_EOFCH`. -/
abbrev TY_EOFCH : Ch := 4

/-- `TY_BLANK`. -/
abbrev TY_BLANK : Ch := 32

/-- `TY_STOPCH`. -/
abbrev TY_STOPCH : Ch := 19

/-- `TY_STRTCH`. -/
abbrev TY_STRTCH : Ch := 17

/-- `TY_KILLCH`. -/
abbrev TY_KILLCH : Ch := 21

/-- `TY_UPARROW`. -/
abbrev TY_UPARROW : Ch := 94

/-- `TY_IMRAW`, `TY_IMCOOKED` and `TY_IMCBREAK`. -/
inductive Imode where
  | raw
  | cooked
  | cbreak
  deriving DecidableEq, Repr

/-- The fields of `struct ttycblk` that say how input is handled. -/
structure TtyModes where
  /-- The input mode. -/
  tyimode : Imode
  /-- Whether input is echoed. -/
  tyiecho : Bool
  /-- Whether an erased character is erased on the screen. -/
  tyieback : Bool
  /-- Whether control characters are echoed visibly. -/
  tyevis : Bool
  /-- Whether a newline is echoed with a carriage return. -/
  tyecrlf : Bool
  /-- Whether a carriage return becomes a newline. -/
  tyicrlf : Bool
  /-- Whether the erase character is honored. -/
  tyierase : Bool
  /-- The erase character. -/
  tyierasec : Ch
  /-- The other one. -/
  tyierasec2 : Ch
  /-- Whether the end-of-file character is honored. -/
  tyeof : Bool
  /-- The end-of-file character. -/
  tyeofch : Ch
  /-- Whether the kill character is honored. -/
  tyikill : Bool
  /-- The kill character. -/
  tyikillc : Ch
  /-- Whether the flow-control characters are honored. -/
  tyoflow : Bool
  /-- The character that stops output. -/
  tyostop : Ch
  /-- The character that starts it again. -/
  tyostart : Ch
  /-- What is echoed when the buffer is full. -/
  tyifullc : Ch

/-- A reader in `ttygetc`, which a process has called, or which `ttyread` has: in the loop of the
modes without lines, for the first character of a line, or in the loop over a line. `buff` holds the
`nread` characters that are there already. -/
inductive Reader where
  | getc
  | chars (count : ℤ) (buff : List Ch)
  | first (count : ℤ)
  | line (count : ℤ) (buff : List Ch)

/-- What a call returns: `ttygetc` a character or `EOF`, `ttyread` a number and the characters in
the buffer. -/
inductive Reply where
  | char (v : ℤ)
  | read (v : ℤ) (buff : List Ch)
  deriving DecidableEq

/-- The fields of `struct ttycblk` for input, with the characters that `ttygetc` has taken and the
replies to the calls so far. -/
structure TtyIn extends TtyEcho, TtyModes where
  /-- The next character that is read. -/
  tyihead : ℕ
  /-- Where the next character goes. -/
  tyitail : ℕ
  /-- The cells of the ring. -/
  tyibuff : ℕ → Ch
  /-- The semaphore that counts the characters for readers. -/
  tyisem : Semaphore Reader
  /-- The length of the line that is being edited. -/
  tyicursor : ℕ
  /-- The characters that `ttygetc` has taken. -/
  taken : List Ch
  /-- What the calls have returned. -/
  replies : List Reply

namespace TtyModes

/-- The modes of `ttyinit`. -/
def ttyinit : TtyModes where
  tyimode := .cooked
  tyiecho := true
  tyieback := true
  tyevis := true
  tyecrlf := true
  tyicrlf := true
  tyierase := true
  tyierasec := TY_BACKSP
  tyierasec2 := TY_BACKSP2
  tyeof := true
  tyeofch := TY_EOFCH
  tyikill := true
  tyikillc := TY_KILLCH
  tyoflow := true
  tyostop := TY_STOPCH
  tyostart := TY_STRTCH
  tyifullc := TY_BELL

/-- The characters that `echoch` puts in the echo queue. -/
def echoch (m : TtyModes) (ch : Ch) : List Ch :=
  if (ch = TY_NEWLINE ∨ ch = TY_RETURN) ∧ m.tyecrlf then [TY_RETURN, TY_NEWLINE]
  else if (ch < TY_BLANK ∨ ch = 127) ∧ m.tyevis then [TY_UPARROW, ch + 64]
  else [ch]

/-- The characters that erase one on the screen. -/
def rubout (m : TtyModes) : List Ch := TY_BACKSP :: if m.tyieback then [TY_BLANK, TY_BACKSP] else []

/-- The characters that `erase1` puts in the echo queue. -/
def erased (m : TtyModes) (ch : Ch) : List Ch :=
  if ch < TY_BLANK ∨ ch = 127 then (if m.tyevis then m.rubout else []) ++ m.rubout else m.rubout

/-- A carriage return may become a newline, but not in raw mode. -/
def mapped (m : TtyModes) (ch : Ch) : Ch := if ch = TY_RETURN ∧ m.tyicrlf then TY_NEWLINE else ch

end TtyModes

namespace TtyIn

/-- The input part of `ttyinit`, and the mode and the echo that `ttycontrol` sets. -/
def ttyinit (mode : Imode) (echo : Bool) : TtyIn where
  tyehead := 0
  tyetail := 0
  tyebuff _ := 0
  tyoheld := false
  toTtyModes := { TtyModes.ttyinit with tyimode := mode, tyiecho := echo }
  tyihead := 0
  tyitail := 0
  tyibuff _ := 0
  tyisem := .create 0
  tyicursor := 0
  taken := []
  replies := []

/-- Calls of `eputc`. -/
def eputs (s : TtyIn) (chs : List Ch) : TtyIn := { s with toTtyEcho := chs.foldl TtyEcho.eputc s.toTtyEcho }

/-- `echoch(ch, typtr, csrptr)`, if input is echoed. -/
def echo (s : TtyIn) (ch : Ch) : TtyIn := if s.tyiecho then s.eputs (s.echoch ch) else s

/-- `*typtr->tyitail++ = ch`. -/
def put (s : TtyIn) (ch : Ch) : TtyIn :=
  { s with tyibuff := Function.update s.tyibuff s.tyitail ch, tyitail := s.tyitail + 1 }

/-- A character is stored at the tail, which wraps around the buffer. -/
def putWrap (s : TtyIn) (ch : Ch) : TtyIn :=
  { s with tyibuff := Function.update s.tyibuff s.tyitail ch, tyitail := Ring.bump TY_IBUFLEN s.tyitail }

/-- `erase1(typtr, csrptr)`. -/
def erase1 (s : TtyIn) : TtyIn :=
  let s := { s with tyitail := Ring.back TY_IBUFLEN s.tyitail 1 }
  if s.tyiecho then s.eputs (s.erased (s.tyibuff s.tyitail)) else s

/-- The characters that are available, as `ttyhandle_in` computes it. -/
def avail (s : TtyIn) : ℤ := if s.tyisem.count < 0 then 0 else s.tyisem.count

/-- `ttyhandle_in`, in raw mode. -/
def inRaw (s : TtyIn) (ch : Ch) : TtyIn :=
  if s.avail ≥ TY_IBUFLEN then s
  else
    let s := s.putWrap ch
    { s with tyisem := s.tyisem.signal }

/-- `ttyhandle_in`, in cbreak mode, behind the part that it shares with cooked mode. -/
def inCbreak (s : TtyIn) (ch : Ch) : TtyIn :=
  if s.avail ≥ TY_IBUFLEN then s.eputs [s.tyifullc]
  else
    let s := (s.putWrap ch).echo ch
    { s with tyisem := s.tyisem.signal }

/-- `ttyhandle_in`, in cooked mode. -/
def inCooked (s : TtyIn) (ch : Ch) : TtyIn :=
  if ch = s.tyikillc ∧ s.tyikill then
    { s with tyitail := Ring.back TY_IBUFLEN s.tyitail s.tyicursor, tyicursor := 0 }.eputs
      [TY_RETURN, TY_NEWLINE]
  else if (ch = s.tyierasec ∨ ch = s.tyierasec2) ∧ s.tyierase then
    if s.tyicursor > 0 then { s with tyicursor := s.tyicursor - 1 }.erase1 else s
  else if ch = TY_NEWLINE ∨ ch = TY_RETURN then
    let s := (s.echo ch).putWrap ch
    { s with tyisem := s.tyisem.signaln (s.tyicursor + 1), tyicursor := 0 }
  else if s.avail + s.tyicursor ≥ TY_IBUFLEN - 1 then s.eputs [s.tyifullc]
  else if ch = s.tyeofch ∧ s.tyeof then
    let s := s.echo ch
    if s.tyicursor ≠ 0 then s
    else
      -- no wrap here
      let s := s.put ch
      { s with tyisem := s.tyisem.signal }
  else
    let s := s.echo ch
    { s with tyicursor := s.tyicursor + 1 }.putWrap ch

/-- `ttyhandle_in(typtr, csrptr)`, for a character from the device. -/
def ttyhandle_in (s : TtyIn) (ch : Ch) : TtyIn :=
  if s.tyimode = .raw then s.inRaw ch
  else
    let ch := s.mapped ch
    if s.tyoflow ∧ ch = s.tyostart then { s with tyoheld := false }
    else if s.tyoflow ∧ ch = s.tyostop then { s with tyoheld := true }
    else
      let s := { s with tyoheld := false }
      if s.tyimode = .cbreak then s.inCbreak ch else s.inCooked ch

/-- The part of `ttygetc` behind the `wait`. -/
def getc (s : TtyIn) : ℤ × TtyIn :=
  let ch := s.tyibuff s.tyihead
  (if s.tyimode = .cooked ∧ s.tyeof ∧ ch = s.tyeofch then EOF else ch.toInt,
    { s with tyihead := Ring.bump TY_IBUFLEN s.tyihead, taken := s.taken ++ [ch] })

end TtyIn

/-- The loop of `ttyread` over a line: it goes on until `count` characters are there or the last one
ends the line. -/
def Reader.more (count : ℤ) (buff : List Ch) (ch : Ch) : Reply ⊕ Reader :=
  if buff.length < count ∧ ch ≠ TY_NEWLINE ∧ ch ≠ TY_RETURN then .inr (.line count buff)
    else .inl (.read buff.length buff)

/-- What a call does with the value that `ttygetc` returns: it ends, or calls `ttygetc` again. -/
def Reader.got : Reader → ℤ → Reply ⊕ Reader
  | .getc, v => .inl (.char v)
  | .chars count buff, v =>
    let buff := buff ++ [Int8.ofInt v]
    if buff.length < count then .inr (.chars count buff) else .inl (.read buff.length buff)
  | .first count, v =>
    if v = EOF then .inl (.read EOF []) else Reader.more count [Int8.ofInt v] (Int8.ofInt v)
  | .line count buff, v => Reader.more count (buff ++ [Int8.ofInt v]) (Int8.ofInt v)

namespace TtyIn

/-- A call returns. -/
def reply (s : TtyIn) (r : Reply) : TtyIn := { s with replies := s.replies ++ [r] }

/-- A reader calls `ttygetc` until it is done or has to wait. It goes on at its `wait` as often as
there are permits, which is the number that this is a recursion on. -/
def goOn : ℕ → TtyIn → Reader → TtyIn
  | 0, s, r => { s with tyisem := (s.tyisem.wait r).2 }
  | n + 1, s, r =>
    let got := { s with tyisem := (s.tyisem.wait r).2 }.getc
    match r.got got.1 with
    | .inl v => got.2.reply v
    | .inr r => goOn n got.2 r

/-- A reader calls `ttygetc`. -/
def call (s : TtyIn) (r : Reader) : TtyIn := goOn s.tyisem.count.toNat s r

/-- `ttygetc(devptr)`. -/
def ttygetc (s : TtyIn) : TtyIn := s.call .getc

/-- `ttyread(devptr, buff, count)`. -/
def ttyread (s : TtyIn) (count : ℤ) : TtyIn :=
  if count < 0 then s.reply (.read SYSERR [])
  else if s.tyimode ≠ .cooked then
    -- for a count of zero, all characters that are available
    let count := if count = 0 then s.tyisem.count else count
    if count ≤ 0 then s.reply (.read 0 []) else s.call (.chars count [])
  else s.call (.first count)

/-- The reader that a signal has woken runs again. -/
def resume (s : TtyIn) : Option TtyIn :=
  (s.tyisem.resume 0).map fun r =>
    let got := { s with tyisem := r.2 }.getc
    match r.1.got got.1 with
    | .inl v => got.2.reply v
    | .inr r => got.2.call r

end TtyIn

/-- What can happen to the input half of a terminal. -/
inductive InEvent where
  | ttyhandle_in (ch : Ch)
  | ttygetc
  | ttyread (count : ℤ)
  | resume

/-- One step. There is one reader: it calls only when it is in no other call. -/
def TtyIn.exec (s : TtyIn) : InEvent → Option TtyIn
  | .ttyhandle_in ch => some (s.ttyhandle_in ch)
  | .ttygetc => if s.tyisem.blocked = [] then some s.ttygetc else none
  | .ttyread count => if s.tyisem.blocked = [] then some (s.ttyread count) else none
  | .resume => s.resume

end Xinu
