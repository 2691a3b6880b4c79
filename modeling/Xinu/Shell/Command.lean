import Xinu.Shell.LexanSpec
import Xinu.Lib.Strings
import Xinu.Lib.Words

/-!
# The commands of the shell

The body of the loop of `shell` in `shell/shell.c` behind the read: the line is divided into tokens,
`&` and the redirections are taken off, and the first token is looked up in `cmdtab`. File names and
arguments are places in the token buffer. Then `create` makes the stack of the new process, and
`addargs` of `shell/addargs.c` puts the arguments there.
-/

namespace Xinu

open Bytes Words

/-- An entry of `cmdtab`. -/
structure Cmdent where
  /-- The name, without the null character. -/
  cname : List UInt8
  /-- The command is a function of the shell itself. -/
  cbuiltin : Bool
  deriving DecidableEq

/-- An entry with its name. -/
def Cmdent.of (cname : List Char) (cbuiltin : Bool) : Cmdent := ⟨cname.map Char.toUInt8, cbuiltin⟩

/-- `cmdtab`. -/
def cmdtab : List Cmdent :=
  [.of ['a', 'r', 'g', 'e', 'c', 'h', 'o'] true, .of ['a', 'r', 'p'] false,
    .of ['c', 'a', 't'] false, .of ['c', 'l', 'e', 'a', 'r'] true,
    .of ['d', 'a', 't', 'e'] false, .of ['d', 'e', 'v', 'd', 'u', 'm', 'p'] false,
      .of ['e', 'c', 'h', 'o'] false,
    .of ['e', 'x', 'i', 't'] true, .of ['h', 'e', 'l', 'p'] false,
      .of ['k', 'i', 'l', 'l'] true, .of ['l', 's'] false,
    .of ['m', 'e', 'm', 'd', 'u', 'm', 'p'] false, .of ['m', 'e', 'm', 's', 't', 'a', 't'] false,
    .of ['n', 'e', 't', 'i', 'n', 'f', 'o'] false, .of ['n', 's'] false,
      .of ['p', 'i', 'n', 'g'] false, .of ['p', 's'] false,
    .of ['s', 'l', 'e', 'e', 'p'] false, .of ['u', 'd', 'p'] false,
      .of ['u', 'd', 'p', 'e', 'c', 'h', 'o'] false,
    .of ['u', 'd', 'p', 'e', 's', 'e', 'r', 'v', 'e', 'r'] false,
      .of ['u', 'p', 't', 'i', 'm', 'e'] false, .of ['?'] false]

/-- What is left of a line when `&` and the redirections are taken off. -/
structure Parsed where
  /-- How many tokens there are. -/
  ntok : ℕ
  /-- Their length in the token buffer. -/
  tlen : ℤ
  /-- The place of the name of the input file in the token buffer. -/
  inname : Option ℕ
  /-- The place of the name of the output file. -/
  outname : Option ℕ
  /-- The command runs in the background. -/
  backgnd : Bool
  deriving DecidableEq

/-- What the shell does with a line. -/
inductive ShellAct
  /-- The line has no characters but the newline. -/
  | skip
  /-- The line has no tokens. -/
  | blank
  /-- `SHELL_SYNERRMSG`. -/
  | syntaxError
  /-- `command %s not found`. -/
  | notFound
  /-- `SHELL_BGERRMSG`. -/
  | refused
  /-- A function of the shell itself is called, with arguments at these places. -/
  | builtin (j : ℕ) (args : List ℕ)
  /-- The files are opened, and a process is made for the command: what `open`, `create` and
  `addargs` are called with. Each of them may fail, and the shell goes on with the next line then.
  -/
  | spawn (j : ℕ) (p : Parsed)
  deriving DecidableEq

/-- The last token is `&`. -/
def takeBackgnd (s : Lexed) (ntok : ℕ) (tlen : ℤ) : Parsed :=
  if s.toktyp.getD (ntok - 1) 0 = SH_TOK_AMPER then ⟨ntok - 1, tlen - 2, none, none, true⟩
    else ⟨ntok, tlen, none, none, false⟩

/-- The last two tokens are a redirection. The second time, it must not be of the kind that has been
found already. -/
def takeRedirect (again : Bool) (s : Lexed) (p : Parsed) : Option Parsed :=
  let typ := s.toktyp.getD (p.ntok - 2) 0
  if p.ntok ≥ 3 ∧ (typ = SH_TOK_LESS ∨ typ = SH_TOK_GREATER) then
    if s.toktyp.getD (p.ntok - 1) 0 ≠ SH_TOK_OTHER then none
    else
      let name := s.tok.getD (p.ntok - 1) 0
      let p' := { p with ntok := p.ntok - 2, tlen := s.tok.getD (p.ntok - 2) 0 }
      if typ = SH_TOK_LESS then (if again ∧ p.inname ≠ none then none
        else some { p' with inname := some name })
      else if again ∧ p.outname ≠ none then none else some { p' with outname := some name }
  else some p

/-- What is left of a line; nothing if it is an error. -/
def parseLine (s : Lexed) (ntok : ℕ) (tlen : ℤ) : Option Parsed := do
  let p ← takeRedirect false s (takeBackgnd s ntok tlen)
  let p ← takeRedirect true s p
  if p.ntok = 0 ∨ ∃ i < p.ntok, s.toktyp.getD i 0 ≠ SH_TOK_OTHER then none else some p

/-- The comparison of a name with the first token: its characters, and then a null character. -/
def sameCommand : List UInt8 → List UInt8 → Bool
  | [], cmp => cmp.headD 0 = 0
  | ch :: src, cmp => cmp.headD 0 = ch && sameCommand src cmp.tail

/-- The loop that looks up the first token. -/
def lookupCmd (tokbuf : List UInt8) : Option ℕ := cmdtab.findIdx? fun e => sameCommand e.cname tokbuf

/-- What the shell does with the characters that `read` has returned. -/
def shellLine (chars : List UInt8) : Option ShellAct :=
  if chars.length ≤ 1 then some .skip
  else do
    let r ← lexan (chars ++ [SH_NEWLINE])
    if r.retval = SYSERR then return .syntaxError
    if r.retval = 0 then return .blank
    match parseLine r.stored r.retval.toNat (r.tlen.getD 0) with
    | none => return .syntaxError
    | some p =>
      match lookupCmd r.stored.tokbuf with
      | none => return .notFound
      | some j =>
        if (cmdtab.getD j ⟨[], false⟩).cbuiltin then
          if p.inname ≠ none ∨ p.outname ≠ none ∨ p.backgnd then return .refused
          else return .builtin j (r.stored.tok.take p.ntok)
        else return .spawn j p

/-! ## The stack of a command -/

/-- `STACKMAGIC`. -/
abbrev STACKMAGIC : ℕ := 0x0A0AAAA9

/-- The stack that `create` makes from the address of its highest word, and where its stack pointer
is saved: the arguments, the last one first, the return address, and what `ctxsw` expects of a
process that it goes back to. The slot of the stack pointer itself is filled in last. -/
def createStack (mem : ℕ → UInt8) (saddr funcaddr initret : ℕ) (args : List ℕ) : (ℕ → UInt8) × ℕ :=
  let frame := pushWords (store32 mem saddr STACKMAGIC) saddr (args.reverse ++ [initret, funcaddr, saddr])
  let saved := pushWords frame.1 frame.2 [0x200, 0, 0, 0, 0, 0]
  let top := pushWords saved.1 saved.2 [frame.2, 0, 0]
  (store32 top.1 saved.2 top.2, top.2)

/-- The fields of the new process that `addargs` looks at. -/
structure CmdStack where
  /-- The base of the stack. -/
  prstkbase : ℕ
  /-- Its length. -/
  prstklen : ℕ
  /-- The stack pointer. -/
  prstkptr : ℕ

/-- The addresses of the arguments, and the null pointer behind them. -/
def argWords (argloc ntok : ℕ) (tok : List ℕ) : List ℕ :=
  ((List.range ntok).map fun i => argloc + 4 * (ntok + 1) + tok.getD i 0) ++ [0]

/-- The search for the dummy argument, in so many words. -/
def searchDummy (mem : ℕ → UInt8) (dummy : ℕ) : ℕ → ℕ → Option ℕ
  | 0, _ => none
  | n + 1, search => if le32 mem search = dummy then some search else searchDummy mem dummy n (search + 4)

/-- `addargs`; the memory is changed also if the dummy argument is not found. -/
def addargs (mem : ℕ → UInt8) (prptr : CmdStack) (ntok : ℕ)
    (tok : List ℕ) (tlen : ℤ) (tokbuf : List UInt8) (dummy : ℕ) : ℤ × (ℕ → UInt8) :=
  if ntok = 0 ∨ tlen < 0 then (SYSERR, mem)
  else
    let aloc := prptr.prstkbase - prptr.prstklen + 4
    let argloc := (aloc + 3) / 4 * 4
    let mem := storeWords mem argloc (argWords argloc ntok tok)
    let mem := put mem (argloc + 4 * (ntok + 1)) (tokbuf.take tlen.toNat)
    match searchDummy mem dummy ((prptr.prstkbase - prptr.prstkptr + 3) / 4) prptr.prstkptr with
    | none => (SYSERR, mem)
    | some search => (OK, store32 mem search argloc)

end Xinu
