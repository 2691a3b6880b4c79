import Xinu.Tty.Input
import Xinu.Lfs.Open

/-!
# The lexical analyzer of the shell

`lexan` of `shell/lexan.c`. The line is the list of its characters up to the null character: where
the list ends, the null character is read. The token buffer and the two arrays are filled from their
beginnings on, so that they are the lists of what has been stored.
-/

namespace Xinu

/-- `SHELL_BUFLEN`. -/
abbrev SHELL_BUFLEN : ℕ := TY_IBUFLEN + 1

/-- `SHELL_MAXTOK`. -/
abbrev SHELL_MAXTOK : ℕ := 32

/-- `SH_NEWLINE`. -/
abbrev SH_NEWLINE : UInt8 := 10

/-- `SH_AMPER`. -/
abbrev SH_AMPER : UInt8 := 38

/-- `SH_BLANK`. -/
abbrev SH_BLANK : UInt8 := 32

/-- `SH_TAB`. -/
abbrev SH_TAB : UInt8 := 9

/-- `SH_SQUOTE`. -/
abbrev SH_SQUOTE : UInt8 := 39

/-- `SH_DQUOTE`. -/
abbrev SH_DQUOTE : UInt8 := 34

/-- `SH_LESS`. -/
abbrev SH_LESS : UInt8 := 60

/-- `SH_GREATER`. -/
abbrev SH_GREATER : UInt8 := 62

/-- `SH_TOK_AMPER`. -/
abbrev SH_TOK_AMPER : ℤ := 0

/-- `SH_TOK_LESS`. -/
abbrev SH_TOK_LESS : ℤ := 1

/-- `SH_TOK_GREATER`. -/
abbrev SH_TOK_GREATER : ℤ := 2

/-- `SH_TOK_OTHER`. -/
abbrev SH_TOK_OTHER : ℤ := 3

/-- What has been stored: the token buffer, and the entries of `tok` and `toktyp`. -/
structure Lexed where
  /-- How many tokens there are. -/
  ntok : ℕ
  /-- Their characters, each with a null character behind it. -/
  tokbuf : List UInt8
  /-- Where each of them begins. -/
  tok : List ℕ
  /-- The type of each. -/
  toktyp : List ℤ
  deriving DecidableEq

/-- What `lexan` returns, stores at `tlen` if it stores anything there, and leaves in the arrays. -/
structure LexResult where
  /-- What `lexan` returns. -/
  retval : ℤ
  /-- What it stores as the length, if it stores one. -/
  tlen : Option ℕ
  /-- What it leaves in the arrays. -/
  stored : Lexed
  deriving DecidableEq

namespace Lexed

/-- No tokens. -/
def empty : Lexed := ⟨0, [], [], []⟩

/-- The next entries of the two arrays. -/
def start (s : Lexed) (typ : ℤ) : Lexed :=
  { s with tok := s.tok ++ [s.tokbuf.length], toktyp := s.toktyp ++ [typ] }

/-- Characters of a token. -/
def store (s : Lexed) (chars : List UInt8) : Lexed := { s with tokbuf := s.tokbuf ++ chars }

/-- The end of a token. -/
def finish (s : Lexed) : Lexed := { s with tokbuf := s.tokbuf ++ [0], ntok := s.ntok + 1 }

/-- The line ends here. -/
def done (s : Lexed) : LexResult := ⟨s.ntok, some s.tokbuf.length, s⟩

/-- An error. -/
def fail (s : Lexed) : LexResult := ⟨SYSERR, none, s⟩

end Lexed

/-- `*p` is the end of the line. -/
def atEnd (p : List UInt8) : Prop := p.headD 0 = 0 ∨ p.headD 0 = SH_NEWLINE

instance (p : List UInt8) : Decidable (atEnd p) := inferInstanceAs (Decidable (_ ∨ _))

/-- The loop that skips blanks. -/
def skipBlanks : List UInt8 → List UInt8
  | [] => []
  | ch :: p => if ch = SH_BLANK ∨ ch = SH_TAB then skipBlanks p else ch :: p

/-- The loop for a quoted string: its characters, the character that ends it, and the rest of the line. -/
def quotedChars (quote : UInt8) : List UInt8 → List UInt8 × UInt8 × List UInt8
  | [] => ([], 0, [])
  | ch :: p =>
    if ch ≠ quote ∧ ch ≠ SH_NEWLINE ∧ ch ≠ 0 then
      let r := quotedChars quote p
      (ch :: r.1, r.2)
    else ([], ch, p)

/-- A character that does not end a token. -/
def isPlain (ch : UInt8) : Prop :=
  ch ≠ SH_NEWLINE ∧ ch ≠ 0 ∧ ch ≠ SH_LESS ∧ ch ≠ SH_GREATER ∧ ch ≠ SH_BLANK ∧ ch ≠ SH_TAB ∧ ch ≠ SH_AMPER ∧
  ch ≠ SH_SQUOTE ∧ ch ≠ SH_DQUOTE

instance (ch : UInt8) : Decidable (isPlain ch) := inferInstanceAs (Decidable (_ ∧ _))

/-- The loop for another token, behind its first character: the characters, and the rest of the line. -/
def wordChars : List UInt8 → List UInt8 × List UInt8
  | [] => ([], [])
  | ch :: p =>
    if isPlain ch then
      let r := wordChars p
      (ch :: r.1, r.2)
    else ([], ch :: p)

/-- The loop of `lexan`, with so many rounds left: nothing if they do not suffice. -/
def lexanLoop : ℕ → List UInt8 → Lexed → Option LexResult
  | 0, _, _ => none
  | n + 1, p, s =>
    if atEnd p then some s.done
    else if s.ntok ≥ SHELL_MAXTOK then some s.fail
    else
      let p := skipBlanks p
      if atEnd p then some s.done
      else
        let ch := p.headD 0
        let p := p.tail
        if ch = SH_AMPER then lexanLoop n p ((s.start SH_TOK_AMPER).store [ch]).finish
        else if ch = SH_LESS then lexanLoop n p ((s.start SH_TOK_LESS).store [ch]).finish
        else if ch = SH_GREATER then lexanLoop n p ((s.start SH_TOK_GREATER).store [ch]).finish
        else
          let s := s.start SH_TOK_OTHER
          if ch = SH_SQUOTE ∨ ch = SH_DQUOTE then
            let r := quotedChars ch p
            let s := s.store r.1
            if r.2.1 ≠ ch then some s.fail else lexanLoop n r.2.2 s.finish
          else
            let r := wordChars p
            let s := s.store (ch :: r.1)
            let ch := r.2.headD 0
            if ch = SH_SQUOTE ∨ ch = SH_DQUOTE ∨ ch = SH_LESS ∨ ch = SH_GREATER then some s.fail
            else lexanLoop n r.2 s.finish

/-- `lexan(line, len, tokbuf, tlen, tok, toktyp)`. The length is not looked at. Each round takes a
character. -/
def lexan (line : List UInt8) : Option LexResult := lexanLoop (line.length + 1) line .empty

/-! ## Tokens -/

/-- The tokens of a line. -/
inductive ShellToken where
  | amper
  | less
  | greater
  | word (text : List UInt8)
  | quoted (quote : UInt8) (text : List UInt8)

namespace ShellToken

/-- A word has characters, and all are plain; a quoted string does not have its own quote, and does
not end the line. -/
def Ok : ShellToken → Prop
  | .amper | .less | .greater => True
  | .word text => text ≠ [] ∧ ∀ ch ∈ text, isPlain ch
  | .quoted quote text =>
    (quote = SH_SQUOTE ∨ quote = SH_DQUOTE) ∧ ∀ ch ∈ text, ch ≠ quote ∧ ch ≠ SH_NEWLINE ∧ ch ≠ 0

/-- The token in a line. -/
def text : ShellToken → List UInt8
  | .amper => [SH_AMPER]
  | .less => [SH_LESS]
  | .greater => [SH_GREATER]
  | .word text => text
  | .quoted quote text => quote :: (text ++ [quote])

/-- The token in the buffer. -/
def value : ShellToken → List UInt8
  | .amper => [SH_AMPER]
  | .less => [SH_LESS]
  | .greater => [SH_GREATER]
  | .word text => text
  | .quoted _ text => text

/-- The type of the token. -/
def type : ShellToken → ℤ
  | .amper => SH_TOK_AMPER
  | .less => SH_TOK_LESS
  | .greater => SH_TOK_GREATER
  | .word _ | .quoted _ _ => SH_TOK_OTHER

end ShellToken

/-- Blanks and tabs. -/
def Blanks (pad : List UInt8) : Prop := ∀ ch ∈ pad, ch = SH_BLANK ∨ ch = SH_TAB

/-- Tokens, each with the blanks behind it. Between two of them there is at least one. -/
structure Spaced (ts : List (ShellToken × List UInt8)) : Prop where
  /-- The tokens are tokens. -/
  ok : ∀ t ∈ ts, t.1.Ok
  /-- Only blanks are between them. -/
  blanks : ∀ t ∈ ts, Blanks t.2
  /-- Between two of them there is a blank. -/
  apart : ∀ t ∈ ts.dropLast, t.2 ≠ []

/-- The line of the tokens. -/
def render (ts : List (ShellToken × List UInt8)) : List UInt8 := ts.flatMap fun t => t.1.text ++ t.2

/-- The tokens are stored behind others. -/
def Lexed.tokens (s : Lexed) (ts : List ShellToken) : Lexed :=
  ts.foldl (fun s t => ((s.start t.type).store t.value).finish) s

/-- The blanks behind the last token. -/
def lastPad (ts : List (ShellToken × List UInt8)) : List UInt8 := (ts.getLast?.map Prod.snd).getD []

end Xinu
