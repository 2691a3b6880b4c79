import Xinu.Shell.Lexan

/-!
# The lexical analyzer is right

Each round of `lexan` takes a character of the line, and stores no more than it takes and the null
character behind the token: `lexan_within`. On a line of tokens with blanks between them a round
takes a token: `lexanLoop_token`. The number of tokens is compared before the blanks are skipped, so
that a full line with blanks behind it is refused: `lexan_right`.
-/

namespace Xinu

/-! ## What a round stores -/

/-- Skipping blanks takes characters away. -/
theorem skipBlanks_length (p : List UInt8) : (skipBlanks p).length ≤ p.length := by
  induction p with
  | nil => exact le_rfl
  | cons ch p ih =>
    unfold skipBlanks
    split
    · exact ih.trans (Nat.le_succ _)
    · exact le_rfl

/-- A quoted string takes its characters, and the one that ends it, unless the line ends. -/
theorem quotedChars_length (quote : UInt8) (p : List UInt8) :
    (quotedChars quote p).1.length + (quotedChars quote p).2.2.length ≤ p.length := by
  induction p with
  | nil => exact le_rfl
  | cons ch p ih =>
    unfold quotedChars
    split
    · simp only [List.length_cons]
      omega
    · simp

/-- Another token takes its characters. -/
theorem wordChars_length (p : List UInt8) : (wordChars p).1.length + (wordChars p).2.length ≤ p.length := by
  induction p with
  | nil => exact le_rfl
  | cons ch p ih =>
    unfold wordChars
    split
    · simp only [List.length_cons]
      omega
    · simp

/-- A line that has not ended has a character. -/
theorem exists_of_not_atEnd {p : List UInt8} (h : ¬ atEnd p) :
    ∃ ch q, p = ch :: q ∧ ch ≠ 0 ∧ ch ≠ SH_NEWLINE := by
  cases p with
  | nil => exact absurd (Or.inl rfl) h
  | cons ch q => exact ⟨ch, q, rfl, fun h0 => h (Or.inl h0), fun hn => h (Or.inr hn)⟩

/-- A round ends the line, is an error with nothing stored, or stores characters of the line and is
an error then or goes on. -/
theorem lexanLoop_step (n : ℕ) (p : List UInt8) (s : Lexed) :
    lexanLoop (n + 1) p s = some s.done ∨ lexanLoop (n + 1) p s = some s.fail ∨
      s.ntok < SHELL_MAXTOK ∧ ∃ typ chars rest, chars.length + rest.length ≤ p.length ∧
      rest.length < p.length ∧
        (lexanLoop (n + 1) p s = some ((s.start typ).store chars).fail ∨
          lexanLoop (n + 1) p s = lexanLoop n rest ((s.start typ).store chars).finish) := by
  by_cases hp : atEnd p
  · left
    rw [lexanLoop, if_pos hp]
  by_cases htok : s.ntok ≥ SHELL_MAXTOK
  · right; left
    rw [lexanLoop, if_neg hp, if_pos htok]
  by_cases hskip : atEnd (skipBlanks p)
  · left
    rw [lexanLoop, if_neg hp, if_neg htok, if_pos hskip]
  right; right
  refine ⟨not_le.mp htok, ?_⟩
  -- The first character of the token decides.
  obtain ⟨ch, q, hq, -, -⟩ := exists_of_not_atEnd hskip
  have hlen : q.length + 1 ≤ p.length := by
    have := skipBlanks_length p
    rwa [hq, List.length_cons] at this
  have heq : lexanLoop (n + 1) p s =
      if ch = SH_AMPER then lexanLoop n q ((s.start SH_TOK_AMPER).store [ch]).finish
      else if ch = SH_LESS then lexanLoop n q ((s.start SH_TOK_LESS).store [ch]).finish
      else if ch = SH_GREATER then lexanLoop n q ((s.start SH_TOK_GREATER).store [ch]).finish
      else if ch = SH_SQUOTE ∨ ch = SH_DQUOTE then
        if (quotedChars ch q).2.1 ≠ ch then some ((s.start SH_TOK_OTHER).store (quotedChars ch q).1).fail
        else lexanLoop n (quotedChars ch q).2.2 ((s.start SH_TOK_OTHER).store (quotedChars ch q).1).finish
      else if (wordChars q).2.headD 0 = SH_SQUOTE ∨ (wordChars q).2.headD 0 = SH_DQUOTE ∨
        (wordChars q).2.headD 0 = SH_LESS ∨
          (wordChars q).2.headD 0 = SH_GREATER then some
            ((s.start SH_TOK_OTHER).store (ch :: (wordChars q).1)).fail
      else lexanLoop n (wordChars q).2 ((s.start SH_TOK_OTHER).store (ch :: (wordChars q).1)).finish := by
    rw [lexanLoop, if_neg hp, if_neg htok, if_neg hskip, hq]
    rfl
  rw [heq]
  have hone : [ch].length + q.length ≤ p.length := by
    simp only [List.length_cons, List.length_nil]
    omega
  split
  · exact ⟨_, _, q, hone, hlen, Or.inr rfl⟩
  split
  · exact ⟨_, _, q, hone, hlen, Or.inr rfl⟩
  split
  · exact ⟨_, _, q, hone, hlen, Or.inr rfl⟩
  split
  · have hquoted := quotedChars_length ch q
    refine ⟨SH_TOK_OTHER, (quotedChars ch q).1, (quotedChars ch q).2.2, by omega, by omega, ?_⟩
    split
    · exact Or.inl rfl
    · exact Or.inr rfl
  · have hword := wordChars_length q
    refine ⟨SH_TOK_OTHER, ch :: (wordChars q).1,
      (wordChars q).2, by rw [List.length_cons]; omega, by omega, ?_⟩
    split
    · exact Or.inl rfl
    · exact Or.inr rfl

/-- What has been stored by the time that so many characters of the line are taken. -/
structure Lexed.Within (s : Lexed) (used : ℕ) : Prop where
  /-- There are no more tokens than entries. -/
  ntok : s.ntok ≤ SHELL_MAXTOK
  /-- The buffer holds the characters that were taken, and a null character for each token. -/
  tokbuf : s.tokbuf.length ≤ used + s.ntok
  /-- There is a place for each token. -/
  tok : s.tok.length = s.ntok
  /-- There is a type for each token. -/
  toktyp : s.toktyp.length = s.ntok

/-- The result for a line of so many characters: no more bytes in the buffer and no more entries
than there is room, and `SYSERR` or the number of tokens. -/
structure LexResult.Within (r : LexResult) (used : ℕ) : Prop where
  /-- The buffer holds the line and a null character for each token. -/
  tokbuf : r.stored.tokbuf.length ≤ used + SHELL_MAXTOK
  /-- There are no more places than entries. -/
  tok : r.stored.tok.length ≤ SHELL_MAXTOK
  /-- There are no more types than entries. -/
  toktyp : r.stored.toktyp.length ≤ SHELL_MAXTOK
  /-- `SYSERR` is returned, or the number of tokens with the length. -/
  retval : r.retval = SYSERR ∨ r.retval = r.stored.ntok ∧ r.tlen = some r.stored.tokbuf.length

namespace Lexed.Within

variable {s : Lexed} {used : ℕ}

/-- The end of the line. -/
theorem done (h : s.Within used) : s.done.Within used :=
  ⟨h.tokbuf.trans (Nat.add_le_add_left h.ntok _), h.tok.le.trans h.ntok,
    h.toktyp.le.trans h.ntok, Or.inr ⟨rfl, rfl⟩⟩

/-- A state that stays within its bounds does so after an error. -/
theorem fail (h : s.Within used) : s.fail.Within used :=
  ⟨h.tokbuf.trans (Nat.add_le_add_left h.ntok _), h.tok.le.trans h.ntok, h.toktyp.le.trans h.ntok, Or.inl rfl⟩

/-- An error in the middle of a token leaves the bounds kept. -/
theorem fail_token (h : s.Within used) (hlt : s.ntok < SHELL_MAXTOK) (typ : ℤ) (chars : List UInt8) :
    ((s.start typ).store chars).fail.Within (used + chars.length) := by
  have hbuf := h.tokbuf
  refine ⟨?_, ?_, ?_, Or.inl rfl⟩
  · calc (s.tokbuf ++ chars).length = s.tokbuf.length + chars.length := List.length_append
      _ ≤ used + s.ntok + chars.length := Nat.add_le_add_right hbuf _
      _ ≤ used + chars.length + SHELL_MAXTOK := by omega
  · show (s.tok ++ [s.tokbuf.length]).length ≤ SHELL_MAXTOK
    rw [List.length_append, h.tok]
    exact hlt
  · show (s.toktyp ++ [typ]).length ≤ SHELL_MAXTOK
    rw [List.length_append, h.toktyp]
    exact hlt

/-- A token that ends leaves the bounds kept, with its characters and a null. -/
theorem finish (h : s.Within used) (hlt : s.ntok < SHELL_MAXTOK) (typ : ℤ) (chars : List UInt8) :
    ((s.start typ).store chars).finish.Within (used + chars.length) := by
  have hbuf := h.tokbuf
  refine ⟨hlt, ?_, ?_, ?_⟩
  · calc
      (s.tokbuf ++ chars ++ [0]).length = s.tokbuf.length + chars.length + 1 := by
        rw [List.length_append, List.length_append]
        rfl
      _ ≤ used + chars.length + (s.ntok + 1) := by omega
  · show (s.tok ++ [s.tokbuf.length]).length = s.ntok + 1
    rw [List.length_append, h.tok]
    rfl
  · show (s.toktyp ++ [typ]).length = s.ntok + 1
    rw [List.length_append, h.toktyp]
    rfl

/-- What stays within its bounds stays within those of more characters. -/
theorem mono (h : s.Within used) {more : ℕ} (hle : used ≤ more) : s.Within more :=
  ⟨h.ntok, h.tokbuf.trans (Nat.add_le_add_right hle _), h.tok, h.toktyp⟩

end Lexed.Within

/-- A result within its bounds is within those of more characters. -/
theorem LexResult.Within.mono {r : LexResult} {used more : ℕ} (h : r.Within used) (hle : used ≤ more) :
    r.Within more :=
  ⟨h.tokbuf.trans (Nat.add_le_add_right hle _), h.tok, h.toktyp, h.retval⟩

/-- The loop ends, and stores within bounds. -/
theorem lexanLoop_within (n : ℕ) : ∀ (p : List UInt8) (s : Lexed) (used : ℕ), p.length < n → s.Within used →
    ∃ r, lexanLoop n p s = some r ∧ r.Within (used + p.length) := by
  induction n with
  | zero =>
    intro p s used hn
    exact absurd hn (Nat.not_lt_zero _)
  | succ n ih =>
    intro p s used hn hs
    rcases lexanLoop_step n p s with h | h | ⟨hlt, typ, chars, rest, hlen, hrest, h | h⟩
    · exact ⟨_, h, hs.done.mono (Nat.le_add_right _ _)⟩
    · exact ⟨_, h, hs.fail.mono (Nat.le_add_right _ _)⟩
    · exact ⟨_, h, (hs.fail_token hlt typ chars).mono (by omega)⟩
    · -- The characters of the token have been taken from the line.
      obtain ⟨r, hr, hwithin⟩ := ih rest _ _ (by omega) (hs.finish hlt typ chars)
      exact ⟨r, h.trans hr, hwithin.mono (by omega)⟩

/-- `lexan` ends, and stores within bounds. -/
theorem lexan_within (line : List UInt8) : ∃ r, lexan line = some r ∧ r.Within line.length := by
  have hempty : Lexed.empty.Within 0 := ⟨Nat.zero_le _, le_rfl, rfl, rfl⟩
  obtain ⟨r, hr, hwithin⟩ := lexanLoop_within (line.length + 1) line _ 0 (Nat.lt_succ_self _) hempty
  exact ⟨r, hr, hwithin.mono (Nat.zero_add _).le⟩

/-! ## A line of tokens -/

/-- Blanks in front are skipped. -/
theorem skipBlanks_pad {pad : List UInt8} (h : Blanks pad) (p : List UInt8) :
    skipBlanks (pad ++ p) = skipBlanks p := by
  induction pad with
  | nil => rfl
  | cons ch pad ih =>
    rw [List.cons_append, skipBlanks, if_pos (h ch List.mem_cons_self)]
    exact ih fun c hc => h c (List.mem_cons_of_mem _ hc)

/-- A character that is not a blank is not skipped. -/
theorem skipBlanks_of_ne {ch : UInt8} (h1 : ch ≠ SH_BLANK) (h2 : ch ≠ SH_TAB) (p : List UInt8) :
    skipBlanks (ch :: p) = ch :: p := by
  rw [skipBlanks, if_neg (by rintro (h | h); exacts [h1 h, h2 h])]

/-- The end of the line is not skipped. -/
theorem skipBlanks_of_atEnd {p : List UInt8} (h : atEnd p) : skipBlanks p = p := by
  cases p with
  | nil => rfl
  | cons ch p =>
    refine skipBlanks_of_ne ?_ ?_ p <;> rintro rfl <;> rcases h with h | h <;> cases h

/-- A quoted string is taken up to its quote. -/
theorem quotedChars_text {quote : UInt8} {text : List UInt8}
    (h : ∀ ch ∈ text, ch ≠ quote ∧ ch ≠ SH_NEWLINE ∧ ch ≠ 0) (p : List UInt8) :
    quotedChars quote (text ++ quote :: p) = (text, quote, p) := by
  induction text with
  | nil => rw [List.nil_append, quotedChars, if_neg (fun hq => hq.1 rfl)]
  | cons ch text ih =>
    rw [List.cons_append, quotedChars, if_pos (h ch List.mem_cons_self),
      ih fun c hc => h c (List.mem_cons_of_mem _ hc)]

/-- What may stand behind a word: blanks, or the end of the line. -/
def Ends (p : List UInt8) : Prop := atEnd p ∨ p.headD 0 = SH_BLANK ∨ p.headD 0 = SH_TAB

/-- What may stand behind a word is not plain. -/
theorem Ends.not_plain {p : List UInt8} (h : Ends p) : ¬ isPlain (p.headD 0) := by
  rintro ⟨hn, h0, -, -, hb, ht, -, -, -⟩
  rcases h with (h | h) | h | h
  exacts [h0 h, hn h, hb h, ht h]

/-- What may stand behind a word is no error. -/
theorem Ends.no_error {p : List UInt8} (h : Ends p) :
    ¬ (p.headD 0 = SH_SQUOTE ∨ p.headD 0 = SH_DQUOTE ∨ p.headD 0 = SH_LESS ∨ p.headD 0 = SH_GREATER) := by
  rcases h with (h | h) | h | h <;> rw [h] <;> decide

/-- A word is taken up to the character that ends it. -/
theorem wordChars_text {text : List UInt8} (h : ∀ ch ∈ text, isPlain ch) {p : List UInt8} (hp : Ends p) :
    wordChars (text ++ p) = (text, p) := by
  induction text with
  | nil =>
    rw [List.nil_append]
    cases p with
    | nil => rfl
    | cons ch p =>
      have hch : ¬ isPlain ch := hp.not_plain
      rw [wordChars, if_neg hch]
  | cons ch text ih =>
    rw [List.cons_append, wordChars, if_pos (h ch List.mem_cons_self),
      ih fun c hc => h c (List.mem_cons_of_mem _ hc)]

/-- A round that finds a character behind blanks. -/
theorem lexanLoop_char (n : ℕ) {pad : List UInt8} (hpad : Blanks pad)
    {ch : UInt8} (h1 : ch ≠ SH_BLANK) (h2 : ch ≠ SH_TAB) (h0 : ch ≠ 0)
    (hn : ch ≠ SH_NEWLINE) (p : List UInt8) {s : Lexed} (hs : s.ntok < SHELL_MAXTOK) :
    lexanLoop (n + 1) (pad ++ ch :: p) s =
      if ch = SH_AMPER then lexanLoop n p ((s.start SH_TOK_AMPER).store [ch]).finish
      else if ch = SH_LESS then lexanLoop n p ((s.start SH_TOK_LESS).store [ch]).finish
      else if ch = SH_GREATER then lexanLoop n p ((s.start SH_TOK_GREATER).store [ch]).finish
      else if ch = SH_SQUOTE ∨ ch = SH_DQUOTE then
        if (quotedChars ch p).2.1 ≠ ch then some ((s.start SH_TOK_OTHER).store (quotedChars ch p).1).fail
        else lexanLoop n (quotedChars ch p).2.2 ((s.start SH_TOK_OTHER).store (quotedChars ch p).1).finish
      else if (wordChars p).2.headD 0 = SH_SQUOTE ∨ (wordChars p).2.headD 0 = SH_DQUOTE ∨
      (wordChars p).2.headD 0 = SH_LESS ∨
          (wordChars p).2.headD 0 = SH_GREATER then some
            ((s.start SH_TOK_OTHER).store (ch :: (wordChars p).1)).fail
      else lexanLoop n (wordChars p).2 ((s.start SH_TOK_OTHER).store (ch :: (wordChars p).1)).finish := by
  have hskip : skipBlanks (pad ++ ch :: p) = ch :: p :=
    (skipBlanks_pad hpad _).trans (skipBlanks_of_ne h1 h2 p)
  have hch : ¬ atEnd (ch :: p) := by
    rintro (h | h)
    exacts [h0 h, hn h]
  have hline : ¬ atEnd (pad ++ ch :: p) := by
    cases pad with
    | nil => exact hch
    | cons b pad =>
      rcases hpad b List.mem_cons_self with rfl | rfl <;> rintro (h | h) <;> cases h
  rw [lexanLoop, if_neg hline, if_neg (not_le.mpr hs), hskip, if_neg hch]
  rfl

/-- A round of the loop takes the next token, and stores it behind the others. -/
theorem lexanLoop_token (n : ℕ) {pad : List UInt8} (hpad : Blanks pad)
    {t : ShellToken} (ht : t.Ok) {rest : List UInt8} (hrest : Ends rest)
    {s : Lexed} (hs : s.ntok < SHELL_MAXTOK) :
    lexanLoop (n + 1) (pad ++ t.text ++ rest) s = lexanLoop n rest
      ((s.start t.type).store t.value).finish := by
  rw [List.append_assoc]
  cases t with
  | amper => exact lexanLoop_char n hpad (by decide) (by decide) (by decide) (by decide) rest hs
  | less => exact lexanLoop_char n hpad (by decide) (by decide) (by decide) (by decide) rest hs
  | greater => exact lexanLoop_char n hpad (by decide) (by decide) (by decide) (by decide) rest hs
  | word text =>
    obtain ⟨hne, hplain⟩ := ht
    obtain ⟨ch, text, rfl⟩ := List.exists_cons_of_ne_nil hne
    obtain ⟨hn, h0, hl, hg, hb, htab, ha, hsq, hdq⟩ := hplain ch List.mem_cons_self
    have hword := wordChars_text (fun c hc => hplain c (List.mem_cons_of_mem _ hc)) hrest
    have hquote : ¬ (ch = SH_SQUOTE ∨ ch = SH_DQUOTE) := by
      rintro (h | h)
      exacts [hsq h, hdq h]
    refine (lexanLoop_char n hpad hb htab h0 hn (text ++ rest) hs).trans ?_
    rw [if_neg ha, if_neg hl, if_neg hg, if_neg hquote, hword, if_neg hrest.no_error]
    rfl
  | quoted quote text =>
    obtain ⟨hquote, htext⟩ := ht
    have hchars := quotedChars_text htext rest
    have hline : (ShellToken.quoted quote text).text ++ rest = quote :: (text ++ quote :: rest) := by
      simp [ShellToken.text]
    have hne : ¬ quote ≠ quote := fun h => h rfl
    -- A quote is none of the other characters.
    have hother : quote ≠ SH_BLANK ∧ quote ≠ SH_TAB ∧ quote ≠ 0 ∧
        quote ≠ SH_NEWLINE ∧ quote ≠ SH_AMPER ∧ quote ≠ SH_LESS ∧ quote ≠ SH_GREATER := by
      rcases hquote with rfl | rfl <;> decide
    obtain ⟨hb, htab, h0, hn, ha, hl, hg⟩ := hother
    rw [hline]
    refine (lexanLoop_char n hpad hb htab h0 hn (text ++ quote :: rest) hs).trans ?_
    rw [if_neg ha, if_neg hl, if_neg hg, if_pos hquote, hchars, if_neg hne]
    rfl

/-- Blanks at the end of the line are taken, unless all tokens have been used. -/
theorem lexanLoop_end (n : ℕ) {pad rest : List UInt8} (hpad : Blanks pad) (hrest : atEnd rest) (s : Lexed) :
    lexanLoop (n + 1) (pad ++ rest) s = if s.ntok < SHELL_MAXTOK ∨
    pad = [] then some s.done else some s.fail := by
  cases pad with
  | nil =>
    rw [List.nil_append, if_pos (Or.inr rfl), lexanLoop, if_pos hrest]
  | cons b pad =>
    have hline : ¬ atEnd (b :: pad ++ rest) := by
      rcases hpad b List.mem_cons_self with rfl | rfl <;> rintro (h | h) <;> cases h
    have hskip : skipBlanks (b :: pad ++ rest) = rest :=
      (skipBlanks_pad hpad rest).trans (skipBlanks_of_atEnd hrest)
    rw [lexanLoop, if_neg hline]
    by_cases hs : s.ntok < SHELL_MAXTOK
    · rw [if_neg (not_le.mpr hs), hskip, if_pos hrest, if_pos (Or.inl hs)]
    · have hcond : ¬ (s.ntok < SHELL_MAXTOK ∨ b :: pad = []) := by
        rintro (h | h)
        exacts [hs h, List.cons_ne_nil _ _ h]
      rw [if_pos (not_lt.mp hs), if_neg hcond]

/-- A blank ends the word in front of it. -/
theorem Blanks.ends {pad : List UInt8} (h : Blanks pad) (hne : pad ≠ []) (p : List UInt8) :
    Ends (pad ++ p) := by
  obtain ⟨b, pad, rfl⟩ := List.exists_cons_of_ne_nil hne
  exact Or.inr (h b List.mem_cons_self)

/-- The tokens behind the first one. -/
theorem Spaced.tail {t : ShellToken × List UInt8} {ts : List (ShellToken × List UInt8)}
    (h : Spaced (t :: ts)) : Spaced ts := by
  refine ⟨fun u hu => h.ok u (List.mem_cons_of_mem _ hu),
    fun u hu => h.blanks u (List.mem_cons_of_mem _ hu), fun u hu => ?_⟩
  cases ts with
  | nil => cases hu
  | cons v ts => exact h.apart u (by rw [List.dropLast_cons_cons]; exact List.mem_cons_of_mem _ hu)

/-- A token that ends is counted. -/
theorem Lexed.ntok_finish (s : Lexed) (typ : ℤ) (chars : List UInt8) :
    ((s.start typ).store chars).finish.ntok = s.ntok + 1 := rfl

/-- The loop takes the tokens of a line. The blanks behind the last one are skipped only if the
tokens are not too many already. -/
theorem lexanLoop_tokens (ts : List (ShellToken × List UInt8)) :
    ∀ (n : ℕ) (pad : List UInt8) (s : Lexed) {rest : List UInt8}, Blanks pad →
    Spaced ts → atEnd rest → s.ntok + ts.length ≤ SHELL_MAXTOK → ts.length < n →
      lexanLoop n (pad ++ render ts ++ rest) s =
        if s.ntok + ts.length < SHELL_MAXTOK ∨ (ts.getLast?.map Prod.snd).getD pad = [] then some
          (s.tokens (ts.map Prod.fst)).done
        else some (s.tokens (ts.map Prod.fst)).fail := by
  induction ts with
  | nil =>
    intro n pad s rest hpad _ hrest _ hn
    cases n with
    | zero => exact absurd hn (Nat.not_lt_zero _)
    | succ n =>
      have hline : pad ++ render [] ++ rest = pad ++ rest := by rw [render, List.flatMap_nil, List.append_nil]
      rw [hline]
      exact lexanLoop_end n hpad hrest s
  | cons t ts ih =>
    intro n pad s rest hpad hts hrest hcount hn
    obtain ⟨tok, behind⟩ := t
    cases n with
    | zero => exact absurd hn (Nat.not_lt_zero _)
    | succ n =>
      rw [List.length_cons] at hcount hn
      have hbehind : Blanks behind := hts.blanks _ List.mem_cons_self
      have hline : pad ++ render ((tok, behind) :: ts) ++ rest =
          pad ++ tok.text ++ (behind ++ render ts ++ rest) := by
        simp [render]
      -- Behind the token there is a blank, or it is the last one and the line ends.
      have hends : Ends (behind ++ render ts ++ rest) := by
        rw [List.append_assoc]
        cases ts with
        | nil =>
          rcases List.eq_nil_or_concat behind with rfl | ⟨l, b, hb⟩
          · exact Or.inl hrest
          · exact hbehind.ends (by rw [hb]; simp) _
        | cons u ts => exact hbehind.ends (hts.apart (tok, behind) List.mem_cons_self) _
      have hlast : ((((tok, behind) :: ts).getLast?).map Prod.snd).getD pad =
          (ts.getLast?.map Prod.snd).getD behind := by
        rw [List.getLast?_cons]
        cases ts.getLast? <;> rfl
      calc lexanLoop (n + 1) (pad ++ render ((tok, behind) :: ts) ++ rest) s
          = lexanLoop n (behind ++ render ts ++ rest) ((s.start tok.type).store tok.value).finish := by
            rw [hline]
            exact lexanLoop_token n hpad (hts.ok _ List.mem_cons_self) hends (by omega)
        _ = _ := by
            rw [ih n behind _ hbehind hts.tail hrest (by rw [Lexed.ntok_finish]; omega) (by omega),
              hlast, Lexed.ntok_finish, Nat.add_assoc,
              Nat.add_comm 1]
            rfl

/-! ## What the arrays hold -/

/-- The token buffer for tokens: the value of each, and a null character. -/
def tokenBuffer (ts : List ShellToken) : List UInt8 := ts.flatMap fun t => t.value ++ [0]

/-- The result for tokens: their number and the length of the buffer, and in the arrays for each
token where it starts in the buffer, and its type. -/
def lexedTokens (ts : List ShellToken) : LexResult where
  retval := ts.length
  tlen := some (tokenBuffer ts).length
  stored :=
    { ntok := ts.length
      tokbuf := tokenBuffer ts
      tok := (List.range ts.length).map fun i => (tokenBuffer (ts.take i)).length
      toktyp := ts.map ShellToken.type }

/-- Where the first of more tokens starts, and the others, behind it. -/
theorem tokenOffsets_cons (t : ShellToken) (ts : List ShellToken) (base : ℕ) :
    ((List.range (t :: ts).length).map fun i => base + (tokenBuffer ((t :: ts).take i)).length) =
      base :: (List.range ts.length).map fun i =>
        base + (t.value.length + 1) + (tokenBuffer (ts.take i)).length := by
  rw [List.length_cons, List.range_succ_eq_map, List.map_cons, List.map_map]
  congr 1
  refine List.map_congr_left fun i _ => ?_
  simp only [Function.comp_apply, List.take_succ_cons, tokenBuffer,
    List.flatMap_cons, List.length_append, List.length_cons, List.length_nil]
  omega

/-- Tokens stored behind what is there. -/
theorem tokens_eq (ts : List ShellToken) : ∀ s : Lexed, s.tokens ts =
    { ntok := s.ntok + ts.length
      tokbuf := s.tokbuf ++ tokenBuffer ts
      tok := s.tok ++ (List.range ts.length).map fun i => s.tokbuf.length + (tokenBuffer (ts.take i)).length
      toktyp := s.toktyp ++ ts.map ShellToken.type } := by
  induction ts with
  | nil =>
    intro s
    simp [Lexed.tokens, tokenBuffer]
  | cons t ts ih =>
    intro s
    have hstep : s.tokens (t :: ts) = (((s.start t.type).store t.value).finish).tokens ts := rfl
    rw [hstep, ih, tokenOffsets_cons]
    simp [Lexed.start, Lexed.store, Lexed.finish, tokenBuffer, Nat.add_assoc, Nat.add_comm 1]

/-- Tokens stored from the beginning on. -/
theorem tokens_empty (ts : List ShellToken) : (Lexed.empty.tokens ts).done = lexedTokens ts := by
  rw [tokens_eq]
  simp [Lexed.done, Lexed.empty, lexedTokens]

/-- The number of tokens is no error. -/
theorem lexedTokens_ne_fail (ts : List ShellToken) (s : Lexed) : s.fail ≠ lexedTokens ts := by
  intro h
  have := congrArg LexResult.tlen h
  cases this

/-- The text of a token has at least one character. -/
theorem ShellToken.Ok.text_pos {t : ShellToken} (h : t.Ok) : 0 < t.text.length := by
  cases t with
  | word text => exact List.length_pos_iff.mpr h.1
  | _ => exact Nat.succ_pos _

/-- A line has no more tokens than characters. -/
theorem Spaced.length_le {ts : List (ShellToken × List UInt8)} (h : Spaced ts) :
    ts.length ≤ (render ts).length := by
  induction ts with
  | nil => exact le_rfl
  | cons t ts ih =>
    have hpos := (h.ok t List.mem_cons_self).text_pos
    have hrest := ih h.tail
    have hrender : render (t :: ts) = t.1.text ++ t.2 ++ render ts := rfl
    rw [hrender, List.length_append, List.length_append, List.length_cons]
    omega

/-- `lexan` on a line of tokens: they are returned if and only if they are fewer than
`SHELL_MAXTOK`, or no blank is behind the last one. -/
theorem lexan_tokens {pad rest : List UInt8} {ts : List (ShellToken × List UInt8)}
    (hpad : Blanks pad) (hts : Spaced ts) (hrest : atEnd rest)
    (hle : ts.length ≤ SHELL_MAXTOK) :
    lexan (pad ++ render ts ++ rest) = some (lexedTokens (ts.map Prod.fst)) ↔
    ts.length < SHELL_MAXTOK ∨ lastPad ts = [] := by
  have hsize := hts.length_le
  have hloop := lexanLoop_tokens ts ((pad ++ render ts ++ rest).length + 1) pad .empty hpad hts hrest
    (by simpa [Lexed.empty] using hle)
    (by simp only [List.length_append]; omega)
  have hcond : (Lexed.empty.ntok + ts.length < SHELL_MAXTOK ∨ (ts.getLast?.map Prod.snd).getD pad = []) ↔
      (ts.length < SHELL_MAXTOK ∨ lastPad ts = []) := by
    have h0 : Lexed.empty.ntok + ts.length = ts.length := Nat.zero_add _
    rw [h0]
    cases ts with
    | nil => simp
    | cons t ts =>
      rw [lastPad, List.getLast?_cons]
      rfl
  rw [lexan, hloop, tokens_empty]
  split <;> rename_i h
  · exact iff_of_true rfl (hcond.mp h)
  · refine iff_of_false (fun heq => ?_) (fun h' => h (hcond.mpr h'))
    exact lexedTokens_ne_fail _ _ (Option.some.inj heq)

/-- `lexan` ends on every line and stores within the buffer and the arrays of the shell; and on the
line of at most `SHELL_MAXTOK` tokens it returns these tokens, if and only if they are fewer or
there is no blank behind the last one. -/
theorem lexan_right (line : List UInt8) (hline : line.length ≤ SHELL_BUFLEN)
    (pad rest : List UInt8) (ts : List (ShellToken × List UInt8))
    (hpad : Blanks pad) (hts : Spaced ts) (hrest : atEnd rest) (hle : ts.length ≤ SHELL_MAXTOK) :
    (∃ r, lexan line = some r ∧ r.Within SHELL_BUFLEN) ∧
      (lexan (pad ++ render ts ++ rest) = some (lexedTokens (ts.map Prod.fst)) ↔
        ts.length < SHELL_MAXTOK ∨ lastPad ts = []) := by
  refine ⟨?_, lexan_tokens hpad hts hrest hle⟩
  obtain ⟨r, hr, hwithin⟩ := lexan_within line
  exact ⟨r, hr, hwithin.mono hline⟩

/-- The line ` ls >'a b'` with a blank before the name and a newline. -/
theorem lexan_right_one :
    (∃ r, lexan [32, 108, 115, 32, 62, 9, 39, 97, 32, 98, 39, 10] = some r ∧ r.Within SHELL_BUFLEN) ∧
    (lexan [32, 108, 115, 32, 62, 9, 39, 97, 32, 98, 39, 10] =
      some (lexedTokens [.word [108, 115], .greater, .quoted SH_SQUOTE [97, 32, 98]]) ↔
      3 < SHELL_MAXTOK ∨ ([] : List UInt8) = []) :=
  lexan_right _ (by decide) [32] [10] [(.word [108, 115], [32]),
    (.greater, [9]), (.quoted SH_SQUOTE [97, 32, 98], [])]
    (by intro ch h; simp at h; exact Or.inl h)
    { ok := by
        intro t ht
        simp only [List.mem_cons, List.not_mem_nil, or_false] at ht
        rcases ht with rfl | rfl | rfl
        · refine ⟨List.cons_ne_nil _ _, fun ch hch => ?_⟩
          rcases List.mem_pair.mp hch with rfl | rfl <;> decide
        · trivial
        · refine ⟨Or.inl rfl, fun ch hch => ?_⟩
          simp only [List.mem_cons, List.not_mem_nil, or_false] at hch
          rcases hch with rfl | rfl | rfl <;> decide
      blanks := by
        intro t ht
        simp only [List.mem_cons, List.not_mem_nil, or_false] at ht
        rcases ht with rfl | rfl | rfl <;> intro ch h <;> simp at h
        exacts [Or.inl h, Or.inr h]
      apart := by
        intro t ht
        simp at ht
        rcases ht with rfl | rfl <;> simp }
    (Or.inr rfl) (by decide)

/-- Thirty-two tokens, and a blank behind the last one: the line is refused. -/
theorem lexan_refuses :
    lexan (render (List.replicate 32 (ShellToken.amper, [SH_BLANK])) ++ [SH_NEWLINE]) ≠
        some (lexedTokens (List.replicate 32 ShellToken.amper)) ∧
      (lexan (render (List.replicate 32 (ShellToken.amper, [SH_BLANK])) ++ [SH_NEWLINE])).map
        LexResult.retval = some SYSERR := by
  decide +kernel

end Xinu
