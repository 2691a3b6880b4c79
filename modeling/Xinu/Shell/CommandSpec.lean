import Mathlib.Data.List.GetD
import Xinu.Shell.Command

/-!
# The commands of the shell are those of its grammar

The comment at the top of `shell/shell.c` gives the syntax: a name and arguments, then redirections,
then `&`. A line of tokens is a command exactly if it has this form and no redirection is given
twice: `parseLine_iff`. Behind it, `cmdtab` decides what is done: `shell_line`. The process of a
command finds its arguments on its stack: `command_args`.
-/

namespace Xinu

open Bytes Strings

/-! ## The grammar -/

/-- A command: its words, its redirections, each for the input or for the output, with the name of a
file, and whether it runs in the background. -/
structure ShellCommand where
  /-- The words, the first one of which names the command. -/
  words : List ShellToken
  /-- The redirections, each of the input or of the output, with the name of a file. -/
  redirs : List (Bool × ShellToken)
  /-- Whether it runs in the background. -/
  backgnd : Bool

/-- The token of a redirection: the input is redirected, or the output. -/
def dirToken (input : Bool) : ShellToken := if input then .less else .greater

/-- The tokens of redirections. -/
def redirTokens (redirs : List (Bool × ShellToken)) : List ShellToken :=
  redirs.flatMap fun r => [dirToken r.1, r.2]

/-- Where the name of a file is in the token buffer, for redirections behind so many tokens. -/
def nameAt (input : Bool) : List ShellToken → List (Bool × ShellToken) → Option ℕ
  | _, [] => none
  | front, r :: redirs =>
    if r.1 = input then some (tokenBuffer (front ++ [dirToken r.1])).length
      else nameAt input (front ++ [dirToken r.1, r.2]) redirs

namespace ShellCommand

/-- There is a word, words and names are no special tokens, and no redirection is given twice. -/
structure Ok (c : ShellCommand) : Prop where
  /-- There is a word. -/
  name : c.words ≠ []
  /-- Words are no special tokens. -/
  words : ∀ t ∈ c.words, t.type = SH_TOK_OTHER
  /-- Names of files are not either. -/
  files : ∀ r ∈ c.redirs, r.2.type = SH_TOK_OTHER
  /-- No redirection is given twice. -/
  once : (c.redirs.map Prod.fst).Nodup

/-- The tokens of a command. -/
def tokens (c : ShellCommand) : List ShellToken :=
  c.words ++ redirTokens c.redirs ++ if c.backgnd then [.amper] else []

/-- What is left of its line. -/
def parsed (c : ShellCommand) : Parsed where
  ntok := c.words.length
  tlen := (tokenBuffer c.words).length
  inname := nameAt true c.words c.redirs
  outname := nameAt false c.words c.redirs
  backgnd := c.backgnd

/-- The entry of `cmdtab` that has the first word as its name. -/
def entry (c : ShellCommand) : Option ℕ := cmdtab.findIdx? fun e => e.cname = (c.words.headD .amper).value

/-- What is done for it. -/
def act (c : ShellCommand) : ShellAct :=
  match c.entry with
  | none => .notFound
  | some j =>
    if (cmdtab.getD j ⟨[], false⟩).cbuiltin then
      if c.redirs = [] ∧ c.backgnd = false then .builtin j
        ((List.range c.words.length).map fun i => (tokenBuffer (c.words.take i)).length)
      else .refused
    else .spawn j c.parsed

end ShellCommand

/-! ## The front of a line -/

/-- The token buffer for tokens behind others. -/
theorem tokenBuffer_append (ts us : List ShellToken) :
    tokenBuffer (ts ++ us) = tokenBuffer ts ++ tokenBuffer us := List.flatMap_append

/-- The type that is stored for a token behind others is its own. -/
theorem lexed_type (ts us : List ShellToken) (t : ShellToken) :
    (lexedTokens (ts ++ t :: us)).stored.toktyp.getD ts.length 0 = t.type := by
  have hmap : (lexedTokens (ts ++ t :: us)).stored.toktyp =
      ts.map ShellToken.type ++ t.type :: us.map ShellToken.type := by
    rw [← List.map_cons, ← List.map_append]
    rfl
  rw [hmap, List.getD_append_right _ _ _ _ (by rw [List.length_map]), List.length_map, Nat.sub_self]
  rfl

/-- A token behind others is stored where their characters end. -/
theorem lexed_place (ts us : List ShellToken) (t : ShellToken) :
    (lexedTokens (ts ++ t :: us)).stored.tok.getD ts.length 0 = (tokenBuffer ts).length := by
  have htok : (lexedTokens (ts ++ t :: us)).stored.tok =
      (List.range (ts ++ t :: us).length).map fun i => (tokenBuffer ((ts ++ t :: us).take i)).length := rfl
  have hlt : ts.length < (ts ++ t :: us).length := by
    rw [List.length_append, List.length_cons]
    omega
  rw [htok, List.getD_eq_getElem _ _ (by rwa [List.length_map, List.length_range]),
    List.getElem_map, List.getElem_range, List.take_left]

/-- The tokens that are left are the first ones of the line. -/
structure Parsed.Front (p : Parsed) (ts : List ShellToken) : Prop where
  /-- How many tokens are left. -/
  ntok : p.ntok = ts.length
  /-- How many bytes of the token buffer they use. -/
  tlen : p.tlen = (tokenBuffer ts).length

/-- The place of a file name. -/
def Parsed.name (p : Parsed) (input : Bool) : Option ℕ := if input then p.inname else p.outname

/-- A redirection is taken off. -/
def Parsed.redirect (p : Parsed) (ts : List ShellToken) (input : Bool) : Parsed where
  ntok := ts.length
  tlen := (tokenBuffer ts).length
  inname := if input then some (tokenBuffer (ts ++ [dirToken input])).length else p.inname
  outname := if input then p.outname else some (tokenBuffer (ts ++ [dirToken input])).length
  backgnd := p.backgnd

/-- Tokens end in a redirection of a command, whatever stands for the file name. -/
def EndsInRedir (ts : List ShellToken) : Prop :=
  ∃ front input t, front ≠ [] ∧ ts = front ++ [dirToken input, t]

/-- The type of the token of a redirection. -/
theorem type_eq_less_or_greater {t : ShellToken} :
    t.type = SH_TOK_LESS ∨ t.type = SH_TOK_GREATER ↔ ∃ input, t = dirToken input := by
  constructor
  · cases t with
    | less => exact fun _ => ⟨true, rfl⟩
    | greater => exact fun _ => ⟨false, rfl⟩
    | amper => rintro (h | h) <;> cases h
    | word text => rintro (h | h) <;> cases h
    | quoted quote text => rintro (h | h) <;> cases h
  · rintro ⟨input, rfl⟩
    cases input
    · exact Or.inr rfl
    · exact Or.inl rfl

/-- A redirection at the end is taken off. -/
theorem takeRedirect_redir {p : Parsed} {front rest : List ShellToken}
    {input : Bool} {t : ShellToken} (again : Bool) (hfront : front ≠ [])
    (hp : p.Front (front ++ [dirToken input, t])) :
    takeRedirect again (lexedTokens (front ++ [dirToken input, t] ++ rest)).stored p =
      if t.type ≠ SH_TOK_OTHER ∨ (again ∧ p.name input ≠ none) then none
        else some (p.redirect front input) := by
  have hpos := List.length_pos_iff.mpr hfront
  have hntok : p.ntok = front.length + 2 := by
    rw [hp.ntok, List.length_append]
    rfl
  have htwo : p.ntok - 2 = front.length := by omega
  have hone : p.ntok - 1 = (front ++ [dirToken input]).length := by
    rw [List.length_append, List.length_singleton]
    omega
  -- The line is split in front of its last two tokens, and in front of the last one.
  have hsplit : front ++ [dirToken input, t] ++ rest = front ++ dirToken input :: (t :: rest) := by simp
  have hsplit' : front ++ [dirToken input, t] ++ rest = front ++ [dirToken input] ++ t :: rest := by simp
  -- So the types and the places that are looked up are those of these two.
  have htyp : (lexedTokens (front ++ [dirToken input, t] ++ rest)).stored.toktyp.getD
      (p.ntok - 2) 0 = (dirToken input).type := by
    rw [hsplit, htwo]
    exact lexed_type ..
  have htyp' : (lexedTokens (front ++ [dirToken input, t] ++ rest)).stored.toktyp.getD
      (p.ntok - 1) 0 = t.type := by
    rw [hsplit', hone]
    exact lexed_type ..
  have htok : (lexedTokens (front ++ [dirToken input, t] ++ rest)).stored.tok.getD
      (p.ntok - 2) 0 = (tokenBuffer front).length := by
    rw [hsplit, htwo]
    exact lexed_place ..
  have htok' : (lexedTokens (front ++ [dirToken input, t] ++ rest)).stored.tok.getD (p.ntok - 1) 0 =
      (tokenBuffer (front ++ [dirToken input])).length := by
    rw [hsplit', hone]
    exact lexed_place ..
  unfold takeRedirect
  dsimp only
  rw [htyp, htyp', htok, htok', htwo]
  rw [if_pos ⟨by omega, type_eq_less_or_greater.mpr ⟨input, rfl⟩⟩]
  -- The token behind the redirection has to be a file name, and the name must not be there already.
  by_cases ht : t.type = SH_TOK_OTHER
  · rw [if_neg (not_not.mpr ht)]
    cases input with
    | true =>
      have hname : p.name true = p.inname := rfl
      rw [if_pos (show (dirToken true).type = SH_TOK_LESS from rfl), hname]
      by_cases hagain : again = true ∧ p.inname ≠ none
      · rw [if_pos hagain, if_pos (Or.inr hagain)]
      · rw [if_neg hagain, if_neg (by rintro (h | h); exacts [h ht, hagain h])]
        rfl
    | false =>
      have hname : p.name false = p.outname := rfl
      rw [if_neg (show ¬ (dirToken false).type = SH_TOK_LESS by decide), hname]
      by_cases hagain : again = true ∧ p.outname ≠ none
      · rw [if_pos hagain, if_pos (Or.inr hagain)]
      · rw [if_neg hagain, if_neg (by rintro (h | h); exacts [h ht, hagain h])]
        rfl
  · rw [if_pos ht, if_pos (Or.inl ht)]

/-- If the tokens do not end in a redirection, none is taken off. -/
theorem takeRedirect_plain {p : Parsed} {ts rest : List ShellToken}
    (again : Bool) (hts : ¬ EndsInRedir ts) (hp : p.Front ts) :
    takeRedirect again (lexedTokens (ts ++ rest)).stored p = some p := by
  unfold takeRedirect
  dsimp only
  rw [if_neg]
  rintro ⟨hlen, htyp⟩
  apply hts
  -- The last two tokens are split off.
  rcases List.eq_nil_or_concat' ts with rfl | ⟨us, t, rfl⟩
  · rw [hp.ntok] at hlen
    cases hlen
  rcases List.eq_nil_or_concat' us with rfl | ⟨front, d, rfl⟩
  · rw [hp.ntok] at hlen
    exact absurd hlen (show ¬ 1 ≥ 3 by decide)
  have hntok : p.ntok - 2 = front.length := by
    rw [hp.ntok]
    simp
  have hsplit : front ++ [d] ++ [t] ++ rest = front ++ d :: (t :: rest) := by simp
  rw [hsplit, hntok, lexed_type] at htyp
  obtain ⟨input, rfl⟩ := type_eq_less_or_greater.mp htyp
  refine ⟨front, input, t, ?_, by simp⟩
  rintro rfl
  rw [hp.ntok] at hlen
  exact absurd hlen (show ¬ 2 ≥ 3 by decide)

/-- What is taken off the end of a line. -/
theorem takeRedirect_eq_some {p p' : Parsed} {ts rest : List ShellToken} {again : Bool} (hp : p.Front ts) :
    takeRedirect again (lexedTokens (ts ++ rest)).stored p = some p' ↔
      ¬ EndsInRedir ts ∧ p' = p ∨ ∃ front input t, front ≠ [] ∧
      ts = front ++ [dirToken input, t] ∧ t.type = SH_TOK_OTHER ∧
        (again = true → p.name input = none) ∧ p' = p.redirect front input := by
  -- The line ends in a redirection, which is taken off or refused.
  by_cases hts : EndsInRedir ts
  · obtain ⟨front, input, t, hfront, rfl⟩ := hts
    rw [takeRedirect_redir again hfront hp]
    constructor
    · intro h
      split at h
      · cases h
      · rename_i hno
        obtain ⟨htype, hname⟩ := not_or.mp hno
        refine Or.inr ⟨front, input, t, hfront, rfl, not_not.mp htype,
          fun hagain => ?_, (Option.some.inj h).symm⟩
        exact not_not.mp fun hne => hname ⟨hagain, hne⟩
    · rintro (⟨h, -⟩ | ⟨front', input', t', hfront', heq, htype, hname, rfl⟩)
      · exact absurd ⟨front, input, t, hfront, rfl⟩ h
      · -- The two ways to end the line are the same.
        obtain ⟨rfl, hlast⟩ := List.append_inj' heq rfl
        obtain ⟨hdir, rfl, -⟩ := List.cons_eq_cons.mp hlast |>.imp_right List.cons_eq_cons.mp
        obtain rfl : input = input' := by
          cases input <;> cases input' <;> first | rfl | cases hdir
        rw [if_neg]
        rintro (h | ⟨hagain, h⟩)
        · exact h htype
        · exact h (hname hagain)
  -- It does not, so nothing is taken off.
  · rw [takeRedirect_plain again hts hp]
    constructor
    · intro h
      exact Or.inl ⟨hts, (Option.some.inj h).symm⟩
    · rintro (⟨-, rfl⟩ | ⟨front, input, t, hfront, rfl, -⟩)
      · rfl
      · exact absurd ⟨front, input, t, hfront, rfl⟩ hts

/-- Without redirections. -/
def Parsed.start (ts : List ShellToken) (backgnd : Bool) : Parsed :=
  ⟨ts.length, (tokenBuffer ts).length, none, none, backgnd⟩

/-- `&` is taken off the end of a line. -/
theorem takeBackgnd_amper (ts : List ShellToken) :
    takeBackgnd (lexedTokens (ts ++ [ShellToken.amper])).stored
      (ts ++ [ShellToken.amper]).length (tokenBuffer (ts ++ [ShellToken.amper])).length = .start ts true := by
  have hlen : (ts ++ [ShellToken.amper]).length - 1 = ts.length := by simp
  have hbuf : ((tokenBuffer (ts ++ [ShellToken.amper])).length : ℤ) - 2 = (tokenBuffer ts).length := by
    have hamper : (tokenBuffer [ShellToken.amper]).length = 2 := rfl
    rw [tokenBuffer_append, List.length_append, hamper, Nat.cast_add]
    exact add_sub_cancel_right _ _
  unfold takeBackgnd
  rw [hlen, lexed_type, if_pos (show ShellToken.amper.type = SH_TOK_AMPER from rfl), hbuf]
  rfl

/-- If the last token is not `&`, none is taken off. -/
theorem takeBackgnd_other {ts : List ShellToken} {t : ShellToken} (ht : t ≠ .amper) :
    takeBackgnd (lexedTokens (ts ++ [t])).stored (ts ++ [t]).length
      (tokenBuffer (ts ++ [t])).length = .start (ts ++ [t]) false := by
  have hlen : (ts ++ [t]).length - 1 = ts.length := by simp
  have htype : t.type ≠ SH_TOK_AMPER := by
    cases t with
    | amper => exact absurd rfl ht
    | less => decide
    | greater => decide
    | word text => exact show SH_TOK_OTHER ≠ SH_TOK_AMPER by decide
    | quoted quote text => exact show SH_TOK_OTHER ≠ SH_TOK_AMPER by decide
  unfold takeBackgnd
  rw [hlen, lexed_type, if_neg htype]
  rfl

/-- The test of the types finds a token exactly if one of those that are left is not a word. -/
theorem words_check (ts rest : List ShellToken) :
    (∃ i < ts.length, (lexedTokens (ts ++ rest)).stored.toktyp.getD i 0 ≠ SH_TOK_OTHER) ↔
    ∃ t ∈ ts, t.type ≠ SH_TOK_OTHER := by
  have hget : ∀ us t vs, ts = us ++ t :: vs →
      (lexedTokens (ts ++ rest)).stored.toktyp.getD us.length 0 = t.type := by
    rintro us t vs rfl
    rw [List.append_assoc, List.cons_append]
    exact lexed_type ..
  constructor
  · rintro ⟨i, hi, htype⟩
    refine ⟨ts[i], List.getElem_mem hi, ?_⟩
    rwa [← hget (ts.take i) ts[i] (ts.drop (i + 1)) (by rw [List.getElem_cons_drop, List.take_append_drop]),
      List.length_take_of_le hi.le]
  · rintro ⟨t, ht, htype⟩
    obtain ⟨us, vs, rfl⟩ := List.append_of_mem ht
    refine ⟨us.length, by rw [List.length_append, List.length_cons]; omega, ?_⟩
    rwa [hget us t vs rfl]

/-! ## What is left is a command -/

/-- A command that is left of a line. -/
theorem parseLine_sound {ts : List ShellToken} (hne : ts ≠ []) {p : Parsed}
    (h : parseLine (lexedTokens ts).stored ts.length (tokenBuffer ts).length = some p) :
    ∃ c : ShellCommand, c.Ok ∧ c.tokens = ts ∧ p = c.parsed := by
  -- The front of the line is what stands before `&`.
  obtain ⟨front, backgnd, hts, hback⟩ : ∃ front backgnd, ts = front ++ (if backgnd then [.amper] else []) ∧
      takeBackgnd (lexedTokens ts).stored ts.length (tokenBuffer ts).length = .start front backgnd := by
    obtain ⟨us, t, rfl⟩ := (List.eq_nil_or_concat' ts).resolve_left hne
    by_cases ht : t = .amper
    · subst ht
      exact ⟨us, true, rfl, takeBackgnd_amper us⟩
    · exact ⟨us ++ [t], false, (List.append_nil _).symm, takeBackgnd_other ht⟩
  unfold parseLine at h
  rw [hback] at h
  simp only [Option.bind_eq_bind, Option.bind_eq_some_iff] at h
  obtain ⟨p₁, h₁, p₂, h₂, h⟩ := h
  split at h
  · cases h
  rename_i hcheck
  obtain ⟨hzero, hwords⟩ := not_or.mp hcheck
  obtain rfl := Option.some.inj h
  have hfront : (Parsed.start front backgnd).Front front := ⟨rfl, rfl⟩
  -- What is left has words only.
  have hwords' : ∀ ws rest, ts = ws ++ rest → p₂.ntok = ws.length →
      ws ≠ [] ∧ ∀ t ∈ ws, t.type = SH_TOK_OTHER := by
    rintro ws rest rfl hlen
    rw [hlen] at hzero hwords
    refine ⟨fun hnil => hzero (by rw [hnil]; rfl), fun t ht => ?_⟩
    by_contra htype
    exact hwords ((words_check ws rest).mpr ⟨t, ht, htype⟩)
  rw [hts] at h₁
  rcases (takeRedirect_eq_some hfront).mp h₁ with
    ⟨hends, rfl⟩ | ⟨front₁, input₁, t₁, hne₁, rfl, htype₁, -, rfl⟩
  · -- There is no redirection, the second time as well.
    rw [hts] at h₂
    rcases (takeRedirect_eq_some hfront).mp h₂ with ⟨-, rfl⟩ | ⟨front₁, input₁, t₁, hne₁, rfl, -⟩
    · obtain ⟨hname, hothers⟩ := hwords' front _ hts rfl
      refine ⟨⟨front, [], backgnd⟩, ⟨hname, hothers, ?_, List.nodup_nil⟩, ?_, rfl⟩
      · intro r hr
        cases hr
      · rw [hts]
        exact congrArg (· ++ _) (List.append_nil front)
    · exact absurd ⟨front₁, input₁, t₁, hne₁, rfl⟩ hends
  · have hfront₁ : ((Parsed.start (front₁ ++ [dirToken input₁, t₁]) backgnd).redirect front₁ input₁).Front
      front₁ := ⟨rfl, rfl⟩
    rw [List.append_assoc] at hts
    rw [hts] at h₂
    rcases (takeRedirect_eq_some hfront₁).mp h₂ with
      ⟨-, rfl⟩ | ⟨front₂, input₂, t₂, -, rfl, htype₂, hother, rfl⟩
    · obtain ⟨hname, hothers⟩ := hwords' front₁ _ hts rfl
      refine ⟨⟨front₁, [(input₁, t₁)], backgnd⟩, ⟨hname, hothers, ?_, List.nodup_singleton _⟩, ?_, ?_⟩
      · intro r hr
        rw [List.mem_singleton.mp hr]
        exact htype₁
      · rw [hts, ← List.append_assoc]
        rfl
      · cases input₁ <;> rfl
    · -- The two redirections are not of one kind.
      have hdiff : input₂ ≠ input₁ := by
        rintro rfl
        have hnone := hother rfl
        cases input₂ <;> cases hnone
      rw [List.append_assoc] at hts
      obtain ⟨hname, hothers⟩ := hwords' front₂ _ hts rfl
      refine ⟨⟨front₂, [(input₂, t₂), (input₁, t₁)], backgnd⟩, ⟨hname, hothers, ?_, ?_⟩, ?_, ?_⟩
      · intro r hr
        rcases List.mem_pair.mp hr with rfl | rfl
        · exact htype₂
        · exact htype₁
      · exact List.nodup_cons.mpr ⟨fun hmem => hdiff (List.mem_singleton.mp hmem), List.nodup_singleton _⟩
      · rw [hts]
        simp [ShellCommand.tokens, redirTokens]
      · cases input₁ <;> cases input₂ <;> rfl

/-- No token in front of `&` is `&`. -/
theorem ShellCommand.Ok.not_amper {c : ShellCommand} (hc : c.Ok) :
    ∀ t ∈ c.words ++ redirTokens c.redirs, t ≠ .amper := by
  have hother : ∀ t : ShellToken, t.type = SH_TOK_OTHER → t ≠ .amper := by
    rintro t ht rfl
    cases ht
  intro t ht
  rcases List.mem_append.mp ht with ht | ht
  · exact hother t (hc.words t ht)
  · obtain ⟨r, hr, ht⟩ := List.mem_flatMap.mp ht
    rcases List.mem_pair.mp ht with rfl | rfl
    · cases r.1 <;> exact ShellToken.noConfusion
    · exact hother r.2 (hc.files r hr)

/-- Words do not end in a redirection. -/
theorem not_endsInRedir {ts : List ShellToken} (h : ∀ t ∈ ts, t.type = SH_TOK_OTHER) : ¬ EndsInRedir ts := by
  rintro ⟨front, input, t, -, rfl⟩
  have htype := h (dirToken input) (by simp)
  cases input <;> cases htype

/-- The `&` of a command in the background is taken off, and its words and files are left. -/
theorem takeBackgnd_command {c : ShellCommand} (hc : c.Ok) :
    takeBackgnd (lexedTokens c.tokens).stored c.tokens.length
      (tokenBuffer c.tokens).length = .start (c.words ++ redirTokens c.redirs) c.backgnd := by
  have hne : c.words ++ redirTokens c.redirs ≠ [] := List.append_ne_nil_of_left_ne_nil hc.name _
  have hnot := hc.not_amper
  unfold ShellCommand.tokens
  cases c.backgnd with
  | true => exact takeBackgnd_amper _
  | false =>
    have hnil : (c.words ++ redirTokens c.redirs ++ if false = true then [.amper] else []) =
      c.words ++ redirTokens c.redirs := List.append_nil _
    obtain ⟨us, t, heq⟩ := (List.eq_nil_or_concat' _).resolve_left hne
    rw [hnil, heq]
    exact takeBackgnd_other (hnot t (by rw [heq]; simp))

/-- The redirections are taken off a command. -/
theorem takeRedirects_command {c : ShellCommand} (hc : c.Ok) : ∃ p,
    takeRedirect false (lexedTokens c.tokens).stored
      (.start (c.words ++ redirTokens c.redirs) c.backgnd) = some p ∧
      takeRedirect true (lexedTokens c.tokens).stored p = some c.parsed := by
  obtain ⟨words, redirs, backgnd⟩ := c
  obtain ⟨hname, hwords, hfiles, honce⟩ := hc
  have hends := not_endsInRedir hwords
  -- The two directions are different, so there are two redirections at most.
  have htwo : redirs.length ≤ 2 := by
    have hcard := honce.length_le_card
    rwa [List.length_map] at hcard
  match redirs, htwo with
  -- Without a redirection both passes leave the line as it is.
  | [], _ =>
    have hline : words ++ redirTokens [] = words := List.append_nil words
    have hfront : (Parsed.start words backgnd).Front words := ⟨rfl, rfl⟩
    refine ⟨.start words backgnd, ?_, ?_⟩
    · unfold ShellCommand.tokens
      dsimp only
      rw [hline]
      exact takeRedirect_plain false hends hfront
    · unfold ShellCommand.tokens
      dsimp only
      rw [hline]
      exact takeRedirect_plain true hends hfront
  -- One redirection: the first pass takes it off, and the second one finds none.
  | [(input, file)], _ =>
    have hline : words ++ redirTokens [(input, file)] = words ++ [dirToken input, file] := rfl
    have hfile := hfiles _ List.mem_cons_self
    refine ⟨(Parsed.start (words ++ [dirToken input, file]) backgnd).redirect words input, ?_, ?_⟩
    · exact (takeRedirect_eq_some ⟨rfl, rfl⟩).mpr
        (Or.inr ⟨words, input, file, hname, rfl, hfile, Bool.noConfusion, rfl⟩)
    · unfold ShellCommand.tokens
      dsimp only
      rw [hline, List.append_assoc]
      refine (takeRedirect_eq_some ⟨rfl, rfl⟩).mpr (Or.inl ⟨hends, ?_⟩)
      cases input <;> rfl
  -- Two redirections are taken off from the end, one in each pass.
  | [(input, file), (input', file')], _ =>
    have hdiff : input ≠ input' := fun heq => (List.nodup_cons.mp honce).1 (List.mem_singleton.mpr heq)
    have hfile := hfiles (input, file) List.mem_cons_self
    have hfile' := hfiles (input', file') (List.mem_cons_of_mem _ List.mem_cons_self)
    have hline : words ++ redirTokens [(input, file), (input', file')] =
        words ++ [dirToken input, file] ++ [dirToken input', file'] := by
      simp [redirTokens]
    have hne : words ++ [dirToken input, file] ≠ [] := List.append_ne_nil_of_left_ne_nil hname _
    refine ⟨(Parsed.start (words ++ [dirToken input, file] ++ [dirToken input', file']) backgnd).redirect
      (words ++ [dirToken input, file]) input', ?_, ?_⟩
    · unfold ShellCommand.tokens
      dsimp only
      rw [hline]
      exact (takeRedirect_eq_some ⟨rfl, rfl⟩).mpr
        (Or.inr ⟨words ++ [dirToken input, file], input', file', hne, rfl, hfile', Bool.noConfusion, rfl⟩)
    · unfold ShellCommand.tokens
      dsimp only
      rw [hline, List.append_assoc (words ++ [dirToken input, file])]
      refine (takeRedirect_eq_some ⟨rfl, rfl⟩).mpr (Or.inr ⟨words, input, file, hname, rfl, hfile, ?_, ?_⟩)
      · -- The kinds are different, so the name has not been found yet.
        intro _
        cases input <;> cases input' <;> first | rfl | exact absurd rfl hdiff
      · cases input <;> cases input' <;> rfl

/-- What is left of the line of a command. -/
theorem parseLine_complete {c : ShellCommand} (hc : c.Ok) :
    parseLine (lexedTokens c.tokens).stored c.tokens.length
      (tokenBuffer c.tokens).length = some c.parsed := by
  obtain ⟨p, h₁, h₂⟩ := takeRedirects_command hc
  have hcheck : ¬ (c.parsed.ntok = 0 ∨ ∃ i < c.parsed.ntok,
      (lexedTokens c.tokens).stored.toktyp.getD i 0 ≠ SH_TOK_OTHER) := by
    rintro (hzero | hwords)
    · exact hc.name (List.length_eq_zero_iff.mp hzero)
    · have htokens : c.tokens = c.words ++ (redirTokens c.redirs ++ if c.backgnd then [.amper] else []) :=
        List.append_assoc ..
      rw [htokens] at hwords
      obtain ⟨t, ht, htype⟩ := (words_check _ _).mp hwords
      exact htype (hc.words t ht)
  unfold parseLine
  rw [takeBackgnd_command hc, h₁]
  simp only [Option.bind_eq_bind, Option.bind_some, h₂]
  exact if_neg hcheck

/-- What is left of a line is a command of the grammar, and each is left of its line. -/
theorem parseLine_iff {ts : List ShellToken} (hne : ts ≠ []) {p : Parsed} :
    parseLine (lexedTokens ts).stored ts.length (tokenBuffer ts).length = some p ↔
    ∃ c : ShellCommand, c.Ok ∧ c.tokens = ts ∧ p = c.parsed := by
  constructor
  · exact parseLine_sound hne
  · rintro ⟨c, hc, rfl, rfl⟩
    exact parseLine_complete hc

/-! ## The table -/

/-- A name is compared with a string. -/
theorem sameCommand_eq {cname value : List UInt8} (hname : ∀ ch ∈ cname, ch ≠ 0)
    (hvalue : ∀ ch ∈ value, ch ≠ 0) (rest : List UInt8) :
    sameCommand cname (value ++ 0 :: rest) = decide (cname = value) := by
  induction cname generalizing value with
  | nil =>
    cases value with
    | nil => rfl
    | cons v value =>
      have hv := hvalue v List.mem_cons_self
      exact decide_eq_decide.mpr ⟨fun h => absurd h hv, fun h => absurd h.symm (List.cons_ne_nil _ _)⟩
  | cons ch cname ih =>
    have hch := hname ch List.mem_cons_self
    cases value with
    | nil =>
      have hzero : ¬ (0 : UInt8) = ch := fun h => hch h.symm
      have hfirst : sameCommand (ch :: cname) ([] ++ 0 :: rest) =
        (decide ((0 : UInt8) = ch) && sameCommand cname rest) := rfl
      rw [hfirst, decide_eq_false hzero, Bool.false_and]
      rfl
    | cons v value =>
      have hrest : sameCommand (ch :: cname) (v :: value ++ 0 :: rest) =
        (decide (v = ch) && sameCommand cname (value ++ 0 :: rest)) := rfl
      rw [hrest, ih (fun c hc => hname c (List.mem_cons_of_mem _ hc))
        (fun c hc => hvalue c (List.mem_cons_of_mem _ hc)), ← Bool.decide_and]
      refine decide_eq_decide.mpr ⟨?_, ?_⟩
      · rintro ⟨rfl, rfl⟩
        rfl
      · intro h
        obtain ⟨rfl, rfl⟩ := List.cons_eq_cons.mp h
        exact ⟨rfl, rfl⟩

/-- The names of `cmdtab` are strings. -/
theorem cmdtab_names : ∀ e ∈ cmdtab, ∀ ch ∈ e.cname, ch ≠ 0 := by
  have hall : (cmdtab.all fun e => e.cname.all fun ch => ch ≠ 0) = true := by decide
  intro e he ch hch
  exact of_decide_eq_true (List.all_eq_true.mp (List.all_eq_true.mp hall e he) ch hch)

/-- The characters of a token are not null. -/
theorem ShellToken.Ok.value_ne_zero {t : ShellToken} (ht : t.Ok) : ∀ ch ∈ t.value, ch ≠ 0 := by
  cases t with
  | word text => exact fun ch hch => (ht.2 ch hch).2.1
  | quoted quote text => exact fun ch hch => (ht.2 ch hch).2.2
  | _ =>
    intro ch hch
    rw [List.mem_singleton.mp hch]
    decide

/-- A search depends on what holds of the entries. -/
theorem findIdx?_of_eq {α : Type} {q q' : α → Bool} {l : List α} (h : ∀ a ∈ l, q a = q' a) :
    l.findIdx? q = l.findIdx? q' := by
  induction l with
  | nil => rfl
  | cons a l ih =>
    rw [List.findIdx?_cons, List.findIdx?_cons, h a List.mem_cons_self,
      ih fun x hx => h x (List.mem_cons_of_mem _ hx)]

/-- The command is looked up by the characters of the first token. -/
theorem lookupCmd_tokens {t : ShellToken} (ht : t.Ok) (ts : List ShellToken) :
    lookupCmd (tokenBuffer (t :: ts)) = cmdtab.findIdx? fun e => e.cname = t.value := by
  have hbuf : tokenBuffer (t :: ts) = t.value ++ 0 :: tokenBuffer ts := by
    rw [tokenBuffer, List.flatMap_cons, List.append_assoc]
    rfl
  unfold lookupCmd
  rw [hbuf]
  have hsame : ∀ e ∈ cmdtab, sameCommand e.cname (t.value ++ 0 :: tokenBuffer ts) = decide
      (e.cname = t.value) := by
    intro e he
    exact sameCommand_eq (cmdtab_names e he) ht.value_ne_zero _
  exact findIdx?_of_eq hsame

/-- A redirection that is not given. -/
theorem nameAt_eq_none {input : Bool} {redirs : List (Bool × ShellToken)} : ∀ {front : List ShellToken},
    nameAt input front redirs = none ↔ ∀ r ∈ redirs, r.1 ≠ input := by
  induction redirs with
  | nil => exact fun {front} => iff_of_true rfl (fun r hr => absurd hr List.not_mem_nil)
  | cons r redirs ih =>
    intro front
    rw [nameAt, List.forall_mem_cons]
    by_cases hr : r.1 = input
    · rw [if_pos hr]
      exact iff_of_false (Option.some_ne_none _) fun h => h.1 hr
    · rw [if_neg hr, ih]
      exact ⟨fun h => ⟨hr, h⟩, And.right⟩

/-- A command of the shell itself can not be redirected, and not run in the background. -/
theorem ShellCommand.refused_iff (c : ShellCommand) :
    (c.parsed.inname ≠ none ∨ c.parsed.outname ≠ none ∨ c.parsed.backgnd = true) ↔
    ¬ (c.redirs = [] ∧ c.backgnd = false) := by
  have hin : c.parsed.inname = none ↔ ∀ r ∈ c.redirs, r.1 ≠ true := nameAt_eq_none
  have hout : c.parsed.outname = none ↔ ∀ r ∈ c.redirs, r.1 ≠ false := nameAt_eq_none
  have hback : c.parsed.backgnd = c.backgnd := rfl
  rw [Ne, Ne, hin, hout, hback]
  constructor
  · rintro h ⟨hnil, hfalse⟩
    rw [hnil, hfalse] at h
    rcases h with h | h | h
    · exact h fun r hr => absurd hr List.not_mem_nil
    · exact h fun r hr => absurd hr List.not_mem_nil
    · cases h
  · intro h
    by_contra hno
    obtain ⟨h₁, h₂, h₃⟩ := not_or.mp hno |>.imp_right not_or.mp
    apply h
    refine ⟨List.eq_nil_iff_forall_not_mem.mpr fun r hr => ?_, Bool.not_eq_true _ ▸ h₃⟩
    cases hr₁ : r.1 with
    | true => exact not_not.mp h₁ r hr hr₁
    | false => exact not_not.mp h₂ r hr hr₁

/-- The places of the words of a command. -/
theorem command_places (c : ShellCommand) : (lexedTokens c.tokens).stored.tok.take c.words.length =
    (List.range c.words.length).map fun i => (tokenBuffer (c.words.take i)).length := by
  have htokens : c.tokens = c.words ++ (redirTokens c.redirs ++ if c.backgnd then [.amper] else []) :=
    List.append_assoc ..
  have htok : (lexedTokens c.tokens).stored.tok = (List.range c.tokens.length).map fun i =>
    (tokenBuffer (c.tokens.take i)).length := rfl
  have hlen : c.words.length ≤ c.tokens.length := by
    rw [htokens, List.length_append]
    exact Nat.le_add_right _ _
  rw [htok, ← List.map_take, List.take_range, Nat.min_eq_left hlen]
  refine List.map_congr_left fun i hi => ?_
  rw [htokens, List.take_append_of_le_length (List.mem_range.mp hi).le]

/-- A token stands in the buffer as a string. -/
theorem token_string (b : ℕ → UInt8) (base : ℕ) (ts us : List ShellToken) {t : ShellToken} (ht : t.Ok) :
    StringAt (put b base (tokenBuffer (ts ++ t :: us))) (base + (tokenBuffer ts).length) t.value := by
  have hbuf : tokenBuffer (ts ++ t :: us) = tokenBuffer ts ++ (t.value ++ 0 :: tokenBuffer us) := by
    rw [tokenBuffer_append]
    simp [tokenBuffer]
  rw [hbuf, ← put_append]
  exact stringAt_put _ _ ht.value_ne_zero _

/-- The name of a file stands where the redirection says. -/
theorem nameAt_string (b : ℕ → UInt8) {redirs : List (Bool × ShellToken)} :
    ∀ {front : List ShellToken} (rest : List ShellToken),
    (redirs.map Prod.fst).Nodup → (∀ r ∈ redirs, r.2.Ok) →
    ∀ r ∈ redirs, ∃ k, nameAt r.1 front redirs = some k ∧
      StringAt (put b 0 (tokenBuffer (front ++ redirTokens redirs ++ rest))) k r.2.value := by
  induction redirs with
  | nil => exact fun {front} rest _ _ r hr => absurd hr List.not_mem_nil
  | cons r redirs ih =>
    intro front rest honce hok q hq
    obtain ⟨hnot, honce⟩ := List.nodup_cons.mp honce
    have hline : front ++ redirTokens (r :: redirs) ++ rest =
        front ++ [dirToken r.1, r.2] ++ redirTokens redirs ++ rest := by
      simp [redirTokens]
    rw [nameAt]
    rcases List.mem_cons.mp hq with rfl | hq
    · refine ⟨_, if_pos rfl, ?_⟩
      have hsplit : front ++ redirTokens (q :: redirs) ++ rest =
          front ++ [dirToken q.1] ++ q.2 :: (redirTokens redirs ++ rest) := by
        simp [redirTokens]
      have hstring := token_string b 0 (front ++ [dirToken q.1])
        (redirTokens redirs ++ rest) (hok q List.mem_cons_self)
      rwa [Nat.zero_add, ← hsplit] at hstring
    · have hne : r.1 ≠ q.1 := fun heq => hnot (heq ▸ List.mem_map_of_mem hq)
      rw [if_neg hne, hline]
      exact ih rest honce (fun x hx => hok x (List.mem_cons_of_mem _ hx)) q hq

/-- What the shell does with the tokens of a line. -/
theorem shellLine_tokens {pad rest : List UInt8} {ts : List (ShellToken × List UInt8)}
    (hpad : Blanks pad) (hts : Spaced ts)
    (hrest : atEnd (rest ++ [SH_NEWLINE])) (hle : ts.length ≤ SHELL_MAXTOK)
    (hlast : ts.length < SHELL_MAXTOK ∨ lastPad ts = [])
    (hlen : 1 < (pad ++ render ts ++ rest).length) (hne : ts ≠ []) :
    let s := lexedTokens (ts.map Prod.fst)
    shellLine (pad ++ render ts ++ rest) = some
      (match parseLine s.stored ts.length (tokenBuffer (ts.map Prod.fst)).length with
      | none => .syntaxError
      | some p =>
        match lookupCmd s.stored.tokbuf with
        | none => .notFound
        | some j =>
          if (cmdtab.getD j ⟨[], false⟩).cbuiltin then
            if p.inname ≠ none ∨ p.outname ≠ none ∨ p.backgnd then .refused
              else .builtin j (s.stored.tok.take p.ntok)
          else .spawn j p) := by
  intro s
  -- The line is read as these tokens, so the shell goes on with them.
  have hlex : lexan (pad ++ render ts ++ rest ++ [SH_NEWLINE]) = some s := by
    rw [List.append_assoc (pad ++ render ts)]
    exact (lexan_tokens hpad hts hrest hle).mpr hlast
  have hretval : s.retval = ts.length := congrArg Nat.cast (List.length_map ..)
  have hpos := List.length_pos_iff.mpr hne
  -- There are tokens, and there was no error.
  have herr : s.retval ≠ SYSERR := by
    rw [hretval]
    exact fun h => absurd (h ▸ Int.natCast_nonneg ts.length) (by decide)
  have hzero : s.retval ≠ 0 := by
    rw [hretval]
    omega
  have hntok : s.retval.toNat = ts.length := by rw [hretval, Int.toNat_natCast]
  have htlen : s.tlen.getD 0 = (tokenBuffer (ts.map Prod.fst)).length := rfl
  unfold shellLine
  rw [if_neg (by omega), hlex]
  simp only [Option.bind_eq_bind, Option.bind_some, if_neg herr, if_neg hzero, hntok, htlen]
  -- What is left is the decision of the source.
  cases parseLine s.stored ts.length (tokenBuffer (ts.map Prod.fst)).length with
  | none => rfl
  | some p =>
    cases lookupCmd s.stored.tokbuf with
    | none => rfl
    | some j =>
      dsimp only
      split_ifs <;> rfl

/-- A line of tokens is a syntax error if and only if it is no command of the grammar. For a
command, the shell does what `cmdtab` says, and the names of the files are where they are looked
for. A line of as many tokens as `lexan` takes must not end with a blank: `lexan` looks for another
token there, and refuses the line. -/
theorem shell_line (pad rest : List UInt8) (ts : List (ShellToken × List UInt8))
    (hpad : Blanks pad) (hts : Spaced ts)
    (hrest : atEnd (rest ++ [SH_NEWLINE])) (hle : ts.length ≤ SHELL_MAXTOK)
    (hlast : ts.length < SHELL_MAXTOK ∨ lastPad ts = [])
    (hlen : 1 < (pad ++ render ts ++ rest).length) (hne : ts ≠ []) :
    (shellLine (pad ++ render ts ++ rest) = some .syntaxError ↔
      ¬ ∃ c : ShellCommand, c.Ok ∧ c.tokens = ts.map Prod.fst) ∧
      ∀ c : ShellCommand, c.Ok → c.tokens = ts.map Prod.fst →
      shellLine (pad ++ render ts ++ rest) = some c.act ∧
        ∀ b, ∀ r ∈ c.redirs, ∃ k, c.parsed.name r.1 = some k ∧ StringAt
          (put b 0 (lexedTokens c.tokens).stored.tokbuf) k r.2.value := by
  have hline := shellLine_tokens hpad hts hrest hle hlast hlen hne
  have hmap : ts.map Prod.fst ≠ [] := fun h => hne (List.map_eq_nil_iff.mp h)
  have hcount : (ts.map Prod.fst).length = ts.length := List.length_map _
  have hokTokens : ∀ t ∈ ts.map Prod.fst, t.Ok := by
    intro t ht
    obtain ⟨u, hu, rfl⟩ := List.mem_map.mp ht
    exact hts.ok u hu
  have hact : ∀ c : ShellCommand, c.Ok → c.tokens = ts.map Prod.fst →
      shellLine (pad ++ render ts ++ rest) = some c.act := by
    intro c hc htokens
    have hparse := parseLine_complete hc
    -- The first word is what is looked up.
    have hlookup : lookupCmd (lexedTokens c.tokens).stored.tokbuf = c.entry := by
      obtain ⟨word, words, hwords⟩ := List.exists_cons_of_ne_nil hc.name
      have hcons :
          c.tokens = word :: (words ++ redirTokens c.redirs ++ if c.backgnd then [.amper] else []) := by
        unfold ShellCommand.tokens
        rw [hwords]
        rfl
      have hword : word.Ok := hokTokens word (by rw [← htokens, hcons]; exact List.mem_cons_self)
      unfold ShellCommand.entry
      rw [hwords, hcons]
      exact lookupCmd_tokens hword _
    rw [hline, ← hcount, ← htokens, hparse]
    dsimp only
    rw [hlookup]
    unfold ShellCommand.act
    cases c.entry with
    | none => rfl
    | some j =>
      dsimp only
      by_cases hbuiltin : (cmdtab.getD j ⟨[], false⟩).cbuiltin = true
      · rw [if_pos hbuiltin, if_pos hbuiltin]
        by_cases hplain : c.redirs = [] ∧ c.backgnd = false
        · rw [if_pos hplain, if_neg fun h => (c.refused_iff.mp h) hplain, ← command_places c]
          rfl
        · rw [if_neg hplain, if_pos (c.refused_iff.mpr hplain)]
      · rw [if_neg hbuiltin, if_neg hbuiltin]
  refine ⟨⟨?_, ?_⟩, fun c hc htokens => ⟨hact c hc htokens, ?_⟩⟩
  · rintro herr ⟨c, hc, htokens⟩
    rw [hact c hc htokens] at herr
    have hno : c.act ≠ .syntaxError := by
      unfold ShellCommand.act
      split
      · exact ShellAct.noConfusion
      · split_ifs <;> exact ShellAct.noConfusion
    exact hno (Option.some.inj herr)
  · intro hno
    have hnone : parseLine (lexedTokens (ts.map Prod.fst)).stored ts.length
        (tokenBuffer (ts.map Prod.fst)).length = none := by
      refine Option.eq_none_iff_forall_ne_some.mpr fun p hp => ?_
      rw [← hcount] at hp
      obtain ⟨c, hc, htokens, -⟩ := parseLine_sound hmap hp
      exact hno ⟨c, hc, htokens⟩
    rw [hline, hnone]
  · intro b r hr
    have hfile : ∀ q ∈ c.redirs, q.2.Ok := by
      intro q hq
      apply hokTokens
      rw [← htokens]
      exact List.mem_append_left _ (List.mem_append_right _
        (List.mem_flatMap.mpr ⟨q, hq, List.mem_pair.mpr (Or.inr rfl)⟩))
    obtain ⟨k, hk, hstring⟩ := nameAt_string b (if c.backgnd then [.amper] else []) hc.once hfile r hr
    refine ⟨k, ?_, hstring⟩
    rw [← hk]
    cases r.1 <;> rfl

/-- The tokens of the line `cat 'a b' < c &`. -/
def catTokens : List (ShellToken × List UInt8) :=
  [(.word [99, 97, 116], [SH_BLANK]), (.quoted SH_SQUOTE [97, 32, 98], [SH_BLANK]),
    (.less, [SH_BLANK]), (.word [99], [SH_BLANK]), (.amper, [])]

/-- They have blanks between them. -/
theorem catTokens_spaced : Spaced catTokens where
  ok := by
    intro t ht
    simp only [catTokens, List.mem_cons, List.not_mem_nil, or_false] at ht
    rcases ht with rfl | rfl | rfl | rfl | rfl
    · refine ⟨List.cons_ne_nil _ _, fun ch hch => ?_⟩
      simp only [List.mem_cons, List.not_mem_nil, or_false] at hch
      rcases hch with rfl | rfl | rfl <;> decide
    · refine ⟨Or.inl rfl, fun ch hch => ?_⟩
      simp only [List.mem_cons, List.not_mem_nil, or_false] at hch
      rcases hch with rfl | rfl | rfl <;> decide
    · trivial
    · refine ⟨List.cons_ne_nil _ _, fun ch hch => ?_⟩
      rw [List.mem_singleton.mp hch]
      decide
    · trivial
  blanks := by
    intro t ht ch hch
    simp only [catTokens, List.mem_cons, List.not_mem_nil, or_false] at ht
    rcases ht with rfl | rfl | rfl | rfl | rfl
    · exact Or.inl (List.mem_singleton.mp hch)
    · exact Or.inl (List.mem_singleton.mp hch)
    · exact Or.inl (List.mem_singleton.mp hch)
    · exact Or.inl (List.mem_singleton.mp hch)
    · cases hch
  apart := by
    intro t ht
    simp only [catTokens, List.dropLast_cons_cons, List.dropLast_singleton,
      List.mem_cons, List.not_mem_nil, or_false] at ht
    rcases ht with rfl | rfl | rfl | rfl <;> exact List.cons_ne_nil _ _

/-- The line `cat 'a b' < c &` with its newline. -/
theorem shell_line_cat :
    (shellLine ([] ++ render catTokens ++ [10]) = some .syntaxError ↔
      ¬ ∃ c : ShellCommand, c.Ok ∧ c.tokens = catTokens.map Prod.fst) ∧
      ∀ c : ShellCommand, c.Ok → c.tokens = catTokens.map Prod.fst →
      shellLine ([] ++ render catTokens ++ [10]) = some c.act ∧
        ∀ b, ∀ r ∈ c.redirs, ∃ k, c.parsed.name r.1 = some k ∧ StringAt
          (put b 0 (lexedTokens c.tokens).stored.tokbuf) k r.2.value :=
  shell_line [] [10] catTokens (fun _ h => absurd h List.not_mem_nil) catTokens_spaced
    (Or.inr rfl) (by decide) (Or.inl (by decide)) (by decide)
    (List.cons_ne_nil _ _)

end Xinu
