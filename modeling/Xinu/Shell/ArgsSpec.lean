import Xinu.Shell.CommandSpec

/-!
# A command finds its arguments

`create` leaves 15 words on the new stack, from the registers that `ctxsw` restores up to
`STACKMAGIC`: `createStack_words`. `addargs` writes the argument vector and the strings at the other
end of the stack, and finds the dummy argument among these words, since none in front of it is the
address of a variable of the shell: `command_args`.
-/

namespace Xinu

open Bytes Strings Words

/-- `SHELL_CMDSTK`. -/
abbrev SHELL_CMDSTK : ℕ := 8192

/-! ## The new stack -/

/-- The words of the new stack, from where its stack pointer is saved on: the registers, the flags,
what is restored into `%ebp` in the end, the address that `ctxsw` returns to, the one that the
command returns to, the arguments, and `STACKMAGIC`. -/
def stackWords (saddr funcaddr initret arg₁ arg₂ : ℕ) : List ℕ :=
  [0, 0, saddr - 20, saddr - 56, 0, 0, 0, 0, 0x200, saddr, funcaddr, initret, arg₁, arg₂, STACKMAGIC]

/-- What `create` leaves on the stack of a process with two arguments. -/
theorem createStack_words (mem : ℕ → UInt8) (saddr funcaddr initret arg₁ arg₂ : ℕ)
    (hlow : 56 ≤ saddr) (hsaddr : saddr < 2 ^ 32)
    (hfunc : funcaddr < 2 ^ 32) (hret : initret < 2 ^ 32) (h₁ : arg₁ < 2 ^ 32) (h₂ : arg₂ < 2 ^ 32) :
    let r := createStack mem saddr funcaddr initret [arg₁, arg₂]
    r.2 = saddr - 56 ∧ wordsAt r.1 (saddr - 56) 15 = stackWords saddr funcaddr initret arg₁ arg₂ ∧
      ∀ j, j < saddr - 56 ∨ saddr + 4 ≤ j → r.1 j = mem j := by
  intro r
  -- All words are pushed, and then the slot of the stack pointer is filled in.
  let ws := [arg₂, arg₁, initret, funcaddr, saddr, 0x200, 0, 0, 0, 0, 0, saddr - 20, 0, 0]
  let top := pushWords (store32 mem saddr STACKMAGIC) saddr ws
  have hr : r = (store32 top.1 (saddr - 56 + 4 * 3) (saddr - 56), saddr - 56) := by
    let frame := pushWords (store32 mem saddr STACKMAGIC) saddr [arg₂, arg₁, initret, funcaddr, saddr]
    let saved := pushWords frame.1 frame.2 [0x200, 0, 0, 0, 0, 0]
    have hframe : frame.2 = saddr - 20 := pushWords_snd ..
    have hsaved : saved.2 = saddr - 56 + 4 * 3 := calc
      saved.2 = frame.2 - 4 * 6 := pushWords_snd ..
      _ = saddr - 56 + 4 * 3 := by omega
    have htop : pushWords saved.1 saved.2 [frame.2, 0, 0] = top := by
      rw [hframe, ← pushWords_append, ← pushWords_append]
      rfl
    have hptr : top.2 = saddr - 56 := pushWords_snd ..
    calc
      r = (store32 (pushWords saved.1 saved.2 [frame.2, 0, 0]).1 saved.2
            (pushWords saved.1 saved.2 [frame.2, 0, 0]).2,
          (pushWords saved.1 saved.2 [frame.2, 0, 0]).2) := rfl
      _ = (store32 top.1 (saddr - 56 + 4 * 3) (saddr - 56), saddr - 56) := by rw [htop, hptr, hsaved]
  have hlt : ∀ w ∈ ws, w < 2 ^ 32 := by
    intro w hw
    simp only [ws, List.mem_cons, List.not_mem_nil, or_false] at hw
    omega
  have hpushed : wordsAt top.1 (saddr - 56) 14 = ws.reverse :=
    wordsAt_pushWords (show 4 * 14 ≤ saddr from hlow) hlt
  have hmagic : wordsAt top.1 (saddr - 56 + 4 * 14) 1 = [STACKMAGIC] := by
    have hplace : saddr - 56 + 4 * 14 = saddr := by omega
    have hword : le32 top.1 saddr = STACKMAGIC := by
      rw [← le32_store32 (b := mem) (i := saddr) (show STACKMAGIC < 2 ^ 32 by decide)]
      exact le32_congr fun j hj _ => pushWords_of_ne (show 4 * 14 ≤ saddr from hlow) (Or.inr hj)
    rw [hplace, wordsAt, hword, wordsAt]
  rw [hr]
  refine ⟨rfl, ?_, fun j hj => ?_⟩
  · calc wordsAt (store32 top.1 (saddr - 56 + 4 * 3) (saddr - 56)) (saddr - 56) 15
        = (wordsAt top.1 (saddr - 56) (14 + 1)).set 3 (saddr - 56) := wordsAt_store32 (by omega) (by decide)
      _ = (ws.reverse ++ [STACKMAGIC]).set 3 (saddr - 56) := by rw [wordsAt_add, hpushed, hmagic]
      _ = stackWords saddr funcaddr initret arg₁ arg₂ := rfl
  · calc store32 top.1 (saddr - 56 + 4 * 3) (saddr - 56) j
        = top.1 j := store32_of_ne (by omega)
      _ = store32 mem saddr STACKMAGIC j := pushWords_of_ne (show 4 * 14 ≤ saddr from hlow) (by
          have : saddr - 4 * ws.length = saddr - 56 := rfl
          omega)
      _ = mem j := store32_of_ne (by omega)

/-! ## The arguments -/

/-- The search finds the first word that is the dummy argument. -/
theorem searchDummy_eq (mem : ℕ → UInt8) (dummy : ℕ) : ∀ (n search : ℕ),
    searchDummy mem dummy n search = ((wordsAt mem search n).findIdx? (· = dummy)).map fun i => search + 4 * i
  | 0, _ => rfl
  | n + 1, search => by
    rw [searchDummy, wordsAt, List.findIdx?_cons]
    by_cases h : le32 mem search = dummy
    · rw [if_pos h, decide_eq_true h, if_pos rfl]
      rfl
    · rw [if_neg h, decide_eq_false h, if_neg Bool.false_ne_true, searchDummy_eq mem dummy n, Option.map_map]
      congr 1
      funext i
      show search + 4 + 4 * i = search + 4 * (i + 1)
      omega

/-- A string in memory depends only on its bytes and the null behind it. -/
theorem stringAt_congr {m m' : ℕ → UInt8} : ∀ {s : List UInt8} {p : ℕ},
    (∀ j, p ≤ j → j ≤ p + s.length → m' j = m j) → StringAt m p s → StringAt m' p s
  | [], p, h, hs => (h p le_rfl le_rfl).trans hs
  | ch :: s, p, h, hs => by
    rw [List.length_cons] at h
    exact ⟨(h p le_rfl (by omega)).trans hs.1, hs.2.1,
      stringAt_congr (fun j hj hle => h j (by omega) (by omega)) hs.2.2⟩

/-- The tokens of a line take no more room than the line, and a null character for each. -/
theorem tokenBuffer_length_le : ∀ ts : List (ShellToken × List UInt8),
    (tokenBuffer (ts.map Prod.fst)).length ≤ (render ts).length + ts.length
  | [] => le_rfl
  | t :: ts => by
    have hrest := tokenBuffer_length_le ts
    have hvalue : t.1.value.length ≤ t.1.text.length := by
      cases t.1 with
      | quoted quote text =>
        show text.length ≤ (quote :: (text ++ [quote])).length
        rw [List.length_cons, List.length_append]
        omega
      | _ => exact le_rfl
    have hbuf : tokenBuffer ((t :: ts).map Prod.fst) = t.1.value ++ [0] ++ tokenBuffer
      (ts.map Prod.fst) := rfl
    have hline : render (t :: ts) = t.1.text ++ t.2 ++ render ts := rfl
    rw [hbuf, hline]
    simp only [List.length_append, List.length_cons, List.length_nil]
    omega

/-- Where the dummy argument is, if no word in front of it is the same. -/
theorem findIdx?_stackWords {saddr funcaddr initret arg₁ dummy : ℕ}
    (h : ∀ w ∈ [0, saddr - 20, saddr - 56, 0x200, saddr, funcaddr, initret, arg₁], w ≠ dummy) :
    ((stackWords saddr funcaddr initret arg₁ dummy).take 14).findIdx? (· = dummy) = some 13 := by
  have hsplit : (stackWords saddr funcaddr initret arg₁ dummy).take 14 =
      [0, 0, saddr - 20, saddr - 56, 0, 0, 0, 0, 0x200, saddr, funcaddr, initret, arg₁] ++ [dummy] := rfl
  have hnone : [0, 0, saddr - 20, saddr - 56, 0, 0, 0, 0, 0x200, saddr, funcaddr, initret, arg₁].findIdx?
      (· = dummy) = none := by
    refine List.findIdx?_eq_none_iff.mpr fun w hw => decide_eq_false (h w ?_)
    simp only [List.mem_cons, List.not_mem_nil, or_false] at hw ⊢
    tauto
  rw [hsplit, List.findIdx?_append, hnone, List.findIdx?_cons, decide_eq_true rfl]
  rfl

/-- Where a word of a command is in the token buffer, and that it is a string there. -/
theorem word_place {c : ShellCommand} {i : ℕ} (hi : i < c.words.length) :
    ∃ us vs, c.words = us ++ c.words[i] :: vs ∧
    (lexedTokens c.tokens).stored.tok.getD i 0 = (tokenBuffer us).length := by
  have hsplit : c.words = c.words.take i ++ c.words[i] :: c.words.drop (i + 1) := by
    rw [List.getElem_cons_drop, List.take_append_drop]
  refine ⟨c.words.take i, c.words.drop (i + 1), hsplit, ?_⟩
  have htokens : c.tokens = c.words.take i ++ c.words[i] ::
      (c.words.drop (i + 1) ++ (redirTokens c.redirs ++ if c.backgnd then [.amper] else [])) := by
    rw [← List.cons_append, ← List.append_assoc, ← hsplit]
    exact List.append_assoc ..
  have hplace := lexed_place (c.words.take i)
    (c.words.drop (i + 1) ++ (redirTokens c.redirs ++ if c.backgnd then [.amper] else [])) c.words[i]
  rwa [← htokens, List.length_take_of_le hi.le] at hplace

/-- A word and its null character are inside the buffer. -/
theorem word_room {c : ShellCommand} {i : ℕ} (hi : i < c.words.length) :
    (lexedTokens c.tokens).stored.tok.getD i 0 + c.words[i].value.length < (tokenBuffer c.words).length := by
  obtain ⟨us, vs, hsplit, hplace⟩ := word_place hi
  have hcons : (tokenBuffer (c.words[i] :: vs)).length = c.words[i].value.length +
      1 + (tokenBuffer vs).length := by
    rw [tokenBuffer, List.flatMap_cons, List.length_append, List.length_append]
    rfl
  have hlen : (tokenBuffer c.words).length = (tokenBuffer us).length +
      (tokenBuffer (c.words[i] :: vs)).length := by
    conv_lhs => rw [hsplit]
    rw [tokenBuffer_append, List.length_append]
  rw [hplace]
  omega

/-- The words of a command are the first tokens. -/
theorem tokens_words (c : ShellCommand) : ∃ rest, c.tokens = c.words ++ rest := ⟨_, List.append_assoc ..⟩

/-- The bytes of the words are the first of the buffer. -/
theorem take_words (c : ShellCommand) :
    (lexedTokens c.tokens).stored.tokbuf.take (tokenBuffer c.words).length = tokenBuffer c.words := by
  obtain ⟨rest, hrest⟩ := tokens_words c
  have hbuf : (lexedTokens c.tokens).stored.tokbuf = tokenBuffer c.words ++ tokenBuffer rest := by
    rw [← tokenBuffer_append, ← hrest]
    rfl
  rw [hbuf, List.take_left]

/-- The dummy argument is found on a stack that `create` has made. -/
theorem searchDummy_stack {mem : ℕ → UInt8} {stkptr saddr funcaddr initret arg₁ dummy : ℕ}
    (hstack : wordsAt mem stkptr 15 = stackWords saddr funcaddr initret arg₁ dummy)
    (h : ∀ w ∈ [0, saddr - 20, saddr - 56, 0x200, saddr, funcaddr, initret, arg₁], w ≠ dummy) :
    searchDummy mem dummy 14 stkptr = some (stkptr + 4 * 13) := by
  have htake : wordsAt mem stkptr 14 = (stackWords saddr funcaddr initret arg₁ dummy).take 14 := by
    rw [← hstack, wordsAt_add mem 1 stkptr 14]
    exact (List.take_left' rfl).symm
  rw [searchDummy_eq, htake, findIdx?_stackWords h]
  rfl

/-- The words of a command that is on one line are few, and so are their bytes. -/
theorem words_room {ts : List (ShellToken × List UInt8)} {c : ShellCommand}
    (hle : ts.length ≤ SHELL_MAXTOK) (hline : (render ts).length ≤ SHELL_BUFLEN)
    (htokens : c.tokens = ts.map Prod.fst) :
    c.words.length ≤ SHELL_MAXTOK ∧ (tokenBuffer c.words).length ≤ SHELL_BUFLEN + SHELL_MAXTOK := by
  obtain ⟨rest, hrest⟩ := tokens_words c
  constructor
  · have hlen := congrArg List.length htokens
    rw [hrest, List.length_append, List.length_map] at hlen
    omega
  · have hlen := tokenBuffer_length_le ts
    rw [← htokens, hrest, tokenBuffer_append, List.length_append] at hlen
    omega

/-- The words of a command that is on a line are words. -/
theorem words_ok {ts : List (ShellToken × List UInt8)} {c : ShellCommand} (hts : Spaced ts)
    (htokens : c.tokens = ts.map Prod.fst) {w : ShellToken} (hw : w ∈ c.words) : w.Ok := by
  obtain ⟨rest, hrest⟩ := tokens_words c
  have hmem : w ∈ ts.map Prod.fst := by
    rw [← htokens, hrest]
    exact List.mem_append_left _ hw
  obtain ⟨t, ht, heq⟩ := List.mem_map.mp hmem
  exact heq ▸ hts.ok t ht

/-- `addargs` stores the vector and the strings at the low end of the stack, and then the address of
the vector in the place of the dummy argument. -/
theorem addargs_eq {mem : ℕ → UInt8} {saddr stkptr argloc dummy : ℕ} {c : ShellCommand}
    (hc : 0 < c.words.length) (hptr : stkptr = saddr - 56) (halign : saddr % 4 = 0)
    (hlow : SHELL_CMDSTK ≤ saddr) (hargloc : argloc = saddr + 4 - SHELL_CMDSTK)
    (hsearch : searchDummy (put (storeWords mem argloc
        (argWords argloc c.words.length (lexedTokens c.tokens).stored.tok))
      (argloc + 4 * (c.words.length + 1)) (tokenBuffer c.words)) dummy 14 stkptr =
        some (stkptr + 4 * 13)) :
    addargs mem ⟨saddr, SHELL_CMDSTK, stkptr⟩ c.words.length (lexedTokens c.tokens).stored.tok
      (tokenBuffer c.words).length (lexedTokens c.tokens).stored.tokbuf dummy =
    (OK, store32 (put (storeWords mem argloc
        (argWords argloc c.words.length (lexedTokens c.tokens).stored.tok))
      (argloc + 4 * (c.words.length + 1)) (tokenBuffer c.words)) (stkptr + 4 * 13) argloc) := by
  have hn : SHELL_CMDSTK = 8192 := rfl
  have hlo : (saddr - SHELL_CMDSTK + 4 + 3) / 4 * 4 = argloc := by omega
  have hsteps : (saddr - stkptr + 3) / 4 = 14 := by omega
  have hcheck : ¬ (c.words.length = 0 ∨ ((tokenBuffer c.words).length : ℤ) < 0) := by omega
  have hcopy : (lexedTokens c.tokens).stored.tokbuf.take ((tokenBuffer c.words).length : ℤ).toNat =
      tokenBuffer c.words := take_words c
  unfold addargs
  dsimp only
  rw [if_neg hcheck, hlo, hcopy, hsteps, hsearch]

/-- The process of a command finds on its stack the number of its words and the address of the
vector, in the vector the addresses of the words and then a null pointer, and there the words as
strings. The rest of its stack is as `create` has left it, and nothing outside is written. -/
theorem command_args (mem : ℕ → UInt8) (saddr funcaddr initret dummy : ℕ)
    (ts : List (ShellToken × List UInt8)) (c : ShellCommand) (hts : Spaced ts)
    (hle : ts.length ≤ SHELL_MAXTOK) (hline : (render ts).length ≤ SHELL_BUFLEN)
    (hc : c.Ok) (htokens : c.tokens = ts.map Prod.fst)
    (halign : saddr % 4 = 0) (hlow : SHELL_CMDSTK ≤ saddr) (hsaddr : saddr < 2 ^ 32)
    (hfunc : funcaddr < 2 ^ 32) (hret : initret < 2 ^ 32)
    (hdummy : dummy < 2 ^ 32) (hshell : dummy < saddr + 4 - SHELL_CMDSTK ∨ saddr + 4 ≤ dummy)
    (hpage : 0x200 < dummy) (hcode : dummy ≠ funcaddr ∧ dummy ≠ initret) :
    let start := createStack mem saddr funcaddr initret [c.words.length, dummy]
    let s := (lexedTokens c.tokens).stored
    let r := addargs start.1 ⟨saddr, SHELL_CMDSTK, start.2⟩ c.parsed.ntok s.tok c.parsed.tlen s.tokbuf dummy
    let argloc := saddr + 4 - SHELL_CMDSTK
    r.1 = OK ∧ wordsAt r.2 start.2 15 = stackWords saddr funcaddr initret c.words.length argloc ∧
      (∃ argv, wordsAt r.2 argloc (c.words.length + 1) = argv ++ [0] ∧
        List.Forall₂ (fun a t => StringAt r.2 a t.value) argv c.words) ∧
      (∀ j, j < argloc ∨ saddr + 4 ≤ j → r.2 j = mem j) := by
  intro start s r argloc
  -- How much is stored at the low end of the stack.
  have hpos := List.length_pos_iff.mpr hc.name
  obtain ⟨hcount, hroom⟩ := words_room hle hline htokens
  have hn : SHELL_MAXTOK = 32 ∧ SHELL_BUFLEN ≤ 1025 ∧ SHELL_CMDSTK = 8192 := ⟨rfl, by decide, rfl⟩
  have hargloc : argloc = saddr + 4 - 8192 := rfl
  obtain ⟨hptr, hwords, hother⟩ := createStack_words mem saddr funcaddr initret c.words.length dummy
    (by omega) hsaddr hfunc hret (by omega) hdummy
  -- The memory before the dummy argument is replaced.
  let vec := storeWords start.1 argloc (argWords argloc c.words.length s.tok)
  let strs := put vec (argloc + 4 * (c.words.length + 1)) (tokenBuffer c.words)
  have hvec : (argWords argloc c.words.length s.tok).length = c.words.length + 1 := by
    rw [argWords, List.length_append, List.length_map, List.length_range, List.length_singleton]
  have hstays : ∀ j, j < argloc ∨ saddr - 56 ≤ j → strs j = start.1 j := by
    intro j hj
    calc strs j = vec j := by
          rcases hj with hj | hj
          · exact put_of_lt _ (by omega)
          · exact put_of_ge _ (by omega)
      _ = start.1 j := storeWords_of_ne (by rw [hvec]; omega)
  have hstack : wordsAt strs (saddr - 56) 15 = stackWords saddr funcaddr initret c.words.length dummy := by
    rw [← hwords]
    exact wordsAt_congr fun j hj _ => hstays j (Or.inr hj)
  have hsearch : searchDummy strs dummy 14 (saddr - 56) = some (saddr - 56 + 4 * 13) := by
    apply searchDummy_stack hstack
    intro w hw
    simp only [List.mem_cons, List.not_mem_nil, or_false] at hw
    omega
  have hr : r = (OK, store32 strs (saddr - 56 + 4 * 13) argloc) := by
    have hadd : r = (OK, store32 strs (start.2 + 4 * 13) argloc) :=
      addargs_eq hpos hptr halign hlow rfl (by rw [hptr]; exact hsearch)
    rw [hadd, hptr]
  rw [hr]
  have hsame : ∀ j, j < saddr - 4 ∨ saddr ≤ j → store32 strs (saddr - 56 + 4 * 13) argloc j = strs j :=
    fun j hj => store32_of_ne (by omega)
  refine ⟨rfl, ?_, ⟨(List.range c.words.length).map fun i =>
    argloc + 4 * (c.words.length + 1) + s.tok.getD i 0, ?_, ?_⟩, fun j hj => ?_⟩
  · rw [hptr]
    calc wordsAt (store32 strs (saddr - 56 + 4 * 13) argloc) (saddr - 56) 15
        = (wordsAt strs (saddr - 56) 15).set 13 argloc := wordsAt_store32 (by omega) (by decide)
      _ = (stackWords saddr funcaddr initret c.words.length dummy).set 13 argloc := by rw [hstack]
      _ = stackWords saddr funcaddr initret c.words.length argloc := rfl
  · -- The vector is below the strings and the end of the stack.
    have hlt : ∀ w ∈ argWords argloc c.words.length s.tok, w < 2 ^ 32 := by
      intro w hw
      rcases List.mem_append.mp hw with hw | hw
      · obtain ⟨i, hi, rfl⟩ := List.mem_map.mp hw
        have hroom' : s.tok.getD i 0 + _ < _ := word_room (List.mem_range.mp hi)
        omega
      · rw [List.mem_singleton.mp hw]
        decide
    calc wordsAt (store32 strs (saddr - 56 + 4 * 13) argloc) argloc (c.words.length + 1)
        = wordsAt vec argloc (c.words.length + 1) :=
          wordsAt_congr fun j hj hlt => (hsame j (by omega)).trans (put_of_lt _ (by omega))
      _ = argWords argloc c.words.length s.tok := by
          rw [← hvec]
          exact wordsAt_storeWords hlt
  · refine List.forall₂_iff_get.mpr ⟨by rw [List.length_map, List.length_range], fun i hi hi' => ?_⟩
    obtain ⟨us, vs, hsplit, hplace⟩ := word_place hi'
    have hok : c.words[i].Ok := words_ok hts htokens (List.getElem_mem hi')
    have hstring := token_string vec (argloc + 4 * (c.words.length + 1)) us vs hok
    rw [← hsplit, ← hplace] at hstring
    have hend : s.tok.getD i 0 + c.words[i].value.length < (tokenBuffer c.words).length := word_room hi'
    have hget : ((List.range c.words.length).map fun i =>
        argloc + 4 * (c.words.length + 1) + s.tok.getD i 0).get ⟨i, hi⟩ =
        argloc + 4 * (c.words.length + 1) + s.tok.getD i 0 := by
      rw [List.get_eq_getElem, List.getElem_map, List.getElem_range]
    rw [hget]
    show StringAt _ _ c.words[i].value
    exact stringAt_congr (fun j hj hle => hsame j (by omega)) hstring
  · calc store32 strs (saddr - 56 + 4 * 13) argloc j
        = strs j := hsame j (by omega)
      _ = start.1 j := hstays j (by omega)
      _ = mem j := hother j (by omega)

/-- The command of the line `cat 'a b' < c &`. -/
def catCommand : ShellCommand :=
  ⟨[.word [99, 97, 116], .quoted SH_SQUOTE [97, 32, 98]], [(true, .word [99])], true⟩

/-- Its stack. -/
theorem command_args_cat :
    let start := createStack (fun _ => 0) 0xFFFFFC 0x110000 0x120000 [2, 0xF00000]
    let s := (lexedTokens catCommand.tokens).stored
    let r := addargs start.1 ⟨0xFFFFFC, SHELL_CMDSTK, start.2⟩
      catCommand.parsed.ntok s.tok catCommand.parsed.tlen s.tokbuf 0xF00000
    let argloc := 0xFFFFFC + 4 - SHELL_CMDSTK
    r.1 = OK ∧ wordsAt r.2 start.2 15 = stackWords 0xFFFFFC 0x110000 0x120000 2 argloc ∧
      (∃ argv, wordsAt r.2 argloc 3 = argv ++ [0] ∧
        List.Forall₂ (fun a t => StringAt r.2 a t.value) argv catCommand.words) ∧
      (∀ j, j < argloc ∨ 0xFFFFFC + 4 ≤ j → r.2 j = 0) :=
  command_args (fun _ => 0) 0xFFFFFC 0x110000 0x120000 0xF00000 catTokens catCommand catTokens_spaced
    (by decide) (by decide)
    { name := List.cons_ne_nil _ _
      words := by
        intro t ht
        rcases List.mem_pair.mp ht with rfl | rfl <;> rfl
      files := by
        intro r hr
        rw [List.mem_singleton.mp hr]
        rfl
      once := List.nodup_singleton _ }
    rfl (by decide) (by decide) (by decide) (by decide) (by decide)
      (by decide) (by decide) (by decide) (by decide)

end Xinu
