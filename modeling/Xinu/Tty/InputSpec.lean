import Xinu.Tty.Input
import Mathlib.Data.List.Chain

/-!
# The edited stream

What the input half of a terminal is for: `Edited` holds the characters that readers are to get and
the line that is being edited, and `TtyModes.fate` says what an arriving character does to them. In
every run in which no character arrives for which the ring has no cell, no `EOF` character arrives
at the last cell, and no reader finds the character that looks like `EOF`, the ring holds what has
been edited and not yet read (`input_ok`).
-/

namespace Xinu

/-- What becomes of a character that arrives. -/
inductive Fate where
  /-- It is dropped, or is for the output. -/
  | dropped
  /-- It is available, with the line before it. -/
  | made
  /-- It is available as the end of file. -/
  | eof
  /-- It is the next one of the line. -/
  | inserted
  /-- It takes the last character from the line. -/
  | erased
  /-- It takes all characters from the line. -/
  | killed
  deriving DecidableEq

/-- The fate of a character, when `avail` characters are available and the line has `cursor` characters. -/
def TtyModes.fate (m : TtyModes) (avail : ℤ) (cursor : ℕ) (ch : Ch) : Fate :=
  if m.tyimode = .raw then if avail < TY_IBUFLEN then .made else .dropped
  else if m.tyoflow ∧ (m.mapped ch = m.tyostart ∨ m.mapped ch = m.tyostop) then .dropped
  else if m.tyimode = .cbreak then if avail < TY_IBUFLEN then .made else .dropped
  else if m.mapped ch = m.tyikillc ∧ m.tyikill then .killed
  else if (m.mapped ch = m.tyierasec ∨ m.mapped ch = m.tyierasec2) ∧ m.tyierase then .erased
  else if m.mapped ch = TY_NEWLINE ∨ m.mapped ch = TY_RETURN then .made
  else if avail + cursor ≥ TY_IBUFLEN - 1 then .dropped
  else if m.mapped ch = m.tyeofch ∧ m.tyeof then if cursor = 0 then .eof else .dropped
  else .inserted

/-- The character that goes into the buffer. -/
def TtyModes.stored (m : TtyModes) (ch : Ch) : Ch := if m.tyimode = .raw then ch else m.mapped ch

/-- The stream that readers are to get, and the line that is being edited. -/
structure Edited where
  /-- What readers are to get. -/
  stream : List Ch
  /-- The line that is being edited. -/
  line : List Ch

namespace Edited

/-- A character of some fate arrives. -/
def arrive (g : Edited) (ch : Ch) : Fate → Edited
  | .dropped => g
  | .made | .eof => ⟨g.stream ++ g.line ++ [ch], []⟩
  | .inserted => ⟨g.stream, g.line ++ [ch]⟩
  | .erased => ⟨g.stream, g.line.dropLast⟩
  | .killed => ⟨g.stream, []⟩

/-- The stream after a step of the terminal. -/
def after (g : Edited) (s : TtyIn) : InEvent → Edited
  | .ttyhandle_in ch => g.arrive (s.stored ch) (s.fate s.avail s.tyicursor ch)
  | _ => g

end Edited

/-- A run from one state to another, with steps that meet a condition, and what has been edited. -/
inductive InRun (C : TtyIn → InEvent → Prop) (s₀ : TtyIn) : TtyIn → Edited → Prop where
  | start : InRun C s₀ s₀ ⟨[], []⟩
  | step {s s' : TtyIn} {g : Edited} {e : InEvent} (hr : InRun C s₀ s g)
    (hC : C s e) (he : s.exec e = some s') :
      InRun C s₀ s' (g.after s e)

/-- The characters that a reply stands for: an `EOF` stands for the end-of-file character. -/
def Reply.heard (m : TtyModes) : Reply → List Ch
  | .char v => if v = EOF then [m.tyeofch] else [Int8.ofInt v]
  | .read v buff => if v = EOF then [m.tyeofch] else buff

/-- A reply is the end of file. -/
def Reply.IsEof : Reply → Prop
  | .char v | .read v _ => v = EOF

/-- The characters that a call has got already. -/
def Reader.buff : Reader → List Ch
  | .getc | .first _ => []
  | .chars _ buff | .line _ buff => buff

/-- The law of the input ring. -/
structure InputLaw (s : TtyIn) (g : Edited) : Prop where
  /-- The head is a cell of the ring. -/
  head_lt : s.tyihead < TY_IBUFLEN
  /-- The tail is a cell of the ring. -/
  tail_lt : s.tyitail < TY_IBUFLEN
  /-- From head to tail are the characters that are available, those promised to a woken reader, and
  those of the line. -/
  ring : ∃ n : ℕ, n ≤ TY_IBUFLEN ∧ (n : ℤ) = max 0 s.tyisem.count + s.tyisem.woken.length + s.tyicursor ∧
    s.tyitail = (s.tyihead + n) % TY_IBUFLEN ∧
    s.taken ++ Ring.window s.tyibuff TY_IBUFLEN s.tyihead n = g.stream ++ g.line
  /-- The cursor is the length of the line. -/
  line : g.line.length = s.tyicursor
  /-- The replies of the calls, and what the present one has got, are the characters taken. -/
  heard : s.replies.flatMap (Reply.heard s.toTtyModes) ++ s.tyisem.blocked.flatMap Reader.buff = s.taken
  /-- `EOF` is an end-of-file character that has arrived. -/
  eof : ∀ r ∈ s.replies, r.IsEof → s.tyimode = .cooked ∧ s.tyeof ∧ s.tyeofch ∈ s.taken

namespace TtyIn

variable {s s' : TtyIn} {g : Edited} {m : TtyModes} {ch : Ch}

/-- What a character of some fate does to the ring. -/
def settle (s : TtyIn) (ch : Ch) : Fate → TtyIn
  | .dropped => s
  | .made => { s.putWrap ch with tyisem := s.tyisem.signaln (s.tyicursor + 1), tyicursor := 0 }
  | .eof => { s.put ch with tyisem := s.tyisem.signal }
  | .inserted => { s.putWrap ch with tyicursor := s.tyicursor + 1 }
  | .erased =>
    { s with tyitail := Ring.back TY_IBUFLEN s.tyitail (min 1 s.tyicursor), tyicursor := s.tyicursor - 1 }
  | .killed => { s with tyitail := Ring.back TY_IBUFLEN s.tyitail s.tyicursor, tyicursor := 0 }

/-- The echo of a character goes into the echo queue. -/
theorem echo_eq (s : TtyIn) (ch : Ch) : ∃ e, s.echo ch = { s with toTtyEcho := e } := by
  unfold echo
  split_ifs
  · exact ⟨_, rfl⟩
  · exact ⟨s.toTtyEcho, rfl⟩

/-- `erase1` moves the tail back and puts something in the echo queue. -/
theorem erase1_eq (s : TtyIn) :
    ∃ e, s.erase1 = { s with toTtyEcho := e, tyitail := Ring.back TY_IBUFLEN s.tyitail 1 } := by
  unfold erase1
  dsimp only
  split_ifs
  · exact ⟨_, rfl⟩
  · exact ⟨s.toTtyEcho, rfl⟩

/-- Without a line, a character is available alone. -/
theorem made_eq (hc : s.tyicursor = 0) :
    { s.putWrap ch with tyisem := s.tyisem.signal } = s.settle ch .made := by
  obtain ⟨echo, modes, head, tail, buff, sem, cursor, taken, replies⟩ := s
  change cursor = 0 at hc
  subst hc
  rfl

/-- In raw mode a character is available or dropped. -/
theorem inRaw_eq (hm : s.tyimode = .raw) (hc : s.tyicursor = 0) :
    s.inRaw ch = s.settle ch (s.fate s.avail s.tyicursor ch) := by
  unfold inRaw TtyModes.fate
  rw [if_pos hm]
  by_cases hfull : s.avail ≥ TY_IBUFLEN
  · rw [if_pos hfull, if_neg (not_lt.mpr hfull)]
    rfl
  · rw [if_neg hfull, if_pos (not_le.mp hfull)]
    exact made_eq hc

/-- In cbreak mode a character is available or dropped, with an echo. -/
theorem inCbreak_eq (ch : Ch) (hc : s.tyicursor = 0) :
    ∃ e, s.inCbreak ch = { s with toTtyEcho := e }.settle ch
    (if s.avail < TY_IBUFLEN then .made else .dropped) := by
  unfold inCbreak
  by_cases hfull : s.avail ≥ TY_IBUFLEN
  · rw [if_pos hfull, if_neg (not_lt.mpr hfull)]
    exact ⟨_, rfl⟩
  · rw [if_neg hfull, if_pos (not_le.mp hfull)]
    obtain ⟨e, he⟩ := echo_eq (s.putWrap ch) ch
    refine ⟨e, ?_⟩
    rw [he]
    exact made_eq (s := { s with toTtyEcho := e }) hc

/-- In cooked mode a character has the fate that the modes give it, with an echo. -/
theorem inCooked_eq (hraw : s.tyimode ≠ .raw) (hcb : s.tyimode ≠ .cbreak)
    (hflow : ¬ (s.tyoflow ∧ (s.mapped ch = s.tyostart ∨ s.mapped ch = s.tyostop))) :
    ∃ e, s.inCooked (s.mapped ch) = { s with toTtyEcho := e }.settle (s.mapped ch)
    (s.fate s.avail s.tyicursor ch) := by
  unfold inCooked TtyModes.fate
  rw [if_neg hraw, if_neg hflow, if_neg hcb]
  generalize s.mapped ch = ch
  by_cases hkill : ch = s.tyikillc ∧ s.tyikill
  · rw [if_pos hkill, if_pos hkill]
    exact ⟨_, rfl⟩
  rw [if_neg hkill, if_neg hkill]
  by_cases herase : (ch = s.tyierasec ∨ ch = s.tyierasec2) ∧ s.tyierase
  · rw [if_pos herase, if_pos herase]
    by_cases hpos : s.tyicursor > 0
    · rw [if_pos hpos]
      obtain ⟨e, he⟩ := erase1_eq { s with tyicursor := s.tyicursor - 1 }
      refine ⟨e, ?_⟩
      rw [he]
      dsimp only [settle]
      rw [Nat.min_eq_left hpos]
    · rw [if_neg hpos]
      -- there is nothing to erase
      have hzero : s.tyicursor = 0 := by omega
      refine ⟨s.toTtyEcho, ?_⟩
      obtain ⟨echo, modes, head, tail, buff, sem, cursor, taken, replies⟩ := s
      change cursor = 0 at hzero
      subst hzero
      rfl
  rw [if_neg herase, if_neg herase]
  by_cases hnl : ch = TY_NEWLINE ∨ ch = TY_RETURN
  · rw [if_pos hnl, if_pos hnl]
    obtain ⟨e, he⟩ := echo_eq s ch
    refine ⟨e, ?_⟩
    rw [he]
    rfl
  rw [if_neg hnl, if_neg hnl]
  by_cases hfull : s.avail + s.tyicursor ≥ TY_IBUFLEN - 1
  · rw [if_pos hfull, if_pos hfull]
    exact ⟨_, rfl⟩
  rw [if_neg hfull, if_neg hfull]
  obtain ⟨e, he⟩ := echo_eq s ch
  refine ⟨e, ?_⟩
  by_cases heof : ch = s.tyeofch ∧ s.tyeof
  · rw [if_pos heof, if_pos heof, he]
    by_cases hzero : s.tyicursor = 0
    · rw [if_pos hzero, if_neg (not_not.mpr hzero)]
      rfl
    · rw [if_neg hzero, if_pos hzero]
      rfl
  · rw [if_neg heof, if_neg heof, he]
    rfl

/-- A character has the fate that the modes give it, apart from the echo and the held output. -/
theorem ttyhandle_in_eq (hc : s.tyimode ≠ .cooked → s.tyicursor = 0) (ch : Ch) :
    ∃ e, s.ttyhandle_in ch = { s with toTtyEcho := e }.settle (s.stored ch)
    (s.fate s.avail s.tyicursor ch) := by
  unfold ttyhandle_in TtyModes.stored
  -- In raw mode no character is special.
  by_cases hraw : s.tyimode = .raw
  · rw [if_pos hraw, if_pos hraw, inRaw_eq hraw (hc (by simp [hraw]))]
    exact ⟨s.toTtyEcho, rfl⟩
  rw [if_neg hraw, if_neg hraw]
  dsimp only
  -- The two characters of the flow control only change whether the output is held.
  by_cases hstart : s.tyoflow ∧ s.mapped ch = s.tyostart
  · rw [if_pos hstart]
    refine ⟨{ s.toTtyEcho with tyoheld := false }, ?_⟩
    unfold TtyModes.fate
    rw [if_neg hraw, if_pos ⟨hstart.1, .inl hstart.2⟩]
    rfl
  rw [if_neg hstart]
  by_cases hstop : s.tyoflow ∧ s.mapped ch = s.tyostop
  · rw [if_pos hstop]
    refine ⟨{ s.toTtyEcho with tyoheld := true }, ?_⟩
    unfold TtyModes.fate
    rw [if_neg hraw, if_pos ⟨hstop.1, .inr hstop.2⟩]
    rfl
  rw [if_neg hstop]
  -- The other characters go to the mode that is set.
  have hflow : ¬ (s.tyoflow ∧ (s.mapped ch = s.tyostart ∨ s.mapped ch = s.tyostop)) := by
    rintro ⟨ho, h | h⟩
    · exact hstart ⟨ho, h⟩
    · exact hstop ⟨ho, h⟩
  by_cases hcb : s.tyimode = .cbreak
  · rw [if_pos hcb]
    obtain ⟨e, he⟩ := inCbreak_eq (s := { s with tyoheld := false }) (s.mapped ch) (hc (by simp [hcb]))
    refine ⟨e, ?_⟩
    unfold TtyModes.fate
    rw [he, if_neg hraw, if_neg hflow, if_pos hcb]
    rfl
  · rw [if_neg hcb]
    exact inCooked_eq (s := { s with tyoheld := false }) hraw hcb hflow

end TtyIn

/-- A character that can stand before the end of file. -/
def TtyModes.Ends (m : TtyModes) (ch : Ch) : Prop := ch = TY_NEWLINE ∨ ch = TY_RETURN ∨ ch = m.tyeofch

/-- An end of file comes alone, as a line of its own. -/
structure EofsAlone (m : TtyModes) (g : Edited) : Prop where
  /-- Before an end-of-file character, a line has ended. -/
  chain : List.IsChain (fun a b => b = m.tyeofch → m.Ends a) (g.stream ++ g.line)
  /-- The stream ends with a line. -/
  ends : ∀ a ∈ g.stream.getLast?, m.Ends a

namespace EofsAlone

variable {m : TtyModes} {g : Edited} {ch : Ch} {k : ℕ}

/-- A line or an end of file is available. -/
theorem made (h : EofsAlone m g) (hch : m.Ends ch) (hline : ch = m.tyeofch → g.line = []) :
    EofsAlone m ⟨g.stream ++ g.line ++ [ch], []⟩ where
  chain := by
    rw [List.append_nil, List.isChain_append]
    refine ⟨h.chain, List.isChain_singleton ch, fun a ha b hb he => ?_⟩
    obtain rfl : ch = b := Option.some.inj hb
    rw [hline he, List.append_nil] at ha
    exact h.ends a ha
  ends a ha := by
    rw [List.getLast?_append_of_ne_nil _ (by simp)] at ha
    exact Option.some.inj ha ▸ hch

/-- A character that is put in the line stands behind the others, and is not the end of file. -/
theorem inserted (h : EofsAlone m g) (hch : ch ≠ m.tyeofch) : EofsAlone m ⟨g.stream, g.line ++ [ch]⟩ where
  chain := by
    rw [← List.append_assoc, List.isChain_append]
    exact ⟨h.chain, List.isChain_singleton ch, fun a _ b hb he => absurd ((Option.some.inj hb).trans he) hch⟩
  ends := h.ends

/-- A line that is cut keeps the marks of the end of file in order. -/
theorem take (h : EofsAlone m g) : EofsAlone m ⟨g.stream, g.line.take k⟩ where
  chain := h.chain.prefix ((List.prefix_append_right_inj _).mpr (List.take_prefix _ _))
  ends := h.ends

end EofsAlone

/-- The call takes a character that it looks at: the only one, or the first one of a line. -/
def Reader.AtFirst : Reader → Prop
  | .getc | .first _ => True
  | .chars _ _ | .line _ _ => False

/-- What is known of a call: the loops of `ttyread` are in their modes, and the last character that
is there does not end the line. -/
def Reader.Ok (m : TtyModes) : Reader → Prop
  | .getc => True
  | .chars _ _ => m.tyimode ≠ .cooked
  | .first _ => m.tyimode = .cooked
  | .line _ buff => m.tyimode = .cooked ∧ ∃ a ∈ buff.getLast?, ¬ m.Ends a

/-- End-of-file recognition is on, and its character does not end a line. -/
structure TtyModes.Standard (m : TtyModes) : Prop where
  /-- The end-of-file character is honored. -/
  eof : m.tyeof = true
  /-- It is not a newline. -/
  ne_newline : m.tyeofch ≠ TY_NEWLINE
  /-- It is not a carriage return. -/
  ne_return : m.tyeofch ≠ TY_RETURN

/-- What `ttygetc` returns for a character. -/
def TtyModes.value (m : TtyModes) (ch : Ch) : ℤ :=
  if m.tyimode = .cooked ∧ m.tyeof ∧ ch = m.tyeofch then EOF else ch.toInt

section

variable {m : TtyModes} {r r' : Reader} {w : Reply} {ch : Ch} {count : ℤ} {buff : List Ch}

/-- An ordinary character comes as it is. -/
theorem TtyModes.value_of_ne (h : m.tyimode = .cooked → ch ≠ m.tyeofch) : m.value ch = ch.toInt :=
  if_neg fun hc => h hc.1 hc.2.2

/-- Only one character looks like the end of file. -/
theorem TtyModes.value_eof (hch : ch ≠ -2) (hv : m.value ch = EOF) :
    m.tyimode = .cooked ∧ m.tyeof ∧ ch = m.tyeofch := by
  unfold value at hv
  by_cases hc : m.tyimode = .cooked ∧ m.tyeof ∧ ch = m.tyeofch
  · exact hc
  · rw [if_neg hc] at hv
    exact absurd (Int8.toInt_inj.mp (hv : ch.toInt = (-2 : Ch).toInt)) hch

/-- A number of characters is no end of file. -/
theorem Reply.heard_read : (Reply.read buff.length buff).heard m = buff := by
  have hne : (buff.length : ℤ) ≠ EOF := by
    unfold EOF
    omega
  change (if (buff.length : ℤ) = EOF then [m.tyeofch] else buff) = buff
  rw [if_neg hne]

/-- The loop over a line ends with the characters that are there, or goes on after one that ends no line. -/
theorem Reader.more_spec (hm : m.tyimode = .cooked) (hch : ch ≠ m.tyeofch) :
    (∀ w, Reader.more count (buff ++ [ch]) ch = .inl w → w.heard m = buff ++ [ch] ∧ ¬ w.IsEof) ∧
    (∀ r', Reader.more count (buff ++ [ch]) ch = .inr r' → r'.buff = buff ++ [ch] ∧
      r'.Ok m ∧ ¬ r'.AtFirst) := by
  unfold Reader.more
  by_cases hmore : (buff ++ [ch]).length < count ∧ ch ≠ TY_NEWLINE ∧ ch ≠ TY_RETURN
  · rw [if_pos hmore]
    refine ⟨nofun, fun r' hr => ?_⟩
    obtain rfl := Sum.inr.inj hr
    refine ⟨rfl, ⟨hm, ch, by simp, ?_⟩, id⟩
    rintro (h | h | h)
    · exact hmore.2.1 h
    · exact hmore.2.2 h
    · exact hch h
  · rw [if_neg hmore]
    refine ⟨fun w hw => ?_, nofun⟩
    obtain rfl := Sum.inl.inj hw
    refine ⟨Reply.heard_read, ?_⟩
    unfold Reply.IsEof EOF
    omega

/-- A call that takes one more character returns with all of them, or keeps them. -/
theorem Reader.got_spec (hm : m.Standard) (hr : r.Ok m) (hfirst : r.AtFirst → ch ≠ -2)
    (hline : m.tyimode = .cooked → ch = m.tyeofch → ∀ a ∈ r.buff.getLast?, m.Ends a) :
    (∀ w, r.got (m.value ch) = .inl w → w.heard m = r.buff ++ [ch] ∧
      (w.IsEof → m.tyimode = .cooked ∧ m.tyeof ∧ ch = m.tyeofch)) ∧
    (∀ r', r.got (m.value ch) = .inr r' → r'.buff = r.buff ++ [ch] ∧ r'.Ok m ∧ ¬ r'.AtFirst) := by
  cases r with
  -- `getc` returns the character, or the end of the file.
  | getc =>
    refine ⟨fun w hw => ?_, nofun⟩
    obtain rfl := Sum.inl.inj hw
    change (if m.value ch = EOF then [m.tyeofch] else [Int8.ofInt (m.value ch)]) = [ch] ∧
      (m.value ch = EOF → _)
    by_cases hv : m.value ch = EOF
    · obtain ⟨hc, he, rfl⟩ := TtyModes.value_eof (hfirst trivial) hv
      rw [if_pos hv]
      exact ⟨rfl, fun _ => ⟨hc, he, rfl⟩⟩
    · rw [if_neg hv, TtyModes.value_of_ne fun hc h => hv (if_pos ⟨hc, hm.eof, h⟩), Int8.ofInt_toInt]
      refine ⟨rfl, fun h => ?_⟩
      rw [TtyModes.value_of_ne fun hc h => hv (if_pos ⟨hc, hm.eof, h⟩)] at hv
      exact absurd h hv
  -- `read` in the raw modes returns when it has all its characters.
  | chars count buff =>
    have hgot : (Reader.chars count buff).got (m.value ch) = if (buff ++ [ch]).length < count then
        .inr (.chars count (buff ++ [ch]))
        else .inl (.read (buff ++ [ch]).length (buff ++ [ch])) := by
      rw [TtyModes.value_of_ne fun hc => absurd hc hr]
      simp only [Reader.got, Int8.ofInt_toInt]
    rw [hgot]
    by_cases hmore : (buff ++ [ch]).length < count
    · rw [if_pos hmore]
      refine ⟨nofun, fun r' h => ?_⟩
      obtain rfl := Sum.inr.inj h
      exact ⟨rfl, hr, id⟩
    · rw [if_neg hmore]
      refine ⟨fun w hw => ?_, nofun⟩
      obtain rfl := Sum.inl.inj hw
      refine ⟨Reply.heard_read, fun h => ?_⟩
      unfold Reply.IsEof EOF at h
      omega
  -- The first character of a line can be the end of the file.
  | first count =>
    simp only [Reader.got]
    by_cases hv : m.value ch = EOF
    · obtain ⟨hc, he, rfl⟩ := TtyModes.value_eof (hfirst trivial) hv
      rw [if_pos hv]
      refine ⟨fun w hw => ?_, nofun⟩
      obtain rfl := Sum.inl.inj hw
      exact ⟨rfl, fun _ => ⟨hc, he, rfl⟩⟩
    · have hne : ch ≠ m.tyeofch := fun h => hv (if_pos ⟨hr, hm.eof, h⟩)
      rw [if_neg hv, TtyModes.value_of_ne fun _ => hne, Int8.ofInt_toInt]
      obtain ⟨h₁, h₂⟩ := Reader.more_spec hr hne
      exact ⟨fun w hw => ⟨(h₁ w hw).1, fun h => absurd h (h₁ w hw).2⟩, h₂⟩
  -- The others cannot: a line ends before it.
  | line count buff =>
    obtain ⟨hc, a, ha, hends⟩ := hr
    have hne : ch ≠ m.tyeofch := fun h => hends (hline hc h a ha)
    simp only [Reader.got, TtyModes.value_of_ne fun _ => hne, Int8.ofInt_toInt]
    obtain ⟨h₁, h₂⟩ := Reader.more_spec hc hne
    exact ⟨fun w hw => ⟨(h₁ w hw).1, fun h => absurd h (h₁ w hw).2⟩, h₂⟩

end

section

variable {m : TtyModes} {avail : ℤ} {cursor : ℕ} {ch : Ch}

/-- A character that becomes available in cooked mode ends a line. -/
theorem TtyModes.fate_made (hc : m.tyimode = .cooked) (hf : m.fate avail cursor ch = .made) :
    m.stored ch = TY_NEWLINE ∨ m.stored ch = TY_RETURN := by
  unfold fate at hf
  unfold stored
  rw [if_neg (by simp [hc] : m.tyimode ≠ .raw)] at hf ⊢
  split_ifs at hf with h₁ h₂ h₃ h₄ h₅ h₆ h₇
  · cases hc.symm.trans h₂
  · assumption

/-- The end of file comes at the start of a line. -/
theorem TtyModes.fate_eof (hf : m.fate avail cursor ch = .eof) :
    m.tyimode = .cooked ∧ cursor = 0 ∧ m.stored ch = m.tyeofch ∧ avail + cursor < TY_IBUFLEN - 1 := by
  unfold fate at hf
  unfold stored
  by_cases hraw : m.tyimode = .raw
  · rw [if_pos hraw] at hf
    split_ifs at hf
  rw [if_neg hraw] at hf ⊢
  split_ifs at hf with h₁ h₂ h₃ h₄ h₅ h₆ h₇ h₈ h₉
  refine ⟨?_, h₉, h₈.1, not_le.mp h₇⟩
  cases hm : m.tyimode with
  | raw => exact absurd hm hraw
  | cbreak => exact absurd hm h₂
  | cooked => rfl

/-- A character goes into the line if there is room for it and for the end of the line. -/
theorem TtyModes.fate_inserted (hf : m.fate avail cursor ch = .inserted) :
    m.tyimode = .cooked ∧ ¬ (m.stored ch = m.tyeofch ∧ m.tyeof) ∧ avail + cursor < TY_IBUFLEN - 1 := by
  unfold fate at hf
  unfold stored
  by_cases hraw : m.tyimode = .raw
  · rw [if_pos hraw] at hf
    split_ifs at hf
  rw [if_neg hraw] at hf ⊢
  split_ifs at hf with h₁ h₂ h₃ h₄ h₅ h₆ h₇ h₈ h₉
  refine ⟨?_, h₈, not_le.mp h₇⟩
  cases hm : m.tyimode with
  | raw => exact absurd hm hraw
  | cbreak => exact absurd hm h₂
  | cooked => rfl

end

/-- The invariant of the input ring, for the reader that is in a call, if there is one. -/
structure InputOk (m : TtyModes) (s : TtyIn) (g : Edited) (rs : List Reader) : Prop where
  /-- The modes stay what they are. -/
  modes : s.toTtyModes = m
  /-- The count of the semaphore agrees with its waiting readers. -/
  sem : s.tyisem.Ok
  /-- The head is a cell of the ring. -/
  head_lt : s.tyihead < TY_IBUFLEN
  /-- The cursor is the length of the line. -/
  line : g.line.length = s.tyicursor
  /-- Only cooked mode edits a line. -/
  lineless : m.tyimode ≠ .cooked → g.line = []
  /-- The line is shorter than the ring. -/
  short : s.tyicursor < TY_IBUFLEN
  /-- From head to tail are the characters with a permit, and the line. -/
  ring : ∃ n : ℕ, s.tyisem.unused + s.tyicursor = n ∧ n ≤ TY_IBUFLEN ∧
    s.tyitail = (s.tyihead + n) % TY_IBUFLEN ∧
    s.taken ++ Ring.window s.tyibuff TY_IBUFLEN s.tyihead n = g.stream ++ g.line
  /-- An end of file comes alone. -/
  eofs : m.tyimode = .cooked → EofsAlone m g
  /-- The readers in calls have what they have taken. -/
  readers : ∀ r ∈ rs, r.Ok m
  /-- There is one at most. -/
  one : rs.length ≤ 1
  /-- The replies, and what readers have got so far, are the characters taken. -/
  heard : s.replies.flatMap (Reply.heard m) ++ rs.flatMap Reader.buff = s.taken
  /-- `EOF` is an end-of-file character that has arrived. -/
  eof : ∀ w ∈ s.replies, w.IsEof → m.tyimode = .cooked ∧ m.tyeof ∧ m.tyeofch ∈ s.taken

/-- The steps that the ring survives: a character goes only into a free cell of it, the end of file
not into the last one, and a reader does not find a character that looks like `EOF`. -/
def InputRoom (s : TtyIn) : InEvent → Prop
  | .ttyhandle_in ch =>
    (s.fate s.avail s.tyicursor ch = .made → s.avail + s.tyisem.woken.length + s.tyicursor < TY_IBUFLEN) ∧
    (s.fate s.avail s.tyicursor ch = .eof → s.tyitail + 1 < TY_IBUFLEN)
  | .ttygetc => 0 < s.tyisem.count → s.tyibuff s.tyihead ≠ -2
  | .ttyread _ => s.tyimode = .cooked → 0 < s.tyisem.count → s.tyibuff s.tyihead ≠ -2
  | .resume => ∀ r ∈ s.tyisem.woken, r.AtFirst → s.tyibuff s.tyihead ≠ -2

/-- The characters available, as the code counts them. -/
theorem TtyIn.avail_eq (s : TtyIn) : s.avail = max 0 s.tyisem.count := by
  unfold avail
  split_ifs <;> omega

namespace InputOk

variable {m : TtyModes} {s s' : TtyIn} {g : Edited} {rs : List Reader} {r : Reader} {ch : Ch} {e : TtyEcho}

/-- After `ttyinit` the ring is empty, and the invariant holds. -/
theorem ttyinit (mode : Imode) (echo : Bool) :
    InputOk { TtyModes.ttyinit with tyimode := mode, tyiecho := echo } (.ttyinit mode echo) ⟨[], []⟩ [] where
  modes := rfl
  sem := Semaphore.Ok.create le_rfl
  head_lt := (by decide : 0 < TY_IBUFLEN)
  line := rfl
  lineless _ := rfl
  short := (by decide : 0 < TY_IBUFLEN)
  ring := ⟨0, by simp [TtyIn.ttyinit], Nat.zero_le _, rfl, rfl⟩
  eofs _ := ⟨List.isChain_nil, nofun⟩
  readers := nofun
  one := Nat.zero_le _
  heard := rfl
  eof := nofun

/-- The invariant has the law of the ring in it. -/
theorem law (h : InputOk m s g s.tyisem.blocked) : InputLaw s g where
  head_lt := h.head_lt
  tail_lt := by
    obtain ⟨n, -, -, ht, -⟩ := h.ring
    exact ht ▸ Nat.mod_lt _ (by decide)
  ring := by
    obtain ⟨n, hn, hle, ht, hw⟩ := h.ring
    exact ⟨n, hle, by rw [← hn, h.sem.unused_eq], ht, hw⟩
  line := h.line
  heard := h.modes ▸ h.heard
  eof := h.modes ▸ h.eof

/-- What is echoed does not matter to the invariant of the input. -/
theorem setEcho (h : InputOk m s g rs) (e : TtyEcho) : InputOk m { s with toTtyEcho := e } g rs := { h with }

/-- A semaphore with as many unused permits does as well. -/
theorem setSem (h : InputOk m s g rs) {sem : Semaphore Reader}
    (hs : sem.Ok) (hu : sem.unused = s.tyisem.unused) :
    InputOk m { s with tyisem := sem } g rs :=
  { h with
    sem := hs
    ring := hu ▸ h.ring }

/-- A character is available, and the line before it. -/
theorem made (h : InputOk m s g rs) (hroom : s.tyisem.unused + s.tyicursor < TY_IBUFLEN)
    (hends : m.tyimode = .cooked → m.Ends ch ∧ (ch = m.tyeofch → g.line = [])) :
    InputOk m (s.settle ch .made) (g.arrive ch .made) rs := by
  obtain ⟨n, hn, hle, ht, hw⟩ := h.ring
  refine ⟨h.modes, h.sem.signaln, h.head_lt, rfl, fun _ => rfl,
    (by decide : 0 < TY_IBUFLEN), ⟨n + 1, ?_, by omega, ?_, ?_⟩,
    fun hc => (h.eofs hc).made (hends hc).1 (hends hc).2, h.readers, h.one, h.heard, h.eof⟩
  · dsimp only [TtyIn.settle]
    rw [h.sem.unused_signaln]
    omega
  · dsimp only [TtyIn.settle, TtyIn.putWrap]
    rw [ht, Ring.bump_tail (by decide)]
  · dsimp only [TtyIn.settle, TtyIn.putWrap, Edited.arrive]
    rw [ht, Ring.window_push (by omega), ← List.append_assoc, hw, List.append_nil]

/-- An end of file is available, if it is not at the last cell. -/
theorem settle_eof (hc : s.tyicursor = 0) (ht : s.tyitail + 1 < TY_IBUFLEN) :
    s.settle ch .eof = s.settle ch .made := by
  have hb : Ring.bump TY_IBUFLEN s.tyitail = s.tyitail + 1 := if_neg (by omega)
  obtain ⟨echo, modes, head, tail, buff, sem, cursor, taken, replies⟩ := s
  change cursor = 0 at hc
  subst hc
  dsimp only [TtyIn.settle, TtyIn.put, TtyIn.putWrap]
  rw [hb]
  rfl

/-- A character that is put in the line keeps the invariant, if there is room for it. -/
theorem inserted (h : InputOk m s g rs) (hroom : s.tyisem.unused + s.tyicursor < TY_IBUFLEN)
    (hm : m.tyimode = .cooked)
    (hne : ch ≠ m.tyeofch) (hshort : s.tyicursor + 1 < TY_IBUFLEN) :
    InputOk m (s.settle ch .inserted) (g.arrive ch .inserted) rs := by
  obtain ⟨n, hn, hle, ht, hw⟩ := h.ring
  refine ⟨h.modes, h.sem, h.head_lt, ?_, fun hc => absurd hm hc, hshort, ⟨n + 1, ?_, by omega, ?_, ?_⟩,
    fun hc => (h.eofs hc).inserted hne, h.readers, h.one, h.heard, h.eof⟩
  · dsimp only [TtyIn.settle, Edited.arrive]
    rw [List.length_append, h.line, List.length_singleton]
  · dsimp only [TtyIn.settle, TtyIn.putWrap]
    rw [Int.natCast_succ]
    omega
  · dsimp only [TtyIn.settle, TtyIn.putWrap]
    rw [ht, Ring.bump_tail (by decide)]
  · dsimp only [TtyIn.settle, TtyIn.putWrap, Edited.arrive]
    rw [ht, Ring.window_push (by omega), ← List.append_assoc, hw, List.append_assoc]

/-- Characters that are taken off the end of the line keep the invariant. -/
theorem shrink (h : InputOk m s g rs) {k : ℕ} (hk : k ≤ s.tyicursor) (hlt : k < TY_IBUFLEN) :
    InputOk m { s with tyitail := Ring.back TY_IBUFLEN s.tyitail k, tyicursor := s.tyicursor - k }
      ⟨g.stream, g.line.take (s.tyicursor - k)⟩ rs := by
  obtain ⟨n, hn, hle, ht, hw⟩ := h.ring
  have hu := h.sem.woken_le
  have hlen := congrArg List.length hw
  rw [List.length_append, List.length_append, Ring.length_window, h.line] at hlen
  refine ⟨h.modes, h.sem, h.head_lt, ?_, fun hc => ?_, (Nat.sub_le _ _).trans_lt h.short,
    ⟨n - k, ?_, by omega, ?_, ?_⟩,
    fun hc => (h.eofs hc).take, h.readers, h.one, h.heard, h.eof⟩
  · dsimp only
    rw [List.length_take, h.line]
    omega
  · dsimp only
    rw [h.lineless hc, List.take_nil]
  · dsimp only
    omega
  · dsimp only
    rw [ht, Ring.back_tail (by omega) hlt]
  · -- the window loses the end of the line
    dsimp only
    calc s.taken ++ Ring.window s.tyibuff TY_IBUFLEN s.tyihead (n - k)
        = s.taken ++ (Ring.window s.tyibuff TY_IBUFLEN s.tyihead n).take (n - k) := by
          rw [Ring.take_window (Nat.sub_le _ _)]
      _ = (s.taken ++ Ring.window s.tyibuff TY_IBUFLEN s.tyihead n).take (s.taken.length + (n - k)) := by
        rw [List.take_length_add_append]
      _ = (g.stream ++ g.line).take (g.stream.length + (s.tyicursor - k)) := by rw [hw]; congr 1; omega
      _ = g.stream ++ g.line.take (s.tyicursor - k) := by rw [List.take_length_add_append]

/-- A character arrives for which there is room. -/
theorem settle (h : InputOk m s g s.tyisem.blocked) (hm : m.Standard) (hC : InputRoom s (.ttyhandle_in ch)) :
    InputOk m (s.settle (s.stored ch) (s.fate s.avail s.tyicursor ch))
      (g.arrive (s.stored ch) (s.fate s.avail s.tyicursor ch)) s.tyisem.blocked := by
  obtain rfl := h.modes
  have hu : s.tyisem.unused = s.avail + s.tyisem.woken.length := by rw [h.sem.unused_eq, s.avail_eq]
  have hwoken : s.tyisem.woken.length ≤ 1 := (List.length_append ▸ Nat.le_add_right _ _).trans h.one
  have hN : TY_IBUFLEN = 128 := rfl
  have hshort := h.short
  have havail : 0 ≤ s.avail := s.avail_eq ▸ le_max_left _ _
  obtain ⟨hmade, heof⟩ := hC
  cases hf : s.fate s.avail s.tyicursor ch with
  | dropped => exact h
  | made =>
    refine h.made (hu ▸ hmade hf) fun hc => ?_
    -- in cooked mode it is the end of a line
    rcases TtyModes.fate_made hc hf with hch | hch
    · exact ⟨.inl hch, fun he => absurd (he.symm.trans hch) hm.ne_newline⟩
    · exact ⟨.inr (.inl hch), fun he => absurd (he.symm.trans hch) hm.ne_return⟩
  | eof =>
    obtain ⟨hc, hzero, hch, hroom⟩ := TtyModes.fate_eof hf
    rw [settle_eof hzero (heof hf)]
    exact h.made (by omega) fun _ =>
      ⟨.inr (.inr hch), fun _ => List.eq_nil_of_length_eq_zero (h.line.trans hzero)⟩
  | inserted =>
    obtain ⟨hc, hch, hroom⟩ := TtyModes.fate_inserted hf
    exact h.inserted (by omega) hc (fun he => hch ⟨he, hm.eof⟩) (by omega)
  | erased =>
    have hs := h.shrink (Nat.min_le_right 1 s.tyicursor) (by omega)
    have hcur : s.tyicursor - min 1 s.tyicursor = s.tyicursor - 1 := by omega
    have hline : g.line.take (s.tyicursor - 1) = g.line.dropLast := by rw [List.dropLast_eq_take, h.line]
    rw [hcur, hline] at hs
    exact hs
  | killed =>
    have hs := h.shrink le_rfl hshort
    rw [Nat.sub_self, List.take_zero] at hs
    exact hs

/-- No signal changes which readers are in a call. -/
theorem blocked_settle (h : s.tyisem.Ok) (f : Fate) : (s.settle ch f).tyisem.blocked = s.tyisem.blocked := by
  cases f with
  | made => exact h.blocked_signaln
  | eof => exact h.blocked_signal
  | dropped | inserted | erased | killed => rfl

/-- A character that arrives keeps the invariant, if there is room for it. -/
theorem ttyhandle_in (h : InputOk m s g s.tyisem.blocked)
    (hm : m.Standard) (hC : InputRoom s (.ttyhandle_in ch)) :
    InputOk m (s.ttyhandle_in ch) (g.after s (.ttyhandle_in ch)) (s.ttyhandle_in ch).tyisem.blocked := by
  have hc : s.tyimode ≠ .cooked → s.tyicursor = 0 :=
    fun hc => by rw [← h.line, h.lineless (h.modes ▸ hc), List.length_nil]
  obtain ⟨e, he⟩ := TtyIn.ttyhandle_in_eq hc ch
  rw [he, blocked_settle (s := { s with toTtyEcho := e }) h.sem]
  exact (h.setEcho e).settle hm hC

/-- A reader that has a permit takes a character. Its call returns, or goes on. -/
theorem getc (h : InputOk m s g [r]) (hm : m.Standard) {sem : Semaphore Reader} (hs : sem.Ok)
    (hu : sem.unused = s.tyisem.unused - 1) (hfirst : r.AtFirst → s.tyibuff s.tyihead ≠ -2) :
    (∀ w, r.got (s.getc.1) = .inl w → InputOk m ({ s with tyisem := sem }.getc.2.reply w) g []) ∧
    (∀ r', r.got (s.getc.1) = .inr r' → InputOk m { s with tyisem := sem }.getc.2 g [r'] ∧ ¬ r'.AtFirst) := by
  obtain rfl := h.modes
  obtain ⟨n, hn, hle, ht, hw⟩ := h.ring
  have hpos := hs.woken_le
  obtain ⟨n, rfl⟩ : ∃ k, n = k + 1 := ⟨n - 1, by omega⟩
  rw [Ring.window_pop, Nat.mod_eq_of_lt h.head_lt] at hw
  -- the last character taken stands before this one in the stream
  have hlast : s.tyimode = .cooked → s.tyibuff s.tyihead = s.tyeofch →
      ∀ a ∈ s.taken.getLast?, s.toTtyModes.Ends a := by
    intro hc he a ha
    have hchain := (h.eofs hc).chain
    rw [← hw, List.isChain_append] at hchain
    exact hchain.2.2 a ha _ rfl he
  have hbuff : s.replies.flatMap (Reply.heard s.toTtyModes) ++ r.buff = s.taken := by simpa using h.heard
  have hline : s.tyimode = .cooked → s.tyibuff s.tyihead = s.tyeofch →
      ∀ a ∈ r.buff.getLast?, s.toTtyModes.Ends a := by
    intro hc he a ha
    have hne : r.buff ≠ [] := fun hnil => by simp [hnil] at ha
    exact hlast hc he a (by rwa [← hbuff, List.getLast?_append_of_ne_nil _ hne])
  -- what is left to show of the state after the character
  have hok : ∀ (ws : List Reply) (rs : List Reader), (∀ r ∈ rs, r.Ok s.toTtyModes) → rs.length ≤ 1 →
      ws.flatMap (Reply.heard s.toTtyModes) ++ rs.flatMap Reader.buff = s.taken ++ [s.tyibuff s.tyihead] →
      (∀ w ∈ ws, w.IsEof → s.tyimode = .cooked ∧ s.tyeof ∧ s.tyeofch ∈ s.taken ++ [s.tyibuff s.tyihead]) →
      InputOk s.toTtyModes { { s with tyisem := sem }.getc.2 with replies := ws } g rs := by
    intro ws rs hrs hone hheard heof
    have hbump : Ring.bump TY_IBUFLEN s.tyihead = (s.tyihead + 1) % TY_IBUFLEN := Ring.bump_eq h.head_lt
    refine ⟨rfl, hs, ?_, h.line, h.lineless, h.short, ⟨n, ?_, by omega, ?_, ?_⟩,
      h.eofs, hrs, hone, hheard, heof⟩
    · change Ring.bump TY_IBUFLEN s.tyihead < TY_IBUFLEN
      exact hbump ▸ Nat.mod_lt _ (by decide)
    · dsimp only [TtyIn.getc]
      omega
    · dsimp only [TtyIn.getc]
      rw [hbump, Nat.mod_add_mod, ht]
      congr 1
      omega
    · dsimp only [TtyIn.getc]
      rw [hbump, List.append_assoc, List.singleton_append, hw]
  have heof : ∀ w ∈ s.replies, w.IsEof → s.tyimode = .cooked ∧
      s.tyeof ∧ s.tyeofch ∈ s.taken ++ [s.tyibuff s.tyihead] := fun w hw he =>
    ⟨(h.eof w hw he).1, (h.eof w hw he).2.1, List.mem_append_left _ (h.eof w hw he).2.2⟩
  obtain ⟨hret, hgo⟩ := Reader.got_spec hm (h.readers r (List.mem_singleton_self r)) hfirst hline
  constructor
  · intro w hgot
    obtain ⟨hheard, hisEof⟩ := hret w hgot
    refine hok (s.replies ++ [w]) [] nofun (Nat.zero_le _) ?_ ?_
    · rw [List.flatMap_append, List.flatMap_singleton, hheard,
        ← List.append_assoc, hbuff, List.flatMap_nil, List.append_nil]
    · intro w' hw' he
      rcases List.mem_append.mp hw' with hw' | hw'
      · exact heof w' hw' he
      · obtain rfl := List.mem_singleton.mp hw'
        obtain ⟨hc, ho, hch⟩ := hisEof he
        exact ⟨hc, ho, hch ▸ List.mem_append_right _ (List.mem_singleton_self _)⟩
  · intro r' hgot
    obtain ⟨hbuff', hr', hnot⟩ := hgo r' hgot
    refine ⟨hok s.replies [r'] (by simpa using hr') le_rfl ?_ heof, hnot⟩
    rw [List.flatMap_singleton, hbuff', ← List.append_assoc, hbuff]

/-- A reader goes on until its call returns or it waits. -/
theorem goOn {k : ℕ} (h : InputOk m s g [r]) (hm : m.Standard)
    (hb : s.tyisem.blocked = []) (hk : k = s.tyisem.count.toNat)
    (hfirst : 0 < k → r.AtFirst → s.tyibuff s.tyihead ≠ -2) :
    InputOk m (TtyIn.goOn k s r) g (TtyIn.goOn k s r).tyisem.blocked := by
  induction k generalizing s r with
  -- The queue has no character left, so the reader waits.
  | zero =>
    have hblock : (s.tyisem.wait r).1 = false := Bool.eq_false_iff.mpr fun hgo => by
      have := Semaphore.wait_go.mp hgo
      omega
    have hbl : (s.tyisem.wait r).2.blocked = [r] := by
      rw [Semaphore.blocked_wait_block hblock, hb, List.nil_append]
    change InputOk m { s with tyisem := (s.tyisem.wait r).2 } g (s.tyisem.wait r).2.blocked
    rw [hbl]
    exact h.setSem h.sem.wait (Semaphore.unused_wait_block hblock)
  | succ k ih =>
    -- There is a character: the call returns with it, or needs another one.
    have hgo : (s.tyisem.wait r).1 = true := Semaphore.wait_go.mpr (by omega)
    have hbl : (s.tyisem.wait r).2.blocked = [] := (Semaphore.blocked_wait_go hgo).trans hb
    obtain ⟨hret, hmore⟩ := h.getc hm h.sem.wait (Semaphore.unused_wait_go hgo) (hfirst (Nat.succ_pos k))
    rw [TtyIn.goOn]
    have hval : ({ s with tyisem := (s.tyisem.wait r).2 } : TtyIn).getc.1 = s.getc.1 := rfl
    rw [hval]
    cases hgot : r.got s.getc.1 with
    | inl w =>
      change InputOk m (({ s with tyisem := (s.tyisem.wait r).2 } : TtyIn).getc.2.reply w) g
        (s.tyisem.wait r).2.blocked
      rw [hbl]
      exact hret w hgot
    | inr r' =>
      obtain ⟨hok, hnot⟩ := hmore r' hgot
      have hcount : ({ s with tyisem := (s.tyisem.wait r).2 } : TtyIn).getc.2.tyisem.count =
        s.tyisem.count - 1 := Semaphore.count_wait
      exact ih hok hbl (by omega) fun _ ha => absurd ha hnot

/-- A reader that calls `ttygetc` takes a character or waits, and the invariant is kept. -/
theorem call (h : InputOk m s g [r]) (hm : m.Standard) (hb : s.tyisem.blocked = [])
    (hfirst : 0 < s.tyisem.count → r.AtFirst → s.tyibuff s.tyihead ≠ -2) :
    InputOk m (s.call r) g (s.call r).tyisem.blocked :=
  h.goOn hm hb rfl fun hpos => hfirst (by omega)

/-- A reader that is in no call makes one. -/
theorem enter (h : InputOk m s g []) (hr : r.Ok m) (hbuff : r.buff = []) : InputOk m s g [r] :=
  { h with
    readers := by simpa using hr
    one := le_rfl
    heard := by simpa [hbuff] using h.heard }

/-- A call returns at once, with no character. -/
theorem reply_nil (h : InputOk m s g rs) {v : ℤ} (hv : v ≠ EOF) : InputOk m (s.reply (.read v [])) g rs := by
  have hheard : (Reply.read v []).heard m = [] := if_neg hv
  refine { h with heard := ?_, eof := ?_ }
  · change (s.replies ++ [Reply.read v []]).flatMap (Reply.heard m) ++ _ = _
    rw [List.flatMap_append, List.flatMap_singleton, hheard, List.append_nil]
    exact h.heard
  · intro w hw he
    rcases List.mem_append.mp hw with hw | hw
    · exact h.eof w hw he
    · obtain rfl := List.mem_singleton.mp hw
      exact absurd he hv

/-- A reader that calls `ttyread` keeps the invariant, if the characters are there. -/
theorem ttyread (h : InputOk m s g []) (hm : m.Standard) (hb : s.tyisem.blocked = []) {count : ℤ}
    (hC : InputRoom s (.ttyread count)) : InputOk m (s.ttyread count) g (s.ttyread count).tyisem.blocked := by
  unfold TtyIn.ttyread
  by_cases hneg : count < 0
  · rw [if_pos hneg]
    exact hb ▸ h.reply_nil (by decide)
  rw [if_neg hneg]
  by_cases hmode : s.tyimode ≠ .cooked
  · rw [if_pos hmode]
    dsimp only
    generalize (if count = 0 then s.tyisem.count else count) = count
    by_cases hzero : count ≤ 0
    · rw [if_pos hzero]
      exact hb ▸ h.reply_nil (by decide)
    · rw [if_neg hzero]
      exact (h.enter (r := .chars count []) (h.modes ▸ hmode) rfl).call hm hb fun _ => False.elim
  · rw [if_neg hmode]
    have hc : s.tyimode = .cooked := not_not.mp hmode
    exact (h.enter (r := .first count) (h.modes ▸ hc) rfl).call hm hb fun hpos _ => hC hc hpos

/-- The reader that a signal has woken goes on. -/
theorem resume (h : InputOk m s g s.tyisem.blocked) (hm : m.Standard)
    (hC : InputRoom s .resume) (hr : s.resume = some s') :
    InputOk m s' g s'.tyisem.blocked := by
  obtain ⟨⟨r, sem⟩, hw, rfl⟩ := Option.map_eq_some_iff.mp hr
  obtain ⟨hmem, he, hl⟩ := Semaphore.resume_eq hw
  have hone := h.one
  have hlen : s.tyisem.blocked.length = s.tyisem.woken.length + s.tyisem.waiting.length := List.length_append
  -- it is the only one
  have hwoken : s.tyisem.woken = [r] := by
    obtain ⟨r', hr'⟩ := List.length_eq_one_iff.mp (by omega : s.tyisem.woken.length = 1)
    rw [hr'] at hmem ⊢
    rw [List.mem_singleton.mp hmem]
  have hwaiting : s.tyisem.waiting = [] := List.eq_nil_of_length_eq_zero (by omega)
  have hblocked : s.tyisem.blocked = [r] := by rw [Semaphore.blocked, hwoken, hwaiting, List.append_nil]
  have hbl : sem.blocked = [] := by
    rw [he, Semaphore.blocked, hwaiting, List.append_nil, hwoken]
    rw [he, hwoken, List.length_singleton] at hl
    exact List.eq_nil_of_length_eq_zero (Nat.succ.inj hl)
  obtain ⟨hret, hmore⟩ := (hblocked ▸ h).getc hm (h.sem.resume hw) (Semaphore.unused_resume hw) (hC r hmem)
  have hval : ({ s with tyisem := sem } : TtyIn).getc.1 = s.getc.1 := rfl
  dsimp only
  rw [hval]
  cases hgot : r.got s.getc.1 with
  | inl w =>
    change InputOk m (({ s with tyisem := sem } : TtyIn).getc.2.reply w) g sem.blocked
    rw [hbl]
    exact hret w hgot
  | inr r' =>
    obtain ⟨hok, hnot⟩ := hmore r' hgot
    exact hok.call hm hbl fun _ ha => absurd ha hnot

/-- Every step with room for it keeps the invariant. -/
theorem exec {e : InEvent} (h : InputOk m s g s.tyisem.blocked)
    (hm : m.Standard) (hC : InputRoom s e) (he : s.exec e = some s') :
    InputOk m s' (g.after s e) s'.tyisem.blocked := by
  cases e with
  | ttyhandle_in ch =>
    obtain rfl := Option.some.inj he
    exact h.ttyhandle_in hm hC
  | ttygetc =>
    obtain ⟨hb, he⟩ := Option.ite_none_right_eq_some.mp he
    obtain rfl := Option.some.inj he
    exact ((hb ▸ h).enter (r := .getc) trivial rfl).call hm hb fun hpos _ => hC hpos
  | ttyread count =>
    obtain ⟨hb, he⟩ := Option.ite_none_right_eq_some.mp he
    obtain rfl := Option.some.inj he
    exact (hb ▸ h).ttyread hm hb hC
  | resume => exact h.resume hm hC he

end InputOk

/-- The modes of the terminal, in any input mode and with or without echo. -/
theorem ttyinit_standard (mode : Imode) (echo : Bool) :
    TtyModes.Standard { TtyModes.ttyinit with tyimode := mode, tyiecho := echo } :=
  ⟨rfl, (by decide : TY_EOFCH ≠ TY_NEWLINE), (by decide : TY_EOFCH ≠ TY_RETURN)⟩

/-- Every run of such steps keeps the invariant. -/
theorem InRun.inputOk {mode : Imode} {echo : Bool} {s : TtyIn}
    {g : Edited} (hr : InRun InputRoom (.ttyinit mode echo) s g) :
    InputOk { TtyModes.ttyinit with tyimode := mode, tyiecho := echo } s g s.tyisem.blocked := by
  induction hr with
  | start => exact .ttyinit mode echo
  | step _ hC he ih => exact ih.exec (ttyinit_standard mode echo) hC he

/-- In every run in which a character goes only into a free cell of the ring, the end of file not
into the last one, and no reader finds a character that looks like `EOF`, the ring holds what has
been edited and not yet read, and the reader gets it in order. -/
theorem input_ok {mode : Imode} {echo : Bool} {s : TtyIn}
    {g : Edited} (hr : InRun InputRoom (.ttyinit mode echo) s g) : InputLaw s g :=
  hr.inputOk.law

instance Reader.AtFirst.decidable : ∀ r : Reader, Decidable r.AtFirst
  | .getc | .first _ => instDecidableTrue
  | .chars .. | .line .. => instDecidableFalse

instance InputRoom.decidable (s : TtyIn) (e : InEvent) : Decidable (InputRoom s e) := by
  cases e <;> unfold InputRoom <;> infer_instance

/-- A step, and what has been edited then. -/
def TtyIn.execEdited (r : TtyIn × Edited) (e : InEvent) : Option (TtyIn × Edited) :=
  (r.1.exec e).map fun s => (s, r.2.after r.1 e)

/-- A list of steps from the start. -/
def TtyIn.steps (C : TtyIn → InEvent → Prop) [∀ s e, Decidable (C s e)]
    (mode : Imode) (echo : Bool) (es : List InEvent) :
    Option (TtyIn × Edited) :=
  Machine.steps TtyIn.execEdited (fun r e => C r.1 e) (.ttyinit mode echo, ⟨[], []⟩) es

/-- A list of possible steps under a condition makes a run. -/
theorem InRun.of_steps {C : TtyIn → InEvent → Prop} [∀ s e, Decidable (C s e)]
    {mode : Imode} {echo : Bool} {s : TtyIn}
    {g : Edited} {es : List InEvent} (he : TtyIn.steps C mode echo es = some (s, g)) :
    InRun C (.ttyinit mode echo) s g := by
  refine Machine.steps_induct (P := fun r => InRun C (.ttyinit mode echo) r.1 r.2)
    (fun {r e r'} hr hC hs => ?_) .start he
  obtain ⟨s', hexec, rfl⟩ := Option.map_eq_some_iff.mp hs
  exact hr.step hC hexec

/-- A line is typed, with a character that is erased, and a reader that waits for it gets it. -/
def editedLine : List InEvent :=
  [.ttyread 10, .ttyhandle_in 97, .ttyhandle_in 98, .ttyhandle_in TY_BACKSP,
    .ttyhandle_in 99, .ttyhandle_in TY_NEWLINE, .resume]

/-- The reader gets the line without the erased character. -/
theorem input_ok_edited : ∃ s g, InputLaw s g ∧ s.replies = [.read 3 [97, 99, TY_NEWLINE]] := by
  have hreplies : (TtyIn.steps InputRoom .cooked true editedLine).map
      (fun r => r.1.replies) = some [.read 3 [97, 99, TY_NEWLINE]] := by
    decide +kernel
  obtain ⟨⟨s, g⟩, hs, hr⟩ := Option.map_eq_some_iff.mp hreplies
  exact ⟨s, g, input_ok (.of_steps hs), hr⟩

/-- A line of 127 characters is typed and read, and then the end of file comes. -/
def lastCell : List InEvent :=
  List.replicate 126 (.ttyhandle_in 97) ++ [.ttyhandle_in 10, .ttyread 127, .ttyhandle_in 4]

/-- The end of file goes into the last cell, and the tail is behind the buffer. -/
theorem input_escapes :
    ∃ s g, InRun (fun _ _ => True) (.ttyinit .cooked true) s g ∧ s.tyitail = 128 ∧ ¬ InputLaw s g := by
  have htail : (TtyIn.steps (fun _ _ => True) .cooked true lastCell).map
      (fun r => r.1.tyitail) = some 128 := by
    decide +kernel
  obtain ⟨⟨s, g⟩, hs, ht⟩ := Option.map_eq_some_iff.mp htail
  refine ⟨s, g, .of_steps hs, ht, fun h => ?_⟩
  have hlt := h.tail_lt
  rw [ht] at hlt
  exact absurd hlt (by decide)

/-- A full line and another newline, which no reader has taken. -/
def twoNewlines : List InEvent :=
  List.replicate 127 (.ttyhandle_in 97) ++ [.ttyhandle_in 10, .ttyhandle_in 10]

/-- The second newline overwrites the first character of the line. -/
theorem input_overwritten :
    ∃ s g, InRun (fun _ _ => True) (.ttyinit .cooked true) s g ∧ s.tyibuff 0 = 10 ∧ ¬ InputLaw s g := by
  have hrun : (TtyIn.steps (fun _ _ => True) .cooked true twoNewlines).map
      (fun r => (r.1.tyibuff 0, r.1.tyisem.count)) =
      some (10, 129) := by decide +kernel
  obtain ⟨⟨s, g⟩, hs, h⟩ := Option.map_eq_some_iff.mp hrun
  obtain ⟨hb, hc⟩ := Prod.mk.inj h
  refine ⟨s, g, .of_steps hs, hb, fun h => ?_⟩
  obtain ⟨n, hn, he, -⟩ := h.ring
  have hN : TY_IBUFLEN = 128 := rfl
  dsimp only at hc
  omega

/-- The character with all bits set but the last arrives in raw mode, and a process reads it. -/
def looksLikeEof : List InEvent := [.ttyhandle_in (-2), .ttygetc]

/-- `ttygetc` returns `EOF`, though nobody has sent an end of file, and raw mode has none. -/
theorem input_not_eof :
    ∃ s g, InRun (fun _ _ => True) (.ttyinit .raw true) s g ∧ s.replies = [.char EOF] ∧ ¬ InputLaw s g := by
  have hrun : (TtyIn.steps (fun _ _ => True) .raw true looksLikeEof).map
      (fun r => (r.1.replies, r.1.tyimode)) =
      some ([.char EOF], .raw) := by decide +kernel
  obtain ⟨⟨s, g⟩, hs, h⟩ := Option.map_eq_some_iff.mp hrun
  obtain ⟨hreply, hmode⟩ := Prod.mk.inj h
  refine ⟨s, g, .of_steps hs, hreply, fun h => ?_⟩
  have heof := (h.eof (.char EOF) (hreply ▸ List.mem_singleton_self _) rfl).1
  cases hmode.symm.trans heof

end Xinu
