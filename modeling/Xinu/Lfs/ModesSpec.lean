import Xinu.Lfs.Modes

/-!
# What the access mode of a file promises

`lfsopen` stores the mode in `lfmode`, but `lflgetc`, `lflputc` and `lftruncate` do not look at it:
a file that was opened to be read can be written (`mode_ignored`). What the mode says holds in runs
in which every call on the file is one that the mode allows, or that changes and reads nothing
(`lfs_modes`).
-/

namespace Xinu

/-! ## Loops of calls -/

section

variable {s s' : Lfs} {a : Files} {i : ℕ} {buff buff' : List UInt8} {r : ℤ}

/-- What `lflgetc` keeps, `lflread` keeps. -/
theorem lflread_keeps {Inv : Lfs → Files → Prop}
    (hget : ∀ s a s' r, Inv s a → s.exec (.lflgetc i) = some (s', r) →
      Inv s' (a.getOne i) ∧ r = (a.exec (.lflgetc i)).2) {n : ℕ}
    (h : Inv s a) (he : Lfs.lflread.loop i n s buff = some ((s', buff'), r)) :
    Inv s' ((Files.getOne i)^[n] a) := by
  induction n generalizing s a buff with
  | zero =>
    obtain ⟨rfl, -⟩ := Prod.mk.inj (Prod.mk.inj (Option.some.inj he)).1
    exact h
  | succ n ih =>
    unfold Lfs.lflread.loop at he
    obtain ⟨⟨s₁, r₁⟩, hs₁, he⟩ := Option.bind_eq_some_iff.mp he
    obtain ⟨h₁, hr⟩ := hget s a s₁ r₁ h hs₁
    -- where the loop stops, more calls on the byte array change nothing
    have hstop : r₁ = SYSERR ∨ r₁ = EOF → (Files.getOne i)^[n + 1] a = Files.getOne i a := fun hr₁ => by
      have hsame : Files.getOne i a = a := Files.get_error (hr ▸ hr₁)
      rw [hsame]
      exact Function.iterate_fixed hsame (n + 1)
    dsimp only at he
    split_ifs at he with hsys heof hlen
    · obtain ⟨rfl, -⟩ := Prod.mk.inj (Prod.mk.inj (Option.some.inj he)).1
      exact hstop (.inl hsys) ▸ h₁
    · obtain ⟨rfl, -⟩ := Prod.mk.inj (Prod.mk.inj (Option.some.inj he)).1
      exact hstop (.inr heof) ▸ h₁
    · obtain ⟨rfl, -⟩ := Prod.mk.inj (Prod.mk.inj (Option.some.inj he)).1
      exact hstop (.inr heof) ▸ h₁
    · rw [Function.iterate_succ_apply]
      exact ih h₁ he

/-- What `lflputc` keeps, `lflwrite` keeps. The bytes that are left may belong to it. -/
theorem lflwrite_keeps {Inv : List UInt8 → Lfs → Files → Prop}
    (hput : ∀ ch buff s a s' r, Inv (ch :: buff) s a → s.exec (.lflputc i ch) = some (s', r) →
      Inv buff s' (a.putOne i ch) ∧ r = (a.exec (.lflputc i ch)).2) {count : ℤ}
    (h : Inv buff s a) (he : Lfs.lflwrite.loop i count buff s = some (s', r)) :
    ∃ buff', Inv buff' s' (buff.foldl (Files.putOne i) a) := by
  induction buff generalizing s a with
  | nil =>
    obtain ⟨rfl, -⟩ := Prod.mk.inj (Option.some.inj he)
    exact ⟨[], h⟩
  | cons ch buff ih =>
    unfold Lfs.lflwrite.loop at he
    obtain ⟨⟨s₁, r₁⟩, hs₁, he⟩ := Option.bind_eq_some_iff.mp he
    obtain ⟨h₁, hr⟩ := hput ch buff s a s₁ r₁ h hs₁
    dsimp only at he
    split_ifs at he with hsys
    · obtain ⟨rfl, -⟩ := Prod.mk.inj (Option.some.inj he)
      have hsame : ∀ ch', Files.putOne i a ch' = a := Files.put_error (hr ▸ hsys)
      have hfold : ∀ l : List UInt8, l.foldl (Files.putOne i) a = a := fun l => by
        induction l with
        | nil => rfl
        | cons ch' l ih' => rw [List.foldl_cons, hsame, ih']
      rw [hsame] at h₁
      rw [hfold]
      exact ⟨buff, h₁⟩
    · exact ih h₁ he

/-- Where `lflgetc` has no byte, `lflread` has none. -/
theorem lflread_nothing {n : ℕ} (h : n ≠ 0 → ∀ s' r, s.exec (.lflgetc i) = some (s', r) →
    r = SYSERR ∨ r = EOF)
    (he : Lfs.lflread.loop i n s [] = some ((s', buff'), r)) : buff' = [] := by
  cases n with
  | zero =>
    obtain ⟨-, rfl⟩ := Prod.mk.inj (Prod.mk.inj (Option.some.inj he)).1
    rfl
  | succ n =>
    unfold Lfs.lflread.loop at he
    obtain ⟨⟨s₁, r₁⟩, hs₁, he⟩ := Option.bind_eq_some_iff.mp he
    dsimp only at he
    split_ifs at he with hsys heof hlen
    · obtain ⟨-, rfl⟩ := Prod.mk.inj (Prod.mk.inj (Option.some.inj he)).1
      rfl
    · obtain ⟨-, rfl⟩ := Prod.mk.inj (Prod.mk.inj (Option.some.inj he)).1
      rfl
    · obtain ⟨-, rfl⟩ := Prod.mk.inj (Prod.mk.inj (Option.some.inj he)).1
      rfl
    · rcases h (Nat.succ_ne_zero n) s₁ r₁ hs₁ with hr | hr
      · exact absurd hr hsys
      · exact absurd hr heof

end

/-! ## The file behind a device -/

/-- The file system represents the byte arrays, and the file with these bytes and blocks is open at
the device. -/
structure Held (A : LfAreas) (i k : ℕ) (f : LfLayout) (s : Lfs) (a : Files) (g : LfParts) : Prop where
  /-- The file system represents the byte arrays. -/
  rep : Represents A s a g
  /-- The directory on disk is that in memory, or marked as older. -/
  saved : DirSaved s
  /-- The control block is in use. -/
  used : (s.lfltab i).lfused = true
  /-- It is that of the file. -/
  dirptr : (s.lfltab i).lfdirptr = k
  /-- The file has these blocks and bytes. -/
  file : g.fs[k]? = some f

section

variable {A : LfAreas} {s s' : Lfs} {a : Files} {g : LfParts} {i k : ℕ} {f : LfLayout} {e : LfEvent} {r : ℤ}

/-- A call that returns agrees with the byte arrays. -/
theorem Represents.exec_some (h : Represents A s a g) (hs : DirSaved s) (he : s.exec e = some (s', r)) :
    r = (a.exec e).2 ∧ ∃ g', Represents A s' (a.exec e).1 g' ∧ DirSaved s' ∧ g.Keeps g' (e.file s) := by
  rcases h.exec hs e with ⟨hnone, -⟩ | ⟨s₁, g', hsome, hg', hs', hkeeps⟩
  · cases hnone.symm.trans he
  · obtain ⟨rfl, rfl⟩ := Prod.mk.inj (Option.some.inj (hsome.symm.trans he))
    exact ⟨rfl, g', hg', hs', hkeeps⟩

/-- The bytes of the open file, and the position. -/
theorem Held.stream (h : Held A i k f s a g) : a.stream i = ⟨f.bytes, (s.lfltab i).lfpos⟩ := by
  have hbytes : (a.files[k]?).map ByteFile.bytes = some f.bytes := by
    rw [← List.getElem?_map, h.rep.bytes, List.getElem?_map, h.file, Option.map_some]
  unfold Files.stream
  rw [h.rep.opened i, if_pos h.used, h.dirptr]
  dsimp only
  rw [hbytes, Option.getD_some]

/-- A call on another device leaves what is open at this one. -/
theorem Files.exec_opened {a : Files} (ho : a.opened i ≠ none) (hd : e.device ≠ some i) :
    (a.exec e).1.opened i = a.opened i := by
  have hstream : ∀ j op, j ≠ i → (a.onStream j op).1.opened i = a.opened i := fun j op hj => by
    unfold Files.onStream
    cases a.opened j with
    | none => rfl
    | some r => exact Function.update_of_ne (Ne.symm hj) _ _
  have hne : ∀ j, some j ≠ some i → j ≠ i := fun j hj heq => hj (congrArg some heq)
  cases e with
  | lfsopen name mode =>
    unfold Files.exec Files.lfsopen
    dsimp only
    cases lfgetmode mode with
    | none => rfl
    | some mbits =>
      cases hfree : a.freeDevice with
      | none => rfl
      | some j =>
        -- the device that is taken was free
        have hj : a.opened j = none := by
          have := List.find?_some hfree
          simpa using this
        have hopen : ∀ (a' : Files) l, a'.opened = a.opened → (a'.openAt j l).1.opened i = a.opened i :=
          fun a' l ha => by
          unfold Files.openAt
          dsimp only
          rw [ha]
          exact Function.update_of_ne (by rintro rfl; exact ho hj) _ _
        dsimp only
        by_cases hlen : name.length ≥ LF_NAME_LEN
        · rw [if_pos hlen]
        rw [if_neg hlen]
        cases a.files.findIdx? fun f => f.name = name with
        | none =>
          dsimp only
          split_ifs
          · rfl
          · exact hopen _ _ rfl
        | some l =>
          dsimp only
          split_ifs
          · rfl
          · exact hopen _ _ rfl
  | lflputc j ch => exact hstream j _ (hne j hd)
  | lflgetc j => exact hstream j _ (hne j hd)
  | lflseek j offset => exact hstream j _ (hne j hd)
  | lflcontrol j func unused => exact hstream j _ (hne j hd)
  | lflclose j =>
    unfold Files.exec
    dsimp only
    cases a.opened j with
    | none => rfl
    | some r => exact Function.update_of_ne (Ne.symm (hne j hd)) _ _

/-- A call on another device, or one that opens a file, leaves the file. -/
theorem Held.other (h : Held A i k f s a g) (hd : e.device ≠ some i) (he : s.exec e = some (s', r)) :
    ∃ g', Held A i k f s' (a.exec e).1 g' := by
  obtain ⟨-, g', hg', hs', hkeeps⟩ := h.rep.exec_some h.saved he
  have ho : a.opened i = some (k, (s.lfltab i).lfpos) := by rw [h.rep.opened i, if_pos h.used, h.dirptr]
  have ho' : (a.exec e).1.opened i = a.opened i := Files.exec_opened (by rw [ho]; simp) hd
  rw [ho, hg'.opened i] at ho'
  -- the file of the call is another one
  have hfile : some k ≠ e.file s := fun heq => by
    have hopen : ∀ j, some j ≠ some i → some k ≠ s.openFile j := fun j hj heq => by
      unfold Lfs.openFile at heq
      split_ifs at heq with hu
      exact hj (congrArg some (h.rep.once j i hu h.used ((Option.some.inj heq).symm.trans h.dirptr.symm)))
    cases e with
    | lfsopen name mode => cases heq
    | lflputc j ch => exact hopen j hd heq
    | lflgetc j => exact hopen j hd heq
    | lflseek j offset => exact hopen j hd heq
    | lflcontrol j func unused => exact hopen j hd heq
    | lflclose j => exact hopen j hd heq
  split_ifs at ho' with hu
  refine ⟨g', hg', hs', hu, (Prod.mk.inj (Option.some.inj ho')).1, ?_⟩
  rw [hkeeps k (List.getElem?_eq_some_iff.mp h.file).1 hfile]
  exact h.file

/-- A call on this device that leaves the bytes and the blocks. -/
theorem Held.call (h : Held A i k f s a g) {op : ByteStream → ByteStream × ℤ}
    {d' : Lfdata} {c' : LfFile} {ifree dfree : List ℤ}
    (hok : CallOk s.toLfdata (s.lfltab i) ⟨f, g.ifree, g.dfree⟩ d' c'
      ⟨f, ifree, dfree⟩ (op ⟨f.bytes, (s.lfltab i).lfpos⟩).1) :
    ∃ g', Held A i k f (s.put i (d', c')) (a.onStream i op).1 g' := by
  have hf : g.fs[(s.lfltab i).lfdirptr]? = some f := h.dirptr ▸ h.file
  refine ⟨_, h.rep.call h.used hf op hok, h.saved.call h.rep h.used hok.moved.present hok.written
    (.inl (hok.used.trans h.used)), ?_, ?_, ?_⟩
  · rw [Lfs.put_self]
    exact hok.used.trans h.used
  · rw [Lfs.put_self]
    exact hok.dirptr.trans h.dirptr
  · rw [h.dirptr]
    exact List.getElem?_set_self (List.getElem?_eq_some_iff.mp h.file).1

end

/-! ## Calls that the mode allows -/

namespace LfCall

/-- The call writes to the file at most bytes that are there already, and truncates it at most if it
is empty. -/
def Rewrites (a : Files) (i : ℕ) : LfCall → Prop
  | .event (.lflputc j ch) => j = i → [ch] <+: a.ahead i
  | .event (.lflcontrol j func _) => j = i → func = LF_CTL_TRUNC → (a.stream i).bytes = []
  | .lflwrite j buff count => j = i → (List.range count.toNat).map buff <+: a.ahead i
  | _ => True

/-- The call reads from the file at most at its end. -/
def ReadsNothing (a : Files) (i : ℕ) : LfCall → Prop
  | .event (.lflgetc j) => j = i → a.ahead i = []
  | .lflread j count => j = i → 0 < count → a.ahead i = []
  | _ => True

/-- The call does not close the file, and does nothing that the mode does not allow. -/
structure Permitted (mode : CString) (a : Files) (i : ℕ) (c : LfCall) : Prop where
  /-- The call is not `lflclose` of the device. -/
  open_still : c ≠ .event (.lflclose i)
  /-- It writes nothing to the file, unless the mode allows it. -/
  write : MayWrite mode ∨ c.Rewrites a i
  /-- It reads nothing of the file, unless the mode allows it. -/
  read : MayRead mode ∨ c.ReadsNothing a i

end LfCall

section

variable {A : LfAreas} {s s' : Lfs} {a : Files} {g : LfParts} {i k : ℕ} {f : LfLayout} {e : LfEvent} {r : ℤ}

/-- A byte that is written where it is already. -/
theorem take_cons_drop {bytes : List UInt8} {p : ℕ} {ch : UInt8} (h : [ch] <+: bytes.drop p) :
    p < bytes.length ∧ bytes.take p ++ ch :: bytes.drop (p + 1) = bytes := by
  obtain ⟨l, hl⟩ := h
  have hlt : p < bytes.length := by
    have := congrArg List.length hl
    simp at this
    omega
  rw [← List.getElem_cons_drop hlt, List.singleton_append] at hl
  obtain ⟨rfl, -⟩ := List.cons.inj hl
  refine ⟨hlt, ?_⟩
  rw [List.getElem_cons_drop hlt, List.take_append_drop]

/-- A call that writes at most what is there leaves the file. -/
theorem Held.rewrites (h : Held A i k f s a g) (hopen : e ≠ .lflclose i) (hc : (LfCall.event e).Rewrites a i)
    (he : s.exec e = some (s', r)) : ∃ g', Held A i k f s' (a.exec e).1 g' := by
  by_cases hd : e.device = some i
  swap
  · exact h.other hd he
  have hu := h.used
  obtain ⟨f', hf', halone⟩ := h.rep.file hu
  obtain rfl : f' = f := Option.some.inj (hf'.symm.trans (h.dirptr ▸ h.file))
  have hstream := h.stream
  cases e with
  | lfsopen name mode => cases hd
  | lflputc j ch =>
    obtain rfl := Option.some.inj hd
    have hch : [ch] <+: f'.bytes.drop (s.lfltab j).lfpos := by
      have := hc rfl
      unfold Files.ahead at this
      rwa [hstream] at this
    obtain ⟨hlt, hsame⟩ := take_cons_drop hch
    rcases halone.lflputc hu ch with ⟨hnone, -⟩ | ⟨d', c', x', hres, hok, hx⟩
    · unfold Lfs.exec at he
      dsimp only at he
      rw [hnone] at he
      cases he
    · have hx := hx hlt
      dsimp only at hx
      rw [hsame] at hx
      subst hx
      unfold Lfs.exec at he
      dsimp only at he
      rw [hres] at he
      obtain ⟨rfl, -⟩ := Prod.mk.inj (Option.some.inj he)
      exact h.call hok
  | lflgetc j =>
    obtain rfl := Option.some.inj hd
    obtain ⟨d', c', hres, hok⟩ := halone.lflgetc hu
    unfold Lfs.exec at he
    dsimp only at he
    rw [hres] at he
    obtain ⟨rfl, -⟩ := Prod.mk.inj (Option.some.inj he)
    exact h.call hok
  | lflseek j offset =>
    obtain rfl := Option.some.inj hd
    obtain ⟨-, hok⟩ := halone.lflseek hu offset
    obtain ⟨rfl, -⟩ := Prod.mk.inj (Option.some.inj he)
    exact h.call hok
  | lflcontrol j func unused =>
    obtain rfl := Option.some.inj hd
    -- nothing is truncated, so that the call does nothing
    have hres : s.toLfdata.lflcontrol (s.lfltab j) func unused =
        some ((s.toLfdata, s.lfltab j), if func = LF_CTL_TRUNC then OK else SYSERR) := by
      unfold Lfdata.lflcontrol
      rw [if_neg (not_not.mpr hu)]
      split_ifs with hfunc
      · have hempty := hc rfl hfunc
        rw [hstream] at hempty
        unfold Lfdata.lftruncate
        rw [if_pos]
        rw [halone.entry_eq.1]
        exact List.length_eq_zero_iff.mpr hempty
      · rfl
    have hop : (a.exec (.lflcontrol j func unused)).1 = a := by
      refine Files.onStream_same ?_
      rw [hstream]
      split_ifs with hfunc
      · have hempty := hc rfl hfunc
        rw [hstream] at hempty
        have hpos := halone.cached.pos
        dsimp only at hempty hpos
        rw [hempty, List.length_nil] at hpos
        unfold ByteStream.truncate
        rw [hempty, Nat.le_zero.mp hpos]
      · rfl
    unfold Lfs.exec at he
    dsimp only at he
    rw [hres] at he
    obtain ⟨rfl, -⟩ := Prod.mk.inj (Option.some.inj he)
    unfold Lfs.put
    rw [Function.update_eq_self, hop]
    exact ⟨g, h⟩
  | lflclose j =>
    obtain rfl := Option.some.inj hd
    exact absurd rfl hopen

end

/-! ## Runs -/

/-- Calls from two states on, all permitted for the file that is open at a device, with the bytes
that have been read from it. -/
inductive ModeRun (mode : CString) (i : ℕ) (s₀ : Lfs) (a₀ : Files) : Lfs → Files → List UInt8 → Prop where
  | start : ModeRun mode i s₀ a₀ s₀ a₀ []
  | step {s s' : Lfs} {a : Files} {got buff : List UInt8}
    {c : LfCall} {r : ℤ} (hr : ModeRun mode i s₀ a₀ s a got)
      (hC : c.Permitted mode a i) (he : s.call c = some ((s', buff), r)) :
      ModeRun mode i s₀ a₀ s' (a.call c) (got ++ if c.device = some i then buff else [])

section

variable {A : LfAreas} {s₀ s s' : Lfs} {a₀ a : Files} {g : LfParts}
  {i j k : ℕ} {f : LfLayout} {mode : CString} {got buff : List UInt8}
  {c : LfCall} {r : ℤ}

/-- `lflread` takes nothing if the count is negative. -/
theorem Lfs.lflread_cases {count : ℤ} (he : s.lflread j count = some ((s', buff), r)) :
    (s' = s ∧ buff = [] ∧ count.toNat = 0) ∨
    (Lfs.lflread.loop j count.toNat s [] = some ((s', buff), r)) := by
  unfold Lfs.lflread at he
  split_ifs at he with hneg
  · obtain ⟨rfl, rfl⟩ := Prod.mk.inj (Prod.mk.inj (Option.some.inj he)).1
    exact .inl ⟨rfl, rfl, by omega⟩
  · exact .inr he

/-- `lflwrite` puts nothing if the count is negative. -/
theorem Lfs.lflwrite_cases {buff : ℕ → UInt8} {count : ℤ} (he : s.lflwrite j buff count = some (s', r)) :
    (s' = s ∧ count.toNat = 0) ∨ Lfs.lflwrite.loop j count
      ((List.range count.toNat).map buff) s = some (s', r) := by
  unfold Lfs.lflwrite at he
  split_ifs at he with hneg
  · obtain ⟨rfl, -⟩ := Prod.mk.inj (Option.some.inj he)
    exact .inl ⟨rfl, by omega⟩
  · exact .inr he

/-- After each call that returns, the file system represents the byte arrays. -/
theorem Represents.of_call (h : ∃ g, Represents A s a g ∧ DirSaved s) (he : s.call c = some ((s', buff), r)) :
    ∃ g, Represents A s' (a.call c) g ∧ DirSaved s' := by
  have hexec : ∀ s a s' r e, (∃ g, Represents A s a g ∧ DirSaved s) → s.exec e = some (s', r) →
      (∃ g, Represents A s' (a.exec e).1 g ∧ DirSaved s') ∧ r = (a.exec e).2 :=
        fun s a s' r e ⟨g, hg, hs⟩ he => by
    obtain ⟨hr, g', hg', hs', -⟩ := hg.exec_some hs he
    exact ⟨⟨g', hg', hs'⟩, hr⟩
  cases c with
  | event e =>
    obtain ⟨⟨s₁, r₁⟩, hs₁, he⟩ := Option.map_eq_some_iff.mp he
    obtain ⟨rfl, -⟩ := Prod.mk.inj (Prod.mk.inj he).1
    exact (hexec s a _ r₁ e h hs₁).1
  | lflread j count =>
    unfold Files.call
    dsimp only
    rcases Lfs.lflread_cases he with ⟨rfl, -, hn⟩ | he
    · rw [hn]
      exact h
    · exact lflread_keeps (fun s a s' r h he => hexec s a s' r _ h he) h he
  | lflwrite j buff count =>
    obtain ⟨⟨s₁, r₁⟩, hs₁, he⟩ := Option.map_eq_some_iff.mp he
    obtain ⟨rfl, -⟩ := Prod.mk.inj (Prod.mk.inj he).1
    unfold Files.call
    dsimp only
    rcases Lfs.lflwrite_cases hs₁ with ⟨rfl, hn⟩ | he
    · rw [hn]
      exact h
    · obtain ⟨-, h'⟩ := @lflwrite_keeps _ _ _ _ _ _ (fun _ s a => ∃ g, Represents A s a g ∧ DirSaved s)
        (fun ch _ s a s' r h he => hexec s a s' r _ h he) _ h he
      exact h'

/-- A call that writes at most what is there, with those that read and write many bytes. -/
theorem Held.of_call (h : ∃ g, Held A i k f s a g) (hopen : c ≠ .event (.lflclose i)) (hc : c.Rewrites a i)
    (he : s.call c = some ((s', buff), r)) : ∃ g, Held A i k f s' (a.call c) g := by
  cases c with
  | event e =>
    obtain ⟨g, hg⟩ := h
    obtain ⟨⟨s₁, r₁⟩, hs₁, he⟩ := Option.map_eq_some_iff.mp he
    obtain ⟨rfl, -⟩ := Prod.mk.inj (Prod.mk.inj he).1
    exact hg.rewrites (fun heq => hopen (congrArg LfCall.event heq)) hc hs₁
  | lflread j count =>
    unfold Files.call
    dsimp only
    rcases Lfs.lflread_cases he with ⟨rfl, -, hn⟩ | he
    · rw [hn]
      exact h
    · refine @lflread_keeps _ _ _ _ _ _ _ (fun s a => ∃ g, Held A i k f s a g)
        (fun s a s' r h he => ?_) _ h he
      obtain ⟨g, hg⟩ := h
      exact ⟨hg.rewrites (by simp) (by unfold LfCall.Rewrites; trivial) he, (hg.rep.exec_some hg.saved he).1⟩
  | lflwrite j buff count =>
    obtain ⟨⟨s₁, r₁⟩, hs₁, he⟩ := Option.map_eq_some_iff.mp he
    obtain ⟨rfl, -⟩ := Prod.mk.inj (Prod.mk.inj he).1
    unfold Files.call
    dsimp only
    rcases Lfs.lflwrite_cases hs₁ with ⟨rfl, hn⟩ | he
    · rw [hn]
      exact h
    -- the bytes that are left are those from the position on
    have hput : ∀ ch l s a s' r, ((∃ g, Held A i k f s a g) ∧ (j = i → ch :: l <+: a.ahead i)) →
        s.exec (.lflputc j ch) = some (s', r) →
        ((∃ g, Held A i k f s' (a.putOne j ch) g) ∧ (j = i → l <+: (a.putOne j ch).ahead i)) ∧
          r = (a.exec (.lflputc j ch)).2 := by
      rintro ch l s a s' r ⟨⟨g, hg⟩, hl⟩ he
      have hfirst : ∀ hj : j = i, [ch] <+: a.ahead i :=
        fun hj => (List.singleton_append (l := l) ▸ List.prefix_append [ch] l).trans (hl hj)
      obtain ⟨g', hg'⟩ : ∃ g', Held A i k f s' (a.putOne j ch) g' := hg.rewrites (by simp) hfirst he
      refine ⟨⟨⟨g', hg'⟩, fun hj => ?_⟩, (hg.rep.exec_some hg.saved he).1⟩
      subst hj
      have hl := hl rfl
      have hfirst := hfirst rfl
      have ho : a.opened j = some (k, (s.lfltab j).lfpos) := by
        rw [hg.rep.opened j, if_pos hg.used, hg.dirptr]
      unfold Files.ahead at hl hfirst ⊢
      rw [hg.stream] at hl hfirst
      rw [hg'.stream]
      dsimp only at hl hfirst ⊢
      obtain ⟨hlt, -⟩ := take_cons_drop hfirst
      have hpos : (s'.lfltab j).lfpos = (s.lfltab j).lfpos + 1 := by
        have ho' := hg'.rep.opened j
        rw [if_pos hg'.used, hg'.dirptr, Files.putOne, Files.exec, Files.onStream_at ho, hg.stream] at ho'
        unfold ByteStream.put at ho'
        rw [if_neg (not_lt.mpr hlt.le)] at ho'
        exact (Prod.mk.inj (Option.some.inj ho')).2.symm
      rw [← List.getElem_cons_drop hlt] at hl
      rw [hpos]
      exact (List.cons_prefix_cons.mp hl).2
    obtain ⟨-, h', -⟩ := @lflwrite_keeps _ _ _ _ _ _
      (fun l s a => (∃ g, Held A i k f s a g) ∧ (j = i → l <+: a.ahead i)) hput _ ⟨h, hc⟩ he
    exact h'

/-- A call that reads at most at the end yields nothing. -/
theorem Represents.reads_nothing (h : Represents A s a g)
    (hs : DirSaved s) (hc : c.ReadsNothing a i) (hd : c.device = some i)
    (he : s.call c = some ((s', buff), r)) : buff = [] := by
  -- at the end `lflgetc` returns no byte
  have hget : ∀ j, j = i → a.ahead i = [] → ∀ s' r, s.exec (.lflgetc j) = some (s', r) →
      r = SYSERR ∨ r = EOF := by
    rintro j rfl hend s' r he
    have hr := (h.exec_some hs he).1
    rw [Files.exec, Files.onStream_snd] at hr
    split_ifs at hr with ho
    · exact .inl hr
    · unfold Files.ahead at hend
      unfold ByteStream.get at hr
      rw [List.getElem?_eq_none (List.drop_eq_nil_iff.mp hend)] at hr
      exact .inr hr
  cases c with
  | event e =>
    obtain ⟨⟨s₁, r₁⟩, hs₁, he⟩ := Option.map_eq_some_iff.mp he
    obtain ⟨-, rfl⟩ := Prod.mk.inj (Prod.mk.inj he).1
    cases e with
    | lflgetc j => exact if_pos (hget j (Option.some.inj hd) (hc (Option.some.inj hd)) s₁ r₁ hs₁)
    | lfsopen name mode => rfl
    | lflputc j ch => rfl
    | lflseek j offset => rfl
    | lflcontrol j func unused => rfl
    | lflclose j => rfl
  | lflread j count =>
    have hj := Option.some.inj hd
    rcases Lfs.lflread_cases he with ⟨-, hbuff, -⟩ | he
    · exact hbuff
    · exact lflread_nothing (fun hn => hget j hj (hc hj (by omega))) he
  | lflwrite j buff count =>
    obtain ⟨⟨s₁, r₁⟩, -, he⟩ := Option.map_eq_some_iff.mp he
    exact (Prod.mk.inj (Prod.mk.inj he).1).2.symm

/-- In a run without the permission to write, the file keeps its bytes and its blocks. -/
theorem ModeRun.held (hr : ModeRun mode i s₀ a₀ s a got)
    (hw : ¬ MayWrite mode) (h₀ : ∃ g, Held A i k f s₀ a₀ g) :
    ∃ g, Held A i k f s a g := by
  induction hr with
  | start => exact h₀
  | step _ hC he ih => exact Held.of_call ih hC.open_still (hC.write.resolve_left hw) he

/-- In a run without the permission to read, nothing has been read. -/
theorem ModeRun.got_nothing (hr : ModeRun mode i s₀ a₀ s a got)
    (hm : ¬ MayRead mode) (h₀ : ∃ g, Represents A s₀ a₀ g ∧ DirSaved s₀) :
    (∃ g, Represents A s a g ∧ DirSaved s) ∧ got = [] := by
  induction hr with
  | start => exact ⟨h₀, rfl⟩
  | step _ hC he ih =>
    obtain ⟨hrep, rfl⟩ := ih
    refine ⟨Represents.of_call hrep he, ?_⟩
    obtain ⟨g, hg, hs⟩ := hrep
    split_ifs with hd
    · exact hg.reads_nothing hs (hC.read.resolve_left hm) hd he
    · rfl

end

/-! ## What the modes promise -/

/-- The same file is open at the device in two states, with the same bytes in the same blocks. -/
def SameFile (A : LfAreas) (i : ℕ) (s : Lfs) (a : Files) (s' : Lfs) (a' : Files) : Prop :=
  (∃ g, Represents A s a g) ∧
  ∀ g, Represents A s a g → ∃ g' k f, Represents A s' a' g' ∧ s.openFile i = some k ∧ s'.openFile i = some k ∧
    g.fs[k]? = some f ∧ g'.fs[k]? = some f

section

variable {A : LfAreas} {s s' : Lfs} {a a' : Files} {i : ℕ} {name mode : CString} {got : List UInt8}

/-- The device that `lfsopen` returns is open. -/
theorem Files.lfsopen_opened (h : (a.lfsopen name mode).2 = LFILE0 + i) :
    ∃ k, (a.lfsopen name mode).1.opened i = some (k, 0) := by
  have hno : SYSERR ≠ LFILE0 + (i : ℤ) := by
    dsimp only [LFILE0, SYSERR]
    omega
  have hopen : ∀ (a' : Files) (j k : ℕ), (a'.openAt j k).2 = LFILE0 + i →
      (a'.openAt j k).1.opened i = some (k, 0) := fun a' j k hj => by
    have hj : LFILE0 + (j : ℤ) = LFILE0 + i := hj
    obtain rfl : j = i := by omega
    exact Function.update_self ..
  -- All exits but two return `SYSERR`, and these open the device.
  unfold Files.lfsopen at h ⊢
  cases hmode : lfgetmode mode with
  | none =>
    rw [hmode] at h
    exact absurd h hno
  | some mbits =>
    rw [hmode] at h
    cases hfree : a.freeDevice with
    | none =>
      rw [hfree] at h
      exact absurd h hno
    | some j =>
      rw [hfree] at h
      dsimp only at h ⊢
      by_cases hlen : name.length ≥ LF_NAME_LEN
      · rw [if_pos hlen] at h
        exact absurd h hno
      rw [if_neg hlen] at h ⊢
      cases hk : a.files.findIdx? fun f => f.name = name with
      | none =>
        rw [hk] at h
        dsimp only at h ⊢
        split_ifs at h ⊢ with href
        · exact absurd h hno
        · exact ⟨_, hopen _ _ _ h⟩
      | some k =>
        rw [hk] at h
        dsimp only at h ⊢
        split_ifs at h ⊢ with href
        · exact absurd h hno
        · exact ⟨_, hopen _ _ _ h⟩

/-- In a run without the permission to write, the file is the same. -/
theorem ModeRun.same_file (h₀ : ∃ g, Represents A s a g ∧ DirSaved s)
    {k pos : ℕ} (ho : a.opened i = some (k, pos))
    (hr : ModeRun mode i s a s' a' got) (hw : ¬ MayWrite mode) : SameFile A i s a s' a' := by
  obtain ⟨g₀, hg₀, hs⟩ := h₀
  refine ⟨⟨g₀, hg₀⟩, fun g hg => ?_⟩
  have hopen := hg.opened i
  rw [ho] at hopen
  split_ifs at hopen with hu
  obtain ⟨rfl, -⟩ := Prod.mk.inj (Option.some.inj hopen)
  obtain ⟨f, hf, -⟩ := hg.file hu
  obtain ⟨g', hg'⟩ := hr.held hw ⟨g, hg, hs, hu, rfl, hf⟩
  exact ⟨g', _, f, hg'.rep, if_pos hu, (if_pos hg'.used).trans (congrArg some hg'.dirptr), hf, hg'.file⟩

variable {disk : LfDisk} {dev lfiblks : ℤ} {dsiz : ℕ}

/-- **What the modes promise.** On every new file system, after any sequence of calls, `lfsopen`
accepts exactly the modes that are well formed, apart from the reasons that have to do with the
files; with `o` it creates no file, and with `n` it opens none that exists. In every run behind it
in which the calls on the file do nothing that the mode does not allow, a file that was opened
without the permission to write keeps its bytes and its blocks, and nothing is read from one that
was opened without the permission to read. -/
theorem lfs_modes (hr : FilesRun (fun _ _ => True) (.created disk dev lfiblks dsiz) .empty s a)
    (hok : ((Lfs.booted disk).toLfdata.lfscreate dev lfiblks dsiz).2 = OK)
      (hb : HasBlocks lfiblks dsiz) (hsiz : dsiz < 2 ^ 32)
    (name mode : CString) :
    ((s.lfsopen name mode).2 ≠ SYSERR ↔ ModeOk mode ∧ ¬ a.Refused name mode) ∧
    (111 ∈ mode → (s.lfsopen name mode).1.data.lf_dir.lfd_files.map Ldentry.ld_name =
      s.data.lf_dir.lfd_files.map Ldentry.ld_name) ∧
    (110 ∈ mode → name ∈ s.data.lf_dir.lfd_files.map Ldentry.ld_name →
      (s.lfsopen name mode).2 = SYSERR ∧ (s.lfsopen name mode).1.lfltab = s.lfltab) ∧
    ∀ (i : ℕ) (s' : Lfs) (a' : Files) (got : List UInt8), (s.lfsopen name mode).2 = LFILE0 + i →
      ModeRun mode i (s.lfsopen name mode).1 (a.lfsopen name mode).1 s' a' got →
      (¬ MayWrite mode → SameFile (areas (Sectors.ibsectors lfiblks) (dsiz / LF_BLKSIZ)) i
        (s.lfsopen name mode).1 (a.lfsopen name mode).1 s' a') ∧
      (¬ MayRead mode → got = []) := by
  -- The state after any run is one that files represent, and so is the one after `lfsopen`.
  obtain ⟨g, hg, hs⟩ := hr.of_created hok hb hsiz
  obtain ⟨g₁, hres, hg₁, hs₁, -⟩ := hg.lfsopen hs name mode
  have haccept := a.lfsopen_accepts name mode
  rw [← hres] at haccept
  refine ⟨haccept, fun ho => ?_, fun hn hmem => ?_, fun i s' a' got hi hrun => ⟨fun hw => ?_, fun hm => ?_⟩⟩
  -- With `o` no file is created, so the names of the directory stay.
  · rw [← hg₁.names, ← hg.names, a.lfsopen_old name ho]
  · -- the file is found
    have hfind : a.find name = nameIdx (s.data.lf_dir.lfd_files.map Ldentry.ld_name) name := hg.nameIdx_files
    have hsome : (a.find name).isSome = true := by
      rw [hfind, nameIdx, List.findIdx?_isSome, List.any_eq_true]
      exact ⟨name, hmem, by simp⟩
    obtain ⟨k, hk⟩ := Option.isSome_iff_exists.mp hsome
    have herror : (s.lfsopen name mode).2 = SYSERR := by
      by_contra hne
      exact (haccept.mp hne).2 (.old hk hn)
    refine ⟨herror, Lfs.lfsopen_refused (fun i => ?_) herror⟩
    rw [hg.dev i]
    dsimp only [LFILE0, SYSERR]
    omega
  -- What the mode does not allow is followed through the run that comes after.
  · obtain ⟨k, ho⟩ := Files.lfsopen_opened (hres ▸ hi)
    exact hrun.same_file ⟨g₁, hg₁, hs₁⟩ ho hw
  · exact (hrun.got_nothing hm ⟨g₁, hg₁, hs₁⟩).2

end

/-- A file with one byte is made. -/
def madeByte : List LfEvent := [.lfsopen [97] [119], .lflputc 0 65, .lflclose 0]

set_option maxRecDepth 10000 in
/-- What is computed about it: opened to be read, it yields its byte, and the same byte can be put
where it is. -/
theorem madeByte_facts : (smallLfs.runs (fun _ _ => True) .empty madeByte).any (fun r =>
    let s := r.1.lfsopen [97] [114]
    let a := (r.2.lfsopen [97] [114]).1
    decide (s.2 = LFILE0 + (0 : ℕ)) && (s.1.call (.event (.lflgetc 0))).any fun r₁ =>
      decide (r₁.1.2 = [65]) && (r₁.1.1.call (.event (.lflseek 0 0))).any fun r₂ =>
        decide (r₂.1.2 = []) && (r₂.1.1.call (.event (.lflputc 0 65))).any fun r₃ =>
          decide (r₃.1.2 = [] ∧ [65] <+: ((a.call (.event (.lflgetc 0))).call (.event (.lflseek 0 0))).ahead
              0)) = true := by
  decide +kernel

/-- A file is opened to be read, read, and written with the byte that it has: it stays as it is. -/
theorem lfs_modes_read : ∃ s a s' a', smallLfs.runs (fun _ _ => True) .empty madeByte = some (s, a) ∧
    ModeRun [114] 0 (s.lfsopen [97] [114]).1 (a.lfsopen [97] [114]).1 s' a' [65] ∧
    SameFile (areas (Sectors.ibsectors 14) (8192 / LF_BLKSIZ)) 0
      (s.lfsopen [97] [114]).1 (a.lfsopen [97] [114]).1 s' a' := by
  obtain ⟨⟨s, a⟩, hs, h⟩ := (Option.any_eq_true _ _).mp madeByte_facts
  obtain ⟨hopen, h⟩ := Bool.and_eq_true_iff.mp h
  obtain ⟨⟨⟨s₁, buff₁⟩, r₁⟩, he₁, h⟩ := (Option.any_eq_true _ _).mp h
  obtain ⟨hbuff₁, h⟩ := Bool.and_eq_true_iff.mp h
  obtain ⟨⟨⟨s₂, buff₂⟩, r₂⟩, he₂, h⟩ := (Option.any_eq_true _ _).mp h
  obtain ⟨hbuff₂, h⟩ := Bool.and_eq_true_iff.mp h
  obtain ⟨⟨⟨s₃, buff₃⟩, r₃⟩, he₃, h⟩ := (Option.any_eq_true _ _).mp h
  obtain ⟨hbuff₃, hahead⟩ := of_decide_eq_true h
  obtain rfl : buff₁ = [65] := of_decide_eq_true hbuff₁
  obtain rfl : buff₂ = [] := of_decide_eq_true hbuff₂
  obtain rfl : buff₃ = [] := hbuff₃
  have hread : MayRead [114] := by decide
  have hstart : ModeRun [114] 0 (s.lfsopen [97] [114]).1 (a.lfsopen [97] [114]).1
    (s.lfsopen [97] [114]).1 (a.lfsopen [97] [114]).1 [] := .start
  have hget := hstart.step (c := .event (.lflgetc 0)) ⟨nofun, .inr trivial, .inl hread⟩ he₁
  have hseek := hget.step (c := .event (.lflseek 0 0)) ⟨nofun, .inr trivial, .inl hread⟩ he₂
  have hrun := hseek.step (c := .event (.lflputc 0 65)) ⟨nofun, .inr fun _ => hahead, .inl hread⟩ he₃
  refine ⟨s, a, s₃, _, hs, hrun, ?_⟩
  exact ((lfs_modes (.of_runs .start hs) rfl (by decide) (by decide) [97] [114]).2.2.2 0 _ _ _
    (of_decide_eq_true hopen) hrun).1 (by decide)

/-- A file is opened to be read and written, and another one is opened to be written and read. -/
theorem mode_ignored_facts : (smallLfs.runs (fun _ _ => True) .empty [.lfsopen [97] [114]]).any (fun r =>
      decide ((r.1.entry 0).ld_size = 0) && (r.1.exec (.lflputc 0 65)).any fun r' =>
        decide (r'.2 = OK ∧ (r'.1.entry 0).ld_size = 1)) = true ∧
    (smallLfs.runs (fun _ _ => True) .empty [.lfsopen [97] [119], .lflputc 0 65, .lflseek 0 0]).any (fun r =>
      (r.1.exec (.lflgetc 0)).any fun r' => decide (r'.2 = 65)) = true := by
  decide +kernel

/-- **The mode is not looked at**: a file that was opened with `r` grows by a byte, and one that was
opened with `w` yields one. -/
theorem mode_ignored :
    (∃ s a s', smallLfs.runs (fun _ _ => True) .empty [.lfsopen [97] [114]] = some (s, a) ∧ ¬ MayWrite [114] ∧
      (s.entry 0).ld_size = 0 ∧ s.exec (.lflputc 0 65) = some (s', OK) ∧ (s'.entry 0).ld_size = 1) ∧
    ∃ s a s', smallLfs.runs (fun _ _ => True) .empty [.lfsopen [97] [119], .lflputc 0 65, .lflseek 0 0] = some
      (s, a) ∧ ¬ MayRead [119] ∧
      s.exec (.lflgetc 0) = some (s', 65) := by
  obtain ⟨hput, hget⟩ := mode_ignored_facts
  constructor
  · obtain ⟨⟨s, a⟩, hrun, h⟩ := (Option.any_eq_true _ _).mp hput
    obtain ⟨hsize, h⟩ := Bool.and_eq_true_iff.mp h
    obtain ⟨⟨s', r⟩, hs', h⟩ := (Option.any_eq_true _ _).mp h
    obtain ⟨rfl, hsize'⟩ := of_decide_eq_true h
    exact ⟨s, a, s', hrun, by decide, of_decide_eq_true hsize, hs', hsize'⟩
  · obtain ⟨⟨s, a⟩, hrun, h⟩ := (Option.any_eq_true _ _).mp hget
    obtain ⟨⟨s', r⟩, hs', h⟩ := (Option.any_eq_true _ _).mp h
    obtain rfl := of_decide_eq_true h
    exact ⟨s, a, s', hrun, by decide, hs'⟩

end Xinu
