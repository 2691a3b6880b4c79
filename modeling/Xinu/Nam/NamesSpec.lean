import Xinu.Nam.Names

/-!
# The name space maps names

A table that `mount` has built holds the mappings (`Mounted.holds`). `namrepl` does what `mapOnce`
says for names of less than 127 characters: the length of a longer name, with its null character,
does not fit into the variable `olen` of type `char`, and nothing is copied behind the replacement
(`namrepl_right`, `namrepl_long`). `nammap` does what `mapName` says if all names on the way are as
short (`nammap_right`).
-/

namespace Xinu

open Bytes Strings

/-! ## Lengths and copies -/

section

variable {name old new : ℕ → UInt8} {l : CString} {n i : ℕ}

/-- The loop of `namlen` finds the end of a string that is short enough. -/
theorem namlen_loop (h : StringAt name i l) (hl : l.length < n) :
    namlen.loop name n i = (i + l.length : ℕ) + 1 := by
  induction l generalizing n i with
  | nil =>
    obtain ⟨n, rfl⟩ : ∃ k, n = k + 1 := ⟨n - 1, by rw [List.length_nil] at hl; omega⟩
    exact if_pos h
  | cons ch l ih =>
    obtain ⟨rfl, hne, h⟩ := h
    rw [List.length_cons] at hl ⊢
    obtain ⟨n, rfl⟩ : ∃ k, n = k + 1 := ⟨n - 1, by omega⟩
    rw [namlen.loop, if_neg hne, ih h (by omega)]
    omega

/-- The length of a string, with its null character. -/
theorem namlen_eq (h : StringAt name 0 l) (hl : l.length < n) : namlen name n = (l.length : ℤ) + 1 := by
  rw [namlen, namlen_loop h hl, Nat.zero_add]

/-- Where `namlen` finds an end, there is a string. -/
theorem namlen_string (h : namlen name n ≠ SYSERR) : ∃ l, StringAt name 0 l ∧ l.length < n := by
  have hloop : ∀ n i, namlen.loop name n i ≠ SYSERR → ∃ l, StringAt name i l ∧ l.length < n := by
    intro n
    induction n with
    | zero => exact fun i h => absurd rfl h
    | succ n ih =>
      intro i h
      rw [namlen.loop] at h
      by_cases h0 : name i = 0
      · exact ⟨[], h0, Nat.succ_pos n⟩
      · rw [if_neg h0] at h
        obtain ⟨l, hl, hlt⟩ := ih (i + 1) h
        exact ⟨name i :: l, ⟨rfl, h0, hl⟩, Nat.succ_lt_succ hlt⟩
  exact hloop n 0 h

/-- The text of a name that is a string in the buffer is this string. -/
theorem nameText_eq (h : StringAt name 0 l) (hl : l.length < n) : nameText name n = l := by
  rw [nameText, namlen_eq h hl, show ((l.length : ℤ) + 1).toNat - 1 = l.length by omega]
  exact (stringAt_iff.mp h).1

/-- The loop of `namcpy` copies a string that is short enough. -/
theorem namcpy_loop (h : StringAt old i l) (hl : l.length < n) :
    namcpy.loop old n i new = (put new i (l ++ [0]), OK) := by
  induction l generalizing n i new with
  | nil =>
    obtain ⟨n, rfl⟩ : ∃ k, n = k + 1 := ⟨n - 1, by rw [List.length_nil] at hl; omega⟩
    have h : old i = 0 := h
    rw [namcpy.loop, h, if_pos rfl, List.nil_append, put_cons, put_nil]
  | cons ch l ih =>
    obtain ⟨rfl, hne, h⟩ := h
    rw [List.length_cons] at hl
    obtain ⟨n, rfl⟩ : ∃ k, n = k + 1 := ⟨n - 1, by omega⟩
    rw [namcpy.loop, if_neg hne, ih h (by omega), List.cons_append, put_cons]

/-- A string is copied with its null character. -/
theorem namcpy_eq (h : StringAt old 0 l) (hl : l.length < n) :
    namcpy new old n = (put new 0 (l ++ [0]), OK) := namcpy_loop h hl

/-- The bytes of a string with its null character. -/
theorem bytesAt_string (h : StringAt name i l) : bytesAt name i (l.length + 1) = l ++ [0] := by
  obtain ⟨hbytes, -, hend⟩ := stringAt_iff.mp h
  rw [bytesAt_add, hbytes, bytesAt, hend]
  rfl

/-- A prefix is compared with a name. -/
theorem comparePrefix_spec {pre : ℕ → UInt8} {lp : CString}
    (hp : StringAt pre i lp) (hs : StringAt name i l) (hlen : lp.length ≤ n) :
    (pre (comparePrefix pre name n i) = 0 ↔ lp <+: l) ∧
    (lp <+: l → comparePrefix pre name n i = i + lp.length) := by
  induction lp generalizing n i l with
  | nil =>
    have hp : pre i = 0 := hp
    have hstop : comparePrefix pre name n i = i := by
      cases n with
      | zero => rfl
      | succ n => exact if_pos hp
    rw [hstop]
    exact ⟨iff_of_true hp List.nil_prefix, fun _ => rfl⟩
  | cons ch lp ih =>
    obtain ⟨rfl, hne, hp⟩ := hp
    rw [List.length_cons] at hlen
    obtain ⟨n, rfl⟩ : ∃ k, n = k + 1 := ⟨n - 1, by omega⟩
    rw [comparePrefix, if_neg hne]
    cases l with
    | nil =>
      -- the name ends before the prefix
      have hs : name i = 0 := hs
      rw [if_pos (by rw [hs]; exact hne)]
      exact ⟨iff_of_false hne (by simp), fun h => absurd h (by simp)⟩
    | cons c l =>
      obtain ⟨rfl, -, hs⟩ := hs
      by_cases heq : pre i = name i
      · rw [if_neg (not_not.mpr heq), heq, List.cons_prefix_cons, and_iff_right rfl]
        obtain ⟨hiff, hlen'⟩ := ih (n := n) hp hs (by omega)
        refine ⟨hiff, fun h => ?_⟩
        rw [hlen' h, List.length_cons]
        omega
      · rw [if_pos heq]
        have hno : ¬ (pre i :: lp <+: name i :: l) := fun h => heq (List.cons_prefix_cons.mp h).1
        exact ⟨iff_of_false hne hno, fun h => absurd h hno⟩

end

/-! ## The table -/

/-- The entry of the table holds the mapping. -/
structure Nmentry.Holds (b : Nmentry) (e : Mapping) : Prop where
  /-- Its prefix is that of the mapping. -/
  pre : StringAt b.nprefix 0 e.pre
  /-- The prefix fits, with its null character. -/
  pre_lt : e.pre.length < NM_PRELEN
  /-- Its replacement is that of the mapping. -/
  repl : StringAt b.nreplace 0 e.repl
  /-- The replacement fits too. -/
  repl_lt : e.repl.length < NM_REPLLEN
  /-- Its device is that of the mapping. -/
  device : b.ndevice = e.device
  /-- A device number is not negative. -/
  device_nonneg : 0 ≤ e.device

/-- The table holds the mappings. -/
structure NameTable.Holds (s : NameTable) (t : List Mapping) : Prop where
  /-- There is an entry for each mapping. -/
  nnames : s.nnames = t.length
  /-- Each entry holds its mapping. -/
  entry : ∀ i e, t[i]? = some e → (s.nametab i).Holds e

section

variable {s s₀ : NameTable} {t : List Mapping} {name newname : ℕ → UInt8}
  {l : CString} {e : Mapping} {namdev : ℤ} {i n : ℕ}

/-- A mapping is added behind the others. -/
theorem NameTable.Holds.mount (h : s.Holds t) {pre replace : ℕ → UInt8}
    {device : ℤ} (hok : (s.mount pre replace device).2 = OK) :
    (s.mount pre replace device).1.Holds
      (t ++ [⟨nameText pre NM_PRELEN, nameText replace NM_REPLLEN, device⟩]) := by
  unfold NameTable.mount at hok ⊢
  dsimp only at hok ⊢
  by_cases hfull : s.nnames ≥ NNAMES
  · rw [if_pos hfull] at hok
    exact absurd (show SYSERR = OK from hok) (by decide)
  rw [if_neg hfull] at hok ⊢
  by_cases hbad : namlen pre NM_PRELEN = SYSERR ∨ namlen replace NM_REPLLEN = SYSERR ∨
    device < 0 ∨ device ≥ NDEVS
  · rw [if_pos hbad] at hok
    exact absurd (show SYSERR = OK from hok) (by decide)
  rw [if_neg hbad]
  simp only [not_or] at hbad
  obtain ⟨hpre, hrepl, hdev, -⟩ := hbad
  obtain ⟨lp, hlp, hlt⟩ := namlen_string hpre
  obtain ⟨lr, hlr, hlt'⟩ := namlen_string hrepl
  rw [nameText_eq hlp hlt, nameText_eq hlr hlt', namlen_eq hlp hlt, namlen_eq hlr hlt']
  -- a string is copied with its null character
  have hcopy : ∀ (m old : ℕ → UInt8) (l : CString), StringAt m 0 l →
      StringAt (put old 0 (bytesAt m 0 ((l.length : ℤ) + 1).toNat)) 0 l :=
    fun m old l hl => by
      rw [show ((l.length : ℤ) + 1).toNat = l.length + 1 by omega, bytesAt_string hl]
      exact stringAt_put old 0 hl.ne_zero []
  refine ⟨?_, fun i e he => ?_⟩
  · rw [List.length_append, List.length_singleton, h.nnames]
  · dsimp only
    by_cases hi : i = t.length
    · subst hi
      rw [List.getElem?_append_right (Nat.le_refl _), Nat.sub_self] at he
      obtain rfl := Option.some.inj he
      rw [h.nnames, Function.update_self]
      exact ⟨hcopy _ _ _ hlp, hlt, hcopy _ _ _ hlr, hlt', rfl, not_lt.mp hdev⟩
    · have hlt : i < (t ++ [(⟨lp, lr, device⟩ : Mapping)]).length := (List.getElem?_eq_some_iff.mp he).1
      rw [List.length_append, List.length_singleton] at hlt
      rw [List.getElem?_append_left (by omega)] at he
      rw [h.nnames, Function.update_of_ne hi]
      exact h.entry i e he

/-- **A table that calls of `mount` have built holds the mappings.** -/
theorem Mounted.holds (h : Mounted s₀ s t) : s.Holds t := by
  induction h with
  | naminit => exact ⟨rfl, fun i e he => by cases he⟩
  | mount _ hok ih => exact ih.mount hok

/-- The search through the table finds the first mapping whose prefix matches. -/
theorem NameTable.Holds.firstMatch (h : s.Holds t) (hname : StringAt name 0 l) (hn : i + n = t.length) :
    (s.firstMatch name n i = none ∧ matching (t.drop i) l = none) ∨
    ∃ k e, s.firstMatch name n i = some (k, e.pre.length) ∧
    matching (t.drop i) l = some e ∧ t[k]? = some e ∧ e.pre <+: l := by
  induction n generalizing i with
  | zero => exact .inl ⟨rfl, by rw [List.drop_eq_nil_of_le (by omega)]; rfl⟩
  | succ n ih =>
    have hlt : i < t.length := by omega
    have he := h.entry i _ (List.getElem?_eq_getElem hlt)
    obtain ⟨hiff, hlen⟩ := comparePrefix_spec he.pre hname he.pre_lt.le
    rw [← List.getElem_cons_drop hlt, NameTable.firstMatch]
    by_cases hpre : t[i].pre <+: l
    · rw [if_neg (not_not.mpr (hiff.mpr hpre)), hlen hpre, Nat.zero_add]
      refine .inr ⟨i, t[i], rfl, ?_, List.getElem?_eq_getElem hlt, hpre⟩
      exact List.find?_cons_of_pos (List.isPrefixOf_iff_prefix.mpr hpre)
    · rw [if_pos fun h0 => hpre (hiff.mp h0)]
      have hskip : matching (t[i] :: t.drop (i + 1)) l = matching (t.drop (i + 1)) l :=
        List.find?_cons_of_neg fun h0 => hpre (List.isPrefixOf_iff_prefix.mp h0)
      rw [hskip]
      exact ih (by omega)

/-! ## One step -/

/-- The result of a step or of the mapping is stored in the buffer and returned, and the buffer is
not left. -/
structure Stored (newname : ℕ → UInt8) (res : Option (ℤ × CString)) (r : (ℕ → UInt8) × ℤ) : Prop where
  /-- Without a result, `SYSERR` is returned. -/
  failed : res = none → r.2 = SYSERR
  /-- With one, its device is returned. -/
  device : ∀ p, res = some p → r.2 = p.1
  /-- The buffer holds the new name as a string. -/
  name : ∀ p, res = some p → StringAt r.1 0 p.2 ∧ p.2.length < NM_MAXLEN
  /-- No byte behind the buffer has changed. -/
  inside : ∀ j ≥ NM_MAXLEN, r.1 j = newname j

/-- The length of a name of less than 127 characters fits into a variable of type `char`. -/
theorem signedChar_of_lt (h : l.length < 127) : signedChar ((l.length : ℤ) + 1) = (l.length : ℤ) + 1 := by
  unfold signedChar
  rw [Int.bmod_def]
  omega

/-- The length of a longer name does not. -/
theorem signedChar_of_ge (h : 127 ≤ l.length) (hl : l.length < NM_MAXLEN) :
    signedChar ((l.length : ℤ) + 1) = (l.length : ℤ) - 255 := by
  have hl : l.length < 256 := hl
  unfold signedChar
  rw [Int.bmod_def]
  omega

/-- The new name has the length of the old one, with that of the prefix replaced. -/
theorem Mapping.length_apply (e : Mapping) (l : CString) :
    (e.apply l).length = e.repl.length + (l.length - e.pre.length) := by
  rw [Mapping.apply, List.length_append, List.length_drop]

/-- `namrepl` does one step for a short name. -/
theorem NameTable.Holds.namrepl_short (h : s.Holds t) (hname : StringAt name 0 l) (hl : l.length < 127) :
    Stored newname (mapOnce t l) (s.namrepl name newname) := by
  unfold NameTable.namrepl mapOnce
  rcases h.firstMatch hname (i := 0) (n := s.nnames) (by rw [h.nnames]; omega) with
    ⟨hnone, hmatch⟩ | ⟨k, e, hsome, hmatch, hk, hpre⟩
  · rw [List.drop_zero] at hmatch
    rw [hnone, hmatch]
    exact ⟨fun _ => rfl, fun p hp => (by cases hp), fun p hp => (by cases hp), fun _ _ => rfl⟩
  rw [List.drop_zero] at hmatch
  rw [hsome, hmatch, Option.bind_some]
  have he := h.entry k e hk
  have hle := hpre.length_le
  have hlen := e.length_apply l
  have hrepl : e.repl.length < 96 := he.repl_lt
  dsimp only
  rw [namlen_eq hname (show l.length < NM_MAXLEN by dsimp only [NM_MAXLEN]; omega),
    namlen_eq he.repl (show e.repl.length < NM_MAXLEN by dsimp only [NM_MAXLEN]; omega), signedChar_of_lt hl]
  have hroom : (e.repl.length : ℤ) + 1 - 1 + ((l.length : ℤ) + 1 - e.pre.length) > (NM_MAXLEN : ℤ) ↔
      (e.apply l).length + 1 > NM_MAXLEN := by
    rw [hlen]
    dsimp only [NM_MAXLEN]
    omega
  by_cases hfit : (e.apply l).length + 1 > NM_MAXLEN
  · rw [if_pos (hroom.mpr hfit), if_pos hfit]
    exact ⟨fun _ => rfl, fun p hp => (by cases hp), fun p hp => (by cases hp), fun _ _ => rfl⟩
  rw [if_neg fun hc => hfit (hroom.mp hc), if_neg hfit]
  -- the replacement, and the rest of the name with its null character
  have hdrop := hname.drop hle
  rw [Nat.zero_add] at hdrop
  have hbytes : put (put newname 0 (bytesAt (s.nametab k).nreplace 0 ((e.repl.length : ℤ) + 1 - 1).toNat))
      ((e.repl.length : ℤ) + 1 - 1).toNat
      (bytesAt name e.pre.length ((l.length : ℤ) + 1 - e.pre.length).toNat) = put newname 0
        (e.apply l ++ [0]) := by
    rw [show ((e.repl.length : ℤ) + 1 - 1).toNat = e.repl.length by omega,
      show ((l.length : ℤ) + 1 - e.pre.length).toNat = (l.drop e.pre.length).length +
        1 by rw [List.length_drop]; omega,
      bytesAt_string hdrop, (stringAt_iff.mp he.repl).1]
    have happend := put_append e.repl (l.drop e.pre.length ++ [0]) newname 0
    rw [Nat.zero_add] at happend
    rw [happend, Mapping.apply, List.append_assoc]
  have hzero : ∀ ch ∈ e.apply l, ch ≠ 0 := fun ch hch => by
    rcases List.mem_append.mp hch with hch | hch
    · exact he.repl.ne_zero ch hch
    · exact hdrop.ne_zero ch hch
  rw [hbytes, he.device]
  refine ⟨fun hn => (by cases hn), fun p hp => ?_, fun p hp => ?_, fun j hj => ?_⟩
  · obtain rfl := Option.some.inj hp
    rfl
  · obtain rfl := Option.some.inj hp
    exact ⟨stringAt_put newname 0 hzero [], by dsimp only; omega⟩
  · change put newname 0 (e.apply l ++ [0]) j = newname j
    refine put_of_ge newname ?_
    rw [List.length_append, List.length_singleton]
    omega

/-- `namrepl` copies only the replacement for a long name. -/
theorem NameTable.Holds.namrepl_long (h : s.Holds t) (hname : StringAt name 0 l)
    (hl : 127 ≤ l.length) (hlt : l.length < NM_MAXLEN)
    (he : matching t l = some e) :
    s.namrepl name newname = (put newname 0 e.repl, e.device) ∧ 0 ≤ e.device := by
  unfold NameTable.namrepl
  rcases h.firstMatch hname (i := 0) (n := s.nnames) (by rw [h.nnames]; omega) with
    ⟨-, hmatch⟩ | ⟨k, e', hsome, hmatch, hk, hpre⟩
  · rw [List.drop_zero, he] at hmatch
    cases hmatch
  rw [List.drop_zero, he] at hmatch
  obtain rfl := Option.some.inj hmatch
  have hk := h.entry k e hk
  have hrepl : e.repl.length < 96 := hk.repl_lt
  have hlt' : l.length < 256 := hlt
  rw [hsome]
  dsimp only
  rw [namlen_eq hname hlt, namlen_eq hk.repl
    (show e.repl.length < NM_MAXLEN by dsimp only [NM_MAXLEN]; omega), signedChar_of_ge hl hlt,
    if_neg (by dsimp only [NM_MAXLEN]; omega), show ((e.repl.length : ℤ) + 1 - 1).toNat =
      e.repl.length by omega,
    show ((l.length : ℤ) - 255 - e.pre.length).toNat = 0 by omega, (stringAt_iff.mp hk.repl).1, hk.device]
  exact ⟨by rw [bytesAt, put_nil], hk.device_nonneg⟩

/-- `namrepl` does one step, whatever the buffer holds. -/
def NamreplRight (s : NameTable) (t : List Mapping) (name : ℕ → UInt8) (l : CString) : Prop :=
  ∀ newname, Stored newname (mapOnce t l) (s.namrepl name newname)

/-- No prefix matches, or the name has less than 127 characters. -/
def ShortName (t : List Mapping) (l : CString) : Prop := matching t l = none ∨ l.length < 127

/-- `namrepl` is right exactly for short names. -/
theorem NameTable.Holds.namrepl_right (h : s.Holds t) (hname : StringAt name 0 l)
    (hlt : l.length < NM_MAXLEN) :
    NamreplRight s t name l ↔ ShortName t l := by
  constructor
  · intro hright
    by_contra hno
    obtain ⟨hmatch, hl⟩ := not_or.mp hno
    obtain ⟨e, he⟩ := Option.ne_none_iff_exists'.mp hmatch
    have hlong : s.namrepl name (fun _ => 1) = (put (fun _ => 1) 0 e.repl, e.device) ∧ 0 ≤ e.device :=
      h.namrepl_long hname (not_lt.mp hl) hlt he
    obtain ⟨hres, hdev⟩ := hlong
    have hstored := hright fun _ => 1
    rw [hres] at hstored
    cases hmap : mapOnce t l with
    | none =>
      have := hstored.failed hmap
      dsimp only [SYSERR] at this
      omega
    | some p =>
      -- there is no null character behind the replacement
      have hend := (hstored.name p hmap).1.end_eq
      have hp : p.2 = e.apply l := by
        unfold mapOnce at hmap
        rw [he, Option.bind_some] at hmap
        split_ifs at hmap
        rw [← Option.some.inj hmap]
      rw [hp, e.length_apply] at hend
      dsimp only at hend
      rw [put_of_ge _ (by omega)] at hend
      exact absurd hend (by decide)
  · rintro (hmatch | hl) newname
    · unfold NameTable.namrepl mapOnce
      rcases h.firstMatch hname (i := 0) (n := s.nnames) (by rw [h.nnames]; omega) with
        ⟨hnone, -⟩ | ⟨k, e, -, hmatch', -⟩
      · rw [hnone, hmatch]
        exact ⟨fun _ => rfl, fun p hp => (by cases hp), fun p hp => (by cases hp), fun _ _ => rfl⟩
      · rw [List.drop_zero, hmatch] at hmatch'
        cases hmatch'
    · exact h.namrepl_short hname hl

/-! ## The mapping -/

/-- The names on the way are short. -/
def ShortWay (t : List Mapping) (namdev : ℤ) : ℕ → CString → Prop
  | 0, _ => True
  | n + 1, l => ShortName t l ∧ ∀ p, mapOnce t l = some p → p.1 = namdev → ShortWay t namdev n p.2

/-- The loop of `nammap` goes the way of `mapName`. -/
theorem NameTable.Holds.nammapLoop (h : s.Holds t) (hd : namdev ≠ SYSERR)
    {tmpname : ℕ → UInt8} (hname : StringAt tmpname 0 l)
    (hlt : l.length < NM_MAXLEN) (hw : ShortWay t namdev n l) :
    Stored newname (mapName t namdev n l) (s.nammapLoop namdev n tmpname newname) := by
  induction n generalizing l tmpname newname with
  | zero => exact ⟨fun _ => rfl, fun p hp => (by cases hp), fun p hp => (by cases hp), fun _ _ => rfl⟩
  | succ n ih =>
    obtain ⟨hshort, hway⟩ := hw
    -- One replacement is what `namrepl` does, since its buffers are large enough.
    have hstep := (h.namrepl_right hname hlt).mpr hshort newname
    unfold NameTable.nammapLoop mapName
    dsimp only
    cases hmap : mapOnce t l with
    | none =>
      -- No prefix fits: `namrepl` gives the error, which is not the device of the namespace.
      have hres := hstep.failed hmap
      rw [if_pos (by rw [hres]; exact Ne.symm hd)]
      exact ⟨fun _ => hres, fun p hp => (by cases hp), fun p hp => (by cases hp), hstep.inside⟩
    | some p =>
      have hdev := hstep.device p hmap
      obtain ⟨hstr, hlt'⟩ := hstep.name p hmap
      rw [Option.bind_some, hdev]
      by_cases hne : p.1 ≠ namdev
      · rw [if_pos hne, if_pos hne]
        -- The entry leads to a device: the loop ends there.
        refine ⟨fun hn => (by cases hn), fun q hq => ?_, fun q hq => ?_, hstep.inside⟩
        · obtain rfl := Option.some.inj hq
          exact hdev
        · obtain rfl := Option.some.inj hq
          exact ⟨hstr, hlt'⟩
      -- The entry leads to the namespace again: the new name is mapped, by induction.
      · rw [if_neg hne, if_neg hne, namcpy_eq hstr hlt']
        have hnext : Stored (s.namrepl tmpname newname).1 (mapName t namdev n p.2) _ :=
          ih (stringAt_put tmpname 0 hstr.ne_zero []) hlt'
          (hway p hmap (not_not.mp hne))
        exact { hnext with inside := fun j hj => (hnext.inside j hj).trans (hstep.inside j hj) }

/-- `nammap` maps the name, whatever the two buffers hold. -/
def NammapRight (s : NameTable) (t : List Mapping) (namdev : ℤ) (name : ℕ → UInt8) (l : CString) : Prop :=
  ∀ tmpname newname, Stored newname (mapName t namdev s.nnames l) (s.nammap tmpname name newname namdev)

/-- **The name space maps names.** For every table that accepted calls of `mount` have built,
`namrepl` does one step of the mapping exactly for the names that match no prefix or have less than
127 characters, and `nammap` does all steps if the names on the way are such names. -/
theorem nam_right (hm : Mounted s₀ s t) (hname : StringAt name 0 l)
    (hlt : l.length < NM_MAXLEN) (hd : namdev ≠ SYSERR) :
    (NamreplRight s t name l ↔ ShortName t l) ∧
    (ShortWay t namdev s.nnames l → NammapRight s t namdev name l) := by
  refine ⟨hm.holds.namrepl_right hname hlt, fun hw tmpname newname => ?_⟩
  unfold NameTable.nammap
  rw [namcpy_eq hname hlt]
  dsimp only
  rw [if_neg (by decide)]
  exact hm.holds.nammapLoop hd (stringAt_put tmpname 0 hname.ne_zero []) hlt hw

end

/-- A table in which device 5 has every name. -/
def oneMapping : NameTable :=
  (NameTable.mount { nametab := fun _ => ⟨fun _ => 0, fun _ => 0, 0⟩, nnames := 0 }
    (fun _ => 0) (fun _ => 0) 5).1

/-- It is the table of one call of `mount`. -/
theorem mounted_one :
    Mounted { nametab := fun _ => ⟨fun _ => 0, fun _ => 0, 0⟩, nnames := 0 } oneMapping [⟨[], [], 5⟩] :=
  .mount .naminit (by decide +kernel)

/-- The mappings of `h/` to `r/` in the name space, device 1, and of `r/` to `x` on device 5. -/
def twoMappings : List Mapping := [⟨[104, 47], [114, 47], 1⟩, ⟨[114, 47], [120], 5⟩]

/-- The table after the two calls of `mount`. -/
def twoMounts : NameTable :=
  let s : NameTable := { nametab := fun _ => ⟨fun _ => 0, fun _ => 0, 0⟩, nnames := 0 }
  ((s.mount (ofList [104, 47]) (ofList [114, 47]) 1).1.mount (ofList [114, 47]) (ofList [120]) 5).1

/-- Both are accepted. -/
theorem mounted_two :
    Mounted { nametab := fun _ => ⟨fun _ => 0, fun _ => 0, 0⟩, nnames := 0 } twoMounts twoMappings :=
  .mount (.mount .naminit (by decide +kernel)) (by decide +kernel)

/-- The name `h/a` becomes `r/a` in one step, and `xa` on device 5 in two. -/
theorem nam_right_two : mapOnce twoMappings [104, 47, 97] = some (1, [114, 47, 97]) ∧
    NamreplRight twoMounts twoMappings (ofList [104, 47, 97]) [104, 47, 97] ∧
    mapName twoMappings 1 2 [104, 47, 97] = some (5, [120, 97]) ∧
    NammapRight twoMounts twoMappings 1 (ofList [104, 47, 97]) [104, 47, 97] := by
  have hname : StringAt (ofList [104, 47, 97]) 0 [104, 47, 97] := by decide
  have hdevice : (1 : ℤ) ≠ SYSERR := by decide
  obtain ⟨hrepl, hmap⟩ := nam_right mounted_two hname (by decide) hdevice
  have hfirst : mapOnce twoMappings [104, 47, 97] = some (1, [114, 47, 97]) := by decide
  refine ⟨hfirst, hrepl.mpr (.inr (by decide)), by decide, hmap ⟨.inr (by decide), fun p hp _ => ?_⟩⟩
  rw [hfirst] at hp
  obtain rfl := Option.some.inj hp
  exact ⟨.inr (by decide), fun _ _ _ => trivial⟩

set_option maxRecDepth 100000 in
/-- A name of 127 characters is found, and not copied. -/
theorem longName_facts : StringAt (ofList (List.replicate 127 97)) 0 (List.replicate 127 97) ∧
    mapOnce [⟨[], [], 5⟩] (List.replicate 127 97) = some (5, List.replicate 127 97) ∧
    (oneMapping.namrepl (ofList (List.replicate 127 97)) fun _ => 1).2 = 5 ∧
    (oneMapping.namrepl (ofList (List.replicate 127 97)) fun _ => 1).1 0 = 1 := by
  decide +kernel

/-- **A name of 127 characters is lost**: the device is returned, and the buffer holds what it held before. -/
theorem namrepl_loses : ∃ s₀ s t name l, Mounted s₀ s t ∧
    StringAt name 0 l ∧ l.length < NM_MAXLEN ∧ ¬ NamreplRight s t name l := by
  obtain ⟨hname, hmap, -, hfirst⟩ := longName_facts
  have hlen : (List.replicate 127 (97 : UInt8)).length = 127 := List.length_replicate
  refine ⟨_, _, _, _, _, mounted_one, hname, by rw [hlen]; decide, fun hright => ?_⟩
  -- the first character of the result is what the buffer held
  have hget := (((hright fun _ => 1).name _ hmap).1.get (j := 0) (by rw [hlen]; decide)).1
  rw [Nat.add_zero, hfirst, List.getElem_replicate] at hget
  exact absurd hget (by decide)

end Xinu
