import Mathlib.Order.Filter.AtTopBot.Basic
import Xinu.Net.Dns

/-!
# What a response says

The names, the questions and the answers that are in a response, as relations on its bytes that know
nothing of the resolver. `dns_getrname` ends, without an access outside the response and the buffer,
exactly for the names that are there and have a text that is not empty and fits in the buffer
(`dns_getrname_iff`). A name has one depth only, so that the pointers of a chain go to different
places: there are no more than the response has bytes (`NameAt.depth_le`).
-/

namespace Xinu

open Bytes Filter

/-- The text of labels: each one with a dot behind it. -/
def dotText (ls : List (List UInt8)) : List UInt8 := ls.flatMap fun l => l ++ [DOT]

/-- The name that labels make, with dots between them. -/
def dotted (ls : List (List UInt8)) : CString := (dotText ls).dropLast

variable {pkt : ℕ → UInt8} {len : ℕ}

/-- The name at a place of a response: its labels, the place behind it, and how many pointers lead
to its end. -/
inductive NameAt (pkt : ℕ → UInt8) (len : ℕ) : ℕ → List (List UInt8) → ℕ → ℕ → Prop where
  | root {p : ℕ} (hp : p < len) (h : (pkt p).toNat = 0) : NameAt pkt len p [] (p + 1) 0
  | label {p e d : ℕ} {ls : List (List UInt8)} (hp : p < len)
    (h : (pkt p).toNat ≠ 0) (hle : (pkt p).toNat ≤ 63)
      (rest : NameAt pkt len (p + 1 + (pkt p).toNat) ls e d) :
      NameAt pkt len p (bytesAt pkt (p + 1) (pkt p).toNat :: ls) e d
  | pointer {p e d : ℕ} {ls : List (List UInt8)} (hp : p + 1 < len) (h : 63 < (pkt p).toNat)
      (target : NameAt pkt len (be16 pkt p % 2 ^ 14) ls e d) : NameAt pkt len p ls (p + 2) (d + 1)

/-- The place behind the name of a question: the first pointer ends it, wherever it leads to. -/
inductive QNameAt (pkt : ℕ → UInt8) (len : ℕ) : ℕ → ℕ → Prop where
  | root {p : ℕ} (hp : p < len) (h : (pkt p).toNat = 0) : QNameAt pkt len p (p + 1)
  | pointer {p : ℕ} (hp : p < len) (h : 63 < (pkt p).toNat) : QNameAt pkt len p (p + 2)
  | label {p e : ℕ} (hp : p < len) (h : (pkt p).toNat ≠ 0) (hle : (pkt p).toNat ≤ 63)
      (rest : QNameAt pkt len (p + ((pkt p).toNat + 1)) e) : QNameAt pkt len p e

/-- So many questions, and the place behind them. -/
inductive QuestionsAt (pkt : ℕ → UInt8) (len : ℕ) : ℕ → ℕ → ℕ → Prop where
  | nil {p : ℕ} : QuestionsAt pkt len 0 p p
  | cons {n p e e' : ℕ} (name : QNameAt pkt len p e) (rest : QuestionsAt pkt len n (e + 4) e') :
    QuestionsAt pkt len (n + 1) p e'

/-- What is used of a resource record; the address is as it is in memory. -/
structure DnsRecord where
  /-- The labels of its owner. -/
  owner : List (List UInt8)
  /-- Its type. -/
  rtype : ℕ
  /-- The address in it. -/
  rdata : ℕ

/-- The record is an address of a name that starts with `dname`. -/
def DnsRecord.Matches (r : DnsRecord) (dname : CString) : Prop :=
  dname <+: dotted r.owner ∧ r.rtype = DNS_QT_A

instance decidableMatches (r : DnsRecord) (dname : CString) : Decidable (r.Matches dname) :=
  inferInstanceAs (Decidable (dname <+: dotted r.owner ∧ r.rtype = DNS_QT_A))

/-- The record whose name has these labels and ends before the place. -/
def recordAt (pkt : ℕ → UInt8) (ls : List (List UInt8)) (e : ℕ) : DnsRecord :=
  ⟨ls, be16 pkt e, le32 pkt (e + 10)⟩

/-- So many answers. The name of each has a label and fits in the buffer, its fields up to the
length of its data are there, and so is the address if the record is one of `dname`. -/
inductive AnswersAt (pkt : ℕ → UInt8) (len : ℕ) (dname : CString) : ℕ → ℕ → List DnsRecord → Prop where
  | nil {p : ℕ} : AnswersAt pkt len dname 0 p []
  | cons {n p e d : ℕ} {ls : List (List UInt8)} {rs : List DnsRecord}
    (name : NameAt pkt len p ls e d) (hne : ls ≠ [])
      (hfit : (dotText ls).length ≤ RNAME_SIZE) (fixed : e + 10 ≤ len)
      (address : (recordAt pkt ls e).Matches dname → e + 14 ≤ len)
      (rest : AnswersAt pkt len dname n (e + 10 + be16 pkt (e + 8)) rs) :
      AnswersAt pkt len dname (n + 1) p (recordAt pkt ls e :: rs)

/-! ## Runs -/

/-- What a sequence of two steps leaves. -/
theorem bind_eq_ok {α β : Type} {x : Except DnsFault α} {f : α → Except DnsFault β} {b : β} :
    (x >>= f) = .ok b ↔ ∃ a, x = .ok a ∧ f a = .ok b := by
  cases x with
  | error e => exact iff_of_false nofun fun ⟨_, h, _⟩ => nomatch h
  | ok a => exact ⟨fun h => ⟨a, rfl, h⟩, fun ⟨_, ha, h⟩ => by cases ha; exact h⟩

/-- A read succeeds exactly if it is inside the response. -/
theorem rpktRead_ok {offset count : ℕ} {u : Unit} :
    rpktRead len offset count = .ok u ↔ offset + count ≤ len := by
  unfold rpktRead
  split_ifs with h
  · exact iff_of_true rfl h
  · exact iff_of_false nofun h

/-- A write succeeds exactly if it is inside the buffer of the name. -/
theorem rnameWrite_ok {dst : ℕ} {u : Unit} : rnameWrite dst = .ok u ↔ dst < RNAME_SIZE := by
  unfold rnameWrite
  split_ifs with h
  · exact iff_of_true rfl h
  · exact iff_of_false nofun h

/-- What holds with enough fuel holds with one more. -/
theorem eventually_succ {P : ℕ → Prop} (h : ∀ᶠ fuel in atTop, P (fuel + 1)) : ∀ᶠ fuel in atTop, P fuel := by
  obtain ⟨n, hn⟩ := eventually_atTop.mp h
  refine eventually_atTop.mpr ⟨n + 1, fun fuel hfuel => ?_⟩
  obtain ⟨k, rfl⟩ : ∃ k, fuel = k + 1 := ⟨fuel - 1, by omega⟩
  exact hn k (by omega)

/-! ## Names -/

/-- The offset in a pointer is its 16 bits without the upper two. -/
theorem offset_eq (pkt : ℕ → UInt8) (p : ℕ) : ntohs (le16 pkt p) &&& 0x3fff = be16 pkt p % 2 ^ 14 := by
  rw [ntohs_le16]
  exact Nat.and_two_pow_sub_one_eq_mod _ 14

/-- The text of a label and of others. -/
theorem dotText_cons (l : List UInt8) (ls : List (List UInt8)) :
    dotText (l :: ls) = l ++ DOT :: dotText ls := by
  unfold dotText
  rw [List.flatMap_cons, List.append_assoc]
  rfl

/-- A name with a label has a text, and one without has none. -/
theorem dotText_ne_nil {ls : List (List UInt8)} : dotText ls ≠ [] ↔ ls ≠ [] := by
  cases ls with
  | nil => exact iff_of_false (fun h => h rfl) fun h => h rfl
  | cons l ls =>
    rw [dotText_cons]
    exact iff_of_true (by simp) (by simp)

/-- The loop copies a label exactly if it lies in the response and fits in the buffer. -/
theorem copyLabel_ok {r : ℕ → UInt8} :
    ∀ {llen son dst : ℕ} {rname : ℕ → UInt8}, copyLabel pkt len llen son dst rname = .ok r ↔
    (llen ≠ 0 → son + llen ≤ len ∧ dst + llen ≤ RNAME_SIZE) ∧ r = put rname dst (bytesAt pkt son llen) := by
  intro llen
  induction llen with
  | zero =>
    intro son dst rname
    rw [copyLabel, bytesAt, put_nil]
    exact ⟨fun h => ⟨fun h0 => absurd rfl h0, (Except.ok.inj h).symm⟩, fun h => by rw [h.2]⟩
  | succ llen ih =>
    intro son dst rname
    simp only [copyLabel, bind_eq_ok, rpktRead_ok, rnameWrite_ok, ih, bytesAt, put_cons]
    constructor
    · rintro ⟨-, hread, -, hwrite, hrest, hr⟩
      refine ⟨fun _ => ?_, hr⟩
      by_cases h0 : llen = 0
      · rw [h0]
        exact ⟨hread, hwrite⟩
      · have h := hrest h0
        omega
    · rintro ⟨h, hr⟩
      have h := h (Nat.succ_ne_zero llen)
      exact ⟨(), by omega, (), by omega, fun _ => by omega, hr⟩

/-- What the buffer has after a name: its text, with the null character in the place of the last dot. -/
def nameBuffer (rname : ℕ → UInt8) (dst : ℕ) (ls : List (List UInt8)) : ℕ → UInt8 :=
  Function.update (put rname dst (dotText ls)) (dst + (dotText ls).length - 1) 0

/-- No label more. -/
theorem nameBuffer_nil (rname : ℕ → UInt8) (dst : ℕ) :
    nameBuffer rname dst [] = Function.update rname (dst - 1) 0 := by
  have htext : dotText [] = [] := rfl
  rw [nameBuffer, htext, put_nil]
  rfl

/-- The buffer with a label and a dot, then the other labels, is that of them all. -/
theorem nameBuffer_cons (rname : ℕ → UInt8) (dst : ℕ) (l : List UInt8) (ls : List (List UInt8)) :
    nameBuffer (Function.update (put rname dst l) (dst + l.length) DOT)
    (dst + l.length + 1) ls = nameBuffer rname dst (l :: ls) := by
  have hput : put (Function.update (put rname dst l) (dst + l.length) DOT) (dst + l.length + 1) (dotText ls) =
      put rname dst (dotText (l :: ls)) := by
    rw [← put_cons, put_append, dotText_cons]
  have hlen : dst + l.length + 1 + (dotText ls).length - 1 = dst + (dotText (l :: ls)).length - 1 := by
    rw [dotText_cons, List.length_append, List.length_cons]
    omega
  unfold nameBuffer
  rw [hput, hlen]

/-- Where `dns_getrname` ends, there is a name. The induction is on the fuel. -/
theorem NameAt.of_run :
    ∀ {fuel son dst : ℕ} {rname : ℕ → UInt8} {r : Rname}, dns_getrname pkt len fuel son dst rname = .ok r →
    ∃ ls, NameAt pkt len son ls r.son r.depth ∧ 0 < dst + (dotText ls).length ∧
    (ls ≠ [] → dst + (dotText ls).length ≤ RNAME_SIZE) ∧
      r.rname = nameBuffer rname dst ls := by
  intro fuel
  induction fuel with
  | zero =>
    intro son dst rname r h
    exact nomatch h
  | succ fuel ih =>
    intro son dst rname r h
    rw [dns_getrname] at h
    simp only [bind_eq_ok, rpktRead_ok] at h
    obtain ⟨-, hson, h⟩ := h
    by_cases h0 : (pkt son).toNat = 0
    -- The name ends here, unless nothing has been written.
    · rw [if_pos h0] at h
      by_cases hdst : dst = 0
      · rw [if_pos hdst] at h
        exact nomatch h
      · rw [if_neg hdst] at h
        cases h
        exact ⟨[], .root hson h0, by omega, fun hne => absurd rfl hne, (nameBuffer_nil rname dst).symm⟩
    rw [if_neg h0] at h
    by_cases hle : (pkt son).toNat ≤ 63
    · -- a label, and the rest of the name
      rw [if_pos hle] at h
      simp only [bind_eq_ok, rnameWrite_ok, copyLabel_ok] at h
      obtain ⟨_, ⟨hcopy, rfl⟩, -, hdot, h⟩ := h
      obtain ⟨ls, hname, hpos, hfit, hbuf⟩ := ih h
      have hlen := length_bytesAt pkt (son + 1) (pkt son).toNat
      refine ⟨_, .label hson h0 hle hname, ?_, fun _ => ?_, ?_⟩
      · rw [dotText_cons, List.length_append]
        omega
      · rw [dotText_cons, List.length_append, List.length_cons, hlen]
        by_cases hls : ls = []
        · rw [hls]
          exact hdot
        · have hrest := hfit hls
          omega
      · rw [hbuf, ← nameBuffer_cons, hlen]
    · -- a pointer: nothing is written before the name that it leads to
      rw [if_neg hle] at h
      simp only [bind_eq_ok, rpktRead_ok, offset_eq] at h
      obtain ⟨-, hread, r', h, hr⟩ := h
      cases hr
      obtain ⟨ls, hname, hpos, hfit, hbuf⟩ := ih h
      exact ⟨ls, .pointer (by omega) (by omega) hname, hpos, hfit, hbuf⟩

/-- With enough fuel, `dns_getrname` reads a name that is there. The induction is on the name. -/
theorem NameAt.run {p e d : ℕ} {ls : List (List UInt8)} (h : NameAt pkt len p ls e d) :
    ∀ (dst : ℕ) (rname : ℕ → UInt8), 0 < dst + (dotText ls).length →
    (ls ≠ [] → dst + (dotText ls).length ≤ RNAME_SIZE) →
      ∀ᶠ fuel in atTop, dns_getrname pkt len fuel p dst rname = .ok ⟨e, nameBuffer rname dst ls, d⟩ := by
  induction h with
  | root hp h =>
    intro dst rname hpos _
    refine eventually_succ (Eventually.of_forall fun fuel => ?_)
    -- The root stands behind a name that is not empty, so there is a dot to be replaced.
    have hdst : dst ≠ 0 := Nat.pos_iff_ne_zero.mp hpos
    rw [dns_getrname, bind_eq_ok]
    refine ⟨(), rpktRead_ok.mpr hp, ?_⟩
    dsimp only
    rw [if_pos h, if_neg hdst, nameBuffer_nil]
  | @label p e d ls hp h hle rest ih =>
    intro dst rname _ hfit
    have hfit := hfit (List.cons_ne_nil _ _)
    have hlen := length_bytesAt pkt (p + 1) (pkt p).toNat
    rw [dotText_cons, List.length_append, List.length_cons, hlen] at hfit
    -- Behind a label there is at least one more byte, that of the rest of the name.
    have hin : p + 1 + (pkt p).toNat < len := by
      cases rest with
      | root hp _ => exact hp
      | label hp _ _ _ => exact hp
      | pointer hp _ _ => omega
    -- The rest is read one place behind the dot, with one unit of fuel less.
    refine eventually_succ ((ih (dst + (pkt p).toNat + 1)
      (Function.update (put rname dst (bytesAt pkt (p + 1) (pkt p).toNat)) (dst + (pkt p).toNat) DOT)
        (by omega) fun _ => by omega).mono fun fuel hrun => ?_)
    rw [dns_getrname, bind_eq_ok]
    refine ⟨(), rpktRead_ok.mpr hp, ?_⟩
    dsimp only
    rw [if_neg h, if_pos hle, bind_eq_ok]
    refine ⟨_, copyLabel_ok.mpr ⟨fun _ => ⟨by omega, by omega⟩, rfl⟩,
      bind_eq_ok.mpr ⟨(), rnameWrite_ok.mpr (by omega), ?_⟩⟩
    have hbuf := nameBuffer_cons rname dst (bytesAt pkt (p + 1) (pkt p).toNat) ls
    rw [hlen] at hbuf
    rw [hrun, hbuf]
  | @pointer p e d ls hp h target ih =>
    intro dst rname hpos hfit
    -- A pointer costs one unit of fuel and writes nothing.
    refine eventually_succ ((ih dst rname hpos hfit).mono fun fuel hrun => ?_)
    rw [dns_getrname, bind_eq_ok]
    refine ⟨(), rpktRead_ok.mpr (by omega), ?_⟩
    dsimp only
    rw [if_neg (by omega), if_neg (by omega), bind_eq_ok]
    refine ⟨(), rpktRead_ok.mpr hp, bind_eq_ok.mpr ⟨⟨e, nameBuffer rname dst ls, d⟩, ?_, rfl⟩⟩
    rw [offset_eq]
    exact hrun

/-- At one place of a response there is at most one name. -/
theorem NameAt.unique {p e d e' d' : ℕ} {ls ls' : List (List UInt8)}
    (h : NameAt pkt len p ls e d) (h' : NameAt pkt len p ls' e' d') :
    ls = ls' ∧ e = e' ∧ d = d' := by
  induction h generalizing ls' e' d' with
  | root hp h =>
    cases h' with
    | root _ _ => exact ⟨rfl, rfl, rfl⟩
    | label _ h₁ _ _ => exact absurd h h₁
    | pointer _ h₁ _ => omega
  | label hp h hle rest ih =>
    cases h' with
    | root _ h₁ => exact absurd h₁ h
    | label _ _ _ rest' =>
      obtain ⟨rfl, rfl, rfl⟩ := ih rest'
      exact ⟨rfl, rfl, rfl⟩
    | pointer _ h₁ _ => omega
  | pointer hp h target ih =>
    cases h' with
    | root _ h₁ => omega
    | label _ _ h₁ _ => omega
    | pointer _ _ target' =>
      obtain ⟨rfl, -, rfl⟩ := ih target'
      exact ⟨rfl, rfl, rfl⟩

/-- A name begins inside the response. -/
theorem NameAt.lt {p e d : ℕ} {ls : List (List UInt8)} (h : NameAt pkt len p ls e d) : p < len := by
  cases h with
  | root hp _ => exact hp
  | label hp _ _ _ => exact hp
  | pointer hp _ _ => omega

/-- Behind the pointers of a name there are names of each smaller depth. -/
theorem NameAt.exists_depth {p e d : ℕ} {ls : List (List UInt8)} (h : NameAt pkt len p ls e d) :
    ∀ k < d, ∃ q < len, ∃ ls' e', NameAt pkt len q ls' e' k := by
  induction h with
  | root _ _ => exact fun k hk => absurd hk (Nat.not_lt_zero k)
  | label _ _ _ _ ih => exact ih
  | @pointer p e d ls hp h target ih =>
    intro k hk
    rcases Nat.lt_succ_iff_lt_or_eq.mp hk with hlt | rfl
    · exact ih k hlt
    · exact ⟨_, target.lt, ls, e, target⟩

/-- A name has no more pointers than the response has bytes: they lead to names of different depths,
so to different places. -/
theorem NameAt.depth_le {p e d : ℕ} {ls : List (List UInt8)} (h : NameAt pkt len p ls e d) : d ≤ len := by
  choose q hq ls' e' hname using fun k : Fin d => h.exists_depth k.1 k.2
  have hinj : Function.Injective fun k : Fin d => (⟨q k, hq k⟩ : Fin len) := by
    intro j k hjk
    have hplace : q j = q k := congrArg Fin.val hjk
    have hj := hname j
    rw [hplace] at hj
    exact Fin.ext (hj.unique (hname k)).2.2
  have hcard := Fintype.card_le_of_injective _ hinj
  rwa [Fintype.card_fin, Fintype.card_fin] at hcard

/-- `dns_getrname` ends within the response and the buffer exactly for a name that has a label and fits. -/
theorem dns_getrname_iff {p : ℕ} (rname : ℕ → UInt8) :
    (∃ fuel r, dns_getrname pkt len fuel p 0 rname = .ok r ∧ r.depth ≤ len) ↔
    ∃ ls e d, NameAt pkt len p ls e d ∧ ls ≠ [] ∧ (dotText ls).length ≤ RNAME_SIZE := by
  constructor
  · rintro ⟨fuel, r, h, -⟩
    obtain ⟨ls, hname, hpos, hfit, -⟩ := NameAt.of_run h
    rw [Nat.zero_add] at hpos hfit
    have hne : ls ≠ [] := dotText_ne_nil.mp (List.length_pos_iff.mp hpos)
    exact ⟨ls, r.son, r.depth, hname, hne, hfit hne⟩
  · rintro ⟨ls, e, d, hname, hne, hfit⟩
    have hpos : 0 < (dotText ls).length := List.length_pos_iff.mpr (dotText_ne_nil.mpr hne)
    rw [← Nat.zero_add (dotText ls).length] at hpos hfit
    obtain ⟨fuel, hrun⟩ := (hname.run 0 rname hpos fun _ => hfit).exists
    exact ⟨fuel, _, hrun, hname.depth_le⟩

/-! ## Questions -/

/-- Where the name of a question is skipped, it is there. -/
theorem QNameAt.of_run : ∀ {fuel p e : ℕ}, skipName pkt len fuel p = .ok e → QNameAt pkt len p e := by
  intro fuel
  induction fuel with
  | zero =>
    intro p e h
    exact nomatch h
  | succ fuel ih =>
    intro p e h
    rw [skipName] at h
    simp only [bind_eq_ok, rpktRead_ok] at h
    obtain ⟨-, hp, h⟩ := h
    by_cases h0 : (pkt p).toNat = 0
    · rw [if_pos h0] at h
      cases h
      exact .root hp h0
    rw [if_neg h0] at h
    by_cases hgt : (pkt p).toNat > 63
    · rw [if_pos hgt] at h
      cases h
      exact .pointer hp hgt
    · rw [if_neg hgt] at h
      exact .label hp h0 (Nat.not_lt.mp hgt) (ih h)

/-- With enough fuel, a name that is there is skipped. -/
theorem QNameAt.run {p e : ℕ} (h : QNameAt pkt len p e) :
    ∀ᶠ fuel in atTop, skipName pkt len fuel p = .ok e := by
  induction h with
  | root hp h =>
    refine eventually_succ (Eventually.of_forall fun fuel => ?_)
    rw [skipName, bind_eq_ok]
    refine ⟨(), rpktRead_ok.mpr hp, ?_⟩
    dsimp only
    rw [if_pos h]
  | pointer hp h =>
    refine eventually_succ (Eventually.of_forall fun fuel => ?_)
    rw [skipName, bind_eq_ok]
    refine ⟨(), rpktRead_ok.mpr hp, ?_⟩
    dsimp only
    rw [if_neg (by omega), if_pos h]
  | label hp h hle rest ih =>
    refine eventually_succ (ih.mono fun fuel hrun => ?_)
    rw [skipName, bind_eq_ok]
    refine ⟨(), rpktRead_ok.mpr hp, ?_⟩
    dsimp only
    rw [if_neg h, if_neg (Nat.not_lt.mpr hle)]
    exact hrun

/-- Where the questions are skipped, they are there. -/
theorem QuestionsAt.of_run {fuel : ℕ} :
    ∀ {n p e : ℕ}, skipQuestions pkt len fuel n p = .ok e → QuestionsAt pkt len n p e := by
  intro n
  induction n with
  | zero =>
    intro p e h
    rw [skipQuestions] at h
    cases h
    exact .nil
  | succ n ih =>
    intro p e h
    rw [skipQuestions, bind_eq_ok] at h
    obtain ⟨e', hname, hrest⟩ := h
    exact .cons (.of_run hname) (ih hrest)

/-- With enough fuel, questions that are there are skipped. -/
theorem QuestionsAt.run {n p e : ℕ} (h : QuestionsAt pkt len n p e) :
    ∀ᶠ fuel in atTop, skipQuestions pkt len fuel n p = .ok e := by
  induction h with
  | nil => exact Eventually.of_forall fun fuel => rfl
  | cons name rest ih =>
    filter_upwards [name.run, ih] with fuel hname hrest
    rw [skipQuestions, bind_eq_ok]
    exact ⟨_, hname, hrest⟩

/-! ## Answers -/

/-- The text of labels ends with a dot. -/
theorem dotText_eq {ls : List (List UInt8)} (h : ls ≠ []) : dotText ls = dotted ls ++ [DOT] := by
  have hlast : ∃ name, dotText ls = name ++ [DOT] := by
    induction ls with
    | nil => exact absurd rfl h
    | cons l ls ih =>
      rw [dotText_cons]
      by_cases hls : ls = []
      · rw [hls]
        exact ⟨l, rfl⟩
      · obtain ⟨name, hname⟩ := ih hls
        rw [hname]
        exact ⟨l ++ DOT :: name, by rw [List.append_assoc, List.cons_append]⟩
  obtain ⟨name, hname⟩ := hlast
  rw [dotted, hname, List.dropLast_concat]

/-- The buffer has the name, with a null character behind it. -/
theorem nameBuffer_eq (rname : ℕ → UInt8) (dst : ℕ) {ls : List (List UInt8)} (h : ls ≠ []) :
    nameBuffer rname dst ls = put rname dst (dotted ls ++ [0]) := by
  have hend : dst + (dotText ls).length - 1 = dst + (dotted ls).length := by
    rw [dotText_eq h, List.length_append, List.length_singleton]
    omega
  rw [nameBuffer, hend, dotText_eq h, ← put_append, ← put_append,
    put_cons, put_nil, put_cons, put_nil, Function.update_idem]

/-- The comparison of a name with the beginning of the buffer. -/
theorem startsWith_put {dname : CString} (hd : ∀ ch ∈ dname, ch ≠ 0) :
    ∀ (name : List UInt8) (i : ℕ) (b : ℕ → UInt8), startsWith dname i
      (put b i (name ++ [0])) = true ↔ dname <+: name := by
  induction dname with
  | nil => exact fun name i b => iff_of_true rfl List.nil_prefix
  | cons ch dname ih =>
    intro name i b
    have hch : ch ≠ 0 := hd ch List.mem_cons_self
    have hfirst (x : UInt8) (l : List UInt8) : put b i (x :: l) i = x := by
      unfold put
      rw [if_pos (Nat.le_refl i), Nat.sub_self, List.getD_cons_zero]
    cases name with
    | nil =>
      rw [startsWith, List.nil_append, hfirst]
      exact iff_of_false (by simp [hch.symm]) (by simp)
    | cons x name =>
      rw [startsWith, List.cons_append, hfirst, put_cons, List.cons_prefix_cons,
        Bool.and_eq_true, decide_eq_true_eq,
        ih fun c hc => hd c (List.mem_cons_of_mem ch hc)]
      exact and_congr_left fun _ => eq_comm

/-- The address that is taken, of the one so far and the one of a record. -/
def LocalNet.pick (net : LocalNet) (dname : CString) (ipaddr : ℕ) (r : DnsRecord) : ℕ :=
  if r.Matches dname then if ipaddr = 0 ∨ net.onNet (ntohl r.rdata) then r.rdata else ipaddr else ipaddr

variable {net : LocalNet} {dname : CString}

/-- Where the answers are read, they are there, and the address is that of the records. -/
theorem AnswersAt.of_run (hd : ∀ ch ∈ dname, ch ≠ 0) {fuel : ℕ} :
    ∀ {n p ipaddr depth : ℕ} {rname : ℕ → UInt8} {r : ℕ × ℕ},
      readAnswers pkt len net dname fuel n p ipaddr depth rname = .ok r →
      ∃ rs, AnswersAt pkt len dname n p rs ∧ r.1 = rs.foldl (net.pick dname) ipaddr := by
  intro n
  induction n with
  | zero =>
    intro p ipaddr depth rname r h
    rw [readAnswers] at h
    cases h
    exact ⟨[], .nil, rfl⟩
  | succ n ih =>
    intro p ipaddr depth rname r h
    rw [readAnswers] at h
    simp only [bind_eq_ok, rpktRead_ok, ntohs_le16] at h
    obtain ⟨q, hrun, -, -, ip, hip, -, hfixed, hrest⟩ := h
    -- What was read as a name is one, and its text is in the buffer.
    obtain ⟨ls, hname, hpos, hfit, hbuf⟩ := NameAt.of_run hrun
    rw [Nat.zero_add] at hpos hfit
    have hne : ls ≠ [] := dotText_ne_nil.mp (List.length_pos_iff.mp hpos)
    -- The comparison of the source says whether the record is an address of `dname`.
    have hmatch : startsWith dname 0 q.rname ∧ be16 pkt q.son = DNS_QT_A ↔
        (recordAt pkt ls q.son).Matches dname := by
      rw [hbuf, nameBuffer_eq rname 0 hne, startsWith_put hd]
      rfl
    have hnext : q.son + 8 + (be16 pkt (q.son + 8) + 2) = q.son + 10 + be16 pkt (q.son + 8) := by omega
    rw [hnext] at hrest
    obtain ⟨rs, hrs, hr⟩ := ih hrest
    refine ⟨_, .cons hname hne (hfit hne) (by omega) (fun hm => ?_) hrs, ?_⟩
    · rw [if_pos (hmatch.mpr hm)] at hip
      simp only [bind_eq_ok, rpktRead_ok] at hip
      omega
    -- So the address is the one that the model picks.
    · have hpick : ip = net.pick dname ipaddr (recordAt pkt ls q.son) := by
        unfold LocalNet.pick
        by_cases hm : (recordAt pkt ls q.son).Matches dname
        · rw [if_pos (hmatch.mpr hm)] at hip
          simp only [bind_eq_ok, rpktRead_ok] at hip
          obtain ⟨-, -, hip⟩ := hip
          rw [if_pos hm]
          exact (Except.ok.inj hip).symm
        · rw [if_neg (hmatch.not.mpr hm)] at hip
          rw [if_neg hm]
          exact (Except.ok.inj hip).symm
      rw [hr, hpick, List.foldl_cons]

/-- With enough fuel, answers that are there are read. -/
theorem AnswersAt.run (net : LocalNet) (hd : ∀ ch ∈ dname, ch ≠ 0)
    {n p : ℕ} {rs : List DnsRecord} (h : AnswersAt pkt len dname n p rs) :
    ∀ (ipaddr depth : ℕ) (rname : ℕ → UInt8), depth ≤ len →
      ∀ᶠ fuel in atTop, ∃ d ≤ len, readAnswers pkt len net dname fuel n p ipaddr depth rname = .ok
        (rs.foldl (net.pick dname) ipaddr, d) := by
  induction h with
  | nil => exact fun ipaddr depth rname hdepth => Eventually.of_forall fun fuel => ⟨depth, hdepth, rfl⟩
  | @cons n p e d ls rs name hne hfit fixed address rest ih =>
    intro ipaddr depth rname hdepth
    -- A name is not empty, so at least one character is written.
    have hpos : 0 < 0 + (dotText ls).length := by
      rw [Nat.zero_add]
      exact List.length_pos_iff.mpr (dotText_ne_nil.mpr hne)
    have hrun := name.run 0 rname hpos fun _ => by rwa [Nat.zero_add]
    have hrest := ih (net.pick dname ipaddr (recordAt pkt ls e)) (max depth d) (nameBuffer rname 0 ls)
      (max_le hdepth name.depth_le)
    have hmatch : startsWith dname 0 (nameBuffer rname 0 ls) ∧ be16 pkt e = DNS_QT_A ↔
        (recordAt pkt ls e).Matches dname := by
      rw [nameBuffer_eq rname 0 hne, startsWith_put hd]
      rfl
    have hnext : e + 8 + (be16 pkt (e + 8) + 2) = e + 10 + be16 pkt (e + 8) := by omega
    -- Enough fuel for the name and for the rest of the answers.
    filter_upwards [hrun, hrest] with fuel hrun hrest
    obtain ⟨d', hd', hrest⟩ := hrest
    refine ⟨d', hd', ?_⟩
    rw [readAnswers, bind_eq_ok]
    refine ⟨_, hrun, ?_⟩
    dsimp only
    rw [bind_eq_ok]
    refine ⟨(), rpktRead_ok.mpr (by omega), bind_eq_ok.mpr
      ⟨net.pick dname ipaddr (recordAt pkt ls e), ?_, ?_⟩⟩
    · -- the address of the record, if it is one of `dname`
      rw [ntohs_le16]
      unfold LocalNet.pick
      by_cases hm : (recordAt pkt ls e).Matches dname
      · rw [if_pos (hmatch.mpr hm), if_pos hm, bind_eq_ok]
        exact ⟨(), rpktRead_ok.mpr (address hm), rfl⟩
      · rw [if_neg (hmatch.not.mpr hm), if_neg hm]
    · rw [bind_eq_ok]
      refine ⟨(), rpktRead_ok.mpr (by omega), ?_⟩
      rw [ntohs_le16, hnext]
      exact hrest

/-! ## Responses -/

/-- The counts are there, and so are as many questions and answers as they say. -/
def ResponseAt (pkt : ℕ → UInt8) (len : ℕ) (dname : CString) (rs : List DnsRecord) : Prop :=
  8 ≤ len ∧ ∃ p, QuestionsAt pkt len (be16 pkt DNS_QUCOUNT_AT) DNS_DATA_AT p ∧
    AnswersAt pkt len dname (be16 pkt DNS_ANCOUNT_AT) p rs

/-- Where `dns_geta` ends, the response has answers, and the address is that of these. -/
theorem ResponseAt.of_run (hd : ∀ ch ∈ dname, ch ≠ 0) {rname : ℕ → UInt8} {fuel : ℕ} {r : ℤ × ℕ × ℕ}
    (h : dns_geta pkt len net dname rname fuel = .ok r) : ∃ rs, ResponseAt pkt len dname rs ∧
      r.2.1 = rs.foldl (net.pick dname) 0 ∧ r.1 = if r.2.1 ≠ 0 then OK else SYSERR := by
  unfold dns_geta at h
  simp only [bind_eq_ok, rpktRead_ok, ntohs_le16] at h
  obtain ⟨-, -, p, hquestions, -, hcount, q, hanswers, hr⟩ := h
  obtain ⟨rs, hrs, hq⟩ := AnswersAt.of_run hd hanswers
  cases hr
  exact ⟨rs, ⟨hcount, p, .of_run hquestions, hrs⟩, hq, rfl⟩

/-- With enough fuel, `dns_geta` reads a response that has answers. -/
theorem ResponseAt.run (net : LocalNet) (hd : ∀ ch ∈ dname, ch ≠ 0)
    {rs : List DnsRecord} (h : ResponseAt pkt len dname rs) (rname : ℕ → UInt8) :
    ∀ᶠ fuel in atTop, ∃ r, dns_geta pkt len net dname rname fuel = .ok r ∧ r.2.2 ≤ len := by
  obtain ⟨hlen, p, hquestions, hrs⟩ := h
  filter_upwards [hquestions.run, hrs.run net hd 0 0 rname (Nat.zero_le len)] with fuel hskip hread
  obtain ⟨d, hdepth, hread⟩ := hread
  refine ⟨(if rs.foldl (net.pick dname) 0 ≠ 0 then OK else SYSERR,
    rs.foldl (net.pick dname) 0, d), ?_, hdepth⟩
  unfold dns_geta
  simp only [bind_eq_ok, rpktRead_ok, ntohs_le16]
  have hcount : DNS_QUCOUNT_AT + 2 ≤ len := by
    unfold DNS_QUCOUNT_AT
    omega
  exact ⟨(), hcount, p, hskip, (), hlen, _, hread, rfl⟩

/-- `dns_getrname` ends within the response and the buffer, and as deep as the response is long at
most, exactly for a name that has a label and fits; and `dns_geta` exactly for a response that has
as many questions and answers as it says, with such names. -/
theorem dns_safe (pkt : ℕ → UInt8) (len : ℕ) (net : LocalNet)
    (dname : CString) (rname : ℕ → UInt8) (hd : ∀ ch ∈ dname, ch ≠ 0) :
    (∀ p, (∃ fuel r, dns_getrname pkt len fuel p 0 rname = .ok r ∧ r.depth ≤ len) ↔
      ∃ ls e d, NameAt pkt len p ls e d ∧ ls ≠ [] ∧ (dotText ls).length ≤ RNAME_SIZE) ∧
    ((∃ fuel r, dns_geta pkt len net dname rname fuel = .ok r ∧ r.2.2 ≤ len) ↔
      ∃ rs, ResponseAt pkt len dname rs) := by
  refine ⟨fun p => dns_getrname_iff rname, ?_, ?_⟩
  · rintro ⟨fuel, r, h, -⟩
    obtain ⟨rs, hrs, -⟩ := ResponseAt.of_run hd h
    exact ⟨rs, hrs⟩
  · rintro ⟨rs, hrs⟩
    exact (hrs.run net hd rname).exists

/-- An answer whose name is a pointer to itself. -/
def selfResponse : ℕ → UInt8 := ofList [0, 0, 0x81, 0x80, 0, 0, 0, 1, 0, 0, 0, 0, 0xc0, 12]

/-- An answer for the root. -/
def rootResponse : ℕ → UInt8 :=
  ofList [0, 0, 0x81, 0x80, 0, 0, 0, 1, 0, 0, 0, 0, 0, 0, 1, 0, 1, 0, 0, 0, 0, 0, 4, 10, 0, 0, 1]

/-- A question for `x`, and an address of it. -/
def xResponse : ℕ → UInt8 := ofList
  ([0, 0, 0x81, 0x80, 0, 1, 0, 1, 0, 0, 0, 0] ++ [1, 120, 0, 0, 1, 0, 1] ++
    [0xc0, 12, 0, 1, 0, 1, 0, 0, 0, 0, 0, 4, 10, 0, 0, 1])

/-- Following a pointer to itself uses up each fuel. -/
theorem getrname_self (rname : ℕ → UInt8) :
    ∀ fuel : ℕ, dns_getrname selfResponse 14 fuel 12 0 rname = .error .fuel
  | 0 => rfl
  | fuel + 1 => by
    have hread : rpktRead 14 12 1 = .ok () := rfl
    have hread₂ : rpktRead 14 12 2 = .ok () := rfl
    have hllen : (selfResponse 12).toNat = 192 := rfl
    have hoffset : ntohs (le16 selfResponse 12) &&& 0x3fff = 12 := by decide
    rw [dns_getrname, hread, hread₂, hllen, hoffset]
    dsimp only
    rw [getrname_self rname fuel]
    rfl

/-- `dns_geta` does not end on the first response, writes before the buffer for the second one, and
reads behind the end of an empty one. -/
theorem dns_unsafe : (∀ fuel, dns_geta selfResponse 14 ⟨0, 0⟩ [120] (ofList []) fuel = .error .fuel) ∧
    dns_geta rootResponse 27 ⟨0, 0⟩ [120] (ofList []) 9 = .error (.write (-1)) ∧
    dns_geta (ofList []) 0 ⟨0, 0⟩ [120] (ofList []) 9 = .error (.read 4) := by
  refine ⟨fun fuel => ?_, rfl, rfl⟩
  have hskip : skipQuestions selfResponse 14 fuel 0 DNS_DATA_AT = .ok 12 := rfl
  have hqu : ntohs (le16 selfResponse DNS_QUCOUNT_AT) = 0 := by decide
  have han : ntohs (le16 selfResponse DNS_ANCOUNT_AT) = 1 := by decide
  unfold dns_geta
  rw [hqu, han]
  dsimp only
  rw [hskip]
  show (readAnswers selfResponse 14 ⟨0, 0⟩ [120] fuel 1 12 0 0 (ofList []) >>= _) = _
  rw [readAnswers, getrname_self]
  rfl

/-- The response for the name `x` is read without an access outside. -/
theorem dns_safe_x : ∃ rs, ResponseAt xResponse 35 [120] rs :=
  (dns_safe xResponse 35 ⟨0, 0⟩ [120] (ofList []) (by simp)).2.mp ⟨4, (OK, 0x0100000a, 1), rfl, by decide⟩

end Xinu
