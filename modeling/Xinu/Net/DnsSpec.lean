import Xinu.Net.DnsFormat

/-!
# Names there and back

`dns_bldq` lays a name out as labels with their lengths, and `dns_getrname` reads it there, or
through pointers to it. The limit on the length is compared before the last six bytes are written,
so that names of 495 to 499 characters are accepted and do not fit. `dns_geta` takes any name that
starts with `dname` for it.
-/

namespace Xinu

open Bytes Filter

/-- A label has 1 to 63 characters, and no dot or null character. -/
structure LabelOk (l : List UInt8) : Prop where
  /-- It is not empty. -/
  pos : l ≠ []
  /-- Its length fits into six bits. -/
  le : l.length ≤ 63
  /-- It has no dot. -/
  dot : DOT ∉ l
  /-- It has no null character. -/
  null : 0 ∉ l

/-- A name as it is in a packet. -/
def encoded (ls : List (List UInt8)) : List UInt8 := (ls.flatMap fun l => UInt8.ofNat l.length :: l) ++ [0]

/-- A question: the name, `DNS_QT_A` and `DNS_QC_IN`. -/
def question (ls : List (List UInt8)) : List UInt8 := encoded ls ++ [0, 1, 0, 1]

/-! ## The question -/

/-- The state of the loop in a label, behind other bytes, with what has been written in order of place. -/
structure InLabel (q : Bldq) (area : ℕ → UInt8) (pre cur : List UInt8) : Prop where
  /-- The label stands behind the other bytes, with its length so far. -/
  area : q.area = put area 0 (pre ++ UInt8.ofNat cur.length :: cur)
  /-- The next byte goes behind it. -/
  data : q.data = pre.length + 1 + cur.length
  /-- Its length is in front of it. -/
  llptr : q.llptr = pre.length
  /-- The question goes as far. -/
  qlen : q.qlen = q.data
  /-- Nothing has been written behind that. -/
  within : ∀ w ∈ q.written, w < q.data

variable {q : Bldq} {area : ℕ → UInt8} {pre cur : List UInt8}

/-- The place behind the bytes. -/
theorem InLabel.data_eq (h : InLabel q area pre cur) :
    q.data = 0 + (pre ++ UInt8.ofNat cur.length :: cur).length := by
  rw [h.data, List.length_append, List.length_cons]
  omega

/-- A character goes to the end of the label, whose length goes up. -/
theorem InLabel.char (h : InLabel q area pre cur) (ch : UInt8) :
    InLabel (q.char ch) area pre (cur ++ [ch]) where
  area := by
    -- The character is put behind the label, and the byte of its length is counted up.
    have hput : (q.put ch).area = put area 0 (pre ++ UInt8.ofNat cur.length :: (cur ++ [ch])) := by
      show Function.update q.area q.data ch = _
      rw [h.area, h.data_eq, put_concat, List.append_assoc, List.cons_append]
    have hlen : UInt8.ofNat cur.length + 1 = UInt8.ofNat (cur ++ [ch]).length := by
      rw [List.length_append, List.length_singleton, UInt8.ofNat_add]
      rfl
    have hll : (q.put ch).llptr = 0 + pre.length := by
      rw [Nat.zero_add]
      exact h.llptr
    show Function.update (q.put ch).area (q.put ch).llptr ((q.put ch).area (q.put ch).llptr + 1) = _
    rw [hput, hll, put_self, update_put, hlen]
  data := by
    have hdata : (q.char ch).data = q.data + 1 := rfl
    rw [hdata, h.data, List.length_append, List.length_singleton, Nat.add_assoc]
  llptr := h.llptr
  qlen := congrArg (· + 1) h.qlen
  -- Both places written lie between the beginning and the end of the area.
  within := by
    intro w hw
    have hdata : (q.char ch).data = q.data + 1 := rfl
    have hll := h.llptr
    have hq := h.data
    rcases List.mem_cons.mp hw with rfl | hw
    · show q.llptr < _
      omega
    rcases List.mem_cons.mp hw with rfl | hw
    · exact Nat.lt_succ_self q.data
    · have hlt := h.within w hw
      omega

/-- A dot ends the label, whose length is stored in front of it. -/
theorem InLabel.dot (h : InLabel q area pre cur) :
    InLabel q.dot area (pre ++ UInt8.ofNat cur.length :: cur) [] where
  area := by
    show Function.update q.area q.data 0 = _
    rw [h.area, h.data_eq, put_concat]
    rfl
  data := by
    have hdata : q.dot.data = q.data + 1 := rfl
    rw [hdata, h.data_eq, Nat.zero_add]
    rfl
  llptr := by
    have hll : q.dot.llptr = q.data := rfl
    rw [hll, h.data_eq, Nat.zero_add]
  qlen := congrArg (· + 1) h.qlen
  within := by
    intro w hw
    rcases List.mem_cons.mp hw with rfl | hw
    · exact Nat.lt_succ_self q.data
    · exact Nat.lt_succ_of_lt (h.within w hw)

/-- The loop gets to the end of a name exactly if there is a place for each character. -/
theorem bldqLoop_fits : ∀ (name : CString) (q : Bldq), (bldqLoop name q).2 = true ↔
    name = [] ∨ q.qlen + name.length ≤ DNSDATASIZ := by
  intro name
  induction name with
  | nil => exact fun q => iff_of_true rfl (.inl rfl)
  | cons ch name ih =>
    intro q
    have hcons : ch :: name ≠ [] := List.cons_ne_nil ch name
    rw [bldqLoop, or_iff_right hcons, List.length_cons]
    by_cases hfull : q.qlen ≥ DNSDATASIZ
    · rw [if_pos hfull]
      exact iff_of_false nofun (by omega)
    rw [if_neg hfull]
    have hnext : (name = [] ∨ q.qlen + 1 + name.length ≤ DNSDATASIZ) ↔
        q.qlen + (name.length + 1) ≤ DNSDATASIZ := by
      constructor
      · rintro (rfl | h)
        · simp only [List.length_nil]
          omega
        · omega
      · intro h
        exact .inr (by omega)
    by_cases hdot : ch ≠ DOT
    · rw [if_pos hdot, ih, ← hnext]
      rfl
    · rw [if_neg hdot, ih, ← hnext]
      rfl

/-- The characters of a label are stored one behind the other, and counted. -/
theorem InLabel.label {l : List UInt8} (hl : DOT ∉ l) (rest : CString) :
    ∀ {q : Bldq} {cur : List UInt8}, InLabel q area pre cur → q.qlen + l.length ≤ DNSDATASIZ →
      ∃ q', bldqLoop (l ++ rest) q = bldqLoop rest q' ∧ InLabel q' area pre (cur ++ l) ∧
      q'.qlen = q.qlen + l.length := by
  induction l with
  | nil =>
    intro q cur h _
    rw [List.append_nil]
    exact ⟨q, rfl, h, rfl⟩
  | cons ch l ih =>
    intro q cur h hle
    rw [List.length_cons] at hle
    have hch : ch ≠ DOT := fun he => hl (he ▸ List.mem_cons_self)
    obtain ⟨q', hrun, hin, hlen⟩ := ih (fun hm => hl (List.mem_cons_of_mem ch hm)) (h.char ch) (by
      show q.qlen + 1 + l.length ≤ DNSDATASIZ
      omega)
    rw [List.append_assoc, List.singleton_append] at hin
    refine ⟨q', ?_, hin, ?_⟩
    · rw [List.cons_append, bldqLoop, if_neg (by omega), if_pos hch, hrun]
    · rw [hlen, List.length_cons]
      show q.qlen + 1 + l.length = _
      omega

/-- The text of a name of one label is that label. -/
theorem dotted_singleton (l : List UInt8) : dotted [l] = l := by
  have htext : dotText [l] = l ++ [DOT] := dotText_cons l []
  rw [dotted, htext, List.dropLast_concat]

/-- The text of a name of more labels has a dot behind the first. -/
theorem dotted_cons (l : List UInt8) {ls : List (List UInt8)} (h : ls ≠ []) :
    dotted (l :: ls) = l ++ DOT :: dotted ls := by
  have hend : l ++ DOT :: (dotted ls ++ [DOT]) = (l ++ DOT :: dotted ls) ++ [DOT] := by
    rw [List.append_assoc, List.cons_append]
  have htext : dotText (l :: ls) = (l ++ DOT :: dotted ls) ++ [DOT] := by
    rw [dotText_cons, dotText_eq h, hend]
  rw [dotted, htext, List.dropLast_concat]

/-- The labels of a name. The induction is on these. -/
theorem InLabel.labels {ls : List (List UInt8)} (hls : ∀ l ∈ ls, LabelOk l) (hne : ls ≠ []) :
    ∀ {q : Bldq} {pre : List UInt8}, InLabel q area pre [] → q.qlen + (dotted ls).length ≤ DNSDATASIZ →
      ∃ q' pre' cur', bldqLoop (dotted ls) q = (q', true) ∧ InLabel q' area pre' cur' ∧
        pre' ++ UInt8.ofNat cur'.length :: cur' = pre ++ ls.flatMap fun l => UInt8.ofNat l.length :: l := by
  induction ls with
  | nil => exact absurd rfl hne
  | cons l ls ih =>
    intro q pre h hle
    have hdot := (hls l List.mem_cons_self).dot
    by_cases hlast : ls = []
    · subst hlast
      rw [dotted_singleton] at hle ⊢
      obtain ⟨q', hrun, hin, -⟩ := InLabel.label hdot [] h hle
      rw [List.append_nil, bldqLoop] at hrun
      exact ⟨q', pre, l, hrun, hin, by rw [List.flatMap_singleton]⟩
    · rw [dotted_cons l hlast] at hle ⊢
      rw [List.length_append, List.length_cons] at hle
      obtain ⟨q', hrun, hin, hlen⟩ := InLabel.label hdot (DOT :: dotted ls) h (by omega)
      obtain ⟨q'', pre', cur', hrest, hin', hbytes⟩ :=
        ih (fun l' hl' => hls l' (List.mem_cons_of_mem l hl')) hlast hin.dot (by
        show q'.qlen + 1 + (dotted ls).length ≤ DNSDATASIZ
        omega)
      refine ⟨q'', pre', cur', ?_, hin', ?_⟩
      · rw [hrun, bldqLoop, if_neg (by omega), if_neg (not_not.mpr rfl), hrest]
      · rw [hbytes, List.flatMap_cons, List.nil_append, List.append_assoc]

/-- The data area has these bytes, and is written up to them. -/
structure Filled (q : Bldq) (area : ℕ → UInt8) (l : List UInt8) : Prop where
  /-- The area holds the bytes. -/
  area : q.area = put area 0 l
  /-- The next byte goes behind them. -/
  data : q.data = l.length
  /-- Nothing has been written behind that. -/
  within : ∀ w ∈ q.written, w < q.data

/-- One byte more. -/
theorem Filled.put {l : List UInt8} (h : Filled q area l) (ch : UInt8) :
    Filled (q.put ch) area (l ++ [ch]) where
  area := by
    show Function.update q.area q.data ch = _
    rw [h.area, h.data, ← put_concat, Nat.zero_add]
  data := by
    show q.data + 1 = _
    rw [h.data, List.length_append, List.length_singleton]
  within := by
    intro w hw
    rcases List.mem_cons.mp hw with rfl | hw
    · exact Nat.lt_succ_self q.data
    · exact Nat.lt_succ_of_lt (h.within w hw)

/-- The length of the question does not matter here. -/
theorem Filled.qlen {l : List UInt8} (h : Filled q area l) (n : ℕ) :
    Filled { q with qlen := n } area l := ⟨h.area, h.data, h.within⟩

/-- A question has six bytes more than the name has characters. -/
theorem length_question {ls : List (List UInt8)} (hne : ls ≠ []) :
    (question ls).length = (dotted ls).length + 6 := by
  have hbody (l : List (List UInt8)) :
      (l.flatMap fun l => UInt8.ofNat l.length :: l).length = (dotText l).length := by
    unfold dotText
    rw [List.length_flatMap, List.length_flatMap]
    refine congrArg List.sum (List.map_congr_left fun l _ => ?_)
    rw [List.length_cons, List.length_append, List.length_singleton]
  unfold question encoded
  rw [List.length_append, List.length_append, hbody, dotText_eq hne, List.length_append]
  rfl

/-- The terminator, the type and the class. -/
theorem Filled.bldqEnd {l : List UInt8} (h : Filled q area l) :
    Filled (bldqEnd q) area (l ++ [0] ++ [0, 1, 0, 1]) := by
  have hlow : UInt8.ofNat (ntohs DNS_QT_A) = 0 := by decide
  have hhigh : UInt8.ofNat (ntohs DNS_QT_A / 256) = 1 := by decide
  have hend := ((((((h.put 0).qlen (q.qlen + 1)).put 0).put 1).qlen (q.qlen + 3)).put 0 |>.put 1).qlen
    (q.qlen + 5)
  have hbytes : l ++ [0] ++ [0] ++ [1] ++ [0] ++ [1] = l ++ [0] ++ [0, 1, 0, 1] := by
    simp only [List.append_assoc, List.cons_append, List.nil_append]
  rw [hbytes] at hend
  unfold Xinu.bldqEnd
  dsimp only
  rw [hlow, hhigh]
  exact hend

/-- What `dns_bldq` makes of a name that it accepts. -/
theorem dns_bldq_accepts {ls : List (List UInt8)} (hls : ∀ l ∈ ls, LabelOk l)
    (hne : ls ≠ []) (area : ℕ → UInt8)
    (hlen : (dotted ls).length < DNSDATASIZ) : Filled (dns_bldq (dotted ls) area).2 area (question ls) ∧
      (dns_bldq (dotted ls) area).1 = DNS_DATA_AT + (question ls).length ∧
      (question ls).length - 1 ∈ (dns_bldq (dotted ls) area).2.written := by
  have hstart : InLabel ((Bldq.mk area 0 0 1 []).put 0) area [] [] := by
    refine ⟨?_, rfl, rfl, rfl, fun w hw => ?_⟩
    · rw [List.nil_append, put_cons, put_nil]
      rfl
    · rw [List.mem_singleton.mp hw]
      exact Nat.one_pos
  obtain ⟨q, pre, cur, hrun, hin, hbytes⟩ := InLabel.labels hls hne hstart (by
    show 1 + (dotted ls).length ≤ DNSDATASIZ
    omega)
  rw [List.nil_append] at hbytes
  have hfilled : Filled q area (ls.flatMap fun l => UInt8.ofNat l.length :: l) :=
    ⟨by rw [hin.area, hbytes], by rw [hin.data_eq, hbytes, Nat.zero_add], hin.within⟩
  have hend : Filled (bldqEnd q) area (question ls) := hfilled.bldqEnd
  have hdata : (bldqEnd q).data = q.data + 5 := rfl
  have hqlen : (bldqEnd q).qlen = q.qlen + 5 := rfl
  have hlast : q.data + 4 ∈ (bldqEnd q).written := List.mem_cons_self
  have hplace : (question ls).length = q.data + 5 := by rw [← hend.data, hdata]
  unfold dns_bldq
  rw [hrun]
  dsimp only
  refine ⟨hend, ?_, ?_⟩
  · rw [hplace, ← hin.qlen, ← hqlen]
    rfl
  · rw [hplace]
    exact hlast

/-- A name that is too long is refused. -/
theorem dns_bldq_refuses {name : CString} (h : DNSDATASIZ ≤ name.length) (area : ℕ → UInt8) :
    (dns_bldq name area).1 = SYSERR := by
  have hfits : ¬ (bldqLoop name ((Bldq.mk area 0 0 1 []).put 0)).2 = true := by
    rw [bldqLoop_fits]
    rintro (rfl | hle)
    · exact absurd h (by decide)
    · have hle : 1 + name.length ≤ DNSDATASIZ := hle
      omega
  unfold dns_bldq
  dsimp only
  rw [if_pos (by rw [Bool.not_eq_true] at hfits; rw [hfits]; rfl)]

/-! ## The name in a packet -/

/-- Pointers lead from one place to another one, each backwards. -/
inductive PointersTo (pkt : ℕ → UInt8) (len : ℕ) : ℕ → ℕ → Prop where
  | last {p : ℕ} (hp : p + 1 < len) (h : 63 < (pkt p).toNat) (back : be16 pkt p % 2 ^ 14 < p) :
    PointersTo pkt len p (be16 pkt p % 2 ^ 14)
  | cons {p t : ℕ} (hp : p + 1 < len) (h : 63 < (pkt p).toNat) (back : be16 pkt p % 2 ^ 14 < p)
      (rest : PointersTo pkt len (be16 pkt p % 2 ^ 14) t) : PointersTo pkt len p t

variable {pkt : ℕ → UInt8} {len : ℕ}

/-- The name at a place whose bytes are those of its labels. -/
theorem NameAt.of_encoded {ls : List (List UInt8)} (hls : ∀ l ∈ ls, LabelOk l) :
    ∀ {p : ℕ}, bytesAt pkt p (encoded ls).length = encoded ls → p + (encoded ls).length ≤ len →
      NameAt pkt len p ls (p + (encoded ls).length) 0 := by
  induction ls with
  | nil =>
    intro p hb hlen
    have hzero : pkt p = 0 := (List.cons.inj hb).1
    exact .root (by exact hlen) (by rw [hzero]; rfl)
  | cons l ls ih =>
    intro p hb hlen
    have hl := hls l List.mem_cons_self
    have hpos : 0 < l.length := List.length_pos_iff.mpr hl.pos
    have henc : encoded (l :: ls) = UInt8.ofNat l.length :: (l ++ encoded ls) := by
      unfold encoded
      rw [List.flatMap_cons, List.append_assoc, List.cons_append]
    rw [henc, List.length_cons, List.length_append] at hb hlen ⊢
    obtain ⟨hfirst, hrest⟩ := List.cons.inj hb
    rw [bytesAt_add] at hrest
    obtain ⟨hlabel, hname⟩ := List.append_inj hrest (length_bytesAt ..)
    have hllen : (pkt p).toNat = l.length := by
      have hle := hl.le
      rw [hfirst, UInt8.toNat_ofNat']
      omega
    have hname := ih (fun l' hl' => hls l' (List.mem_cons_of_mem l hl')) hname (by omega)
    have hend : p + 1 + l.length + (encoded ls).length = p + (l.length + (encoded ls).length + 1) := by omega
    rw [hend, ← hllen] at hname
    have hthis := NameAt.label (by omega) (by omega) (by rw [hllen]; exact hl.le) hname
    rwa [hllen, hlabel] at hthis

/-- Pointers to a name make it the name of their places. -/
theorem PointersTo.name {p t e d : ℕ} {ls : List (List UInt8)}
    (h : PointersTo pkt len p t) (hname : NameAt pkt len t ls e d) :
    ∃ d', NameAt pkt len p ls (p + 2) d' := by
  induction h with
  | last hp h _ => exact ⟨_, .pointer hp h hname⟩
  | cons hp h _ _ ih =>
    obtain ⟨d', hd'⟩ := ih hname
    exact ⟨_, .pointer hp h hd'⟩

/-- `dns_getrname` reads the name at a place: the buffer has the name with a null character, and so
many bytes are consumed. -/
def Reads (pkt : ℕ → UInt8) (len p : ℕ) (name : CString) (count : ℕ) : Prop :=
  ∀ rname : ℕ → UInt8, ∀ᶠ fuel in atTop, ∃ d, dns_getrname pkt len fuel p 0 rname = .ok
    ⟨p + count, put rname 0 (name ++ [0]), d⟩

/-- A name that is there is read, if it fits in the buffer. -/
theorem NameAt.reads {p n d : ℕ} {ls : List (List UInt8)} (h : NameAt pkt len p ls (p + n) d) (hne : ls ≠ [])
    (hfit : (dotText ls).length ≤ RNAME_SIZE) : Reads pkt len p (dotted ls) n := by
  intro rname
  have hpos : 0 < 0 + (dotText ls).length := by
    rw [Nat.zero_add]
    exact List.length_pos_iff.mpr (dotText_ne_nil.mpr hne)
  filter_upwards [h.run 0 rname hpos fun _ => by rwa [Nat.zero_add]] with fuel hrun
  rw [nameBuffer_eq rname 0 hne] at hrun
  exact ⟨d, hrun⟩

/-- What `dns_bldq` has written is in a packet, in its data area. -/
structure Carried (pkt : ℕ → UInt8) (len : ℕ) (q : Bldq) (n : ℕ) : Prop where
  /-- The bytes are those of the area. -/
  bytes : ∀ i < n, pkt (DNS_DATA_AT + i) = q.area i
  /-- The packet is long enough. -/
  len : DNS_DATA_AT + n ≤ len

/-- What `dns_bldq` has to do for a name that it accepts: it writes within the data area, returns
the length of the packet, and the name is read back from each packet that carries it, directly or
through pointers. -/
structure BuildsQuestion (ls : List (List UInt8)) (area : ℕ → UInt8) : Prop where
  /-- Nothing is written behind the data area. -/
  within : ∀ w ∈ (dns_bldq (dotted ls) area).2.written, w < DNSDATASIZ
  /-- The length of the packet is returned. -/
  length : (dns_bldq (dotted ls) area).1 = DNS_DATA_AT + (question ls).length
  /-- The question is laid out: the name, the type and the class. -/
  bytes : bytesAt (dns_bldq (dotted ls) area).2.area 0 (question ls).length = question ls
  /-- The name is read back where it is. -/
  direct : ∀ pkt len, Carried pkt len (dns_bldq (dotted ls) area).2 (encoded ls).length →
    Reads pkt len DNS_DATA_AT (dotted ls) (encoded ls).length
  /-- It is read back through pointers to it. -/
  pointers : ∀ pkt len p, Carried pkt len (dns_bldq (dotted ls) area).2 (encoded ls).length →
    PointersTo pkt len p DNS_DATA_AT →
    Reads pkt len p (dotted ls) 2

/-- Bytes that are the same at two places. -/
theorem bytesAt_congr {b c : ℕ → UInt8} {i j : ℕ} :
    ∀ {n : ℕ}, (∀ k < n, b (i + k) = c (j + k)) → bytesAt b i n = bytesAt c j n := by
  intro n
  induction n generalizing i j with
  | zero => exact fun _ => rfl
  | succ n ih =>
    intro h
    have hfirst : b i = c j := h 0 (Nat.succ_pos n)
    rw [bytesAt, bytesAt, hfirst, ih fun k hk => ?_]
    have hk := h (k + 1) (by omega)
    rwa [← Nat.add_assoc, Nat.add_right_comm, ← Nat.add_assoc, Nat.add_right_comm j] at hk

/-- Names are built so, if they leave the last six bytes free; names that are refused are not in question. -/
theorem dns_bldq_iff {ls : List (List UInt8)} (hls : ∀ l ∈ ls, LabelOk l) (hne : ls ≠ []) (area : ℕ → UInt8) :
    ((dns_bldq (dotted ls) area).1 ≠ SYSERR → BuildsQuestion ls area) ↔
      (dotted ls).length + 6 ≤ DNSDATASIZ ∨ DNSDATASIZ ≤ (dotted ls).length := by
  -- A name of `DNSDATASIZ` characters or more is refused.
  rcases Nat.lt_or_ge (dotted ls).length DNSDATASIZ with hlt | hge
  swap
  · exact iff_of_true (fun h => absurd (dns_bldq_refuses hge area) h) (.inr hge)
  obtain ⟨hfilled, hret, hlast⟩ := dns_bldq_accepts hls hne area hlt
  have hlen := length_question hne
  have hok : (dns_bldq (dotted ls) area).1 ≠ SYSERR := by
    rw [hret]
    unfold SYSERR
    omega
  rw [or_iff_left (Nat.not_le.mpr hlt)]
  constructor
  -- Its last byte is written, so a name that is built ends in the data area.
  · intro h
    have hin := (h hok).within _ hlast
    omega
  · intro hle _
    have harea : bytesAt (dns_bldq (dotted ls) area).2.area 0 (question ls).length = question ls := by
      rw [hfilled.area, bytesAt_put]
    have hfit : (dotText ls).length ≤ RNAME_SIZE := by
      rw [dotText_eq hne, List.length_append, List.length_singleton]
      exact (Nat.succ_le_of_lt hlt).trans (by decide)
    -- The name of the question, read in any packet that carries it.
    have hname (pkt : ℕ → UInt8) (len : ℕ)
        (hc : Carried pkt len (dns_bldq (dotted ls) area).2 (encoded ls).length) :
        NameAt pkt len DNS_DATA_AT ls (DNS_DATA_AT + (encoded ls).length) 0 := by
      refine NameAt.of_encoded hls ?_ hc.len
      have hsplit : (question ls).length = (encoded ls).length + 4 := by
        unfold question
        rw [List.length_append]
        rfl
      rw [hsplit, bytesAt_add] at harea
      rw [bytesAt_congr (c := (dns_bldq (dotted ls) area).2.area)
        (j := 0) fun k hk => by rw [hc.bytes k hk, Nat.zero_add]]
      exact (List.append_inj harea (length_bytesAt ..)).1
    -- The bytes written, the length, the text, and a reader that starts at the name or at a pointer
    -- to it.
    refine ⟨fun w hw => ?_, hret, harea, fun pkt len hc => (hname pkt len hc).reads hne hfit,
      fun pkt len p hc hp => ?_⟩
    · have hlt := hfilled.within w hw
      rw [hfilled.data] at hlt
      omega
    · obtain ⟨d, hd⟩ := hp.name (hname pkt len hc)
      exact hd.reads hne hfit

/-! ## The address -/

/-- The name of a question ends in one place. -/
theorem QNameAt.unique {p e e' : ℕ} (h : QNameAt pkt len p e) (h' : QNameAt pkt len p e') : e = e' := by
  induction h with
  | root _ h =>
    cases h' with
    | root _ _ => rfl
    | pointer _ h₁ => omega
    | label _ h₁ _ _ => exact absurd h h₁
  | pointer _ h =>
    cases h' with
    | root _ h₁ => omega
    | pointer _ _ => rfl
    | label _ _ h₁ _ => omega
  | label _ h hle _ ih =>
    cases h' with
    | root _ h₁ => exact absurd h₁ h
    | pointer _ h₁ => omega
    | label _ _ _ rest => exact ih rest

/-- The questions of a response end in one place only. -/
theorem QuestionsAt.unique {n p e e' : ℕ} (h : QuestionsAt pkt len n p e) (h' : QuestionsAt pkt len n p e') :
    e = e' := by
  induction h with
  | nil =>
    cases h'
    rfl
  | cons name _ ih =>
    cases h' with
    | cons name' rest' =>
      obtain rfl := name.unique name'
      exact ih rest'

variable {dname : CString} {rs : List DnsRecord}

/-- At a place there is at most one list of so many answers. -/
theorem AnswersAt.unique {n p : ℕ} {rs' : List DnsRecord}
    (h : AnswersAt pkt len dname n p rs) (h' : AnswersAt pkt len dname n p rs') :
    rs = rs' := by
  induction h generalizing rs' with
  | nil =>
    cases h'
    rfl
  | cons name _ _ _ _ _ ih =>
    cases h' with
    | cons name' _ _ _ _ rest' =>
      obtain ⟨rfl, rfl, -⟩ := name.unique name'
      rw [ih rest']

/-- There is one list of answers in a response. -/
theorem ResponseAt.unique {rs' : List DnsRecord} (h : ResponseAt pkt len dname rs)
    (h' : ResponseAt pkt len dname rs') : rs = rs' := by
  obtain ⟨-, p, hq, ha⟩ := h
  obtain ⟨-, p', hq', ha'⟩ := h'
  obtain rfl := hq.unique hq'
  exact ha.unique ha'

namespace LocalNet

variable (net : LocalNet)

/-- Going back over the records, those that match have address 0, up to one of the local network, or
to the beginning. -/
def BlankBack (dname : CString) : List DnsRecord → Prop
  | [] => True
  | x :: rs =>
    if x.Matches dname then x.rdata = 0 ∧ (net.onNet (ntohl x.rdata) = true ∨ BlankBack dname rs)
      else BlankBack dname rs

/-- The record whose address is taken of the list: it is of the local network, or nothing was taken
before, and no record of the local network follows. -/
def Decides (dname : CString) (rs : List DnsRecord) (x : DnsRecord) : Prop :=
  ∃ before after, rs = before ++ x :: after ∧ x.Matches dname ∧
  x.rdata ≠ 0 ∧ (net.onNet (ntohl x.rdata) = true ∨ net.BlankBack dname before.reverse) ∧
  ∀ y ∈ after, y.Matches dname → ¬ net.onNet (ntohl y.rdata) = true

variable {net} {ip : ℕ} {x : DnsRecord}

/-- A record that matches is taken, if it is of the local network or there is no address yet. -/
theorem pick_take (hm : x.Matches dname) (h : ip = 0 ∨ net.onNet (ntohl x.rdata) = true) :
    net.pick dname ip x = x.rdata := by
  rw [pick, if_pos hm, if_pos h]

/-- A record that does not give a better address leaves the one that has been picked. -/
theorem pick_skip (h : x.Matches dname → ip ≠ 0 ∧ ¬ net.onNet (ntohl x.rdata) = true) :
    net.pick dname ip x = ip := by
  unfold pick
  split_ifs with hm htake
  · exact absurd htake (not_or.mpr (h hm))
  · rfl
  · rfl

/-- No address is taken exactly of these lists. The induction goes back over the records. -/
theorem foldl_pick_eq_zero : rs.foldl (net.pick dname) 0 = 0 ↔ net.BlankBack dname rs.reverse := by
  rw [← List.foldr_reverse]
  generalize rs.reverse = l
  induction l with
  | nil => exact iff_of_true rfl trivial
  | cons x l ih =>
    rw [List.foldr_cons, BlankBack]
    by_cases hm : x.Matches dname
    swap
    · rw [pick_skip fun h => absurd h hm, if_neg hm, ih]
    rw [if_pos hm, ← ih]
    generalize l.foldr (fun y ip => net.pick dname ip y) 0 = ip
    by_cases htake : ip = 0 ∨ net.onNet (ntohl x.rdata) = true
    · rw [pick_take hm htake]
      exact (and_iff_left htake.symm).symm
    · rw [pick_skip fun _ => not_or.mp htake]
      exact iff_of_false (fun h => htake (.inl h)) fun h => htake h.2.symm

/-- Behind the record that decides, the address stays. -/
theorem foldl_pick_after (hip : ip ≠ 0) (h : ∀ y ∈ rs, y.Matches dname → ¬ net.onNet (ntohl y.rdata) = true) :
    rs.foldl (net.pick dname) ip = ip := by
  induction rs with
  | nil => rfl
  | cons y rs ih =>
    rw [List.foldl_cons, pick_skip fun hm => ⟨hip, h y List.mem_cons_self hm⟩]
    exact ih fun z hz => h z (List.mem_cons_of_mem y hz)

/-- The address is that of the record that decides. -/
theorem Decides.address (h : net.Decides dname rs x) : rs.foldl (net.pick dname) 0 = x.rdata := by
  obtain ⟨before, after, rfl, hm, hne, htake, hafter⟩ := h
  have htake : before.foldl (net.pick dname) 0 = 0 ∨ net.onNet (ntohl x.rdata) = true := by
    rw [foldl_pick_eq_zero]
    exact htake.symm
  rw [List.foldl_append, List.foldl_cons, pick_take hm htake, foldl_pick_after hne hafter]

/-- An address is that of some record that decides. The induction adds a record at the end. -/
theorem exists_decides (h : rs.foldl (net.pick dname) 0 ≠ 0) : ∃ x, net.Decides dname rs x := by
  induction rs using List.reverseRecOn with
  | nil => exact absurd rfl h
  | append_singleton rs y ih =>
    rw [List.foldl_append, List.foldl_cons, List.foldl_nil] at h
    by_cases htake : y.Matches dname ∧ (rs.foldl (net.pick dname) 0 = 0 ∨ net.onNet (ntohl y.rdata) = true)
    · rw [pick_take htake.1 htake.2] at h
      refine ⟨y, rs, [], rfl, htake.1, h, ?_, by simp⟩
      rw [← foldl_pick_eq_zero]
      exact htake.2.symm
    · have hskip (hm : y.Matches dname) := not_or.mp fun hor => htake ⟨hm, hor⟩
      rw [pick_skip hskip] at h
      obtain ⟨x, before, after, rfl, hm, hne, hx, hafter⟩ := ih h
      refine ⟨x, before, after ++ [y], by rw [List.append_assoc, List.cons_append],
        hm, hne, hx, fun z hz hzm => ?_⟩
      rcases List.mem_append.mp hz with hz | hz
      · exact hafter z hz hzm
      · obtain rfl := List.mem_singleton.mp hz
        exact (hskip hzm).2

end LocalNet

/-- `dns_geta` returns `OK` with the address of a record whose owner is `dname` only. -/
def OwnAddress (pkt : ℕ → UInt8) (len : ℕ) (net : LocalNet) (dname : CString) (rs : List DnsRecord) : Prop :=
  ∀ rname fuel r, dns_geta pkt len net dname rname fuel = .ok r → r.1 = OK →
    ∃ y ∈ rs, y.rtype = DNS_QT_A ∧ dotted y.owner = dname ∧ y.rdata = r.2.1

/-- It does so exactly if a record of `dname` has the address of the record that decides. -/
theorem ownAddress_iff {net : LocalNet} (hd : ∀ ch ∈ dname, ch ≠ 0) (h : ResponseAt pkt len dname rs) :
    OwnAddress pkt len net dname rs ↔
      ∀ x, net.Decides dname rs x → ∃ y ∈ rs, y.rtype = DNS_QT_A ∧
      dotted y.owner = dname ∧ y.rdata = x.rdata := by
  have hrun {rname : ℕ → UInt8} {fuel : ℕ} {r : ℤ × ℕ × ℕ}
      (hr : dns_geta pkt len net dname rname fuel = .ok r) :
      r.2.1 = rs.foldl (net.pick dname) 0 ∧ r.1 = if r.2.1 ≠ 0 then OK else SYSERR := by
    obtain ⟨rs', hrs', hip, hret⟩ := ResponseAt.of_run hd hr
    rw [h.unique hrs']
    exact ⟨hip, hret⟩
  constructor
  · intro hown x hx
    obtain ⟨fuel, r, hr, -⟩ := (h.run net hd fun _ => 0).exists
    obtain ⟨hip, hret⟩ := hrun hr
    have hx0 : x.rdata ≠ 0 := by
      obtain ⟨_, _, _, _, hne, _⟩ := hx
      exact hne
    rw [hx.address] at hip
    rw [← hip]
    exact hown _ fuel r hr (by rw [hret, hip, if_pos hx0])
  · intro hall rname fuel r hr hok
    obtain ⟨hip, hret⟩ := hrun hr
    have hne : rs.foldl (net.pick dname) 0 ≠ 0 := by
      intro h0
      rw [hret, hip, if_neg (not_not.mpr h0)] at hok
      exact absurd hok (by decide)
    obtain ⟨x, hx⟩ := LocalNet.exists_decides hne
    obtain ⟨y, hy, ht, ho, ha⟩ := hall x hx
    exact ⟨y, hy, ht, ho, by rw [ha, hip, hx.address]⟩

/-! ## The result -/

/-- A name that `dns_bldq` accepts is laid out within the data area and read back exactly if it has
at most 494 characters; and `dns_geta` finds an address of `dname` only exactly if no longer name,
that starts with it, decides with another address. -/
theorem dns_names (area : ℕ → UInt8) (pkt : ℕ → UInt8) (len : ℕ) (net : LocalNet) :
    (∀ ls : List (List UInt8), (∀ l ∈ ls, LabelOk l) → ls ≠ [] →
      (((dns_bldq (dotted ls) area).1 ≠ SYSERR → BuildsQuestion ls area) ↔
        (dotted ls).length + 6 ≤ DNSDATASIZ ∨ DNSDATASIZ ≤ (dotted ls).length)) ∧
    (∀ (dname : CString) (rs : List DnsRecord), (∀ ch ∈ dname, ch ≠ 0) → ResponseAt pkt len dname rs →
      (OwnAddress pkt len net dname rs ↔
        ∀ x, net.Decides dname rs x → ∃ y ∈ rs, y.rtype = DNS_QT_A ∧
        dotted y.owner = dname ∧ y.rdata = x.rdata)) :=
  ⟨fun _ hls hne => dns_bldq_iff hls hne area, fun _ _ hd h => ownAddress_iff hd h⟩

/-- A name of 495 characters: seven labels of 63, and one of 47. -/
def longName : List (List UInt8) := List.replicate 7 (List.replicate 63 97) ++ [List.replicate 47 97]

/-- An answer for `x.y`. -/
def xyResponse : ℕ → UInt8 := ofList
  ([0, 0, 0x81, 0x80, 0, 0, 0, 1, 0, 0, 0, 0] ++ [1, 120, 1, 121, 0] ++
    [0, 1, 0, 1, 0, 0, 0, 0, 0, 4, 10, 0, 0, 1])

/-- The record in it, whatever name has been asked for. -/
theorem xyResponse_at (dname : CString) :
    ResponseAt xyResponse 31 dname [⟨[[120], [121]], 1, 0x0100000a⟩] := by
  have hroot : NameAt xyResponse 31 16 [] 17 0 := .root (by decide) (by decide)
  have hy : NameAt xyResponse 31 14 [[121]] 17 0 := .label (by decide) (by decide) (by decide) hroot
  have hxy : NameAt xyResponse 31 12 [[120], [121]] 17 0 := .label (by decide) (by decide) (by decide) hy
  exact ⟨by decide, 12, .nil, .cons hxy (by decide) (by decide) (by decide) (fun _ => by decide) .nil⟩

/-- `dns_bldq` writes behind the data area for a name of 495 characters; and `dns_geta` takes the
address of `x.y` for that of `x`. -/
theorem dns_names_wrong : ((∀ l ∈ longName, LabelOk l) ∧ (dns_bldq (dotted longName) (ofList [])).1 ≠ SYSERR ∧
      500 ∈ (dns_bldq (dotted longName) (ofList [])).2.written ∧ ¬ BuildsQuestion longName (ofList [])) ∧
    ¬ OwnAddress xyResponse 31 ⟨0, 1⟩ [120] [⟨[[120], [121]], 1, 0x0100000a⟩] := by
  have hmem : 500 ∈ (dns_bldq (dotted longName) (ofList [])).2.written := by decide +kernel
  refine ⟨⟨fun l hl => ?_, by decide +kernel, hmem, fun h => absurd (h.within 500 hmem) (by decide)⟩,
    fun h => ?_⟩
  · have hl : l = List.replicate 63 97 ∨ l = List.replicate 47 97 := by
      rcases List.mem_append.mp hl with h | h
      · exact .inl (List.eq_of_mem_replicate h)
      · exact .inr (List.mem_singleton.mp h)
    rcases hl with rfl | rfl <;> exact ⟨by decide, by decide, by decide, by decide⟩
  · obtain ⟨y, hy, -, ho, -⟩ := h (ofList []) 9 (OK, 0x0100000a, 0) rfl rfl
    rw [List.mem_singleton.mp hy] at ho
    exact absurd ho (by decide)

/-- The name `x.y` is accepted, laid out and read back; and the address for `x.y` that is found in
the answer is that of the record. -/
theorem dns_names_xy :
    (dns_bldq (dotted [[120], [121]]) (ofList [])).1 ≠ SYSERR ∧ BuildsQuestion [[120], [121]] (ofList []) ∧
    dns_geta xyResponse 31 ⟨0, 1⟩ [120, 46, 121] (ofList []) 9 = .ok (OK, 0x0100000a, 0) ∧
    OwnAddress xyResponse 31 ⟨0, 1⟩ [120, 46, 121] [⟨[[120], [121]], 1, 0x0100000a⟩] := by
  obtain ⟨hbuild, hown⟩ := dns_names (ofList []) xyResponse 31 ⟨0, 1⟩
  have hlabels : ∀ l ∈ [[120], [121]], LabelOk l := by
    intro l hl
    have hl : l = [120] ∨ l = [121] := by simpa using hl
    rcases hl with rfl | rfl <;> exact ⟨by decide, by decide, by decide, by decide⟩
  have hok : (dns_bldq (dotted [[120], [121]]) (ofList [])).1 ≠ SYSERR := by decide
  have hchars : ∀ ch ∈ ([120, 46, 121] : CString), ch ≠ 0 := by simp
  refine ⟨hok, (hbuild _ hlabels (by decide)).mpr (.inl (by decide)) hok,
    rfl, (hown _ _ hchars (xyResponse_at _)).mpr ?_⟩
  rintro x ⟨before, after, hrecords, -⟩
  -- The record that decides is the only one.
  have hx : x ∈ [(⟨[[120], [121]], 1, 0x0100000a⟩ : DnsRecord)] := by
    rw [hrecords]
    exact List.mem_append_right before List.mem_cons_self
  exact ⟨x, hx, by rw [List.mem_singleton.mp hx]; exact ⟨rfl, rfl, rfl⟩⟩

end Xinu
