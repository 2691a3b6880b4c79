import Mathlib.Data.List.Nodup
import Xinu.Config.Compiler

/-!
# What the compiler makes of devices

Each device copies the entry of its type, with the next minor number, and changes its copy
(`device_run`). The output follows from the tables at the end.
-/

namespace Xinu.Config

variable {c : Configuration} {d : Device} {ds rest : List Device}

/-- What the compiler checks, apart from the order of the clauses: sizes, names that are short and
there once, and devices whose types and clauses exist. -/
structure Legal (c : Configuration) : Prop where
  /-- No more types than the compiler has room for. -/
  types : c.devtypes.length ≤ NTYPES
  /-- No more devices either. -/
  devices : c.devices.length ≤ NDEVS
  /-- The names of the types are different. -/
  tnames : (c.devtypes.map Devtype.tname).Nodup
  /-- The names of the devices are different. -/
  dnames : (c.devices.map Device.dname).Nodup
  /-- The names in the types are short. -/
  shortTypes : ∀ ty ∈ c.devtypes, ty.ShortNames
  /-- The names in the devices are short. -/
  shortDevices : ∀ d ∈ c.devices, d.dname.length < MAXNAME ∧ ∀ a ∈ d.attrs, a.Short
  /-- Each device is of a type that is defined, on a clause of that type. -/
  typed : ∀ d ∈ c.devices, ∃ ty ∈ c.devtypes, ty.tname = d.is ∧ ∃ cl ∈ ty.clauses, cl.on = d.on

instance Devtype.decidableShortNames (ty : Devtype) : Decidable ty.ShortNames :=
  decidable_of_iff (ty.tname.length < MAXNAME ∧ ∀ c ∈ ty.clauses, c.on.length < MAXNAME ∧
    ∀ a ∈ c.attrs, a.Short)
    ⟨fun h => ⟨h.1, h.2⟩, fun h => ⟨h.tname, h.on⟩⟩

instance decidableLegal (c : Configuration) : Decidable (Legal c) :=
  decidable_of_iff (c.devtypes.length ≤ NTYPES ∧ c.devices.length ≤ NDEVS ∧
    (c.devtypes.map Devtype.tname).Nodup ∧
      (c.devices.map Device.dname).Nodup ∧ (∀ ty ∈ c.devtypes, ty.ShortNames) ∧
      (∀ d ∈ c.devices, d.dname.length < MAXNAME ∧ ∀ a ∈ d.attrs, a.Short) ∧
      ∀ d ∈ c.devices, ∃ ty ∈ c.devtypes, ty.tname = d.is ∧ ∃ cl ∈ ty.clauses, cl.on = d.on)
    ⟨fun ⟨h₁, h₂, h₃, h₄, h₅, h₆, h₇⟩ => ⟨h₁, h₂, h₃, h₄, h₅, h₆, h₇⟩,
      fun h => ⟨h.types, h.devices, h.tnames, h.dnames, h.shortTypes, h.shortDevices, h.typed⟩⟩

/-- The entry of a device's type. -/
def Configuration.typeOf (c : Configuration) (d : Device) : DevEnt :=
  ((c.devtypes.find? fun ty => ty.tname = d.is).map Devtype.entry).getD .zero

/-- The entry of the `i`-th device. -/
def Configuration.devEntry (c : Configuration) (i : ℕ) (d : Device) : DevEnt :=
  d.attrs.foldl DevEnt.apply { c.typeOf d with minor := ofType (c.devices.take i) d.is, name := d.dname }

/-- The entry of a type behind some devices: its minor number counts those of the type. -/
def counted (ds : List Device) (ty : Devtype) : DevEnt := { ty.entry with minor := ofType ds ty.tname }

/-- The tables behind some devices. -/
def Configuration.tables (c : Configuration) (ds : List Device) (sv : String) : Tables where
  dtypes := c.devtypes.map (counted ds)
  devs := ds.mapIdx c.devEntry
  brkcount := 1
  saveattrid := sv

/-- The device names the last clause of its type. -/
def NamesLast (c : Configuration) (d : Device) : Prop := ∀ ty ∈ c.devtypes, ty.tname = d.is → ty.lastOn = d.on

/-- The type of a device is one in the table, and no other one has its name. -/
theorem Legal.type_split (h : Legal c) (hd : d ∈ c.devices) :
    ∃ P ty Q, c.devtypes = P ++ ty :: Q ∧ ty.tname = d.is ∧ (∃ cl ∈ ty.clauses, cl.on = d.on) ∧
      (∀ ty' ∈ P, ty'.tname ≠ d.is) ∧ ∀ ty' ∈ Q, ty'.tname ≠ d.is := by
  obtain ⟨ty, hty, hname, hon⟩ := h.typed d hd
  obtain ⟨P, Q, hsplit⟩ := List.append_of_mem hty
  have hnd := h.tnames
  rw [hsplit, List.map_append, List.map_cons, List.nodup_append, List.nodup_cons] at hnd
  obtain ⟨-, ⟨hQ, -⟩, hP⟩ := hnd
  refine ⟨P, ty, Q, hsplit, hname, hon, fun ty' hmem heq => ?_, fun ty' hmem heq => ?_⟩
  · exact hP _ (List.mem_map_of_mem hmem) _ List.mem_cons_self (heq.trans hname.symm)
  · exact hQ (List.mem_map.mpr ⟨ty', hmem, heq.trans hname.symm⟩)

/-- The type of a device in the table is its type. -/
theorem Legal.eq_type (h : Legal c) {ty ty' : Devtype} (hty : ty ∈ c.devtypes)
    (hty' : ty' ∈ c.devtypes) (heq : ty.tname = ty'.tname) : ty = ty' :=
  List.inj_on_of_nodup_map h.tnames hty hty' heq

/-- A device copies the entry of the type that has the name in its declaration. -/
theorem Legal.typeOf_eq (h : Legal c) {ty : Devtype} (hty : ty ∈ c.devtypes) (hname : ty.tname = d.is) :
    c.typeOf d = ty.entry := by
  unfold Configuration.typeOf
  cases hf : c.devtypes.find? fun ty => ty.tname = d.is with
  | none =>
    have hno := List.find?_eq_none.mp hf ty hty
    exact absurd hname (by simpa using hno)
  | some ty' =>
    have hname' : ty'.tname = d.is := by simpa using List.find?_some hf
    rw [h.eq_type (List.mem_of_find?_eq_some hf) hty (hname'.trans hname.symm)]
    rfl

/-- Another device adds one to the count of the devices of its own type, and to no other. -/
theorem ofType_concat (ds : List Device) (d : Device) (tname : String) :
    ofType (ds ++ [d]) tname = ofType ds tname + if d.is = tname then 1 else 0 := by
  unfold ofType
  rw [List.countP_append, List.countP_singleton]
  simp

/-- The search for the entry of a device: it finds the one of the type if this keeps the name of the
clause. -/
theorem findIdx_type {P Q : List Devtype} {ty : Devtype}
    (ds : List Device) (hP : ∀ ty' ∈ P, ty'.tname ≠ d.is) (hQ : ∀ ty' ∈ Q, ty'.tname ≠ d.is)
    (hname : ty.tname = d.is) :
    ((P ++ ty :: Q).map (counted ds)).findIdx? (fun e => e.tname = d.is ∧ e.ison = d.on) =
      if ty.lastOn = d.on then some P.length else none := by
  have hcounted (ty' : Devtype) : (counted ds ty').tname = ty'.tname := ty'.entry_same.1
  have hison : (counted ds ty).ison = ty.lastOn := ty.entry_ison
  have hPnone : (P.map (counted ds)).findIdx? (fun e => e.tname = d.is ∧ e.ison = d.on) = none := by
    rw [List.findIdx?_eq_none_iff]
    intro e he
    obtain ⟨ty', hmem, rfl⟩ := List.mem_map.mp he
    have hne := hP ty' hmem
    rw [← hcounted ty'] at hne
    simp [hne]
  have hQnone : (Q.map (counted ds)).findIdx? (fun e => e.tname = d.is ∧ e.ison = d.on) = none := by
    rw [List.findIdx?_eq_none_iff]
    intro e he
    obtain ⟨ty', hmem, rfl⟩ := List.mem_map.mp he
    have hne := hQ ty' hmem
    rw [← hcounted ty'] at hne
    simp [hne]
  rw [List.map_append, List.map_cons, List.findIdx?_append,
    hPnone, List.findIdx?_cons, hQnone, hcounted, hison, hname]
  by_cases hon : ty.lastOn = d.on <;> simp [hon]

/-- What a device does to the entries of the types. -/
theorem counted_modify {P Q : List Devtype} {ty : Devtype}
    (ds : List Device) (hP : ∀ ty' ∈ P, ty'.tname ≠ d.is)
    (hQ : ∀ ty' ∈ Q, ty'.tname ≠ d.is) (hname : ty.tname = d.is) :
    ((P ++ ty :: Q).map (counted ds)).modify P.length
      (fun e => { e with minor := e.minor + 1 }) = (P ++ ty :: Q).map (counted (ds ++ [d])) := by
  have hsame (ty' : Devtype) (hne : ty'.tname ≠ d.is) : counted (ds ++ [d]) ty' = counted ds ty' := by
    unfold counted
    rw [ofType_concat, if_neg (Ne.symm hne), Nat.add_zero]
  have hone : counted (ds ++ [d]) ty = { counted ds ty with minor := (counted ds ty).minor + 1 } := by
    unfold counted
    rw [ofType_concat, if_pos hname.symm]
  have hlen : P.length = (P.map (counted ds)).length := (List.length_map _).symm
  rw [List.map_append, List.map_cons, hlen, modify_length, List.map_append, List.map_cons, hone,
    List.map_congr_left fun ty' hmem => hsame ty' (hP ty' hmem),
      List.map_congr_left fun ty' hmem => hsame ty' (hQ ty' hmem)]

/-- The first three rules of a device: its entry is the one of its type, unless it names another
clause than the last one. -/
theorem header_run (sv : String) (h : Legal c) (hc : c.devices = ds ++ d :: rest) :
    (NamesLast c d → run (c.tables ds sv) [.dname d.dname, .devisid d.is, .devonid d.on] =
      some ⟨c.devtypes.map (counted (ds ++ [d])),
        ds.mapIdx c.devEntry ++ [{ c.typeOf d with minor := ofType ds d.is, name := d.dname }], 1, sv⟩) ∧
    (¬ NamesLast c d → run (c.tables ds sv) [.dname d.dname, .devisid d.is, .devonid d.on] = none) := by
  have hd : d ∈ c.devices := by
    rw [hc]
    exact List.mem_append_right ds List.mem_cons_self
  obtain ⟨P, ty, Q, hsplit, hname, ⟨cl, hcl, hon⟩, hP, hQ⟩ := h.type_split hd
  have hty : ty ∈ c.devtypes := by
    rw [hsplit]
    exact List.mem_append_right P List.mem_cons_self
  have hshort := h.shortTypes ty hty
  -- the checks of `newdev`
  have hlen : ¬ (ds.mapIdx c.devEntry).length ≥ NDEVS := by
    have hle := h.devices
    rw [hc, List.length_append, List.length_cons] at hle
    rw [List.length_mapIdx]
    omega
  have hdname : ¬ d.dname.length ≥ MAXNAME := Nat.not_le.mpr (h.shortDevices d hd).1
  have hfresh : ¬ ((ds.mapIdx c.devEntry).any fun e => e.name = d.dname) = true := by
    intro hany
    obtain ⟨e, hmem, heq⟩ := List.any_eq_true.mp hany
    obtain ⟨i, hi, rfl⟩ := List.mem_mapIdx.mp hmem
    have hnd := h.dnames
    rw [hc, List.map_append, List.map_cons, List.nodup_append] at hnd
    have hold : (c.devEntry i ds[i]).name = ds[i].dname := (DevEnt.foldl_same _ _).1
    rw [hold] at heq
    exact hnd.2.2 _ (List.mem_map_of_mem (List.getElem_mem hi)) _ List.mem_cons_self (of_decide_eq_true heq)
  -- those of `devisid` and `devonid`
  have his : ¬ d.is.length ≥ MAXNAME := by
    rw [← hname]
    exact Nat.not_le.mpr hshort.tname
  have hon' : ¬ d.on.length ≥ MAXNAME := by
    rw [← hon]
    exact Nat.not_le.mpr (hshort.on cl hcl).1
  have hexists : ((c.devtypes.map (counted ds)).any fun e => e.tname = d.is) = true := by
    rw [List.any_map, List.any_eq_true]
    exact ⟨ty, hty, decide_eq_true (ty.entry_same.1.trans hname)⟩
  have hfind := findIdx_type ds hP hQ hname (d := d)
  have hmodify := counted_modify ds hP hQ hname
  rw [← hsplit] at hfind hmodify
  have hlast : NamesLast c d ↔ ty.lastOn = d.on := by
    refine ⟨fun hl => hl ty hty hname, fun hl ty' hty' hname' => ?_⟩
    rw [h.eq_type hty' hty (hname'.trans hname.symm)]
    exact hl
  have hentry : (c.devtypes.map (counted ds))[P.length]? = some
      { c.typeOf d with minor := ofType ds d.is } := by
    rw [h.typeOf_eq hty hname, hsplit, List.map_append, List.getElem?_append_right (by simp), ← hname]
    simp [counted]
  have hrun : run (c.tables ds sv) [.dname d.dname, .devisid d.is, .devonid d.on] =
      (if ty.lastOn = d.on then some P.length else none).bind fun i =>
        ((c.devtypes.map (counted ds))[i]?).map fun tptr =>
        ⟨(c.devtypes.map (counted ds)).modify i fun e => { e with minor := e.minor + 1 },
          ds.mapIdx c.devEntry ++ [{ tptr with name := d.dname }], 1, sv⟩ := by
    simp only [run_cons, Rule.act, newdev, Configuration.tables,
      if_neg hlen, if_neg hdname, if_neg hfresh, Option.bind_some, devisid,
      if_neg his, if_pos hexists, setLast_concat, devonid, if_neg hon', List.getLast?_concat, hfind]
    by_cases hl : ty.lastOn = d.on
    · simp only [if_pos hl, hentry, Option.map_some, Option.bind_some]
      rfl
    · simp only [if_neg hl, Option.bind_none]
  rw [hrun, hlast]
  constructor
  · intro hl
    rw [if_pos hl, Option.bind_some, hentry, Option.map_some, hmodify]
  · intro hl
    rw [if_neg hl, Option.bind_none]

/-- A device: its entry is that of its type with its own attributes. -/
theorem device_run (sv : String) (h : Legal c) (hc : c.devices = ds ++ d :: rest) :
    (NamesLast c d → ∃ sv', run (c.tables ds sv) d.rules = some (c.tables (ds ++ [d]) sv')) ∧
    (¬ NamesLast c d → run (c.tables ds sv) d.rules = none) := by
  have hd : d ∈ c.devices := by
    rw [hc]
    exact List.mem_append_right ds List.mem_cons_self
  obtain ⟨hlast, hother⟩ := header_run sv h hc
  unfold Device.rules
  rw [run_append]
  refine ⟨fun hl => ?_, fun hl => by rw [hother hl, Option.bind_none]⟩
  rw [hlast hl, Option.bind_some]
  obtain ⟨sv', hattrs⟩ := attrs_run (h.shortDevices d hd).2
    (t := ⟨c.devtypes.map (counted (ds ++ [d])),
      ds.mapIdx c.devEntry ++ [{ c.typeOf d with minor := ofType ds d.is, name := d.dname }], 1, sv⟩) rfl
  refine ⟨sv', hattrs.trans ?_⟩
  have htake : c.devices.take ds.length = ds := by
    rw [hc]
    exact List.take_left
  have hentry : c.devEntry ds.length d = d.attrs.foldl DevEnt.apply
      { c.typeOf d with minor := ofType ds d.is, name := d.dname } := by
    unfold Configuration.devEntry
    rw [htake]
  unfold Configuration.tables
  rw [List.mapIdx_concat, hentry]
  rfl

/-- All devices: the induction is on those that are left. -/
theorem devices_run (ds : List Device) (sv : String) (h : Legal c) (hc : c.devices = ds ++ rest) :
    ((∀ d ∈ rest, NamesLast c d) → ∃ sv', run (c.tables ds sv) (rest.flatMap Device.rules) =
      some (c.tables c.devices sv')) ∧
    (¬ (∀ d ∈ rest, NamesLast c d) → run (c.tables ds sv) (rest.flatMap Device.rules) = none) := by
  induction rest generalizing ds sv with
  | nil =>
    rw [List.append_nil] at hc
    rw [hc]
    exact ⟨fun _ => ⟨sv, rfl⟩, fun hno => absurd nofun hno⟩
  | cons d rest ih =>
    obtain ⟨hlast, hother⟩ := device_run sv h hc
    rw [List.flatMap_cons, run_append, List.forall_mem_cons]
    by_cases hl : NamesLast c d
    · obtain ⟨sv', hrun⟩ := hlast hl
      obtain ⟨hall, hnone⟩ := ih (ds ++ [d]) sv' (by rw [hc, List.append_assoc]; rfl)
      rw [hrun, Option.bind_some]
      exact ⟨fun hl => hall hl.2, fun hno => hnone fun hrest => hno ⟨hl, hrest⟩⟩
    · rw [hother hl, Option.bind_none]
      exact ⟨fun hall => absurd hall.1 hl, fun _ => rfl⟩

/-- The tables that the compiler has in the end: there are none if a device names another clause
than the last one of its type. -/
theorem compile_eq (h : Legal c) :
    ((∀ d ∈ c.devices, NamesLast c d) → ∃ sv, compile c = some (c.tables c.devices sv).write) ∧
    (¬ (∀ d ∈ c.devices, NamesLast c d) → compile c = none) := by
  obtain ⟨sv, htypes⟩ := types_run (t := .start) (P := []) h.shortTypes rfl h.tnames h.types rfl
  -- Before any device is counted, each entry is that of its type.
  have hcounted : counted [] = Devtype.entry := by
    funext ty
    have hminor := ty.entry_same.2
    unfold counted ofType
    rw [List.countP_nil, ← hminor]
  have hstart : run .start (c.devtypes.flatMap Devtype.rules ++ [.defbrk]) = some (c.tables [] sv) := by
    rw [run_append, htypes, Option.bind_some]
    unfold Configuration.tables
    rw [hcounted]
    rfl
  -- The rules of the devices run on the tables that the rules of the types leave.
  have hrun : compile c = (run (c.tables [] sv) (c.devices.flatMap Device.rules)).map Tables.write := by
    have hrules : c.rules = (c.devtypes.flatMap Devtype.rules ++ [.defbrk]) ++
        c.devices.flatMap Device.rules := by
      unfold Configuration.rules
      rw [List.append_assoc]
      rfl
    have hboth := run_append .start (c.devtypes.flatMap Devtype.rules ++ [.defbrk])
      (c.devices.flatMap Device.rules)
    rw [← hrules, hstart, Option.bind_some] at hboth
    exact congrArg _ hboth
  obtain ⟨hall, hnone⟩ := devices_run [] sv h rfl
  rw [hrun]
  constructor
  · intro hl
    obtain ⟨sv', hend⟩ := hall hl
    exact ⟨sv', by rw [hend]; rfl⟩
  · intro hl
    rw [hnone hl]
    rfl

/-! ## Output -/

/-- The values of a device: its own, or else those of all clauses of its type. -/
theorem Legal.devEntry_get (h : Legal c) {ty : Devtype}
    (hty : ty ∈ c.devtypes) (hname : ty.tname = d.is) (i : ℕ) (tok : AttrTok) :
    (c.devEntry i d).get tok = (given d.attrs tok).getD ((given ty.attrs tok).getD (defaultValue tok)) := by
  have hcopy : ({ c.typeOf d with minor := ofType (c.devices.take i) d.is, name := d.dname } : DevEnt).get
      tok = ty.entry.get tok := by
    rw [h.typeOf_eq hty hname]
    cases tok <;> rfl
  unfold Configuration.devEntry
  rw [DevEnt.get_foldl, hcopy, ty.entry_get]

/-- The clauses before the last one of a type change nothing for a device: it names the last one,
and what they give it would get anyway. -/
def AttrsAgree (c : Configuration) (d : Device) : Prop :=
  ∀ ty ∈ c.devtypes, ty.tname = d.is → ∀ tok, given d.attrs tok = none →
    (given ty.attrs tok).getD (defaultValue tok) = (given (ty.under d.on) tok).getD (defaultValue tok)

/-- What is written for a device. -/
theorem write_device {i : ℕ} (sv : String) (hd : c.devices[i]? = some d) :
    ∃ e, (c.tables c.devices sv).write.devtab[i]? = some e ∧ e.dvnum = i ∧ e.dvname = d.dname ∧
      e.dvminor = ofType (c.devices.take i) d.is ∧ ∀ tok, e.get tok = (c.devEntry i d).get tok := by
  have hentry : (c.devices.mapIdx c.devEntry)[i]? = some (c.devEntry i d) := by
    rw [List.getElem?_mapIdx, hd, Option.map_some]
  have hsame :=
    DevEnt.foldl_same { c.typeOf d with minor := ofType (c.devices.take i) d.is, name := d.dname } d.attrs
  refine ⟨⟨i, (c.devEntry i d).minor, (c.devEntry i d).name,
    (c.devEntry i d).fn, (c.devEntry i d).csr, (c.devEntry i d).irq⟩, ?_, rfl,
    hsame.1, hsame.2.2.2, fun tok => ?_⟩
  · change ((c.devices.mapIdx c.devEntry).mapIdx _)[i]? = _
    rw [List.getElem?_mapIdx, hentry, Option.map_some]
  · cases tok <;> rfl

/-- The tables at the end are written as the file says if the attributes agree. -/
theorem write_assigns (h : Legal c) (sv : String) :
    Assigns c (c.tables c.devices sv).write ↔ ∀ d ∈ c.devices, AttrsAgree c d := by
  constructor
  -- Both sides read the entry of a device at the same place.
  · intro ha d hd ty hty hname tok hown
    obtain ⟨i, hi⟩ := List.mem_iff_getElem?.mp hd
    obtain ⟨e, he, -, -, -, hright⟩ := ha.device i d hi
    obtain ⟨e', he', -, -, -, hget⟩ := write_device sv hi
    obtain rfl : e = e' := Option.some.inj (he.symm.trans he')
    have hvalue := (hget tok).symm.trans (hright ty hty hname tok)
    rw [h.devEntry_get hty hname, Device.attribute, hown] at hvalue
    exact hvalue
  · intro hagree
    refine ⟨?_, fun i d hi => ?_, ?_, ?_, ?_⟩
    · simp [Tables.write, Configuration.tables]
    · obtain ⟨e, he, hnum, hdname, hminor, hget⟩ := write_device sv hi
      refine ⟨e, he, hnum, hdname, hminor, fun ty hty hname tok => ?_⟩
      rw [hget, h.devEntry_get hty hname]
      unfold Device.attribute
      cases hown : given d.attrs tok with
      | some v => rfl
      | none => exact hagree d (List.mem_of_getElem? hi) ty hty hname tok hown
    -- The names, the counts of the types and the number of devices are read off the written tables.
    · refine List.ext_getElem? fun i => ?_
      change ((c.devices.mapIdx c.devEntry).mapIdx _)[i]? = _
      rw [List.getElem?_mapIdx, List.getElem?_mapIdx, List.getElem?_mapIdx]
      cases c.devices[i]? with
      | none => rfl
      | some d => exact congrArg (fun x => some (x, i)) (DevEnt.foldl_same _ d.attrs).1
    · change ((c.devtypes.map (counted c.devices)).filter _).map _ = _
      rw [List.filter_map, List.map_map, List.filter_map]
      congr 1
      exact funext fun ty => Prod.ext ty.entry_same.1 rfl
    · simp [Tables.write, Configuration.tables]

/-- For a legal configuration, the compiler assigns the devices as the file says exactly if every
device names the last clause of its type, and the other clauses of the type give it nothing else. -/
theorem compile_assigns (h : Legal c) :
    (∃ out, compile c = some out ∧ Assigns c out) ↔ ∀ d ∈ c.devices, NamesLast c d ∧ AttrsAgree c d := by
  obtain ⟨hall, hnone⟩ := compile_eq h
  by_cases hl : ∀ d ∈ c.devices, NamesLast c d
  · obtain ⟨sv, hout⟩ := hall hl
    constructor
    · rintro ⟨out, hsome, ha⟩ d hd
      obtain rfl := Option.some.inj (hout.symm.trans hsome)
      exact ⟨hl d hd, (write_assigns h sv).mp ha d hd⟩
    · exact fun hagree => ⟨_, hout, (write_assigns h sv).mpr fun d hd => (hagree d hd).2⟩
  · refine iff_of_false ?_ fun hagree => hl fun d hd => (hagree d hd).1
    rintro ⟨out, hsome, -⟩
    rw [hnone hl] at hsome
    cases hsome

/-- A type with one clause, and two devices of it. -/
def consoleConfig : Configuration where
  devtypes := [⟨"tty", [⟨"uart", [.fn .init "ttyinit", .fn .read "ttyread"]⟩], by simp⟩]
  devices := [⟨"CONSOLE", "tty", "uart", [.csr ['0', 'x', '3', 'f', '8']]⟩,
    ⟨"TTY1", "tty", "uart", [.fn .read "ioerr"]⟩]

/-- Its devices are assigned rightly. -/
theorem compile_assigns_console : ∃ out, compile consoleConfig = some out ∧ Assigns consoleConfig out := by
  refine (compile_assigns (by decide +kernel : Legal consoleConfig)).mpr fun d hd =>
    ⟨fun ty hty _ => ?_, fun ty hty _ tok _ => ?_⟩
  · obtain rfl := List.mem_singleton.mp hty
    rcases List.mem_pair.mp hd with rfl | rfl <;> rfl
  · obtain rfl := List.mem_singleton.mp hty
    rcases List.mem_pair.mp hd with rfl | rfl <;> rfl

/-- A type with two clauses, and a device that names the first one. -/
def twoClauses : Configuration where
  devtypes := [⟨"tty", [⟨"uart", [.fn .init "ttyinit"]⟩, ⟨"usb", [.fn .open "usbopen"]⟩], by simp⟩]
  devices := [⟨"CONSOLE", "tty", "uart", []⟩]

/-- Two clauses for one type, with a device that names the last one. -/
def lastClause : Configuration := { twoClauses with devices := [⟨"CONSOLE", "tty", "usb", []⟩] }

/-- The compiler gives up at the device that names the first clause; the one that names the last
clause gets the attribute of the first one. -/
theorem compile_two_clauses : (Legal twoClauses ∧ compile twoClauses = none) ∧ Legal lastClause ∧
    (compile lastClause).map (fun out => out.devtab.map fun e => e.fn .init) = some ["ttyinit"] ∧
    ∀ d ∈ lastClause.devices, ∀ ty ∈ lastClause.devtypes, d.attribute ty (.fn .init) = .name "ioerr" := by
  refine ⟨⟨by decide +kernel, ?_⟩, by decide +kernel, by decide +kernel, by decide +kernel⟩
  have hnone : (compile twoClauses).isNone = true := by decide +kernel
  exact Option.isNone_iff_eq_none.mp hnone

end Xinu.Config
