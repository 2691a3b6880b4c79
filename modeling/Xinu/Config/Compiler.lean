import Xinu.Config.Assigns

/-!
# What the compiler makes of a configuration

The actions of the rules, one declaration after the other: each type adds its entry (`types_run`),
each device copies the entry of its type and counts (`device_run`). The compiler gives up at a
device that names a clause of its type other than the last one.
-/

namespace Xinu.Config

variable {t : Tables} {e : DevEnt} {D A B : List DevEnt}

/-- The actions of some rules. -/
def run (t : Tables) (rs : List Rule) : Option Tables := rs.foldlM Rule.act t

/-- The actions of two lists of rules. -/
theorem run_append (t : Tables) (rs rs' : List Rule) :
    run t (rs ++ rs') = (run t rs).bind fun t => run t rs' := List.foldlM_append

/-- A run of a rule and others behind it is the action of the rule, then the run of the others. -/
theorem run_cons (t : Tables) (r : Rule) (rs : List Rule) :
    run t (r :: rs) = (r.act t).bind fun t => run t rs := List.foldlM_cons

/-- The entry behind `A` is the one with the index `A.length`. -/
theorem modify_length (A B : List DevEnt) (e : DevEnt) (f : DevEnt → DevEnt) :
    (A ++ e :: B).modify A.length f = A ++ f e :: B := by
  induction A with
  | nil => rfl
  | cons a A ih => simp [ih]

/-- An attribute changes the entry that has been added last. -/
theorem setLast_concat (D : List DevEnt) (e : DevEnt) (f : DevEnt → DevEnt) :
    setLast f (D ++ [e]) = D ++ [f e] := by
  unfold setLast
  rw [List.length_append, List.length_singleton, Nat.add_sub_cancel]
  exact modify_length D [] e f

/-! ## Attributes -/

/-- The name of an attribute is short enough. -/
def Attr.Short : Attr → Prop
  | .fn _ id => id.length < MAXNAME
  | _ => True

instance Attr.decidableShort : (a : Attr) → Decidable a.Short
  | .fn _ id => inferInstanceAs (Decidable (id.length < MAXNAME))
  | .csr _ => .isTrue trivial
  | .irq _ => .isTrue trivial

/-- The table that attributes go to. -/
def Tables.table (t : Tables) : List DevEnt := if t.brkcount = 0 then t.dtypes else t.devs

/-- Another table in its place. -/
def Tables.put (t : Tables) (table : List DevEnt) (saveattrid : String) : Tables :=
  if t.brkcount = 0 then { t with dtypes := table, saveattrid := saveattrid }
    else { t with devs := table, saveattrid := saveattrid }

/-- What is put is there. -/
theorem Tables.table_put (t : Tables) (table : List DevEnt) (sv : String) :
    (t.put table sv).table = table := by
  unfold Tables.put Tables.table
  by_cases h : t.brkcount = 0 <;> simp [h]

/-- The table and the name that are put later replace those put before. -/
theorem Tables.put_put (t : Tables) (table table' : List DevEnt) (sv sv' : String) :
    (t.put table sv).put table' sv' = t.put table' sv' := by
  unfold Tables.put
  by_cases h : t.brkcount = 0 <;> simp [h]

/-- `addattr` changes the last entry of the table. -/
theorem addattr_eq (t : Tables) (tok : AttrTok) (val : ℤ) :
    addattr t tok val = t.put (setLast (DevEnt.set tok val t.saveattrid) t.table) t.saveattrid := by
  unfold addattr Tables.put Tables.table
  by_cases h : t.brkcount = 0 <;> simp [h]

/-- The rules of one attribute change the current entry of the table as the attribute says. -/
theorem attr_run {a : Attr} (ha : a.Short) (ht : t.table = D ++ [e]) :
    ∃ sv, run t a.rules = some (t.put (D ++ [e.apply a]) sv) := by
  cases a with
  | csr text =>
    refine ⟨t.saveattrid, ?_⟩
    simp only [Attr.rules, run_cons, Rule.act, addattr_eq, ht, setLast_concat]
    rfl
  | irq text =>
    refine ⟨t.saveattrid, ?_⟩
    simp only [Attr.rules, run_cons, Rule.act, addattr_eq, ht, setLast_concat]
    rfl
  | fn f id =>
    have hid : ¬ id.length ≥ MAXNAME := Nat.not_le.mpr ha
    have htable : ({ t with saveattrid := id } : Tables).table = D ++ [e] := ht
    refine ⟨id, ?_⟩
    simp only [Attr.rules, run_cons, Rule.act, getattrid, if_neg hid,
      Option.bind_some, addattr_eq, htable, setLast_concat]
    rfl

/-- A list of attributes: the induction is on the list, the entry changes. -/
theorem attrs_run {as : List Attr} (has : ∀ a ∈ as, a.Short) (ht : t.table = D ++ [e]) :
    ∃ sv, run t (as.flatMap Attr.rules) = some (t.put (D ++ [as.foldl DevEnt.apply e]) sv) := by
  induction as generalizing t e with
  | nil =>
    refine ⟨t.saveattrid, ?_⟩
    have hsame : t.put t.table t.saveattrid = t := by
      unfold Tables.put Tables.table
      split <;> rfl
    rw [List.foldl_nil, ← ht, hsame]
    rfl
  | cons a as ih =>
    obtain ⟨ha, has⟩ := List.forall_mem_cons.mp has
    obtain ⟨sv, hone⟩ := attr_run ha ht
    obtain ⟨sv', hrest⟩ := ih (t := t.put (D ++ [e.apply a]) sv) has (t.table_put _ _)
    refine ⟨sv', ?_⟩
    rw [List.flatMap_cons, run_append, hone, Option.bind_some, hrest, Tables.put_put]
    rfl

/-! ## Types -/

/-- A clause sets the name of the entry, and adds its attributes. -/
theorem clause_run {c : OnClause} (hon : c.on.length < MAXNAME)
    (hc : ∀ a ∈ c.attrs, a.Short) (hbrk : t.brkcount = 0) (ht : t.dtypes = D ++ [e]) :
    ∃ sv, run t c.rules = some { t with dtypes := D ++ [e.clause c], saveattrid := sv } := by
  obtain ⟨sv, hattrs⟩ := attrs_run (t := { t with dtypes := D ++ [{ e with ison := c.on }] })
    (D := D) (e := { e with ison := c.on }) hc (if_pos hbrk)
  refine ⟨sv, ?_⟩
  have hon' : ¬ c.on.length ≥ MAXNAME := Nat.not_le.mpr hon
  unfold OnClause.rules
  rw [run_cons]
  simp only [Rule.act, addton, if_neg hon', Option.bind_some, ht, setLast_concat]
  rw [hattrs]
  exact congrArg some (if_pos hbrk)

/-- All names of a type are short enough. -/
structure Devtype.ShortNames (ty : Devtype) : Prop where
  /-- The name of the type is. -/
  tname : ty.tname.length < MAXNAME
  /-- The names in its clauses are. -/
  on : ∀ c ∈ ty.clauses, c.on.length < MAXNAME ∧ ∀ a ∈ c.attrs, a.Short

/-- The clauses of a type work on one entry. -/
theorem clauses_run {cs : List OnClause} (hcs : ∀ c ∈ cs, c.on.length < MAXNAME ∧ ∀ a ∈ c.attrs, a.Short)
    (hbrk : t.brkcount = 0)
    (ht : t.dtypes = D ++ [e]) :
    ∃ sv, run t (cs.flatMap OnClause.rules) = some
      { t with dtypes := D ++ [cs.foldl DevEnt.clause e], saveattrid := sv } := by
  induction cs generalizing t e with
  | nil =>
    refine ⟨t.saveattrid, ?_⟩
    rw [List.foldl_nil, ← ht]
    rfl
  | cons c cs ih =>
    obtain ⟨hc, hcs⟩ := List.forall_mem_cons.mp hcs
    obtain ⟨sv, hone⟩ := clause_run hc.1 hc.2 hbrk ht
    obtain ⟨sv', hrest⟩ := ih (t := { t with dtypes := D ++ [e.clause c], saveattrid := sv }) hcs hbrk rfl
    refine ⟨sv', ?_⟩
    rw [List.flatMap_cons, run_append, hone, Option.bind_some, hrest]
    rfl

/-- A declaration adds the entry of its type. -/
theorem type_run {ty : Devtype} (hty : ty.ShortNames) (hbrk : t.brkcount = 0)
    (hlen : t.dtypes.length < NTYPES)
    (hfresh : ∀ e ∈ t.dtypes, e.tname ≠ ty.tname) :
    ∃ sv, run t ty.rules = some { t with dtypes := t.dtypes ++ [ty.entry], saveattrid := sv } := by
  obtain ⟨sv, hclauses⟩ :=
    clauses_run (t := { t with dtypes := t.dtypes ++ [.named ty.tname] }) hty.on hbrk rfl
  refine ⟨sv, ?_⟩
  have hlen' : ¬ t.dtypes.length ≥ NTYPES := Nat.not_le.mpr hlen
  have hname : ¬ ty.tname.length ≥ MAXNAME := Nat.not_le.mpr hty.tname
  have hany : ¬ (t.dtypes.any fun e => e.tname = ty.tname) = true := by simpa using hfresh
  unfold Devtype.rules
  rw [run_cons]
  simp only [Rule.act, newtype, if_neg hlen', if_neg hname, if_neg hany, Option.bind_some]
  exact hclauses

/-- The declarations of all types add an entry for each, in their order. -/
theorem types_run {tys P : List Devtype} (hty : ∀ ty ∈ tys, ty.ShortNames) (hbrk : t.brkcount = 0)
    (hnd : ((P ++ tys).map Devtype.tname).Nodup) (hlen : (P ++ tys).length ≤ NTYPES)
    (ht : t.dtypes = P.map Devtype.entry) :
    ∃ sv, run t (tys.flatMap Devtype.rules) = some
      { t with dtypes := (P ++ tys).map Devtype.entry, saveattrid := sv } := by
  induction tys generalizing t P with
  | nil =>
    refine ⟨t.saveattrid, ?_⟩
    rw [List.append_nil, ← ht]
    rfl
  | cons ty tys ih =>
    obtain ⟨hone, htys⟩ := List.forall_mem_cons.mp hty
    have hlen' : t.dtypes.length < NTYPES := by
      rw [ht, List.length_map]
      rw [List.length_append, List.length_cons] at hlen
      omega
    have hfresh : ∀ e ∈ t.dtypes, e.tname ≠ ty.tname := by
      rw [ht]
      intro e he
      obtain ⟨ty', hmem, rfl⟩ := List.mem_map.mp he
      rw [ty'.entry_same.1]
      rw [List.map_append, List.map_cons, List.nodup_append] at hnd
      exact hnd.2.2 _ (List.mem_map_of_mem hmem) _ List.mem_cons_self
    obtain ⟨sv, hrun⟩ := type_run hone hbrk hlen' hfresh
    have happ : P ++ [ty] ++ tys = P ++ ty :: tys := by simp
    obtain ⟨sv', hrest⟩ :=
      ih (t := { t with dtypes := t.dtypes ++ [ty.entry], saveattrid := sv }) (P := P ++ [ty]) htys hbrk
      (happ ▸ hnd) (happ ▸ hlen) (by rw [ht, List.map_append]; rfl)
    refine ⟨sv', ?_⟩
    rw [List.flatMap_cons, run_append, hrun, Option.bind_some, hrest, happ]

end Xinu.Config
