import Mathlib.Data.List.Basic
import Mathlib.Data.List.Induction
import Xinu.Config.Grammar

/-!
# What a configuration means

The attributes that a file gives to its devices, and the tables that the compiler has when it has
read a part of the file. All clauses of a type share one entry: the name of the last one stays
(`Devtype.entry_ison`), and the attributes of all (`Devtype.entry_get`).
-/

namespace Xinu.Config

/-! ## Attributes by their tokens -/

/-- The value of an attribute. -/
inductive Value where
  | number (n : ℤ)
  | name (s : String)
  deriving DecidableEq, Repr

/-- The token of an attribute. -/
def Attr.tok : Attr → AttrTok
  | .csr _ => .csr
  | .irq _ => .irq
  | .fn f _ => .fn f

/-- The value of an attribute. -/
def Attr.value : Attr → Value
  | .csr text => .number (config_atoi text)
  | .irq text => .number (config_atoi text)
  | .fn _ id => .name id

/-- The value that is in an entry. -/
def DevEnt.get (e : DevEnt) : AttrTok → Value
  | .csr => .number e.csr
  | .irq => .number e.irq
  | .fn f => .name (e.fn f)

/-- The value that is written. -/
def Dentry.get (e : Dentry) : AttrTok → Value
  | .csr => .number e.csr
  | .irq => .number e.irq
  | .fn f => .name (e.fn f)

/-- The values of a type that gives none. -/
def defaultValue : AttrTok → Value
  | .csr | .irq => .number 0
  | .fn _ => .name "ioerr"

/-- The value that a list of attributes gives: the last one counts. -/
def given (as : List Attr) (tok : AttrTok) : Option Value :=
  ((as.filter fun a => a.tok = tok).getLast?).map Attr.value

/-- All attributes of a type. -/
def Devtype.attrs (t : Devtype) : List Attr := t.clauses.flatMap OnClause.attrs

/-- The attributes that a type gives under its clauses of a name. -/
def Devtype.under (t : Devtype) (on : String) : List Attr :=
  (t.clauses.filter fun c => c.on = on).flatMap OnClause.attrs

/-- The device's own attribute, or else the one of its type under the clause it names, or else the default. -/
def Device.attribute (d : Device) (t : Devtype) (tok : AttrTok) : Value :=
  (given d.attrs tok).getD ((given (t.under d.on) tok).getD (defaultValue tok))

/-- The number of devices of a type. -/
def ofType (ds : List Device) (tname : String) : ℕ := ds.countP fun d => d.is = tname

/-- The devices are assigned as the file says: numbers and minor numbers in the order of the
definitions, the counts of the types, and every attribute. -/
structure Assigns (c : Configuration) (out : Conf) : Prop where
  /-- There is an entry for each device. -/
  devices : out.devtab.length = c.devices.length
  /-- The entry has its place as the device number, counts the devices of the same type before it, and holds
  every attribute of its device. -/
  device : ∀ i d, c.devices[i]? = some d → ∃ e, out.devtab[i]? = some e ∧ e.dvnum = i ∧ e.dvname = d.dname ∧
    e.dvminor = ofType (c.devices.take i) d.is ∧ ∀ t ∈ c.devtypes, t.tname = d.is →
    ∀ tok, e.get tok = d.attribute t tok
  /-- The names are defined as the device numbers. -/
  names : out.names = c.devices.mapIdx fun i d => (d.dname, i)
  /-- For each type that has a device, the number of its devices is defined. -/
  sizes : out.sizes = (c.devtypes.map fun t => (t.tname, ofType c.devices t.tname)).filter fun s => s.2 > 0
  /-- The number of devices is that of the definitions. -/
  ndevs : out.ndevs = c.devices.length

/-! ## Entries -/

/-- What an attribute does to an entry. -/
def DevEnt.apply (e : DevEnt) : Attr → DevEnt
  | .csr text => e.set .csr (config_atoi text) ""
  | .irq text => e.set .irq (config_atoi text) ""
  | .fn f id => e.set (.fn f) 0 id

variable {e : DevEnt} {as : List Attr} {tok : AttrTok}

/-- An attribute changes its own value. -/
theorem DevEnt.get_apply (e : DevEnt) (a : Attr) (tok : AttrTok) :
    (e.apply a).get tok = if a.tok = tok then a.value else e.get tok := by
  cases a with
  | csr text => cases tok <;> rfl
  | irq text => cases tok <;> rfl
  | fn f id =>
    cases tok with
    | csr => rfl
    | irq => rfl
    | fn g =>
      rcases eq_or_ne g f with rfl | hne
      · simp [DevEnt.apply, DevEnt.set, DevEnt.get, Attr.tok, Attr.value]
      · simp [DevEnt.apply, DevEnt.set, DevEnt.get, Attr.tok, Function.update_of_ne hne, hne.symm]

/-- Nothing else of an entry is changed. -/
theorem DevEnt.apply_same (e : DevEnt) (a : Attr) :
    (e.apply a).name = e.name ∧ (e.apply a).tname = e.tname ∧
    (e.apply a).ison = e.ison ∧ (e.apply a).minor = e.minor := by
  cases a <;> exact ⟨rfl, rfl, rfl, rfl⟩

/-- Assigning a list of attributes leaves the name, the type, the clause and the minor number. -/
theorem DevEnt.foldl_same (e : DevEnt) (as : List Attr) :
    (as.foldl DevEnt.apply e).name = e.name ∧ (as.foldl DevEnt.apply e).tname = e.tname ∧
      (as.foldl DevEnt.apply e).ison = e.ison ∧ (as.foldl DevEnt.apply e).minor = e.minor := by
  induction as generalizing e with
  | nil => exact ⟨rfl, rfl, rfl, rfl⟩
  | cons a as ih =>
    obtain ⟨h₁, h₂, h₃, h₄⟩ := ih (e.apply a)
    obtain ⟨k₁, k₂, k₃, k₄⟩ := e.apply_same a
    exact ⟨h₁.trans k₁, h₂.trans k₂, h₃.trans k₃, h₄.trans k₄⟩

/-- The last attribute is the first that counts. -/
theorem given_append (as bs : List Attr) (tok : AttrTok) :
    given (as ++ bs) tok = (given bs tok).or (given as tok) := by
  unfold given
  rw [List.filter_append, List.getLast?_append]
  cases (bs.filter fun a => a.tok = tok).getLast? <;> rfl

/-- One attribute gives a value to its own token, and to no other. -/
theorem given_singleton (a : Attr) (tok : AttrTok) :
    given [a] tok = if a.tok = tok then some a.value else none := by
  unfold given
  by_cases h : a.tok = tok <;> simp [h]

/-- A list of attributes changes the values that it gives. -/
theorem DevEnt.get_foldl (e : DevEnt) (as : List Attr) (tok : AttrTok) :
    (as.foldl DevEnt.apply e).get tok = (given as tok).getD (e.get tok) := by
  induction as using List.reverseRecOn with
  | nil => rfl
  | append_singleton as a ih =>
    rw [List.foldl_append, List.foldl_cons, List.foldl_nil,
      DevEnt.get_apply, ih, given_append, given_singleton]
    split_ifs <;> rfl

/-- The entry of a type that has been named. -/
def DevEnt.named (tname : String) : DevEnt := { DevEnt.zero with tname := tname, fn := fun _ => "ioerr" }

/-- A device that has a name and a type and nothing else has the default values. -/
theorem DevEnt.get_named (tname : String) (tok : AttrTok) :
    (DevEnt.named tname).get tok = defaultValue tok := by
  cases tok <;> rfl

/-- What a clause does to the entry of its type. -/
def DevEnt.clause (e : DevEnt) (c : OnClause) : DevEnt := c.attrs.foldl DevEnt.apply { e with ison := c.on }

/-- The entry of a type when its declaration has been read. -/
def Devtype.entry (t : Devtype) : DevEnt := t.clauses.foldl DevEnt.clause (.named t.tname)

/-- The clauses change neither names nor the minor number. -/
theorem DevEnt.clauses_same (e : DevEnt) (cs : List OnClause) :
    (cs.foldl DevEnt.clause e).name = e.name ∧ (cs.foldl DevEnt.clause e).tname = e.tname ∧
    (cs.foldl DevEnt.clause e).minor = e.minor := by
  induction cs generalizing e with
  | nil => exact ⟨rfl, rfl, rfl⟩
  | cons c cs ih =>
    obtain ⟨h₁, h₂, h₃⟩ := ih (e.clause c)
    obtain ⟨k₁, k₂, -, k₄⟩ := DevEnt.foldl_same { e with ison := c.on } c.attrs
    exact ⟨h₁.trans k₁, h₂.trans k₂, h₃.trans k₄⟩

/-- The values of the clauses are put together. -/
theorem DevEnt.get_clauses (e : DevEnt) (cs : List OnClause) (tok : AttrTok) :
    (cs.foldl DevEnt.clause e).get tok = (given (cs.flatMap OnClause.attrs) tok).getD (e.get tok) := by
  induction cs generalizing e with
  | nil => rfl
  | cons c cs ih =>
    have hclause : (e.clause c).get tok = (given c.attrs tok).getD (e.get tok) := by
      unfold DevEnt.clause
      rw [DevEnt.get_foldl]
      cases tok <;> rfl
    rw [List.foldl_cons, ih, hclause, List.flatMap_cons, given_append]
    cases given (cs.flatMap OnClause.attrs) tok <;> rfl

/-- The entry keeps the name of the type, and no device has got a minor number. -/
theorem Devtype.entry_same (t : Devtype) : t.entry.tname = t.tname ∧ t.entry.minor = 0 :=
  (DevEnt.clauses_same (.named t.tname) t.clauses).2

/-- The values of a type are those of all its clauses. -/
theorem Devtype.entry_get (t : Devtype) (tok : AttrTok) :
    t.entry.get tok = (given t.attrs tok).getD (defaultValue tok) := by
  unfold Devtype.entry Devtype.attrs
  rw [DevEnt.get_clauses, DevEnt.get_named]

/-- The name of the last clause of a type. -/
def Devtype.lastOn (t : Devtype) : String := (t.clauses.getLast t.nonempty).on

/-- The name that stays is that of the last clause. -/
theorem Devtype.entry_ison (t : Devtype) : t.entry.ison = t.lastOn := by
  unfold Devtype.entry Devtype.lastOn
  obtain ⟨tname, clauses, hne⟩ := t
  dsimp only
  rcases List.eq_nil_or_concat' clauses with rfl | ⟨cs, c, rfl⟩
  · exact absurd rfl hne
  · rw [List.foldl_append, List.getLast_concat]
    exact (DevEnt.foldl_same _ c.attrs).2.2.1

end Xinu.Config
