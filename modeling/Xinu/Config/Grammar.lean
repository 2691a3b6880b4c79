import Mathlib.Algebra.Ring.Nat
import Mathlib.Data.Int.Notation
import Mathlib.Data.Nat.Notation
import Mathlib.Logic.Function.Basic

/-!
# The configuration compiler

`config/config.y`: what the grammar accepts, and the actions of its rules, in the order of the
reductions. All of them work on one table of types and one table of devices; the last entry of a
table is the current one. An action that prints an error calls `exit(1)`: there is no result then.
-/

namespace Xinu.Config

/-! ## Configurations -/

/-- The driver functions and the handler in `struct dev_ent`. -/
inductive DevFn where
  | intr
  | init
  | open
  | close
  | read
  | write
  | control
  | seek
  | getc
  | putc
  deriving DecidableEq, Repr

/-- The tokens that attributes start with. -/
inductive AttrTok where
  | csr
  | irq
  | fn (f : DevFn)
  deriving DecidableEq, Repr

/-- `attr`: a number or a name behind a token. -/
inductive Attr where
  | csr (text : List Char)
  | irq (text : List Char)
  | fn (f : DevFn) (id : String)
  deriving DecidableEq, Repr

/-- `theader attr_list`. -/
structure OnClause where
  /-- What the type is on. -/
  on : String
  /-- The attributes of its devices there. -/
  attrs : List Attr
  deriving DecidableEq, Repr

/-- `devtype`: there is at least one clause. -/
structure Devtype where
  /-- The name of the type. -/
  tname : String
  /-- One clause for each thing that it is on. -/
  clauses : List OnClause
  /-- There is one at least. -/
  nonempty : clauses ≠ []
  deriving DecidableEq

/-- `device`. -/
structure Device where
  /-- The name of the device. -/
  dname : String
  /-- The name of its type. -/
  is : String
  /-- The clause of the type that it uses. -/
  on : String
  /-- Its own attributes, which override those of the clause. -/
  attrs : List Attr
  deriving DecidableEq, Repr

/-- `configuration`. -/
structure Configuration where
  /-- The definitions of types. -/
  devtypes : List Devtype
  /-- The definitions of devices. -/
  devices : List Device
  deriving DecidableEq

/-! ## The tables -/

/-- `MAXNAME`. -/
abbrev MAXNAME : ℕ := 16

/-- `NDEVS`. -/
abbrev NDEVS : ℕ := 250

/-- `NTYPES`. -/
abbrev NTYPES : ℕ := 250

/-- `struct dev_ent`, without `tindex`. -/
structure DevEnt where
  /-- The name of the device. -/
  name : String
  /-- The name of its type. -/
  tname : String
  /-- What it is on. -/
  ison : String
  /-- The address of its control and status register. -/
  csr : ℤ
  /-- Its interrupt vector. -/
  irq : ℤ
  /-- The names of its driver functions. -/
  fn : DevFn → String
  /-- Its minor number. -/
  minor : ℕ

/-- An entry behind `bzero`. -/
def DevEnt.zero : DevEnt := ⟨"", "", "", 0, 0, fun _ => "", 0⟩

/-- The global variables. `ntypes` and `ndevs` are the lengths of the tables. -/
structure Tables where
  /-- The table of types: an entry for each clause. -/
  dtypes : List DevEnt
  /-- The table of devices. -/
  devs : List DevEnt
  /-- How many types have been read. -/
  brkcount : ℕ
  /-- The last identifier of a type or device. -/
  saveattrid : String

/-- The global variables at first. -/
def Tables.start : Tables := ⟨[], [], 0, ""⟩

/-! ## The actions -/

/-- The value of a digit in `config_atoi`. -/
def digit (c : Char) : ℤ :=
  if c.isDigit then (c.toNat : ℤ) - '0'.toNat
  else if c.isUpper then (c.toNat : ℤ) - 'A'.toNat + 10
  else (c.toNat : ℤ) - 'a'.toNat + 10

/-- `config_atoi(p, len)`. -/
def config_atoi (p : List Char) : ℤ :=
  let digits (base : ℤ) (p : List Char) : ℤ := p.foldl (fun rv c => (rv * base + digit c).bmod (2 ^ 32)) 0
  match p with
  | '0' :: 'x' :: p => digits 16 p
  | '0' :: 'X' :: p => digits 16 p
  | '0' :: p => digits 8 p
  | p => digits 10 p

/-- The last entry of a table is changed. -/
def setLast (f : DevEnt → DevEnt) (table : List DevEnt) : List DevEnt := table.modify (table.length - 1) f

/-- `newtype(name)`. -/
def newtype (t : Tables) (name : String) : Option Tables :=
  if t.dtypes.length ≥ NTYPES then none
  else if name.length ≥ MAXNAME then none
  else if t.dtypes.any fun e => e.tname = name then none
  else some { t with dtypes := t.dtypes ++ [{ DevEnt.zero with tname := name, fn := fun _ => "ioerr" }] }

/-- `addton(tonid)`: the name of the current type's entry is set. -/
def addton (t : Tables) (tonid : String) : Option Tables :=
  if tonid.length ≥ MAXNAME then none
  else some { t with dtypes := setLast (fun e => { e with ison := tonid }) t.dtypes }

/-- `getattrid(str)`. -/
def getattrid (t : Tables) (str : String) : Option Tables :=
  if str.length ≥ MAXNAME then none else some { t with saveattrid := str }

/-- The switch of `addattr`. -/
def DevEnt.set (tok : AttrTok) (val : ℤ) (saveattrid : String) (s : DevEnt) : DevEnt :=
  match tok with
  | .csr => { s with csr := val }
  | .irq => { s with irq := val }
  | .fn f => { s with fn := Function.update s.fn f saveattrid }

/-- `addattr(tok, val)`: to the current type before the first separator, to the current device behind it. -/
def addattr (t : Tables) (tok : AttrTok) (val : ℤ) : Tables :=
  if t.brkcount = 0 then { t with dtypes := setLast (DevEnt.set tok val t.saveattrid) t.dtypes }
  else { t with devs := setLast (DevEnt.set tok val t.saveattrid) t.devs }

/-- `newdev(name)`. -/
def newdev (t : Tables) (name : String) : Option Tables :=
  if t.devs.length ≥ NDEVS then none
  else if name.length ≥ MAXNAME then none
  else if t.devs.any fun e => e.name = name then none
  else some { t with devs := t.devs ++ [{ DevEnt.zero with name := name }] }

/-- `devisid(tname)`. -/
def devisid (t : Tables) (tname : String) : Option Tables :=
  if tname.length ≥ MAXNAME then none
  else if t.dtypes.any fun e =>
    e.tname = tname then some { t with devs := setLast (fun e => { e with tname := tname }) t.devs }
  else none

/-- `devonid(onname)`: the entry of the type is copied to the current device, and keeps the next
minor number. -/
def devonid (t : Tables) (onname : String) : Option Tables :=
  if onname.length ≥ MAXNAME then none
  else
    match t.devs.getLast? with
    | none => none
    | some dptr =>
      match t.dtypes.findIdx? fun e => e.tname = dptr.tname ∧ e.ison = onname with
      | none => none
      | some i =>
        (t.dtypes[i]?).map fun tptr =>
          { t with
            devs := setLast (fun e => { tptr with name := e.name }) t.devs
            dtypes := t.dtypes.modify i fun e => { e with minor := e.minor + 1 } }

/-! ## Rules -/

/-- The rules whose actions change the tables, and the separator, which the scanner counts. -/
inductive Rule where
  | tname (id : String)
  | tonid (id : String)
  | id (id : String)
  | attr (tok : AttrTok) (val : ℤ)
  | defbrk
  | dname (id : String)
  | devisid (id : String)
  | devonid (id : String)

/-- The action of a rule. -/
def Rule.act (t : Tables) : Rule → Option Tables
  | .tname s => newtype t s
  | .tonid s => addton t s
  | .id s => getattrid t s
  | .attr tok val => some (addattr t tok val)
  | .defbrk => some { t with brkcount := t.brkcount + 1 }
  | .dname s => newdev t s
  | .devisid s => Config.devisid t s
  | .devonid s => Config.devonid t s

/-- The reductions of an attribute. -/
def Attr.rules : Attr → List Rule
  | .csr text => [.attr .csr (config_atoi text)]
  | .irq text => [.attr .irq (config_atoi text)]
  | .fn f id => [.id id, .attr (.fn f) 0]

/-- The reductions of a clause. -/
def OnClause.rules (c : OnClause) : List Rule := .tonid c.on :: c.attrs.flatMap Attr.rules

/-- The reductions of a type. -/
def Devtype.rules (t : Devtype) : List Rule := .tname t.tname :: t.clauses.flatMap OnClause.rules

/-- The reductions of a device. -/
def Device.rules (d : Device) : List Rule :=
  [.dname d.dname, .devisid d.is, .devonid d.on] ++ d.attrs.flatMap Attr.rules

/-- The reductions of a configuration. -/
def Configuration.rules (c : Configuration) : List Rule :=
  c.devtypes.flatMap Devtype.rules ++ .defbrk :: c.devices.flatMap Device.rules

/-! ## Output -/

/-- An entry of `devtab` in `conf.c`. -/
structure Dentry where
  /-- The device number. -/
  dvnum : ℕ
  /-- The minor number. -/
  dvminor : ℕ
  /-- The name. -/
  dvname : String
  /-- The driver functions. -/
  fn : DevFn → String
  /-- The address of the control and status register. -/
  csr : ℤ
  /-- The interrupt vector. -/
  irq : ℤ

/-- What is written: the table of `conf.c`, and in `conf.h` the number of each device, and N and the
number of devices for each type that has one. -/
structure Conf where
  /-- The table of devices. -/
  devtab : List Dentry
  /-- Each device name with its number. -/
  names : List (String × ℕ)
  /-- Each type with the number of its devices. -/
  sizes : List (String × ℕ)
  /-- The number of devices. -/
  ndevs : ℕ

/-- The last part of `main`. -/
def Tables.write (t : Tables) : Conf where
  devtab := t.devs.mapIdx fun i s => ⟨i, s.minor, s.name, s.fn, s.csr, s.irq⟩
  names := t.devs.mapIdx fun i s => (s.name, i)
  sizes := (t.dtypes.filter fun s => s.minor > 0).map fun s => (s.tname, s.minor)
  ndevs := t.devs.length

/-- The compiler, for a configuration that the grammar accepts. -/
def compile (c : Configuration) : Option Conf := (c.rules.foldlM Rule.act Tables.start).map Tables.write

end Xinu.Config
