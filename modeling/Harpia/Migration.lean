import Harpia.Lib.SqliteRebuild
import Harpia.Model
import Mathlib.Data.List.Sort

namespace Harpia

open Text Sqlite

/-- The kinds of child table; a `link` holds the keys of a repeated foreign key. -/
inductive ChildShape
  | map (keySql valSql : SqlType)
  | repeated (valSql : SqlType)
  | link (valSql : SqlType)
  | composed (columns : List Column)

/-- A declared child table; `renamedFrom` is the old field name, for direct fields only. -/
structure Child where
  table : String
  shape : ChildShape
  renamedFrom : Option String := none

def MapField.child (f : MapField) : Child where
  table := f.childTable
  shape := .map f.keySql f.valSql
  renamedFrom := if f.embed = none then f.renamedFrom else none

def RepeatedField.child : RepeatedField → Child
  | .scalar childTable _ valSql _ fkTarget embed renamedFrom =>
    if fkTarget = none then
      { table := childTable, shape := .repeated valSql
        renamedFrom := if embed = none then renamedFrom else none }
    else { table := childTable, shape := .link valSql }
  | .composed childTable _ columns renamedFrom =>
    { table := childTable, shape := .composed columns, renamedFrom := renamedFrom }

/-- `sql_def`: a primary key carries no further constraint. -/
def Column.sqlDef (c : Column) : ColumnDef where
  name := c.name
  type := c.sqlType
  pk := c.pk
  notNull := !c.pk && c.required
  unique := !c.pk && c.unique

def hiddenNames : List String :=
  ["HARPIA_ID", "HARPIA_STATUS", "HARPIA_ERROR", "HARPIA_ORIGINATOR"]

/-- The tables one version of a table message declares: the main table's columns, and the child
tables in creation order. -/
structure Declared where
  table : String
  version : String
  columns : List Column
  children : List Child
  named : isIdentifier table
  hidden_declared : ∀ n ∈ hiddenNames, n ∈ columns.map Column.name
  keyed : ∃ c ∈ columns, c.pk
  pk_only : ∀ c ∈ columns, c.pk → c.name = "HARPIA_ID" ∧ c.sqlType = .INTEGER
  elements_plain : ∀ child ∈ children, ∀ columns, child.shape = .composed columns →
    ∀ c ∈ columns, c.pk = false ∧ c.required = false ∧ c.unique = false
  child_named : ∀ child ∈ children, ∃ suffix, child.table = table ++ "__" ++ suffix

def keyColumn (name : String) : ColumnDef := { name := name, type := .INTEGER }

def ChildShape.columns : ChildShape → List ColumnDef
  | .map keySql valSql => [keyColumn "owner", ⟨"key", keySql, false, false, false⟩,
      ⟨"value", valSql, false, false, false⟩]
  | .repeated valSql | .link valSql => [keyColumn "owner", keyColumn "ordinal",
      ⟨"value", valSql, false, false, false⟩]
  | .composed columns => keyColumn "owner" :: keyColumn "ordinal" :: columns.map Column.sqlDef

def ChildShape.key : ChildShape → List String
  | .map .. => ["owner", "key"]
  | _ => ["owner", "ordinal"]

/-- The declared tables with their columns and keys, the main table first. -/
def Declared.ddl (d : Declared) : List (String × List ColumnDef × List String) :=
  (d.table, d.columns.map Column.sqlDef, []) ::
    d.children.map fun child => (child.table, child.shape.columns, child.shape.key)

/-- `dao.CREATE_TABLE_SQL`. -/
def Declared.createTableSql (d : Declared) : List Stmt :=
  d.ddl.map fun e => .createTable true e.1 e.2.1 e.2.2

/-- A backend migration plan: `evolve` holds the columns to add and to keep of a repeated-composed
child table, `statements` the rebuild. -/
structure Plan where
  table : String
  evolve : Option (List ColumnDef × List String) := none
  conditions : List (String × SqlType)
  statements : List (List Stmt)

def castTargets (columns : List Column) : List (String × Expr) :=
  columns.map fun c => (c.name, .cast c.name c.sqlType)

/-- `retype_plan`: stopping inside this rebuild leaves the main table half done. -/
def Declared.retypePlan (d : Declared) : Plan where
  table := d.table
  conditions := d.columns.map fun c => (c.name, c.sqlType)
  statements := [rebuildStmts (d.table ++ "__retype_tmp") d.table (d.columns.map Column.sqlDef) []
    (castTargets d.columns)]

def ChildShape.tmp (shape : ChildShape) (table : String) : String :=
  match shape with
  | .composed _ => table ++ "__evolve_tmp"
  | _ => table ++ "__retype_tmp"

def ChildShape.targets : ChildShape → List (String × Expr)
  | .map keySql valSql => [("owner", .column "owner"), ("key", .cast "key" keySql),
      ("value", .cast "value" valSql)]
  | .repeated valSql | .link valSql => [("owner", .column "owner"),
      ("ordinal", .column "ordinal"), ("value", .cast "value" valSql)]
  | .composed columns => ("owner", .column "owner") :: ("ordinal", .column "ordinal") ::
      castTargets columns

/-- `_rep_rebuild_sql` and its siblings; here only the last two statements hang together. -/
def ChildShape.rebuild (shape : ChildShape) (table : String) : List (List Stmt) :=
  [[.createTable false (shape.tmp table) shape.columns shape.key],
    [.insertSelect (shape.tmp table) shape.targets table],
    [.dropTable table, .renameTable (shape.tmp table) table]]

/-- `rep_child_plan`, `map_child_plan`, `composed_child_plan`; link tables have none. -/
def Child.plan (child : Child) : Option Plan :=
  match child.shape with
  | .repeated valSql => some
    { table := child.table, conditions := [("value", valSql)]
      statements := child.shape.rebuild child.table }
  | .map keySql valSql => some
    { table := child.table, conditions := [("key", keySql), ("value", valSql)]
      statements := child.shape.rebuild child.table }
  | .composed columns => some
    { table := child.table
      evolve := some (columns.map Column.sqlDef, "owner" :: "ordinal" :: columns.map Column.name)
      conditions := columns.map fun c => (c.name, c.sqlType)
      statements := child.shape.rebuild child.table }
  | .link _ => none

def ChildShape.isRepeated : ChildShape → Bool
  | .repeated _ => true
  | _ => false

def ChildShape.isMap : ChildShape → Bool
  | .map .. => true
  | _ => false

def ChildShape.isComposed : ChildShape → Bool
  | .composed _ => true
  | _ => false

/-- `rep_scalars + maps + rep_composed`. -/
def Declared.evolving (d : Declared) : List Child :=
  (d.children.filter fun c => c.shape.isRepeated) ++ (d.children.filter fun c => c.shape.isMap) ++
    d.children.filter fun c => c.shape.isComposed

def Declared.childRenames (d : Declared) : List (String × String) :=
  d.evolving.filterMap fun c => c.renamedFrom.map fun old => (d.table ++ "__" ++ old, c.table)

def legacyHidden : List (String × String × Bool) :=
  [("HARPIA_ID", "ID_", false), ("HARPIA_STATUS", "STATUS_", false),
    ("HARPIA_ERROR", "ERROR_", false), ("HARPIA_ORIGINATOR", "ORIGINATOR_", true)]

def Declared.hiddenRenames (d : Declared) : List (String × String × Bool) :=
  d.columns.filterMap fun c => legacyHidden.find? fun l => l.1 = c.name

def Declared.renames (d : Declared) : List (String × String) :=
  d.columns.filterMap fun c => c.renamedFrom.map fun old => (old, c.name)

def Declared.adds (d : Declared) : List ColumnDef :=
  (d.columns.filter fun c => !c.pk).map fun c => { name := c.name, type := c.sqlType }

abbrev Script := Prog Db Stmt

def versionTable : String := "_harpia_schema_version"

/-- Python's order on strings. -/
def codePointLe : List Char → List Char → Bool
  | [], _ => true
  | _ :: _, [] => false
  | a :: as, b :: bs => a.toNat < b.toNat || (a = b && codePointLe as bs)

def sorted (names : List String) : List String :=
  names.insertionSort fun a b => codePointLe a.toList b.toList

def isLowerHex (c : Char) : Bool := c.isDigit || ('a' ≤ c && c ≤ 'f')

def isLegacy (name pre : String) (bareOk : Bool) : Bool :=
  bareOk && name ++ "_" = pre ||
    (startsWith name pre && (name.toList.drop pre.length).length = 32 &&
      (name.toList.drop pre.length).all isLowerHex)

def listChildTables (table : String) : Script (List String) :=
  .get fun db => db.names.filter fun n => startsWith n (table ++ "__")

def liveColumns (db : Db) (table : String) : List ColumnDef :=
  match db.get? table with
  | some t => t.columns
  | none => []

def listColumns (table : String) : Script (List String) :=
  .get fun db => (liveColumns db table).map ColumnDef.name

def liveTypes (columns : List ColumnDef) : List (String × SqlType) :=
  columns.map fun c => (c.name, c.type)

def listColumnTypes (table : String) : Script (List (String × SqlType)) :=
  .get fun db => liveTypes (liveColumns db table)

/-- `discard(old)`, `add(new)` on a set of names. -/
def swapName (names : List String) (old new : String) : List String :=
  names.filter (· ≠ old) ++ [new]

def renameChild (childHave : List String) (p : String × String) : Script (List String) :=
  if p.1 ∈ childHave ∧ p.2 ∉ childHave then do
    .exec [.renameTable p.1 p.2]
    return swapName childHave p.1 p.2
  else return childHave

def renameHidden (table : String) (have_ : List String) (p : String × String × Bool) :
    Script (List String) :=
  if p.1 ∈ have_ then return have_
  else
    match (sorted have_).find? fun c => isLegacy c p.2.1 p.2.2 with
    | some legacy => do
      .exec [.renameColumn table legacy p.1]
      return swapName have_ legacy p.1
    | none => return have_

def renameMarked (table : String) (have_ : List String) (p : String × String) :
    Script (List String) :=
  if p.1 ∈ have_ ∧ p.2 ∉ have_ then do
    .exec [.renameColumn table p.1 p.2]
    return swapName have_ p.1 p.2
  else return have_

def addMissing (table : String) (have_ : List String) (c : ColumnDef) : Script Unit :=
  if c.name ∈ have_ then return () else .exec [.addColumn table c]

def dropStray (table : String) (current : List String) (column : String) : Script Unit :=
  if column ∈ current then return () else .exec [.dropColumn table column]

def dropStale (keep : List String) (table : String) : Script Unit :=
  if table ∈ keep then return () else .exec [.dropTable table]

def drifted (live : List (String × SqlType)) (conditions : List (String × SqlType)) : Bool :=
  conditions.any fun p => live.any fun l => l.1 = p.1 && l.2 ≠ p.2

def rebuildIf (force : Bool) (plan : Plan) : Script Unit :=
  if force then Prog.forEach .exec plan.statements else return ()

/-- `run_plan`, for the plans the SQLite backend makes. -/
def runPlan (plan : Plan) : Script Unit := do
  let live ← listColumnTypes plan.table
  match plan.evolve with
  | none => rebuildIf (drifted live plan.conditions) plan
  | some (adds, keep) =>
    if live = [] then return ()
    else do
      Prog.forEach (addMissing plan.table (live.map Prod.fst)) adds
      rebuildIf (drifted live plan.conditions || live.any fun l => l.1 ∉ keep) plan

/-- The main table's part: bring the columns to the declared ones, then retype. -/
def migrateColumns (d : Declared) : Script Unit := do
  let have_ ← listColumns d.table
  let have_ ← Prog.fold (renameHidden d.table) have_ d.hiddenRenames
  let have_ ← Prog.fold (renameMarked d.table) have_ d.renames
  Prog.forEach (addMissing d.table have_) d.adds
  Prog.forEach (dropStray d.table (d.columns.map Column.name)) (sorted have_)
  runPlan d.retypePlan

/-- The statements of `migrate_<name>`, without a `data_transform`. The Python migration runs them
in one transaction, the C++ one commits each. -/
def migration (d : Declared) : Script Unit := do
  .exec [.createTable true versionTable
    [⟨"name", .TEXT, false, false, false⟩, ⟨"version", .TEXT, false, false, false⟩] ["name"]]
  let childHave ← listChildTables d.table
  let childHave ← Prog.fold renameChild childHave d.childRenames
  Prog.forEach (fun s => .exec [s]) d.createTableSql
  migrateColumns d
  Prog.forEach (dropStale (d.children.map Child.table)) (sorted childHave)
  Prog.forEach runPlan (d.evolving.filterMap Child.plan)
  .exec [.insertOrReplace versionTable [("name", .text d.table), ("version", .text d.version)]]

/-- `migrate`: an error rolls the whole migration back. -/
def migrate (C : Casting) (d : Declared) (db : Db) : Option Db :=
  ((migration d).run (exec C) db).map Prod.snd

end Harpia
