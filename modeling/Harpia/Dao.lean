import Harpia.Lib.Proto
import Harpia.Model

namespace Harpia

open Text Sqlite Proto

/-- The attribute names down to a field: the messages above it, and its own. -/
structure FieldPath where
  owner : List String
  field : String
deriving DecidableEq, Repr

def FieldPath.steps (p : FieldPath) : List String := p.owner ++ [p.field]

def FieldPath.ofSteps (steps : List String) : Option FieldPath :=
  steps.getLast?.map fun field => ⟨steps.dropLast, field⟩

/-- `dao.Column`; `fk` names the message whose DAO stores the child. -/
structure DaoColumn where
  name : String
  path : FieldPath
  fk : Option String := none
  phi : Bool := false
  presence : Bool := false
deriving DecidableEq, Repr

inductive DaoChildKind
  | map
  | repeated (fk : Option String)
  | composed (columns : List DaoColumn)
deriving DecidableEq, Repr

/-- `dao.ChildTable`. -/
structure DaoChild where
  table : String
  path : FieldPath
  kind : DaoChildKind
deriving DecidableEq, Repr

/-- A generated DAO class. -/
structure Dao where
  message : Message
  columns : List DaoColumn
  children : List DaoChild
deriving DecidableEq, Repr

def Dao.table (dao : Dao) : String := dao.message.tableName

def pk : String := "HARPIA_ID"

/-- `_walk`: the declared spelling of a chain of lowercased accessors. -/
def walk (types : Types) : Message → List String → Option (List String)
  | _, [] => some []
  | current, step :: steps =>
    (current.vars.find? fun v => lower v.name = step).bind fun v =>
      let next := match v.type with
        | .ID target => ((lookupType types target).map Prod.snd).getD current
        | _ => current
      (walk types next steps).map fun path => v.name :: path

/-- `_exact_path`. -/
def exactPath (types : Types) (msg : Message) (c : Column) : Option FieldPath :=
  if c.presenceOf ≠ [] then (walk types msg c.presenceOf).bind FieldPath.ofSteps
  else if c.embed ≠ [] then
    (walk types msg (c.embed ++ c.childAccessor.toList)).bind FieldPath.ofSteps
  else some ⟨[], c.name⟩

/-- `_column_spec`. -/
def columnSpec (types : Types) (msg : Message) (c : Column) : Option DaoColumn :=
  (exactPath types msg c).map fun path =>
    { name := c.name
      path := path
      fk := if c.fkTable then c.fkTarget else none
      phi := c.isPhi && !c.fkTable
      presence := c.presenceOf ≠ [] }

/-- `_element_type`, for a repeated field of the message itself. -/
def elementType (types : Types) (msg : Message) (step : String) : Option Message :=
  (msg.vars.find? fun v => lower v.name = step).bind fun v =>
    match v.type with
    | .ID target => (lookupType types target).map Prod.snd
    | _ => some msg

def elementColumnSpec (types : Types) (elem : Message) (c : Column) : Option DaoColumn :=
  ((walk types elem c.childAccessor.toList).bind FieldPath.ofSteps).map fun path =>
    { name := c.name, path := path }

/-- `_child_spec` of a map. -/
def mapSpec (types : Types) (msg : Message) (f : MapField) : Option DaoChild :=
  ((walk types msg (f.embed.toList ++ [f.field])).bind FieldPath.ofSteps).map fun path =>
    { table := f.childTable, path := path, kind := .map }

/-- `_child_spec` of a repeated field. -/
def repeatedSpec (types : Types) (msg : Message) : RepeatedField → Option DaoChild
  | .scalar childTable field _ _ fkTarget embed _ =>
    ((walk types msg (embed.toList ++ [field])).bind FieldPath.ofSteps).map fun path =>
      { table := childTable, path := path, kind := .repeated fkTarget }
  | .composed childTable field columns _ =>
    (elementType types msg field).bind fun elem =>
      ((walk types msg [field]).bind FieldPath.ofSteps).bind fun path =>
        (columns.mapM (elementColumnSpec types elem)).map fun columns =>
          { table := childTable, path := path, kind := .composed columns }

/-- Scalar, enum, embedded and presence columns first, then the foreign keys. -/
def boundColumns (columns : List Column) : List Column :=
  (columns.filter fun c => (c.bindable || c.embed ≠ [] || c.presenceOf ≠ []) && !c.fkTable) ++
    columns.filter fun c => c.fkTable

/-- `_render`: the DAO of a table message; `none` where the generator stops. -/
def render (S : Schema) (msg : Message) : Option Dao :=
  ((boundColumns (analyze sqlite S.types S.fuel msg).1).mapM (columnSpec S.types msg)).bind
    fun columns =>
      ((mapFields sqlite S.types msg).mapM (mapSpec S.types msg)).bind fun maps =>
        ((repeatedFields sqlite S.types S.fuel msg).mapM (repeatedSpec S.types msg)).map
          fun repeateds => { message := msg, columns := columns, children := maps ++ repeateds }

/-- `dao_class`: the DAO generated for a message that owns a table. -/
def daoClass (S : Schema) (name : String) : Option Dao :=
  (S.messages.find? fun m => m.name = name ∧ m.kind = .table).bind (render S)

end Harpia
