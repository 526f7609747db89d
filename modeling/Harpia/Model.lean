import Harpia.Lib.Sqlite
import Harpia.Message

namespace Harpia

open Text

open Sqlite (SqlType)

inductive BindKind
  | int | int64 | double | text | enum
deriving DecidableEq, Repr

/-- The dialect parts `model.py` asks a `DbBackend` for. -/
structure Backend where
  int32 : SqlType
  int64 : SqlType
  bool : SqlType
  float : SqlType
  string : SqlType
  intType : SqlType

def sqlite : Backend := ⟨.INTEGER, .INTEGER, .INTEGER, .REAL, .TEXT, .INTEGER⟩

/-- `_scalar`: the SQL type and bind kind of a scalar token. -/
def scalar (b : Backend) : TypeToken → Option (SqlType × BindKind)
  | .INT32 => some (b.int32, .int)
  | .INT64 => some (b.int64, .int64)
  | .BOOL => some (b.bool, .int)
  | .FLOAT => some (b.float, .double)
  | .STRING => some (b.string, .text)
  | .ID _ => none
  | .other _ => none

def isScalarToken : TypeToken → Bool
  | .ID _ => false
  | .other _ => false
  | _ => true

structure Column where
  name : String
  sqlType : SqlType
  pk : Bool := false
  required : Bool := false
  unique : Bool := false
  bindable : Bool := false
  kind : Option BindKind := none
  fkTarget : Option String := none
  enumType : Option String := none
  fkTable : Bool := false
  embed : List String := []
  childAccessor : Option String := none
  renamedFrom : Option String := none
  isPhi : Bool := false
  optional : Bool := false
  presenceOf : List String := []
  identity : Bool := false
deriving DecidableEq, Repr

/-- The notes `analyze` and `_flatten` leave about fields without a column of their own. -/
inductive Note
  | mapChild (field : String)
  | repeatedChild (field : String)
  | repeatedLink (field target : String)
  | repeatedComposed (field target : String)
  | repeatedComposedDeferred (field target : String)
  | repeatedDeferred (field : String)
  | fkDeferred (field target : String)
  | unsupported (field : String) (token : TypeToken)
  | embeddedMap (owner field embedded : String)
  | embeddedRepeated (owner field embedded : String)
  | embeddedRepeatedComposed (owner field embedded : String)
  | embeddedComposedDeferred (owner field target embedded : String)
  | embeddedUnsupported (owner field : String) (token : TypeToken)
deriving DecidableEq, Repr

abbrev Flattened := List Column × List Note

/-- The hidden column that records whether an embed is present. -/
def presenceColumn (b : Backend) (owner : String) (embedPath : List String) : Column where
  name := "HARPIA_HAS_" ++ owner
  sqlType := b.intType
  kind := some .int
  embed := embedPath.dropLast
  childAccessor := embedPath.getLast?
  presenceOf := embedPath

/-- One field of `_flatten`'s loop; `recur` flattens a nested table-less message. -/
def flattenVar (b : Backend) (types : Types)
    (recur : String → Message → List String → Bool → Flattened)
    (owner : String) (child : Message) (embedPath : List String) (prefixed : Bool)
    (v : Variable) : Flattened :=
  let colName := if prefixed then owner ++ "_" ++ v.name else v.name
  let embed := if prefixed then embedPath else []
  if v.typeMap ≠ [] then ([], [.embeddedMap owner v.name child.name])
  else if .REPETEABLE ∈ v.modifiers ∧ isScalarToken v.type then
    ([], [.embeddedRepeated owner v.name child.name])
  else if .REPETEABLE ∈ v.modifiers then ([], [.embeddedRepeatedComposed owner v.name child.name])
  else
    match v.type with
    | .ID target =>
      match lookupType types target with
      | some (.enum, _) =>
        ([{ name := colName, sqlType := b.intType, kind := some .enum, enumType := some target
            embed := embed, childAccessor := some (lower v.name)
            optional := prefixed && decide (.OPTIONAL ∈ v.modifiers) }], [])
      | some (.message, nested) =>
        recur (if prefixed then colName else v.name) nested
          (if prefixed then embedPath ++ [lower v.name] else []) prefixed
      | some (.table, _) =>
        ([{ name := colName, sqlType := b.intType, fkTarget := some target, fkTable := true
            embed := embed, childAccessor := some (lower v.name) }], [])
      | none => ([], [.embeddedComposedDeferred owner v.name target child.name])
    | token =>
      match scalar b token with
      | none => ([], [.embeddedUnsupported owner v.name token])
      | some (sqlType, kind) =>
        ([{ name := colName, sqlType := sqlType, kind := some kind
            embed := embed, childAccessor := some (lower v.name)
            optional := prefixed && decide (.OPTIONAL ∈ v.modifiers) }], [])

/-- `_flatten`, within a recursion budget that a `Schema` never exhausts. -/
def flatten (b : Backend) (types : Types) : Nat → String → Message → List String → Bool → Flattened
  | 0, _, _, _, _ => ([], [])
  | fuel + 1, owner, child, embedPath, prefixed =>
    let presence := if prefixed ∧ embedPath ≠ [] then [presenceColumn b owner embedPath] else []
    let parts := child.visible.map
      (flattenVar b types (flatten b types fuel) owner child embedPath prefixed)
    (presence ++ parts.flatMap Prod.fst, parts.flatMap Prod.snd)

/-- One field of `analyze`'s loop. -/
def analyzeVar (b : Backend) (types : Types) (fuel : Nat) (msg : Message) (v : Variable) : Flattened :=
  if v.typeMap ≠ [] then ([], [.mapChild v.name])
  else if .REPETEABLE ∈ v.modifiers then
    match v.type with
    | .ID target =>
      match lookupType types target with
      | some (.table, _) => ([], [.repeatedLink v.name target])
      | some (.message, _) => ([], [.repeatedComposed v.name target])
      | _ => ([], [.repeatedComposedDeferred v.name target])
    | token =>
      if isScalarToken token then ([], [.repeatedChild v.name]) else ([], [.repeatedDeferred v.name])
  else
    match v.type with
    | .ID target =>
      match lookupType types target with
      | some (.enum, _) =>
        ([{ name := v.name, sqlType := b.intType, bindable := true, kind := some .enum
            enumType := some target, optional := .OPTIONAL ∈ v.modifiers }], [])
      | some (.table, _) =>
        ([{ name := v.name, sqlType := b.intType, fkTarget := some target, fkTable := true }], [])
      | some (.message, nested) => flatten b types fuel v.name nested [lower v.name] true
      | none =>
        ([{ name := v.name, sqlType := b.intType, fkTarget := some target }],
          [.fkDeferred v.name target])
    | token =>
      match scalar b token with
      | none => ([], [.unsupported v.name token])
      | some (sqlType, kind) =>
        ([{ name := v.name
            sqlType := if v.isPhi then b.string else sqlType
            pk := v.name = "HARPIA_ID"
            required := .REQUIRED ∈ v.modifiers
            unique := .UNIQUE ∈ v.modifiers
            bindable := true
            kind := some kind
            renamedFrom := v.renamedFrom
            isPhi := v.isPhi
            optional := .OPTIONAL ∈ v.modifiers
            identity := v.name = "HARPIA_ID" && msg.isAutokey }], [])

def analyze (b : Backend) (types : Types) (fuel : Nat) (msg : Message) : Flattened :=
  let parts := msg.vars.map (analyzeVar b types fuel msg)
  (parts.flatMap Prod.fst, parts.flatMap Prod.snd)

structure MapField where
  childTable : String
  field : String
  keySql : SqlType
  keyKind : BindKind
  valSql : SqlType
  valKind : BindKind
  embed : Option String := none
  renamedFrom : Option String := none
deriving DecidableEq, Repr

/-- `RepeatedField` and `RepeatedComposedField`. -/
inductive RepeatedField
  | scalar (childTable field : String) (valSql : SqlType) (valKind : BindKind)
      (fkTarget embed renamedFrom : Option String)
  | composed (childTable field : String) (columns : List Column) (renamedFrom : Option String)
deriving DecidableEq, Repr

def RepeatedField.childTable : RepeatedField → String
  | .scalar childTable .. => childTable
  | .composed childTable .. => childTable

def childPath (embed : Option String) (field : String) : String :=
  match embed with
  | some e => e ++ "_" ++ field
  | none => field

/-- `_map_field`: `none` unless both the key and the value are scalars. -/
def mapField (b : Backend) (table : String) (v : Variable) (embed : Option String) : Option MapField :=
  match (v.typeMap[0]?).bind (scalar b), (v.typeMap[1]?).bind (scalar b) with
  | some key, some val =>
    some {
      childTable := table ++ "__" ++ childPath embed v.name
      field := lower v.name
      keySql := key.1
      keyKind := key.2
      valSql := val.1
      valKind := val.2
      embed := embed
      renamedFrom := v.renamedFrom }
  | _, _ => none

/-- The table-less message a composed field, repeated or not, refers to. -/
def composedTarget (types : Types) (v : Variable) : Option Message :=
  match v.type with
  | .ID target =>
    match lookupType types target with
    | some (.message, m) => some m
    | _ => none
  | _ => none

/-- One field of `map_fields`' loop: its own map, or those of the message it embeds. -/
def mapFieldsOf (b : Backend) (types : Types) (table : String) (v : Variable) : List MapField :=
  if v.typeMap ≠ [] then (mapField b table v none).toList
  else
    match composedTarget types v with
    | some target => target.visible.flatMap fun cv =>
      if cv.typeMap ≠ [] then (mapField b table cv (some (lower v.name))).toList else []
    | none => []

def mapFields (b : Backend) (types : Types) (msg : Message) : List MapField :=
  if msg.tableName = "" then [] else msg.vars.flatMap (mapFieldsOf b types msg.tableName)

/-- First loop of `repeated_fields`: the message's own repeated fields. -/
def directRepeated (b : Backend) (types : Types) (fuel : Nat) (table : String) (v : Variable) :
    List RepeatedField :=
  if v.typeMap ≠ [] ∨ .REPETEABLE ∉ v.modifiers then []
  else
    let child := table ++ "__" ++ v.name
    match v.type with
    | .ID target =>
      match lookupType types target with
      | some (.table, _) =>
        [.scalar child (lower v.name) b.intType .int64 (some target) none none]
      | some (.message, m) =>
        let cols := (flatten b types fuel v.name m [] false).1
        if cols ≠ [] then [.composed child (lower v.name) cols v.renamedFrom] else []
      | _ => []
    | token =>
      match scalar b token with
      | some (sql, kind) => [.scalar child (lower v.name) sql kind none none v.renamedFrom]
      | none => []

/-- Second loop of `repeated_fields`: repeated scalars one composed level down. -/
def embeddedRepeated (b : Backend) (types : Types) (table : String) (v : Variable) :
    List RepeatedField :=
  if v.typeMap ≠ [] then []
  else
    match composedTarget types v with
    | some target => target.visible.flatMap fun cv =>
      if cv.typeMap ≠ [] ∨ .REPETEABLE ∉ cv.modifiers then []
      else
        match scalar b cv.type with
        | some (sql, kind) =>
          [.scalar (table ++ "__" ++ lower v.name ++ "_" ++ cv.name) (lower cv.name) sql kind none
            (some (lower v.name)) none]
        | none => []
    | none => []

def repeatedFields (b : Backend) (types : Types) (fuel : Nat) (msg : Message) : List RepeatedField :=
  if msg.tableName = "" then []
  else msg.vars.flatMap (directRepeated b types fuel msg.tableName) ++
    msg.vars.flatMap (embeddedRepeated b types msg.tableName)

def childTableNames (b : Backend) (types : Types) (fuel : Nat) (msg : Message) : List String :=
  (mapFields b types msg).map MapField.childTable ++
    (repeatedFields b types fuel msg).map RepeatedField.childTable

/-- The columns of a child table, key columns first. -/
def MapField.columnNames (_ : MapField) : List String := ["owner", "key", "value"]

def RepeatedField.columnNames : RepeatedField → List String
  | .scalar .. => ["owner", "ordinal", "value"]
  | .composed _ _ columns _ => "owner" :: "ordinal" :: columns.map Column.name

/-- The recursion budget of a schema. -/
def Schema.fuel (S : Schema) : Nat := S.messages.length

theorem Schema.rank_lt_fuel {S : Schema} {m : Message} (hm : m ∈ S.messages) : S.rank m < S.fuel :=
  S.rank_lt m hm

end Harpia
