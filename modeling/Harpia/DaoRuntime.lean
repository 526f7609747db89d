import Harpia.Dao
import Harpia.EncryptedColumn
import Harpia.Lib.Calls
import Harpia.Lib.SqliteDml

namespace Harpia

open Text Sqlite Proto

section Descriptors

/-- `DESCRIPTOR.fields_by_name`. -/
def Message.field? (d : Message) (name : String) : Option Variable :=
  d.vars.find? fun v => v.name = name

def Variable.singular (v : Variable) : Bool := v.typeMap = [] ∧ .REPETEABLE ∉ v.modifiers

/-- The message type that a composed field, repeated or not, holds. -/
def messageType (types : Types) (v : Variable) : Option Message :=
  match v.type with
  | .ID target =>
    match lookupType types target with
    | some (.enum, _) => none
    | some (_, m) => some m
    | none => none
  | _ => none

/-- The type of a singular message field. -/
def subType (types : Types) (v : Variable) : Option Message :=
  if v.singular then messageType types v else none

def isEnumType (types : Types) (v : Variable) : Bool :=
  match v.type with
  | .ID target => (lookupType types target).any fun e => e.1 = .enum
  | _ => false

/-- A singular scalar or enum field. -/
def isScalarField (types : Types) (v : Variable) : Bool :=
  v.singular && (isScalarToken v.type || isEnumType types v)

/-- `has_presence` of a scalar field. -/
def hasPresence (v : Variable) : Bool := .OPTIONAL ∈ v.modifiers

/-- The value of a scalar field that is not set. -/
def defaultValue : TypeToken → Scalar
  | .STRING => .text ""
  | .FLOAT => .float 0
  | .BOOL => .bool false
  | _ => .int 0

end Descriptors

section Bind

variable (types : Types)

/-- `HasField`: raises for a field that does not track presence. -/
def hasField (d : Message) (m : Msg) (name : String) : Option Bool :=
  (d.field? name).bind fun v =>
    if (subType types v).isSome then some (m.sub? name).isSome
    else if isScalarField types v ∧ hasPresence v then some (m.scalar? name).isSome
    else none

/-- `_owner`: the type and the message below some attribute names. -/
def ownerOf : List String → Message → Msg → Option (Message × Msg)
  | [], d, m => some (d, m)
  | step :: steps, d, m =>
    ((d.field? step).bind (subType types)).bind fun sub =>
      ownerOf steps sub ((m.sub? step).getD .empty)

/-- `_embeds_set`. -/
def embedsSet : List String → Message → Msg → Option Bool
  | [], _, _ => some true
  | step :: steps, d, m =>
    (hasField types d m step).bind fun set =>
      if set then ((d.field? step).bind (subType types)).bind fun sub =>
        embedsSet steps sub ((m.sub? step).getD .empty)
      else some false

/-- `to_db`. -/
def toDb : Scalar → Value
  | .int n => .int n
  | .bool b => .int (if b then 1 else 0)
  | .float bits => .real bits
  | .text s => .text s

/-- `is_unset_optional`. -/
def isUnsetOptional (v : Variable) (m : Msg) : Bool := hasPresence v && (m.scalar? v.name).isNone

/-- `getattr` of a scalar field. -/
def attrValue (v : Variable) (m : Msg) : Scalar := (m.scalar? v.name).getD (defaultValue v.type)

/-- `bind_value`. -/
def bindValue (d : Message) (m : Msg) (name : String) : Option Value :=
  (d.field? name).bind fun v =>
    if isScalarField types v then
      some (if isUnsetOptional v m then .null else toDb (attrValue v m))
    else none

/-- `column_value`. -/
def columnValue (d : Message) (m : Msg) (col : DaoColumn) : Option Value :=
  (ownerOf types col.path.owner d m).bind fun owner =>
    if col.presence then
      (hasField types owner.1 owner.2 col.path.field).map fun set => .int (if set then 1 else 0)
    else if col.fk.isSome then
      ((owner.1.field? col.path.field).bind (subType types)).bind fun child =>
        bindValue types child ((owner.2.sub? col.path.field).getD .empty) pk
    else
      (embedsSet types col.path.owner d m).bind fun set =>
        if set then bindValue types owner.1 owner.2 col.path.field else some .null

end Bind

/-- A value bound to a column. `source` says whose value it is: the type of the DAO's message and
the attribute names from there down to the field. Ordinals and presence flags are no field's
value. -/
structure Cell where
  column : String
  value : Value
  source : Option (Message × List String)

/-- What a DAO asks the database for, and the random bytes of a new DEK. -/
inductive Request
  | insert (table : String) (cells : List Cell)
  | update (table : String) (cells : List Cell) (key : Value)
  | delete (table column : String) (v : Value)
  | tokenBytes

/-- The row that `RETURNING` reads, `rowcount`, and the bytes. -/
def Answer : Request → Type
  | .insert .. => Row
  | .update .. => Nat
  | .delete .. => Nat
  | .tokenBytes => Bytes

abbrev Cursor := Calls Request Answer

namespace Cursor

def insert (table : String) (cells : List Cell) : Cursor Row := Calls.send (Request.insert table cells)

def update (table : String) (cells : List Cell) (key : Value) : Cursor Nat :=
  Calls.send (Request.update table cells key)

def delete (table column : String) (v : Value) : Cursor Nat :=
  Calls.send (Request.delete table column v)

def tokenBytes : Cursor Bytes := Calls.send Request.tokenBytes

end Cursor

def Request.cells : Request → List Cell
  | .insert _ cells => cells
  | .update _ cells _ => cells
  | .delete .. => []
  | .tokenBytes => []

/-- What the generated DAOs share: their schema, the process-wide key provider, and how `%f` prints
a number. -/
structure DaoEnv where
  schema : Schema
  defaultProvider : KeyProvider
  fixed : UInt64 → String

/-- `plaintext`: the text a `phi` value is sealed as. -/
def plaintext (fixed : UInt64 → String) : Scalar → String
  | .text s => s
  | .float bits => fixed bits
  | .int n => toString n
  | .bool b => if b then "1" else "0"

/-- `setattr` of the key, a number that has to fit an `int32`. -/
def setKey (k : Int) : Option Int := if -2 ^ 31 ≤ k ∧ k < 2 ^ 31 then some k else none

/-- `static_cast` of the key to an `int32`. -/
def castKey (k : Int) : Option Int := some (k.bmod (2 ^ 32))

theorem setKey_eq {k assigned : Int} (h : setKey k = some assigned) : assigned = k := by
  unfold setKey at h
  split at h
  · exact (Option.some.inj h).symm
  · cases h

section Write

variable (E : DaoEnv) (p : KeyProvider) (dao : Dao)

def Cell.of (col : DaoColumn) (v : Value) : Cell where
  column := col.name
  value := v
  source := if col.presence then none else some (dao.message, col.path.steps)

/-- `PhiDao._bind`, which is `Dao._bind` for a column without `phi`. -/
def bindColumn (msg : Msg) (col : DaoColumn) : Cursor Cell :=
  if col.phi then do
    let owner ← Calls.ofOption (ownerOf E.schema.types col.path.owner dao.message msg)
    let field ← Calls.ofOption (owner.1.field? col.path.field)
    if isUnsetOptional field owner.2 then return Cell.of dao col .null
    else
      let dek ← Cursor.tokenBytes
      let text : Plain .python := plaintext E.fixed (attrValue field owner.2)
      let stored ← Calls.ofOption (encryptField .python p dek text)
      return Cell.of dao col (.text (String.ofList stored))
  else do
    let v ← Calls.ofOption (columnValue E.schema.types dao.message msg col)
    return Cell.of dao col v

/-- `_pk_value`. -/
def pkValue (msg : Msg) : Option Value := bindValue E.schema.types dao.message msg pk

def ownerCell (v : Value) : Cell := ⟨"owner", v, some (dao.message, [pk])⟩

def childCell (child : DaoChild) (column : String) (v : Value) : Cell :=
  ⟨column, v, some (dao.message, child.path.steps)⟩

def ordinalCell (i : Nat) : Cell := ⟨"ordinal", .int i, none⟩

/-- The element of a `"composed"` child row. -/
def elementCell (child : DaoChild) (col : DaoColumn) (v : Value) : Cell :=
  ⟨col.name, v, some (dao.message, child.path.steps ++ col.path.steps)⟩

/-- What a loop over the field goes through: the elements of a repeated scalar, the keys of a map,
the characters of a string. -/
def iterate (v : Variable) (m : Msg) : Option (List Scalar) :=
  if v.typeMap ≠ [] then some (m.map v.name).keys
  else if .REPETEABLE ∈ v.modifiers then
    if isScalarToken v.type || isEnumType E.schema.types v then some (m.list v.name)
    else if (m.elements v.name).isEmpty then some []
    else none
  else if v.type = .STRING then
    match attrValue v m with
    | .text s => some (s.toList.map fun c => .text (String.singleton c))
    | _ => none
  else none

/-- The entries of a map. -/
def writeMap (owner : Value) (child : DaoChild) (field : Variable) (m : Msg) : Cursor Unit :=
  if field.typeMap = [] then Calls.raise
  else do
    let _ ← Calls.collect (fun e => Cursor.insert child.table
      [ownerCell dao owner, childCell dao child "key" (toDb e.1),
        childCell dao child "value" (toDb e.2)]) (m.map field.name).entries
    return ()

/-- The elements of a repeated scalar. -/
def writeRepeated (owner : Value) (child : DaoChild) (field : Variable) (m : Msg) : Cursor Unit := do
  let items ← Calls.ofOption (iterate E field m)
  let _ ← Calls.collect (fun e => Cursor.insert child.table
    [ownerCell dao owner, ordinalCell e.2, childCell dao child "value" (toDb e.1)]) items.zipIdx
  return ()

/-- The type of the elements of a repeated message field. -/
def elementsType (field : Variable) : Option Message :=
  if field.typeMap = [] ∧ .REPETEABLE ∈ field.modifiers then messageType E.schema.types field
  else none

/-- The elements of a repeated message with a table: each is stored, and its key is linked. -/
def writeLinks (recur : Msg → Cursor Msg) (owner : Value) (child : DaoChild) (field : Variable)
    (m : Msg) : Cursor (List Msg) := do
  let sub ← Calls.ofOption (elementsType E field)
  Calls.collect (fun e => do
    let item ← recur e.1
    let key ← Calls.ofOption (bindValue E.schema.types sub item pk)
    let _ ← Cursor.insert child.table
      [ownerCell dao owner, ordinalCell e.2, childCell dao child "value" key]
    return item) (m.elements field.name).zipIdx

/-- The elements of a repeated message without a table. -/
def writeComposed (owner : Value) (child : DaoChild) (columns : List DaoColumn) (field : Variable)
    (m : Msg) : Cursor Unit := do
  let sub ← Calls.ofOption (elementsType E field)
  let _ ← Calls.collect (fun e => do
    let cells ← Calls.collect (fun col => do
      let v ← Calls.ofOption (columnValue E.schema.types sub e.1 col)
      return elementCell dao child col v) columns
    Cursor.insert child.table (ownerCell dao owner :: ordinalCell e.2 :: cells))
    (m.elements field.name).zipIdx
  return ()

/-- The insertions of `_write_child`; `recur` stores a message of another table and returns it as
stored. -/
def insertChild (recur : String → Msg → Cursor Msg) (owner : Value) (msg : Msg) (child : DaoChild) :
    Cursor Msg := do
  let base ← Calls.ofOption (ownerOf E.schema.types child.path.owner dao.message msg)
  let field ← Calls.ofOption (base.1.field? child.path.field)
  match child.kind with
  | .map =>
    writeMap dao owner child field base.2
    return msg
  | .repeated none =>
    writeRepeated E dao owner child field base.2
    return msg
  | .repeated (some target) =>
    let items ← writeLinks E dao (recur target) owner child field base.2
    -- no element, no message to put back: an embed that is absent stays absent
    if items.isEmpty then return msg
    else Calls.ofOption (msg.modify (fun o => some (o.set field.name (some (.elements items))))
      child.path.owner)
  | .composed columns =>
    writeComposed E dao owner child columns field base.2
    return msg

/-- `_write_child`. -/
def writeChild (recur : String → Msg → Cursor Msg) (owner : Value) (update : Bool) (msg : Msg)
    (child : DaoChild) : Cursor Msg :=
  if update then do
    let _ ← Cursor.delete child.table "owner" owner
    insertChild E dao recur owner msg child
  else insertChild E dao recur owner msg child

/-- One foreign key: a child that is set is stored. -/
def storeChild (recur : String → Msg → Cursor Msg) (msg : Msg) (col : DaoColumn) : Cursor Msg :=
  match col.fk with
  | none => return msg
  | some target => do
    let owner ← Calls.ofOption (ownerOf E.schema.types col.path.owner dao.message msg)
    let set ← Calls.ofOption (hasField E.schema.types owner.1 owner.2 col.path.field)
    if set then
      let child ← recur target ((owner.2.sub? col.path.field).getD .empty)
      Calls.ofOption (msg.modify (fun o => some (o.set col.path.field (some (.sub child))))
        col.path.owner)
    else return msg

/-- The columns that an `UPDATE` sets. -/
def keylessColumns : List DaoColumn := dao.columns.filter fun c => c.name ≠ pk

/-- The `INSERT` of `_create`: on an `autokey` table the database assigns the key of a message that
has none. -/
def insertRow (assign : Int → Option Int) (msg : Msg) : Cursor Msg := do
  let key ← Calls.ofOption (pkValue E dao msg)
  if dao.message.isAutokey ∧ key = .int 0 then
    let cells ← Calls.collect (bindColumn E p dao msg) (keylessColumns dao)
    let row ← Cursor.insert dao.table cells
    match row.get pk with
    | .int k =>
      let assigned ← Calls.ofOption (assign k)
      return msg.set pk (some (.scalar (.int assigned)))
    | _ => Calls.raise
  else
    let cells ← Calls.collect (bindColumn E p dao msg) dao.columns
    let _ ← Cursor.insert dao.table cells
    return msg

end Write

/-- `_create`, within a recursion budget; it returns the message with the keys that the database
assigned. -/
def createIn (E : DaoEnv) : Nat → KeyProvider → Dao → Msg → Cursor Msg
  | 0, _, _, _ => Calls.raise
  | fuel + 1, p, dao, msg => do
    let recur := fun target child => do
      let d ← Calls.ofOption (daoClass E.schema target)
      createIn E fuel E.defaultProvider d child
    let msg ← Calls.fold (storeChild E dao recur) msg dao.columns
    let msg ← insertRow E p dao setKey msg
    let owner ← Calls.ofOption (pkValue E dao msg)
    Calls.fold (writeChild E dao recur owner false) msg dao.children

/-- `_update`, within a recursion budget. -/
def updateIn (E : DaoEnv) : Nat → KeyProvider → Dao → Msg → Cursor Bool
  | 0, _, _, _ => Calls.raise
  | fuel + 1, p, dao, msg => do
    let recur := fun target child => do
      let d ← Calls.ofOption (daoClass E.schema target)
      let _ ← updateIn E fuel E.defaultProvider d child
      return child
    let _ ← Calls.fold (storeChild E dao recur) msg dao.columns
    let cells ← Calls.collect (bindColumn E p dao msg) (keylessColumns dao)
    let owner ← Calls.ofOption (pkValue E dao msg)
    let count ← Cursor.update dao.table cells owner
    let _ ← Calls.fold (writeChild E dao recur owner true) msg dao.children
    return decide (0 < count)

end Harpia
