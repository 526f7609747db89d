import Harpia.DaoRuntime
import Harpia.Lib.Attempt

namespace Harpia

open Text Sqlite Proto

section Write

variable (E : DaoEnv) (p : KeyProvider) (dao : Dao)

/-- `_fk_hooks` of `create`: a child that is set goes through its own DAO, as a constant; a key the
database assigns it is not seen here. -/
def cppStoreChild (recur : String → Msg → Cursor Unit) (msg : Msg) (col : DaoColumn) : Cursor Unit :=
  match col.fk with
  | none => return ()
  | some target => do
    let owner ← Calls.ofOption (ownerOf E.schema.types col.path.owner dao.message msg)
    let set ← Calls.ofOption (hasField E.schema.types owner.1 owner.2 col.path.field)
    if set then recur target ((owner.2.sub? col.path.field).getD .empty) else return ()

/-- `_value_local` of an element's column, which has no `NULL` indicator. -/
def cppElementValue (types : Types) (elem : Message) (m : Msg) (col : DaoColumn) : Option Value :=
  (elem.field? col.path.field).bind fun v =>
    if isScalarField types v then some (toDb (attrValue v m)) else none

/-- `_rep_composed_write`. -/
def cppWriteComposed (owner : Value) (child : DaoChild) (columns : List DaoColumn) (field : Variable)
    (m : Msg) : Cursor Unit := do
  let elem ← Calls.ofOption (elementsType E field)
  let _ ← Calls.collect (fun e => do
    let cells ← Calls.collect (fun col => do
      let v ← Calls.ofOption (cppElementValue E.schema.types elem e.1 col)
      return elementCell dao child col v) columns
    Cursor.insert child.table (ownerCell dao owner :: ordinalCell e.2 :: cells))
    (m.elements field.name).zipIdx
  return ()

/-- `_rep_write` of a repeated message with a table. -/
def cppWriteLinks (recur : Msg → Cursor Unit) (owner : Value) (child : DaoChild) (field : Variable)
    (m : Msg) : Cursor Unit := do
  let elem ← Calls.ofOption (elementsType E field)
  let _ ← Calls.collect (fun e => do
    recur e.1
    let key ← Calls.ofOption (bindValue E.schema.types elem e.1 pk)
    Cursor.insert child.table [ownerCell dao owner, ordinalCell e.2, childCell dao child "value" key])
    (m.elements field.name).zipIdx
  return ()

/-- `_map_write` and `_rep_write` of `create`, for one child table. -/
def cppWriteChild (recur : String → Msg → Cursor Unit) (owner : Value) (msg : Msg)
    (child : DaoChild) : Cursor Unit := do
  let base ← Calls.ofOption (ownerOf E.schema.types child.path.owner dao.message msg)
  let field ← Calls.ofOption (base.1.field? child.path.field)
  match child.kind with
  | .map => writeMap dao owner child field base.2
  | .repeated none => writeRepeated E dao owner child field base.2
  | .repeated (some target) => cppWriteLinks E dao (recur target) owner child field base.2
  | .composed columns => cppWriteComposed E dao owner child columns field base.2

end Write

/-- The statements of `create`, within a recursion budget. An exception, here or in a child's
`create`, ends the call; nothing that has been written by then is undone. -/
def cppCreateIn (E : DaoEnv) : Nat → KeyProvider → Dao → Msg → Cursor Msg
  | 0, _, _, _ => Calls.raise
  | fuel + 1, p, dao, msg => do
    let recur := fun target child => do
      let d ← Calls.ofOption (daoClass E.schema target)
      let _ ← cppCreateIn E fuel E.defaultProvider d child
      return ()
    let _ ← Calls.collect (cppStoreChild E dao recur msg) dao.columns
    let msg ← insertRow E p dao castKey msg
    let owner ← Calls.ofOption (pkValue E dao msg)
    let _ ← Calls.collect (cppWriteChild E dao recur owner msg) dao.children
    return msg

section Update

variable {σ : Type} (exec : (r : Request) → σ → Option (Answer r × σ)) (E : DaoEnv) (dao : Dao)

/-- `_fk_hooks` of `update`. -/
def cppUpdateChild (nested : String → Msg → Attempt σ Unit) (msg : Msg) (col : DaoColumn) :
    Attempt σ Unit :=
  match col.fk with
  | none => return ()
  | some target => do
    let owner ← Attempt.ofOption (ownerOf E.schema.types col.path.owner dao.message msg)
    let set ← Attempt.ofOption (hasField E.schema.types owner.1 owner.2 col.path.field)
    if set then nested target ((owner.2.sub? col.path.field).getD .empty) else return ()

/-- The `UPDATE` of the row; the key is the owner of the child rows. -/
def cppUpdateRow (p : KeyProvider) (msg : Msg) : Cursor Value := do
  let cells ← Calls.collect (bindColumn E p dao msg) (keylessColumns dao)
  let owner ← Calls.ofOption (pkValue E dao msg)
  let _ ← Cursor.update dao.table cells owner
  return owner

/-- `_rep_write` of `update`, for a repeated message with a table. -/
def cppRewriteLinks (nested : Msg → Attempt σ Unit) (owner : Value) (child : DaoChild)
    (field : Variable) (m : Msg) : Attempt σ Unit := do
  let elem ← Attempt.ofOption (elementsType E field)
  Attempt.each (fun e => do
    nested e.1
    let key ← Attempt.ofOption (bindValue E.schema.types elem e.1 pk)
    let _ ← (Cursor.insert child.table
      [ownerCell dao owner, ordinalCell e.2, childCell dao child "value" key]).attempt exec
    return ()) (m.elements field.name).zipIdx

/-- `_map_write` and `_rep_write` of `update`, for one child table. -/
def cppRewriteChild (nested : String → Msg → Attempt σ Unit) (owner : Value) (msg : Msg)
    (child : DaoChild) : Attempt σ Unit := do
  let base ← Attempt.ofOption (ownerOf E.schema.types child.path.owner dao.message msg)
  let field ← Attempt.ofOption (base.1.field? child.path.field)
  let _ ← (Cursor.delete child.table "owner" owner).attempt exec
  match child.kind with
  | .map => (writeMap dao owner child field base.2).attempt exec
  | .repeated none => (writeRepeated E dao owner child field base.2).attempt exec
  | .repeated (some target) => cppRewriteLinks exec E dao (nested target) owner child field base.2
  | .composed columns => (cppWriteComposed E dao owner child columns field base.2).attempt exec

end Update

/-- `update`, within a recursion budget; it returns false where this ends with an error. What the
`update` of a child returns is not looked at. -/
def cppUpdateIn {σ : Type} (exec : (r : Request) → σ → Option (Answer r × σ)) (E : DaoEnv) :
    Nat → KeyProvider → Dao → Msg → Attempt σ Unit
  | 0, _, _, _ => Attempt.fail
  | fuel + 1, p, dao, msg => do
    let nested := fun target child => do
      let d ← Attempt.ofOption (daoClass E.schema target)
      Attempt.tried (cppUpdateIn exec E fuel E.defaultProvider d child)
    Attempt.each (cppUpdateChild E dao nested msg) dao.columns
    let owner ← (cppUpdateRow E dao p msg).attempt exec
    Attempt.each (cppRewriteChild exec E dao nested owner msg) dao.children

/-- A database as a session sees it, with the random bytes it needs; `content` is what it holds. -/
structure Engine (σ κ : Type) where
  exec : (r : Request) → σ → Option (Answer r × σ)
  content : σ → κ
  rowCount : κ → String → Nat
  insert_adds : ∀ {table cells s row s'}, exec (.insert table cells) s = some (row, s') →
    (∀ n, rowCount (content s) n ≤ rowCount (content s') n) ∧
      rowCount (content s) table < rowCount (content s') table
  bytes_keep : ∀ {s b s'}, exec .tokenBytes s = some (b, s') → content s' = content s

/-- `create` returns false where this ends with an error. -/
def cppCreate {σ κ : Type} (E : DaoEnv) (X : Engine σ κ) (fuel : Nat) (p : KeyProvider) (dao : Dao)
    (msg : Msg) : Attempt σ Msg :=
  (cppCreateIn E fuel p dao msg).attempt X.exec

end Harpia
