import Harpia.DaoRuntime

namespace Harpia

open Text Sqlite Proto

/-- What reading leaves to Python and SQLite. `coerce` is `int(..)`, `bool(..)`, `float(..)` or
`str(..)` of a value of another storage class; `narrow` is what a `float` field keeps of a double. -/
structure ReadEnv extends DaoEnv where
  coerce : TypeToken → Value → Option Scalar
  narrow : UInt64 → UInt64
  narrow_zero : narrow 0 = 0
  /-- `ORDER BY`. -/
  order : Value → Value → Bool
  order_total : ∀ a b, order a b || order b a
  order_trans : ∀ a b c, order a b → order b c → order a c
  order_int : ∀ m n, order (.int m) (.int n) = decide (m ≤ n)
  /-- The order in which a `SELECT` without `ORDER BY` finds the rows. -/
  scan : List Row → List Row
  scan_perm : ∀ rows, (scan rows).Perm rows
  /-- The digits of `\d` and `int(..)`. -/
  digit : Char → Option Nat
  digit_ascii : ∀ c, c.isDigit → digit c = some (c.toNat - '0'.toNat)
  /-- What `decrypt_field_float` makes of a text. -/
  strtod : String → UInt64
  strtod_zero : strtod (toDaoEnv.fixed 0) = 0
  /-- `str(..)` of a float. -/
  repr : UInt64 → String

section Values

variable (R : ReadEnv)

/-- `from_db`. -/
def fromDb (type : TypeToken) (v : Value) : Option Scalar :=
  match v, type with
  | .null, _ => some (defaultValue type)
  | .text s, .STRING => some (.text s)
  | .real bits, .FLOAT => some (.float bits)
  | .int n, .BOOL => some (.bool (n ≠ 0))
  | .int n, .STRING => R.coerce .STRING (.int n)
  | .int n, .FLOAT => R.coerce .FLOAT (.int n)
  | .int n, _ => some (.int n)
  | v, type => R.coerce type v

/-- What a field of the type may be assigned. -/
def Scalar.fits : TypeToken → Scalar → Bool
  | .INT32, .int n => -2 ^ 31 ≤ n ∧ n < 2 ^ 31
  | .INT64, .int n => -2 ^ 63 ≤ n ∧ n < 2 ^ 63
  | .ID _, .int n => -2 ^ 31 ≤ n ∧ n < 2 ^ 31
  | .BOOL, .bool _ => true
  | .FLOAT, .float _ => true
  | .STRING, .text _ => true
  | _, _ => false

/-- A value as a field, or the element of one, keeps it. -/
def kept (type : TypeToken) (x : Scalar) : Option Scalar :=
  if Scalar.fits type x then
    match x with
    | .float bits => some (.float (R.narrow bits))
    | x => some x
  else none

/-- `setattr` of a scalar field; without presence, the default is the same as nothing. -/
def setAttr (field : Variable) (m : Msg) (x : Scalar) : Option Msg :=
  (kept R field.type x).map fun x =>
    m.set field.name
      (if !hasPresence field && decide (x = defaultValue field.type) then none else some (.scalar x))

/-- `decrypt_field_ll`'s number. -/
def strtoll (text : List Char) : Int :=
  let rest := text.dropWhile isBlank
  let negative := rest.head? = some '-'
  let digits := (if rest.head? = some '-' ∨ rest.head? = some '+' then rest.tail else rest).takeWhile
    fun c => (R.digit c).isSome
  let n : Nat := digits.foldl (fun n c => 10 * n + (R.digit c).getD 0) 0
  if 19 < (digits.dropWhile (· = '0')).length then
    if negative then -2 ^ 63 else 2 ^ 63 - 1
  else max (-2 ^ 63) (min (2 ^ 63 - 1) (if negative then -n else n))

/-- `decrypt_field` and its numeric variants, by field type. -/
def decryptValue (p : KeyProvider) (type : TypeToken) (stored : List Char) : Scalar :=
  let text : String := decryptField .python p stored
  match type with
  | .STRING => .text text
  | .FLOAT => .float (R.strtod text)
  | .INT64 => .int (strtoll R text.toList)
  | .BOOL => .bool (Int.bmod (strtoll R text.toList) (2 ^ 32) ≠ 0)
  | _ => .int (Int.bmod (strtoll R text.toList) (2 ^ 32))

/-- The text a `phi` value is read from. -/
def storedText : Value → String
  | .null => ""
  | .int n => toString n
  | .real bits => R.repr bits
  | .text s => s

def truthy : Value → Bool
  | .null => false
  | .int n => n ≠ 0
  | .real bits => bits ≠ 0 ∧ bits ≠ 0x8000000000000000
  | .text s => s ≠ ""

/-- `v == 0`. -/
def isZero : Value → Bool
  | .int n => n = 0
  | .real bits => bits = 0 ∨ bits = 0x8000000000000000
  | _ => false

end Values

section Load

variable (R : ReadEnv)

/-- `has_presence` of a field descriptor. -/
def tracksPresence (types : Types) (v : Variable) : Bool :=
  (subType types v).isSome || (isScalarField types v && hasPresence v)

/-- `extract_value`. -/
def extractValue (field : Variable) (m : Msg) (v : Value) : Option Msg :=
  if isScalarField R.schema.types field then
    if v = .null ∧ hasPresence field then some m
    else (fromDb R field.type v).bind (setAttr R field m)
  else none

/-- `set_column`. -/
def setColumn (d : Message) (m : Msg) (col : DaoColumn) (v : Value) : Option Msg :=
  (ownerOf R.schema.types col.path.owner d m).bind fun owner =>
    (owner.1.field? col.path.field).bind fun field =>
      if v = .null ∧ tracksPresence R.schema.types field then some m
      else m.modify (fun o => extractValue R field o v) col.path.owner

/-- `PhiDao._load`, which is `Dao._load` for a column without `phi`. -/
def loadColumn (p : KeyProvider) (d : Message) (m : Msg) (col : DaoColumn) (v : Value) : Option Msg :=
  if col.phi then
    (ownerOf R.schema.types col.path.owner d m).bind fun owner =>
      (owner.1.field? col.path.field).bind fun field =>
        if v = .null ∧ tracksPresence R.schema.types field then some m
        else if isScalarField R.schema.types field then
          m.modify (fun o => setAttr R field o (decryptValue R p field.type (storedText R v).toList))
            col.path.owner
        else none
  else setColumn R d m col v

/-- The message field at the end of a path is set, to what `f` makes of the message there. -/
def modifySub (d : Message) (m : Msg) (path : FieldPath) (f : Msg → Option Msg) : Option Msg :=
  (ownerOf R.schema.types path.owner d m).bind fun owner =>
    ((owner.1.field? path.field).bind (subType R.schema.types)).bind fun _ =>
      m.modify (fun o => (f ((o.sub? path.field).getD .empty)).map fun c =>
        o.set path.field (some (.sub c))) path.owner

/-- The paths of the embeds that a row says are absent. -/
def absentEmbeds (cells : List (DaoColumn × Value)) : List (List String) :=
  (cells.filter fun e => e.1.presence && isZero e.2).map fun e => e.1.path.steps

/-- One column of `_load_row`; `recur` reads the row of a key into a message of another table. -/
def loadCell (p : KeyProvider) (dao : Dao) (recur : String → Value → Msg → Option Msg)
    (absent : List (List String)) (m : Msg) (e : DaoColumn × Value) : Option Msg :=
  if absent.any fun path => path.isPrefixOf e.1.path.steps then some m
  else if e.1.presence then modifySub R dao.message m e.1.path some
  else
    match e.1.fk with
    | none => loadColumn R p dao.message m e.1 e.2
    | some target =>
      if truthy e.2 then modifySub R dao.message m e.1.path (recur target e.2) else some m

/-- The entries of a map. -/
def readMap (t : Table) (rows : List Row) (field : Variable) (m : Msg) : Option Msg :=
  (field.typeMap[0]?).bind fun keyType => (field.typeMap[1]?).bind fun valueType =>
    (rows.foldlM (fun (entries : Dict Scalar Scalar) r =>
      ((fromDb R keyType (t.lookup r "key")).bind (kept R keyType)).bind fun k =>
        ((fromDb R valueType (t.lookup r "value")).bind (kept R valueType)).map fun v =>
          entries.set k v) (m.map field.name)).map fun entries =>
      m.set field.name (some (.map entries))

/-- The elements of a repeated scalar. -/
def readRepeated (t : Table) (rows : List Row) (field : Variable) (m : Msg) : Option Msg :=
  if field.typeMap = [] ∧ .REPETEABLE ∈ field.modifiers ∧
      (isScalarToken field.type || isEnumType R.schema.types field) then
    (rows.mapM fun r => (fromDb R field.type (t.lookup r "value")).bind (kept R field.type)).map
      fun items => m.set field.name (some (.list (m.list field.name ++ items)))
  else none

/-- The elements of a repeated message; `element` fills in a new one from its row. -/
def readElements (rows : List Row) (field : Variable) (element : Message → Row → Option Msg)
    (m : Msg) : Option Msg :=
  (elementsType R.toDaoEnv field).bind fun d =>
    (rows.mapM (element d)).map fun items =>
      m.set field.name (some (.elements (m.elements field.name ++ items)))

variable (db : Db)

/-- The rows of a child table, in `ordinal` order but for a map. -/
def childRows (child : DaoChild) (t : Table) (owner : Value) : List Row :=
  let rows := R.scan (t.select "owner" owner)
  match child.kind with
  | .map => rows
  | _ => rows.mergeSort fun r r' => R.order (t.lookup r "ordinal") (t.lookup r' "ordinal")

/-- `_read_child`. -/
def readChild (dao : Dao) (recur : String → Value → Msg → Option Msg) (owner : Value) (m : Msg)
    (child : DaoChild) : Option Msg :=
  (ownerOf R.schema.types child.path.owner dao.message m).bind fun base =>
    (base.1.field? child.path.field).bind fun field =>
      (db.get? child.table).bind fun t =>
        let rows := childRows R child t owner
        if rows = [] then some m
        else m.modify (fun o =>
          match child.kind with
          | .map => readMap R t rows field o
          | .repeated none => readRepeated R t rows field o
          | .repeated (some target) =>
            readElements R rows field (fun _ r => recur target (t.lookup r "value") .empty) o
          | .composed columns =>
            readElements R rows field (fun d r => columns.foldlM (fun e col =>
              setColumn R d e col (t.lookup r col.name)) .empty) o) child.path.owner

/-- `_load_row`. -/
def loadRow (p : KeyProvider) (dao : Dao) (recur : String → Value → Msg → Option Msg) (t : Table)
    (r : Row) (m : Msg) : Option Msg := do
  let cells := dao.columns.map fun col => (col, t.lookup r col.name)
  let m ← cells.foldlM (loadCell R p dao recur (absentEmbeds cells)) m
  if dao.children = [] then return m
  else
    let owner ← pkValue R.toDaoEnv dao m
    dao.children.foldlM (readChild R db dao recur owner) m

/-- `_read_into`, within a recursion budget: the message where a row has the key, and whether one
has. -/
def readInto : Nat → KeyProvider → Dao → Value → Msg → Option (Bool × Msg)
  | 0, _, _, _, _ => none
  | fuel + 1, p, dao, key, m => do
    let t ← db.get? dao.table
    match (R.scan (t.select pk key)).head? with
    | none => return (false, m)
    | some r =>
      let recur := fun target key m => do
        let d ← daoClass R.schema target
        let (_, m) ← readInto fuel R.defaultProvider d key m
        return m
      let m ← loadRow R db p dao recur t r m
      return (true, m)

end Load

end Harpia
