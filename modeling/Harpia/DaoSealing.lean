import Harpia.DaoReadable
import Harpia.DaoReplace

namespace Harpia

open Text Sqlite Proto

section Paths

/-- The fields that some attribute names lead through, as far as they lead anywhere. -/
def fieldsAt (types : Types) : Message → List String → List Variable
  | _, [] => []
  | d, name :: names =>
    (d.field? name).elim [] fun v =>
      v :: (messageType types v).elim [] fun sub => fieldsAt types sub names

/-- A field on the way to a value is `phi`. -/
def phiOnPath (types : Types) (d : Message) (steps : List String) : Bool :=
  (fieldsAt types d steps).any Variable.isPhi

/-- The way ends at a scalar or an enum. -/
def endsInScalar (types : Types) (d : Message) (steps : List String) : Bool :=
  (fieldsAt types d steps).getLast?.any (isScalarField types)

variable {types : Types}

theorem fieldsAt_append {steps : List String} {d : Message} {m : Msg} {o : Message × Msg}
    (place : ownerOf types steps d m = some o) :
    ∃ above, ∀ rest, fieldsAt types d (steps ++ rest) = above ++ fieldsAt types o.1 rest := by
  induction steps generalizing d m with
  | nil =>
    cases Option.some.inj place
    exact ⟨[], fun rest => rfl⟩
  | cons step steps ih =>
    obtain ⟨sub, here, place⟩ := Option.bind_eq_some_iff.mp place
    obtain ⟨v, found, isSub⟩ := Option.bind_eq_some_iff.mp here
    obtain ⟨above, below⟩ := ih place
    refine ⟨v :: above, fun rest => ?_⟩
    rw [List.cons_append, fieldsAt, found, Option.elim_some, subType_message isSub,
      Option.elim_some, below]
    rfl

/-- The way to a value of an element goes through the repeated field. -/
theorem fieldsAt_element {path : FieldPath} {d : Message} {m : Msg} {base : Message × Msg}
    {field : Variable} {sub : Message} (place : ownerOf types path.owner d m = some base)
    (found : base.1.field? path.field = some field) (elem : messageType types field = some sub) :
    ∃ above, ∀ rest, fieldsAt types d (path.steps ++ rest) = above ++ field :: fieldsAt types sub rest := by
  obtain ⟨above, below⟩ := fieldsAt_append place
  refine ⟨above, fun rest => ?_⟩
  rw [FieldPath.steps, List.append_assoc, below, List.singleton_append, fieldsAt, found,
    Option.elim_some, elem, Option.elim_some]

end Paths

section Cells

/-- The paths of the values that a child table holds. Elements are not stored where a column of theirs
is for a message: what stands there cannot be bound. -/
def DaoChild.valuePaths (types : Types) (d : Message) (child : DaoChild) : List (List String) :=
  match child.kind with
  | .composed columns =>
    let paths := columns.map fun col => child.path.steps ++ col.path.steps
    if paths.all (endsInScalar types d) then paths else []
  | _ => [child.path.steps]

/-- The cells that a DAO writes. -/
inductive CellOf (types : Types) (providers : Set KeyProvider) (dao : Dao) : Cell → Prop
  | owner (v : Value) : CellOf types providers dao (ownerCell dao v)
  | ordinal (i : Nat) : CellOf types providers dao (ordinalCell i)
  | child {child : DaoChild} (hc : child ∈ dao.children) {steps : List String}
      (holds : steps ∈ child.valuePaths types dao.message) (column : String) (v : Value) :
      CellOf types providers dao ⟨column, v, some (dao.message, steps)⟩
  | bound {col : DaoColumn} (hcol : col ∈ dao.columns) {v : Value}
      (sealed : col.phi → Protected providers v) : CellOf types providers dao (Cell.of dao col v)

/-- A request whose cells are those of DAOs that the schema has. -/
def Request.OfDaos (S : Schema) (providers : Set KeyProvider) (r : Request) : Prop :=
  ∀ c ∈ r.cells, ∃ name dao, daoClass S name = some dao ∧ CellOf S.types providers dao c

variable {providers : Set KeyProvider} {E : DaoEnv} {p : KeyProvider} {name : String} {dao : Dao}

theorem insert_ofDaos (class_ : daoClass E.schema name = some dao) {table : String}
    {cells : List Cell} (h : ∀ c ∈ cells, CellOf E.schema.types providers dao c) :
    Calls.Only (Request.OfDaos E.schema providers) (Cursor.insert table cells) :=
  .send fun c hc => ⟨name, dao, class_, h c hc⟩

theorem plain_ofDaos {S : Schema} {r : Request} (h : r.cells = []) : r.OfDaos S providers := by
  intro c hc
  rw [h] at hc
  cases hc

theorem bindColumn_cell (hp : p ∈ providers) (msg : Msg) {col : DaoColumn} (hcol : col ∈ dao.columns) :
    (bindColumn E p dao msg col).Ensures (Request.OfDaos E.schema providers)
      (CellOf E.schema.types providers dao) := by
  unfold bindColumn
  split
  next =>
    refine Calls.ensures_bind (Calls.ensures_ofOption fun owner _ => ?_)
    refine Calls.ensures_bind (Calls.ensures_ofOption fun field _ => ?_)
    split
    · exact .bound hcol fun _ => .inl rfl
    · refine Calls.ensures_bind ⟨plain_ofDaos rfl, fun dek => ?_⟩
      refine Calls.ensures_bind (Calls.ensures_ofOption fun stored he => ?_)
      exact .bound hcol fun _ => .inr ⟨p, hp, dek, _, stored, he, rfl, encryptField_ne he⟩
  next plain => exact Calls.ensures_bind (Calls.ensures_ofOption fun v _ => .bound hcol (absurd · plain))

theorem bindColumns_cells (hp : p ∈ providers) (msg : Msg) {columns : List DaoColumn}
    (hsub : columns ⊆ dao.columns) :
    (Calls.collect (bindColumn E p dao msg) columns).Ensures (Request.OfDaos E.schema providers)
      fun cells => ∀ c ∈ cells, CellOf E.schema.types providers dao c :=
  Calls.ensures_collect fun _ hcol => bindColumn_cell hp msg (hsub hcol)

theorem valuePaths_cases {types : Types} {d : Message} {child : DaoChild} {steps : List String}
    (h : steps ∈ child.valuePaths types d) :
    steps = child.path.steps ∨ ∃ col : DaoColumn, steps = child.path.steps ++ col.path.steps := by
  unfold DaoChild.valuePaths at h
  split at h
  next columns kind =>
    extract_lets paths at h
    split at h
    · obtain ⟨col, _, rfl⟩ := List.mem_map.mp h
      exact .inr ⟨col, rfl⟩
    · cases h
  next => exact .inl (List.mem_singleton.mp h)

theorem valuePaths_of_plain {types : Types} {d : Message} {child : DaoChild}
    (plain : ∀ columns, child.kind ≠ .composed columns) :
    child.path.steps ∈ child.valuePaths types d := by
  unfold DaoChild.valuePaths
  split
  next columns kind => exact absurd kind (plain columns)
  next => exact List.mem_singleton_self _

section Child

variable {child : DaoChild} (class_ : daoClass E.schema name = some dao) (hc : child ∈ dao.children)
  (owner : Value)

include class_ hc

theorem writeMap_cells (kind : child.kind = .map) (field : Variable) (m : Msg) :
    (writeMap dao owner child field m).Only (Request.OfDaos E.schema providers) := by
  have holds : child.path.steps ∈ child.valuePaths E.schema.types dao.message :=
    valuePaths_of_plain (by simp [kind])
  unfold writeMap
  split
  · exact .raise
  · refine .bind (.collect fun e _ => insert_ofDaos class_ fun c hcell => ?_) fun _ => .ret _
    rcases List.mem_cons.mp hcell with rfl | hcell
    · exact .owner owner
    · rcases List.mem_pair.mp hcell with rfl | rfl
      · exact .child hc holds _ _
      · exact .child hc holds _ _

omit class_ in
/-- A row of a table that holds one value for each ordinal. -/
theorem ordinalRow_cells (plain : ∀ columns, child.kind ≠ .composed columns) (v : Value) (i : Nat) :
    ∀ c ∈ [ownerCell dao owner, ordinalCell i, childCell dao child "value" v],
      CellOf E.schema.types providers dao c := by
  intro c hcell
  rcases List.mem_cons.mp hcell with rfl | hcell
  · exact .owner owner
  · rcases List.mem_pair.mp hcell with rfl | rfl
    · exact .ordinal i
    · exact .child hc (valuePaths_of_plain plain) _ _

theorem writeRepeated_cells (plain : ∀ columns, child.kind ≠ .composed columns) (field : Variable)
    (m : Msg) : (writeRepeated E dao owner child field m).Only (Request.OfDaos E.schema providers) :=
  .bind (.ofOption _) fun _ => .bind (.collect fun _ _ =>
    insert_ofDaos class_ (ordinalRow_cells hc owner plain _ _)) fun _ => .ret _

theorem writeLinks_cells (plain : ∀ columns, child.kind ≠ .composed columns)
    {recur : Msg → Cursor Msg} (inner : ∀ m, (recur m).Only (Request.OfDaos E.schema providers))
    (field : Variable) (m : Msg) :
    (writeLinks E dao recur owner child field m).Only (Request.OfDaos E.schema providers) := by
  refine .bind (.ofOption _) fun sub => .collect fun e _ => ?_
  refine .bind (inner e.1) fun item => .bind (.ofOption _) fun key => ?_
  exact .bind (insert_ofDaos class_ (ordinalRow_cells hc owner plain _ _)) fun _ => .ret _

omit class_ hc in
theorem columnValue_flat {types : Types} {d : Message} {m : Msg} {col : DaoColumn}
    (owner : col.path.owner = []) (presence : col.presence = false) (fk : col.fk = none) :
    columnValue types d m col = bindValue types d m col.path.field := by
  rw [columnValue, owner, ownerOf, Option.bind_some, if_neg (by simp [presence]),
    if_neg (by simp [fk]), embedsSet, Option.bind_some, if_pos rfl]

/-- The columns of an element are all bound before it is stored, so each is for a scalar or an enum. -/
theorem writeComposed_cells {columns : List DaoColumn} (kind : child.kind = .composed columns)
    (flat : FlatColumns columns) {msg : Msg} {base : Message × Msg} {field : Variable}
    (place : ownerOf E.schema.types child.path.owner dao.message msg = some base)
    (found : base.1.field? child.path.field = some field) :
    (writeComposed E dao owner child columns field base.2).Only (Request.OfDaos E.schema providers) := by
  refine .some_bind fun sub elem => .bind (.collect fun e _ => ?_) fun _ => .ret _
  have isElem : messageType E.schema.types field = some sub := by
    unfold elementsType at elem
    split at elem
    · exact elem
    · cases elem
  obtain ⟨above, below⟩ := fieldsAt_element place found isElem
  have scalar_ : ∀ col ∈ columns, ∀ v, columnValue E.schema.types sub e.1 col = some v →
      endsInScalar E.schema.types dao.message (child.path.steps ++ col.path.steps) := by
    intro col hcol v bound
    obtain ⟨owner_, presence, fk⟩ := flat col hcol
    rw [columnValue_flat owner_ presence fk] at bound
    obtain ⟨w, hw, value⟩ := Option.bind_eq_some_iff.mp bound
    have isScalar : isScalarField E.schema.types w := by
      by_contra hn
      simp [hn] at value
    have last : fieldsAt E.schema.types sub [col.path.field] = [w] := by
      rw [fieldsAt, hw, Option.elim_some]
      cases messageType E.schema.types w <;> rfl
    rw [endsInScalar, below, FieldPath.steps, owner_, List.nil_append, last]
    simpa using isScalar
  have cells : ∀ col ∈ columns, (do
      let v ← Calls.ofOption (columnValue E.schema.types sub e.1 col)
      return elementCell dao child col v : Cursor Cell).Ensures (Request.OfDaos E.schema providers)
        fun c => endsInScalar E.schema.types dao.message (child.path.steps ++ col.path.steps) ∧
          ∃ v, c = elementCell dao child col v := fun col hcol =>
    Calls.ensures_bind (Calls.ensures_ofOption fun v bound => ⟨scalar_ col hcol v bound, v, rfl⟩)
  refine Calls.ensures_bind (Calls.ensures_mono (Calls.ensures_collect_each cells) fun made all => ?_)
  have paths : child.valuePaths E.schema.types dao.message =
      columns.map fun col => child.path.steps ++ col.path.steps := by
    unfold DaoChild.valuePaths
    rw [kind]
    apply if_pos
    simp only [List.all_map, List.all_eq_true, Function.comp_apply]
    intro col hcol
    obtain ⟨c, _, ends, _⟩ := exists_of_forall₂ all hcol
    exact ends
  apply insert_ofDaos class_
  refine List.forall_mem_cons.mpr ⟨.owner owner, List.forall_mem_cons.mpr ⟨.ordinal e.2, ?_⟩⟩
  intro c hcell
  obtain ⟨col, hcol, _, v, rfl⟩ := exists_of_forall₂ all.flip hcell
  exact .child hc (paths ▸ List.mem_map_of_mem hcol) _ _

theorem insertChild_cells (flat : ∀ columns, child.kind = .composed columns → FlatColumns columns)
    {recur : String → Msg → Cursor Msg}
    (inner : ∀ target m, (recur target m).Only (Request.OfDaos E.schema providers)) (msg : Msg) :
    (insertChild E dao recur owner msg child).Only (Request.OfDaos E.schema providers) := by
  refine .some_bind fun base place => .some_bind fun field found => ?_
  split
  next kind => exact .bind (writeMap_cells class_ hc owner kind _ _) fun _ => .ret _
  next kind => exact .bind (writeRepeated_cells class_ hc owner (by simp [kind]) _ _) fun _ => .ret _
  next target kind =>
    refine .bind (writeLinks_cells class_ hc owner (by simp [kind]) (inner target) _ _) fun items => ?_
    split
    · exact .ret _
    · exact .ofOption _
  next columns kind =>
    exact .bind (writeComposed_cells class_ hc owner kind (flat columns kind) place found) fun _ => .ret _

theorem writeChild_cells (flat : ∀ columns, child.kind = .composed columns → FlatColumns columns)
    {recur : String → Msg → Cursor Msg}
    (inner : ∀ target m, (recur target m).Only (Request.OfDaos E.schema providers)) (update : Bool)
    (msg : Msg) :
    (writeChild E dao recur owner update msg child).Only (Request.OfDaos E.schema providers) := by
  unfold writeChild
  split
  · exact .bind (.send (plain_ofDaos rfl)) fun _ => insertChild_cells class_ hc owner flat inner msg
  · exact insertChild_cells class_ hc owner flat inner msg

end Child

theorem storeChild_cells {recur : String → Msg → Cursor Msg}
    (inner : ∀ target m, (recur target m).Only (Request.OfDaos E.schema providers)) (msg : Msg)
    (col : DaoColumn) :
    (storeChild E dao recur msg col).Only (Request.OfDaos E.schema providers) := by
  unfold storeChild
  split
  · exact .ret _
  · refine .bind (.ofOption _) fun owner => .bind (.ofOption _) fun set => ?_
    split
    · exact .bind (inner _ _) fun child => .ofOption _
    · exact .ret _

theorem keylessColumns_subset (dao : Dao) : keylessColumns dao ⊆ dao.columns :=
  fun _ => List.mem_of_mem_filter

theorem insertRow_cells (class_ : daoClass E.schema name = some dao) (hp : p ∈ providers)
    (assign : Int → Option Int) (msg : Msg) :
    (insertRow E p dao assign msg).Only (Request.OfDaos E.schema providers) := by
  refine .bind (.ofOption _) fun key => ?_
  split
  · refine Calls.ensures_bind
      (Calls.ensures_mono (bindColumns_cells hp msg (keylessColumns_subset dao)) fun cells good => ?_)
    refine Calls.Only.bind (insert_ofDaos class_ good) fun row => ?_
    split
    · exact .bind (.ofOption _) fun k => .ret _
    · exact .raise
  · refine Calls.ensures_bind
      (Calls.ensures_mono (bindColumns_cells hp msg fun _ => id) fun cells good => ?_)
    exact Calls.Only.bind (insert_ofDaos class_ good) fun row => .ret _

/-- Whatever is stored, and whatever the database answers on the way. -/
theorem createIn_cells (shared : E.defaultProvider ∈ providers) (fuel : Nat) (hp : p ∈ providers)
    (class_ : daoClass E.schema name = some dao) (msg : Msg) :
    (createIn E fuel p dao msg).Only (Request.OfDaos E.schema providers) := by
  induction fuel generalizing p name dao msg with
  | zero => exact .raise
  | succ fuel ih =>
    have inner : ∀ target m, (do
        let d ← Calls.ofOption (daoClass E.schema target)
        createIn E fuel E.defaultProvider d m).Only (Request.OfDaos E.schema providers) :=
      fun target m => .some_bind fun d found => ih shared found m
    refine .bind (.fold _ fun col _ m => storeChild_cells inner m col) fun m => ?_
    refine .bind (insertRow_cells class_ hp setKey m) fun m => .bind (.ofOption _) fun owner => ?_
    refine .fold _ fun child hc m => ?_
    exact writeChild_cells class_ hc owner ((isDao_of_daoClass class_).flat hc) inner false m

theorem updateIn_cells (shared : E.defaultProvider ∈ providers) (fuel : Nat) (hp : p ∈ providers)
    (class_ : daoClass E.schema name = some dao) (msg : Msg) :
    (updateIn E fuel p dao msg).Only (Request.OfDaos E.schema providers) := by
  induction fuel generalizing p name dao msg with
  | zero => exact .raise
  | succ fuel ih =>
    have inner : ∀ target m, (do
        let d ← Calls.ofOption (daoClass E.schema target)
        let _ ← updateIn E fuel E.defaultProvider d m
        return m : Cursor Msg).Only (Request.OfDaos E.schema providers) :=
      fun target m => .some_bind fun d found => .bind (ih shared found m) fun _ => .ret _
    refine .bind (.fold _ fun col _ m => storeChild_cells inner m col) fun _ => ?_
    refine Calls.ensures_bind
      (Calls.ensures_mono (bindColumns_cells hp msg (keylessColumns_subset dao)) fun cells good => ?_)
    refine Calls.Only.some_bind fun owner _ => .bind ?_ fun count => .bind ?_ fun _ => .ret _
    · exact .send fun c hc => ⟨name, dao, class_, good c hc⟩
    · refine .fold _ fun child hc m => ?_
      exact writeChild_cells class_ hc owner ((isDao_of_daoClass class_).flat hc) inner true m

end Cells

section Guarded

variable {S : Schema} {providers : Set KeyProvider} {name : String} {dao : Dao}

/-- The value of a `phi` field that is a singular scalar of the DAO's own message is protected. -/
def Guarded (providers : Set KeyProvider) (c : Cell) : Prop :=
  ∀ m v, c.source = some (m, [v.name]) → OwnPhi m v → Protected providers c.value

theorem CellOf.guarded (class_ : daoClass S name = some dao) {c : Cell}
    (h : CellOf S.types providers dao c) : Guarded providers c := by
  have isDao := isDao_of_daoClass class_
  intro m w hs hw
  cases h with
  | owner v =>
    obtain ⟨rfl, same⟩ : dao.message = m ∧ w.name = pk := by simpa [ownerCell, eq_comm] using hs
    have key : harpiaId = w := by
      refine hw.unique (by simp [Message.vars, withHidden]) ?_
      rw [same]
      rfl
    have phi := hw.phi
    simp [← key, harpiaId] at phi
  | ordinal i => simp [ordinalCell] at hs
  | @child child hc steps holds column v =>
    obtain ⟨rfl, rfl⟩ : dao.message = m ∧ steps = [w.name] := by simpa using hs
    rcases valuePaths_cases holds with same | ⟨col, same⟩
    · exact absurd same.symm (isDao.child_steps hw hc)
    · have length := congrArg List.length same
      simp only [FieldPath.steps, List.length_append, List.length_singleton] at length
      omega
  | @bound col hcol v sealed =>
    cases presence : col.presence with
    | true => simp [Cell.of, presence] at hs
    | false =>
      obtain ⟨rfl, steps⟩ : dao.message = m ∧ col.path.steps = [w.name] := by
        simpa [Cell.of, presence] using hs
      exact sealed (isDao.phi_column hw hcol presence steps)

/-- Every value of a `phi` field that is a singular scalar of the DAO's own message, and alone with
its name there, is written sealed. -/
def OwnPhiSealed (E : DaoEnv) : Prop :=
  ∀ name dao, daoClass E.schema name = some dao → ∀ fuel p msg,
    let written (r : Request) : Prop := ∀ c ∈ r.cells, Guarded {p, E.defaultProvider} c
    (createIn E fuel p dao msg).Only written ∧ (updateIn E fuel p dao msg).Only written

/-- A generated DAO seals them, and so do the DAOs of the messages it refers to. -/
theorem dao_guards_phi (E : DaoEnv) : OwnPhiSealed E := by
  intro name dao class_ fuel p msg
  have own : p ∈ ({p, E.defaultProvider} : Set KeyProvider) := .inl rfl
  have shared : E.defaultProvider ∈ ({p, E.defaultProvider} : Set KeyProvider) := .inr rfl
  have guards : ∀ r : Request, r.OfDaos E.schema {p, E.defaultProvider} →
      ∀ c ∈ r.cells, Guarded {p, E.defaultProvider} c := by
    intro r cells c hc
    obtain ⟨name', dao', class', cell⟩ := cells c hc
    exact cell.guarded class'
  exact ⟨(createIn_cells shared fuel own class_ msg).mono guards,
    (updateIn_cells shared fuel own class_ msg).mono guards⟩

end Guarded

section Everywhere

/-- The cell holds a value of a `phi` field, or of a field below one. -/
def Cell.isPhi (types : Types) (c : Cell) : Bool := c.source.any fun s => phiOnPath types s.1 s.2

/-- Every value of a `phi` field is written sealed, by whichever DAO and into whichever column. -/
def AllPhiSealed (E : DaoEnv) : Prop :=
  ∀ name dao, daoClass E.schema name = some dao → ∀ fuel p msg,
    let written (r : Request) : Prop :=
      ∀ c ∈ r.cells, c.isPhi E.schema.types → Protected {p, E.defaultProvider} c.value
    (createIn E fuel p dao msg).Only written ∧ (updateIn E fuel p dao msg).Only written

/-- The `phi` fields whose values the DAO stores are singular scalars of its own message. -/
structure Dao.OwnPhiOnly (types : Types) (dao : Dao) : Prop where
  columns : ∀ col ∈ dao.columns, col.presence = false → phiOnPath types dao.message col.path.steps →
    ∃ v, OwnPhi dao.message v ∧ col.path.steps = [v.name]
  children : ∀ child ∈ dao.children, ∀ steps ∈ child.valuePaths types dao.message,
    phiOnPath types dao.message steps = false

/-- The `phi` fields of a schema whose values are stored are singular scalars of table messages. -/
def OwnPhiOnly (S : Schema) : Prop :=
  ∀ name dao, daoClass S name = some dao → dao.OwnPhiOnly S.types

theorem phiOnPath_key (types : Types) (d : Message) : phiOnPath types d [pk] = false := by
  rw [phiOnPath, fieldsAt, field?_pk]
  rfl

theorem CellOf.protected {S : Schema} {providers : Set KeyProvider} {name : String} {dao : Dao}
    (class_ : daoClass S name = some dao) (own : dao.OwnPhiOnly S.types) {c : Cell}
    (h : CellOf S.types providers dao c) (phi : c.isPhi S.types) : Protected providers c.value := by
  have guarded := h.guarded class_
  cases h with
  | owner v => simp [Cell.isPhi, ownerCell, phiOnPath_key] at phi
  | ordinal i => simp [Cell.isPhi, ordinalCell] at phi
  | @child child hc steps holds column v => simp [Cell.isPhi, own.children child hc steps holds] at phi
  | @bound col hcol v sealed =>
    cases presence : col.presence with
    | true => simp [Cell.isPhi, Cell.of, presence] at phi
    | false =>
      have onPath : phiOnPath S.types dao.message col.path.steps := by
        simpa [Cell.isPhi, Cell.of, presence] using phi
      obtain ⟨w, hw, steps⟩ := own.columns col hcol presence onPath
      exact guarded dao.message w (by simp [Cell.of, presence, steps]) hw

theorem allPhiSealed_of_own {E : DaoEnv} (own : OwnPhiOnly E.schema) : AllPhiSealed E := by
  intro name dao class_ fuel p msg
  have mem : p ∈ ({p, E.defaultProvider} : Set KeyProvider) := .inl rfl
  have shared : E.defaultProvider ∈ ({p, E.defaultProvider} : Set KeyProvider) := .inr rfl
  have written : ∀ r : Request, r.OfDaos E.schema {p, E.defaultProvider} →
      ∀ c ∈ r.cells, c.isPhi E.schema.types → Protected {p, E.defaultProvider} c.value := by
    intro r cells c hc
    obtain ⟨name', dao', class', cell⟩ := cells c hc
    exact cell.protected class' (own name' dao' class')
  exact ⟨(createIn_cells shared fuel mem class_ msg).mono written,
    (updateIn_cells shared fuel mem class_ msg).mono written⟩

end Everywhere

def ssn : Variable := { name := "ssn", type := .INT64, modifiers := [.PHI], isPhi := true }

/-- Visits with a number and notes, both `phi`. -/
def visit : Message :=
  { name := "visit", tableName := "visits"
    user := [ssn,
      { name := "notes", type := .STRING, modifiers := [.REPETEABLE, .PHI], isPhi := true }] }

def visitSchema : Schema where
  messages := [visit]
  names_nodup := by decide
  names_allowed := by decide +kernel
  tables_identifier := by decide +kernel
  rank _ := 0
  rank_lt := by decide
  declared_before := by decide +kernel

def visitEnv : DaoEnv where
  schema := visitSchema
  defaultProvider := .fresh [7]
  fixed _ := "0.000000"

def visitDao : Dao where
  message := visit
  columns := [{ name := "HARPIA_ID", path := ⟨[], "HARPIA_ID"⟩ },
    { name := "ssn", path := ⟨[], "ssn"⟩, phi := true },
    { name := "HARPIA_STATUS", path := ⟨[], "HARPIA_STATUS"⟩ },
    { name := "HARPIA_ERROR", path := ⟨[], "HARPIA_ERROR"⟩ },
    { name := "HARPIA_ORIGINATOR", path := ⟨[], "HARPIA_ORIGINATOR"⟩ }]
  children := [{ table := "visits__notes", path := ⟨[], "notes"⟩, kind := .repeated none }]

theorem daoClass_visit : daoClass visitSchema "visit" = some visitDao := by decide +kernel

def visitMsg : Msg :=
  .mk [("HARPIA_ID", .scalar (.int 1)), ("ssn", .scalar (.int 123456789)),
    ("notes", .list [.text "smokes"])]

/-- The database does what it is asked. -/
def anyAnswer : (r : Request) → Answer r
  | .insert .. => Row.empty
  | .update .. => (1 : Nat)
  | .delete .. => (1 : Nat)
  | .tokenBytes => (List.replicate 32 3 : Bytes)

/-- The notes go to their child table as they are. -/
theorem not_allPhiSealed_visit : ¬ AllPhiSealed visitEnv := by
  intro h
  have written := Calls.of_ensures
    (h "visit" visitDao daoClass_visit 1 (.fresh [9]) visitMsg).1 anyAnswer
  have shown : ∃ r ∈ (createIn visitEnv 1 (.fresh [9]) visitDao visitMsg).made anyAnswer,
      ∃ c ∈ r.cells, c.isPhi visitSchema.types ∧ c.value = .text "smokes" := by
    decide +kernel
  obtain ⟨r, hr, c, hc, phi, value⟩ := shown
  rcases (written r hr c hc phi).marked with null | ⟨text, same, marker⟩
  · cases value.symm.trans null
  · cases value.symm.trans same
    exact absurd marker (by decide)

end Harpia
