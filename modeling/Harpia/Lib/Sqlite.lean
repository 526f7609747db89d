import Harpia.Lib.Dict
import Harpia.Lib.Text

namespace Sqlite

/-- Declared column types. -/
inductive SqlType
  | INTEGER | BIGINT | REAL | DOUBLE | TEXT
deriving DecidableEq, Repr

inductive Value
  | null
  | int (n : Int)
  | real (bits : UInt64)
  | text (s : String)
deriving DecidableEq, Repr

def Value.isInt : Value → Bool
  | .int _ => true
  | _ => false

/-- `CAST`, left open up to the documented behaviour the results need. -/
structure Casting where
  cast : SqlType → Value → Value
  cast_null : ∀ type, cast type .null = .null
  cast_int : ∀ n, cast .INTEGER (.int n) = .int n
  cast_cast : ∀ type v, cast type (cast type v) = cast type v

/-- The integer a text starts with, 0 if there is none. -/
def leadingInt (s : String) : Int :=
  let digits (cs : List Char) : Nat := Nat.ofDigitChars 10 (cs.takeWhile Char.isDigit) 0
  match s.toList.dropWhile Text.isSpace with
  | '-' :: cs => -digits cs
  | '+' :: cs => digits cs
  | cs => digits cs

/-- `CAST` between integers and texts; a value of another type stays as it is. -/
def intTextCasting : Casting where
  cast
    | .INTEGER, .text s => .int (leadingInt s)
    | .BIGINT, .text s => .int (leadingInt s)
    | .TEXT, .int n => .text (toString n)
    | _, v => v
  cast_null type := by cases type <;> rfl
  cast_int _ := rfl
  cast_cast type v := by cases type <;> cases v <;> rfl

/-- Identifiers are compared without ASCII case. -/
def fold (name : String) : String := Text.lower name

theorem length_fold (name : String) : (fold name).length = name.length := by
  simp [fold, Text.lower, String.length_toList]

theorem fold_append_ne (name suffix : String) (h : 0 < suffix.length) :
    fold (name ++ suffix) ≠ fold name := by
  intro he
  have hl := congrArg String.length he
  rw [length_fold, length_fold, String.length_append] at hl
  omega

structure ColumnDef where
  name : String
  type : SqlType
  notNull : Bool := false
  unique : Bool := false
  /-- An `INTEGER PRIMARY KEY` column. -/
  pk : Bool := false
deriving DecidableEq, Repr

/-- The values of a row by folded column name. -/
def Row : Type := String → Value

def Row.get (r : Row) (column : String) : Value := r (fold column)

def Row.set (r : Row) (column : String) (v : Value) : Row :=
  fun name => if name = fold column then v else r name

def Row.empty : Row := fun _ => .null

theorem Row.get_set (r : Row) (c c' : String) (v : Value) :
    (r.set c v).get c' = if fold c' = fold c then v else r.get c' := rfl

@[simp] theorem Row.get_set_self (r : Row) (c : String) (v : Value) : (r.set c v).get c = v := by
  simp [Row.get_set]

theorem Row.get_congr (r : Row) {c c' : String} (h : fold c = fold c') : r.get c = r.get c' := by
  rw [Row.get, Row.get, h]

/-- Two rows clash in a column list if they agree there and hold no `NULL`. -/
def Clash (columns : List String) (r r' : Row) : Prop :=
  ∀ c ∈ columns, r.get c ≠ .null ∧ r.get c = r'.get c

instance (columns : List String) (r r' : Row) : Decidable (Clash columns r r') := by
  unfold Clash
  infer_instance

/-- The constraints of a table hold of its rows. -/
structure Valid (columns : List ColumnDef) (key : List String) (rows : List Row) : Prop where
  notNull : ∀ c ∈ columns, c.notNull → ∀ r ∈ rows, r.get c.name ≠ .null
  integer : ∀ c ∈ columns, c.pk → ∀ r ∈ rows, (r.get c.name).isInt
  unique : ∀ c ∈ columns, c.unique ∨ c.pk → rows.Pairwise fun r r' => ¬ Clash [c.name] r r'
  key : key ≠ [] → rows.Pairwise fun r r' => ¬ Clash key r r'

instance (columns : List ColumnDef) (key : List String) (rows : List Row) :
    Decidable (Valid columns key rows) :=
  decidable_of_iff
    ((∀ c ∈ columns, c.notNull → ∀ r ∈ rows, r.get c.name ≠ .null) ∧
      (∀ c ∈ columns, c.pk → ∀ r ∈ rows, (r.get c.name).isInt) ∧
      (∀ c ∈ columns, c.unique ∨ c.pk → rows.Pairwise fun r r' => ¬ Clash [c.name] r r') ∧
      (key ≠ [] → rows.Pairwise fun r r' => ¬ Clash key r r'))
    ⟨fun ⟨h₁, h₂, h₃, h₄⟩ => ⟨h₁, h₂, h₃, h₄⟩, fun ⟨h₁, h₂, h₃, h₄⟩ => ⟨h₁, h₂, h₃, h₄⟩⟩

theorem Valid.nil (columns : List ColumnDef) (key : List String) : Valid columns key [] := by
  constructor <;> simp

def foldedNames (columns : List ColumnDef) : List String := columns.map fun c => fold c.name

/-- A table: `key` is a table-level primary key, empty if there is none. -/
structure Table where
  columns : List ColumnDef
  key : List String
  rows : List Row
  names_nodup : (foldedNames columns).Nodup
  key_mem : ∀ k ∈ key, fold k ∈ foldedNames columns
  valid : Valid columns key rows

def Table.find (t : Table) (column : String) : Option ColumnDef :=
  t.columns.find? fun c => fold c.name = fold column

def Table.names (t : Table) : List String := t.columns.map ColumnDef.name

def Table.create (columns : List ColumnDef) (key : List String) : Option Table :=
  if h : (foldedNames columns).Nodup ∧ ∀ k ∈ key, fold k ∈ foldedNames columns then
    some ⟨columns, key, [], h.1, h.2, .nil columns key⟩
  else none

/-- Constraints carry over when every column that has one reads, after `g`, what some column with
the same constraints read before. -/
theorem Valid.map {columns columns' : List ColumnDef} {key : List String} {rows : List Row}
    (h : Valid columns key rows) (g : Row → Row) (f : String → String)
    (hc : ∀ c' ∈ columns', (c'.notNull = false ∧ c'.unique = false ∧ c'.pk = false) ∨
      ∃ c ∈ columns, c'.notNull = c.notNull ∧ c'.unique = c.unique ∧ c'.pk = c.pk ∧
        ∀ r : Row, (g r).get c'.name = r.get c.name)
    (hk : ∀ k ∈ key, ∀ r : Row, (g r).get (f k) = r.get k) :
    Valid columns' (key.map f) (rows.map g) := by
  refine ⟨?_, ?_, ?_, ?_⟩
  · intro c' hc' hn r' hr'
    obtain ⟨r, hr, rfl⟩ := List.mem_map.mp hr'
    rcases hc c' hc' with ⟨plain, -⟩ | ⟨c, hm, hnn, -, -, hg⟩
    · simp [plain] at hn
    · rw [hg]
      exact h.notNull c hm (hnn ▸ hn) r hr
  · intro c' hc' hp r' hr'
    obtain ⟨r, hr, rfl⟩ := List.mem_map.mp hr'
    rcases hc c' hc' with ⟨-, -, plain⟩ | ⟨c, hm, -, -, hpk, hg⟩
    · simp [plain] at hp
    · rw [hg]
      exact h.integer c hm (hpk ▸ hp) r hr
  · intro c' hc' hu
    rw [List.pairwise_map]
    rcases hc c' hc' with ⟨-, plain, plain'⟩ | ⟨c, hm, -, hun, hpk, hg⟩
    · simp [plain, plain'] at hu
    · simpa [Clash, hg] using h.unique c hm (hun ▸ hpk ▸ hu)
  · intro hne
    rw [List.pairwise_map]
    refine (h.key fun he => hne (by rw [he]; rfl)).imp fun hc hc' => hc fun k hkey => ?_
    simpa [hk k hkey] using hc' (f k) (List.mem_map_of_mem hkey)

theorem fold_ne_of_not_mem {columns : List ColumnDef} {name : String}
    (h : fold name ∉ foldedNames columns) {c : ColumnDef} (hc : c ∈ columns) :
    fold c.name ≠ fold name := by
  intro he
  exact h (he ▸ List.mem_map_of_mem hc)

/-- `ADD COLUMN`: rows get `NULL`, so the new column may carry no constraint. -/
def Table.addColumn (t : Table) (c : ColumnDef) : Option Table :=
  if h : fold c.name ∉ foldedNames t.columns ∧ c.notNull = false ∧ c.unique = false ∧ c.pk = false
  then some {
    columns := t.columns ++ [c]
    key := t.key
    rows := t.rows.map fun r => r.set c.name .null
    names_nodup := by
      simpa [foldedNames, List.nodup_append] using
        ⟨t.names_nodup, fun _ => fold_ne_of_not_mem h.1⟩
    key_mem := fun k hk => by
      rw [foldedNames, List.map_append]
      exact List.mem_append_left _ (t.key_mem k hk)
    valid := by
      rw [← List.map_id t.key]
      refine t.valid.map _ id (fun c' hc' => ?_) fun k hk r => ?_
      · rcases List.mem_append.mp hc' with hm | hm
        · refine .inr ⟨c', hm, rfl, rfl, rfl, fun r => ?_⟩
          simp [Row.get_set, fold_ne_of_not_mem h.1 hm]
        · exact .inl (List.mem_singleton.mp hm ▸ h.2)
      · have hne : fold k ≠ fold c.name := fun he => h.1 (he ▸ t.key_mem k hk)
        simp [Row.get_set, hne] }
  else none

/-- `DROP COLUMN`: refused for key and unique columns, and for the last one. -/
def Table.dropColumn (t : Table) (column : String) : Option Table :=
  match t.find column with
  | none => none
  | some c =>
    if h : c.pk = false ∧ c.unique = false ∧ fold column ∉ t.key.map fold ∧ 1 < t.columns.length
    then some {
      columns := t.columns.filter fun d => fold d.name ≠ fold column
      key := t.key
      rows := t.rows
      names_nodup := (List.filter_sublist.map _).nodup t.names_nodup
      key_mem := fun k hk => by
        obtain ⟨d, hd, he⟩ := List.mem_map.mp (t.key_mem k hk)
        refine List.mem_map.mpr ⟨d, List.mem_filter.mpr ⟨hd, ?_⟩, he⟩
        simpa [he] using fun hf => h.2.2.1 (List.mem_map.mpr ⟨k, hk, hf⟩)
      valid := by
        rw [← List.map_id t.key, ← List.map_id t.rows]
        exact t.valid.map id id (fun d hd => .inr ⟨d, List.mem_of_mem_filter hd, rfl, rfl, rfl,
          fun _ => rfl⟩) fun _ _ _ => rfl }
    else none

def renamed (old new name : String) : String := if fold name = fold old then new else name

theorem fold_renamed_of_eq {old new name : String} (h : fold name = fold old) :
    fold (renamed old new name) = fold new := by
  rw [renamed, if_pos h]

/-- Where the new names are distinct, no other column is called `new`. -/
theorem fold_ne_new {columns : List ColumnDef} {old new : String} {d : ColumnDef}
    (hd : d ∈ columns) (hold : fold d.name = fold old)
    (nodup : (columns.map fun c => fold (renamed old new c.name)).Nodup) {c : ColumnDef}
    (hc : c ∈ columns) (hne : fold c.name ≠ fold old) : fold c.name ≠ fold new := by
  intro he
  have hsame : fold (renamed old new c.name) = fold (renamed old new d.name) := by
    rw [fold_renamed_of_eq hold, renamed, if_neg hne, he]
  obtain rfl := List.inj_on_of_nodup_map nodup hc hd hsame
  exact hne hold

theorem get_renamed {old new name : String} (h : fold name ≠ fold old → fold name ≠ fold new)
    (r : Row) : (r.set new (r.get old)).get (renamed old new name) = r.get name := by
  by_cases hn : fold name = fold old
  · rw [renamed, if_pos hn, Row.get_set_self, r.get_congr hn]
  · rw [renamed, if_neg hn, Row.get_set, if_neg (h hn)]

/-- `RENAME COLUMN`. -/
def Table.renameColumn (t : Table) (old new : String) : Option Table :=
  if h : fold old ∈ foldedNames t.columns ∧
      (t.columns.map fun c => fold (renamed old new c.name)).Nodup then
    have other : ∀ c ∈ t.columns, fold c.name ≠ fold old → fold c.name ≠ fold new := by
      obtain ⟨d, hd, hold⟩ := List.mem_map.mp h.1
      exact fun c hc => fold_ne_new hd hold h.2 hc
    some {
      columns := t.columns.map fun c => { c with name := renamed old new c.name }
      key := t.key.map (renamed old new)
      rows := t.rows.map fun r => r.set new (r.get old)
      names_nodup := by simpa [foldedNames, Function.comp_def] using h.2
      key_mem := fun k' hk' => by
        obtain ⟨k, hk, rfl⟩ := List.mem_map.mp hk'
        obtain ⟨c, hc, he⟩ := List.mem_map.mp (t.key_mem k hk)
        refine List.mem_map.mpr ⟨_, List.mem_map_of_mem hc, ?_⟩
        simp only [renamed, he]
        split <;> simp [he]
      valid := by
        refine t.valid.map _ (renamed old new) (fun c' hc' => ?_) fun k hk r => ?_
        · obtain ⟨c, hc, rfl⟩ := List.mem_map.mp hc'
          exact .inr ⟨c, hc, rfl, rfl, rfl, get_renamed (other c hc)⟩
        · obtain ⟨c, hc, he⟩ := List.mem_map.mp (t.key_mem k hk)
          exact get_renamed (he ▸ other c hc) r }
  else none

/-- The key an `INSERT` that leaves it out gets. -/
def nextKey (rows : List Row) (column : String) : Int :=
  rows.foldr (fun r next => match r.get column with
    | .int n => max (n + 1) next
    | _ => next) 1

def Table.withKey (t : Table) (r : Row) : Row :=
  match t.columns.find? fun c => c.pk with
  | some c => if r.get c.name = .null then r.set c.name (.int (nextKey t.rows c.name)) else r
  | none => r

def Table.insert (t : Table) (r : Row) : Option Table :=
  if h : Valid t.columns t.key (t.rows ++ [t.withKey r]) then
    some { t with rows := t.rows ++ [t.withKey r], valid := h }
  else none

def Table.insertAll : List Row → Table → Option Table
  | [], t => some t
  | r :: rest, t => (t.insert r).bind (insertAll rest)

def Table.conflicts (t : Table) (r r' : Row) : Bool :=
  (t.columns.any fun c => (c.unique || c.pk) && decide (Clash [c.name] r' r)) ||
    (t.key ≠ [] && decide (Clash t.key r' r))

/-- `INSERT OR REPLACE`: rows that conflict with the new one go first. -/
def Table.insertOrReplace (t : Table) (r : Row) : Option Table :=
  if h : Valid t.columns t.key ((t.rows.filter fun r' => !t.conflicts r r') ++ [r]) then
    some { t with rows := (t.rows.filter fun r' => !t.conflicts r r') ++ [r], valid := h }
  else none

end Sqlite
