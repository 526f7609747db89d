import Harpia.Lib.Sqlite

namespace Sqlite

/-- The tables of a database by folded name, each with the name it was created under. -/
structure Db where
  tables : Dict String (String × Table)
  spelled : ∀ k e, tables.get? k = some e → fold e.1 = k

namespace Db

def empty : Db := ⟨Dict.empty, by simp⟩

def get? (db : Db) (name : String) : Option Table := (db.tables.get? (fold name)).map Prod.snd

/-- The `name` column of `sqlite_master`. -/
def names (db : Db) : List String := db.tables.values.map Prod.fst

/-- A new table is listed under `name`, an existing one keeps its spelling. -/
def put (db : Db) (name : String) (t : Table) : Db where
  tables := db.tables.set (fold name) (((db.tables.get? (fold name)).map Prod.fst).getD name, t)
  spelled := by
    intro k e he
    rw [Dict.get?_set] at he
    split at he
    next hk =>
      cases Option.some.inj he
      cases hg : db.tables.get? (fold name) with
      | none => exact hk.symm
      | some e => exact (db.spelled _ e hg).trans hk.symm
    next => exact db.spelled k e he

def erase (db : Db) (name : String) : Db where
  tables := db.tables.erase (fold name)
  spelled := by
    intro k e he
    rw [Dict.get?_erase] at he
    split at he
    next => simp at he
    next => exact db.spelled k e he

@[simp] theorem get?_empty (name : String) : empty.get? name = none := rfl

theorem get?_congr (db : Db) {m n : String} (h : fold m = fold n) : db.get? m = db.get? n := by
  rw [get?, get?, h]

theorem get?_put (db : Db) (m n : String) (t : Table) :
    (db.put m t).get? n = if fold n = fold m then some t else db.get? n := by
  simp only [get?, put, Dict.get?_set]
  split <;> rfl

theorem get?_erase (db : Db) (m n : String) :
    (db.erase m).get? n = if fold n = fold m then none else db.get? n := by
  simp only [get?, erase, Dict.get?_erase]
  split <;> rfl

@[simp] theorem get?_put_self (db : Db) (n : String) (t : Table) : (db.put n t).get? n = some t := by
  simp [get?_put]

@[simp] theorem get?_erase_self (db : Db) (n : String) : (db.erase n).get? n = none := by
  simp [get?_erase]

theorem put_get? {db : Db} {table : String} {t : Table} (h : db.get? table = some t) :
    db.put table t = db := by
  obtain ⟨e, he, rfl⟩ := Option.map_eq_some_iff.mp h
  have same : db.tables.set (fold table) e = db.tables := Dict.set_get? he
  have entry : (((db.tables.get? (fold table)).map Prod.fst).getD table, e.2) = e := by
    rw [he, Option.map_some, Option.getD_some]
  cases db
  simp only [put, Db.mk.injEq]
  rw [entry, same]

theorem mem_names_iff (db : Db) {n : String} :
    n ∈ db.names ↔ ∃ t, db.tables.get? (fold n) = some (n, t) := by
  simp only [names, List.mem_map, Dict.mem_values_iff, Prod.exists, exists_and_right,
    exists_eq_right]
  constructor
  · rintro ⟨t, k, hk⟩
    exact ⟨t, db.spelled k _ hk ▸ hk⟩
  · rintro ⟨t, ht⟩
    exact ⟨t, fold n, ht⟩

theorem exists_get?_of_mem_names {db : Db} {n : String} (h : n ∈ db.names) :
    ∃ t, db.get? n = some t := by
  obtain ⟨t, ht⟩ := (db.mem_names_iff).mp h
  exact ⟨t, by rw [get?, ht]; rfl⟩

theorem exists_name_of_get? {db : Db} {n : String} {t : Table} (h : db.get? n = some t) :
    ∃ m ∈ db.names, fold m = fold n := by
  obtain ⟨e, he, -⟩ := Option.map_eq_some_iff.mp h
  have hs := db.spelled _ e he
  exact ⟨e.1, db.mem_names_iff.mpr ⟨e.2, by rw [hs, he]⟩, hs⟩

/-- Two listed names that differ only in case are the same. -/
theorem names_unique {db : Db} {m n : String} (hm : m ∈ db.names) (hn : n ∈ db.names)
    (h : fold m = fold n) : m = n := by
  obtain ⟨t, ht⟩ := db.mem_names_iff.mp hm
  obtain ⟨u, hu⟩ := db.mem_names_iff.mp hn
  rw [h, hu, Option.some.injEq, Prod.mk.injEq] at ht
  exact ht.1.symm

theorem names_nodup (db : Db) : db.names.Nodup := by
  refine List.Nodup.of_map fold ?_
  have keys : db.names.map fold = db.tables.keys := by
    rw [names, Dict.values, Dict.keys, List.map_map, List.map_map]
    refine List.map_congr_left fun e he => ?_
    exact db.spelled e.1 e.2 ((Dict.get?_eq_some_iff _).mpr he)
  rw [keys]
  exact db.tables.nodup_keys

theorem mem_names_put {db : Db} {m n : String} {t : Table} :
    n ∈ (db.put m t).names ↔ n ∈ db.names ∨ n = m ∧ db.get? m = none := by
  simp only [mem_names_iff, put, Dict.get?_set, get?, Option.map_eq_none_iff]
  by_cases h : fold n = fold m
  · rw [if_pos h, h]
    cases hg : db.tables.get? (fold m) with
    | none => simp [eq_comm]
    | some e =>
      obtain ⟨e₁, e₂⟩ := e
      simp [eq_comm]
  · have hne : n ≠ m := fun he => h (congrArg fold he)
    simp [if_neg h, hne]

theorem mem_names_put_missing {db : Db} {m n : String} {t : Table} (h : db.get? m = none) :
    n ∈ (db.put m t).names ↔ n ∈ db.names ∨ n = m := by
  simp [mem_names_put, h]

theorem mem_names_erase {db : Db} {m n : String} :
    n ∈ (db.erase m).names ↔ n ∈ db.names ∧ fold n ≠ fold m := by
  simp only [mem_names_iff, erase, Dict.get?_erase]
  by_cases h : fold n = fold m <;> simp [h]

end Db

inductive Expr
  | column (name : String)
  | cast (name : String) (type : SqlType)
deriving DecidableEq, Repr

inductive Stmt
  | createTable (ifNotExists : Bool) (name : String) (columns : List ColumnDef) (key : List String)
  | dropTable (name : String)
  | renameTable (old new : String)
  | addColumn (table : String) (column : ColumnDef)
  | renameColumn (table old new : String)
  | dropColumn (table column : String)
  | insertSelect (into : String) (targets : List (String × Expr)) (source : String)
  | insertOrReplace (table : String) (values : List (String × Value))
deriving DecidableEq, Repr

/-- A quoted name that is no column of the table is a string literal. -/
def Table.lookup (t : Table) (r : Row) (name : String) : Value :=
  if fold name ∈ foldedNames t.columns then r.get name else .text name

def Expr.eval (C : Casting) (t : Table) (r : Row) : Expr → Value
  | .column name => t.lookup r name
  | .cast name type => C.cast type (t.lookup r name)

def Row.ofPairs : List (String × Value) → Row
  | [] => Row.empty
  | (c, v) :: rest => (ofPairs rest).set c v

def selectRows (C : Casting) (t : Table) (targets : List (String × Expr)) : List Row :=
  t.rows.map fun r => Row.ofPairs (targets.map fun e => (e.1, e.2.eval C t r))

/-- The names SQLite keeps for its own tables. -/
def reserved (name : String) : Bool := Text.startsWith (fold name) "sqlite_"

def exec (C : Casting) : Stmt → Db → Option Db
  | .createTable ifNotExists name columns key, db =>
    if reserved name then none
    else
      match db.get? name with
      | some _ => if ifNotExists then some db else none
      | none => (Table.create columns key).map (db.put name)
  | .dropTable name, db => (db.get? name).map fun _ => db.erase name
  | .renameTable old new, db =>
    if reserved new then none
    else
      match db.get? old, db.get? new with
      | some t, none => some ((db.erase old).put new t)
      | _, _ => none
  | .addColumn table column, db =>
    (db.get? table).bind fun t => (t.addColumn column).map (db.put table)
  | .renameColumn table old new, db =>
    (db.get? table).bind fun t => (t.renameColumn old new).map (db.put table)
  | .dropColumn table column, db =>
    (db.get? table).bind fun t => (t.dropColumn column).map (db.put table)
  | .insertSelect into targets source, db =>
    (db.get? into).bind fun t => (db.get? source).bind fun s =>
      if targets.all fun e => fold e.1 ∈ foldedNames t.columns then
        (t.insertAll (selectRows C s targets)).map (db.put into)
      else none
  | .insertOrReplace table values, db =>
    (db.get? table).bind fun t =>
      if values.all fun e => fold e.1 ∈ foldedNames t.columns then
        (t.insertOrReplace (Row.ofPairs values)).map (db.put table)
      else none

section Exec

variable {C : Casting} {db db' : Db} {ifNotExists : Bool} {name old new : String}
  {columns : List ColumnDef} {key : List String}

theorem exec_createTable_missing (free : reserved name = false) (hn : db.get? name = none) :
    exec C (.createTable ifNotExists name columns key) db =
      (Table.create columns key).map (db.put name) := by
  simp [exec, free, hn]

theorem exec_createTable_live (free : reserved name = false) {t : Table}
    (ht : db.get? name = some t) :
    exec C (.createTable true name columns key) db = some db := by
  simp [exec, free, ht]

/-- What `CREATE TABLE` found and did. -/
theorem exec_createTable (h : exec C (.createTable ifNotExists name columns key) db = some db') :
    reserved name = false ∧ ((ifNotExists = true ∧ (∃ t, db.get? name = some t) ∧ db' = db) ∨
      ∃ t, db.get? name = none ∧ Table.create columns key = some t ∧ db' = db.put name t) := by
  simp only [exec] at h
  split at h
  next => simp at h
  next free =>
    refine ⟨by simpa using free, ?_⟩
    split at h
    next t ht =>
      split at h
      next hif => exact .inl ⟨hif, ⟨t, ht⟩, (Option.some.inj h).symm⟩
      next => simp at h
    next hnone =>
      obtain ⟨t, hc, rfl⟩ := Option.map_eq_some_iff.mp h
      exact .inr ⟨t, hnone, hc, rfl⟩

theorem exec_renameTable_live (free : reserved new = false) {t : Table} (ht : db.get? old = some t)
    (hn : db.get? new = none) :
    exec C (.renameTable old new) db = some ((db.erase old).put new t) := by
  simp [exec, free, ht, hn]

theorem exec_renameTable (h : exec C (.renameTable old new) db = some db') :
    reserved new = false ∧
      ∃ t, db.get? old = some t ∧ db.get? new = none ∧ db' = (db.erase old).put new t := by
  simp only [exec] at h
  split at h
  next => simp at h
  next free =>
    refine ⟨by simpa using free, ?_⟩
    split at h
    next t ht hnew => exact ⟨t, ht, hnew, (Option.some.inj h).symm⟩
    next => simp at h

end Exec

/-- The tables a statement may change. -/
def Stmt.touched : Stmt → List String
  | .createTable _ name _ _ => [name]
  | .dropTable name => [name]
  | .renameTable old new => [old, new]
  | .addColumn table _ => [table]
  | .renameColumn table _ _ => [table]
  | .dropColumn table _ => [table]
  | .insertSelect into _ _ => [into]
  | .insertOrReplace table _ => [table]

/-- The frame rule: a table no statement names stays as it is. -/
theorem exec_frame {C : Casting} {i : Stmt} {db db' : Db} (h : exec C i db = some db') {n : String}
    (hn : ∀ m ∈ i.touched, fold n ≠ fold m) : db'.get? n = db.get? n := by
  cases i with
  | createTable ifNotExists name columns key =>
    have hne := hn name List.mem_cons_self
    rcases (exec_createTable h).2 with ⟨-, -, rfl⟩ | ⟨t, -, -, rfl⟩
    · rfl
    · rw [Db.get?_put, if_neg hne]
  | dropTable name =>
    obtain ⟨t, -, rfl⟩ := Option.map_eq_some_iff.mp h
    rw [Db.get?_erase, if_neg (hn name List.mem_cons_self)]
  | renameTable old new =>
    obtain ⟨-, t, -, -, rfl⟩ := exec_renameTable h
    rw [Db.get?_put, if_neg (hn new (by simp [Stmt.touched])), Db.get?_erase,
      if_neg (hn old (by simp [Stmt.touched]))]
  | addColumn table column =>
    obtain ⟨t, -, ht⟩ := Option.bind_eq_some_iff.mp h
    obtain ⟨t', -, rfl⟩ := Option.map_eq_some_iff.mp ht
    rw [Db.get?_put, if_neg (hn table List.mem_cons_self)]
  | renameColumn table old new =>
    obtain ⟨t, -, ht⟩ := Option.bind_eq_some_iff.mp h
    obtain ⟨t', -, rfl⟩ := Option.map_eq_some_iff.mp ht
    rw [Db.get?_put, if_neg (hn table List.mem_cons_self)]
  | dropColumn table column =>
    obtain ⟨t, -, ht⟩ := Option.bind_eq_some_iff.mp h
    obtain ⟨t', -, rfl⟩ := Option.map_eq_some_iff.mp ht
    rw [Db.get?_put, if_neg (hn table List.mem_cons_self)]
  | insertSelect into targets source =>
    obtain ⟨t, -, ht⟩ := Option.bind_eq_some_iff.mp h
    obtain ⟨s, -, hs⟩ := Option.bind_eq_some_iff.mp ht
    split at hs
    next =>
      obtain ⟨t', -, rfl⟩ := Option.map_eq_some_iff.mp hs
      rw [Db.get?_put, if_neg (hn into List.mem_cons_self)]
    next => simp at hs
  | insertOrReplace table values =>
    obtain ⟨t, -, ht⟩ := Option.bind_eq_some_iff.mp h
    split at ht
    next =>
      obtain ⟨t', -, rfl⟩ := Option.map_eq_some_iff.mp ht
      rw [Db.get?_put, if_neg (hn table List.mem_cons_self)]
    next => simp at ht

/-- The names a statement may add to the listing. -/
def Stmt.created : Stmt → List String
  | .createTable _ name _ _ => [name]
  | .renameTable _ new => [new]
  | _ => []

theorem Db.names_put_of_get? {db : Db} {n : String} {t t' : Table} (h : db.get? n = some t) :
    ∀ m, m ∈ (db.put n t').names ↔ m ∈ db.names := by
  intro m
  simp [Db.mem_names_put, h]

theorem mem_names_exec {C : Casting} {i : Stmt} {db db' : Db} (h : exec C i db = some db')
    {n : String} (hn : n ∈ db'.names) : n ∈ db.names ∨ n ∈ i.created := by
  cases i with
  | createTable ifNotExists name columns key =>
    rcases (exec_createTable h).2 with ⟨-, -, rfl⟩ | ⟨t, -, -, rfl⟩
    · exact .inl hn
    · rcases Db.mem_names_put.mp hn with hn | ⟨rfl, -⟩
      · exact .inl hn
      · exact .inr List.mem_cons_self
  | dropTable name =>
    obtain ⟨t, -, rfl⟩ := Option.map_eq_some_iff.mp h
    exact .inl (Db.mem_names_erase.mp hn).1
  | renameTable old new =>
    obtain ⟨-, t, -, -, rfl⟩ := exec_renameTable h
    rcases Db.mem_names_put.mp hn with hn | ⟨rfl, -⟩
    · exact .inl (Db.mem_names_erase.mp hn).1
    · exact .inr List.mem_cons_self
  | addColumn table column =>
    obtain ⟨t, hg, ht⟩ := Option.bind_eq_some_iff.mp h
    obtain ⟨t', -, rfl⟩ := Option.map_eq_some_iff.mp ht
    exact .inl ((Db.names_put_of_get? hg n).mp hn)
  | renameColumn table old new =>
    obtain ⟨t, hg, ht⟩ := Option.bind_eq_some_iff.mp h
    obtain ⟨t', -, rfl⟩ := Option.map_eq_some_iff.mp ht
    exact .inl ((Db.names_put_of_get? hg n).mp hn)
  | dropColumn table column =>
    obtain ⟨t, hg, ht⟩ := Option.bind_eq_some_iff.mp h
    obtain ⟨t', -, rfl⟩ := Option.map_eq_some_iff.mp ht
    exact .inl ((Db.names_put_of_get? hg n).mp hn)
  | insertSelect into targets source =>
    obtain ⟨t, hg, ht⟩ := Option.bind_eq_some_iff.mp h
    obtain ⟨s, -, hs⟩ := Option.bind_eq_some_iff.mp ht
    split at hs
    next =>
      obtain ⟨t', -, rfl⟩ := Option.map_eq_some_iff.mp hs
      exact .inl ((Db.names_put_of_get? hg n).mp hn)
    next => simp at hs
  | insertOrReplace table values =>
    obtain ⟨t, hg, ht⟩ := Option.bind_eq_some_iff.mp h
    split at ht
    next =>
      obtain ⟨t', -, rfl⟩ := Option.map_eq_some_iff.mp ht
      exact .inl ((Db.names_put_of_get? hg n).mp hn)
    next => simp at ht

end Sqlite
