import Harpia.Lib.SqliteRows

namespace Sqlite

/-- `WHERE column = v`: nothing equals `NULL`. -/
def Table.hits (t : Table) (column : String) (v : Value) (r : Row) : Bool :=
  decide (v ≠ .null ∧ t.lookup r column = v)

def Table.select (t : Table) (column : String) (v : Value) : List Row :=
  t.rows.filter (t.hits column v)

def Table.delete (t : Table) (column : String) (v : Value) : Table :=
  { t with
    rows := t.rows.filter fun r => !t.hits column v r
    valid := t.valid.sublist List.filter_sublist }

def Row.assign (r : Row) (values : List (String × Value)) : Row :=
  values.foldr (fun e r => r.set e.1 e.2) r

/-- The rows after `UPDATE .. SET values WHERE column = v`. -/
def Table.assigned (t : Table) (values : List (String × Value)) (column : String) (v : Value) :
    List Row :=
  t.rows.map fun r => if t.hits column v r then r.assign values else r

def Table.update (t : Table) (values : List (String × Value)) (column : String) (v : Value) :
    Option Table :=
  if h : Valid t.columns t.key (t.assigned values column v) then
    some { t with rows := t.assigned values column v, valid := h }
  else none

def Table.accepts (t : Table) (values : List (String × Value)) : Bool :=
  values.all fun e => fold e.1 ∈ foldedNames t.columns

namespace Db

def rows (db : Db) (table : String) : List Row := (db.get? table).elim [] Table.rows

def columns (db : Db) (table : String) : Option (List ColumnDef) :=
  (db.get? table).map Table.columns

/-- `INSERT .. RETURNING`: the row as it is stored. -/
def insert (db : Db) (table : String) (values : List (String × Value)) : Option (Db × Row) :=
  (db.get? table).bind fun t =>
    if t.accepts values then
      (t.insert (Row.ofPairs values)).map fun t' =>
        (db.put table t', t.withKey (Row.ofPairs values))
    else none

/-- The number is `rowcount`. -/
def update (db : Db) (table : String) (values : List (String × Value)) (column : String)
    (v : Value) : Option (Db × Nat) :=
  (db.get? table).bind fun t =>
    if t.accepts values then
      (t.update values column v).map fun t' => (db.put table t', (t.select column v).length)
    else none

def delete (db : Db) (table column : String) (v : Value) : Option (Db × Nat) :=
  (db.get? table).map fun t =>
    (db.put table (t.delete column v), (t.select column v).length)

/-- `db'` is `db` with other rows in one table. -/
structure Rewritten (table : String) (rows : List Row) (db db' : Db) : Prop where
  others : ∀ n, fold n ≠ fold table → db'.get? n = db.get? n
  columns : db'.columns table = db.columns table
  live : (db'.get? table).isSome
  rows_eq : db'.rows table = rows

theorem rewritten_put {db : Db} {table : String} {t t' : Table} {rows : List Row}
    (ht : db.get? table = some t) (hc : t'.columns = t.columns) (hr : t'.rows = rows) :
    Rewritten table rows db (db.put table t') := by
  refine ⟨fun n hn => ?_, ?_, ?_, ?_⟩
  · rw [get?_put, if_neg hn]
  · rw [Db.columns, Db.columns, get?_put_self, ht, Option.map_some, Option.map_some, hc]
  · rw [get?_put_self, Option.isSome_some]
  · rw [Db.rows, get?_put_self, Option.elim_some, hr]

theorem rows_of_get? {db : Db} {table : String} {t : Table} (h : db.get? table = some t) :
    db.rows table = t.rows := by
  rw [Db.rows, h, Option.elim_some]

theorem rows_congr (db : Db) {m n : String} (h : fold m = fold n) : db.rows m = db.rows n := by
  rw [Db.rows, Db.rows, db.get?_congr h]

theorem Rewritten.rows_other {table : String} {rows : List Row} {db db' : Db}
    (h : Rewritten table rows db db') {n : String} (hn : fold n ≠ fold table) :
    db'.rows n = db.rows n := by
  rw [Db.rows, Db.rows, h.others n hn]

theorem Rewritten.columns_all {table : String} {rows : List Row} {db db' : Db}
    (h : Rewritten table rows db db') (n : String) : db'.columns n = db.columns n := by
  by_cases hn : fold n = fold table
  · have same : ∀ db : Db, db.columns n = db.columns table := fun db => by
      rw [Db.columns, Db.columns, db.get?_congr hn]
    rw [same, same, h.columns]
  · rw [Db.columns, Db.columns, h.others n hn]

theorem insert_rewritten {db db' : Db} {table : String} {values : List (String × Value)} {r : Row}
    (h : db.insert table values = some (db', r)) :
    ∃ t, db.get? table = some t ∧ t.accepts values ∧ r = t.withKey (Row.ofPairs values) ∧
      Valid t.columns t.key (t.rows ++ [r]) ∧ Rewritten table (t.rows ++ [r]) db db' := by
  obtain ⟨t, ht, h⟩ := Option.bind_eq_some_iff.mp h
  split at h
  next ok =>
    obtain ⟨t', hi, he⟩ := Option.map_eq_some_iff.mp h
    obtain ⟨rfl, rfl⟩ := Prod.mk.inj he
    unfold Table.insert at hi
    split at hi
    next hv =>
      cases Option.some.inj hi
      exact ⟨t, ht, ok, rfl, hv, rewritten_put ht rfl rfl⟩
    next => simp at hi
  next => simp at h

theorem update_rewritten {db db' : Db} {table column : String} {values : List (String × Value)}
    {v : Value} {count : Nat} (h : db.update table values column v = some (db', count)) :
    ∃ t, db.get? table = some t ∧ t.accepts values ∧ count = (t.select column v).length ∧
      Rewritten table (t.assigned values column v) db db' := by
  obtain ⟨t, ht, h⟩ := Option.bind_eq_some_iff.mp h
  split at h
  next ok =>
    obtain ⟨t', hu, he⟩ := Option.map_eq_some_iff.mp h
    obtain ⟨rfl, rfl⟩ := Prod.mk.inj he
    unfold Table.update at hu
    split at hu
    next hv =>
      cases Option.some.inj hu
      exact ⟨t, ht, ok, rfl, rewritten_put ht rfl rfl⟩
    next => simp at hu
  next => simp at h

theorem delete_rewritten {db db' : Db} {table column : String} {v : Value} {count : Nat}
    (h : db.delete table column v = some (db', count)) :
    ∃ t, db.get? table = some t ∧ count = (t.select column v).length ∧
      Rewritten table (t.rows.filter fun r => !t.hits column v r) db db' := by
  obtain ⟨t, ht, he⟩ := Option.map_eq_some_iff.mp h
  obtain ⟨rfl, rfl⟩ := Prod.mk.inj he
  exact ⟨t, ht, rfl, rewritten_put ht rfl rfl⟩

theorem delete_of_no_hit {db : Db} {table column : String} {v : Value} {t : Table}
    (ht : db.get? table = some t) (none : ∀ r ∈ t.rows, ¬ t.hits column v r) :
    db.delete table column v = some (db, 0) := by
  have kept : (t.rows.filter fun r => !t.hits column v r) = t.rows := by
    refine List.filter_eq_self.mpr fun r hr => ?_
    simpa using none r hr
  have same : t.delete column v = t := by
    cases t
    simp only [Table.delete, Table.mk.injEq, true_and]
    exact kept
  have found : t.select column v = [] := List.filter_eq_nil_iff.mpr none
  rw [Db.delete, ht, Option.map_some, same, found, put_get? ht]
  rfl

theorem update_of_no_hit {db db' : Db} {table column : String} {values : List (String × Value)}
    {v : Value} {t : Table} {count : Nat} (ht : db.get? table = some t)
    (none : ∀ r ∈ t.rows, ¬ t.hits column v r)
    (h : db.update table values column v = some (db', count)) : db' = db := by
  have kept : t.assigned values column v = t.rows := by
    refine (List.map_congr_left fun r hr => ?_).trans (List.map_id t.rows)
    rw [if_neg (none r hr), id]
  obtain ⟨t', ht', h⟩ := Option.bind_eq_some_iff.mp h
  cases Option.some.inj (ht.symm.trans ht')
  split at h
  next =>
    obtain ⟨t', hu, he⟩ := Option.map_eq_some_iff.mp h
    unfold Table.update at hu
    split at hu
    next hv =>
      cases Option.some.inj hu
      have same : { t with rows := t.assigned values column v, valid := hv } = t := by
        cases t
        simp only [Table.mk.injEq, true_and]
        exact kept
      rw [← (Prod.mk.inj he).1, same, put_get? ht]
    next => simp at hu
  next => simp at h

end Db

end Sqlite
