import Harpia.DaoTables
import Harpia.Lib.SqliteWhere

namespace Harpia

open Sqlite Proto Attempt

/-- The values that an `INSERT` gives a row. -/
abbrev Entry := List (String × Value)

/-- The rows of a repeated message with a table. -/
def linkEntries (E : DaoEnv) (owner : Value) (field : Variable) (m : Msg) : Option (List Entry) :=
  (elementsType E field).bind fun elem => (m.elements field.name).zipIdx.mapM fun e =>
    (bindValue E.schema.types elem e.1 pk).map fun key =>
      [("owner", owner), ("ordinal", .int e.2), ("value", key)]

/-- What the child table holds for `owner` once `msg` is stored. `value` is how an element's column
is bound: NULL indicators are the Python runtime's alone. -/
def childTableEntries (E : DaoEnv) (value : Message → Msg → DaoColumn → Option Value) (dao : Dao)
    (owner : Value) (msg : Msg) (child : DaoChild) : Option (List Entry) :=
  (ownerOf E.schema.types child.path.owner dao.message msg).bind fun base =>
    (base.1.field? child.path.field).bind fun field =>
      match child.kind with
      | .map => some ((base.2.map field.name).entries.map fun e =>
          [("owner", owner), ("key", toDb e.1), ("value", toDb e.2)])
      | .repeated none => (iterate E field base.2).map fun items => items.zipIdx.map fun e =>
          [("owner", owner), ("ordinal", .int e.2), ("value", toDb e.1)]
      | .repeated (some _) => linkEntries E owner field base.2
      | .composed columns => (elementsType E field).bind fun elem =>
          (base.2.elements field.name).zipIdx.mapM fun e =>
            (columns.mapM fun col => (value elem e.1 col).map fun v => (col.name, v)).map
              fun cells => ("owner", owner) :: ("ordinal", .int e.2) :: cells

/-- The tables of a DAO, each with the column that names the key a row belongs to. -/
def Dao.places (dao : Dao) : List (String × String) :=
  (dao.table, pk) :: dao.children.map fun child => (child.table, "owner")

/-- SQLite takes names that differ in case only for one. -/
structure Dao.DistinctNames (dao : Dao) : Prop where
  columns : ((pk :: (keylessColumns dao).map DaoColumn.name).map fold).Nodup
  tables : (dao.tables.map fold).Nodup
  elements : ∀ child ∈ dao.children, ∀ columns, child.kind = .composed columns →
    (("owner" :: "ordinal" :: columns.map DaoColumn.name).map fold).Nodup

theorem Dao.places_tables (dao : Dao) : dao.places.map Prod.fst = dao.tables := by
  simp [Dao.places, Dao.tables, Function.comp_def]

/-- Two places of one table are the same place. -/
theorem Dao.DistinctNames.place_eq {dao : Dao} (h : dao.DistinctNames) {a b : String × String}
    (ha : a ∈ dao.places) (hb : b ∈ dao.places) (same : fold a.1 = fold b.1) : a = b := by
  have nodup : (dao.places.map fun e => fold e.1).Nodup := by
    have tables := h.tables
    rw [← dao.places_tables, List.map_map] at tables
    exact tables
  exact List.inj_on_of_nodup_map nodup ha hb same

theorem Dao.row_place (dao : Dao) : (dao.table, pk) ∈ dao.places := List.mem_cons_self

theorem Dao.child_place {dao : Dao} {child : DaoChild} (hc : child ∈ dao.children) :
    (child.table, "owner") ∈ dao.places :=
  List.mem_cons_of_mem _ (List.mem_map_of_mem hc)

/-- From `db` to `db'`, a table has been written for one key. -/
structure WrittenAt (place : String × String) (key : Value) (db db' : Db) : Prop where
  others : db'.others place.1 place.2 key = db.others place.1 place.2 key
  away : ∀ n, fold n ≠ fold place.1 → db'.get? n = db.get? n

section Progress

variable {dao : Dao} {key : Value} {before : Db} {row : Row → Prop}
  {put : List (String × List Entry)} {db db' : Db}

/-- No row of another key has changed since `before`. -/
def OthersKept (dao : Dao) (key : Value) (before db : Db) : Prop :=
  ∀ place ∈ dao.places, db.others place.1 place.2 key = before.others place.1 place.2 key

/-- How far a message has been stored under a key: what its row is like, and the child tables that
have been put. -/
structure Progress (dao : Dao) (key : Value) (before : Db) (row : Row → Prop)
    (put : List (String × List Entry)) (db : Db) : Prop where
  kept : OthersKept dao key before db
  row : ∀ r ∈ db.chosen dao.table pk key, row r
  own : ∀ e ∈ put, (e.1, "owner") ∈ dao.places
  children : ∀ e ∈ put, List.Forall₂ Db.Stores e.2 (db.chosen e.1 "owner" key)

theorem OthersKept.step (h : OthersKept dao key before db) (names : dao.DistinctNames) {place : String × String}
    (hp : place ∈ dao.places) (written : WrittenAt place key db db') : OthersKept dao key before db' := by
  intro other ho
  by_cases same : fold other.1 = fold place.1
  · rw [names.place_eq ho hp same, written.others]
    exact h place hp
  · rw [Db.others_congr (written.away _ same)]
    exact h other ho

theorem Progress.leaves (h : Progress dao key before row put db)
    (same : ∀ t ∈ dao.tables, db'.get? t = db.get? t) : Progress dao key before row put db' := by
  have at_ : ∀ place ∈ dao.places, db'.get? place.1 = db.get? place.1 := fun place hp =>
    same _ (dao.places_tables ▸ List.mem_map_of_mem hp)
  refine ⟨fun place hp => ?_, fun r hr => ?_, h.own, fun e he => ?_⟩
  · rw [Db.others_congr (at_ place hp)]
    exact h.kept place hp
  · rw [Db.chosen_congr (at_ _ dao.row_place)] at hr
    exact h.row r hr
  · rw [Db.chosen_congr (at_ _ (h.own e he))]
    exact h.children e he

theorem Progress.update (h : Progress dao key before (fun _ => True) [] db)
    (names : dao.DistinctNames) {values : Entry} {count : Nat}
    (apart : ∀ e ∈ values, fold pk ≠ fold e.1) (assigned : ∀ old, row (Row.assign old values))
    (done : db.update dao.table values pk key = some (db', count)) :
    Progress dao key before row [] db' := by
  obtain ⟨_, _, _, _, written⟩ := Db.update_rewritten done
  refine ⟨h.kept.step names dao.row_place ⟨Db.others_update apart done, written.others⟩,
    fun r hr => ?_, by simp, by simp⟩
  obtain ⟨old, rfl⟩ := Db.chosen_update done hr
  exact assigned old

/-- Where one child table changes, the row and the other child tables stay. -/
theorem Progress.child (h : Progress dao key before row put db) (names : dao.DistinctNames)
    {child : DaoChild} (hc : child ∈ dao.children)
    (fresh : ∀ e ∈ put, fold e.1 ≠ fold child.table)
    (written : WrittenAt (child.table, "owner") key db db') {entries : List Entry}
    (now : List.Forall₂ Db.Stores entries (db'.chosen child.table "owner" key)) :
    Progress dao key before row (put ++ [(child.table, entries)]) db' := by
  refine ⟨h.kept.step names (dao.child_place hc) written, fun r hr => ?_, ?_, ?_⟩
  · have apart : fold dao.table ≠ fold child.table := fun same => by
      have column : pk = "owner" :=
        congrArg Prod.snd (names.place_eq dao.row_place (dao.child_place hc) same)
      exact absurd column (by decide)
    rw [Db.chosen_congr (written.away _ apart)] at hr
    exact h.row r hr
  · intro e he
    rcases List.mem_append.mp he with he | he
    · exact h.own e he
    · rw [List.mem_singleton.mp he]
      exact dao.child_place hc
  · intro e he
    rcases List.mem_append.mp he with he | he
    · rw [Db.chosen_congr (written.away _ (fresh e he))]
      exact h.children e he
    · rw [List.mem_singleton.mp he]
      exact now

theorem Progress.delete (h : Progress dao key before row put db) (names : dao.DistinctNames)
    {child : DaoChild} (hc : child ∈ dao.children)
    (fresh : ∀ e ∈ put, fold e.1 ≠ fold child.table) {count : Nat}
    (done : db.delete child.table "owner" key = some (db', count)) :
    Progress dao key before row (put ++ [(child.table, [])]) db' := by
  obtain ⟨_, _, _, written⟩ := Db.delete_rewritten done
  refine h.child names hc fresh ⟨Db.others_delete done, written.others⟩ ?_
  rw [Db.chosen_delete done]
  exact .nil

theorem Progress.insert {child : DaoChild} {entries : List Entry}
    (h : Progress dao key before row (put ++ [(child.table, entries)]) db)
    (names : dao.DistinctNames) (hc : child ∈ dao.children)
    (fresh : ∀ e ∈ put, fold e.1 ≠ fold child.table) {values : Entry} {r : Row}
    (nodup : (values.map fun e => fold e.1).Nodup) (given : ("owner", key) ∈ values)
    (hk : key ≠ .null) (done : db.insert child.table values = some (db', r)) :
    Progress dao key before row (put ++ [(child.table, entries ++ [values])]) db' := by
  obtain ⟨_, _, _, _, _, written⟩ := Db.insert_rewritten done
  obtain ⟨others, chosen⟩ := Db.insert_where done nodup hk given
  have earlier : Progress dao key before row put db :=
    ⟨h.kept, h.row, fun e he => h.own e (List.mem_append_left _ he),
      fun e he => h.children e (List.mem_append_left _ he)⟩
  refine earlier.child names hc fresh ⟨others, written.others⟩ ?_
  rw [chosen]
  have so_far := h.children (child.table, entries) (by simp)
  exact List.rel_append so_far (.cons (Db.stores_of_insert done nodup) .nil)

end Progress

end Harpia
