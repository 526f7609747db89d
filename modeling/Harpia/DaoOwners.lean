import Harpia.DaoReplace
import Harpia.Lib.SqliteReferences

namespace Harpia

open Sqlite Proto Attempt

/-- `remove`. -/
def removeIn (dao : Dao) (key : Value) : Cursor Bool := do
  let count ← Cursor.delete dao.table pk key
  let _ ← Calls.collect (fun child => Cursor.delete child.table "owner" key) dao.children
  return decide (0 < count)

/-- A call that writes. -/
inductive DaoCall
  | create (msg : Msg)
  | update (msg : Msg)
  | remove (key : Value)

section Calls

variable (exec : (r : Request) → DbSession → Option (Answer r × DbSession)) (E : DaoEnv) (fuel : Nat)
  (p : KeyProvider) (dao : Dao)

def DaoCall.program : DaoCall → Cursor Bool
  | .create msg => do
    let _ ← createIn E fuel p dao msg
    return true
  | .update msg => updateIn E fuel p dao msg
  | .remove key => removeIn dao key

/-- A call is one transaction, rolled back where an exception leaves it. -/
def daoCall (call : DaoCall) : Attempt DbSession Bool := fun s =>
  match (call.program E fuel p dao).attempt exec s with
  | (some found, s') => (some found, s')
  | (none, s') => (none, s'.withDb s.db)

end Calls

/-- A statement is done as SQLite does it, or raises. -/
def MayRaise (exec : (r : Request) → DbSession → Option (Answer r × DbSession)) : Prop :=
  ∀ r s out, exec r s = some out → Request.exec r s = some out

/-- A DAO that `dao` stores messages through, at any depth; itself among them. -/
def StoredThrough (S : Schema) (dao d : Dao) : Prop := Relation.ReflTransGen (StoresThrough S) dao d

/-- Every row of a child table has an owner, which is the key of a row of the main table. -/
def OwnersExist (S : Schema) (dao : Dao) (db : Db) : Prop :=
  ∀ d, StoredThrough S dao d → ∀ child ∈ d.children, db.Refers (child.table, "owner") (d.table, pk)

/-- No two tables share a name, nor two columns of a row; SQLite does not tell upper from lower
case. -/
structure SeparateTables (S : Schema) (dao : Dao) : Prop where
  columns : ∀ d, StoredThrough S dao d → (d.columns.map fun c => fold c.name).Nodup
  tables : ∀ d, StoredThrough S dao d → (d.tables.map fold).Nodup
  apart : ∀ d d', StoredThrough S dao d → StoredThrough S dao d' → ∀ t ∈ d.tables, ∀ t' ∈ d'.tables,
    fold t = fold t' → d = d'

section Tables

variable {S : Schema} {root d d' : Dao} {child child' : DaoChild}

theorem SeparateTables.row_child (h : SeparateTables S root) (hd : StoredThrough S root d)
    (hd' : StoredThrough S root d') (hc : child ∈ d'.children) : fold d.table ≠ fold child.table := by
  intro same
  obtain rfl := h.apart d d' hd hd' _ d.table_mem _ (Dao.child_mem hc) same
  have tables := (List.nodup_cons.mp (h.tables d hd)).1
  rw [same] at tables
  exact tables (List.mem_map_of_mem (List.mem_map_of_mem hc))

theorem SeparateTables.child_child (h : SeparateTables S root) (hd : StoredThrough S root d)
    (hd' : StoredThrough S root d') (hc : child ∈ d.children) (hc' : child' ∈ d'.children)
    (same : fold child.table = fold child'.table) : d = d' :=
  h.apart d d' hd hd' _ (Dao.child_mem hc) _ (Dao.child_mem hc') same

end Tables

/-- The invariant of a call: the owners exist, and so do the rows of some keys. -/
structure Standing (S : Schema) (root : Dao) (held : Set (String × Value)) (db : Db) : Prop where
  owners : OwnersExist S root db
  rows : ∀ e ∈ held, (∃ d, StoredThrough S root d ∧ e.1 = d.table) ∧ e.2 ∈ db.values e.1 pk

section Steps

variable {S : Schema} {root d : Dao} {held : Set (String × Value)} {db db' : Db} {key : Value}
  (separate : SeparateTables S root) (hd : StoredThrough S root d)

include separate hd

theorem Standing.insert_row (h : Standing S root held db) {entry : Entry} {r : Row}
    (done : db.insert d.table entry = some (db', r)) (given : r.get pk = key) (hk : key ≠ .null) :
    Standing S root (insert (d.table, key) held) db' := by
  refine ⟨fun d' hd' child hc => Db.refers_insert done (h.owners d' hd' child hc) fun same => ?_, ?_⟩
  · exact absurd same.symm (separate.row_child hd hd' hc)
  · intro e he
    rcases Set.mem_insert_iff.mp he with rfl | he
    · refine ⟨⟨d, hd, rfl⟩, ?_⟩
      rw [Db.values_insert done (given ▸ hk), given]
      simp
    · exact ⟨(h.rows e he).1, Db.mem_values_insert done (h.rows e he).2⟩

theorem Standing.insert_child (h : Standing S root held db) {child : DaoChild}
    (hc : child ∈ d.children) {entry : Entry} {r : Row}
    (done : db.insert child.table entry = some (db', r)) (given : r.get "owner" = key)
    (hk : key ≠ .null) (owner : (d.table, key) ∈ held) : Standing S root held db' := by
  refine ⟨fun d' hd' child' hc' => ?_, fun e he => ?_⟩
  · refine Db.refers_insert done (h.owners d' hd' child' hc') fun same => ?_
    obtain rfl := separate.child_child hd' hd hc' hc same
    rw [given]
    exact ⟨hk, (h.rows _ owner).2⟩
  · exact ⟨(h.rows e he).1, Db.mem_values_insert done (h.rows e he).2⟩

theorem Standing.update_row (h : Standing S root held db) {entry : Entry} {count : Nat}
    (keyless : ∀ e ∈ entry, fold pk ≠ fold e.1)
    (done : db.update d.table entry pk key = some (db', count)) : Standing S root held db' := by
  refine ⟨fun d' hd' child hc => ?_, fun e he => ?_⟩
  · refine Db.refers_update done (h.owners d' hd' child hc) (fun same => ?_) fun _ => keyless
    exact absurd same.symm (separate.row_child hd hd' hc)
  · rw [Db.values_update done fun _ => keyless]
    exact h.rows e he

theorem Standing.delete_child (h : Standing S root held db) {child : DaoChild}
    (hc : child ∈ d.children) {count : Nat}
    (done : db.delete child.table "owner" key = some (db', count)) : Standing S root held db' := by
  refine ⟨fun d' hd' child' hc' => ?_, fun e he => ?_⟩
  · exact Db.refers_delete done (h.owners d' hd' child' hc') (separate.row_child hd' hd hc)
  · obtain ⟨⟨d', hd', main⟩, row⟩ := h.rows e he
    refine ⟨⟨d', hd', main⟩, ?_⟩
    rw [Db.values_delete_other done (main ▸ separate.row_child hd' hd hc)]
    exact row

end Steps

end Harpia
