import Harpia.Lib.Prog
import Harpia.Lib.SqliteStmt

namespace Sqlite

/-- The copy that stands in for a missing `ALTER COLUMN`: create `tmp`, fill it, put it in place. -/
def rebuildStmts (tmp table : String) (columns : List ColumnDef) (key : List String)
    (targets : List (String × Expr)) : List Stmt :=
  [.createTable false tmp columns key, .insertSelect tmp targets table, .dropTable table,
    .renameTable tmp table]

/-- What a rebuild turns a table into. -/
def rebuiltTable (C : Casting) (columns : List ColumnDef) (key : List String)
    (targets : List (String × Expr)) (old : Table) : Option Table :=
  (Table.create columns key).bind fun empty =>
    if targets.all fun e => fold e.1 ∈ foldedNames columns then
      empty.insertAll (selectRows C old targets)
    else none

/-- What a completed rebuild has done to the database. -/
structure Rebuilt (C : Casting) (table : String) (columns : List ColumnDef) (key : List String)
    (targets : List (String × Expr)) (db db' : Db) : Prop where
  filled : ∃ old new, db.get? table = some old ∧
    rebuiltTable C columns key targets old = some new ∧ db'.get? table = some new
  frame : ∀ n, fold n ≠ fold table → db'.get? n = db.get? n
  names : ∀ n, n ∈ db'.names ↔ n ∈ db.names ∧ fold n ≠ fold table ∨ n = table

theorem create_columns {columns : List ColumnDef} {key : List String} {t : Table}
    (h : Table.create columns key = some t) : t.columns = columns ∧ t.key = key ∧ t.rows = [] := by
  unfold Table.create at h
  split at h
  · cases Option.some.inj h
    exact ⟨rfl, rfl, rfl⟩
  · simp at h

variable {C : Casting} {tmp table : String} {columns : List ColumnDef} {key : List String}
  {targets : List (String × Expr)} {db db' : Db}

theorem placed_frame {old new : Table} (empty : Table) (hne : fold tmp ≠ fold table)
    (free : db.get? tmp = none) (hold : db.get? table = some old)
    (hnew : rebuiltTable C columns key targets old = some new) :
    Rebuilt C table columns key targets db
      (((((db.put tmp empty).put tmp new).erase table).erase tmp).put table new) := by
  refine ⟨⟨old, new, hold, hnew, by simp⟩, ?_, ?_⟩
  · intro n hn
    simp only [Db.get?_put, Db.get?_erase, hn, ↓reduceIte]
    split
    next ht => rw [db.get?_congr ht, free]
    next => rfl
  · intro n
    have live : n ∈ db.names → fold n ≠ fold tmp := by
      intro hn he
      obtain ⟨t, ht⟩ := Db.exists_get?_of_mem_names hn
      rw [db.get?_congr he, free] at ht
      simp at ht
    simp only [Db.mem_names_put, Db.mem_names_erase, Db.get?_erase, Db.get?_put]
    have hne' : fold table ≠ fold tmp := fun he => hne he.symm
    simp only [hne', ↓reduceIte, and_true]
    constructor
    · rintro (⟨⟨(hn | ⟨rfl, -⟩) | ⟨rfl, -⟩, h₁⟩, h₂⟩ | rfl)
      · exact .inl ⟨hn, h₁⟩
      · exact absurd rfl h₂
      · exact absurd rfl h₂
      · exact .inr rfl
    · rintro (⟨hn, h₁⟩ | rfl)
      · exact .inl ⟨⟨.inl (.inl hn), h₁⟩, live hn⟩
      · exact .inr rfl

/-- The four statements, one after the other. -/
theorem execAll_rebuild_eq {old empty : Table} (hne : fold tmp ≠ fold table)
    (htmp : reserved tmp = false) (htable : reserved table = false) (free : db.get? tmp = none)
    (hold : db.get? table = some old) (hc : Table.create columns key = some empty) :
    Prog.execAll (exec C) (rebuildStmts tmp table columns key targets) db =
      (rebuiltTable C columns key targets old).map fun new =>
        ((((db.put tmp empty).put tmp new).erase table).erase tmp).put table new := by
  have hne' : fold table ≠ fold tmp := fun he => hne he.symm
  have source : (db.put tmp empty).get? table = some old := by
    rw [Db.get?_put, if_neg hne', hold]
  simp only [rebuildStmts, Prog.execAll, exec, htmp, htable, free, hc, Option.map_some,
    Option.bind_some, Db.get?_put_self, source, rebuiltTable, (create_columns hc).1,
    Bool.false_eq_true, ↓reduceIte]
  split
  · cases empty.insertAll (selectRows C old targets) with
    | none => rfl
    | some new =>
      simp [Db.get?_put, Db.get?_erase, hne, hne', hold]
  · rfl

theorem rebuild_completes {old new : Table} (hne : fold tmp ≠ fold table)
    (htmp : reserved tmp = false) (htable : reserved table = false) (free : db.get? tmp = none)
    (hold : db.get? table = some old)
    (hnew : rebuiltTable C columns key targets old = some new) :
    ∃ db', Prog.execAll (exec C) (rebuildStmts tmp table columns key targets) db = some db' ∧
      Rebuilt C table columns key targets db db' := by
  obtain ⟨empty, hc, -⟩ := Option.bind_eq_some_iff.mp hnew
  refine ⟨_, ?_, placed_frame empty hne free hold hnew⟩
  rw [execAll_rebuild_eq hne htmp htable free hold hc, hnew, Option.map_some]

theorem rebuilt_of_execAll (hne : fold tmp ≠ fold table)
    (h : Prog.execAll (exec C) (rebuildStmts tmp table columns key targets) db = some db') :
    Rebuilt C table columns key targets db db' := by
  obtain ⟨db₁, h₁, h₂⟩ := Option.bind_eq_some_iff.mp h
  obtain ⟨db₂, hs, h₃⟩ := Option.bind_eq_some_iff.mp h₂
  obtain ⟨db₃, -, h₄⟩ := Option.bind_eq_some_iff.mp h₃
  obtain ⟨db₄, hr, -⟩ := Option.bind_eq_some_iff.mp h₄
  have htable : reserved table = false := (exec_renameTable hr).1
  obtain ⟨htmp, ⟨hif, -⟩ | ⟨empty, free, hc, rfl⟩⟩ := exec_createTable h₁
  · simp at hif
  · obtain ⟨t, -, hs⟩ := Option.bind_eq_some_iff.mp hs
    obtain ⟨old, hold, -⟩ := Option.bind_eq_some_iff.mp hs
    rw [Db.get?_put, if_neg fun he => hne he.symm] at hold
    rw [execAll_rebuild_eq hne htmp htable free hold hc] at h
    obtain ⟨new, hnew, rfl⟩ := Option.map_eq_some_iff.mp h
    exact placed_frame empty hne free hold hnew

end Sqlite
