import Harpia.Lib.SqliteRebuild

namespace Sqlite

theorem Table.mem_names_iff (t : Table) {n : String} :
    n ∈ t.names ↔ ∃ c ∈ t.columns, c.name = n := List.mem_map

theorem Table.fold_mem {t : Table} {n : String} (h : n ∈ t.names) :
    fold n ∈ foldedNames t.columns := by
  obtain ⟨c, hc, rfl⟩ := t.mem_names_iff.mp h
  exact List.mem_map_of_mem hc

/-- Column names that differ only in case are the same. -/
theorem Table.names_unique {t : Table} {m n : String} (hm : m ∈ t.names) (hn : n ∈ t.names)
    (h : fold m = fold n) : m = n := by
  obtain ⟨c, hc, rfl⟩ := t.mem_names_iff.mp hm
  obtain ⟨d, hd, rfl⟩ := t.mem_names_iff.mp hn
  rw [List.inj_on_of_nodup_map t.names_nodup hc hd h]

theorem addColumn_columns {t t' : Table} {c : ColumnDef} (h : t.addColumn c = some t') :
    t'.columns = t.columns ++ [c] := by
  unfold Table.addColumn at h
  split at h
  · cases Option.some.inj h
    rfl
  · simp at h

theorem addColumn_names {t t' : Table} {c : ColumnDef} (h : t.addColumn c = some t') {n : String} :
    n ∈ t'.names ↔ n ∈ t.names ∨ n = c.name := by
  simp [Table.names, addColumn_columns h]

theorem dropColumn_names {t t' : Table} {column : String} (h : t.dropColumn column = some t')
    {n : String} : n ∈ t'.names ↔ n ∈ t.names ∧ fold n ≠ fold column := by
  unfold Table.dropColumn at h
  split at h
  · simp at h
  · split at h
    · cases Option.some.inj h
      simp only [Table.names, List.mem_map, List.mem_filter, decide_eq_true_eq]
      constructor
      · rintro ⟨c, ⟨hc, hne⟩, rfl⟩
        exact ⟨⟨c, hc, rfl⟩, hne⟩
      · rintro ⟨⟨c, hc, rfl⟩, hne⟩
        exact ⟨c, ⟨hc, hne⟩, rfl⟩
    · simp at h

theorem renameColumn_columns {t t' : Table} {old new : String}
    (h : t.renameColumn old new = some t') :
    t'.columns = t.columns.map fun c => { c with name := renamed old new c.name } := by
  unfold Table.renameColumn at h
  split at h
  · cases Option.some.inj h
    rfl
  · simp at h

theorem renameColumn_names {t t' : Table} {old new : String}
    (h : t.renameColumn old new = some t') (hold : old ∈ t.names) {n : String} :
    n ∈ t'.names ↔ n ∈ t.names ∧ n ≠ old ∨ n = new := by
  rw [Table.mem_names_iff, renameColumn_columns h]
  simp only [List.mem_map, exists_exists_and_eq_and]
  constructor
  · rintro ⟨c, hc, rfl⟩
    have hm : c.name ∈ t.names := List.mem_map_of_mem hc
    by_cases he : fold c.name = fold old
    · exact .inr (by rw [renamed, if_pos he])
    · rw [renamed, if_neg he]
      exact .inl ⟨hm, fun hn => he (by rw [hn])⟩
  · rintro (⟨hn, hne⟩ | rfl)
    · obtain ⟨c, hc, rfl⟩ := t.mem_names_iff.mp hn
      refine ⟨c, hc, ?_⟩
      rw [renamed, if_neg fun he => hne (Table.names_unique hn hold he)]
    · obtain ⟨c, hc, rfl⟩ := t.mem_names_iff.mp hold
      exact ⟨c, hc, by rw [renamed, if_pos rfl]⟩

theorem insert_columns {t t' : Table} {r : Row} (h : t.insert r = some t') :
    t'.columns = t.columns ∧ t'.key = t.key := by
  unfold Table.insert at h
  split at h
  · cases Option.some.inj h
    exact ⟨rfl, rfl⟩
  · simp at h

theorem insertAll_columns {rs : List Row} {t t' : Table} (h : t.insertAll rs = some t') :
    t'.columns = t.columns ∧ t'.key = t.key := by
  induction rs generalizing t with
  | nil =>
    cases Option.some.inj h
    exact ⟨rfl, rfl⟩
  | cons r rs ih =>
    obtain ⟨t₁, h₁, h₂⟩ := Option.bind_eq_some_iff.mp h
    obtain ⟨hc, hk⟩ := insert_columns h₁
    obtain ⟨hc', hk'⟩ := ih h₂
    exact ⟨hc'.trans hc, hk'.trans hk⟩

theorem rebuiltTable_columns {C : Casting} {columns : List ColumnDef} {key : List String}
    {targets : List (String × Expr)} {old new : Table}
    (h : rebuiltTable C columns key targets old = some new) :
    new.columns = columns ∧ new.key = key := by
  obtain ⟨empty, hc, h⟩ := Option.bind_eq_some_iff.mp h
  split at h
  · obtain ⟨hcols, hkey⟩ := insertAll_columns h
    obtain ⟨hcols', hkey', -⟩ := create_columns hc
    exact ⟨hcols.trans hcols', hkey.trans hkey'⟩
  · simp at h

/-- A column statement on a live table. -/
theorem exec_alter {C : Casting} {db db' : Db} {table : String} {s : Stmt}
    {op : Table → Option Table}
    (hs : exec C s db = (db.get? table).bind fun t => (op t).map (db.put table))
    (h : exec C s db = some db') :
    ∃ t t', db.get? table = some t ∧ op t = some t' ∧ db' = db.put table t' := by
  rw [hs] at h
  obtain ⟨t, ht, h⟩ := Option.bind_eq_some_iff.mp h
  obtain ⟨t', ht', rfl⟩ := Option.map_eq_some_iff.mp h
  exact ⟨t, t', ht, ht', rfl⟩

theorem exec_insertOrReplace {C : Casting} {db db' : Db} {table : String}
    {values : List (String × Value)} (h : exec C (.insertOrReplace table values) db = some db') :
    ∃ t t', db.get? table = some t ∧ t'.columns = t.columns ∧ db' = db.put table t' := by
  obtain ⟨t, ht, h⟩ := Option.bind_eq_some_iff.mp h
  split at h
  · obtain ⟨t', hi, rfl⟩ := Option.map_eq_some_iff.mp h
    refine ⟨t, t', ht, ?_, rfl⟩
    unfold Table.insertOrReplace at hi
    split at hi
    · cases Option.some.inj hi
      rfl
    · simp at hi
  · simp at h

/-- `INSERT OR REPLACE` of a row that replaces itself may be repeated. -/
theorem insertOrReplace_again {t t' : Table} {r : Row} (h : t.insertOrReplace r = some t')
    (self : t.conflicts r r) : t'.insertOrReplace r = some t' ∧ t'.columns = t.columns := by
  unfold Table.insertOrReplace at h
  split at h
  next valid =>
    cases Option.some.inj h
    refine ⟨?_, rfl⟩
    have kept : ((t.rows.filter fun r' => !t.conflicts r r') ++ [r]).filter
        (fun r' => !t.conflicts r r') ++ [r] = (t.rows.filter fun r' => !t.conflicts r r') ++ [r] := by
      simp [self]
    have valid' := valid
    rw [← kept] at valid'
    refine (dif_pos valid').trans (congrArg some ?_)
    simp only [Table.conflicts] at kept ⊢
    simp only [kept]
  next => simp at h

theorem mem_names_renameTable {C : Casting} {db db' : Db} {old new : String}
    (h : exec C (.renameTable old new) db = some db') (hold : old ∈ db.names) {n : String} :
    n ∈ db'.names ↔ n ∈ db.names ∧ n ≠ old ∨ n = new := by
  obtain ⟨-, t, ht, hfree, rfl⟩ := exec_renameTable h
  have hne : fold new ≠ fold old := by
    intro hf
    rw [db.get?_congr hf, ht] at hfree
    simp at hfree
  rw [Db.mem_names_put, Db.mem_names_erase, Db.get?_erase, if_neg hne]
  simp only [hfree, and_true]
  refine or_congr (and_congr_right fun hn => ?_) Iff.rfl
  exact ⟨fun hf he => hf (congrArg fold he), fun hn' hf => hn' (Db.names_unique hn hold hf)⟩

/-- `CREATE TABLE IF NOT EXISTS`: a live table stays as it is. -/
theorem exec_createIfMissing {C : Casting} {db db' : Db} {name : String} {columns : List ColumnDef}
    {key : List String} (h : exec C (.createTable true name columns key) db = some db') :
    (∃ t, db.get? name = some t ∧ db' = db) ∨
      ∃ t, db.get? name = none ∧ Table.create columns key = some t ∧ db' = db.put name t := by
  rcases (exec_createTable h).2 with ⟨-, ⟨t, ht⟩, same⟩ | missing
  · exact .inl ⟨t, ht, same⟩
  · exact .inr missing

end Sqlite
