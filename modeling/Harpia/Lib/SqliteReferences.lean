import Harpia.Lib.SqliteWhere

namespace Sqlite

theorem Row.get_ofPairs_other {values : List (String × Value)} {column : String}
    (h : ∀ e ∈ values, fold column ≠ fold e.1) : (Row.ofPairs values).get column = .null := by
  induction values with
  | nil => rfl
  | cons e values ih =>
    obtain ⟨here, later⟩ := List.forall_mem_cons.mp h
    rw [Row.ofPairs, Row.get_set, if_neg here, ih later]

/-- A new row has values in the columns of its table only. -/
theorem Table.column_of_accepted {t : Table} {values : List (String × Value)}
    (ok : t.accepts values) {column : String}
    (h : (t.withKey (Row.ofPairs values)).get column ≠ .null) :
    fold column ∈ foldedNames t.columns := by
  by_cases given : ∃ e ∈ values, fold column = fold e.1
  · obtain ⟨e, he, same⟩ := given
    rw [same]
    simpa using List.all_eq_true.mp ok e he
  · have absent : (Row.ofPairs values).get column = .null :=
      Row.get_ofPairs_other fun e he same => given ⟨e, he, same⟩
    unfold Table.withKey at h
    split at h
    next c hc =>
      by_cases same : fold column = fold c.name
      · rw [same]
        exact List.mem_map_of_mem (List.mem_of_find?_eq_some hc)
      · split at h
        next => rw [Row.get_set, if_neg same, absent] at h; exact absurd rfl h
        next => exact absurd absent h
    next => exact absurd absent h

namespace Db

/-- What the rows of a table hold in a column. -/
def values (db : Db) (table column : String) : List Value :=
  (db.get? table).elim [] fun t => t.rows.map fun r => t.lookup r column

/-- Every row of the first place has a value there, and one that a row has in the second. -/
def Refers (db : Db) (child parent : String × String) : Prop :=
  ∀ v ∈ db.values child.1 child.2, v ≠ .null ∧ v ∈ db.values parent.1 parent.2

variable {db db' : Db} {table column : String} {v : Value}

theorem values_congr {n : String} (h : db'.get? n = db.get? n) (column : String) :
    db'.values n column = db.values n column := by
  rw [values, values, h]

theorem values_fold {m n : String} (h : fold m = fold n) (column : String) :
    db.values m column = db.values n column := by
  rw [values, values, db.get?_congr h]

theorem values_eq {t : Table} (ht : db.get? table = some t) :
    db.values table column = t.rows.map fun r => t.lookup r column := by
  rw [values, ht, Option.elim_some]

theorem Rewritten.values_eq {rows : List Row} {t : Table} (h : Rewritten table rows db db')
    (ht : db.get? table = some t) :
    db'.values table column = rows.map fun r => t.lookup r column := by
  obtain ⟨t', ht', columns, rfl⟩ := h.get?_table ht
  rw [Db.values_eq ht']
  exact List.map_congr_left fun r _ => by rw [Table.lookup, Table.lookup, columns]

/-- The first column of an `INSERT` holds what it was given. -/
theorem insert_first {rest : List (String × Value)} {r : Row}
    (h : db.insert table ((column, v) :: rest) = some (db', r)) (hv : v ≠ .null) :
    r.get column = v := by
  obtain ⟨t, _, _, rfl, _, _⟩ := insert_rewritten h
  have given : (Row.ofPairs ((column, v) :: rest)).get column = v := by
    rw [Row.ofPairs, Row.get_set, if_pos rfl]
  rw [Table.get_withKey t (by rwa [given]), given]

section Insert

variable {entry : List (String × Value)} {r : Row} (h : db.insert table entry = some (db', r))

include h

theorem mem_values_insert {n : String} (hv : v ∈ db.values n column) : v ∈ db'.values n column := by
  obtain ⟨t, ht, _, _, _, written⟩ := insert_rewritten h
  by_cases same : fold n = fold table
  · rw [values_fold same] at hv ⊢
    rw [written.values_eq ht, List.map_append]
    rw [values_eq ht] at hv
    exact List.mem_append_left _ hv
  · rwa [values_congr (written.others n same)]

theorem values_insert (given : r.get column ≠ .null) :
    db'.values table column = db.values table column ++ [r.get column] := by
  obtain ⟨t, ht, ok, rfl, _, written⟩ := insert_rewritten h
  rw [written.values_eq ht, values_eq ht, List.map_append, List.map_singleton, Table.lookup,
    if_pos (Table.column_of_accepted ok given)]

theorem refers_insert {child parent : String × String} (refers : db.Refers child parent)
    (new : fold child.1 = fold table →
      r.get child.2 ≠ .null ∧ r.get child.2 ∈ db.values parent.1 parent.2) :
    db'.Refers child parent := by
  intro v hv
  by_cases same : fold child.1 = fold table
  · obtain ⟨given, found⟩ := new same
    rw [values_fold same, values_insert h given] at hv
    rcases List.mem_append.mp hv with hv | hv
    · rw [← values_fold same] at hv
      exact ⟨(refers v hv).1, mem_values_insert h (refers v hv).2⟩
    · cases List.mem_singleton.mp hv
      exact ⟨given, mem_values_insert h found⟩
  · obtain ⟨_, _, _, _, _, written⟩ := insert_rewritten h
    rw [values_congr (written.others _ same)] at hv
    exact ⟨(refers v hv).1, mem_values_insert h (refers v hv).2⟩

end Insert

section Update

variable {entry : List (String × Value)} {key : String} {count : Nat}
  (h : db.update table entry key v = some (db', count))

include h

theorem values_update {n : String}
    (kept : fold n = fold table → ∀ e ∈ entry, fold column ≠ fold e.1) :
    db'.values n column = db.values n column := by
  obtain ⟨t, ht, _, _, written⟩ := update_rewritten h
  by_cases same : fold n = fold table
  · rw [values_fold same, values_fold same, written.values_eq ht, values_eq ht, Table.assigned,
      List.map_map]
    refine List.map_congr_left fun r _ => ?_
    rw [Function.comp_apply]
    split
    · rw [Table.lookup, Table.lookup, Row.get_assign_other r (kept same)]
    · rfl
  · rw [values_congr (written.others n same)]

theorem refers_update {child parent : String × String} (refers : db.Refers child parent)
    (childKept : fold child.1 = fold table → ∀ e ∈ entry, fold child.2 ≠ fold e.1)
    (parentKept : fold parent.1 = fold table → ∀ e ∈ entry, fold parent.2 ≠ fold e.1) :
    db'.Refers child parent := by
  intro w hw
  rw [values_update h childKept] at hw
  rw [values_update h parentKept]
  exact refers w hw

end Update

section Delete

variable {key : String} {count : Nat} (h : db.delete table key v = some (db', count))

include h

theorem mem_of_values_delete {n : String} {w : Value} (hw : w ∈ db'.values n column) :
    w ∈ db.values n column := by
  obtain ⟨t, ht, _, written⟩ := delete_rewritten h
  by_cases same : fold n = fold table
  · rw [values_fold same] at hw ⊢
    rw [written.values_eq ht] at hw
    rw [values_eq ht]
    exact (List.filter_sublist.map _).subset hw
  · rwa [values_congr (written.others n same)] at hw

/-- The value that the statement is about is gone. -/
theorem not_mem_values_delete (hv : v ≠ .null) : v ∉ db'.values table key := by
  obtain ⟨t, ht, _, written⟩ := delete_rewritten h
  rw [written.values_eq ht]
  intro hm
  obtain ⟨r, hr, found⟩ := List.mem_map.mp hm
  have missed := (List.mem_filter.mp hr).2
  simp [Table.hits, hv, found] at missed

theorem mem_values_delete {w : Value} (hw : w ∈ db.values table key) (other : w ≠ v) :
    w ∈ db'.values table key := by
  obtain ⟨t, ht, _, written⟩ := delete_rewritten h
  rw [values_eq ht] at hw
  obtain ⟨r, hr, rfl⟩ := List.mem_map.mp hw
  rw [written.values_eq ht]
  refine List.mem_map_of_mem (List.mem_filter.mpr ⟨hr, ?_⟩)
  simp [Table.hits, other]

theorem values_delete_other {n : String} (apart : fold n ≠ fold table) :
    db'.values n column = db.values n column := by
  obtain ⟨_, _, _, written⟩ := delete_rewritten h
  exact values_congr (written.others n apart) column

theorem refers_delete {child parent : String × String} (refers : db.Refers child parent)
    (apart : fold parent.1 ≠ fold table) : db'.Refers child parent := by
  intro w hw
  rw [values_delete_other h apart]
  exact refers w (mem_of_values_delete h hw)

end Delete

end Db

end Sqlite
