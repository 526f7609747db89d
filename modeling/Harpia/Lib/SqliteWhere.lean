import Harpia.Lib.SqliteDml

namespace Sqlite

theorem Table.hits_congr {t t' : Table} (h : t'.columns = t.columns) (column : String) (v : Value) :
    t'.hits column v = t.hits column v := by
  funext r
  have same : t'.lookup r column = t.lookup r column := by rw [Table.lookup, Table.lookup, h]
  simp only [Table.hits, same]

theorem Row.get_assign_other (r : Row) {values : List (String × Value)} {column : String}
    (h : ∀ e ∈ values, fold column ≠ fold e.1) : (r.assign values).get column = r.get column := by
  induction values with
  | nil => rfl
  | cons e values ih =>
    obtain ⟨here, later⟩ := List.forall_mem_cons.mp h
    have step : r.assign (e :: values) = (r.assign values).set e.1 e.2 := rfl
    rw [step, Row.get_set, if_neg here, ih later]

theorem Row.get_assign (r : Row) {values : List (String × Value)}
    (nodup : (values.map fun e => fold e.1).Nodup) {e : String × Value} (he : e ∈ values) :
    (r.assign values).get e.1 = e.2 := by
  induction values with
  | nil => simp at he
  | cons e' values ih =>
    obtain ⟨absent, nodup⟩ := List.nodup_cons.mp nodup
    have step : r.assign (e' :: values) = (r.assign values).set e'.1 e'.2 := rfl
    rw [step, Row.get_set]
    rcases List.mem_cons.mp he with rfl | he
    · rw [if_pos rfl]
    · have apart : fold e.1 ≠ fold e'.1 := fun same =>
        absent (List.mem_map.mpr ⟨e, he, same⟩)
      rw [if_neg apart, ih nodup he]

/-- The key that the table gives a row takes the place of a `NULL`. -/
theorem Table.get_withKey (t : Table) {r : Row} {column : String} (h : r.get column ≠ .null) :
    (t.withKey r).get column = r.get column := by
  unfold Table.withKey
  split
  next c _ =>
    by_cases missing : r.get c.name = .null
    · have apart : fold column ≠ fold c.name := by
        intro same
        rw [r.get_congr same] at h
        exact h missing
      rw [if_pos missing, Row.get_set, if_neg apart]
    · rw [if_neg missing]
  next => rfl

namespace Db

/-- The rows `WHERE column = v`. -/
def chosen (db : Db) (table column : String) (v : Value) : List Row :=
  (db.get? table).elim [] fun t => t.select column v

/-- The rows that a statement `WHERE column = v` is not about. -/
def others (db : Db) (table column : String) (v : Value) : List Row :=
  (db.get? table).elim [] fun t => t.rows.filter fun r => !t.hits column v r

variable {db db' : Db} {table column : String} {v : Value}

theorem chosen_congr {n : String} (h : db'.get? n = db.get? n) (column : String) (v : Value) :
    db'.chosen n column v = db.chosen n column v := by
  rw [chosen, chosen, h]

theorem others_congr {n : String} (h : db'.get? n = db.get? n) (column : String) (v : Value) :
    db'.others n column v = db.others n column v := by
  rw [others, others, h]

/-- The table behind a rewriting, and its columns. -/
theorem Rewritten.get?_table {rows : List Row} {t : Table} (h : Rewritten table rows db db')
    (ht : db.get? table = some t) :
    ∃ t', db'.get? table = some t' ∧ t'.columns = t.columns ∧ t'.rows = rows := by
  obtain ⟨t', ht'⟩ := Option.isSome_iff_exists.mp h.live
  have columns := h.columns
  have same := h.rows_eq
  rw [Db.columns, Db.columns, ht', ht] at columns
  rw [rows_of_get? ht'] at same
  exact ⟨t', ht', by simpa using columns, same⟩

theorem Rewritten.chosen_eq {rows : List Row} {t : Table} (h : Rewritten table rows db db')
    (ht : db.get? table = some t) : db'.chosen table column v = rows.filter (t.hits column v) := by
  obtain ⟨t', ht', columns, same⟩ := h.get?_table ht
  rw [Db.chosen, ht', Option.elim_some, Table.select, same, Table.hits_congr columns]

theorem Rewritten.others_eq {rows : List Row} {t : Table} (h : Rewritten table rows db db')
    (ht : db.get? table = some t) :
    db'.others table column v = rows.filter fun r => !t.hits column v r := by
  obtain ⟨t', ht', columns, same⟩ := h.get?_table ht
  rw [Db.others, ht', Option.elim_some, same, Table.hits_congr columns]

theorem chosen_eq {t : Table} (ht : db.get? table = some t) :
    db.chosen table column v = t.rows.filter (t.hits column v) := by
  rw [chosen, ht, Option.elim_some, Table.select]

theorem others_eq {t : Table} (ht : db.get? table = some t) :
    db.others table column v = t.rows.filter fun r => !t.hits column v r := by
  rw [others, ht, Option.elim_some]

theorem hits_assign {t : Table} {values : List (String × Value)}
    (apart : ∀ e ∈ values, fold column ≠ fold e.1) (r : Row) :
    t.hits column v (r.assign values) = t.hits column v r := by
  have same : t.lookup (r.assign values) column = t.lookup r column := by
    rw [Table.lookup, Table.lookup, Row.get_assign_other r apart]
  simp only [Table.hits, same]

theorem others_update {values : List (String × Value)} {count : Nat}
    (apart : ∀ e ∈ values, fold column ≠ fold e.1)
    (h : db.update table values column v = some (db', count)) :
    db'.others table column v = db.others table column v := by
  obtain ⟨t, ht, _, _, written⟩ := update_rewritten h
  rw [written.others_eq ht, others_eq ht, Table.assigned, List.filter_map]
  have kept : (t.rows.filter ((fun r => !t.hits column v r) ∘ fun r =>
      if t.hits column v r then r.assign values else r)) =
        t.rows.filter fun r => !t.hits column v r := by
    refine List.filter_congr fun r _ => ?_
    by_cases hit : t.hits column v r
    · simp [hit, hits_assign apart r]
    · simp [hit]
  rw [kept]
  refine (List.map_congr_left fun r hr => ?_).trans (List.map_id _)
  have missed := (List.mem_filter.mp hr).2
  simp only [Bool.not_eq_true'] at missed
  rw [if_neg (by simp [missed]), id]

/-- Each row that the statement is about has been assigned the values. -/
theorem chosen_update {values : List (String × Value)} {count : Nat}
    (h : db.update table values column v = some (db', count)) {r : Row}
    (hr : r ∈ db'.chosen table column v) :
    ∃ old, r = Row.assign old values := by
  obtain ⟨t, ht, _, _, written⟩ := update_rewritten h
  rw [written.chosen_eq ht] at hr
  obtain ⟨hm, hit⟩ := List.mem_filter.mp hr
  obtain ⟨old, _, rfl⟩ := List.mem_map.mp hm
  by_cases was : t.hits column v old
  · exact ⟨old, by rw [if_pos was]⟩
  · rw [if_neg was] at hit
    exact absurd hit was

theorem others_delete {count : Nat} (h : db.delete table column v = some (db', count)) :
    db'.others table column v = db.others table column v := by
  obtain ⟨t, ht, _, written⟩ := delete_rewritten h
  rw [written.others_eq ht, others_eq ht, List.filter_filter]
  simp only [Bool.and_self]

theorem chosen_delete {count : Nat} (h : db.delete table column v = some (db', count)) :
    db'.chosen table column v = [] := by
  obtain ⟨t, ht, _, written⟩ := delete_rewritten h
  rw [written.chosen_eq ht, List.filter_filter]
  refine List.filter_eq_nil_iff.mpr fun r _ => ?_
  simp

/-- What one database holds and the other does not are the rows that have the value in one of the
places. -/
structure Pruned (places : List (String × String)) (v : Value) (db db' : Db) : Prop where
  columns : ∀ n, db'.columns n = db.columns n
  others : ∀ n, (∀ place ∈ places, fold n ≠ fold place.1) → db'.get? n = db.get? n
  rows : ∀ n t, db.get? n = some t →
    db'.rows n = t.rows.filter fun r => ∀ place ∈ places, fold n = fold place.1 → ¬ t.hits place.2 v r

theorem Pruned.refl (v : Value) (db : Db) : Pruned [] v db db where
  columns _ := rfl
  others _ _ := rfl
  rows n t ht := by
    rw [rows_of_get? ht]
    exact (List.filter_eq_self.mpr fun r _ => by simp).symm

theorem Pruned.delete {places : List (String × String)} {db₁ db₂ : Db} {count : Nat}
    (h : Pruned places v db db₁) (deleted : db₁.delete table column v = some (db₂, count)) :
    Pruned (places ++ [(table, column)]) v db db₂ := by
  obtain ⟨t₁, ht₁, -, written⟩ := delete_rewritten deleted
  refine ⟨fun n => (written.columns_all n).trans (h.columns n), fun n apart => ?_, fun n t ht => ?_⟩
  · have here : fold n ≠ fold table := apart (table, column) (List.mem_append_right _ List.mem_cons_self)
    rw [written.others n here]
    exact h.others n fun place hp => apart place (List.mem_append_left _ hp)
  · have before := h.rows n t ht
    by_cases same : fold n = fold table
    · have columns : t₁.columns = t.columns := by
        have kept := h.columns n
        rw [Db.columns, Db.columns, db₁.get?_congr same, ht₁, ht] at kept
        exact Option.some.inj kept
      rw [rows_congr db₁ same, rows_of_get? ht₁] at before
      rw [rows_congr db₂ same, written.rows_eq, before, List.filter_filter, Table.hits_congr columns]
      apply List.filter_congr
      intro r _
      rw [Bool.eq_iff_iff, decide_eq_true_iff, List.forall_mem_append]
      simp [same, and_comm]
    · rw [written.rows_other same, before]
      apply List.filter_congr
      intro r _
      rw [decide_eq_decide, List.forall_mem_append]
      simp [same]

/-- The stored row has the values it was given, but for a key in place of a `NULL`. -/
def Stores (values : List (String × Value)) (r : Row) : Prop :=
  ∀ e ∈ values, e.2 = .null ∨ r.get e.1 = e.2

theorem stores_of_insert {values : List (String × Value)} {r : Row}
    (h : db.insert table values = some (db', r)) (nodup : (values.map fun e => fold e.1).Nodup) :
    Stores values r := by
  obtain ⟨t, _, _, rfl, _, _⟩ := insert_rewritten h
  intro e he
  have given := Row.get_ofPairs nodup he
  by_cases missing : e.2 = .null
  · exact .inl missing
  · refine .inr ?_
    rw [Table.get_withKey t (by rwa [given]), given]

theorem hits_of_insert {values : List (String × Value)} {t : Table} (ok : t.accepts values)
    (hv : v ≠ .null) (given : (column, v) ∈ values) {r : Row} (same : r.get column = v) :
    t.hits column v r := by
  have named : fold column ∈ foldedNames t.columns := by
    simpa using List.all_eq_true.mp ok (column, v) given
  have found : t.lookup r column = v := by rw [Table.lookup, if_pos named, same]
  simp only [Table.hits, found, decide_eq_true_eq]
  exact ⟨hv, trivial⟩

theorem insert_where {values : List (String × Value)} {r : Row}
    (h : db.insert table values = some (db', r)) (nodup : (values.map fun e => fold e.1).Nodup)
    (hv : v ≠ .null) (given : (column, v) ∈ values) :
    db'.others table column v = db.others table column v ∧
      db'.chosen table column v = db.chosen table column v ++ [r] := by
  have stored := (stores_of_insert h nodup (column, v) given).resolve_left hv
  obtain ⟨t, ht, ok, _, _, written⟩ := insert_rewritten h
  have hit := hits_of_insert ok hv given stored
  rw [written.others_eq ht, written.chosen_eq ht, others_eq ht, chosen_eq ht, List.filter_append,
    List.filter_append]
  simp [hit]

end Db

end Sqlite
