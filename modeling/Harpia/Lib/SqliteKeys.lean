import Harpia.Lib.SqliteReferences

namespace Sqlite

theorem Table.get_withKey_of_plain (t : Table) {r : Row} {column : String}
    (plain : ∀ c ∈ t.columns, c.pk → fold column = fold c.name → r.get column ≠ .null) :
    (t.withKey r).get column = r.get column := by
  unfold Table.withKey
  split
  next c hc =>
    split
    next missing =>
      have keyed : c.pk := by simpa using List.find?_some hc
      have apart : fold column ≠ fold c.name := fun same => by
        have given := plain c (List.mem_of_find?_eq_some hc) keyed same
        rw [r.get_congr same] at given
        exact given missing
      rw [Row.get_set, if_neg apart]
    next => rfl
  next => rfl

namespace Db

variable {db db' : Db} {table column : String} {v : Value}

theorem columns_of_get? {t : Table} (ht : db.get? table = some t) :
    db.columns table = some t.columns := by
  rw [columns, ht, Option.map_some]

theorem chosen_eq_nil (h : v ∉ db.values table column) : db.chosen table column v = [] := by
  cases ht : db.get? table with
  | none => rw [chosen, ht, Option.elim_none]
  | some t =>
    rw [chosen_eq ht]
    rw [values_eq ht] at h
    apply List.filter_eq_nil_iff.mpr
    intro r hr hit
    simp only [Table.hits, decide_eq_true_eq] at hit
    exact h (List.mem_map.mpr ⟨r, hr, hit.2⟩)

theorem mem_values_of_chosen {r : Row} (h : r ∈ db.chosen table column v) :
    v ∈ db.values table column := by
  by_contra absent
  rw [chosen_eq_nil absent] at h
  cases h

/-- Rows of another value are among the others. -/
theorem chosen_eq_others {t : Table} (ht : db.get? table = some t) {w : Value} (apart : w ≠ v) :
    db.chosen table column w = (db.others table column v).filter (t.hits column w) := by
  rw [chosen_eq ht, others_eq ht, List.filter_filter]
  apply List.filter_congr
  intro r _
  by_cases hit : t.hits column w r
  · have missed : t.hits column v r = false := by
      have found := (of_decide_eq_true hit).2
      simp [Table.hits, found, apart]
    simp [hit, missed]
  · simp [hit]

section Others

variable (others : db'.others table column v = db.others table column v)
  (columns : ∀ n, db'.columns n = db.columns n) {w : Value} (apart : w ≠ v)

include others columns apart

theorem chosen_of_others : db'.chosen table column w = db.chosen table column w := by
  have names := columns table
  rw [Db.columns, Db.columns] at names
  cases ht : db.get? table with
  | none =>
    rw [ht, Option.map_none, Option.map_eq_none_iff] at names
    rw [chosen, chosen, ht, names]
  | some t =>
    rw [ht, Option.map_some] at names
    obtain ⟨t', ht', same⟩ := Option.map_eq_some_iff.mp names
    rw [chosen_eq_others ht apart, chosen_eq_others ht' apart, others, Table.hits_congr same]

theorem values_of_others (h : w ∈ db.values table column) : w ∈ db'.values table column := by
  have names := columns table
  rw [Db.columns, Db.columns] at names
  cases ht : db.get? table with
  | none =>
    rw [values, ht] at h
    cases h
  | some t =>
    rw [ht, Option.map_some] at names
    obtain ⟨t', ht', same⟩ := Option.map_eq_some_iff.mp names
    rw [values_eq ht] at h
    obtain ⟨r, hr, found⟩ := List.mem_map.mp h
    have kept_ : r ∈ db.others table column v := by
      rw [others_eq ht]
      apply List.mem_filter.mpr
      simp [hr, Table.hits, found, apart]
    rw [← others, others_eq ht'] at kept_
    rw [values_eq ht']
    refine List.mem_map.mpr ⟨r, (List.mem_filter.mp kept_).1, ?_⟩
    rw [← found, Table.lookup, Table.lookup, same]

end Others

section Insert

variable {entry : List (String × Value)} {r : Row} (h : db.insert table entry = some (db', r))

include h

/-- A row holds just what it was given where SQLite gives it no key. -/
theorem lookup_of_insert (nodup : (entry.map fun e => fold e.1).Nodup)
    (plain : ∀ cs, db.columns table = some cs → ∀ c ∈ cs, c.pk → ∀ e ∈ entry,
      fold e.1 = fold c.name → e.2 ≠ .null) :
    ∃ t, db'.get? table = some t ∧ ∀ e ∈ entry, t.lookup r e.1 = e.2 := by
  obtain ⟨t, ht, ok, rfl, _, written⟩ := insert_rewritten h
  obtain ⟨t', ht', same, _⟩ := written.get?_table ht
  refine ⟨t', ht', fun e he => ?_⟩
  have named : fold e.1 ∈ foldedNames t'.columns := by
    rw [same]
    simpa using List.all_eq_true.mp ok e he
  have given := Row.get_ofPairs nodup he
  rw [Table.lookup, if_pos named, Table.get_withKey_of_plain t, given]
  intro c hc keyed here
  rw [given]
  exact plain t.columns (columns_of_get? ht) c hc keyed e he here

/-- A row is found where it has the value. -/
theorem lookup_insert (given : r.get column ≠ .null) :
    ∃ t, db'.get? table = some t ∧ t.lookup r column = r.get column := by
  obtain ⟨t, ht, ok, rfl, _, written⟩ := insert_rewritten h
  obtain ⟨t', ht', same, _⟩ := written.get?_table ht
  refine ⟨t', ht', ?_⟩
  rw [Table.lookup, if_pos (by rw [same]; exact Table.column_of_accepted ok given)]

theorem chosen_insert (given : r.get column ≠ .null) :
    db'.chosen table column v = db.chosen table column v ++
      if r.get column = v then [r] else [] := by
  obtain ⟨t, ht, ok, rfl, _, written⟩ := insert_rewritten h
  have found : t.lookup (t.withKey (Row.ofPairs entry)) column =
      (t.withKey (Row.ofPairs entry)).get column := by
    rw [Table.lookup, if_pos (Table.column_of_accepted ok given)]
  rw [written.chosen_eq ht, chosen_eq ht, List.filter_append, List.filter_singleton, Table.hits, found]
  by_cases same : (t.withKey (Row.ofPairs entry)).get column = v
  · have some_ : v ≠ .null := same ▸ given
    simp [same, some_]
  · simp [same]

theorem get?_insert_other {n : String} (apart : fold n ≠ fold table) : db'.get? n = db.get? n := by
  obtain ⟨_, _, _, _, _, written⟩ := insert_rewritten h
  exact written.others n apart

theorem columns_insert (n : String) : db'.columns n = db.columns n := by
  obtain ⟨_, _, _, _, _, written⟩ := insert_rewritten h
  exact written.columns_all n

/-- No row had the value of a column that tells the rows apart. -/
theorem fresh_of_insert (unique : ∃ cs, db.columns table = some cs ∧
    ∃ c ∈ cs, fold c.name = fold column ∧ (c.unique ∨ c.pk)) (given : r.get column ≠ .null) :
    r.get column ∉ db.values table column := by
  obtain ⟨t, ht, ok, _, valid, _⟩ := insert_rewritten h
  obtain ⟨cs, hcs, c, hc, name, unique⟩ := unique
  rw [columns_of_get? ht] at hcs
  cases hcs
  have apart := List.pairwise_append.mp (valid.unique c hc unique)
  rw [values_eq ht]
  intro hm
  obtain ⟨r', hr', same⟩ := List.mem_map.mp hm
  have named : fold column ∈ foldedNames t.columns := name ▸ List.mem_map_of_mem hc
  rw [Table.lookup, if_pos named] at same
  refine apart.2.2 r' hr' r (List.mem_singleton_self r) fun n hn => ?_
  rw [List.mem_singleton.mp hn, r'.get_congr name, r.get_congr name, same]
  exact ⟨given, rfl⟩

end Insert

end Db

end Sqlite
