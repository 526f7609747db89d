import Harpia.Lib.SqliteColumns

namespace Sqlite

/-- A value carried into a column: as it was, or cast to the type of the column. -/
def Carried (C : Casting) (type : SqlType) (v v' : Value) : Prop := v' = v ∨ v' = C.cast type v

theorem Carried.refl (C : Casting) (type : SqlType) (v : Value) : Carried C type v v := .inl rfl

theorem Carried.trans {C : Casting} {type : SqlType} {v₁ v₂ v₃ : Value}
    (h₁ : Carried C type v₁ v₂) (h₂ : Carried C type v₂ v₃) : Carried C type v₁ v₃ := by
  rcases h₁ with rfl | rfl
  · exact h₂
  · rcases h₂ with rfl | rfl
    · exact .inr rfl
    · exact .inr (C.cast_cast type v₁)

theorem Row.get_ofPairs {ps : List (String × Value)} (nodup : (ps.map fun e => fold e.1).Nodup)
    {e : String × Value} (he : e ∈ ps) : (Row.ofPairs ps).get e.1 = e.2 := by
  induction ps with
  | nil => simp at he
  | cons p ps ih =>
    obtain ⟨hp, nodup⟩ := List.nodup_cons.mp nodup
    rw [Row.ofPairs, Row.get_set]
    rcases List.mem_cons.mp he with rfl | he
    · rw [if_pos rfl]
    · have hne : fold e.1 ≠ fold p.1 := fun h => hp (List.mem_map.mpr ⟨e, he, h⟩)
      rw [if_neg hne, ih nodup he]

theorem Valid.sublist {columns : List ColumnDef} {key : List String} {rows rows' : List Row}
    (h : Valid columns key rows) (hs : rows'.Sublist rows) : Valid columns key rows' :=
  ⟨fun c hc hn r hr => h.notNull c hc hn r (hs.subset hr),
    fun c hc hp r hr => h.integer c hc hp r (hs.subset hr),
    fun c hc hu => (h.unique c hc hu).sublist hs, fun hk => (h.key hk).sublist hs⟩

variable {t : Table}

theorem Table.find_of_mem {c : ColumnDef} (hc : c ∈ t.columns) : t.find c.name = some c := by
  have found : (t.find c.name).isSome := List.find?_isSome.mpr ⟨c, hc, by simp⟩
  obtain ⟨d, hd⟩ := Option.isSome_iff_exists.mp found
  have hf : fold d.name = fold c.name := by simpa using List.find?_some hd
  rw [hd, List.inj_on_of_nodup_map t.names_nodup (List.mem_of_find?_eq_some hd) hc hf]

theorem addColumn_of_free {c : ColumnDef} (free : ∀ n ∈ t.names, fold n ≠ fold c.name)
    (plain : c.notNull = false ∧ c.unique = false ∧ c.pk = false) :
    ∃ t', t.addColumn c = some t' ∧ t'.columns = t.columns ++ [c] ∧ t'.key = t.key ∧
      t'.rows = t.rows.map fun r => r.set c.name .null := by
  have hn : fold c.name ∉ foldedNames t.columns := by
    intro hm
    obtain ⟨d, hd, he⟩ := List.mem_map.mp hm
    exact free d.name (List.mem_map_of_mem hd) he
  unfold Table.addColumn
  rw [dif_pos ⟨hn, plain⟩]
  exact ⟨_, rfl, rfl, rfl, rfl⟩

theorem dropColumn_of_plain {c : ColumnDef} (hc : c ∈ t.columns)
    (plain : c.pk = false ∧ c.unique = false) (hk : t.key = []) (hl : 1 < t.columns.length) :
    ∃ t', t.dropColumn c.name = some t' ∧
      t'.columns = t.columns.filter (fun d => fold d.name ≠ fold c.name) ∧ t'.key = t.key ∧
      t'.rows = t.rows := by
  have guard : c.pk = false ∧ c.unique = false ∧ fold c.name ∉ t.key.map fold ∧
      1 < t.columns.length := ⟨plain.1, plain.2, by simp [hk], hl⟩
  unfold Table.dropColumn
  rw [Table.find_of_mem hc]
  simp only
  rw [dif_pos guard]
  exact ⟨_, rfl, rfl, rfl, rfl⟩

theorem renameColumn_of_free {old new : String} (hold : old ∈ t.names)
    (free : ∀ n ∈ t.names, fold n = fold new → n = old) :
    ∃ t', t.renameColumn old new = some t' ∧ t'.key = t.key.map (renamed old new) ∧
      t'.rows = t.rows.map fun r => r.set new (r.get old) := by
  have apart : ∀ c ∈ t.columns, fold c.name ≠ fold old → fold c.name ≠ fold new := by
    intro c hc hne he
    exact hne (by rw [free c.name (List.mem_map_of_mem hc) he])
  have nodup : (t.columns.map fun c => fold (renamed old new c.name)).Nodup := by
    refine List.Nodup.map_on ?_ (List.Nodup.of_map _ t.names_nodup)
    intro c hc d hd he
    refine List.inj_on_of_nodup_map t.names_nodup hc hd ?_
    by_cases h₁ : fold c.name = fold old
    · by_cases h₂ : fold d.name = fold old
      · rw [h₁, h₂]
      · rw [fold_renamed_of_eq h₁, renamed, if_neg h₂] at he
        exact absurd he.symm (apart d hd h₂)
    · by_cases h₂ : fold d.name = fold old
      · rw [fold_renamed_of_eq h₂, renamed, if_neg h₁] at he
        exact absurd he (apart c hc h₁)
      · rwa [renamed, renamed, if_neg h₁, if_neg h₂] at he
  unfold Table.renameColumn
  rw [dif_pos ⟨Table.fold_mem hold, nodup⟩]
  exact ⟨_, rfl, rfl, rfl⟩

theorem Table.withKey_of_valid {rows : List Row} (h : Valid t.columns t.key rows) {r : Row}
    (hr : r ∈ rows) : t.withKey r = r := by
  unfold Table.withKey
  split
  next c hc =>
    have hi := h.integer c (List.mem_of_find?_eq_some hc) (List.find?_some hc) r hr
    rw [if_neg]
    intro hn
    rw [hn] at hi
    simp [Value.isInt] at hi
  next => rfl

theorem insert_of_valid {r : Row} (h : Valid t.columns t.key (t.rows ++ [r])) :
    ∃ t', t.insert r = some t' ∧ t'.columns = t.columns ∧ t'.key = t.key ∧
      t'.rows = t.rows ++ [r] := by
  have same : t.withKey r = r := Table.withKey_of_valid h (by simp)
  unfold Table.insert
  rw [same, dif_pos h]
  exact ⟨_, rfl, rfl, rfl, rfl⟩

theorem insertAll_of_valid {rs : List Row} (h : Valid t.columns t.key (t.rows ++ rs)) :
    ∃ t', t.insertAll rs = some t' ∧ t'.rows = t.rows ++ rs := by
  induction rs generalizing t with
  | nil => exact ⟨t, rfl, by simp⟩
  | cons r rs ih =>
    have first : Valid t.columns t.key (t.rows ++ [r]) :=
      h.sublist (List.Sublist.append_left (by simp) _)
    obtain ⟨t₁, h₁, hcols, hkey, hrows⟩ := insert_of_valid first
    have rest : Valid t₁.columns t₁.key (t₁.rows ++ rs) := by
      rw [hcols, hkey, hrows, List.append_assoc]
      exact h
    obtain ⟨t', h', hrows'⟩ := ih rest
    refine ⟨t', ?_, ?_⟩
    · rw [Table.insertAll, h₁, Option.bind_some, h']
    · rw [hrows', hrows, List.append_assoc]
      rfl

theorem create_of_nodup (columns : List ColumnDef) (key : List String)
    (nodup : (foldedNames columns).Nodup) (hkey : ∀ k ∈ key, fold k ∈ foldedNames columns) :
    ∃ empty, Table.create columns key = some empty := by
  unfold Table.create
  rw [dif_pos ⟨nodup, hkey⟩]
  exact ⟨_, rfl⟩

/-- A rebuild succeeds where the copied rows satisfy the constraints of the new table. -/
theorem rebuiltTable_of_valid {C : Casting} {columns : List ColumnDef} {key : List String}
    {targets : List (String × Expr)} {old : Table} (nodup : (foldedNames columns).Nodup)
    (hkey : ∀ k ∈ key, fold k ∈ foldedNames columns)
    (htargets : ∀ e ∈ targets, fold e.1 ∈ foldedNames columns)
    (hv : Valid columns key (selectRows C old targets)) :
    ∃ new, rebuiltTable C columns key targets old = some new ∧
      new.rows = selectRows C old targets := by
  obtain ⟨empty, hc⟩ := create_of_nodup columns key nodup hkey
  obtain ⟨hcols, hk, hrows⟩ := create_columns hc
  have filled : Valid empty.columns empty.key (empty.rows ++ selectRows C old targets) := by
    rw [hcols, hk, hrows]
    exact hv
  obtain ⟨new, hnew, hrows'⟩ := insertAll_of_valid filled
  refine ⟨new, ?_, by rw [hrows', hrows]; rfl⟩
  rw [rebuiltTable, hc, Option.bind_some, if_pos, hnew]
  simpa using htargets

/-- A row replaces what it conflicts with, where the key is the only constraint. -/
theorem insertOrReplace_of_plain {r : Row}
    (plain : ∀ c ∈ t.columns, c.notNull = false ∧ c.unique = false ∧ c.pk = false) :
    ∃ t', t.insertOrReplace r = some t' ∧ t'.columns = t.columns ∧ t'.key = t.key := by
  have valid : Valid t.columns t.key ((t.rows.filter fun r' => !t.conflicts r r') ++ [r]) := by
    refine ⟨?_, ?_, ?_, ?_⟩
    · intro c hc hn
      simp [(plain c hc).1] at hn
    · intro c hc hp
      simp [(plain c hc).2.2] at hp
    · intro c hc hu
      simp [(plain c hc).2.1, (plain c hc).2.2] at hu
    · intro hk
      refine List.pairwise_append.mpr ⟨(t.valid.key hk).sublist List.filter_sublist, by simp, ?_⟩
      intro r' hr' r'' hr'' hclash
      obtain rfl := List.mem_singleton.mp hr''
      have free := (List.mem_filter.mp hr').2
      simp [Table.conflicts, hk, hclash] at free
  unfold Table.insertOrReplace
  rw [dif_pos valid]
  exact ⟨_, rfl, rfl, rfl⟩

end Sqlite
