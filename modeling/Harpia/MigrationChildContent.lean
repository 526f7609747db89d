import Harpia.MigrationContent

namespace Harpia

open Text Sqlite

/-- The plan of the kind rebuilds a table with these columns. -/
def ChildShape.fires (shape : ChildShape) (columns : List ColumnDef) : Bool :=
  match shape with
  | .repeated valSql => drifted (liveTypes columns) [("value", valSql)]
  | .map keySql valSql => drifted (liveTypes columns) [("key", keySql), ("value", valSql)]
  | .link _ => false
  | .composed cs => drifted (liveTypes columns) (cs.map fun c => (c.name, c.sqlType)) ||
      (liveTypes columns).any fun l => l.1 ∉ "owner" :: "ordinal" :: cs.map Column.name

/-- The columns a rebuild copies and no plan adds. -/
def ChildShape.copied : ChildShape → List String
  | .map .. => ["owner", "key", "value"]
  | .repeated _ | .link _ => ["owner", "ordinal", "value"]
  | .composed _ => ["owner", "ordinal"]

/-- A target's value where a column still to be added is `NULL`. -/
def readTarget (C : Casting) (names : List String) (r : Row) : Expr → Value
  | .column n => if n ∈ names then r.get n else .null
  | .cast n type => C.cast type (if n ∈ names then r.get n else .null)

def copiedRows (C : Casting) (shape : ChildShape) (t : Table) : List Row :=
  t.rows.map fun r => Row.ofPairs (shape.targets.map fun e => (e.1, readTarget C t.names r e.2))

/-- What a version must find in a live child table. -/
structure ChildReady (C : Casting) (shape : ChildShape) (t : Table) : Prop where
  /-- element columns are spelled as they are declared -/
  apart : ∀ cs, shape = .composed cs → ∀ n ∈ t.names, ∀ c ∈ cs, fold n = fold c.name → n = c.name
  /-- where the table is rebuilt, it has what is copied, and the copies satisfy the key -/
  rebuilds : shape.fires t.columns → (∀ n ∈ shape.copied, n ∈ t.names) ∧
    Valid shape.columns shape.key (copiedRows C shape t)

/-- Every row is there, its declared columns as they were or cast. -/
structure ChildCarries (C : Casting) (shape : ChildShape) (t t' : Table) : Prop where
  names : ∀ c ∈ shape.columns, c.name ∈ t.names → c.name ∈ t'.names
  rows : List.Forall₂ (fun r r' => ∀ c ∈ shape.columns, c.name ∈ t.names →
    Carried C c.type (r.get c.name) (r'.get c.name)) t.rows t'.rows

section

variable {C : Casting} {shape : ChildShape} {t t' t'' : Table}

theorem ChildCarries.refl (C : Casting) (shape : ChildShape) (t : Table) :
    ChildCarries C shape t t :=
  ⟨fun _ _ h => h, List.forall₂_same.mpr fun _ _ c _ _ => .refl C c.type _⟩

theorem ChildCarries.trans (h₁ : ChildCarries C shape t t') (h₂ : ChildCarries C shape t' t'') :
    ChildCarries C shape t t'' where
  names c hc hn := h₂.names c hc (h₁.names c hc hn)
  rows := List.Forall₂.comp
    (fun _ _ _ hr hr' c hc hn => (hr c hc hn).trans (hr' c hc (h₁.names c hc hn))) h₁.rows h₂.rows

/-- Each declared column is copied from the column of its name. -/
theorem targets_columns (shape : ChildShape) :
    List.Forall₂ (fun (e : String × Expr) (c : ColumnDef) => e.1 = c.name ∧
      (e.2 = .column c.name ∨ e.2 = .cast c.name c.type)) shape.targets shape.columns := by
  cases shape with
  | map => simp [ChildShape.targets, ChildShape.columns, keyColumn]
  | repeated => simp [ChildShape.targets, ChildShape.columns, keyColumn]
  | link => simp [ChildShape.targets, ChildShape.columns, keyColumn]
  | composed cs =>
    have elements : List.Forall₂ (fun (e : String × Expr) (c : ColumnDef) => e.1 = c.name ∧
        (e.2 = .column c.name ∨ e.2 = .cast c.name c.type)) (castTargets cs)
        (cs.map Column.sqlDef) := by
      rw [castTargets, List.forall₂_map_left_iff, List.forall₂_map_right_iff]
      exact List.forall₂_same.mpr fun c _ => ⟨rfl, .inr rfl⟩
    exact .cons ⟨rfl, .inl rfl⟩ (.cons ⟨rfl, .inl rfl⟩ elements)

theorem targets_names (shape : ChildShape) :
    (shape.targets.map fun e => fold e.1) = foldedNames shape.columns := by
  have same : List.Forall₂ (· = ·) (shape.targets.map fun e => fold e.1)
      (foldedNames shape.columns) := by
    rw [foldedNames, List.forall₂_map_left_iff, List.forall₂_map_right_iff]
    exact (targets_columns shape).imp fun _ _ he => congrArg fold he.1
  rwa [List.forall₂_eq_eq_eq] at same

theorem column_of_target {e : String × Expr} (he : e ∈ shape.targets) :
    ∃ c ∈ shape.columns, e.1 = c.name ∧ (e.2 = .column c.name ∨ e.2 = .cast c.name c.type) := by
  have h := targets_columns shape
  obtain ⟨c, hz⟩ := List.exists_mem_zip_of_mem_left h.length_eq he
  exact ⟨c, (List.of_mem_zip hz).2, List.forall₂_zip h hz⟩

theorem target_of_column {c : ColumnDef} (hc : c ∈ shape.columns) :
    ∃ e ∈ shape.targets, e.1 = c.name ∧ (e.2 = .column c.name ∨ e.2 = .cast c.name c.type) := by
  have h := targets_columns shape
  obtain ⟨e, hz⟩ := List.exists_mem_zip_of_mem_right h.length_eq hc
  exact ⟨e, (List.of_mem_zip hz).1, List.forall₂_zip h hz⟩

theorem key_columns : ∀ k ∈ shape.key, fold k ∈ foldedNames shape.columns := by
  intro k hk
  have hm : k ∈ shape.columns.map ColumnDef.name := by
    cases shape with
    | map => exact List.mem_of_mem_take (i := 2) hk
    | repeated => exact List.mem_of_mem_take (i := 2) hk
    | link => exact List.mem_of_mem_take (i := 2) hk
    | composed => exact List.mem_of_mem_take (i := 2) hk
  obtain ⟨c, hc, rfl⟩ := List.mem_map.mp hm
  exact List.mem_map_of_mem hc

theorem drifted_iff {columns : List ColumnDef} {conditions : List (String × SqlType)} :
    drifted (liveTypes columns) conditions ↔
      ∃ p ∈ conditions, ∃ c ∈ columns, c.name = p.1 ∧ c.type ≠ p.2 := by
  simp [drifted, liveTypes, List.any_eq_true]

theorem fires_composed {cs : List Column} {columns : List ColumnDef} :
    (ChildShape.composed cs).fires columns ↔
      (∃ c ∈ cs, ∃ cd ∈ columns, cd.name = c.name ∧ cd.type ≠ c.sqlType) ∨
        ∃ cd ∈ columns, cd.name ∉ "owner" :: "ordinal" :: cs.map Column.name := by
  rw [ChildShape.fires, Bool.or_eq_true, drifted_iff]
  simp [liveTypes, List.any_eq_true]

/-- A table with the declared columns needs nothing. -/
theorem childReady_declared (C : Casting) (hcols : t.columns = shape.columns) :
    ChildReady C shape t ∧ shape.fires t.columns = false := by
  have unique : ∀ c ∈ shape.columns, ∀ c' ∈ shape.columns, c.name = c'.name → c = c' := by
    intro c hc c' hc' he
    have nodup := t.names_nodup
    rw [hcols] at nodup
    exact List.inj_on_of_nodup_map nodup hc hc' (congrArg fold he)
  have quiet : shape.fires t.columns = false := by
    rw [Bool.eq_false_iff]
    intro hf
    rw [hcols] at hf
    cases shape with
    | map => simp [ChildShape.fires, ChildShape.columns, keyColumn, drifted, liveTypes] at hf
    | repeated => simp [ChildShape.fires, ChildShape.columns, keyColumn, drifted, liveTypes] at hf
    | link => simp [ChildShape.fires] at hf
    | composed cs =>
      rcases fires_composed.mp hf with ⟨c, hc, cd, hcd, hn, htype⟩ | ⟨cd, hcd, hn⟩
      · have declared : c.sqlDef ∈ (ChildShape.composed cs).columns :=
          List.mem_cons_of_mem _ (List.mem_cons_of_mem _ (List.mem_map_of_mem hc))
        rw [unique cd hcd c.sqlDef declared hn] at htype
        exact htype rfl
      · refine hn ?_
        have hm := List.mem_map_of_mem (f := ColumnDef.name) hcd
        simpa [ChildShape.columns, keyColumn, Column.sqlDef] using hm
  refine ⟨⟨?_, fun hf => ?_⟩, quiet⟩
  · rintro cs rfl n hn c hc he
    obtain ⟨cd, hcd, rfl⟩ := t.mem_names_iff.mp hn
    have declared : c.sqlDef ∈ t.columns := by
      rw [hcols]
      exact List.mem_cons_of_mem _ (List.mem_cons_of_mem _ (List.mem_map_of_mem hc))
    exact Table.names_unique hn (List.mem_map_of_mem declared) he
  · rw [quiet] at hf
    simp at hf

theorem readTarget_congr {names names' : List String} {r r' : Row} {e : Expr} {n : String}
    {type : SqlType} (he : e = .column n ∨ e = .cast n type)
    (h : (if n ∈ names' then r'.get n else .null) = if n ∈ names then r.get n else .null) :
    readTarget C names' r' e = readTarget C names r e := by
  rcases he with rfl | rfl
  · exact h
  · simp only [readTarget, h]

/-- Adding an element column. -/
theorem childStep_add {cs : List Column} (h : ChildReady C (.composed cs) t)
    (plain : ∀ c ∈ cs, c.pk = false ∧ c.required = false ∧ c.unique = false)
    (nodup : (foldedNames (ChildShape.composed cs).columns).Nodup) {c : Column} (hc : c ∈ cs)
    (habs : c.name ∉ t.names) :
    ∃ t', t.addColumn c.sqlDef = some t' ∧ ChildReady C (.composed cs) t' ∧
      ChildCarries C (.composed cs) t t' ∧
      ((ChildShape.composed cs).fires t'.columns ↔ (ChildShape.composed cs).fires t.columns) := by
  have free : ∀ n ∈ t.names, fold n ≠ fold c.name := by
    intro n hn he
    exact habs (h.apart cs rfl n hn c hc he ▸ hn)
  obtain ⟨hpk, hreq, huniq⟩ := plain c hc
  obtain ⟨t', ha, hcols, hkey, hrows⟩ := addColumn_of_free (c := c.sqlDef) free
    ⟨by simp [Column.sqlDef, hreq], by simp [Column.sqlDef, huniq], hpk⟩
  have names : ∀ n, n ∈ t'.names ↔ n ∈ t.names ∨ n = c.name := fun n => addColumn_names ha
  have declared : ∀ c' ∈ cs, c'.sqlDef ∈ (ChildShape.composed cs).columns := fun c' hc' =>
    List.mem_cons_of_mem _ (List.mem_cons_of_mem _ (List.mem_map_of_mem hc'))
  have fires : (ChildShape.composed cs).fires t'.columns ↔
      (ChildShape.composed cs).fires t.columns := by
    rw [fires_composed, fires_composed, hcols]
    constructor
    · rintro (⟨c', hc', cd, hcd, hn, htype⟩ | ⟨cd, hcd, hn⟩)
      · rcases List.mem_append.mp hcd with hcd | hcd
        · exact .inl ⟨c', hc', cd, hcd, hn, htype⟩
        · rw [List.mem_singleton.mp hcd] at hn htype
          have same := List.inj_on_of_nodup_map nodup (declared c hc) (declared c' hc')
            (congrArg fold hn)
          exact absurd (congrArg ColumnDef.type same) htype
      · rcases List.mem_append.mp hcd with hcd | hcd
        · exact .inr ⟨cd, hcd, hn⟩
        · rw [List.mem_singleton.mp hcd] at hn
          refine absurd ?_ hn
          exact List.mem_cons_of_mem _ (List.mem_cons_of_mem _ (List.mem_map_of_mem hc))
    · rintro (⟨c', hc', cd, hcd, hn, htype⟩ | ⟨cd, hcd, hn⟩)
      · exact .inl ⟨c', hc', cd, List.mem_append_left _ hcd, hn, htype⟩
      · exact .inr ⟨cd, List.mem_append_left _ hcd, hn⟩
  have read : ∀ (r : Row), ∀ n ∈ (ChildShape.composed cs).columns.map ColumnDef.name,
      (if n ∈ t'.names then (r.set c.name .null).get n else .null) =
        if n ∈ t.names then r.get n else .null := by
    intro r n _
    by_cases hn : n ∈ t.names
    · rw [if_pos ((names n).mpr (.inl hn)), if_pos hn, Row.get_set, if_neg (free n hn)]
    · rw [if_neg hn]
      split
      next hn' =>
        rcases (names n).mp hn' with hn' | rfl
        · exact absurd hn' hn
        · exact Row.get_set_self _ _ _
      next => rfl
  have copies : copiedRows C (.composed cs) t' = copiedRows C (.composed cs) t := by
    rw [copiedRows, hrows, List.map_map]
    refine List.map_congr_left fun r _ => congrArg Row.ofPairs (List.map_congr_left fun e he => ?_)
    obtain ⟨cd, hcd, -, he⟩ := column_of_target he
    exact congrArg (Prod.mk e.1) (readTarget_congr he (read r cd.name (List.mem_map_of_mem hcd)))
  refine ⟨t', ha, ⟨?_, fun hf => ?_⟩, ⟨fun cd _ hn => (names _).mpr (.inl hn), ?_⟩, fires⟩
  · rintro cs' hcs n hn c' hc' he
    cases hcs
    rcases (names n).mp hn with hn | rfl
    · exact h.apart cs rfl n hn c' hc' he
    · exact congrArg ColumnDef.name (List.inj_on_of_nodup_map nodup (declared c hc)
        (declared c' hc') he)
  · obtain ⟨hlive, hv⟩ := h.rebuilds (fires.mp hf)
    rw [copies]
    exact ⟨fun n hn => (names n).mpr (.inl (hlive n hn)), hv⟩
  · rw [hrows, List.forall₂_map_right_iff]
    refine List.forall₂_same.mpr fun r _ cd _ hn => .inl ?_
    rw [Row.get_set, if_neg]
    exact free _ hn

/-- Rebuilding a table that has every declared column. -/
theorem childStep_rebuild (h : ChildReady C shape t) (hf : shape.fires t.columns)
    (nodup : (foldedNames shape.columns).Nodup)
    (complete : ∀ c ∈ shape.columns, c.name ∈ t.names) :
    ∃ t', rebuiltTable C shape.columns shape.key shape.targets t = some t' ∧
      t'.columns = shape.columns ∧ ChildCarries C shape t t' := by
  have copies : selectRows C t shape.targets = copiedRows C shape t := by
    refine List.map_congr_left fun r _ => congrArg Row.ofPairs (List.map_congr_left fun e he => ?_)
    obtain ⟨c, hc, -, he⟩ := column_of_target he
    have live := complete c hc
    refine congrArg (Prod.mk e.1) ?_
    rcases he with he | he
    · simp [he, Expr.eval, readTarget, lookup_of_live live, live]
    · simp [he, Expr.eval, readTarget, lookup_of_live live, live]
  have valid := (h.rebuilds hf).2
  rw [← copies] at valid
  have targets : ∀ e ∈ shape.targets, fold e.1 ∈ foldedNames shape.columns := by
    intro e he
    rw [← targets_names]
    exact List.mem_map.mpr ⟨e, he, rfl⟩
  obtain ⟨t', hr, hrows⟩ := rebuiltTable_of_valid nodup key_columns targets valid
  obtain ⟨hcols, -⟩ := rebuiltTable_columns hr
  refine ⟨t', hr, hcols, ⟨fun c hc _ => ?_, ?_⟩⟩
  · rw [Table.names, hcols]
    exact List.mem_map_of_mem hc
  · rw [hrows, copies, copiedRows, List.forall₂_map_right_iff]
    refine List.forall₂_same.mpr fun r _ c hc hn => ?_
    obtain ⟨e, he, hname, hexpr⟩ := target_of_column hc
    have pair : (e.1, readTarget C t.names r e.2) ∈
        shape.targets.map fun e => (e.1, readTarget C t.names r e.2) :=
      List.mem_map.mpr ⟨e, he, rfl⟩
    have hget := Row.get_ofPairs (by rw [List.map_map]; exact targets_names shape ▸ nodup) pair
    rw [hname] at hget
    rw [hget]
    rcases hexpr with hexpr | hexpr
    · exact .inl (by simp [hexpr, readTarget, hn])
    · exact .inr (by simp [hexpr, readTarget, hn])

end

end Harpia
