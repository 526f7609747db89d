import Harpia.MigrationShape

namespace Harpia

open Text Sqlite

/-- The main table and every child table have the declared shape. -/
structure Shaped (d : Declared) (db : Db) : Prop where
  main : MainShaped d db
  children : ∀ c ∈ d.children, ChildShaped c db

/-- If there is a table, it has its key column. -/
def HasKey (table : String) (db : Db) : Prop :=
  ∀ t, db.get? table = some t → "HARPIA_ID" ∈ t.names

theorem hasKey_of_mainShaped {d : Declared} {db : Db} (h : MainShaped d db) : HasKey d.table db := by
  obtain ⟨t, ht, hcols⟩ := h
  intro t' ht'
  cases Option.some.inj (ht.symm.trans ht')
  obtain ⟨c, hc, hn⟩ := List.mem_map.mp (d.hidden_declared "HARPIA_ID" (by simp [hiddenNames]))
  obtain ⟨c', hc', hn', -⟩ := (hcols c.name c.sqlType).mpr ⟨c, hc, rfl, rfl⟩
  exact t.mem_names_iff.mpr ⟨c', hc', hn'.trans hn⟩

theorem exec_version {C : Casting} {columns : List ColumnDef} {key : List String} {db db' : Db}
    (h : exec C (.createTable true versionTable columns key) db = some db') :
    Beside versionTable db db' := by
  rcases exec_createIfMissing h with ⟨-, -, rfl⟩ | ⟨t, hnone, -, rfl⟩
  · exact .refl _ _
  · exact beside_put _ _ _

theorem childTracks_listing {d : Declared} {db₀ db : Db} (h : Beside versionTable db₀ db)
    (spelled : ∀ c ∈ d.children, ∀ n ∈ db₀.names, fold n = fold c.table → n = c.table) :
    ChildTracks d db₀ ((childListing d.table db₀).map fun n => (n, n))
      (childListing d.table db) db := by
  have ne_version : ∀ n, startsWith n (d.table ++ "__") → fold n ≠ fold versionTable := by
    intro n hn
    obtain ⟨suffix, rfl⟩ := startsWith_iff.mp hn
    rw [String.append_assoc]
    exact fold_ne_versionTable d _
  have same : ∀ n, n ∈ childListing d.table db ↔ n ∈ childListing d.table db₀ := by
    intro n
    simp only [childListing, List.mem_filter]
    exact and_congr_left fun hn => h.names n (ne_version n hn)
  constructor
  · exact h.tables _ (fold_table_ne_version d)
  · intro n
    simp [childListing]
  · intro n
    rw [same]
    simp
  · intro e he
    obtain ⟨n, hn, rfl⟩ := List.mem_map.mp he
    exact h.tables n (ne_version n (List.mem_filter.mp hn).2)
  · intro c hc n hn hf
    have hne : fold n ≠ fold versionTable := by
      rw [hf]
      exact (childTable_ne hc).2.1
    exact spelled c hc n ((h.names n hne).mp hn) hf

theorem renameChildren_track {C : Casting} {d : Declared} {db₀ db : Db} {childHave : List String}
    (distinct : (d.children.map fun c => fold c.table).Nodup)
    (h : ChildTracks d db₀ ((childListing d.table db₀).map fun n => (n, n)) childHave db) :
    (Prog.fold renameChild childHave d.childRenames).Obeys (exec C) (fun _ => True) db fun have' =>
      ChildTracks d db₀ (movedChildren d db₀) have' := by
  refine Prog.obeys_mono (Prog.obeys_fold (fun rest have_ db' => rest ⊆ d.childRenames ∧
    ∃ moved, rest.foldl moveChild moved = movedChildren d db₀ ∧ ChildTracks d db₀ moved have_ db')
    ⟨List.Subset.refl _, _, rfl, h⟩ ?_) ?_
  · rintro p rest have_ db' ⟨hsub, moved, hmoved, ht⟩
    refine Prog.obeys_mono (renameChild_tracks distinct ht (hsub List.mem_cons_self)) ?_
    intro have' db'' ht'
    exact ⟨fun x hx => hsub (List.mem_cons_of_mem _ hx), _, hmoved, ht'⟩
  · rintro have' db' ⟨-, moved, rfl, ht⟩
    exact ht

theorem ddl_fold {d : Declared} {e : String × List ColumnDef × List String} (he : e ∈ d.ddl) :
    e = (d.table, d.columns.map Column.sqlDef, []) ∨
      ∃ c ∈ d.children, e = (c.table, c.shape.columns, c.shape.key) := by
  rcases List.mem_cons.mp he with rfl | he
  · exact .inl rfl
  · obtain ⟨c, hc, rfl⟩ := List.mem_map.mp he
    exact .inr ⟨c, hc, rfl⟩

/-- After the missing tables are created, the main table has its key. -/
theorem hasKey_created {d : Declared} {db db' : Db} (h : Created d.ddl db db')
    (hkey : HasKey d.table db) : HasKey d.table db' := by
  intro t ht
  rcases h.origin _ t ht with ht | ⟨e, he, hf, hc⟩
  · exact hkey t ht
  · rcases ddl_fold he with rfl | ⟨c, hc', rfl⟩
    · rw [Table.names, (create_columns hc).1]
      simpa [Column.sqlDef] using d.hidden_declared "HARPIA_ID" (by simp [hiddenNames])
    · exact absurd hf (childTable_ne hc').1

theorem adapts_created {d : Declared} {db₀ db db' : Db} {childHave : List String}
    (evolvable : Evolvable d db₀) (tracks : ChildTracks d db₀ (movedChildren d db₀) childHave db)
    (h : Created d.ddl db db') {c : Child} (hc : c ∈ d.children) {t : Table}
    (ht : db'.get? c.table = some t) : c.shape.Adapts t.columns := by
  rcases h.origin _ t ht with ht | ⟨e, he, hf, hcreate⟩
  · obtain ⟨m, hm, hfold⟩ := Db.exists_name_of_get? ht
    obtain rfl := tracks.spelled c hc m hm hfold
    have live := (tracks.current _).mp ((tracks.listed _).mpr ⟨hm, (childTable_ne hc).2.2⟩)
    obtain ⟨⟨n, m⟩, he, rfl⟩ := List.mem_map.mp live
    exact evolvable.adapts c hc m he t ((tracks.origin _ he).symm.trans ht)
  · rcases ddl_fold he with rfl | ⟨c', hc', rfl⟩
    · exact absurd hf.symm (childTable_ne hc).1
    · obtain rfl := childDeclared_unique evolvable.children_distinct hc' hc hf
      rw [(create_columns hcreate).1]
      exact (exact_columns _).adapts

/-- What one migration achieves whenever it completes. -/
theorem migration_shapes {C : Casting} {d : Declared} {db : Db} (evolvable : Evolvable d db)
    (hkey : HasKey d.table db) :
    (migration d).Obeys (exec C) (fun _ => True) db fun _ => Shaped d := by
  refine Prog.obeys_bind ⟨fun _ _ => trivial, fun db₁ h₁ => ?_⟩
  have version := exec_version (execAll_singleton h₁)
  refine Prog.obeys_bind ?_
  simp only [listChildTables, Prog.get, Prog.Obeys]
  refine Prog.obeys_bind (Prog.obeys_mono (renameChildren_track evolvable.children_distinct
    (childTracks_listing version evolvable.spelled)) fun childHave db₂ tracks => ?_)
  refine Prog.obeys_bind (Prog.obeys_mono (createTableSql_creates d db₂) ?_)
  rintro _ db₃ ⟨created, present⟩
  have key₂ : HasKey d.table db₂ := by
    intro t ht
    exact hkey t (tracks.main ▸ ht)
  obtain ⟨-, t₃, ht₃⟩ := present _ List.mem_cons_self
  refine Prog.obeys_bind (Prog.obeys_mono (migrateColumns_shapes ht₃
    (hasKey_created created key₂ t₃ ht₃) evolvable.key_kept) ?_)
  rintro _ db₄ ⟨beside, t₄, ht₄, hmain⟩
  refine Prog.obeys_bind (Prog.obeys_mono dropStale_keeps fun _ db₅ keeps => ?_)
  have stale : ∀ n ∈ sorted childHave, n ∈ db₂.names ∧ startsWith n (d.table ++ "__") :=
    fun n hn => (tracks.listed n).mp ((List.mem_insertionSort _).mp hn)
  have main₅ : db₅.get? d.table = db₄.get? d.table := by
    refine keeps _ fun m hm _ => ?_
    obtain ⟨suffix, rfl⟩ := startsWith_iff.mp (stale m hm).2
    exact (fold_child_ne suffix).symm
  have child₅ : ∀ c ∈ d.children, db₅.get? c.table = db₃.get? c.table := by
    intro c hc
    rw [keeps, beside.tables _ (childTable_ne hc).1]
    intro m hm hkeep hf
    exact hkeep (tracks.spelled c hc m (stale m hm).1 hf.symm ▸ List.mem_map_of_mem hc)
  have adapted : ∀ c ∈ d.children, ∃ t, db₅.get? c.table = some t ∧ c.shape.Adapts t.columns := by
    intro c hc
    obtain ⟨-, t, ht⟩ := present (c.table, c.shape.columns, c.shape.key)
      (List.mem_cons_of_mem _ (List.mem_map_of_mem hc))
    exact ⟨t, (child₅ c hc).trans ht, adapts_created evolvable tracks created hc ht⟩
  refine Prog.obeys_bind (Prog.obeys_mono (runPlans_shape evolvable.children_distinct adapted) ?_)
  rintro _ db₆ ⟨main₆, children₆⟩
  refine ⟨fun _ _ => trivial, fun db₇ h₇ => ?_⟩
  have stamped := fun n (hn : fold n ≠ fold versionTable) =>
    exec_frame (execAll_singleton h₇) (n := n) (by simpa [Stmt.touched] using hn)
  refine ⟨⟨t₄, ?_, hmain⟩, fun c hc => ?_⟩
  · rw [stamped _ (fold_table_ne_version d), main₆, main₅, ht₄]
  · obtain ⟨t, ht, hexact⟩ := children₆ c hc
    exact ⟨t, by rw [stamped _ (childTable_ne hc).2.1, ht], hexact⟩

/-- The states the versions of one table reach, each migrated where `P` holds, with writes to the
rows in between. -/
inductive Reached (C : Casting) (table : String) (P : Declared → Db → Prop) : Db → Prop
  | empty : Reached C table P Db.empty
  | migrated {d : Declared} {db db' : Db} (h : Reached C table P db) (hd : d.table = table)
      (hp : P d db) (hm : migrate C d db = some db') : Reached C table P db'
  | written {db db' : Db} (h : Reached C table P db) (hn : ∀ n, n ∈ db'.names ↔ n ∈ db.names)
      (hc : ∀ n, (db'.get? n).map Table.columns = (db.get? n).map Table.columns) :
      Reached C table P db'

/-- Every version that migrates successfully finds the shape it declares. -/
def AlwaysShaped (C : Casting) (table : String) (P : Declared → Db → Prop) : Prop :=
  ∀ db, Reached C table P db → ∀ d, d.table = table → P d db → ∀ db', migrate C d db = some db' →
    Shaped d db'

theorem shaped_of_migrate {C : Casting} {d : Declared} {db db' : Db} (evolvable : Evolvable d db)
    (hkey : HasKey d.table db) (h : migrate C d db = some db') : Shaped d db' := by
  obtain ⟨⟨u, db''⟩, hr, rfl⟩ := Option.map_eq_some_iff.mp h
  have after := Prog.obeys_run (migration_shapes evolvable hkey) hr
  exact after

theorem hasKey_of_reached {C : Casting} {table : String} {db : Db}
    (h : Reached C table Evolvable db) : HasKey table db := by
  induction h with
  | empty => simp [HasKey]
  | @migrated d db db' _ hd hp hm ih =>
    subst hd
    exact hasKey_of_mainShaped (shaped_of_migrate hp ih hm).main
  | written _ _ hc ih =>
    intro t' ht'
    have hcols := hc table
    rw [ht', Option.map_some] at hcols
    obtain ⟨t, ht, he⟩ := Option.map_eq_some_iff.mp hcols.symm
    rw [Table.names, ← he]
    exact ih t ht

theorem alwaysShaped_evolvable (C : Casting) (table : String) : AlwaysShaped C table Evolvable := by
  intro db h d hd hp db' hm
  subst hd
  exact shaped_of_migrate hp (hasKey_of_reached h) hm

instance (shape : ChildShape) (columns : List ColumnDef) : Decidable (shape.Exact columns) :=
  decidable_of_iff
    ((∀ c ∈ columns, c.name ∈ shape.columns.map ColumnDef.name) ∧
      ∀ c ∈ shape.columns, c.name ∈ columns.map ColumnDef.name)
    ⟨fun h _ => ⟨List.forall_mem_map.mpr h.1 _, List.forall_mem_map.mpr h.2 _⟩,
      fun h => ⟨fun _ hc => (h _).mp (List.mem_map_of_mem hc),
        fun _ hc => (h _).mpr (List.mem_map_of_mem hc)⟩⟩

instance (shape : ChildShape) (columns : List ColumnDef) : Decidable (shape.Adapts columns) := by
  unfold ChildShape.Adapts
  cases shape <;> infer_instance

instance (d : Declared) (db : Db) : Decidable (Evolvable d db) :=
  decidable_of_iff
    ((∀ c ∈ d.columns, c.renamedFrom ≠ some "HARPIA_ID") ∧
      (d.children.map fun c => fold c.table).Nodup ∧
      (∀ c ∈ d.children, ∀ n ∈ db.names, fold n = fold c.table → n = c.table) ∧
      ∀ c ∈ d.children, ∀ e ∈ movedChildren d db, e.1 = c.table → ∀ t ∈ db.get? e.2,
        c.shape.Adapts t.columns)
    (by
      constructor
      · rintro ⟨h₁, h₂, h₃, h₄⟩
        exact ⟨h₁, h₂, h₃, fun c hc n hn t ht => h₄ c hc (c.table, n) hn rfl t ht⟩
      · rintro ⟨h₁, h₂, h₃, h₄⟩
        refine ⟨h₁, h₂, h₃, fun c hc e he hn t ht => h₄ c hc e.2 ?_ t ht⟩
        rw [← hn]
        exact he)

/-- The schema of one table message that embeds nothing. -/
def tableSchema (m : Message) (allowed : ∀ v ∈ m.user, isReservedHiddenName v.name = false)
    (table : isIdentifier m.tableName)
    (flat : ∀ v ∈ m.vars, embedTarget (typeRegistry [m]) v = none) : Schema where
  messages := [m]
  names_nodup := by simp
  names_allowed := by simpa using allowed
  tables_identifier := by simpa using fun _ => table
  rank _ := 0
  rank_lt := by simp
  declared_before := by
    intro n hn v hv m' ht
    obtain rfl := List.mem_singleton.mp hn
    simp [flat v hv] at ht

/-- A version that a schema of the generator declares. -/
def Accepted (d : Declared) (_ : Db) : Prop :=
  ∃ S msg hm ht version, d = declaredOf S msg hm ht version

def taggedMessage (tags : Variable) : Message := tableMessage "user" "users" [tags]

def listTags : Variable := { name := "tags", type := .STRING, modifiers := [.REPETEABLE] }

def mapTags : Variable := { name := "tags", type := .other "MAP", typeMap := [.STRING, .STRING] }

def numberTags : Variable := { name := "tags", type := .INT64, modifiers := [.REPETEABLE] }

def listTagged : Declared :=
  declaredOf (tableSchema (taggedMessage listTags) (by decide +kernel) (by decide) (by decide))
    (taggedMessage listTags) (by simp [tableSchema]) (by decide) "v1"

def mapTagged : Declared :=
  declaredOf (tableSchema (taggedMessage mapTags) (by decide +kernel) (by decide) (by decide))
    (taggedMessage mapTags) (by simp [tableSchema]) (by decide) "v2"

def numberTagged : Declared :=
  declaredOf (tableSchema (taggedMessage numberTags) (by decide +kernel) (by decide) (by decide))
    (taggedMessage numberTags) (by simp [tableSchema]) (by decide) "v2"

/-- A list of texts becomes a list of numbers. -/
theorem shaped_numberTagged : ∃ db db', Reached intTextCasting "users" Evolvable db ∧
    migrate intTextCasting numberTagged db = some db' ∧ Shaped numberTagged db' := by
  have first : Evolvable listTagged Db.empty := by decide +kernel
  have second : ((migrate intTextCasting listTagged Db.empty).bind fun db =>
      (migrate intTextCasting numberTagged db).map fun _ => decide (Evolvable numberTagged db)) =
        some true := by
    decide +kernel
  obtain ⟨db, hm, hb⟩ := Option.bind_eq_some_iff.mp second
  obtain ⟨db', hm', he⟩ := Option.map_eq_some_iff.mp hb
  have reached : Reached intTextCasting "users" Evolvable db := .migrated .empty rfl first hm
  exact ⟨db, db', reached, hm', alwaysShaped_evolvable _ _ db reached numberTagged rfl
    (of_decide_eq_true he) db' hm'⟩

/-- A list that becomes a map keeps the columns of a list. -/
theorem not_alwaysShaped_accepted : ¬ AlwaysShaped intTextCasting "users" Accepted := by
  intro h
  have kept : ((migrate intTextCasting listTagged Db.empty).bind fun db =>
      (migrate intTextCasting mapTagged db).map fun db' =>
        decide (∀ t ∈ db'.get? "users__tags", "key" ∉ t.names)) = some true := by
    decide +kernel
  obtain ⟨db, hm, hb⟩ := Option.bind_eq_some_iff.mp kept
  obtain ⟨db', hm', he⟩ := Option.map_eq_some_iff.mp hb
  have shaped := h db (.migrated .empty rfl ⟨_, _, _, _, _, rfl⟩ hm) mapTagged rfl
    ⟨_, _, _, _, _, rfl⟩ db' hm'
  have child : (⟨"users__tags", .map .TEXT .TEXT, none⟩ : Child) ∈ mapTagged.children :=
    List.mem_cons_self
  obtain ⟨t, ht, hexact⟩ := shaped.children _ child
  exact of_decide_eq_true he t ht ((hexact "key").mpr (by simp [ChildShape.columns]))

end Harpia
