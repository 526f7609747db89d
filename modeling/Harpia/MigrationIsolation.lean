import Harpia.MigrationDeclared
import Harpia.MigrationFrame

namespace Harpia

open Text Sqlite

/-- Every table of the database has one of the given names. -/
def NamedWithin (names : List String) (db : Db) : Prop := ∀ n ∈ db.names, n ∈ names

section Within

variable {C : Casting} {names : List String} {db : Db}

theorem exec_within {g : List Stmt} (hc : ∀ s ∈ g, ∀ n ∈ s.created, n ∈ names)
    (h : NamedWithin names db) {db' : Db} (he : Prog.execAll (exec C) g db = some db') :
    NamedWithin names db' := by
  induction g generalizing db with
  | nil =>
    cases Option.some.inj he
    exact h
  | cons s g ih =>
    obtain ⟨db₁, hs, he⟩ := Option.bind_eq_some_iff.mp he
    refine ih (fun s' hs' => hc s' (List.mem_cons_of_mem _ hs')) (fun n hn => ?_) he
    rcases mem_names_exec hs hn with hn | hn
    · exact h n hn
    · exact hc s List.mem_cons_self n hn

theorem execProg_within {g : List Stmt} (hc : ∀ s ∈ g, ∀ n ∈ s.created, n ∈ names)
    (h : NamedWithin names db) :
    (Prog.exec g : Script Unit).Obeys (exec C) (fun _ => True) db fun _ => NamedWithin names :=
  ⟨fun _ _ => trivial, fun _ he => exec_within hc h he⟩

theorem forEach_within {γ : Type} {body : γ → Script Unit} {xs : List γ}
    (hb : ∀ x ∈ xs, ∀ db, NamedWithin names db →
      (body x).Obeys (exec C) (fun _ => True) db fun _ => NamedWithin names)
    (h : NamedWithin names db) :
    (Prog.forEach body xs).Obeys (exec C) (fun _ => True) db fun _ => NamedWithin names := by
  refine Prog.obeys_mono (Prog.obeys_forEach (fun rest db => NamedWithin names db ∧ rest ⊆ xs)
    ⟨h, List.Subset.refl _⟩ ?_) fun _ _ h => h.1
  rintro x rest db ⟨hd, hsub⟩
  refine Prog.obeys_mono (hb x (hsub List.mem_cons_self) db hd) fun _ _ h => ⟨h, fun y hy => ?_⟩
  exact hsub (List.mem_cons_of_mem _ hy)

theorem rebuildIf_within {plan : Plan} {tmp : String} {columns : List ColumnDef}
    {key : List String} {targets : List (String × Expr)} (hne : fold tmp ≠ fold plan.table)
    (hp : plan.statements.flatten = rebuildStmts tmp plan.table columns key targets)
    (ht : plan.table ∈ names) (force : Bool) (h : NamedWithin names db) :
    (rebuildIf force plan).Obeys (exec C) (fun _ => True) db fun _ => NamedWithin names := by
  unfold rebuildIf
  split
  · refine Prog.obeys_forEach_exec (fun _ _ _ _ => trivial) fun db' he => ?_
    rw [hp] at he
    intro n hn
    rcases ((rebuilt_of_execAll hne he).names n).mp hn with ⟨hn, -⟩ | rfl
    · exact h n hn
    · exact ht
  · exact h

theorem plain_within {s : Stmt} (hs : s.created = []) (h : NamedWithin names db) :
    (Prog.exec [s] : Script Unit).Obeys (exec C) (fun _ => True) db fun _ => NamedWithin names :=
  execProg_within (by simp [hs]) h

theorem addMissing_within {table : String} {have_ : List String} {c : ColumnDef}
    (h : NamedWithin names db) :
    (addMissing table have_ c).Obeys (exec C) (fun _ => True) db fun _ => NamedWithin names := by
  unfold addMissing
  split
  · exact h
  · exact plain_within rfl h

/-- A plan rebuilds its own table. -/
structure Plan.Rebuilds (plan : Plan) (columns : List ColumnDef) (key : List String)
    (targets : List (String × Expr)) : Prop where
  statements : ∃ tmp, fold tmp ≠ fold plan.table ∧
    plan.statements.flatten = rebuildStmts tmp plan.table columns key targets

theorem runPlan_within {plan : Plan} {columns : List ColumnDef} {key : List String}
    {targets : List (String × Expr)} (hp : plan.Rebuilds columns key targets)
    (ht : plan.table ∈ names) (h : NamedWithin names db) :
    (runPlan plan).Obeys (exec C) (fun _ => True) db fun _ => NamedWithin names := by
  obtain ⟨tmp, hne, hs⟩ := hp.statements
  refine Prog.obeys_bind ?_
  simp only [listColumnTypes, Prog.get, Prog.Obeys]
  split
  · exact rebuildIf_within hne hs ht _ h
  · split
    · exact h
    · refine Prog.obeys_bind (Prog.obeys_mono
        (forEach_within (fun c _ _ hd => addMissing_within hd) h) fun _ _ hd => ?_)
      exact rebuildIf_within hne hs ht _ hd

theorem retypePlan_rebuilds (d : Declared) :
    d.retypePlan.Rebuilds (d.columns.map Column.sqlDef) [] (castTargets d.columns) :=
  ⟨d.table ++ "__retype_tmp", fold_append_ne _ _ (by decide), by simp [Declared.retypePlan]⟩

theorem tmp_ne (shape : ChildShape) (table : String) : fold (shape.tmp table) ≠ fold table := by
  cases shape <;> exact fold_append_ne _ _ (by decide)

theorem childPlan_rebuilds {c : Child} {plan : Plan} (h : c.plan = some plan) :
    plan.table = c.table ∧ plan.Rebuilds c.shape.columns c.shape.key c.shape.targets := by
  have rebuild : (c.shape.rebuild c.table).flatten =
      rebuildStmts (c.shape.tmp c.table) c.table c.shape.columns c.shape.key c.shape.targets := rfl
  unfold Child.plan at h
  split at h
  · cases Option.some.inj h
    exact ⟨rfl, _, tmp_ne _ _, rebuild⟩
  · cases Option.some.inj h
    exact ⟨rfl, _, tmp_ne _ _, rebuild⟩
  · cases Option.some.inj h
    exact ⟨rfl, _, tmp_ne _ _, rebuild⟩
  · simp at h

theorem migrateColumns_within {d : Declared} (ht : d.table ∈ names) (h : NamedWithin names db) :
    (migrateColumns d).Obeys (exec C) (fun _ => True) db fun _ => NamedWithin names := by
  refine Prog.obeys_bind ?_
  simp only [listColumns, Prog.get, Prog.Obeys]
  refine Prog.obeys_bind (Prog.obeys_mono (Prog.obeys_fold (fun _ _ => NamedWithin names) h ?_)
    fun have₁ db₁ h₁ => ?_)
  · intro p rest have_ db hd
    unfold renameHidden
    split
    · exact hd
    · split
      · exact Prog.obeys_bind (plain_within rfl hd)
      · exact hd
  refine Prog.obeys_bind (Prog.obeys_mono (Prog.obeys_fold (fun _ _ => NamedWithin names) h₁ ?_)
    fun have₂ db₂ h₂ => ?_)
  · intro p rest have_ db hd
    unfold renameMarked
    split
    · exact Prog.obeys_bind (plain_within rfl hd)
    · exact hd
  refine Prog.obeys_bind (Prog.obeys_mono
    (forEach_within (fun c _ _ hd => addMissing_within hd) h₂) fun _ db₃ h₃ => ?_)
  refine Prog.obeys_bind (Prog.obeys_mono (forEach_within (fun c _ db hd => ?_) h₃)
    fun _ db₄ h₄ => ?_)
  · unfold dropStray
    split
    · exact hd
    · exact plain_within rfl hd
  exact runPlan_within (retypePlan_rebuilds d) ht h₄

/-- A completed migration leaves only tables that were there or that it declares. -/
theorem migration_within {d : Declared} (hv : versionTable ∈ names)
    (ht : ∀ n ∈ d.tables, n ∈ names) (h : NamedWithin names db) :
    (migration d).Obeys (exec C) (fun _ => True) db fun _ => NamedWithin names := by
  have main : d.table ∈ names := ht d.table List.mem_cons_self
  have child : ∀ c ∈ d.children, c.table ∈ names := fun c hc =>
    ht c.table (List.mem_cons_of_mem _ (List.mem_map_of_mem hc))
  refine Prog.obeys_bind (Prog.obeys_mono
    (execProg_within (by simpa [Stmt.created] using hv) h) fun _ db₁ h₁ => ?_)
  refine Prog.obeys_bind ?_
  simp only [listChildTables, Prog.get, Prog.Obeys]
  refine Prog.obeys_bind (Prog.obeys_mono (Prog.obeys_fold
    (fun rest _ db => NamedWithin names db ∧ rest ⊆ d.childRenames)
    ⟨h₁, List.Subset.refl _⟩ ?_) fun childHave db₂ h₂ => ?_)
  · rintro p rest have_ db ⟨hd, hsub⟩
    have rest_sub : rest ⊆ d.childRenames := fun x hx => hsub (List.mem_cons_of_mem _ hx)
    unfold renameChild
    split
    · refine Prog.obeys_bind (Prog.obeys_mono (execProg_within ?_ hd) fun _ _ h => ⟨h, rest_sub⟩)
      obtain ⟨c, hc, hp⟩ := List.mem_filterMap.mp (hsub List.mem_cons_self)
      obtain ⟨old, -, rfl⟩ := Option.map_eq_some_iff.mp hp
      simpa [Stmt.created] using child c (mem_evolving hc)
    · exact ⟨hd, rest_sub⟩
  refine Prog.obeys_bind (Prog.obeys_mono (forEach_within (fun s hs db hd =>
    execProg_within ?_ hd) h₂.1) fun _ db₃ h₃ => ?_)
  · obtain ⟨e, he, rfl⟩ := List.mem_map.mp hs
    rcases List.mem_cons.mp he with rfl | he
    · simpa [Stmt.created] using main
    · obtain ⟨c, hc, rfl⟩ := List.mem_map.mp he
      simpa [Stmt.created] using child c hc
  refine Prog.obeys_bind (Prog.obeys_mono (migrateColumns_within main h₃) fun _ db₄ h₄ => ?_)
  refine Prog.obeys_bind (Prog.obeys_mono (forEach_within (fun n _ db hd => ?_) h₄)
    fun _ db₅ h₅ => ?_)
  · unfold dropStale
    split
    · exact hd
    · exact plain_within rfl hd
  refine Prog.obeys_bind (Prog.obeys_mono (forEach_within (fun plan hp db hd => ?_) h₅)
    fun _ db₆ h₆ => plain_within rfl h₆)
  obtain ⟨c, hc, hp⟩ := List.mem_filterMap.mp hp
  obtain ⟨htable, hr⟩ := childPlan_rebuilds hp
  exact runPlan_within hr (htable ▸ child c (mem_evolving hc)) hd

end Within

/-- The states a set of table messages builds: their migrations, in any order and any number of
times, with writes to the rows in between. -/
inductive Built (C : Casting) (ds : List Declared) : Db → Prop
  | empty : Built C ds Db.empty
  | migrated {d : Declared} {db db' : Db} (h : Built C ds db) (hd : d ∈ ds)
      (hm : migrate C d db = some db') : Built C ds db'
  | written {db db' : Db} (h : Built C ds db) (hn : db'.names = db.names) : Built C ds db'

/-- The migration of one table, wherever it stops, leaves the tables of the others alone. -/
def Isolated (C : Casting) (ds : List Declared) : Prop :=
  ∀ db, Built C ds db → ∀ d ∈ ds, ∀ e ∈ ds, d.table ≠ e.table → ∀ n ∈ e.tables,
    ∀ db', Prog.StopsAt (exec C) (migration d) db db' → db'.get? n = db.get? n

/-- No table of a message starts with the name of another table and `__`, or is called, up to case,
like a name the other's migration works with. -/
def TablesApart (ds : List Declared) : Prop :=
  ∀ d ∈ ds, ∀ e ∈ ds, d.table ≠ e.table → ∀ n ∈ e.tables,
    startsWith n (d.table ++ "__") = false ∧ fold n ∉ d.ownNames.map fold

theorem built_within {C : Casting} {ds : List Declared} {db : Db} (h : Built C ds db) :
    NamedWithin (versionTable :: ds.flatMap Declared.tables) db := by
  induction h with
  | empty => intro n hn; simp [Db.names, Db.empty, Dict.values, Dict.empty] at hn
  | @migrated d db db' _ hd hm ih =>
    obtain ⟨⟨u, db''⟩, hr, rfl⟩ := Option.map_eq_some_iff.mp hm
    have declared : ∀ n ∈ d.tables, n ∈ versionTable :: ds.flatMap Declared.tables :=
      fun n hn => List.mem_cons_of_mem _ (List.mem_flatMap.mpr ⟨d, hd, hn⟩)
    have after := Prog.obeys_run (migration_within List.mem_cons_self declared ih) hr
    exact after
  | written _ hn ih =>
    intro n h
    exact ih n (hn ▸ h)

theorem isolated_of_tablesApart (C : Casting) (ds : List Declared)
    (distinct : (ds.map Declared.table).Nodup) (apart : TablesApart ds) : Isolated C ds := by
  intro db hb d hd e he hne n hn db' hs
  refine migration_frame hs fun m hm hfold => ?_
  obtain ⟨-, hown⟩ := apart d hd e he hne n hn
  rcases hm with hm | ⟨hm, hpre⟩
  · exact hown (hfold ▸ hm)
  · rcases List.mem_cons.mp (built_within hb m hm) with rfl | hm
    · refine hown (hfold ▸ List.mem_map_of_mem ?_)
      simp [Declared.ownNames]
    · obtain ⟨e', he', hm⟩ := List.mem_flatMap.mp hm
      by_cases hsame : d.table = e'.table
      · obtain rfl := List.inj_on_of_nodup_map distinct hd he' hsame
        refine hown (hfold ▸ List.mem_map_of_mem ?_)
        simp only [Declared.ownNames, List.mem_append, List.mem_cons]
        exact .inl (.inl (.inr (.inr hm)))
      · simp [(apart d hd e' he' hsame m hm).1] at hpre

def tableMessage (name table : String) (user : List Variable) : Message :=
  { name := name, tableName := table, user := user }

/-- Two table messages without composed fields. -/
def pairSchema (m m' : Message) (names : m.name ≠ m'.name)
    (allowed : ∀ v ∈ m.user ++ m'.user, isReservedHiddenName v.name = false)
    (tables : isIdentifier m.tableName ∧ isIdentifier m'.tableName)
    (flat : ∀ v ∈ m.vars ++ m'.vars, isScalarToken v.type) : Schema where
  messages := [m, m']
  names_nodup := by simpa using names
  names_allowed := by
    intro n hn v hv
    simp only [List.mem_cons, List.not_mem_nil, or_false] at hn
    rcases hn with rfl | rfl
    · exact allowed v (List.mem_append_left _ hv)
    · exact allowed v (List.mem_append_right _ hv)
  tables_identifier := by simpa using ⟨fun _ => tables.1, fun _ => tables.2⟩
  rank _ := 0
  rank_lt := by simp
  declared_before := by
    intro n hn v hv m'' ht
    obtain ⟨-, -, target, he, -⟩ := embedTarget_eq_some ht
    have hs : isScalarToken v.type := by
      simp only [List.mem_cons, List.not_mem_nil, or_false] at hn
      rcases hn with rfl | rfl
      · exact flat v (List.mem_append_left _ hv)
      · exact flat v (List.mem_append_right _ hv)
    simp [he, isScalarToken] at hs

def userMessage : Message := tableMessage "user" "users"
  [{ name := "email", type := .STRING }, { name := "tags", type := .STRING, modifiers := [.REPETEABLE] }]

def orderMessage : Message := tableMessage "order" "orders" [{ name := "total", type := .INT64 }]

def shopSchema : Schema :=
  pairSchema userMessage orderMessage (by decide) (by decide +kernel) (by decide) (by decide)

def shopTables : List Declared :=
  [declaredOf shopSchema userMessage (by simp [shopSchema, pairSchema]) (by decide) "v1",
    declaredOf shopSchema orderMessage (by simp [shopSchema, pairSchema]) (by decide) "v1"]

instance (ds : List Declared) : Decidable (TablesApart ds) := by
  unfold TablesApart
  infer_instance

theorem isolated_shopTables : Isolated intTextCasting shopTables :=
  isolated_of_tablesApart _ _ (by decide +kernel) (by decide +kernel)

def shortMessage : Message := tableMessage "short" "a" []

/-- Its table name extends the other one the way a child table's does. -/
def longMessage : Message := tableMessage "long" "a__b" []

def nestedNames : Schema :=
  pairSchema shortMessage longMessage (by decide) (by decide +kernel) (by decide) (by decide)

def shortTable : Declared :=
  declaredOf nestedNames shortMessage (by simp [nestedNames, pairSchema]) (by decide) "v1"

def longTable : Declared :=
  declaredOf nestedNames longMessage (by simp [nestedNames, pairSchema]) (by decide) "v1"

/-- Migrating `a` reaps the main table `a__b` of another message. -/
theorem not_isolated_nestedNames : ¬ Isolated intTextCasting [shortTable, longTable] := by
  intro h
  have lost : ((migrate intTextCasting longTable Db.empty).bind fun db₁ =>
      (migrate intTextCasting shortTable db₁).map fun db₂ =>
        ((db₁.get? "a__b").isSome, (db₂.get? "a__b").isSome)) = some (true, false) := by
    decide +kernel
  obtain ⟨db₁, h₁, hb⟩ := Option.bind_eq_some_iff.mp lost
  obtain ⟨db₂, h₂, he⟩ := Option.map_eq_some_iff.mp hb
  obtain ⟨⟨u, db₂⟩, hr, rfl⟩ := Option.map_eq_some_iff.mp h₂
  have same := h db₁ (.migrated .empty (by simp) h₁) shortTable (by simp) longTable (by simp)
    (by decide) "a__b" (by decide) db₂ (Prog.stopsAt_of_run hr)
  rw [same, Prod.mk.injEq] at he
  simp [he.1] at he

end Harpia
