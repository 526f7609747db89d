import Harpia.MigrationPreserves

namespace Harpia

open Text Sqlite

/-- Every version that meets `P` migrates any state accepted versions reach, and keeps its data. -/
def AlwaysPreserves (C : Casting) (table : String) (P : Declared → Db → Prop) : Prop :=
  ∀ db, Reached C table Accepted db → ∀ d, d.table = table → P d db →
    ∃ db', migrate C d db = some db' ∧ Preserved C d db db'

theorem migrate_of_ready {C : Casting} {d : Declared} {db : Db} (h : Ready C d db) :
    ∃ db', migrate C d db = some db' ∧ Settled C d db db' := by
  obtain ⟨u, db', hr, settled⟩ := Prog.completes_run (migration_completes h)
  exact ⟨db', by rw [migrate, hr]; rfl, settled⟩

/-- What a restart brings to an end has carried what the first start found. -/
theorem Resumable.settled {C : Casting} {d : Declared} {db db₁ db₂ : Db}
    (h : Resumable C d db db₁) (settled : Settled C d db₁ db₂) : Settled C d db db₂ :=
  ⟨h.trans settled.resumable, settled.versioned, settled.main, settled.children⟩

/-- A migration that meets `P`, stopped and run again, completes and has kept the data. -/
def AlwaysRestarts (C : Casting) (table : String) (P : Declared → Db → Prop)
    (stops : Declared → Db → Db → Prop) : Prop :=
  ∀ db, Reached C table Accepted db → ∀ d, d.table = table → P d db →
    ∀ db₁, stops d db db₁ → ∃ db₂, migrate C d db₁ = some db₂ ∧ Preserved C d db db₂

/-- The migration stops between two groups of statements, and the next one will not rename a
declared column or child, which this one may have added. -/
structure Pauses (C : Casting) (d : Declared) (db db₁ : Db) : Prop where
  pause : Prog.PausesAt (exec C) (migration d) db db₁
  columns_stay : ∀ t, db₁.get? d.table = some t → ColumnsStay d t
  children_stay : ChildrenStay d db₁

/-- Without markers that name a declared column or child, every pause counts. -/
theorem pauses_of_undeclared {C : Casting} {d : Declared} {db db₁ : Db}
    (columns : ∀ p ∈ d.renames, p.1 ∉ d.columns.map Column.name)
    (children : ∀ p ∈ d.childRenames, p.1 ∉ d.children.map Child.table)
    (pause : Prog.PausesAt (exec C) (migration d) db db₁) : Pauses C d db db₁ :=
  ⟨pause, fun _ _ p hp => columns p (firing_subset hp), fun p hp => children p (firing_subset hp)⟩

section Decidable

variable {C : Casting} {d : Declared}

instance (t : Table) : Decidable (Drifts d t) := by
  unfold Drifts
  infer_instance

set_option synthInstance.maxSize 256 in
instance (t : Table) : Decidable (MainReady C d t) :=
  decidable_of_iff
    (t.key = [] ∧ (∀ n ∈ hiddenNames, n ∈ t.names) ∧
      (∀ n ∈ t.names, ∀ c ∈ d.columns, fold n = fold c.name →
        n = c.name ∨ c.renamedFrom = some n) ∧
      (∀ c ∈ d.columns, ∀ c' ∈ d.columns, ∀ n ∈ c.origin d t.names,
        c'.origin d t.names = some n → c = c') ∧
      (∀ cd ∈ t.columns, (∀ c ∈ d.columns, c.origin d t.names ≠ some cd.name) →
        cd.pk = false ∧ cd.unique = false) ∧
      (Drifts d t → Valid (d.columns.map Column.sqlDef) [] (retypedRows C d t)))
    ⟨fun ⟨h₁, h₂, h₃, h₄, h₅, h₆⟩ => ⟨h₁, h₂, h₃, h₄, h₅, h₆⟩,
      fun ⟨h₁, h₂, h₃, h₄, h₅, h₆⟩ => ⟨h₁, h₂, h₃, h₄, h₅, h₆⟩⟩

def ChildShape.elements : ChildShape → List Column
  | .composed cs => cs
  | _ => []

instance (shape : ChildShape) (t : Table) : Decidable (ChildReady C shape t) :=
  decidable_of_iff
    ((∀ n ∈ t.names, ∀ c ∈ shape.elements, fold n = fold c.name → n = c.name) ∧
      (shape.fires t.columns → (∀ n ∈ shape.copied, n ∈ t.names) ∧
        Valid shape.columns shape.key (copiedRows C shape t)))
    (by
      constructor
      · rintro ⟨h₁, h₂⟩
        refine ⟨?_, h₂⟩
        rintro cs rfl
        exact h₁
      · rintro ⟨h₁, h₂⟩
        refine ⟨?_, h₂⟩
        cases shape with
        | composed cs => exact h₁ cs rfl
        | map => simp [ChildShape.elements]
        | repeated => simp [ChildShape.elements]
        | link => simp [ChildShape.elements])

theorem forall_held {db : Db} {c : Child} {P : Table → Prop} :
    (∀ n ∈ d.childOrigin db c, ∀ t ∈ db.get? n, P t) ↔ ∀ t, HeldIn d db c t → P t := by
  constructor
  · rintro h t ⟨n, hn, ht⟩
    exact h n hn t ht
  · intro h n hn t ht
    exact h t ⟨n, hn, ht⟩

set_option synthInstance.maxSize 512 in
instance (db : Db) : Decidable (Fit C d db) :=
  decidable_of_iff
    ((d.columns.map fun c => fold c.name).Nodup ∧
      (d.children.map fun c => fold c.table).Nodup ∧
      (∀ c ∈ d.children, (foldedNames c.shape.columns).Nodup) ∧
      (∀ e ∈ d.ddl, reserved e.1 = false) ∧
      (∀ t ∈ db.get? versionTable, t.columns =
        [⟨"name", .TEXT, false, false, false⟩, ⟨"version", .TEXT, false, false, false⟩]) ∧
      (∀ t ∈ db.get? d.table, MainReady C d t) ∧
      (∀ t ∈ db.get? d.table, Drifts d t → (db.get? d.retypeTmp).isNone ∧
        reserved d.retypeTmp = false ∧ ∀ c ∈ d.children, fold c.table ≠ fold d.retypeTmp) ∧
      (∀ c ∈ d.children, ∀ n ∈ db.names, fold n = fold c.table → n = c.table) ∧
      (∀ c ∈ d.children, ∀ c' ∈ d.children, ∀ n ∈ d.childOrigin db c,
        d.childOrigin db c' = some n → c.table = c'.table) ∧
      (∀ c ∈ d.children, ∀ n ∈ d.childOrigin db c, ∀ t ∈ db.get? n, ChildReady C c.shape t) ∧
      ∀ c ∈ d.children, ∀ n ∈ d.childOrigin db c, ∀ t ∈ db.get? n, c.shape.fires t.columns →
        (∀ c' ∈ d.children, fold c'.table ≠ fold (c.shape.tmp c.table)) ∧
          ∀ n ∈ db.names, fold n = fold (c.shape.tmp c.table) → startsWith n (d.table ++ "__"))
    (by
      constructor
      · rintro ⟨h₁, h₂, h₃, h₄, h₅, h₆, h₇, h₈, h₉, h₁₀, h₁₁⟩
        refine ⟨h₁, h₂, h₃, h₄, h₅, h₆, fun t ht hd => ?_, h₈, ?_,
          fun c hc => forall_held.mp (h₁₀ c hc), fun c hc => forall_held.mp (h₁₁ c hc)⟩
        · exact ⟨Option.isNone_iff_eq_none.mp (h₇ t ht hd).1, (h₇ t ht hd).2⟩
        · intro c hc c' hc' n ho ho'
          exact childDeclared_unique h₂ hc hc' (congrArg fold (h₉ c hc c' hc' n ho ho'))
      · rintro ⟨h₁, h₂, h₃, h₄, h₅, h₆, h₇, h₈, h₉, h₁₀, h₁₁⟩
        refine ⟨h₁, h₂, h₃, h₄, h₅, h₆, fun t ht hd => ?_, h₈, ?_,
          fun c hc => forall_held.mpr (h₁₀ c hc), fun c hc => forall_held.mpr (h₁₁ c hc)⟩
        · exact ⟨Option.isNone_iff_eq_none.mpr (h₇ t ht hd).1, (h₇ t ht hd).2⟩
        · intro c hc c' hc' n ho ho'
          rw [h₉ c hc c' hc' n ho ho'])

instance (t : Table) : Decidable (ColumnsStay d t) := by
  unfold ColumnsStay
  infer_instance

instance (db : Db) : Decidable (ChildrenStay d db) := by
  unfold ChildrenStay
  infer_instance

instance (db : Db) : Decidable (Ready C d db) :=
  decidable_of_iff (Fit C d db ∧ (∀ t ∈ db.get? d.table, ColumnsStay d t) ∧ ChildrenStay d db)
    ⟨fun h => ⟨h.1, h.2.1, h.2.2⟩, fun h => ⟨h.fit, h.columns_stay, h.children_stay⟩⟩

end Decidable

/-- A version of the table `users`. -/
def userVersion (user : List Variable)
    (allowed : ∀ v ∈ (tableMessage "user" "users" user).user, isReservedHiddenName v.name = false)
    (flat : ∀ v ∈ (tableMessage "user" "users" user).vars,
      embedTarget (typeRegistry [tableMessage "user" "users" user]) v = none) : Declared :=
  have identifier : isIdentifier "users" := by decide
  have named : "users" ≠ "" := by decide
  declaredOf (tableSchema (tableMessage "user" "users" user) allowed identifier flat)
    (tableMessage "user" "users" user) (by simp [tableSchema]) named "v"

theorem accepted_userVersion {user : List Variable}
    {allowed : ∀ v ∈ (tableMessage "user" "users" user).user, isReservedHiddenName v.name = false}
    {flat : ∀ v ∈ (tableMessage "user" "users" user).vars,
      embedTarget (typeRegistry [tableMessage "user" "users" user]) v = none} (db : Db) :
    Accepted (userVersion user allowed flat) db := by
  have identifier : isIdentifier "users" := by decide
  have named : "users" ≠ "" := by decide
  exact ⟨tableSchema (tableMessage "user" "users" user) allowed identifier flat,
    tableMessage "user" "users" user, by simp [tableSchema], named, "v", rfl⟩

def plainUsers : Declared := userVersion [] (by decide +kernel) (by decide)

def mailUsers : Declared :=
  userVersion [{ name := "email", type := .STRING, modifiers := [.UNIQUE] }] (by decide +kernel)
    (by decide)

def scoreUsers : Declared :=
  userVersion [{ name := "score", type := .STRING }] (by decide +kernel) (by decide)

/-- The text column `score` becomes the number column `points`. -/
def pointUsers : Declared :=
  userVersion [{ name := "points", type := .INT64, renamedFrom := some "score" }]
    (by decide +kernel) (by decide)

def oneUser : Stmt :=
  .insertOrReplace "users" [("HARPIA_ID", .int 7), ("score", .text "42")]

theorem reached_oneUser {db db' : Db} (hm : migrate intTextCasting scoreUsers Db.empty = some db)
    (he : exec intTextCasting oneUser db = some db') :
    Reached intTextCasting "users" Accepted db' := by
  obtain ⟨t, t', ht, hcols, rfl⟩ := exec_insertOrReplace he
  refine .written (.migrated .empty rfl (accepted_userVersion _) hm) (Db.names_put_of_get? ht) fun n => ?_
  rw [Db.get?_put]
  split
  next hf => rw [db.get?_congr hf, ht, Option.map_some, Option.map_some, hcols]
  next => rfl

theorem ready_pointUsers : ∃ db db', migrate intTextCasting scoreUsers Db.empty = some db ∧
    exec intTextCasting oneUser db = some db' ∧ Ready intTextCasting pointUsers db' := by
  have ready : ((migrate intTextCasting scoreUsers Db.empty).bind fun db =>
      (exec intTextCasting oneUser db).map fun db' =>
        decide (Ready intTextCasting pointUsers db')) = some true := by
    decide +kernel
  obtain ⟨db, hm, hb⟩ := Option.bind_eq_some_iff.mp ready
  obtain ⟨db', he, hr⟩ := Option.map_eq_some_iff.mp hb
  exact ⟨db, db', hm, he, of_decide_eq_true hr⟩

end Harpia
