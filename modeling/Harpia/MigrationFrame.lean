import Harpia.Migration

namespace Harpia

open Text Sqlite

/-- The tables of a version that hold data. -/
def Declared.tables (d : Declared) : List String := d.table :: d.children.map Child.table

/-- All names the statements of a migration are generated with. -/
def Declared.ownNames (d : Declared) : List String :=
  versionTable :: (d.table ++ "__retype_tmp") :: d.tables ++
    d.children.map (fun c => c.shape.tmp c.table) ++ d.childRenames.map Prod.fst

/-- A migration may touch what it was generated for, and the live tables it finds by prefix. -/
def Owned (d : Declared) (db : Db) (name : String) : Prop :=
  fold name ∈ d.ownNames.map fold ∨ name ∈ db.names ∧ startsWith name (d.table ++ "__")

def Touches (d : Declared) (db : Db) (s : Stmt) : Prop := ∀ n ∈ s.touched, Owned d db n

theorem owned_of_mem {d : Declared} {db : Db} {name : String} (h : name ∈ d.ownNames) :
    Owned d db name :=
  .inl (List.mem_map_of_mem h)

theorem mem_evolving {d : Declared} {c : Child} (h : c ∈ d.evolving) : c ∈ d.children := by
  simp only [Declared.evolving, List.mem_append] at h
  rcases h with (h | h) | h <;> exact List.mem_of_mem_filter h

theorem child_mem_ownNames {d : Declared} {c : Child} (h : c ∈ d.children) :
    c.table ∈ d.ownNames ∧ c.shape.tmp c.table ∈ d.ownNames := by
  have h₁ : c.table ∈ d.children.map Child.table := List.mem_map_of_mem h
  have h₂ : c.shape.tmp c.table ∈ d.children.map fun c => c.shape.tmp c.table :=
    List.mem_map_of_mem h
  simp only [Declared.ownNames, Declared.tables, List.mem_append, List.mem_cons]
  tauto

theorem childRename_mem_ownNames {d : Declared} {p : String × String} (h : p ∈ d.childRenames) :
    p.1 ∈ d.ownNames ∧ p.2 ∈ d.ownNames := by
  have h₁ : p.1 ∈ d.childRenames.map Prod.fst := List.mem_map_of_mem h
  obtain ⟨c, hc, hp⟩ := List.mem_filterMap.mp h
  obtain ⟨old, -, rfl⟩ := Option.map_eq_some_iff.mp hp
  refine ⟨?_, (child_mem_ownNames (mem_evolving hc)).1⟩
  simp only [Declared.ownNames, List.mem_append]
  exact .inr h₁

section Touches

variable {C : Casting} {d : Declared} {db₀ db : Db}

theorem exec_touches {g : List Stmt} (h : ∀ s ∈ g, Touches d db₀ s) :
    (Prog.exec g : Script Unit).Obeys (exec C) (Touches d db₀) db fun _ _ => True :=
  ⟨h, fun _ _ => trivial⟩

theorem addMissing_touches {table : String} (ht : Owned d db₀ table) (have_ : List String)
    (c : ColumnDef) :
    (addMissing table have_ c).Obeys (exec C) (Touches d db₀) db fun _ _ => True := by
  unfold addMissing
  split
  · trivial
  · exact exec_touches (by simpa [Touches, Stmt.touched] using ht)

theorem dropStray_touches {table : String} (ht : Owned d db₀ table) (current : List String)
    (column : String) :
    (dropStray table current column).Obeys (exec C) (Touches d db₀) db fun _ _ => True := by
  unfold dropStray
  split
  · trivial
  · exact exec_touches (by simpa [Touches, Stmt.touched] using ht)

theorem renameHidden_touches {table : String} (ht : Owned d db₀ table) (have_ : List String)
    (p : String × String × Bool) :
    (renameHidden table have_ p).Obeys (exec C) (Touches d db₀) db fun _ _ => True := by
  unfold renameHidden
  split
  · trivial
  · split
    · exact Prog.obeys_bind (exec_touches (by simpa [Touches, Stmt.touched] using ht))
    · trivial

theorem renameMarked_touches {table : String} (ht : Owned d db₀ table) (have_ : List String)
    (p : String × String) :
    (renameMarked table have_ p).Obeys (exec C) (Touches d db₀) db fun _ _ => True := by
  unfold renameMarked
  split
  · exact Prog.obeys_bind (exec_touches (by simpa [Touches, Stmt.touched] using ht))
  · trivial

theorem rebuildIf_touches {plan : Plan} (hs : ∀ g ∈ plan.statements, ∀ s ∈ g, Touches d db₀ s)
    (force : Bool) :
    (rebuildIf force plan).Obeys (exec C) (Touches d db₀) db fun _ _ => True := by
  unfold rebuildIf
  split
  · exact Prog.obeys_forEach_mem fun g hg _ => exec_touches (hs g hg)
  · trivial

theorem runPlan_touches {plan : Plan} (ht : Owned d db₀ plan.table)
    (hs : ∀ g ∈ plan.statements, ∀ s ∈ g, Touches d db₀ s) :
    (runPlan plan).Obeys (exec C) (Touches d db₀) db fun _ _ => True := by
  refine Prog.obeys_bind ?_
  simp only [listColumnTypes, Prog.get, Prog.Obeys]
  split
  · exact rebuildIf_touches hs _
  · split
    · trivial
    · refine Prog.obeys_bind (Prog.obeys_mono
        (Prog.obeys_forEach_mem fun c _ _ => addMissing_touches ht _ c) fun _ _ _ => ?_)
      exact rebuildIf_touches hs _

theorem mainTable_owned : Owned d db₀ d.table :=
  owned_of_mem (by simp [Declared.ownNames, Declared.tables])

theorem retypePlan_touches : ∀ g ∈ d.retypePlan.statements, ∀ s ∈ g, Touches d db₀ s := by
  have tmp : Owned d db₀ (d.table ++ "__retype_tmp") := owned_of_mem (by simp [Declared.ownNames])
  simpa [Declared.retypePlan, rebuildStmts, Touches, Stmt.touched, tmp] using mainTable_owned

theorem childPlan_touches {c : Child} (hc : c ∈ d.children) {plan : Plan} (hp : c.plan = some plan) :
    Owned d db₀ plan.table ∧ ∀ g ∈ plan.statements, ∀ s ∈ g, Touches d db₀ s := by
  obtain ⟨hm, htmp⟩ := child_mem_ownNames hc
  have rebuild : ∀ g ∈ c.shape.rebuild c.table, ∀ s ∈ g, Touches d db₀ s := by
    simp [ChildShape.rebuild, Touches, Stmt.touched, owned_of_mem hm, owned_of_mem htmp]
  unfold Child.plan at hp
  split at hp
  · cases Option.some.inj hp
    exact ⟨owned_of_mem hm, rebuild⟩
  · cases Option.some.inj hp
    exact ⟨owned_of_mem hm, rebuild⟩
  · cases Option.some.inj hp
    exact ⟨owned_of_mem hm, rebuild⟩
  · simp at hp

theorem migrateColumns_touches :
    (migrateColumns d).Obeys (exec C) (Touches d db₀) db fun _ _ => True := by
  have own : Owned d db₀ d.table := mainTable_owned
  refine Prog.obeys_bind ?_
  simp only [listColumns, Prog.get, Prog.Obeys]
  refine Prog.obeys_bind (Prog.obeys_mono (Prog.obeys_fold_mem (fun _ => True) trivial
    fun p _ have_ _ _ => renameHidden_touches own have_ p) fun have₁ _ _ => ?_)
  refine Prog.obeys_bind (Prog.obeys_mono (Prog.obeys_fold_mem (fun _ => True) trivial
    fun p _ have_ _ _ => renameMarked_touches own have_ p) fun have₂ _ _ => ?_)
  refine Prog.obeys_bind (Prog.obeys_mono
    (Prog.obeys_forEach_mem fun c _ _ => addMissing_touches own _ c) fun _ _ _ => ?_)
  refine Prog.obeys_bind (Prog.obeys_mono
    (Prog.obeys_forEach_mem fun c _ _ => dropStray_touches own _ c) fun _ _ _ => ?_)
  exact runPlan_touches own retypePlan_touches

theorem createTableSql_touches : ∀ s ∈ d.createTableSql, Touches d db₀ s := by
  intro s hs
  obtain ⟨e, he, rfl⟩ := List.mem_map.mp hs
  rcases List.mem_cons.mp he with rfl | he
  · simpa [Touches, Stmt.touched] using mainTable_owned
  · obtain ⟨c, hc, rfl⟩ := List.mem_map.mp he
    simpa [Touches, Stmt.touched] using owned_of_mem (child_mem_ownNames hc).1

theorem renameChild_touches {p : String × String} (hp : p ∈ d.childRenames)
    {childHave : List String} (hh : ∀ n ∈ childHave, Owned d db₀ n) :
    (renameChild childHave p).Obeys (exec C) (Touches d db₀) db fun have_ _ =>
      ∀ n ∈ have_, Owned d db₀ n := by
  obtain ⟨hold, hnew⟩ := childRename_mem_ownNames hp
  unfold renameChild
  split
  · refine Prog.obeys_bind (Prog.obeys_mono (exec_touches ?_) fun _ _ _ => ?_)
    · simp [Touches, Stmt.touched, owned_of_mem hold, owned_of_mem hnew]
    · intro n hn
      rcases List.mem_append.mp hn with hn | hn
      · exact hh n (List.mem_of_mem_filter hn)
      · exact List.mem_singleton.mp hn ▸ owned_of_mem hnew
  · exact hh

theorem migration_touches (C : Casting) (d : Declared) (db : Db) :
    (migration d).Obeys (exec C) (Touches d db) db fun _ _ => True := by
  have version : Owned d db versionTable := owned_of_mem (by simp [Declared.ownNames])
  refine Prog.obeys_bind ⟨by simpa [Touches, Stmt.touched] using version, fun db₁ h₁ => ?_⟩
  refine Prog.obeys_bind ?_
  simp only [listChildTables, Prog.get, Prog.Obeys]
  have listed : ∀ n ∈ db₁.names.filter fun n => startsWith n (d.table ++ "__"), Owned d db n := by
    intro n hn
    obtain ⟨hn, hp⟩ := List.mem_filter.mp hn
    obtain ⟨db₂, h₂, he⟩ := Option.bind_eq_some_iff.mp h₁
    cases Option.some.inj he
    rcases mem_names_exec h₂ hn with hn | hn
    · exact .inr ⟨hn, hp⟩
    · exact List.mem_singleton.mp hn ▸ version
  refine Prog.obeys_bind (Prog.obeys_mono (Prog.obeys_fold_mem _ listed
    fun p hp childHave _ hh => renameChild_touches hp hh) fun childHave _ hh => ?_)
  refine Prog.obeys_bind (Prog.obeys_mono (Prog.obeys_forEach_mem fun s hs _ =>
    exec_touches (by simpa using createTableSql_touches s hs)) fun _ _ _ => ?_)
  refine Prog.obeys_bind (Prog.obeys_mono migrateColumns_touches fun _ _ _ => ?_)
  refine Prog.obeys_bind (Prog.obeys_mono (Prog.obeys_forEach_mem fun n hn _ => ?_) fun _ _ _ => ?_)
  · unfold dropStale
    split
    · trivial
    · refine exec_touches ?_
      simpa [Touches, Stmt.touched] using hh n ((List.mem_insertionSort _).mp hn)
  refine Prog.obeys_bind (Prog.obeys_mono (Prog.obeys_forEach_mem fun plan hp _ => ?_) fun _ _ _ => ?_)
  · obtain ⟨c, hc, hp⟩ := List.mem_filterMap.mp hp
    obtain ⟨own, statements⟩ := childPlan_touches (mem_evolving hc) hp
    exact runPlan_touches own statements
  · exact exec_touches (by simpa [Touches, Stmt.touched] using version)

end Touches

/-- Wherever a migration stops, a table it does not own is as it was. -/
theorem migration_frame {C : Casting} {d : Declared} {db db' : Db}
    (h : Prog.StopsAt (exec C) (migration d) db db') {n : String}
    (hn : ∀ m, Owned d db m → fold n ≠ fold m) : db'.get? n = db.get? n := by
  refine Prog.stopsAt_of_obeys (fun s s' => s'.get? n = s.get? n) (fun _ => rfl) ?_ ?_
    (migration_touches C d db) h
  · intro _ _ _ h₁ h₂
    exact h₂.trans h₁
  · intro s db₁ db₂ hs he
    exact exec_frame he fun m hm => hn m (hs m hm)

end Harpia
