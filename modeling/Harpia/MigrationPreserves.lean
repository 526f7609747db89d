import Harpia.MigrationRebuild

namespace Harpia

open Text Sqlite

/-- What a migration keeps: every row of the main table, with each declared column as it was or cast
to its type, and `NULL` in the new ones; every row of the child tables still declared. -/
structure Preserved (C : Casting) (d : Declared) (db db' : Db) : Prop where
  main : ∀ t, db.get? d.table = some t → ∃ t', db'.get? d.table = some t' ∧
    List.Forall₂ (fun r r' => ∀ c ∈ d.columns,
      Carried C c.sqlType (c.value t.names r) (r'.get c.name)) t.rows t'.rows
  children : ∀ c ∈ d.children, ∀ t, Kept d db c t → ∃ t', db'.get? c.table = some t' ∧
    ChildCarries C c.shape t t'

section

variable {C : Casting} {d : Declared} {db₀ db : Db}

theorem Settled.preserved (ready : Ready C d db₀) (h : Settled C d db₀ db) :
    Preserved C d db₀ db := by
  constructor
  · intro t ht
    obtain ⟨t', ht', carries⟩ := h.resumable.carries.main t ht
    obtain ⟨u, hu, complete⟩ := h.main
    cases Option.some.inj (ht'.symm.trans hu)
    refine ⟨t', ht', List.Forall₂.imp (fun r r' hr c hc => ?_) carries⟩
    have same : c.held d t.names r = c.value t.names r := by
      rw [Column.held, Column.value,
        origin_eq_source ready.fit.columns (ready.columns_stay t ht) hc]
    rw [← same, ← complete.held hc]
    exact hr c hc
  · intro c hc t ht
    have held : HeldIn d db₀ c t := by
      unfold HeldIn
      rw [childOrigin_eq_source ready.fit.children ready.children_stay hc]
      exact ht
    obtain ⟨t', ht', carries⟩ := h.resumable.carries.child c hc t held
    exact ⟨t', (h.held hc).mp ht', carries⟩

theorem creates_complete {childHave : List String} (h : Underway C d db₀ childHave db)
    (sourced : Sourced d db) :
    (Prog.forEach (fun s => .exec [s]) d.createTableSql : Script Unit).Completes (exec C)
      (Resumable C d db₀) db fun _ db' => Underway C d db₀ childHave db' ∧
        (∃ t, db'.get? d.table = some t) ∧ ∀ c ∈ d.children, c.table ∈ db'.names := by
  refine Prog.completes_mono (Prog.completes_forEach (fun rest db' =>
    Underway C d db₀ childHave db' ∧ Sourced d db' ∧ ∃ todo, todo ⊆ d.ddl ∧
      rest = todo.map (fun e => .createTable true e.1 e.2.1 e.2.2) ∧
      ∀ e ∈ d.ddl, e ∈ todo ∨ ∃ t, db'.get? e.1 = some t)
    ⟨h, sourced, d.ddl, List.Subset.refl _, rfl, fun e he => .inl he⟩ ?_ ?_) ?_
  · exact fun _ _ h => h.1.resumable
  · rintro s rest db' ⟨h', sourced', todo, hsub, hrest, done⟩
    cases todo with
    | nil => simp at hrest
    | cons e todo =>
      rw [List.map_cons, List.cons.injEq] at hrest
      obtain ⟨rfl, rfl⟩ := hrest
      obtain ⟨db'', he, h'', sourced'', live, kept⟩ :=
        create_completes h' sourced' (hsub List.mem_cons_self)
      refine Prog.completes_exec h'.resumable (execAll_of_exec he) h''.resumable ⟨h'', sourced'',
        todo, fun x hx => hsub (List.mem_cons_of_mem _ hx), rfl, fun e' he' => ?_⟩
      rcases done e' he' with hm | ⟨t, ht⟩
      · rcases List.mem_cons.mp hm with rfl | hm
        · exact .inr live
        · exact .inl hm
      · exact .inr ⟨t, kept _ t ht⟩
  · rintro _ db' ⟨h', -, todo, -, hrest, done⟩
    cases todo with
    | cons => simp at hrest
    | nil =>
      have live : ∀ e ∈ d.ddl, ∃ t, db'.get? e.1 = some t := fun e he =>
        (done e he).resolve_left List.not_mem_nil
      refine ⟨h', live (d.table, d.columns.map Column.sqlDef, []) List.mem_cons_self, fun c hc => ?_⟩
      obtain ⟨t, ht⟩ : ∃ t, db'.get? c.table = some t :=
        live (c.table, c.shape.columns, c.shape.key) (List.mem_cons_of_mem _ (List.mem_map_of_mem hc))
      obtain ⟨n, hn, hf⟩ := Db.exists_name_of_get? ht
      rw [← h'.resumable.fit.spelled c hc n hn hf]
      exact hn

/-- Reaping: only the declared tables stay. -/
theorem dropStales_complete {childHave : List String} (h : Settled C d db₀ db)
    (nodup : childHave.Nodup)
    (listed : ∀ n ∈ db.names, startsWith n (d.table ++ "__") →
      n ∈ childHave ∨ n ∈ d.children.map Child.table)
    (live : ∀ n ∈ childHave, startsWith n (d.table ++ "__") ∧ n ∈ db.names) :
    (Prog.forEach (dropStale (d.children.map Child.table)) (sorted childHave)).Completes (exec C)
      (Resumable C d db₀) db fun _ db' => Settled C d db₀ db' ∧ Reaped d db' := by
  have sorted_mem : ∀ n, n ∈ sorted childHave ↔ n ∈ childHave := fun n => List.mem_insertionSort _
  refine Prog.completes_mono (Prog.completes_forEach (fun rest db' => Settled C d db₀ db' ∧
    rest.Nodup ∧ (∀ n ∈ db'.names, startsWith n (d.table ++ "__") →
      n ∈ rest ∨ n ∈ d.children.map Child.table) ∧
    ∀ n ∈ rest, startsWith n (d.table ++ "__") ∧ n ∈ db'.names)
    ⟨h, nodup_sorted nodup, ?_, ?_⟩ ?_ ?_) ?_
  · intro n hn hs
    rw [sorted_mem]
    exact listed n hn hs
  · exact fun n hn => live n ((sorted_mem n).mp hn)
  · exact fun _ _ h => h.1.resumable
  · rintro n rest db' ⟨h', nodup', listed', live'⟩
    obtain ⟨notin, nodup'⟩ := List.nodup_cons.mp nodup'
    obtain ⟨hs, hn⟩ := live' n List.mem_cons_self
    unfold dropStale
    split
    next hkeep =>
      refine ⟨h'.resumable, h', nodup', fun m hm hsm => ?_,
        fun m hm => live' m (List.mem_cons_of_mem _ hm)⟩
      rcases listed' m hm hsm with hm | hm
      · rcases List.mem_cons.mp hm with rfl | hm
        · exact .inr hkeep
        · exact .inl hm
      · exact .inr hm
    next hstale =>
      have undeclared : ∀ c ∈ d.children, fold c.table ≠ fold n := by
        intro c hc hf
        rw [h'.resumable.fit.spelled c hc n hn hf.symm] at hstale
        exact hstale (List.mem_map_of_mem hc)
      have h'' : Settled C d db₀ (db'.erase n) := by
        refine h'.beside (beside_erase n db') hs undeclared (fun hfree => ?_) fun m hm hf => ?_
        · rw [Db.get?_erase]
          split
          · rfl
          · exact hfree
        · exact absurd hf (Db.mem_names_erase.mp hm).2
      obtain ⟨t, ht⟩ := Db.exists_get?_of_mem_names hn
      have he : exec C (.dropTable n) db' = some (db'.erase n) := by
        rw [exec, ht, Option.map_some]
      refine Prog.completes_exec h'.resumable (execAll_of_exec he) h''.resumable
        ⟨h'', nodup', fun m hm hsm => ?_, fun m hm => ?_⟩
      · obtain ⟨hm, hne⟩ := Db.mem_names_erase.mp hm
        rcases listed' m hm hsm with hm | hm
        · rcases List.mem_cons.mp hm with rfl | hm
          · exact absurd rfl hne
          · exact .inl hm
        · exact .inr hm
      · obtain ⟨hsm, hlive⟩ := live' m (List.mem_cons_of_mem _ hm)
        refine ⟨hsm, Db.mem_names_erase.mpr ⟨hlive, fun hf => ?_⟩⟩
        obtain rfl := Db.names_unique hlive hn hf
        exact notin hm
  · rintro _ db' ⟨h', -, listed', -⟩
    exact ⟨h', fun n hn hs => (listed' n hn hs).resolve_left List.not_mem_nil⟩

theorem runPlans_complete (h : Settled C d db₀ db) (reaped : Reaped d db) :
    (Prog.forEach runPlan (d.evolving.filterMap Child.plan)).Completes (exec C)
      (Resumable C d db₀) db fun _ db' => Settled C d db₀ db' := by
  refine Prog.completes_mono (Prog.completes_forEach (fun rest db' =>
    rest ⊆ d.evolving.filterMap Child.plan ∧ Settled C d db₀ db' ∧ Reaped d db')
    ⟨List.Subset.refl _, h, reaped⟩ ?_ ?_) fun _ _ h => h.2.1
  · exact fun _ _ h => h.2.1.resumable
  · rintro plan rest db' ⟨hsub, h', reaped'⟩
    obtain ⟨c, hc, hp⟩ := List.mem_filterMap.mp (hsub List.mem_cons_self)
    refine Prog.completes_mono (runPlan_completes h' reaped' (mem_evolving hc) hp) ?_
    rintro _ db'' ⟨h'', reaped''⟩
    exact ⟨fun x hx => hsub (List.mem_cons_of_mem _ hx), h'', reaped''⟩

theorem stamp_completes (h : Settled C d db₀ db) (version : String) :
    ∃ db', exec C (.insertOrReplace versionTable
      [("name", .text d.table), ("version", .text version)]) db = some db' ∧
      Settled C d db₀ db' := by
  obtain ⟨t, ht⟩ := h.versioned
  have hcols := h.resumable.fit.version t ht
  obtain ⟨t', hi, hcols', -⟩ := insertOrReplace_of_plain (t := t)
    (r := Row.ofPairs [("name", .text d.table), ("version", .text version)]) (by simp [hcols])
  refine ⟨db.put versionTable t', ?_, ?_⟩
  · have named : foldedNames t.columns = ["name", "version"] := by
      rw [hcols]
      decide +kernel
    have lower : fold "name" = "name" ∧ fold "version" = "version" := by decide +kernel
    simp [exec, ht, named, lower, hi]
  · have step := resumable_version h.resumable.fit (hcols'.trans hcols)
    obtain ⟨u, hu, complete⟩ := h.main
    refine ⟨h.resumable.trans step, ⟨t', Db.get?_put_self _ _ _⟩, ⟨u, ?_, complete⟩, fun c hc => ?_⟩
    · rw [(beside_put _ _ _).tables _ (fold_table_ne_version d), hu]
    · exact ((beside_put _ _ _).names _ (childTable_ne hc).2.1).mpr (h.children c hc)

/-- The version table is not among the tables a rename of children mentions. -/
theorem childrenStay_listed {db₁ : Db} (stay : ChildrenStay d db) (b : Beside versionTable db db₁) :
    ∀ p ∈ firing d.childRenames (db₁.names.filter fun n => startsWith n (d.table ++ "__")),
      p.1 ∉ d.children.map Child.table := by
  have listed : ∀ n, startsWith n (d.table ++ "__") →
      (n ∈ db₁.names.filter (fun n => startsWith n (d.table ++ "__")) ↔ n ∈ db.names) := by
    intro n hs
    rw [List.mem_filter, b.names n (fold_prefixed_ne hs).2]
    exact and_iff_left hs
  have same : firing d.childRenames (db₁.names.filter fun n => startsWith n (d.table ++ "__")) =
      firing d.childRenames db.names := by
    refine firing_congr fun p hp => ?_
    obtain ⟨c, hc, ho, htable⟩ := mem_childRenames_iff.mp hp
    obtain ⟨suffix, named⟩ := oldTable_eq_some ho
    exact ⟨listed _ (startsWith_iff.mpr ⟨suffix, named⟩), htable ▸ listed _ (childTable_ne hc).2.2⟩
  rw [same]
  exact stay

/-- From a state it is ready for, a migration completes and keeps the data, also wherever it stops
between two groups of statements. -/
theorem migration_completes (h : Ready C d db) :
    (migration d).Completes (exec C) (Resumable C d db) db fun _ db' => Settled C d db db' := by
  obtain ⟨db₁, he₁, r₁, versioned₁, b₁⟩ := version_completes h.fit
  refine Prog.completes_bind (Prog.completes_exec (.refl h.fit) (execAll_of_exec he₁) r₁ ?_)
  refine Prog.completes_bind ?_
  simp only [listChildTables, Prog.get, Prog.Completes]
  refine ⟨r₁, ?_⟩
  have listing : Listing C d db (db₁.names.filter fun n => startsWith n (d.table ++ "__")) db₁ :=
    ⟨r₁, versioned₁, fun t ht => h.columns_stay t (by
      rw [← b₁.tables _ (fold_table_ne_version d), ht]), db₁.names_nodup.filter _,
      fun n => List.mem_filter⟩
  refine Prog.completes_bind (Prog.completes_mono
    (renameChildren_complete listing (childrenStay_listed h.children_stay b₁)) ?_)
  rintro childHave db₂ ⟨listing₂, sourced₂⟩
  refine Prog.completes_bind (Prog.completes_mono
    (creates_complete listing₂.underway sourced₂) ?_)
  rintro _ db₃ ⟨underway₃, ⟨t₃, ht₃⟩, live₃⟩
  have start : MainStart C d db db₃ t₃ := ⟨underway₃.resumable, ht₃, underway₃.stay t₃ ht₃⟩
  refine Prog.completes_bind (Prog.completes_mono
    (migrateColumns_completes start) ?_)
  rintro _ db₄ ⟨t₄, at₄, complete₄⟩
  have b := at₄.beside
  have settled₄ : Settled C d db db₄ := by
    refine ⟨at₄.resumable start,
      b.versioned (fold_table_ne_version d) underway₃.versioned, ⟨t₄, at₄.live, complete₄⟩, ?_⟩
    exact fun c hc => (b.names _ (childTable_ne hc).1).mpr (live₃ c hc)
  have listed₄ : ∀ n ∈ db₄.names, startsWith n (d.table ++ "__") →
      n ∈ childHave ∨ n ∈ d.children.map Child.table := by
    intro n hn hs
    exact underway₃.listed n ((b.names n (fold_prefixed_ne hs).1).mp hn) hs
  have stale₄ : ∀ n ∈ childHave, startsWith n (d.table ++ "__") ∧ n ∈ db₄.names := by
    intro n hn
    obtain ⟨hs, hl⟩ := underway₃.live n hn
    exact ⟨hs, (b.names n (fold_prefixed_ne hs).1).mpr hl⟩
  refine Prog.completes_bind (Prog.completes_mono
    (dropStales_complete settled₄ listing₂.nodup listed₄ stale₄) ?_)
  rintro _ db₅ ⟨settled₅, reaped₅⟩
  refine Prog.completes_bind (Prog.completes_mono (runPlans_complete settled₅ reaped₅) ?_)
  intro _ db₆ settled₆
  obtain ⟨db₇, he₇, settled₇⟩ := stamp_completes settled₆ d.version
  exact Prog.completes_exec settled₆.resumable (execAll_of_exec he₇) settled₇.resumable settled₇

end

end Harpia
