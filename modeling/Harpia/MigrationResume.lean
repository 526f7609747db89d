import Harpia.MigrationReady

namespace Harpia

open Text Sqlite

theorem execAll_of_exec {C : Casting} {s : Stmt} {db db' : Db} (h : exec C s db = some db') :
    Prog.execAll (exec C) [s] db = some db' := by
  rw [Prog.execAll, h]
  rfl

theorem nodup_swapName {names : List String} {old new : String} (h : names.Nodup)
    (hnew : new ∉ names) : (swapName names old new).Nodup := by
  refine List.nodup_append.mpr ⟨h.filter _, List.nodup_singleton new, ?_⟩
  intro a ha b hb
  rw [List.mem_singleton.mp hb]
  rintro rfl
  exact hnew (List.mem_of_mem_filter ha)

theorem nodup_sorted {names : List String} (h : names.Nodup) : (sorted names).Nodup :=
  (List.perm_insertionSort _ names).nodup_iff.mpr h

theorem nodup_names (t : Table) : t.names.Nodup := by
  refine List.Nodup.of_map fold ?_
  rw [Table.names, List.map_map]
  exact t.names_nodup

section Main

variable {C : Casting} {d : Declared} {db₀ db₁ db : Db} {t₁ t : Table}

/-- Since `db₁` only the main table has changed, in steps that keep its data. -/
structure MainAt (C : Casting) (d : Declared) (db₁ : Db) (t₁ : Table) (db : Db) (t : Table) :
    Prop where
  beside : Beside d.table db₁ db
  live : db.get? d.table = some t
  step : MainStep C d t₁ t

/-- The main table of `db₁` may be migrated. -/
structure MainStart (C : Casting) (d : Declared) (db₀ db₁ : Db) (t₁ : Table) : Prop where
  resumable : Resumable C d db₀ db₁
  live : db₁.get? d.table = some t₁
  stay : ColumnsStay d t₁

theorem MainAt.resumable (start : MainStart C d db₀ db₁ t₁) (h : MainAt C d db₁ t₁ db t) :
    Resumable C d db₀ db := by
  refine start.resumable.trans (resumable_beside start.resumable.fit h.beside ?_ ?_ ?_ ?_ ?_ ?_ ?_)
  · exact fun c hc => (childTable_ne hc).1
  · exact fun c _ _ old ho => (fold_oldTable_ne ho).1
  · intro u hu
    rw [h.beside.tables _ (fold_table_ne_version d).symm] at hu
    exact start.resumable.fit.version u hu
  · intro u hu
    cases Option.some.inj (start.live.symm.trans hu)
    exact ⟨t, h.live, h.step⟩
  · intro hnone
    rw [start.live] at hnone
    simp at hnone
  · intro hfree
    rw [h.beside.tables _ (fold_prefixed_ne d.retypeTmp_prefixed).1, hfree]
  · intro n _ hf
    refine .inr (.inr fun c hc he => ?_)
    exact (fold_prefixed_ne (tmp_prefixed hc)).1 (he.symm.trans hf)

theorem MainAt.put (h : MainAt C d db₁ t₁ db t) {t' : Table} (hs : MainStep C d t t') :
    MainAt C d db₁ t₁ (db.put d.table t') t' :=
  ⟨h.beside.trans (beside_put _ _ _), Db.get?_put_self _ _ _, h.step.trans hs⟩

/-- One column statement. -/
theorem alter_completes (start : MainStart C d db₀ db₁ t₁) (h : MainAt C d db₁ t₁ db t) {s : Stmt}
    {op : Table → Option Table}
    (hs : exec C s db = (db.get? d.table).bind fun t => (op t).map (db.put d.table)) {t' : Table}
    (hop : op t = some t') (hstep : MainStep C d t t') {Q : Unit → Db → Prop}
    (hq : ∀ db', MainAt C d db₁ t₁ db' t' → Q () db') :
    (Prog.exec [s] : Script Unit).Completes (exec C) (Resumable C d db₀) db Q := by
  have after : MainAt C d db₁ t₁ (db.put d.table t') t' := h.put hstep
  refine Prog.completes_exec (h.resumable start) (execAll_of_exec ?_) (after.resumable start)
    (hq _ after)
  rw [hs, h.live, Option.bind_some, hop, Option.map_some]

theorem renameHidden_skips (h : MainReady C d t) {have_ : List String}
    (hn : ∀ n, n ∈ have_ ↔ n ∈ t.names) {p : String × String × Bool} (hp : p ∈ d.hiddenRenames) :
    renameHidden d.table have_ p = (return have_ : Script (List String)) := by
  obtain ⟨c, -, hf⟩ := List.mem_filterMap.mp hp
  have hidden : ∀ q ∈ legacyHidden, q.1 ∈ hiddenNames := by decide
  unfold renameHidden
  rw [if_pos ((hn _).mpr (h.hidden _ (hidden p (List.mem_of_find?_eq_some hf))))]

theorem renameHiddens_complete (start : MainStart C d db₀ db₁ t₁) (h : MainAt C d db₁ t₁ db t)
    {have_ : List String} (hn : ∀ n, n ∈ have_ ↔ n ∈ t.names) :
    (Prog.fold (renameHidden d.table) have_ d.hiddenRenames).Completes (exec C)
      (Resumable C d db₀) db fun have' db' => have' = have_ ∧ db' = db := by
  refine Prog.completes_mono (Prog.completes_fold (fun rest have' db' => rest ⊆ d.hiddenRenames ∧
    have' = have_ ∧ db' = db) ⟨List.Subset.refl _, rfl, rfl⟩ ?_ ?_) fun _ _ h => h.2
  · rintro rest have' db' ⟨-, -, rfl⟩
    exact h.resumable start
  · rintro p rest have' db' ⟨hsub, rfl, rfl⟩
    rw [renameHidden_skips h.step.ready hn (hsub List.mem_cons_self)]
    exact ⟨h.resumable start, fun x hx => hsub (List.mem_cons_of_mem _ hx), rfl, rfl⟩

theorem renameMarkeds_complete (start : MainStart C d db₀ db₁ t₁) (h : MainAt C d db₁ t₁ db t)
    {have_ : List String} (hn : ∀ n, n ∈ have_ ↔ n ∈ t.names) (nodup : have_.Nodup)
    (stay : ∀ p ∈ firing d.renames have_, p.1 ∉ d.columns.map Column.name) :
    (Prog.fold (renameMarked d.table) have_ d.renames).Completes (exec C)
      (Resumable C d db₀) db fun have' db' => have'.Nodup ∧ ∃ t', MainAt C d db₁ t₁ db' t' ∧
        (∀ n, n ∈ have' ↔ n ∈ t'.names) ∧ Renamed d t' := by
  have distinct := start.resumable.fit.columns
  refine Prog.completes_mono (Prog.completes_fold (fun rest have' db' => rest ⊆ d.renames ∧
    have'.Nodup ∧ (∀ p ∈ firing rest have', p.1 ∉ d.columns.map Column.name) ∧
      ∃ t', MainAt C d db₁ t₁ db' t' ∧ (∀ n, n ∈ have' ↔ n ∈ t'.names) ∧
        ∀ c ∈ d.columns, c.name ∉ t'.names → ∀ old, c.origin d t'.names = some old →
          (old, c.name) ∈ rest) ⟨List.Subset.refl _, nodup, stay, t, h, hn, ?_⟩ ?_ ?_) ?_
  · intro c hc hl old ho
    obtain ⟨live, rfl | ⟨-, hm, -⟩⟩ := origin_eq_some ho
    · exact absurd live hl
    · exact List.mem_filterMap.mpr ⟨c, hc, by rw [hm]; rfl⟩
  · rintro rest have' db' ⟨-, -, -, t', h', -⟩
    exact h'.resumable start
  · rintro p rest have' db' ⟨hsub, nodup', stay', t', h', hn', pending⟩
    have rest_sub : rest ⊆ d.renames := fun x hx => hsub (List.mem_cons_of_mem _ hx)
    obtain ⟨c, hc, hp⟩ := List.mem_filterMap.mp (hsub List.mem_cons_self)
    obtain ⟨old, hm, rfl⟩ := Option.map_eq_some_iff.mp hp
    rw [firing] at stay'
    unfold renameMarked
    split
    next hfire =>
      rw [if_pos hfire] at stay'
      have habs : c.name ∉ t'.names := fun hl => hfire.2 ((hn' _).mpr hl)
      have hold : old ∈ t'.names := (hn' _).mp hfire.1
      have ho := origin_of_missing habs hm hold (stay' _ List.mem_cons_self)
      obtain ⟨t'', hr, hstep⟩ := mainStep_rename h'.step.ready distinct hc habs ho
      have moved : Moved d c old t' t'' := ⟨hc, habs, ho, hr⟩
      refine Prog.completes_bind (alter_completes start h' rfl hr hstep fun db'' h'' => ?_)
      refine ⟨h''.resumable start, rest_sub, nodup_swapName nodup' hfire.2,
        fun q hq => stay' q (List.mem_cons_of_mem _ hq), t'', h'', ?_, ?_⟩
      · intro n
        rw [mem_swapName, moved.names, hn']
      · intro c' hc' hl' m ho'
        have hne : c' ≠ c := by
          rintro rfl
          exact hl' ((moved.names _).mpr (.inr rfl))
        obtain ⟨same, apart⟩ := moved.other h'.step.ready distinct hc' hne
        rw [same] at ho'
        have live' : c'.name ∉ t'.names := fun hl =>
          hl' ((moved.names _).mpr (.inl ⟨hl, moved.name_ne_old hc'⟩))
        rcases List.mem_cons.mp (pending c' hc' live' m ho') with he | hrest
        · exact absurd (Prod.mk.inj he).1 (apart m ho').1
        · exact hrest
    next hskip =>
      rw [if_neg hskip] at stay'
      refine ⟨h'.resumable start, rest_sub, nodup', stay', t', h', hn', fun c' hc' hl' m ho' => ?_⟩
      rcases List.mem_cons.mp (pending c' hc' hl' m ho') with he | hrest
      · obtain ⟨rfl, hname⟩ := Prod.mk.inj he
        refine absurd ⟨(hn' _).mpr (origin_eq_some ho').1, fun hl => hl' ?_⟩ hskip
        rw [hname]
        exact (hn' _).mp hl
      · exact hrest
  · rintro have' db' ⟨-, nodup', -, t', h', hn', pending⟩
    refine ⟨nodup', t', h', hn', fun c hc hl => ?_⟩
    cases hs : c.origin d t'.names with
    | none => rfl
    | some n => exact absurd (pending c hc hl n hs) List.not_mem_nil

theorem mem_adds {cd : ColumnDef} (h : cd ∈ d.adds) :
    ∃ c ∈ d.columns, cd = { name := c.name, type := c.sqlType } := by
  obtain ⟨c, hc, rfl⟩ := List.mem_map.mp h
  exact ⟨c, List.mem_of_mem_filter hc, rfl⟩

theorem nodup_adds (distinct : (d.columns.map fun c => fold c.name).Nodup) :
    (d.adds.map ColumnDef.name).Nodup := by
  refine List.Nodup.of_map fold ?_
  rw [Declared.adds, List.map_map, List.map_map]
  exact (List.filter_sublist.map _).nodup distinct

theorem addMissings_complete (start : MainStart C d db₀ db₁ t₁) (h : MainAt C d db₁ t₁ db t)
    {have_ : List String} (hn : ∀ n, n ∈ have_ ↔ n ∈ t.names) (done : Renamed d t) :
    (Prog.forEach (addMissing d.table have_) d.adds).Completes (exec C) (Resumable C d db₀) db
      fun _ db' => ∃ t', MainAt C d db₁ t₁ db' t' ∧ (∀ n ∈ have_, n ∈ t'.names) ∧
        Complete d t' := by
  have distinct := start.resumable.fit.columns
  refine Prog.completes_mono (Prog.completes_forEach (fun rest db' => rest ⊆ d.adds ∧
    (rest.map ColumnDef.name).Nodup ∧ ∃ t', MainAt C d db₁ t₁ db' t' ∧ Renamed d t' ∧
      (∀ n ∈ have_, n ∈ t'.names) ∧ (∀ n ∈ rest.map ColumnDef.name, n ∈ t'.names → n ∈ have_) ∧
      ∀ cd ∈ d.adds, cd ∈ rest ∨ cd.name ∈ t'.names)
    ⟨List.Subset.refl _, nodup_adds distinct, t, h, done, fun n hm => (hn n).mp hm,
      fun n _ hl => (hn n).mpr hl, fun cd hcd => .inl hcd⟩ ?_ ?_) ?_
  · rintro rest db' ⟨-, -, t', h', -⟩
    exact h'.resumable start
  · rintro cd rest db' ⟨hsub, nodup, t', h', done', kept, fresh, todo⟩
    have rest_sub : rest ⊆ d.adds := fun x hx => hsub (List.mem_cons_of_mem _ hx)
    obtain ⟨notin, nodup'⟩ := List.nodup_cons.mp nodup
    unfold addMissing
    split
    next hlive =>
      refine ⟨h'.resumable start, rest_sub, nodup', t', h', done', kept,
        fun n hm => fresh n (List.mem_cons_of_mem _ hm), fun cd' hcd' => ?_⟩
      rcases todo cd' hcd' with hm | hl
      · rcases List.mem_cons.mp hm with rfl | hm
        · exact .inr (kept _ hlive)
        · exact .inl hm
      · exact .inr hl
    next hmissing =>
      obtain ⟨c, hc, rfl⟩ := mem_adds (hsub List.mem_cons_self)
      have habs : c.name ∉ t'.names := fun hl => hmissing (fresh c.name List.mem_cons_self hl)
      obtain ⟨t'', ha, hstep, done''⟩ := mainStep_add h'.step.ready distinct done' hc habs
      have names : ∀ n, n ∈ t''.names ↔ n ∈ t'.names ∨ n = c.name := fun n => addColumn_names ha
      refine alter_completes start h' rfl ha hstep fun db'' h'' => ?_
      refine ⟨rest_sub, nodup', t'', h'', done'', fun n hm => (names n).mpr (.inl (kept n hm)), ?_, ?_⟩
      · intro n hm hl
        rcases (names n).mp hl with hl | rfl
        · exact fresh n (List.mem_cons_of_mem _ hm) hl
        · exact absurd hm notin
      · intro cd' hcd'
        rcases todo cd' hcd' with hm | hl
        · rcases List.mem_cons.mp hm with rfl | hm
          · exact .inr ((names _).mpr (.inr rfl))
          · exact .inl hm
        · exact .inr ((names _).mpr (.inl hl))
  · rintro _ db' ⟨-, -, t', h', -, kept, -, todo⟩
    refine ⟨t', h', kept, fun c hc => ?_⟩
    by_cases hp : c.pk
    · rw [(d.pk_only c hc hp).1]
      exact h'.step.ready.hidden _ (by simp [hiddenNames])
    · have hm : { name := c.name, type := c.sqlType } ∈ d.adds :=
        List.mem_map.mpr ⟨c, List.mem_filter.mpr ⟨hc, by simpa using hp⟩, rfl⟩
      exact (todo _ hm).resolve_left List.not_mem_nil

theorem dropStrays_complete (start : MainStart C d db₀ db₁ t₁) (h : MainAt C d db₁ t₁ db t)
    {strays : List String} (hn : ∀ n ∈ strays, n ∈ t.names) (nodup : strays.Nodup)
    (complete : Complete d t) :
    (Prog.forEach (dropStray d.table (d.columns.map Column.name)) strays).Completes (exec C)
      (Resumable C d db₀) db fun _ db' => ∃ t', MainAt C d db₁ t₁ db' t' ∧ Complete d t' := by
  refine Prog.completes_mono (Prog.completes_forEach (fun rest db' => rest.Nodup ∧
    ∃ t', MainAt C d db₁ t₁ db' t' ∧ Complete d t' ∧ ∀ n ∈ rest, n ∈ t'.names)
    ⟨nodup, t, h, complete, hn⟩ ?_ ?_) ?_
  · rintro rest db' ⟨-, t', h', -⟩
    exact h'.resumable start
  · rintro n rest db' ⟨nodup, t', h', complete', live⟩
    obtain ⟨notin, nodup'⟩ := List.nodup_cons.mp nodup
    unfold dropStray
    split
    next =>
      exact ⟨h'.resumable start, nodup', t', h', complete',
        fun m hm => live m (List.mem_cons_of_mem _ hm)⟩
    next undeclared =>
      have hl := live n List.mem_cons_self
      obtain ⟨t'', hd, hstep, complete''⟩ := mainStep_drop h'.step.ready
        start.resumable.fit.columns complete' hl undeclared
      refine alter_completes start h' rfl hd hstep fun db'' h'' => ?_
      refine ⟨nodup', t'', h'', complete'', fun m hm => (dropColumn_names hd).mpr ⟨?_, ?_⟩⟩
      · exact live m (List.mem_cons_of_mem _ hm)
      · intro hf
        obtain rfl := Table.names_unique (live m (List.mem_cons_of_mem _ hm)) hl hf
        exact notin hm
  · rintro _ db' ⟨-, t', h', complete', -⟩
    exact ⟨t', h', complete'⟩

theorem retype_completes (start : MainStart C d db₀ db₁ t₁) (h : MainAt C d db₁ t₁ db t)
    (complete : Complete d t) :
    (runPlan d.retypePlan).Completes (exec C) (Resumable C d db₀) db
      fun _ db' => ∃ t', MainAt C d db₁ t₁ db' t' ∧ Complete d t' := by
  refine Prog.completes_bind ?_
  simp only [listColumnTypes, liveColumns, Declared.retypePlan, h.live, Prog.get, Prog.Completes,
    rebuildIf]
  have here := h.resumable start
  refine ⟨here, ?_⟩
  split
  next hd =>
    have drifts : Drifts d t := complete.drifted_iff.mp hd
    obtain ⟨t', hr, hstep, complete', -⟩ :=
      mainStep_retype h.step.ready here.fit.columns complete drifts
    obtain ⟨free, unreserved, -⟩ := here.fit.tmp_free t h.live drifts
    obtain ⟨db', he, hrebuilt⟩ := rebuild_completes (fold_append_ne _ _ (by decide)) unreserved
      here.fit.unreserved_main free h.live hr
    have after : MainAt C d db₁ t₁ db' t' := by
      refine ⟨h.beside.trans (beside_rebuilt hrebuilt), ?_, h.step.trans hstep⟩
      obtain ⟨old, new, hold, hnew, hget⟩ := hrebuilt.filled
      cases Option.some.inj (h.live.symm.trans hold)
      rw [hget, ← hnew, hr]
    exact Prog.completes_bind (Prog.completes_exec here he (after.resumable start)
      ⟨after.resumable start, t', after, complete'⟩)
  next => exact ⟨here, t, h, complete⟩

/-- The main table's part completes and keeps the data. -/
theorem migrateColumns_completes (start : MainStart C d db₀ db₁ t₁) :
    (migrateColumns d).Completes (exec C) (Resumable C d db₀) db₁
      fun _ db' => ∃ t', MainAt C d db₁ t₁ db' t' ∧ Complete d t' := by
  have ready := start.resumable.fit.main t₁ start.live
  have h₁ : MainAt C d db₁ t₁ db₁ t₁ := ⟨.refl _ _, start.live, .refl ready⟩
  refine Prog.completes_bind ?_
  simp only [listColumns, liveColumns, start.live, Prog.get, Prog.Completes]
  refine ⟨start.resumable, ?_⟩
  have listed : ∀ n, n ∈ t₁.names ↔ n ∈ t₁.names := fun _ => Iff.rfl
  refine Prog.completes_bind (Prog.completes_mono (renameHiddens_complete start h₁ listed) ?_)
  rintro have₁ db₂ ⟨rfl, rfl⟩
  refine Prog.completes_bind (Prog.completes_mono
    (renameMarkeds_complete start h₁ listed (nodup_names t₁) start.stay) ?_)
  rintro have₂ db₂ ⟨nodup₂, t₂, h₂, hn₂, done₂⟩
  refine Prog.completes_bind (Prog.completes_mono (addMissings_complete start h₂ hn₂ done₂) ?_)
  rintro _ db₃ ⟨t₃, h₃, kept₃, complete₃⟩
  refine Prog.completes_bind (Prog.completes_mono (dropStrays_complete start h₃
    (fun n hn => kept₃ n ((List.mem_insertionSort _).mp hn)) (nodup_sorted nodup₂) complete₃) ?_)
  rintro _ db₄ ⟨t₄, h₄, complete₄⟩
  exact retype_completes start h₄ complete₄

end Main

end Harpia
