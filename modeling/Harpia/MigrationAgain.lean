import Harpia.MigrationRuns

namespace Harpia

open Text Sqlite

def Declared.stamp (d : Declared) : Stmt :=
  .insertOrReplace versionTable [("name", .text d.table), ("version", .text d.version)]

/-- The plan finds nothing to change in its table. -/
structure Plan.Idle (plan : Plan) (db : Db) : Prop where
  types : drifted (liveTypes (liveColumns db plan.table)) plan.conditions = false
  columns : ∀ adds keep, plan.evolve = some (adds, keep) → liveColumns db plan.table ≠ [] →
    (∀ c ∈ adds, c.name ∈ (liveColumns db plan.table).map ColumnDef.name) ∧
      ∀ c ∈ liveColumns db plan.table, c.name ∈ keep

/-- A migration of the version finds nothing to change. -/
structure UpToDate (C : Casting) (d : Declared) (db : Db) : Prop where
  unreserved : ∀ e ∈ d.ddl, reserved e.1 = false
  stamped : exec C d.stamp db = some db
  main : MainShaped d db
  listed : ∀ n ∈ db.names, startsWith n (d.table ++ "__") → n ∈ d.children.map Child.table
  present : ∀ c ∈ d.children, c.table ∈ db.names
  idle : ∀ c ∈ d.children, ∀ plan, c.plan = some plan → plan.Idle db

/-- The statements that change no schema: `CREATE TABLE IF NOT EXISTS` where the table exists, and
the stamp. -/
def Renews (d : Declared) (s : Stmt) : Prop :=
  s = d.stamp ∨ ∃ name columns key, s = .createTable true name columns key

theorem drifted_of_subset {live conditions : List (String × SqlType)}
    (nodup : (live.map Prod.fst).Nodup) (declared : conditions ⊆ live) :
    drifted live conditions = false := by
  refine List.any_eq_false.mpr fun p hp => ?_
  simp only [List.any_eq_true, Bool.and_eq_true, decide_eq_true_eq]
  rintro ⟨l, hl, same, differs⟩
  exact differs (by rw [List.inj_on_of_nodup_map nodup hl (declared hp) same])

theorem liveTypes_names (columns : List ColumnDef) :
    (liveTypes columns).map Prod.fst = columns.map ColumnDef.name := by
  rw [liveTypes, List.map_map]
  rfl

theorem liveTypes_nodup (t : Table) : ((liveTypes t.columns).map Prod.fst).Nodup := by
  have folded : ((t.columns.map ColumnDef.name).map fold).Nodup := by
    rw [List.map_map]
    exact t.names_nodup
  rw [liveTypes_names]
  exact folded.of_map fold

theorem liveColumns_of_get? {db : Db} {table : String} {t : Table} (h : db.get? table = some t) :
    liveColumns db table = t.columns := by
  rw [liveColumns, h]

theorem liveColumns_congr {db db' : Db} {table : String} (h : db'.get? table = db.get? table) :
    liveColumns db' table = liveColumns db table := by
  rw [liveColumns, liveColumns, h]

theorem Plan.Idle.congr {plan : Plan} {db db' : Db} (h : plan.Idle db)
    (same : db'.get? plan.table = db.get? plan.table) : plan.Idle db' := by
  have live := liveColumns_congr same
  refine ⟨?_, ?_⟩
  · rw [live]
    exact h.types
  · rw [live]
    exact h.columns

section Again

variable {C : Casting} {d : Declared} {db : Db} {P : Stmt → Prop}

theorem runPlan_idles {plan : Plan} (h : plan.Idle db) :
    (runPlan plan).Idles (exec C) P db () := by
  show (runPlan plan : Script Unit).Idles (exec C) P db ()
  have quiet := h.types
  simp only [runPlan, bind, listColumnTypes, Prog.get, Prog.bind, Prog.Idles]
  cases evolve : plan.evolve with
  | none =>
    simp only [rebuildIf, quiet]
    rfl
  | some e =>
    obtain ⟨adds, keep⟩ := e
    simp only
    split
    · rfl
    next live =>
      have some_ : liveColumns db plan.table ≠ [] := fun none_ => live (by rw [none_]; rfl)
      obtain ⟨added, kept⟩ := h.columns adds keep evolve some_
      have nostray : (liveTypes (liveColumns db plan.table)).any (fun l => l.1 ∉ keep) = false := by
        rw [List.any_eq_false]
        intro l hl
        obtain ⟨c, hc, rfl⟩ := List.mem_map.mp hl
        simpa using kept c hc
      apply Prog.idles_bind (Prog.idles_forEach fun c hc => ?_)
      · simp only [rebuildIf, quiet, nostray]
        rfl
      · rw [addMissing, liveTypes_names, if_pos (added c hc)]
        rfl

/-- A table of the declared columns is left alone. -/
theorem migrateColumns_idles (h : MainShaped d db) :
    (migrateColumns d).Idles (exec C) P db () := by
  obtain ⟨t, ht, shaped⟩ := h
  have live : liveColumns db d.table = t.columns := liveColumns_of_get? ht
  have names : ∀ n, n ∈ t.columns.map ColumnDef.name ↔ n ∈ d.columns.map Column.name := by
    intro n
    constructor
    · intro hn
      obtain ⟨c, hc, rfl⟩ := List.mem_map.mp hn
      obtain ⟨c', hc', same, -⟩ := (shaped c.name c.type).mp ⟨c, hc, rfl, rfl⟩
      exact List.mem_map.mpr ⟨c', hc', same⟩
    · intro hn
      obtain ⟨c, hc, rfl⟩ := List.mem_map.mp hn
      obtain ⟨c', hc', same, -⟩ := (shaped c.name c.sqlType).mpr ⟨c, hc, rfl, rfl⟩
      exact List.mem_map.mpr ⟨c', hc', same⟩
  have present : ∀ c ∈ d.columns, c.name ∈ t.columns.map ColumnDef.name :=
    fun c hc => (names c.name).mpr (List.mem_map_of_mem hc)
  simp only [migrateColumns, bind, listColumns, Prog.get, Prog.bind, Prog.Idles, live]
  apply Prog.idles_bind (Prog.idles_fold fun p hp => ?_)
  · apply Prog.idles_bind (Prog.idles_fold fun p hp => ?_)
    · apply Prog.idles_bind (Prog.idles_forEach fun c hc => ?_)
      · apply Prog.idles_bind (Prog.idles_forEach fun n hn => ?_)
        · apply runPlan_idles
          refine ⟨?_, fun adds keep none_ => by simp [Declared.retypePlan] at none_⟩
          show drifted (liveTypes (liveColumns db d.table)) _ = false
          rw [live]
          refine drifted_of_subset (liveTypes_nodup t) fun p hp => ?_
          obtain ⟨c, hc, rfl⟩ := List.mem_map.mp hp
          obtain ⟨c', hc', name, type⟩ := (shaped c.name c.sqlType).mpr ⟨c, hc, rfl, rfl⟩
          exact List.mem_map.mpr ⟨c', hc', by rw [name, type]⟩
        · rw [dropStray, if_pos ((names n).mp ((List.mem_insertionSort _).mp hn))]
          rfl
      · obtain ⟨c', hc', rfl⟩ := List.mem_map.mp hc
        rw [addMissing, if_pos (present c' (List.mem_of_mem_filter hc'))]
        rfl
    · obtain ⟨c, hc, marked⟩ := List.mem_filterMap.mp hp
      obtain ⟨old, -, rfl⟩ := Option.map_eq_some_iff.mp marked
      rw [renameMarked, if_neg fun fires => fires.2 (present c hc)]
      rfl
  · obtain ⟨c, hc, legacy⟩ := List.mem_filterMap.mp hp
    have name : p.1 = c.name := by simpa using List.find?_some legacy
    rw [renameHidden, if_pos (name ▸ present c hc)]
    rfl

/-- An up-to-date database is left exactly as it is. -/
theorem migration_idles (h : UpToDate C d db) :
    (migration d).Idles (exec C) (Renews d) db () := by
  have exists_ : ∀ {name columns key} {t : Table}, reserved name = false → db.get? name = some t →
      (Prog.exec [.createTable true name columns key] : Script Unit).Idles (exec C) (Renews d) db
        () := by
    intro name columns key t free ht
    exact Prog.idles_exec (.inr ⟨name, columns, key, rfl⟩) (exec_createTable_live free ht)
  have listing : ∀ n, n ∈ db.names.filter (fun n => startsWith n (d.table ++ "__")) ↔
      n ∈ db.names ∧ startsWith n (d.table ++ "__") := by simp
  obtain ⟨version, hversion, -⟩ := Option.bind_eq_some_iff.mp h.stamped
  obtain ⟨main, hmain, -⟩ := h.main
  simp only [migration, bind]
  apply Prog.idles_bind (exists_ unreserved_version hversion)
  simp only [listChildTables, Prog.get, Prog.bind, Prog.Idles]
  apply Prog.idles_bind (Prog.idles_fold fun p hp => ?_)
  · apply Prog.idles_bind (Prog.idles_forEach fun s hs => ?_)
    · apply Prog.idles_bind (migrateColumns_idles h.main)
      apply Prog.idles_bind (Prog.idles_forEach fun n hn => ?_)
      · apply Prog.idles_bind (Prog.idles_forEach fun plan hp => ?_)
        · exact Prog.idles_exec (.inl rfl) h.stamped
        · obtain ⟨c, hc, hplan⟩ := List.mem_filterMap.mp hp
          exact runPlan_idles (h.idle c (mem_evolving hc) plan hplan)
      · obtain ⟨live, prefixed⟩ := (listing n).mp ((List.mem_insertionSort _).mp hn)
        rw [dropStale, if_pos (h.listed n live prefixed)]
        rfl
    · obtain ⟨e, he, rfl⟩ := List.mem_map.mp hs
      have free := h.unreserved e he
      rcases ddl_fold he with rfl | ⟨c, hc, rfl⟩
      · exact exists_ free hmain
      · obtain ⟨t, ht⟩ := Db.exists_get?_of_mem_names (h.present c hc)
        exact exists_ free ht
  · obtain ⟨c, hc, htable, -⟩ := childRename_named hp
    have there : p.2 ∈ db.names.filter (fun n => startsWith n (d.table ++ "__")) := by
      rw [listing, ← htable]
      exact ⟨h.present c hc, (childTable_ne hc).2.2⟩
    rw [renameChild, if_neg fun fires => fires.2 there]
    rfl

end Again

section First

variable {C : Casting} {d : Declared} {db₀ db : Db}

/-- The listing of child tables is right: a live table of a declared child has its spelling. -/
structure Spelled (d : Declared) (db : Db) : Prop where
  listed : ∀ n ∈ db.names, startsWith n (d.table ++ "__") → n ∈ d.children.map Child.table
  spelled : ∀ c ∈ d.children, ∀ n ∈ db.names, fold n = fold c.table → n = c.table

theorem Spelled.within {db' : Db} (h : Spelled d db) (names : NamedWithin db.names db') :
    Spelled d db' :=
  ⟨fun n hn => h.listed n (names n hn), fun c hc n hn => h.spelled c hc n (names n hn)⟩

theorem Spelled.present (h : Spelled d db) {c : Child} (hc : c ∈ d.children) {t : Table}
    (ht : db.get? c.table = some t) : c.table ∈ db.names := by
  obtain ⟨n, hn, same⟩ := Db.exists_name_of_get? ht
  exact h.spelled c hc n hn same ▸ hn

theorem dropStale_drops {keep tables : List String} :
    (Prog.forEach (dropStale keep) tables).Obeys (exec C) (fun _ => True) db fun _ db' =>
      ∀ n ∈ db'.names, n ∈ db.names ∧ (n ∈ tables → n ∈ keep) := by
  refine Prog.obeys_mono (Prog.obeys_forEach (fun rest db' =>
    ∀ n ∈ db'.names, n ∈ db.names ∧ (n ∈ tables → n ∈ keep ∨ n ∈ rest))
    (fun n hn => ⟨hn, fun listed => .inr listed⟩) ?_) ?_
  · intro m rest db₁ h
    have pending : ∀ n ∈ db₁.names, n ∈ keep ∨ n ≠ m →
        n ∈ db.names ∧ (n ∈ tables → n ∈ keep ∨ n ∈ rest) := by
      intro n hn other
      refine ⟨(h n hn).1, fun listed => ?_⟩
      rcases (h n hn).2 listed with kept | later
      · exact .inl kept
      · rcases List.mem_cons.mp later with same | later
        · exact other.imp id fun ne => absurd same ne
        · exact .inr later
    unfold dropStale
    split
    next kept =>
      show ∀ n ∈ db₁.names, _
      intro n hn
      by_cases same : n = m
      · exact pending n hn (.inl (same ▸ kept))
      · exact pending n hn (.inr same)
    next =>
      refine ⟨fun _ _ => trivial, fun db₂ he => ?_⟩
      obtain ⟨t, -, rfl⟩ := Option.map_eq_some_iff.mp (execAll_singleton he)
      intro n hn
      obtain ⟨there, ne⟩ := Db.mem_names_erase.mp hn
      exact pending n there (.inr fun same => ne (congrArg fold same))
  · intro _ db' h n hn
    exact ⟨(h n hn).1, fun listed => ((h n hn).2 listed).resolve_right List.not_mem_nil⟩

/-- What the additions leave: the live columns, and those that were missing. -/
theorem addMissing_columns {table : String} {have_ : List String} {adds : List ColumnDef}
    {t : Table} (ht : db.get? table = some t) :
    (Prog.forEach (addMissing table have_) adds).Obeys (exec C) (fun _ => True) db fun _ db' =>
      Beside table db db' ∧ ∃ t', db'.get? table = some t' ∧
        ∀ c, c ∈ t'.columns ↔ c ∈ t.columns ∨ c ∈ adds ∧ c.name ∉ have_ := by
  refine Prog.obeys_mono (Prog.obeys_forEach (fun rest db' => rest ⊆ adds ∧ Beside table db db' ∧
    ∃ t', db'.get? table = some t' ∧ (∀ c ∈ t.columns, c ∈ t'.columns) ∧
      (∀ c ∈ t'.columns, c ∈ t.columns ∨ c ∈ adds ∧ c.name ∉ have_) ∧
      ∀ c ∈ adds, c.name ∉ have_ → c ∈ rest ∨ c ∈ t'.columns)
    ⟨List.Subset.refl _, .refl _ _, t, ht, fun _ hc => hc, fun _ hc => .inl hc,
      fun _ hc _ => .inl hc⟩ ?_) ?_
  · rintro c rest db₁ ⟨hsub, beside, t₁, ht₁, kept, only, done⟩
    have rest_sub : rest ⊆ adds := fun x hx => hsub (List.mem_cons_of_mem _ hx)
    unfold addMissing
    split
    next there =>
      refine ⟨rest_sub, beside, t₁, ht₁, kept, only, fun c' hc' missing => ?_⟩
      rcases done c' hc' missing with later | here
      · rcases List.mem_cons.mp later with rfl | later
        · exact absurd there missing
        · exact .inl later
      · exact .inr here
    next missing =>
      refine ⟨fun _ _ => trivial, fun db₂ he => ?_⟩
      obtain ⟨t', t₂, ht', added, rfl⟩ := exec_alter rfl (execAll_singleton he)
      cases Option.some.inj (ht₁.symm.trans ht')
      have mem : ∀ c', c' ∈ t₂.columns ↔ c' ∈ t₁.columns ∨ c' = c := by
        simp [addColumn_columns added]
      refine ⟨rest_sub, beside.trans (beside_put _ _ _), t₂, Db.get?_put_self _ _ _,
        fun c' hc' => (mem c').mpr (.inl (kept c' hc')), fun c' hc' => ?_, fun c' hc' absent => ?_⟩
      · rcases (mem c').mp hc' with here | rfl
        · exact only c' here
        · exact .inr ⟨hsub List.mem_cons_self, missing⟩
      · rcases done c' hc' absent with later | here
        · rcases List.mem_cons.mp later with rfl | later
          · exact .inr ((mem c').mpr (.inr rfl))
          · exact .inl later
        · exact .inr ((mem c').mpr (.inl here))
  · rintro _ db' ⟨-, beside, t', ht', kept, only, done⟩
    refine ⟨beside, t', ht', fun c => ⟨only c, ?_⟩⟩
    rintro (here | ⟨hc, missing⟩)
    · exact kept c here
    · exact (done c hc missing).resolve_left List.not_mem_nil

theorem idle_of_rebuilt {c : Child} {plan : Plan} (hp : c.plan = some plan) {db' : Db}
    (h : Rebuilt C c.table c.shape.columns c.shape.key c.shape.targets db db') : plan.Idle db' := by
  obtain ⟨old, new, -, hnew, hget⟩ := h.filled
  have table := (childPlan_rebuilds hp).1
  have columns := (rebuiltTable_columns hnew).1
  have live : liveColumns db' plan.table = c.shape.columns := by
    rw [table, liveColumns_of_get? hget, columns]
  have nodup : ((liveTypes c.shape.columns).map Prod.fst).Nodup := columns ▸ liveTypes_nodup new
  cases hs : c.shape with
  | link => simp [Child.plan, hs] at hp
  | repeated valSql =>
    simp only [Child.plan, hs, Option.some.injEq] at hp
    subst hp
    refine ⟨?_, fun adds keep none_ => by simp at none_⟩
    rw [live]
    apply drifted_of_subset nodup
    simp [hs, ChildShape.columns, liveTypes, keyColumn]
  | map keySql valSql =>
    simp only [Child.plan, hs, Option.some.injEq] at hp
    subst hp
    refine ⟨?_, fun adds keep none_ => by simp at none_⟩
    rw [live]
    apply drifted_of_subset nodup
    simp [hs, ChildShape.columns, liveTypes, keyColumn]
  | composed cs =>
    simp only [Child.plan, hs, Option.some.injEq] at hp
    subst hp
    have all : c.shape.columns = keyColumn "owner" :: keyColumn "ordinal" ::
        cs.map Column.sqlDef := by rw [hs]; rfl
    refine ⟨?_, fun adds keep given _ => ?_⟩
    · rw [live]
      refine drifted_of_subset nodup fun p hp => ?_
      obtain ⟨col, hcol, rfl⟩ := List.mem_map.mp hp
      rw [all]
      have declared : col.sqlDef ∈ cs.map Column.sqlDef := List.mem_map_of_mem hcol
      exact List.mem_map.mpr ⟨col.sqlDef,
        List.mem_cons_of_mem _ (List.mem_cons_of_mem _ declared), rfl⟩
    · cases Option.some.inj given
      rw [live, all]
      refine ⟨fun e he => ?_, fun e he => ?_⟩
      · exact List.mem_map_of_mem (List.mem_cons_of_mem _ (List.mem_cons_of_mem _ he))
      · rcases List.mem_cons.mp he with rfl | he
        · exact List.mem_cons_self
        · rcases List.mem_cons.mp he with rfl | he
          · exact List.mem_cons_of_mem _ List.mem_cons_self
          · obtain ⟨col, hcol, rfl⟩ := List.mem_map.mp he
            exact List.mem_cons_of_mem _ (List.mem_cons_of_mem _ (List.mem_map_of_mem hcol))

theorem rebuildIf_settles {c : Child} {plan : Plan} (hp : c.plan = some plan)
    (beside : Beside c.table db₀ db) {t : Table} (ht : db.get? c.table = some t) {force : Bool}
    (hf : force = false → plan.Idle db) :
    (rebuildIf force plan).Obeys (exec C) (fun _ => True) db fun _ db' =>
      Beside c.table db₀ db' ∧ (∃ t, db'.get? c.table = some t) ∧ plan.Idle db' := by
  obtain ⟨htable, tmp, hne, hs⟩ := childPlan_rebuilds hp
  rw [htable] at hne hs
  unfold rebuildIf
  split
  · refine Prog.obeys_forEach_exec (fun _ _ _ _ => trivial) fun db' he => ?_
    rw [hs] at he
    have hr := rebuilt_of_execAll hne he
    obtain ⟨_, new, -, -, hget⟩ := hr.filled
    exact ⟨beside.trans (beside_rebuilt hr), ⟨new, hget⟩, idle_of_rebuilt hp hr⟩
  next still => exact ⟨beside, ⟨t, ht⟩, hf (by simpa using still)⟩

/-- Once a child's plan is done, it finds nothing more to do. -/
theorem runPlan_settles {c : Child} {plan : Plan} (hp : c.plan = some plan) {t : Table}
    (ht : db.get? c.table = some t) :
    (runPlan plan).Obeys (exec C) (fun _ => True) db fun _ db' =>
      Beside c.table db db' ∧ (∃ t, db'.get? c.table = some t) ∧ plan.Idle db' := by
  have htable := (childPlan_rebuilds hp).1
  have live : liveColumns db plan.table = t.columns := by rw [htable, liveColumns_of_get? ht]
  have plain : plan.evolve = none → ∀ force,
      force = drifted (liveTypes (liveColumns db plan.table)) plan.conditions →
      (rebuildIf force plan).Obeys (exec C) (fun _ => True) db fun _ db' =>
        Beside c.table db db' ∧ (∃ t, db'.get? c.table = some t) ∧ plan.Idle db' := by
    rintro none_ force rfl
    refine rebuildIf_settles hp (.refl _ _) ht fun still => ⟨still, fun adds keep some_ => ?_⟩
    rw [none_] at some_
    simp at some_
  refine Prog.obeys_bind ?_
  simp only [listColumnTypes, Prog.get, Prog.Obeys]
  cases hs : c.shape with
  | link => simp [Child.plan, hs] at hp
  | repeated valSql =>
    simp only [Child.plan, hs, Option.some.injEq] at hp
    subst hp
    exact plain rfl _ rfl
  | map keySql valSql =>
    simp only [Child.plan, hs, Option.some.injEq] at hp
    subst hp
    exact plain rfl _ rfl
  | composed cs =>
    have hp' := hp
    simp only [Child.plan, hs, Option.some.injEq] at hp'
    subst hp'
    rw [live]
    simp only
    split
    next none_ =>
      rw [liveTypes, List.map_eq_nil_iff] at none_
      refine ⟨.refl _ _, ⟨t, ht⟩, ?_, fun _ _ _ some_ => absurd (live.trans none_) some_⟩
      rw [live, none_]
      simp [drifted, liveTypes]
    next =>
      refine Prog.obeys_bind (Prog.obeys_mono (addMissing_columns ht) ?_)
      rintro _ db₁ ⟨beside, t₁, ht₁, columns⟩
      have live₁ : liveColumns db₁ c.table = t₁.columns := liveColumns_of_get? ht₁
      refine rebuildIf_settles hp beside ht₁ fun still => ?_
      simp only [Bool.or_eq_false_iff, List.any_eq_false, decide_eq_true_eq, not_not] at still
      obtain ⟨nodrift, nostray⟩ := still
      refine ⟨?_, fun adds keep given _ => ?_⟩
      · show drifted (liveTypes (liveColumns db₁ c.table)) _ = false
        rw [live₁]
        refine List.any_eq_false.mpr fun p hp => ?_
        simp only [List.any_eq_true, Bool.and_eq_true, decide_eq_true_eq]
        rintro ⟨l, hl, same, differs⟩
        obtain ⟨e, he, rfl⟩ := List.mem_map.mp hl
        obtain ⟨col, hcol, rfl⟩ := List.mem_map.mp hp
        rcases (columns e).mp he with old | ⟨added, missing⟩
        · refine differs (drifted_eq_false nodrift (List.mem_map_of_mem old) ?_)
          rw [show e.name = col.name from same]
          exact List.mem_map_of_mem hcol
        · have declared : col.sqlDef ∈ t₁.columns := by
            refine (columns _).mpr (.inr ⟨List.mem_map_of_mem hcol, ?_⟩)
            rw [show col.sqlDef.name = e.name from same.symm]
            exact missing
          have folded : fold e.name = fold col.sqlDef.name := congrArg fold same
          have one : e = col.sqlDef := List.inj_on_of_nodup_map t₁.names_nodup he declared folded
          exact differs (by rw [one]; rfl)
      · cases Option.some.inj given
        show (∀ e ∈ cs.map Column.sqlDef, e.name ∈ (liveColumns db₁ c.table).map ColumnDef.name) ∧
          ∀ e ∈ liveColumns db₁ c.table, e.name ∈ "owner" :: "ordinal" :: cs.map Column.name
        rw [live₁]
        refine ⟨fun e he => ?_, fun e he => ?_⟩
        · by_cases there : e.name ∈ (liveTypes t.columns).map Prod.fst
          · rw [liveTypes_names] at there
            obtain ⟨e', he', same⟩ := List.mem_map.mp there
            exact List.mem_map.mpr ⟨e', (columns e').mpr (.inl he'), same⟩
          · exact List.mem_map_of_mem ((columns e).mpr (.inr ⟨he, there⟩))
        · rcases (columns e).mp he with old | ⟨added, -⟩
          · exact nostray _ (List.mem_map_of_mem old)
          · obtain ⟨col, hcol, rfl⟩ := List.mem_map.mp added
            exact List.mem_cons_of_mem _ (List.mem_cons_of_mem _ (List.mem_map_of_mem hcol))

/-- What a database must be like for a completed migration to settle it. -/
structure Restartable (d : Declared) (db : Db) : Prop where
  /-- no marker names the key column -/
  key_kept : ∀ c ∈ d.columns, c.renamedFrom ≠ some "HARPIA_ID"
  /-- child table names differ in more than case, from each other and from live tables -/
  children_distinct : (d.children.map fun c => fold c.table).Nodup
  spelled : ∀ c ∈ d.children, ∀ n ∈ db.names, fold n = fold c.table → n = c.table
  keyed : HasKey d.table db
  /-- a version table that is there has its key -/
  versioned : ∀ t, db.get? versionTable = some t → t.key = ["name"]

/-- The child plans, one after the other. -/
theorem runPlans_settle (distinct : (d.children.map fun c => fold c.table).Nodup)
    (present : ∀ c ∈ d.children, c.table ∈ db.names) :
    (Prog.forEach runPlan (d.evolving.filterMap Child.plan)).Obeys (exec C) (fun _ => True) db
      fun _ db' => (∀ n, (∀ c ∈ d.children, fold n ≠ fold c.table) → db'.get? n = db.get? n) ∧
        NamedWithin db.names db' ∧ ∀ c ∈ d.children, (∃ t, db'.get? c.table = some t) ∧
          ∀ plan, c.plan = some plan → plan.Idle db' := by
  refine Prog.obeys_mono (Prog.obeys_forEach (fun rest db' =>
    rest ⊆ d.evolving.filterMap Child.plan ∧
      (∀ n, (∀ c ∈ d.children, fold n ≠ fold c.table) → db'.get? n = db.get? n) ∧
      NamedWithin db.names db' ∧ ∀ c ∈ d.children, (∃ t, db'.get? c.table = some t) ∧
        ∀ plan, c.plan = some plan → plan ∈ rest ∨ plan.Idle db')
    ⟨List.Subset.refl _, fun _ _ => rfl, fun _ hn => hn, fun c hc =>
      ⟨Db.exists_get?_of_mem_names (present c hc), fun plan hp => .inl (mem_plans hc hp)⟩⟩ ?_) ?_
  · rintro plan rest db₁ ⟨hsub, others, names, children⟩
    obtain ⟨c, hc, hp⟩ := List.mem_filterMap.mp (hsub List.mem_cons_self)
    have hc := mem_evolving hc
    obtain ⟨htable, rebuilds⟩ := childPlan_rebuilds hp
    obtain ⟨t, ht⟩ := (children c hc).1
    refine Prog.obeys_mono (Prog.obeys_and (runPlan_settles hp ht)
      (runPlan_within rebuilds (htable ▸ present c hc) names)) ?_
    rintro _ db₂ ⟨⟨beside, there, idle⟩, names₂⟩
    refine ⟨fun x hx => hsub (List.mem_cons_of_mem _ hx), fun n hn => ?_, names₂, fun c' hc' => ?_⟩
    · rw [beside.tables n (hn c hc), others n hn]
    · by_cases same : fold c'.table = fold c.table
      · obtain rfl := childDeclared_unique distinct hc' hc same
        refine ⟨there, fun plan' hp' => .inr ?_⟩
        cases Option.some.inj (hp.symm.trans hp')
        exact idle
      · obtain ⟨⟨t', ht'⟩, plans⟩ := children c' hc'
        refine ⟨⟨t', by rw [beside.tables _ same, ht']⟩, fun plan' hp' => ?_⟩
        have apart : fold plan'.table ≠ fold c.table := by
          rw [(childPlan_rebuilds hp').1]
          exact same
        rcases plans plan' hp' with later | idle'
        · rcases List.mem_cons.mp later with rfl | later
          · exact absurd (congrArg fold htable) apart
          · exact .inl later
        · exact .inr (idle'.congr (beside.tables _ apart))
  · rintro _ db' ⟨-, others, names, children⟩
    refine ⟨others, names, fun c hc => ⟨(children c hc).1, fun plan hp => ?_⟩⟩
    exact ((children c hc).2 plan hp).resolve_left List.not_mem_nil

theorem renameChildren_frame {childHave : List String} {n : String}
    (apart : ∀ suffix, fold n ≠ fold (d.table ++ "__" ++ suffix)) :
    (Prog.fold renameChild childHave d.childRenames).Obeys (exec C) (fun _ => True) db
      fun _ db' => db'.get? n = db.get? n := by
  refine Prog.obeys_mono (Prog.obeys_fold (fun rest _ db' => rest ⊆ d.childRenames ∧
    db'.get? n = db.get? n) ⟨List.Subset.refl _, rfl⟩ ?_) fun _ _ h => h.2
  rintro p rest have_ db₁ ⟨hsub, same⟩
  have rest_sub : rest ⊆ d.childRenames := fun x hx => hsub (List.mem_cons_of_mem _ hx)
  unfold renameChild
  split
  · refine Prog.obeys_bind ⟨fun _ _ => trivial, fun db₂ he => ⟨rest_sub, ?_⟩⟩
    obtain ⟨c, hc, htable, old, hpre⟩ := childRename_named (hsub List.mem_cons_self)
    obtain ⟨suffix, named⟩ := d.child_named c hc
    rw [← same]
    refine exec_frame (execAll_singleton he) fun m hm => ?_
    rcases List.mem_cons.mp hm with rfl | hm
    · exact hpre ▸ apart old
    · rw [List.mem_singleton.mp hm, ← htable, named]
      exact apart suffix
  · exact ⟨rest_sub, same⟩

theorem stamp_again {db' : Db} (he : exec C d.stamp db = some db')
    (versioned : ∀ t, db.get? versionTable = some t → t.key = ["name"]) :
    exec C d.stamp db' = some db' := by
  obtain ⟨t, ht, he⟩ := Option.bind_eq_some_iff.mp he
  split at he
  next all =>
    obtain ⟨t', hi, rfl⟩ := Option.map_eq_some_iff.mp he
    have self : t.conflicts (Row.ofPairs [("name", .text d.table), ("version", .text d.version)])
        (Row.ofPairs [("name", .text d.table), ("version", .text d.version)]) := by
      simp [Table.conflicts, versioned t ht, Clash, Row.ofPairs]
    obtain ⟨again, columns⟩ := insertOrReplace_again hi self
    show ((db.put versionTable t').get? versionTable).bind _ = _
    rw [Db.get?_put_self, Option.bind_some, columns, if_pos all, again, Option.map_some,
      Db.put_get? (Db.get?_put_self _ _ _)]
  next => simp at he

theorem migration_settles (ready : Restartable d db) :
    (migration d).Obeys (exec C) (fun _ => True) db fun _ => UpToDate C d := by
  refine Prog.obeys_bind ⟨fun _ _ => trivial, fun db₁ h₁ => ?_⟩
  have version := exec_version (execAll_singleton h₁)
  have versioned₁ : ∀ t, db₁.get? versionTable = some t → t.key = ["name"] := by
    rcases exec_createIfMissing (execAll_singleton h₁) with ⟨-, -, rfl⟩ | ⟨t, -, hc, rfl⟩
    · exact ready.versioned
    · intro t' ht'
      rw [Db.get?_put_self] at ht'
      cases Option.some.inj ht'
      exact (create_columns hc).2.1
  refine Prog.obeys_bind ?_
  simp only [listChildTables, Prog.get, Prog.Obeys]
  refine Prog.obeys_bind (Prog.obeys_mono (Prog.obeys_and
    (renameChildren_track ready.children_distinct (childTracks_listing version ready.spelled))
    (renameChildren_frame (n := versionTable) fun suffix => ?_)) ?_)
  · rw [String.append_assoc]
    exact (fold_ne_versionTable d _).symm
  rintro childHave db₂ ⟨tracks, version₂⟩
  refine Prog.obeys_bind (Prog.obeys_mono (createTableSql_creates d db₂) ?_)
  rintro _ db₃ ⟨created, present⟩
  have key₂ : HasKey d.table db₂ := fun t ht => ready.keyed t (tracks.main ▸ ht)
  obtain ⟨-, t₃, ht₃⟩ := present _ List.mem_cons_self
  refine Prog.obeys_bind (Prog.obeys_mono (migrateColumns_shapes ht₃
    (hasKey_created created key₂ t₃ ht₃) ready.key_kept) ?_)
  rintro _ db₄ ⟨beside, t₄, ht₄, hmain⟩
  refine Prog.obeys_bind (Prog.obeys_mono (Prog.obeys_and dropStale_keeps dropStale_drops) ?_)
  rintro _ db₅ ⟨keeps, drops⟩
  have stale : ∀ n ∈ sorted childHave, startsWith n (d.table ++ "__") :=
    fun n hn => ((tracks.listed n).mp ((List.mem_insertionSort _).mp hn)).2
  have apart : ∀ n, (∀ suffix, fold n ≠ fold (d.table ++ "__" ++ suffix)) →
      db₅.get? n = db₄.get? n := by
    refine fun n hn => keeps n fun m hm _ => ?_
    obtain ⟨suffix, rfl⟩ := startsWith_iff.mp (stale m hm)
    exact hn suffix
  have main₅ : db₅.get? d.table = some t₄ :=
    (apart _ fun suffix => (fold_child_ne suffix).symm).trans ht₄
  have versioned₅ : ∀ t, db₅.get? versionTable = some t → t.key = ["name"] := by
    intro t ht
    rw [apart _ fun suffix => ?_, beside.tables _ (fold_table_ne_version d).symm] at ht
    · rcases created.origin _ t ht with there | ⟨e, he, same, -⟩
      · exact versioned₁ t (version₂ ▸ there)
      · rcases ddl_fold he with rfl | ⟨c, hc, rfl⟩
        · exact absurd same (fold_table_ne_version d)
        · exact absurd same (childTable_ne hc).2.1
    · rw [String.append_assoc]
      exact (fold_ne_versionTable d _).symm
  have found : ∀ n ∈ db₅.names, fold n ≠ fold d.table →
      n ∈ db₂.names ∨ n ∈ d.children.map Child.table := by
    intro n hn ne
    rcases created.names n ((beside.names n ne).mp (drops n hn).1) with there | declared
    · exact .inl there
    · obtain ⟨e, he, rfl⟩ := List.mem_map.mp declared
      rcases ddl_fold he with rfl | ⟨c, hc, rfl⟩
      · exact absurd rfl ne
      · exact .inr (List.mem_map_of_mem hc)
  have spelled₅ : Spelled d db₅ := by
    refine ⟨fun n hn prefixed => ?_, fun c hc n hn same => ?_⟩
    · obtain ⟨suffix, rfl⟩ := startsWith_iff.mp prefixed
      rcases found _ hn (fold_child_ne suffix) with there | declared
      · have listed := (tracks.listed _).mpr ⟨there, prefixed⟩
        exact (drops _ hn).2 ((List.mem_insertionSort _).mpr listed)
      · exact declared
    · rcases found n hn (same ▸ (childTable_ne hc).1) with there | declared
      · exact tracks.spelled c hc n there same
      · obtain ⟨c', hc', rfl⟩ := List.mem_map.mp declared
        rw [childDeclared_unique ready.children_distinct hc' hc same]
  have child₅ : ∀ c ∈ d.children, c.table ∈ db₅.names := by
    intro c hc
    obtain ⟨-, t, ht⟩ := present (c.table, c.shape.columns, c.shape.key)
      (List.mem_cons_of_mem _ (List.mem_map_of_mem hc))
    refine spelled₅.present hc (t := t) ?_
    rw [keeps, beside.tables _ (childTable_ne hc).1, ht]
    intro m hm hkeep same
    have there := ((tracks.listed m).mp ((List.mem_insertionSort _).mp hm)).1
    exact hkeep (tracks.spelled c hc m there same.symm ▸ List.mem_map_of_mem hc)
  refine Prog.obeys_bind (Prog.obeys_mono (runPlans_settle ready.children_distinct child₅) ?_)
  rintro _ db₆ ⟨others₆, names₆, children₆⟩
  refine ⟨fun _ _ => trivial, fun db₇ h₇ => ?_⟩
  have stamp := execAll_singleton h₇
  have frame : ∀ n, fold n ≠ fold versionTable → db₇.get? n = db₆.get? n := fun n hn =>
    exec_frame stamp fun m hm => by
      rw [List.mem_singleton.mp hm]
      exact hn
  have names₇ : NamedWithin db₆.names db₇ := fun n hn =>
    (mem_names_exec stamp hn).resolve_right List.not_mem_nil
  have spelled₇ := (spelled₅.within names₆).within names₇
  refine ⟨fun e he => (present e he).1, stamp_again stamp fun t ht => versioned₅ t ?_,
    ⟨t₄, ?_, hmain⟩, spelled₇.listed, fun c hc => ?_, fun c hc plan hp => ?_⟩
  · rw [← others₆ _ fun c hc => (childTable_ne hc).2.1.symm, ht]
  · rw [frame _ (fold_table_ne_version d), others₆ _ fun c hc => (childTable_ne hc).1.symm, main₅]
  · obtain ⟨t, ht⟩ := (children₆ c hc).1
    refine spelled₇.present hc (t := t) ?_
    rw [frame _ (childTable_ne hc).2.1, ht]
  · refine ((children₆ c hc).2 plan hp).congr (frame _ ?_)
    rw [(childPlan_rebuilds hp).1]
    exact (childTable_ne hc).2.1

/-- A completed migration may be run again at every start: it issues nothing but statements that
change no schema, and leaves the database exactly as it is. -/
theorem migrate_again {db' : Db} (ready : Restartable d db) (h : migrate C d db = some db') :
    (migration d).Idles (exec C) (Renews d) db' () ∧ migrate C d db' = some db' := by
  obtain ⟨⟨u, db''⟩, hr, rfl⟩ := Option.map_eq_some_iff.mp h
  have settled := Prog.obeys_run (migration_settles ready) hr
  have idles := migration_idles settled
  exact ⟨idles, by rw [migrate, Prog.idles_run idles]; rfl⟩

end First

instance (table : String) (db : Db) : Decidable (HasKey table db) :=
  decidable_of_iff (∀ t ∈ db.get? table, "HARPIA_ID" ∈ t.names) Iff.rfl

instance (d : Declared) (db : Db) : Decidable (Restartable d db) :=
  decidable_of_iff
    ((∀ c ∈ d.columns, c.renamedFrom ≠ some "HARPIA_ID") ∧
      (d.children.map fun c => fold c.table).Nodup ∧
      (∀ c ∈ d.children, ∀ n ∈ db.names, fold n = fold c.table → n = c.table) ∧
      HasKey d.table db ∧ ∀ t ∈ db.get? versionTable, t.key = ["name"])
    (by
      constructor
      · rintro ⟨h₁, h₂, h₃, h₄, h₅⟩
        exact ⟨h₁, h₂, h₃, h₄, fun t ht => h₅ t ht⟩
      · rintro ⟨h₁, h₂, h₃, h₄, h₅⟩
        exact ⟨h₁, h₂, h₃, h₄, fun t ht => h₅ t ht⟩)

/-- The version that has turned a list of texts into a list of numbers starts once more. -/
theorem migrate_again_numberTagged : ∃ db db', migrate intTextCasting listTagged Db.empty = some db ∧
    migrate intTextCasting numberTagged db = some db' ∧
    migrate intTextCasting numberTagged db' = some db' := by
  have second : ((migrate intTextCasting listTagged Db.empty).bind fun db =>
      (migrate intTextCasting numberTagged db).map fun _ => decide (Restartable numberTagged db)) =
        some true := by
    decide +kernel
  obtain ⟨db, hm, hb⟩ := Option.bind_eq_some_iff.mp second
  obtain ⟨db', hm', ready⟩ := Option.map_eq_some_iff.mp hb
  exact ⟨db, db', hm, hm', (migrate_again (of_decide_eq_true ready) hm').2⟩

end Harpia
