import Harpia.MigrationChildren

namespace Harpia

open Text Sqlite

/-- What creating the missing ones of some declared tables does. -/
structure Created (ddl : List (String × List ColumnDef × List String)) (db db' : Db) : Prop where
  kept : ∀ n t, db.get? n = some t → db'.get? n = some t
  origin : ∀ n t, db'.get? n = some t → db.get? n = some t ∨
    ∃ e ∈ ddl, fold e.1 = fold n ∧ Table.create e.2.1 e.2.2 = some t
  names : ∀ n ∈ db'.names, n ∈ db.names ∨ n ∈ ddl.map Prod.fst

theorem Created.refl (ddl : List (String × List ColumnDef × List String)) (db : Db) :
    Created ddl db db := ⟨fun _ _ h => h, fun _ _ h => .inl h, fun _ h => .inl h⟩

theorem created_exec {C : Casting} {ddl : List (String × List ColumnDef × List String)}
    {db₀ db db' : Db} (h : Created ddl db₀ db) {e : String × List ColumnDef × List String}
    (he : e ∈ ddl) (hx : exec C (.createTable true e.1 e.2.1 e.2.2) db = some db') :
    Created ddl db₀ db' ∧ reserved e.1 = false ∧ ∃ t, db'.get? e.1 = some t := by
  have free := (exec_createTable hx).1
  rcases exec_createIfMissing hx with ⟨t, ht, rfl⟩ | ⟨t, hnone, hc, rfl⟩
  · exact ⟨h, free, t, ht⟩
  · refine ⟨⟨fun n u hu => ?_, fun n u hu => ?_, fun n hn => ?_⟩, free, t, by simp⟩
    · have hu' := h.kept n u hu
      rw [Db.get?_put, if_neg, hu']
      intro hf
      rw [db.get?_congr hf, hnone] at hu'
      simp at hu'
    · rw [Db.get?_put] at hu
      split at hu
      next hf =>
        cases Option.some.inj hu
        exact .inr ⟨e, he, hf.symm, hc⟩
      next => exact h.origin n u hu
    · rcases Db.mem_names_put.mp hn with hn | ⟨rfl, -⟩
      · exact h.names n hn
      · exact .inr (List.mem_map_of_mem he)

theorem createTableSql_creates {C : Casting} (d : Declared) (db : Db) :
    (Prog.forEach (fun s => .exec [s]) d.createTableSql : Script Unit).Obeys (exec C)
      (fun _ => True) db fun _ db' =>
        Created d.ddl db db' ∧ ∀ e ∈ d.ddl, reserved e.1 = false ∧ ∃ t, db'.get? e.1 = some t := by
  refine Prog.obeys_mono (Prog.obeys_forEach (fun rest db' => Created d.ddl db db' ∧
    ∃ todo, todo ⊆ d.ddl ∧ (rest = todo.map fun e => .createTable true e.1 e.2.1 e.2.2) ∧
      ∀ e ∈ d.ddl, e ∈ todo ∨ reserved e.1 = false ∧ ∃ t, db'.get? e.1 = some t)
    ⟨.refl _ _, d.ddl, List.Subset.refl _, rfl, fun e he => .inl he⟩ ?_) ?_
  · rintro s rest db₁ ⟨hcr, todo, hsub, htodo, hdone⟩
    cases todo with
    | nil => simp at htodo
    | cons e todo =>
      rw [List.map_cons, List.cons.injEq] at htodo
      obtain ⟨rfl, rfl⟩ := htodo
      refine ⟨fun _ _ => trivial, fun db₂ hx => ?_⟩
      have hx := execAll_singleton hx
      obtain ⟨hcr', live⟩ := created_exec hcr (hsub List.mem_cons_self) hx
      refine ⟨hcr', todo, fun x h => hsub (List.mem_cons_of_mem _ h), rfl, fun e' he' => ?_⟩
      rcases hdone e' he' with h | ⟨free, u, hu⟩
      · rcases List.mem_cons.mp h with rfl | h
        · exact .inr live
        · exact .inl h
      · refine .inr ⟨free, ?_⟩
        rcases exec_createIfMissing hx with ⟨-, -, rfl⟩ | ⟨t', -, -, rfl⟩
        · exact ⟨u, hu⟩
        · rw [Db.get?_put]
          split
          · exact ⟨t', rfl⟩
          · exact ⟨u, hu⟩
  · rintro _ db' ⟨hcr, todo, -, htodo, hdone⟩
    cases todo with
    | nil => exact ⟨hcr, fun e he => (hdone e he).resolve_left List.not_mem_nil⟩
    | cons => simp at htodo

theorem childShaped_of_rebuilt {C : Casting} {c : Child} {db db' : Db}
    (h : Rebuilt C c.table c.shape.columns c.shape.key c.shape.targets db db') :
    ChildShaped c db' := by
  obtain ⟨old, new, -, hnew, hget⟩ := h.filled
  refine ⟨new, hget, ?_⟩
  rw [(rebuiltTable_columns hnew).1]
  exact exact_columns c.shape

theorem rebuildIf_shapes {C : Casting} {c : Child} {plan : Plan} {db₀ db : Db}
    (hp : c.plan = some plan) (beside : Beside c.table db₀ db) {force : Bool}
    (hf : force = false → ChildShaped c db) :
    (rebuildIf force plan).Obeys (exec C) (fun _ => True) db fun _ db' =>
      Beside c.table db₀ db' ∧ ChildShaped c db' := by
  obtain ⟨htable, tmp, hne, hs⟩ := childPlan_rebuilds hp
  rw [htable] at hne hs
  unfold rebuildIf
  split
  · refine Prog.obeys_forEach_exec (fun _ _ _ _ => trivial) fun db' he => ?_
    rw [hs] at he
    have hr := rebuilt_of_execAll hne he
    exact ⟨beside.trans (beside_rebuilt hr), childShaped_of_rebuilt hr⟩
  next hff => exact ⟨beside, hf (by simpa using hff)⟩

/-- A child plan brings every table it can adapt to the declared columns. -/
theorem runPlan_shapes {C : Casting} {c : Child} {plan : Plan} {db : Db} {t : Table}
    (hp : c.plan = some plan) (ht : db.get? c.table = some t) (ha : c.shape.Adapts t.columns) :
    (runPlan plan).Obeys (exec C) (fun _ => True) db fun _ db' =>
      Beside c.table db db' ∧ ChildShaped c db' := by
  have htable := (childPlan_rebuilds hp).1
  have done : ∀ {force : Bool}, (force = false → ChildShaped c db) →
      (rebuildIf force plan).Obeys (exec C) (fun _ => True) db fun _ db' =>
        Beside c.table db db' ∧ ChildShaped c db' :=
    fun hf => rebuildIf_shapes hp (.refl _ _) hf
  refine Prog.obeys_bind ?_
  simp only [listColumnTypes, liveColumns, htable, ht, Prog.get, Prog.Obeys]
  cases hs : c.shape with
  | link => simp [Child.plan, hs] at hp
  | repeated valSql =>
    simp only [Child.plan, hs, Option.some.injEq] at hp
    subst hp
    refine done fun hd => ⟨t, ht, ?_⟩
    rw [hs] at ha ⊢
    exact ha.resolve_right (by simpa using hd)
  | map keySql valSql =>
    simp only [Child.plan, hs, Option.some.injEq] at hp
    subst hp
    refine done fun hd => ⟨t, ht, ?_⟩
    rw [hs] at ha ⊢
    exact ha.resolve_right (by simpa using hd)
  | composed cs =>
    have hp' := hp
    simp only [Child.plan, hs, Option.some.injEq] at hp'
    subst hp'
    rw [hs] at ha
    simp only
    split
    next hempty =>
      rw [liveTypes, List.map_eq_nil_iff] at hempty
      simp [hempty, ChildShape.Adapts, drifted, liveTypes] at ha
    next =>
      refine Prog.obeys_bind (Prog.obeys_mono (addMissing_adds (.refl _ _) ht fun n => ?_) ?_)
      · simp [Table.names, liveTypes]
      rintro _ db₁ ⟨beside, t₁, ht₁, hn₁⟩
      refine rebuildIf_shapes hp beside fun hforce => ⟨t₁, ht₁, fun n => ?_⟩
      simp only [Bool.or_eq_false_iff, List.any_eq_false, decide_eq_true_eq, not_not] at hforce
      obtain ⟨nodrift, nostray⟩ := hforce
      have keep : ∀ n ∈ t.names, n ∈ "owner" :: "ordinal" :: cs.map Column.name := by
        intro n hn
        obtain ⟨e, he, rfl⟩ := t.mem_names_iff.mp hn
        exact nostray _ (List.mem_map_of_mem he)
      have keys := ha.resolve_right (by
        rintro (hd | ⟨e, he, hstray⟩)
        · simp [nodrift] at hd
        · exact hstray (keep _ (List.mem_map_of_mem he)))
      have declared : n ∈ (ChildShape.composed cs).columns.map ColumnDef.name ↔
          n ∈ "owner" :: "ordinal" :: cs.map Column.name := by
        simp [ChildShape.columns, keyColumn, Column.sqlDef]
      have added : n ∈ (cs.map Column.sqlDef).map ColumnDef.name ↔ n ∈ cs.map Column.name := by
        simp [Column.sqlDef]
      have live : ∀ m, m ∈ (liveTypes t.columns).map Prod.fst ↔ m ∈ t.names := by
        simp [Table.names, liveTypes]
      rw [hs, declared]
      refine (hn₁ n).trans ?_
      rw [live, added]
      constructor
      · rintro (h | h)
        · exact keep n h
        · exact List.mem_cons_of_mem _ (List.mem_cons_of_mem _ h)
      · intro h
        rcases List.mem_cons.mp h with rfl | h
        · exact .inl keys.1
        · rcases List.mem_cons.mp h with rfl | h
          · exact .inl keys.2
          · exact .inr h

theorem dropStale_keeps {C : Casting} {keep tables : List String} {db : Db} :
    (Prog.forEach (dropStale keep) tables).Obeys (exec C) (fun _ => True) db fun _ db' =>
      ∀ n, (∀ m ∈ tables, m ∉ keep → fold n ≠ fold m) → db'.get? n = db.get? n := by
  refine Prog.obeys_mono (Prog.obeys_forEach (fun rest db' => rest ⊆ tables ∧
    ∀ n, (∀ m ∈ tables, m ∉ keep → fold n ≠ fold m) → db'.get? n = db.get? n)
    ⟨List.Subset.refl _, fun _ _ => rfl⟩ ?_) fun _ _ h => h.2
  rintro m rest db₁ ⟨hsub, hsame⟩
  have rest_sub : rest ⊆ tables := fun x hx => hsub (List.mem_cons_of_mem _ hx)
  unfold dropStale
  split
  · exact ⟨rest_sub, hsame⟩
  next hm =>
    refine ⟨fun _ _ => trivial, fun db₂ he => ⟨rest_sub, fun n hn => ?_⟩⟩
    rw [← hsame n hn]
    refine exec_frame (execAll_singleton he) fun m' hm' => ?_
    rw [List.mem_singleton.mp hm']
    exact hn m (hsub List.mem_cons_self) hm

/-- Each child is there, exact or still to be rebuilt by one of the plans. -/
def ChildrenOn (d : Declared) (plans : List Plan) (db : Db) : Prop :=
  ∀ c ∈ d.children, ∃ t, db.get? c.table = some t ∧ c.shape.Adapts t.columns ∧
    (c.shape.Exact t.columns ∨ ∃ plan ∈ plans, c.plan = some plan)

theorem mem_plans {d : Declared} {c : Child} (hc : c ∈ d.children) {plan : Plan}
    (hp : c.plan = some plan) : plan ∈ d.evolving.filterMap Child.plan := by
  refine List.mem_filterMap.mpr ⟨c, ?_, hp⟩
  simp only [Declared.evolving, List.mem_append, List.mem_filter]
  cases hs : c.shape with
  | link => simp [Child.plan, hs] at hp
  | repeated => simp [hc, ChildShape.isRepeated]
  | map => simp [hc, ChildShape.isMap]
  | composed => simp [hc, ChildShape.isComposed]

theorem childrenOn_plans {d : Declared} {db : Db}
    (h : ∀ c ∈ d.children, ∃ t, db.get? c.table = some t ∧ c.shape.Adapts t.columns) :
    ChildrenOn d (d.evolving.filterMap Child.plan) db := by
  intro c hc
  obtain ⟨t, ht, ha⟩ := h c hc
  refine ⟨t, ht, ha, ?_⟩
  cases hp : c.plan with
  | some plan => exact .inr ⟨plan, mem_plans hc hp, rfl⟩
  | none =>
    refine .inl ?_
    cases hs : c.shape with
    | link =>
      rw [hs] at ha
      exact ha
    | repeated => simp [Child.plan, hs] at hp
    | map => simp [Child.plan, hs] at hp
    | composed => simp [Child.plan, hs] at hp

theorem runPlans_shape {C : Casting} {d : Declared} {db : Db}
    (distinct : (d.children.map fun c => fold c.table).Nodup)
    (h : ∀ c ∈ d.children, ∃ t, db.get? c.table = some t ∧ c.shape.Adapts t.columns) :
    (Prog.forEach runPlan (d.evolving.filterMap Child.plan)).Obeys (exec C) (fun _ => True) db
      fun _ db' => db'.get? d.table = db.get? d.table ∧ ∀ c ∈ d.children, ChildShaped c db' := by
  refine Prog.obeys_mono (Prog.obeys_forEach (fun rest db' =>
    rest ⊆ d.evolving.filterMap Child.plan ∧ db'.get? d.table = db.get? d.table ∧
      ChildrenOn d rest db') ⟨List.Subset.refl _, rfl, childrenOn_plans h⟩ ?_) ?_
  · rintro plan rest db₁ ⟨hsub, hmain, hon⟩
    obtain ⟨c, hc, hp⟩ := List.mem_filterMap.mp (hsub List.mem_cons_self)
    have hc := mem_evolving hc
    obtain ⟨t, ht, ha, -⟩ := hon c hc
    refine Prog.obeys_mono (runPlan_shapes hp ht ha) ?_
    rintro _ db₂ ⟨beside, t', ht', hexact⟩
    refine ⟨fun x hx => hsub (List.mem_cons_of_mem _ hx), ?_, fun c' hc' => ?_⟩
    · rw [beside.tables _ (childTable_ne hc).1.symm, hmain]
    · by_cases hf : fold c'.table = fold c.table
      · obtain rfl := childDeclared_unique distinct hc' hc hf
        exact ⟨t', ht', hexact.adapts, .inl hexact⟩
      · obtain ⟨u, hu, ha', hplan⟩ := hon c' hc'
        refine ⟨u, by rw [beside.tables _ hf, hu], ha', hplan.imp id ?_⟩
        rintro ⟨plan', hm, hp'⟩
        rcases List.mem_cons.mp hm with rfl | hm
        · rw [← (childPlan_rebuilds hp).1, ← (childPlan_rebuilds hp').1] at hf
          exact absurd rfl hf
        · exact ⟨plan', hm, hp'⟩
  · rintro _ db' ⟨-, hmain, hon⟩
    refine ⟨hmain, fun c hc => ?_⟩
    obtain ⟨t, ht, -, hexact⟩ := hon c hc
    exact ⟨t, ht, hexact.resolve_right (by simp)⟩

end Harpia
