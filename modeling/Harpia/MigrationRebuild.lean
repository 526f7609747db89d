import Harpia.MigrationPhases

namespace Harpia

open Text Sqlite

/-- All declared tables are there, and the main table has its columns. -/
structure Settled (C : Casting) (d : Declared) (db₀ db : Db) : Prop where
  resumable : Resumable C d db₀ db
  versioned : Versioned db
  main : ∃ t, db.get? d.table = some t ∧ Complete d t
  children : ∀ c ∈ d.children, c.table ∈ db.names

/-- Only declared tables are left under the prefix. -/
def Reaped (d : Declared) (db : Db) : Prop :=
  ∀ n ∈ db.names, startsWith n (d.table ++ "__") → n ∈ d.children.map Child.table

section

variable {C : Casting} {d : Declared} {db₀ db db' : Db} {c : Child}

theorem Settled.held (h : Settled C d db₀ db) (hc : c ∈ d.children) {t : Table} :
    HeldIn d db c t ↔ db.get? c.table = some t := held_of_live (h.children c hc)

theorem Settled.exists_child (h : Settled C d db₀ db) (hc : c ∈ d.children) :
    ∃ t, db.get? c.table = some t := Db.exists_get?_of_mem_names (h.children c hc)

/-- A change under the prefix to a table that is not declared. -/
theorem Settled.beside (h : Settled C d db₀ db) {x : String} (b : Beside x db db')
    (hx : startsWith x (d.table ++ "__")) (hdecl : ∀ c ∈ d.children, fold c.table ≠ fold x)
    (htmp : db.get? d.retypeTmp = none → db'.get? d.retypeTmp = none)
    (hnames : ∀ n ∈ db'.names, fold n = fold x → n ∈ db.names ∨ startsWith n (d.table ++ "__")) :
    Settled C d db₀ db' := by
  obtain ⟨x_ne, x_ne_version⟩ := fold_prefixed_ne hx
  have main : db'.get? d.table = db.get? d.table := b.tables _ x_ne.symm
  obtain ⟨t, ht, complete⟩ := h.main
  have fit := h.resumable.fit
  have step : Resumable C d db db' := by
    refine resumable_beside fit b hdecl ?_ ?_ ?_ ?_ htmp ?_
    · exact fun c hc hl => absurd (h.children c hc) hl
    · intro u hu
      rw [b.tables _ x_ne_version.symm] at hu
      exact fit.version u hu
    · exact fun u hu => ⟨u, by rw [main, hu], .refl (fit.main u hu)⟩
    · intro hnone
      rw [ht] at hnone
      simp at hnone
    · intro n hn hf
      rcases hnames n hn hf with hn | hs
      · exact .inl hn
      · exact .inr (.inl hs)
  refine ⟨h.resumable.trans step, b.versioned x_ne_version h.versioned, ⟨t, by rw [main, ht],
    complete⟩, fun c hc => ?_⟩
  exact (b.names _ (hdecl c hc)).mpr (h.children c hc)

/-- A change to one declared child. -/
theorem Settled.child (h : Settled C d db₀ db) (hc : c ∈ d.children) (b : Beside c.table db db')
    (hlive : c.table ∈ db'.names) {t t' : Table} (ht : db.get? c.table = some t)
    (ht' : db'.get? c.table = some t') (ready : ChildReady C c.shape t')
    (fires : c.shape.fires t'.columns → c.shape.fires t.columns)
    (carries : ChildCarries C c.shape t t') : Settled C d db₀ db' := by
  have step : Resumable C d db db' := by
    refine resumable_child h.resumable.fit hc b hlive (fun u hu => ?_) fun u hu => ?_
    · cases Option.some.inj (ht'.symm.trans hu)
      exact ⟨ready, fun hf => ⟨t, (h.held hc).mpr ht, fires hf⟩⟩
    · cases Option.some.inj (ht.symm.trans ((h.held hc).mp hu))
      exact ⟨t', ht', carries⟩
  obtain ⟨u, hu, complete⟩ := h.main
  refine ⟨h.resumable.trans step, b.versioned (childTable_ne hc).2.1 h.versioned,
    ⟨u, by rw [b.tables _ (childTable_ne hc).1.symm, hu], complete⟩, fun c' hc' => ?_⟩
  by_cases hf : fold c'.table = fold c.table
  · rw [childDeclared_unique h.resumable.fit.children hc' hc hf]
    exact hlive
  · exact (b.names _ hf).mpr (h.children c' hc')

theorem Reaped.of_beside (h : Reaped d db) {c : Child} (hc : c ∈ d.children)
    (b : Beside c.table db db') (hlive : c.table ∈ db'.names) : Reaped d db' := by
  intro n hn hs
  by_cases hf : fold n = fold c.table
  · rw [Db.names_unique hn hlive hf]
    exact List.mem_map_of_mem hc
  · exact h n ((b.names n hf).mp hn) hs

theorem retypeTmp_ne (d : Declared) (hc : c ∈ d.children) :
    fold d.retypeTmp ≠ fold (c.shape.tmp c.table) := by
  intro he
  have hl := congrArg String.length he
  obtain ⟨suffix, hs⟩ := d.child_named c hc
  have ht : c.table.length = d.table.length + 2 + suffix.length := by
    rw [hs, String.length_append, String.length_append]
    rfl
  have htmp : (c.shape.tmp c.table).length = c.table.length + 12 := by
    cases c.shape <;> exact String.length_append _ _
  have hretype : d.retypeTmp.length = d.table.length + 12 := String.length_append _ _
  rw [length_fold, length_fold, htmp, hretype, ht] at hl
  omega

theorem unreserved_tmp (hc : c ∈ d.children) (h : reserved c.table = false) :
    reserved (c.shape.tmp c.table) = false := by
  cases c.shape <;> exact unreserved_append hc h _

/-- The four statements of a child's rebuild, which may stop before the table is dropped. -/
theorem rebuild_child_completes (h : Settled C d db₀ db) (reaped : Reaped d db)
    (hc : c ∈ d.children) {t : Table} (ht : db.get? c.table = some t)
    (hf : c.shape.fires t.columns) (complete : ∀ col ∈ c.shape.columns, col.name ∈ t.names) :
    (Prog.forEach .exec (c.shape.rebuild c.table) : Script Unit).Completes (exec C)
      (Resumable C d db₀) db fun _ db' => Settled C d db₀ db' ∧ Reaped d db' := by
  have fit := h.resumable.fit
  have held : HeldIn d db c t := (h.held hc).mpr ht
  obtain ⟨hdecl, hnames⟩ := fit.child_tmp c hc t held hf
  have free : db.get? (c.shape.tmp c.table) = none := by
    cases hg : db.get? (c.shape.tmp c.table) with
    | none => rfl
    | some u =>
      obtain ⟨n, hn, he⟩ := Db.exists_name_of_get? hg
      obtain ⟨c', hc', rfl⟩ := List.mem_map.mp (reaped n hn (hnames n hn he))
      exact absurd he (hdecl c' hc')
  obtain ⟨t', hr, hcols, carries⟩ :=
    childStep_rebuild (fit.child c hc t held) hf (fit.elements c hc) complete
  have unreserved := fit.unreserved_child hc
  obtain ⟨db', he, hrebuilt⟩ := rebuild_completes (tmp_ne c.shape c.table)
    (unreserved_tmp hc unreserved) unreserved free ht hr
  obtain ⟨db₁, he₁, he⟩ := Option.bind_eq_some_iff.mp he
  obtain ⟨db₂, he₂, he₃⟩ := Option.bind_eq_some_iff.mp he
  -- the temporary table is the only difference until the child is dropped
  have put₁ : ∃ u, db₁ = db.put (c.shape.tmp c.table) u := by
    obtain ⟨-, ⟨hif, -⟩ | ⟨u, -, -, rfl⟩⟩ := exec_createTable he₁
    · simp at hif
    · exact ⟨u, rfl⟩
  have put₂ : ∃ u, db₂ = db₁.put (c.shape.tmp c.table) u := by
    simp only [exec] at he₂
    obtain ⟨u, -, he₂⟩ := Option.bind_eq_some_iff.mp he₂
    obtain ⟨v, -, he₂⟩ := Option.bind_eq_some_iff.mp he₂
    split at he₂
    next =>
      obtain ⟨w, -, rfl⟩ := Option.map_eq_some_iff.mp he₂
      exact ⟨w, rfl⟩
    next => simp at he₂
  have aside : ∀ {db₁ : Db}, Settled C d db₀ db₁ → ∀ u,
      Settled C d db₀ (db₁.put (c.shape.tmp c.table) u) := by
    intro db₁ h₁ u
    refine h₁.beside (beside_put _ _ _) (tmp_prefixed hc) hdecl ?_ fun n hn _ => ?_
    · intro hfree
      rw [Db.get?_put, if_neg (retypeTmp_ne d hc), hfree]
    · rcases Db.mem_names_put.mp hn with hn | ⟨rfl, -⟩
      · exact .inl hn
      · exact .inr (tmp_prefixed hc)
  obtain ⟨u₁, rfl⟩ := put₁
  obtain ⟨u₂, rfl⟩ := put₂
  have settled₁ := aside h u₁
  have settled₂ := aside settled₁ u₂
  have b := beside_rebuilt hrebuilt
  have live : c.table ∈ db'.names := (hrebuilt.names _).mpr (.inr rfl)
  obtain ⟨fresh, quiet⟩ := childReady_declared C hcols
  have settled₃ : Settled C d db₀ db' := by
    obtain ⟨old, new, hold, hnew, hget⟩ := hrebuilt.filled
    cases Option.some.inj (ht.symm.trans hold)
    cases Option.some.inj (hr.symm.trans hnew)
    refine h.child hc b live ht hget fresh (fun hf => ?_) carries
    rw [quiet] at hf
    simp at hf
  refine Prog.completes_bind (Prog.completes_exec h.resumable (execAll_of_exec he₁)
    settled₁.resumable ?_)
  refine Prog.completes_bind (Prog.completes_exec settled₁.resumable (execAll_of_exec he₂)
    settled₂.resumable ?_)
  refine Prog.completes_bind (Prog.completes_exec settled₂.resumable he₃ settled₃.resumable ?_)
  exact ⟨settled₃.resumable, settled₃, reaped.of_beside hc b live⟩

/-- The columns an element gained are added. -/
theorem addElements_complete {cs : List Column} (h : Settled C d db₀ db) (reaped : Reaped d db)
    (hc : c ∈ d.children) (hs : c.shape = .composed cs) {t : Table}
    (ht : db.get? c.table = some t) :
    (Prog.forEach (addMissing c.table t.names) (cs.map Column.sqlDef)).Completes (exec C)
      (Resumable C d db₀) db fun _ db' => Settled C d db₀ db' ∧ Reaped d db' ∧
        ∃ t', db'.get? c.table = some t' ∧ (∀ n ∈ t.names, n ∈ t'.names) ∧
          (∀ col ∈ cs, col.name ∈ t'.names) ∧
          (c.shape.fires t'.columns ↔ c.shape.fires t.columns) := by
  have fit := h.resumable.fit
  have plain := d.elements_plain c hc cs hs
  have nodup : (foldedNames (ChildShape.composed cs).columns).Nodup := hs ▸ fit.elements c hc
  have names_nodup : (cs.map Column.name).Nodup := by
    have elements : (cs.map Column.sqlDef).Sublist (ChildShape.composed cs).columns :=
      ((List.Sublist.refl _).cons _).cons _
    have folded : ((cs.map Column.sqlDef).map fun cd => fold cd.name).Nodup :=
      (elements.map _).nodup nodup
    refine List.Nodup.of_map fold ?_
    simpa [Function.comp_def, Column.sqlDef] using folded
  refine Prog.completes_mono (Prog.completes_forEach (fun rest db' => Settled C d db₀ db' ∧
    Reaped d db' ∧ ∃ todo, todo ⊆ cs ∧ (todo.map Column.name).Nodup ∧
      rest = todo.map Column.sqlDef ∧ ∃ t', db'.get? c.table = some t' ∧
        (∀ n ∈ t.names, n ∈ t'.names) ∧
        (∀ n ∈ todo.map Column.name, n ∈ t'.names → n ∈ t.names) ∧
        (∀ col ∈ cs, col ∈ todo ∨ col.name ∈ t'.names) ∧
        (c.shape.fires t'.columns ↔ c.shape.fires t.columns))
    ⟨h, reaped, cs, List.Subset.refl _, names_nodup, rfl, t, ht, fun _ hn => hn,
      fun _ _ hn => hn, fun col hcol => .inl hcol, Iff.rfl⟩ ?_ ?_) ?_
  · exact fun _ _ h => h.1.resumable
  · rintro cd rest db' ⟨h', reaped', todo, hsub, nodup', hrest, t', ht', grows, fresh, done, fires⟩
    cases todo with
    | nil => simp at hrest
    | cons col todo =>
      rw [List.map_cons, List.cons.injEq] at hrest
      obtain ⟨rfl, rfl⟩ := hrest
      obtain ⟨notin, nodup'⟩ := List.nodup_cons.mp nodup'
      have todo_sub : todo ⊆ cs := fun x hx => hsub (List.mem_cons_of_mem _ hx)
      unfold addMissing
      split
      next hlive =>
        refine ⟨h'.resumable, h', reaped', todo, todo_sub, nodup', rfl, t', ht', grows,
          fun n hn => fresh n (List.mem_cons_of_mem _ hn), fun col' hcol' => ?_, fires⟩
        rcases done col' hcol' with hm | hl
        · rcases List.mem_cons.mp hm with rfl | hm
          · exact .inr (grows _ hlive)
          · exact .inl hm
        · exact .inr hl
      next hmissing =>
        have habs : col.name ∉ t'.names := fun hl =>
          hmissing (fresh col.name List.mem_cons_self hl)
        have ready' := h'.resumable.fit.child c hc t' ((h'.held hc).mpr ht')
        rw [hs] at ready'
        obtain ⟨t'', ha, ready'', carries, same⟩ :=
          childStep_add ready' plain nodup (hsub List.mem_cons_self) habs
        have names : ∀ n, n ∈ t''.names ↔ n ∈ t'.names ∨ n = col.name := fun n => addColumn_names ha
        have live : c.table ∈ (db'.put c.table t'').names :=
          (Db.names_put_of_get? ht' _).mpr (h'.children c hc)
        have h'' : Settled C d db₀ (db'.put c.table t'') := by
          refine h'.child hc (beside_put _ _ _) live ht' (Db.get?_put_self _ _ _) ?_ ?_ ?_
          · rw [hs]
            exact ready''
          · rw [hs]
            exact same.mp
          · rw [hs]
            exact carries
        have he : exec C (.addColumn c.table col.sqlDef) db' = some (db'.put c.table t'') := by
          rw [exec, ht', Option.bind_some, ha, Option.map_some]
        refine Prog.completes_exec h'.resumable (execAll_of_exec he) h''.resumable ⟨h'',
          reaped'.of_beside hc (beside_put _ _ _) live, todo, todo_sub, nodup', rfl, t'',
          Db.get?_put_self _ _ _, fun n hn => (names n).mpr (.inl (grows n hn)), ?_, ?_, ?_⟩
        · intro n hn hl
          rcases (names n).mp hl with hl | rfl
          · exact fresh n (List.mem_cons_of_mem _ hn) hl
          · exact absurd hn notin
        · intro col' hcol'
          rcases done col' hcol' with hm | hl
          · rcases List.mem_cons.mp hm with rfl | hm
            · exact .inr ((names _).mpr (.inr rfl))
            · exact .inl hm
          · exact .inr ((names _).mpr (.inl hl))
        · rw [← fires, hs]
          exact same
  · rintro _ db' ⟨h', reaped', todo, -, -, hrest, t', ht', grows, -, done, fires⟩
    cases todo with
    | nil => exact ⟨h', reaped', t', ht', grows, fun col hcol => (done col hcol).resolve_left
        List.not_mem_nil, fires⟩
    | cons => simp at hrest

/-- A child's plan completes and keeps the data. -/
theorem runPlan_completes (h : Settled C d db₀ db) (reaped : Reaped d db) (hc : c ∈ d.children)
    {plan : Plan} (hp : c.plan = some plan) :
    (runPlan plan).Completes (exec C) (Resumable C d db₀) db
      fun _ db' => Settled C d db₀ db' ∧ Reaped d db' := by
  obtain ⟨t, ht⟩ := h.exists_child hc
  have table := (childPlan_rebuilds hp).1
  have ready := h.resumable.fit.child c hc t ((h.held hc).mpr ht)
  refine Prog.completes_bind ?_
  simp only [listColumnTypes, liveColumns, table, ht, Prog.get, Prog.Completes]
  refine ⟨h.resumable, ?_⟩
  have whole : ∀ {statements : List (List Stmt)} {force : Bool},
      statements = c.shape.rebuild c.table → (force ↔ c.shape.fires t.columns) →
      (∀ cs, c.shape ≠ .composed cs) →
      (if force then Prog.forEach .exec statements else return () : Script Unit).Completes
        (exec C) (Resumable C d db₀) db fun _ db' => Settled C d db₀ db' ∧ Reaped d db' := by
    intro statements force hstmts hforce hplain
    subst hstmts
    split
    next hf =>
      have hf := hforce.mp hf
      refine rebuild_child_completes h reaped hc ht hf fun col hcol => (ready.rebuilds hf).1 _ ?_
      have names : c.shape.copied = c.shape.columns.map ColumnDef.name := by
        cases hs : c.shape with
        | composed cs => exact absurd hs (hplain cs)
        | map => rfl
        | repeated => rfl
        | link => rfl
      rw [names]
      exact List.mem_map_of_mem hcol
    next => exact ⟨h.resumable, h, reaped⟩
  cases hs : c.shape with
  | link => simp [Child.plan, hs] at hp
  | repeated valSql =>
    simp only [Child.plan, hs, Option.some.injEq] at hp
    subst hp
    exact whole (by rw [hs]) (by rw [hs]; rfl) (by simp [hs])
  | map keySql valSql =>
    simp only [Child.plan, hs, Option.some.injEq] at hp
    subst hp
    exact whole (by rw [hs]) (by rw [hs]; rfl) (by simp [hs])
  | composed cs =>
    simp only [Child.plan, hs, Option.some.injEq] at hp
    subst hp
    simp only
    split
    next => exact ⟨h.resumable, h, reaped⟩
    next =>
      have live : (liveTypes t.columns).map Prod.fst = t.names := by
        rw [liveTypes, List.map_map]
        rfl
      rw [live]
      refine Prog.completes_bind (Prog.completes_mono
        (addElements_complete h reaped hc hs ht) ?_)
      rintro _ db₁ ⟨h₁, reaped₁, t₁, ht₁, grows, complete, fires⟩
      unfold rebuildIf
      split
      next hf =>
        have hf : c.shape.fires t.columns := by
          rw [hs]
          exact hf
        have keys := (ready.rebuilds hf).1
        rw [hs] at keys
        rw [← hs]
        refine rebuild_child_completes h₁ reaped₁ hc ht₁ (fires.mpr hf) fun col hcol => ?_
        rw [hs] at hcol
        rcases List.mem_cons.mp hcol with rfl | hcol
        · exact grows _ (keys "owner" (by simp [ChildShape.copied]))
        · rcases List.mem_cons.mp hcol with rfl | hcol
          · exact grows _ (keys "ordinal" (by simp [ChildShape.copied]))
          · obtain ⟨col', hcol', rfl⟩ := List.mem_map.mp hcol
            exact complete col' hcol'
      next => exact ⟨h₁.resumable, h₁, reaped₁⟩

end

end Harpia
