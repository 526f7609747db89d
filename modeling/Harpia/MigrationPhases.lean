import Harpia.MigrationResume

namespace Harpia

open Text Sqlite

theorem beside_erase (name : String) (db : Db) : Beside name db (db.erase name) where
  tables n hn := by rw [Db.get?_erase, if_neg hn]
  names n hn := by
    rw [Db.mem_names_erase]
    exact ⟨fun h => h.1, fun h => ⟨h, hn⟩⟩

section

variable {C : Casting} {d : Declared} {db₀ db db' : Db}

/-- The version table is there. -/
def Versioned (db : Db) : Prop := ∃ t, db.get? versionTable = some t

theorem Beside.versioned {x : String} (b : Beside x db db') (hx : fold x ≠ fold versionTable)
    (h : Versioned db) : Versioned db' := by
  obtain ⟨t, ht⟩ := h
  exact ⟨t, by rw [b.tables _ hx.symm, ht]⟩

/-- A change to the version table. -/
theorem resumable_version (h : Fit C d db) {t : Table}
    (ht : t.columns = [⟨"name", .TEXT, false, false, false⟩, ⟨"version", .TEXT, false, false, false⟩]) :
    Resumable C d db (db.put versionTable t) := by
  have main : (db.put versionTable t).get? d.table = db.get? d.table :=
    (beside_put _ _ _).tables _ (fold_table_ne_version d)
  refine resumable_beside h (beside_put _ _ _) ?_ ?_ ?_ ?_ ?_ ?_ ?_
  · exact fun c hc => (childTable_ne hc).2.1
  · exact fun c _ _ old ho => (fold_oldTable_ne ho).2
  · intro u hu
    rw [Db.get?_put_self] at hu
    cases Option.some.inj hu
    exact ht
  · exact fun u hu => ⟨u, by rw [main, hu], .refl (h.main u hu)⟩
  · intro hnone u hu
    rw [main, hnone] at hu
    simp at hu
  · intro hfree
    rw [(beside_put _ _ _).tables _ (fold_prefixed_ne d.retypeTmp_prefixed).2, hfree]
  · intro n _ hf
    refine .inr (.inr fun c hc he => ?_)
    exact (fold_prefixed_ne (tmp_prefixed hc)).2 (he.symm.trans hf)

theorem version_completes (h : Fit C d db) : ∃ db', exec C (.createTable true versionTable
    [⟨"name", .TEXT, false, false, false⟩, ⟨"version", .TEXT, false, false, false⟩] ["name"]) db =
      some db' ∧ Resumable C d db db' ∧ Versioned db' ∧ Beside versionTable db db' := by
  cases ht : db.get? versionTable with
  | some t => exact ⟨db, exec_createTable_live unreserved_version ht, .refl h, ⟨t, ht⟩,
      .refl _ _⟩
  | none =>
    obtain ⟨t, hc⟩ := create_of_nodup
      [⟨"name", .TEXT, false, false, false⟩, ⟨"version", .TEXT, false, false, false⟩] ["name"]
      (by decide +kernel) (by decide +kernel)
    refine ⟨db.put versionTable t, ?_, ?_, ⟨t, Db.get?_put_self _ _ _⟩, beside_put _ _ _⟩
    · rw [exec_createTable_missing unreserved_version ht, hc, Option.map_some]
    · exact resumable_version h (create_columns hc).1

theorem mem_childRenames_iff {p : String × String} :
    p ∈ d.childRenames ↔ ∃ c ∈ d.children, c.oldTable d = some p.1 ∧ p.2 = c.table := by
  unfold Declared.childRenames
  rw [List.mem_filterMap]
  constructor
  · rintro ⟨c, hc, hp⟩
    obtain ⟨old, hm, rfl⟩ := Option.map_eq_some_iff.mp hp
    refine ⟨c, mem_evolving hc, ?_, rfl⟩
    simp only [Declared.evolving, List.mem_append, List.mem_filter] at hc
    cases hs : c.shape with
    | link => simp [hs, ChildShape.isRepeated, ChildShape.isMap, ChildShape.isComposed] at hc
    | map => simp [Child.oldTable, hs, hm]
    | repeated => simp [Child.oldTable, hs, hm]
    | composed => simp [Child.oldTable, hs, hm]
  · rintro ⟨c, hc, ho, htable⟩
    unfold Child.oldTable at ho
    split at ho
    next => simp at ho
    next hlink =>
      obtain ⟨old, hm, he⟩ := Option.map_eq_some_iff.mp ho
      refine ⟨c, ?_, ?_⟩
      · simp only [Declared.evolving, List.mem_append, List.mem_filter]
        cases hs : c.shape with
        | link valSql => exact absurd hs (hlink valSql)
        | map => simp [hc, ChildShape.isMap]
        | repeated => simp [hc, ChildShape.isRepeated]
        | composed => simp [hc, ChildShape.isComposed]
      · rw [hm, ← htable, Option.map_some, he]

theorem nodup_childTargets (distinct : (d.children.map fun c => fold c.table).Nodup) :
    (d.childRenames.map Prod.snd).Nodup := by
  have children : d.children.Nodup := distinct.of_map _
  have evolving : d.evolving.Nodup := by
    have apart : ∀ {p q : Child → Bool}, (∀ c, p c → ¬ q c) →
        (d.children.filter p).Disjoint (d.children.filter q) := fun hpq c hp hq =>
      hpq c (List.mem_filter.mp hp).2 (List.mem_filter.mp hq).2
    refine (((children.filter _).append (children.filter _) (apart ?_)).append (children.filter _) ?_)
    · rintro ⟨_, shape, _⟩
      cases shape <;> simp [ChildShape.isRepeated, ChildShape.isMap]
    · refine List.disjoint_append_left.mpr ⟨apart ?_, apart ?_⟩ <;>
      · rintro ⟨_, shape, _⟩
        cases shape <;> simp [ChildShape.isRepeated, ChildShape.isMap, ChildShape.isComposed]
  have tables : (d.evolving.map Child.table).Nodup := by
    refine evolving.map_on fun c hc c' hc' same => ?_
    exact childDeclared_unique distinct (mem_evolving hc) (mem_evolving hc') (congrArg fold same)
  have pairs : d.childRenames = d.evolving.filterMap fun c =>
      (c.renamedFrom.map (d.table ++ "__" ++ ·)).map fun old => (old, c.table) := by
    unfold Declared.childRenames
    simp only [Option.map_map, Function.comp_def]
  rw [pairs]
  exact (List.filterMap_snd_sublist _ Child.table d.evolving).nodup tables

/-- Where no rename takes a declared child, every source is an origin. -/
theorem childOrigin_eq_source (distinct : (d.children.map fun c => fold c.table).Nodup)
    (stay : ChildrenStay d db) {c : Child} (hc : c ∈ d.children) :
    d.childOrigin db c = d.childSource db c := by
  cases hs : d.childSource db c with
  | none => rw [Declared.childOrigin, hs, Option.filter_none]
  | some n =>
    obtain ⟨live, rfl | ⟨missing, marked⟩⟩ := childSource_eq_some hs
    · exact childOrigin_of_live live
    · have rename : (n, c.table) ∈ d.childRenames := mem_childRenames_iff.mpr ⟨c, hc, marked, rfl⟩
      exact childOrigin_of_missing missing marked live
        (undeclared_of_firing (nodup_childTargets distinct) stay rename live missing)

/-- `childHave` is the listing of the child tables. -/
structure Listing (C : Casting) (d : Declared) (db₀ : Db) (childHave : List String) (db : Db) :
    Prop where
  resumable : Resumable C d db₀ db
  versioned : Versioned db
  stay : ∀ t, db.get? d.table = some t → ColumnsStay d t
  nodup : childHave.Nodup
  listed : ∀ n, n ∈ childHave ↔ n ∈ db.names ∧ startsWith n (d.table ++ "__")

/-- No missing child has a live origin left. -/
def Sourced (d : Declared) (db : Db) : Prop :=
  ∀ c ∈ d.children, c.table ∉ db.names → d.childOrigin db c = none

section Renaming

variable {childHave : List String} {c : Child} {old : String}

/-- A rename keeps the listing up to date. -/
theorem Listing.relocated (h : Listing C d db₀ childHave db) (r : Relocated C d c old db db')
    (missing : c.table ∉ childHave) :
    Listing C d db₀ (swapName childHave old c.table) db' := by
  have hstart := (childTable_ne r.declared).2.2
  refine ⟨h.resumable.trans (r.resumable h.resumable.fit), ?_, fun t ht => h.stay t (r.main ▸ ht),
    nodup_swapName h.nodup missing, fun n => ?_⟩
  · obtain ⟨t, ht⟩ := h.versioned
    refine ⟨t, ?_⟩
    rw [r.get (childTable_ne r.declared).2.1.symm (fold_oldTable_ne r.marked.1).2.symm, ht]
  · rw [mem_swapName, r.names, h.listed]
    constructor
    · rintro (⟨⟨hn, hs⟩, hne⟩ | rfl)
      · exact ⟨.inl ⟨hn, hne⟩, hs⟩
      · exact ⟨.inr rfl, hstart⟩
    · rintro ⟨⟨hn, hne⟩ | rfl, hs⟩
      · exact .inl ⟨⟨hn, hs⟩, hne⟩
      · exact .inr rfl

/-- The missing children whose rename is still to come. -/
def Pending (d : Declared) (rest : List (String × String)) (db : Db) : Prop :=
  ∀ c ∈ d.children, c.table ∉ db.names → ∀ old, d.childOrigin db c = some old → (old, c.table) ∈ rest

theorem Pending.relocated {rest : List (String × String)}
    (h : Pending d ((old, c.table) :: rest) db) (fit : Fit C d db)
    (r : Relocated C d c old db db') : Pending d rest db' := by
  intro c' hc' hl' m ho'
  have hne : c' ≠ c := by
    rintro rfl
    exact hl' ((r.names _).mpr (.inr rfl))
  obtain ⟨same, apart⟩ := r.other fit hc' hne
  rw [same] at ho'
  have live' : c'.table ∉ db.names := by
    intro hl
    refine hl' ((r.names _).mpr (.inl ⟨hl, fun he => ?_⟩))
    exact r.fold_ne_old fit hc' (congrArg fold he)
  rcases List.mem_cons.mp (h c' hc' live' m ho') with he | hrest
  · exact absurd (congrArg fold (Prod.mk.inj he).1) (apart m ho').2
  · exact hrest

theorem Pending.skipped {p : String × String} {rest : List (String × String)}
    (h : Pending d (p :: rest) db) (listing : Listing C d db₀ childHave db)
    (skip : ¬ (p.1 ∈ childHave ∧ p.2 ∉ childHave)) : Pending d rest db := by
  intro c hc hl old ho
  rcases List.mem_cons.mp (h c hc hl old ho) with rfl | hrest
  · obtain ⟨live, rfl | ⟨-, marked, -⟩⟩ := childOrigin_eq_some ho
    · exact absurd live hl
    · obtain ⟨suffix, rfl⟩ := oldTable_eq_some marked
      refine absurd ⟨(listing.listed _).mpr ⟨live, startsWith_iff.mpr ⟨suffix, rfl⟩⟩, ?_⟩ skip
      exact fun hn => hl ((listing.listed _).mp hn).1
  · exact hrest

theorem renameChildren_complete (h : Listing C d db₀ childHave db)
    (stay : ∀ p ∈ firing d.childRenames childHave, p.1 ∉ d.children.map Child.table) :
    (Prog.fold renameChild childHave d.childRenames).Completes (exec C) (Resumable C d db₀) db
      fun have' db' => Listing C d db₀ have' db' ∧ Sourced d db' := by
  refine Prog.completes_mono (Prog.completes_fold (fun rest have' db' => rest ⊆ d.childRenames ∧
    Listing C d db₀ have' db' ∧ (∀ p ∈ firing rest have', p.1 ∉ d.children.map Child.table) ∧
      Pending d rest db') ⟨List.Subset.refl _, h, stay, ?_⟩ ?_ ?_) ?_
  · intro c hc hl old ho
    obtain ⟨live, rfl | ⟨-, marked, -⟩⟩ := childOrigin_eq_some ho
    · exact absurd live hl
    · exact mem_childRenames_iff.mpr ⟨c, hc, marked, rfl⟩
  · exact fun _ _ _ h => h.2.1.resumable
  · rintro p rest have' db' ⟨hsub, h', stay', pending⟩
    have rest_sub : rest ⊆ d.childRenames := fun x hx => hsub (List.mem_cons_of_mem _ hx)
    obtain ⟨c, hc, ho, htable⟩ := mem_childRenames_iff.mp (hsub List.mem_cons_self)
    obtain ⟨old, target⟩ := p
    simp only at ho htable
    subst htable
    rw [firing] at stay'
    unfold renameChild
    split
    next hfire =>
      rw [if_pos hfire] at stay'
      have habs : c.table ∉ db'.names :=
        fun hl => hfire.2 ((h'.listed _).mpr ⟨hl, (childTable_ne hc).2.2⟩)
      have hold : old ∈ db'.names := ((h'.listed _).mp hfire.1).1
      have fit := h'.resumable.fit
      have origin := childOrigin_of_missing habs ho hold (stay' _ List.mem_cons_self)
      obtain ⟨db'', r⟩ := relocates fit hc habs origin
      have after := h'.relocated r hfire.2
      exact Prog.completes_bind (Prog.completes_exec h'.resumable (execAll_of_exec r.step)
        after.resumable ⟨after.resumable, rest_sub, after,
          fun q hq => stay' q (List.mem_cons_of_mem _ hq), pending.relocated fit r⟩)
    next hskip =>
      rw [if_neg hskip] at stay'
      exact ⟨h'.resumable, rest_sub, h', stay', pending.skipped h' hskip⟩
  · rintro have' db' ⟨-, h', -, pending⟩
    refine ⟨h', fun c hc hl => ?_⟩
    cases ho : d.childOrigin db' c with
    | none => rfl
    | some old => exact absurd (pending c hc hl old ho) List.not_mem_nil

end Renaming

/-- The tables found by prefix are still there, beside the declared ones. -/
structure Underway (C : Casting) (d : Declared) (db₀ : Db) (childHave : List String) (db : Db) :
    Prop where
  resumable : Resumable C d db₀ db
  versioned : Versioned db
  stay : ∀ t, db.get? d.table = some t → ColumnsStay d t
  listed : ∀ n ∈ db.names, startsWith n (d.table ++ "__") →
    n ∈ childHave ∨ n ∈ d.children.map Child.table
  live : ∀ n ∈ childHave, startsWith n (d.table ++ "__") ∧ n ∈ db.names

theorem Listing.underway {childHave : List String} (h : Listing C d db₀ childHave db) :
    Underway C d db₀ childHave db :=
  ⟨h.resumable, h.versioned, h.stay, fun n hn hs => .inl ((h.listed n).mpr ⟨hn, hs⟩),
    fun n hn => ⟨((h.listed n).mp hn).2, ((h.listed n).mp hn).1⟩⟩

theorem Sourced.put {x : String} {t : Table} (h : Sourced d db) (free : db.get? x = none)
    (apart : ∀ c ∈ d.children, ∀ old, c.oldTable d = some old →
      old ∉ d.children.map Child.table → old ≠ x) : Sourced d (db.put x t) := by
  intro c hc hl
  have habs : c.table ∉ db.names := fun hn => hl ((Db.mem_names_put_missing free).mpr (.inl hn))
  have none_ := h c hc habs
  cases ho : d.childOrigin (db.put x t) c with
  | none => rfl
  | some old =>
    obtain ⟨live, rfl | ⟨-, marked, undeclared⟩⟩ := childOrigin_eq_some ho
    · exact absurd live hl
    · have hold := ((Db.mem_names_put_missing free).mp live).resolve_right
        (apart c hc old marked undeclared)
      rw [childOrigin_of_missing habs marked hold undeclared] at none_
      simp at none_

/-- Creating the main table. -/
theorem createMain_completes {childHave : List String} (h : Underway C d db₀ childHave db)
    (sourced : Sourced d db) (hg : db.get? d.table = none) :
    ∃ t, exec C (.createTable true d.table (d.columns.map Column.sqlDef) []) db =
        some (db.put d.table t) ∧ Underway C d db₀ childHave (db.put d.table t) ∧
      Sourced d (db.put d.table t) := by
  have fit := h.resumable.fit
  have folded : foldedNames (d.columns.map Column.sqlDef) = d.columns.map fun c => fold c.name := by
    rw [foldedNames, List.map_map]
    rfl
  obtain ⟨t, ht⟩ := create_of_nodup (d.columns.map Column.sqlDef) []
    (by rw [folded]; exact fit.columns) (by simp)
  obtain ⟨hcols, hkey, -⟩ := create_columns ht
  obtain ⟨fresh, complete, steady⟩ := mainReady_declared C fit.columns hcols hkey
  have beside := beside_put d.table db t
  have step : Resumable C d db (db.put d.table t) := by
    refine resumable_beside fit beside ?_ ?_ ?_ ?_ ?_ ?_ ?_
    · exact fun c hc => (childTable_ne hc).1
    · exact fun c _ _ old ho => (fold_oldTable_ne ho).1
    · intro u hu
      rw [beside.tables _ (fold_table_ne_version d).symm] at hu
      exact fit.version u hu
    · intro u hu
      rw [hg] at hu
      simp at hu
    · intro _ u hu
      rw [Db.get?_put_self] at hu
      cases Option.some.inj hu
      exact ⟨fresh, steady⟩
    · intro hfree
      rw [beside.tables _ (fold_prefixed_ne d.retypeTmp_prefixed).1, hfree]
    · intro n _ hf
      refine .inr (.inr fun c hc he => ?_)
      exact (fold_prefixed_ne (tmp_prefixed hc)).1 (he.symm.trans hf)
  refine ⟨t, ?_, ⟨h.resumable.trans step, beside.versioned (fold_table_ne_version d) h.versioned,
    ?_, ?_, fun n hn => ?_⟩, sourced.put hg fun c _ old ho _ he => ?_⟩
  · rw [exec_createTable_missing fit.unreserved_main hg, ht, Option.map_some]
  · intro u hu
    rw [Db.get?_put_self] at hu
    cases Option.some.inj hu
    exact complete.columnsStay
  · intro n hn hs
    rcases (Db.mem_names_put_missing hg).mp hn with hn | rfl
    · exact h.listed n hn hs
    · exact absurd rfl (fold_prefixed_ne hs).1
  · exact ⟨(h.live n hn).1, (Db.mem_names_put_missing hg).mpr (.inl (h.live n hn).2)⟩
  · exact (fold_oldTable_ne ho).1 (congrArg fold he)

/-- Creating a child table. -/
theorem createChild_completes {childHave : List String} (h : Underway C d db₀ childHave db)
    (sourced : Sourced d db) {c : Child} (hc : c ∈ d.children) (hg : db.get? c.table = none) :
    ∃ t, exec C (.createTable true c.table c.shape.columns c.shape.key) db =
        some (db.put c.table t) ∧ Underway C d db₀ childHave (db.put c.table t) ∧
      Sourced d (db.put c.table t) := by
  have fit := h.resumable.fit
  obtain ⟨t, ht⟩ := create_of_nodup _ _ (fit.elements c hc) key_columns
  obtain ⟨fresh, quiet⟩ := childReady_declared C (create_columns ht).1
  have habs : c.table ∉ db.names := by
    intro hn
    obtain ⟨u, hu⟩ := Db.exists_get?_of_mem_names hn
    rw [hg] at hu
    simp at hu
  have nothing : ∀ u, ¬ HeldIn d db c u := by
    rintro u ⟨n, hs, -⟩
    rw [sourced c hc habs] at hs
    simp at hs
  have beside := beside_put c.table db t
  have step : Resumable C d db (db.put c.table t) := by
    refine resumable_child fit hc beside ((Db.mem_names_put_missing hg).mpr (.inr rfl)) ?_
      fun u hu => absurd hu (nothing u)
    intro u hu
    rw [Db.get?_put_self] at hu
    cases Option.some.inj hu
    refine ⟨fresh, fun hf => ?_⟩
    rw [quiet] at hf
    simp at hf
  refine ⟨t, ?_, ⟨h.resumable.trans step, beside.versioned (childTable_ne hc).2.1 h.versioned,
    ?_, ?_, fun n hn => ?_⟩, sourced.put hg fun c' _ old _ undeclared he => ?_⟩
  · rw [exec_createTable_missing (fit.unreserved_child hc) hg, ht, Option.map_some]
  · intro u hu
    rw [beside.tables _ (childTable_ne hc).1.symm] at hu
    exact h.stay u hu
  · intro n hn hs
    rcases (Db.mem_names_put_missing hg).mp hn with hn | rfl
    · exact h.listed n hn hs
    · exact .inr (List.mem_map_of_mem hc)
  · exact ⟨(h.live n hn).1, (Db.mem_names_put_missing hg).mpr (.inl (h.live n hn).2)⟩
  · exact undeclared (he ▸ List.mem_map_of_mem hc)

/-- Creating one declared table, if it is missing. -/
theorem create_completes {childHave : List String} (h : Underway C d db₀ childHave db)
    (sourced : Sourced d db) {e : String × List ColumnDef × List String} (he : e ∈ d.ddl) :
    ∃ db', exec C (.createTable true e.1 e.2.1 e.2.2) db = some db' ∧
      Underway C d db₀ childHave db' ∧ Sourced d db' ∧ (∃ t, db'.get? e.1 = some t) ∧
      ∀ n t, db.get? n = some t → db'.get? n = some t := by
  have free := h.resumable.fit.unreserved e he
  cases hg : db.get? e.1 with
  | some t => exact ⟨db, exec_createTable_live free hg, h, sourced, ⟨t, hg⟩, fun _ _ hn => hn⟩
  | none =>
    have kept : ∀ {t : Table} n u, db.get? n = some u → (db.put e.1 t).get? n = some u := by
      intro t n u hu
      rw [Db.get?_put, if_neg, hu]
      intro hf
      rw [db.get?_congr hf, hg] at hu
      simp at hu
    rcases ddl_fold he with rfl | ⟨c, hc, rfl⟩
    · obtain ⟨t, hx, underway, sourced⟩ := createMain_completes h sourced hg
      exact ⟨_, hx, underway, sourced, ⟨t, Db.get?_put_self _ _ _⟩, kept⟩
    · obtain ⟨t, hx, underway, sourced⟩ := createChild_completes h sourced hc hg
      exact ⟨_, hx, underway, sourced, ⟨t, Db.get?_put_self _ _ _⟩, kept⟩

end

end Harpia
