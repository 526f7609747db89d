import Harpia.Lib.SqliteColumns
import Harpia.MigrationIsolation

namespace Harpia

open Text Sqlite

/-- Only the table `name` may differ. -/
structure Beside (name : String) (db db' : Db) : Prop where
  tables : ∀ n, fold n ≠ fold name → db'.get? n = db.get? n
  names : ∀ n, fold n ≠ fold name → (n ∈ db'.names ↔ n ∈ db.names)

theorem Beside.refl (name : String) (db : Db) : Beside name db db := ⟨fun _ _ => rfl, fun _ _ => Iff.rfl⟩

theorem Beside.trans {name : String} {db₁ db₂ db₃ : Db} (h₁ : Beside name db₁ db₂)
    (h₂ : Beside name db₂ db₃) : Beside name db₁ db₃ :=
  ⟨fun n hn => (h₂.tables n hn).trans (h₁.tables n hn),
    fun n hn => (h₂.names n hn).trans (h₁.names n hn)⟩

theorem beside_put (name : String) (db : Db) (t : Table) : Beside name db (db.put name t) where
  tables n hn := by rw [Db.get?_put, if_neg hn]
  names n hn := by
    rw [Db.mem_names_put]
    exact ⟨fun h => h.resolve_right fun he => hn (congrArg fold he.1), .inl⟩

theorem beside_rebuilt {C : Casting} {table : String} {columns : List ColumnDef}
    {key : List String} {targets : List (String × Expr)} {db db' : Db}
    (h : Rebuilt C table columns key targets db db') : Beside table db db' where
  tables := h.frame
  names n hn := by
    rw [h.names n]
    constructor
    · rintro (⟨hm, -⟩ | rfl)
      · exact hm
      · exact absurd rfl hn
    · exact fun hm => .inl ⟨hm, hn⟩

theorem execAll_singleton {C : Casting} {s : Stmt} {db db' : Db}
    (h : Prog.execAll (exec C) [s] db = some db') : exec C s db = some db' := by
  obtain ⟨db₁, hs, he⟩ := Option.bind_eq_some_iff.mp h
  cases Option.some.inj he
  exact hs

/-- The live columns of `table`, tracked by the set `have_`. -/
def Tracks (db₀ : Db) (table : String) (have_ : List String) (db : Db) : Prop :=
  Beside table db₀ db ∧ "HARPIA_ID" ∈ have_ ∧
    ∃ t, db.get? table = some t ∧ ∀ n, n ∈ have_ ↔ n ∈ t.names

theorem mem_swapName {names : List String} {old new n : String} :
    n ∈ swapName names old new ↔ n ∈ names ∧ n ≠ old ∨ n = new := by
  simp [swapName]

section

variable {C : Casting} {db₀ db : Db} {table : String} {have_ : List String}

theorem tracks_renameColumn {old new : String} (h : Tracks db₀ table have_ db)
    (hold : old ∈ have_) (hkey : old ≠ "HARPIA_ID") {db' : Db}
    (he : exec C (.renameColumn table old new) db = some db') :
    Tracks db₀ table (swapName have_ old new) db' := by
  obtain ⟨beside, hid, t, ht, hn⟩ := h
  obtain ⟨t₁, t', ht₁, hr, rfl⟩ := exec_alter rfl he
  cases Option.some.inj (ht.symm.trans ht₁)
  refine ⟨beside.trans (beside_put _ _ _), mem_swapName.mpr (.inl ⟨hid, hkey.symm⟩), t', by simp, ?_⟩
  intro n
  rw [mem_swapName, renameColumn_names hr ((hn old).mp hold), hn n]

theorem legacy_ne_key {p : String × String × Bool} (hp : p ∈ legacyHidden) :
    isLegacy "HARPIA_ID" p.2.1 p.2.2 = false := by
  revert p
  decide +kernel

theorem renameHidden_tracks {p : String × String × Bool} (hp : p ∈ legacyHidden)
    (h : Tracks db₀ table have_ db) :
    (renameHidden table have_ p).Obeys (exec C) (fun _ => True) db fun have' =>
      Tracks db₀ table have' := by
  unfold renameHidden
  split
  · exact h
  · split
    next legacy hf =>
      refine Prog.obeys_bind ⟨fun _ _ => trivial, fun db' he => ?_⟩
      refine tracks_renameColumn h ((List.mem_insertionSort _).mp (List.mem_of_find?_eq_some hf)) ?_
        (execAll_singleton he)
      rintro rfl
      have hl := List.find?_some hf
      simp [legacy_ne_key hp] at hl
    next => exact h

theorem renameMarked_tracks {p : String × String} (hp : p.1 ≠ "HARPIA_ID")
    (h : Tracks db₀ table have_ db) :
    (renameMarked table have_ p).Obeys (exec C) (fun _ => True) db fun have' =>
      Tracks db₀ table have' := by
  unfold renameMarked
  split
  next hfire =>
    refine Prog.obeys_bind ⟨fun _ _ => trivial, fun db' he => ?_⟩
    exact tracks_renameColumn h hfire.1 hp (execAll_singleton he)
  next => exact h

theorem addMissing_adds {adds : List ColumnDef} {t : Table} (beside : Beside table db₀ db)
    (ht : db.get? table = some t) (hn : ∀ n, n ∈ have_ ↔ n ∈ t.names) :
    (Prog.forEach (addMissing table have_) adds).Obeys (exec C) (fun _ => True) db fun _ db' =>
      Beside table db₀ db' ∧ ∃ t, db'.get? table = some t ∧
        ∀ n, n ∈ t.names ↔ n ∈ have_ ∨ n ∈ adds.map ColumnDef.name := by
  refine Prog.obeys_mono (Prog.obeys_forEach (fun rest db' => rest ⊆ adds ∧ Beside table db₀ db' ∧
    ∃ t, db'.get? table = some t ∧ (∀ n ∈ have_, n ∈ t.names) ∧
      (∀ n ∈ t.names, n ∈ have_ ∨ n ∈ adds.map ColumnDef.name) ∧
      ∀ c ∈ adds, c ∈ rest ∨ c.name ∈ t.names)
    ⟨List.Subset.refl _, beside, t, ht, fun n h => (hn n).mp h, fun n h => .inl ((hn n).mpr h),
      fun c hc => .inl hc⟩ ?_) ?_
  · rintro c rest db ⟨hsub, beside, t, ht, hhave, hall, hdone⟩
    have rest_sub : rest ⊆ adds := fun x hx => hsub (List.mem_cons_of_mem _ hx)
    unfold addMissing
    split
    next hc =>
      refine ⟨rest_sub, beside, t, ht, hhave, hall, fun d hd => ?_⟩
      rcases hdone d hd with hd | hd
      · rcases List.mem_cons.mp hd with rfl | hd
        · exact .inr (hhave _ hc)
        · exact .inl hd
      · exact .inr hd
    next =>
      refine ⟨fun _ _ => trivial, fun db' he => ?_⟩
      obtain ⟨t₁, t', ht₁, ha, rfl⟩ := exec_alter rfl (execAll_singleton he)
      cases Option.some.inj (ht.symm.trans ht₁)
      refine ⟨rest_sub, beside.trans (beside_put _ _ _), t', by simp, fun n h => ?_, fun n h => ?_,
        fun d hd => ?_⟩
      · exact (addColumn_names ha).mpr (.inl (hhave n h))
      · rcases (addColumn_names ha).mp h with h | rfl
        · exact hall n h
        · exact .inr (List.mem_map_of_mem (hsub List.mem_cons_self))
      · rw [addColumn_names ha]
        rcases hdone d hd with hd | hd
        · rcases List.mem_cons.mp hd with rfl | hd
          · exact .inr (.inr rfl)
          · exact .inl hd
        · exact .inr (.inl hd)
  · rintro _ db' ⟨-, beside, t, ht, hhave, hall, hdone⟩
    refine ⟨beside, t, ht, fun n => ⟨hall n, ?_⟩⟩
    rintro (h | h)
    · exact hhave n h
    · obtain ⟨c, hc, rfl⟩ := List.mem_map.mp h
      exact (hdone c hc).resolve_left List.not_mem_nil

theorem dropStray_drops {current strays : List String} {t₀ : Table}
    (beside : Beside table db₀ db) (ht₀ : db.get? table = some t₀)
    (hs : ∀ n ∈ strays, n ∈ t₀.names) :
    (Prog.forEach (dropStray table current) strays).Obeys (exec C) (fun _ => True) db fun _ db' =>
      Beside table db₀ db' ∧ ∃ t, db'.get? table = some t ∧
        ∀ n, n ∈ t.names ↔ n ∈ t₀.names ∧ (n ∈ strays → n ∈ current) := by
  refine Prog.obeys_mono (Prog.obeys_forEach (fun rest db' => rest ⊆ strays ∧
    Beside table db₀ db' ∧ ∃ t, db'.get? table = some t ∧
      (∀ n ∈ t.names, n ∈ t₀.names ∧ (n ∈ strays → n ∈ current ∨ n ∈ rest)) ∧
      ∀ n ∈ t₀.names, (n ∈ strays → n ∈ current) → n ∈ t.names)
    ⟨List.Subset.refl _, beside, t₀, ht₀, fun n h => ⟨h, fun hn => .inr hn⟩, fun n h _ => h⟩ ?_) ?_
  · rintro c rest db ⟨hsub, beside, t, ht, honly, hkeep⟩
    have rest_sub : rest ⊆ strays := fun x hx => hsub (List.mem_cons_of_mem _ hx)
    unfold dropStray
    split
    next hc =>
      refine ⟨rest_sub, beside, t, ht, fun n h => ⟨(honly n h).1, fun hn => ?_⟩, hkeep⟩
      rcases (honly n h).2 hn with h | h
      · exact .inl h
      · rcases List.mem_cons.mp h with rfl | h
        · exact .inl hc
        · exact .inr h
    next hc =>
      refine ⟨fun _ _ => trivial, fun db' he => ?_⟩
      obtain ⟨t₁, t', ht₁, hd, rfl⟩ := exec_alter rfl (execAll_singleton he)
      cases Option.some.inj (ht.symm.trans ht₁)
      refine ⟨rest_sub, beside.trans (beside_put _ _ _), t', by simp, fun n h => ?_, fun n h hn => ?_⟩
      · obtain ⟨h, hne⟩ := (dropColumn_names hd).mp h
        refine ⟨(honly n h).1, fun hn => ?_⟩
        rcases (honly n h).2 hn with h | h
        · exact .inl h
        · rcases List.mem_cons.mp h with rfl | h
          · exact absurd rfl hne
          · exact .inr h
      · refine (dropColumn_names hd).mpr ⟨hkeep n h hn, fun hf => ?_⟩
        have hstray := hsub (List.mem_cons_self : c ∈ c :: rest)
        obtain rfl := Table.names_unique h (hs c hstray) hf
        exact hc (hn hstray)
  · rintro _ db' ⟨-, beside, t, ht, honly, hkeep⟩
    refine ⟨beside, t, ht, fun n => ⟨fun h => ⟨(honly n h).1, fun hn => ?_⟩,
      fun h => hkeep n h.1 h.2⟩⟩
    exact ((honly n h).2 hn).resolve_right List.not_mem_nil

end

/-- The main table has exactly the declared columns with the declared types. -/
def MainShaped (d : Declared) (db : Db) : Prop :=
  ∃ t, db.get? d.table = some t ∧ ∀ n type,
    (∃ c ∈ t.columns, c.name = n ∧ c.type = type) ↔ ∃ c ∈ d.columns, c.name = n ∧ c.sqlType = type

theorem drifted_eq_false {live conditions : List (String × SqlType)}
    (h : drifted live conditions = false) {n : String} {type want : SqlType}
    (hl : (n, type) ∈ live) (hc : (n, want) ∈ conditions) : type = want := by
  by_contra hne
  have : drifted live conditions = true := by
    simp only [drifted, List.any_eq_true]
    exact ⟨(n, want), hc, (n, type), hl, by simp [hne]⟩
  simp [h] at this

theorem mainShaped_of_names {d : Declared} {db : Db} {t : Table} (ht : db.get? d.table = some t)
    (hn : ∀ n, n ∈ t.names ↔ n ∈ d.columns.map Column.name)
    (hd : drifted (liveTypes t.columns)
      (d.columns.map fun c => (c.name, c.sqlType)) = false) : MainShaped d db := by
  refine ⟨t, ht, fun n type => ?_⟩
  constructor
  · rintro ⟨c, hc, rfl, rfl⟩
    obtain ⟨c', hc', he⟩ := List.mem_map.mp ((hn c.name).mp (List.mem_map_of_mem hc))
    refine ⟨c', hc', he, (drifted_eq_false hd (List.mem_map_of_mem hc) ?_).symm⟩
    exact List.mem_map.mpr ⟨c', hc', by rw [he]⟩
  · rintro ⟨c', hc', rfl, rfl⟩
    obtain ⟨c, hc, he⟩ := List.mem_map.mp ((hn c'.name).mpr (List.mem_map_of_mem hc'))
    refine ⟨c, hc, he, drifted_eq_false hd (List.mem_map_of_mem hc) ?_⟩
    exact List.mem_map.mpr ⟨c', hc', by rw [he]⟩

theorem mainShaped_of_rebuilt {C : Casting} {d : Declared} {db db' : Db} {key : List String}
    {targets : List (String × Expr)}
    (h : Rebuilt C d.table (d.columns.map Column.sqlDef) key targets db db') : MainShaped d db' := by
  obtain ⟨old, new, -, hnew, hget⟩ := h.filled
  refine ⟨new, hget, fun n type => ?_⟩
  rw [(rebuiltTable_columns hnew).1]
  simp [Column.sqlDef]

/-- What the main table's part achieves whenever it completes. -/
theorem migrateColumns_shapes {C : Casting} {d : Declared} {db : Db} {t : Table}
    (ht : db.get? d.table = some t) (hkey : "HARPIA_ID" ∈ t.names)
    (kept : ∀ c ∈ d.columns, c.renamedFrom ≠ some "HARPIA_ID") :
    (migrateColumns d).Obeys (exec C) (fun _ => True) db fun _ db' =>
      Beside d.table db db' ∧ MainShaped d db' := by
  refine Prog.obeys_bind ?_
  simp only [listColumns, liveColumns, ht, Prog.get, Prog.Obeys]
  have init : Tracks db d.table (t.columns.map ColumnDef.name) db :=
    ⟨.refl _ _, hkey, t, ht, fun _ => Iff.rfl⟩
  refine Prog.obeys_bind (Prog.obeys_mono (Prog.obeys_fold
    (fun rest have_ db' => rest ⊆ d.hiddenRenames ∧ Tracks db d.table have_ db')
    ⟨List.Subset.refl _, init⟩ ?_) fun have₁ db₁ h₁ => ?_)
  · rintro p rest have_ db' ⟨hsub, h⟩
    obtain ⟨c, -, hp⟩ := List.mem_filterMap.mp (hsub List.mem_cons_self)
    refine Prog.obeys_mono (renameHidden_tracks (List.mem_of_find?_eq_some hp) h) fun _ _ h => ?_
    exact ⟨fun x hx => hsub (List.mem_cons_of_mem _ hx), h⟩
  refine Prog.obeys_bind (Prog.obeys_mono (Prog.obeys_fold
    (fun rest have_ db' => rest ⊆ d.renames ∧ Tracks db d.table have_ db')
    ⟨List.Subset.refl _, h₁.2⟩ ?_) fun have₂ db₂ h₂ => ?_)
  · rintro p rest have_ db' ⟨hsub, h⟩
    obtain ⟨c, hc, hp⟩ := List.mem_filterMap.mp (hsub List.mem_cons_self)
    obtain ⟨old, hold, rfl⟩ := Option.map_eq_some_iff.mp hp
    refine Prog.obeys_mono (renameMarked_tracks (fun he => kept c hc ?_) h) fun _ _ h => ?_
    · rw [hold]
      exact congrArg some he
    · exact ⟨fun x hx => hsub (List.mem_cons_of_mem _ hx), h⟩
  obtain ⟨-, beside₂, hid, t₂, ht₂, hn₂⟩ := h₂
  refine Prog.obeys_bind (Prog.obeys_mono (addMissing_adds beside₂ ht₂ hn₂) ?_)
  rintro _ db₃ ⟨beside₃, t₃, ht₃, hn₃⟩
  refine Prog.obeys_bind (Prog.obeys_mono (dropStray_drops beside₃ ht₃ fun n hn => ?_) ?_)
  · exact (hn₃ n).mpr (.inl ((List.mem_insertionSort _).mp hn))
  rintro _ db₄ ⟨beside₄, t₄, ht₄, hn₄⟩
  have names : ∀ n, n ∈ t₄.names ↔ n ∈ d.columns.map Column.name := by
    intro n
    rw [hn₄, hn₃, sorted, List.mem_insertionSort]
    constructor
    · rintro ⟨h | h, hcur⟩
      · exact hcur h
      · simp only [Declared.adds, List.map_map, List.mem_map, List.mem_filter] at h
        obtain ⟨c, ⟨hc, -⟩, rfl⟩ := h
        exact List.mem_map_of_mem hc
    · intro h
      refine ⟨?_, fun _ => h⟩
      obtain ⟨c, hc, rfl⟩ := List.mem_map.mp h
      by_cases hp : c.pk
      · exact .inl ((d.pk_only c hc hp).1 ▸ hid)
      · refine .inr ?_
        simp only [Declared.adds, List.map_map, List.mem_map, List.mem_filter]
        exact ⟨c, ⟨hc, by simpa using hp⟩, rfl⟩
  refine Prog.obeys_bind ?_
  simp only [listColumnTypes, liveColumns, Declared.retypePlan, ht₄, Prog.get, Prog.Obeys, rebuildIf]
  split
  · refine Prog.obeys_forEach_exec (fun _ _ _ _ => trivial) fun db₅ he => ?_
    rw [List.flatten_singleton] at he
    have hr := rebuilt_of_execAll (fold_append_ne _ _ (by decide)) he
    exact ⟨beside₄.trans (beside_rebuilt hr), mainShaped_of_rebuilt hr⟩
  next hd => exact ⟨beside₄, mainShaped_of_names ht₄ names (by simpa using hd)⟩

end Harpia
