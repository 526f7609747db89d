import Harpia.Lib.SqliteRows
import Harpia.Lib.Zip
import Harpia.MigrationRuns

namespace Harpia

open Text Sqlite

/-- The live column a declared one takes its values from: itself, else the one its `renamed_from`
names. -/
def Column.source (names : List String) (c : Column) : Option String :=
  if c.name ∈ names then some c.name
  else
    match c.renamedFrom with
    | some old => if old ∈ names then some old else none
    | none => none

/-- What a row holds for a declared column; a column still to be added is `NULL`. -/
def Column.value (c : Column) (names : List String) (r : Row) : Value :=
  match c.source names with
  | some n => r.get n
  | none => .null

/-- The same source, but for a marker that names another declared column. -/
def Column.origin (d : Declared) (names : List String) (c : Column) : Option String :=
  (c.source names).filter fun n => n = c.name ∨ n ∉ d.columns.map Column.name

def Column.held (d : Declared) (c : Column) (names : List String) (r : Row) : Value :=
  match c.origin d names with
  | some n => r.get n
  | none => .null

/-- The renames that fire, one after the other. -/
def firing : List (String × String) → List String → List (String × String)
  | [], _ => []
  | p :: rest, names =>
    if p.1 ∈ names ∧ p.2 ∉ names then p :: firing rest (swapName names p.1 p.2)
    else firing rest names

/-- No rename takes the column of a declared one. -/
def ColumnsStay (d : Declared) (t : Table) : Prop :=
  ∀ p ∈ firing d.renames t.names, p.1 ∉ d.columns.map Column.name

/-- A declared column whose values are there under another type. -/
def Drifts (d : Declared) (t : Table) : Prop :=
  ∃ c ∈ d.columns, ∃ cd ∈ t.columns, c.origin d t.names = some cd.name ∧ cd.type ≠ c.sqlType

/-- The rows a retyping rebuild puts into the declared table. -/
def retypedRows (C : Casting) (d : Declared) (t : Table) : List Row :=
  t.rows.map fun r => Row.ofPairs
    (d.columns.map fun c => (c.name, C.cast c.sqlType (c.held d t.names r)))

/-- What a version must find in its main table. -/
structure MainReady (C : Casting) (d : Declared) (t : Table) : Prop where
  keyless : t.key = []
  hidden : ∀ n ∈ hiddenNames, n ∈ t.names
  /-- a live column is spelled as it is declared, unless it is renamed to that spelling -/
  apart : ∀ n ∈ t.names, ∀ c ∈ d.columns, fold n = fold c.name →
    n = c.name ∨ c.renamedFrom = some n
  /-- no two columns take their values from the same live one -/
  claimed : ∀ c ∈ d.columns, ∀ c' ∈ d.columns, ∀ n, c.origin d t.names = some n →
    c'.origin d t.names = some n → c = c'
  /-- a column that goes carries no uniqueness constraint -/
  droppable : ∀ cd ∈ t.columns, (∀ c ∈ d.columns, c.origin d t.names ≠ some cd.name) →
    cd.pk = false ∧ cd.unique = false
  /-- where a type changes, the rows satisfy the declared constraints -/
  retypes : Drifts d t → Valid (d.columns.map Column.sqlDef) [] (retypedRows C d t)

/-- Every row is there, its declared columns as they were or cast. -/
def MainCarries (C : Casting) (d : Declared) (t t' : Table) : Prop :=
  List.Forall₂ (fun r r' => ∀ c ∈ d.columns,
    Carried C c.sqlType (c.held d t.names r) (c.held d t'.names r')) t.rows t'.rows

section Origins

variable {d : Declared} {names names' : List String} {c : Column}

theorem source_of_live (h : c.name ∈ names) : c.source names = some c.name := by
  rw [Column.source, if_pos h]

theorem source_of_missing (h : c.name ∉ names) {old : String} (hm : c.renamedFrom = some old)
    (hold : old ∈ names) : c.source names = some old := by
  simp [Column.source, h, hm, hold]

theorem source_eq_some {n : String} (h : c.source names = some n) :
    n ∈ names ∧ (n = c.name ∨ c.name ∉ names ∧ c.renamedFrom = some n) := by
  unfold Column.source at h
  split at h
  next hl =>
    cases Option.some.inj h
    exact ⟨hl, .inl rfl⟩
  next hl =>
    split at h
    next old hm =>
      split at h
      next hold =>
        cases Option.some.inj h
        exact ⟨hold, .inr ⟨hl, hm⟩⟩
      next => simp at h
    next => simp at h

theorem origin_of_live (h : c.name ∈ names) : c.origin d names = some c.name := by
  simp [Column.origin, source_of_live h]

theorem origin_of_missing (h : c.name ∉ names) {old : String} (hm : c.renamedFrom = some old)
    (hold : old ∈ names) (undeclared : old ∉ d.columns.map Column.name) :
    c.origin d names = some old := by
  rw [Column.origin, source_of_missing h hm hold]
  exact Option.filter_eq_some_iff.mpr ⟨rfl, decide_eq_true (.inr undeclared)⟩

theorem origin_eq_some {n : String} (h : c.origin d names = some n) :
    n ∈ names ∧ (n = c.name ∨
      c.name ∉ names ∧ c.renamedFrom = some n ∧ n ∉ d.columns.map Column.name) := by
  obtain ⟨hs, kept⟩ := Option.filter_eq_some_iff.mp h
  obtain ⟨live, own | ⟨missing, marked⟩⟩ := source_eq_some hs
  · exact ⟨live, .inl own⟩
  · rcases of_decide_eq_true kept with own | undeclared
    · exact ⟨live, .inl own⟩
    · exact ⟨live, .inr ⟨missing, marked, undeclared⟩⟩

/-- A column's origin depends on its own name, and on an undeclared marker if that is missing. -/
theorem origin_congr (hn : c.name ∈ names' ↔ c.name ∈ names)
    (hm : c.name ∉ names → ∀ old, c.renamedFrom = some old → old ∉ d.columns.map Column.name →
      (old ∈ names' ↔ old ∈ names)) : c.origin d names' = c.origin d names := by
  have one : ∀ {names names' : List String}, (c.name ∈ names' ↔ c.name ∈ names) →
      (c.name ∉ names → ∀ old, c.renamedFrom = some old → old ∉ d.columns.map Column.name →
        (old ∈ names' ↔ old ∈ names)) →
      ∀ n, c.origin d names = some n → c.origin d names' = some n := by
    intro names names' hn hm n h
    obtain ⟨live, rfl | ⟨missing, marked, undeclared⟩⟩ := origin_eq_some h
    · exact origin_of_live (hn.mpr live)
    · exact origin_of_missing (fun h => missing (hn.mp h)) marked
        ((hm missing n marked undeclared).mpr live) undeclared
  refine Option.ext fun n => ⟨one hn.symm (fun missing old marked undeclared => ?_) n, one hn hm n⟩
  exact (hm (fun h => missing (hn.mpr h)) old marked undeclared).symm

theorem firing_of_present {renames : List (String × String)} (h : ∀ p ∈ renames, p.2 ∈ names) :
    firing renames names = [] := by
  induction renames with
  | nil => rfl
  | cons p rest ih =>
    rw [firing, if_neg fun fires => fires.2 (h p List.mem_cons_self)]
    exact ih fun q hq => h q (List.mem_cons_of_mem _ hq)

theorem firing_subset {renames : List (String × String)} : firing renames names ⊆ renames := by
  induction renames generalizing names with
  | nil => exact List.Subset.refl _
  | cons p rest ih =>
    rw [firing]
    split
    · exact List.cons_subset_cons p ih
    · exact List.subset_cons_of_subset p ih

/-- Only the names the renames mention matter. -/
theorem firing_congr {renames : List (String × String)} (h : ∀ p ∈ renames,
    (p.1 ∈ names' ↔ p.1 ∈ names) ∧ (p.2 ∈ names' ↔ p.2 ∈ names)) :
    firing renames names' = firing renames names := by
  induction renames generalizing names names' with
  | nil => rfl
  | cons p rest ih =>
    obtain ⟨first, second⟩ := h p List.mem_cons_self
    have later : ∀ q ∈ rest, (q.1 ∈ names' ↔ q.1 ∈ names) ∧ (q.2 ∈ names' ↔ q.2 ∈ names) :=
      fun q hq => h q (List.mem_cons_of_mem _ hq)
    simp only [firing, first, second, ih later]
    congr 2
    refine ih fun q hq => ?_
    simp only [mem_swapName, (later q hq).1, (later q hq).2, and_self]

/-- A missing name with a live marker: its rename fires, or the marker is renamed before. -/
theorem undeclared_of_firing {renames : List (String × String)} {declared : List String}
    (targets : (renames.map Prod.snd).Nodup) (stay : ∀ p ∈ firing renames names, p.1 ∉ declared)
    {old new : String} (h : (old, new) ∈ renames) (live : old ∈ names) (missing : new ∉ names) :
    old ∉ declared := by
  induction renames generalizing names with
  | nil => exact absurd h List.not_mem_nil
  | cons p rest ih =>
    obtain ⟨notin, targets⟩ := List.nodup_cons.mp targets
    rw [firing] at stay
    rcases List.mem_cons.mp h with rfl | later
    · rw [if_pos ⟨live, missing⟩] at stay
      exact stay _ List.mem_cons_self
    · have apart : new ≠ p.2 := by
        rintro rfl
        exact notin (List.mem_map.mpr ⟨_, later, rfl⟩)
      split at stay
      next fires =>
        by_cases same : old = p.1
        · exact same ▸ stay p List.mem_cons_self
        · refine ih targets (fun q hq => stay q (List.mem_cons_of_mem _ hq)) later ?_ ?_
          · exact mem_swapName.mpr (.inl ⟨live, same⟩)
          · intro hn
            rcases mem_swapName.mp hn with ⟨hn, -⟩ | he
            · exact missing hn
            · exact apart he
      next => exact ih targets stay later live missing

theorem nodup_targets (distinct : (d.columns.map fun c => fold c.name).Nodup) :
    (d.renames.map Prod.snd).Nodup := by
  have names : (d.columns.map Column.name).Nodup := by
    refine List.Nodup.of_map fold ?_
    rw [List.map_map]
    exact distinct
  exact (List.filterMap_snd_sublist Column.renamedFrom Column.name d.columns).nodup names

/-- Where no rename takes a declared column, every source is an origin. -/
theorem origin_eq_source {t : Table} (distinct : (d.columns.map fun c => fold c.name).Nodup)
    (stay : ColumnsStay d t) (hc : c ∈ d.columns) : c.origin d t.names = c.source t.names := by
  cases hs : c.source t.names with
  | none => rw [Column.origin, hs, Option.filter_none]
  | some n =>
    obtain ⟨live, rfl | ⟨missing, marked⟩⟩ := source_eq_some hs
    · exact origin_of_live live
    · have rename : (n, c.name) ∈ d.renames := List.mem_filterMap.mpr ⟨c, hc, by rw [marked]; rfl⟩
      exact origin_of_missing missing marked live
        (undeclared_of_firing (nodup_targets distinct) stay rename live missing)

end Origins

section Tables

variable {C : Casting} {d : Declared} {t t' t'' : Table}

theorem MainCarries.refl (C : Casting) (d : Declared) (t : Table) : MainCarries C d t t :=
  List.forall₂_same.mpr fun _ _ c _ => .refl C c.sqlType _

theorem MainCarries.trans (h₁ : MainCarries C d t t') (h₂ : MainCarries C d t' t'') :
    MainCarries C d t t'' :=
  List.Forall₂.comp (fun _ _ _ hr hr' c hc => (hr c hc).trans (hr' c hc)) h₁ h₂

/-- The rows hold for each declared column what they held before. -/
def SameValues (d : Declared) (t t' : Table) : Prop :=
  ∃ g : Row → Row, t'.rows = t.rows.map g ∧
    ∀ r, ∀ c ∈ d.columns, c.held d t'.names (g r) = c.held d t.names r

theorem SameValues.carries (h : SameValues d t t') : MainCarries C d t t' := by
  obtain ⟨g, hrows, hv⟩ := h
  unfold MainCarries
  rw [hrows, List.forall₂_map_right_iff]
  exact List.forall₂_same.mpr fun r _ c hc => .inl (hv r c hc)

theorem SameValues.retypedRows (h : SameValues d t t') :
    retypedRows C d t' = retypedRows C d t := by
  obtain ⟨g, hrows, hv⟩ := h
  unfold Harpia.retypedRows
  rw [hrows, List.map_map]
  refine List.map_congr_left fun r _ => ?_
  refine congrArg Row.ofPairs (List.map_congr_left fun c hc => ?_)
  rw [hv r c hc]

theorem declared_unique (distinct : (d.columns.map fun c => fold c.name).Nodup) {c c' : Column}
    (hc : c ∈ d.columns) (hc' : c' ∈ d.columns) (h : fold c.name = fold c'.name) : c = c' :=
  List.inj_on_of_nodup_map distinct hc hc' h

/-- What one step on the main table keeps. -/
structure MainStep (C : Casting) (d : Declared) (t t' : Table) : Prop where
  ready : MainReady C d t'
  carries : MainCarries C d t t'
  drifts : Drifts d t' → Drifts d t

theorem MainStep.refl (h : MainReady C d t) : MainStep C d t t := ⟨h, .refl C d t, id⟩

theorem MainStep.trans (h₁ : MainStep C d t t') (h₂ : MainStep C d t' t'') : MainStep C d t t'' :=
  ⟨h₂.ready, h₁.carries.trans h₂.carries, fun h => h₁.drifts (h₂.drifts h)⟩

section Rename

variable {c : Column} {old : String}

/-- `t'` is `t` with `old`, the origin of the missing column `c`, renamed to it. -/
structure Moved (d : Declared) (c : Column) (old : String) (t t' : Table) : Prop where
  declared : c ∈ d.columns
  missing : c.name ∉ t.names
  origin : c.origin d t.names = some old
  step : t.renameColumn old c.name = some t'

theorem Moved.live (m : Moved d c old t t') : old ∈ t.names := (origin_eq_some m.origin).1

theorem Moved.marked (m : Moved d c old t t') :
    c.renamedFrom = some old ∧ old ∉ d.columns.map Column.name := by
  obtain ⟨live, rfl | ⟨-, marked⟩⟩ := origin_eq_some m.origin
  · exact absurd live m.missing
  · exact marked

theorem Moved.names (m : Moved d c old t t') (n : String) :
    n ∈ t'.names ↔ n ∈ t.names ∧ n ≠ old ∨ n = c.name := renameColumn_names m.step m.live

theorem Moved.own (m : Moved d c old t t') : c.origin d t'.names = some c.name :=
  origin_of_live ((m.names _).mpr (.inr rfl))

theorem Moved.name_ne_old (m : Moved d c old t t') {c' : Column} (hc' : c' ∈ d.columns) :
    c'.name ≠ old := fun he => m.marked.2 (he ▸ List.mem_map_of_mem hc')

/-- Every other declared column keeps its origin, which is another column. -/
theorem Moved.other (m : Moved d c old t t') (h : MainReady C d t)
    (distinct : (d.columns.map fun c => fold c.name).Nodup) {c' : Column} (hc' : c' ∈ d.columns)
    (hne : c' ≠ c) : c'.origin d t'.names = c'.origin d t.names ∧
      ∀ n, c'.origin d t.names = some n → n ≠ old ∧ fold n ≠ fold c.name := by
  have name_ne : fold c'.name ≠ fold c.name :=
    fun he => hne (declared_unique distinct hc' m.declared he)
  have live : c'.name ∈ t'.names ↔ c'.name ∈ t.names := by
    rw [m.names]
    constructor
    · rintro (⟨hl, -⟩ | he)
      · exact hl
      · exact absurd (congrArg fold he) name_ne
    · exact fun hl => .inl ⟨hl, m.name_ne_old hc'⟩
  have apart : ∀ n, c'.origin d t.names = some n → n ≠ old := by
    rintro n hs rfl
    exact hne (h.claimed c' hc' c m.declared n hs m.origin)
  constructor
  · refine origin_congr live fun hl n hm undeclared => ?_
    have n_ne : n ≠ c.name := fun he => undeclared (he ▸ List.mem_map_of_mem m.declared)
    rw [m.names]
    constructor
    · exact fun hn => (hn.resolve_right n_ne).1
    · exact fun hn => .inl ⟨hn, apart n (origin_of_missing hl hm hn undeclared)⟩
  · intro n hs
    refine ⟨apart n hs, fun he => ?_⟩
    rcases h.apart n (origin_eq_some hs).1 c m.declared he with rfl | hm
    · exact m.missing (origin_eq_some hs).1
    · exact apart n hs (Option.some.inj (hm.symm.trans m.marked.1))

/-- A live column keeps its name, unless it is the renamed one. -/
theorem Moved.column (m : Moved d c old t t') {cd : ColumnDef} (hcd : cd ∈ t.columns) :
    (cd.name = old ∧ renamed old c.name cd.name = c.name) ∨
      (cd.name ≠ old ∧ renamed old c.name cd.name = cd.name) := by
  by_cases he : fold cd.name = fold old
  · have heq := Table.names_unique (List.mem_map_of_mem hcd) m.live he
    exact .inl ⟨heq, by rw [renamed, if_pos he]⟩
  · exact .inr ⟨fun h => he (congrArg fold h), by rw [renamed, if_neg he]⟩

/-- The origins move along with the columns. -/
theorem Moved.origin_iff (m : Moved d c old t t') (h : MainReady C d t)
    (distinct : (d.columns.map fun c => fold c.name).Nodup) {c' : Column} (hc' : c' ∈ d.columns)
    {cd : ColumnDef} (hcd : cd ∈ t.columns) :
    c'.origin d t'.names = some (renamed old c.name cd.name) ↔
      c'.origin d t.names = some cd.name := by
  have live : cd.name ∈ t.names := List.mem_map_of_mem hcd
  by_cases hne : c' = c
  · subst hne
    rw [m.own, m.origin]
    rcases m.column hcd with ⟨he, hr⟩ | ⟨he, hr⟩
    · rw [hr, he]
      exact ⟨fun _ => rfl, fun _ => rfl⟩
    · rw [hr]
      constructor
      · intro hs
        rw [← Option.some.inj hs] at live
        exact absurd live m.missing
      · intro hs
        exact absurd (Option.some.inj hs).symm he
  · obtain ⟨same, apart⟩ := m.other h distinct hc' hne
    rw [same]
    rcases m.column hcd with ⟨he, hr⟩ | ⟨he, hr⟩
    · rw [hr]
      constructor
      · intro hs
        exact absurd rfl (apart _ hs).2
      · intro hs
        exact absurd he (apart _ hs).1
    · rw [hr]

theorem Moved.values (m : Moved d c old t t') (h : MainReady C d t)
    (distinct : (d.columns.map fun c => fold c.name).Nodup)
    (hrows : t'.rows = t.rows.map fun r => r.set c.name (r.get old)) : SameValues d t t' := by
  refine ⟨fun r => r.set c.name (r.get old), hrows, fun r c' hc' => ?_⟩
  unfold Column.held
  by_cases hne : c' = c
  · subst hne
    rw [m.origin, m.own]
    exact Row.get_set_self _ _ _
  · obtain ⟨same, apart⟩ := m.other h distinct hc' hne
    rw [same]
    cases hs : c'.origin d t.names with
    | none => rfl
    | some n =>
      simp only
      rw [Row.get_set, if_neg (apart n hs).2]

theorem Moved.drifts (m : Moved d c old t t') (h : MainReady C d t)
    (distinct : (d.columns.map fun c => fold c.name).Nodup) : Drifts d t' → Drifts d t := by
  rintro ⟨c', hc', cd', hcd', hs, htype⟩
  rw [renameColumn_columns m.step] at hcd'
  obtain ⟨cd, hcd, rfl⟩ := List.mem_map.mp hcd'
  exact ⟨c', hc', cd, hcd, (m.origin_iff h distinct hc' hcd).mp hs, htype⟩

/-- The renamed table is ready as well. -/
theorem Moved.ready (m : Moved d c old t t') (h : MainReady C d t)
    (distinct : (d.columns.map fun c => fold c.name).Nodup) (values : SameValues d t t')
    (keyless : t'.key = []) : MainReady C d t' where
  keyless := keyless
  hidden n hn := by
    obtain ⟨c', hc', rfl⟩ := List.mem_map.mp (d.hidden_declared n hn)
    exact (m.names _).mpr (.inl ⟨h.hidden _ hn, m.name_ne_old hc'⟩)
  apart n hn c' hc' he := by
    rcases (m.names n).mp hn with ⟨hl, -⟩ | rfl
    · exact h.apart n hl c' hc' he
    · exact .inl (by rw [declared_unique distinct m.declared hc' he])
  claimed := by
    have other : ∀ c' ∈ d.columns, c' ≠ c → ∀ n, c'.origin d t'.names = some n →
        c'.origin d t.names = some n ∧ n ≠ c.name := by
      intro c' hc' hne n hs
      obtain ⟨same, apart⟩ := m.other h distinct hc' hne
      rw [same] at hs
      exact ⟨hs, fun he => (apart n hs).2 (congrArg fold he)⟩
    have named : ∀ n, c.origin d t'.names = some n → n = c.name := fun n hs =>
      Option.some.inj (hs.symm.trans m.own)
    intro c₁ h₁ c₂ h₂ n hs₁ hs₂
    by_cases e₁ : c₁ = c <;> by_cases e₂ : c₂ = c
    · rw [e₁, e₂]
    · exact absurd (named n (e₁ ▸ hs₁)) (other c₂ h₂ e₂ n hs₂).2
    · exact absurd (named n (e₂ ▸ hs₂)) (other c₁ h₁ e₁ n hs₁).2
    · exact h.claimed c₁ h₁ c₂ h₂ n (other c₁ h₁ e₁ n hs₁).1 (other c₂ h₂ e₂ n hs₂).1
  droppable cd' hcd' hnone := by
    rw [renameColumn_columns m.step] at hcd'
    obtain ⟨cd, hcd, rfl⟩ := List.mem_map.mp hcd'
    refine h.droppable cd hcd fun c' hc' hs => ?_
    exact hnone c' hc' ((m.origin_iff h distinct hc' hcd).mpr hs)
  retypes hd := by
    rw [values.retypedRows]
    exact h.retypes (m.drifts h distinct hd)

theorem mainStep_rename (h : MainReady C d t)
    (distinct : (d.columns.map fun c => fold c.name).Nodup) (hc : c ∈ d.columns)
    (habs : c.name ∉ t.names) (ho : c.origin d t.names = some old) :
    ∃ t', t.renameColumn old c.name = some t' ∧ MainStep C d t t' := by
  obtain ⟨hold, hmarked⟩ := origin_eq_some ho
  have free : ∀ n ∈ t.names, fold n = fold c.name → n = old := by
    intro n hl he
    rcases h.apart n hl c hc he with rfl | hm
    · exact absurd hl habs
    · rcases hmarked with rfl | ⟨-, hm', -⟩
      · exact absurd hold habs
      · exact Option.some.inj (hm.symm.trans hm')
  obtain ⟨t', hr, hkey, hrows⟩ := renameColumn_of_free hold free
  have m : Moved d c old t t' := ⟨hc, habs, ho, hr⟩
  have keyless : t'.key = [] := by
    rw [hkey, h.keyless]
    rfl
  have values := m.values h distinct hrows
  exact ⟨t', hr, m.ready h distinct values keyless, values.carries, m.drifts h distinct⟩

end Rename

/-- No missing column has a live source left. -/
def Renamed (d : Declared) (t : Table) : Prop :=
  ∀ c ∈ d.columns, c.name ∉ t.names → c.origin d t.names = none

theorem mainStep_add (h : MainReady C d t)
    (distinct : (d.columns.map fun c => fold c.name).Nodup) (done : Renamed d t) {c : Column}
    (hc : c ∈ d.columns) (habs : c.name ∉ t.names) :
    ∃ t', t.addColumn { name := c.name, type := c.sqlType } = some t' ∧ MainStep C d t t' ∧
      Renamed d t' := by
  have free : ∀ n ∈ t.names, fold n ≠ fold c.name := by
    intro n hn he
    rcases h.apart n hn c hc he with rfl | hm
    · exact habs hn
    · by_cases declared : n ∈ d.columns.map Column.name
      · obtain ⟨c', hc', rfl⟩ := List.mem_map.mp declared
        rw [declared_unique distinct hc' hc he] at hn
        exact habs hn
      · have hs := origin_of_missing habs hm hn declared
        rw [done c hc habs] at hs
        simp at hs
  obtain ⟨t', ha, hcols, hkey, hrows⟩ := addColumn_of_free
    (c := { name := c.name, type := c.sqlType }) free ⟨rfl, rfl, rfl⟩
  have names : ∀ n, n ∈ t'.names ↔ n ∈ t.names ∨ n = c.name := fun n => addColumn_names ha
  have own : c.origin d t'.names = some c.name := origin_of_live ((names _).mpr (.inr rfl))
  have missing : ∀ c' ∈ d.columns, c'.name ∉ t'.names → c'.name ∉ t.names :=
    fun c' _ hl hl' => hl ((names _).mpr (.inl hl'))
  have other : ∀ c' ∈ d.columns, c' ≠ c → c'.origin d t'.names = c'.origin d t.names := by
    intro c' hc' hne
    refine origin_congr ?_ fun _ m _ undeclared => ?_
    · rw [names]
      refine ⟨fun hl => hl.resolve_right fun he => hne ?_, .inl⟩
      exact declared_unique distinct hc' hc (congrArg fold he)
    · rw [names]
      exact ⟨fun hl => hl.resolve_right fun he => undeclared (he ▸ List.mem_map_of_mem hc), .inl⟩
  have values : SameValues d t t' := by
    refine ⟨fun r => r.set c.name .null, hrows, fun r c' hc' => ?_⟩
    unfold Column.held
    by_cases hne : c' = c
    · subst hne
      rw [own, done c' hc' habs]
      exact Row.get_set_self _ _ _
    · rw [other c' hc' hne]
      cases hs : c'.origin d t.names with
      | none => rfl
      | some n => simp only [Row.get_set, if_neg (free n (origin_eq_some hs).1)]
  have drifts : Drifts d t' → Drifts d t := by
    rintro ⟨c', hc', cd, hcd, hs, htype⟩
    rw [hcols] at hcd
    by_cases hne : c' = c
    · subst hne
      rw [own, Option.some.injEq] at hs
      rcases List.mem_append.mp hcd with hcd | hcd
      · exact absurd (hs ▸ List.mem_map_of_mem hcd) habs
      · rw [List.mem_singleton.mp hcd] at htype
        exact absurd rfl htype
    · rw [other c' hc' hne] at hs
      rcases List.mem_append.mp hcd with hcd | hcd
      · exact ⟨c', hc', cd, hcd, hs, htype⟩
      · rw [List.mem_singleton.mp hcd] at hs
        exact absurd (origin_eq_some hs).1 habs
  refine ⟨t', ha, ⟨⟨?_, ?_, ?_, ?_, ?_, fun hd => ?_⟩, values.carries, drifts⟩, ?_⟩
  · rw [hkey, h.keyless]
  · exact fun n hn => (names n).mpr (.inl (h.hidden n hn))
  · intro n hn c' hc' he
    rcases (names n).mp hn with hl | rfl
    · exact h.apart n hl c' hc' he
    · exact .inl (by rw [declared_unique distinct hc hc' he])
  · have named : ∀ c' ∈ d.columns, c' ≠ c → c'.origin d t'.names ≠ some c.name := by
      intro c' hc' hne hs
      rw [other c' hc' hne] at hs
      exact habs (origin_eq_some hs).1
    intro c₁ h₁ c₂ h₂ n hs₁ hs₂
    by_cases e₁ : c₁ = c <;> by_cases e₂ : c₂ = c
    · rw [e₁, e₂]
    · rw [e₁, own] at hs₁
      exact absurd (hs₁ ▸ hs₂) (named c₂ h₂ e₂)
    · rw [e₂, own] at hs₂
      exact absurd (hs₂ ▸ hs₁) (named c₁ h₁ e₁)
    · rw [other c₁ h₁ e₁] at hs₁
      rw [other c₂ h₂ e₂] at hs₂
      exact h.claimed c₁ h₁ c₂ h₂ n hs₁ hs₂
  · intro cd hcd hnone
    rw [hcols] at hcd
    rcases List.mem_append.mp hcd with hcd | hcd
    · refine h.droppable cd hcd fun c' hc' hs => ?_
      by_cases hne : c' = c
      · subst hne
        rw [done c' hc' habs] at hs
        simp at hs
      · exact hnone c' hc' (by rw [other c' hc' hne, hs])
    · rw [List.mem_singleton.mp hcd] at hnone
      exact absurd own (hnone c hc)
  · rw [values.retypedRows]
    exact h.retypes (drifts hd)
  · intro c' hc' hl
    have hne : c' ≠ c := by
      rintro rfl
      exact hl ((names _).mpr (.inr rfl))
    rw [other c' hc' hne]
    exact done c' hc' (missing c' hc' hl)

/-- Every declared column is live. -/
def Complete (d : Declared) (t : Table) : Prop := ∀ c ∈ d.columns, c.name ∈ t.names

theorem Complete.origin (h : Complete d t) {c : Column} (hc : c ∈ d.columns) :
    c.origin d t.names = some c.name := origin_of_live (h c hc)

/-- With every declared column live, no rename fires. -/
theorem Complete.columnsStay (h : Complete d t) : ColumnsStay d t := by
  have targets : ∀ p ∈ d.renames, p.2 ∈ t.names := by
    intro p hp
    obtain ⟨c, hc, marked⟩ := List.mem_filterMap.mp hp
    obtain ⟨old, -, rfl⟩ := Option.map_eq_some_iff.mp marked
    exact h c hc
  intro p hp
  rw [firing_of_present targets] at hp
  exact absurd hp List.not_mem_nil

theorem Complete.claimed (h : Complete d t)
    (distinct : (d.columns.map fun c => fold c.name).Nodup) :
    ∀ c ∈ d.columns, ∀ c' ∈ d.columns, ∀ n, c.origin d t.names = some n →
      c'.origin d t.names = some n → c = c' := by
  intro c hc c' hc' n hs hs'
  rw [h.origin hc, Option.some.injEq] at hs
  rw [h.origin hc', Option.some.injEq] at hs'
  exact declared_unique distinct hc hc' (congrArg fold (hs.trans hs'.symm))

theorem Complete.held (h : Complete d t) {c : Column} (hc : c ∈ d.columns) (r : Row) :
    c.held d t.names r = r.get c.name := by
  rw [Column.held, h.origin hc]

theorem Complete.two_columns (h : Complete d t) : 1 < t.columns.length := by
  have sub : hiddenNames ⊆ t.names := by
    intro n hn
    obtain ⟨c, hc, rfl⟩ := List.mem_map.mp (d.hidden_declared n hn)
    exact h c hc
  have len := (List.subperm_of_subset (by decide : hiddenNames.Nodup) sub).length_le
  have four : hiddenNames.length = 4 := rfl
  rw [Table.names, List.length_map] at len
  omega

theorem mainStep_drop (h : MainReady C d t)
    (distinct : (d.columns.map fun c => fold c.name).Nodup) (complete : Complete d t) {n : String}
    (hn : n ∈ t.names) (undeclared : n ∉ d.columns.map Column.name) :
    ∃ t', t.dropColumn n = some t' ∧ MainStep C d t t' ∧ Complete d t' := by
  obtain ⟨cd, hcd, rfl⟩ := t.mem_names_iff.mp hn
  have plain := h.droppable cd hcd fun c hc hs => undeclared (by
    rw [complete.origin hc, Option.some.injEq] at hs
    exact hs ▸ List.mem_map_of_mem hc)
  obtain ⟨t', hd, hcols, hkey, hrows⟩ := dropColumn_of_plain hcd plain h.keyless
    complete.two_columns
  have names : ∀ n, n ∈ t'.names ↔ n ∈ t.names ∧ fold n ≠ fold cd.name := fun n => dropColumn_names hd
  have complete' : Complete d t' := by
    intro c hc
    refine (names _).mpr ⟨complete c hc, fun he => undeclared ?_⟩
    rw [← Table.names_unique (complete c hc) hn he]
    exact List.mem_map_of_mem hc
  have sub : ∀ cd' ∈ t'.columns, cd' ∈ t.columns := by
    intro cd' hm
    rw [hcols] at hm
    exact List.mem_of_mem_filter hm
  have values : SameValues d t t' := by
    refine ⟨id, by rw [hrows, List.map_id], fun r c hc => ?_⟩
    rw [complete.held hc, complete'.held hc]
    rfl
  have drifts : Drifts d t' → Drifts d t := by
    rintro ⟨c, hc, cd', hcd', hs, htype⟩
    rw [complete'.origin hc] at hs
    exact ⟨c, hc, cd', sub cd' hcd', by rw [complete.origin hc, hs], htype⟩
  refine ⟨t', hd, ⟨⟨?_, ?_, ?_, ?_, ?_, fun hd => ?_⟩, values.carries, drifts⟩, complete'⟩
  · rw [hkey, h.keyless]
  · intro n hn
    obtain ⟨c, hc, rfl⟩ := List.mem_map.mp (d.hidden_declared n hn)
    exact complete' c hc
  · exact fun n hn c hc he => h.apart n ((names n).mp hn).1 c hc he
  · exact complete'.claimed distinct
  · intro cd' hcd' hnone
    refine h.droppable cd' (sub cd' hcd') fun c hc hs => hnone c hc ?_
    rw [complete'.origin hc, ← hs, complete.origin hc]
  · rw [values.retypedRows]
    exact h.retypes (drifts hd)

/-- A table with the declared columns needs nothing. -/
theorem mainReady_declared (C : Casting) (distinct : (d.columns.map fun c => fold c.name).Nodup)
    (hcols : t.columns = d.columns.map Column.sqlDef) (hkey : t.key = []) :
    MainReady C d t ∧ Complete d t ∧ ¬ Drifts d t := by
  have names : t.names = d.columns.map Column.name := by
    rw [Table.names, hcols, List.map_map]
    rfl
  have complete : Complete d t := fun c hc => names ▸ List.mem_map_of_mem hc
  have steady : ¬ Drifts d t := by
    rintro ⟨c, hc, cd, hcd, hs, htype⟩
    rw [hcols] at hcd
    obtain ⟨c', hc', rfl⟩ := List.mem_map.mp hcd
    rw [complete.origin hc, Option.some.injEq] at hs
    rw [declared_unique distinct hc hc' (congrArg fold hs)] at htype
    exact htype rfl
  refine ⟨⟨hkey, ?_, ?_, ?_, ?_, fun hd => absurd hd steady⟩, complete, steady⟩
  · exact fun n hn => names ▸ d.hidden_declared n hn
  · intro n hn c hc he
    rw [names] at hn
    obtain ⟨c', hc', rfl⟩ := List.mem_map.mp hn
    rw [declared_unique distinct hc' hc he]
    exact .inl rfl
  · exact complete.claimed distinct
  · intro cd hcd hnone
    rw [hcols] at hcd
    obtain ⟨c, hc, rfl⟩ := List.mem_map.mp hcd
    exact absurd (complete.origin hc) (hnone c hc)

theorem lookup_of_live {n : String} (hn : n ∈ t.names) (r : Row) : t.lookup r n = r.get n := by
  rw [Table.lookup, if_pos (Table.fold_mem hn)]

theorem Complete.selectRows (h : Complete d t) :
    selectRows C t (castTargets d.columns) = retypedRows C d t := by
  refine List.map_congr_left fun r _ => congrArg Row.ofPairs ?_
  rw [castTargets, List.map_map]
  refine List.map_congr_left fun c hc => ?_
  simp [Expr.eval, lookup_of_live (h c hc), h.held hc]

theorem mainStep_retype (h : MainReady C d t)
    (distinct : (d.columns.map fun c => fold c.name).Nodup) (complete : Complete d t)
    (hd : Drifts d t) :
    ∃ t', rebuiltTable C (d.columns.map Column.sqlDef) [] (castTargets d.columns) t = some t' ∧
      MainStep C d t t' ∧ Complete d t' ∧ ¬ Drifts d t' := by
  have folded : foldedNames (d.columns.map Column.sqlDef) = d.columns.map fun c => fold c.name := by
    rw [foldedNames, List.map_map]
    rfl
  have targets : ∀ e ∈ castTargets d.columns, fold e.1 ∈ foldedNames (d.columns.map Column.sqlDef) := by
    intro e he
    obtain ⟨c, hc, rfl⟩ := List.mem_map.mp he
    rw [folded]
    exact List.mem_map_of_mem hc
  have valid := h.retypes hd
  rw [← complete.selectRows] at valid
  obtain ⟨t', hr, hrows⟩ := rebuiltTable_of_valid (by rw [folded]; exact distinct) (by simp)
    targets valid
  obtain ⟨hcols, hkey⟩ := rebuiltTable_columns hr
  obtain ⟨ready, complete', steady⟩ := mainReady_declared C distinct hcols hkey
  refine ⟨t', hr, ⟨ready, ?_, fun h => absurd h steady⟩, complete', steady⟩
  unfold MainCarries
  rw [hrows, complete.selectRows, retypedRows, List.forall₂_map_right_iff]
  refine List.forall₂_same.mpr fun r _ c hc => .inr ?_
  rw [complete'.held hc]
  have pair : (c.name, C.cast c.sqlType (c.held d t.names r)) ∈
      d.columns.map fun c => (c.name, C.cast c.sqlType (c.held d t.names r)) :=
    List.mem_map.mpr ⟨c, hc, rfl⟩
  refine Row.get_ofPairs ?_ pair
  rw [List.map_map]
  exact distinct

/-- The plan's test, once the columns are the declared ones. -/
theorem Complete.drifted_iff (h : Complete d t) :
    drifted (liveTypes t.columns) (d.columns.map fun c => (c.name, c.sqlType)) ↔ Drifts d t := by
  simp only [drifted, liveTypes, List.any_map, List.any_eq_true, Function.comp_apply,
    Bool.and_eq_true, decide_eq_true_eq]
  constructor
  · rintro ⟨c, hc, cd, hcd, hn, htype⟩
    exact ⟨c, hc, cd, hcd, by rw [h.origin hc, hn], by simpa using htype⟩
  · rintro ⟨c, hc, cd, hcd, hs, htype⟩
    rw [h.origin hc, Option.some.injEq] at hs
    exact ⟨c, hc, cd, hcd, hs.symm, by simpa using htype⟩

end Tables

end Harpia
