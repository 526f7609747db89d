import Harpia.DaoRecorded
import Harpia.DaoOwnerRuns

namespace Harpia

open Text Sqlite Proto Attempt

/-- The tables as they are made: the key of a main table tells its rows apart and is the only column
that SQLite may number; every child table is there, and has no such column. -/
structure KeyedTables (S : Schema) (root : Dao) (db : Db) : Prop where
  unique : ∀ d, StoredThrough S root d → ∀ cs, db.columns d.table = some cs →
    ∃ c ∈ cs, fold c.name = fold pk ∧ (c.unique ∨ c.pk)
  row : ∀ d, StoredThrough S root d → ∀ cs, db.columns d.table = some cs → ∀ c ∈ cs, c.pk →
    fold c.name = fold pk
  child : ∀ d, StoredThrough S root d → ∀ child ∈ d.children,
    ∃ cs, db.columns child.table = some cs ∧ ∀ c ∈ cs, c.pk = false

theorem KeyedTables.congr {S : Schema} {root : Dao} {db db' : Db} (h : KeyedTables S root db)
    (columns : ∀ n, db'.columns n = db.columns n) : KeyedTables S root db' := by
  refine ⟨fun d hd cs hcs => ?_, fun d hd cs hcs => ?_, fun d hd child hc => ?_⟩
  · rw [columns] at hcs
    exact h.unique d hd cs hcs
  · rw [columns] at hcs
    exact h.row d hd cs hcs
  · rw [columns]
    exact h.child d hd child hc

section Places

variable {S : Schema} {root d d' : Dao} {db db' db₁ : Db} {key : Value}
  (separate : SeparateTables S root) (hd : StoredThrough S root d)

include separate hd

/-- Two places of one table are the same place of the same DAO. -/
theorem SeparateTables.place_eq (hd' : StoredThrough S root d') {a b : String × String}
    (ha : a ∈ d.places) (hb : b ∈ d'.places) (same : fold a.1 = fold b.1) : d = d' ∧ a = b := by
  have mem : ∀ {dao : Dao} {place : String × String}, place ∈ dao.places → place.1 ∈ dao.tables :=
    fun {dao} {place} hp => dao.places_tables ▸ List.mem_map_of_mem hp
  obtain rfl := separate.apart d d' hd hd' _ (mem ha) _ (mem hb) same
  have nodup : (d.places.map fun e => fold e.1).Nodup := by
    have tables := separate.tables d hd
    rw [← d.places_tables, List.map_map] at tables
    exact tables
  exact ⟨rfl, List.inj_on_of_nodup_map nodup ha hb same⟩

/-- An `INSERT` for one key leaves what is stored under the others. -/
theorem undisturbed_insert {place : String × String} (hp : place ∈ d.places) {entry : Entry} {r : Row}
    (done : db.insert place.1 entry = some (db', r)) (given : r.get place.2 = key)
    (hk : key ≠ .null) : Undisturbed S root (otherKeys d key) db db' := by
  refine ⟨Db.columns_insert done, fun _ _ k hm _ => Db.mem_values_insert done hm, ?_⟩
  intro d' hd' k _ other place' hp'
  by_cases same : fold place'.1 = fold place.1
  · obtain ⟨rfl, rfl⟩ := separate.place_eq hd hd' hp hp' same.symm
    have apart : key ≠ k := fun he => other ⟨rfl, he.symm⟩
    rw [Db.chosen_insert done (by rw [given]; exact hk), given, if_neg apart, List.append_nil]
  · exact Db.chosen_congr (Db.get?_insert_other done same) _ _

omit separate hd in
/-- What has come since a time when no row had the key disturbs nothing that was there. -/
theorem Undisturbed.then_insert (h : Undisturbed S root anyKey db₁ db)
    (fresh : key ∉ db₁.values d.table pk) (h' : Undisturbed S root (otherKeys d key) db db') :
    Undisturbed S root anyKey db₁ db' := by
  have other : ∀ d' k, k ∈ db₁.values d'.table pk → otherKeys d key d' k := by
    intro d' k hk
    rintro ⟨rfl, rfl⟩
    exact fresh hk
  refine ⟨fun n => (h'.columns n).trans (h.columns n), fun d' hd' k hk there =>
    h'.values d' hd' k (h.values d' hd' k hk there) (other d' k hk), fun d' hd' k hk _ place hp => ?_⟩
  rw [h'.rows d' hd' k (h.values d' hd' k hk trivial) (other d' k hk) place hp]
  exact h.rows d' hd' k hk trivial place hp

end Places

/-- The row of a key is in place, and the child tables hold these entries for it. -/
structure Filled (d : Dao) (key : Value) (r : Row) (stored : DaoChild → List Entry) (db : Db) :
    Prop where
  row : db.chosen d.table pk key = [r]
  children : ∀ child ∈ d.children, ∃ ct, db.get? child.table = some ct ∧
    List.Forall₂ (Holds ct) (stored child) (ct.select "owner" key)

section Filled

variable {S : Schema} {root d : Dao} {db db' : Db} {key : Value} {r : Row}
  {stored : DaoChild → List Entry}

theorem Filled.present (h : Filled d key r stored db) : key ∈ db.values d.table pk :=
  Db.mem_values_of_chosen (by rw [h.row]; exact List.mem_singleton_self r)

theorem Filled.survives (h : Filled d key r stored db) (hd : StoredThrough S root d)
    (u : Undisturbed S root anyKey db db') : Filled d key r stored db' := by
  have same := u.rows d hd key h.present trivial
  refine ⟨?_, fun child hc => ?_⟩
  · rw [same _ d.row_place]
    exact h.row
  · obtain ⟨ct, hct, held⟩ := h.children child hc
    obtain ⟨ct', hct', names⟩ := get?_of_columns u.columns hct
    have rows := same _ (Dao.child_place hc)
    rw [chosen_of_get? hct', chosen_of_get? hct] at rows
    refine ⟨ct', hct', ?_⟩
    rw [rows]
    exact held.imp fun entry r holds e he => by rw [lookup_congr names]; exact holds e he

variable (separate : SeparateTables S root) (hd : StoredThrough S root d)
  (tables : KeyedTables S root db)

include separate hd tables

theorem filled_insert_row (owners : OwnersExist S root db) {entry : Entry}
    (done : db.insert d.table entry = some (db', r)) (given : r.get pk = key) (hk : key ≠ .null) :
    key ∉ db.values d.table pk ∧ Filled d key r (fun _ => []) db' := by
  have live : ∃ cs, db.columns d.table = some cs := by
    obtain ⟨t, ht, _⟩ := Db.insert_rewritten done
    exact ⟨t.columns, Db.columns_of_get? ht⟩
  obtain ⟨cs, hcs⟩ := live
  have fresh : key ∉ db.values d.table pk := by
    rw [← given]
    exact Db.fresh_of_insert done ⟨cs, hcs, tables.unique d hd cs hcs⟩ (by rw [given]; exact hk)
  refine ⟨fresh, ?_, fun child hc => ?_⟩
  · rw [Db.chosen_insert done (by rw [given]; exact hk), given, if_pos rfl, Db.chosen_eq_nil fresh,
      List.nil_append]
  · obtain ⟨cs, hcs, _⟩ := tables.child d hd child hc
    obtain ⟨ct, hct, _⟩ := Option.map_eq_some_iff.mp hcs
    have apart : fold child.table ≠ fold d.table := (separate.row_child hd hd hc).symm
    have owner : key ∉ db.values child.table "owner" := fun hm =>
      fresh (owners d hd child hc key hm).2
    refine ⟨ct, by rw [Db.get?_insert_other done apart, hct], ?_⟩
    rw [← chosen_of_get? hct, Db.chosen_eq_nil owner]
    exact .nil

theorem Filled.insert (h : Filled d key r stored db) {child : DaoChild} (hc : child ∈ d.children)
    {entry : Entry} {r' : Row} (nodup : (entry.map fun e => fold e.1).Nodup)
    (done : db.insert child.table entry = some (db', r')) (given : r'.get "owner" = key)
    (hk : key ≠ .null) :
    Filled d key r (Function.update stored child (stored child ++ [entry])) db' := by
  refine ⟨?_, fun child' hc' => ?_⟩
  · rw [Db.chosen_congr (Db.get?_insert_other done (separate.row_child hd hd hc))]
    exact h.row
  · obtain ⟨ct, hct, held⟩ := h.children child' hc'
    obtain ⟨ct', hct', names⟩ := get?_of_columns (Db.columns_insert done) hct
    have kept_ : List.Forall₂ (Holds ct') (stored child') (ct.select "owner" key) :=
      held.imp fun entry r holds e he => by rw [lookup_congr names]; exact holds e he
    refine ⟨ct', hct', ?_⟩
    rw [← chosen_of_get? hct']
    by_cases same : child' = child
    · subst same
      rw [Function.update_self, Db.chosen_insert done (by rw [given]; exact hk), given, if_pos rfl,
        chosen_of_get? hct]
      obtain ⟨cs, hcs, plain⟩ := tables.child d hd child' hc
      obtain ⟨ct'', hct'', holds⟩ := Db.lookup_of_insert done nodup fun cs' hcs' c hc' keyed => by
        cases hcs.symm.trans hcs'
        rw [plain c hc'] at keyed
        cases keyed
      cases hct'.symm.trans hct''
      exact List.rel_append kept_ (.cons holds .nil)
    · rw [Function.update_of_ne same]
      have apart : fold child'.table ≠ fold child.table := fun he => by
        have nodup := separate.tables d hd
        rw [Dao.tables, List.map_cons, List.map_map, List.nodup_cons] at nodup
        exact same (List.inj_on_of_nodup_map nodup.2 hc' hc he)
      rw [Db.chosen_congr (Db.get?_insert_other done apart), chosen_of_get? hct]
      exact kept_

end Filled

/-- A key provider opens what it seals under the random keys to come. -/
def DeksOpen (p : KeyProvider) (random : Nat → Bytes) : Prop :=
  ∀ n, (random n).length = 32 ∧ ∀ w, p.wrapDek (random n) = some w → p.unwrapDek w = some (random n)

/-- A session that messages may be stored in. -/
structure StoreReady (S : Schema) (root : Dao) (providers : Set KeyProvider) (s : DbSession) : Prop where
  owners : OwnersExist S root s.db
  tables : KeyedTables S root s.db
  opens : ∀ p ∈ providers, DeksOpen p s.random

end Harpia
