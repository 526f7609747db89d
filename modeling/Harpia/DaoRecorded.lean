import Harpia.DaoReadChildren
import Harpia.DaoUpdateTree
import Harpia.Lib.SqliteKeys

namespace Harpia

open Text Sqlite Proto

/-- What the tables hold of a message that is stored in full: under its key one row with its
columns, and in each child table its entries; the messages it links to stand in their own tables. -/
structure RecordedBy (R : ReadEnv) (db : Db) (keys : Dao → Value → Prop) (nested : Dao → Msg → Prop)
    (p : KeyProvider) (dao : Dao) (msg : Msg) (t : Table) (key : Value) (r : Row) : Prop where
  place : keys dao key
  table : db.get? dao.table = some t
  keyed : pkValue R.toDaoEnv dao msg = some key
  row : t.select pk key = [r]
  columns : ∀ col ∈ dao.columns, ColumnHolds R p dao.message msg col (t.lookup r col.name)
  linked : ∀ col ∈ dao.columns, ∀ target c, col.fk = some target →
    (msg.inner col.path.owner).sub? col.path.field = some c →
      ∃ d, daoClass R.schema target = some d ∧ nested d c
  children : ∀ child ∈ dao.children, ∃ ct entries, db.get? child.table = some ct ∧
    childTableEntries R.toDaoEnv (columnValue R.schema.types) dao key msg child = some entries ∧
      List.Forall₂ (Holds ct) entries (ct.select "owner" key)
  elements : ∀ child ∈ dao.children, ∀ target, child.kind = .repeated (some target) →
    ∀ c ∈ (msg.inner child.path.owner).elements child.path.field,
      ∃ d, daoClass R.schema target = some d ∧ nested d c

/-- The message and those below it are stored in full, each under one of the keys; `fuel` bounds
how deep they nest. -/
def Recorded (R : ReadEnv) (db : Db) (keys : Dao → Value → Prop) : Nat → KeyProvider → Dao → Msg → Prop
  | 0, _, _, _ => False
  | fuel + 1, p, dao, msg => ∃ t key r,
    RecordedBy R db keys (Recorded R db keys fuel R.defaultProvider) p dao msg t key r

/-- From `db` to `db'`, what is stored under the keys is left alone. -/
structure Undisturbed (S : Schema) (root : Dao) (keys : Dao → Value → Prop) (db db' : Db) : Prop where
  columns : ∀ n, db'.columns n = db.columns n
  values : ∀ d, StoredThrough S root d → ∀ k ∈ db.values d.table pk, keys d k →
    k ∈ db'.values d.table pk
  rows : ∀ d, StoredThrough S root d → ∀ k ∈ db.values d.table pk, keys d k → ∀ place ∈ d.places,
    db'.chosen place.1 place.2 k = db.chosen place.1 place.2 k

/-- Every key. -/
def anyKey (_ : Dao) (_ : Value) : Prop := True

/-- The keys that no row has. -/
def freshKeys (db : Db) (d : Dao) (k : Value) : Prop := k ∉ db.values d.table pk

/-- The keys but one. -/
def otherKeys (d : Dao) (key : Value) (d' : Dao) (k : Value) : Prop := ¬ (d' = d ∧ k = key)

namespace Undisturbed

variable {S : Schema} {root : Dao} {keys keys' : Dao → Value → Prop} {a b c : Db}

theorem refl (S : Schema) (root : Dao) (keys : Dao → Value → Prop) (db : Db) :
    Undisturbed S root keys db db :=
  ⟨fun _ => rfl, fun _ _ _ hk _ => hk, fun _ _ _ _ _ _ _ => rfl⟩

theorem trans (h : Undisturbed S root keys a b) (h' : Undisturbed S root keys b c) :
    Undisturbed S root keys a c := by
  refine ⟨fun n => (h'.columns n).trans (h.columns n),
    fun d hd k hk there => h'.values d hd k (h.values d hd k hk there) there,
    fun d hd k hk there place hp => ?_⟩
  rw [h'.rows d hd k (h.values d hd k hk there) there place hp]
  exact h.rows d hd k hk there place hp

theorem mono (h : Undisturbed S root keys a b) (sub : ∀ d k, keys' d k → keys d k) :
    Undisturbed S root keys' a b :=
  ⟨h.columns, fun d hd k hk there => h.values d hd k hk (sub d k there),
    fun d hd k hk there => h.rows d hd k hk (sub d k there)⟩

end Undisturbed

section Change

variable {R : ReadEnv} {db db' : Db} {keys keys' : Dao → Value → Prop} {dao : Dao} {msg : Msg}

theorem get?_of_columns (columns : ∀ n, db'.columns n = db.columns n) {n : String} {t : Table}
    (ht : db.get? n = some t) : ∃ t', db'.get? n = some t' ∧ t'.columns = t.columns := by
  have same := columns n
  rw [Db.columns, Db.columns, ht, Option.map_some] at same
  exact Option.map_eq_some_iff.mp same

theorem chosen_of_get? {n column : String} {v : Value} {t : Table} (ht : db.get? n = some t) :
    db.chosen n column v = t.select column v := by
  rw [Db.chosen, ht, Option.elim_some]

theorem lookup_congr {t t' : Table} (same : t'.columns = t.columns) (r : Row) (column : String) :
    t'.lookup r column = t.lookup r column := by
  rw [Table.lookup, Table.lookup, same]

/-- Where the rows of the key are the same, a message is stored as before. -/
theorem RecordedBy.change {nested nested' : Dao → Msg → Prop} {p : KeyProvider} {t : Table}
    {key : Value} {r : Row} (h : RecordedBy R db keys nested p dao msg t key r)
    (columns : ∀ n, db'.columns n = db.columns n) (place : keys' dao key)
    (same : ∀ place ∈ dao.places, db'.chosen place.1 place.2 key = db.chosen place.1 place.2 key)
    (below : ∀ d c, StoresThrough R.schema dao d → nested d c → nested' d c) :
    ∃ t', RecordedBy R db' keys' nested' p dao msg t' key r := by
  obtain ⟨t', ht', names⟩ := get?_of_columns columns h.table
  refine ⟨t', place, ht', h.keyed, ?_, fun col hcol => ?_, fun col hcol target c fk hs => ?_,
    fun child hc => ?_, fun child hc target kind c hmem => ?_⟩
  · have rows := same _ dao.row_place
    rw [chosen_of_get? ht', chosen_of_get? h.table, h.row] at rows
    exact rows
  · rw [lookup_congr names]
    exact h.columns col hcol
  · obtain ⟨d, class_, there⟩ := h.linked col hcol target c fk hs
    exact ⟨d, class_, below d c (.column hcol fk class_) there⟩
  · obtain ⟨ct, entries, hct, bound, held⟩ := h.children child hc
    obtain ⟨ct', hct', names⟩ := get?_of_columns columns hct
    have rows := same _ (Dao.child_place hc)
    rw [chosen_of_get? hct', chosen_of_get? hct] at rows
    refine ⟨ct', entries, hct', bound, ?_⟩
    rw [rows]
    exact held.imp fun entry r holds e he => by rw [lookup_congr names]; exact holds e he
  · obtain ⟨d, class_, there⟩ := h.elements child hc target kind c hmem
    exact ⟨d, class_, below d c (.element hc kind class_) there⟩

theorem RecordedBy.present {nested : Dao → Msg → Prop} {p : KeyProvider} {t : Table} {key : Value}
    {r : Row} (h : RecordedBy R db keys nested p dao msg t key r) :
    key ∈ db.values dao.table pk := by
  have there : r ∈ db.chosen dao.table pk key := by
    rw [chosen_of_get? h.table, h.row]
    exact List.mem_singleton_self r
  exact Db.mem_values_of_chosen there

variable {root d : Dao} {fuel : Nat} {p : KeyProvider}

/-- What is stored under keys that are left alone stays stored. -/
theorem Recorded.survives (h : Recorded R db keys fuel p d msg) (hd : StoredThrough R.schema root d)
    (u : Undisturbed R.schema root keys db db') : Recorded R db' keys fuel p d msg := by
  induction fuel generalizing p d msg with
  | zero => exact h.elim
  | succ fuel ih =>
    obtain ⟨t, key, r, h⟩ := h
    obtain ⟨t', changed⟩ := h.change u.columns h.place (u.rows d hd key h.present h.place)
      fun d' c through there => ih there (hd.tail through)
    exact ⟨t', key, r, changed⟩

theorem Recorded.mono (h : Recorded R db keys fuel p d msg) (hd : StoredThrough R.schema root d)
    (sub : ∀ d, StoredThrough R.schema root d → ∀ k, keys d k → keys' d k) :
    Recorded R db keys' fuel p d msg := by
  induction fuel generalizing p d msg with
  | zero => exact h.elim
  | succ fuel ih =>
    obtain ⟨t, key, r, h⟩ := h
    obtain ⟨t', changed⟩ := h.change (fun _ => rfl) (sub d hd key h.place) (fun _ _ => rfl)
      fun d' c through there => ih there (hd.tail through)
    exact ⟨t', key, r, changed⟩

theorem Recorded.keyed (h : Recorded R db keys fuel p d msg) :
    ∃ key, pkValue R.toDaoEnv d msg = some key := by
  cases fuel with
  | zero => exact h.elim
  | succ fuel =>
    obtain ⟨_, key, _, h⟩ := h
    exact ⟨key, h.keyed⟩

/-- The keys of what is stored are the keys of rows. -/
theorem Recorded.present (h : Recorded R db keys fuel p d msg) :
    Recorded R db (fun d k => keys d k ∧ k ∈ db.values d.table pk) fuel p d msg := by
  induction fuel generalizing p d msg with
  | zero => exact h.elim
  | succ fuel ih =>
    obtain ⟨t, key, r, h⟩ := h
    have place : keys d key ∧ key ∈ db.values d.table pk := ⟨h.place, h.present⟩
    let present : Dao → Value → Prop := fun d k => keys d k ∧ k ∈ db.values d.table pk
    have changed : ∃ t', RecordedBy R db present _ p d msg t' key r :=
      h.change (fun _ => rfl) place (fun _ _ => rfl) fun d' c _ there => ih there
    obtain ⟨t', changed⟩ := changed
    exact ⟨t', key, r, changed⟩

end Change

/-- A child that is set has a key, so that its parent leads to it. -/
def LinksKeyed (E : DaoEnv) (dao : Dao) (msg : Msg) : Prop :=
  ∀ d m, Updates E dao msg d m → ∀ col ∈ d.columns, ∀ target c d', col.fk = some target →
    (m.inner col.path.owner).sub? col.path.field = some c → daoClass E.schema target = some d' →
      ∀ k, pkValue E d' c = some k → truthy k

end Harpia
