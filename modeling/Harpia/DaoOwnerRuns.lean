import Harpia.DaoUpdateTree
import Harpia.RestPut

namespace Harpia

open Sqlite Proto Attempt

theorem Standing.mono {S : Schema} {root : Dao} {held held' : Set (String × Value)} {db : Db}
    (h : Standing S root held db) (sub : held' ⊆ held) : Standing S root held' db :=
  ⟨h.owners, fun e he => h.rows e (sub he)⟩

theorem storedThrough_class {S : Schema} {name : String} {root d : Dao}
    (class_ : daoClass S name = some root) (hd : StoredThrough S root d) :
    ∃ target, daoClass S target = some d := by
  cases hd with
  | refl => exact ⟨name, class_⟩
  | tail _ last =>
    cases last with
    | column _ _ stores => exact ⟨_, stores⟩
    | element _ _ stores => exact ⟨_, stores⟩

section Calls

variable {E : DaoEnv} {root : Dao} {exec : (r : Request) → DbSession → Option (Answer r × DbSession)}
  (separate : SeparateTables E.schema root)
  (keyed : ∀ d, StoredThrough E.schema root d → Keyed d) (raises : MayRaise exec)

include separate keyed raises

/-- `_create` puts the row in place before its child rows, and each child before its parent. -/
theorem createIn_stands (fuel : Nat) (p : KeyProvider) {d : Dao}
    (hd : StoredThrough E.schema root d) (held : Set (String × Value)) (msg : Msg) :
    Triple (Stands E.schema root held) ((createIn E fuel p d msg).attempt exec)
      (fun _ => Stands E.schema root held) fun _ => True := by
  induction fuel generalizing p d held msg with
  | zero => exact triple_fail fun _ _ => trivial
  | succ fuel ih =>
    have nested : ∀ held target m, (∀ d', daoClass E.schema target = some d' →
        StoresThrough E.schema d d') → Triple (Stands E.schema root held) ((do
          let d' ← Calls.ofOption (daoClass E.schema target)
          createIn E fuel E.defaultProvider d' m : Cursor Msg).attempt exec)
          (fun _ => Stands E.schema root held) fun _ => True := fun held target m through =>
      Calls.triple_some_bind (fun d' hd' => ih _ (hd.tail (through d' hd')) held m)
        fun _ _ => trivial
    refine Calls.triple_bind (Q := fun _ => Stands E.schema root held) ?_ fun msg => ?_
    · exact Calls.triple_fold (fun _ _ => Stands E.schema root held) (fun done m col rest all =>
        storeChild_keeps fun target owner fk _ _ => nested held target _ fun d' hd' =>
          .column (all ▸ List.mem_append_right done List.mem_cons_self) fk hd') msg
    refine Calls.triple_bind (insertRow_stands separate hd (keyed d hd) raises msg) fun msg => ?_
    refine triple_exists fun key => triple_pure fun ⟨hkey, given⟩ => ?_
    refine Calls.triple_some_bind (fun owner howner => ?_) fun _ _ => trivial
    cases hkey.symm.trans howner
    refine triple_mono (Calls.triple_fold (fun _ _ =>
      Stands E.schema root (insert (d.table, key) held)) (fun done m child rest all => ?_) msg)
      (fun _ hs => hs) fun _ s hs => hs.mono (Set.subset_insert _ _)
    have hc : child ∈ d.children := all ▸ List.mem_append_right done List.mem_cons_self
    exact insertChild_keeps (fun r s a s' keeps hs answered => keeps s (a, s') hs
        (raises r s _ answered))
      (keeping_insert_child separate hd hc given (Set.mem_insert _ _))
      fun target base kind _ item _ => nested _ target item fun d' hd' => .element hc kind hd'

end Calls

/-- The row of the message is stored. -/
def Stored (E : DaoEnv) (db : Db) (d : Dao) (m : Msg) : Prop :=
  ∃ key, pkValue E d m = some key ∧ key ∈ db.values d.table pk

/-- The message has nothing for the child tables of its row. -/
def Bare (E : DaoEnv) (d : Dao) (m : Msg) : Prop :=
  ∀ key, pkValue E d m = some key → ∀ child ∈ d.children,
    childTableEntries E (columnValue E.schema.types) d key m child = some []

/-- Every row that an update writes child rows for is stored; and where the row of the message
itself is not, then no row that it leads to is. -/
structure SettledIn (E : DaoEnv) (db : Db) (dao : Dao) (msg : Msg) : Prop where
  rooted : ∀ d m, Updates E dao msg d m → Stored E db d m ∨ Bare E d m
  missing : ¬ Stored E db dao msg → ∀ d m, Updates E dao msg d m → ¬ Stored E db d m

theorem Bare.alike {E : DaoEnv} {d : Dao} {m m' : Msg} (h : Bare E d m) (same : m.Alike m') :
    Bare E d m' := by
  intro key hkey child hc
  rw [pkValue_alike same] at hkey
  rw [childTableEntries_congr same.agrees]
  exact h key hkey child hc

theorem SeparateTables.keyless {S : Schema} {root d : Dao} (h : SeparateTables S root)
    (hd : StoredThrough S root d) (keyed : Keyed d) {col : DaoColumn}
    (hcol : col ∈ keylessColumns d) : fold pk ≠ fold col.name := by
  intro same
  obtain ⟨keyCol, hkey, name, _⟩ := keyed.column
  obtain ⟨mem, other⟩ := List.mem_filter.mp hcol
  have one := List.inj_on_of_nodup_map (h.columns d hd) mem hkey (by rw [name, same])
  rw [one, name] at other
  simp at other

section Update

variable {E : DaoEnv} {root : Dao} {exec : (r : Request) → DbSession → Option (Answer r × DbSession)}
  (separate : SeparateTables E.schema root)
  (keyed : ∀ d, StoredThrough E.schema root d → Keyed d)
  (links : ∀ d, StoredThrough E.schema root d → LinksMessages E d) (raises : MayRaise exec)

theorem updateChild_returns (fuel : Nat) (target : String) (m : Msg) :
    (do
      let d ← Calls.ofOption (daoClass E.schema target)
      let _ ← updateIn E fuel E.defaultProvider d m
      return m : Cursor Msg).Ensures (fun _ => True) fun m' => m' = m := by
  refine Calls.ensures_bind (Calls.ensures_ofOption fun d _ => ?_)
  have any : (updateIn E fuel E.defaultProvider d m).Only fun _ => True :=
    (updateIn_only fuel _ d m).mono fun _ _ => trivial
  exact Calls.ensures_bind (Calls.ensures_mono any fun _ _ => rfl)

theorem updateChild_bare (fuel : Nat) {d : Dao} {msg : Msg} {child : DaoChild} {key : Value}
    (bare : childTableEntries E (columnValue E.schema.types) d key msg child = some []) :
    (insertChild E d (fun target m => do
      let d' ← Calls.ofOption (daoClass E.schema target)
      let _ ← updateIn E fuel E.defaultProvider d' m
      return m) key msg child).Ensures (fun _ => False) fun m' => m' = msg := insertChild_bare bare

/-- The statement has changed a row exactly if a row has the key. -/
theorem count_of_update {db db' : Db} {table : String} {entry : Entry} {key : Value} {count : Nat}
    (h : db.update table entry pk key = some (db', count)) (hk : key ≠ .null) :
    0 < count ↔ key ∈ db.values table pk := by
  obtain ⟨t, ht, _, rfl, _⟩ := Db.update_rewritten h
  rw [Db.values_eq ht, List.length_pos_iff_exists_mem, List.mem_map]
  constructor
  · rintro ⟨r, hr⟩
    obtain ⟨hm, hit⟩ := List.mem_filter.mp hr
    exact ⟨r, hm, (of_decide_eq_true hit).2⟩
  · rintro ⟨r, hr, found⟩
    exact ⟨r, List.mem_filter.mpr ⟨hr, decide_eq_true ⟨hk, found⟩⟩⟩

include separate keyed links raises

/-- `_update`, where each row that it writes child rows for is held. -/
theorem updateIn_stands (fuel : Nat) (p : KeyProvider) {d : Dao}
    (hd : StoredThrough E.schema root d) {held : Set (String × Value)} (msg : Msg)
    (settled : ∀ d' m, Updates E d msg d' m →
      (∃ key, pkValue E d' m = some key ∧ (d'.table, key) ∈ held) ∨ Bare E d' m) :
    Triple (Stands E.schema root held) ((updateIn E fuel p d msg).attempt exec)
      (fun found s => (∀ key, pkValue E d msg = some key → (d.table, key) ∈ held → found = true) ∧
        Stands E.schema root held s) fun _ => True := by
  induction fuel generalizing p d msg with
  | zero => exact triple_fail fun _ _ => trivial
  | succ fuel ih =>
    have nested : ∀ target m, (∀ d', daoClass E.schema target = some d' →
        StoresThrough E.schema d d' ∧ ∀ d'' m', Updates E d' m d'' m' →
          (∃ key, pkValue E d'' m' = some key ∧ (d''.table, key) ∈ held) ∨ Bare E d'' m') →
        Triple (Stands E.schema root held) ((do
          let d' ← Calls.ofOption (daoClass E.schema target)
          let _ ← updateIn E fuel E.defaultProvider d' m
          return m : Cursor Msg).attempt exec) (fun _ => Stands E.schema root held)
          fun _ => True := fun target m through =>
      Calls.triple_some_bind (fun d' hd' => Calls.triple_bind
        (triple_mono (ih _ (hd.tail (through d' hd').1) m (through d' hd').2) (fun _ hs => hs)
          fun _ _ hs => hs.2)
        fun _ => triple_ret fun _ hs => hs) fun _ _ => trivial
    -- what stands below an alike message is settled too
    have below : ∀ {m : Msg}, msg.Alike m → ∀ d' x, Updates E d m d' x →
        (∃ key, pkValue E d' x = some key ∧ (d'.table, key) ∈ held) ∨ Bare E d' x := by
      intro m same d' x updates
      obtain ⟨x₀, updates₀, like⟩ := updates.alike same
      rcases settled d' x₀ updates₀ with there | bare
      · exact .inl (by rwa [pkValue_alike like])
      · exact .inr (bare.alike like)
    refine Calls.triple_bind (Q := fun _ => Stands E.schema root held) ?_ fun _ => ?_
    · refine triple_mono (Calls.triple_fold (fun _ m s => msg.Alike m ∧ Stands E.schema root held s)
        (fun done m col rest all => triple_pure fun same => ?_) msg)
        (fun s hs => ⟨.refl msg, hs⟩) fun _ _ hs => hs.2
      have hcol : col ∈ d.columns := all ▸ List.mem_append_right done List.mem_cons_self
      refine triple_mono (Calls.triple_and (?_ : Triple (Stands E.schema root held) _
        (fun _ => Stands E.schema root held) _) (storeChild_alike (links d hd) hcol
          fun target m' _ => updateChild_returns fuel target m')) (fun _ hs => hs)
        fun m' s hs => ⟨same.trans hs.1, hs.2⟩
      exact storeChild_keeps fun target owner fk place set => nested target _ fun d' hd' =>
        ⟨.column hcol fk hd', fun d'' m' updates => below same d'' m'
          (.column hcol fk hd' place set updates)⟩
    refine Calls.triple_bind (Q := fun cells s =>
      (∀ c ∈ cells, fold pk ≠ fold (Cell.column c)) ∧ Stands E.schema root held s) ?_ fun cells => ?_
    · have kept : Triple (Stands E.schema root held)
          ((Calls.collect (bindColumn E p d msg) (keylessColumns d)).attempt exec)
          (fun _ => Stands E.schema root held) fun _ => True :=
        stands_of_only raises (.collect fun col _ => bindColumn_only keeping_tokenBytes msg col)
      refine triple_mono (Calls.triple_and kept (Calls.ensures_collect fun col hcol =>
        Calls.ensures_mono (bindColumn_column msg col) fun cell named => ?_)) (fun _ hs => hs)
        fun _ _ hs => hs
      rw [named]
      exact separate.keyless hd (keyed d hd) hcol
    refine triple_pure fun keyless => ?_
    refine Calls.triple_some_bind (fun key hkey => ?_) fun _ _ => trivial
    have given := (keyed d hd).key_ne_null hkey
    refine Calls.triple_bind (Q := fun count s => ((d.table, key) ∈ held → 0 < count) ∧
      Stands E.schema root held s) ?_ fun count => triple_pure fun hits => ?_
    · refine Calls.triple_send (fun s count s' hs answered => ?_) fun _ _ _ => trivial
      refine ⟨fun there => ?_, keeping_update separate hd keyless s (count, s') hs
        (raises _ _ _ answered)⟩
      obtain ⟨out, updated, same⟩ := Option.map_eq_some_iff.mp (raises _ _ _ answered)
      obtain ⟨rfl, rfl⟩ := Prod.mk.inj same
      exact (count_of_update updated given).mpr (hs.rows _ there).2
    refine Calls.triple_bind (Q := fun _ => Stands E.schema root held) ?_
      fun _ => triple_ret fun s hs => ⟨fun key' hkey' there => ?_, hs⟩
    · refine triple_mono (Calls.triple_fold (fun _ m s => msg.Alike m ∧ Stands E.schema root held s)
        (fun done m child rest all => triple_pure fun same => ?_) msg)
        (fun s hs => ⟨.refl msg, hs⟩) fun _ _ hs => hs.2
      have hc : child ∈ d.children := all ▸ List.mem_append_right done List.mem_cons_self
      refine Calls.triple_bind (Q := fun _ => Stands E.schema root held) ?_ fun _ => ?_
      · have cleared : Keeping E.schema root held (.delete child.table "owner" key) :=
          keeping_delete_child separate hd hc
        exact stands_of_only raises (.send cleared)
      refine triple_mono (Calls.triple_and (?_ : Triple (Stands E.schema root held) _
        (fun _ => Stands E.schema root held) _) (insertChild_alike fun target m' _ =>
          updateChild_returns fuel target m')) (fun _ hs => hs)
        fun m' s hs => ⟨same.trans hs.1, hs.2⟩
      rcases below same d m (.self d m) with ⟨key', hkey', there⟩ | bare
      · rw [pkValue_alike same] at hkey'
        cases hkey.symm.trans hkey'
        exact insertChild_keeps (fun r s a s' keeps hs answered => keeps s (a, s') hs
            (raises r s _ answered)) (keeping_insert_child separate hd hc given there)
          fun target base kind place item hitem => nested target item fun d' hd' =>
            ⟨.element hc kind hd', fun d'' m' updates => below same d'' m'
              (.element hc kind hd' place hitem updates)⟩
      · rw [← pkValue_alike same] at hkey
        have only := Calls.ensures_mono (updateChild_bare fuel (bare key hkey child hc))
          fun _ _ => trivial
        exact stands_of_only raises (Calls.Only.mono only fun _ h => h.elim)
    · cases hkey.symm.trans hkey'
      exact decide_eq_true (hits there)

end Update

section Missing

variable {E : DaoEnv} {root : Dao} {exec : (r : Request) → DbSession → Option (Answer r × DbSession)}
  (links : ∀ d, StoredThrough E.schema root d → LinksMessages E d) (raises : MayRaise exec)
  {db : Db} (owners : OwnersExist E.schema root db)

/-- The request, where it is done, leaves the database as it is. -/
def Harmless (db : Db) (r : Request) : Prop :=
  ∀ s out, s.db = db → Request.exec r s = some out → out.2.db = db

theorem harmless_only {exec : (r : Request) → DbSession → Option (Answer r × DbSession)}
    (raises : MayRaise exec) {α : Type} {program : Cursor α} (only : program.Only (Harmless db)) :
    Triple (fun s => s.db = db) (program.attempt exec) (fun _ s => s.db = db) fun _ => True :=
  have kept : Triple (fun s : DbSession => s.db = db) (program.attempt exec) (fun _ s => s.db = db)
      (fun s => s.db = db) := Calls.triple_only
    (fun i s r s' harmless hs answered => harmless s (r, s') hs (raises i s _ answered)) only
  ⟨fun hs he => kept.ends hs he, fun _ _ => trivial⟩

theorem harmless_tokenBytes : Harmless db .tokenBytes := by
  intro s out h done
  cases Option.some.inj done
  exact h

theorem harmless_update {table : String} {cells : List Cell} {key : Value}
    (missing : key ∉ db.values table pk) : Harmless db (.update table cells key) := by
  rintro s out rfl done
  obtain ⟨r, updated, rfl⟩ := Option.map_eq_some_iff.mp done
  obtain ⟨t, ht, _⟩ := Db.update_rewritten updated
  refine Db.update_of_no_hit ht (fun row hrow hit => missing ?_) updated
  rw [Db.values_eq ht]
  exact List.mem_map.mpr ⟨row, hrow, (of_decide_eq_true hit).2⟩

theorem harmless_delete {table column : String} {key : Value}
    (missing : key ∉ db.values table column) : Harmless db (.delete table column key) := by
  rintro s out rfl done
  obtain ⟨r, deleted, rfl⟩ := Option.map_eq_some_iff.mp done
  obtain ⟨t, ht, _⟩ := Db.delete_rewritten deleted
  have same : s.db.delete table column key = some (s.db, 0) :=
    Db.delete_of_no_hit ht fun row hrow hit => missing <| by
      rw [Db.values_eq ht]
      exact List.mem_map.mpr ⟨row, hrow, (of_decide_eq_true hit).2⟩
  cases deleted.symm.trans same
  rfl

include links raises owners

/-- `_update`, where no row that it leads to is stored and there is nothing to insert. -/
theorem updateIn_missing (fuel : Nat) (p : KeyProvider) {d : Dao}
    (hd : StoredThrough E.schema root d) (msg : Msg)
    (none_ : ∀ d' m, Updates E d msg d' m → ¬ Stored E db d' m ∧ Bare E d' m) :
    Triple (fun s => s.db = db) ((updateIn E fuel p d msg).attempt exec) (fun _ s => s.db = db)
      fun _ => True := by
  induction fuel generalizing p d msg with
  | zero => exact triple_fail fun _ _ => trivial
  | succ fuel ih =>
    refine Calls.triple_bind (Q := fun _ s => s.db = db) ?_ fun _ => ?_
    · refine triple_mono (Calls.triple_fold (fun _ m s => msg.Alike m ∧ s.db = db)
        (fun done m col rest all => triple_pure fun same => ?_) msg)
        (fun s hs => ⟨.refl msg, hs⟩) fun _ _ hs => hs.2
      have hcol : col ∈ d.columns := all ▸ List.mem_append_right done List.mem_cons_self
      refine triple_mono (Calls.triple_and (?_ : Triple (fun s : DbSession => s.db = db) _
        (fun _ s => s.db = db) _) (storeChild_alike (links d hd) hcol
          fun target m' _ => updateChild_returns fuel target m')) (fun _ hs => hs)
        fun m' s hs => ⟨same.trans hs.1, hs.2⟩
      refine storeChild_keeps fun target owner fk place set => ?_
      refine Calls.triple_some_bind (fun d' hd' => Calls.triple_bind (ih _
        (hd.tail (.column hcol fk hd')) _ fun d'' x updates => ?_)
        fun _ => triple_ret fun _ hs => hs) fun _ _ => trivial
      obtain ⟨x₀, updates₀, like⟩ :=
        (Updates.column hcol fk hd' place set updates).alike same
      obtain ⟨absent, bare⟩ := none_ d'' x₀ updates₀
      exact ⟨fun ⟨key, hkey, there⟩ => absent ⟨key, by rwa [← pkValue_alike like], there⟩,
        bare.alike like⟩
    obtain ⟨absent, bare⟩ := none_ d msg (.self d msg)
    refine Calls.triple_bind (harmless_only raises
      (.collect fun col _ => bindColumn_only harmless_tokenBytes msg col)) fun cells => ?_
    refine Calls.triple_some_bind (fun key hkey => ?_) fun _ _ => trivial
    have missing : key ∉ db.values d.table pk := fun there => absent ⟨key, hkey, there⟩
    refine Calls.triple_bind (harmless_only raises (.send (harmless_update missing))) fun count => ?_
    refine Calls.triple_bind (Q := fun _ s => s.db = db) ?_ fun _ => triple_ret fun _ hs => hs
    refine triple_mono (Calls.triple_fold (fun _ m s => m = msg ∧ s.db = db)
      (fun done m child rest all => triple_pure fun same => ?_) msg)
      (fun s hs => ⟨rfl, hs⟩) fun _ _ hs => hs.2
    have hc : child ∈ d.children := all ▸ List.mem_append_right done List.mem_cons_self
    have orphan : key ∉ db.values child.table "owner" := fun there =>
      missing (owners d hd child hc key there).2
    refine Calls.triple_bind (harmless_only raises (.send (harmless_delete orphan))) fun _ => ?_
    rw [same]
    have inserts := updateChild_bare fuel (bare key hkey child hc)
    have only : Calls.Only (fun _ => False) _ := Calls.ensures_mono inserts fun _ _ => trivial
    exact Calls.triple_and (harmless_only raises (only.mono fun _ never => never.elim)) inserts

end Missing

section Remove

variable {S : Schema} {root d : Dao} {exec : (r : Request) → DbSession → Option (Answer r × DbSession)}
  (separate : SeparateTables S root) (hd : StoredThrough S root d) (raises : MayRaise exec)

/-- The row of `key` is gone, and so are its child rows in the tables of `done`. -/
def Removing (S : Schema) (root d : Dao) (key : Value) (done : List DaoChild) (s : DbSession) : Prop :=
  ∀ d', StoredThrough S root d' → ∀ child ∈ d'.children, ∀ v ∈ s.db.values child.table "owner",
    v ≠ .null ∧ (v ∈ s.db.values d'.table pk ∨ d' = d ∧ child ∉ done ∧ v = key)

include separate hd raises

theorem removeIn_owners (key : Value) :
    Triple (fun s => OwnersExist S root s.db) ((removeIn d key).attempt exec)
      (fun _ s => OwnersExist S root s.db) fun _ => True := by
  refine Calls.triple_bind (Q := fun _ => Removing S root d key []) ?_ fun count => ?_
  · refine Calls.triple_send (fun s count s' owners answered d' hd' child hc v hv => ?_)
      fun _ _ _ => trivial
    obtain ⟨out, deleted, same⟩ := Option.map_eq_some_iff.mp (raises _ _ _ answered)
    obtain ⟨rfl, rfl⟩ := Prod.mk.inj same
    have kept := Db.mem_of_values_delete deleted hv
    obtain ⟨given, owner⟩ := owners d' hd' child hc v kept
    refine ⟨given, ?_⟩
    by_cases own : fold d'.table = fold d.table
    · obtain rfl := separate.apart d' d hd' hd _ d'.table_mem _ d.table_mem own
      by_cases gone : v = key
      · exact .inr ⟨rfl, List.not_mem_nil, gone⟩
      · exact .inl (Db.mem_values_delete deleted owner gone)
    · refine .inl ?_
      have other : out.1.values d'.table pk = _ := Db.values_delete_other deleted own
      exact other.symm ▸ owner
  · refine Calls.triple_bind (Q := fun _ s => OwnersExist S root s.db) ?_
      fun _ => triple_ret fun _ hs => hs
    refine triple_mono (Calls.triple_collect (fun done _ => Removing S root d key done) ?_)
      (fun _ hs => hs) fun _ s hs d' hd' child hc v hv => ?_
    · intro done out child rest all
      have hc : child ∈ d.children := all ▸ List.mem_append_right done List.mem_cons_self
      refine Calls.triple_send (fun s count s' hs answered d' hd' child' hc' v hv => ?_)
        fun _ _ _ => trivial
      obtain ⟨out, deleted, same⟩ := Option.map_eq_some_iff.mp (raises _ _ _ answered)
      obtain ⟨rfl, rfl⟩ := Prod.mk.inj same
      obtain ⟨given, owner⟩ := hs d' hd' child' hc' v (Db.mem_of_values_delete deleted hv)
      refine ⟨given, owner.imp (fun there => ?_) fun ⟨own, later, gone⟩ => ⟨own, ?_, gone⟩⟩
      · have other : out.1.values d'.table pk = _ :=
          Db.values_delete_other deleted (separate.row_child hd' hd hc)
        exact other.symm ▸ there
      · intro earlier
        rcases List.mem_append.mp earlier with earlier | here
        · exact later earlier
        · rw [List.mem_singleton.mp here, gone] at hv
          exact Db.not_mem_values_delete deleted (gone ▸ given) hv
    · obtain ⟨given, there | ⟨rfl, later, _⟩⟩ := hs d' hd' child hc v hv
      · exact ⟨given, there⟩
      · exact absurd hc later

end Remove

section Runs

variable (E : DaoEnv) (root : Dao)

def SettledCall (db : Db) (dao : Dao) : DaoCall → Prop
  | .create _ => True
  | .update msg => SettledIn E db dao msg
  | .remove _ => True

/-- Every row that an update writes child rows for is stored. -/
def RootedCall (db : Db) (dao : Dao) : DaoCall → Prop
  | .create _ => True
  | .update msg => ∀ d m, Updates E dao msg d m → Stored E db d m ∨ Bare E d m
  | .remove _ => True

/-- Calls one after the other, each on `root` or on a DAO that it stores through, in which any
statement may raise. -/
inductive SettledRun (s : DbSession) : DbSession → Prop
  | start : SettledRun s s
  | call {s' : DbSession} {d : Dao} {exec : (r : Request) → DbSession → Option (Answer r × DbSession)}
      (run : SettledRun s s') (hd : StoredThrough E.schema root d) (raises : MayRaise exec) (fuel : Nat)
      (p : KeyProvider) (call : DaoCall) (settled : SettledCall E s'.db d call) :
      SettledRun s (daoCall exec E fuel p d call s').2

variable {E root}

theorem daoCall_keeps {exec : (r : Request) → DbSession → Option (Answer r × DbSession)} {fuel : Nat}
    {p : KeyProvider} {d : Dao} {call : DaoCall} {P : Db → Prop} {s : DbSession} (h : P s.db)
    (kept : Triple (fun s' => s'.db = s.db) ((call.program E fuel p d).attempt exec)
      (fun _ s' => P s'.db) fun _ => True) : P (daoCall exec E fuel p d call s).2.db := by
  unfold daoCall
  cases done : (call.program E fuel p d).attempt exec s with
  | mk result s' =>
    cases result with
    | none => exact h
    | some found =>
      have ended := kept.ends rfl (congrArg Prod.fst done)
      rw [done] at ended
      exact ended

/-- The keys of the rows that are there. -/
def present (S : Schema) (root : Dao) (db : Db) : Set (String × Value) :=
  fun e => (∃ d, StoredThrough S root d ∧ e.1 = d.table) ∧ e.2 ∈ db.values e.1 pk

theorem standing_present {S : Schema} {db : Db} (owners : OwnersExist S root db) :
    Standing S root (present S root db) db := ⟨owners, fun _ he => he⟩

theorem SettledCall.rooted {db : Db} {d : Dao} {call : DaoCall} (h : SettledCall E db d call) :
    RootedCall E db d call := by
  cases call with
  | create msg => trivial
  | update msg => exact SettledIn.rooted h
  | remove key => trivial

theorem Updates.stored {d d' : Dao} {msg m : Msg} (h : Updates E d msg d' m)
    (hd : StoredThrough E.schema root d) : StoredThrough E.schema root d' := by
  induction h with
  | self dao msg => exact hd
  | column mem fk stores _ _ _ ih => exact ih (hd.tail (.column mem fk stores))
  | element mem kind stores _ _ _ ih => exact ih (hd.tail (.element mem kind stores))

theorem present_of_rooted {db : Db} {d : Dao} (hd : StoredThrough E.schema root d) {msg : Msg}
    (rooted : RootedCall E db d (.update msg)) : ∀ d' m, Updates E d msg d' m →
      (∃ key, pkValue E d' m = some key ∧ (d'.table, key) ∈ present E.schema root db) ∨ Bare E d' m := by
  intro d' m updates
  rcases rooted d' m updates with ⟨key, hkey, there⟩ | bare
  · exact .inl ⟨key, hkey, ⟨d', updates.stored hd, rfl⟩, there⟩
  · exact .inr bare

/-- A call that writes child rows for stored rows only leaves every row of a child table with its
owner. -/
theorem program_owners (separate : SeparateTables E.schema root)
    (keyed : ∀ d, StoredThrough E.schema root d → Keyed d)
    (links : ∀ d, StoredThrough E.schema root d → LinksMessages E d)
    {exec : (r : Request) → DbSession → Option (Answer r × DbSession)} (raises : MayRaise exec) {d : Dao}
    (hd : StoredThrough E.schema root d) {fuel : Nat} {p : KeyProvider} {call : DaoCall} {start : Db}
    (rooted : RootedCall E start d call) (owners : OwnersExist E.schema root start) :
    Triple (fun s => s.db = start) ((call.program E fuel p d).attempt exec)
      (fun _ s => OwnersExist E.schema root s.db) fun _ => True := by
  cases call with
  | create msg =>
    refine Calls.triple_bind (triple_mono
      (createIn_stands separate keyed raises fuel p hd ∅ msg) (fun s hs => ?_)
      fun _ _ hs => hs) fun _ => triple_ret fun s hs => hs.owners
    exact ⟨hs ▸ owners, fun e he => he.elim⟩
  | update msg =>
    refine triple_mono (updateIn_stands separate keyed links raises fuel p hd msg
      (present_of_rooted hd rooted)) (fun s hs => ?_)
      fun _ s hs => hs.2.owners
    rw [Stands, hs]
    exact standing_present owners
  | remove key =>
    exact triple_mono (removeIn_owners separate hd raises key) (fun s hs => hs ▸ owners)
      fun _ _ hs => hs

theorem daoCall_owners (separate : SeparateTables E.schema root)
    (keyed : ∀ d, StoredThrough E.schema root d → Keyed d)
    (links : ∀ d, StoredThrough E.schema root d → LinksMessages E d)
    {exec : (r : Request) → DbSession → Option (Answer r × DbSession)} (raises : MayRaise exec) {d : Dao}
    (hd : StoredThrough E.schema root d) {fuel : Nat} {p : KeyProvider} {call : DaoCall} {s : DbSession}
    (settled : SettledCall E s.db d call) (owners : OwnersExist E.schema root s.db) :
    OwnersExist E.schema root (daoCall exec E fuel p d call s).2.db :=
  daoCall_keeps owners (program_owners separate keyed links raises hd settled.rooted owners)

/-- Over any run in which an update writes child rows for stored rows only, every row of a child
table has an owner in the main table, and an update that returns false leaves the database as it
was. -/
theorem owners_exist_of_settled {name : String} (class_ : daoClass E.schema name = some root)
    (separate : SeparateTables E.schema root)
    (links : ∀ d, StoredThrough E.schema root d → LinksMessages E d) {s₀ s : DbSession}
    (owners : OwnersExist E.schema root s₀.db) (run : SettledRun E root s₀ s) :
    OwnersExist E.schema root s.db ∧
      ∀ d exec fuel p msg, StoredThrough E.schema root d → MayRaise exec → SettledIn E s.db d msg →
        (daoCall exec E fuel p d (.update msg) s).1 = some false →
          (daoCall exec E fuel p d (.update msg) s).2.db = s.db := by
  have keyed : ∀ d, StoredThrough E.schema root d → Keyed d := fun d hd =>
    keyed_of_daoClass (storedThrough_class class_ hd).choose_spec
  have held : OwnersExist E.schema root s.db := by
    induction run with
    | start => exact owners
    | @call s' d exec run hd raises fuel p call settled ih =>
      exact daoCall_owners separate keyed links raises hd settled ih
  refine ⟨held, fun d exec fuel p msg hd raises settled answered => ?_⟩
  have updated := updateIn_stands separate keyed links raises fuel p hd msg
    (present_of_rooted hd settled.rooted)
  -- a row of the message would have been found
  have missing : ¬ Stored E s.db d msg := by
    rintro ⟨key, hkey, there⟩
    unfold daoCall at answered
    cases done : ((DaoCall.update msg).program E fuel p d).attempt exec s with
    | mk result s' =>
      rw [done] at answered
      cases result with
      | none => cases answered
      | some found =>
        have found_ := (updated.ends (standing_present held) (congrArg Prod.fst done)).1 key hkey
          ⟨⟨d, hd, rfl⟩, there⟩
        rw [found_] at answered
        cases answered
  have absent : ∀ d' m, Updates E d msg d' m → ¬ Stored E s.db d' m ∧ Bare E d' m :=
    fun d' m updates => ⟨settled.missing missing d' m updates,
      (settled.rooted d' m updates).resolve_left (settled.missing missing d' m updates)⟩
  exact daoCall_keeps (P := fun db => db = s.db) rfl
    (updateIn_missing links raises held fuel p hd msg absent)

end Runs

section Notes

theorem storedThrough_note {d : Dao} (h : StoredThrough taggedNoteSchema taggedNoteDao d) :
    d = taggedNoteDao := by
  induction h with
  | refl => rfl
  | tail _ last ih =>
    cases ih
    cases last with
    | @column col target mem fk _ =>
      have plain : ∀ col ∈ taggedNoteDao.columns, col.fk = none := by decide +kernel
      simp [plain col mem] at fk
    | @element child target mem kind _ =>
      cases List.mem_singleton.mp mem
      cases kind

theorem updates_note {msg m : Msg} {d : Dao} (h : Updates taggedNoteEnv taggedNoteDao msg d m) :
    d = taggedNoteDao ∧ m = msg := by
  cases h with
  | self => exact ⟨rfl, rfl⟩
  | @column _ _ _ _ _ col target owner mem fk =>
    have plain : ∀ col ∈ taggedNoteDao.columns, col.fk = none := by decide +kernel
    simp [plain col mem] at fk
  | element mem kind =>
    cases List.mem_singleton.mp mem
    cases kind

theorem owners_notesSession : OwnersExist taggedNoteSchema taggedNoteDao notesSession.db := by
  intro d hd child hc v hv
  cases storedThrough_note hd
  cases List.mem_singleton.mp hc
  have none_ : notesSession.db.values "note__tags" "owner" = [] := by decide +kernel
  rw [none_] at hv
  cases hv

/-- The first note is given a tag, and then removed. -/
theorem owners_exist_of_settled_notes :
    let tagged := (daoCall Request.exec taggedNoteEnv 1 (.fresh [7]) taggedNoteDao
      (.update (noteUpdate 1)) notesSession).2
    OwnersExist taggedNoteSchema taggedNoteDao (daoCall Request.exec taggedNoteEnv 1 (.fresh [7])
      taggedNoteDao (.remove (.int 1)) tagged).2.db := by
  refine (owners_exist_of_settled (E := taggedNoteEnv) daoClass_taggedNote ⟨?_, ?_, ?_⟩ ?_
    owners_notesSession (.call (.call .start .refl (fun _ _ _ h => h) 1 _ (.update (noteUpdate 1)) ?_)
      .refl (fun _ _ _ h => h) 1 _ (.remove (.int 1)) trivial)).1
  · intro d hd
    cases storedThrough_note hd
    decide +kernel
  · intro d hd
    cases storedThrough_note hd
    decide +kernel
  · intro d d' hd hd' _ _ _ _ _
    rw [storedThrough_note hd, storedThrough_note hd']
  · intro d hd col hcol fk
    cases storedThrough_note hd
    have plain : ∀ col ∈ taggedNoteDao.columns, col.fk = none := by decide +kernel
    simp [plain col hcol] at fk
  · have stored : Stored taggedNoteEnv notesSession.db taggedNoteDao (noteUpdate 1) :=
      ⟨.int 1, by decide +kernel, by decide +kernel⟩
    refine ⟨fun d m updates => .inl ?_, fun missing => absurd stored missing⟩
    obtain ⟨rfl, rfl⟩ := updates_note updates
    exact stored

/-- The update of a note that is not there returns false and leaves its tags behind. -/
theorem not_owners_exist :
    ¬ ∀ (E : DaoEnv) (name : String) (root : Dao) (fuel : Nat) (p : KeyProvider)
        (calls : List DaoCall) (s : DbSession), daoClass E.schema name = some root →
      OwnersExist E.schema root s.db →
        OwnersExist E.schema root
          (calls.foldl (fun s call => (daoCall Request.exec E fuel p root call s).2) s).db ∧
        ∀ msg, (daoCall Request.exec E fuel p root (.update msg) s).1 = some false →
          (daoCall Request.exec E fuel p root (.update msg) s).2.db = s.db := by
  intro h
  obtain ⟨owners, -⟩ := h taggedNoteEnv "note" taggedNoteDao 1 (.fresh [7])
    [.update (noteUpdate 7)] notesSession daoClass_taggedNote owners_notesSession
  have orphan := (owners taggedNoteDao .refl _ List.mem_cons_self (.int 7) (by decide +kernel)).2
  have missing : (.int 7 : Value) ∉ (daoCall Request.exec taggedNoteEnv 1 (.fresh [7]) taggedNoteDao
      (.update (noteUpdate 7)) notesSession).2.db.values "note" pk := by decide +kernel
  exact missing orphan

end Notes

end Harpia
