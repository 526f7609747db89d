import Harpia.DaoUpdate

namespace Harpia

open Sqlite Proto Attempt

section Held

variable (E : DaoEnv) (value : Message → Msg → DaoColumn → Option Value) (p : KeyProvider)
  (dao : Dao) (key : Value) (msg : Msg)

/-- Each column but the key's holds a value that the message may be bound as there: a `phi` value is
sealed with fresh bytes. -/
def RowHolds (r : Row) : Prop :=
  ∀ col ∈ keylessColumns dao, ∃ cell, (bindColumn E p dao msg col).CanReturn cell ∧
    r.get col.name = cell.value

/-- A child table, and the rows it is to hold. -/
def EntriesOf (child : DaoChild) (e : String × List Entry) : Prop :=
  e.1 = child.table ∧ childTableEntries E value dao key msg child = some e.2

/-- What is stored under the key is the message. -/
structure Held (db : Db) : Prop where
  row : ∀ r ∈ db.chosen dao.table pk key, RowHolds E p dao msg r
  children : ∀ child ∈ dao.children, ∃ entries, childTableEntries E value dao key msg child = some entries ∧
    List.Forall₂ Db.Stores entries (db.chosen child.table "owner" key)

variable {E value p dao key msg} {before db : Db} {put : List (String × List Entry)}

theorem exists_of_forall₂ {α β : Type} {R : α → β → Prop} {xs : List α} {ys : List β}
    (h : List.Forall₂ R xs ys) {x : α} (hx : x ∈ xs) : ∃ y ∈ ys, R x y := by
  induction h with
  | nil => cases hx
  | cons first _ ih =>
    rcases List.mem_cons.mp hx with rfl | hx
    · exact ⟨_, List.mem_cons_self, first⟩
    · obtain ⟨y, hy, related⟩ := ih hx
      exact ⟨y, List.mem_cons_of_mem _ hy, related⟩

theorem map_eq_of_forall₂ {α β γ : Type} {R : α → β → Prop} {xs : List α} {ys : List β} {f : α → γ}
    {g : β → γ} (h : List.Forall₂ R xs ys) (same : ∀ x y, R x y → g y = f x) :
    ys.map g = xs.map f := by
  induction h with
  | nil => rfl
  | cons first _ ih => rw [List.map_cons, List.map_cons, same _ _ first, ih]

theorem fresh_after (names : dao.DistinctNames) {done rest : List DaoChild} {child : DaoChild}
    (all : dao.children = done ++ child :: rest)
    (so_far : List.Forall₂ (EntriesOf E value dao key msg) done put) :
    ∀ e ∈ put, fold e.1 ≠ fold child.table := by
  have nodup : (dao.children.map fun c => fold c.table).Nodup := by
    have tables := (List.nodup_cons.mp names.tables).2
    rw [List.map_map] at tables
    exact tables
  rw [all, List.map_append, List.map_cons, List.nodup_append] at nodup
  have named : put.map Prod.fst = done.map DaoChild.table :=
    map_eq_of_forall₂ so_far fun child e h => h.1
  intro e he same
  have earlier : e.1 ∈ done.map DaoChild.table := by
    rw [← named]
    exact List.mem_map_of_mem he
  obtain ⟨c, hc, table⟩ := List.mem_map.mp earlier
  have left : fold child.table ∈ done.map fun c => fold c.table := by
    rw [← same, ← table]
    exact List.mem_map_of_mem hc
  exact nodup.2.2 _ left _ List.mem_cons_self rfl

theorem entriesOf_snoc {done : List DaoChild} {child : DaoChild} {entries : List Entry}
    (so_far : List.Forall₂ (EntriesOf E value dao key msg) done put)
    (h : childTableEntries E value dao key msg child = some entries) :
    List.Forall₂ (EntriesOf E value dao key msg) (done ++ [child]) (put ++ [(child.table, entries)]) :=
  List.rel_append so_far (.cons ⟨rfl, h⟩ .nil)

theorem held_of_progress (h : Progress dao key before (RowHolds E p dao msg) put db)
    (all : List.Forall₂ (EntriesOf E value dao key msg) dao.children put) :
    Held E value p dao key msg db := by
  refine ⟨h.row, fun child hc => ?_⟩
  obtain ⟨e, he, table, entries⟩ := exists_of_forall₂ all hc
  refine ⟨e.2, entries, ?_⟩
  rw [← table]
  exact h.children e he

end Held

section Row

variable {E : DaoEnv} {p : KeyProvider} {dao : Dao} {key : Value} {msg : Msg} {before : Db}

theorem bindColumn_column (msg : Msg) (col : DaoColumn) :
    (bindColumn E p dao msg col).Ensures (fun _ => True) fun cell => cell.column = col.name := by
  unfold bindColumn
  split
  · refine Calls.ensures_bind (Calls.ensures_ofOption fun owner _ => ?_)
    refine Calls.ensures_bind (Calls.ensures_ofOption fun field _ => ?_)
    split
    · exact rfl
    · refine Calls.ensures_bind ⟨trivial, fun dek => ?_⟩
      exact Calls.ensures_bind (Calls.ensures_ofOption fun stored _ => rfl)
  · exact Calls.ensures_bind (Calls.ensures_ofOption fun v _ => rfl)

/-- The cells bound for a row hold what its columns may be bound as. -/
theorem rowHolds_assign (names : dao.DistinctNames) {cells : List Cell}
    (bound : List.Forall₂ (fun col cell => (bindColumn E p dao msg col).CanReturn cell)
      (keylessColumns dao) cells) :
    (∀ e ∈ cells.map Cell.binding, fold pk ≠ fold e.1) ∧
      ∀ old, RowHolds E p dao msg (Row.assign old (cells.map Cell.binding)) := by
  have columns : cells.map Cell.column = (keylessColumns dao).map DaoColumn.name :=
    map_eq_of_forall₂ bound fun col cell can =>
      Calls.canReturn_ensures (Q := fun cell => cell.column = col.name) can (bindColumn_column msg col)
  have distinct := names.columns
  rw [List.map_cons, List.nodup_cons, ← columns, List.map_map] at distinct
  obtain ⟨absent, nodup⟩ := distinct
  have apart : ((cells.map Cell.binding).map fun e => fold e.1).Nodup := by
    rw [List.map_map]
    exact nodup
  refine ⟨fun e he same => ?_, fun old col hcol => ?_⟩
  · obtain ⟨cell, hcell, rfl⟩ := List.mem_map.mp he
    have there : (fold ∘ Cell.column) cell ∈ cells.map (fold ∘ Cell.column) :=
      List.mem_map_of_mem hcell
    rw [same] at absent
    exact absent there
  · obtain ⟨cell, hcell, can⟩ := exists_of_forall₂ bound hcol
    refine ⟨cell, can, ?_⟩
    have named := Calls.canReturn_ensures can (bindColumn_column msg col)
    rw [← named]
    have there : Cell.binding cell ∈ cells.map Cell.binding := List.mem_map_of_mem hcell
    have stored := Row.get_assign old apart there
    exact stored

theorem bindColumns_reaches (E : DaoEnv) (p : KeyProvider) (msg : Msg) :
    Triple (StoredSoFar dao key before (fun _ => True) [])
      ((Calls.collect (bindColumn E p dao msg) (keylessColumns dao)).attempt Request.exec)
      (fun cells s => List.Forall₂ (fun col cell => (bindColumn E p dao msg col).CanReturn cell)
        (keylessColumns dao) cells ∧ StoredSoFar dao key before (fun _ => True) [] s)
      (Spared dao key before) := by
  have none_ : (Calls.collect (bindColumn E p dao msg) (keylessColumns dao)).Only
      fun r => ∀ t ∈ r.table?, t ∈ (∅ : Set String) :=
    .collect fun col _ => bindColumn_only (fun t ht => by cases ht) msg col
  have leaves : Leaves (fun t => t ∈ dao.tables)
      ((Calls.collect (bindColumn E p dao msg) (keylessColumns dao)).attempt Request.exec) :=
    .calls none_ fun n _ t ht => ht.elim
  exact ⟨fun hs he => ⟨Calls.canReturn_collect (Calls.canReturn_of_attempt he),
    leaves.reached.ends hs he⟩, fun hs he => leaves.reached.fails hs he⟩

theorem update_reaches (names : dao.DistinctNames) {cells : List Cell}
    (bound : List.Forall₂ (fun col cell => (bindColumn E p dao msg col).CanReturn cell)
      (keylessColumns dao) cells) :
    Triple (StoredSoFar dao key before (fun _ => True) [])
      ((Cursor.update dao.table cells key).attempt Request.exec)
      (fun _ => StoredSoFar dao key before (RowHolds E p dao msg) []) (Spared dao key before) := by
  obtain ⟨apart, assigned⟩ := rowHolds_assign names bound
  refine Calls.triple_send (fun s count s' hs answered => ?_) fun s hs _ => hs.kept
  obtain ⟨out, updated, same⟩ := Option.map_eq_some_iff.mp answered
  obtain ⟨rfl, rfl⟩ := Prod.mk.inj same
  exact hs.update names apart assigned updated

end Row

section Update

variable {E : DaoEnv} {dao : Dao} {key : Value} {msg : Msg} {before : Db}

/-- None of its foreign keys leads back to a table of the DAO. -/
def Dao.Apart (S : Schema) (dao : Dao) : Prop :=
  ∀ t ∈ dao.tables, ∀ t' ∈ childTables S dao, fold t ≠ fold t'

/-- The update of a child writes none of the tables of its parent. -/
theorem updateChild_only (E : DaoEnv) (fuel : Nat) {target : String}
    (through : ∀ d, daoClass E.schema target = some d → StoresThrough E.schema dao d) (m : Msg) :
    (do
      let d ← Calls.ofOption (daoClass E.schema target)
      let _ ← updateIn E fuel E.defaultProvider d m
      return m : Cursor Msg).Only fun r => ∀ t ∈ r.table?, t ∈ childTables E.schema dao :=
  .some_bind fun d hd => .bind ((updateIn_only fuel _ d m).mono fun _ hr t ht =>
    mem_childTables (through d hd) (hr t ht)) fun _ => .ret _

theorem updateChild_apart (apart : dao.Apart E.schema) (fuel : Nat) {target : String}
    (through : ∀ d, daoClass E.schema target = some d → StoresThrough E.schema dao d) :
    StoredApart dao fun m => do
      let d ← Calls.ofOption (daoClass E.schema target)
      let _ ← updateIn E fuel E.defaultProvider d m
      return m := by
  refine ⟨fun m => .calls (updateChild_only E fuel through m) apart, fun m => ?_⟩
  refine Calls.ensures_bind (Calls.ensures_ofOption fun d _ => ?_)
  have any : (updateIn E fuel E.defaultProvider d m).Only fun _ => True :=
    (updateIn_only fuel _ d m).mono fun _ _ => trivial
  exact Calls.ensures_bind (Calls.ensures_mono any fun _ _ => rfl)

theorem reached_start (s : DbSession) (h : Spared dao key before s) :
    StoredSoFar dao key before (fun _ => True) [] s :=
  ⟨h, fun _ _ => trivial, by simp, by simp⟩

/-- `_update` of a message under its key: no row of another key changes, and where it returns, what
is stored under the key is the message. -/
theorem updateIn_replaces (names : dao.DistinctNames) (apart : dao.Apart E.schema)
    (hkey : pkValue E dao msg = some key) (hk : key ≠ .null) (fuel : Nat) (p : KeyProvider) :
    Triple (Spared dao key before) ((updateIn E fuel p dao msg).attempt Request.exec)
      (fun _ s => Spared dao key before s ∧ Held E (columnValue E.schema.types) p dao key msg s.db)
      (Spared dao key before) := by
  cases fuel with
  | zero => exact triple_fail fun s hs => hs
  | succ fuel =>
    refine triple_mono (?_ : Triple (StoredSoFar dao key before (fun _ => True) []) _ _ _) reached_start
      fun _ _ hs => hs
    -- the foreign keys, the row, the child tables
    refine Calls.triple_bind (Leaves.reached (.calls (.fold _ fun col hc m => storeChild_only
      (fun target m fk => updateChild_only E fuel (fun d hd => .column hc fk hd) m) m) apart))
      fun _ => ?_
    refine Calls.triple_bind (bindColumns_reaches E p msg) fun cells => triple_pure fun bound => ?_
    refine Calls.triple_some_bind (fun owner howner => ?_) fun s hs => hs.kept
    cases hkey.symm.trans howner
    refine Calls.triple_bind (update_reaches names bound) fun count => ?_
    refine Calls.triple_bind (Q := fun _ s => Spared dao key before s ∧
      Held E (columnValue E.schema.types) p dao key msg s.db) ?_ fun _ => triple_ret fun _ hs => hs
    refine triple_mono (Calls.triple_fold (fun done m s => msg.Agrees m ∧ ∃ put,
      List.Forall₂ (EntriesOf E (columnValue E.schema.types) dao key msg) done put ∧
        StoredSoFar dao key before (RowHolds E p dao msg) put s) ?_ msg)
      (fun s hs => ⟨.refl msg, [], .nil, hs⟩)
      fun _ s ⟨_, put, all, hs⟩ => ⟨hs.kept, held_of_progress hs all⟩
    intro done m child rest all
    refine triple_pure fun agrees => triple_exists fun put => triple_pure fun so_far => ?_
    have hc : child ∈ dao.children := by
      rw [all]
      exact List.mem_append_right done List.mem_cons_self
    have fresh := fresh_after names all so_far
    refine Calls.triple_bind (delete_reaches names hc fresh) fun _ => ?_
    refine triple_mono (insertChild_reaches names hc fresh hk (fun target kind =>
      updateChild_apart apart fuel fun d hd => .element hc kind hd) m) (fun _ hs => hs) ?_
    refine fun m' s ⟨agrees', es, entries, hs⟩ => ⟨agrees.trans agrees', _, ?_, hs⟩
    rw [childTableEntries_congr agrees] at entries
    exact entriesOf_snoc so_far entries

/-- The same of `update` in C++; what has been written by the time it fails is written for this key. -/
theorem cppUpdateIn_replaces (names : dao.DistinctNames) (apart : dao.Apart E.schema)
    (hkey : pkValue E dao msg = some key) (hk : key ≠ .null) (fuel : Nat) (p : KeyProvider) :
    Triple (Spared dao key before) (cppUpdateIn Request.exec E fuel p dao msg)
      (fun _ s => Spared dao key before s ∧
        Held E (cppElementValue E.schema.types) p dao key msg s.db) (Spared dao key before) := by
  cases fuel with
  | zero => exact triple_fail fun s hs => hs
  | succ fuel =>
    have nested : ∀ target m, (∀ d, daoClass E.schema target = some d →
        StoresThrough E.schema dao d) → Leaves (fun t => t ∈ dao.tables) (do
          let d ← Attempt.ofOption (daoClass E.schema target)
          Attempt.tried (cppUpdateIn Request.exec E fuel E.defaultProvider d m)) :=
      fun target m through => .some_bind fun d hd => .tried (cppUpdateIn_leaves fuel _ d m
        fun n hn t ht => apart n hn t (mem_childTables (through d hd) ht))
    refine triple_mono (?_ : Triple (StoredSoFar dao key before (fun _ => True) []) _ _ _) reached_start
      fun _ _ hs => hs
    refine triple_bind (Leaves.reached (.each fun col hc => ?_)) fun _ => ?_
    · unfold cppUpdateChild
      split
      · exact .ret _
      · next target fk =>
        refine .bind (.ofOption _) fun place => .bind (.ofOption _) fun set => ?_
        split
        · exact nested target _ fun d hd => .column hc fk hd
        · exact .ret _
    refine triple_bind (Q := fun owner s => owner = key ∧
      StoredSoFar dao key before (RowHolds E p dao msg) [] s) ?_ fun owner => triple_pure fun same => ?_
    · refine Calls.triple_bind (bindColumns_reaches E p msg) fun cells => triple_pure fun bound => ?_
      refine Calls.triple_some_bind (fun owner howner => ?_) fun s hs => hs.kept
      cases hkey.symm.trans howner
      exact Calls.triple_bind (update_reaches names bound) fun count =>
        triple_ret fun s hs => ⟨rfl, hs⟩
    rw [same]
    refine triple_mono (triple_each (fun done s => ∃ put,
      List.Forall₂ (EntriesOf E (cppElementValue E.schema.types) dao key msg) done put ∧
        StoredSoFar dao key before (RowHolds E p dao msg) put s) ?_) (fun s hs => ⟨[], .nil, hs⟩)
      fun _ s ⟨put, all, hs⟩ => ⟨hs.kept, held_of_progress hs all⟩
    intro done child rest all
    refine triple_exists fun put => triple_pure fun so_far => ?_
    have hc : child ∈ dao.children := by
      rw [all]
      exact List.mem_append_right done List.mem_cons_self
    refine triple_mono (cppRewriteChild_reaches names hc (fresh_after names all so_far) hk
      (fun target kind m => nested target m fun d hd => .element hc kind hd) msg)
      (fun _ hs => hs) fun _ s ⟨es, entries, hs⟩ => ⟨_, entriesOf_snoc so_far entries, hs⟩

end Update

end Harpia
