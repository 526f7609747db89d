import Harpia.CppDao
import Harpia.DaoSession
import Mathlib.Logic.Relation

namespace Harpia

open Sqlite Proto Attempt

def Dao.tables (dao : Dao) : List String := dao.table :: dao.children.map DaoChild.table

/-- One of the foreign keys of `dao`, singular or repeated, is stored by `d`. -/
inductive StoresThrough (S : Schema) (dao d : Dao) : Prop
  | column {col : DaoColumn} {target : String} (mem : col ∈ dao.columns)
      (fk : col.fk = some target) (stores : daoClass S target = some d)
  | element {child : DaoChild} {target : String} (mem : child ∈ dao.children)
      (kind : child.kind = .repeated (some target)) (stores : daoClass S target = some d)

/-- The tables of a DAO and of those it stores its children through, at any depth. -/
def writtenTables (S : Schema) (dao : Dao) : Set String :=
  fun t => ∃ d, Relation.ReflTransGen (StoresThrough S) dao d ∧ t ∈ d.tables

/-- The tables of the children, at any depth. -/
def childTables (S : Schema) (dao : Dao) : Set String :=
  fun t => ∃ d, Relation.TransGen (StoresThrough S) dao d ∧ t ∈ d.tables

theorem mem_childTables {S : Schema} {dao d : Dao} (h : StoresThrough S dao d) {t : String}
    (ht : t ∈ writtenTables S d) : t ∈ childTables S dao := by
  obtain ⟨d', hd, ht⟩ := ht
  exact ⟨d', Relation.TransGen.head' h hd, ht⟩

theorem mem_writtenTables_of_child {S : Schema} {dao : Dao} {t : String}
    (ht : t ∈ childTables S dao) : t ∈ writtenTables S dao := by
  obtain ⟨d, hd, ht⟩ := ht
  exact ⟨d, hd.to_reflTransGen, ht⟩

theorem mem_writtenTables {S : Schema} {dao : Dao} {t : String} (ht : t ∈ dao.tables) :
    t ∈ writtenTables S dao := ⟨dao, .refl, ht⟩

theorem Dao.table_mem (dao : Dao) : dao.table ∈ dao.tables := List.mem_cons_self

theorem Dao.child_mem {dao : Dao} {child : DaoChild} (hc : child ∈ dao.children) :
    child.table ∈ dao.tables := List.mem_cons_of_mem _ (List.mem_map_of_mem hc)

/-- The table that a request is about. -/
def Request.table? : Request → Option String
  | .insert table _ => some table
  | .update table _ _ => some table
  | .delete table _ _ => some table
  | .tokenBytes => none

/-- What the tables of these names hold is as in `db`. -/
def SameTables (names : Set String) (db : Db) (s : DbSession) : Prop :=
  ∀ n ∈ names, s.db.get? n = db.get? n

section Leaves

variable {α β γ : Type} {names tables : Set String}

/-- Whether or not it fails, the program leaves the tables of these names alone. -/
def Leaves (names : Set String) (p : Attempt DbSession α) : Prop :=
  ∀ db, Triple (SameTables names db) p (fun _ => SameTables names db) (SameTables names db)

theorem Leaves.bind {p : Attempt DbSession α} {f : α → Attempt DbSession β} (h : Leaves names p)
    (next : ∀ a, Leaves names (f a)) : Leaves names (p >>= f) :=
  fun db => triple_bind (h db) fun a => next a db

theorem Leaves.ret (a : α) : Leaves names (pure a : Attempt DbSession α) :=
  fun _ => triple_ret fun _ hs => hs

theorem Leaves.ofOption (o : Option α) : Leaves names (Attempt.ofOption o) :=
  fun _ => triple_ofOption (fun _ _ _ hs => hs) fun _ hs => hs

theorem Leaves.some_bind {o : Option α} {f : α → Attempt DbSession β}
    (next : ∀ a, o = some a → Leaves names (f a)) : Leaves names (Attempt.ofOption o >>= f) := by
  intro db
  exact triple_some_bind (fun a ha => next a ha db) fun _ hs => hs

theorem Leaves.tried {p : Attempt DbSession α} (h : Leaves names p) : Leaves names (tried p) :=
  fun db => triple_tried (h db) (fun _ _ hs => hs) fun _ hs => hs

theorem Leaves.each {f : γ → Attempt DbSession Unit} {xs : List γ}
    (h : ∀ x ∈ xs, Leaves names (f x)) : Leaves names (Attempt.each f xs) := by
  intro db
  refine triple_each (fun _ => SameTables names db) fun done x rest all => h x ?_ db
  rw [all]
  exact List.mem_append_right done List.mem_cons_self

/-- The tables are none of those the program has requests about. -/
theorem Leaves.calls {program : Cursor α}
    (only : program.Only fun r => ∀ t ∈ r.table?, t ∈ tables)
    (apart : ∀ n ∈ names, ∀ t ∈ tables, fold n ≠ fold t) :
    Leaves names (program.attempt Request.exec) := by
  have keeps : ∀ s, ∀ n ∈ names,
      (program.attempt Request.exec s).2.db.get? n = s.db.get? n := by
    refine fun s => Calls.attempt_keeps
      (R := fun s s' : DbSession => ∀ n ∈ names, s'.db.get? n = s.db.get? n)
      (fun _ _ _ => rfl) (fun h h' n hn => (h' n hn).trans (h n hn)) ?_ only s
    intro r s answer s' about answered n hn
    cases r with
    | tokenBytes =>
      cases answered
      rfl
    | insert table cells =>
      obtain ⟨out, done, same⟩ := Option.map_eq_some_iff.mp answered
      obtain ⟨rfl, rfl⟩ := Prod.mk.inj same
      obtain ⟨_, _, _, _, _, written⟩ := Db.insert_rewritten done
      exact written.others n (apart n hn table (about table rfl))
    | update table cells key =>
      obtain ⟨out, done, same⟩ := Option.map_eq_some_iff.mp answered
      obtain ⟨rfl, rfl⟩ := Prod.mk.inj same
      obtain ⟨_, _, _, _, written⟩ := Db.update_rewritten done
      exact written.others n (apart n hn table (about table rfl))
    | delete table column v =>
      obtain ⟨out, done, same⟩ := Option.map_eq_some_iff.mp answered
      obtain ⟨rfl, rfl⟩ := Prod.mk.inj same
      obtain ⟨_, _, _, written⟩ := Db.delete_rewritten done
      exact written.others n (apart n hn table (about table rfl))
  exact fun db => ⟨fun hs _ n hn => (keeps _ n hn).trans (hs n hn),
    fun hs _ n hn => (keeps _ n hn).trans (hs n hn)⟩

/-- What only depends on these tables is kept. -/
theorem Leaves.keeps {p : Attempt DbSession α} (h : Leaves names p) {P : DbSession → Prop}
    (stable : ∀ s s', P s → (∀ n ∈ names, s'.db.get? n = s.db.get? n) → P s') :
    Triple P p (fun _ => P) P :=
  ⟨fun {s _} hs he => stable s _ hs ((h s.db).ends (fun _ _ => rfl) he),
    fun {s} hs he => stable s _ hs ((h s.db).fails (fun _ _ => rfl) he)⟩

end Leaves

section Requests

variable {E : DaoEnv} {p : KeyProvider} {dao : Dao} {P : Request → Prop}

theorem bindColumn_only (bytes : P .tokenBytes) (msg : Msg) (col : DaoColumn) :
    (bindColumn E p dao msg col).Only P := by
  unfold bindColumn
  split
  · refine .bind (.ofOption _) fun owner => .bind (.ofOption _) fun field => ?_
    split
    · exact .ret _
    · exact .bind (.send bytes) fun dek => .bind (.ofOption _) fun stored => .ret _
  · exact .bind (.ofOption _) fun v => .ret _

section Child

variable {child : DaoChild} {owner : Value}
  (inserts : ∀ cells, P (.insert child.table (ownerCell dao owner :: cells)))

include inserts

theorem writeMap_only (field : Variable) (m : Msg) :
    (writeMap dao owner child field m).Only P := by
  unfold writeMap
  split
  · exact .raise
  · exact .bind (.collect fun e _ => .send (inserts _)) fun _ => .ret _

theorem writeRepeated_only (field : Variable) (m : Msg) :
    (writeRepeated E dao owner child field m).Only P :=
  .bind (.ofOption _) fun _ => .bind (.collect fun _ _ => .send (inserts _)) fun _ => .ret _

theorem writeLinks_only {recur : Msg → Cursor Msg} (inner : ∀ m, (recur m).Only P)
    (field : Variable) (m : Msg) : (writeLinks E dao recur owner child field m).Only P := by
  refine .bind (.ofOption _) fun elem => .collect fun e _ => ?_
  refine .bind (inner _) fun item => .bind (.ofOption _) fun key => ?_
  exact .bind (.send (inserts _)) fun _ => .ret _

theorem writeComposed_only (columns : List DaoColumn) (field : Variable) (m : Msg) :
    (writeComposed E dao owner child columns field m).Only P := by
  refine .bind (.ofOption _) fun elem => .bind (.collect fun e _ => ?_) fun _ => .ret _
  refine .bind (.collect fun col _ => ?_) fun cells => .send (inserts _)
  exact .bind (.ofOption _) fun v => .ret _

theorem cppWriteComposed_only (columns : List DaoColumn) (field : Variable)
    (m : Msg) : (cppWriteComposed E dao owner child columns field m).Only P := by
  refine .bind (.ofOption _) fun elem => .bind (.collect fun e _ => ?_) fun _ => .ret _
  refine .bind (.collect fun col _ => ?_) fun cells => .send (inserts _)
  exact .bind (.ofOption _) fun v => .ret _

theorem insertChild_only {recur : String → Msg → Cursor Msg}
    (inner : ∀ target m, child.kind = .repeated (some target) → (recur target m).Only P)
    (msg : Msg) : (insertChild E dao recur owner msg child).Only P := by
  refine .bind (.ofOption _) fun base => .bind (.ofOption _) fun field => ?_
  split
  · exact .bind (writeMap_only inserts _ _) fun _ => .ret _
  · exact .bind (writeRepeated_only inserts _ _) fun _ => .ret _
  · next target kind =>
    refine .bind (writeLinks_only inserts (fun m => inner target m kind) _ _) fun items => ?_
    split
    · exact .ret _
    · exact .ofOption _
  · exact .bind (writeComposed_only inserts _ _ _) fun _ => .ret _

end Child

theorem storeChild_only {recur : String → Msg → Cursor Msg} {col : DaoColumn}
    (inner : ∀ target m, col.fk = some target → (recur target m).Only P) (msg : Msg) :
    (storeChild E dao recur msg col).Only P := by
  unfold storeChild
  split
  · exact .ret _
  · next target fk =>
    refine .bind (.ofOption _) fun owner => .bind (.ofOption _) fun set => ?_
    split
    · exact .bind (inner target _ fk) fun child => .ofOption _
    · exact .ret _

end Requests

section Update

variable {E : DaoEnv}

/-- `_update` writes the tables of its DAO, and of those it stores children through. -/
theorem updateIn_only (fuel : Nat) (p : KeyProvider) (dao : Dao) (msg : Msg) :
    (updateIn E fuel p dao msg).Only fun r => ∀ t ∈ r.table?, t ∈ writtenTables E.schema dao := by
  induction fuel generalizing p dao msg with
  | zero => exact .raise
  | succ fuel ih =>
    have inner : ∀ target m, (∀ d, daoClass E.schema target = some d →
        StoresThrough E.schema dao d) → Calls.Only
          (fun r : Request => ∀ t ∈ r.table?, t ∈ writtenTables E.schema dao) (do
            let d ← Calls.ofOption (daoClass E.schema target)
            let _ ← updateIn E fuel E.defaultProvider d m
            return m : Cursor Msg) := by
      intro target m through
      refine .some_bind fun d hd => .bind ((ih _ d m).mono fun r hr t ht => ?_) fun _ => .ret _
      exact mem_writtenTables_of_child (mem_childTables (through d hd) (hr t ht))
    have own : ∀ t ∈ dao.tables, ∀ t' ∈ some t, t' ∈ writtenTables E.schema dao := by
      intro t ht t' ht'
      cases Option.mem_some.mp ht'
      exact mem_writtenTables ht
    refine .bind (.fold _ fun col hc msg => storeChild_only (fun target m fk =>
      inner target m fun d hd => .column hc fk hd) msg) fun _ => ?_
    refine .bind (.collect fun col _ => bindColumn_only (fun t ht => by cases ht) msg col)
      fun cells => .bind (.ofOption _) fun owner => ?_
    refine .bind (.send (own _ dao.table_mem)) fun count => ?_
    refine .bind (.fold _ fun child hc msg => ?_) fun _ => .ret _
    refine .bind (.send (own _ (dao.child_mem hc))) fun _ => ?_
    exact insertChild_only (fun cells => own _ (dao.child_mem hc)) (fun target m kind =>
      inner target m fun d hd => .element hc kind hd) msg

variable {names : Set String}

/-- So does `update` in C++, whether or not it succeeds. -/
theorem cppUpdateIn_leaves (fuel : Nat) (p : KeyProvider) (dao : Dao) (msg : Msg)
    (apart : ∀ n ∈ names, ∀ t ∈ writtenTables E.schema dao, fold n ≠ fold t) :
    Leaves names (cppUpdateIn Request.exec E fuel p dao msg) := by
  induction fuel generalizing p dao msg with
  | zero => exact fun _ => triple_fail fun _ hs => hs
  | succ fuel ih =>
    have nested : ∀ target m, (∀ d, daoClass E.schema target = some d →
        StoresThrough E.schema dao d) → Leaves names (do
          let d ← Attempt.ofOption (daoClass E.schema target)
          Attempt.tried (cppUpdateIn Request.exec E fuel E.defaultProvider d m)) := by
      intro target m through
      refine .some_bind fun d hd => .tried (ih _ d m fun n hn t ht => apart n hn t ?_)
      exact mem_writtenTables_of_child (mem_childTables (through d hd) ht)
    have own : ∀ {α : Type} {program : Cursor α}, (program.Only fun r => ∀ t ∈ r.table?,
        t ∈ dao.tables) → Leaves names (program.attempt Request.exec) :=
      fun only => .calls only fun n hn t ht => apart n hn t (mem_writtenTables ht)
    refine .bind (.each fun col hc => ?_) fun _ => .bind (own ?_) fun owner => .each fun child hc => ?_
    · unfold cppUpdateChild
      split
      · exact .ret _
      · next target fk =>
        refine .bind (.ofOption _) fun place => .bind (.ofOption _) fun set => ?_
        split
        · exact nested target _ fun d hd => .column hc fk hd
        · exact .ret _
    · refine .bind (.collect fun col _ => bindColumn_only (fun t ht => by cases ht) msg col)
        fun cells => .bind (.ofOption _) fun owner => ?_
      refine .bind (.send fun t ht => ?_) fun count => .ret _
      cases Option.mem_some.mp ht
      exact dao.table_mem
    · have here : ∀ t ∈ some child.table, t ∈ dao.tables := by
        intro t ht
        cases Option.mem_some.mp ht
        exact dao.child_mem hc
      refine .bind (.ofOption _) fun base => .bind (.ofOption _) fun field => ?_
      refine .bind (own (.send here)) fun _ => ?_
      split
      · exact own (writeMap_only (fun _ => here) _ _)
      · exact own (writeRepeated_only (fun _ => here) _ _)
      · next target kind =>
        refine .bind (.ofOption _) fun elem => .each fun e _ => ?_
        refine .bind (nested target _ fun d hd => .element hc kind hd) fun _ => ?_
        exact .bind (.ofOption _) fun key => .bind (own (.send here)) fun _ => .ret _
      · exact own (cppWriteComposed_only (fun _ => here) _ _ _)

end Update

end Harpia
