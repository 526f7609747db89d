import Harpia.DaoEncryption
import Harpia.DaoRuns

namespace Harpia

open Sqlite Proto Attempt

/-- The key is a field of the message, and a plain column of its row. -/
structure Keyed (dao : Dao) : Prop where
  field : dao.message.field? pk = some harpiaId
  column : ∃ col ∈ dao.columns, col.name = pk ∧ col.path = ⟨[], pk⟩ ∧ col.fk = none ∧
    col.phi = false ∧ col.presence = false

theorem exists_of_mapM {α β : Type} {f : α → Option β} {l : List α} {out : List β}
    (h : l.mapM f = some out) {x : α} (hx : x ∈ l) : ∃ y ∈ out, f x = some y := by
  induction l generalizing out with
  | nil => cases hx
  | cons z l ih =>
    rw [List.mapM_cons] at h
    obtain ⟨y, hy, h⟩ := Option.bind_eq_some_iff.mp h
    obtain ⟨rest, hrest, h⟩ := Option.bind_eq_some_iff.mp h
    cases Option.some.inj h
    rcases List.mem_cons.mp hx with rfl | hx
    · exact ⟨y, List.mem_cons_self, hy⟩
    · obtain ⟨w, hw, hf⟩ := ih hrest hx
      exact ⟨w, List.mem_cons_of_mem _ hw, hf⟩

theorem field?_pk (m : Message) : m.field? pk = some harpiaId := by
  have vars : m.vars = harpiaId :: (m.user ++ [harpiaStatus, harpiaError, harpiaOriginator]) := rfl
  rw [Message.field?, vars, List.find?_cons_of_pos]
  decide

theorem keyed_of_daoClass {S : Schema} {name : String} {dao : Dao}
    (h : daoClass S name = some dao) : Keyed dao := by
  obtain ⟨m, hm, h⟩ := Option.bind_eq_some_iff.mp h
  obtain ⟨columns, hcolumns, h⟩ := Option.bind_eq_some_iff.mp h
  obtain ⟨maps, hmaps, h⟩ := Option.bind_eq_some_iff.mp h
  obtain ⟨repeateds, hrepeateds, rfl⟩ := Option.map_eq_some_iff.mp h
  refine ⟨field?_pk m, ?_⟩
  obtain ⟨c, analyzed, bound, spec⟩ : ∃ c, c ∈ (analyzeVar sqlite S.types S.fuel m harpiaId).1 ∧
      ((c.bindable || c.embed ≠ [] || c.presenceOf ≠ []) && !c.fkTable) = true ∧
      columnSpec S.types m c = some { name := pk, path := ⟨[], pk⟩ } :=
    ⟨_, List.mem_singleton_self _, rfl, rfl⟩
  have there : c ∈ (analyze sqlite S.types S.fuel m).1 :=
    List.mem_flatMap.mpr ⟨_, List.mem_map_of_mem List.mem_cons_self, analyzed⟩
  have first : c ∈ boundColumns (analyze sqlite S.types S.fuel m).1 :=
    List.mem_append_left _ (List.mem_filter.mpr ⟨there, bound⟩)
  obtain ⟨col, hcol, found⟩ := exists_of_mapM hcolumns first
  cases spec.symm.trans found
  exact ⟨_, hcol, rfl, rfl, rfl, rfl, rfl⟩

theorem toDb_ne_null (x : Scalar) : toDb x ≠ .null := by
  cases x <;> exact Value.noConfusion

section Key

variable {E : DaoEnv} {dao : Dao} {p : KeyProvider}

theorem Keyed.pkValue_eq (h : Keyed dao) (m : Msg) :
    pkValue E dao m = some (toDb (attrValue harpiaId m)) := by
  rw [pkValue, bindValue, h.field]
  rfl

theorem Keyed.key_ne_null (h : Keyed dao) {m : Msg} {key : Value} (hkey : pkValue E dao m = some key) :
    key ≠ .null := by
  rw [h.pkValue_eq] at hkey
  cases hkey
  exact toDb_ne_null _

theorem Keyed.pkValue_set (h : Keyed dao) (m : Msg) (k : Int) :
    pkValue E dao (m.set pk (some (.scalar (.int k)))) = some (.int k) := by
  have read : (m.set pk (some (.scalar (.int k)))).scalar? harpiaId.name = some (.int k) := by
    rw [Msg.scalar?, Msg.get?_set, if_pos (by rfl)]
  rw [h.pkValue_eq, attrValue, read]
  rfl

theorem columnValue_key {col : DaoColumn} (path : col.path = ⟨[], pk⟩) (fk : col.fk = none)
    (presence : col.presence = false) (msg : Msg) :
    columnValue E.schema.types dao.message msg col = pkValue E dao msg := by
  simp only [columnValue, path, fk, presence, ownerOf, embedsSet, Option.bind_some,
    Option.isSome_none, Bool.false_eq_true, if_false, if_true]
  rfl

/-- What is bound for the key's column is the key. -/
theorem keyColumn_bound {col : DaoColumn} {msg : Msg} {cell : Cell} (path : col.path = ⟨[], pk⟩)
    (fk : col.fk = none) (phi : col.phi = false) (presence : col.presence = false)
    (bound : (bindColumn E p dao msg col).CanReturn cell) :
    pkValue E dao msg = some cell.value := by
  unfold bindColumn at bound
  rw [if_neg (by simp [phi]), columnValue_key path fk presence] at bound
  obtain ⟨v, hv, returned⟩ := Calls.canReturn_bind bound
  cases returned
  cases key : pkValue E dao msg with
  | none =>
    rw [key] at hv
    exact hv.elim
  | some k =>
    rw [key] at hv
    cases hv
    rfl

end Key

section Insert

variable {E : DaoEnv} {p : KeyProvider} {root d : Dao} {held : Set (String × Value)}
  {exec : (r : Request) → DbSession → Option (Answer r × DbSession)}
  (separate : SeparateTables E.schema root) (hd : StoredThrough E.schema root d) (keyed : Keyed d)
  (raises : MayRaise exec)

include separate hd keyed raises

/-- The row that `insertRow` adds is the one of the key. -/
theorem insertRow_stands (msg : Msg) :
    Triple (Stands E.schema root held) ((insertRow E p d setKey msg).attempt exec)
      (fun msg' s => ∃ key, (pkValue E d msg' = some key ∧ key ≠ .null) ∧
        Stands E.schema root (insert (d.table, key) held) s) fun _ => True := by
  have bind : ∀ columns : List DaoColumn, Triple (Stands E.schema root held)
      ((Calls.collect (bindColumn E p d msg) columns).attempt exec)
      (fun cells s => List.Forall₂ (fun col cell => (bindColumn E p d msg col).CanReturn cell)
        columns cells ∧ Stands E.schema root held s) fun _ => True := fun columns =>
    have kept : Triple (Stands E.schema root held)
        ((Calls.collect (bindColumn E p d msg) columns).attempt exec)
        (fun _ => Stands E.schema root held) fun _ => True := stands_of_only raises
      (.collect fun col _ => bindColumn_only keeping_tokenBytes msg col)
    ⟨fun hs he => ⟨Calls.canReturn_collect (Calls.canReturn_of_attempt he), kept.ends hs he⟩,
      fun _ _ => trivial⟩
  refine Calls.triple_some_bind (fun key hkey => ?_) fun _ _ => trivial
  split
  · refine Calls.triple_bind (bind _) fun cells => triple_pure fun bound => ?_
    refine Calls.triple_bind (Q := fun row s => row.get pk ≠ .null →
      Stands E.schema root (insert (d.table, row.get pk) held) s) ?_ fun row => ?_
    · refine Calls.triple_send (fun s row s' hs answered given => ?_) fun _ _ _ => trivial
      obtain ⟨out, inserted, same⟩ := Option.map_eq_some_iff.mp (raises _ _ _ answered)
      obtain ⟨rfl, rfl⟩ := Prod.mk.inj same
      exact hs.insert_row separate hd inserted rfl given
    · split
      next k hk =>
        refine Calls.triple_some_bind (fun assigned same => ?_) fun _ _ => trivial
        obtain rfl := setKey_eq same
        refine triple_ret fun s hs => ⟨.int assigned, ⟨keyed.pkValue_set msg assigned, Value.noConfusion⟩, ?_⟩
        rw [← hk]
        exact hs (by rw [hk]; exact Value.noConfusion)
      next => exact triple_fail fun _ _ => trivial
  · refine Calls.triple_bind (bind _) fun cells => triple_pure fun bound => ?_
    have given := keyed.key_ne_null hkey
    refine Calls.triple_bind (Q := fun _ => Stands E.schema root (insert (d.table, key) held)) ?_
      fun row => triple_ret fun s hs => ⟨key, ⟨hkey, given⟩, hs⟩
    refine Calls.triple_send (fun s row s' hs answered => ?_) fun _ _ _ => trivial
    obtain ⟨out, inserted, same⟩ := Option.map_eq_some_iff.mp (raises _ _ _ answered)
    obtain ⟨rfl, rfl⟩ := Prod.mk.inj same
    refine hs.insert_row separate hd inserted ?_ given
    -- the cell of the key's column
    obtain ⟨col, hcol, name, path, fk, phi, presence⟩ := keyed.column
    obtain ⟨cell, hcell, can⟩ := exists_of_forall₂ bound hcol
    have value := keyColumn_bound path fk phi presence can
    have named := Calls.canReturn_ensures can (bindColumn_column msg col)
    have columns : cells.map Cell.column = d.columns.map DaoColumn.name :=
      map_eq_of_forall₂ bound fun col cell can =>
        Calls.canReturn_ensures (Q := fun cell => cell.column = col.name) can (bindColumn_column msg col)
    have nodup : ((cells.map Cell.binding).map fun e => fold e.1).Nodup := by
      have distinct : ((d.columns.map DaoColumn.name).map fold).Nodup := by
        rw [List.map_map]
        exact separate.columns d hd
      rw [← columns, List.map_map] at distinct
      rw [List.map_map]
      exact distinct
    have stored := Db.stores_of_insert inserted nodup _ (List.mem_map_of_mem hcell)
    have column : cell.column = pk := named.trans name
    have binding : Cell.binding cell = (pk, key) := by
      rw [hkey] at value
      rw [Cell.binding, column, ← Option.some.inj value]
    rw [binding] at stored
    exact stored.resolve_left given

end Insert

end Harpia
