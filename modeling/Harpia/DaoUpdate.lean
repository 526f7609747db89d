import Harpia.DaoContent
import Harpia.Lib.ProtoReads

namespace Harpia

open Sqlite Proto Attempt

section Requests

variable {α β γ : Type} {dao : Dao} {key : Value} {before : Db} {row : Row → Prop}
  {put : List (String × List Entry)}

/-- `Progress` of a session's database. -/
def StoredSoFar (dao : Dao) (key : Value) (before : Db) (row : Row → Prop)
    (put : List (String × List Entry)) (s : DbSession) : Prop :=
  Progress dao key before row put s.db

/-- `OthersKept` of a session's database. -/
def Spared (dao : Dao) (key : Value) (before : Db) (s : DbSession) : Prop :=
  OthersKept dao key before s.db

theorem Leaves.reached {p : Attempt DbSession α} (h : Leaves (fun t => t ∈ dao.tables) p) :
    Triple (StoredSoFar dao key before row put) p (fun _ => StoredSoFar dao key before row put)
      (Spared dao key before) := by
  have both := h.keeps (P := StoredSoFar dao key before row put) fun s s' hs same => hs.leaves same
  exact ⟨fun hs he => both.ends hs he, fun hs he => (both.fails hs he).kept⟩

variable (names : dao.DistinctNames) {child : DaoChild} (hc : child ∈ dao.children)
  (fresh : ∀ e ∈ put, fold e.1 ≠ fold child.table)

include names hc fresh

theorem delete_reaches : Triple (StoredSoFar dao key before row put)
    ((Cursor.delete child.table "owner" key).attempt Request.exec)
    (fun _ => StoredSoFar dao key before row (put ++ [(child.table, [])])) (Spared dao key before) := by
  refine Calls.triple_send (fun s count s' hs answered => ?_) fun s hs _ => hs.kept
  obtain ⟨out, deleted, same⟩ := Option.map_eq_some_iff.mp answered
  obtain ⟨rfl, rfl⟩ := Prod.mk.inj same
  exact hs.delete names hc fresh deleted

theorem insert_reaches (hk : key ≠ .null) (cells : List Cell) {entry : Option Entry}
    (he : entry = some (cells.map Cell.binding))
    (nodup : ((cells.map Cell.column).map fold).Nodup)
    (given : ("owner", key) ∈ cells.map Cell.binding) (entries : List Entry) :
    Triple (StoredSoFar dao key before row (put ++ [(child.table, entries)]))
      ((Cursor.insert child.table cells).attempt Request.exec)
      (fun _ s => ∃ e, entry = some e ∧
        StoredSoFar dao key before row (put ++ [(child.table, entries ++ [e])]) s)
      (Spared dao key before) := by
  refine Calls.triple_send (fun s r s' hs answered => ⟨_, he, ?_⟩) fun s hs _ => hs.kept
  obtain ⟨out, inserted, same⟩ := Option.map_eq_some_iff.mp answered
  obtain ⟨rfl, rfl⟩ := Prod.mk.inj same
  have apart : ((cells.map Cell.binding).map fun e => fold e.1).Nodup := by
    rw [List.map_map] at nodup ⊢
    exact nodup
  exact hs.insert names hc fresh apart given hk inserted

end Requests

section Loops

variable {α β γ : Type} {dao : Dao} {key : Value} {before : Db} {row : Row → Prop}
  {put : List (String × List Entry)} {table : String} {entry : γ → Option Entry}

theorem mapM_snoc {done : List γ} {x : γ} {es : List Entry} {e : Entry}
    (h : done.mapM entry = some es) (he : entry x = some e) :
    (done ++ [x]).mapM entry = some (es ++ [e]) := by
  simp [List.mapM_append, h, he]

theorem mapM_some {δ : Type} (g : γ → δ) (xs : List γ) :
    xs.mapM (fun x => some (g x)) = some (xs.map g) := List.mapM_pure

/-- A loop in which each step puts one row of the child table. -/
theorem collect_reaches {f : γ → Cursor β} {xs : List γ}
    (step : ∀ x es, Triple (StoredSoFar dao key before row (put ++ [(table, es)]))
      ((f x).attempt Request.exec)
      (fun _ s => ∃ e, entry x = some e ∧
        StoredSoFar dao key before row (put ++ [(table, es ++ [e])]) s) (Spared dao key before)) :
    Triple (StoredSoFar dao key before row (put ++ [(table, [])]))
      ((Calls.collect f xs).attempt Request.exec)
      (fun _ s => ∃ es, xs.mapM entry = some es ∧
        StoredSoFar dao key before row (put ++ [(table, es)]) s) (Spared dao key before) := by
  refine triple_mono (Calls.triple_collect (fun done _ s => ∃ es, done.mapM entry = some es ∧
    StoredSoFar dao key before row (put ++ [(table, es)]) s) ?_) (fun s hs => ⟨[], rfl, hs⟩)
    fun _ _ hs => hs
  intro done out x rest _
  exact triple_exists fun es => triple_pure fun hes => triple_mono (step x es)
    (fun _ hs => hs) fun _ s ⟨e, he, hs⟩ => ⟨es ++ [e], mapM_snoc hes he, hs⟩

theorem each_reaches {f : γ → Attempt DbSession Unit} {xs : List γ}
    (step : ∀ x es, Triple (StoredSoFar dao key before row (put ++ [(table, es)])) (f x)
      (fun _ s => ∃ e, entry x = some e ∧
        StoredSoFar dao key before row (put ++ [(table, es ++ [e])]) s) (Spared dao key before)) :
    Triple (StoredSoFar dao key before row (put ++ [(table, [])])) (Attempt.each f xs)
      (fun _ s => ∃ es, xs.mapM entry = some es ∧
        StoredSoFar dao key before row (put ++ [(table, es)]) s) (Spared dao key before) := by
  refine triple_mono (triple_each (fun done s => ∃ es, done.mapM entry = some es ∧
    StoredSoFar dao key before row (put ++ [(table, es)]) s) ?_) (fun s hs => ⟨[], rfl, hs⟩)
    fun _ _ hs => hs
  intro done x rest _
  exact triple_exists fun es => triple_pure fun hes => triple_mono (step x es)
    (fun _ hs => hs) fun _ s ⟨e, he, hs⟩ => ⟨es ++ [e], mapM_snoc hes he, hs⟩

end Loops

/-- The cells of an element's columns, and the values they give. -/
theorem elementCells_binding {dao : Dao} {child : DaoChild} {value : DaoColumn → Option Value} {columns : List DaoColumn}
    {cells : List Cell}
    (h : columns.mapM (fun col => (value col).map (elementCell dao child col)) = some cells) :
    columns.mapM (fun col => (value col).map fun v => (col.name, v)) =
        some (cells.map Cell.binding) ∧
      cells.map Cell.column = columns.map DaoColumn.name := by
  induction columns generalizing cells with
  | nil =>
    cases h
    exact ⟨rfl, rfl⟩
  | cons col columns ih =>
    rw [List.mapM_cons] at h ⊢
    obtain ⟨cell, hcell, h⟩ := Option.bind_eq_some_iff.mp h
    obtain ⟨rest, hrest, h⟩ := Option.bind_eq_some_iff.mp h
    obtain ⟨v, hv, rfl⟩ := Option.map_eq_some_iff.mp hcell
    cases h
    obtain ⟨bound, named⟩ := ih hrest
    rw [hv, bound, List.map_cons, List.map_cons, List.map_cons, named]
    exact ⟨rfl, rfl⟩

theorem mapNames_distinct : (["owner", "key", "value"].map fold).Nodup := by decide +kernel

theorem listNames_distinct : (["owner", "ordinal", "value"].map fold).Nodup := by decide +kernel

section Children

variable {E : DaoEnv} {dao : Dao} {key : Value} {before : Db} {row : Row → Prop}
  {put : List (String × List Entry)} (names : dao.DistinctNames) {child : DaoChild}
  (hc : child ∈ dao.children) (fresh : ∀ e ∈ put, fold e.1 ≠ fold child.table) (hk : key ≠ .null)

include names hc fresh hk

theorem writeMap_reaches (field : Variable) (m : Msg) :
    Triple (StoredSoFar dao key before row (put ++ [(child.table, [])]))
      ((writeMap dao key child field m).attempt Request.exec)
      (fun _ => StoredSoFar dao key before row (put ++ [(child.table,
        (m.map field.name).entries.map fun e =>
          [("owner", key), ("key", toDb e.1), ("value", toDb e.2)])])) (Spared dao key before) := by
  unfold writeMap
  split
  · exact triple_fail fun s hs => hs.kept
  · refine Calls.triple_bind (collect_reaches fun e => insert_reaches names hc fresh hk
      [ownerCell dao key, childCell dao child "key" (toDb e.1),
        childCell dao child "value" (toDb e.2)] rfl mapNames_distinct List.mem_cons_self) ?_
    refine fun _ => triple_ret fun s ⟨es, all, hs⟩ => ?_
    rw [mapM_some] at all
    cases all
    exact hs

theorem writeRepeated_reaches (field : Variable) (m : Msg) :
    Triple (StoredSoFar dao key before row (put ++ [(child.table, [])]))
      ((writeRepeated E dao key child field m).attempt Request.exec)
      (fun _ s => ∃ items, iterate E field m = some items ∧
        StoredSoFar dao key before row (put ++ [(child.table, items.zipIdx.map fun e =>
          [("owner", key), ("ordinal", .int e.2), ("value", toDb e.1)])]) s)
      (Spared dao key before) := by
  refine Calls.triple_some_bind (fun items hi => ?_) fun s hs => hs.kept
  refine Calls.triple_bind (collect_reaches fun e => insert_reaches names hc fresh hk
    [ownerCell dao key, ordinalCell e.2, childCell dao child "value" (toDb e.1)] rfl
    listNames_distinct List.mem_cons_self) ?_
  refine fun _ => triple_ret fun s ⟨es, all, hs⟩ => ⟨items, hi, ?_⟩
  rw [mapM_some] at all
  cases all
  exact hs

theorem composed_reaches {columns : List DaoColumn} (kind : child.kind = .composed columns)
    (value : Msg → DaoColumn → Option Value) (items : List Msg) :
    Triple (StoredSoFar dao key before row (put ++ [(child.table, [])]))
      ((Calls.collect (fun e => do
        let cells ← Calls.collect (fun col => do
          let v ← Calls.ofOption (value e.1 col)
          return elementCell dao child col v) columns
        Cursor.insert child.table (ownerCell dao key :: ordinalCell e.2 :: cells))
        items.zipIdx : Cursor (List Row)).attempt Request.exec)
      (fun _ s => ∃ es, (items.zipIdx.mapM fun e =>
          (columns.mapM fun col => (value e.1 col).map fun v => (col.name, v)).map
            fun cells => ("owner", key) :: ("ordinal", .int e.2) :: cells) = some es ∧
        StoredSoFar dao key before row (put ++ [(child.table, es)]) s) (Spared dao key before) := by
  refine collect_reaches fun e es => ?_
  simp only [Calls.ofOption_bind_ret, Calls.collect_ofOption]
  refine Calls.triple_some_bind (fun cells hcells => ?_) fun s hs => hs.kept
  obtain ⟨bound, named⟩ := elementCells_binding hcells
  refine insert_reaches names hc fresh hk (ownerCell dao key :: ordinalCell e.2 :: cells) ?_ ?_
    List.mem_cons_self es
  · rw [bound]
    rfl
  · have distinct := names.elements child hc columns kind
    rw [← named] at distinct
    exact distinct

end Children

section Links

variable {E : DaoEnv} {dao : Dao} {key : Value} {before : Db} {row : Row → Prop}
  {put : List (String × List Entry)}

/-- A child is stored elsewhere, and comes back as it was. -/
structure StoredApart (dao : Dao) (recur : Msg → Cursor Msg) : Prop where
  leaves : ∀ m, Leaves (fun t => t ∈ dao.tables) ((recur m).attempt Request.exec)
  returns : ∀ m, (recur m).Ensures (fun _ => True) fun m' => m' = m

variable (names : dao.DistinctNames) {child : DaoChild} (hc : child ∈ dao.children)
  (fresh : ∀ e ∈ put, fold e.1 ≠ fold child.table) (hk : key ≠ .null)

theorem writeLinks_returns {recur : Msg → Cursor Msg}
    (returns : ∀ m, (recur m).Ensures (fun _ => True) fun m' => m' = m)
    (field : Variable) (m : Msg) :
    (writeLinks E dao recur key child field m).Ensures (fun _ => True)
      fun items => items = m.elements field.name := by
  refine Calls.ensures_bind (Calls.ensures_ofOption fun elem _ => ?_)
  refine Calls.ensures_mono (Calls.ensures_collect_map (g := Prod.fst) fun e _ => ?_) ?_
  · refine Calls.ensures_bind (Calls.ensures_mono (returns e.1) fun item hitem => ?_)
    refine Calls.ensures_bind (Calls.ensures_ofOption fun key _ => ?_)
    exact ⟨trivial, fun _ => hitem⟩
  · intro items hitems
    rw [hitems, List.zipIdx_map_fst]

include names hc fresh hk

theorem writeLinks_reaches {recur : Msg → Cursor Msg} (apart : StoredApart dao recur)
    (field : Variable) (m : Msg) :
    Triple (StoredSoFar dao key before row (put ++ [(child.table, [])]))
      ((writeLinks E dao recur key child field m).attempt Request.exec)
      (fun items s => items = m.elements field.name ∧ ∃ es, linkEntries E key field m = some es ∧
        StoredSoFar dao key before row (put ++ [(child.table, es)]) s) (Spared dao key before) := by
  refine Calls.triple_and ?_ (writeLinks_returns apart.returns field m)
  refine Calls.triple_some_bind (fun elem he => ?_) fun s hs => hs.kept
  simp only [linkEntries, he, Option.bind_some]
  refine collect_reaches fun e es => ?_
  refine Calls.triple_bind (Calls.triple_and (apart.leaves e.1).reached (apart.returns e.1)) ?_
  intro item
  refine triple_pure fun hitem => ?_
  rw [hitem]
  refine Calls.triple_some_bind (fun elemKey hkey => ?_) fun s hs => hs.kept
  refine Calls.triple_bind (insert_reaches names hc fresh hk
    [ownerCell dao key, ordinalCell e.2, childCell dao child "value" elemKey] ?_ listNames_distinct
    List.mem_cons_self es) fun _ => triple_ret fun _ hs => hs
  rw [hkey]
  rfl

theorem cppRewriteLinks_reaches {nested : Msg → Attempt DbSession Unit}
    (apart : ∀ m, Leaves (fun t => t ∈ dao.tables) (nested m)) (field : Variable) (m : Msg) :
    Triple (StoredSoFar dao key before row (put ++ [(child.table, [])]))
      (cppRewriteLinks Request.exec E dao nested key child field m)
      (fun _ s => ∃ es, linkEntries E key field m = some es ∧
        StoredSoFar dao key before row (put ++ [(child.table, es)]) s) (Spared dao key before) := by
  refine triple_some_bind (fun elem he => ?_) fun s hs => hs.kept
  simp only [linkEntries, he, Option.bind_some]
  refine each_reaches fun e es => triple_bind (apart e.1).reached fun _ => ?_
  refine triple_some_bind (fun elemKey hkey => ?_) fun s hs => hs.kept
  refine triple_bind (insert_reaches names hc fresh hk
    [ownerCell dao key, ordinalCell e.2, childCell dao child "value" elemKey] ?_ listNames_distinct
    List.mem_cons_self es) fun _ => triple_ret fun _ hs => hs
  rw [hkey]
  rfl

end Links

section Reads

variable {E : DaoEnv} {types : Types} {m m' : Msg}

theorem ownerOf_eq (steps : List String) (d : Message) (m : Msg) :
    ownerOf types steps d m =
      (ownerOf types steps d .empty).map fun o => (o.1, m.inner steps) := by
  induction steps generalizing d m with
  | nil => rfl
  | cons step steps ih =>
    unfold ownerOf
    cases (d.field? step).bind (subType types) with
    | none => rfl
    | some sub =>
      rw [Option.bind_some, Option.bind_some, ih, Msg.inner_cons]
      rfl

theorem iterate_congr (h : m.SameReads m') (field : Variable) :
    iterate E field m' = iterate E field m := by
  simp only [iterate, attrValue, h.scalar, h.map, h.list, h.elements]

/-- What a child table is to hold is read from the values of the message. -/
theorem childTableEntries_congr {value : Message → Msg → DaoColumn → Option Value} (h : m.Agrees m')
    (dao : Dao) (key : Value) (child : DaoChild) :
    childTableEntries E value dao key m' child = childTableEntries E value dao key m child := by
  have reads := h child.path.owner
  unfold childTableEntries
  rw [ownerOf_eq _ _ m', ownerOf_eq _ _ m]
  cases ownerOf E.schema.types child.path.owner dao.message .empty with
  | none => rfl
  | some base =>
    simp only [Option.map_some, Option.bind_some]
    simp only [linkEntries, reads.map, reads.elements, iterate_congr reads]

end Reads

section Tables

variable {E : DaoEnv} {dao : Dao} {key : Value} {before : Db} {row : Row → Prop}
  {put : List (String × List Entry)} (names : dao.DistinctNames) {child : DaoChild}
  (hc : child ∈ dao.children) (fresh : ∀ e ∈ put, fold e.1 ≠ fold child.table) (hk : key ≠ .null)

include names hc fresh hk

theorem insertChild_reaches {recur : String → Msg → Cursor Msg}
    (apart : ∀ target, child.kind = .repeated (some target) → StoredApart dao (recur target))
    (msg : Msg) :
    Triple (StoredSoFar dao key before row (put ++ [(child.table, [])]))
      ((insertChild E dao recur key msg child).attempt Request.exec)
      (fun msg' s => msg.Agrees msg' ∧ ∃ es,
        childTableEntries E (columnValue E.schema.types) dao key msg child = some es ∧
          StoredSoFar dao key before row (put ++ [(child.table, es)]) s) (Spared dao key before) := by
  refine Calls.triple_some_bind (fun base hb => ?_) fun s hs => hs.kept
  refine Calls.triple_some_bind (fun field hf => ?_) fun s hs => hs.kept
  split
  · next kind =>
    refine Calls.triple_bind (writeMap_reaches names hc fresh hk field base.2) fun _ => ?_
    refine triple_ret fun s hs => ⟨.refl msg, _, ?_, hs⟩
    simp only [childTableEntries, hb, hf, Option.bind_some, kind]
  · next kind =>
    refine Calls.triple_bind (writeRepeated_reaches names hc fresh hk field base.2) fun _ => ?_
    refine triple_ret fun s ⟨items, hi, hs⟩ => ⟨.refl msg, _, ?_, hs⟩
    simp only [childTableEntries, hb, hf, Option.bind_some, kind, hi, Option.map_some]
  · next target kind =>
    refine Calls.triple_bind (writeLinks_reaches names hc fresh hk (apart target kind) field base.2)
      fun items => ?_
    refine triple_pure fun hitems => triple_exists fun es => triple_pure fun hes => ?_
    have entries : childTableEntries E (columnValue E.schema.types) dao key msg child = some es := by
      simp only [childTableEntries, hb, hf, Option.bind_some, kind, hes]
    split
    · exact triple_ret fun s hs => ⟨.refl msg, es, entries, hs⟩
    next some_ =>
      refine Calls.triple_ofOption (fun msg' s hm hs => ⟨?_, es, entries, hs⟩) fun s hs => hs.kept
      have here : base.2 = msg.inner child.path.owner := by
        rw [ownerOf_eq] at hb
        obtain ⟨o, _, rfl⟩ := Option.map_eq_some_iff.mp hb
        rfl
      have held : (msg.inner child.path.owner).elements field.name ≠ [] := by
        rw [← here, ← hitems]
        simpa using some_
      rw [hitems, here] at hm
      refine (Msg.modify_alike (Msg.at?_of_elements held) (fun o' ho' => ?_) hm).agrees
      cases ho'
      exact Msg.set_elements_keeps held
  · next columns kind =>
    refine Calls.triple_bind (Q := fun _ s => ∃ es,
      childTableEntries E (columnValue E.schema.types) dao key msg child = some es ∧
        StoredSoFar dao key before row (put ++ [(child.table, es)]) s) ?_
      fun _ => triple_ret fun s hs => ⟨.refl msg, hs⟩
    refine Calls.triple_some_bind (fun elem he => ?_) fun s hs => hs.kept
    refine Calls.triple_bind (composed_reaches names hc fresh hk kind _ _) fun _ => ?_
    refine triple_ret fun s ⟨es, hes, hs⟩ => ⟨es, ?_, hs⟩
    simp only [childTableEntries, hb, hf, Option.bind_some, kind, he, hes]

theorem cppRewriteChild_reaches {nested : String → Msg → Attempt DbSession Unit}
    (apart : ∀ target, child.kind = .repeated (some target) →
      ∀ m, Leaves (fun t => t ∈ dao.tables) (nested target m)) (msg : Msg) :
    Triple (StoredSoFar dao key before row put) (cppRewriteChild Request.exec E dao nested key msg child)
      (fun _ s => ∃ es, childTableEntries E (cppElementValue E.schema.types) dao key msg child = some es ∧
        StoredSoFar dao key before row (put ++ [(child.table, es)]) s) (Spared dao key before) := by
  refine triple_some_bind (fun base hb => ?_) fun s hs => hs.kept
  refine triple_some_bind (fun field hf => ?_) fun s hs => hs.kept
  refine triple_bind (delete_reaches names hc fresh) fun _ => ?_
  split
  · next kind =>
    refine triple_mono (writeMap_reaches names hc fresh hk field base.2) (fun _ hs => hs) ?_
    refine fun _ s hs => ⟨_, ?_, hs⟩
    simp only [childTableEntries, hb, hf, Option.bind_some, kind]
  · next kind =>
    refine triple_mono (writeRepeated_reaches names hc fresh hk field base.2) (fun _ hs => hs) ?_
    refine fun _ s ⟨items, hi, hs⟩ => ⟨_, ?_, hs⟩
    simp only [childTableEntries, hb, hf, Option.bind_some, kind, hi, Option.map_some]
  · next target kind =>
    refine triple_mono (cppRewriteLinks_reaches names hc fresh hk (apart target kind) field base.2)
      (fun _ hs => hs) fun _ s ⟨es, hes, hs⟩ => ⟨es, ?_, hs⟩
    simp only [childTableEntries, hb, hf, Option.bind_some, kind, hes]
  · next columns kind =>
    refine Calls.triple_some_bind (fun elem he => ?_) fun s hs => hs.kept
    refine Calls.triple_bind (composed_reaches names hc fresh hk kind _ _) fun _ => ?_
    refine triple_ret fun s ⟨es, hes, hs⟩ => ⟨es, ?_, hs⟩
    simp only [childTableEntries, hb, hf, Option.bind_some, kind, he, hes]

end Tables

end Harpia
