import Harpia.DaoCreateRow

namespace Harpia

open Text Sqlite Proto Attempt

/-- The entries of a child table are what they were where its field is. -/
theorem childTableEntries_changed {E : DaoEnv} {value : Message → Msg → DaoColumn → Option Value}
    {dao : Dao} {owner : Value} {a b : Msg} {child : DaoChild} {fields : List (List String)}
    (h : a.Changed fields b)
    (apart : ∀ f ∈ fields, ¬ f <+: child.path.steps ∧ ¬ child.path.steps <+: f) :
    childTableEntries E value dao owner b child = childTableEntries E value dao owner a child := by
  unfold childTableEntries
  rw [ownerOf_eq child.path.owner dao.message b, ownerOf_eq child.path.owner dao.message a]
  cases ownerOf E.schema.types child.path.owner dao.message .empty with
  | none => rfl
  | some o =>
    simp only [Option.map_some, Option.bind_some]
    cases found : o.1.field? child.path.field with
    | none => rfl
    | some field =>
      have same : (b.inner child.path.owner).get? field.name =
          (a.inner child.path.owner).get? field.name := by
        rw [field?_name found]
        exact h.same _ _ apart
      have map : (b.inner child.path.owner).map field.name =
          (a.inner child.path.owner).map field.name := by simp only [Msg.map, same]
      have list : (b.inner child.path.owner).list field.name =
          (a.inner child.path.owner).list field.name := by simp only [Msg.list, same]
      have elements : (b.inner child.path.owner).elements field.name =
          (a.inner child.path.owner).elements field.name := by simp only [Msg.elements, same]
      have value : attrValue field (b.inner child.path.owner) =
          attrValue field (a.inner child.path.owner) := by simp only [attrValue, Msg.scalar?, same]
      have items : iterate E field (b.inner child.path.owner) =
          iterate E field (a.inner child.path.owner) := by
        unfold iterate
        rw [map, list, elements, value]
      have links : linkEntries E owner field (b.inner child.path.owner) =
          linkEntries E owner field (a.inner child.path.owner) := by
        rw [linkEntries, linkEntries, elements]
      rw [Option.bind_some, Option.bind_some, map, items, links, elements]

section Loops

variable {R : ReadEnv} {root d : Dao} {providers : Set KeyProvider} {key : Value} {r : Row}
  {J : Db → Prop} {stored : DaoChild → List Entry}

/-- A row is in place under the key, with these entries, and something else is known. -/
def Writing (S : Schema) (root : Dao) (providers : Set KeyProvider) (d : Dao) (key : Value) (r : Row)
    (stored : DaoChild → List Entry) (J : Db → Prop) (s : DbSession) : Prop :=
  StoreReady S root providers s ∧ Filled d key r stored s.db ∧ J s.db

/-- What is known outlives the insertions for the key. -/
def Lasting (S : Schema) (root d : Dao) (key : Value) (J : Db → Prop) : Prop :=
  ∀ db db', Undisturbed S root (otherKeys d key) db db' → J db → J db'

variable (separate : SeparateTables R.schema root) (hd : StoredThrough R.schema root d)
  {child : DaoChild} (hc : child ∈ d.children) (hk : key ≠ .null)
  (lasting : Lasting R.schema root d key J)

include separate hd hc hk lasting

theorem insert_writes (cells : List Cell) {entry : Option Entry}
    (he : entry = some (("owner", key) :: cells.map Cell.binding))
    (nodup : (("owner" :: cells.map Cell.column).map fold).Nodup) (es : List Entry) :
    Triple (Writing R.schema root providers d key r (Function.update stored child es) J)
      ((Cursor.insert child.table (ownerCell d key :: cells)).attempt Request.exec)
      (fun _ s => ∃ e, entry = some e ∧
        Writing R.schema root providers d key r (Function.update stored child (es ++ [e])) J s)
      fun _ => True := by
  apply Calls.triple_send
  · intro s row s' ⟨ready, filled, known⟩ answered
    obtain ⟨out, done, same⟩ := Option.map_eq_some_iff.mp answered
    obtain ⟨rfl, rfl⟩ := Prod.mk.inj same
    refine ⟨_, he, ?_⟩
    have distinct : ((("owner", key) :: cells.map Cell.binding).map fun e => fold e.1).Nodup := by
      rw [List.map_cons, List.map_map] at nodup ⊢
      exact nodup
    have given : out.2.get "owner" = key := Db.insert_first done hk
    have place := Dao.child_place hc
    have since := undisturbed_insert separate hd place done given hk
    refine ⟨⟨?_, ready.tables.congr since.columns, ready.opens⟩, ?_, lasting _ _ since known⟩
    · have standing : Standing R.schema root {(d.table, key)} s.db := by
        refine ⟨ready.owners, fun e he => ?_⟩
        rw [Set.mem_singleton_iff.mp he]
        exact ⟨⟨d, hd, rfl⟩, filled.present⟩
      exact (standing.insert_child separate hd hc done given hk (Set.mem_singleton _)).owners
    · have more := filled.insert separate hd ready.tables hc distinct done given hk
      rw [Function.update_self, Function.update_idem] at more
      exact more
  · exact fun _ _ _ => trivial

omit separate hd hc hk lasting in
/-- A loop in which each step puts one row of the child table. -/
theorem collect_writes {β γ : Type} {f : γ → Cursor β} {xs : List γ} {entry : γ → Option Entry}
    (step : ∀ x es, Triple (Writing R.schema root providers d key r (Function.update stored child es) J)
      ((f x).attempt Request.exec)
      (fun _ s => ∃ e, entry x = some e ∧
        Writing R.schema root providers d key r (Function.update stored child (es ++ [e])) J s)
      fun _ => True) :
    Triple (Writing R.schema root providers d key r (Function.update stored child []) J)
      ((Calls.collect f xs).attempt Request.exec)
      (fun _ s => ∃ es, xs.mapM entry = some es ∧
        Writing R.schema root providers d key r (Function.update stored child es) J s)
      fun _ => True := by
  refine triple_mono (Calls.triple_collect (fun done _ s => ∃ es, done.mapM entry = some es ∧
    Writing R.schema root providers d key r (Function.update stored child es) J s) ?_)
    (fun s hs => ⟨[], rfl, hs⟩) fun _ _ hs => hs
  intro done out x rest _
  apply triple_exists
  intro es
  apply triple_pure
  intro so_far
  apply triple_mono (step x es) (fun _ hs => hs)
  intro _ s ⟨e, he, hs⟩
  exact ⟨es ++ [e], mapM_snoc so_far he, hs⟩

theorem writeMap_writes (field : Variable) (m : Msg) :
    Triple (Writing R.schema root providers d key r (Function.update stored child []) J)
      ((writeMap d key child field m).attempt Request.exec)
      (fun _ => Writing R.schema root providers d key r (Function.update stored child
        ((m.map field.name).entries.map fun e =>
          [("owner", key), ("key", toDb e.1), ("value", toDb e.2)])) J) fun _ => True := by
  unfold writeMap
  split
  · exact triple_fail fun _ _ => trivial
  · refine Calls.triple_bind (collect_writes fun e es =>
      insert_writes separate hd hc hk lasting [childCell d child "key" (toDb e.1),
        childCell d child "value" (toDb e.2)] rfl mapNames_distinct es) fun _ => ?_
    apply triple_ret
    intro s ⟨es, all, hs⟩
    rw [mapM_some] at all
    cases all
    exact hs

theorem writeRepeated_writes (field : Variable) (m : Msg) :
    Triple (Writing R.schema root providers d key r (Function.update stored child []) J)
      ((writeRepeated R.toDaoEnv d key child field m).attempt Request.exec)
      (fun _ s => ∃ items, iterate R.toDaoEnv field m = some items ∧
        Writing R.schema root providers d key r (Function.update stored child
          (items.zipIdx.map fun e => [("owner", key), ("ordinal", .int e.2), ("value", toDb e.1)])) J s)
      fun _ => True := by
  refine Calls.triple_some_bind (fun items hi => ?_) fun _ _ => trivial
  refine Calls.triple_bind (collect_writes fun e es =>
    insert_writes separate hd hc hk lasting [ordinalCell e.2, childCell d child "value" (toDb e.1)]
      rfl listNames_distinct es) fun _ => ?_
  apply triple_ret
  intro s ⟨es, all, hs⟩
  rw [mapM_some] at all
  cases all
  exact ⟨items, hi, hs⟩

theorem writeComposed_writes {columns : List DaoColumn}
    (names : (("owner" :: "ordinal" :: columns.map DaoColumn.name).map fold).Nodup) (field : Variable)
    (m : Msg) :
    Triple (Writing R.schema root providers d key r (Function.update stored child []) J)
      ((writeComposed R.toDaoEnv d key child columns field m).attempt Request.exec)
      (fun _ s => ∃ es, (elementsType R.toDaoEnv field).bind (fun elem =>
          (m.elements field.name).zipIdx.mapM fun e =>
            (columns.mapM fun col => (columnValue R.schema.types elem e.1 col).map fun v =>
              (col.name, v)).map fun cells => ("owner", key) :: ("ordinal", .int e.2) :: cells) =
            some es ∧
        Writing R.schema root providers d key r (Function.update stored child es) J s)
      fun _ => True := by
  refine Calls.triple_some_bind (fun elem type => ?_) fun _ _ => trivial
  rw [type, Option.bind_some]
  refine Calls.triple_bind (collect_writes fun e es => ?_) fun _ =>
    triple_ret fun s hs => hs
  simp only [Calls.ofOption_bind_ret, Calls.collect_ofOption]
  refine Calls.triple_some_bind (fun cells hcells => ?_) fun _ _ => trivial
  obtain ⟨bound, named⟩ := elementCells_binding hcells
  apply insert_writes separate hd hc hk lasting (ordinalCell e.2 :: cells)
  · rw [bound]
    rfl
  · rw [← named] at names
    exact names

end Loops

section Links

variable {R : ReadEnv} {root d : Dao} {providers : Set KeyProvider} {key : Value} {r : Row}
  {J : Db → Prop} {stored : DaoChild → List Entry} {fuel : Nat} {start : Db}

/-- Messages of other tables are stored in full, under keys that were free, and what is known of the
rest outlives it. -/
def StoresBelow (R : ReadEnv) (root : Dao) (providers : Set KeyProvider) (fuel : Nat) (d : Dao)
    (recur : String → Msg → Cursor Msg) : Prop :=
  ∀ target m (J : Db → Prop),
    (∀ d', daoClass R.schema target = some d' → StoresThrough R.schema d d') →
    (∀ db db', Undisturbed R.schema root anyKey db db' → J db → J db') →
    Triple (StoreReadyWith R.schema root providers J) ((recur target m).attempt Request.exec)
      (fun m' s => ∃ d' before, (daoClass R.schema target = some d' ∧ J before ∧
        Recorded R s.db (freshKeys before) fuel R.defaultProvider d' m') ∧
          StoreReadyWith R.schema root providers J s) fun _ => True

/-- The keys that have come since `start`, but for the one that is being written for. -/
def newKeys (start : Db) (d : Dao) (key : Value) (d' : Dao) (k : Value) : Prop :=
  freshKeys start d' k ∧ otherKeys d key d' k

/-- A message of another table that has been stored since `start`. -/
def StoredBelow (R : ReadEnv) (fuel : Nat) (start : Db) (d : Dao) (key : Value) (target : String)
    (c : Msg) (db : Db) : Prop :=
  ∃ d', daoClass R.schema target = some d' ∧
    Recorded R db (newKeys start d key) fuel R.defaultProvider d' c

variable (separate : SeparateTables R.schema root) (hd : StoredThrough R.schema root d)
  {child : DaoChild} (hc : child ∈ d.children) (hk : key ≠ .null)
  (lasting : Lasting R.schema root d key J)

theorem storedBelow_lasting {target : String} (hd : StoredThrough R.schema root d)
    (through : ∀ d', daoClass R.schema target = some d' → StoresThrough R.schema d d') (c : Msg) :
    Lasting R.schema root d key (StoredBelow R fuel start d key target c) := by
  intro db db' u ⟨d', class_, there⟩
  refine ⟨d', class_, ?_⟩
  apply there.survives (hd.tail (through d' class_))
  exact u.mono fun _ _ both => both.2

/-- A key that was free while the row was in place is not that of the row. -/
theorem newKeys_of_fresh {before : Db} (since : Undisturbed R.schema root anyKey start before)
    (filled : Filled d key r stored before) (d' : Dao) (hd' : StoredThrough R.schema root d')
    (k : Value) (fresh : freshKeys before d' k) : newKeys start d key d' k := by
  refine ⟨fun there => fresh (since.values d' hd' k there trivial), ?_⟩
  rintro ⟨rfl, rfl⟩
  exact fresh filled.present

theorem snd_of_zipIdx {α : Type} {items : List α} {done rest : List (α × Nat)} {x : α × Nat}
    (h : items.zipIdx = done ++ x :: rest) : x.2 = done.length := by
  have at_ : items.zipIdx[done.length]? = some x := by
    rw [h, List.getElem?_append_right (Nat.le_refl _), Nat.sub_self, List.getElem?_cons_zero]
  rw [List.getElem?_zipIdx] at at_
  obtain ⟨y, _, same⟩ := Option.map_eq_some_iff.mp at_
  rw [← same, Nat.zero_add]

include separate hd hc hk lasting

/-- The elements of a repeated message are stored one by one, each with its row. -/
theorem writeLinks_writes {recur : String → Msg → Cursor Msg}
    (below : StoresBelow R root providers fuel d recur) {target : String}
    (through : ∀ d', daoClass R.schema target = some d' → StoresThrough R.schema d d')
    (since : ∀ db, J db → Undisturbed R.schema root anyKey start db) (field : Variable) (m : Msg) :
    Triple (Writing R.schema root providers d key r (Function.update stored child []) J)
      ((writeLinks R.toDaoEnv d (recur target) key child field m).attempt Request.exec)
      (fun items s => ∃ elem es, (elementsType R.toDaoEnv field = some elem ∧
          items.zipIdx.mapM (fun e => (bindValue R.schema.types elem e.1 pk).map fun k =>
            [("owner", key), ("ordinal", .int e.2), ("value", k)]) = some es ∧
          items.length = (m.elements field.name).length) ∧
        Writing R.schema root providers d key r (Function.update stored child es)
          (fun db => J db ∧ ∀ c ∈ items, StoredBelow R fuel start d key target c db) s)
      fun _ => True := by
  refine Calls.triple_some_bind (fun elem type => ?_) fun _ _ => trivial
  let entry : Msg × Nat → Option Entry := fun e => (bindValue R.schema.types elem e.1 pk).map fun k =>
    [("owner", key), ("ordinal", .int e.2), ("value", k)]
  let Known : List Msg → Db → Prop := fun items db =>
    J db ∧ ∀ c ∈ items, StoredBelow R fuel start d key target c db
  have known_lasting : ∀ items, Lasting R.schema root d key (Known items) := by
    intro items db db' u ⟨known, all⟩
    exact ⟨lasting db db' u known, fun c hmem => storedBelow_lasting hd through c db db' u (all c hmem)⟩
  refine triple_mono (Calls.triple_collect (fun done items s => ∃ es,
    (items.zipIdx.mapM entry = some es ∧ items.length = done.length) ∧
      Writing R.schema root providers d key r (Function.update stored child es) (Known items) s) ?_)
    (fun s hs => ⟨[], ⟨rfl, rfl⟩, hs.1, hs.2.1, hs.2.2, fun c hmem => by cases hmem⟩) ?_
  · intro done items x rest all
    apply triple_exists
    intro es
    apply triple_pure
    intro ⟨so_far, length⟩
    have ordinal : x.2 = items.length := (snd_of_zipIdx all).trans length.symm
    let Around : Db → Prop := fun db =>
      Filled d key r (Function.update stored child es) db ∧ Known items db
    have around_survives : ∀ db db', Undisturbed R.schema root anyKey db db' → Around db →
        Around db' := by
      intro db db' u ⟨filled, known⟩
      exact ⟨filled.survives hd u, known_lasting items db db' (u.mono fun _ _ _ => trivial) known⟩
    refine Calls.triple_bind (Q := fun item s => Writing R.schema root providers d key r
      (Function.update stored child es) (Known (items ++ [item])) s) ?_ fun item => ?_
    · apply triple_mono (below target x.1 Around through around_survives)
      · exact fun s ⟨ready, filled, known⟩ => ⟨ready, filled, known⟩
      · intro item s ⟨d', before, ⟨class_, ⟨filled, known⟩, there⟩, ready, filled', known'⟩
        refine ⟨ready, filled', known'.1, fun c hmem => ?_⟩
        rcases List.mem_append.mp hmem with hmem | hmem
        · exact known'.2 c hmem
        · rw [List.mem_singleton.mp hmem]
          exact ⟨d', class_, there.mono (hd.tail (through d' class_))
            (newKeys_of_fresh (since before known.1) filled)⟩
    · refine Calls.triple_some_bind (fun k bound => ?_) fun _ _ => trivial
      refine Calls.triple_bind (insert_writes separate hd hc hk (known_lasting (items ++ [item]))
        [ordinalCell x.2, childCell d child "value" k] rfl listNames_distinct es) fun _ => ?_
      apply triple_ret
      intro s ⟨e, he, hs⟩
      refine ⟨es ++ [e], ⟨?_, by simp [length]⟩, hs⟩
      rw [List.zipIdx_append, List.zipIdx_singleton, Nat.zero_add]
      apply mapM_snoc so_far
      show (bindValue R.schema.types elem item pk).map _ = some e
      rw [bound, ← ordinal]
      exact he
  · intro items s ⟨es, ⟨all, length⟩, hs⟩
    rw [List.length_zipIdx] at length
    exact ⟨elem, es, ⟨type, all, length⟩, hs⟩

end Links

end Harpia
