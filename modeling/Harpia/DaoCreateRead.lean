import Harpia.DaoCreateChildren
import Harpia.DaoReadBack
import Mathlib.Data.List.Pairwise

namespace Harpia

open Text Sqlite Proto Attempt

section Apart

variable {S : Schema} {E : DaoEnv} {d : Dao} {child child' : DaoChild} {col col' : DaoColumn}

/-- Of paths that are apart, none leads through another. -/
theorem neither_prefix {α : Type} {steps : α → List String} {xs : List α}
    (apart : (xs.map steps).Pairwise fun a b => ¬ a <+: b ∧ ¬ b <+: a) {x y : α} (hx : x ∈ xs)
    (hy : y ∈ xs) (ne : x ≠ y) : ¬ steps x <+: steps y ∧ ¬ steps y <+: steps x := by
  rw [List.pairwise_map] at apart
  have symm : Std.Symm fun a b : α => ¬ steps a <+: steps b ∧ ¬ steps b <+: steps a :=
    ⟨fun _ _ both => both.symm⟩
  exact apart.forall hx hy ne

theorem Dao.Readable.children_apart (h : d.Readable S) (hc : child ∈ d.children)
    (hc' : child' ∈ d.children) (ne : child ≠ child') :
    ¬ child.path.steps <+: child'.path.steps ∧ ¬ child'.path.steps <+: child.path.steps := by
  obtain ⟨_, apart, _⟩ := List.pairwise_append.mp h.apart
  exact neither_prefix apart hc hc' ne

theorem mem_fkSteps (hcol : col ∈ d.columns) (fk : col.fk.isSome) :
    col.path.steps ∈ (d.columns.filter fun col => col.fk.isSome).map fun col => col.path.steps :=
  List.mem_map_of_mem (List.mem_filter.mpr ⟨hcol, fk⟩)

theorem Dao.Readable.column_child_apart (h : d.Readable S) (hcol : col ∈ d.columns)
    (fk : col.fk.isSome) (hc : child ∈ d.children) :
    ¬ col.path.steps <+: child.path.steps ∧ ¬ child.path.steps <+: col.path.steps := by
  obtain ⟨_, _, across⟩ := List.pairwise_append.mp h.apart
  exact across _ (mem_fkSteps hcol fk) _ (List.mem_map_of_mem hc)

theorem child_elsewhere (hc : child ∈ d.children) : child.path.steps ∈ d.elsewhere :=
  List.mem_append_right _ (List.mem_map_of_mem hc)

/-- No field stored elsewhere is the key, or above it. -/
theorem Dao.Storable.key_apart (h : d.Storable E) (keyed : Keyed d) {steps : List String}
    (hs : steps ∈ d.elsewhere) : ¬ steps <+: [pk] := by
  obtain ⟨keyCol, hkey, _, path, fk, _, _⟩ := keyed.column
  have beside := h.beside keyCol hkey fk steps hs
  rw [path] at beside
  exact beside

end Apart

/-- The row of a message is in place, and what its columns and some child tables link to is stored. -/
structure RowStored (R : ReadEnv) (root : Dao) (p : KeyProvider) (fuel : Nat) (start : Db) (d : Dao)
    (key : Value) (r : Row) (done : List DaoChild) (m : Msg) (db : Db) : Prop where
  since : Undisturbed R.schema root anyKey start db
  keyed : pkValue R.toDaoEnv d m = some key
  columns : ∃ t, db.get? d.table = some t ∧
    ∀ col ∈ d.columns, ColumnHolds R p d.message m col (t.lookup r col.name)
  linked : ∀ col ∈ d.columns, ∀ target c, col.fk = some target →
    (m.inner col.path.owner).sub? col.path.field = some c → StoredBelow R fuel start d key target c db
  elements : ∀ child ∈ done, ∀ target, child.kind = .repeated (some target) →
    ∀ c ∈ (m.inner child.path.owner).elements child.path.field,
      StoredBelow R fuel start d key target c db

/-- The entries of the child tables that have been written are those of the message. -/
structure StoredFor (R : ReadEnv) (d : Dao) (key : Value) (done : List DaoChild) (m : Msg)
    (stored : DaoChild → List Entry) : Prop where
  open_ : ∀ child ∈ d.children, child ∉ done → stored child = []
  written : ∀ child ∈ done,
    childTableEntries R.toDaoEnv (columnValue R.schema.types) d key m child = some (stored child)

section Stored

variable {R : ReadEnv} {root d : Dao} {p : KeyProvider} {fuel : Nat} {start : Db} {key : Value}
  {r : Row} {done : List DaoChild} {m m' : Msg} {stored : DaoChild → List Entry} {child : DaoChild}
  {db : Db}

theorem RowStored.lasting (hd : StoredThrough R.schema root d) (fresh : key ∉ start.values d.table pk)
    (all : ∀ child ∈ done, child ∈ d.children) :
    Lasting R.schema root d key (RowStored R root p fuel start d key r done m) := by
  intro db db' u h
  refine ⟨h.since.then_insert fresh u, h.keyed, ?_, fun col hcol target c fk hs => ?_,
    fun child hc target kind c hmem => ?_⟩
  · obtain ⟨t, ht, holds⟩ := h.columns
    obtain ⟨t', ht', names⟩ := get?_of_columns u.columns ht
    refine ⟨t', ht', fun col hcol => ?_⟩
    rw [lookup_congr names]
    exact holds col hcol
  · exact storedBelow_lasting hd (fun d' class_ => .column hcol fk class_) c _ _ u
      (h.linked col hcol target c fk hs)
  · exact storedBelow_lasting hd (fun d' class_ => .element (all child hc) kind class_) c _ _ u
      (h.elements child hc target kind c hmem)

theorem RowStored.snoc (h : RowStored R root p fuel start d key r done m db)
    (links : ∀ target, child.kind = .repeated (some target) →
      ∀ c ∈ (m.inner child.path.owner).elements child.path.field,
        StoredBelow R fuel start d key target c db) :
    RowStored R root p fuel start d key r (done ++ [child]) m db := by
  refine ⟨h.since, h.keyed, h.columns, h.linked, fun child' hc => ?_⟩
  rcases List.mem_append.mp hc with hc | hc
  · exact h.elements child' hc
  · rw [List.mem_singleton.mp hc]
    exact links

theorem StoredFor.snoc (h : StoredFor R d key done m stored) (absent : child ∉ done)
    {es : List Entry} (now : childTableEntries R.toDaoEnv (columnValue R.schema.types) d key m child =
      some es) : StoredFor R d key (done ++ [child]) m (Function.update stored child es) := by
  refine ⟨fun child' hc other => ?_, fun child' hc => ?_⟩
  · have ne : child' ≠ child := fun he => other (List.mem_append_right _ (by simp [he]))
    rw [Function.update_of_ne ne]
    exact h.open_ child' hc fun there => other (List.mem_append_left _ there)
  · rcases List.mem_append.mp hc with hc | hc
    · have ne : child' ≠ child := fun he => absent (he ▸ hc)
      rw [Function.update_of_ne ne]
      exact h.written child' hc
    · rw [List.mem_singleton.mp hc, Function.update_self]
      exact now

variable (readable : d.Readable R.schema) (storable : d.Storable R.toDaoEnv) (keyed : Keyed d)
  (hc : child ∈ d.children) (all : ∀ child ∈ done, child ∈ d.children) (absent : child ∉ done)
  (moved : m.Changed [child.path.steps] m')

include readable hc all absent moved

theorem StoredFor.changed (h : StoredFor R d key done m stored) : StoredFor R d key done m' stored := by
  refine ⟨h.open_, fun child' hc' => ?_⟩
  rw [childTableEntries_changed moved]
  · exact h.written child' hc'
  · intro f hf
    rw [List.mem_singleton.mp hf]
    exact readable.children_apart hc (all child' hc') fun he => absent (he ▸ hc')

include storable keyed

theorem RowStored.changed (h : RowStored R root p fuel start d key r done m db) :
    RowStored R root p fuel start d key r done m' db := by
  have single : ∀ {f : List String} {P : List String → Prop}, f ∈ [child.path.steps] →
      P child.path.steps → P f := fun hf holds => by rwa [List.mem_singleton.mp hf]
  refine ⟨h.since, ?_, ?_, fun col hcol target c fk hs => ?_, fun child' hc' target kind c hmem => ?_⟩
  · rw [pkValue_changed moved fun f hf =>
      single (P := fun f => ¬ f <+: [pk]) hf (storable.key_apart keyed (child_elsewhere hc))]
    exact h.keyed
  · obtain ⟨t, ht, holds⟩ := h.columns
    refine ⟨t, ht, fun col hcol => (holds col hcol).changed moved ?_ ?_⟩
    · intro f hf
      rw [List.mem_singleton.mp hf]
      cases hf' : col.fk with
      | none => exact storable.beside col hcol hf' _ (child_elsewhere hc)
      | some target => exact (readable.column_child_apart hcol (by rw [hf']; rfl) hc).2
    · intro fk f hf
      rw [List.mem_singleton.mp hf]
      exact (readable.column_child_apart hcol fk hc).1
  · rw [moved.sub? fun f hf => by
      rw [List.mem_singleton.mp hf]
      exact (readable.column_child_apart hcol (by rw [fk]; rfl) hc).symm] at hs
    exact h.linked col hcol target c fk hs
  · rw [moved.elements fun f hf => by
      rw [List.mem_singleton.mp hf]
      exact (readable.children_apart hc (all child' hc') fun he => absent (he ▸ hc')).1] at hmem
    exact h.elements child' hc' target kind c hmem

end Stored

section Children

variable {R : ReadEnv} {root d : Dao} {providers : Set KeyProvider} {p : KeyProvider} {fuel : Nat}
  {start : Db} {key : Value} {r : Row} {recur : String → Msg → Cursor Msg}

/-- The child tables of `done` have been written for a message. -/
def ChildrenStored (R : ReadEnv) (root : Dao) (providers : Set KeyProvider) (p : KeyProvider)
    (fuel : Nat) (start : Db) (d : Dao) (key : Value) (r : Row) (done : List DaoChild) (m : Msg)
    (s : DbSession) : Prop :=
  ∃ stored, StoredFor R d key done m stored ∧
    Writing R.schema root providers d key r stored (RowStored R root p fuel start d key r done m) s

/-- What a child table is to hold, for the messages that its field stands in. -/
theorem childTableEntries_by_kind {child : DaoChild} {o : Message × Msg} {field : Variable}
    (empty : ownerOf R.schema.types child.path.owner d.message .empty = some o)
    (found : o.1.field? child.path.field = some field) (m : Msg) :
    childTableEntries R.toDaoEnv (columnValue R.schema.types) d key m child =
      match child.kind with
      | .map => some (((m.inner child.path.owner).map field.name).entries.map fun e =>
          [("owner", key), ("key", toDb e.1), ("value", toDb e.2)])
      | .repeated none => (iterate R.toDaoEnv field (m.inner child.path.owner)).map fun items =>
          items.zipIdx.map fun e => [("owner", key), ("ordinal", .int e.2), ("value", toDb e.1)]
      | .repeated (some _) => linkEntries R.toDaoEnv key field (m.inner child.path.owner)
      | .composed columns => (elementsType R.toDaoEnv field).bind fun elem =>
          ((m.inner child.path.owner).elements field.name).zipIdx.mapM fun e =>
            (columns.mapM fun col => (columnValue R.schema.types elem e.1 col).map fun v =>
              (col.name, v)).map fun cells => ("owner", key) :: ("ordinal", .int e.2) :: cells := by
  rw [childTableEntries, ownerOf_eq, empty, Option.map_some, Option.bind_some, found]
  rfl

variable (separate : SeparateTables R.schema root) (hd : StoredThrough R.schema root d)
  (readable : d.Readable R.schema) (storable : d.Storable R.toDaoEnv) (keyed : Keyed d)
  (hk : key ≠ .null) (fresh : key ∉ start.values d.table pk)
  (below : StoresBelow R root providers fuel d recur)

include separate hd readable storable keyed hk fresh below

omit separate hd hk fresh below in
/-- The elements that have got their keys are put back into the message. -/
theorem links_put_back {done : List DaoChild} {child : DaoChild} (hc : child ∈ d.children)
    (all : ∀ child ∈ done, child ∈ d.children) (absent : child ∉ done) {m m' : Msg} {target : String}
    (kind : child.kind = .repeated (some target)) {o : Message × Msg} {field : Variable}
    (empty : ownerOf R.schema.types child.path.owner d.message .empty = some o)
    (found : o.1.field? child.path.field = some field) {elem : Message} {items : List Msg}
    {es : List Entry} (type : elementsType R.toDaoEnv field = some elem)
    (linked : items.zipIdx.mapM (fun e => (bindValue R.schema.types elem e.1 pk).map fun k =>
      [("owner", key), ("ordinal", .int e.2), ("value", k)]) = some es)
    (length : items.length = ((m.inner child.path.owner).elements field.name).length)
    {stored : DaoChild → List Entry} (so_far : StoredFor R d key done m stored) {s : DbSession}
    (hs : Writing R.schema root providers d key r (Function.update stored child es)
      (fun db => RowStored R root p fuel start d key r done m db ∧
        ∀ c ∈ items, StoredBelow R fuel start d key target c db) s)
    (put : (if items.isEmpty then some m else m.modify
      (fun o => some (o.set field.name (some (.elements items)))) child.path.owner) = some m') :
    ChildrenStored R root providers p fuel start d key r (done ++ [child]) m' s := by
  obtain ⟨ready, filled, known, stood⟩ := hs
  have entries : ∀ m' : Msg, childTableEntries R.toDaoEnv (columnValue R.schema.types) d key m' child =
      _ := childTableEntries_by_kind empty found
  have hname := field?_name found
  by_cases none_ : items = []
  · subst none_
    obtain rfl : m = m' := Option.some.inj put
    have bare : (m.inner child.path.owner).elements field.name = [] :=
      List.length_eq_zero_iff.mp length.symm
    refine ⟨_, so_far.snoc absent ?_, ready, filled, known.snoc fun target' kind' c hmem => ?_⟩
    · rw [entries, kind]
      simp only [linkEntries, type, Option.bind_some, bare]
      exact linked
    · rw [← hname, bare] at hmem
      cases hmem
  · have changed : m.modify (fun o => some (o.set field.name (some (.elements items))))
        child.path.owner = some m' := by
      rwa [if_neg (by simpa using none_)] at put
    have held : (m.inner child.path.owner).elements field.name ≠ [] := fun bare => by
      rw [bare, List.length_nil] at length
      exact none_ (List.length_eq_zero_iff.mp length)
    have there : (m.at? child.path.owner).isSome := by
      rw [Msg.at?_of_elements held, Option.isSome_some]
    have moved : m.Changed [child.path.steps] m' := by
      refine Msg.changed_modify there changed fun o' ho' => ?_
      cases ho'
      rw [← hname]
      exact Msg.changed_set _ _ _
    obtain ⟨o', ho', at_⟩ := Msg.modify_at changed
    cases ho'
    have inner : m'.inner child.path.owner =
        (m.inner child.path.owner).set field.name (some (.elements items)) := by
      rw [Msg.inner, at_, Option.getD_some]
    have now : (m'.inner child.path.owner).elements field.name = items := by
      rw [inner]
      simp [Msg.elements]
    have kept_ := so_far.changed readable hc all absent moved
    have rest := known.changed readable storable keyed hc all absent moved
    refine ⟨_, kept_.snoc absent ?_, ready, filled, rest.snoc fun target' kind' c hmem => ?_⟩
    · rw [entries, kind]
      simp only [linkEntries, type, Option.bind_some, now]
      exact linked
    · rw [kind] at kind'
      cases kind'
      rw [← hname, now] at hmem
      exact stood c hmem

/-- One child table is written. -/
theorem insertChild_stores {done : List DaoChild} {child : DaoChild} (hc : child ∈ d.children)
    (all : ∀ child ∈ done, child ∈ d.children) (absent : child ∉ done) (m : Msg) :
    Triple (ChildrenStored R root providers p fuel start d key r done m)
      ((insertChild R.toDaoEnv d recur key m child).attempt Request.exec)
      (ChildrenStored R root providers p fuel start d key r (done ++ [child])) fun _ => True := by
  apply triple_exists
  intro stored
  apply triple_pure
  intro so_far
  have lasting : Lasting R.schema root d key (RowStored R root p fuel start d key r done m) :=
    RowStored.lasting hd fresh all
  have nothing : Function.update stored child [] = stored := by
    rw [← so_far.open_ child hc absent, Function.update_eq_self]
  refine Calls.triple_some_bind (fun base place => ?_) fun _ _ => trivial
  refine Calls.triple_some_bind (fun field found => ?_) fun _ _ => trivial
  rw [ownerOf_eq] at place
  obtain ⟨o, empty, rfl⟩ := Option.map_eq_some_iff.mp place
  have entries : ∀ m' : Msg, childTableEntries R.toDaoEnv (columnValue R.schema.types) d key m' child =
      _ := childTableEntries_by_kind empty found
  have done_ : ∀ es s, childTableEntries R.toDaoEnv (columnValue R.schema.types) d key m child =
      some es → (∀ target, child.kind ≠ .repeated (some target)) →
      Writing R.schema root providers d key r (Function.update stored child es)
        (RowStored R root p fuel start d key r done m) s →
      ChildrenStored R root providers p fuel start d key r (done ++ [child]) m s := by
    intro es s now plain hs
    obtain ⟨ready, filled, known⟩ := hs
    exact ⟨_, so_far.snoc absent now, ready, filled, known.snoc fun target kind =>
      absurd kind (plain target)⟩
  split
  next kind =>
    refine Calls.triple_bind (triple_mono (writeMap_writes separate hd hc hk lasting field _)
      (fun s hs => nothing ▸ hs) fun _ _ hs => hs) fun _ => triple_ret fun s hs => ?_
    apply done_ _ s _ (by simp [kind]) hs
    rw [entries, kind]
  next kind =>
    refine Calls.triple_bind (triple_mono (writeRepeated_writes separate hd hc hk lasting field _)
      (fun s hs => nothing ▸ hs) fun _ _ hs => hs) fun _ => triple_ret fun s made => ?_
    obtain ⟨items, hi, hs⟩ := made
    apply done_ _ s _ (by simp [kind]) hs
    rw [entries, kind]
    simp only [hi, Option.map_some]
  next target kind =>
    have through : ∀ d', daoClass R.schema target = some d' → StoresThrough R.schema d d' :=
      fun d' class_ => .element hc kind class_
    refine Calls.triple_bind (triple_mono (writeLinks_writes separate hd hc hk lasting below through
      (fun db h => h.since) field _) (fun s hs => nothing ▸ hs) fun _ _ hs => hs) fun items => ?_
    apply triple_exists
    intro elem
    apply triple_exists
    intro es
    apply triple_pure
    intro links
    obtain ⟨type, linked, length⟩ := links
    split
    next none_ =>
      exact triple_ret fun s hs => links_put_back readable storable keyed hc all absent kind empty found
        type linked length so_far hs (if_pos none_)
    next some_ =>
      refine Calls.triple_ofOption (fun m' s changed hs => ?_) fun _ _ => trivial
      exact links_put_back readable storable keyed hc all absent kind empty found type linked length
        so_far hs ((if_neg some_).trans changed)
  next columns kind =>
    refine Calls.triple_bind (triple_mono (writeComposed_writes separate hd hc hk lasting
      (storable.elements child hc columns kind) field _) (fun s hs => nothing ▸ hs) fun _ _ hs => hs)
      fun _ => triple_ret fun s made => ?_
    obtain ⟨es, all_, hs⟩ := made
    apply done_ _ s _ (by simp [kind]) hs
    rw [entries, kind]
    exact all_

end Children

section Links

variable {R : ReadEnv} {root d : Dao} {providers : Set KeyProvider} {fuel : Nat} {start : Db}
  {recur : String → Msg → Cursor Msg}

theorem Dao.Readable.columns_apart {S : Schema} {col col' : DaoColumn} (h : d.Readable S)
    (hcol : col ∈ d.columns) (hcol' : col' ∈ d.columns) (fk : col.fk.isSome) (fk' : col'.fk.isSome)
    (ne : col ≠ col') :
    ¬ col.path.steps <+: col'.path.steps ∧ ¬ col'.path.steps <+: col.path.steps := by
  obtain ⟨apart, _, _⟩ := List.pairwise_append.mp h.apart
  exact neither_prefix apart (List.mem_filter.mpr ⟨hcol, fk⟩) (List.mem_filter.mpr ⟨hcol', fk'⟩) ne

/-- The children of some foreign keys are stored, and nothing that was there is disturbed. -/
structure LinksStored (R : ReadEnv) (root : Dao) (fuel : Nat) (start : Db) (done : List DaoColumn)
    (m : Msg) (db : Db) : Prop where
  since : Undisturbed R.schema root anyKey start db
  linked : ∀ col ∈ done, ∀ target c, col.fk = some target →
    (m.inner col.path.owner).sub? col.path.field = some c → ∃ d', daoClass R.schema target = some d' ∧
      Recorded R db (freshKeys start) fuel R.defaultProvider d' c

theorem LinksStored.survives {done : List DaoColumn} {m : Msg} {db db' : Db}
    (h : LinksStored R root fuel start done m db) (hd : StoredThrough R.schema root d)
    (all : ∀ col ∈ done, col ∈ d.columns) (u : Undisturbed R.schema root anyKey db db') :
    LinksStored R root fuel start done m db' := by
  refine ⟨h.since.trans u, fun col hcol target c fk hs => ?_⟩
  obtain ⟨d', class_, there⟩ := h.linked col hcol target c fk hs
  refine ⟨d', class_, there.survives (hd.tail (.column (all col hcol) fk class_)) ?_⟩
  exact u.mono fun _ _ _ => trivial

theorem storeChild_stores (hd : StoredThrough R.schema root d) (readable : d.Readable R.schema)
    (storable : d.Storable R.toDaoEnv) (below : StoresBelow R root providers fuel d recur)
    {done : List DaoColumn} {col : DaoColumn} (hcol : col ∈ d.columns)
    (all : ∀ col ∈ done, col ∈ d.columns) (absent : col ∉ done) (m : Msg) :
    Triple (StoreReadyWith R.schema root providers (LinksStored R root fuel start done m))
      ((storeChild R.toDaoEnv d recur m col).attempt Request.exec)
      (fun m' => StoreReadyWith R.schema root providers
        (LinksStored R root fuel start (done ++ [col]) m')) fun _ => True := by
  have snoc : ∀ {db : Db} {m' : Msg}, Undisturbed R.schema root anyKey start db →
      (∀ col' ∈ done, ∀ target c, col'.fk = some target →
        (m'.inner col'.path.owner).sub? col'.path.field = some c → ∃ d',
          daoClass R.schema target = some d' ∧
            Recorded R db (freshKeys start) fuel R.defaultProvider d' c) →
      (∀ target c, col.fk = some target → (m'.inner col.path.owner).sub? col.path.field = some c →
        ∃ d', daoClass R.schema target = some d' ∧
          Recorded R db (freshKeys start) fuel R.defaultProvider d' c) →
      LinksStored R root fuel start (done ++ [col]) m' db := by
    intro db m' since old new
    refine ⟨since, fun col' hcol' => ?_⟩
    rcases List.mem_append.mp hcol' with hcol' | hcol'
    · exact old col' hcol'
    · rw [List.mem_singleton.mp hcol']
      exact new
  unfold storeChild
  split
  next plain =>
    apply triple_ret
    intro s ⟨ready, known⟩
    refine ⟨ready, snoc known.since known.linked fun target c fk => ?_⟩
    rw [plain] at fk
    cases fk
  next target fk =>
    refine Calls.triple_some_bind (fun owner place => ?_) fun _ _ => trivial
    refine Calls.triple_some_bind (fun set_ there => ?_) fun _ _ => trivial
    rw [ownerOf_eq] at place
    obtain ⟨o, empty, rfl⟩ := Option.map_eq_some_iff.mp place
    obtain ⟨field, found, there⟩ := Option.bind_eq_some_iff.mp there
    rw [if_pos (storable.links col hcol (by rw [fk]; rfl) o empty field found)] at there
    cases set_ with
    | false =>
      apply triple_ret
      intro s ⟨ready, known⟩
      refine ⟨ready, snoc known.since known.linked fun target' c fk' hs => ?_⟩
      rw [hs, Option.isSome_some] at there
      cases there
    | true =>
      obtain ⟨c₀, held⟩ := Option.isSome_iff_exists.mp (Option.some.inj there)
      have above : (m.at? col.path.owner).isSome := by rw [Msg.at?_of_sub? held, Option.isSome_some]
      have through : ∀ d', daoClass R.schema target = some d' → StoresThrough R.schema d d' :=
        fun d' class_ => .column hcol fk class_
      refine Calls.triple_bind (below target _ _ through fun db db' u known =>
        known.survives hd all u) fun child => ?_
      apply triple_exists
      intro d'
      apply triple_exists
      intro before
      apply Calls.triple_ofOption
      · intro m' s changed ⟨⟨class_, known₀, stored⟩, ready, known⟩
        have moved : m.Changed [col.path.steps] m' := by
          refine Msg.changed_modify above changed fun o' ho' => ?_
          cases ho'
          exact Msg.changed_set _ _ _
        obtain ⟨o', ho', at_⟩ := Msg.modify_at changed
        cases ho'
        refine ⟨ready, snoc known.since (fun col' hcol' target' c fk' hs => ?_)
          fun target' c fk' hs => ?_⟩
        · have ne : col ≠ col' := fun he => absent (he ▸ hcol')
          rw [moved.sub? fun f hf => by
            rw [List.mem_singleton.mp hf]
            exact readable.columns_apart hcol (all col' hcol') (by rw [fk]; rfl) (by rw [fk']; rfl)
              ne] at hs
          exact known.linked col' hcol' target' c fk' hs
        · rw [fk] at fk'
          cases fk'
          rw [Msg.inner, at_, Option.getD_some, Msg.sub?_set_sub] at hs
          cases hs
          exact ⟨d', class_, stored.mono (hd.tail (.column hcol fk class_)) fun d'' hd'' k fresh there =>
            fresh (known₀.since.values d'' hd'' k there trivial)⟩
      · exact fun _ _ => trivial

/-- Once its row is there, a message may have its child tables written. -/
theorem childrenStored_start {p : KeyProvider} {m m' : Msg} {key : Value} {r : Row} {before : Db}
    {s : DbSession} (hd : StoredThrough R.schema root d) (storable : d.Storable R.toDaoEnv)
    (keyed : Keyed d) (made : RowMade R root p d m m' key r before s.db)
    (links : LinksStored R root fuel start d.columns m before)
    (ready : StoreReady R.schema root providers s) :
    key ∉ start.values d.table pk ∧
      ChildrenStored R root providers p fuel start d key r [] m' s := by
  have fresh : key ∉ start.values d.table pk := fun there =>
    made.fresh (links.since.values d hd key there trivial)
  refine ⟨fresh, fun _ => [], ⟨fun _ _ _ => rfl, fun child hc => by cases hc⟩, ready, made.filled,
    links.since.then_insert fresh made.since, made.keyed, made.columns, ?_, fun child hc => by cases hc⟩
  intro col hcol target c fk hs
  have elsewhere : col.path.steps ∈ d.elsewhere :=
    List.mem_append_left _ (mem_fkSteps hcol (by rw [fk]; rfl))
  rw [made.changed.sub? fun f hf => by
    rw [List.mem_singleton.mp hf]
    exact ⟨storable.key _ elsewhere, storable.key_apart keyed elsewhere⟩] at hs
  obtain ⟨d', class_, there⟩ := links.linked col hcol target c fk hs
  have new : ∀ d'', StoredThrough R.schema root d'' → ∀ k,
      freshKeys start d'' k ∧ k ∈ before.values d''.table pk → newKeys start d key d'' k := by
    rintro d'' _ k ⟨free, present⟩
    refine ⟨free, ?_⟩
    rintro ⟨rfl, rfl⟩
    exact made.fresh present
  have through := hd.tail (.column hcol fk class_)
  refine ⟨d', class_, (there.present.mono through new).survives through ?_⟩
  exact made.since.mono fun _ _ both => both.2

end Links

section Create

variable {R : ReadEnv} {root : Dao} {providers : Set KeyProvider}
  (separate : SeparateTables R.schema root)
  (readable : ∀ d, StoredThrough R.schema root d → d.Readable R.schema)
  (storable : ∀ d, StoredThrough R.schema root d → d.Storable R.toDaoEnv)
  (keyed : ∀ d, StoredThrough R.schema root d → Keyed d) (default_ : R.defaultProvider ∈ providers)

include separate readable storable keyed default_

/-- `_create` stores a message in full, and disturbs nothing that was there. -/
theorem createIn_records (fuel : Nat) {p : KeyProvider} (hp : p ∈ providers) {d : Dao}
    (hd : StoredThrough R.schema root d) (msg : Msg) (start : Db) :
    Triple (fun s => StoreReady R.schema root providers s ∧ s.db = start)
      ((createIn R.toDaoEnv fuel p d msg).attempt Request.exec)
      (fun msg' s => (Undisturbed R.schema root anyKey start s.db ∧
        Recorded R s.db (freshKeys start) fuel p d msg') ∧ StoreReady R.schema root providers s)
      fun _ => True := by
  induction fuel generalizing p d msg start with
  | zero => exact triple_fail fun _ _ => trivial
  | succ fuel ih =>
    have below : StoresBelow R root providers fuel d (fun target child => (do
        let d' ← Calls.ofOption (daoClass R.schema target)
        createIn R.toDaoEnv fuel R.defaultProvider d' child : Cursor Msg)) := by
      intro target m J through survives
      refine Calls.triple_some_bind (fun d' class_ => ?_) fun _ _ => trivial
      have each := fun start => ih default_ (hd.tail (through d' class_)) m start
      refine ⟨fun {s} {m'} hs he => ?_, fun _ _ => trivial⟩
      obtain ⟨⟨since, there⟩, ready⟩ := (each s.db).ends ⟨hs.1, rfl⟩ he
      exact ⟨d', s.db, ⟨class_, hs.2, there⟩, ready, survives _ _ since hs.2⟩
    have names : d.columns.Nodup := (separate.columns d hd).of_map _
    have tables : d.children.Nodup := by
      have nodup := separate.tables d hd
      rw [Dao.tables, List.map_cons, List.map_map, List.nodup_cons] at nodup
      exact nodup.2.of_map _
    refine Calls.triple_bind (triple_mono (Calls.triple_fold (fun done m => StoreReadyWith R.schema root
      providers (LinksStored R root fuel start done m)) (fun done m col rest all => ?_) msg)
      (fun s hs => ⟨hs.1, ?_, fun col hcol => by cases hcol⟩) fun _ _ hs => hs) fun m => ?_
    · have absent : col ∉ done := fun hm => by
        rw [all] at names
        exact (List.nodup_append.mp names).2.2 col hm col List.mem_cons_self rfl
      exact storeChild_stores hd (readable d hd) (storable d hd) below
        (all ▸ List.mem_append_right done List.mem_cons_self)
        (fun c hm => all ▸ List.mem_append_left _ hm) absent m
    · rw [hs.2]
      exact .refl _ _ _ _
    refine Calls.triple_bind (insertRow_made separate hd (keyed d hd) (storable d hd) hp) fun m' => ?_
    apply triple_exists
    intro key
    apply triple_exists
    intro r
    apply triple_exists
    intro before
    refine triple_mono (triple_pure (φ := key ≠ .null ∧ key ∉ start.values d.table pk ∧
      pkValue R.toDaoEnv d m' = some key) (P := ChildrenStored R root providers p fuel start d key r [] m')
      fun new => ?_) (fun s hs => ?_) fun _ _ hs => hs
    · obtain ⟨hk, fresh, hkey⟩ := new
      refine Calls.triple_some_bind (fun owner howner => ?_) fun _ _ => trivial
      cases hkey.symm.trans howner
      refine triple_mono (Calls.triple_fold (fun done m =>
        ChildrenStored R root providers p fuel start d key r done m) (fun done m child rest all => ?_) m')
        (fun _ hs => hs) fun m'' s hs => ?_
      · have absent : child ∉ done := fun hm => by
          rw [all] at tables
          exact (List.nodup_append.mp tables).2.2 child hm child List.mem_cons_self rfl
        exact insertChild_stores separate hd (readable d hd) (storable d hd) (keyed d hd) hk fresh below
          (all ▸ List.mem_append_right done List.mem_cons_self)
          (fun c hm => all ▸ List.mem_append_left _ hm) absent m
      · obtain ⟨stored, entries, ready, filled, known⟩ := hs
        obtain ⟨t, ht, holds⟩ := known.columns
        have row := filled.row
        rw [chosen_of_get? ht] at row
        refine ⟨⟨known.since, t, key, r, fresh, ht, known.keyed, row, holds,
          fun col hcol target c fk hs => ?_, fun child hc => ?_, fun child hc target kind c hmem => ?_⟩,
          ready⟩
        · obtain ⟨d', class_, there⟩ := known.linked col hcol target c fk hs
          exact ⟨d', class_, there.mono (hd.tail (.column hcol fk class_)) fun _ _ _ both => both.1⟩
        · obtain ⟨ct, hct, held⟩ := filled.children child hc
          exact ⟨ct, _, hct, entries.written child hc, held⟩
        · obtain ⟨d', class_, there⟩ := known.elements child hc target kind c hmem
          exact ⟨d', class_, there.mono (hd.tail (.element hc kind class_)) fun _ _ _ both => both.1⟩
    · obtain ⟨⟨made, links⟩, ready⟩ := hs
      obtain ⟨fresh, started⟩ := childrenStored_start hd (storable d hd) (keyed d hd) made links ready
      exact ⟨⟨made.given, fresh, made.keyed⟩, started⟩

end Create

end Harpia
