import Harpia.DaoCreateFrame
import Harpia.Lib.ProtoChanges

namespace Harpia

open Text Sqlite Proto Attempt

section Changes

variable {types : Types} {E : DaoEnv} {a b : Msg} {fields : List (List String)}

theorem hasField_changed (h : a.Changed fields b) {above : List String} {name : String}
    (apart : ∀ f ∈ fields, ¬ f <+: above ++ [name]) (d : Message) :
    hasField types d (b.inner above) name = hasField types d (a.inner above) name := by
  simp only [hasField, h.sub?_isSome apart, h.scalar? apart]

theorem bindValue_changed (h : a.Changed fields b) {above : List String} {name : String}
    (apart : ∀ f ∈ fields, ¬ f <+: above ++ [name]) (d : Message) :
    bindValue types d (b.inner above) name = bindValue types d (a.inner above) name := by
  unfold bindValue
  cases hv : d.field? name with
  | none => rfl
  | some v =>
    have read : (b.inner above).scalar? v.name = (a.inner above).scalar? v.name := by
      rw [field?_name hv]
      exact h.scalar? apart
    have unset : isUnsetOptional v (b.inner above) = isUnsetOptional v (a.inner above) := by
      simp only [isUnsetOptional, read]
    have value : attrValue v (b.inner above) = attrValue v (a.inner above) := by
      simp only [attrValue, read]
    rw [Option.bind_some, Option.bind_some, unset, value]

theorem embedsSet_changed (h : a.Changed fields b) {path : List String} (above : List String)
    (apart : ∀ f ∈ fields, ¬ f <+: above ++ path) (d : Message) :
    embedsSet types path d (b.inner above) = embedsSet types path d (a.inner above) := by
  induction path generalizing above d with
  | nil => rfl
  | cons step path ih =>
    have deeper : above ++ [step] <+: above ++ step :: path := by
      have start := List.prefix_append (above ++ [step]) path
      rwa [List.append_assoc, List.singleton_append] at start
    have here : ∀ f ∈ fields, ¬ f <+: above ++ [step] := fun f hf start =>
      apart f hf (start.trans deeper)
    have below : ∀ f ∈ fields, ¬ f <+: (above ++ [step]) ++ path := fun f hf => by
      rw [List.append_assoc, List.singleton_append]
      exact apart f hf
    unfold embedsSet
    rw [hasField_changed h here]
    simp only [inner_snoc, ih (above ++ [step]) below]

/-- A change beside a column's field leaves what is bound for it. -/
theorem columnValue_changed (h : a.Changed fields b) {d : Message} {col : DaoColumn}
    (apart : ∀ f ∈ fields, ¬ f <+: col.path.steps)
    (fk : col.fk.isSome → ∀ f ∈ fields, ¬ col.path.steps <+: f) :
    columnValue types d b col = columnValue types d a col := by
  unfold columnValue
  rw [ownerOf_eq col.path.owner d b, ownerOf_eq col.path.owner d a]
  cases ownerOf types col.path.owner d .empty with
  | none => rfl
  | some o =>
    have above : ∀ f ∈ fields, ¬ f <+: [] ++ col.path.owner := fun f hf start =>
      apart f hf (start.trans (List.prefix_append _ _))
    simp only [Option.map_some, Option.bind_some]
    rw [hasField_changed h apart, bindValue_changed h apart]
    have embeds : embedsSet types col.path.owner d (b.inner []) =
        embedsSet types col.path.owner d (a.inner []) := embedsSet_changed h [] above d
    rw [Msg.inner_nil, Msg.inner_nil] at embeds
    rw [embeds]
    split
    · rfl
    · split
      next some_ =>
        rw [h.sub? fun f hf => ⟨apart f hf, fk some_ f hf⟩]
      next => rfl

theorem pkValue_changed (h : a.Changed fields b) (apart : ∀ f ∈ fields, ¬ f <+: [pk]) (dao : Dao) :
    pkValue E dao b = pkValue E dao a := by
  have same : bindValue E.schema.types dao.message (b.inner []) pk =
      bindValue E.schema.types dao.message (a.inner []) pk := bindValue_changed h apart dao.message
  exact same

variable {R : ReadEnv} {p : KeyProvider}

theorem ColumnHolds.changed {d : Message} {col : DaoColumn} {v : Value}
    (holds : ColumnHolds R p d a col v) (h : a.Changed fields b)
    (apart : ∀ f ∈ fields, ¬ f <+: col.path.steps)
    (fk : col.fk.isSome → ∀ f ∈ fields, ¬ col.path.steps <+: f) : ColumnHolds R p d b col v := by
  unfold ColumnHolds at holds ⊢
  split
  next phi =>
    rw [if_pos phi] at holds
    obtain ⟨owner, field, place, found, holds⟩ := holds
    rw [ownerOf_eq] at place
    obtain ⟨o, empty, rfl⟩ := Option.map_eq_some_iff.mp place
    have read : (b.inner col.path.owner).scalar? field.name =
        (a.inner col.path.owner).scalar? field.name := by
      rw [field?_name found]
      exact h.scalar? apart
    refine ⟨(o.1, b.inner col.path.owner), field, ?_, found, ?_⟩
    · rw [ownerOf_eq, empty, Option.map_some]
    · simp only [isUnsetOptional, attrValue, read] at holds ⊢
      exact holds
  next phi =>
    rw [if_neg phi] at holds
    rw [columnValue_changed h apart fk]
    exact holds

end Changes

/-- What storing relies on: the key, and the values of the other columns, do not lie below a field
whose values stand in rows of their own. -/
structure Dao.Storable (E : DaoEnv) (dao : Dao) : Prop where
  links : LinksMessages E dao
  beside : ∀ col ∈ dao.columns, col.fk = none → ∀ steps ∈ dao.elsewhere, ¬ steps <+: col.path.steps
  key : ∀ steps ∈ dao.elsewhere, ¬ [pk] <+: steps
  keyColumn : ∀ col ∈ dao.columns, col.name ≠ pk → ¬ [pk] <+: col.path.steps
  elements : ∀ child ∈ dao.children, ∀ columns, child.kind = .composed columns →
    (("owner" :: "ordinal" :: columns.map DaoColumn.name).map fold).Nodup

/-- A message whose fields other than its key are stored as `msg` has them holds its columns. -/
theorem columns_of_keyless {R : ReadEnv} {p : KeyProvider} {d : Dao} {msg : Msg} {k : Int} {t : Table}
    {r : Row} (storable : d.Storable R.toDaoEnv) (keyed : Keyed d)
    (names : (d.columns.map fun c => fold c.name).Nodup) (own : t.lookup r pk = .int k)
    (holds : ∀ col ∈ keylessColumns d, ColumnHolds R p d.message msg col (t.lookup r col.name)) :
    ∀ col ∈ d.columns,
      ColumnHolds R p d.message (msg.set pk (some (.scalar (.int k)))) col (t.lookup r col.name) := by
  intro col hcol
  by_cases name : col.name = pk
  · obtain ⟨keyCol, hkey, name', path, fk, phi, presence⟩ := keyed.column
    obtain rfl : col = keyCol :=
      List.inj_on_of_nodup_map names hcol hkey (by rw [name, name'])
    rw [ColumnHolds, if_neg (by simp [phi]), name, own]
    rw [columnValue_key (E := R.toDaoEnv) path fk presence, keyed.pkValue_set]
  · have stored := holds col (List.mem_filter.mpr ⟨hcol, by simpa using name⟩)
    have apart := storable.keyColumn col hcol name
    apply stored.changed (Msg.changed_set msg pk _)
    · intro f hf
      rw [List.mem_singleton.mp hf]
      exact apart
    · intro _ f hf start
      rw [List.mem_singleton.mp hf] at start
      rcases List.prefix_concat_iff.mp (show col.path.steps <+: [] ++ [pk] from start) with same | none_
      · exact apart (by rw [same]; exact List.prefix_refl _)
      · rw [FieldPath.steps] at none_
        exact absurd (List.prefix_nil.mp none_) (by simp)

theorem decryptField_sealed {p : KeyProvider} {dek : Bytes} {x : Plain .python} {stored : List Char}
    (h : encryptField .python p dek x = some stored) (length : dek.length = 32)
    (opens : ∀ w, p.wrapDek dek = some w → p.unwrapDek w = some dek) :
    decryptField .python p stored = x := by
  obtain ⟨kek, hk, marker, parsed⟩ := encryptField_eq_some h length (fun no => by cases no)
  have wrapped : p.wrapDek dek = some ⟨p.active, Bytes.xorWith dek kek⟩ :=
    KeyProvider.wrapDek_eq_some.mpr ⟨kek, hk, rfl⟩
  rw [decryptField_of_parse marker parsed, opens _ wrapped, Option.elim_some, Bytes.xorWith_xorWith,
    Plain.decode_encode, Option.getD_some]

section Bind

variable {R : ReadEnv} {root d : Dao} {providers : Set KeyProvider} {p : KeyProvider} {J : Db → Prop}

/-- The value bound for a column is one that it may hold. -/
def CellHolds (R : ReadEnv) (p : KeyProvider) (d : Dao) (msg : Msg) (col : DaoColumn) (cell : Cell) :
    Prop :=
  cell.column = col.name ∧ ColumnHolds R p d.message msg col cell.value

/-- A session that messages may be stored in, and what is known of its database. -/
def StoreReadyWith (S : Schema) (root : Dao) (providers : Set KeyProvider) (J : Db → Prop)
    (s : DbSession) : Prop := StoreReady S root providers s ∧ J s.db

theorem bindColumn_holds (hp : p ∈ providers) (msg : Msg) (col : DaoColumn) :
    Triple (StoreReadyWith R.schema root providers J)
      ((bindColumn R.toDaoEnv p d msg col).attempt Request.exec)
      (fun cell s => CellHolds R p d msg col cell ∧ StoreReadyWith R.schema root providers J s)
      fun _ => True := by
  unfold bindColumn
  split
  next phi =>
    refine Calls.triple_some_bind (fun owner place => ?_) fun _ _ => trivial
    refine Calls.triple_some_bind (fun field found => ?_) fun _ _ => trivial
    split
    next unset =>
      apply triple_ret
      intro s hs
      refine ⟨⟨rfl, ?_⟩, hs⟩
      rw [ColumnHolds, if_pos phi]
      exact ⟨owner, field, place, found, by rw [if_pos unset]; rfl⟩
    next given =>
      refine Calls.triple_bind (Q := fun dek s => (dek.length = 32 ∧
        ∀ w, p.wrapDek dek = some w → p.unwrapDek w = some dek) ∧
          StoreReadyWith R.schema root providers J s) ?_ fun dek => triple_pure fun dek_opens => ?_
      · apply Calls.triple_send
        · intro s dek s' hs answered
          cases answered
          exact ⟨hs.1.opens p hp 0,
            ⟨hs.1.owners, hs.1.tables, fun q hq n => hs.1.opens q hq (n + 1)⟩, hs.2⟩
        · exact fun _ _ _ => trivial
      · refine Calls.triple_some_bind (fun stored sealed => ?_) fun _ _ => trivial
        apply triple_ret
        intro s hs
        refine ⟨⟨rfl, ?_⟩, hs⟩
        rw [ColumnHolds, if_pos phi]
        refine ⟨owner, field, place, found, ?_⟩
        rw [if_neg given]
        exact ⟨stored, rfl, decryptField_sealed sealed dek_opens.1 dek_opens.2⟩
  next plain =>
    refine Calls.triple_some_bind (fun v bound => ?_) fun _ _ => trivial
    apply triple_ret
    intro s hs
    refine ⟨⟨rfl, ?_⟩, hs⟩
    rw [ColumnHolds, if_neg plain]
    exact bound

theorem bindColumns_hold (hp : p ∈ providers) (msg : Msg) (columns : List DaoColumn) :
    Triple (StoreReadyWith R.schema root providers J)
      ((Calls.collect (bindColumn R.toDaoEnv p d msg) columns).attempt Request.exec)
      (fun cells s => List.Forall₂ (CellHolds R p d msg) columns cells ∧
        StoreReadyWith R.schema root providers J s) fun _ => True := by
  refine triple_mono (Calls.triple_collect (fun done cells s =>
    List.Forall₂ (CellHolds R p d msg) done cells ∧ StoreReadyWith R.schema root providers J s) ?_)
    (fun s hs => ⟨.nil, hs⟩) fun _ _ hs => hs
  intro done cells col rest _
  apply triple_pure
  intro so_far
  apply triple_mono (bindColumn_holds hp msg col) (fun _ hs => hs)
  intro cell s hs
  exact ⟨List.rel_append so_far (.cons hs.1 .nil), hs.2⟩

end Bind

/-- A row has been added for a message, under a key that none had. -/
structure RowMade (R : ReadEnv) (root : Dao) (p : KeyProvider) (d : Dao) (msg msg' : Msg) (key : Value)
    (r : Row) (before db : Db) : Prop where
  fresh : key ∉ before.values d.table pk
  given : key ≠ .null
  own : r.get pk = key
  keyed : pkValue R.toDaoEnv d msg' = some key
  since : Undisturbed R.schema root (otherKeys d key) before db
  filled : Filled d key r (fun _ => []) db
  changed : msg.Changed [[pk]] msg'
  columns : ∃ t, db.get? d.table = some t ∧
    ∀ col ∈ d.columns, ColumnHolds R p d.message msg' col (t.lookup r col.name)

section Insert

variable {R : ReadEnv} {root d : Dao} {providers : Set KeyProvider} {p : KeyProvider} {J : Db → Prop}
  (separate : SeparateTables R.schema root) (hd : StoredThrough R.schema root d) (keyed : Keyed d)
  {msg msg' : Msg} {key : Value} {r : Row} {s s' : DbSession} {columns : List DaoColumn}
  {cells : List Cell}

/-- The names and values of the cells bound for some columns. -/
theorem cells_of_bound (bound : List.Forall₂ (CellHolds R p d msg) columns cells)
    (names : (columns.map fun c => fold c.name).Nodup) :
    ((cells.map Cell.binding).map fun e => fold e.1).Nodup ∧
      (∀ e ∈ cells.map Cell.binding, ∃ col ∈ columns, e.1 = col.name ∧
        ColumnHolds R p d.message msg col e.2) ∧
      ∀ col ∈ columns, ∃ v, (col.name, v) ∈ cells.map Cell.binding ∧
        ColumnHolds R p d.message msg col v := by
  refine ⟨?_, fun e he => ?_, fun col hcol => ?_⟩
  · have same : cells.map Cell.column = columns.map DaoColumn.name :=
      map_eq_of_forall₂ bound fun col cell holds => holds.1
    have distinct : ((columns.map DaoColumn.name).map fold).Nodup := by
      rw [List.map_map]
      exact names
    rw [← same, List.map_map] at distinct
    rw [List.map_map]
    exact distinct
  · obtain ⟨cell, hcell, rfl⟩ := List.mem_map.mp he
    obtain ⟨col, hcol, holds⟩ := exists_of_forall₂ (List.Forall₂.flip bound) hcell
    exact ⟨col, hcol, holds.1, holds.2⟩
  · obtain ⟨cell, hcell, name, holds⟩ := exists_of_forall₂ bound hcol
    refine ⟨cell.value, ?_, holds⟩
    rw [← name]
    exact List.mem_map_of_mem hcell

include separate hd keyed

/-- A row that SQLite has numbered. -/
theorem rowMade_autokey (storable : d.Storable R.toDaoEnv) (hs : StoreReady R.schema root providers s)
    (bound : List.Forall₂ (CellHolds R p d msg) (keylessColumns d) cells) {db : Db} {k : Int}
    (done : s.db.insert d.table (cells.map Cell.binding) = some (db, r)) (own : r.get pk = .int k) :
    RowMade R root p d msg (msg.set pk (some (.scalar (.int k)))) (.int k) r s.db db := by
  have given : Value.int k ≠ .null := Value.noConfusion
  obtain ⟨fresh, filled⟩ := filled_insert_row separate hd hs.tables hs.owners done own given
  have since := undisturbed_insert separate hd d.row_place done own given
  have names : ((keylessColumns d).map fun c => fold c.name).Nodup :=
    (separate.columns d hd).sublist (List.filter_sublist.map _)
  obtain ⟨nodup, sources, holds⟩ := cells_of_bound bound names
  refine ⟨fresh, given, own, keyed.pkValue_set msg k, since, filled, Msg.changed_set msg pk _, ?_⟩
  obtain ⟨t, ht, stored⟩ := Db.lookup_of_insert done nodup fun cs hcs c hc keyCol e he same => by
    obtain ⟨col, hcol, name, _⟩ := sources e he
    have key := hs.tables.row d hd cs hcs c hc keyCol
    exact absurd (key.symm.trans (name ▸ same).symm) (separate.keyless hd keyed hcol)
  have key_given : r.get pk ≠ .null := by rw [own]; exact given
  obtain ⟨t', ht', numbered⟩ := Db.lookup_insert done key_given
  cases ht.symm.trans ht'
  refine ⟨t, ht, columns_of_keyless storable keyed (separate.columns d hd) ?_ fun col hcol => ?_⟩
  · rw [numbered, own]
  · obtain ⟨v, mem, held⟩ := holds col hcol
    have value := stored (col.name, v) mem
    rw [value]
    exact held

/-- A row under the key that the message came with. -/
theorem rowMade_given (hs : StoreReady R.schema root providers s)
    (bound : List.Forall₂ (CellHolds R p d msg) d.columns cells) {db : Db}
    (hkey : pkValue R.toDaoEnv d msg = some key)
    (done : s.db.insert d.table (cells.map Cell.binding) = some (db, r)) :
    RowMade R root p d msg msg key r s.db db := by
  have given := keyed.key_ne_null hkey
  obtain ⟨nodup, sources, holds⟩ := cells_of_bound bound (separate.columns d hd)
  obtain ⟨keyCol, hcol, name, path, fk, phi, presence⟩ := keyed.column
  have keyValue : ∀ v, ColumnHolds R p d.message msg keyCol v → v = key := by
    intro v held
    rw [ColumnHolds, if_neg (by simp [phi])] at held
    rw [columnValue_key (E := R.toDaoEnv) path fk presence, hkey] at held
    exact (Option.some.inj held).symm
  have atKey : ∀ e ∈ cells.map Cell.binding, fold e.1 = fold pk → e.2 = key := by
    intro e he same
    obtain ⟨col, hcol', name', held⟩ := sources e he
    have one : col = keyCol := List.inj_on_of_nodup_map (separate.columns d hd) hcol' hcol (by
      rw [name, ← same, name'])
    rw [one] at held
    exact keyValue _ held
  obtain ⟨t, ht, stored⟩ := Db.lookup_of_insert done nodup fun cs hcs c hc keyed' e he same => by
    have key := hs.tables.row d hd cs hcs c hc keyed'
    rw [atKey e he (same.trans key)]
    exact given
  obtain ⟨v, mem, held⟩ := holds keyCol hcol
  have own : r.get pk = key := by
    have there := (Db.stores_of_insert done nodup (keyCol.name, v) mem).resolve_left (by
      rw [keyValue v held]
      exact given)
    rw [name] at there
    rw [there]
    exact keyValue v held
  obtain ⟨fresh, filled⟩ := filled_insert_row separate hd hs.tables hs.owners done own given
  refine ⟨fresh, given, own, hkey, undisturbed_insert separate hd d.row_place done own given, filled,
    .refl _ msg, t, ht, fun col hcol => ?_⟩
  obtain ⟨v, mem, held⟩ := holds col hcol
  have value := stored (col.name, v) mem
  rw [value]
  exact held

omit keyed in
theorem StoreReady.insert_row (hs : StoreReady R.schema root providers s) {entry : Entry} {db : Db}
    (done : s.db.insert d.table entry = some (db, r)) (given : r.get pk ≠ .null) :
    StoreReady R.schema root providers (s.withDb db) := by
  have standing : Standing R.schema root ∅ s.db := ⟨hs.owners, fun e he => by cases he⟩
  exact ⟨(standing.insert_row separate hd done rfl given).owners,
    hs.tables.congr (Db.columns_insert done), hs.opens⟩

/-- `_create` adds the row of a message. -/
theorem insertRow_made (storable : d.Storable R.toDaoEnv) (hp : p ∈ providers) :
    Triple (StoreReadyWith R.schema root providers J)
      ((insertRow R.toDaoEnv p d setKey msg).attempt Request.exec)
      (fun msg' s => ∃ key r before, (RowMade R root p d msg msg' key r before s.db ∧ J before) ∧
        StoreReady R.schema root providers s) fun _ => True := by
  refine Calls.triple_some_bind (fun key hkey => ?_) fun _ _ => trivial
  split
  · refine Calls.triple_bind (bindColumns_hold hp msg _) fun cells => triple_pure fun bound => ?_
    refine Calls.triple_bind (Q := fun r s => ∀ k, r.get pk = .int k → ∃ before,
      (RowMade R root p d msg (msg.set pk (some (.scalar (.int k)))) (.int k) r before s.db ∧
        J before) ∧ StoreReady R.schema root providers s) ?_ fun r => ?_
    · apply Calls.triple_send
      · intro s r s' hs answered k own
        obtain ⟨out, inserted, same⟩ := Option.map_eq_some_iff.mp answered
        obtain ⟨rfl, rfl⟩ := Prod.mk.inj same
        refine ⟨s.db, ⟨rowMade_autokey separate hd keyed storable hs.1 bound inserted own, hs.2⟩, ?_⟩
        exact hs.1.insert_row separate hd inserted (by rw [own]; exact Value.noConfusion)
      · exact fun _ _ _ => trivial
    · split
      next k own =>
        refine Calls.triple_some_bind (fun assigned same => ?_) fun _ _ => trivial
        obtain rfl := setKey_eq same
        apply triple_ret
        intro s hs
        obtain ⟨before, made⟩ := hs assigned own
        exact ⟨.int assigned, r, before, made⟩
      next => exact triple_fail fun _ _ => trivial
  · refine Calls.triple_bind (bindColumns_hold hp msg _) fun cells => triple_pure fun bound => ?_
    refine Calls.triple_bind (Q := fun r s => ∃ before,
      (RowMade R root p d msg msg key r before s.db ∧ J before) ∧
        StoreReady R.schema root providers s) ?_ fun r => ?_
    · apply Calls.triple_send
      · intro s r s' hs answered
        obtain ⟨out, inserted, same⟩ := Option.map_eq_some_iff.mp answered
        obtain ⟨rfl, rfl⟩ := Prod.mk.inj same
        have made := rowMade_given separate hd keyed hs.1 bound hkey inserted
        refine ⟨s.db, ⟨made, hs.2⟩, hs.1.insert_row separate hd inserted ?_⟩
        rw [made.own]
        exact made.given
      · exact fun _ _ _ => trivial
    · apply triple_ret
      intro s ⟨before, made⟩
      exact ⟨key, r, before, made⟩

end Insert

end Harpia
