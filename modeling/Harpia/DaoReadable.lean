import Harpia.DaoCreateRow
import Harpia.DaoGenerated
import Mathlib.Data.List.Nodup

namespace Harpia

open Text Proto

section Kinds

variable {types : Types} {v : Variable}

theorem leaf_of_rep (rep : .REPETEABLE ∈ v.modifiers) : embedTarget types v = none := by
  unfold embedTarget
  rw [if_neg]
  exact fun both => both.2 rep

theorem ChildKind.leaf {kind : DaoChildKind} (h : ChildKind types v kind) : embedTarget types v = none := by
  cases h with
  | map h =>
    unfold embedTarget
    rw [if_neg]
    exact fun both => typeMap_ne_nil h both.1
  | scalars h => exact leaf_of_rep h.2.1
  | links _ rep _ _ => exact leaf_of_rep rep
  | elements _ rep _ _ _ => exact leaf_of_rep rep

theorem ChildKind.not_singular {kind : DaoChildKind} (h : ChildKind types v kind) :
    v.singular = false := by
  cases h with
  | map h => simp [Variable.singular, typeMap_ne_nil h]
  | scalars h => simp [Variable.singular, h.2.1]
  | links _ rep _ _ => simp [Variable.singular, rep]
  | elements _ rep _ _ _ => simp [Variable.singular, rep]

theorem ColumnKind.singular {col : DaoColumn} (h : ColumnKind types v col) : v.singular = true := by
  cases h with
  | embed h _ _ _ =>
    obtain ⟨m, hm⟩ := Option.isSome_iff_exists.mp h
    obtain ⟨plain, single, _⟩ := embedTarget_eq_some hm
    exact singular_iff.mpr ⟨plain, single⟩
  | table single _ _ _ _ _ => exact single
  | value h _ _ =>
    rw [isScalarField, Bool.and_eq_true] at h
    exact h.1

/-- A column's field is one that the model stores in the row. -/
theorem ColumnKind.stored {col : DaoColumn} (h : ColumnKind types v col) :
    HasColumn types v ∨ (embedTarget types v).isSome := by
  obtain ⟨plain, single⟩ := singular_iff.mp h.singular
  cases h with
  | embed h _ _ _ => exact .inr h
  | table _ type found _ _ _ => exact .inl ⟨plain, single, .inr ⟨_, .table, _, type, found, by simp⟩⟩
  | value h _ _ =>
    rw [isScalarField, Bool.and_eq_true, Bool.or_eq_true] at h
    rcases h.2 with token | enum
    · exact .inl ⟨plain, single, .inl token⟩
    · unfold isEnumType at enum
      split at enum
      next target type =>
        obtain ⟨⟨k, m⟩, found, kind⟩ := (Option.any_eq_true _ _).mp enum
        have isEnum : k = .enum := by simpa using kind
        exact .inl ⟨plain, single, .inr ⟨target, k, m, type, found, by simp [isEnum]⟩⟩
      next => cases enum

theorem leaf_of_table {target : String} {m : Message} (type : v.type = .ID target)
    (found : lookupType types target = some (.table, m)) : embedTarget types v = none := by
  unfold embedTarget
  split
  · rw [type]
    simp only [found]
  · rfl

theorem leaf_of_value (h : isScalarField types v) : embedTarget types v = none := by
  cases he : embedTarget types v with
  | none => rfl
  | some m =>
    obtain ⟨_, _, target, type, found⟩ := embedTarget_eq_some he
    simp [isScalarField, isScalarToken, isEnumType, type, found] at h

theorem ColumnKind.leaf_of_value {col : DaoColumn} (h : ColumnKind types v col)
    (value : col.presence = false) : embedTarget types v = none := by
  cases h with
  | embed _ presence _ _ =>
    rw [value] at presence
    cases presence
  | table _ type found _ _ _ => exact leaf_of_table type found
  | value h _ _ => exact Harpia.leaf_of_value h

theorem ColumnKind.leaf {col : DaoColumn} (h : ColumnKind types v col) (fk : col.fk.isSome) :
    embedTarget types v = none := by
  cases h with
  | embed _ _ none_ _ => simp [none_] at fk
  | table _ type found _ _ _ => exact leaf_of_table type found
  | value h _ _ => exact Harpia.leaf_of_value h

end Kinds

theorem chain_above {types : Types} {places above rest : List Place} {q : Place}
    (h : Chain types places (above ++ q :: rest)) : Chain types places (above ++ [q]) := by
  induction above generalizing places with
  | nil => exact .last (chain_cons h).1
  | cons p above ih =>
    obtain ⟨hp, none_ | ⟨m, embed, below⟩⟩ := chain_cons h
    · simp at none_
    · exact .step hp embed (ih below)

theorem message_of_daoClass {S : Schema} {target : String} {d : Dao} (h : daoClass S target = some d)
    {m : Message} (found : lookupType S.types target = some (.table, m)) : d.message = m := by
  obtain ⟨m', hm', h⟩ := Option.bind_eq_some_iff.mp h
  obtain ⟨columns, _, h⟩ := Option.bind_eq_some_iff.mp h
  obtain ⟨maps, _, h⟩ := Option.bind_eq_some_iff.mp h
  obtain ⟨repeateds, _, rfl⟩ := Option.map_eq_some_iff.mp h
  obtain ⟨mem, named, _⟩ := typeRegistry_mem found
  have same : m'.name = target ∧ m'.kind = .table := by simpa using List.find?_some hm'
  exact List.inj_on_of_nodup_map S.names_nodup (List.mem_of_find?_eq_some hm') mem
    (same.1.trans named.symm)

section Generated

variable {S : Schema} {name : String} {dao : Dao} (class_ : daoClass S name = some dao)
  (reach : PathsReach sqlite S dao.message)

include class_ reach

/-- Below an embed, there is a column for its presence. -/
theorem presence_of_embed {above : List Place} {q p : Place} {steps : List String}
    (reached : resolve S.types dao.message steps = some (above ++ [q] ++ [p]))
    (chain : Chain S.types dao.message.places (above ++ [q])) :
    ∃ col ∈ dao.columns, col.presence ∧ col.path = ⟨spelled above, q.1.name⟩ := by
  rw [List.append_assoc, List.singleton_append] at reached
  have embed := embed_of_resolve reached (by simp)
  have isDao := isDao_of_daoClass class_
  obtain ⟨e, he, path, c, hc⟩ := emitted_exists (b := sqlite) S isDao.mem chain (.inr (.inl embed))
  obtain ⟨above', q', path', source, _⟩ := emitted_source he hc
  obtain ⟨rfl, last⟩ := List.append_inj' (path.symm.trans path') rfl
  obtain rfl := List.singleton_inj.mp last
  -- no other column is for an embed
  have presence : c.presenceOf ≠ [] ∧ c.fkTable = false := by
    cases source with
    | embed _ presence table _ => exact ⟨presence, table⟩
    | table _ type found _ _ _ =>
      rw [leaf_of_table type found] at embed
      cases embed
    | value h _ _ =>
      rw [leaf_of_value h] at embed
      cases embed
    | unresolved h _ _ _ _ =>
      rw [unresolved_not_embed h] at embed
      cases embed
  have analyzed : c ∈ (analyze sqlite S.types S.fuel dao.message).1 := by
    rw [analyze_eq_emitted S isDao.mem]
    exact List.mem_flatMap.mpr ⟨e, he, hc⟩
  have bound : c ∈ boundColumns (analyze sqlite S.types S.fuel dao.message).1 := by
    apply List.mem_append_left
    apply List.mem_filter.mpr
    simp [analyzed, presence.1, presence.2]
  obtain ⟨col, hcol, spec⟩ := column_of_bound class_ bound
  obtain ⟨above', q', path', placed, _⟩ := placed_of_spec reach he hc spec
  obtain ⟨rfl, last⟩ := List.append_inj' (path.symm.trans path') rfl
  obtain rfl := List.singleton_inj.mp last
  refine ⟨col, hcol, ?_, placed.path⟩
  obtain ⟨_, _, rfl⟩ := Option.map_eq_some_iff.mp spec
  simp [presence.1]

/-- A field has one column. -/
theorem column_unique {col col' : DaoColumn} (hcol : col ∈ dao.columns) (hcol' : col' ∈ dao.columns)
    {above : List Place} {p : Place} (placed : PlacedAt S.types dao.message col.path above p)
    (placed' : PlacedAt S.types dao.message col'.path above p) : col = col' := by
  have isDao := isDao_of_daoClass class_
  obtain ⟨above₁, p₁, e, he, c, hc, path, spec, placed₁, kind⟩ := placed_column reach class_ hcol
  obtain ⟨above₂, p₂, e', he', c', hc', path', spec', placed₂, _⟩ := placed_column reach class_ hcol'
  obtain ⟨rfl, rfl⟩ := placed₁.unique placed
  obtain ⟨rfl, rfl⟩ := placed₂.unique placed'
  obtain ⟨_, chain, _⟩ := emitted_column he hc
  rw [path] at chain
  obtain ⟨e₀, one, emission⟩ := emittedAt_eq (b := sqlite) isDao.mem chain
  have at_ : ∀ e ∈ emitted sqlite S.types S.fuel dao.message, e.path = above₂ ++ [p₂] → e = e₀ := by
    intro e he path
    have mem : e ∈ emittedAt sqlite S dao.message (above₂ ++ [p₂]) :=
      List.mem_filter.mpr ⟨he, decide_eq_true path⟩
    rw [one] at mem
    exact List.mem_singleton.mp mem
  rw [at_ e he path] at hc
  rw [at_ e' he' path'] at hc'
  obtain ⟨length, _⟩ := emission.column kind.stored
  obtain ⟨c₀, only⟩ := List.length_eq_one_iff.mp length
  rw [only] at hc hc'
  rw [List.mem_singleton.mp hc] at spec
  rw [List.mem_singleton.mp hc'] at spec'
  exact Option.some.inj (spec.symm.trans spec')

omit class_ in
/-- A field has one child table. -/
theorem child_unique (isDao : IsDao S dao) (names : (dao.tables.map Sqlite.fold).Nodup)
    {child child' : DaoChild} (hc : child ∈ dao.children) (hc' : child' ∈ dao.children)
    {above : List Place} {p : Place} (placed : PlacedAt S.types dao.message child.path above p)
    (placed' : PlacedAt S.types dao.message child'.path above p) : child = child' := by
  obtain ⟨_, _, placed₁, _, table⟩ := placed_child reach isDao hc
  obtain ⟨_, _, placed₂, _, table'⟩ := placed_child reach isDao hc'
  obtain ⟨rfl, rfl⟩ := placed₁.unique placed
  obtain ⟨rfl, rfl⟩ := placed₂.unique placed'
  rw [Dao.tables, List.map_cons, List.map_map, List.nodup_cons] at names
  exact List.inj_on_of_nodup_map names.2 hc hc' (congrArg Sqlite.fold (table.trans table'.symm))

theorem column_prefixed {col col' : DaoColumn} (hcol : col ∈ dao.columns) (fk : col.fk.isSome)
    (hcol' : col' ∈ dao.columns) (start : col.path.steps <+: col'.path.steps) : col = col' := by
  obtain ⟨above, p, _, _, _, _, _, _, placed, kind⟩ := placed_column reach class_ hcol
  obtain ⟨above', p', _, _, _, _, _, _, placed', _⟩ := placed_column reach class_ hcol'
  obtain ⟨rfl, rfl⟩ := placed.eq_of_prefix placed' (kind.leaf fk) start
  exact column_unique class_ reach hcol hcol' placed placed'

theorem column_prefix_child {col : DaoColumn} (hcol : col ∈ dao.columns) (fk : col.fk.isSome)
    {child : DaoChild} (hc : child ∈ dao.children) : ¬ col.path.steps <+: child.path.steps := by
  intro start
  obtain ⟨above, p, _, _, _, _, _, _, placed, kind⟩ := placed_column reach class_ hcol
  obtain ⟨above', p', placed', kind', _⟩ := placed_child reach (isDao_of_daoClass class_) hc
  obtain ⟨_, rfl⟩ := placed.eq_of_prefix placed' (kind.leaf fk) start
  exact absurd (kind.singular.symm.trans kind'.not_singular) (by simp)

theorem child_prefix_column {child : DaoChild} (hc : child ∈ dao.children) {col : DaoColumn}
    (hcol : col ∈ dao.columns) : ¬ child.path.steps <+: col.path.steps := by
  intro start
  obtain ⟨above, p, _, _, _, _, _, _, placed, kind⟩ := placed_column reach class_ hcol
  obtain ⟨above', p', placed', kind', _⟩ := placed_child reach (isDao_of_daoClass class_) hc
  obtain ⟨_, rfl⟩ := placed'.eq_of_prefix placed kind'.leaf start
  exact absurd (kind.singular.symm.trans kind'.not_singular) (by simp)

omit class_ in
theorem child_prefixed (isDao : IsDao S dao) (names : (dao.tables.map Sqlite.fold).Nodup)
    {child child' : DaoChild} (hc : child ∈ dao.children) (hc' : child' ∈ dao.children)
    (start : child.path.steps <+: child'.path.steps) : child = child' := by
  obtain ⟨above, p, placed, kind, _⟩ := placed_child reach isDao hc
  obtain ⟨above', p', placed', _, _⟩ := placed_child reach isDao hc'
  obtain ⟨rfl, rfl⟩ := placed.eq_of_prefix placed' kind.leaf start
  exact child_unique reach isDao names hc hc' placed placed'

/-- The message that a column is in has a column for its presence. -/
theorem presence_of_owner {col : DaoColumn} (hcol : col ∈ dao.columns) {above : List String}
    {field : String} (owner : col.path.owner = above ++ [field]) :
    ∃ c ∈ dao.columns, c.presence ∧ c.path = ⟨above, field⟩ := by
  obtain ⟨above', p, e, he, c, hc, path, _, placed, _⟩ := placed_column reach class_ hcol
  obtain ⟨steps, reached⟩ := placed.reached
  obtain ⟨_, chain, _⟩ := emitted_column he hc
  rw [placed.path] at owner
  have some_ : above' ≠ [] := fun none_ => by
    rw [none_] at owner
    simp [spelled] at owner
  obtain ⟨up, q, rfl⟩ : ∃ up q, above' = up ++ [q] :=
    ⟨above'.dropLast, above'.getLast some_, (List.dropLast_append_getLast some_).symm⟩
  rw [path, List.append_assoc, List.singleton_append] at chain
  obtain ⟨found, hfound, presence, at_⟩ := presence_of_embed class_ reach reached (chain_above chain)
  have split_ : spelled up ++ [q.1.name] = above ++ [field] := by
    rw [← owner]
    simp [spelled]
  obtain ⟨same, last⟩ := List.append_inj' split_ rfl
  refine ⟨found, hfound, presence, ?_⟩
  rw [at_, same, List.singleton_inj.mp last]

/-- No field whose value stands in another row is below another one. -/
theorem elsewhere_apart (columns : (dao.columns.map fun c => Sqlite.fold c.name).Nodup)
    (tables : (dao.tables.map Sqlite.fold).Nodup) :
    dao.elsewhere.Pairwise fun a b => ¬ a <+: b ∧ ¬ b <+: a := by
  have isDao := isDao_of_daoClass class_
  rw [Dao.elsewhere, List.pairwise_append, List.pairwise_map, List.pairwise_map]
  refine ⟨?_, ?_, ?_⟩
  · have nodup : dao.columns.Nodup := columns.of_map _
    apply List.Nodup.pairwise_of_forall_ne (nodup.filter _)
    intro col hcol col' hcol' apart
    obtain ⟨mem, fk⟩ := List.mem_filter.mp hcol
    obtain ⟨mem', fk'⟩ := List.mem_filter.mp hcol'
    exact ⟨fun start => apart (column_prefixed class_ reach mem fk mem' start),
      fun start => apart (column_prefixed class_ reach mem' fk' mem start).symm⟩
  · have nodup : dao.children.Nodup := by
      have names := tables
      rw [Dao.tables, List.map_cons, List.map_map, List.nodup_cons] at names
      exact names.2.of_map _
    apply List.Nodup.pairwise_of_forall_ne nodup
    intro child hc child' hc' apart
    exact ⟨fun start => apart (child_prefixed reach isDao tables hc hc' start),
      fun start => apart (child_prefixed reach isDao tables hc' hc start).symm⟩
  · intro steps hs steps' hs'
    obtain ⟨col, hcol, rfl⟩ := List.mem_map.mp hs
    obtain ⟨child, hc, rfl⟩ := List.mem_map.mp hs'
    obtain ⟨mem, fk⟩ := List.mem_filter.mp hcol
    exact ⟨column_prefix_child class_ reach mem fk hc, child_prefix_column class_ reach hc mem⟩

/-- A generated DAO can be read: where the model's paths reach their fields, and SQLite tells its
columns and tables apart. -/
theorem readable_of_daoClass (columns : (dao.columns.map fun c => Sqlite.fold c.name).Nodup)
    (tables : (dao.tables.map Sqlite.fold).Nodup) : dao.Readable S := by
  have isDao := isDao_of_daoClass class_
  constructor
  case phi =>
    intro col hcol phi
    obtain ⟨above, p, _, _, _, _, _, _, placed, kind⟩ := placed_column reach class_ hcol
    cases kind with
    | embed _ _ _ none_ =>
      rw [none_] at phi
      cases phi
    | table _ _ _ _ _ none_ =>
      rw [none_] at phi
      cases phi
    | value h presence fk => exact ⟨presence, fk, fun field at_ => placed.fieldAt.mp at_ ▸ h⟩
  case presence =>
    intro col hcol set_ field at_
    obtain ⟨above, p, _, _, _, _, _, _, placed, kind⟩ := placed_column reach class_ hcol
    rw [placed.fieldAt.mp at_]
    cases kind with
    | embed h _ _ _ =>
      obtain ⟨m, hm⟩ := Option.isSome_iff_exists.mp h
      rw [subType_of_embed hm, Option.isSome_some]
    | table _ _ _ none_ _ _ =>
      rw [none_] at set_
      cases set_
    | value _ none_ _ =>
      rw [none_] at set_
      cases set_
  case fk =>
    intro col hcol target fk
    obtain ⟨above, p, _, _, _, _, _, _, placed, kind⟩ := placed_column reach class_ hcol
    cases kind with
    | embed _ _ none_ _ =>
      rw [fk] at none_
      cases none_
    | @table target' m single type found presence fk' _ =>
      rw [fk] at fk'
      cases fk'
      refine ⟨presence, fun field at_ d hd => ?_⟩
      rw [placed.fieldAt.mp at_, subType, if_pos single, message_of_daoClass hd found]
      simp only [messageType, type, found]
    | value _ _ none_ =>
      rw [fk] at none_
      cases none_
  case guarded => exact fun col hcol _ _ _ _ => presence_of_owner class_ reach hcol
  case maps =>
    intro child hc kind field at_
    obtain ⟨above, p, placed, is_, _⟩ := placed_child reach isDao hc
    rw [placed.fieldAt.mp at_]
    rw [kind] at is_
    cases is_ with
    | map h =>
      obtain ⟨key, value, rest, typeMap, _⟩ := h
      exact ⟨key, value, by rw [typeMap]; rfl, by rw [typeMap]; rfl⟩
  case lists =>
    intro child hc kind field at_
    obtain ⟨above, p, placed, is_, _⟩ := placed_child reach isDao hc
    rw [placed.fieldAt.mp at_]
    rw [kind] at is_
    cases is_ with
    | scalars h => exact ⟨h.1, h.2.1, by rw [h.2.2, Bool.true_or]⟩
  case elements =>
    intro child hc target kind field at_ d hd
    obtain ⟨above, p, placed, is_, _⟩ := placed_child reach isDao hc
    rw [placed.fieldAt.mp at_]
    rw [kind] at is_
    cases is_ with
    | links _ _ type found =>
      rw [message_of_daoClass hd found]
      simp only [messageType, type, found]
  case composed =>
    intro child hc columns kind
    obtain ⟨above, p, placed, is_, _⟩ := placed_child reach isDao hc
    rw [kind] at is_
    cases is_ with
    | elements _ _ _ _ flat => exact flat
  case apart => exact elsewhere_apart class_ reach columns tables

/-- A generated DAO can store, where SQLite tells the columns of its child tables apart. -/
theorem storable_of_daoClass {E : DaoEnv} (schema : E.schema = S)
    (elements : ∀ child ∈ dao.children, ∀ columns, child.kind = .composed columns →
      (("owner" :: "ordinal" :: columns.map DaoColumn.name).map Sqlite.fold).Nodup) :
    dao.Storable E := by
  subst schema
  have isDao := isDao_of_daoClass class_
  have keyed := keyed_of_daoClass class_
  obtain ⟨keyCol, hkey, named, keyPath, keyFk, _, keyValue⟩ := keyed.column
  have keySteps : keyCol.path.steps = [pk] := by rw [keyPath]; rfl
  constructor
  case elements => exact elements
  case links =>
    intro col hcol fk owner place field found
    obtain ⟨above, p, _, _, _, _, _, _, placed, kind⟩ := placed_column reach class_ hcol
    rw [placed.fieldAt.mp ⟨owner, place, found⟩]
    cases kind with
    | embed _ _ none_ _ => simp [none_] at fk
    | table single type found _ _ _ =>
      rw [subType, if_pos single]
      simp only [messageType, type, found, Option.isSome_some]
    | value _ _ none_ => simp [none_] at fk
  case beside =>
    intro col hcol none_ steps hs start
    rcases List.mem_append.mp hs with hs | hs
    · obtain ⟨col', hcol', rfl⟩ := List.mem_map.mp hs
      obtain ⟨mem, fk⟩ := List.mem_filter.mp hcol'
      rw [column_prefixed class_ reach mem fk hcol start, none_] at fk
      cases fk
    · obtain ⟨child, hc, rfl⟩ := List.mem_map.mp hs
      exact child_prefix_column class_ reach hc hcol start
  case key =>
    intro steps hs start
    rw [← keySteps] at start
    obtain ⟨above, p, _, _, _, _, _, _, placed, kind⟩ := placed_column reach class_ hkey
    have leaf := kind.leaf_of_value keyValue
    rcases List.mem_append.mp hs with hs | hs
    · obtain ⟨col', hcol', rfl⟩ := List.mem_map.mp hs
      obtain ⟨mem, fk⟩ := List.mem_filter.mp hcol'
      obtain ⟨above', p', _, _, _, _, _, _, placed', _⟩ := placed_column reach class_ mem
      obtain ⟨rfl, rfl⟩ := placed.eq_of_prefix placed' leaf start
      rw [← column_unique class_ reach hkey mem placed placed', keyFk] at fk
      cases fk
    · obtain ⟨child, hc, rfl⟩ := List.mem_map.mp hs
      obtain ⟨above', p', placed', kind', _⟩ := placed_child reach isDao hc
      obtain ⟨rfl, rfl⟩ := placed.eq_of_prefix placed' leaf start
      exact absurd (kind.singular.symm.trans kind'.not_singular) (by simp)
  case keyColumn =>
    intro col hcol other start
    rw [← keySteps] at start
    obtain ⟨above, p, _, _, _, _, _, _, placed, kind⟩ := placed_column reach class_ hkey
    obtain ⟨above', p', _, _, _, _, _, _, placed', _⟩ := placed_column reach class_ hcol
    obtain ⟨rfl, rfl⟩ := placed.eq_of_prefix placed' (kind.leaf_of_value keyValue) start
    exact other (column_unique class_ reach hkey hcol placed placed' ▸ named)

end Generated

/-- The names of tables and of columns are told apart by SQLite, those of element columns too. -/
structure SeparateNames (S : Schema) (root : Dao) : Prop extends SeparateTables S root where
  elements : ∀ d, StoredThrough S root d → ∀ child ∈ d.children, ∀ columns,
    child.kind = .composed columns →
      (("owner" :: "ordinal" :: columns.map DaoColumn.name).map Sqlite.fold).Nodup

section Through

variable {S : Schema} {name : String} {root : Dao} (class_ : daoClass S name = some root)
  (clear : AllAccessClear S)

include class_ clear

theorem reach_through {d : Dao} (hd : StoredThrough S root d) : PathsReach sqlite S d.message := by
  obtain ⟨_, stored⟩ := storedThrough_class class_ hd
  have isDao := isDao_of_daoClass stored
  exact (pathsReach_iff isDao.mem isDao.table).mpr (clear d.message isDao.mem isDao.table)

theorem readable_through (names : SeparateNames S root) (d : Dao) (hd : StoredThrough S root d) :
    d.Readable S := by
  obtain ⟨_, stored⟩ := storedThrough_class class_ hd
  exact readable_of_daoClass stored (reach_through class_ clear hd) (names.columns d hd)
    (names.tables d hd)

theorem storable_through {E : DaoEnv} (schema : E.schema = S) (names : SeparateNames S root) (d : Dao)
    (hd : StoredThrough S root d) : d.Storable E := by
  obtain ⟨_, stored⟩ := storedThrough_class class_ hd
  exact storable_of_daoClass stored (reach_through class_ clear hd) schema (names.elements d hd)

end Through

end Harpia
