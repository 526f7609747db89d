import Harpia.DaoEncryption
import Harpia.DaoPaths

namespace Harpia

open Text Proto

/-- What a column of a DAO is for. -/
inductive ColumnKind (types : Types) (v : Variable) (col : DaoColumn) : Prop
  | embed (h : (embedTarget types v).isSome) (presence : col.presence) (fk : col.fk = none)
      (phi : col.phi = false)
  | table {target : String} {m : Message} (single : v.singular) (type : v.type = .ID target)
      (found : lookupType types target = some (.table, m)) (presence : col.presence = false)
      (fk : col.fk = some target) (phi : col.phi = false)
  | value (h : isScalarField types v) (presence : col.presence = false) (fk : col.fk = none)

/-- The element columns are fields of the element itself. -/
def FlatColumns (columns : List DaoColumn) : Prop :=
  ∀ col ∈ columns, col.path.owner = [] ∧ col.presence = false ∧ col.fk = none

theorem flat_of_specs {types : Types} {elem : Message} {cs : List Column} {columns : List DaoColumn}
    (all : cs.mapM (elementColumnSpec types elem) = some columns) : FlatColumns columns := by
  intro col hcol
  obtain ⟨c, _, found⟩ := mem_of_mapM all hcol
  obtain ⟨path, walked, rfl⟩ := Option.map_eq_some_iff.mp found
  have length := length_of_path walked
  refine ⟨?_, rfl, rfl⟩
  cases accessor : c.childAccessor with
  | none => simp [accessor, FieldPath.steps] at length
  | some step => simpa [accessor, FieldPath.steps] using length

/-- What a child table of a DAO is for. -/
inductive ChildKind (types : Types) (v : Variable) : DaoChildKind → Prop
  | map (h : ScalarMap v) : ChildKind types v .map
  | scalars (h : RepeatedScalar v) : ChildKind types v (.repeated none)
  | links {target : String} {m : Message} (plain : v.typeMap = []) (rep : .REPETEABLE ∈ v.modifiers)
      (type : v.type = .ID target) (found : lookupType types target = some (.table, m)) :
      ChildKind types v (.repeated (some target))
  | elements {target : String} {m : Message} {columns : List DaoColumn} (plain : v.typeMap = [])
      (rep : .REPETEABLE ∈ v.modifiers) (type : v.type = .ID target)
      (found : lookupType types target = some (.message, m)) (flat : FlatColumns columns) :
      ChildKind types v (.composed columns)

/-- How a child table is named after the fields down to its own. -/
def childSuffix : List Place → String
  | [p] => p.1.name
  | [p, q] => lower p.1.name ++ "_" ++ q.1.name
  | _ => ""

/-- The field that a part of a DAO is for. -/
structure PlacedAt (types : Types) (msg : Message) (path : FieldPath) (above : List Place) (p : Place) :
    Prop where
  reached : ∃ steps, resolve types msg steps = some (above ++ [p])
  path : path = ⟨spelled above, p.1.name⟩

section Specs

variable {types : Types} {msg : Message} {above : List Place} {p : Place}

theorem ofSteps_spelled {path : FieldPath}
    (h : FieldPath.ofSteps (spelled (above ++ [p])) = some path) : path = ⟨spelled above, p.1.name⟩ := by
  have split_ : spelled (above ++ [p]) = spelled above ++ [p.1.name] := by
    rw [spelled, List.map_append]
    rfl
  rw [split_, FieldPath.ofSteps, List.getLast?_concat, List.dropLast_concat] at h
  exact (Option.some.inj h).symm

theorem placed_of_walk {steps : List String} {path : FieldPath}
    (h : resolve types msg steps = some (above ++ [p]))
    (walked : (walk types msg steps).bind FieldPath.ofSteps = some path) :
    PlacedAt types msg path above p := by
  rw [walk_of_resolve h, Option.bind_some] at walked
  exact ⟨⟨steps, h⟩, ofSteps_spelled walked⟩

theorem PlacedAt.spelled_steps {path : FieldPath} (h : PlacedAt types msg path above p) :
    path.steps = spelled (above ++ [p]) := by
  rw [h.path, FieldPath.steps, spelled, spelled, List.map_append]
  rfl

theorem PlacedAt.fieldAt {path : FieldPath} (h : PlacedAt types msg path above p) {field : Variable} :
    FieldAt types msg path field ↔ field = p.1 := by
  obtain ⟨steps, reached⟩ := h.reached
  obtain ⟨d, place, found⟩ := place_of_resolve reached
  rw [h.path]
  constructor
  · rintro ⟨owner, place', found'⟩
    cases place.symm.trans place'
    exact Option.some.inj (found'.symm.trans found)
  · rintro rfl
    exact ⟨_, place, found⟩

theorem PlacedAt.unique {path : FieldPath} {above' : List Place} {p' : Place}
    (h : PlacedAt types msg path above p) (h' : PlacedAt types msg path above' p') :
    above = above' ∧ p = p' := by
  obtain ⟨_, reached⟩ := h.reached
  obtain ⟨_, reached'⟩ := h'.reached
  have same : spelled (above ++ [p]) = spelled (above' ++ [p']) :=
    h.spelled_steps.symm.trans h'.spelled_steps
  have start := prefix_of_spelled reached reached' (same ▸ List.prefix_refl _)
  have length := congrArg List.length same
  rw [spelled, spelled, List.length_map, List.length_map] at length
  obtain ⟨rfl, last⟩ := List.append_inj' (start.eq_of_length length) rfl
  exact ⟨rfl, List.singleton_inj.mp last⟩

/-- No field is above one that embeds no message. -/
theorem PlacedAt.eq_of_prefix {path path' : FieldPath} {above' : List Place} {p' : Place}
    (h : PlacedAt types msg path above p) (h' : PlacedAt types msg path' above' p')
    (leaf : embedTarget types p.1 = none) (start : path.steps <+: path'.steps) :
    above' = above ∧ p' = p := by
  obtain ⟨_, reached⟩ := h.reached
  obtain ⟨_, reached'⟩ := h'.reached
  rw [h.spelled_steps, h'.spelled_steps] at start
  obtain ⟨same, last⟩ := List.append_inj' (eq_of_spelled reached reached' leaf start) rfl
  exact ⟨same, List.singleton_inj.mp last⟩

end Specs

section Generated

variable {S : Schema} {name : String} {dao : Dao}

theorem IsDao.flat (h : IsDao S dao) {child : DaoChild} (hc : child ∈ dao.children)
    (columns : List DaoColumn) (kind : child.kind = .composed columns) : FlatColumns columns := by
  rcases h.child child hc with ⟨f, _, spec⟩ | ⟨f, _, spec⟩
  · obtain ⟨path, _, rfl⟩ := Option.map_eq_some_iff.mp spec
    cases kind
  · cases f with
    | scalar =>
      obtain ⟨path, _, rfl⟩ := Option.map_eq_some_iff.mp spec
      cases kind
    | composed =>
      obtain ⟨elem, _, spec⟩ := Option.bind_eq_some_iff.mp spec
      obtain ⟨path, _, spec⟩ := Option.bind_eq_some_iff.mp spec
      obtain ⟨columns', all, rfl⟩ := Option.map_eq_some_iff.mp spec
      cases kind
      exact flat_of_specs all

/-- A column of the model that is bound has its column in the DAO. -/
theorem column_of_bound (h : daoClass S name = some dao) {c : Column}
    (hc : c ∈ boundColumns (analyze sqlite S.types S.fuel dao.message).1) :
    ∃ col ∈ dao.columns, columnSpec S.types dao.message c = some col := by
  obtain ⟨m, hm, h⟩ := Option.bind_eq_some_iff.mp h
  obtain ⟨columns, hcolumns, h⟩ := Option.bind_eq_some_iff.mp h
  obtain ⟨maps, hmaps, h⟩ := Option.bind_eq_some_iff.mp h
  obtain ⟨repeateds, hrepeateds, rfl⟩ := Option.map_eq_some_iff.mp h
  exact exists_of_mapM hcolumns hc

theorem bound_of_column (h : daoClass S name = some dao) {col : DaoColumn} (hcol : col ∈ dao.columns) :
    ∃ c ∈ boundColumns (analyze sqlite S.types S.fuel dao.message).1,
      columnSpec S.types dao.message c = some col := by
  obtain ⟨m, hm, h⟩ := Option.bind_eq_some_iff.mp h
  obtain ⟨columns, hcolumns, h⟩ := Option.bind_eq_some_iff.mp h
  obtain ⟨maps, hmaps, h⟩ := Option.bind_eq_some_iff.mp h
  obtain ⟨repeateds, hrepeateds, rfl⟩ := Option.map_eq_some_iff.mp h
  exact mem_of_mapM hcolumns hcol

variable (reach : PathsReach sqlite S dao.message)

include reach

/-- A column of the model is in the DAO at the field that it is for. -/
theorem placed_of_spec {e : Emitted}
    (he : e ∈ emitted sqlite S.types S.fuel dao.message) {c : Column} (hc : c ∈ e.columns)
    {col : DaoColumn} (spec : columnSpec S.types dao.message c = some col) :
    ∃ above p, e.path = above ++ [p] ∧ PlacedAt S.types dao.message col.path above p ∧
      (ColumnKind S.types p.1 col ∨ Unresolved S.types p.1 ∧ c.bindable = false ∧ c.embed = [] ∧
        c.presenceOf = [] ∧ c.fkTable = false) := by
  obtain ⟨above, p, path, source, own⟩ := emitted_source he hc
  have reached := reach.columns e he c hc
  rw [path] at reached
  obtain ⟨fieldPath, exact_, rfl⟩ := Option.map_eq_some_iff.mp spec
  refine ⟨above, p, path, ⟨⟨_, reached⟩, ?_⟩, ?_⟩
  · unfold exactPath at exact_
    split at exact_
    next presence =>
      rw [Column.accessPath, if_pos presence] at reached
      exact (placed_of_walk reached exact_).path
    next presence =>
      split at exact_
      next embed =>
        rw [Column.accessPath, if_neg presence, if_pos embed] at reached
        exact (placed_of_walk reached exact_).path
      next embed =>
        obtain ⟨rfl, named⟩ := own (not_not.mp presence) (not_not.mp embed)
        rw [← Option.some.inj exact_, named]
        rfl
  · cases source with
    | embed h presence table phi => exact .inl (.embed h (by simp [presence]) (by simp [table]) (by simp [phi]))
    | table single type found presence table link =>
      exact .inl (.table single type found (by simp [presence]) (by simp [table, link]) (by simp [table]))
    | value h presence table => exact .inl (.value h (by simp [presence]) (by simp [table]))
    | unresolved h presence embed bindable table =>
      exact .inr ⟨h, bindable, embed, presence, table⟩

/-- Each column of the DAO is for one field. -/
theorem placed_column (h : daoClass S name = some dao) {col : DaoColumn} (hcol : col ∈ dao.columns) :
    ∃ above p, ∃ e ∈ emitted sqlite S.types S.fuel dao.message, ∃ c ∈ e.columns,
      e.path = above ++ [p] ∧ columnSpec S.types dao.message c = some col ∧
        PlacedAt S.types dao.message col.path above p ∧ ColumnKind S.types p.1 col := by
  have isDao := isDao_of_daoClass h
  obtain ⟨c, bound, spec⟩ := bound_of_column h hcol
  have analyzed : c ∈ (analyze sqlite S.types S.fuel dao.message).1 := by
    rcases List.mem_append.mp bound with bound | bound
    · exact List.mem_of_mem_filter bound
    · exact List.mem_of_mem_filter bound
  rw [analyze_eq_emitted S isDao.mem] at analyzed
  obtain ⟨e, he, hc⟩ := List.mem_flatMap.mp analyzed
  obtain ⟨above, p, path, placed, kind⟩ := placed_of_spec reach he hc spec
  refine ⟨above, p, e, he, c, hc, path, spec, placed, ?_⟩
  rcases kind with kind | ⟨_, bindable, embed, presence, table⟩
  · exact kind
  -- a column that is neither bound nor a foreign key has no column in the DAO
  · rcases List.mem_append.mp bound with bound | bound
    · simp [List.mem_filter, bindable, embed, presence] at bound
    · simp [List.mem_filter, table] at bound

omit reach in
/-- What a child table for a repeated field of the message itself is for. -/
theorem kind_of_direct {msg : Message} {fuel : Nat} {table : String} {v : Variable} {f : RepeatedField}
    (hf : f ∈ directRepeated sqlite S.types fuel table v) {child : DaoChild}
    (spec : repeatedSpec S.types msg f = some child) :
    child.table = table ++ "__" ++ v.name ∧ ChildKind S.types v child.kind := by
  unfold directRepeated at hf
  extract_lets name_ at hf
  split at hf
  · cases hf
  next own =>
    obtain ⟨plain, rep⟩ := not_or.mp own
    rw [not_not] at plain rep
    split at hf
    next target type =>
      split at hf
      next m found =>
        cases List.mem_singleton.mp hf
        obtain ⟨path, _, rfl⟩ := Option.map_eq_some_iff.mp spec
        exact ⟨rfl, .links plain rep type found⟩
      next m found =>
        extract_lets cols at hf
        split at hf
        · cases List.mem_singleton.mp hf
          obtain ⟨elem, _, spec⟩ := Option.bind_eq_some_iff.mp spec
          obtain ⟨path, _, spec⟩ := Option.bind_eq_some_iff.mp spec
          obtain ⟨columns, all, rfl⟩ := Option.map_eq_some_iff.mp spec
          exact ⟨rfl, .elements plain rep type found (flat_of_specs all)⟩
        · cases hf
      next => cases hf
    next token type =>
      split at hf
      next sql kind found =>
        cases List.mem_singleton.mp hf
        obtain ⟨path, _, rfl⟩ := Option.map_eq_some_iff.mp spec
        have scalar_ : isScalarToken v.type := (scalar_isSome_iff v.type).mp (by rw [found]; rfl)
        exact ⟨rfl, .scalars ⟨plain, rep, scalar_⟩⟩
      next => cases hf

omit reach in
theorem kind_of_embedded {msg : Message} {table embed : String} {v : Variable} {f : RepeatedField}
    (hf : f ∈ embeddedScalar sqlite table embed v) {child : DaoChild}
    (spec : repeatedSpec S.types msg f = some child) :
    child.table = table ++ "__" ++ (embed ++ "_" ++ v.name) ∧ ChildKind S.types v child.kind := by
  obtain ⟨scalars, _⟩ := embeddedScalar_access hf
  unfold embeddedScalar at hf
  split at hf
  · cases hf
  · obtain ⟨found, _, rfl⟩ := Option.map_eq_some_iff.mp (Option.mem_toList.mp hf)
    obtain ⟨path, _, rfl⟩ := Option.map_eq_some_iff.mp spec
    exact ⟨by simp only [String.append_assoc], .scalars scalars⟩

omit reach in
theorem kind_of_map {msg : Message} {table : String} {embed : Option String} {v : Variable} {f : MapField}
    (hf : mapField sqlite table v embed = some f) {child : DaoChild}
    (spec : mapSpec S.types msg f = some child) :
    child.table = table ++ "__" ++ childPath embed v.name ∧ ChildKind S.types v child.kind := by
  have scalars : ScalarMap v := (mapField_isSome_iff table v embed).mp (by rw [hf]; rfl)
  obtain ⟨path, _, rfl⟩ := Option.map_eq_some_iff.mp spec
  exact ⟨mapField_childTable hf, .map scalars⟩

/-- Each child table of the DAO is for one field. -/
theorem placed_child (h : IsDao S dao) {child : DaoChild} (hc : child ∈ dao.children) :
    ∃ above p, PlacedAt S.types dao.message child.path above p ∧ ChildKind S.types p.1 child.kind ∧
      child.table = dao.table ++ "__" ++ childSuffix (above ++ [p]) := by
  rcases h.child child hc with ⟨f, hf, spec⟩ | ⟨f, hf, spec⟩
  · rw [mapFields_eq_traced] at hf
    obtain ⟨e, he, rfl⟩ := List.mem_map.mp hf
    have walked := mapSpec_path spec
    have reached := reach.maps e he
    rcases (mem_tracedMaps h.table).mp he with
      ⟨p, _, _, path, hf⟩ | ⟨p, _, _, m, _, q, _, _, path, hf⟩
    · rw [path] at reached
      obtain ⟨table, kind⟩ := kind_of_map hf spec
      exact ⟨[], p, placed_of_walk reached walked, kind, table⟩
    · rw [path] at reached
      obtain ⟨table, kind⟩ := kind_of_map hf spec
      exact ⟨[p], q, placed_of_walk reached walked, kind, table⟩
  · rw [repeatedFields_eq_traced] at hf
    obtain ⟨e, he, rfl⟩ := List.mem_map.mp hf
    have walked := repeatedSpec_path spec
    have reached := reach.repeateds e he
    rcases (mem_tracedRepeateds h.table).mp he with ⟨p, _, path, hf⟩ | ⟨p, _, _, m, _, q, _, path, hf⟩
    · rw [path] at reached
      obtain ⟨table, kind⟩ := kind_of_direct hf spec
      exact ⟨[], p, placed_of_walk reached walked, kind, table⟩
    · rw [path] at reached
      obtain ⟨table, kind⟩ := kind_of_embedded hf spec
      exact ⟨[p], q, placed_of_walk reached walked, kind, table⟩

end Generated

end Harpia
