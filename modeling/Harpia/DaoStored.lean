import Harpia.DaoRendered
import Harpia.DaoSealing

namespace Harpia

open Text Proto

/-- A repeated field over messages with a table of their own. -/
def RepeatedLink (types : Types) (v : Variable) : Prop :=
  v.typeMap = [] ∧ .REPETEABLE ∈ v.modifiers ∧
    ∃ target m, v.type = .ID target ∧ lookupType types target = some (.table, m)

theorem RepeatedLink.message {types : Types} {v : Variable} (h : RepeatedLink types v) :
    RepeatedMessage types v := by
  obtain ⟨plain, rep, target, m, type, found⟩ := h
  exact ⟨plain, rep, target, .table, m, type, found, .inl rfl⟩

/-- The fields that lead from a table message to a value stored for it. -/
inductive StoredField (types : Types) (m : Message) : List Place → Prop
  | column {above : List Place} {p : Place} (chain : Chain types m.places (above ++ [p]))
      (h : HasColumn types p.1) : StoredField types m (above ++ [p])
  | child {p : Place} (hp : p ∈ m.places)
      (h : ScalarMap p.1 ∨ RepeatedScalar p.1 ∨ RepeatedLink types p.1) : StoredField types m [p]
  | embedded {p q : Place} {d : Message} (hp : p ∈ m.places) (hd : embedTarget types p.1 = some d)
      (hq : q ∈ d.visiblePlaces) (h : ScalarMap q.1 ∨ RepeatedScalar q.1) : StoredField types m [p, q]
  | element {p q : Place} {d : Message} (hp : p ∈ m.places) (plain : p.1.typeMap = [])
      (rep : .REPETEABLE ∈ p.1.modifiers) (hd : composedTarget types p.1 = some d)
      (scalars : ∀ r ∈ d.visiblePlaces, HasColumn types r.1 → isScalarField types r.1)
      (hq : q ∈ d.visiblePlaces) (h : HasColumn types q.1) : StoredField types m [p, q]

def phiAmong (path : List Place) : Bool := path.any fun p => p.1.isPhi

/-- The `phi` fields of which values are stored are singular scalars of table messages. -/
def PhiOwnScalars (S : Schema) : Prop :=
  ∀ m ∈ S.messages, m.kind = .table → ∀ path, StoredField S.types m path → phiAmong path →
    ∃ p, path = [p] ∧ p.1.singular ∧ isScalarToken p.1.type

section Paths

variable {types : Types} {m : Message} {above : List Place} {p : Place}

theorem fieldsAt_resolve {steps : List String} (reached : resolve types m steps = some (above ++ [p]))
    (rest : List String) :
    fieldsAt types m (spelled (above ++ [p]) ++ rest) = (above ++ [p]).map Prod.fst ++
      (messageType types p.1).elim [] fun sub => fieldsAt types sub rest := by
  induction above generalizing m steps with
  | nil =>
    obtain ⟨q, _, _, _, same, _, named, accessed, _⟩ := resolve_cons reached
    obtain ⟨rfl, _⟩ := List.cons.inj same
    have found := field?_of_accessed (named ▸ accessed)
    change fieldsAt types m (p.1.name :: rest) = _
    rw [fieldsAt, found]
    rfl
  | cons q above ih =>
    obtain ⟨q', _, _, _, same, _, named, accessed, below⟩ := resolve_cons reached
    obtain ⟨rfl, rfl⟩ := List.cons.inj same
    obtain ⟨d, embed, reached⟩ := below.resolve_left (by simp)
    have found := field?_of_accessed (named ▸ accessed)
    change fieldsAt types m (q.1.name :: (spelled (above ++ [p]) ++ rest)) = _
    rw [fieldsAt, found, Option.elim_some, subType_message (subType_of_embed embed), Option.elim_some,
      ih reached]
    rfl

theorem phiOnPath_placed {path : FieldPath} (placed : PlacedAt types m path above p) :
    phiOnPath types m path.steps = phiAmong (above ++ [p]) := by
  obtain ⟨steps, reached⟩ := placed.reached
  have fields := fieldsAt_resolve reached []
  rw [List.append_nil, ← placed.spelled_steps] at fields
  have last : (messageType types p.1).elim [] (fun sub => fieldsAt types sub []) = [] := by
    cases messageType types p.1 <;> rfl
  rw [phiOnPath, fields, last, List.append_nil, List.any_map]
  rfl

theorem alone_of_placed {path : FieldPath} (placed : PlacedAt types m path [] p) :
    p ∈ m.places ∧ Alone m p.1 := by
  obtain ⟨steps, reached⟩ := placed.reached
  obtain ⟨q, _, _, _, same, _, named, accessed, _⟩ := resolve_cons reached
  obtain ⟨rfl, _⟩ := List.cons.inj same
  rw [← named] at accessed
  have mem : p ∈ m.accessed (lower p.1.name) := by
    rw [accessed]
    exact List.mem_singleton_self p
  refine ⟨List.mem_of_mem_filter mem, ?_⟩
  rw [Alone, accessed]
  rfl

/-- A field with another one below it is an embed. -/
theorem embed_of_placed {path : FieldPath} {q : Place} (placed : PlacedAt types m path [p] q) :
    ∃ d, embedTarget types p.1 = some d ∧ ∀ d', composedTarget types p.1 = some d' → d' = d := by
  obtain ⟨steps, reached⟩ := placed.reached
  obtain ⟨p', _, _, _, same, _, _, _, below⟩ := resolve_cons reached
  obtain ⟨rfl, rfl⟩ := List.cons.inj same
  obtain ⟨d, embed, _⟩ := below.resolve_left (by simp)
  refine ⟨d, embed, fun d' composed => ?_⟩
  obtain ⟨_, _, target, type, found⟩ := embedTarget_eq_some embed
  obtain ⟨target', type', found'⟩ := composedTarget_eq_some composed
  rw [type] at type'
  cases type'
  rw [found] at found'
  cases found'
  rfl

theorem messageType_of_composed {v : Variable} {d : Message} (h : composedTarget types v = some d) :
    messageType types v = some d := by
  obtain ⟨target, type, found⟩ := composedTarget_eq_some h
  rw [messageType, type]
  simp only [found]

theorem fieldsAt_element_column {path : FieldPath} (placed : PlacedAt types m path [] p) {d : Message}
    (composed : composedTarget types p.1 = some d) {v : Variable} (found : d.field? v.name = some v) :
    fieldsAt types m (path.steps ++ FieldPath.steps ⟨[], v.name⟩) = [p.1, v] := by
  obtain ⟨steps, reached⟩ := placed.reached
  have last : (messageType types v).elim [] (fun sub => fieldsAt types sub []) = [] := by
    cases messageType types v <;> rfl
  have own : FieldPath.steps ⟨[], v.name⟩ = [v.name] := rfl
  rw [own, placed.spelled_steps, fieldsAt_resolve reached, messageType_of_composed composed,
    Option.elim_some, fieldsAt, found, Option.elim_some, last]
  rfl

end Paths

section Elements

variable {S : Schema} {dao : Dao} {child : DaoChild} {above : List Place} {p : Place}

/-- What a child table that stores elements itself is made from. -/
theorem composed_of_child (reach : PathsReach sqlite S dao.message) (isDao : IsDao S dao)
    (hc : child ∈ dao.children) {columns : List DaoColumn} (kind : child.kind = .composed columns)
    (placed : PlacedAt S.types dao.message child.path above p) :
    above = [] ∧ p.1.typeMap = [] ∧ .REPETEABLE ∈ p.1.modifiers ∧
      ∃ d, composedTarget S.types p.1 = some d ∧
      (flatten sqlite S.types S.fuel p.1.name d [] false).1.mapM (elementColumnSpec S.types d) =
        some columns := by
  obtain ⟨rfl, f, hf, spec⟩ := direct_of_messages reach isDao hc (by rw [kind]; rfl) placed
  obtain ⟨steps, reached⟩ := placed.reached
  unfold directRepeated at hf
  extract_lets table at hf
  split at hf
  · cases hf
  next own =>
    obtain ⟨plain, rep⟩ := not_or.mp own
    rw [not_not] at plain rep
    refine ⟨rfl, plain, rep, ?_⟩
    split at hf
    next target type =>
      split at hf
      next found =>
        cases List.mem_singleton.mp hf
        obtain ⟨path, _, rfl⟩ := Option.map_eq_some_iff.mp spec
        cases kind
      next d found =>
        extract_lets cols at hf
        split at hf
        · cases List.mem_singleton.mp hf
          obtain ⟨elem, isElem, spec⟩ := Option.bind_eq_some_iff.mp spec
          obtain ⟨path, _, spec⟩ := Option.bind_eq_some_iff.mp spec
          obtain ⟨columns', all, rfl⟩ := Option.map_eq_some_iff.mp spec
          cases kind
          obtain ⟨q, _, _, _, same, _, named, accessed, _⟩ := resolve_cons reached
          obtain ⟨rfl, _⟩ := List.cons.inj same
          rw [elementType, find_of_accessed (named ▸ accessed), Option.bind_some, type] at isElem
          simp only [found, Option.map_some, Option.some.injEq] at isElem
          subst isElem
          refine ⟨d, ?_, all⟩
          rw [composedTarget, type]
          simp only [found]
        · cases hf
      next => cases hf
    next =>
      split at hf
      next =>
        cases List.mem_singleton.mp hf
        obtain ⟨path, _, rfl⟩ := Option.map_eq_some_iff.mp spec
        cases kind
      next => cases hf

theorem element_columns (clear : AccessClear S.types dao.message) {p : Place}
    (hp : p ∈ dao.message.places) (plain : p.1.typeMap = []) (rep : .REPETEABLE ∈ p.1.modifiers)
    {d : Message} (composed : composedTarget S.types p.1 = some d) {columns : List DaoColumn}
    (all : (flatten sqlite S.types S.fuel p.1.name d [] false).1.mapM (elementColumnSpec S.types d) =
      some columns) :
    (∀ col ∈ columns, ∃ q ∈ d.visiblePlaces, HasColumn S.types q.1 ∧ col.path = ⟨[], q.1.name⟩ ∧
      d.field? q.1.name = some q.1) ∧
    ∀ q ∈ d.visiblePlaces, HasColumn S.types q.1 →
      ∃ col ∈ columns, col.path = ⟨[], q.1.name⟩ ∧ d.field? q.1.name = some q.1 := by
  have mem := composedTarget_mem composed
  have elements := clear.elements p hp plain rep d composed
  have reach := (elements_reach_iff (b := sqlite) mem p.1.name).mpr elements
  rw [flatten_eq_emittedIn S mem (S.rank_lt_fuel mem)] at all
  have cols : (([] : List Column) ++ (forget (emittedIn sqlite S.types S.fuel p.1.name d [] false)).1).mapM
      (elementColumnSpec S.types d) = some columns := by simpa using all
  rw [List.nil_append] at cols
  have path_ : ∀ {e c col} {q : Place}, e ∈ emittedIn sqlite S.types S.fuel p.1.name d [] false →
      c ∈ e.columns → e.path = [q] → elementColumnSpec S.types d c = some col →
        col.path = ⟨[], q.1.name⟩ ∧ d.field? q.1.name = some q.1 := by
    intro e c col q he hc path spec
    have reached := reach e he c hc
    rw [path] at reached
    obtain ⟨path', walked, rfl⟩ := Option.map_eq_some_iff.mp spec
    have placed : PlacedAt S.types d path' [] q := placed_of_walk reached walked
    obtain ⟨_, _, place, found⟩ := placed.owner .empty
    have same : path' = ⟨[], q.1.name⟩ := placed.path
    subst same
    cases Option.some.inj place
    exact ⟨rfl, found⟩
  constructor
  · intro col hcol
    obtain ⟨c, hc, spec⟩ := mem_of_mapM cols hcol
    obtain ⟨e, he, hc⟩ := List.mem_flatMap.mp hc
    have found := emittedIn_columnAt (by simp) he hc
    obtain ⟨above, q, path, stored⟩ := found.stored
    have chain := found.chain
    rw [path] at chain
    have column : HasColumn S.types q.1 := stored.resolve_right fun h => by simp at h
    obtain ⟨rfl, _⟩ := elements above q chain column
    obtain ⟨own, field⟩ := path_ he hc path spec
    exact ⟨q, (chain_cons chain).1, column, own, field⟩
  · intro q hq column
    obtain ⟨e, he, path, c, hc⟩ : ∃ e ∈ emittedIn sqlite S.types S.fuel p.1.name d [] false,
        e.path = [] ++ [q] ∧ ∃ c, c ∈ e.columns :=
      emittedIn_exists S mem (S.rank_lt_fuel mem) (.last hq) (.inl column)
    obtain ⟨col, hcol, spec⟩ := exists_of_mapM cols (List.mem_flatMap.mpr ⟨e, he, hc⟩)
    exact ⟨col, hcol, path_ he hc path spec⟩

end Elements

section Columns

variable {S : Schema} {name : String} {dao : Dao}

theorem analyzeVar_bound {types : Types} {fuel : Nat} {msg : Message} {v : Variable} {c : Column}
    (column : HasColumn types v) (hc : c ∈ (analyzeVar sqlite types fuel msg v).1) :
    c.bindable ∨ c.fkTable := by
  obtain ⟨plain, single, hs | ⟨target, k, m, ht, hl, hk⟩⟩ := column
  · left
    cases ht : v.type <;> simp_all [analyzeVar, isScalarToken, scalar]
  · cases k with
    | enum =>
      left
      simp_all [analyzeVar]
    | table =>
      right
      simp_all [analyzeVar]
    | message => exact absurd rfl hk

/-- A field with a column has its column in the DAO. -/
theorem column_of_stored (class_ : daoClass S name = some dao) (reach : PathsReach sqlite S dao.message)
    {above : List Place} {p : Place} (chain : Chain S.types dao.message.places (above ++ [p]))
    (column : HasColumn S.types p.1) :
    ∃ col ∈ dao.columns, col.presence = false ∧ PlacedAt S.types dao.message col.path above p := by
  have isDao := isDao_of_daoClass class_
  obtain ⟨e, he, path, c, hc⟩ := emitted_exists (b := sqlite) S isDao.mem chain (.inl column)
  obtain ⟨above', p', path', source, own⟩ := emitted_source he hc
  obtain ⟨rfl, last⟩ := List.append_inj' (path.symm.trans path') rfl
  obtain rfl := List.singleton_inj.mp last
  have leaf := hasColumn_not_embed column
  have presence : c.presenceOf = [] := by
    cases source with
    | embed h _ _ _ =>
      rw [leaf] at h
      cases h
    | table _ _ _ presence _ _ => exact presence
    | value _ presence _ => exact presence
    | unresolved _ presence _ _ _ => exact presence
  have bound : c ∈ boundColumns (analyze sqlite S.types S.fuel dao.message).1 := by
    have analyzed : c ∈ (analyze sqlite S.types S.fuel dao.message).1 := by
      rw [analyze_eq_emitted S isDao.mem]
      exact List.mem_flatMap.mpr ⟨e, he, hc⟩
    cases table : c.fkTable with
    | true => exact List.mem_append_right _ (List.mem_filter.mpr ⟨analyzed, table⟩)
    | false =>
      refine List.mem_append_left _ (List.mem_filter.mpr ⟨analyzed, ?_⟩)
      by_cases embed : c.embed = []
      · obtain ⟨rfl, _⟩ := own presence embed
        -- a column of the message itself
        rw [emitted] at he
        obtain ⟨q, hq, he⟩ := List.mem_flatMap.mp he
        cases ht : embedTarget S.types q.1 with
        | none =>
          rw [ht, Option.elim_none, emitLeaf, List.mem_singleton] at he
          subst he
          obtain rfl := List.singleton_inj.mp path
          have bindable := (analyzeVar_bound column hc).resolve_right (by simp [table])
          simp [bindable, table]
        | some target =>
          simp only [ht, Option.elim_some, emitEmbed] at he
          rcases List.mem_cons.mp he with rfl | he
          · obtain rfl := List.singleton_inj.mp path
            rw [leaf] at ht
            cases ht
          · obtain ⟨e', he', rfl⟩ := List.mem_map.mp he
            obtain ⟨rfl, none_⟩ := List.cons.inj path
            rw [leaf] at ht
            cases ht
      · simp [embed, table]
  obtain ⟨col, hcol, spec⟩ := column_of_bound class_ bound
  obtain ⟨above', p', path', placed, _⟩ := placed_of_spec reach he hc spec
  obtain ⟨rfl, last⟩ := List.append_inj' (path.symm.trans path') rfl
  obtain rfl := List.singleton_inj.mp last
  refine ⟨col, hcol, ?_, placed⟩
  obtain ⟨_, _, rfl⟩ := Option.map_eq_some_iff.mp spec
  simp [presence]

end Columns

section Children

variable {S : Schema} {name : String} {dao : Dao} (class_ : daoClass S name = some dao)
  (reach : PathsReach sqlite S dao.message) {above : List Place} {p : Place}

include class_

theorem child_of_map {e : Traced MapField} (he : e ∈ tracedMaps sqlite S.types dao.message)
    (reached : resolve S.types dao.message e.entry.accessPath = some (above ++ [p])) :
    ∃ child ∈ dao.children, PlacedAt S.types dao.message child.path above p := by
  obtain ⟨m, hm, h⟩ := Option.bind_eq_some_iff.mp class_
  obtain ⟨columns, _, h⟩ := Option.bind_eq_some_iff.mp h
  obtain ⟨maps, hmaps, h⟩ := Option.bind_eq_some_iff.mp h
  obtain ⟨repeateds, _, rfl⟩ := Option.map_eq_some_iff.mp h
  have mem : e.entry ∈ mapFields sqlite S.types m := by
    rw [mapFields_eq_traced]
    exact List.mem_map_of_mem he
  obtain ⟨child, hc, spec⟩ := exists_of_mapM hmaps mem
  exact ⟨child, List.mem_append_left _ hc, placed_of_walk reached (mapSpec_path spec)⟩

theorem child_of_repeated {e : Traced RepeatedField}
    (he : e ∈ tracedRepeateds sqlite S.types S.fuel dao.message)
    (reached : resolve S.types dao.message e.entry.accessPath = some (above ++ [p])) :
    ∃ child ∈ dao.children, PlacedAt S.types dao.message child.path above p := by
  obtain ⟨m, hm, h⟩ := Option.bind_eq_some_iff.mp class_
  obtain ⟨columns, _, h⟩ := Option.bind_eq_some_iff.mp h
  obtain ⟨maps, _, h⟩ := Option.bind_eq_some_iff.mp h
  obtain ⟨repeateds, hrepeateds, rfl⟩ := Option.map_eq_some_iff.mp h
  have mem : e.entry ∈ repeatedFields sqlite S.types S.fuel m := by
    rw [repeatedFields_eq_traced]
    exact List.mem_map_of_mem he
  obtain ⟨child, hc, spec⟩ := exists_of_mapM hrepeateds mem
  exact ⟨child, List.mem_append_right _ hc, placed_of_walk reached (repeatedSpec_path spec)⟩

include reach

/-- A map or a repeated field has its child table in the DAO. -/
theorem child_of_own (table : dao.message.tableName ≠ "") (hp : p ∈ dao.message.places)
    (stored : ScalarMap p.1 ∨ RepeatedScalar p.1 ∨ RepeatedMessage S.types p.1) :
    ∃ child ∈ dao.children, PlacedAt S.types dao.message child.path [] p := by
  rcases stored with isMap | isList
  · obtain ⟨f, hf⟩ := Option.isSome_iff_exists.mp
      ((mapField_isSome_iff (b := sqlite) dao.message.tableName p.1 none).mpr isMap)
    have he : ⟨[p], f⟩ ∈ tracedMaps sqlite S.types dao.message :=
      (mem_tracedMaps table).mpr (.inl ⟨p, hp, typeMap_ne_nil isMap, rfl, hf⟩)
    exact child_of_map class_ he (reach.maps _ he)
  · obtain ⟨f, hf⟩ := (directRepeated_exists (b := sqlite) S dao.message.tableName p.1).mpr isList
    have he : ⟨[p], f⟩ ∈ tracedRepeateds sqlite S.types S.fuel dao.message :=
      (mem_tracedRepeateds table).mpr (.inl ⟨p, hp, rfl, hf⟩)
    exact child_of_repeated class_ he (reach.repeateds _ he)

theorem child_of_embedded (table : dao.message.tableName ≠ "") (hp : p ∈ dao.message.places)
    {d : Message} (embed : embedTarget S.types p.1 = some d) {q : Place} (hq : q ∈ d.visiblePlaces)
    (stored : ScalarMap q.1 ∨ RepeatedScalar q.1) :
    ∃ child ∈ dao.children, PlacedAt S.types dao.message child.path [p] q := by
  obtain ⟨plain, single, target, type, found⟩ := embedTarget_eq_some embed
  have composed : composedTarget S.types p.1 = some d := by
    rw [composedTarget, type]
    simp only [found]
  rcases stored with isMap | isList
  · obtain ⟨f, hf⟩ := Option.isSome_iff_exists.mp ((mapField_isSome_iff (b := sqlite)
      dao.message.tableName q.1 (some (lower p.1.name))).mpr isMap)
    have he : ⟨[p, q], f⟩ ∈ tracedMaps sqlite S.types dao.message := (mem_tracedMaps table).mpr
      (.inr ⟨p, hp, plain, d, composed, q, hq, typeMap_ne_nil isMap, rfl, hf⟩)
    exact child_of_map class_ he (reach.maps _ he)
  · obtain ⟨f, hf⟩ : ∃ f, f ∈ embeddedScalar sqlite dao.message.tableName (lower p.1.name) q.1 :=
      embeddedScalar_exists isList
    have he : ⟨[p, q], f⟩ ∈ tracedRepeateds sqlite S.types S.fuel dao.message :=
      (mem_tracedRepeateds table).mpr (.inr ⟨p, hp, plain, d, composed, q, hq, rfl, hf⟩)
    exact child_of_repeated class_ he (reach.repeateds _ he)

theorem child_of_element (table : dao.message.tableName ≠ "") (hp : p ∈ dao.message.places)
    (plain : p.1.typeMap = []) (rep : .REPETEABLE ∈ p.1.modifiers) {d : Message}
    (composed : composedTarget S.types p.1 = some d) {q : Place} (hq : q ∈ d.visiblePlaces)
    (column : HasColumn S.types q.1) :
    ∃ child ∈ dao.children, ∃ columns, child.kind = .composed columns ∧
      PlacedAt S.types dao.message child.path [] p := by
  obtain ⟨target, type, found⟩ := composedTarget_eq_some composed
  have mem : q.1 ∈ d.visible := by
    rw [← map_fst_visiblePlaces]
    exact List.mem_map_of_mem hq
  obtain ⟨i, hi⟩ := List.mem_iff_getElem?.mp mem
  have some_ : RepeatedMessage S.types p.1 :=
    ⟨plain, rep, target, .message, d, type, found, .inr ⟨rfl, [i], q.1.name, .mk hi (.own column) rfl⟩⟩
  obtain ⟨child, hc, placed⟩ := child_of_own class_ reach table hp (.inr (.inr some_))
  obtain ⟨_, _, placed', kind, _⟩ := placed_child reach (isDao_of_daoClass class_) hc
  obtain ⟨rfl, rfl⟩ := placed'.unique placed
  cases kind_ : child.kind with
  | map =>
    rw [kind_] at kind
    cases kind with
    | map isMap => exact absurd plain (typeMap_ne_nil isMap)
  | repeated fk =>
    rw [kind_] at kind
    cases kind with
    | scalars isList =>
      have token := isList.2.2
      rw [type] at token
      cases token
    | links _ _ type' found' =>
      rw [type] at type'
      cases type'
      rw [found] at found'
      cases found'
  | composed columns => exact ⟨child, hc, columns, kind_, placed⟩

end Children

section Own

variable {S : Schema} {name : String} {dao : Dao} (class_ : daoClass S name = some dao)
  (clear : AccessClear S.types dao.message) (reach : PathsReach sqlite S dao.message)

include class_ reach

theorem plain_of_own (own : dao.OwnPhiOnly S.types) {child : DaoChild} (hc : child ∈ dao.children)
    {above : List Place} {p : Place} (placed : PlacedAt S.types dao.message child.path above p)
    (stored : ScalarMap p.1 ∨ RepeatedScalar p.1 ∨ RepeatedLink S.types p.1) :
    phiAmong (above ++ [p]) = false := by
  obtain ⟨_, _, placed', kind, _⟩ := placed_child reach (isDao_of_daoClass class_) hc
  obtain ⟨rfl, rfl⟩ := placed'.unique placed
  rw [← phiOnPath_placed placed]
  refine own.children child hc _ (valuePaths_of_plain fun columns composed => ?_)
  rw [composed] at kind
  cases kind with
  | elements plain rep type found _ =>
    rcases stored with isMap | isList | ⟨_, _, target, m, type', found'⟩
    · exact typeMap_ne_nil isMap plain
    · have token := isList.2.2
      rw [type] at token
      cases token
    · rw [type] at type'
      cases type'
      rw [found] at found'
      cases found'

include clear

/-- Where the DAO stores `phi` values of singular scalars only, so it is with the fields stored. -/
theorem scalar_of_own (own : dao.OwnPhiOnly S.types) {path : List Place}
    (stored : StoredField S.types dao.message path) (phi : phiAmong path) :
    ∃ p, path = [p] ∧ p.1.singular ∧ isScalarToken p.1.type := by
  have isDao := isDao_of_daoClass class_
  cases stored with
  | @column above p chain column =>
    obtain ⟨col, hcol, value, placed⟩ := column_of_stored class_ reach chain column
    obtain ⟨v, hv, steps⟩ := own.columns col hcol value ((phiOnPath_placed placed).trans phi)
    rw [placed.spelled_steps] at steps
    have length := congrArg List.length steps
    obtain rfl : above = [] := by simpa [spelled] using length
    have named : p.1.name = v.name := by simpa [spelled] using steps
    obtain rfl : p.1 = v := hv.unique (mem_vars_of_place (chain_cons chain).1) (by rw [named])
    exact ⟨p, rfl, hv.single, hv.scalar⟩
  | @child p hp stored =>
    have message : ScalarMap p.1 ∨ RepeatedScalar p.1 ∨ RepeatedMessage S.types p.1 :=
      stored.imp id (Or.imp id RepeatedLink.message)
    obtain ⟨child, hc, placed⟩ := child_of_own class_ reach isDao.table hp message
    have plain := plain_of_own class_ reach own hc placed stored
    exact absurd (plain.symm.trans phi) (by simp)
  | @embedded p q d hp embed hq stored =>
    obtain ⟨child, hc, placed⟩ := child_of_embedded class_ reach isDao.table hp embed hq stored
    have plain := plain_of_own class_ reach own hc placed (stored.imp id .inl)
    exact absurd (plain.symm.trans phi) (by simp)
  | @element p q d hp plain rep composed scalars hq column =>
    obtain ⟨child, hc, columns, kind, placed⟩ :=
      child_of_element class_ reach isDao.table hp plain rep composed hq column
    obtain ⟨_, _, _, d', composed', all⟩ := composed_of_child reach isDao hc kind placed
    cases composed.symm.trans composed'
    obtain ⟨fields, columns_⟩ := element_columns clear hp plain rep composed all
    obtain ⟨col, hcol, path, found⟩ := columns_ q hq column
    have ends : ∀ col ∈ columns,
        endsInScalar S.types dao.message (child.path.steps ++ col.path.steps) := by
      intro col hcol
      obtain ⟨r, hr, column', path', found'⟩ := fields col hcol
      rw [endsInScalar, path', fieldsAt_element_column placed composed found']
      simpa using scalars r hr column'
    have holds : child.path.steps ++ col.path.steps ∈ child.valuePaths S.types dao.message := by
      have every : (columns.map fun col => child.path.steps ++ col.path.steps).all
          (endsInScalar S.types dao.message) := by
        rw [List.all_map, List.all_eq_true]
        exact ends
      simp only [DaoChild.valuePaths, kind]
      rw [if_pos every]
      exact List.mem_map_of_mem hcol
    have plain_ := own.children child hc _ holds
    rw [phiOnPath, path, fieldsAt_element_column placed composed found] at plain_
    exact absurd (plain_.symm.trans phi) (by simp)

omit class_ clear in
/-- What the child tables of a DAO store, but for elements. -/
theorem stored_of_child (isDao : IsDao S dao) {child : DaoChild} (hc : child ∈ dao.children)
    {above : List Place} {p : Place} (placed : PlacedAt S.types dao.message child.path above p)
    (plain : ∀ columns, child.kind ≠ .composed columns) :
    StoredField S.types dao.message (above ++ [p]) := by
  rcases isDao.child child hc with ⟨f, hf, spec⟩ | ⟨f, hf, spec⟩
  · rw [mapFields_eq_traced] at hf
    obtain ⟨e, he, rfl⟩ := List.mem_map.mp hf
    have walked := mapSpec_path spec
    have reached := reach.maps e he
    rcases (mem_tracedMaps isDao.table).mp he with
      ⟨q, hq, _, path, hf⟩ | ⟨q, hq, _, d, composed, r, hr, _, path, hf⟩
    · rw [path] at reached
      have own : PlacedAt S.types dao.message child.path [] q := placed_of_walk reached walked
      obtain ⟨rfl, rfl⟩ := placed.unique own
      exact .child hq (.inl ((mapField_isSome_iff _ _ _).mp (by rw [hf]; rfl)))
    · rw [path] at reached
      have own : PlacedAt S.types dao.message child.path [q] r := placed_of_walk reached walked
      obtain ⟨rfl, rfl⟩ := placed.unique own
      obtain ⟨d', target, same⟩ := embed_of_placed own
      obtain rfl := same d composed
      exact .embedded hq target hr (.inl ((mapField_isSome_iff _ _ _).mp (by rw [hf]; rfl)))
  · rw [repeatedFields_eq_traced] at hf
    obtain ⟨e, he, rfl⟩ := List.mem_map.mp hf
    have walked := repeatedSpec_path spec
    have reached := reach.repeateds e he
    rcases (mem_tracedRepeateds isDao.table).mp he with
      ⟨q, hq, path, hf⟩ | ⟨q, hq, _, d, composed, r, hr, path, hf⟩
    · rw [path] at reached
      have own : PlacedAt S.types dao.message child.path [] q := placed_of_walk reached walked
      obtain ⟨rfl, rfl⟩ := placed.unique own
      obtain ⟨_, kind⟩ := kind_of_direct hf spec
      apply StoredField.child hq
      cases kind_ : child.kind with
      | composed columns => exact absurd kind_ (plain columns)
      | map =>
        rw [kind_] at kind
        cases kind with
        | map isMap => exact .inl isMap
      | repeated fk =>
        rw [kind_] at kind
        cases kind with
        | scalars isList => exact .inr (.inl isList)
        | links plain rep type found => exact .inr (.inr ⟨plain, rep, _, _, type, found⟩)
    · rw [path] at reached
      have own : PlacedAt S.types dao.message child.path [q] r := placed_of_walk reached walked
      obtain ⟨rfl, rfl⟩ := placed.unique own
      obtain ⟨d', target, same⟩ := embed_of_placed own
      obtain rfl := same d composed
      exact .embedded hq target hr (.inr (embeddedScalar_access hf).1)

/-- Where the `phi` fields stored are singular scalars, the DAO stores no other `phi` values. -/
theorem own_of_scalar (scalar_ : ∀ path, StoredField S.types dao.message path → phiAmong path →
    ∃ p, path = [p] ∧ p.1.singular ∧ isScalarToken p.1.type) : dao.OwnPhiOnly S.types := by
  have isDao := isDao_of_daoClass class_
  constructor
  · intro col hcol value phi
    obtain ⟨above, p, e, he, c, hc, path, _, placed, kind⟩ := placed_column reach class_ hcol
    have column : HasColumn S.types p.1 := kind.stored.resolve_right fun embed => by
      rw [kind.leaf_of_value value] at embed
      cases embed
    have chain := (emitted_column he hc).2.1
    rw [path] at chain
    have among := (phiOnPath_placed placed).symm.trans phi
    obtain ⟨q, same, single, token⟩ := scalar_ _ (.column chain column) among
    obtain ⟨rfl, last⟩ := List.append_inj' (same.trans (List.nil_append [q]).symm) rfl
    obtain rfl := List.singleton_inj.mp last
    obtain ⟨mem, alone⟩ := alone_of_placed placed
    refine ⟨p.1, ⟨mem_vars_of_place mem, ?_, single, token, alone⟩, ?_⟩
    · simpa [phiAmong] using among
    · rw [placed.spelled_steps]
      rfl
  · intro child hc steps holds
    obtain ⟨above, p, placed, kind, _⟩ := placed_child reach isDao hc
    by_contra phi
    rw [Bool.not_eq_false] at phi
    by_cases plain : ∀ columns, child.kind ≠ .composed columns
    · have own : steps = child.path.steps := by
        unfold DaoChild.valuePaths at holds
        split at holds
        next columns composed => exact absurd composed (plain columns)
        next => exact List.mem_singleton.mp holds
      rw [own, phiOnPath_placed placed] at phi
      obtain ⟨q, same, single, _⟩ := scalar_ _ (stored_of_child reach isDao hc placed plain) phi
      obtain ⟨rfl, last⟩ := List.append_inj' (same.trans (List.nil_append [q]).symm) rfl
      obtain rfl := List.singleton_inj.mp last
      exact absurd (single.symm.trans kind.not_singular) (by simp)
    · obtain ⟨columns, kind_⟩ : ∃ columns, child.kind = .composed columns := by
        by_contra none_
        exact plain fun columns composed => none_ ⟨columns, composed⟩
      obtain ⟨rfl, single, rep, d, composed, all⟩ := composed_of_child reach isDao hc kind_ placed
      obtain ⟨hp, _⟩ := alone_of_placed placed
      obtain ⟨fields, columns_⟩ := element_columns clear hp single rep composed all
      simp only [DaoChild.valuePaths, kind_] at holds
      split at holds
      next every =>
        rw [List.all_map, List.all_eq_true] at every
        obtain ⟨col, hcol, rfl⟩ := List.mem_map.mp holds
        obtain ⟨q, hq, column, path, found⟩ := fields col hcol
        rw [phiOnPath, path, fieldsAt_element_column placed composed found] at phi
        have scalars : ∀ r ∈ d.visiblePlaces, HasColumn S.types r.1 → isScalarField S.types r.1 := by
          intro r hr column'
          obtain ⟨col', hcol', path', found'⟩ := columns_ r hr column'
          have ends := every col' hcol'
          rw [Function.comp_apply, endsInScalar, path',
            fieldsAt_element_column placed composed found'] at ends
          simpa using ends
        have among : phiAmong [p, q] := by simpa [phiAmong] using phi
        obtain ⟨_, same, _⟩ := scalar_ _ (.element hp single rep composed scalars hq column) among
        cases same
      next => cases holds

end Own

/-- Where access paths reach their fields, the DAOs store what the schema says. -/
theorem ownPhiOnly_iff {S : Schema} (clear : AllAccessClear S) : OwnPhiOnly S ↔ PhiOwnScalars S := by
  have reach : ∀ {m : Message} (mem : m ∈ S.messages) (table : m.tableName ≠ ""),
      PathsReach sqlite S m := fun mem table => (pathsReach_iff mem table).mpr (clear _ mem table)
  constructor
  · intro own m mem table path stored phi
    have found : lookupType S.types m.name = some (.table, m) := by
      have names : ((S.messages.map fun m => (m.name, (m.kind, m))).map Prod.fst).Nodup := by
        rw [List.map_map]
        exact S.names_nodup
      apply (Dict.get?_ofPairs_of_nodup names).mpr
      exact List.mem_map.mpr ⟨m, mem, by rw [table]⟩
    obtain ⟨dao, class_, rfl⟩ := daoClass_isSome clear found
    have isDao := isDao_of_daoClass class_
    exact scalar_of_own class_ (clear _ isDao.mem isDao.table) (reach isDao.mem isDao.table)
      (own _ dao class_) stored phi
  · intro scalars name dao class_
    have isDao := isDao_of_daoClass class_
    have kind : dao.message.kind = .table := by
      obtain ⟨m, hm, made⟩ := Option.bind_eq_some_iff.mp class_
      obtain ⟨columns, _, made⟩ := Option.bind_eq_some_iff.mp made
      obtain ⟨maps, _, made⟩ := Option.bind_eq_some_iff.mp made
      obtain ⟨repeateds, _, rfl⟩ := Option.map_eq_some_iff.mp made
      have both : m.name = name ∧ m.kind = .table := by simpa using List.find?_some hm
      exact both.2
    exact own_of_scalar class_ (clear _ isDao.mem isDao.table) (reach isDao.mem isDao.table)
      (scalars dao.message isDao.mem kind)

end Harpia
