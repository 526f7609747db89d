import Harpia.DaoAnswers

namespace Harpia

open Text Sqlite Proto

section Plain

variable {providers : Set KeyProvider}

theorem not_protected_int (n : Int) : ¬ Protected providers (.int n) := by
  intro h
  rcases h.marked with null | ⟨text, same, _⟩
  · cases null
  · cases same

/-- The value of a field that is not set is no sealed one. -/
theorem not_protected_default (t : TypeToken) : ¬ Protected providers (toDb (defaultValue t)) := by
  intro h
  rcases h.marked with null | ⟨text, same, marker⟩
  · cases t <;> cases null
  · have blank : text = "" := by
      cases t <;> cases same
      rfl
    rw [blank] at marker
    exact absurd (List.prefix_nil.mp marker) (by decide)

end Plain

section Marked

variable {b : Backend} {types : Types} {v : Variable} {c : Column}

theorem flattenVar_unmarked {recur : String → Message → List String → Bool → Flattened} {owner : String}
    {child : Message} {embedPath : List String} {prefixed : Bool} (leaf : embedTarget types v = none)
    (hc : c ∈ (flattenVar b types recur owner child embedPath prefixed v).1) : c.isPhi = false := by
  by_cases column : HasColumn types v
  · obtain ⟨plain, single, hs | ⟨target, k, m, ht, hl, hk⟩⟩ := column
    · cases ht : v.type <;> simp_all [flattenVar, isScalarToken, scalar]
    · cases k with
      | enum => simp_all [flattenVar]
      | table => simp_all [flattenVar]
      | message => exact absurd rfl hk
  · simp [flattenVar_of_neither column leaf] at hc

theorem emittedIn_unmarked {fuel : Nat} {owner : String} {m : Message} {embedPath : List String}
    {prefixed : Bool} {e : Emitted} (he : e ∈ emittedIn b types fuel owner m embedPath prefixed)
    (hc : c ∈ e.columns) : c.isPhi = false := by
  induction fuel generalizing owner m embedPath e with
  | zero => cases he
  | succ fuel ih =>
    rw [emittedIn] at he
    obtain ⟨p, hp, he⟩ := List.mem_flatMap.mp he
    cases ht : embedTarget types p.1 with
    | none =>
      rw [ht, Option.elim_none, emitLeaf, List.mem_singleton] at he
      subst he
      exact flattenVar_unmarked ht hc
    | some target =>
      simp only [ht, Option.elim_some, emitEmbed] at he
      rcases List.mem_cons.mp he with rfl | he
      · cases prefixed with
        | false => cases hc
        | true =>
          cases List.mem_singleton.mp hc
          rfl
      · obtain ⟨e', he', rfl⟩ := List.mem_map.mp he
        exact ih he' hc

theorem analyzeVar_marked {fuel : Nat} {msg : Message} (leaf : embedTarget types v = none)
    (hc : c ∈ (analyzeVar b types fuel msg v).1) (phi : c.isPhi) :
    v.isPhi ∧ v.singular ∧ isScalarToken v.type := by
  by_cases stored : HasColumn types v ∨ Unresolved types v
  · obtain ⟨plain, single, hs | ⟨target, k, m, ht, hl, hk⟩⟩ | h := stored
    · obtain ⟨same, _⟩ := analyzeVar_phi (singular_iff.mpr ⟨plain, single⟩) hs hc
      exact ⟨same ▸ phi, singular_iff.mpr ⟨plain, single⟩, hs⟩
    · cases k with
      | enum => simp_all [analyzeVar]
      | table => simp_all [analyzeVar]
      | message => exact absurd rfl hk
    · obtain ⟨plain, single, target, ht, hl⟩ := h
      simp_all [analyzeVar]
  · obtain ⟨hcol, hun⟩ := not_or.mp stored
    simp [analyzeVar_of_neither hcol hun leaf] at hc

/-- A column that is sealed is for a singular scalar of the message itself. -/
theorem emitted_marked {fuel : Nat} {msg : Message} {e : Emitted} (he : e ∈ emitted b types fuel msg)
    (hc : c ∈ e.columns) (phi : c.isPhi) :
    ∃ p, e.path = [p] ∧ p.1.isPhi ∧ p.1.singular ∧ isScalarToken p.1.type := by
  rw [emitted] at he
  obtain ⟨p, hp, he⟩ := List.mem_flatMap.mp he
  cases ht : embedTarget types p.1 with
  | none =>
    rw [ht, Option.elim_none, emitLeaf, List.mem_singleton] at he
    subst he
    exact ⟨p, rfl, analyzeVar_marked ht hc phi⟩
  | some target =>
    simp only [ht, Option.elim_some, emitEmbed] at he
    rcases List.mem_cons.mp he with rfl | he
    · cases List.mem_singleton.mp hc
      cases phi
    · obtain ⟨e', he', rfl⟩ := List.mem_map.mp he
      rw [emittedIn_unmarked he' hc] at phi
      cases phi

theorem own_of_marked {S : Schema} {name : String} {dao : Dao} (class_ : daoClass S name = some dao)
    (reach : PathsReach sqlite S dao.message) {col : DaoColumn} (hcol : col ∈ dao.columns)
    (phi : col.phi) : ∃ v, OwnPhi dao.message v ∧ col.path.steps = [v.name] := by
  obtain ⟨above, p, e, he, c, hc, path, spec, placed, _⟩ := placed_column reach class_ hcol
  have marked : c.isPhi := by
    obtain ⟨_, _, rfl⟩ := Option.map_eq_some_iff.mp spec
    exact (Bool.and_eq_true_iff.mp phi).1
  obtain ⟨q, own, isPhi, single, token⟩ := emitted_marked he hc marked
  obtain ⟨rfl, last⟩ := List.append_inj' ((path.symm.trans own).trans (List.nil_append [q]).symm) rfl
  obtain rfl := List.singleton_inj.mp last
  obtain ⟨mem, alone⟩ := alone_of_placed placed
  refine ⟨p.1, ⟨mem_vars_of_place mem, isPhi, single, token, alone⟩, ?_⟩
  rw [placed.spelled_steps]
  rfl

end Marked

section Exposed

variable {E : DaoEnv} {name : String} {dao : Dao} (class_ : daoClass E.schema name = some dao)
  (reach : PathsReach sqlite E.schema dao.message)

/-- On the way of a `phi` value stands no key. -/
theorem head?_of_phi {types : Types} {d : Message} {steps : List String}
    (phi : phiOnPath types d steps) : steps.head? ≠ some pk := by
  cases steps with
  | nil => simp
  | cons step steps =>
    intro same
    cases Option.some.inj same
    rw [phiOnPath, fieldsAt, field?_pk] at phi
    cases phi

include class_ reach

omit reach in
/-- What is written while every `phi` value is sealed. -/
theorem sealed_cell (h : AllPhiSealed E) {fuel : Nat} {msg : Msg} {r : Request} {cell : Cell}
    (hr : r ∈ (createIn E fuel E.defaultProvider dao msg).made anyAnswer) (mem : cell ∈ r.cells)
    (phi : cell.isPhi E.schema.types) :
    Protected {E.defaultProvider, E.defaultProvider} cell.value :=
  Calls.of_ensures (h name dao class_ fuel E.defaultProvider msg).1 anyAnswer r hr cell mem phi

/-- What is written for a column that is not sealed: a value that is set, or the key of no row. -/
theorem column_own (h : AllPhiSealed E) (seals : E.defaultProvider.Seals) {col : DaoColumn}
    (hcol : col ∈ dao.columns) (value : col.presence = false)
    (phi : phiOnPath E.schema.types dao.message col.path.steps) :
    ∃ v, OwnPhi dao.message v ∧ col.path.steps = [v.name] := by
  by_contra other
  have plain : ¬ col.phi := fun marked => other (own_of_marked class_ reach hcol marked)
  obtain ⟨above, q, _, _, _, _, _, _, placed, kind⟩ := placed_column reach class_ hcol
  have shown : ∀ msg v, Single dao msg → columnValue E.schema.types dao.message msg col = some v →
      Protected {E.defaultProvider, E.defaultProvider} v := by
    intro msg v single bound
    have cell : (bindColumn E E.defaultProvider dao msg col).result anyAnswer =
        some (Cell.of dao col v) := by
      unfold bindColumn
      rw [if_neg plain, Calls.result_ofOption_bind bound]
      rfl
    obtain ⟨r, hr, mem⟩ := (insertRow_result class_ reach seals single.key).2 col hcol _ cell
    have made := (createIn_head class_ reach seals single 0).2.1 r hr
    exact sealed_cell class_ h made mem (by simpa [Cell.isPhi, Cell.of, value] using phi)
  cases kind with
  | embed _ presence _ _ =>
    rw [value] at presence
    cases presence
  | table one type found_ _ fk _ =>
    obtain ⟨d, _, place, found⟩ := placed.owner bare
    have bound : columnValue E.schema.types dao.message bare col = some (.int 0) := by
      rw [columnValue, place, Option.bind_some, if_neg (by simp [value]), if_pos (by simp [fk]), found,
        Option.bind_some, subType_of_table one type found_, Option.bind_some, sub?_bare, bindValue_key]
      rfl
    exact not_protected_int 0 (shown bare _ (single_bare dao) bound)
  | value isScalar _ fk =>
    have leaf : ∀ s : Msg, Content.scalar (defaultValue q.1.type) ≠ .sub s := by simp
    have single := single_keyedLone class_ reach placed leaf (head?_of_phi phi)
    obtain ⟨d, empty, place, found⟩ :=
      placed.owner (keyedLone col.path (.scalar (defaultValue q.1.type)))
    have held : ((keyedLone col.path (.scalar (defaultValue q.1.type))).inner col.path.owner).scalar?
        q.1.name = some (defaultValue q.1.type) := by
      rw [field?_name found, Msg.scalar?, held_keyedLone]
    have bound : columnValue E.schema.types dao.message
        (keyedLone col.path (.scalar (defaultValue q.1.type))) col =
          some (toDb (defaultValue q.1.type)) := by
      rw [columnValue, place, Option.bind_some, if_neg (by simp [value]), if_neg (by simp [fk]),
        embedsSet_of_at? empty at?_keyedLone, Option.bind_some, if_pos rfl, bindValue, found,
        Option.bind_some, if_pos isScalar, if_neg]
      · rw [attrValue, held]
        rfl
      · simp [isUnsetOptional, held]
    exact not_protected_default _ (shown _ _ single bound)

/-- While the rows of one child table are stored, the others stay empty. -/
theorem insertChild_made (seals : E.defaultProvider.Seals) {child : DaoChild} (hc : child ∈ dao.children)
    {c : Content Msg} (leaf : ∀ s, c ≠ .sub s)
    (messages : ∀ ms, c = .elements ms → child.kind.holdsMessages)
    (other : child.path.steps.head? ≠ some pk) (fuel : Nat) :
    ∀ r ∈ (insertChild E dao (storeNested E fuel) (.int 1) (keyedLone child.path c) child).made anyAnswer,
      r ∈ (createIn E (fuel + 1) E.defaultProvider dao (keyedLone child.path c)).made anyAnswer := by
  have isDao := isDao_of_daoClass class_
  obtain ⟨above, q, placed, kind, _⟩ := placed_child reach isDao hc
  have single := single_keyedLone class_ reach placed leaf other
  intro r hr
  apply (createIn_head class_ reach seals single fuel).2.2 r
  refine Calls.mem_made_fold hc (fun child' hc' apart => ?_) hr
  refine insertChild_idle class_ reach hc' (elements_keyedLone leaf fun ms same there => ?_)
  obtain ⟨above', q', placed', _, _⟩ := placed_child reach isDao hc'
  have start : child.path.steps <+: child'.path.steps := there ▸ List.prefix_refl _
  obtain ⟨rfl, rfl⟩ := placed.eq_of_prefix placed' kind.leaf start
  exact apart (messages_unique reach isDao hc hc' (messages ms same) placed placed')

omit class_ reach in
/-- A column of the elements that ends in a scalar is for a scalar of theirs. -/
theorem field_of_ends {types : Types} {d m : Message} {path : FieldPath} {above : List Place}
    {q : Place} (placed : PlacedAt types d path above q) (elem : messageType types q.1 = some m)
    (rep : .REPETEABLE ∈ q.1.modifiers) {col : FieldPath} (owner : col.owner = [])
    (ends : endsInScalar types d (path.steps ++ col.steps)) :
    ∃ w, m.field? col.field = some w ∧ isScalarField types w := by
  obtain ⟨_, _, place, found⟩ := placed.owner .empty
  obtain ⟨up, below⟩ := fieldsAt_element place found elem
  rw [endsInScalar, below, FieldPath.steps, owner, List.nil_append, fieldsAt] at ends
  cases hw : m.field? col.field with
  | none =>
    -- the way ends at the repeated field itself
    rw [hw, Option.elim_none, List.getLast?_concat] at ends
    simp [isScalarField, Variable.singular, rep] at ends
  | some w =>
    have last : (messageType types w).elim [] (fun sub => fieldsAt types sub []) = [] := by
      cases messageType types w <;> rfl
    rw [hw, Option.elim_some, last] at ends
    refine ⟨w, rfl, ?_⟩
    simpa using ends

section Child

variable (h : AllPhiSealed E) (seals : E.defaultProvider.Seals) {child : DaoChild}
  (hc : child ∈ dao.children) {above : List Place} {q : Place}
  (placed : PlacedAt E.schema.types dao.message child.path above q)

include h seals hc

theorem child_sealed {c : Content Msg} (leaf : ∀ s, c ≠ .sub s)
    (messages : ∀ ms, c = .elements ms → child.kind.holdsMessages)
    (other : child.path.steps.head? ≠ some pk) {fuel : Nat} {r : Request} {cell : Cell}
    (hr : r ∈ (insertChild E dao (storeNested E fuel) (.int 1) (keyedLone child.path c) child).made
      anyAnswer) (mem : cell ∈ r.cells) (phi : cell.isPhi E.schema.types) :
    Protected {E.defaultProvider, E.defaultProvider} cell.value :=
  sealed_cell class_ h (insertChild_made class_ reach seals hc leaf messages other fuel r hr) mem phi

include placed

theorem map_plain (kind : child.kind = .map) (isMap : ScalarMap q.1) :
    ¬ phiOnPath E.schema.types dao.message child.path.steps := by
  intro phi
  obtain ⟨key, value, rest, _, _⟩ := id isMap
  have one : ([(defaultValue key, defaultValue value)].map Prod.fst).Nodup := List.nodup_singleton _
  obtain ⟨d, _, place, found⟩ := placed.owner (keyedLone child.path (.map ⟨_, one⟩))
  have held : ((keyedLone child.path (.map ⟨_, one⟩)).inner child.path.owner).map q.1.name =
      ⟨_, one⟩ := by
    rw [field?_name found, Msg.map, held_keyedLone]
  obtain ⟨r, hr, mem⟩ := (writeMap_result dao child (.int 1)
    ((keyedLone child.path (.map ⟨_, one⟩)).inner child.path.owner) (typeMap_ne_nil isMap)).2
      (defaultValue key, defaultValue value) (by rw [held]; exact List.mem_singleton_self _)
  have row := (insertChild_answers (storeNested E 0) place found (by rw [kind])).2 r
    (Calls.mem_made_left hr)
  exact not_protected_default value (child_sealed class_ reach h seals hc (by simp) (by simp)
    (head?_of_phi phi) row mem phi)

theorem list_plain (kind : child.kind = .repeated none) (isList : RepeatedScalar q.1) :
    ¬ phiOnPath E.schema.types dao.message child.path.steps := by
  intro phi
  obtain ⟨plain, rep, token⟩ := isList
  obtain ⟨d, _, place, found⟩ := placed.owner (keyedLone child.path (.list [defaultValue q.1.type]))
  have held : iterate E q.1 ((keyedLone child.path (.list [defaultValue q.1.type])).inner
      child.path.owner) = some [defaultValue q.1.type] := by
    simp only [iterate, plain, rep, token, Bool.true_or, ↓reduceIte, ne_eq, not_true_eq_false]
    rw [field?_name found, Msg.list, held_keyedLone]
  obtain ⟨r, hr, mem⟩ := (writeRepeated_result dao child (.int 1) held).2 (defaultValue q.1.type)
    (List.mem_singleton_self _)
  have row := (insertChild_answers (storeNested E 0) place found (by rw [kind])).2 r
    (Calls.mem_made_left hr)
  exact not_protected_default q.1.type (child_sealed class_ reach h seals hc (by simp) (by simp)
    (head?_of_phi phi) row mem phi)

theorem links_plain (clear : AllAccessClear E.schema) {target : String} {m : Message}
    (kind : child.kind = .repeated (some target)) (bare_ : q.1.typeMap = [])
    (rep : .REPETEABLE ∈ q.1.modifiers) (type : q.1.type = .ID target)
    (found_ : lookupType E.schema.types target = some (.table, m)) :
    ¬ phiOnPath E.schema.types dao.message child.path.steps := by
  intro phi
  obtain ⟨d', class', rfl⟩ := daoClass_isSome clear found_
  have isDao := isDao_of_daoClass class'
  have reach' : PathsReach sqlite E.schema d'.message :=
    (pathsReach_iff isDao.mem isDao.table).mpr (clear d'.message isDao.mem isDao.table)
  -- an element that is nothing but its key
  have nested : (storeNested E 1 target bare).result anyAnswer = some bare := by
    rw [storeNested, Calls.result_ofOption_bind class']
    exact createIn_bare class' reach' seals 0
  obtain ⟨d, _, place, found⟩ := placed.owner (keyedLone child.path (.elements [bare]))
  have held : ((keyedLone child.path (.elements [bare])).inner child.path.owner).elements q.1.name =
      [bare] := by
    rw [field?_name found, Msg.elements, held_keyedLone]
  have elem := elementsType_of_found E bare_ rep type found_ TypeKind.noConfusion
  obtain ⟨r, hr, mem⟩ := (writeLinks_result dao child (.int 1) (storeNested E 1 target) elem
    (by rw [held]; simpa using nested)).2 bare (by rw [held]; exact List.mem_singleton_self _)
  have row := (insertChild_answers (storeNested E 1) place found (by rw [kind])).2 r
    (Calls.mem_made_left hr)
  exact not_protected_int 1 (child_sealed class_ reach h seals hc (by simp)
    (by simp [kind, DaoChildKind.holdsMessages]) (head?_of_phi phi) row mem phi)

theorem composed_plain {target : String} {m : Message} {columns : List DaoColumn}
    (kind : child.kind = .composed columns) (bare_ : q.1.typeMap = [])
    (rep : .REPETEABLE ∈ q.1.modifiers) (type : q.1.type = .ID target)
    (found_ : lookupType E.schema.types target = some (.message, m)) (flat : FlatColumns columns)
    (scalars : ∀ col ∈ columns,
      endsInScalar E.schema.types dao.message (child.path.steps ++ col.path.steps))
    {col : DaoColumn} (hcol : col ∈ columns) :
    ¬ phiOnPath E.schema.types dao.message (child.path.steps ++ col.path.steps) := by
  intro phi
  have isElem := messageType_of_found type found_ TypeKind.noConfusion
  obtain ⟨w, hw, isScalar⟩ := field_of_ends placed isElem rep (flat col hcol).1 (scalars col hcol)
  -- an element with this field set
  obtain ⟨e, he⟩ : ∃ e : Msg, e = .mk [(col.path.field, .scalar (defaultValue w.type))] := ⟨_, rfl⟩
  have bound : ∀ col' ∈ columns, (columnValue E.schema.types m e col').isSome := by
    intro col' hcol'
    obtain ⟨owner, presence, fk⟩ := flat col' hcol'
    obtain ⟨w', hw', isScalar'⟩ := field_of_ends placed isElem rep owner (scalars col' hcol')
    rw [columnValue_flat owner presence fk, bindValue, hw', Option.bind_some, if_pos isScalar']
    rfl
  have value : columnValue E.schema.types m e col = some (toDb (defaultValue w.type)) := by
    obtain ⟨owner, presence, fk⟩ := flat col hcol
    have set_ : e.scalar? w.name = some (defaultValue w.type) := by
      rw [field?_name hw, Msg.scalar?, he, get?_single, if_pos rfl]
    rw [columnValue_flat owner presence fk, bindValue, hw, Option.bind_some, if_pos isScalar, if_neg]
    · rw [attrValue, set_]
      rfl
    · simp [isUnsetOptional, set_]
  obtain ⟨d, _, place, found⟩ := placed.owner (keyedLone child.path (.elements [e]))
  have held : ((keyedLone child.path (.elements [e])).inner child.path.owner).elements q.1.name =
      [e] := by
    rw [field?_name found, Msg.elements, held_keyedLone]
  have elem := elementsType_of_found E bare_ rep type found_ TypeKind.noConfusion
  obtain ⟨r, hr, mem⟩ := (writeComposed_result dao child (.int 1) elem
    (by rw [held]; simpa using bound)).2 e (by rw [held]; exact List.mem_singleton_self _) col hcol _ value
  have row := (insertChild_answers (storeNested E 0) place found (by rw [kind])).2 r
    (Calls.mem_made_left hr)
  have other : child.path.steps.head? ≠ some pk := by
    have first := head?_of_phi phi
    cases owner : child.path.owner <;> simpa [FieldPath.steps, owner] using first
  exact not_protected_default w.type (child_sealed class_ reach h seals hc (by simp)
    (by simp [kind, DaoChildKind.holdsMessages]) other row mem phi)

end Child

/-- What is written into a child table: an entry, an element, the key of one, or a field of one. -/
theorem child_plain (clear : AllAccessClear E.schema) (h : AllPhiSealed E)
    (seals : E.defaultProvider.Seals) {child : DaoChild} (hc : child ∈ dao.children)
    {steps : List String} (holds : steps ∈ child.valuePaths E.schema.types dao.message) :
    ¬ phiOnPath E.schema.types dao.message steps := by
  obtain ⟨above, q, placed, kind, _⟩ := placed_child reach (isDao_of_daoClass class_) hc
  cases kind_ : child.kind with
  | map =>
    rw [kind_] at kind
    have own : steps = child.path.steps := by simpa [DaoChild.valuePaths, kind_] using holds
    cases kind with
    | map isMap => exact own ▸ map_plain class_ reach h seals hc placed kind_ isMap
  | repeated fk =>
    rw [kind_] at kind
    have own : steps = child.path.steps := by simpa [DaoChild.valuePaths, kind_] using holds
    cases kind with
    | scalars isList => exact own ▸ list_plain class_ reach h seals hc placed kind_ isList
    | links plain rep type found =>
      exact own ▸ links_plain class_ reach h seals hc placed clear kind_ plain rep type found
  | composed columns =>
    rw [kind_] at kind
    cases kind with
    | elements plain rep type found flat =>
      simp only [DaoChild.valuePaths, kind_] at holds
      split at holds
      next all =>
        obtain ⟨col, hcol, rfl⟩ := List.mem_map.mp holds
        refine composed_plain class_ reach h seals hc placed kind_ plain rep type found flat
          (fun col hcol => ?_) hcol
        exact List.all_eq_true.mp all _ (List.mem_map_of_mem hcol)
      next => cases holds

end Exposed

/-- Where every access path reaches its field and the process-wide provider can seal, the values of
`phi` fields are all sealed exactly when those that are stored are for singular scalars of table
messages. The singular scalars are sealed whatever else the schema has. -/
theorem allPhiSealed_iff (E : DaoEnv) :
    (AllAccessClear E.schema → E.defaultProvider.Seals →
      (AllPhiSealed E ↔ PhiOwnScalars E.schema)) ∧
    (OwnPhiOnly E.schema → AllPhiSealed E) ∧ OwnPhiSealed E := by
  refine ⟨fun clear seals => ?_, allPhiSealed_of_own, dao_guards_phi E⟩
  rw [← ownPhiOnly_iff clear]
  refine ⟨fun h name dao class_ => ?_, allPhiSealed_of_own⟩
  have isDao := isDao_of_daoClass class_
  have reach : PathsReach sqlite E.schema dao.message :=
    (pathsReach_iff isDao.mem isDao.table).mpr (clear dao.message isDao.mem isDao.table)
  constructor
  · exact fun col hcol value phi => column_own class_ reach h seals hcol value phi
  · intro child hc steps holds
    exact Bool.eq_false_iff.mpr (child_plain class_ reach clear h seals hc holds)

/-- Citizens with nothing but a `phi` number. -/
def citizen : Message := { name := "citizen", tableName := "citizens", user := [ssn] }

def citizenSchema : Schema where
  messages := [citizen]
  names_nodup := by decide
  names_allowed := by decide +kernel
  tables_identifier := by decide +kernel
  rank _ := 0
  rank_lt := by decide
  declared_before := by decide +kernel

def citizenEnv : DaoEnv := { visitEnv with schema := citizenSchema }

theorem accessClear_citizen : AllAccessClear citizenSchema := by
  intro m hm table
  obtain rfl := List.mem_singleton.mp hm
  apply accessClear_of_flat
  · decide +kernel
  · unfold Alone
    decide +kernel

theorem seals_fresh : (KeyProvider.fresh [7]).Seals := ⟨by decide, by decide⟩

theorem phiOwnScalars_citizen : PhiOwnScalars citizenSchema := by
  intro m hm _ path stored phi
  obtain rfl := List.mem_singleton.mp hm
  have fields : ∀ p ∈ citizen.places, p.1.singular ∧ isScalarToken p.1.type ∧
      embedTarget citizenSchema.types p.1 = none ∧ composedTarget citizenSchema.types p.1 = none := by
    decide +kernel
  cases stored with
  | @column above p chain column =>
    cases above with
    | nil =>
      have own := fields p (chain_cons chain).1
      exact ⟨p, rfl, own.1, own.2.1⟩
    | cons q above =>
      obtain ⟨hq, none_ | ⟨m, embed, _⟩⟩ := chain_cons chain
      · simp at none_
      · rw [(fields q hq).2.2.1] at embed
        cases embed
  | @child p hp stored => exact ⟨p, rfl, (fields p hp).1, (fields p hp).2.1⟩
  | embedded hp embed hq stored =>
    rw [(fields _ hp).2.2.1] at embed
    cases embed
  | element hp plain rep composed scalars hq column =>
    rw [(fields _ hp).2.2.2] at composed
    cases composed

theorem allPhiSealed_citizen : AllPhiSealed citizenEnv :=
  ((allPhiSealed_iff citizenEnv).1 accessClear_citizen seals_fresh).mpr phiOwnScalars_citizen

end Harpia
