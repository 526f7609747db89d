import Harpia.DaoReadValues

namespace Harpia

open Text Sqlite Proto

section Places

variable {types : Types} {d : Message} {m : Msg}

theorem wellTyped_empty (types : Types) (d : Message) : WellTyped types d .empty := by
  refine .mk (fun name v c _ held => ?_) fun name v d' o _ _ held => ?_
  · rw [Msg.get?_empty] at held
    cases held
  · rcases held with held | held
    · cases held
    · cases held

theorem subType_message {v : Variable} {d' : Message} (h : subType types v = some d') :
    messageType types v = some d' := by
  unfold subType at h
  split at h
  next => exact h
  next => cases h

theorem WellTyped.own {v : Variable} {name : String} {c : Content Msg} (h : WellTyped types d m)
    (field : d.field? name = some v) (held : m.get? name = some c) : Allowed types v c := by
  cases h with
  | mk own deeper => exact own name v c field held

theorem WellTyped.sub {v : Variable} {name : String} {d' : Message} (h : WellTyped types d m)
    (field : d.field? name = some v) (sub : subType types v = some d') :
    WellTyped types d' ((m.sub? name).getD .empty) := by
  cases h with
  | mk own deeper =>
    cases hs : m.sub? name with
    | none => exact wellTyped_empty types d'
    | some o => exact deeper name v d' o field (subType_message sub) (.inl hs)

theorem WellTyped.element {v : Variable} {name : String} {d' : Message} {o : Msg}
    (h : WellTyped types d m) (field : d.field? name = some v)
    (type : messageType types v = some d') (mem : o ∈ m.elements name) : WellTyped types d' o := by
  cases h with
  | mk own deeper => exact deeper name v d' o field type (.inr mem)

/-- Below some attribute names stands a message of the type there. -/
theorem WellTyped.inner {path : List String} {owner : Message × Msg} (h : WellTyped types d m)
    (place : ownerOf types path d .empty = some owner) : WellTyped types owner.1 (m.inner path) := by
  induction path generalizing d m with
  | nil =>
    cases place
    exact h
  | cons step path ih =>
    obtain ⟨sub, hsub, place⟩ := Option.bind_eq_some_iff.mp place
    obtain ⟨v, field, sub_⟩ := Option.bind_eq_some_iff.mp hsub
    rw [Msg.inner_cons]
    exact ih (h.sub field sub_) place

theorem embedsSet_of_at? {path : List String} {owner : Message × Msg}
    (place : ownerOf types path d .empty = some owner) (there : (m.at? path).isSome) :
    embedsSet types path d m = some true := by
  induction path generalizing d m with
  | nil => rfl
  | cons step path ih =>
    obtain ⟨sub, hsub, place⟩ := Option.bind_eq_some_iff.mp place
    obtain ⟨v, field, sub_⟩ := Option.bind_eq_some_iff.mp hsub
    obtain ⟨o, there⟩ := Option.isSome_iff_exists.mp there
    obtain ⟨c, hc, there⟩ := Option.bind_eq_some_iff.mp there
    have set_ : hasField types d m step = some true := by
      rw [hasField, field, Option.bind_some, if_pos (by rw [sub_, Option.isSome_some]), hc,
        Option.isSome_some]
    rw [embedsSet, set_, Option.bind_some, if_pos rfl, hsub, Option.bind_some, hc, Option.getD_some]
    exact ih place (by rw [there, Option.isSome_some])

theorem field?_name {name : String} {v : Variable} (h : d.field? name = some v) : v.name = name := by
  simpa using List.find?_some h

end Places

/-- The column holds the value of its field; a sealed one opens to it. -/
def ColumnHolds (R : ReadEnv) (p : KeyProvider) (d : Message) (msg : Msg) (col : DaoColumn)
    (v : Value) : Prop :=
  if col.phi then
    ∃ owner field, ownerOf R.schema.types col.path.owner d msg = some owner ∧
      owner.1.field? col.path.field = some field ∧
      if isUnsetOptional field owner.2 then v = .null
      else ∃ stored, v = .text (String.ofList stored) ∧
        decryptField .python p stored = (plaintext R.fixed (attrValue field owner.2) : Plain .python)
  else columnValue R.schema.types d msg col = some v

section Column

variable {R : ReadEnv} {p : KeyProvider} {d : Message} {msg out : Msg} {col : DaoColumn} {v : Value}

/-- The field of a message below some attribute names is made what it is in `msg`. -/
theorem fills_field {path : List String} {name : String} {f : Msg → Option Msg} (h : out.Within msg)
    (there : (msg.at? path).isSome)
    (copies : ∀ o, f o = some (o.set name ((msg.inner path).get? name)))
    (plain : (msg.inner path).list name = [] ∧ (msg.inner path).elements name = [] ∧
      (msg.inner path).sub? name = none) :
    ∃ out', out.modify f path = some out' ∧ msg.Fills [] out out' ∧
      msg.KeptAt out' (path.map .field) name := by
  obtain ⟨out', hm⟩ := Msg.modify_exists (copies (out.inner path))
  obtain ⟨fills, kept_, _⟩ : Msg.Fills _ [[name]] _ _ ∧ _ := Msg.fills_copy (h.inner path)
  have read : ((out.inner path).set name ((msg.inner path).get? name)).get? name =
      (msg.inner path).get? name := by rw [Msg.get?_set, if_pos rfl]
  have quiet : Msg.NewLists [] (out.inner path)
      ((out.inner path).set name ((msg.inner path).get? name)) := by
    obtain ⟨list, elements, sub⟩ := plain
    refine Msg.newLists_set_plain ?_ ?_ ?_
    · simpa only [Msg.list, read] using list
    · simpa only [Msg.elements, read] using elements
    · simpa only [Msg.sub?, read] using sub
  refine ⟨out', hm, ?_, ?_⟩
  · have modified : msg.Fills ([].map (path ++ ·)) out out' := by
      apply Msg.fills_modify h there hm
      intro o ho
      rw [copies] at ho
      cases ho
      exact ⟨fills.grows, fills.within, quiet⟩
    exact modified
  · obtain ⟨o, ho, at_⟩ := Msg.modify_at hm
    rw [copies] at ho
    cases ho
    have inner : out'.inner path = (out.inner path).set name ((msg.inner path).get? name) := by
      rw [Msg.inner, at_, Option.getD_some]
    rw [Msg.KeptAt, Msg.under_fields, Msg.under_fields, inner]
    exact kept_

theorem keptAt_of_none {path : List String} {name : String} (h : (msg.inner path).get? name = none) :
    msg.KeptAt out (path.map .field) name := by
  rw [Msg.KeptAt, Msg.under_fields]
  exact .of_none _ h

/-- What a scalar field holds is neither a list nor a message. -/
theorem scalarField_plain {m : Msg} {field : Variable} {name : String}
    (own : ∀ c, m.get? name = some c → Allowed R.schema.types field c)
    (hs : isScalarField R.schema.types field) (hname : field.name = name) :
    m.list name = [] ∧ m.elements name = [] ∧ m.sub? name = none := by
  rcases attrValue_cases own hs hname with ⟨none_, _⟩ | ⟨x, some_, _⟩
  · simp [Msg.list, Msg.elements, Msg.sub?, none_]
  · simp [Msg.list, Msg.elements, Msg.sub?, some_]

/-- Reading the value that was bound for a field puts back what it holds. -/
theorem tracksPresence_scalar {types : Types} {field : Variable} (hs : isScalarField types field) :
    tracksPresence types field = hasPresence field := by
  rw [tracksPresence, subType_of_isScalarField hs, hs, Option.isSome_none, Bool.true_and, Bool.false_or]

/-- An optional field that is bound to NULL is not set. -/
theorem get?_of_unset {types : Types} {field : Variable} {m : Msg} {name : String}
    (own : ∀ c, m.get? name = some c → Allowed types field c) (hs : isScalarField types field)
    (hname : field.name = name) (unset : isUnsetOptional field m) :
    hasPresence field = true ∧ m.get? name = none := by
  have both : hasPresence field = true ∧ m.scalar? field.name = none := by
    simpa [isUnsetOptional] using unset
  refine ⟨both.1, ?_⟩
  rcases attrValue_cases own hs hname with ⟨none_, _⟩ | ⟨x, some_, _⟩
  · exact none_
  · have read := both.2
    rw [hname, Msg.scalar?, some_] at read
    cases read

theorem setColumn_fills (wt : WellTyped R.schema.types d msg) (h : out.Within msg)
    (plain : col.presence = false) (fk : col.fk = none) (there : (msg.at? col.path.owner).isSome)
    (bound : columnValue R.schema.types d msg col = some v) :
    ∃ out', setColumn R d out col v = some out' ∧ msg.Fills [] out out' ∧
      msg.KeptAt out' (col.path.owner.map .field) col.path.field := by
  obtain ⟨owner, place, bound⟩ := Option.bind_eq_some_iff.mp bound
  rw [if_neg (by simp [plain]), if_neg (by simp [fk])] at bound
  rw [ownerOf_eq] at place
  obtain ⟨o, empty, rfl⟩ := Option.map_eq_some_iff.mp place
  rw [embedsSet_of_at? empty there, Option.bind_some, if_pos rfl] at bound
  obtain ⟨field, found, bound⟩ := Option.bind_eq_some_iff.mp bound
  split at bound
  next hs =>
    have hname := field?_name found
    have own : ∀ c, (msg.inner col.path.owner).get? col.path.field = some c →
        Allowed R.schema.types field c := fun c held => (wt.inner empty).own found held
    rw [setColumn, ownerOf_eq, empty, Option.map_some, Option.bind_some, found, Option.bind_some,
      tracksPresence_scalar hs]
    cases unset : isUnsetOptional field (msg.inner col.path.owner) with
    | true =>
      rw [unset, if_pos rfl] at bound
      cases bound
      obtain ⟨presence, none_⟩ := get?_of_unset own hs hname unset
      rw [if_pos ⟨rfl, presence⟩]
      exact ⟨out, rfl, .refl _ h, keptAt_of_none none_⟩
    | false =>
      rw [unset, if_neg (by simp)] at bound
      cases bound
      have given : ¬ (toDb (attrValue field (msg.inner col.path.owner)) = .null ∧
          hasPresence field = true) := fun no => toDb_ne_null _ no.1
      rw [if_neg given]
      refine fills_field h there (fun o' => ?_) (scalarField_plain own hs hname)
      obtain ⟨x, read, keeps⟩ := Option.bind_eq_some_iff.mp (fromDb_attrValue (R := R) own hs hname)
      rw [extractValue, if_pos hs, if_neg given, read, Option.bind_some]
      exact setAttr_copies own hs hname unset keeps
  next => cases bound

theorem loadColumn_fills (wt : WellTyped R.schema.types d msg) (h : out.Within msg)
    (plain : col.presence = false) (fk : col.fk = none) (there : (msg.at? col.path.owner).isSome)
    (scalar : col.phi → ∀ owner field, ownerOf R.schema.types col.path.owner d .empty = some owner →
      owner.1.field? col.path.field = some field → isScalarField R.schema.types field)
    (holds : ColumnHolds R p d msg col v) :
    ∃ out', loadColumn R p d out col v = some out' ∧ msg.Fills [] out out' ∧
      msg.KeptAt out' (col.path.owner.map .field) col.path.field := by
  unfold ColumnHolds at holds
  unfold loadColumn
  split at holds
  next phi =>
    obtain ⟨owner, field, place, found, holds⟩ := holds
    rw [ownerOf_eq] at place
    obtain ⟨o, empty, rfl⟩ := Option.map_eq_some_iff.mp place
    have hs := scalar phi o field empty found
    have hname := field?_name found
    have own : ∀ c, (msg.inner col.path.owner).get? col.path.field = some c →
        Allowed R.schema.types field c := fun c held => (wt.inner empty).own found held
    rw [if_pos phi, ownerOf_eq, empty, Option.map_some, Option.bind_some, found, Option.bind_some,
      tracksPresence_scalar hs]
    split at holds
    next unset =>
      subst holds
      obtain ⟨presence, none_⟩ := get?_of_unset own hs hname unset
      rw [if_pos ⟨rfl, presence⟩]
      exact ⟨out, rfl, .refl _ h, keptAt_of_none none_⟩
    next given =>
      obtain ⟨stored, rfl, opens⟩ := holds
      rw [if_neg (by simp), if_pos hs]
      refine fills_field h there (fun o' => ?_) (scalarField_plain own hs hname)
      have text : (storedText R (.text (String.ofList stored))).toList = stored := by
        rw [storedText, String.toList_ofList]
      rw [text]
      exact setAttr_copies own hs hname (by simpa using given)
        (decryptValue_plaintext opens (attrValue_read own hs hname))
  next phi =>
    rw [if_neg phi]
    exact setColumn_fills wt h plain fk there holds

end Column

end Harpia
